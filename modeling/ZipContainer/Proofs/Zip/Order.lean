import ZipContainer.Proofs.Zip.Integrity

/-!
# Decoding in the order of the directory

Decoding an archive with a readable directory is reading its files one by one, in the order of the
directory and each against the whole archive, with bounds that all records take part in.  It yields all
of them, or nothing but the failure of the first that fails (`decode_in_order`).  Where that is a
failure of a member, it names the record at which it happened (`readMember_tells`).  Records that stand
for directories are not read at all.

For this the data have to begin like an archive: they are refused otherwise, even if there is a
directory in which every file can be read (`shifted_archive_refused`).
-/

namespace ZipContainer.Zip

variable {data : ByteArray} {limit : Option Int} {r : Record} {bound : Int} {f : Failure}

/-! ### Failures tell the record -/

/-- If the failure is one of a member, it tells the name of the record. -/
def Tells (r : Record) : Failure → Prop
  | .member name _ | .unsupported name _ => name = r.name
  | _ => True

theorem locate_tells : FailsOnly (Tells r) (locate data r bound) := by
  unfold locate
  refine .check (fun _ => trivial) fun _ => ?_
  refine .check (fun _ => rfl) fun _ => ?_
  refine .check (fun _ => rfl) fun _ => ?_
  refine .check (fun _ => rfl) fun _ => ?_
  refine .check (fun _ => rfl) fun _ => ?_
  refine .check (fun _ => rfl) fun _ => ?_
  dsimp only
  split
  · exact .error rfl
  · refine .check (fun _ => rfl) fun _ => ?_
    refine .check (fun _ => rfl) fun _ => ?_
    exact .check (fun _ => rfl) fun _ => .ok _

theorem readPacked_tells : FailsOnly (Tells r) (readPacked data limit r bound) := by
  unfold readPacked
  refine .bind locate_tells fun start _ => ?_
  dsimp only
  split
  · exact .error rfl
  · split
    · exact .error trivial
    · exact .error rfl
    · refine .check (fun _ => rfl) fun _ => ?_
      exact .check (fun _ => trivial) fun _ => .ok _

section

variable [Zstandard.Decoder]

theorem unpackZstandard_tells (packed : ByteArray) :
    FailsOnly (Tells r) (unpackZstandard r packed) := by
  unfold unpackZstandard
  split
  · exact .error trivial
  split
  · exact .error rfl
  · exact .error trivial
  split
  · exact .error rfl
  split
  · exact .error rfl
  · exact .ok _

theorem readZstandard_tells : FailsOnly (Tells r) (readZstandard data r) := by
  unfold readZstandard
  refine .check (fun _ => rfl) fun _ => ?_
  refine .check (fun _ => rfl) fun _ => ?_
  refine .check (fun _ => rfl) fun _ => ?_
  exact .check (fun _ => rfl) fun _ => unpackZstandard_tells _

/-- **A failure to read a member tells its name.** -/
theorem readMember_tells : FailsOnly (Tells r) (readMember data limit r bound) := by
  unfold readMember
  split
  · exact .error trivial
  · split
    · exact readZstandard_tells
    · exact readPacked_tells

/-! ### In the order of the directory -/

/-- The first of the files that cannot be read fails so, and a failure of a member tells which one it
is. -/
def FailsFirst (data : ByteArray) (limit : Option Int) (files : List (Record × Int)) (f : Failure) :
    Prop :=
  ∃ pre m post, files = pre ++ m :: post ∧
    (∀ x ∈ pre, ∃ content, readMember data limit x.1 x.2 = .ok content) ∧
    readMember data limit m.1 m.2 = .error f ∧ Tells m.1 f

/-- Decoding an archive is reading the files of its directory in order. -/
structure InOrder (data : ByteArray) (limit : Option Int) (d : Directory) : Prop where
  /-- The records are those that are listed, in that order. -/
  lists : Lists data (d.records.map Prod.fst)
  /-- All of them take part in the bounds. -/
  bounds : d.records = withBounds d.start (d.records.map Prod.fst)
  /-- Files are read one by one. -/
  sequence : decode data limit = d.files.mapM (memberOf data limit)
  /-- There is an entry for every file, in order. -/
  yields (es : List Entry) :
    decode data limit = .ok es ↔ List.Forall₂ (Delivers data limit) d.files es
  all : (∃ es, decode data limit = .ok es) ↔
    ∀ m ∈ d.files, ∃ content, readMember data limit m.1 m.2 = .ok content
  first (f : Failure) : decode data limit = .error f ↔ FailsFirst data limit d.files f
  /-- Directories are passed over, whatever their records say. -/
  passed : ∀ m ∈ d.records, m.1.isDirectory = true → entryOf data limit m = .ok none

theorem mapM_memberOf_eq_error_iff {files : List (Record × Int)} :
    files.mapM (memberOf data limit) = .error f ↔ FailsFirst data limit files f := by
  have reads (m : Record × Int) : (∃ e, memberOf data limit m = .ok e) ↔
      ∃ content, readMember data limit m.1 m.2 = .ok content :=
    ⟨fun ⟨e, he⟩ => ⟨e.content, (memberOf_eq_ok_iff.mp he).2⟩,
      fun ⟨content, h⟩ => ⟨⟨m.1.name, content⟩, memberOf_eq_ok_iff.mpr ⟨rfl, h⟩⟩⟩
  simp only [mapM_eq_error_iff, reads, memberOf_eq_error_iff, FailsFirst]
  constructor
  · rintro ⟨pre, m, post, split, before, failed⟩
    exact ⟨pre, m, post, split, before, failed, readMember_tells f failed⟩
  · rintro ⟨pre, m, post, split, before, failed, -⟩
    exact ⟨pre, m, post, split, before, failed⟩

/-- **Decoding is all or nothing, in the order of the directory.**  Let the data begin like an archive
and have a readable directory in which all names are there.  Then the files are read one by one as
they are listed, each with the bound that the records together give it.  There is an entry for every
one of them, or else nothing but the failure of the first that cannot be read, and if that is a failure
of a member, it has the name of that file.  What stands for a directory never fails. -/
theorem decode_in_order {d : Directory} (archive : isArchive data = true)
    (directory : readDirectory data = .ok d) (named : ∀ m ∈ d.records, m.1.name ≠ "") :
    InOrder data limit d := by
  have sequence : decode data limit = d.files.mapM (memberOf data limit) := by
    rw [decode, archive, directory]
    exact readEntries_eq_mapM named
  have yields (es : List Entry) :
      decode data limit = .ok es ↔ List.Forall₂ (Delivers data limit) d.files es := by
    rw [decode_eq_ok_iff]
    constructor
    · rintro ⟨-, d', hd', -, h⟩
      obtain rfl := Except.ok.inj (directory.symm.trans hd')
      exact h
    · exact fun h => ⟨archive, d, directory, named, h⟩
  obtain ⟨records, lists, bounds⟩ := records_of_readDirectory directory
  have listed : d.records.map Prod.fst = records := by rw [bounds, map_fst_withBounds]
  exact {
    lists := listed ▸ lists
    bounds := listed ▸ bounds
    sequence := sequence
    yields := yields
    all := by
      simp only [yields, exists_forall₂_iff]
      refine forall₂_congr fun m _ => ⟨?_, ?_⟩
      · rintro ⟨e, -, h⟩
        exact ⟨e.content, h⟩
      · rintro ⟨content, h⟩
        exact ⟨⟨m.1.name, content⟩, rfl, h⟩
    first := fun f => by rw [sequence, mapM_memberOf_eq_error_iff]
    passed := fun m hm directory => entryOf_directory (named m hm) directory }

end

open scoped Zstandard in
/-- A directory is passed over, whatever its record says, and of two files that cannot be read the one
that is listed first is the failure. -/
theorem bogus_directory_passed :
    let d : Packed := ⟨"d/".toUTF8, 1, 99, 0, 7, ByteArray.empty⟩
    let b : Packed := ⟨"b".toUTF8, 0, Method.stored.code, 0, 1, bytesOf [0x62]⟩
    let a : Packed := ⟨"a".toUTF8, 0, 99, 0, 1, bytesOf [0x61]⟩
    decode (layout ⟨2020, 2, 3, 4, 5, 6⟩ [d, b, a]) (some 5) =
      .error (.member "b" (.checksum "b")) := by
  intro d b a
  let now : Moment := ⟨2020, 2, 3, 4, 5, 6⟩
  have each : ∀ p ∈ [d, b, a], (nameText p.flags p.name = .ok p.text ∧ p.name.size ≤ maxField ∧
      p.flags ≤ maxField ∧ p.method ≤ maxField ∧ p.content.size < absent32 ∧
      p.size ≤ absent32) ∧ isWide p.size = false ∧ p.content.size ≤ shortLimit := by decide +kernel
  have fits : ∀ p ∈ [d, b, a], p.Fits := by
    intro p hp
    obtain ⟨⟨text, name, flags, method, content, size⟩, -⟩ := each p hp
    exact ⟨text, name, flags, method, content, size⟩
  have plain : Plain now [d, b, a] := {
    sizes := fun p hp => ⟨(each p hp).2.1, (each p hp).2.2⟩
    offsets := by decide +kernel
    fits := fits
    size := by decide +kernel
    locator := fun _ _ => by decide +kernel }
  have named : ∀ m ∈ membersFrom now [d, b, a] 0, m.1.name ≠ "" := by decide +kernel
  have order : InOrder (layout now [d, b, a]) (some 5) _ :=
    decode_in_order plain.isArchive (readDirectory_layout plain) named
  have files : (membersFrom now [d, b, a] 0).filter (fun m => !m.1.isDirectory) =
      [(b.record now 32, 64), (a.record now 64, 96)] := by decide +kernel
  have failed : readMember (layout now [d, b, a]) (some 5) (b.record now 32) 64 =
      .error (.member "b" (.checksum "b")) := by decide +kernel
  exact (order.first _).mpr ⟨[], _, _, files, nofun, failed, readMember_tells _ failed⟩

open scoped Zstandard in
/-- An archive with a byte in front is refused, though its directory and its file can be read. -/
theorem shifted_archive_refused :
    let e : Entry := ⟨"a", bytesOf [0x61]⟩
    let data := bytesOf [0x58] ++ layout ⟨2020, 2, 3, 4, 5, 6⟩ [packed .stored e]
    decode data (some 268435456) = .error (.container .missingSignature) ∧
      ∃ d, readDirectory data = .ok d ∧ (∀ m ∈ d.records, m.1.name ≠ "") ∧
        List.Forall₂ (Delivers data (some 268435456)) d.files [e] := by
  intro e data
  let r : Record := { (packed .stored e).record ⟨2020, 2, 3, 4, 5, 6⟩ 0 with offset := 1 }
  have ending : readEnd data = .ok ⟨80, 47, 32, false, ByteArray.empty⟩ := by decide +kernel
  have records : readRecords (data.extract 33 (33 + 47)) 47 1 48 0 [] = .ok [r] := by
    decide +kernel
  have bounds : withBounds 33 [r] = [(r, 33)] :=
    withBounds_of_increasing 33 (List.pairwise_singleton _ r)
  have directory : readDirectory data = .ok ⟨33, [(r, 33)], ByteArray.empty⟩ := by
    rw [readDirectory_of_readEnd ending, if_neg (by decide), ← bounds]
    exact congrArg _ records
  have files : Directory.files ⟨33, [(r, 33)], ByteArray.empty⟩ = [(r, 33)] := by decide +kernel
  have delivers : Delivers data (some 268435456) (r, 33) e :=
    ⟨by decide +kernel, by decide +kernel⟩
  refine ⟨by decide +kernel, _, directory, by decide +kernel, ?_⟩
  rw [files]
  exact .cons delivers .nil

end ZipContainer.Zip
