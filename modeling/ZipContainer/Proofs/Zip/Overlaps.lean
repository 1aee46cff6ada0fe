import ZipContainer.Proofs.Zip.Places

/-!
# Overlapping members

A member that is not packed by Zstandard has to end by its bound, and reading depends on its bound
in no other way (`readMember_eq_ok_iff`); a member that is packed by Zstandard is read whatever its
bound. So an archive decodes exactly if every file can be read by itself and the others keep apart,
from any record that is said to begin behind them and from the directory
(`decode_eq_ok_iff_apart`).

Two files that overlap are refused if the leading one is not packed by Zstandard, and read else
(`overlaps_exactly`): a Zstandard member may enclose others, share its bytes with another and reach
into the directory.  A record that is said to begin behind the directory lets a plain member do so.
-/

namespace ZipContainer.Zip

variable {data content : ByteArray} {limit : Option Int} {es : List Entry} {r : Record}
  {bound pos : Int} {start : Nat}

/-! ### Reading a member by itself -/

/-- A member is opened, unless it is packed by Zstandard, and ends by its bound. -/
theorem opens_of_readMember [Zstandard.Decoder] (hmethod : r.method ≠ Method.zstandard.code)
    (h : readMember data limit r bound = .ok content) :
    Opens data r ∧ (r.last data : Int) ≤ bound := by
  obtain ⟨-, -, ⟨zstandard, -⟩ | ⟨-, s, hs, -⟩⟩ := readMember_ok h
  · exact absurd zstandard hmethod
  · obtain ⟨start, p, hl, -⟩ := source?_eq_some_iff.mp hs
    obtain ⟨opens, -, room⟩ := locate_eq_ok_iff.mp hl
    exact ⟨opens, room⟩

/-- **The bound of a member says where it has to end**, if it is not packed by Zstandard, and
reading depends on it in no other way. -/
theorem readMember_eq_ok_iff [Zstandard.Decoder] :
    readMember data limit r bound = .ok content ↔
      (r.method ≠ Method.zstandard.code → (r.last data : Int) ≤ bound) ∧
        ∃ b, readMember data limit r b = .ok content := by
  by_cases hmethod : r.method = Method.zstandard.code
  · constructor
    · exact fun h => ⟨fun plain => absurd hmethod plain, bound, h⟩
    · rintro ⟨-, b, h⟩
      rw [← h]
      simp only [readMember, if_pos hmethod]
  · constructor
    · exact fun h => ⟨fun _ => (opens_of_readMember hmethod h).2, bound, h⟩
    · rintro ⟨room, b, h⟩
      obtain ⟨opens, room'⟩ := opens_of_readMember hmethod h
      have here : locate data r b = .ok (r.first data) :=
        locate_eq_ok_iff.mpr ⟨opens, rfl, room'⟩
      have there : locate data r bound = .ok (r.first data) :=
        locate_eq_ok_iff.mpr ⟨opens, rfl, room hmethod⟩
      -- Nothing else looks at the bound.
      rw [← h]
      simp only [readMember, if_neg hmethod, readPacked, here, there]

/-- Decoding would deliver the entry for the record under some bound. -/
def DeliversAlone [Zstandard.Decoder] (data : ByteArray) (limit : Option Int) (r : Record)
    (e : Entry) : Prop :=
  e.path = r.name ∧ ∃ bound, readMember data limit r bound = .ok e.content

theorem delivers_iff [Zstandard.Decoder] {m : Record × Int} {e : Entry} :
    Delivers data limit m e ↔
      (m.1.method ≠ Method.zstandard.code → (m.1.last data : Int) ≤ m.2) ∧
        DeliversAlone data limit m.1 e := by
  rw [Delivers, DeliversAlone, readMember_eq_ok_iff]
  exact and_left_comm

/-! ### Archives -/

variable {d : Directory} {records : List Record}

/-- The records of a directory, without their bounds. -/
def Directory.listed (d : Directory) : List Record := d.records.map Prod.fst

/-- The records that stand for files, without their bounds. -/
def Directory.listedFiles (d : Directory) : List Record := d.listed.filter fun r => !r.isDirectory

theorem map_fst_files : d.files.map Prod.fst = d.listedFiles := by
  rw [Directory.files, Directory.listedFiles, Directory.listed, List.filter_map]
  rfl

theorem mem_listedFiles : r ∈ d.listedFiles ↔ r ∈ d.listed ∧ r.isDirectory = false := by
  rw [Directory.listedFiles, List.mem_filter, Bool.not_eq_true']

/-- A record keeps to a position: if it stands for a file that is not packed by Zstandard, its
packed data end by there. -/
def EndsBy (data : ByteArray) (r : Record) (pos : Int) : Prop :=
  r.isDirectory = false → r.method ≠ Method.zstandard.code → (r.last data : Int) ≤ pos

theorem EndsBy.mono {pos' : Int} (h : EndsBy data r pos) (hle : pos ≤ pos') :
    EndsBy data r pos' :=
  fun file plain => Int.le_trans (h file plain) hle

/-- Records keep apart from each other and from the directory: of any two, one keeps off the other,
and one that no other begins behind keeps to the start of the directory. -/
structure Apart (data : ByteArray) (start : Int) (records : List Record) : Prop where
  pairs : records.Pairwise (KeepsOff (EndsBy data))
  last : ∀ r ∈ records, (∀ r' ∈ records, r'.offset ≤ r.offset) → EndsBy data r start

/-- A member that is opened ends behind the place where it begins. -/
theorem Opens.offset_lt (h : Opens data r) : r.offset < r.last data := by
  have := h.within
  have := h.header
  have span : localSize ≤ headerSpan data r.offset.toNat := by rw [headerSpan]; omega
  have : 0 < localSize := by decide
  rw [Record.last, Record.first]
  omega

/-- Nothing is asked of files that are all packed by Zstandard. -/
theorem apart_of_zstandard {start : Int}
    (h : ∀ r ∈ records, r.method = Method.zstandard.code) : Apart data start records := by
  have keeps : ∀ r ∈ records, ∀ pos, EndsBy data r pos := fun r hr _ _ plain =>
    absurd (h r hr) plain
  refine ⟨List.pairwise_of_forall_mem_list fun r hr r' hr' => ?_, fun r hr _ => keeps r hr start⟩
  unfold KeepsOff
  split
  · exact keeps r hr _
  · exact keeps r' hr' _

/-- Files that can be read by themselves end by their bounds if the records keep apart. -/
theorem apart_iff [Zstandard.Decoder] (hd : readDirectory data = .ok d)
    (alone : ∀ r ∈ d.listedFiles, ∃ e, DeliversAlone data limit r e) :
    (∀ m ∈ d.files, m.1.method ≠ Method.zstandard.code → (m.1.last data : Int) ≤ m.2) ↔
      Apart data d.start d.listed := by
  obtain ⟨records, -, same⟩ := records_of_readDirectory hd
  have listed : d.listed = records := by rw [Directory.listed, same, map_fst_withBounds]
  have files : (∀ m ∈ d.files, m.1.method ≠ Method.zstandard.code →
      (m.1.last data : Int) ≤ m.2) ↔
      ∀ m ∈ withBounds d.start records, EndsBy data m.1 m.2 := by
    rw [Directory.files, same]
    simp only [List.mem_filter, Bool.not_eq_true', and_imp]
    rfl
  -- No file that is read ends where it begins, so none keeps to its own offset.
  have proper : ∀ r ∈ records, EndsBy data r r.offset → ∀ pos, EndsBy data r pos := by
    intro r hr keeps pos file plain
    obtain ⟨e, -, b, read⟩ := alone r (mem_listedFiles.mpr ⟨listed ▸ hr, file⟩)
    have := (opens_of_readMember plain read).1.offset_lt
    have := keeps file plain
    omega
  rw [files, listed, keeps_withBounds_iff (E := EndsBy data) EndsBy.mono proper]
  exact ⟨fun h => ⟨h.1, h.2⟩, fun h => ⟨h.pairs, h.last⟩⟩

/-- **An archive decodes** exactly if every file can be read by itself, and those that are not
packed by Zstandard keep off what is said to begin behind them. -/
theorem decode_eq_ok_iff_apart [Zstandard.Decoder] :
    decode data limit = .ok es ↔ isArchive data = true ∧ ∃ d, readDirectory data = .ok d ∧
      (∀ r ∈ d.listed, r.name ≠ "") ∧ List.Forall₂ (DeliversAlone data limit) d.listedFiles es ∧
      Apart data d.start d.listed := by
  rw [decode_eq_ok_iff]
  refine and_congr_right fun _ => exists_congr fun d => and_congr_right fun hd => ?_
  rw [Directory.listed, List.forall_mem_map]
  refine and_congr_right fun _ => ?_
  have split : List.Forall₂ (Delivers data limit) d.files es ↔
      (∀ m ∈ d.files, m.1.method ≠ Method.zstandard.code → (m.1.last data : Int) ≤ m.2) ∧
        List.Forall₂ (DeliversAlone data limit) d.listedFiles es := by
    rw [← map_fst_files, List.forall₂_map_left_iff, ← List.forall₂_and_left]
    exact ⟨.imp fun _ _ => delivers_iff.mp, .imp fun _ _ => delivers_iff.mpr⟩
  rw [split, and_comm]
  exact and_congr_right fun alone => apart_iff hd (exists_of_forall₂ alone)

/-! ### Ranges -/

/-- The bytes from one place up to another are those of a member, from its local header to the end
of its packed data. -/
inductive Occupies (data : ByteArray) (r : Record) : Nat → Nat → Prop
  | opened (plain : r.method ≠ Method.zstandard.code) (opens : Opens data r) :
      Occupies data r r.offset.toNat (r.last data)
  | found {head body : Nat} (zstandard : r.method = Method.zstandard.code)
      (found : FoundAt data r head body) : Occupies data r head (body + r.compressedSize)

/-- Two members occupy bytes in common. -/
def Overlap (data : ByteArray) (r r' : Record) : Prop :=
  ∃ first last first' last', Occupies data r first last ∧ Occupies data r' first' last' ∧
    first < last' ∧ first' < last

/-- Of two records, the one that is said to begin first; where both begin at one place, the one
that is listed last. -/
def leading (r r' : Record) : Record := if r.offset < r'.offset then r else r'

/-- A member that is read occupies bytes. -/
theorem occupies_of_readMember [Zstandard.Decoder]
    (h : readMember data limit r bound = .ok content) :
    ∃ first last, Occupies data r first last := by
  by_cases hmethod : r.method = Method.zstandard.code
  · obtain ⟨-, -, ⟨-, read, -⟩ | ⟨plain, -⟩⟩ := readMember_ok h
    · obtain ⟨head, body, found, -⟩ := readZstandard_eq_ok_iff.mp read
      exact ⟨_, _, .found hmethod found⟩
    · exact absurd hmethod plain
  · exact ⟨_, _, .opened hmethod (opens_of_readMember hmethod h).1⟩

/-- A member that is not said to begin before the data begins where it is said to. -/
theorem Occupies.begins {first last : Nat} (h : Occupies data r first last)
    (within : 0 ≤ r.offset) : r.offset = first := by
  cases h with
  | opened => omega
  | found _ found => exact (found.placement.stated within).1

theorem Overlap.symm {r' : Record} (h : Overlap data r r') : Overlap data r' r := by
  obtain ⟨first, last, first', last', occupies, occupies', reaches, reaches'⟩ := h
  exact ⟨first', last', first, last, occupies', occupies, reaches', reaches⟩

/-- Of two members that overlap, one that keeps to where the other is said to begin is packed by
Zstandard. -/
theorem Overlap.zstandard {r' : Record} (h : Overlap data r r') (order : r.offset ≤ r'.offset)
    (file : r.isDirectory = false) (keeps : EndsBy data r r'.offset) :
    r.method = Method.zstandard.code := by
  obtain ⟨first, last, first', last', occupies, occupies', -, reaches⟩ := h
  cases occupies with
  | found zstandard => exact zstandard
  | opened plain opens =>
      have begins := occupies'.begins (Int.le_trans opens.within order)
      have := keeps file plain
      omega

/-- Where two files overlap, the leading one is packed by Zstandard. -/
theorem Apart.leading_zstandard (h : Apart data d.start d.listed) :
    d.listedFiles.Pairwise fun r r' => Overlap data r r' →
      (leading r r').method = Method.zstandard.code := by
  have files : d.listedFiles.Pairwise (KeepsOff (EndsBy data)) := h.pairs.filter _
  refine files.imp_of_mem fun {r r'} hr hr' keeps overlap => ?_
  unfold KeepsOff at keeps
  unfold leading
  split
  · next lt =>
      rw [if_pos lt] at keeps
      exact overlap.zstandard (Int.le_of_lt lt) (mem_listedFiles.mp hr).2 keeps
  · next ge =>
      rw [if_neg ge] at keeps
      exact overlap.symm.zstandard (Int.not_lt.mp ge) (mem_listedFiles.mp hr').2 keeps

/-- A record keeps off every other that is said to begin behind it, wherever they are listed. -/
theorem Apart.endsBy {start : Int} {r' : Record} (h : Apart data start records) (hr : r ∈ records)
    (hr' : r' ∈ records) (lt : r.offset < r'.offset) : EndsBy data r r'.offset := by
  let R (r r' : Record) : Prop := (r.offset < r'.offset → EndsBy data r r'.offset) ∧
    (r'.offset < r.offset → EndsBy data r' r.offset)
  have symmetric : Std.Symm R := ⟨fun _ _ => And.symm⟩
  have self : ∀ r ∈ records, R r r := fun r _ =>
    ⟨fun lt => absurd lt (Int.lt_irrefl _), fun lt => absurd lt (Int.lt_irrefl _)⟩
  have pairs : records.Pairwise R := h.pairs.imp fun {r r'} keeps => by
    unfold KeepsOff at keeps
    split at keeps
    · next lt => exact ⟨fun _ => keeps, fun gt => absurd lt (by omega)⟩
    · next ge => exact ⟨fun lt => absurd lt ge, fun _ => keeps⟩
  exact (pairs.forall_of_forall self hr hr').1 lt

/-- Where a plain file ends behind the start of the directory, some record is said to begin where it
ends or behind. -/
theorem Apart.exists_behind {start : Int} (h : Apart data start records) (hr : r ∈ records)
    (file : r.isDirectory = false) (plain : r.method ≠ Method.zstandard.code)
    (beyond : start < r.last data) : ∃ r' ∈ records, (r.last data : Int) ≤ r'.offset := by
  by_contra none
  have ends : (r.last data : Int) ≤ start := by
    refine h.last r hr (fun r' hr' => ?_) file plain
    by_contra lt
    exact none ⟨r', hr', h.endsBy hr hr' (Int.not_le.mp lt) file plain⟩
  omega

/-- **Which overlaps are accepted**, exactly.  An archive decodes if every file can be read by
itself and those that are not packed by Zstandard keep apart; what a Zstandard member overlaps is
not looked at.  So of two files of an archive that decodes and that overlap, the leading one is
packed by Zstandard; and a plain file ends by the directory, unless a record is said to begin
behind that. -/
theorem overlaps_exactly [Zstandard.Decoder] (data : ByteArray) (limit : Option Int) :
    (∀ es, decode data limit = .ok es ↔ isArchive data = true ∧
      ∃ d, readDirectory data = .ok d ∧ (∀ r ∈ d.listed, r.name ≠ "") ∧
        List.Forall₂ (DeliversAlone data limit) d.listedFiles es ∧
        Apart data d.start d.listed) ∧
    ∀ es d, decode data limit = .ok es → readDirectory data = .ok d →
      (∀ r ∈ d.listedFiles, ∃ first last, Occupies data r first last) ∧
      (d.listedFiles.Pairwise fun r r' => Overlap data r r' →
        (leading r r').method = Method.zstandard.code) ∧
      ∀ r ∈ d.listedFiles, r.method ≠ Method.zstandard.code → d.start < r.last data →
        ∃ r' ∈ d.listed, (r.last data : Int) ≤ r'.offset := by
  refine ⟨fun es => decode_eq_ok_iff_apart, fun es d h hd => ?_⟩
  obtain ⟨-, d', hd', -, alone, apart⟩ := decode_eq_ok_iff_apart.mp h
  obtain rfl : d' = d := Except.ok.inj (hd'.symm.trans hd)
  refine ⟨fun r hr => ?_, apart.leading_zstandard, fun r hr plain beyond => ?_⟩
  · obtain ⟨e, -, bound, read⟩ := exists_of_forall₂ alone r hr
    exact occupies_of_readMember read
  · obtain ⟨listed, file⟩ := mem_listedFiles.mp hr
    exact apart.exists_behind listed file plain (by omega)

open scoped Zstandard in
/-- Two records that share one Zstandard member are both read. -/
theorem shared_member_read :
    let now : Moment := ⟨2020, 2, 3, 4, 5, 6⟩
    let frame := bytesOf [0x28, 0xB5, 0x2F, 0xFD, 0x20, 2, 0x11, 0, 0, 104, 105]
    let p : Packed := ⟨"z".toUTF8, 0, Method.zstandard.code, crc32 (bytesOf [104, 105]), 2, frame⟩
    let data := p.localRecord now ++ p.directoryRecord now 0 ++ p.directoryRecord now 0 ++
      endRecord 2 94 42
    let r := p.record now 0
    let e : Entry := ⟨"z", bytesOf [104, 105]⟩
    decode data none = .ok [e, e] ∧ ∃ d, readDirectory data = .ok d ∧ d.listedFiles = [r, r] ∧
      Overlap data r r ∧ (leading r r).method = Method.zstandard.code := by
  intro now frame p data r e
  have ending : readEnd data = .ok ⟨136, 94, 42, false, ByteArray.empty⟩ := by decide +kernel
  have records : readRecords (data.extract 42 (42 + 94)) 94 0 95 0 [] = .ok [r, r] := by
    decide +kernel
  obtain ⟨d, hd, listed⟩ := readDirectory_of_lists ⟨_, 42, ending, rfl, records⟩
  have files : d.listedFiles = [r, r] := by
    rw [Directory.listedFiles, Directory.listed, listed]
    decide +kernel
  have alone : DeliversAlone data none r e := ⟨by decide +kernel, 42, by decide +kernel⟩
  have decoded : decode data none = .ok [e, e] := by
    refine ((overlaps_exactly data none).1 _).mpr ⟨by decide +kernel, d, hd, ?_, ?_, ?_⟩
    · rw [Directory.listed, listed]
      decide +kernel
    · rw [files]
      exact .cons alone (.cons alone .nil)
    · rw [Directory.listed, listed]
      exact apart_of_zstandard (by decide +kernel)
  obtain ⟨-, led, -⟩ := (overlaps_exactly data none).2 _ d decoded hd
  have found : FoundAt data r 0 31 := ⟨by decide +kernel, ⟨by decide +kernel, .inl rfl⟩,
    by decide +kernel, ⟨by decide +kernel, .inl (by decide +kernel)⟩⟩
  have overlap : Overlap data r r :=
    ⟨0, 42, 0, 42, .found rfl found, .found rfl found, by decide, by decide⟩
  rw [files] at led
  exact ⟨decoded, d, hd, files, overlap, List.pairwise_pair.mp led overlap⟩

end ZipContainer.Zip
