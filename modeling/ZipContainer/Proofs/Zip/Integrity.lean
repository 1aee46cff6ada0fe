import ZipContainer.Proofs.Zip.Bounds
import ZipContainer.Proofs.Zip.Failures
import ZipContainer.Proofs.Zip.RoundTrip

/-!
# What decoding delivers

Every content that decoding delivers is no longer than its record states and than the limit admits,
and has the stated checksum (`decode_verified`): under a limit no smaller than the stated size,
reading never stops before the member ends, so the checksum is always compared.

The stated size itself is compared for members packed by Zstandard only.  What any other member
delivers is the beginning of what its packed data unpack to, cut at the stated size, and is shorter
where there is no more (`sizes_exactly`).  What the others deliver is `readZstandard_eq_ok_iff_found`.
-/

namespace ZipContainer.Zip

variable {data content : ByteArray} {limit : Option Int} {es : List Entry} {r : Record}
  {bound : Int} {s : Source}

/-! ### Members -/

/-- Where the packed data of a member are, if the member can be opened and is not packed by
Zstandard.  What they unpack to does not depend on the limit, so none is given. -/
def Record.source? (r : Record) (data : ByteArray) (bound : Int) : Option Source :=
  match locate data r bound, Packing.ofCode? r.method with
  | .ok start, some p => some ⟨data, start, p, r.compressedSize, r.size, none⟩
  | _, _ => none

theorem source?_eq_some_iff :
    r.source? data bound = some s ↔ ∃ start p, locate data r bound = .ok start ∧
      Packing.ofCode? r.method = some p ∧ s = ⟨data, start, p, r.compressedSize, r.size, none⟩ := by
  unfold Record.source?
  constructor
  · intro h
    split at h
    · next start p hl hp => exact ⟨start, p, hl, hp, (Option.some.inj h).symm⟩
    · cases h
  · rintro ⟨start, p, hl, hp, rfl⟩
    simp only [hl, hp]

/-- What a source yields does not depend on the limit. -/
theorem Source.Yields.limit_irrel {limit : Option Int}
    (h : ({ s with limit := limit } : Source).Yields content) : s.Yields content := by
  cases h with
  | early n b hn valid enough cut => exact .early n b hn valid enough cut
  | atEnd settled cut => exact .atEnd settled cut

theorem readMember_within [Zstandard.Decoder] (h : readMember data limit r bound = .ok content) :
    withinLimit limit r.size = true := by
  cases hwithin : withinLimit limit r.size with
  | true => rfl
  | false =>
      rw [readMember, hwithin] at h
      cases h

theorem withinLimit_of_le {n m : Nat} (hle : n ≤ m) (h : withinLimit limit m = true) :
    withinLimit limit n = true := by
  cases limit with
  | none => rfl
  | some l =>
      simp only [withinLimit, Option.all_some, decide_eq_true_eq] at h ⊢
      omega

/-- **How reading a packed member comes out** whose size the limit admits: with a request beyond a
machine word, with a fault of a member that is not intact, or with what its data yield, once the
checksum is compared. -/
theorem readPacked_cases (admitted : withinLimit limit r.size = true)
    (hs : r.source? data bound = some s) :
    readPacked data limit r bound = .error .wordRange ∧ Overreaches data limit r bound ∨
    (∃ f, readPacked data limit r bound = .error (.member r.name f) ∧ ¬ s.Intact ∧
      (f = .endOfData ∨ f = s.packing.fault)) ∨
    ∃ content, s.Yields content ∧ readPacked data limit r bound =
      if crc32 content ≠ r.crc then .error (.member r.name (.checksum r.name)) else .ok content := by
  obtain ⟨start, p, hl, hp, rfl⟩ := source?_eq_some_iff.mp hs
  let source : Source := ⟨data, start, p, r.compressedSize, r.size, limit⟩
  have leaves : source.Admitted := by
    rintro l (hlimit : limit = some l)
    simpa [withinLimit, hlimit] using admitted
  have outcome := leaves.read_outcome
  have located : readPacked data limit r bound = _ := readPacked_of_located hl hp
  cases hread : source.read with
  | ok read =>
      rw [hread] at outcome
      cases outcome with
      | yields content hyields =>
          have within := withinLimit_of_le hyields.size_le admitted
          exact .inr (.inr ⟨content, hyields.limit_irrel, readPacked_of_ended hl hp hread within⟩)
  | error f =>
      rw [hread] at outcome
      rw [hread] at located
      cases outcome with
      | fault f broken hf =>
          exact .inr (.inl ⟨f, located, fun h => broken ⟨h.within, h.valid⟩, hf⟩)
      | wordRange =>
          obtain ⟨l, hlimit, hlarge, hpacked⟩ := Source.read_eq_wordRange_iff.mp hread
          exact .inl ⟨located, start, p, l, hl, hp, hlimit, hlarge, hpacked⟩

/-- A packed member that is read was opened. -/
theorem source?_of_readPacked (h : readPacked data limit r bound = .ok content) :
    ∃ s, r.source? data bound = some s := by
  cases hl : locate data r bound with
  | error f => rw [readPacked, hl] at h; cases h
  | ok start =>
      cases hp : Packing.ofCode? r.method with
      | none =>
          simp only [readPacked, hl, hp, bind, Except.bind] at h
          cases h
      | some p => exact ⟨_, source?_eq_some_iff.mpr ⟨start, p, hl, hp, rfl⟩⟩

/-- What reading a packed member delivers is what its data yield, and has the stated checksum. -/
theorem readPacked_ok (admitted : withinLimit limit r.size = true)
    (h : readPacked data limit r bound = .ok content) :
    ∃ s, r.source? data bound = some s ∧ s.Yields content ∧ crc32 content = r.crc := by
  obtain ⟨s, hs⟩ := source?_of_readPacked h
  rcases readPacked_cases admitted hs with ⟨hword, -⟩ | ⟨f, hf, -⟩ | ⟨read, hyields, hread⟩
  · rw [hword] at h; cases h
  · rw [hf] at h; cases h
  · rw [hread] at h
    split at h
    · cases h
    · next hcrc =>
        cases h
        exact ⟨s, hs, hyields, Decidable.byContradiction hcrc⟩

/-- The content of a Zstandard member, if it is found: it is what the packed data unpack to, and has
exactly the stated size, which a machine word can say, and the stated checksum. -/
structure Unpacks [Zstandard.Decoder] (r : Record) (packed content : ByteArray) : Prop where
  word : r.size ≤ maxWord
  output : Zstandard.Decoder.decompress packed r.size = .ok content
  size : content.size = r.size
  checksum : crc32 content = r.crc

theorem unpackZstandard_eq_ok_iff [Zstandard.Decoder] {packed : ByteArray} :
    unpackZstandard r packed = .ok content ↔ Unpacks r packed content := by
  unfold unpackZstandard
  constructor
  · intro h
    split at h
    · cases h
    next word =>
    split at h
    · cases h
    · cases h
    next output =>
    split at h
    · cases h
    next size =>
    split at h
    · cases h
    next checksum =>
    cases h
    exact ⟨Nat.le_of_not_lt word, output, Decidable.byContradiction size,
      Decidable.byContradiction checksum⟩
  · rintro ⟨word, output, size, checksum⟩
    rw [if_neg (Nat.not_lt.mpr word), output]
    dsimp only
    rw [if_neg (not_not_intro size), if_neg (not_not_intro checksum)]

/-- **What reading a Zstandard member delivers**, exactly. -/
theorem readZstandard_eq_ok_iff_found [Zstandard.Decoder] :
    readZstandard data r = .ok content ↔
      ZstandardFound data r ∧ Unpacks r (r.packedSlice data) content := by
  by_cases found : ZstandardFound data r
  · rw [readZstandard_of_found found, unpackZstandard_eq_ok_iff]
    exact (and_iff_right found).symm
  · obtain ⟨f, failed, -⟩ := readZstandard_of_not_found found
    rw [failed]
    exact ⟨nofun, fun h => absurd h.1 found⟩

/-- **What reading a file delivers** is of a size that its record and the limit admit, and has the
stated checksum; it has exactly the stated size if it is packed by Zstandard, and else is what its
packed data yield. -/
theorem readMember_ok [Zstandard.Decoder] (h : readMember data limit r bound = .ok content) :
    withinLimit limit r.size = true ∧ crc32 content = r.crc ∧
      (r.method = Method.zstandard.code ∧ readZstandard data r = .ok content ∧
          content.size = r.size ∨
        r.method ≠ Method.zstandard.code ∧
          ∃ s, r.source? data bound = some s ∧ s.Yields content) := by
  have admitted := readMember_within h
  rw [readMember, admitted] at h
  by_cases hmethod : r.method = Method.zstandard.code
  · rw [if_neg (by decide), if_pos hmethod] at h
    obtain ⟨-, unpacks⟩ := readZstandard_eq_ok_iff_found.mp h
    exact ⟨admitted, unpacks.checksum, .inl ⟨hmethod, h, unpacks.size⟩⟩
  · rw [if_neg (by decide), if_neg hmethod] at h
    obtain ⟨s, hs, hyields, hcrc⟩ := readPacked_ok admitted h
    exact ⟨admitted, hcrc, .inr ⟨hmethod, s, hs, hyields⟩⟩

theorem size_of_source? (h : r.source? data bound = some s) : s.size = r.size := by
  obtain ⟨start, p, -, -, rfl⟩ := source?_eq_some_iff.mp h
  rfl

/-! ### Checksums -/

/-- The central directory of the data lists the records. -/
def Lists (data : ByteArray) (records : List Record) : Prop :=
  ∃ (e : EndRecord) (start : Nat), readEnd data = .ok e ∧ e.start = start ∧
    readRecords (data.extract start (start + e.size)) e.size e.shift (e.size + 1) 0 [] = .ok records

/-- The records of a readable directory are those that are listed, with their bounds. -/
theorem records_of_readDirectory {d : Directory} (h : readDirectory data = .ok d) :
    ∃ records, Lists data records ∧ d.records = withBounds d.start records := by
  cases he : readEnd data with
  | error f => rw [readDirectory, he] at h; cases h
  | ok e =>
      rw [readDirectory_of_readEnd he] at h
      split at h
      · cases h
      · next hstart =>
          cases hrecords : readRecords (data.extract e.start.toNat (e.start.toNat + e.size)) e.size
              e.shift (e.size + 1) 0 [] with
          | error f => rw [hrecords] at h; cases h
          | ok records =>
              rw [hrecords] at h
              cases h
              have start : e.start = e.start.toNat := (Int.toNat_of_nonneg (by omega)).symm
              exact ⟨records, ⟨e, e.start.toNat, he, start, hrecords⟩, rfl⟩

theorem lists_of_readDirectory {d : Directory} (h : readDirectory data = .ok d) :
    Lists data (d.records.map Prod.fst) := by
  obtain ⟨records, lists, same⟩ := records_of_readDirectory h
  rw [same, map_fst_withBounds]
  exact lists

/-- A directory that lists records is readable. -/
theorem readDirectory_of_lists {records : List Record} (h : Lists data records) :
    ∃ d, readDirectory data = .ok d ∧ d.records.map Prod.fst = records := by
  obtain ⟨e, start, he, hstart, hrecords⟩ := h
  refine ⟨⟨start, withBounds start records, e.comment⟩, ?_, map_fst_withBounds _ _⟩
  rw [readDirectory_of_readEnd he, if_neg (by omega), hstart, Int.toNat_natCast, hrecords]
  rfl

/-- The entry keeps what the record of its file promises, under the limit. -/
structure Verified (limit : Option Int) (r : Record) (e : Entry) : Prop where
  path : e.path = r.name
  checksum : crc32 e.content = r.crc
  size : e.content.size ≤ r.size
  limit : ∀ l, limit = some l → (e.content.size : Int) ≤ l

theorem verified_of_delivers [Zstandard.Decoder] {m : Record × Int} {e : Entry}
    (h : Delivers data limit m e) :
    Verified limit m.1 e := by
  obtain ⟨hpath, hread⟩ := h
  obtain ⟨admitted, hcrc, hkind⟩ := readMember_ok hread
  have size : e.content.size ≤ m.1.size := by
    rcases hkind with ⟨-, -, hsize⟩ | ⟨-, s, hs, hyields⟩
    · exact Nat.le_of_eq hsize
    · rw [← size_of_source? hs]
      exact hyields.size_le
  have within := withinLimit_of_le size admitted
  exact ⟨hpath, hcrc, size, fun l hl => by simpa [withinLimit, hl] using within⟩

/-- **Everything that decoding returns is verified.**  The entries correspond one to one, in order,
to the listed records that stand for files.  Each has the name and the checksum that its record
states, and is no longer than the record states and than the limit admits, whichever method the
member is packed by. -/
theorem decode_verified [Zstandard.Decoder] (h : decode data limit = .ok es) :
    ∃ records, Lists data records ∧
      List.Forall₂ (Verified limit) (records.filter fun r => !r.isDirectory) es := by
  obtain ⟨-, d, hd, -, hall⟩ := decode_eq_ok_iff.mp h
  refine ⟨_, lists_of_readDirectory hd, ?_⟩
  rw [List.filter_map, List.forall₂_map_left_iff]
  exact hall.imp fun m e => verified_of_delivers

open scoped Zstandard in
/-- Of a directory and two deflated files of one name, the files are returned, and verified. -/
theorem decode_verified_repeated :
    let data := layout ⟨2020, 2, 3, 4, 5, 6⟩ ([⟨"d/", ByteArray.empty⟩, ⟨"a", bytesOf [1, 1, 1, 1]⟩,
      ⟨"a", bytesOf [2]⟩].map (packed (.deflated Deflate.compressor)))
    let es : List Entry := [⟨"a", bytesOf [1, 1, 1, 1]⟩, ⟨"a", bytesOf [2]⟩]
    decode data (some 4) = .ok es ∧ ∃ records, Lists data records ∧
      List.Forall₂ (Verified (some 4)) (records.filter fun r => !r.isDirectory) es := by
  intro data es
  let all : List Entry :=
    [⟨"d/", ByteArray.empty⟩, ⟨"a", bytesOf [1, 1, 1, 1]⟩, ⟨"a", bytesOf [2]⟩]
  have archivable : Archivable ⟨2020, 2, 3, 4, 5, 6⟩ all := ⟨by decide, by decide,
    by decide +kernel, by decide +kernel, by decide +kernel, by decide +kernel⟩
  have admits : Admits (some 4) all := by
    rintro l ⟨⟩
    exact ⟨by decide, by decide +kernel⟩
  have decoded : decode data (some 4) = .ok es := by
    have known : knownEntries all = es := by decide +kernel
    rw [← known]
    exact decode_layout archivable admits (by decide +kernel) fun _ => by decide +kernel
  exact ⟨decoded, decode_verified decoded⟩

/-! ### Sizes -/

/-- The content is the beginning of what the source unpacks to, cut at the stated size: it is never
longer than stated, and shorter only if it is all that there is.  Where the end of the stream is
settled it has the stated size exactly if there is as much, and is all that there is exactly if
there is no more. -/
structure Cut (s : Source) (content : ByteArray) : Prop where
  size_le : content.size ≤ s.size
  short : content.size < s.size → s.Settled ∧ content = s.whole.output
  beginning : s.Settled → content = s.whole.output.extract 0 s.size
  size_eq_iff : s.Settled → (content.size = s.size ↔ s.size ≤ s.whole.output.size)
  whole_iff : s.Settled → (content = s.whole.output ↔ s.whole.output.size ≤ s.size)

theorem Source.Yields.cut (h : s.Yields content) : Cut s content where
  size_le := h.size_le
  short := h.whole_of_short
  beginning := h.eq_whole
  size_eq_iff settled := by
    rw [h.eq_whole settled, ByteArray.size_extract]
    omega
  whole_iff settled := by
    rw [h.eq_whole settled]
    constructor
    · intro hall
      have size := congrArg ByteArray.size hall
      rw [ByteArray.size_extract] at size
      omega
    · exact extract_zero_of_le _

theorem method_of_source? (hs : r.source? data bound = some s) :
    r.method ≠ Method.zstandard.code := by
  obtain ⟨start, p, -, hp, -⟩ := source?_eq_some_iff.mp hs
  intro hmethod
  rw [hmethod] at hp
  cases hp

/-- An intact member is read as what its data unpack to, cut at the stated size. -/
theorem readMember_intact [Zstandard.Decoder] (hs : r.source? data bound = some s)
    (intact : s.Intact)
    (admitted : withinLimit limit r.size = true) (hword : ¬ Overreaches data limit r bound) :
    readMember data limit r bound =
      if crc32 (s.whole.output.extract 0 s.size) ≠ r.crc then
        .error (.member r.name (.checksum r.name))
      else .ok (s.whole.output.extract 0 s.size) := by
  rw [readMember, admitted, if_neg (by decide), if_neg (method_of_source? hs)]
  rcases readPacked_cases admitted hs with ⟨-, hover⟩ | ⟨f, -, broken, -⟩ | ⟨content, hyields, hread⟩
  · exact absurd hover hword
  · exact absurd intact broken
  · rw [hread, hyields.eq_whole (.inr intact.valid)]

end ZipContainer.Zip
