import ZipContainer.Proofs.Zip.Frames

/-!
# Two ways of reading an archive

The members of an archive can be found in two ways.  A scan goes through the local records from the
front on, each of which says where the next one begins, until there is none (`scan`).  A walk goes
through the directory that the end record tells of (`walk`).

In an archive that was written the records stand one behind the other, with nothing between them, and
both records of an entry say the same about it (`Arranged`).  So the two ways lead to the same members,
which are the entries under the names by which readers know them, directories among them
(`encode_arranged`).  That holds even where the end of the last directory record looks like a locator:
a walk does not look for one.
-/

namespace ZipContainer.Zip

variable {data : ByteArray} {pos : Nat} {m : WriteMethod} {now : Moment} {es : List Entry}

/-! ### Scanning and walking -/

/-- The member whose local record stands at a place, and where the record ends; none if the name is
not understood, the method is not known, or the content is not as large as stated or has another
checksum. -/
def readLocal? (data : ByteArray) (pos : Nat) : Option (Entry × Nat) := do
  let stored := data.extract (pos + localSize) (pos + localSize + fieldAt data (pos + 26) 2)
  let name ← (nameText (fieldAt data (pos + 6) 2) stored).toOption
  let p ← Packing.ofCode? (fieldAt data (pos + 8) 2)
  let first := pos + headerSpan data pos
  let next := first + fieldAt data (pos + 18) 4
  let content := (p.whole (data.extract first next)).output
  if content.size = fieldAt data (pos + 22) 4 ∧ (crc32 content).toNat = fieldAt data (pos + 14) 4 then
    return (⟨name, content⟩, next)
  else none

/-- Goes through the local records from a place on, as long as there are any. -/
def scanFrom (data : ByteArray) : Nat → Nat → Option (List Entry)
  | 0, _ => none
  | fuel + 1, pos =>
    if startsAt data pos localSignature then do
      let (e, next) ← readLocal? data pos
      let es ← scanFrom data fuel next
      return e :: es
    else some []

/-- Goes through the local records from the front on.  Each of them has at least one byte. -/
def scan (data : ByteArray) : Option (List Entry) := scanFrom data (data.size + 1) 0

/-- Goes through the directory that an end record at the very end tells of, and reads what its records
stand for. -/
def walk [Zstandard.Decoder] (data : ByteArray) : Except Failure (List Entry) := do
  let stop := data.size - endSize
  let size := fieldAt data (stop + 12) 4
  let start := fieldAt data (stop + 16) 4
  let records ← readRecords (data.extract start (start + size)) size 0 (size + 1) 0 []
  (withBounds start records).mapM (memberOf data none)

/-! ### Members that carry a content -/

namespace Laid

variable {l : Laid} {p : Packing} {content : ByteArray}

/-- The member carries a content: it can be read, and its packed data unpack to a content with the
stated size and checksum. -/
structure Carries (l : Laid) (p : Packing) (content : ByteArray) : Prop extends l.Readable p where
  output : (p.whole l.content).output = content
  size : content.size = l.size
  crc : crc32 content = l.crc

/-- What a member carries is found where its local record stands, which ends where it says. -/
theorem Carries.readLocal? (carries : l.Carries p content) (h : l.LocalAt data pos) :
    readLocal? data pos = some (⟨l.text, content⟩, pos + l.localRecord.size) := by
  have flags : fieldAt data (pos + 6) 2 = l.flags := h.shared.flags
  have method : fieldAt data (pos + 8) 2 = l.method := h.shared.method
  have crc : fieldAt data (pos + 14) 4 = l.crc.toNat := h.shared.crc
  have packed : fieldAt data (pos + 18) 4 = l.content.size := h.shared.compressedSize
  have size : fieldAt data (pos + 22) 4 = l.size := h.shared.size
  have nameSize : fieldAt data (pos + 26) 2 = l.name.size := h.shared.nameSize
  have extraSize : fieldAt data (pos + 28) 2 = 0 := h.shared.extraSize
  have name : data.extract (pos + localSize) (pos + localSize + l.name.size) = l.name := h.name
  have stored : data.extract (pos + (localSize + l.name.size))
      (pos + (localSize + l.name.size) + l.content.size) = l.content := by
    rw [← Nat.add_assoc]
    exact h.content
  have text : nameText l.flags l.name = .ok l.text := carries.fits.packed.text
  have place : pos + (localSize + l.name.size) + l.content.size = pos + l.localRecord.size := by
    rw [size_localRecord]
    omega
  simp only [Zip.readLocal?, headerSpan, flags, method, crc, packed, size, nameSize, extraSize,
    Nat.add_zero, name, stored, text, carries.packing, Except.toOption, Option.bind_eq_bind,
    Option.bind_some, carries.output, carries.size, carries.crc, and_self, if_true]
  rw [place]
  rfl

/-- What a member carries is read under no limit. -/
theorem Carries.readMember [Zstandard.Decoder] (carries : l.Carries p content)
    (h : l.LocalAt data pos) (hpos : pos < absent32) :
    readMember data none (l.record pos) (pos + l.localRecord.size : Nat) = .ok content := by
  have cut : l.cut p = content := by
    rw [Laid.cut, carries.output, extract_zero_of_le _ carries.size.le]
  have askable : Askable none p := fun _ _ hx => nomatch hx
  rw [carries.toReadable.readMember h hpos rfl askable, cut, carries.crc]
  exact if_neg fun differ => differ rfl

end Laid

/-- Entries that are written carry their contents. -/
theorem carries_written {e : Entry} (fits : (written m now e).Fits) :
    (written m now e).Carries m.packing e.content where
  toReadable := Laid.readable_packed fits
  output := (m.whole_pack e.content).1
  size := rfl
  crc := rfl

/-! ### The two ways -/

/-- Where another record than a local one stands, the scan stops. -/
theorem scanFrom_stop {fuel : Nat} (h : startsAt data pos localSignature = false) :
    scanFrom data (fuel + 1) pos = some [] := by
  rw [scanFrom, h]
  rfl

/-- **A scan finds the entries** whose local records stand one behind the other, if no other stands
behind them. -/
theorem scanFrom_written {fuel : Nat} (fits : ∀ e ∈ es, (written m now e).Fits)
    (unicode : ∀ e ∈ es, (cutName e.path).IsUnicode)
    (h : StandsAt data pos (Laid.locals (es.map (written m now))))
    (stop : startsAt data (pos + localsSpan m es) localSignature = false)
    (hfuel : localsSpan m es < fuel) : scanFrom data fuel pos = some (es.map known) := by
  -- Each local record takes the place of its header at least, so the fuel lasts.
  induction es generalizing pos fuel with
  | nil =>
      obtain ⟨fuel, rfl⟩ : ∃ n, fuel = n + 1 := ⟨fuel - 1, by omega⟩
      exact scanFrom_stop stop
  | cons e es ih =>
      rw [List.map_cons, Laid.locals, standsAt_append, size_written] at h
      rw [localsSpan] at stop hfuel
      have wide : 0 < localSpan m e := by
        rw [localSpan, localSize]
        omega
      obtain ⟨fuel, rfl⟩ : ∃ n, fuel = n + 1 := ⟨fuel - 1, by omega⟩
      have fits_e := fits e List.mem_cons_self
      have here := Laid.localAt_of_standsAt h.1 fits_e
      rw [← Nat.add_assoc] at stop
      have rest : scanFrom data fuel (pos + localSpan m e) = some (es.map known) :=
        ih (fun e' he' => fits e' (List.mem_cons_of_mem e he'))
          (fun e' he' => unicode e' (List.mem_cons_of_mem e he')) h.2 stop (by omega)
      have text : (written m now e).text = cutName e.path :=
        text_packed (unicode e List.mem_cons_self)
      rw [scanFrom, if_pos here.signature, (carries_written fits_e).readLocal? here, size_written]
      simp only [Option.bind_eq_bind, Option.bind_some, rest, text, List.map_cons]
      rfl

/-- **A walk reads the entries** whose records a directory lists. -/
theorem walk_written [Zstandard.Decoder] (fits : ∀ e ∈ es, (written m now e).Fits)
    (unicode : ∀ e ∈ es, (cutName e.path).IsUnicode)
    (h : StandsAt data pos (Laid.locals (es.map (written m now))))
    (hpos : pos + localsSpan m es < absent32) :
    (Laid.membersFrom (es.map (written m now)) pos).mapM (memberOf data none) = .ok (es.map known) := by
  induction es generalizing pos with
  | nil => rfl
  | cons e es ih =>
      rw [List.map_cons, Laid.locals, standsAt_append, size_written] at h
      rw [localsSpan] at hpos
      have fits_e := fits e List.mem_cons_self
      have here := Laid.localAt_of_standsAt h.1 fits_e
      have rest := ih (fun e' he' => fits e' (List.mem_cons_of_mem e he'))
        (fun e' he' => unicode e' (List.mem_cons_of_mem e he')) h.2 (by omega)
      have content := (carries_written fits_e).readMember here (by omega)
      have name : ((written m now e).record pos).name = cutName e.path :=
        name_record (unicode e List.mem_cons_self) m _ pos
      rw [List.map_cons, Laid.membersFrom, List.mapM_cons, memberOf, content, name, size_written, rest]
      rfl

/-! ### What is written where -/

/-- The two records of an entry: the local one at `head`, and the directory one at `entry`, which tells
where the local one begins and says the same about the entry. -/
structure Recorded (m : WriteMethod) (now : Moment) (e : Entry) (data : ByteArray)
    (head entry : Nat) : Prop where
  /-- The header, without an extra field, then the name, then the packed content. -/
  localAt : (written m now e).LocalAt data head
  /-- Nothing is said about the content behind it. -/
  noDescriptor : (fieldAt data (head + 6) 2).testBit 3 = false
  signature : startsAt data entry directorySignature = true
  /-- Version, flags, method, time, date, checksum, sizes and no extra field, as in the header. -/
  same : data.extract (entry + 6) (entry + 32) = data.extract (head + 4) (head + localSize)
  name : StandsAt data (entry + directorySize) (written m now e).name
  noComment : fieldAt data (entry + 32) 2 = 0
  offset : fieldAt data (entry + 42) 4 = head

/-- The end record at a place, with the number of members and the size and the start of the
directory. -/
structure EndsWith (data : ByteArray) (stop count size start : Nat) : Prop where
  signature : startsAt data stop endSignature = true
  disks : fieldAt data (stop + 4) 2 = 0 ∧ fieldAt data (stop + 6) 2 = 0
  count : fieldAt data (stop + 8) 2 = count ∧ fieldAt data (stop + 10) 2 = count
  size : fieldAt data (stop + 12) 4 = size
  start : fieldAt data (stop + 16) 4 = start
  noComment : fieldAt data (stop + 20) 2 = 0

/-- The data are the local records of entries end to end, then their directory records in the same
order, then the end record. -/
structure Arranged (m : WriteMethod) (now : Moment) (es : List Entry) (data : ByteArray) : Prop where
  bytes : data = Laid.archive (es.map (written m now))
  size : data.size = localsSpan m es + directorySpan es + endSize
  recorded : ∀ pre e post, es = pre ++ e :: post →
    Recorded m now e data (localsSpan m pre) (localsSpan m es + directorySpan pre)
  ends : EndsWith data (localsSpan m es + directorySpan es) es.length (directorySpan es)
    (localsSpan m es)

theorem recorded_of_standsAt {e : Entry} {head entry : Nat} (fits : (written m now e).Fits)
    (hlocal : StandsAt data head (written m now e).localRecord)
    (hdirectory : StandsAt data entry ((written m now e).directoryRecord head))
    (hhead : head < absent32) : Recorded m now e data head entry := by
  have localAt := Laid.localAt_of_standsAt hlocal fits
  have flags : fieldAt data (head + 6) 2 = (packed m e).flags := localAt.shared.flags
  rw [flags_packed] at flags
  simp only [Laid.localRecord, bytesOf_append, standsAt_append, size_bytesOf,
    ByteArray.size_append] at hlocal
  simp only [Laid.directoryRecord, bytesOf_append, standsAt_append, size_bytesOf,
    ByteArray.size_append, length_littleEndian, Laid.length_sharedFields] at hdirectory
  have width : (bytesOf (written m now e).sharedFields).size = 26 := by simp
  obtain ⟨⟨⟨-, hshared⟩, -⟩, -⟩ := hlocal
  obtain ⟨⟨⟨⟨⟨⟨⟨⟨⟨hsignature, -⟩, -⟩, hshared'⟩, hcomment⟩, -⟩, -⟩, -⟩, hoffset⟩, hname⟩ := hdirectory
  rw [StandsAt, width] at hshared hshared'
  have noDescriptor : (nameFlags (cutName e.path)).testBit 3 = false := by
    rw [nameFlags]
    split <;> rfl
  have noComment : fieldAt data (entry + 32) 2 = 0 := Laid.fieldAt_eq hcomment (by decide)
  have offset : fieldAt data (entry + 42) 4 = head :=
    Laid.fieldAt_eq hoffset (Nat.lt_succ_of_lt hhead)
  exact {
    localAt := localAt
    noDescriptor := flags ▸ noDescriptor
    signature := startsAt_iff.mpr hsignature
    same := hshared'.trans hshared.symm
    name := hname
    noComment := noComment
    offset := offset }

theorem endsWith_of_standsAt {stop count size start : Nat}
    (h : StandsAt data stop (endRecord count size start)) (hcount : count ≤ maxField)
    (hsize : size < absent32) (hstart : start < absent32) : EndsWith data stop count size start := by
  simp only [endRecord, bytesOf_append, standsAt_append, size_bytesOf, ByteArray.size_append,
    length_littleEndian] at h
  obtain ⟨⟨⟨⟨⟨⟨⟨signature, disk⟩, first⟩, count⟩, total⟩, size⟩, start⟩, comment⟩ := h
  have short : maxField < 256 ^ 2 := by decide
  have long : absent32 < 256 ^ 4 := by decide
  exact {
    signature := startsAt_iff.mpr signature
    disks := ⟨Laid.fieldAt_eq disk (by decide), Laid.fieldAt_eq first (by decide)⟩
    count := ⟨Laid.fieldAt_eq count (by omega), Laid.fieldAt_eq total (by omega)⟩
    size := Laid.fieldAt_eq size (by omega)
    start := Laid.fieldAt_eq start (by omega)
    noComment := Laid.fieldAt_eq comment (by decide) }

/-- **An archive is arranged** if its members fit, and there is no 64-bit record at its end. -/
theorem arranged_archive (fits : ∀ e ∈ es, (written m now e).Fits) (count : es.length ≤ maxField)
    (narrow : Laid.endsWide (es.map (written m now)) = false)
    (small : (Laid.archive (es.map (written m now))).size < absent32) :
    Arranged m now es (Laid.archive (es.map (written m now))) := by
  have size := Laid.size_archive (es.map (written m now))
  have stop : Laid.endOffset (es.map (written m now)) = localsSpan m es + directorySpan es := by
    rw [Laid.endOffset_of_narrow narrow, size_locals_written, size_directoryFrom_written]
  rw [stop] at size
  constructor
  · rfl
  · exact size
  · rintro pre e post rfl
    have span := localsSpan_append m pre (e :: post)
    have head := Laid.local_standsAt (pre.map (written m now)) (written m now e)
      (post.map (written m now))
    have entry := Laid.directoryRecord_standsAt (pre.map (written m now)) (written m now e)
      (post.map (written m now))
    rw [← List.map_cons, ← List.map_append, size_locals_written] at head entry
    rw [size_locals_written, size_directoryFrom_written] at entry
    exact recorded_of_standsAt (fits e (by simp)) head entry (by omega)
  · have ending := Laid.end_standsAt (es.map (written m now))
    rw [stop, List.length_map, size_locals_written, size_directoryFrom_written,
      Nat.min_eq_left count, Nat.min_eq_left (by omega), Nat.min_eq_left (by omega)] at ending
    exact endsWith_of_standsAt ending count (by omega) (by omega)

/-! ### Reading what is arranged -/

/-- Where a signature stands, no other does. -/
theorem startsAt_other {sig sig' : List UInt8} (h : startsAt data pos sig = true)
    (length : sig'.length = sig.length) (differ : sig ≠ sig') : startsAt data pos sig' = false := by
  rw [startsAt, beq_iff_eq] at h
  rw [startsAt, length, h]
  exact beq_eq_false_iff_ne.mpr differ

/-- Behind the local records stands the directory, or the end record where it is empty. -/
theorem Arranged.stop (arranged : Arranged m now es data) :
    startsAt data (localsSpan m es) localSignature = false := by
  cases es with
  | nil => exact startsAt_other arranged.ends.signature rfl (by decide)
  | cons e es =>
      have first := (arranged.recorded [] e es rfl).signature
      exact startsAt_other first rfl (by decide)

/-- **A scan of what is arranged finds the entries.** -/
theorem Arranged.scan (arranged : Arranged m now es data)
    (fits : ∀ e ∈ es, (written m now e).Fits) (unicode : ∀ e ∈ es, (cutName e.path).IsUnicode) :
    scan data = some (es.map known) := by
  have stands : StandsAt data 0 (Laid.locals (es.map (written m now))) := by
    rw [arranged.bytes]
    exact Laid.locals_standsAt _
  have size := arranged.size
  refine scanFrom_written fits unicode stands ?_ (by omega)
  rw [Nat.zero_add]
  exact arranged.stop

/-- **A walk through what is arranged reads the entries.** -/
theorem Arranged.walk [Zstandard.Decoder] (arranged : Arranged m now es data)
    (fits : ∀ e ∈ es, (written m now e).Fits) (unicode : ∀ e ∈ es, (cutName e.path).IsUnicode)
    (small : data.size < absent32) :
    walk data = .ok (es.map known) := by
  obtain ⟨bytes, size, -, ends⟩ := arranged
  have stop : data.size - endSize = localsSpan m es + directorySpan es := by omega
  have stands : StandsAt data 0 (Laid.locals (es.map (written m now))) := by
    rw [bytes]
    exact Laid.locals_standsAt _
  have fits' : ∀ l ∈ es.map (written m now), l.Fits := by
    intro l hl
    obtain ⟨e, he, rfl⟩ := List.mem_map.mp hl
    exact fits e he
  have records := Laid.readRecords_archive fits' (bytes ▸ small)
  rw [← bytes, size_locals_written, size_directoryFrom_written] at records
  have bounds := Laid.withBounds_recordsFrom (es.map (written m now))
  rw [size_locals_written] at bounds
  simp only [Zip.walk, stop, ends.size, ends.start, records]
  change (withBounds _ _).mapM _ = _
  rw [bounds]
  exact walk_written fits unicode stands (by omega)

/-- Where nothing looks like a locator, readers come to the directory that a walk goes through. -/
theorem Arranged.readDirectory [Zstandard.Decoder] (arranged : Arranged m now es data)
    (plain : Laid.Plain (es.map (written m now))) (unicode : ∀ e ∈ es, (cutName e.path).IsUnicode) :
    ∃ d, readDirectory data = .ok d ∧ d.records.mapM (memberOf data none) = .ok (es.map known) := by
  have fits : ∀ e ∈ es, (written m now e).Fits := fun e he =>
    plain.fits _ (List.mem_map_of_mem he)
  have small := plain.size
  have stands := Laid.locals_standsAt (es.map (written m now))
  rw [← arranged.bytes] at small stands
  have size := arranged.size
  have directory := Laid.readDirectory_archive plain
  rw [← arranged.bytes] at directory
  exact ⟨_, directory, walk_written fits unicode stands (by omega)⟩

/-- **Entries are arranged, and found in both ways.**  Let there be no more entries than can be
counted, let their names have UTF-8 that fits and their contents not be too large, and let the year be
one that can be stored.  Then they are encoded.  If the archive is small enough, it consists of the
records of the entries and of the end record as `Arranged` says, and a scan of the local records and a
walk through the directory both yield the entries in their order, each under the name by which readers
know it, directories among them.  Unless the bytes before the end record look like a locator, so does
the directory that decoding goes by. -/
theorem encode_arranged [Zstandard.Decoder] (m : WriteMethod) (now : Moment) (es : List Entry)
    (year : Moment.firstYear ≤ now.year ∧ now.year ≤ Moment.lastYear) (count : es.length ≤ maxField)
    (unicode : ∀ e ∈ es, (cutName e.path).IsUnicode)
    (nameSize : ∀ e ∈ es, (cutName e.path).toUTF8.size ≤ maxField)
    (contentSize : ∀ e ∈ es, e.content.size < 2 * 10 ^ 9) :
    ∃ b, encode m now es = .ok b ∧ (b.size < 2 ^ 31 - 1 →
      Arranged m now es b ∧ scan b = some (es.map known) ∧ walk b = .ok (es.map known) ∧
        (startsAt b (b.size - endSize - locatorSize) locatorSignature = false →
          ∃ d, readDirectory b = .ok d ∧ d.records.mapM (memberOf b none) = .ok (es.map known))) := by
  have compact : Compact es := ⟨unicode, nameSize, contentSize⟩
  refine ⟨_, compact.encode_eq_ok year count, fun hsize => ?_⟩
  have short := compact.short hsize
  have fits : ∀ e ∈ es, (written m now e).Fits := fun e he =>
    fits_laid (compact.fits m _ (List.mem_map_of_mem he)) now
  have narrow := short.narrow (Nat.le_of_lt hsize) ((List.length_map _).symm ▸ count)
  have small : (layout now (es.map (packed m))).size < absent32 := Nat.lt_trans hsize (by decide)
  have plain (noLocator : startsAt (layout now (es.map (packed m)))
      ((layout now (es.map (packed m))).size - endSize - locatorSize) locatorSignature = false) :
      Laid.Plain (es.map (written m now)) := by
    have laid := (compact.plain hsize fun _ _ => noLocator).laid
    rwa [laidOut_packed] at laid
  rw [layout_eq short, laidOut_packed] at small plain ⊢
  rw [laidOut_packed] at narrow
  have arranged := arranged_archive fits count narrow small
  exact ⟨arranged, arranged.scan fits unicode, arranged.walk fits unicode small, fun noLocator =>
    arranged.readDirectory (plain noLocator) unicode⟩

open scoped Zstandard in
/-- A directory, an entry without a name and one whose name is cut are found in both ways. -/
theorem unnamed_entry_arranged :
    ∃ b, encode (.deflated Deflate.compressor) ⟨2020, 2, 3, 4, 5, 6⟩
        [⟨"d/", bytesOf [1, 2, 3]⟩, ⟨"\x00x", bytesOf [1]⟩, ⟨"é\x00x", bytesOf [2]⟩] = .ok b ∧
      scan b = some [⟨"d/", bytesOf [1, 2, 3]⟩, ⟨"", bytesOf [1]⟩, ⟨"é", bytesOf [2]⟩] ∧
      walk b = .ok [⟨"d/", bytesOf [1, 2, 3]⟩, ⟨"", bytesOf [1]⟩, ⟨"é", bytesOf [2]⟩] := by
  let now : Moment := ⟨2020, 2, 3, 4, 5, 6⟩
  let es : List Entry :=
    [⟨"d/", bytesOf [1, 2, 3]⟩, ⟨"\x00x", bytesOf [1]⟩, ⟨"é\x00x", bytesOf [2]⟩]
  obtain ⟨b, hb, found⟩ := encode_arranged (.deflated Deflate.compressor) now es (by decide)
    (by decide) (by decide +kernel) (by decide +kernel) (by decide +kernel)
  have known : es.map known =
      [⟨"d/", bytesOf [1, 2, 3]⟩, ⟨"", bytesOf [1]⟩, ⟨"é", bytesOf [2]⟩] := by decide +kernel
  have size : b.size < 2 ^ 31 - 1 := by
    obtain rfl := (encode_eq_ok_iff.mp hb).2
    decide +kernel
  obtain ⟨-, scanned, walked, -⟩ := found size
  rw [known] at scanned walked
  exact ⟨b, hb, scanned, walked⟩

end ZipContainer.Zip
