import ZipContainer.Proofs.Bytes.Edits
import ZipContainer.Proofs.Zip.Locator
import ZipContainer.Proofs.Zip.Outcomes
import ZipContainer.Proofs.Zip.Refusals

/-!
# Archives in which one member is altered

Taken apart at one of its members, an archive is a frame around what can be altered without moving
anything else: the flags and the method, which both records of the member state, and its packed
content (`Laid.archive_eq_fill`).  Whatever is put there in the same sizes, the frame stays as it is
(`Laid.frame_altered`), the directory is read as before, and so are the members before the altered
one.  If reading that member fails then, so does decoding the archive (`Laid.decode_altered`).

`localsSpan` and `directorySpan` say where the records of entries stand in an archive that is
written.
-/

namespace ZipContainer.Zip

variable {limit : Option Int} {es : List Entry}

/-! ### Where the records of entries stand -/

/-- How many bytes the local record of an entry takes where it needs no extra field: header, name and
packed content. -/
def localSpan (m : WriteMethod) (e : Entry) : Nat :=
  localSize + (cutName e.path).toUTF8.size + (m.pack e.content).size

/-- How many bytes the local records of entries take. -/
def localsSpan (m : WriteMethod) : List Entry → Nat
  | [] => 0
  | e :: es => localSpan m e + localsSpan m es

theorem localsSpan_append (m : WriteMethod) (es es' : List Entry) :
    localsSpan m (es ++ es') = localsSpan m es + localsSpan m es' := by
  induction es with
  | nil => exact (Nat.zero_add _).symm
  | cons e es ih => rw [List.cons_append, localsSpan, localsSpan, ih, Nat.add_assoc]

/-- How many bytes the directory records of entries take where they need no extra fields. -/
def directorySpan : List Entry → Nat
  | [] => 0
  | e :: es => directorySize + (cutName e.path).toUTF8.size + directorySpan es

/-- An entry as it is laid out when it is written at a moment. -/
def written (m : WriteMethod) (now : Moment) (e : Entry) : Laid := (packed m e).laid now

theorem laidOut_packed (m : WriteMethod) (now : Moment) (es : List Entry) :
    laidOut now (es.map (packed m)) = es.map (written m now) :=
  List.map_map

/-- Readers know an entry that is written by its cut name. -/
theorem cutName_text_written (m : WriteMethod) (now : Moment) {e : Entry}
    (unicode : (cutName e.path).IsUnicode) : cutName (written m now e).text = cutName e.path := by
  rw [written, Packed.laid, Packed.stamped, text_packed unicode, cutName_cutName]

theorem size_written (m : WriteMethod) (now : Moment) (e : Entry) :
    (written m now e).localRecord.size = localSpan m e :=
  Laid.size_localRecord _

theorem size_locals_written (m : WriteMethod) (now : Moment) (es : List Entry) :
    (Laid.locals (es.map (written m now))).size = localsSpan m es := by
  induction es with
  | nil => rfl
  | cons e es ih =>
      rw [List.map_cons, Laid.locals, ByteArray.size_append, ih, size_written, localsSpan]

theorem size_directoryFrom_written (m : WriteMethod) (now : Moment) (es : List Entry)
    (offset : Nat) :
    (Laid.directoryFrom (es.map (written m now)) offset).size = directorySpan es := by
  induction es generalizing offset with
  | nil => rfl
  | cons e es ih =>
      rw [List.map_cons, Laid.directoryFrom, ByteArray.size_append, ih, Laid.size_directoryRecord,
        directorySpan]
      rfl

namespace Laid

variable {l : Laid} {pre post : List Laid} {flags method : Nat} {content : ByteArray}

/-! ### Frames -/

/-- The fields of a local record before its flags. -/
def localOpening (l : Laid) : List UInt8 :=
  localSignature ++ littleEndian 1 l.stamp.needs ++ littleEndian 1 0

/-- The fields of a directory record before its flags. -/
def directoryOpening (l : Laid) : List UInt8 :=
  directorySignature ++ littleEndian 1 l.stamp.madeBy ++ littleEndian 1 l.stamp.system ++
    littleEndian 1 l.stamp.needs ++ littleEndian 1 0

/-- The flags and the method as both records of a member state them. -/
def stating (flags method : Nat) : ByteArray := bytesOf (littleEndian 2 flags ++ littleEndian 2 method)

/-- The fields that the records of a member have in common behind the method. -/
def remaining (l : Laid) : List UInt8 :=
  littleEndian 2 l.stamp.time ++ littleEndian 2 l.stamp.date ++ littleEndian 4 l.crc.toNat ++
    littleEndian 4 l.content.size ++ littleEndian 4 l.size ++ littleEndian 2 l.name.size ++
    littleEndian 2 0

/-- The fields that only a directory record has behind those. -/
def directoryClosing (l : Laid) (offset : Nat) : List UInt8 :=
  littleEndian 2 0 ++ littleEndian 2 0 ++ littleEndian 2 l.stamp.internal ++
    littleEndian 4 l.stamp.external ++ littleEndian 4 offset

@[simp] theorem size_stating (flags method : Nat) : (stating flags method).size = 4 := rfl

theorem localRecord_eq (l : Laid) :
    l.localRecord = bytesOf l.localOpening ++ stating l.flags l.method ++
      (bytesOf l.remaining ++ l.name) ++ l.content := by
  simp only [localRecord, sharedFields, localOpening, stating, remaining, bytesOf_append,
    ByteArray.append_assoc]

theorem directoryRecord_eq (l : Laid) (offset : Nat) :
    l.directoryRecord offset = bytesOf l.directoryOpening ++ stating l.flags l.method ++
      (bytesOf l.remaining ++ bytesOf (l.directoryClosing offset) ++ l.name) := by
  simp only [directoryRecord, sharedFields, directoryOpening, stating, remaining, directoryClosing,
    bytesOf_append, ByteArray.append_assoc]

/-- An archive but for the flags, the method and the content of one of its members. -/
structure Frame where
  /-- Up to the flags in the local record. -/
  front : ByteArray
  /-- From behind the method in the local record up to the content. -/
  header : ByteArray
  /-- From behind the content up to the flags in the directory record. -/
  middle : ByteArray
  /-- From behind the method in the directory record on. -/
  back : ByteArray

/-- The archive with what a member states and with its content. -/
def Frame.fill (f : Frame) (stated content : ByteArray) : ByteArray :=
  f.front ++ stated ++ f.header ++ content ++ f.middle ++ stated ++ f.back

/-- The archive around the content. -/
theorem Frame.fill_eq (f : Frame) (stated content : ByteArray) :
    f.fill stated content =
      f.front ++ stated ++ f.header ++ content ++ (f.middle ++ stated ++ f.back) := by
  simp only [fill, ByteArray.append_assoc]

/-- The frame of a member in an archive. -/
def frame (pre : List Laid) (l : Laid) (post : List Laid) : Frame where
  front := locals pre ++ bytesOf l.localOpening
  header := bytesOf l.remaining ++ l.name
  middle := locals post ++ directoryFrom pre 0 ++ bytesOf l.directoryOpening
  back := bytesOf l.remaining ++ bytesOf (l.directoryClosing (locals pre).size) ++ l.name ++
    directoryFrom post ((locals pre).size + l.localRecord.size) ++
    ending (pre.length + (post.length + 1))
      ((directoryFrom pre 0).size + (directorySize + l.name.size +
        (directoryFrom post ((locals pre).size + l.localRecord.size)).size))
      ((locals pre).size + (l.localRecord.size + (locals post).size))

/-- **An archive is a frame around one of its members.** -/
theorem archive_eq_fill (pre : List Laid) (l : Laid) (post : List Laid) :
    archive (pre ++ l :: post) = (frame pre l post).fill (stating l.flags l.method) l.content := by
  have records : locals (pre ++ l :: post) = locals pre ++ (l.localRecord ++ locals post) := by
    rw [locals_append, locals]
  have directory : directoryFrom (pre ++ l :: post) 0 = directoryFrom pre 0 ++
      (l.directoryRecord (locals pre).size ++
        directoryFrom post ((locals pre).size + l.localRecord.size)) := by
    rw [directoryFrom_append, Nat.zero_add, directoryFrom]
  have size : (directoryFrom (pre ++ l :: post) 0).size = (directoryFrom pre 0).size +
      (directorySize + l.name.size +
        (directoryFrom post ((locals pre).size + l.localRecord.size)).size) := by
    rw [directory, ByteArray.size_append, ByteArray.size_append, size_directoryRecord]
  have size' : (locals (pre ++ l :: post)).size =
      (locals pre).size + (l.localRecord.size + (locals post).size) := by
    rw [records, ByteArray.size_append, ByteArray.size_append]
  rw [archive, size, size', List.length_append, List.length_cons, records, directory,
    directoryRecord_eq]
  simp only [Frame.fill, frame, localRecord_eq l, ByteArray.append_assoc]

/-- The member with other flags, another method and another content. -/
def altered (l : Laid) (flags method : Nat) (content : ByteArray) : Laid :=
  { l with flags := flags, method := method, content := content }

/-- The name is understood as before where the flags are the same. -/
theorem text_altered (l : Laid) (method : Nat) (content : ByteArray) :
    (l.altered l.flags method content).text = l.text := rfl

/-- **The frame does not depend on what stands in it**, but for the size of the content. -/
theorem frame_altered (pre : List Laid) (l : Laid) (post : List Laid) (flags method : Nat)
    (size : content.size = l.content.size) :
    frame pre (l.altered flags method content) post = frame pre l post := by
  have same : (l.altered flags method content).content.size = l.content.size := size
  simp only [frame, remaining, size_localRecord, same]
  rfl

theorem archive_altered (pre : List Laid) (l : Laid) (post : List Laid) (flags method : Nat)
    (size : content.size = l.content.size) :
    archive (pre ++ l.altered flags method content :: post) =
      (frame pre l post).fill (stating flags method) content := by
  rw [archive_eq_fill, frame_altered pre l post flags method size]
  rfl

theorem Frame.size_fill (f : Frame) {stated stated' content content' : ByteArray}
    (h : stated.size = stated'.size) (h' : content.size = content'.size) :
    (f.fill stated content).size = (f.fill stated' content').size := by
  simp only [Frame.fill, ByteArray.size_append, h, h']

/-- What both records of a member state is replaced where it stands. -/
theorem Frame.overwrite_fill (f : Frame) {stated stated' content : ByteArray}
    (h : stated'.size = stated.size) :
    overwrite (overwrite (f.fill stated content) f.front.size stated')
        (f.front ++ stated ++ f.header ++ content ++ f.middle).size stated' =
      f.fill stated' content := by
  have first : f.fill stated content =
      f.front ++ stated ++ (f.header ++ content ++ f.middle ++ stated ++ f.back) := by
    simp only [fill, ByteArray.append_assoc]
  have second : f.front ++ stated' ++ (f.header ++ content ++ f.middle ++ stated ++ f.back) =
      f.front ++ stated' ++ f.header ++ content ++ f.middle ++ stated ++ f.back := by
    simp only [ByteArray.append_assoc]
  have place : (f.front ++ stated ++ f.header ++ content ++ f.middle).size =
      (f.front ++ stated' ++ f.header ++ content ++ f.middle).size := by
    simp only [ByteArray.size_append, h]
  rw [first, overwrite_append _ _ rfl h, second, overwrite_append _ _ place h, fill]

/-- Where the content of a member begins in an archive. -/
theorem size_frame_content (pre : List Laid) (l : Laid) (post : List Laid) (flags method : Nat) :
    ((frame pre l post).front ++ stating flags method ++ (frame pre l post).header).size =
      (locals pre).size + localSize + l.name.size := by
  simp [frame, localOpening, remaining, localSignature, ByteArray.size_append, localSize]
  omega

/-- Where the flags stand in the local record of a member. -/
theorem size_frame_front (pre : List Laid) (l : Laid) (post : List Laid) :
    (frame pre l post).front.size = (locals pre).size + 6 := by
  simp [frame, localOpening, localSignature, ByteArray.size_append]

/-- Where the flags stand in the directory record of a member. -/
theorem size_frame_middle (pre : List Laid) (l : Laid) (post : List Laid) (flags method : Nat) :
    ((frame pre l post).front ++ stating flags method ++ (frame pre l post).header ++ l.content ++
      (frame pre l post).middle).size =
      (locals (pre ++ l :: post)).size + (directoryFrom pre 0).size + 8 := by
  rw [ByteArray.size_append, ByteArray.size_append, size_frame_content, locals_append, locals,
    ByteArray.size_append, ByteArray.size_append, size_localRecord]
  simp [frame, directoryOpening, directorySignature, ByteArray.size_append]
  omega

/-- The back of a frame holds all that is looked at for the end record and for a locator. -/
theorem le_size_frame_back (pre : List Laid) (l : Laid) (post : List Laid) :
    locatorSize + endSize ≤ (frame pre l post).back.size := by
  simp [frame, ending, remaining, directoryClosing, ByteArray.size_append, locatorSize, endSize]
  omega

theorem startsAt_append_right (a b : ByteArray) (i : Nat) (sig : List UInt8) :
    startsAt (a ++ b) (a.size + i) sig = startsAt b i sig := by
  rw [startsAt, startsAt, Nat.add_assoc, ByteArray.extract_append_size_add]

/-- What stands where a locator would does not depend on what stands in the frame. -/
theorem locator_altered (pre : List Laid) (l : Laid) (post : List Laid) (flags method : Nat)
    (size : content.size = l.content.size) :
    startsAt (archive (pre ++ l.altered flags method content :: post))
        (endOffset (pre ++ l.altered flags method content :: post) - locatorSize) locatorSignature =
      startsAt (archive (pre ++ l :: post)) (endOffset (pre ++ l :: post) - locatorSize)
        locatorSignature := by
  have enough := le_size_frame_back pre l post
  have place {ls : List Laid} {a : ByteArray}
      (h : archive ls = a ++ (frame pre l post).back) :
      startsAt (archive ls) (endOffset ls - locatorSize) locatorSignature =
        startsAt (frame pre l post).back
          ((frame pre l post).back.size - endSize - locatorSize) locatorSignature := by
    have total := size_archive ls
    rw [h, ByteArray.size_append] at total
    have position : endOffset ls - locatorSize =
        a.size + ((frame pre l post).back.size - endSize - locatorSize) := by omega
    rw [h, position, startsAt_append_right]
  rw [place (archive_altered pre l post flags method size), place (archive_eq_fill pre l post)]

/-- Whether there is a 64-bit record at the end does not depend on it either. -/
theorem endsWide_altered (pre : List Laid) (l : Laid) (post : List Laid) (flags method : Nat)
    (size : content.size = l.content.size) :
    endsWide (pre ++ l.altered flags method content :: post) = endsWide (pre ++ l :: post) := by
  have same : (l.altered flags method content).content.size = l.content.size := size
  have name : (l.altered flags method content).name = l.name := rfl
  simp only [endsWide, locals_append, locals, directoryFrom_append, directoryFrom,
    ByteArray.size_append, size_localRecord, size_directoryRecord, List.length_append,
    List.length_cons, same, name]

/-- An altered archive is read from its end as before. -/
theorem Plain.altered (plain : Plain (pre ++ l :: post)) (size : content.size = l.content.size)
    (fits : (l.altered flags method content).Fits) :
    Plain (pre ++ l.altered flags method content :: post) where
  fits := by
    have others := List.forall_mem_append.mp plain.fits
    exact List.forall_mem_append.mpr ⟨others.1, List.forall_mem_cons.mpr
      ⟨fits, (List.forall_mem_cons.mp others.2).2⟩⟩
  size := by
    have small := plain.size
    have same : ((frame pre l post).fill (stating flags method) content).size =
        ((frame pre l post).fill (stating l.flags l.method) l.content).size :=
      (frame pre l post).size_fill rfl size
    rwa [archive_altered pre l post flags method size, same, ← archive_eq_fill]
  locator narrow _ := by
    rw [endsWide_altered pre l post flags method size] at narrow
    rw [locator_altered pre l post flags method size]
    exact plain.noLocator narrow

/-! ### Decoding -/

theorem Plain.offset_lt (plain : Plain (pre ++ l :: post)) : (locals pre).size < absent32 := by
  have small := plain.size
  rw [size_archive, endOffset, locals_append, ByteArray.size_append] at small
  omega

theorem localAt_archive (plain : Plain (pre ++ l :: post)) :
    l.LocalAt (archive (pre ++ l :: post)) (locals pre).size :=
  localAt_of_standsAt (local_standsAt pre l post) (plain.fits l (by simp))

section

variable [Zstandard.Decoder]

/-- Reading the member fails in a certain way, wherever its local record stands. -/
def Fails (l : Laid) (limit : Option Int) (P : Failure → Prop) : Prop :=
  ∀ data offset, l.LocalAt data offset → offset < absent32 →
    ∃ f, P f ∧ entryOf data limit (l.member offset) = .error f

/-- Each member of an archive that decodes is read. -/
theorem entryOf_of_decode (plain : Plain (pre ++ l :: post))
    (decoded : decode (archive (pre ++ l :: post)) limit = .ok es) :
    ∃ e?, entryOf (archive (pre ++ l :: post)) limit (l.member (locals pre).size) = .ok e? := by
  rw [decode_archive_eq plain, membersFrom_split, Nat.zero_add] at decoded
  exact entryOf_of_readEntries decoded _ (by simp)

/-- **The members before one are read alike in another archive** if the first one decodes. -/
theorem reads_before (plain : Plain (pre ++ l :: post))
    (readable : ∀ x ∈ pre, ∃ p, x.Readable p)
    (decoded : decode (archive (pre ++ l :: post)) limit = .ok es) :
    ∀ x ∈ pre, ∃ e?, x.Reads limit e? := by
  intro x hx
  obtain ⟨p, hp⟩ := readable x hx
  obtain ⟨pre₁, pre₂, rfl⟩ := List.append_of_mem hx
  rw [List.append_assoc, List.cons_append] at plain decoded
  obtain ⟨e?, read⟩ := entryOf_of_decode plain decoded
  exact ⟨e?, hp.reads (localAt_archive plain) plain.offset_lt read⟩

/-- Each file of an archive that decodes has a name, and is read. -/
theorem read_of_decode (plain : Plain (pre ++ l :: post))
    (decoded : decode (archive (pre ++ l :: post)) limit = .ok es)
    (file : isDirectoryName (cutName l.text) = false) :
    cutName l.text ≠ "" ∧ ∃ content,
      readMember (archive (pre ++ l :: post)) limit (l.record (locals pre).size)
        ((locals pre).size + l.localRecord.size : Nat) = .ok content := by
  obtain ⟨e?, read⟩ := entryOf_of_decode plain decoded
  obtain ⟨named, ⟨directory, -⟩ | ⟨-, e, -, -, content⟩⟩ := entryOf_eq_ok_iff.mp read
  · exact Bool.noConfusion (file.symm.trans directory)
  · exact ⟨named, e.content, content⟩

/-- **A file of an archive that decodes is come to**, altered or not, as long as its name is understood
as before. -/
theorem comes_altered (plain : Plain (pre ++ l :: post))
    (decoded : decode (archive (pre ++ l :: post)) limit = .ok es)
    (file : isDirectoryName (cutName l.text) = false)
    (text : (l.altered flags method content).text = l.text) (offset : Nat) :
    Comes limit ((l.altered flags method content).record offset) := by
  obtain ⟨named, _, read⟩ := read_of_decode plain decoded file
  have admitted : withinLimit limit l.size = true := readMember_within read
  rw [← text] at named file
  exact ⟨named, file, admitted⟩

/-- **Decoding fails at the first member that fails**, if those before it are read. -/
theorem decode_fails {P : Failure → Prop} (plain : Plain (pre ++ l :: post))
    (before : ∀ x ∈ pre, ∃ e?, x.Reads limit e?) (fails : l.Fails limit P) :
    ∃ f, P f ∧ decode (archive (pre ++ l :: post)) limit = .error f := by
  obtain ⟨f, hf, failed⟩ := fails _ _ (localAt_archive plain) plain.offset_lt
  refine ⟨f, hf, ?_⟩
  rw [decode_archive_eq plain, membersFrom_split, Nat.zero_add]
  refine readEntries_eq_error_iff.mpr ⟨_, _, _, rfl, fun m hm => ?_, failed⟩
  obtain ⟨pre₁, x, pre₂, rfl, rfl⟩ := exists_of_mem_membersFrom hm
  obtain ⟨e?, reads⟩ := before x (by simp)
  rw [List.append_assoc, List.cons_append] at plain ⊢
  rw [Nat.zero_add]
  exact ⟨e?, reads _ _ (localAt_archive plain) plain.offset_lt⟩

/-- **If reading an altered member fails, so does decoding the archive**, if it was decoded before and
the members in front can be read. -/
theorem decode_altered {P : Failure → Prop} (plain : Plain (pre ++ l :: post))
    (readable : ∀ x ∈ pre, ∃ p, x.Readable p)
    (decoded : decode (archive (pre ++ l :: post)) limit = .ok es)
    (size : content.size = l.content.size) (fits : (l.altered flags method content).Fits)
    (fails : (l.altered flags method content).Fails limit P) :
    ∃ f, P f ∧ decode ((frame pre l post).fill (stating flags method) content) limit = .error f := by
  rw [← archive_altered pre l post flags method size]
  exact decode_fails (plain.altered size fits) (reads_before plain readable decoded) fails

end

end Laid

/-! ### Entries that were encoded -/

variable [Zstandard.Decoder] {m : WriteMethod} {now : Moment} {out : List Entry} {b : ByteArray}

/-- **Entries that were encoded and are decoded** are laid out in an archive that is read from its
end, as there is no locator where none is written. -/
theorem plain_of_decode (encoded : encode m now es = .ok b)
    (contentSize : ∀ e ∈ es, e.content.size < 2 * 10 ^ 9) (small : b.size < 2 ^ 31 - 1)
    (decoded : decode b limit = .ok out) :
    b = Laid.archive (es.map (written m now)) ∧ Laid.Plain (es.map (written m now)) := by
  obtain ⟨⟨packs, -⟩, rfl⟩ := encode_eq_ok_iff.mp encoded
  have compact : Compact es :=
    ⟨fun e he => (packs e he).unicode, fun e he => (packs e he).name, contentSize⟩
  have plain := compact.plain small fun count _ => noLocator_of_decode compact count small decoded
  refine ⟨?_, ?_⟩
  · rw [layout_eq plain.toShort, laidOut_packed]
  · have laid := plain.laid
    rwa [laidOut_packed] at laid

/-- The archive at one of the entries, which can be read, as can those before it. -/
theorem split_of_decode {pre post : List Entry} {e : Entry}
    (encoded : encode m now (pre ++ e :: post) = .ok b)
    (contentSize : ∀ x ∈ pre ++ e :: post, x.content.size < 2 * 10 ^ 9) (small : b.size < 2 ^ 31 - 1)
    (decoded : decode b limit = .ok out) :
    let ls := pre.map (written m now) ++ written m now e :: post.map (written m now)
    b = Laid.archive ls ∧ Laid.Plain ls ∧ (∀ x ∈ pre.map (written m now), ∃ p, x.Readable p) ∧
      (written m now e).Readable m.packing := by
  obtain ⟨rfl, plain⟩ := plain_of_decode encoded contentSize small decoded
  have readable : ∀ x ∈ pre ++ e :: post, (written m now x).Readable m.packing := fun x hx =>
    Laid.readable_packed (plain.fits _ (List.mem_map_of_mem hx))
  rw [List.map_append, List.map_cons] at plain ⊢
  refine ⟨rfl, plain, fun l hl => ?_, readable e (by simp)⟩
  obtain ⟨x, hx, rfl⟩ := List.mem_map.mp hl
  exact ⟨_, readable x (List.mem_append_left _ hx)⟩

end ZipContainer.Zip
