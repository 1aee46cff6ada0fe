import ZipContainer.Proofs.Zip.Failures

/-!
# Local headers

A member is opened exactly if its local header stands where the record says and agrees with it, no
flag is in the way, and its packed data, which begin behind the header, end by the bound of the
member (`locate_eq_ok_iff`).  That a member is encrypted is noticed last: where everything else is in
order, it alone decides (`locate_of_agrees`).
-/

namespace ZipContainer.Zip

variable {data : ByteArray} {r : Record} {bound : Int} {start : Nat}

/-- How far behind its local header the packed data of a member begin, by what the header at a place
says. -/
def headerSpan (data : ByteArray) (head : Nat) : Nat :=
  localSize + fieldAt data (head + 26) 2 + fieldAt data (head + 28) 2

/-- Where the packed data of a member begin behind its local header.  A header that reaches beyond
the data ends with them. -/
def Record.first (r : Record) (data : ByteArray) : Nat :=
  min data.size (r.offset.toNat + headerSpan data r.offset.toNat)

/-- Where the packed data of a member end. -/
def Record.last (r : Record) (data : ByteArray) : Nat := r.first data + r.compressedSize

/-- A member that is not packed by Zstandard can be opened, if it ends by its bound: its local
header is there and agrees with the record, and no flag stands in the way. -/
structure Opens (data : ByteArray) (r : Record) : Prop where
  within : 0 ≤ r.offset
  word : r.offset ≤ maxWord
  header : r.offset.toNat + localSize ≤ data.size
  signature : startsAt data r.offset.toNat localSignature = true
  whole : r.hasFlag .compressedPatch = false
  weak : r.hasFlag .strongEncryption = false
  name : nameText (fieldAt data (r.offset.toNat + 6) 2)
    (data.extract (r.offset.toNat + localSize)
      (r.offset.toNat + localSize + fieldAt data (r.offset.toNat + 26) 2)) = .ok r.fullName
  clear : r.hasFlag .encrypted = false

/-- The local header of a member is there and agrees with the record, and the data are packed in a way
that is known; the member may still be encrypted. -/
structure Agrees (data : ByteArray) (r : Record) : Prop where
  within : 0 ≤ r.offset
  word : r.offset ≤ maxWord
  header : r.offset.toNat + localSize ≤ data.size
  signature : startsAt data r.offset.toNat localSignature = true
  whole : r.hasFlag .compressedPatch = false
  weak : r.hasFlag .strongEncryption = false
  name : nameText (fieldAt data (r.offset.toNat + 6) 2)
    (data.extract (r.offset.toNat + localSize)
      (r.offset.toNat + localSize + fieldAt data (r.offset.toNat + 26) 2)) = .ok r.fullName

theorem opens_iff : Opens data r ↔ Agrees data r ∧ r.hasFlag .encrypted = false :=
  ⟨fun h => ⟨⟨h.within, h.word, h.header, h.signature, h.whole, h.weak, h.name⟩, h.clear⟩,
    fun ⟨h, clear⟩ => ⟨h.within, h.word, h.header, h.signature, h.whole, h.weak, h.name, clear⟩⟩

/-- The name that is cut out of the data is as long as its header says, unless the data end in it.
-/
theorem first_eq (header : r.offset.toNat + localSize ≤ data.size) :
    min data.size (r.offset.toNat + localSize +
      (data.extract (r.offset.toNat + localSize) (r.offset.toNat + localSize +
        fieldAt data (r.offset.toNat + 26) 2)).size + fieldAt data (r.offset.toNat + 28) 2) =
      r.first data := by
  rw [Record.first, headerSpan, ByteArray.size_extract]
  omega

/-- **Where the local header agrees**, a member is opened unless it is encrypted. -/
theorem locate_of_agrees (h : Agrees data r) (room : (r.last data : Int) ≤ bound) :
    locate data r bound =
      if r.hasFlag .encrypted then .error (.unsupported r.name (.encrypted r))
      else .ok (r.first data) := by
  have header := h.header
  have within := h.within
  have word := h.word
  have least : minWord ≤ 0 := by decide
  rw [Record.last] at room
  unfold locate
  simp only [h.signature, h.whole, h.weak, h.name, first_eq header]
  rw [if_neg (by omega), if_neg (by omega), if_neg (by omega), if_neg nofun, if_neg nofun,
    if_neg nofun, if_neg nofun, if_neg (by omega)]
  cases r.hasFlag .encrypted <;> rfl

/-- **When a member is opened**, and where its packed data are found. -/
theorem locate_eq_ok_iff :
    locate data r bound = .ok start ↔
      Opens data r ∧ start = r.first data ∧ (r.last data : Int) ≤ bound := by
  constructor
  · have ensured : Ensures (fun start => Opens data r ∧ start = r.first data ∧
        (r.last data : Int) ≤ bound) (locate data r bound) := by
      unfold locate
      dsimp only
      refine .check fun word => ?_
      refine .check fun within => ?_
      refine .check fun header => ?_
      refine .check fun signature => ?_
      refine .check fun whole => ?_
      refine .check fun weak => ?_
      split
      · exact .error
      · next name hname =>
          refine .check fun same => ?_
          refine .check fun room => ?_
          refine .check fun clear => ?_
          obtain rfl : name = r.fullName := Decidable.byContradiction same
          rw [first_eq (by omega)] at room ⊢
          exact .ok ⟨⟨by omega, by omega, by omega, by simpa using signature,
            by simpa using whole, by simpa using weak, hname, by simpa using clear⟩, rfl,
            by rw [Record.last]; omega⟩
    exact ensured start
  · rintro ⟨h, rfl, room⟩
    obtain ⟨agrees, clear⟩ := opens_iff.mp h
    rw [locate_of_agrees agrees room, clear]
    rfl

end ZipContainer.Zip
