import ZipContainer.Bytes
import ZipContainer.Zip.Fault

/-!
# The end record

An archive ends with a record that tells where its central directory is. The record is looked for
at the very end first, as one without a comment, and then as the last occurrence of its signature
among the bytes that a comment can reach. A locator just before it may point out a 64-bit record
with the size and the offset of the directory; that record is taken from just before the locator.
-/

namespace ZipContainer.Zip

/-- The signatures of the records of an archive. -/
def endSignature : List UInt8 := [0x50, 0x4B, 0x05, 0x06]
@[inherit_doc endSignature] def locatorSignature : List UInt8 := [0x50, 0x4B, 0x06, 0x07]
@[inherit_doc endSignature] def wideEndSignature : List UInt8 := [0x50, 0x4B, 0x06, 0x06]
@[inherit_doc endSignature] def directorySignature : List UInt8 := [0x50, 0x4B, 0x01, 0x02]
@[inherit_doc endSignature] def localSignature : List UInt8 := [0x50, 0x4B, 0x03, 0x04]
@[inherit_doc endSignature] def spannedSignature : List UInt8 := [0x50, 0x4B, 0x07, 0x08]

/-- The sizes of the records, without what varies. -/
def endSize : Nat := 22
@[inherit_doc endSize] def locatorSize : Nat := 20
@[inherit_doc endSize] def wideEndSize : Nat := 56
@[inherit_doc endSize] def directorySize : Nat := 46
@[inherit_doc endSize] def localSize : Nat := 30

/-- How many bytes before the last possible place of the end record are searched for it. -/
def commentReach : Nat := 65536

/-- The last place at or before `pos` where a signature stands, and not before `least`. -/
def lastSignature (data : ByteArray) (sig : List UInt8) (least : Nat) : Nat → Option Nat
  | 0 => if least = 0 && startsAt data 0 sig then some 0 else none
  | pos + 1 =>
    if pos + 1 < least then none
    else if startsAt data (pos + 1) sig then some (pos + 1)
    else lastSignature data sig least pos

/-- The place of the end record. -/
def endPosition? (data : ByteArray) : Option Nat :=
  let last := data.size - endSize
  if endSize ≤ data.size && startsAt data last endSignature &&
      startsAt data (data.size - 2) [0, 0] then some last
  else
    match lastSignature data endSignature (last - commentReach) data.size with
    | some pos => if pos + endSize ≤ data.size then some pos else none
    | none => none

/-- What the end of an archive says: where the end record stands, the size and the stated offset
of the directory, whether they come from a 64-bit record, and the comment. -/
structure EndRecord where
  position : Nat
  size : Nat
  offset : Nat
  isWide : Bool
  comment : ByteArray
  deriving DecidableEq

/-- Reads the end of an archive. A place before the start of the data counts as the start. -/
def readEnd (data : ByteArray) : Except DirectoryFault EndRecord :=
  match endPosition? data with
  | none => .error .noEndRecord
  | some pos =>
    let plain : EndRecord := {
      position := pos
      size := fieldAt data (pos + 12) 4
      offset := fieldAt data (pos + 16) 4
      isWide := false
      comment := data.extract (pos + endSize) (pos + endSize + fieldAt data (pos + 20) 2) }
    let locator := pos - locatorSize
    if startsAt data locator locatorSignature then
      if fieldAt data (locator + 4) 4 ≠ 0 || 1 < fieldAt data (locator + 16) 4 then
        .error .spansDisks
      else
        let wide := pos - locatorSize - wideEndSize
        if wide + wideEndSize ≤ data.size && startsAt data wide wideEndSignature then
          .ok { plain with
            size := fieldAt data (wide + 40) 8
            offset := fieldAt data (wide + 48) 8
            isWide := true }
        else .ok plain
    else .ok plain

namespace EndRecord

/-- How many bytes stand before the archive proper, so that all stated offsets have to be moved;
negative for a damaged archive. -/
def shift (e : EndRecord) : Int :=
  (e.position : Int) - e.size - e.offset - (if e.isWide then wideEndSize + locatorSize else 0 : Nat)

/-- Where the directory begins. -/
def start (e : EndRecord) : Int := e.offset + e.shift

end EndRecord

end ZipContainer.Zip
