import ZipContainer.Failure

/-!
# Decoders of Zstandard data

Members that are packed by Zstandard are unpacked by a decoder that readers are given. All that
they rely on is that it makes no content out of nothing.
-/

namespace ZipContainer.Zstandard

/-- Why a decoder does not give a content. -/
inductive Refusal where
  /-- The data are no frame that it can decode. -/
  | invalid
  /-- It fails in a way that is not about archives. -/
  | outside (kind : OutsideKind) (text : String)
  deriving DecidableEq, Repr

/-- A decoder of Zstandard data. -/
class Decoder where
  /-- Decodes data, given the size of a buffer for a content whose size they do not state. -/
  decompress : ByteArray → Nat → Except Refusal ByteArray
  /-- Where there are no data there is no frame. -/
  refuses_empty : ∀ buffer content, decompress ByteArray.empty buffer ≠ .ok content

end ZipContainer.Zstandard
