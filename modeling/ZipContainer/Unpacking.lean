import ZipContainer.Bytes

/-!
# Unpacking

What every unpacking method reports about the data that have arrived so far.
-/

namespace ZipContainer

/-- Why unpacking stops. -/
inductive Stop where
  /-- The stream is complete. -/
  | ended
  /-- The data end before the next item is complete. -/
  | starved
  /-- The data are no valid stream. -/
  | corrupt
  /-- The output has reached the size that was asked for. -/
  | full
  deriving DecidableEq, Repr

/-- What has been unpacked. -/
structure Unpacked where
  output : ByteArray
  /-- How many bytes of the data are used up, where the output ran full. -/
  used : Nat
  why : Stop

end ZipContainer
