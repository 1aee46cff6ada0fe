import ZipContainer.Deflate.Inflate

/-!
# Compressors

What deflate data a byte string is packed to is left to whoever packs it. Readers only rely on
getting the byte string back, and writers on the data not being much larger.
-/

namespace ZipContainer.Deflate

/-- The greatest size of data that a byte string of the given size is deflated to. -/
def compressBound (size : Nat) : Nat := size + size / 1024 + 64

/-- A way to deflate. -/
structure Compressor where
  compress : ByteArray → ByteArray
  /-- The data inflate to the byte string, into a buffer that has just room for it. -/
  inflates : ∀ content, ∃ used, inflate (compress content) content.size = ⟨content, used, .ended⟩
  bounded : ∀ content, (compress content).size ≤ compressBound content.size

end ZipContainer.Deflate
