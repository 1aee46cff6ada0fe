/-!
# The 32-bit cyclic redundancy check

The checksum of an archive member: the remainder of the content, read as a polynomial over two
elements with the least significant bit of each byte first, modulo the polynomial `0xEDB88320`
(coefficients reflected). The register starts as all ones and is complemented at the end.

`Crc32.update_append` says that a checksum may be computed piece by piece.
-/

namespace ZipContainer
namespace Crc32

/-- Multiplies the register by one power of the variable, modulo the polynomial. -/
def shift (c : UInt32) : UInt32 :=
  if c &&& 1 = 1 then (c >>> 1) ^^^ 0xEDB88320 else c >>> 1

/-- Takes one byte into the register. -/
def step (c : UInt32) (b : UInt8) : UInt32 :=
  shift (shift (shift (shift (shift (shift (shift (shift (c ^^^ b.toUInt32))))))))

/-- Takes a byte string into the register. -/
def update (c : UInt32) (bs : ByteArray) : UInt32 :=
  bs.data.foldl step c

theorem update_append (c : UInt32) (a b : ByteArray) :
    update c (a ++ b) = update (update c a) b := by
  simp [update, ByteArray.data_append]

end Crc32

/-- The checksum of a byte string. -/
def crc32 (bs : ByteArray) : UInt32 :=
  ~~~ Crc32.update 0xFFFFFFFF bs

end ZipContainer
