import ZipContainer.Deflate.PrefixTree

/-!
# The alphabets of deflate

The symbols of the two codes of a block, and the code lengths of blocks with fixed codes. A
length or a distance is a base, given by its symbol, plus the number in its extra bits.
-/

namespace ZipContainer.Deflate

/-- Base and number of extra bits of the length symbols from 257 on. -/
def lengthTable : List (Nat × Nat) :=
  [(3, 0), (4, 0), (5, 0), (6, 0), (7, 0), (8, 0), (9, 0), (10, 0),
   (11, 1), (13, 1), (15, 1), (17, 1), (19, 2), (23, 2), (27, 2), (31, 2),
   (35, 3), (43, 3), (51, 3), (59, 3), (67, 4), (83, 4), (99, 4), (115, 4),
   (131, 5), (163, 5), (195, 5), (227, 5), (258, 0)]

/-- Base and number of extra bits of the distance symbols. -/
def distanceTable : List (Nat × Nat) :=
  [(1, 0), (2, 0), (3, 0), (4, 0), (5, 1), (7, 1), (9, 2), (13, 2),
   (17, 3), (25, 3), (33, 4), (49, 4), (65, 5), (97, 5), (129, 6), (193, 6),
   (257, 7), (385, 7), (513, 8), (769, 8), (1025, 9), (1537, 9), (2049, 10), (3073, 10),
   (4097, 11), (6145, 11), (8193, 12), (12289, 12), (16385, 13), (24577, 13)]

/-- The symbol that ends a block. -/
def endSymbol : Nat := 256

/-- The first symbol that stands for a length. -/
def firstLength : Nat := 257

/-- The code lengths of literals and lengths in a block with fixed codes. -/
def fixedLiteralLengths : List Nat :=
  List.replicate 144 8 ++ List.replicate 112 9 ++ List.replicate 24 7 ++ List.replicate 8 8

/-- The code lengths of distances in a block with fixed codes. -/
def fixedDistanceLengths : List Nat :=
  List.replicate 32 5

/-- The two codes of a block. -/
structure Codes where
  literal : PrefixTree
  distance : PrefixTree

/-- The codes of a block with fixed codes. -/
def fixedCodes : Codes where
  literal := PrefixTree.canonical fixedLiteralLengths
  distance := PrefixTree.canonical fixedDistanceLengths

/-- The order in which a block states the lengths of the codes for its code lengths. -/
def lengthOrder : List Nat :=
  [16, 17, 18, 0, 8, 7, 9, 6, 10, 5, 11, 4, 12, 3, 13, 2, 14, 1, 15]

end ZipContainer.Deflate
