import ZipContainer.Unpacking

/-!
# Binary range decoding

The arithmetic decoder under LZMA. A range of 32 bits is cut in two according to an adaptive
estimate of how likely the next bit is zero, and the code read from the data tells in which part
it lies. A byte is taken in whenever the range has become small, before the bit that needs it.
-/

namespace ZipContainer.Lzma

/-- The decoder: the data, the next byte, the range, the code within it, and the estimates. -/
structure Range where
  src : ByteArray
  pos : Nat
  range : UInt32
  code : UInt32
  estimates : Array UInt32

/-- An action of the decoder. -/
abbrev Decoder := StateT Range (Except Stop)

/-- The scale of the estimates, and the weight of one observation. -/
def scaleBits : UInt32 := 11
@[inherit_doc scaleBits] def moveBits : UInt32 := 5

/-- The estimate that zero and one are equally likely. -/
def evenEstimate : UInt32 := 1024

/-- Takes in a byte if the range has become small. -/
def Range.normalize (r : Range) : Except Stop Range :=
  if r.range < 0x1000000 then
    if h : r.pos < r.src.size then
      .ok { r with
        pos := r.pos + 1
        range := r.range <<< 8
        code := (r.code <<< 8) ||| r.src[r.pos].toUInt32 }
    else .error .starved
  else .ok r

/-- Decodes one bit under the estimate with the given index, and adapts the estimate. -/
def bit (index : Nat) : Decoder Nat := fun r =>
  match r.normalize with
  | .error why => .error why
  | .ok r =>
    let p := r.estimates[index]?.getD evenEstimate
    let bound := (r.range >>> scaleBits) * p
    if r.code < bound then
      let p := p + (((1 <<< scaleBits) - p) >>> moveBits)
      .ok (0, { r with range := bound, estimates := r.estimates.setIfInBounds index p })
    else
      let p := p - (p >>> moveBits)
      .ok (1, { r with
        range := r.range - bound
        code := r.code - bound
        estimates := r.estimates.setIfInBounds index p })

/-- Decodes a bit that is equally likely zero and one. -/
def evenBit : Decoder Nat := fun r =>
  match r.normalize with
  | .error why => .error why
  | .ok r =>
    let half := r.range >>> 1
    if r.code < half then .ok (0, { r with range := half })
    else .ok (1, { r with range := half, code := r.code - half })

/-- Decodes `n` equally likely bits behind those in `acc`, the most significant first. -/
def directBits : Nat → Nat → Decoder Nat
  | 0, acc => pure acc
  | n + 1, acc => do directBits n (2 * acc + (← evenBit))

/-- Decodes `n` bits, the most significant first; each has the estimate that belongs to the bits
before it. `node` is those bits behind a leading one. -/
def treeFrom (base : Nat) : Nat → Nat → Decoder Nat
  | 0, node => pure node
  | n + 1, node => do
    let b ← bit (base + node)
    treeFrom base n (2 * node + b)

/-- Decodes a number of `n` bits, the most significant first. -/
def tree (base n : Nat) : Decoder Nat := do
  return (← treeFrom base n 1) - 2 ^ n

/-- Decodes a number of `n` bits, the least significant first. -/
def reverseTree (base : Nat) : Nat → Nat → Nat → Nat → Decoder Nat
  | 0, _, _, acc => pure acc
  | n + 1, node, weight, acc => do
    let b ← bit (base + node)
    reverseTree base n (2 * node + b) (2 * weight) (acc + b * weight)

/-- The decoder over data whose first byte is zero and whose next four are the code. -/
def Range.start (src : ByteArray) (pos estimates : Nat) : Except Stop Range :=
  match src[pos]? with
  | none => .error .starved
  | some b =>
    if b ≠ 0 then .error .corrupt
    else
      match src[pos + 1]?, src[pos + 2]?, src[pos + 3]?, src[pos + 4]? with
      | some b₁, some b₂, some b₃, some b₄ =>
        .ok {
          src := src
          pos := pos + 5
          range := 0xFFFFFFFF
          code := (b₁.toUInt32 <<< 24) ||| (b₂.toUInt32 <<< 16) ||| (b₃.toUInt32 <<< 8) |||
            b₄.toUInt32
          estimates := Array.replicate estimates evenEstimate }
      | _, _, _, _ => .error .starved

end ZipContainer.Lzma
