import ZipContainer.Lzma.RangeDecoder

/-!
# Decoding of LZMA streams

LZMA spells its output by literals, by copies at a new distance and by copies at one of the last
four distances. A state, which tells what the last symbols were, and the position select the
estimates under which the next symbol is decoded. The stream may end with a marker, a copy at
the greatest distance; without one it is complete only when its reader has enough.
-/

namespace ZipContainer.Lzma

/-- The parameters of a stream: how many high bits of the last byte and how many low bits of the
position select the literal coder, how many low bits of the position select the other estimates,
and how far back copies may reach. -/
structure Parameters where
  literalContext : Nat
  literalPosition : Nat
  position : Nat
  window : Nat
  deriving DecidableEq, Repr

/-- The number of states. -/
def stateCount : Nat := 12

/-- The states below this one follow a literal. -/
def firstMatchState : Nat := 7

/-- The state after a literal, a copy at a new distance, a copy at an old distance and a copy of
one byte. -/
def afterLiteral (s : Nat) : Nat := if s < 4 then 0 else if s < 10 then s - 3 else s - 6
@[inherit_doc afterLiteral] def afterMatch (s : Nat) : Nat := if s < firstMatchState then 7 else 10
@[inherit_doc afterLiteral] def afterRepeat (s : Nat) : Nat := if s < firstMatchState then 8 else 11
@[inherit_doc afterLiteral] def afterShort (s : Nat) : Nat := if s < firstMatchState then 9 else 11

/-! ### Where the estimates stand -/

/-- The greatest number of positions that select estimates. -/
def positions : Nat := 16

/-- Where the estimates of each kind of decision begin. -/
def isMatchAt : Nat := 0
@[inherit_doc isMatchAt] def isRepeatAt : Nat := isMatchAt + stateCount * positions
@[inherit_doc isMatchAt] def isOlderAt : Nat := isRepeatAt + stateCount
@[inherit_doc isMatchAt] def isThirdAt : Nat := isOlderAt + stateCount
@[inherit_doc isMatchAt] def isFourthAt : Nat := isThirdAt + stateCount
@[inherit_doc isMatchAt] def isLongAt : Nat := isFourthAt + stateCount
@[inherit_doc isMatchAt] def slotAt : Nat := isLongAt + stateCount * positions
@[inherit_doc isMatchAt] def specialAt : Nat := slotAt + 4 * 64
@[inherit_doc isMatchAt] def alignAt : Nat := specialAt + 128
@[inherit_doc isMatchAt] def matchLengthAt : Nat := alignAt + 16
@[inherit_doc isMatchAt] def repeatLengthAt : Nat := matchLengthAt + (2 + 2 * 8 * positions + 256)
@[inherit_doc isMatchAt] def literalAt : Nat := repeatLengthAt + (2 + 2 * 8 * positions + 256)

/-- The number of estimates of one literal coder. -/
def literalCoderSize : Nat := 0x300

/-- The number of estimates of a stream. -/
def estimateCount (p : Parameters) : Nat :=
  literalAt + literalCoderSize * 2 ^ (p.literalContext + p.literalPosition)

/-! ### Symbols -/

/-- What has been decoded: the output, the state and the last four distances, less one. -/
structure History where
  out : ByteArray
  state : Nat
  rep₀ : Nat
  rep₁ : Nat
  rep₂ : Nat
  rep₃ : Nat

/-- The least length of a copy. -/
def minLength : Nat := 2

/-- Decodes the length of a copy. -/
def decodeLength (base pos : Nat) : Decoder Nat := do
  if (← bit base) = 0 then
    return minLength + (← tree (base + 2 + 8 * pos) 3)
  else if (← bit (base + 1)) = 0 then
    return minLength + 8 + (← tree (base + 2 + 8 * positions + 8 * pos) 3)
  else
    return minLength + 16 + (← tree (base + 2 + 2 * 8 * positions) 8)

/-- Decodes the bits of a literal that follows a copy: as long as they agree with the byte that
the copy would have gone on with, that byte selects the estimates. -/
def matchedLiteral (base other : Nat) : Nat → Nat → Nat → Decoder Nat
  | 0, _, node => pure node
  | n + 1, offset, node => do
    let o := other / 2 ^ n % 2
    let b ← bit (base + offset + offset * o + node)
    matchedLiteral base other n (if b = o then offset else 0) (2 * node + b)

/-- The byte `distance + 1` places back; before the output everything is zero. -/
def History.back (h : History) (distance : Nat) : Nat :=
  if distance < h.out.size then (h.out[h.out.size - 1 - distance]?.getD 0).toNat else 0

/-- Decodes a literal. -/
def literal (p : Parameters) (h : History) : Decoder UInt8 := do
  let last := h.back 0
  let coder := h.out.size % 2 ^ p.literalPosition * 2 ^ p.literalContext +
    last / 2 ^ (8 - p.literalContext)
  let base := literalAt + literalCoderSize * coder
  let node ←
    if h.state < firstMatchState then treeFrom base 8 1
    else matchedLiteral base (h.back h.rep₀) 8 0x100 1
  return UInt8.ofNat node

/-- Decodes a new distance, less one. -/
def decodeDistance (length : Nat) : Decoder Nat := do
  let slot ← tree (slotAt + 64 * min (length - minLength) 3) 6
  if slot < 4 then return slot
  let width := slot / 2 - 1
  let high := (2 + slot % 2) * 2 ^ width
  if slot < 14 then
    reverseTree (specialAt + high - slot - 1) width 1 1 high
  else
    let middle ← directBits (width - 4) 0
    reverseTree alignAt 4 1 1 (high + middle * 16)

/-- The distance that marks the end of a stream. -/
def endMarker : Nat := 0xFFFFFFFF

/-- Appends `n` bytes, each a copy of the one `distance + 1` places back. -/
def copyBack (distance : Nat) : Nat → ByteArray → ByteArray
  | 0, out => out
  | n + 1, out => copyBack distance n (out.push (out[out.size - 1 - distance]?.getD 0))

/-- A decoded symbol. -/
inductive Symbol where
  | literal (b : UInt8)
  /-- A copy; the distance counts from zero. -/
  | copy (state length distance rep₁ rep₂ rep₃ : Nat)
  | endOfStream

/-- Takes in what is left of the code, which has to be zero where a stream ends. -/
def endOfStream : Decoder Symbol := fun r =>
  match r.normalize with
  | .error why => .error why
  | .ok r => if r.code = 0 then .ok (.endOfStream, r) else .error .corrupt

/-- Decodes one symbol. -/
def symbol (p : Parameters) (h : History) : Decoder Symbol := do
  let pos := h.out.size % 2 ^ p.position
  let known := min h.out.size p.window
  if (← bit (isMatchAt + positions * h.state + pos)) = 0 then
    return .literal (← literal p h)
  if (← bit (isRepeatAt + h.state)) = 0 then
    let length ← decodeLength matchLengthAt pos
    let distance ← decodeDistance length
    if distance = endMarker then
      return ← endOfStream
    if known ≤ distance then throw .corrupt
    return .copy (afterMatch h.state) length distance h.rep₀ h.rep₁ h.rep₂
  if known = 0 then throw .corrupt
  if (← bit (isOlderAt + h.state)) = 0 then
    if (← bit (isLongAt + positions * h.state + pos)) = 0 then
      return .copy (afterShort h.state) 1 h.rep₀ h.rep₁ h.rep₂ h.rep₃
    let length ← decodeLength repeatLengthAt pos
    return .copy (afterRepeat h.state) length h.rep₀ h.rep₁ h.rep₂ h.rep₃
  if (← bit (isThirdAt + h.state)) = 0 then
    let length ← decodeLength repeatLengthAt pos
    return .copy (afterRepeat h.state) length h.rep₁ h.rep₀ h.rep₂ h.rep₃
  if (← bit (isFourthAt + h.state)) = 0 then
    let length ← decodeLength repeatLengthAt pos
    return .copy (afterRepeat h.state) length h.rep₂ h.rep₀ h.rep₁ h.rep₃
  let length ← decodeLength repeatLengthAt pos
  return .copy (afterRepeat h.state) length h.rep₃ h.rep₀ h.rep₁ h.rep₂

/-- Decodes symbols until the stream ends or decoding stops. -/
def run (p : Parameters) : Nat → History → Range → ByteArray × Stop
  | 0, h, _ => (h.out, .starved)
  | fuel + 1, h, r =>
    match symbol p h r with
    | .error why => (h.out, why)
    | .ok (.endOfStream, _) => (h.out, .ended)
    | .ok (.literal b, r) =>
      run p fuel { h with out := h.out.push b, state := afterLiteral h.state } r
    | .ok (.copy state length d r₁ r₂ r₃, r) =>
      run p fuel ⟨copyBack d length h.out, state, d, r₁, r₂, r₃⟩ r

/-- More symbols than one byte of data can spell: a decision whose estimate is as sure as it can
become takes more than a fiftieth of a bit. -/
def symbolsPerByte : Nat := 400

/-- The least window, and what windows are rounded up to a multiple of. -/
def minWindow : Nat := 4096
@[inherit_doc minWindow] def windowUnit : Nat := 16

/-- The parameters in five bytes of properties, if they are allowed. -/
def Parameters.ofBytes? : List UInt8 → Option Parameters
  | [b, w₀, w₁, w₂, w₃] =>
    let n := b.toNat
    let literalContext := n % 9
    let literalPosition := n / 9 % 5
    let window := w₀.toNat + 0x100 * w₁.toNat + 0x10000 * w₂.toNat + 0x1000000 * w₃.toNat
    if n < 9 * 5 * 5 ∧ literalContext + literalPosition ≤ 4 then
      some {
        literalContext := literalContext
        literalPosition := literalPosition
        position := n / 45
        window := (max minWindow window + windowUnit - 1) / windowUnit * windowUnit }
    else none
  | _ => none

/-- Decodes the bare stream that begins at a position. -/
def decodeRaw (p : Parameters) (src : ByteArray) (pos : Nat) : ByteArray × Stop :=
  match Range.start src pos (estimateCount p) with
  | .error why => (ByteArray.empty, why)
  | .ok r => run p (symbolsPerByte * (src.size + 2)) ⟨ByteArray.empty, 0, 0, 0, 0, 0⟩ r

/-- Decodes the data of a member that have arrived: two bytes that do not matter, the number of
bytes of properties, the properties, and the stream. Nothing happens before a byte of the stream
has arrived. -/
def decode (src : ByteArray) : Unpacked :=
  match src[2]?, src[3]? with
  | some lo, some hi =>
    let count := lo.toNat + 0x100 * hi.toNat
    if src.size ≤ 4 + count then ⟨ByteArray.empty, src.size, .starved⟩
    else
      match Parameters.ofBytes? (src.extract 4 (4 + count)).data.toList with
      | none => ⟨ByteArray.empty, src.size, .corrupt⟩
      | some p =>
        let (out, why) := decodeRaw p src (4 + count)
        ⟨out, src.size, why⟩
  | _, _ => ⟨ByteArray.empty, src.size, .starved⟩

end ZipContainer.Lzma
