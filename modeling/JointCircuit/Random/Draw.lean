/-
JointCircuit.Random.Draw — values drawn from a generator.

Every draw is a computation that takes words from the keystream, so two
parties that draw the same values in the same order from equal
generators stay equal. Bytes are drawn in two ways: `bytes` uses four
bytes of each word and drops what is left of the last one, `lowBytes`
spends a whole word on each byte.
-/
import JointCircuit.Random.ChaCha
import JointCircuit.Element

namespace JointCircuit

/-- A value that depends on words of a keystream. -/
abbrev Draw := StateM Generator

namespace Draw

/-- One word. -/
def word : Draw UInt32 :=
  fun g => g.word

/-- Two words, the first of which is the low half. -/
def word64 : Draw Nat := do
  let low ← word
  let high ← word
  return low.toNat + Nat.pow 2 32 * high.toNat

/-- The little-endian bytes of `count` words. -/
def wordBytes : (count : Nat) → Draw Bytes
  | 0 => return []
  | count + 1 => do
    let w ← word
    let rest ← wordBytes count
    return Bytes.little 4 w.toNat ++ rest

/-- `length` bytes, four of them from each word. -/
def bytes (length : Nat) : Draw Bytes := do
  let drawn ← wordBytes ((length + 3) / 4)
  return drawn.take length

/-- The same draw `count` times, in order. -/
def vector {α : Type} (draw : Draw α) : (count : Nat) → Draw (Vector α count)
  | 0 => return #v[]
  | count + 1 => do
    let before ← vector draw count
    let last ← draw
    return before.push last

/-- The same draw `count` times, in order. -/
def replicate {α : Type} (draw : Draw α) : (count : Nat) → Draw (List α)
  | 0 => return []
  | count + 1 => do
    let first ← draw
    let rest ← replicate draw count
    return first :: rest

/-- The low byte of one word. -/
def lowByte : Draw UInt8 := do
  let w ← word
  return w.toUInt8

/-- A seed, one word for each of its bytes. -/
def seed : Draw Seed :=
  vector lowByte 32

/-! ## Elements -/

/-- Number of words in a whole cycle of a keystream. -/
def cycleLength : Nat :=
  Nat.pow 2 68

/-- The first number drawn that is below `size`, among at most `tries`. -/
def below (size : Nat) (hsize : 0 < size) (draw : Draw Nat) : (tries : Nat) → Draw (Fin size)
  | 0 => return ⟨0, hsize⟩
  | tries + 1 => do
    let n ← draw
    if h : n < size then return ⟨n, h⟩ else below size hsize draw tries

/-- A uniformly random element.

Below a prime modulus the number drawn is the Montgomery form of the
element: `limbs` 64-bit limbs, the bits above the modulus cleared, drawn
again if it is not below the modulus. The element is that number divided
by the Montgomery radix. Drawing again stops after a whole cycle of the
keystream, which then holds no acceptable number at all. In the ring
the sixteen bytes drawn are the number, most significant byte first. -/
def element : (m : Modulus) → Draw (Element m)
  | .mersenne61 => do
    let raw ← below _ (Modulus.size_pos .mersenne61) ((· % Nat.pow 2 61) <$> word64) cycleLength
    return raw * Element.ofNat .mersenne61 (Nat.pow 2 58)
  | .mersenne127 => do
    let limbs : Draw Nat := do
      let low ← word64
      let high ← word64
      return (low + Nat.pow 2 64 * high) % Nat.pow 2 127
    let raw ← below _ (Modulus.size_pos .mersenne127) limbs cycleLength
    return raw * Element.ofNat .mersenne127 (Nat.pow 2 126)
  | .ring128 => do
    let drawn ← bytes 16
    return Element.ofNat .ring128 (Bytes.ofBig drawn)

end Draw

end JointCircuit
