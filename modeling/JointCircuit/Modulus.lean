/-
JointCircuit.Modulus — the moduli an arithmetic circuit is evaluated over.

Two Mersenne primes and the ring of 128-bit integers. Everything that
depends on the choice is a function of the modulus: how many elements
there are (`size`), how wide their encoding is (`byteLength`) and how
many bits of an opened value count (`effectiveBits`).

Main statements: every element fits its encoding
(`size_le_two_pow`), and below a prime modulus the effective width
drops nothing (`lt_two_pow_effectiveBits`).
-/
namespace JointCircuit

/-- The public modulus of a computation. -/
inductive Modulus where
  /-- The prime 2^61 - 1. -/
  | mersenne61
  /-- The prime 2^127 - 1. -/
  | mersenne127
  /-- The ring of integers modulo 2^128, which carries 64-bit values. -/
  | ring128
deriving DecidableEq, Repr

namespace Modulus

/-- Number of residues. -/
def size : Modulus → Nat
  | .mersenne61 => Nat.pow 2 61 - 1
  | .mersenne127 => Nat.pow 2 127 - 1
  | .ring128 => Nat.pow 2 128

/-- Width in bytes of the encoding of one residue. -/
def byteLength : Modulus → Nat
  | .mersenne61 => 8
  | .mersenne127 => 16
  | .ring128 => 16

/-- No encoding is empty. -/
theorem byteLength_pos (m : Modulus) : 0 < m.byteLength := by
  cases m <;> decide

/-- Bits the arithmetic is carried out in: the whole encoding. -/
def operationalBits (m : Modulus) : Nat :=
  8 * m.byteLength

/-- Bits of the values a computation is meant to carry. The ring keeps
64 spare bits, so that its low half computes 64-bit words. -/
def effectiveBits : Modulus → Nat
  | .mersenne61 => 61
  | .mersenne127 => 127
  | .ring128 => 64

/-- No modulus is trivial. -/
theorem size_pos (m : Modulus) : 0 < m.size := by
  cases m <;> decide

instance (m : Modulus) : @NeZero Nat Zero.ofOfNat0 m.size :=
  ⟨Nat.ne_of_gt m.size_pos⟩

/-- Every residue fits its encoding. -/
theorem size_le_two_pow (m : Modulus) : m.size ≤ Nat.pow 2 m.operationalBits := by
  cases m <;> decide

/-- A residue of a prime modulus has no bit beyond the effective ones. -/
theorem lt_two_pow_effectiveBits {m : Modulus} (h : m ≠ .ring128) {x : Nat} (hx : x < m.size) :
    x < Nat.pow 2 m.effectiveBits := by
  cases m with
  | mersenne61 => exact Nat.lt_of_lt_of_le hx (by decide)
  | mersenne127 => exact Nat.lt_of_lt_of_le hx (by decide)
  | ring128 => exact absurd rfl h

end Modulus

end JointCircuit
