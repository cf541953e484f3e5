/-
JointCircuit.Random.Expand — a full seed from a 64-bit number.

A linear congruential sequence is run for eight steps, and each state is
permuted into one word of the seed: a shift by a state-dependent amount
folded into 32 bits, then rotated by the top five bits.
-/
import JointCircuit.Random.ChaCha

namespace JointCircuit

namespace Seed

/-- The next state of the sequence. -/
def advance (state : UInt64) : UInt64 :=
  state * 6364136223846793005 + 11634580027462260723

/-- The word that a state stands for. -/
def permute (state : UInt64) : UInt32 :=
  let folded : UInt32 := (((state >>> 18) ^^^ state) >>> 27).toUInt32
  let turn : UInt32 := (state >>> 59).toUInt32
  (folded >>> turn) ||| (folded <<< ((32 - turn) % 32))

/-- The state after `steps` steps. -/
def stateAfter (start : UInt64) : (steps : Nat) → UInt64
  | 0 => start
  | steps + 1 => advance (stateAfter start steps)

/-- The seed that a number expands to: eight words, little-endian. -/
def expand (number : UInt64) : Seed :=
  Vector.ofFn fun i : Fin 32 =>
    ((permute (stateAfter number (i.val / 4 + 1))) >>> UInt32.ofNat (8 * (i.val % 4))).toUInt8

end Seed

/-- The generator that the dealer uses: twelve rounds, seeded with a number. -/
def Generator.ofNumber (number : UInt64) : Generator :=
  .ofSeed 12 (Seed.expand number)

end JointCircuit
