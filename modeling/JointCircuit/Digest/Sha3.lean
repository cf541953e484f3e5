/-
JointCircuit.Digest.Sha3 — the SHA3-256 hash function.

The state is 25 lanes of 64 bits, the lane of column `x` and row `y` at
index `x + 5 y`. One permutation is 24 rounds of five steps: column
parities are mixed in, lanes are rotated, moved, combined along their
rows, and a round constant is added. A message is padded, cut into
blocks of 136 bytes and absorbed block by block; the digest is the first
32 bytes of the last state.

Main statement: a digest has 32 bytes (`length_sha3`).
-/
import JointCircuit.Bytes

namespace JointCircuit

namespace Sha3

/-- The 25 lanes of a state. -/
abbrev Lanes := Vector UInt64 25

/-- Rotate a lane to the left. -/
def rotateLeft (x : UInt64) (n : UInt64) : UInt64 :=
  if n = 0 then x else (x <<< n) ||| (x >>> (64 - n))

/-- How far the lane at each index is rotated. -/
def offsets : Vector UInt64 25 :=
  #v[0, 1, 62, 28, 27,
     36, 44, 6, 55, 20,
     3, 10, 43, 25, 39,
     41, 45, 15, 21, 8,
     18, 2, 61, 56, 14]

/-- The constant added in each round. -/
def roundConstants : List UInt64 :=
  [0x0000000000000001, 0x0000000000008082, 0x800000000000808a, 0x8000000080008000,
   0x000000000000808b, 0x0000000080000001, 0x8000000080008081, 0x8000000000008009,
   0x000000000000008a, 0x0000000000000088, 0x0000000080008009, 0x000000008000000a,
   0x000000008000808b, 0x800000000000008b, 0x8000000000008089, 0x8000000000008003,
   0x8000000000008002, 0x8000000000000080, 0x000000000000800a, 0x800000008000000a,
   0x8000000080008081, 0x8000000000008080, 0x0000000080000001, 0x8000000080008008]

/-- The lane in column `x` and row `y`; columns and rows wrap around. -/
def lane (a : Lanes) (x y : Nat) : UInt64 :=
  a.get ⟨x % 5 + 5 * (y % 5), by omega⟩

/-- Mix the parity of the two neighbouring columns into every lane. -/
def theta (a : Lanes) : Lanes :=
  let parity : Vector UInt64 5 := Vector.ofFn fun x =>
    lane a x 0 ^^^ lane a x 1 ^^^ lane a x 2 ^^^ lane a x 3 ^^^ lane a x 4
  let mixed : Vector UInt64 5 := Vector.ofFn fun x =>
    parity.get ⟨(x.val + 4) % 5, by omega⟩ ^^^ rotateLeft (parity.get ⟨(x.val + 1) % 5, by omega⟩) 1
  Vector.ofFn fun i => a[i] ^^^ mixed.get ⟨i.val % 5, by omega⟩

/-- Rotate every lane and move it: the lane at `(x, y)` goes to `(y, 2 x + 3 y)`. -/
def rhoPi (a : Lanes) : Lanes :=
  Vector.ofFn fun i =>
    let x := (i.val % 5 + 3 * (i.val / 5)) % 5
    let y := i.val % 5
    rotateLeft (lane a x y) (lane offsets x y)

/-- Combine each lane with the next two of its row. -/
def chi (a : Lanes) : Lanes :=
  Vector.ofFn fun i =>
    let x := i.val % 5
    let y := i.val / 5
    a[i] ^^^ (~~~(lane a (x + 1) y) &&& lane a (x + 2) y)

/-- One round with its constant. -/
def round (a : Lanes) (constant : UInt64) : Lanes :=
  let b := chi (rhoPi (theta a))
  b.set 0 (b[0] ^^^ constant)

/-- The permutation of the state. -/
def permute (a : Lanes) : Lanes :=
  roundConstants.foldl round a

/-- Bytes absorbed per permutation. -/
def rate : Nat := 136

/-- The bytes appended to a message whose last block holds `used` bytes. -/
def padding (used : Nat) : Bytes :=
  if used + 1 = rate then [0x86]
  else 0x06 :: (List.replicate (rate - used - 2) 0 ++ [0x80])

/-- Add the bytes of one block to the lanes, then permute. -/
def absorb (a : Lanes) (block : Bytes) : Lanes :=
  let bytes := block.toArray
  let word (i : Nat) : UInt64 :=
    (List.range 8).foldr (fun k acc => (acc <<< 8) ||| (bytes.getD (8 * i + k) 0).toUInt64) 0
  permute (Vector.ofFn fun i => a[i] ^^^ word i)

/-- Absorb a padded message, `blocks` blocks long. -/
def absorbAll : (blocks : Nat) → Lanes → Bytes → Lanes
  | 0, a, _ => a
  | blocks + 1, a, bytes => absorbAll blocks (absorb a (bytes.take rate)) (bytes.drop rate)

end Sha3

/-- The SHA3-256 digest of a message. -/
def sha3 (message : Bytes) : Bytes :=
  let padded := message ++ Sha3.padding (message.length % Sha3.rate)
  let final := Sha3.absorbAll (padded.length / Sha3.rate) (Vector.replicate 25 0) padded
  (final.toList.take 4).flatMap fun w => Bytes.little 8 w.toNat

/-- Length in bytes of a digest. -/
def digestLength : Nat := 32

@[simp] theorem length_sha3 (message : Bytes) : (sha3 message).length = digestLength := by
  simp [sha3, digestLength, List.length_flatMap, List.map_const']

end JointCircuit
