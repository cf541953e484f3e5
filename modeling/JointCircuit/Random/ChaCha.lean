/-
JointCircuit.Random.ChaCha — the ChaCha keystream as a random generator.

A generator is a key, the number of the next 16-word block and the words
of the current block that nobody has drawn yet. Block number, counted in
64 bits, and a zero nonce fill the last row of the initial state. The
number of rounds is a parameter: generators of parties use 20 rounds,
the generator of the dealer uses 12.

A generator is a value, not a resource: seeded twice with the same seed
it yields the same words. The words of a block come in its order.
-/
import JointCircuit.Bytes

namespace JointCircuit

/-- A 32-byte seed. -/
abbrev Seed := Vector UInt8 32

/-- The seed a byte string holds, if it has the length of one. -/
def Seed.ofBytes? (bytes : Bytes) : Option Seed :=
  if h : bytes.length = 32 then some ⟨bytes.toArray, by simpa using h⟩ else none

namespace ChaCha

/-- The sixteen words of a block. -/
abbrev Block := Vector UInt32 16

/-- Rotate a word to the left. -/
def rotateLeft (x : UInt32) (n : UInt32) : UInt32 :=
  (x <<< n) ||| (x >>> (32 - n))

/-- The quarter round on the words at four positions. -/
def quarterRound (a b c d : Fin 16) (s : Block) : Block :=
  let sa := s[a] + s[b]
  let sd := rotateLeft (s[d] ^^^ sa) 16
  let sc := s[c] + sd
  let sb := rotateLeft (s[b] ^^^ sc) 12
  let sa := sa + sb
  let sd := rotateLeft (sd ^^^ sa) 8
  let sc := sc + sd
  let sb := rotateLeft (sb ^^^ sc) 7
  (((s.set a sa).set b sb).set c sc).set d sd

/-- A column round followed by a diagonal round. -/
def doubleRound (s : Block) : Block :=
  let s := quarterRound 0 4 8 12 s
  let s := quarterRound 1 5 9 13 s
  let s := quarterRound 2 6 10 14 s
  let s := quarterRound 3 7 11 15 s
  let s := quarterRound 0 5 10 15 s
  let s := quarterRound 1 6 11 12 s
  let s := quarterRound 2 7 8 13 s
  quarterRound 3 4 9 14 s

/-- The little-endian word at byte `i` of a seed. -/
def seedWord (seed : Seed) (i : Fin 8) : UInt32 :=
  let byte (k : Fin 4) : UInt32 := (seed.get ⟨4 * i.val + k.val, by omega⟩).toUInt32
  byte 0 ||| (byte 1 <<< 8) ||| (byte 2 <<< 16) ||| (byte 3 <<< 24)

/-- The initial state of block number `counter`. -/
def initialBlock (seed : Seed) (counter : UInt64) : Block :=
  let key := seedWord seed
  #v[0x61707865, 0x3320646e, 0x79622d32, 0x6b206574,
     key 0, key 1, key 2, key 3, key 4, key 5, key 6, key 7,
     counter.toUInt32, (counter >>> 32).toUInt32, 0, 0]

/-- Block number `counter` of the keystream. -/
def block (rounds : Nat) (seed : Seed) (counter : UInt64) : Block :=
  let start := initialBlock seed counter
  let mixed := Nat.repeat doubleRound (rounds / 2) start
  Vector.zipWith (· + ·) mixed start

end ChaCha

/-- A generator of random words. -/
structure Generator where
  /-- Number of rounds of every block. -/
  rounds : Nat
  seed : Seed
  /-- The block computed next. -/
  counter : UInt64
  /-- Words of the block before it that are not drawn yet. -/
  pending : List UInt32
deriving DecidableEq

namespace Generator

/-- The generator at the start of its keystream. -/
def ofSeed (rounds : Nat) (seed : Seed) : Generator :=
  ⟨rounds, seed, 0, []⟩

/-- The generator that parties use: twenty rounds. -/
def ofPartySeed (seed : Seed) : Generator :=
  ofSeed 20 seed

/-- The next word of the keystream. -/
def word (g : Generator) : UInt32 × Generator :=
  match g.pending with
  | w :: rest => (w, { g with pending := rest })
  | [] =>
    let words := ChaCha.block g.rounds g.seed g.counter
    (words[0], { g with counter := g.counter + 1, pending := words.toList.tail })

end Generator

end JointCircuit
