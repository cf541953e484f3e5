/-
JointCircuit.Preprocessing.Synthetic — insecure material from a common seed.

Every party expands the same seed and derives its own part of everything,
so parties with equal seeds hold consistent material without talking to
each other. It is meant for tests: whoever knows the seed knows all.

The parts of one value form an arithmetic progression over the parties,
and party 1 absorbs the difference to the value (`part`).
-/
import JointCircuit.Random.Draw
import JointCircuit.Preprocessing.Material
import JointCircuit.Action

namespace JointCircuit

namespace Synthetic

/-- The place of one party among all. -/
structure Place where
  parties : Nat
  party : Nat
deriving DecidableEq, Repr

/-- The sum of the numbers of `n` parties. Their product with the next number is counted in 64
bits, so one that does not fit wraps around. -/
def numberSum (n : Nat) : Nat :=
  n * (n + 1) % Bytes.capacity 8 / 2

/-- A party's part of a value. -/
def part {m : Modulus} (place : Place) (value : Element m) : Draw (Element m) := do
  let start ← Draw.element m
  let step ← Draw.element m
  let share := start + step * Element.ofNat m place.party
  if place.party = 1 then
    let n := place.parties
    let sum := start * Element.ofNat m n + step * Element.ofNat m (numberSum n)
    return share + value - sum
  else
    return share

/-- A party's part of a value and of its MAC under `key`. -/
def authenticated {m : Modulus} (place : Place) (key value : Element m) : Draw (AuthShare m) := do
  let share ← part place value
  let mac ← part place (value * key)
  return ⟨share, mac⟩

/-- A random value with a party's part of it. -/
def randomAuthenticated {m : Modulus} (place : Place) (key : Element m) :
    Draw (AuthShare m × Element m) := do
  let value ← Draw.element m
  let share ← authenticated place key value
  return (share, value)

/-- A party's part of a random triple. -/
def triple {m : Modulus} (place : Place) (key : Element m) : Draw (Triple m) := do
  let (a, aValue) ← randomAuthenticated place key
  let (b, bValue) ← randomAuthenticated place key
  let c ← authenticated place key (aValue * bValue)
  return ⟨a, b, c⟩

end Synthetic

/-- A supplier of synthetic material for one party. Triples and the masks
of each owner come from generators of their own, so the parties may ask
for them in different orders. -/
structure SyntheticSupplier (m : Modulus) where
  place : Synthetic.Place
  /-- The whole MAC key. -/
  key : Element m
  keyShare : Element m
  triples : Generator
  /-- A generator for the masks of each owner. -/
  masks : List Generator
deriving DecidableEq

namespace SyntheticSupplier

variable {m : Modulus}

/-- Everything that is drawn from the common seed at the start. -/
def setup (m : Modulus) (place : Synthetic.Place) : Draw (SyntheticSupplier m) := do
  let key ← Draw.element m
  let keyShare ← Synthetic.part place key
  let triples ← Draw.seed
  let masks ← Draw.replicate Draw.seed place.parties
  return ⟨place, key, keyShare, .ofPartySeed triples, masks.map .ofPartySeed⟩

/-- The supplier of one party. The common seed is one byte, repeated. -/
def new (m : Modulus) (parties party : Nat) (seed : UInt8) : SyntheticSupplier m :=
  (setup m ⟨parties, party⟩ (.ofPartySeed (Vector.replicate 32 seed))).1

/-- The next mask reserved for inputs of `owner`. -/
def nextMask (owner : Nat) : Action (SyntheticSupplier m) (InputMask m) := do
  let s ← get
  if owner = 0 then throw (.config (.partyOutOfRange owner s.place.parties))
  match s.masks[owner - 1]? with
  | none => throw (.config (.partyOutOfRange owner s.place.parties))
  | some generator =>
    let ((mask, value), generator) := Synthetic.randomAuthenticated s.place s.key generator
    set { s with masks := s.masks.set (owner - 1) generator }
    return ⟨if owner = s.place.party then some value else none, mask⟩

/-- The next `count` triples. -/
def nextTriples (count : Nat) : Action (SyntheticSupplier m) (List (Triple m)) := do
  let s ← get
  let (triples, generator) := Draw.replicate (Synthetic.triple s.place s.key) count s.triples
  set { s with triples := generator }
  return triples

end SyntheticSupplier

end JointCircuit
