/-
JointCircuit.Preprocessing.Dealer — deal consistent material to all parties.

The dealer draws a key share for every party, then triples, then masks
for each owner. A value is shared by drawing the parts of all parties
but the last; the last part makes the sums come out.
-/
import JointCircuit.Random.Draw
import JointCircuit.Preprocessing.Dealt

namespace JointCircuit

namespace Dealer

variable {m : Modulus}

/-- Share a value among the parties under the whole MAC key. -/
def share (parties : Nat) (key value : Element m) : Draw (List (AuthShare m)) := do
  let drawn ← Draw.replicate (do return ⟨← Draw.element m, ← Draw.element m⟩) (parties - 1)
  let sum : AuthShare m := drawn.foldl (· + ·) 0
  return drawn ++ [⟨value - sum.share, value * key - sum.mac⟩]

/-- Share a random value. -/
def shareRandom (parties : Nat) (key : Element m) : Draw (List (AuthShare m) × Element m) := do
  let value ← Draw.element m
  let shares ← share parties key value
  return (shares, value)

/-- The parts of all parties of one triple. -/
def triple (parties : Nat) (key : Element m) : Draw (List (Triple m)) := do
  let (sharesA, a) ← shareRandom parties key
  let (sharesB, b) ← shareRandom parties key
  let sharesC ← share parties key (a * b)
  return List.zipWith (fun a (b, c) => ⟨a, b, c⟩) sharesA (sharesB.zip sharesC)

/-- The column of a table that belongs to the party at an index. -/
def column {α : Type} (rows : List (List α)) (index : Nat) : List α :=
  rows.filterMap (·[index]?)

/-- Material for every party: `triples` triples and, for each owner, `masks` masks. -/
def generate (m : Modulus) (parties triples masks : Nat) : Draw (List (DealtData m)) := do
  let keyShares ← Draw.replicate (Draw.element m) parties
  let key := keyShares.foldl (· + ·) 0
  let tripleRows ← Draw.replicate (triple parties key) triples
  let maskRows ← Draw.replicate (Draw.replicate (shareRandom parties key) masks) parties
  return keyShares.zipIdx.map fun (keyShare, i) =>
    { parties
      party := i + 1
      keyShare
      triples := column tripleRows i
      masks := maskRows.map fun rows => column (rows.map (·.1)) i
      plaintexts := (maskRows.getD i []).map (·.2) }

end Dealer

end JointCircuit
