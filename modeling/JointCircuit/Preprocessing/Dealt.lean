/-
JointCircuit.Preprocessing.Dealt — material dealt to one party in advance.

Dealt data is accepted only if it fits the party set it names. Material
is handed out from the back of every list, and a call that asks for more
than is left takes nothing.
-/
import JointCircuit.Preprocessing.Material
import JointCircuit.Action

namespace JointCircuit

/-- Everything dealt to one party. -/
structure DealtData (m : Modulus) where
  parties : Nat
  /-- The party the data was dealt for, from 1. -/
  party : Nat
  keyShare : Element m
  triples : List (Triple m)
  /-- Masks of every owner, those of party 1 first. -/
  masks : List (List (AuthShare m))
  /-- Plaintexts of the party's own masks, in the order of the masks. -/
  plaintexts : List (Element m)
deriving DecidableEq

/-- A supplier of dealt material: the data that is left. -/
structure DealtSupplier (m : Modulus) where
  data : DealtData m
deriving DecidableEq

namespace DealtSupplier

variable {m : Modulus}

/-- Masks of `owner` that are left; there are none for a party that does not exist. -/
def masksOf (s : DealtSupplier m) (owner : Nat) : List (AuthShare m) :=
  if owner = 0 then [] else s.data.masks.getD (owner - 1) []

/-- Accept data that fits its party set. -/
def new (data : DealtData m) : Except ConfigError (DealtSupplier m) :=
  let s : DealtSupplier m := ⟨data⟩
  if data.parties < 2 then .error (.tooFewParties data.parties)
  else if data.party = 0 ∨ data.parties < data.party then
    .error (.partyOutOfRange data.party data.parties)
  else if data.masks.length ≠ data.parties then
    .error (.maskLists data.masks.length data.parties)
  else if (s.masksOf data.party).length ≠ data.plaintexts.length then
    .error (.maskPlaintexts (s.masksOf data.party).length data.plaintexts.length)
  else .ok s

/-- Number of triples left. -/
def triplesLeft (s : DealtSupplier m) : Nat :=
  s.data.triples.length

/-- Number of masks left for `owner`. -/
def masksLeft (s : DealtSupplier m) (owner : Nat) : Nat :=
  (s.masksOf owner).length

/-- The next mask reserved for inputs of `owner`, with its plaintext if that is the own party. -/
def nextMask (owner : Nat) : Action (DealtSupplier m) (InputMask m) := do
  let s ← get
  if owner = 0 ∨ s.data.masks.length < owner then
    throw (.config (.partyOutOfRange owner s.data.parties))
  match (s.masksOf owner).getLast? with
  | none => throw (.exhausted (.masks owner))
  | some mask =>
    let masks := s.data.masks.set (owner - 1) (s.masksOf owner).dropLast
    set ({ data := { s.data with masks } } : DealtSupplier m)
    if owner = s.data.party then
      match s.data.plaintexts.getLast? with
      | none => throw (.exhausted .maskPlaintexts)
      | some plaintext =>
        let plaintexts := s.data.plaintexts.dropLast
        set ({ data := { s.data with masks, plaintexts } } : DealtSupplier m)
        return ⟨some plaintext, mask⟩
    else
      return ⟨none, mask⟩

/-- The next `count` triples: the last ones left, the very last first. -/
def nextTriples (count : Nat) : Action (DealtSupplier m) (List (Triple m)) := do
  let s ← get
  let left := s.triplesLeft
  if left < count then throw (.exhausted (.triples count left))
  set ({ data := { s.data with triples := s.data.triples.take (left - count) } } : DealtSupplier m)
  return (s.data.triples.drop (left - count)).reverse

end DealtSupplier

end JointCircuit
