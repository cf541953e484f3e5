/-
JointCircuit.OpenedValues — values that were opened but not yet verified.

The store keeps the share a party opened beside the value it was opened
to, until a check drains all of them at once. A push appends shares and
values to their lists and cuts both back if they are not equally long
then; that this undoes the push depends on the lists being equally long
before it.

`checkTerm` is a party's term of the batched check: with coefficients
`r`, it is the combination of its MACs less its key share times the same
combination of the opened values.
-/
import JointCircuit.Share
import JointCircuit.Action

namespace JointCircuit

/-- Opened shares and the values they were opened to, in the order of opening. -/
structure OpenedValues (m : Modulus) where
  shares : List (AuthShare m) := []
  values : List (Element m) := []
deriving DecidableEq

namespace OpenedValues

variable {m : Modulus}

/-- Number of pending entries. -/
def length (s : OpenedValues m) : Nat :=
  s.shares.length

/-- Whether anything waits to be checked. -/
def hasPending (s : OpenedValues m) : Bool :=
  !s.shares.isEmpty

/-- Whether nothing waits to be checked. -/
def isEmpty (s : OpenedValues m) : Bool :=
  s.shares.isEmpty

/-- Append shares to the shares and values to the values. -/
def extend (s : OpenedValues m) (shares : List (AuthShare m)) (values : List (Element m)) :
    OpenedValues m :=
  { shares := s.shares ++ shares, values := s.values ++ values }

/-- Keep the first entries of both lists. -/
def truncate (s : OpenedValues m) (length : Nat) : OpenedValues m :=
  { shares := s.shares.take length, values := s.values.take length }

/-- Record opened shares with their values. Lists of different lengths are refused, after they were
appended, and taken back. -/
def push (shares : List (AuthShare m)) (values : List (Element m)) :
    Action (OpenedValues m) Unit := do
  let before := (← get).length
  modify (·.extend shares values)
  let s ← get
  if s.shares.length ≠ s.values.length then
    set (s.truncate before)
    throw (.protocol (.openingCounts (s.shares.length - before) (s.values.length - before)))

/-- Take all entries out of the store. -/
def drain : Action (OpenedValues m) (List (AuthShare m) × List (Element m)) := do
  let s ← get
  set ({} : OpenedValues m)
  return (s.shares, s.values)

end OpenedValues

/-- A party's term of the batched check. The batch is sound if the terms of all
parties sum to zero. -/
def checkTerm {m : Modulus} (key : Element m) (shares : List (AuthShare m))
    (values coefficients : List (Element m)) : Element m :=
  let entries := (shares.zip values).zip coefficients
  let value := entries.foldl (fun acc e => acc + e.2 * e.1.2) 0
  let mac := entries.foldl (fun acc e => acc + e.2 * e.1.1.mac) 0
  mac - key * value

end JointCircuit
