/-
JointCircuit.Preprocessing.Supplier — where a party's material comes from.

Either synthetic material or dealt data; a pool sees both through the
same three operations.
-/
import JointCircuit.Preprocessing.Synthetic
import JointCircuit.Preprocessing.Dealt

namespace JointCircuit

/-- A source of preprocessed material for one party. -/
inductive Supplier (m : Modulus) where
  | synthetic (supplier : SyntheticSupplier m)
  | dealt (supplier : DealtSupplier m)
deriving DecidableEq

namespace Supplier

variable {m : Modulus}

/-- The party's part of the MAC key. -/
def keyShare : Supplier m → Element m
  | .synthetic s => s.keyShare
  | .dealt s => s.data.keyShare

/-- The party that the material is for. -/
def party : Supplier m → Nat
  | .synthetic s => s.place.party
  | .dealt s => s.data.party

/-- The number of parties that the material is for. -/
def parties : Supplier m → Nat
  | .synthetic s => s.place.parties
  | .dealt s => s.data.parties

/-- The next mask reserved for inputs of `owner`. -/
def nextMask (owner : Nat) : Action (Supplier m) (InputMask m) := fun supplier =>
  match supplier with
  | .synthetic s =>
    Action.within (fun _ => s) (fun t _ => .synthetic t) (SyntheticSupplier.nextMask owner) supplier
  | .dealt s =>
    Action.within (fun _ => s) (fun t _ => .dealt t) (DealtSupplier.nextMask owner) supplier

/-- The next `count` triples. -/
def nextTriples (count : Nat) : Action (Supplier m) (List (Triple m)) := fun supplier =>
  match supplier with
  | .synthetic s =>
    Action.within (fun _ => s) (fun t _ => .synthetic t) (SyntheticSupplier.nextTriples count)
      supplier
  | .dealt s =>
    Action.within (fun _ => s) (fun t _ => .dealt t) (DealtSupplier.nextTriples count) supplier

end Supplier

end JointCircuit
