/-
JointCircuit.Circuit.Words — circuits over 64-bit words.

The ring of 128-bit integers carries 64-bit values. Here is what a
circuit over it computes in such values alone: every input and every
public constant is cut to its low word, words wrap around at every step,
and a value is worth what it is when it is opened.
-/
import JointCircuit.Circuit.Plain

namespace JointCircuit

namespace Element

/-- The low word of a 128-bit integer. -/
def word (x : Element .ring128) : UInt64 :=
  UInt64.ofNat x.val

/-- A word as a 128-bit integer. -/
def ofWord (w : UInt64) : Element .ring128 :=
  ⟨w.toNat, Nat.lt_of_lt_of_le w.toNat_lt (by decide)⟩

end Element

/-- The value of a node over words. -/
inductive WordValue where
  | scalar (w : UInt64)
  | batch (ws : List UInt64)
  | checked
deriving DecidableEq

namespace Words

/-- The word that an operand stands for. -/
def scalar (values : List WordValue) (id : NodeId) : Option UInt64 :=
  match values[id]? with
  | some (.scalar w) => some w
  | _ => none

/-- The value of an operation over the values of the nodes before it, if there is one. -/
def value (values : List WordValue) : Operation .ring128 → Option WordValue
  | .input _ x => return .scalar (← x).word
  | .add x y => return .scalar ((← scalar values x) + (← scalar values y))
  | .sub x y => return .scalar ((← scalar values x) - (← scalar values y))
  | .neg x => return .scalar (-(← scalar values x))
  | .addPublic x c => return .scalar ((← scalar values x) + c.word)
  | .subPublic x c => return .scalar ((← scalar values x) - c.word)
  | .mulPublic x c => return .scalar ((← scalar values x) * c.word)
  | .multiply x y => return .scalar ((← scalar values x) * (← scalar values y))
  | .multiplyBatch pairs =>
    return .batch (← pairs.mapM fun (x, y) => return (← scalar values x) * (← scalar values y))
  | .select batch index =>
    match values[batch]? with
    | some (.batch products) => return .scalar (← products[index]?)
    | _ => none
  | .reveal x => return .scalar (← scalar values x)
  | .macCheck _ => some .checked

/-- Evaluate the remaining operations after the nodes in `values`. -/
def evaluateFrom (values : List WordValue) : List (Operation .ring128) → Option (List WordValue)
  | [] => some values
  | op :: rest => do evaluateFrom (values ++ [← value values op]) rest

/-- The values of all nodes over words, in order. -/
def evaluate (c : Circuit .ring128) : Option (List WordValue) :=
  evaluateFrom [] c.nodes

end Words

end JointCircuit
