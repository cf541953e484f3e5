/-
JointCircuit.Circuit.Plain — circuits evaluated in the clear.

One reader holds all inputs and computes every node in order. This is
what a joint evaluation is meant to compute; it also counts the products
and the openings, which are what a joint evaluation pays for. The
counters keep what was counted before a failure.
-/
import JointCircuit.Circuit
import JointCircuit.Action

namespace JointCircuit

/-- The value of a node in the clear. -/
inductive PlainValue (m : Modulus) where
  | scalar (x : Element m)
  | batch (xs : List (Element m))
  | checked
deriving DecidableEq

/-- What evaluations in the clear have counted so far. -/
structure PlainCounts where
  openings : Nat := 0
  multiplications : Nat := 0
deriving DecidableEq, Repr

namespace Plain

variable {m : Modulus}

/-- The number that an operand stands for. -/
def scalar (values : List (PlainValue m)) (id : NodeId) : Except CircuitError (Element m) :=
  match values[id]? with
  | some (.scalar x) => .ok x
  | _ => .error (.notScalar id)

/-- The value of an operation over the values of the nodes before it; the node itself is `id`. -/
def value (values : List (PlainValue m)) (id : NodeId) :
    Operation m → Except CircuitError (PlainValue m)
  | .input _ (some x) => .ok (.scalar x)
  | .input _ none => .error (.missingPlaintext id)
  | .add x y => do return .scalar ((← scalar values x) + (← scalar values y))
  | .sub x y => do return .scalar ((← scalar values x) - (← scalar values y))
  | .neg x => do return .scalar (-(← scalar values x))
  | .addPublic x c => do return .scalar ((← scalar values x) + c)
  | .subPublic x c => do return .scalar ((← scalar values x) - c)
  | .mulPublic x c => do return .scalar ((← scalar values x) * c)
  | .multiply x y => do return .scalar ((← scalar values x) * (← scalar values y))
  | .multiplyBatch pairs => do
    let products ← pairs.mapM fun (x, y) => do return (← scalar values x) * (← scalar values y)
    return .batch products
  | .select batch index =>
    match values[batch]? with
    | some (.batch products) =>
      match products[index]? with
      | some x => .ok (.scalar x)
      | none => .error (.selectionPastEnd id batch)
    | _ => .error (.selectionFromOther id batch)
  | .reveal x => do return .scalar (← scalar values x).effective
  | .macCheck _ => .ok .checked

/-- What an operation adds to the counters, whether or not it succeeds. -/
def count (counts : PlainCounts) : Operation m → PlainCounts
  | .multiply _ _ => { counts with multiplications := counts.multiplications + 1 }
  | .multiplyBatch pairs => { counts with multiplications := counts.multiplications + pairs.length }
  | .reveal _ => { counts with openings := counts.openings + 1 }
  | _ => counts

/-- Evaluate the remaining operations after the nodes in `values`. -/
def evaluateFrom (values : List (PlainValue m)) :
    List (Operation m) → Action PlainCounts (List (PlainValue m))
  | [] => return values
  | op :: rest => do
    modify (count · op)
    let x ← Action.ofExcept .circuit (value values values.length op)
    evaluateFrom (values ++ [x]) rest

/-- The values of all nodes, in order. -/
def evaluate (c : Circuit m) : Action PlainCounts (List (PlainValue m)) :=
  evaluateFrom [] c.nodes

end Plain

end JointCircuit
