/-
JointCircuit.Protocol.Gate — the protocol that computes a node.

A gate is built from an operation and the values of its operands. Each
operand has to be evaluated and of the kind that the operation takes;
operands are looked up in the order in which they are written.
-/
import JointCircuit.Circuit
import JointCircuit.Protocol.Input
import JointCircuit.Protocol.Linear
import JointCircuit.Protocol.Multiply
import JointCircuit.Protocol.Reveal
import JointCircuit.Protocol.MacCheck

namespace JointCircuit

/-- What a node produced at one party. -/
inductive Value (m : Modulus) where
  | share (x : AuthShare m)
  | shares (xs : List (AuthShare m))
  /-- An opened value, to be trusted only after a check. -/
  | plain (x : Element m)
  | checked
deriving DecidableEq

/-- The kind of a value. -/
def Value.kind {m : Modulus} : Value m → ValueKind
  | .share _ => .share
  | .shares _ => .batch
  | .plain _ => .plain
  | .checked => .check

/-- The protocol that computes a node. -/
inductive Gate (m : Modulus) where
  | input (p : Input m)
  | linear (p : Linear m)
  | multiply (p : Multiply m)
  | multiplyBatch (p : MultiplyBatch m)
  | reveal (p : Reveal m)
  | macCheck (p : MacCheck m)
deriving DecidableEq

namespace Gate

variable {m : Modulus}

/-! ## §1 Construction -/

/-- The value of an operand. -/
def operand (values : List (Option (Value m))) (id : NodeId) : Except CircuitError (Value m) :=
  match values[id]? with
  | some (some value) => .ok value
  | _ => .error (.unevaluated id)

/-- The value of an operand that has to be a share. -/
def shareOf (values : List (Option (Value m))) (id : NodeId) :
    Except CircuitError (AuthShare m) := do
  match ← operand values id with
  | .share x => return x
  | other => throw (.kindMismatch id other.kind .share)

/-- The share at a position of an operand that has to be a batch. -/
def selectFrom (values : List (Option (Value m))) (batch : NodeId) (index : Nat) :
    Except CircuitError (AuthShare m) := do
  match ← operand values batch with
  | .shares xs =>
    match xs[index]? with
    | some x => return x
    | none => throw (.selectionOutside index xs.length batch)
  | other => throw (.kindMismatch batch other.kind .batch)

/-- A gate for a local operation. -/
def ofLinear (op : LinearOp m) : Gate m :=
  .linear { op }

/-- The gate for an operation over the values of earlier nodes. -/
def instantiate (values : List (Option (Value m))) : Operation m → Except CircuitError (Gate m)
  | .input owner value => .ok (.input (.new owner value))
  | .add x y => do return ofLinear (.add (← shareOf values x) (← shareOf values y))
  | .sub x y => do return ofLinear (.sub (← shareOf values x) (← shareOf values y))
  | .neg x => do return ofLinear (.neg (← shareOf values x))
  | .addPublic x c => do return ofLinear (.addPublic (← shareOf values x) c)
  | .subPublic x c => do return ofLinear (.subPublic (← shareOf values x) c)
  | .mulPublic x c => do return ofLinear (.mulPublic (← shareOf values x) c)
  | .select batch index => do return ofLinear (.identity (← selectFrom values batch index))
  | .multiply x y => do return .multiply (.new (← shareOf values x) (← shareOf values y))
  | .multiplyBatch pairs => do
    let operands ← pairs.mapM fun (x, y) => do return (← shareOf values x, ← shareOf values y)
    return .multiplyBatch { pairs := operands }
  | .reveal x => do return .reveal { share := ← shareOf values x }
  | .macCheck _ => .ok (.macCheck {})

/-! ## §2 Evaluation -/

/-- A round of the gate's protocol. -/
def evaluate (round : Nat) : Round m (Gate m) Status := do
  match ← Round.protocol with
  | .input p => Round.within p (fun q _ => .input q) (Input.evaluate round)
  | .linear p => Round.within p (fun q _ => .linear q) (Linear.evaluate round)
  | .multiply p => Round.within p (fun q _ => .multiply q) (Multiply.evaluate round)
  | .multiplyBatch p => Round.within p (fun q _ => .multiplyBatch q) (MultiplyBatch.evaluate round)
  | .reveal p => Round.within p (fun q _ => .reveal q) (Reveal.evaluate round)
  | .macCheck p => Round.within p (fun q _ => .macCheck q) (MacCheck.evaluate round)

/-- Take the value of the node. -/
def out : Gate m → Option (Value m) × Gate m
  | .input p => (p.out.1.map .share, .input p.out.2)
  | .linear p => (p.out.1.map .share, .linear p.out.2)
  | .multiply p => (p.out.1.map .share, .multiply p.out.2)
  | .multiplyBatch p => (p.out.1.map .shares, .multiplyBatch p.out.2)
  | .reveal p => (p.out.1.map .plain, .reveal p.out.2)
  | .macCheck p => (p.out.1.map (fun _ => .checked), .macCheck p.out.2)

instance : Protocol m (Gate m) (Value m) := ⟨evaluate, out⟩

end Gate

end JointCircuit
