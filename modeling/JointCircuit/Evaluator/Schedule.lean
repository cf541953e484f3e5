/-
JointCircuit.Evaluator.Schedule — which nodes may start.

A schedule counts, for every node, the distinct dependencies that have
no value yet. A node becomes ready when its count reaches zero; ready
nodes start in ascending order. Completing a node stores its value and
releases the nodes that wait for it.
-/
import JointCircuit.Protocol.Gate

namespace JointCircuit

/-- Progress of an evaluation. -/
structure Schedule (m : Modulus) where
  circuit : Circuit m
  /-- For each node, the number of its dependencies without a value. -/
  missing : List Nat
  /-- Nodes that may start, in ascending order. -/
  ready : List NodeId
  /-- The values of finished nodes. -/
  values : List (Option (Value m))
deriving DecidableEq

namespace Schedule

variable {m : Modulus}

/-- The schedule before any node has started. -/
def new (circuit : Circuit m) : Schedule m :=
  let missing := circuit.nodes.map (·.dependencies.length)
  { circuit
    missing
    ready := (missing.zipIdx.filter (·.1 = 0)).map (·.2)
    values := List.replicate circuit.size none }

/-- The lowest ready node, no longer ready. -/
def next? (s : Schedule m) : Option (NodeId × Schedule m) :=
  match s.ready with
  | [] => none
  | id :: rest => some (id, { s with ready := rest })

/-- The gate for a node, from the values finished so far. -/
def gate (s : Schedule m) (id : NodeId) : Except CircuitError (Gate m) :=
  match s.circuit.operation? id with
  | none => .error (.unevaluated id)
  | some op => Gate.instantiate s.values op

/-- One dependency of a node has its value now. -/
def release (s : Schedule m) (id : NodeId) : Schedule m :=
  let missing := s.missing.modify id (· - 1)
  if missing[id]? = some 0 then { s with missing, ready := insertDistinct id s.ready }
  else { s with missing }

/-- Store the value of a finished node and release the nodes that wait for it. -/
def complete (s : Schedule m) (id : NodeId) (value : Value m) : Schedule m :=
  (s.circuit.dependents id).foldl release { s with values := s.values.set id (some value) }

/-- The values of all nodes; a node without one is an error. -/
def outputs (s : Schedule m) : Except CircuitError (List (Value m)) :=
  s.values.zipIdx.mapM fun (value, id) =>
    match value with
    | some value => .ok value
    | none => .error (.neverEvaluated id)

end Schedule

/-- The values that an evaluation computed, by node. -/
structure Outputs (m : Modulus) where
  values : List (Value m)
deriving DecidableEq

namespace Outputs

variable {m : Modulus}

/-- The value of a node. -/
def get? (o : Outputs m) (id : NodeId) : Option (Value m) :=
  o.values[id]?

/-- The share that a node produced, if it produced one. -/
def share? (o : Outputs m) (id : NodeId) : Option (AuthShare m) :=
  match o.get? id with
  | some (.share x) => some x
  | _ => none

/-- The batch of shares that a node produced, if it produced one. -/
def shares? (o : Outputs m) (id : NodeId) : Option (List (AuthShare m)) :=
  match o.get? id with
  | some (.shares xs) => some xs
  | _ => none

/-- The value that a node opened, if it opened one. -/
def plain? (o : Outputs m) (id : NodeId) : Option (Element m) :=
  match o.get? id with
  | some (.plain x) => some x
  | _ => none

/-- Number of nodes. -/
def size (o : Outputs m) : Nat :=
  o.values.length

end Outputs

end JointCircuit
