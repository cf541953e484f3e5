/-
JointCircuit.Circuit — arithmetic circuits in topological order.

A circuit is a list of operations; a node is named by its index and
takes earlier nodes as operands. `Operation.dependencies` lists the
distinct nodes an operation waits for, in ascending order, and
`Circuit.validate` accepts exactly the circuits in which every
dependency comes first and every input has an owner
(`validate_eq_ok_iff`).
-/
import JointCircuit.Element

namespace JointCircuit

/-- A node of a circuit, named by its index. -/
abbrev NodeId := Nat

/-- How a node is called in a message. -/
def NodeId.describe (id : NodeId) : String :=
  s!"node {id}"

/-! ## §1 Operations -/

/-- What a node computes. Operands are earlier nodes. -/
inductive Operation (m : Modulus) where
  /-- A secret of party `owner`; only the owner needs its value. -/
  | input (owner : Nat) (value : Option (Element m))
  | add (x y : NodeId)
  | sub (x y : NodeId)
  | neg (x : NodeId)
  | addPublic (x : NodeId) (c : Element m)
  | subPublic (x : NodeId) (c : Element m)
  | mulPublic (x : NodeId) (c : Element m)
  | multiply (x y : NodeId)
  /-- The products of several pairs, computed in one exchange. -/
  | multiplyBatch (pairs : List (NodeId × NodeId))
  /-- The product at a position of a batch. -/
  | select (batch : NodeId) (index : Nat)
  /-- The value itself, made known to every party. -/
  | reveal (x : NodeId)
  /-- Verify everything opened so far, once the listed nodes have finished. -/
  | macCheck (after : List NodeId)
deriving DecidableEq

/-- Insert a number into an ascending list of distinct numbers. -/
def insertDistinct (n : Nat) : List Nat → List Nat
  | [] => [n]
  | k :: rest =>
    if n < k then n :: k :: rest
    else if n = k then k :: rest
    else k :: insertDistinct n rest

/-- The distinct members of a list, in ascending order. -/
def ascending (ns : List Nat) : List Nat :=
  ns.foldr insertDistinct []

@[simp] theorem mem_insertDistinct {n k : Nat} {ns : List Nat} :
    k ∈ insertDistinct n ns ↔ k = n ∨ k ∈ ns := by
  induction ns with
  | nil => simp [insertDistinct]
  | cons j rest ih =>
    simp only [insertDistinct]
    split
    · simp
    · split
      · rename_i h; subst h; simp
      · simp only [List.mem_cons, ih]
        grind

@[simp] theorem mem_ascending {k : Nat} {ns : List Nat} : k ∈ ascending ns ↔ k ∈ ns := by
  induction ns with
  | nil => simp [ascending]
  | cons n rest ih =>
    have h : ascending (n :: rest) = insertDistinct n (ascending rest) := rfl
    simp [h, ih]

namespace Operation

variable {m : Modulus}

/-- The operands of an operation, as written. -/
def operands : Operation m → List NodeId
  | .input _ _ => []
  | .add x y => [x, y]
  | .sub x y => [x, y]
  | .neg x => [x]
  | .addPublic x _ => [x]
  | .subPublic x _ => [x]
  | .mulPublic x _ => [x]
  | .multiply x y => [x, y]
  | .multiplyBatch pairs => pairs.flatMap fun p => [p.1, p.2]
  | .select batch _ => [batch]
  | .reveal x => [x]
  | .macCheck after => after

/-- The distinct nodes an operation waits for, in ascending order. -/
def dependencies (op : Operation m) : List NodeId :=
  ascending op.operands

theorem mem_dependencies {op : Operation m} {id : NodeId} :
    id ∈ op.dependencies ↔ id ∈ op.operands :=
  mem_ascending

/-- The first dependency that is not an earlier node than `id`. -/
def forwardOperand? (op : Operation m) (id : NodeId) : Option NodeId :=
  op.dependencies.find? (id ≤ ·)

/-- The owner of an input that is not one of the parties. -/
def unknownOwner? (op : Operation m) (parties : Nat) : Option Nat :=
  match op with
  | .input owner _ => if owner = 0 ∨ parties < owner then some owner else none
  | _ => none

end Operation

/-! ## §2 Circuits -/

/-- The operations of a circuit, in the order of their ids. -/
structure Circuit (m : Modulus) where
  nodes : List (Operation m) := []
deriving DecidableEq

namespace Circuit

variable {m : Modulus}

/-- Number of nodes. -/
def size (c : Circuit m) : Nat :=
  c.nodes.length

/-- The operation of a node. -/
def operation? (c : Circuit m) (id : NodeId) : Option (Operation m) :=
  c.nodes[id]?

/-- The nodes that wait for `id`, in ascending order. -/
def dependents (c : Circuit m) (id : NodeId) : List NodeId :=
  (c.nodes.zipIdx.filter fun (op, _) => id ∈ op.dependencies).map (·.2)

/-- What is wrong with one node. A forward operand is reported before an unknown owner. -/
def nodeError? (parties : Nat) (op : Operation m) (id : NodeId) : Option CircuitError :=
  match op.forwardOperand? id with
  | some operand => some (.forwardOperand id operand)
  | none => (op.unknownOwner? parties).map (.unknownOwner id · parties)

/-- Check that every operand precedes its user and that every input has an owner. -/
def validate (c : Circuit m) (parties : Nat) : Except CircuitError Unit :=
  match c.nodes.zipIdx.findSome? fun (op, id) => nodeError? parties op id with
  | some error => .error error
  | none => .ok ()

theorem validate_eq_ok_iff {c : Circuit m} {parties : Nat} :
    c.validate parties = .ok () ↔
      ∀ op id, (op, id) ∈ c.nodes.zipIdx →
        (∀ operand ∈ op.operands, operand < id) ∧ op.unknownOwner? parties = none := by
  have hnode (op : Operation m) (id : NodeId) :
      nodeError? parties op id = none ↔
        (∀ operand ∈ op.operands, operand < id) ∧ op.unknownOwner? parties = none := by
    unfold nodeError?
    cases hf : op.forwardOperand? id with
    | some operand =>
      have hmem := List.mem_of_find?_eq_some hf
      have hle : id ≤ operand := by simpa using List.find?_some hf
      simp only [reduceCtorEq, false_iff, not_and]
      intro h
      exact (Nat.not_lt.mpr hle (h operand (Operation.mem_dependencies.mp hmem))).elim
    | none =>
      have h : ∀ operand ∈ op.operands, operand < id := by
        intro operand ho
        have := List.find?_eq_none.mp hf operand (Operation.mem_dependencies.mpr ho)
        simpa using this
      simp only [Option.map_eq_none_iff]
      exact ⟨fun hn => ⟨h, hn⟩, fun hn => hn.2⟩
  unfold validate
  cases hs : c.nodes.zipIdx.findSome? fun (op, id) => nodeError? parties op id with
  | some error =>
    obtain ⟨⟨op, id⟩, hmem, he⟩ := List.exists_of_findSome?_eq_some hs
    simp only [reduceCtorEq, false_iff]
    intro h
    have := (hnode op id).mpr (h op id hmem)
    simp only [this, reduceCtorEq] at he
  | none =>
    simp only [true_iff]
    intro op id hmem
    have := List.findSome?_eq_none_iff.mp hs (op, id) hmem
    exact (hnode op id).mp this

end Circuit

/-! ## §3 Building a circuit -/

/-- A computation that appends nodes to a circuit. -/
abbrev Builder (m : Modulus) := StateM (Circuit m)

namespace Builder

variable {m : Modulus}

/-- Append an operation and name its node. -/
def push (op : Operation m) : Builder m NodeId := do
  let c ← get
  set ({ nodes := c.nodes ++ [op] } : Circuit m)
  return c.size

/-- Append several operations, in order. -/
def pushAll : List (Operation m) → Builder m (List NodeId)
  | [] => return []
  | op :: rest => do
    let id ← push op
    let ids ← pushAll rest
    return id :: ids

/-- Append a batch of products and a node for each product. -/
def mulBatch (pairs : List (NodeId × NodeId)) : Builder m (NodeId × List NodeId) := do
  let batch ← push (.multiplyBatch pairs)
  let products ← pushAll ((List.range pairs.length).map (.select batch ·))
  return (batch, products)

end Builder

end JointCircuit
