/-
JointCircuit.Proofs.CriticalPath — how long a circuit takes.

Nodes that do not wait for each other share their exchanges. A node
starts when the last of its operands has finished and finishes after as
many exchanges as its operation takes, so a circuit takes as many as its
longest chain of nodes. Only how long a check takes is not known from
the circuit: there may be nothing to check when it starts.

Main statements: `finishTime_eq`, `criticalPath_le_iff`, and the bounds
`criticalPath_mono`, `criticalPath_le_budget`.
-/
import JointCircuit.Proofs.Clock
import JointCircuit.Proofs.Watched

namespace JointCircuit

variable {m : Modulus} {n : Nat}

theorem foldr_max_le_iff {xs : List Nat} {k : Nat} : xs.foldr max 0 ≤ k ↔ ∀ x ∈ xs, x ≤ k := by
  induction xs with
  | nil => simp
  | cons x xs ih => simp [ih]

theorem exchanges_le_two (n : Nat) : exchanges n ≤ 2 := by
  rw [exchanges_eq]
  split <;> omega

namespace Operation

/-- A check takes the longest when there is something to check. -/
theorem last_mono (op : Operation m) {pending pending' : Bool} (h : pending → pending') :
    op.last n pending ≤ op.last n pending' := by
  cases op with
  | macCheck after =>
    cases pending with
    | false => exact Nat.zero_le _
    | true => rw [h rfl]
  | _ => exact Nat.le_refl _

theorem last_le (op : Operation m) (pending : Bool) : op.last n pending ≤ lastRound := by
  have hexchanges := exchanges_le_two n
  unfold lastRound
  cases op with
  | input owner value => exact hexchanges.trans (by omega)
  | macCheck after =>
    simp only [last]
    split <;> omega
  | _ =>
    simp only [last]
    split <;> omega

end Operation

/-- The latest of the times of these nodes. -/
def latestOf (times : List Nat) (ids : List NodeId) : Nat :=
  (ids.map (times.getD · 0)).foldr max 0

theorem latestOf_le_iff {times : List Nat} {ids : List NodeId} {k : Nat} :
    latestOf times ids ≤ k ↔ ∀ y ∈ ids, times.getD y 0 ≤ k := by
  rw [latestOf, foldr_max_le_iff, List.forall_mem_map]

theorem latestOf_append {times more : List Nat} {ids : List NodeId}
    (h : ∀ y ∈ ids, y < times.length) : latestOf (times ++ more) ids = latestOf times ids := by
  unfold latestOf
  congr 1
  refine List.map_congr_left fun y hy => ?_
  simp only [List.getD_eq_getElem?_getD, List.getElem?_append_left (h y hy)]

/-- When the nodes of a circuit finish, in exchanges; `pending` says which checks find something
to check. -/
def finishTimes (n : Nat) (pending : NodeId → Bool) (nodes : List (Operation m)) : List Nat :=
  nodes.foldl (fun times op =>
    times ++ [latestOf times op.operands + op.last n (pending times.length)]) []

section

variable (n) (pending : NodeId → Bool)

theorem finishTimes_concat (nodes : List (Operation m)) (op : Operation m) :
    finishTimes n pending (nodes ++ [op]) = finishTimes n pending nodes
      ++ [latestOf (finishTimes n pending nodes) op.operands
        + op.last n (pending (finishTimes n pending nodes).length)] := by
  rw [finishTimes, List.foldl_append]
  rfl

@[simp] theorem length_finishTimes (nodes : List (Operation m)) :
    (finishTimes n pending nodes).length = nodes.length := by
  induction nodes using List.reverseRecOn with
  | nil => rfl
  | append_singleton nodes op ih => simp [finishTimes_concat, ih]

/-- A node finishes its own time after the last of its operands. -/
theorem getElem?_finishTimes {nodes : List (Operation m)} {id : NodeId} {op : Operation m}
    (hop : nodes[id]? = some op) (hlt : ∀ y ∈ op.operands, y < id) :
    (finishTimes n pending nodes)[id]?
      = some (latestOf (finishTimes n pending nodes) op.operands + op.last n (pending id)) := by
  have hid := (List.getElem?_eq_some_iff.mp hop).1
  have hbefore : ∀ y ∈ op.operands, y < (finishTimes n pending nodes).length := fun y hy => by
    rw [length_finishTimes]
    exact (hlt y hy).trans hid
  induction nodes using List.reverseRecOn with
  | nil => cases hid
  | append_singleton nodes last ih =>
    rw [finishTimes_concat]
    by_cases hinner : id < nodes.length
    · have hop' : nodes[id]? = some op := by rwa [List.getElem?_append_left hinner] at hop
      have hbefore' : ∀ y ∈ op.operands, y < (finishTimes n pending nodes).length := fun y hy => by
        rw [length_finishTimes]
        exact (hlt y hy).trans hinner
      rw [List.getElem?_append_left (by rwa [length_finishTimes]), ih hop' hinner hbefore',
        latestOf_append hbefore']
    · have hlast : id = nodes.length := by
        rw [List.length_append, List.length_singleton] at hid
        exact Nat.le_antisymm (Nat.lt_succ_iff.mp hid) (Nat.le_of_not_lt hinner)
      subst hlast
      have hbefore' : ∀ y ∈ op.operands, y < (finishTimes n pending nodes).length := fun y hy => by
        rw [length_finishTimes]
        exact hlt y hy
      obtain rfl : last = op := by simpa using hop
      rw [latestOf_append hbefore']
      simp

end

namespace Circuit

variable {c : Circuit m} {pending : NodeId → Bool} {id : NodeId} {op : Operation m} {k : Nat}

/-- When a node finishes. -/
def finishTime (c : Circuit m) (n : Nat) (pending : NodeId → Bool) (id : NodeId) : Nat :=
  (finishTimes n pending c.nodes).getD id 0

/-- When the last operand of a node finishes. -/
def startTime (c : Circuit m) (n : Nat) (pending : NodeId → Bool) (id : NodeId) : Nat :=
  match c.operation? id with
  | none => 0
  | some op => latestOf (finishTimes n pending c.nodes) op.operands

/-- When the last node finishes. -/
def criticalPath (c : Circuit m) (n : Nat) (pending : NodeId → Bool) : Nat :=
  (finishTimes n pending c.nodes).foldr max 0

theorem startTime_le_iff (hop : c.operation? id = some op) :
    c.startTime n pending id ≤ k ↔ ∀ y ∈ op.operands, c.finishTime n pending y ≤ k := by
  rw [startTime, hop]
  exact latestOf_le_iff

/-- A node does not start before its operands have finished. -/
theorem finishTime_le_startTime (hop : c.operation? id = some op) {y : NodeId}
    (hy : y ∈ op.operands) : c.finishTime n pending y ≤ c.startTime n pending id :=
  (startTime_le_iff hop).mp (Nat.le_refl _) y hy

/-- A node finishes when it has taken its own time. -/
theorem finishTime_eq (ordered : c.Ordered) (hop : c.operation? id = some op) :
    c.finishTime n pending id = c.startTime n pending id + op.last n (pending id) := by
  rw [finishTime, List.getD_eq_getElem?_getD,
    getElem?_finishTimes n pending hop (ordered id op hop), startTime, hop]
  rfl

theorem criticalPath_le_iff :
    c.criticalPath n pending ≤ k ↔ ∀ id < c.size, c.finishTime n pending id ≤ k := by
  rw [criticalPath, foldr_max_le_iff]
  constructor
  · intro h id hid
    have hlt : id < (finishTimes n pending c.nodes).length := by rwa [length_finishTimes]
    rw [finishTime, List.getD_eq_getElem?_getD, List.getElem?_eq_getElem hlt]
    exact h _ (List.getElem_mem hlt)
  · intro h x hx
    obtain ⟨id, hid, rfl⟩ := List.mem_iff_getElem.mp hx
    have hfinish := h id (by rwa [length_finishTimes] at hid)
    rwa [finishTime, List.getD_eq_getElem?_getD, List.getElem?_eq_getElem hid] at hfinish

theorem finishTime_le_criticalPath (hid : id < c.size) :
    c.finishTime n pending id ≤ c.criticalPath n pending :=
  criticalPath_le_iff.mp (Nat.le_refl _) id hid

theorem exists_operation (hid : id < c.size) : ∃ op, c.operation? id = some op :=
  ⟨_, List.getElem?_eq_getElem hid⟩

/-- The more checks find something to check, the longer a circuit takes. -/
theorem criticalPath_mono (ordered : c.Ordered) {pending' : NodeId → Bool}
    (h : ∀ id, pending id → pending' id) :
    c.criticalPath n pending ≤ c.criticalPath n pending' := by
  have hfinish : ∀ id < c.size, c.finishTime n pending id ≤ c.finishTime n pending' id := by
    intro id
    induction id using Nat.strong_induction_on with
    | _ id ih =>
      intro hid
      obtain ⟨op, hop⟩ := exists_operation hid
      rw [finishTime_eq ordered hop, finishTime_eq ordered hop]
      refine Nat.add_le_add ((startTime_le_iff hop).mpr fun y hy => ?_) (op.last_mono (h id))
      have hy' := ordered id op hop y hy
      exact (ih y hy' (hy'.trans hid)).trans (finishTime_le_startTime hop hy)
  exact criticalPath_le_iff.mpr fun id hid =>
    (hfinish id hid).trans (finishTime_le_criticalPath hid)

/-- No circuit takes longer than its nodes one after another. -/
theorem criticalPath_le_budget (ordered : c.Ordered) :
    c.criticalPath n pending ≤ lastRound * c.size := by
  have hfinish : ∀ id < c.size, c.finishTime n pending id ≤ lastRound * (id + 1) := by
    intro id
    induction id using Nat.strong_induction_on with
    | _ id ih =>
      intro hid
      obtain ⟨op, hop⟩ := exists_operation hid
      rw [finishTime_eq ordered hop, Nat.mul_succ]
      refine Nat.add_le_add ((startTime_le_iff hop).mpr fun y hy => ?_) (op.last_le _)
      have hy' := ordered id op hop y hy
      exact (ih y hy' (hy'.trans hid)).trans (Nat.mul_le_mul_left _ hy')
  exact criticalPath_le_iff.mpr fun id hid =>
    (hfinish id hid).trans (Nat.mul_le_mul_left _ hid)

end Circuit

end JointCircuit
