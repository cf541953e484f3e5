/-
JointCircuit.Proofs.Scheduling — what a schedule keeps true.

A schedule counts missing dependencies and keeps the ready nodes apart
from the running ones, which it does not know itself: they are the gates
in flight. `Sound` says what its counters and its ready list are worth,
given the running nodes. Starting a ready node (`Sound.start`) and
completing a running one (`Sound.complete`) keep it true.

Main statement: `Sound.all_settled` — when nothing is ready and nothing
is running, every node has a value.
-/
import JointCircuit.Evaluator.Schedule
import Mathlib.Data.List.Basic
import Mathlib.Data.Finset.Card

namespace JointCircuit

variable {m : Modulus}

/-! ## §1 Ascending lists -/

theorem pairwise_insertDistinct (n : Nat) {ns : List Nat} (h : ns.Pairwise (· < ·)) :
    (insertDistinct n ns).Pairwise (· < ·) := by
  induction ns with
  | nil => exact List.pairwise_singleton _ _
  | cons k rest ih =>
    obtain ⟨hk, hrest⟩ := List.pairwise_cons.mp h
    simp only [insertDistinct]
    split
    · rename_i hlt
      refine List.pairwise_cons.mpr ⟨fun j hj => ?_, h⟩
      rcases List.mem_cons.mp hj with rfl | hj
      · exact hlt
      · exact Nat.lt_trans hlt (hk j hj)
    · split
      · exact h
      · refine List.pairwise_cons.mpr ⟨fun j hj => ?_, ih hrest⟩
        rcases mem_insertDistinct.mp hj with rfl | hj
        · omega
        · exact hk j hj

theorem pairwise_ascending (ns : List Nat) : (ascending ns).Pairwise (· < ·) := by
  induction ns with
  | nil => exact List.Pairwise.nil
  | cons n rest ih => exact pairwise_insertDistinct n ih

/-- Ascending lists with the same members are the same. -/
theorem eq_of_pairwise_of_mem_iff {xs ys : List Nat} (hx : xs.Pairwise (· < ·))
    (hy : ys.Pairwise (· < ·)) (h : ∀ k, k ∈ xs ↔ k ∈ ys) : xs = ys := by
  have hperm : xs.Perm ys :=
    (List.perm_ext_iff_of_nodup (hx.imp Nat.ne_of_lt) (hy.imp Nat.ne_of_lt)).mpr h
  exact hperm.eq_of_pairwise (fun a b _ _ hab hba => absurd hab (Nat.lt_asymm hba)) hx hy

/-- Distinct positions picked from a numbered list. -/
theorem pairwise_positions {α : Type} (xs : List α) (p : α × Nat → Bool) :
    ((xs.zipIdx.filter p).map (·.2)).Pairwise (· < ·) := by
  have hall : (xs.zipIdx.map (·.2)).Pairwise (· < ·) := by
    rw [List.zipIdx_map_snd]
    exact List.pairwise_lt_range'
  exact hall.sublist (List.filter_sublist.map _)

theorem mem_positions {α : Type} {xs : List α} {p : α × Nat → Bool} {id : Nat} :
    id ∈ (xs.zipIdx.filter p).map (·.2) ↔ ∃ x, xs[id]? = some x ∧ p (x, id) = true := by
  simp only [List.mem_map, List.mem_filter, Prod.exists, List.mem_zipIdx_iff_getElem?]
  constructor
  · rintro ⟨x, k, ⟨hx, hp⟩, rfl⟩
    exact ⟨x, hx, hp⟩
  · rintro ⟨x, hx, hp⟩
    exact ⟨x, id, ⟨hx, hp⟩, rfl⟩

/-- When one member of a list without repetitions stops counting, the count drops by one. -/
theorem countP_update {xs : List Nat} (hnodup : xs.Nodup) {id : Nat} (hmem : id ∈ xs)
    {p q : Nat → Bool} (hp : p id = true) (hq : q id = false) (h : ∀ k, k ≠ id → q k = p k) :
    xs.countP q = xs.countP p - 1 := by
  obtain ⟨before, after, rfl⟩ := List.append_of_mem hmem
  obtain ⟨-, hcons, hapart⟩ := List.nodup_append.mp hnodup
  have hbefore : before.countP q = before.countP p :=
    List.countP_congr fun k hk => by rw [h k (hapart k hk id List.mem_cons_self)]
  have hafter : after.countP q = after.countP p := by
    refine List.countP_congr fun k hk => ?_
    rw [h k fun heq => (List.nodup_cons.mp hcons).1 (heq ▸ hk)]
  simp only [List.countP_append, List.countP_cons, hp, hq, hbefore, hafter, if_true,
    Bool.false_eq_true, if_false]
  omega

namespace Operation

theorem nodup_dependencies (op : Operation m) : op.dependencies.Nodup :=
  (pairwise_ascending op.operands).imp Nat.ne_of_lt

end Operation

namespace Circuit

/-- The dependents of a node are the nodes that depend on it. -/
theorem mem_dependents {c : Circuit m} {id k : NodeId} :
    k ∈ c.dependents id ↔ ∃ op, c.operation? k = some op ∧ id ∈ op.dependencies := by
  rw [dependents, mem_positions]
  simp [operation?]

theorem nodup_dependents (c : Circuit m) (id : NodeId) : (c.dependents id).Nodup :=
  (pairwise_positions _ _).imp Nat.ne_of_lt

/-- In a valid circuit every operand comes first. -/
theorem operand_lt {c : Circuit m} {parties : Nat} (h : c.validate parties = .ok ())
    {id : NodeId} {op : Operation m} (hop : c.operation? id = some op) {y : NodeId}
    (hy : y ∈ op.operands) : y < id :=
  (validate_eq_ok_iff.mp h op id (List.mem_zipIdx_iff_getElem?.mpr hop)).1 y hy

/-- In a valid circuit every input has an owner. -/
theorem unknownOwner?_eq_none {c : Circuit m} {parties : Nat} (h : c.validate parties = .ok ())
    {id : NodeId} {op : Operation m} (hop : c.operation? id = some op) :
    op.unknownOwner? parties = none :=
  (validate_eq_ok_iff.mp h op id (List.mem_zipIdx_iff_getElem?.mpr hop)).2

end Circuit

/-! ## §2 Soundness of a schedule -/

namespace Schedule

variable {s : Schedule m} {running : List NodeId} {id : NodeId}

/-- The value of a node that has one. -/
def value? (s : Schedule m) (id : NodeId) : Option (Value m) :=
  s.values[id]?.join

/-- A node without a value all of whose operands have theirs. -/
def Open (s : Schedule m) (id : NodeId) : Prop :=
  ∃ op, s.circuit.operation? id = some op ∧ s.value? id = none
    ∧ ∀ y ∈ op.operands, s.value? y ≠ none

/-- Number of operands of an operation that have no value. -/
def unmet (s : Schedule m) (op : Operation m) : Nat :=
  op.dependencies.countP fun y => (s.value? y).isNone

/-- What is true of a schedule while these nodes are running. -/
structure Sound (s : Schedule m) (running : List NodeId) : Prop where
  length_values : s.values.length = s.circuit.size
  missing : ∀ id op, s.circuit.operation? id = some op → s.missing[id]? = some (s.unmet op)
  length_missing : s.missing.length = s.circuit.size
  settled : ∀ id op, s.circuit.operation? id = some op → s.value? id ≠ none →
    ∀ y ∈ op.operands, s.value? y ≠ none
  sorted : s.ready.Pairwise (· < ·)
  mem_ready : ∀ id, id ∈ s.ready ↔ id ∉ running ∧ s.Open id
  running_open : ∀ id ∈ running, s.Open id
  nodup : running.Nodup

theorem unmet_eq_zero {op : Operation m} :
    s.unmet op = 0 ↔ ∀ y ∈ op.operands, s.value? y ≠ none := by
  rw [unmet, List.countP_eq_zero]
  constructor
  · intro h y hy hnone
    exact h y (Operation.mem_dependencies.mpr hy) (by rw [hnone]; rfl)
  · intro h y hy hnone
    exact h y (Operation.mem_dependencies.mp hy) (Option.isNone_iff_eq_none.mp hnone)

theorem value?_new (c : Circuit m) (id : NodeId) : (new c).value? id = none := by
  simp only [value?, new, List.getElem?_replicate]
  split <;> rfl

/-- Before any node has started, exactly the nodes without operands are ready. -/
theorem sound_new (c : Circuit m) : (new c).Sound [] where
  length_values := List.length_replicate
  length_missing := List.length_map _
  missing id op hop := by
    have hop' : c.nodes[id]? = some op := hop
    have hall : (new c).unmet op = op.dependencies.length :=
      List.countP_eq_length.mpr fun y _ => by rw [value?_new]; rfl
    rw [hall]
    simp [new, hop']
  settled id op _ hvalue := absurd (value?_new c id) hvalue
  sorted := pairwise_positions _ _
  mem_ready id := by
    have hopen : (new c).Open id ↔ ∃ op, c.nodes[id]? = some op ∧ op.dependencies = [] := by
      constructor
      · rintro ⟨op, hop, -, hall⟩
        refine ⟨op, hop, List.eq_nil_iff_forall_not_mem.mpr fun y hy => ?_⟩
        exact hall y (Operation.mem_dependencies.mp hy) (value?_new c y)
      · rintro ⟨op, hop, hnil⟩
        refine ⟨op, hop, value?_new c id, fun y hy => ?_⟩
        rw [← Operation.mem_dependencies, hnil] at hy
        exact absurd hy List.not_mem_nil
    have hready : (new c).ready
        = ((c.nodes.map (·.dependencies.length)).zipIdx.filter (·.1 = 0)).map (·.2) := rfl
    rw [hopen, hready, mem_positions]
    simp
  running_open id hid := absurd hid List.not_mem_nil
  nodup := List.nodup_nil

namespace Sound

/-- The order in which the running nodes are listed does not matter. -/
theorem perm (h : s.Sound running) {running' : List NodeId} (hperm : running'.Perm running) :
    s.Sound running' :=
  { h with
    mem_ready := fun id => by rw [h.mem_ready, hperm.mem_iff]
    running_open := fun id hid => h.running_open id (hperm.mem_iff.mp hid)
    nodup := hperm.nodup_iff.mpr h.nodup }

/-- Starting the lowest ready node. -/
theorem start {rest : List NodeId} (h : s.Sound running) (hready : s.ready = id :: rest) :
    ({ s with ready := rest } : Schedule m).Sound (id :: running) := by
  have hsorted := h.sorted
  rw [hready, List.pairwise_cons] at hsorted
  have hid : id ∉ running ∧ s.Open id :=
    (h.mem_ready id).mp (by rw [hready]; exact List.mem_cons_self)
  exact
    { h with
      sorted := hsorted.2
      mem_ready := fun k => by
        have hk := h.mem_ready k
        rw [hready, List.mem_cons] at hk
        show k ∈ rest ↔ k ∉ id :: running ∧ s.Open k
        rw [List.mem_cons]
        constructor
        · intro hmem
          have hne : k ≠ id := Nat.ne_of_gt (hsorted.1 k hmem)
          have hk' := hk.mp (.inr hmem)
          exact ⟨fun hor => hor.elim hne hk'.1, hk'.2⟩
        · rintro ⟨hnot, hopen⟩
          rw [not_or] at hnot
          exact (hk.mpr ⟨hnot.2, hopen⟩).resolve_left hnot.1
      running_open := fun k hk => by
        rcases List.mem_cons.mp hk with rfl | hk
        · exact hid.2
        · exact h.running_open k hk
      nodup := List.nodup_cons.mpr ⟨hid.1, h.nodup⟩ }

end Sound

/-! ## §3 Completing a node -/

/-- What releasing some nodes does: their counters drop, and those that reach zero are ready. -/
structure Released (ids : List NodeId) (s s' : Schedule m) : Prop where
  circuit : s'.circuit = s.circuit
  values : s'.values = s.values
  missing : ∀ k, s'.missing[k]? = if k ∈ ids then (s.missing[k]?).map (· - 1) else s.missing[k]?
  length_missing : s'.missing.length = s.missing.length
  mem_ready : ∀ k, k ∈ s'.ready ↔ k ∈ s.ready ∨ k ∈ ids ∧ s'.missing[k]? = some 0
  sorted : s.ready.Pairwise (· < ·) → s'.ready.Pairwise (· < ·)

theorem released_release (s : Schedule m) (id : NodeId) : Released [id] s (s.release id) := by
  have hmissing : ∀ k, (s.missing.modify id (· - 1))[k]?
      = if k ∈ [id] then (s.missing[k]?).map (· - 1) else s.missing[k]? := by
    intro k
    rw [List.getElem?_modify]
    by_cases hk : id = k
    · simp [hk]
    · simp [hk, Ne.symm hk]
  unfold release
  by_cases hzero : (s.missing.modify id (· - 1))[id]? = some 0
  · simp only [hzero, if_true]
    refine ⟨rfl, rfl, hmissing, by simp, fun k => ?_, pairwise_insertDistinct id⟩
    show k ∈ insertDistinct id s.ready ↔ _
    rw [mem_insertDistinct]
    constructor
    · rintro (rfl | hk)
      · exact .inr ⟨List.mem_cons_self, hzero⟩
      · exact .inl hk
    · rintro (hk | ⟨hk, -⟩)
      · exact .inr hk
      · exact .inl (List.mem_singleton.mp hk)
  · simp only [hzero, if_false]
    refine ⟨rfl, rfl, hmissing, by simp, fun k => ⟨.inl, ?_⟩, fun h => h⟩
    rintro (hk | ⟨hk, hk'⟩)
    · exact hk
    · rw [List.mem_singleton.mp hk] at hk'
      exact absurd hk' hzero

/-- Distinct nodes may be released one by one. -/
theorem released_foldl {ids : List NodeId} (hnodup : ids.Nodup) (s : Schedule m) :
    Released ids s (ids.foldl release s) := by
  induction ids generalizing s with
  | nil => exact ⟨rfl, rfl, fun k => by simp, rfl, fun k => by simp, fun h => h⟩
  | cons id ids ih =>
    obtain ⟨hid, hids⟩ := List.nodup_cons.mp hnodup
    have hone := released_release s id
    have hrest := ih hids (s.release id)
    have hkeep : ∀ k, k ∉ ids →
        (ids.foldl release (s.release id)).missing[k]? = (s.release id).missing[k]? :=
      fun k hk => by rw [hrest.missing, if_neg hk]
    rw [List.foldl_cons]
    refine ⟨hrest.circuit.trans hone.circuit, hrest.values.trans hone.values, fun k => ?_,
      hrest.length_missing.trans hone.length_missing, fun k => ?_,
      fun h => hrest.sorted (hone.sorted h)⟩
    · rw [hrest.missing, hone.missing]
      by_cases hk : k = id
      · subst hk
        simp [hid]
      · simp [hk]
    · rw [hrest.mem_ready, hone.mem_ready, List.mem_singleton, List.mem_cons]
      constructor
      · rintro ((hk | ⟨rfl, hzero⟩) | ⟨hk, hzero⟩)
        · exact .inl hk
        · exact .inr ⟨.inl rfl, (hkeep k hid).trans hzero⟩
        · exact .inr ⟨.inr hk, hzero⟩
      · rintro (hk | ⟨rfl | hk, hzero⟩)
        · exact .inl (.inl hk)
        · exact .inl (.inr ⟨rfl, (hkeep k hid).symm.trans hzero⟩)
        · exact .inr ⟨hk, hzero⟩

theorem released_complete (s : Schedule m) (id : NodeId) (value : Value m) :
    Released (s.circuit.dependents id) { s with values := s.values.set id (some value) }
      (s.complete id value) :=
  released_foldl (s.circuit.nodup_dependents id) _

theorem circuit_complete (s : Schedule m) (id : NodeId) (value : Value m) :
    (s.complete id value).circuit = s.circuit :=
  (released_complete s id value).circuit

theorem values_complete (s : Schedule m) (id : NodeId) (value : Value m) :
    (s.complete id value).values = s.values.set id (some value) :=
  (released_complete s id value).values

/-- Completing a node gives it its value, and changes no other. -/
theorem value?_complete {value : Value m} (hid : id < s.values.length) (k : NodeId) :
    (s.complete id value).value? k = if k = id then some value else s.value? k := by
  rw [value?, values_complete]
  by_cases hk : k = id
  · subst hk
    rw [List.getElem?_set_self hid, if_pos rfl]
    rfl
  · rw [List.getElem?_set_ne (Ne.symm hk), if_neg hk]
    rfl

namespace Sound

theorem open_lt (h : s.Sound running) (hopen : s.Open id) : id < s.values.length := by
  obtain ⟨op, hop, -⟩ := hopen
  rw [h.length_values]
  exact (List.getElem?_eq_some_iff.mp hop).1

/-- The values after a running node is complete. -/
theorem value?_complete (h : s.Sound (id :: running)) (value : Value m) (k : NodeId) :
    (s.complete id value).value? k = if k = id then some value else s.value? k :=
  Schedule.value?_complete (h.open_lt (h.running_open id List.mem_cons_self)) k

theorem value?_complete_ne_none (h : s.Sound (id :: running)) (value : Value m) {y : NodeId}
    (hy : s.value? y ≠ none) : (s.complete id value).value? y ≠ none := by
  rw [h.value?_complete]
  split
  · simp
  · exact hy

/-- A node that depends on a running one has to wait for it. -/
theorem blocked (h : s.Sound (id :: running)) {k : NodeId} {op : Operation m}
    (hop : s.circuit.operation? k = some op) (hmem : id ∈ op.dependencies) :
    s.value? k = none ∧ ¬ s.Open k := by
  obtain ⟨-, -, hnone, -⟩ := h.running_open id List.mem_cons_self
  have hmem' := Operation.mem_dependencies.mp hmem
  constructor
  · by_contra hsome
    exact h.settled k op hop hsome id hmem' hnone
  · rintro ⟨op', hop', -, hall⟩
    obtain rfl := Option.some.inj (hop.symm.trans hop')
    exact hall id hmem' hnone

theorem unmet_complete (h : s.Sound (id :: running)) (value : Value m) (op : Operation m) :
    (s.complete id value).unmet op
      = if id ∈ op.dependencies then s.unmet op - 1 else s.unmet op := by
  obtain ⟨-, -, hnone, -⟩ := h.running_open id List.mem_cons_self
  by_cases hmem : id ∈ op.dependencies
  · rw [if_pos hmem]
    refine countP_update op.nodup_dependencies hmem ?_ ?_ fun k hk => ?_
    · rw [hnone]; rfl
    · rw [h.value?_complete, if_pos rfl]; rfl
    · rw [h.value?_complete, if_neg hk]
  · rw [if_neg hmem]
    refine List.countP_congr fun k hk => ?_
    have hne : k ≠ id := fun heq => hmem (heq ▸ hk)
    rw [h.value?_complete, if_neg hne]

/-- The counters are right again after a running node is complete. -/
theorem missing_complete (h : s.Sound (id :: running)) (value : Value m) {k : NodeId}
    {op : Operation m} (hop : s.circuit.operation? k = some op) :
    (s.complete id value).missing[k]? = some ((s.complete id value).unmet op) := by
  have hdependent : k ∈ s.circuit.dependents id ↔ id ∈ op.dependencies := by
    rw [Circuit.mem_dependents]
    exact ⟨fun ⟨op', hop', hmem⟩ => Option.some.inj (hop.symm.trans hop') ▸ hmem,
      fun hmem => ⟨op, hop, hmem⟩⟩
  rw [(released_complete s id value).missing, h.unmet_complete]
  by_cases hmem : id ∈ op.dependencies
  · rw [if_pos (hdependent.mpr hmem), if_pos hmem, h.missing k op hop]
    rfl
  · rw [if_neg fun hk => hmem (hdependent.mp hk), if_neg hmem]
    exact h.missing k op hop

/-- The nodes that may start after a running node is complete: those that could before, and the
dependents that miss nothing any more. -/
theorem open_complete (h : s.Sound (id :: running)) (value : Value m) (k : NodeId) :
    (s.complete id value).Open k ↔ k ≠ id ∧ (s.Open k ∨
      ∃ op, s.circuit.operation? k = some op ∧ id ∈ op.dependencies
        ∧ (s.complete id value).unmet op = 0) := by
  have hcircuit := circuit_complete s id value
  constructor
  · rintro ⟨op, hop, hk, hall⟩
    rw [hcircuit] at hop
    have hne : k ≠ id := by
      rintro rfl
      rw [h.value?_complete, if_pos rfl] at hk
      cases hk
    rw [h.value?_complete, if_neg hne] at hk
    refine ⟨hne, ?_⟩
    by_cases hmem : id ∈ op.dependencies
    · exact .inr ⟨op, hop, hmem, unmet_eq_zero.mpr hall⟩
    · refine .inl ⟨op, hop, hk, fun y hy => ?_⟩
      have hne' : y ≠ id := fun heq => hmem (heq ▸ Operation.mem_dependencies.mpr hy)
      have hy' := hall y hy
      rwa [h.value?_complete, if_neg hne'] at hy'
  · rintro ⟨hne, ⟨op, hop, hk, hall⟩ | ⟨op, hop, hmem, hzero⟩⟩
    · refine ⟨op, hcircuit ▸ hop, ?_, fun y hy => h.value?_complete_ne_none value (hall y hy)⟩
      rw [h.value?_complete, if_neg hne, hk]
    · refine ⟨op, hcircuit ▸ hop, ?_, unmet_eq_zero.mp hzero⟩
      rw [h.value?_complete, if_neg hne, (h.blocked hop hmem).1]

/-- Completing a running node: its dependents miss one operand less, and those that miss none
are ready. -/
theorem complete (h : s.Sound (id :: running)) (value : Value m) :
    (s.complete id value).Sound running := by
  have hopen := h.running_open id List.mem_cons_self
  have hreleased := released_complete s id value
  have hcircuit := hreleased.circuit
  obtain ⟨hnot, hnodup⟩ := List.nodup_cons.mp h.nodup
  refine ⟨?_, fun k op hop => h.missing_complete value (hcircuit ▸ hop), ?_, ?_,
    hreleased.sorted h.sorted, fun k => ?_, fun k hk => ?_, hnodup⟩
  · rw [values_complete, List.length_set, hcircuit]
    exact h.length_values
  · rw [hreleased.length_missing, hcircuit]
    exact h.length_missing
  · intro k op hop hk y hy
    rw [hcircuit] at hop
    by_cases hkid : k = id
    · subst hkid
      obtain ⟨own, hown, -, hall⟩ := hopen
      obtain rfl := Option.some.inj (hown.symm.trans hop)
      exact h.value?_complete_ne_none value (hall y hy)
    · rw [h.value?_complete, if_neg hkid] at hk
      exact h.value?_complete_ne_none value (h.settled k op hop hk y hy)
  · rw [hreleased.mem_ready, h.open_complete]
    show k ∈ s.ready ∨ _ ↔ _
    rw [h.mem_ready, List.mem_cons, Circuit.mem_dependents]
    constructor
    · rintro (⟨hk, hk'⟩ | ⟨⟨op, hop, hmem⟩, hzero⟩)
      · rw [not_or] at hk
        exact ⟨hk.2, hk.1, .inl hk'⟩
      · have hblocked := (h.blocked hop hmem).2
        rw [h.missing_complete value hop] at hzero
        refine ⟨fun hrun => hblocked (h.running_open k (List.mem_cons_of_mem _ hrun)), ?_,
          .inr ⟨op, hop, hmem, Option.some.inj hzero⟩⟩
        rintro rfl
        exact hblocked hopen
    · rintro ⟨hrun, hne, hk | ⟨op, hop, hmem, hzero⟩⟩
      · exact .inl ⟨fun hor => hor.elim hne hrun, hk⟩
      · exact .inr ⟨⟨op, hop, hmem⟩, by rw [h.missing_complete value hop, hzero]⟩
  · rw [h.open_complete]
    exact ⟨fun heq => hnot (heq ▸ hk), .inl (h.running_open k (List.mem_cons_of_mem _ hk))⟩

/-! ## §4 Progress -/

/-- When nothing is ready and nothing is running in a circuit in which operands come first, every
node has a value. -/
theorem all_settled (h : s.Sound []) (hready : s.ready = [])
    (hordered : ∀ id op, s.circuit.operation? id = some op → ∀ y ∈ op.operands, y < id) :
    ∀ id, id < s.circuit.size → s.value? id ≠ none := by
  intro id
  induction id using Nat.strong_induction_on with
  | _ id ih =>
    intro hlt hnone
    have hop : s.circuit.operation? id = some s.circuit.nodes[id] := List.getElem?_eq_getElem hlt
    have hopen : s.Open id := by
      refine ⟨_, hop, hnone, fun y hy => ?_⟩
      have hy' := hordered id _ hop y hy
      exact ih y hy' (Nat.lt_trans hy' hlt)
    have hmem := (h.mem_ready id).mpr ⟨List.not_mem_nil, hopen⟩
    rw [hready] at hmem
    exact List.not_mem_nil hmem

/-- The running nodes and the values determine which nodes are ready. -/
theorem ready_eq {s' : Schedule m} (h : s.Sound running) (h' : s'.Sound running)
    (hopen : ∀ id, s.Open id ↔ s'.Open id) : s.ready = s'.ready :=
  eq_of_pairwise_of_mem_iff h.sorted h'.sorted fun k => by
    rw [h.mem_ready, h'.mem_ready, hopen]

end Sound

/-- The nodes that have not started. -/
def waiting (s : Schedule m) (running : List NodeId) : Finset NodeId :=
  (Finset.range s.circuit.size).filter fun id => s.value? id = none ∧ id ∉ running

theorem waiting_new (c : Circuit m) : (new c).waiting [] = Finset.range c.size := by
  refine Finset.filter_true_of_mem fun id _ => ?_
  exact ⟨value?_new c id, List.not_mem_nil⟩

theorem waiting_perm {running' : List NodeId} (hperm : running'.Perm running) :
    s.waiting running' = s.waiting running := by
  simp only [waiting, hperm.mem_iff]

/-- A node that starts is not waiting any more. -/
theorem waiting_start (rest : List NodeId) :
    ({ s with ready := rest } : Schedule m).waiting (id :: running)
      = (s.waiting running).erase id := by
  ext k
  simp only [waiting, Finset.mem_filter, Finset.mem_erase, List.mem_cons, not_or]
  show _ ∧ s.value? k = none ∧ _ ↔ _
  tauto

theorem Sound.mem_waiting (h : s.Sound running) (hid : id ∈ s.ready) : id ∈ s.waiting running := by
  obtain ⟨hnot, hopen⟩ := (h.mem_ready id).mp hid
  have hlt := h.open_lt hopen
  obtain ⟨op, hop, hnone, -⟩ := hopen
  rw [h.length_values] at hlt
  exact Finset.mem_filter.mpr ⟨Finset.mem_range.mpr hlt, hnone, hnot⟩

/-- Completing a running node does not change which nodes are waiting. -/
theorem Sound.waiting_complete (h : s.Sound (id :: running)) (value : Value m) :
    (s.complete id value).waiting running = s.waiting (id :: running) := by
  ext k
  simp only [waiting, Finset.mem_filter, h.value?_complete, circuit_complete, List.mem_cons,
    not_or]
  by_cases hk : k = id
  · simp [hk]
  · simp [hk]

/-- A numbered list is read in full if every entry of it can be read. -/
theorem mapM_zipIdx_some {α ε : Type} {f : Option α × Nat → Except ε α}
    (hf : ∀ a k, f (some a, k) = .ok a) (as : List α) (k : Nat) :
    ((as.map some).zipIdx k).mapM f = .ok as := by
  induction as generalizing k with
  | nil => rfl
  | cons a as ih =>
    rw [List.map_cons, List.zipIdx_cons, List.mapM_cons, hf, ih]
    rfl

/-- All nodes have values: these are the outputs. -/
theorem outputs_eq_ok {values : List (Value m)} (h : s.values = values.map some) :
    s.outputs = .ok values := by
  rw [outputs, h]
  exact mapM_zipIdx_some (fun _ _ => rfl) values 0

end Schedule

end JointCircuit
