/-
JointCircuit.Proofs.Itinerary — the way of an evaluation is fixed in advance.

Which rounds are evaluated, in which order, between which exchanges and
with messages of which lengths depends on the shape of the circuit alone
(§1), and on whether there is joint randomness and anything to check at
the start. The itinerary is computed from these by a small machine that
knows neither values nor messages (§3). It is the same for all parties,
each of which reads from it what it sends itself (`Bag`, §2).

Main statements: `itinerary_shape`, and that longer itineraries extend
shorter ones, `itinerary_mono`. That evaluations follow it is proved in
JointCircuit.Proofs.Passage.
-/
import JointCircuit.Proofs.Punctual
import JointCircuit.Proofs.Postage

namespace JointCircuit

open JointCircuit.Action Round

variable {m : Modulus} {n : Nat} {π ρ α : Type}

/-! ## §1 Shapes -/

namespace Operation

/-- The operation without secrets and public constants. -/
def shape : Operation m → Operation m
  | .input owner _ => .input owner none
  | .addPublic x _ => .addPublic x 0
  | .subPublic x _ => .subPublic x 0
  | .mulPublic x _ => .mulPublic x 0
  | op => op

variable (op : Operation m)

@[simp] theorem dependencies_shape : op.shape.dependencies = op.dependencies := by
  cases op <;> rfl

@[simp] theorem isCheck_shape : op.shape.isCheck = op.isCheck := by
  cases op <;> rfl

@[simp] theorem openings_shape : op.shape.openings = op.openings := by
  cases op <;> rfl

@[simp] theorem last_shape (pending : Bool) : op.shape.last n pending = op.last n pending := by
  cases op <;> rfl

@[simp] theorem postage_shape (party round : Nat) :
    op.shape.postage n party round = op.postage n party round := by
  cases op <;> rfl

variable {op}

/-- Only a check depends on what there is to check, and one that goes on has found something. -/
theorem last_of_pos {pending : Bool} (h : 0 < op.last n pending) :
    op.last n pending = op.last n true := by
  cases op with
  | macCheck after =>
    cases pending with
    | true => rfl
    | false => cases h
  | _ => rfl

/-- Whether there is anything to check after a round of a node. -/
def leaves (op : Operation m) (round : Nat) (status : Status) (pending : Bool) : Bool :=
  if op.isCheck ∧ round = 0 then false else pending || (status = .done ∧ op.openings ≠ 0)

@[simp] theorem leaves_shape (round : Nat) (status : Status) (pending : Bool) :
    op.shape.leaves round status pending = op.leaves round status pending := by
  simp only [leaves, isCheck_shape, openings_shape]

end Operation

namespace Circuit

/-- The circuit without secrets and public constants. -/
def shape (c : Circuit m) : Circuit m :=
  ⟨c.nodes.map Operation.shape⟩

variable (c : Circuit m)

theorem operation?_shape (id : NodeId) :
    c.shape.operation? id = (c.operation? id).map Operation.shape :=
  List.getElem?_map

theorem dependents_shape (id : NodeId) : c.shape.dependents id = c.dependents id := by
  simp [dependents, shape, List.zipIdx_map, List.filter_map, Function.comp_def]

end Circuit

namespace Schedule

/-- The schedule without values, of the shape of its circuit. -/
def outline (s : Schedule m) : Schedule m :=
  { s with circuit := s.circuit.shape, values := [] }

theorem outline_new (c : Circuit m) :
    (Schedule.new c).outline = { Schedule.new c.shape with values := [] } := by
  have hmissing : c.shape.nodes.map (·.dependencies.length)
      = c.nodes.map (·.dependencies.length) := by
    simp [Circuit.shape, Function.comp_def]
  simp only [outline, new, hmissing]

theorem outline_release (s : Schedule m) (id : NodeId) :
    (s.release id).outline = s.outline.release id := by
  unfold release outline
  dsimp only
  split <;> rfl

/-- What becomes ready does not depend on values. -/
theorem outline_complete (s : Schedule m) (id : NodeId) (value : Value m) :
    (s.complete id value).outline = s.outline.complete id .checked := by
  have hfold (ids : List NodeId) (s s' : Schedule m) (h : s.outline = s') :
      (ids.foldl release s).outline = ids.foldl release s' := by
    induction ids generalizing s s' with
    | nil => exact h
    | cons k ids ih => exact ih _ _ (by rw [outline_release, h])
  have hids : s.outline.circuit.dependents id = s.circuit.dependents id :=
    s.circuit.dependents_shape id
  rw [complete, complete, hids]
  exact hfold _ _ _ rfl

end Schedule

/-! ## §2 Marks -/

/-- What can be seen of a computation: a round, with the node it computes if it computes one, or an
exchange. -/
inductive Sight where
  | round (node : Option NodeId) (number : Nat)
  | exchange
deriving DecidableEq

/-- A step on the way of all parties: a round, with the lengths of the messages that it queues at
each of them, or an exchange. -/
inductive Mark where
  | round (node : Option NodeId) (number : Nat) (post : Nat → List Nat)
  | exchange

/-- What can be seen of it. -/
def Mark.sight : Mark → Sight
  | .round node number _ => .round node number
  | .exchange => .exchange

/-- The messages of one party by their lengths. -/
structure Bag where
  /-- The party that the rounds are evaluated at. -/
  party : Nat
  /-- The party whose own frame stays. -/
  seat : Nat
  /-- What has been handed out in each exchange, by recipient. -/
  sent : List (List (List Nat)) := []
  /-- What is queued, by recipient. -/
  queue : List (List Nat)

namespace Bag

variable (bag : Bag)

/-- After one step. -/
def add : Mark → Bag
  | .round _ _ post => { bag with queue := bag.queue.map (· ++ post bag.party) }
  | .exchange =>
    { bag with
      sent := bag.sent ++ [bag.queue.set (bag.seat - 1) []]
      queue := bag.queue.map fun _ => [] }

/-- After several steps. -/
def addAll (marks : List Mark) : Bag :=
  marks.foldl add bag

theorem addAll_concat (marks : List Mark) (mark : Mark) :
    bag.addAll (marks ++ [mark]) = (bag.addAll marks).add mark :=
  List.foldl_append ..

theorem party_addAll (marks : List Mark) :
    (bag.addAll marks).party = bag.party ∧ (bag.addAll marks).seat = bag.seat := by
  induction marks using List.reverseRecOn with
  | nil => exact ⟨rfl, rfl⟩
  | append_singleton marks mark ih =>
    rw [addAll_concat]
    cases mark <;> exact ih

/-- There is a frame for each recipient in each exchange. -/
theorem length_sent (marks : List Mark) : (bag.addAll marks).sent.length
    = bag.sent.length + (marks.map Mark.sight).count .exchange := by
  induction marks using List.reverseRecOn with
  | nil => rfl
  | append_singleton marks mark ih =>
    rw [addAll_concat, List.map_append, List.count_append, ← Nat.add_assoc, ← ih]
    cases mark with
    | round node number post => rfl
    | exchange => exact List.length_append

/-- What has been handed out stays so. -/
theorem sent_mono {marks marks' : List Mark} (h : marks <+: marks') :
    (bag.addAll marks).sent <+: (bag.addAll marks').sent := by
  obtain ⟨more, rfl⟩ := h
  induction more using List.reverseRecOn with
  | nil =>
    rw [List.append_nil]
  | append_singleton more mark ih =>
    rw [← List.append_assoc, addAll_concat]
    cases mark with
    | round node number post => exact ih
    | exchange => exact ih.trans (List.prefix_append _ _)

end Bag

/-! ## §3 The machine -/

/-- A gate on the way: its node, and the round it is evaluated in next. -/
structure Waypoint.Slot where
  id : NodeId
  round : Nat
deriving DecidableEq

/-- A point of an evaluation as far as it is known in advance. -/
structure Waypoint (m : Modulus) where
  /-- The schedule without values. -/
  schedule : Schedule m
  /-- The gates that go on in the next round. -/
  still : List Waypoint.Slot := []
  /-- The gates that are yet to be evaluated in this round. -/
  todo : List Waypoint.Slot := []
  /-- Whether there is anything to check. -/
  pending : Bool
  /-- The nodes that have been completed. -/
  completed : Nat := 0
  marks : List Mark := []

namespace Waypoint

/-- Before any gate has started. -/
def start (c : Circuit m) (pending : Bool) : Waypoint m :=
  { schedule := (Schedule.new c).outline, pending }

/-- A gate is evaluated. -/
def evaluate (n : Nat) (σ : Waypoint m) (slot : Slot) (rest : List Slot) (op : Operation m) :
    Waypoint m :=
  let status := Status.before (op.last n (σ.pending || slot.round != 0)) slot.round
  let σ : Waypoint m :=
    { σ with
      todo := rest
      pending := op.leaves slot.round status σ.pending
      marks := σ.marks ++ [.round slot.id slot.round fun party =>
        status.letters (op.postage n party slot.round)] }
  match status with
  | .more => { σ with still := σ.still ++ [{ slot with round := slot.round + 1 }] }
  | .done =>
    { σ with
      schedule := σ.schedule.complete slot.id .checked
      completed := σ.completed + 1 }

/-- The next point: a gate is evaluated, a node is started or frames are exchanged. -/
def next (n : Nat) (σ : Waypoint m) : Waypoint m :=
  match σ.todo with
  | slot :: rest =>
    match σ.schedule.circuit.operation? slot.id with
    | some op => σ.evaluate n slot rest op
    | none => σ
  | [] =>
    match σ.schedule.ready with
    | id :: ids => { σ with schedule := { σ.schedule with ready := ids }, todo := [⟨id, 0⟩] }
    | [] =>
      match σ.still with
      | [] => σ
      | still => { σ with still := [], todo := still, marks := σ.marks ++ [.exchange] }

/-- After so many steps. -/
def after (n : Nat) (σ : Waypoint m) (k : Nat) : Waypoint m :=
  (next n)^[k] σ

/-- Nothing is left to do. -/
def Over (σ : Waypoint m) : Prop :=
  σ.todo = [] ∧ σ.schedule.ready = [] ∧ σ.still = []

instance (σ : Waypoint m) : Decidable σ.Over :=
  inferInstanceAs (Decidable (_ ∧ _ ∧ _))

variable {σ : Waypoint m}

theorem after_succ (n : Nat) (σ : Waypoint m) (k : Nat) :
    σ.after n (k + 1) = (σ.after n k).next n :=
  Function.iterate_succ_apply' ..

theorem after_add (n : Nat) (σ : Waypoint m) (j k : Nat) :
    σ.after n (j + k) = (σ.after n k).after n j :=
  Function.iterate_add_apply ..

theorem prefix_next (n : Nat) (σ : Waypoint m) : σ.marks <+: (σ.next n).marks := by
  unfold next
  split
  · split
    · unfold evaluate
      dsimp only
      split <;> exact List.prefix_append _ _
    · exact List.prefix_refl _
  · split
    · exact List.prefix_refl _
    · split
      · exact List.prefix_refl _
      · exact List.prefix_append _ _

theorem prefix_after {k k' : Nat} (h : k ≤ k') : (σ.after n k).marks <+: (σ.after n k').marks := by
  induction h with
  | refl => exact List.prefix_refl _
  | step _ ih =>
    rw [after_succ]
    exact ih.trans (prefix_next n _)

theorem Over.next (h : σ.Over) : σ.next n = σ := by
  obtain ⟨htodo, hready, hstill⟩ := h
  simp only [Waypoint.next, htodo, hready, hstill]

theorem Over.after {k k' : Nat} (h : (σ.after n k).Over) (hle : k ≤ k') :
    σ.after n k' = σ.after n k := by
  induction hle with
  | refl => rfl
  | step _ ih => rw [after_succ, ih, h.next]

/-- A way has one end. -/
theorem Over.eq {k k' : Nat} (h : (σ.after n k).Over) (h' : (σ.after n k').Over) :
    σ.after n k = σ.after n k' :=
  (Nat.le_total k k').elim (fun hle => (h.after hle).symm) fun hle => h'.after hle

end Waypoint

/-! ### All of an evaluation -/

namespace Mark

/-- A protocol by itself, up to a round. -/
def solo (post : Nat → List Nat) : Nat → List Mark
  | 0 => []
  | k + 1 => solo post k ++ [.round none k fun _ => post k, .exchange]

/-- A protocol by itself; in its last round it queues nothing. -/
def alone (post : Nat → List Nat) (last : Nat) : List Mark :=
  solo post last ++ [.round none last fun _ => []]

theorem solo_mono {post : Nat → List Nat} {k last : Nat} (h : k ≤ last) :
    solo post k <+: solo post last := by
  induction h with
  | refl => exact List.prefix_refl _
  | step _ ih => exact ih.trans (List.prefix_append _ _)

end Mark

section

variable (m n)

/-- The toss of an evaluation, if there is no joint randomness. -/
def tossMarks (joint : Bool) : List Mark :=
  if joint then []
  else Mark.alone (Commit.postage (exchanges n) CoinToss.seedLength) (2 * exchanges n)

/-- The check of an evaluation, if there is anything to check. -/
def checkMarks (pending : Bool) : List Mark :=
  if pending then Mark.alone (MacCheck.postage m (exchanges n)) (4 * exchanges n) else []

end

/-- The way of an evaluation among `n` parties up to `k` steps in the circuit, and to its end if
these are all. -/
def itinerary (n : Nat) (c : Circuit m) (joint pending : Bool) (k : Nat) : List Mark :=
  let σ := (Waypoint.start c pending).after n k
  tossMarks n joint ++ σ.marks ++ if σ.Over then checkMarks m n σ.pending else []

theorem itinerary_mono {c : Circuit m} {joint pending : Bool} {k k' : Nat} (h : k ≤ k') :
    itinerary n c joint pending k <+: itinerary n c joint pending k' := by
  unfold itinerary
  dsimp only
  split
  · rename_i hover
    rw [hover.after h, if_pos hover]
  · rw [List.append_nil, List.append_assoc]
    exact (List.prefix_append_right_inj _).mpr
      ((Waypoint.prefix_after h).trans (List.prefix_append _ _))

/-- Nothing comes after the end. -/
theorem itinerary_le_of_over {c : Circuit m} {joint pending : Bool} {k : Nat}
    (h : ((Waypoint.start c pending).after n k).Over) (k' : Nat) :
    itinerary n c joint pending k' <+: itinerary n c joint pending k := by
  rcases Nat.le_total k' k with hle | hle
  · exact itinerary_mono hle
  · rw [itinerary, itinerary, h.after hle]

/-- Circuits of one shape start alike. -/
theorem Waypoint.start_shape (c : Circuit m) (pending : Bool) :
    start c.shape pending = start c pending := by
  have hidem : c.shape.shape = c.shape := by
    have hop (op : Operation m) : op.shape.shape = op.shape := by cases op <;> rfl
    simp [Circuit.shape, Function.comp_def, hop]
  simp only [start, Schedule.outline_new, hidem]

/-- Circuits of one shape have one itinerary. -/
theorem itinerary_shape (c : Circuit m) (joint pending : Bool) :
    itinerary n c.shape joint pending = itinerary n c joint pending := by
  funext k
  rw [itinerary, itinerary, Waypoint.start_shape]

end JointCircuit
