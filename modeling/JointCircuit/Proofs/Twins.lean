/-
JointCircuit.Proofs.Twins — two joint evaluations side by side.

Two evaluations of a circuit differ in the inputs of one party and in the
material of that party, which makes up for the difference. A `Scene` is
one of them between two phases of a round. Its evaluators have enough
material; what the parties really have may end earlier, and replaces it
in `Scene.actual`, which a step does not notice unless it draws.

`Twins` (§2) relates the two scenes: everybody else is in the same state
in both, and the gates of the one party are alike. Every phase of a round
keeps it (§3 to §5), unless the material runs out, which happens at all
parties and in both evaluations at the same node.

Main statement: `Twins.runGates` — the parties exchange the same frames
in both evaluations, up to the last value or to the failure.
-/
import JointCircuit.Proofs.Flights
import JointCircuit.Proofs.Gaps
import JointCircuit.Proofs.Timetable

namespace JointCircuit

open scoped Fin.CommRing

variable {m : Modulus} {n : Nat}

/-! ## §1 Two settings -/

namespace Circuit

/-- The same circuit, but for inputs of the party. -/
def Reassigns (party : Nat) (c c' : Circuit m) : Prop :=
  List.Forall₂ (Operation.Reassigns party) c.nodes c'.nodes

theorem Reassigns.exists_operation {party : Nat} {c c' : Circuit m} (h : c.Reassigns party c')
    {id : NodeId} {op : Operation m} (hop : c.operation? id = some op) :
    ∃ op', c'.operation? id = some op' ∧ Operation.Reassigns party op op' := by
  obtain ⟨hlt, rfl⟩ := List.getElem?_eq_some_iff.mp hop
  have hlt' : id < c'.nodes.length := h.length_eq ▸ hlt
  exact ⟨c'.nodes[id], List.getElem?_eq_getElem hlt', h.get hlt hlt'⟩

theorem Reassigns.size_eq {party : Nat} {c c' : Circuit m} (h : c.Reassigns party c') :
    c'.size = c.size :=
  h.length_eq.symm

variable (gap : NodeId → Element m)

/-- How far the factors of the triples of some nodes have to be moved, in order. -/
def tripleGaps (c : Circuit m) (ids : List NodeId) : List (Element m × Element m) :=
  ids.flatMap fun id => ((c.operation? id).map (Operation.tripleGaps gap)).getD []

/-- How far the party's own masks for some nodes have to be moved, in order. -/
def maskGaps (party : Nat) (c : Circuit m) (ids : List NodeId) : List (Element m) :=
  ids.flatMap fun id => ((c.operation? id).map (Operation.maskGaps gap party id)).getD []

variable {gap} {c : Circuit m} {id : NodeId} {op : Operation m} (hop : c.operation? id = some op)

include hop

theorem tripleGaps_cons (ids : List NodeId) :
    c.tripleGaps gap (id :: ids) = op.tripleGaps gap ++ c.tripleGaps gap ids := by
  rw [tripleGaps, List.flatMap_cons, hop]
  rfl

theorem maskGaps_cons (party : Nat) (ids : List NodeId) :
    c.maskGaps gap party (id :: ids) = op.maskGaps gap party id ++ c.maskGaps gap party ids := by
  rw [maskGaps, List.flatMap_cons, hop]
  rfl

end Circuit

namespace Agreed

variable {key : Fin n → Element m} {c : Circuit m} {plains : List (PlainValue m)}
  {values : List (Option (Fin n → Value m))} {s : Fin n → Schedule m} {running rest : List NodeId}
  {id : NodeId} {op : Operation m} {i : Fin n} {gate : Gate m}

/-- The gate of a party for a node is built from its version of the operation. -/
theorem gate_eq_ok (h : Agreed key c plains values s running) (hop : c.operation? id = some op)
    (hgate : Schedule.gate { s i with ready := rest } id = .ok gate) :
    ∃ v, Operation.Shows (i + 1) op v ∧ Gate.instantiate (valuesAt i values) v = .ok gate := by
  obtain ⟨ops, hops, hshows⟩ := h.exists_operation hop
  simp only [Schedule.gate, hops i, h.values_eq i] at hgate
  exact ⟨ops i, hshows i, hgate⟩

/-- It draws what the operation draws. -/
theorem draw_eq (h : Agreed key c plains values s running) (hop : c.operation? id = some op)
    (hgate : Schedule.gate { s i with ready := rest } id = .ok gate) : gate.draw = op.draw := by
  obtain ⟨v, hshows, hbuilt⟩ := h.gate_eq_ok hop hgate
  exact (Gate.draw_of_instantiate hbuilt).trans hshows.draw_eq

end Agreed

namespace Setting

/-- The same evaluation with other inputs of `p`; whatever is opened stays the same. -/
structure Twin (p : Fin n) (σ σ' : Setting m n) : Prop where
  key : σ'.key = σ.key
  circuit : σ.circuit.Reassigns (p + 1) σ'.circuit
  opened : ∀ id x, σ.circuit.operation? id = some (.reveal x) → gap σ.plains σ'.plains x = 0

variable {σ : Setting m n} {waiting : Finset NodeId} {due past : List (Flight m n)}
  {s : Fin n → Schedule m} {e : Fin n → Evaluator m}

theorem Midway.at (h : σ.Midway waiting due past s e) (i : Fin n) :
    (e i).participant.pool.party = i + 1 ∧ (e i).participant.pool.parties = n := by
  obtain ⟨pools, provided, seats⟩ := h.seats
  obtain ⟨openings, table, -⟩ := provided.table
  rw [(seats i).pool_eq]
  exact ⟨table.party i, table.parties i⟩

/-- An exchange leaves the pools alone. -/
theorem Midway.pool_of_flush [NeZero n] (h : σ.Midway waiting [] past s e)
    {sent : List (Fin n → List Frame)} {e' : Fin n → Evaluator m}
    (hflush : Joint (fun i => Evaluator.flush (e i)) sent fun i => (.ok (), e' i)) (i : Fin n) :
    (e' i).participant.pool = (e i).participant.pool := by
  obtain ⟨pools, -, seats⟩ := h.seats
  obtain ⟨e₁, hjoint, hseat⟩ := Evaluator.joint_flush seats
  obtain ⟨-, hresults⟩ := hflush.unique hjoint
  have he : e₁ i = e' i := congrArg Prod.snd (congrFun hresults i)
  rw [← he, (hseat i).pool_eq, (seats i).pool_eq]

/-- A party that advances its gates follows its timetable. -/
theorem Midway.follows (h : σ.Midway waiting due past s e) {j : Fin n} {t : Timetable m}
    {slots : List Slot} {s' : Schedule m} {e' : Evaluator m}
    {still : List (Evaluator.InFlight m)} (hfollows : t.Follows (s j) (e j))
    (hof : List.Forall₂ (Slot.Of n) slots (due.map (·.at j)))
    (hall : Evaluator.advanceAll (s j) (due.map (·.at j)) (e j) = .finished (.ok (s', still), e')) :
    (t.advanceAll slots).1.Follows s' e'
      ∧ List.Forall₂ (Slot.Of n) (t.advanceAll slots).2 still := by
  induction due generalizing past s e t slots still with
  | nil =>
    obtain rfl := List.forall₂_nil_right_iff.mp hof
    cases hall
    exact ⟨hfollows, .nil⟩
  | cons f due ih =>
    obtain ⟨slot, slots, hslot, hslots, rfl⟩ := List.forall₂_cons_right_iff.mp hof
    obtain ⟨first, s₁, e₁, hadvance, h₁, -⟩ := h.advance
    obtain ⟨s₂, first', e₂, others, hone, hrest, rfl⟩ := Evaluator.advanceAll_cons_eq_ok hall
    obtain ⟨rfl, rfl, rfl⟩ := Evaluator.finished_unique (hadvance j) hone
    obtain ⟨hfollows₁, hfirst⟩ := hfollows.advance hslot (h.at j).2 hone
    obtain ⟨hfollows₂, hothers⟩ := ih h₁ hfollows₁ hslots hrest
    exact ⟨hfollows₂, List.rel_append hfirst hothers⟩

end Setting

/-! ## §2 Scenes -/

/-- A joint evaluation between two phases of a round. -/
structure Scene (m : Modulus) (n : Nat) where
  flights : List (Flight m n)
  schedules : Fin n → Schedule m
  /-- The evaluators with material for all nodes. -/
  evaluators : Fin n → Evaluator m
  /-- What the parties really have. -/
  suppliers : Fin n → Supplier m

namespace Scene

/-- A party with what it really has. -/
def actual (x : Scene m n) (i : Fin n) : Evaluator m := (x.evaluators i).supplied (x.suppliers i)

/-- The messages of the gates in flight have arrived. -/
def Due (σ : Setting m n) (x : Scene m n) : Prop :=
  ∃ waiting, σ.Midway waiting x.flights [] x.schedules x.evaluators

/-- The messages of the gates in flight are queued. -/
def Over (σ : Setting m n) (x : Scene m n) : Prop :=
  ∃ waiting, σ.Midway waiting [] x.flights x.schedules x.evaluators

/-- A step of every party: with all the material, and with what the party really has. -/
def Steps (step : Fin n → Eval m (Schedule m × List (Evaluator.InFlight m))) (x y : Scene m n)
    (flights : List (Flight m n)) : Prop :=
  (∀ i, step i (x.evaluators i)
      = .finished (.ok (y.schedules i, flights.map (·.at i)), y.evaluators i))
    ∧ ∀ i, step i (x.actual i) = .finished (.ok (y.schedules i, flights.map (·.at i)), y.actual i)

/-- A step that fails at every party with what it really has, before anything is sent. -/
def Fails {α : Type} (step : Fin n → Eval m α) (x : Scene m n) : Prop :=
  ∀ i, ∃ fault e, step i (x.actual i) = .finished (.error fault, e)

/-- The parties fail after these exchanges. -/
def FailsAfter {α : Type} (run : Fin n → Eval m α) (x : Scene m n)
    (sent : List (Fin n → List Frame)) : Prop :=
  ∃ (fault : Fin n → Fault) (e : Fin n → Evaluator m),
    Joint (fun i => run i (x.actual i)) sent fun i => (.error (fault i), e i)

/-- Every node has its value. -/
def Complete (σ : Setting m n) (x : Scene m n) : Prop :=
  (∃ waiting, σ.Midway waiting [] [] x.schedules x.evaluators) ∧ ∀ i, (x.schedules i).ready = []

theorem Fails.failsAfter {α : Type} {step : Fin n → Eval m α} {x : Scene m n} (h : x.Fails step) :
    x.FailsAfter step [] := by
  choose fault e he using h
  exact ⟨fault, e, .of_finished he⟩

theorem Over.size_eq {σ : Setting m n} {x : Scene m n} (h : x.Over σ) (i : Fin n) :
    (x.schedules i).circuit.size = σ.circuit.size := by
  obtain ⟨waiting, midway⟩ := h
  exact midway.size_eq i

theorem Over.ready_eq {σ : Setting m n} {x : Scene m n} (h : x.Over σ) (i j : Fin n) :
    (x.schedules i).ready = (x.schedules j).ready := by
  obtain ⟨waiting, midway⟩ := h
  exact midway.ready_eq i j

/-- When no node is left to start and nothing is in flight, every node has its value. -/
theorem Over.complete [NeZero n] {σ : Setting m n} {x y : Scene m n} {budget : Nat}
    {started : List (Flight m n)} (h : x.Over σ)
    (hstart : x.Steps (fun i => Evaluator.startReady budget (x.schedules i)) y started)
    (hover : y.Over σ) (hnil : y.flights = []) (hbudget : σ.circuit.size ≤ budget) :
    y.Complete σ := by
  obtain ⟨waiting, midway⟩ := h
  obtain ⟨waiting', midway'⟩ := hover
  obtain ⟨_, _, s, e, hsame, -, hready, -⟩ :=
    midway.startReady (midway.card_waiting_le.trans hbudget)
  rw [hnil] at midway'
  refine ⟨⟨waiting', midway'⟩, fun i => ?_⟩
  rw [(Evaluator.finished_unique (hsame i) (hstart.1 i)).1]
  exact hready i

/-! ### The phases of a round in a scene -/

section

variable {x y z : Scene m n} {id : NodeId} {rest : List NodeId} {gates : Fin n → Gate m}
  {still started : List (Flight m n)} {budget size : Nat}

section

variable (hready : ∀ i, (x.schedules i).ready = id :: rest)
  (hgates : ∀ i, Schedule.gate { x.schedules i with ready := rest } id = .ok (gates i))

include hready hgates

theorem Steps.startReady_cons
    (h : x.Steps
      (fun i => Evaluator.advance { x.schedules i with ready := rest } ⟨id, gates i, 0⟩) y still)
    (hrest : y.Steps (fun i => Evaluator.startReady budget (y.schedules i)) z started) :
    x.Steps (fun i => Evaluator.startReady (budget + 1) (x.schedules i)) z (still ++ started) :=
  ⟨Flight.startReady_cons hready hgates h.1 hrest.1,
    Flight.startReady_cons hready hgates h.2 hrest.2⟩

/-- The lowest ready node is not started. -/
theorem Fails.startReady
    (h : x.Fails fun i =>
      Evaluator.advance { x.schedules i with ready := rest } ⟨id, gates i, 0⟩) :
    x.Fails fun i => Evaluator.startReady (budget + 1) (x.schedules i) := by
  intro i
  obtain ⟨fault, e, herror⟩ := h i
  exact ⟨fault, e, Evaluator.startReady_error (hready i) (hgates i) herror⟩

/-- A node that becomes ready later is not started. -/
theorem Fails.startReady_later
    (h : x.Steps
      (fun i => Evaluator.advance { x.schedules i with ready := rest } ⟨id, gates i, 0⟩) y still)
    (hrest : y.Fails fun i => Evaluator.startReady budget (y.schedules i)) :
    x.Fails fun i => Evaluator.startReady (budget + 1) (x.schedules i) := by
  intro i
  obtain ⟨fault, e, herror⟩ := hrest i
  exact ⟨fault, e, Evaluator.startReady_cons_error (hready i) (hgates i) (h.2 i) herror⟩

end

variable
  (hall : x.Steps (fun i => Evaluator.advanceAll (x.schedules i) (x.flights.map (·.at i))) y
    y.flights) (hsize : ∀ i, (y.schedules i).circuit.size = size)

include hall hsize

/-- The nodes of a round are not all started. -/
theorem Fails.runGates (h : y.Fails fun i => Evaluator.startReady size (y.schedules i)) :
    x.Fails fun i =>
      Evaluator.runGates (budget + 1) (x.schedules i) (x.flights.map (·.at i)) := by
  intro i
  obtain ⟨fault, e, herror⟩ := h i
  exact ⟨fault, e, Evaluator.runGates_succ_error (hall.2 i) (hsize i ▸ herror)⟩

variable (hstart : y.Steps (fun i => Evaluator.startReady size (y.schedules i)) z started)
  (hflights : z.flights = y.flights ++ started)

include hstart hflights

/-- The last round: nothing is in flight any more. -/
theorem Steps.joint_last (hnil : z.flights = []) :
    Joint (fun i => Evaluator.runGates (budget + 1) (x.schedules i) (x.flights.map (·.at i))
      (x.actual i)) [] fun i => (.ok (z.schedules i), z.actual i) :=
  .of_finished (Flight.runGates_nil hall.2 (fun i => hsize i ▸ hstart.2 i) (hflights ▸ hnil))

/-- What is queued in a round is exchanged, and then come the later rounds. -/
theorem Steps.joint_runGates (hcons : z.flights ≠ []) {frames : Fin n → List Frame}
    {e : Fin n → Evaluator m}
    (hflush : Joint (fun i => Evaluator.flush (z.actual i)) [frames] fun i => (.ok (), e i))
    {sent : List (Fin n → List Frame)} {results : Fin n → Except Fault (Schedule m) × Evaluator m}
    (hlater : Joint (fun i => Evaluator.runGates budget (z.schedules i) (z.flights.map (·.at i))
      (e i)) sent results) :
    Joint (fun i => Evaluator.runGates (budget + 1) (x.schedules i) (x.flights.map (·.at i))
      (x.actual i)) ([frames] ++ sent) results := by
  rw [hflights] at hcons hlater
  exact Flight.joint_runGates hall.2 (fun i => hsize i ▸ hstart.2 i) hcons hflush hlater

end

/-- A party is where the timetable says. -/
structure Timed (t : Timetable m) (slots : List Slot) (j : Fin n) (x : Scene m n) : Prop where
  follows : t.Follows (x.schedules j) (x.evaluators j)
  slots : List.Forall₂ (Slot.Of n) slots (x.flights.map (·.at j))

end Scene

/-- Two evaluations that differ at `p` alone, and there in nothing that is sent, while these nodes
are still to be started. -/
structure Twins (σ σ' : Setting m n) (p : Fin n) (todo : List NodeId) (x x' : Scene m n) :
    Prop where
  flights : ∀ i ≠ p, x'.flights.map (·.at i) = x.flights.map (·.at i)
  own : List.Forall₂ Evaluator.InFlight.Alike (x.flights.map (·.at p)) (x'.flights.map (·.at p))
  schedules : ∀ i ≠ p, x'.schedules i = x.schedules i
  evaluators : ∀ i ≠ p, x'.evaluators i = x.evaluators i
  supplied : x'.evaluators p = (x.evaluators p).supplied (x'.evaluators p).supplier
  moved : Moved (∑ i, σ.key i) (p + 1) (σ.circuit.tripleGaps (gap σ.plains σ'.plains) todo)
    (σ.circuit.maskGaps (gap σ.plains σ'.plains) (p + 1) todo) (x.evaluators p).supplier
    (x'.evaluators p).supplier
  cutOff : ∃ (triples : Nat) (masks : Fin n → Nat),
    (∀ i, CutOff triples masks (x.evaluators i).supplier (x.suppliers i))
      ∧ ∀ i, CutOff triples masks (x'.evaluators i).supplier (x'.suppliers i)

/-- The nodes that are started in a round come before those of later rounds. -/
theorem Timetable.starts_succ (t : Timetable m) (slots : List Slot) (budget : Nat) :
    t.starts n (budget + 1) slots
      = let a := t.advanceAll slots
        let b := a.1.startReady n a.1.schedule.circuit.size
        b.2.2 ++ if a.2 ++ b.2.1 = [] then [] else b.1.starts n budget (a.2 ++ b.2.1) := by
  rw [starts]
  dsimp only
  split
  · rename_i hnil
    rw [if_pos hnil, List.append_nil]
  · rename_i hcons
    rw [if_neg hcons]

namespace Twins

open Evaluator

variable {σ σ' : Setting m n} {p j : Fin n} {todo : List NodeId} {x x' : Scene m n}
  {t : Timetable m} {slots : List Slot}

/-- All gates in flight have had their first rounds. -/
theorem started (h : Twins σ σ' p todo x x') (i : Fin n) :
    (∀ f ∈ x.flights.map (·.at i), f.round ≠ 0) ∧ ∀ f ∈ x'.flights.map (·.at i), f.round ≠ 0 := by
  have hleft : ∀ f ∈ x.flights.map (·.at p), f.round ≠ 0 := by
    have hand : List.Forall₂ (fun f f' : InFlight m => f.round ≠ 0 ∧ f.Alike f')
        (x.flights.map (·.at p)) (x'.flights.map (·.at p)) :=
      h.own.imp fun f f' hf => ⟨hf.started, hf⟩
    exact ((List.forall₂_and_left _ _).mp hand).1
  have hright : ∀ f ∈ x'.flights.map (·.at p), f.round ≠ 0 := by
    have hand : List.Forall₂ (fun f' f : InFlight m => f'.round ≠ 0 ∧ f.Alike f')
        (x'.flights.map (·.at p)) (x.flights.map (·.at p)) :=
      h.own.flip.imp fun f' f hf => ⟨hf.round ▸ hf.started, hf⟩
    exact ((List.forall₂_and_left _ _).mp hand).1
  -- The round of a gate does not depend on the party.
  have hall : ∀ fs : List (Flight m n), (∀ f ∈ fs.map (·.at p), f.round ≠ 0) →
      ∀ f ∈ fs.map (·.at i), f.round ≠ 0 := by
    intro fs hfs f hf
    obtain ⟨g, hg, rfl⟩ := List.mem_map.mp hf
    exact hfs (g.at p) (List.mem_map_of_mem hg)
  exact ⟨hall _ hleft, hall _ hright⟩

/-- As many gates are in flight in both evaluations. -/
theorem flights_eq_nil_iff (h : Twins σ σ' p todo x x') : x'.flights = [] ↔ x.flights = [] := by
  have hlength := h.own.length_eq
  rw [List.length_map, List.length_map] at hlength
  rw [← List.length_eq_zero_iff, ← List.length_eq_zero_iff, hlength]

theorem supplied_eq (h : Twins σ σ' p todo x x') (i : Fin n) :
    x'.evaluators i = (x.evaluators i).supplied (x'.evaluators i).supplier := by
  by_cases hi : i = p
  · exact hi ▸ h.supplied
  · rw [h.evaluators i hi]
    rfl

/-! ## §3 Advancing the gates in flight -/

/-- The gates in flight are advanced in both evaluations. -/
theorem advanceAll (h : Twins σ σ' p todo x x') (hdue : x.Due σ) (hdue' : x'.Due σ')
    (timed : x.Timed t slots j) :
    ∃ y y' : Scene m n,
      x.Steps (fun i => Evaluator.advanceAll (x.schedules i) (x.flights.map (·.at i))) y y.flights
      ∧ x'.Steps (fun i => Evaluator.advanceAll (x'.schedules i) (x'.flights.map (·.at i))) y'
        y'.flights
      ∧ Twins σ σ' p todo y y' ∧ y.Over σ ∧ y'.Over σ'
      ∧ y.Timed (t.advanceAll slots).1 (t.advanceAll slots).2 j := by
  obtain ⟨waiting, midway⟩ := hdue
  obtain ⟨waiting', midway'⟩ := hdue'
  obtain ⟨still, s, e, hadvance, h₁, -⟩ := midway.advanceAll
  obtain ⟨still', s', e', hadvance', h₁', -⟩ := midway'.advanceAll
  obtain ⟨hfollows, hslots⟩ := midway.follows timed.follows timed.slots (hadvance j)
  have hblind := fun i => blind_advanceAll (h.started i).1 (x.schedules i)
  have hblind' := fun i => blind_advanceAll (h.started i).2 (x'.schedules i)
  have hsupplier := fun i => (hblind i).supplier_eq (hadvance i)
  have hsupplier' := fun i => (hblind' i).supplier_eq (hadvance' i)
  have hothers : ∀ i ≠ p, s' i = s i ∧ still'.map (·.at i) = still.map (·.at i) ∧ e' i = e i := by
    intro i hi
    have hsame := hadvance' i
    rw [h.schedules i hi, h.flights i hi, h.evaluators i hi] at hsame
    exact finished_unique (hadvance i) hsame
  have hown := hadvance' p
  rw [h.supplied] at hown
  obtain ⟨he, halike⟩ := advanceAll_alike h.own (hadvance p) hown
  refine ⟨⟨still, s, e, x.suppliers⟩, ⟨still', s', e', x'.suppliers⟩,
    ⟨hadvance, fun i => (hblind i).finished (hadvance i) _⟩,
    ⟨hadvance', fun i => (hblind' i).finished (hadvance' i) _⟩,
    ⟨fun i hi => (hothers i hi).2.1, halike, fun i hi => (hothers i hi).1,
      fun i hi => (hothers i hi).2.2, ?_, ?_, ?_⟩,
    ⟨waiting, h₁⟩, ⟨waiting', h₁'⟩, hfollows, hslots⟩
  · dsimp only
    rw [hsupplier' p]
    exact he
  · dsimp only
    rw [hsupplier p, hsupplier' p]
    exact h.moved
  · simp only [hsupplier, hsupplier']
    exact h.cutOff

/-! ## §4 Starting nodes -/

section

variable {id : NodeId} {rest : List NodeId} {values values' : List (Option (Fin n → Value m))}
  {running running' : List NodeId}

/-- Everybody but `p` starts a node in the same way in both evaluations. -/
theorem others_start (h : Twins σ σ' p todo x x') {gates gates' : Fin n → Gate m}
    {s s' : Fin n → Schedule m} {still still' : List (Flight m n)} {e e' : Fin n → Evaluator m}
    (hgates : ∀ i, Schedule.gate { x.schedules i with ready := rest } id = .ok (gates i))
    (hgates' : ∀ i, Schedule.gate { x'.schedules i with ready := rest } id = .ok (gates' i))
    (hadvance : ∀ i, advance { x.schedules i with ready := rest } ⟨id, gates i, 0⟩ (x.evaluators i)
      = .finished (.ok (s i, still.map (·.at i)), e i))
    (hadvance' : ∀ i, advance { x'.schedules i with ready := rest } ⟨id, gates' i, 0⟩
      (x'.evaluators i) = .finished (.ok (s' i, still'.map (·.at i)), e' i)) {i : Fin n}
    (hi : i ≠ p) :
    s' i = s i ∧ still'.map (·.at i) = still.map (·.at i) ∧ e' i = e i := by
  have hgate := hgates' i
  have hsame := hadvance' i
  rw [h.schedules i hi] at hgate hsame
  obtain hgate := Except.ok.inj (hgate.symm.trans (hgates i))
  rw [h.evaluators i hi, hgate] at hsame
  exact finished_unique (hadvance i) hsame

/-- The gates that `p` builds for a node match, for its material has been moved by what its operands
have been. -/
theorem matches_start (twin : σ.Twin p σ') (h : Twins σ σ' p (id :: todo) x x')
    (agreed : Agreed σ.key σ.circuit σ.plains values x.schedules running)
    (agreed' : Agreed σ'.key σ'.circuit σ'.plains values' x'.schedules running')
    {op : Operation m} (hop : σ.circuit.operation? id = some op) {gate gate' : Gate m}
    (hgate : Schedule.gate { x.schedules p with ready := rest } id = .ok gate)
    (hgate' : Schedule.gate { x'.schedules p with ready := rest } id = .ok gate')
    {drawn drawn' : Drawn m} {left left' : Supplier m}
    (hdraw : gate.draw (x.evaluators p).supplier = .ok drawn left)
    (hdraw' : gate'.draw (x'.evaluators p).supplier = .ok drawn' left') :
    Gate.Matches (p + 1) gate drawn gate' drawn'
      ∧ Moved (∑ i, σ.key i) (p + 1) (σ.circuit.tripleGaps (gap σ.plains σ'.plains) todo)
        (σ.circuit.maskGaps (gap σ.plains σ'.plains) (p + 1) todo) left left' := by
  obtain ⟨op', hop', hre⟩ := twin.circuit.exists_operation hop
  obtain ⟨v, hshows, hbuilt⟩ := agreed.gate_eq_ok hop hgate
  obtain ⟨v', hshows', hbuilt'⟩ := agreed'.gate_eq_ok hop' hgate'
  obtain ⟨plain, hplain, hvalue⟩ := σ.computes.value id op hop
  obtain ⟨plain', hplain', hvalue'⟩ := σ'.computes.value id op' hop'
  have hvalues : ∀ i ≠ p, valuesAt i values' = valuesAt i values := fun i hi =>
    (agreed'.values_eq i).symm.trans
      ((congrArg Schedule.values (h.schedules i hi)).trans (agreed.values_eq i))
  have hknown' := agreed'.known
  rw [twin.key] at hknown'
  have hmoved := h.moved
  rw [Circuit.tripleGaps_cons hop, Circuit.maskGaps_cons hop] at hmoved
  exact Gate.matches_of_moved hre hshows hshows' hplain hvalue hplain' hvalue' agreed.known hknown'
    hvalues (fun y hy => twin.opened id y (hy ▸ hop)) hbuilt hbuilt' hdraw hdraw' hmoved

end

/-- A node is started in both evaluations, or the material for it is lacking in both. -/
theorem start [NeZero n] (twin : σ.Twin p σ') (hj : j ≠ p) {id : NodeId} {rest : List NodeId}
    (h : Twins σ σ' p (id :: todo) x x') (hover : x.Over σ) (hover' : x'.Over σ')
    (timed : x.Timed t slots j) (hready : (x.schedules j).ready = id :: rest) :
    ∃ gates gates' : Fin n → Gate m,
      (∀ i, (x.schedules i).ready = id :: rest)
      ∧ (∀ i, Schedule.gate { x.schedules i with ready := rest } id = .ok (gates i))
      ∧ (∀ i, (x'.schedules i).ready = id :: rest)
      ∧ (∀ i, Schedule.gate { x'.schedules i with ready := rest } id = .ok (gates' i))
      ∧ let step i := Evaluator.advance { x.schedules i with ready := rest } ⟨id, gates i, 0⟩
        let step' i := Evaluator.advance { x'.schedules i with ready := rest } ⟨id, gates' i, 0⟩
        let begun := Timetable.start n { t with schedule := { t.schedule with ready := rest } } id
        (∃ (y y' : Scene m n) (still still' : List (Flight m n)),
          x.Steps step y still ∧ x'.Steps step' y' still'
          ∧ y.flights = x.flights ++ still ∧ y'.flights = x'.flights ++ still'
          ∧ Twins σ σ' p todo y y' ∧ y.Over σ ∧ y'.Over σ' ∧ y.Timed begun.1 (slots ++ begun.2) j)
        ∨ x.Fails step ∧ x'.Fails step' := by
  obtain ⟨waiting, midway⟩ := hover
  obtain ⟨waiting', midway'⟩ := hover'
  obtain ⟨values, agreed⟩ := midway.agreed
  obtain ⟨values', agreed'⟩ := midway'.agreed
  have hall : ∀ i, (x.schedules i).ready = id :: rest :=
    fun i => (agreed.ready_eq i j).trans hready
  have hall' : ∀ i, (x'.schedules i).ready = id :: rest := fun i =>
    (agreed'.ready_eq i j).trans ((congrArg Schedule.ready (h.schedules j hj)).trans hready)
  obtain ⟨-, gates, hgates, still, s, e, hadvance, h₁, -⟩ := midway.start hall
  obtain ⟨-, gates', hgates', still', s', e', hadvance', h₁', -⟩ := midway'.start hall'
  have hmem : id ∈ (x.schedules j).ready := by
    rw [hready]
    exact List.mem_cons_self
  obtain ⟨op, hop, -⟩ := (agreed.open_iff j id).mp (((agreed.sound j).mem_ready id).mp hmem).2
  obtain ⟨op', hop', hre⟩ := twin.circuit.exists_operation hop
  have hdraws := fun i => agreed.draw_eq hop (hgates i)
  have hdraws' := fun i => (agreed'.draw_eq hop' (hgates' i)).trans hre.draw_eq
  choose drawn hdrawn using fun i => draw_of_advance (hadvance i)
  choose drawn' hdrawn' using fun i => draw_of_advance (hadvance' i)
  have hothers := fun i (hi : i ≠ p) => h.others_start hgates hgates' hadvance hadvance' hi
  obtain ⟨hmatches, hleft⟩ := h.matches_start twin agreed agreed' hop (hgates p) (hgates' p)
    (hdrawn p) (hdrawn' p)
  have hown := hadvance' p
  rw [h.supplied] at hown
  rw [← (midway.at p).1] at hmatches
  obtain ⟨he, halike⟩ := advance_matches hmatches (hdrawn p) (hdrawn' p) (hadvance p) hown
  obtain ⟨triples, masks, hcut, hcut'⟩ := h.cutOff
  have howner : op.unknownOwner? n = none := Circuit.unknownOwner?_eq_none σ.valid hop
  by_cases henough : CutOff.Suffices triples masks op
  · choose A hA hcutA using fun i => (hcut i).draw howner henough (hdraws i ▸ hdrawn i)
    choose A' hA' hcutA' using fun i => (hcut' i).draw howner henough (hdraws' i ▸ hdrawn' i)
    have htimed : ({ t with schedule := { t.schedule with ready := rest } } : Timetable m).Follows
        { x.schedules j with ready := rest } (x.evaluators j) :=
      ⟨timed.follows.schedule.start rest, timed.follows.entries, timed.follows.pending⟩
    obtain ⟨hfollows, hslots⟩ := htimed.start (midway.at j).2 (hgates j) (hadvance j)
    refine ⟨gates, gates', hall, hgates, hall', hgates', .inl
      ⟨⟨x.flights ++ still, s, e, A⟩, ⟨x'.flights ++ still', s', e', A'⟩, still, still',
        ⟨hadvance, fun i => ?_⟩, ⟨hadvance', fun i => ?_⟩, rfl, rfl,
        ⟨fun i hi => ?_, ?_, fun i hi => (hothers i hi).1, fun i hi => (hothers i hi).2.2, he,
          hleft, _, _, hcutA, hcutA'⟩, ⟨_, h₁⟩, ⟨_, h₁'⟩, hfollows, ?_⟩⟩
    · exact advance_supplied (hadvance i) (hdrawn i) ((hdraws i).symm ▸ hA i)
    · exact advance_supplied (hadvance' i) (hdrawn' i) ((hdraws' i).symm ▸ hA' i)
    · simp only [List.map_append, h.flights i hi, (hothers i hi).2.1]
    · simp only [List.map_append]
      exact List.rel_append h.own halike
    · simp only [List.map_append]
      exact List.rel_append timed.slots hslots
  · refine ⟨gates, gates', hall, hgates, hall', hgates', .inr ⟨fun i => ?_, fun i => ?_⟩⟩
    · obtain ⟨fault, left, herror⟩ := (hcut i).draw_error howner henough
      exact ⟨fault, advance_of_draw_error _ ((hdraws i).symm ▸ herror)⟩
    · obtain ⟨fault, left, herror⟩ := (hcut' i).draw_error howner henough
      exact ⟨fault, advance_of_draw_error _ ((hdraws' i).symm ▸ herror)⟩

/-- Nodes are started until none is ready. -/
theorem startReady [NeZero n] (twin : σ.Twin p σ') (hj : j ≠ p) {budget : Nat} {later : List NodeId}
    (h : Twins σ σ' p ((t.startReady n budget).2.2 ++ later) x x') (hover : x.Over σ)
    (hover' : x'.Over σ') (timed : x.Timed t slots j) :
    let step i := Evaluator.startReady budget (x.schedules i)
    let step' i := Evaluator.startReady budget (x'.schedules i)
    (∃ (y y' : Scene m n) (started started' : List (Flight m n)),
      x.Steps step y started ∧ x'.Steps step' y' started'
      ∧ y.flights = x.flights ++ started ∧ y'.flights = x'.flights ++ started'
      ∧ Twins σ σ' p later y y' ∧ y.Over σ ∧ y'.Over σ'
      ∧ y.Timed (t.startReady n budget).1 (slots ++ (t.startReady n budget).2.1) j)
    ∨ x.Fails step ∧ x'.Fails step' := by
  induction budget generalizing t slots x x' with
  | zero =>
    refine .inl ⟨x, x', [], [], ⟨fun i => rfl, fun i => rfl⟩, ⟨fun i => rfl, fun i => rfl⟩,
      (List.append_nil _).symm, (List.append_nil _).symm, h, hover, hover', ?_⟩
    rw [Timetable.startReady, List.append_nil]
    exact timed
  | succ budget ih =>
    have hclock := timed.follows.schedule.ready
    cases hready : (x.schedules j).ready with
    | nil =>
      have hnil : ∀ i, (x.schedules i).ready = [] := fun i => (hover.ready_eq i j).trans hready
      have hnil' : ∀ i, (x'.schedules i).ready = [] := fun i =>
        (hover'.ready_eq i j).trans ((congrArg Schedule.ready (h.schedules j hj)).trans hready)
      have hidle : t.startReady n (budget + 1) = (t, [], []) := by
        simp only [Timetable.startReady, Schedule.next?, hclock, hready]
      rw [hidle] at h ⊢
      refine .inl ⟨x, x', [], [],
        ⟨fun i => startReady_nil (hnil i) _, fun i => startReady_nil (hnil i) _⟩,
        ⟨fun i => startReady_nil (hnil' i) _, fun i => startReady_nil (hnil' i) _⟩,
        (List.append_nil _).symm, (List.append_nil _).symm, h, hover, hover', ?_⟩
      rw [List.append_nil]
      exact timed
    | cons id rest =>
      have hnext : t.startReady n (budget + 1)
          = let begun :=
              Timetable.start n { t with schedule := { t.schedule with ready := rest } } id
            let after := begun.1.startReady n budget
            (after.1, begun.2 ++ after.2.1, id :: after.2.2) := by
        simp only [Timetable.startReady, Schedule.next?, hclock, hready]
      rw [hnext] at h ⊢
      obtain ⟨gates, gates', hall, hgates, hall', hgates', hfirst⟩ :=
        h.start twin hj hover hover' timed hready
      rcases hfirst with ⟨y, y', still, still', hstep, hstep', hflights, hflights', h₁, hover₁,
        hover₁', timed₁⟩ | ⟨hfails, hfails'⟩
      · rcases ih h₁ hover₁ hover₁' timed₁ with ⟨z, z', others, others', hrest, hrest', hflights₁,
          hflights₁', h₂, hover₂, hover₂', timed₂⟩ | ⟨hfails, hfails'⟩
        · refine .inl ⟨z, z', still ++ others, still' ++ others',
            hstep.startReady_cons hall hgates hrest, hstep'.startReady_cons hall' hgates' hrest',
            ?_, ?_, h₂, hover₂, hover₂', ?_⟩
          · rw [hflights₁, hflights, List.append_assoc]
          · rw [hflights₁', hflights', List.append_assoc]
          · rw [← List.append_assoc]
            exact timed₂
        · exact .inr ⟨.startReady_later hall hgates hstep hfails,
            .startReady_later hall' hgates' hstep' hfails'⟩
      · exact .inr ⟨hfails.startReady hall hgates, hfails'.startReady hall' hgates'⟩

/-! ## §5 Round after round -/

/-- What was queued is exchanged: the same frames in both evaluations. -/
theorem flush [NeZero n] (h : Twins σ σ' p todo x x') (hover : x.Over σ) (hover' : x'.Over σ')
    (timed : x.Timed t slots j) :
    ∃ (frames : Fin n → List Frame) (e e' : Fin n → Evaluator m),
      let y : Scene m n := { x with evaluators := e }
      let y' : Scene m n := { x' with evaluators := e' }
      Joint (fun i => Evaluator.flush (x.actual i)) [frames] (fun i => (.ok (), y.actual i))
      ∧ Joint (fun i => Evaluator.flush (x'.actual i)) [frames] (fun i => (.ok (), y'.actual i))
      ∧ Twins σ σ' p todo y y' ∧ y.Due σ ∧ y'.Due σ' ∧ y.Timed t slots j := by
  obtain ⟨waiting, midway⟩ := hover
  obtain ⟨waiting', midway'⟩ := hover'
  obtain ⟨frames, e, hflush, h₁⟩ := midway.flush
  obtain ⟨frames', e', hflush', h₁'⟩ := midway'.flush
  have hpool := midway.pool_of_flush hflush
  have hpool' := midway'.pool_of_flush hflush'
  have hsupplier : ∀ i, (e i).supplier = (x.evaluators i).supplier :=
    fun i => congrArg Pool.supplier (hpool i)
  have hsupplier' : ∀ i, (e' i).supplier = (x'.evaluators i).supplier :=
    fun i => congrArg Pool.supplier (hpool' i)
  -- Nobody looks at the material in an exchange, so the frames are those of the first evaluation.
  have hsame := (Joint.supplied (fun _ => blind_flush) hflush
    fun i => (x'.evaluators i).supplier).congr fun i => congrArg Evaluator.flush (h.supplied_eq i)
  obtain ⟨hframes, hresults⟩ := hsame.unique hflush'
  have he : ∀ i, e' i = (e i).supplied (x'.evaluators i).supplier :=
    fun i => congrArg Prod.snd (congrFun hresults i)
  rw [List.singleton_inj.mp hframes] at hflush'
  refine ⟨frames, e, e', Joint.supplied (fun _ => blind_flush) hflush x.suppliers,
    Joint.supplied (fun _ => blind_flush) hflush' x'.suppliers,
    ⟨h.flights, h.own, h.schedules, fun i hi => ?_, ?_, ?_, ?_⟩, ⟨waiting, h₁⟩, ⟨waiting', h₁'⟩,
    ⟨timed.follows.schedule, ?_, ?_⟩, timed.slots⟩
  · dsimp only
    rw [he i, h.evaluators i hi, ← hsupplier i]
    rfl
  · dsimp only
    rw [hsupplier' p]
    exact he p
  · dsimp only
    rw [hsupplier p, hsupplier' p]
    exact h.moved
  · simp only [hsupplier, hsupplier']
    exact h.cutOff
  · dsimp only
    rw [hpool j]
    exact timed.follows.entries
  · dsimp only
    rw [hpool j]
    exact timed.follows.pending

/-- Rounds of gates in both evaluations: the same frames are exchanged, and then either all nodes
have their values or all parties fail, in both of them. -/
theorem runGates [NeZero n] (twin : σ.Twin p σ') (hj : j ≠ p) {budget : Nat}
    (h : Twins σ σ' p (t.starts n budget slots) x x') (hdue : x.Due σ) (hdue' : x'.Due σ')
    (timed : x.Timed t slots j) :
    let run i := Evaluator.runGates budget (x.schedules i) (x.flights.map (·.at i))
    let run' i := Evaluator.runGates budget (x'.schedules i) (x'.flights.map (·.at i))
    ∃ sent : List (Fin n → List Frame),
      (∃ y y' : Scene m n,
        Joint (fun i => run i (x.actual i)) sent (fun i => (.ok (y.schedules i), y.actual i))
        ∧ Joint (fun i => run' i (x'.actual i)) sent (fun i => (.ok (y'.schedules i), y'.actual i))
        ∧ Twins σ σ' p [] y y' ∧ y.Complete σ ∧ y'.Complete σ')
      ∨ x.FailsAfter run sent ∧ x'.FailsAfter run' sent := by
  induction budget generalizing t slots x x' with
  | zero =>
    exact ⟨[], .inr ⟨Scene.Fails.failsAfter fun i => ⟨_, _, rfl⟩,
      Scene.Fails.failsAfter fun i => ⟨_, _, rfl⟩⟩⟩
  | succ budget ih =>
    rw [Timetable.starts_succ] at h
    obtain ⟨y, y', hstep, hstep', h₁, hover, hover', timed₁⟩ := h.advanceAll hdue hdue' timed
    generalize t.advanceAll slots = a at h₁ timed₁
    have hclock : a.1.schedule.circuit.size = σ.circuit.size := by
      rw [timed₁.follows.schedule.circuit, hover.size_eq]
    dsimp only at h₁
    rw [hclock] at h₁
    have hsize' : ∀ i, (y'.schedules i).circuit.size = σ.circuit.size := fun i => by
      rw [hover'.size_eq, twin.circuit.size_eq]
    rcases h₁.startReady twin hj hover hover' timed₁ with ⟨z, z', started, started', hstart,
      hstart', hflights, hflights', h₂, hover₂, hover₂', timed₂⟩ | ⟨hfails, hfails'⟩
    · have hslots := timed₂.slots.length_eq
      rw [List.length_map] at hslots
      by_cases hnil : z.flights = []
      · have hnil' : z'.flights = [] := h₂.flights_eq_nil_iff.mpr hnil
        rw [hnil, List.length_nil, List.length_eq_zero_iff] at hslots
        rw [if_pos hslots] at h₂
        exact ⟨[], .inl ⟨z, z', hstep.joint_last hover.size_eq hstart hflights hnil,
          hstep'.joint_last hsize' hstart' hflights' hnil', h₂,
          hover.complete hstart hover₂ hnil (Nat.le_refl _),
          hover'.complete hstart' hover₂' hnil' twin.circuit.size_eq.le⟩⟩
      · have hnil' : z'.flights ≠ [] := mt h₂.flights_eq_nil_iff.mp hnil
        have hslots' : a.2 ++ (a.1.startReady n σ.circuit.size).2.1 ≠ [] := by
          intro hempty
          rw [hempty, List.length_nil] at hslots
          exact hnil (List.length_eq_zero_iff.mp hslots.symm)
        rw [if_neg hslots'] at h₂
        obtain ⟨frames, e, e', hflush, hflush', h₃, hdue₃, hdue₃', timed₃⟩ :=
          h₂.flush hover₂ hover₂' timed₂
        obtain ⟨sent, ⟨u, u', hrun, hrun', h₄, hdone, hdone'⟩
            | ⟨⟨fault, u, hrun⟩, fault', u', hrun'⟩⟩ := ih h₃ hdue₃ hdue₃' timed₃
        · exact ⟨[frames] ++ sent, .inl ⟨u, u',
            hstep.joint_runGates hover.size_eq hstart hflights hnil hflush hrun,
            hstep'.joint_runGates hsize' hstart' hflights' hnil' hflush' hrun', h₄, hdone, hdone'⟩⟩
        · exact ⟨[frames] ++ sent, .inr
            ⟨⟨fault, u, hstep.joint_runGates hover.size_eq hstart hflights hnil hflush hrun⟩,
              fault', u',
              hstep'.joint_runGates hsize' hstart' hflights' hnil' hflush' hrun'⟩⟩
    · exact ⟨[], .inr ⟨(hfails.runGates hstep hover.size_eq).failsAfter,
        (hfails'.runGates hstep' hsize').failsAfter⟩⟩

end Twins

end JointCircuit
