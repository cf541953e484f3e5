/-
JointCircuit.Proofs.Flights — the gates in flight at all parties.

All parties keep the same gates in flight, in the same order, so what one
gate queues for a peer is taken there by the same gate (`Flight`). In the
middle of a round some gates have been evaluated and their messages are
queued, the others are due and their messages have arrived (`Midway`).
Advancing a gate moves it from one side to the other or completes its
node; starting a node adds a gate.

Main statement: `Setting.runGates_joint` — the parties evaluate rounds
until every node has a value. Every round takes one off the rounds that
the gates in flight and the waiting nodes still need, so the budget
suffices.
-/
import JointCircuit.Proofs.Clear
import Mathlib.Algebra.BigOperators.Fin

namespace JointCircuit

open scoped Fin.CommRing

variable {m : Modulus} {n : Nat} {key : Fin n → Element m}

/-! ## §1 Schedules of all parties -/

/-- The circuits of all parties have the same node here, up to inputs of others. -/
theorem Circuit.Shows.operation? {party : Nat} {c c' : Circuit m} (h : c.Shows party c')
    (id : NodeId) : Option.Rel (Operation.Shows party) (c.operation? id) (c'.operation? id) := by
  have hgeneral : ∀ {ops ops' : List (Operation m)},
      List.Forall₂ (Operation.Shows party) ops ops' → ∀ k : Nat,
        Option.Rel (Operation.Shows party) ops[k]? ops'[k]? := by
    intro ops ops' hops
    induction hops with
    | nil => intro k; exact .none
    | cons hop _ ih =>
      intro k
      cases k with
      | zero => exact .some hop
      | succ k => exact ih k
  exact hgeneral h id

theorem Circuit.Shows.size_eq {party : Nat} {c c' : Circuit m} (h : c.Shows party c') :
    c'.size = c.size :=
  h.length_eq.symm

/-- The schedules of all parties for one circuit, while these nodes are running. -/
structure Agreed (key : Fin n → Element m) (c : Circuit m) (plains : List (PlainValue m))
    (values : List (Option (Fin n → Value m))) (s : Fin n → Schedule m) (running : List NodeId) :
    Prop where
  shows : ∀ i : Fin n, c.Shows (i + 1) (s i).circuit
  values_eq : ∀ i, (s i).values = valuesAt i values
  sound : ∀ i, (s i).Sound running
  known : Known key c plains values

namespace Agreed

variable {c : Circuit m} {plains : List (PlainValue m)} {values : List (Option (Fin n → Value m))}
  {s : Fin n → Schedule m} {running : List NodeId} {id : NodeId}

theorem value?_ne_none (h : Agreed key c plains values s running) (i : Fin n) (y : NodeId) :
    (s i).value? y ≠ none ↔ ∃ v, values[y]? = some (some v) := by
  rw [Schedule.value?, h.values_eq i, valuesAt, List.getElem?_map]
  rcases values[y]? with _ | _ | v <;> simp

/-- Whether a node may start does not depend on the party. -/
theorem open_iff (h : Agreed key c plains values s running) (i : Fin n) (id : NodeId) :
    (s i).Open id ↔ ∃ op, c.operation? id = some op ∧ (¬ ∃ v, values[id]? = some (some v))
      ∧ ∀ y ∈ op.operands, ∃ v, values[y]? = some (some v) := by
  have hop := (h.shows i).operation? id
  rw [← h.value?_ne_none i id, not_not]
  constructor
  · rintro ⟨op, hop', hnone, hall⟩
    rw [hop'] at hop
    generalize hc : c.operation? id = o at hop
    cases hop with
    | some hshows =>
      refine ⟨_, rfl, hnone, fun y hy => (h.value?_ne_none i y).mp (hall y ?_)⟩
      rw [hshows.operands_eq]
      exact hy
  · rintro ⟨op, hop', hnone, hall⟩
    rw [hop'] at hop
    generalize hc : (s i).circuit.operation? id = o at hop
    cases hop with
    | some hshows =>
      refine ⟨_, hc, hnone, fun y hy => (h.value?_ne_none i y).mpr (hall y ?_)⟩
      rw [← hshows.operands_eq]
      exact hy

/-- Every party has a version of the same operation at a node. -/
theorem exists_operation (h : Agreed key c plains values s running) {op : Operation m}
    (hop : c.operation? id = some op) :
    ∃ ops : Fin n → Operation m, (∀ i, (s i).circuit.operation? id = some (ops i))
      ∧ ∀ i : Fin n, Operation.Shows (i + 1) op (ops i) := by
  have hone : ∀ i, ∃ op', (s i).circuit.operation? id = some op'
      ∧ Operation.Shows (i.val + 1) op op' := by
    intro i
    have hrel := (h.shows i).operation? id
    rw [hop] at hrel
    generalize (s i).circuit.operation? id = o at hrel
    cases hrel with
    | some hshows => exact ⟨_, rfl, hshows⟩
  choose ops hops hshows using hone
  exact ⟨ops, hops, hshows⟩

/-- All parties have the same nodes ready. -/
theorem ready_eq (h : Agreed key c plains values s running) (i j : Fin n) :
    (s i).ready = (s j).ready :=
  (h.sound i).ready_eq (h.sound j) fun id => by rw [h.open_iff i, h.open_iff j]

theorem perm (h : Agreed key c plains values s running) {running' : List NodeId}
    (hperm : running'.Perm running) : Agreed key c plains values s running' :=
  { h with sound := fun i => (h.sound i).perm hperm }

/-- Every party starts its lowest ready node. -/
theorem start {rest : List NodeId} (h : Agreed key c plains values s running)
    (hready : ∀ i, (s i).ready = id :: rest) :
    Agreed key c plains values (fun i => { s i with ready := rest }) (id :: running) :=
  ⟨h.shows, h.values_eq, fun i => (h.sound i).start (hready i), h.known⟩

/-- All parties complete a node, whose value they carry. -/
theorem complete (h : Agreed key c plains values s (id :: running)) {op : Operation m}
    {x : PlainValue m} (hop : c.operation? id = some op) (hx : plains[id]? = some x)
    {v : Fin n → Value m} (hcarries : Carries key op.kind v x) :
    Agreed key c plains (values.set id (some v)) (fun i => (s i).complete id (v i)) running where
  shows i := by
    rw [Schedule.circuit_complete]
    exact h.shows i
  values_eq i := by
    rw [Schedule.values_complete, h.values_eq i, valuesAt, valuesAt, List.map_set]
    rfl
  sound i := (h.sound i).complete (v i)
  known := by
    intro y w hw
    rw [List.getElem?_set] at hw
    by_cases hy : id = y
    · subst hy
      rw [if_pos rfl] at hw
      split at hw
      · obtain rfl := Option.some.inj (Option.some.inj hw)
        exact ⟨op, x, hop, hx, hcarries⟩
      · cases hw
    · rw [if_neg hy] at hw
      exact h.known y w hw

end Agreed

/-! ## §2 Advancing a gate -/

namespace Evaluator

variable (s : Schedule m) (flight : InFlight m) {gate : Gate m} {pool pool' : Pool m} {i : Fin n}
  {takes gives rest outgoing : Fin n → Frame} {e : Evaluator m}

/-- A gate that goes on stays in flight. -/
theorem advance_more
    (turn : Turn (Gate.evaluate flight.round) flight.gate pool takes (.ok .more) gate pool' gives)
    (h : e.At i pool outgoing fun j => takes j ++ rest j) :
    ∃ e', advance s flight e
        = .finished (.ok (s, [{ flight with gate, round := flight.round + 1 }]), e')
      ∧ e'.At i pool' (fun j => outgoing j ++ gives j) rest := by
  obtain ⟨e', hact, hseat⟩ := actOn_of_turn turn h
  exact ⟨e', bind_of_ok hact, hseat⟩

/-- A gate that has finished completes its node. -/
theorem advance_done
    (turn : Turn (Gate.evaluate flight.round) flight.gate pool takes (.ok .done) gate pool'
      fun _ => []) {v : Value m} (hout : gate.out.1 = some v)
    (h : e.At i pool outgoing fun j => takes j ++ rest j) :
    ∃ e', advance s flight e = .finished (.ok (s.complete flight.id v, []), e')
      ∧ e'.At i pool' outgoing rest := by
  obtain ⟨e', hact, hseat⟩ := actOn_of_turn turn h
  obtain ⟨e'', hcount, hseat'⟩ := hseat.countProtocol
  refine ⟨e'', ?_, by simpa using hseat'⟩
  rw [advance, bind_of_ok hact]
  simp only [hout]
  rw [bind_of_ok hcount]
  rfl

end Evaluator

/-! ### The phases of a round -/

namespace Evaluator

variable {s s₁ s₂ : Schedule m} {e e₁ e₂ : Evaluator m} {id : NodeId} {rest : List NodeId}
  {gate : Gate m} {still others : List (InFlight m)} {fault : Fault}

theorem startReady_nil (h : s.ready = []) {budget : Nat} (e : Evaluator m) :
    startReady (budget + 1) s e = .finished (.ok (s, []), e) := by
  simp only [startReady, Schedule.next?, h]
  rfl

variable (hready : s.ready = id :: rest)
  (hgate : Schedule.gate { s with ready := rest } id = .ok gate)

include hready hgate

/-- The lowest ready node is started, and then the others. -/
theorem startReady_cons {budget : Nat}
    (h : advance { s with ready := rest } ⟨id, gate, 0⟩ e = .finished (.ok (s₁, still), e₁))
    (hrest : startReady budget s₁ e₁ = .finished (.ok (s₂, others), e₂)) :
    startReady (budget + 1) s e = .finished (.ok (s₂, still ++ others), e₂) := by
  simp only [startReady, Schedule.next?, hready, hgate]
  rw [bind_of_ok (ofExcept_ok _ _ _), bind_of_ok h]
  dsimp only
  rw [bind_of_ok hrest]
  rfl

theorem startReady_cons_error {budget : Nat}
    (h : advance { s with ready := rest } ⟨id, gate, 0⟩ e = .finished (.ok (s₁, still), e₁))
    (hrest : startReady budget s₁ e₁ = .finished (.error fault, e₂)) :
    startReady (budget + 1) s e = .finished (.error fault, e₂) := by
  simp only [startReady, Schedule.next?, hready, hgate]
  rw [bind_of_ok (ofExcept_ok _ _ _), bind_of_ok h]
  dsimp only
  rw [bind_of_error hrest]

theorem startReady_error {budget : Nat}
    (h : advance { s with ready := rest } ⟨id, gate, 0⟩ e = .finished (.error fault, e₁)) :
    startReady (budget + 1) s e = .finished (.error fault, e₁) := by
  simp only [startReady, Schedule.next?, hready, hgate]
  rw [bind_of_ok (ofExcept_ok _ _ _), bind_of_error h]

omit hready hgate

variable {flights started : List (InFlight m)}

/-- Gates are advanced one after another. -/
theorem advanceAll_cons {flight : InFlight m}
    (h : advance s flight e = .finished (.ok (s₁, still), e₁))
    (hrest : advanceAll s₁ flights e₁ = .finished (.ok (s₂, others), e₂)) :
    advanceAll s (flight :: flights) e = .finished (.ok (s₂, still ++ others), e₂) := by
  rw [advanceAll, bind_of_ok h]
  dsimp only
  rw [bind_of_ok hrest]
  rfl

/-- The last round: nothing is in flight any more. -/
theorem runGates_nil {budget : Nat}
    (h : advanceAll s flights e = .finished (.ok (s₁, still), e₁))
    (hstart : startReady s₁.circuit.size s₁ e₁ = .finished (.ok (s₂, started), e₂))
    (hnil : still ++ started = []) :
    runGates (budget + 1) s flights e = .finished (.ok s₂, e₂) := by
  rw [runGates, bind_of_ok h]
  dsimp only
  rw [bind_of_ok hstart]
  simp only [hnil]
  rfl

/-- A round with another one after it. -/
theorem runGates_cons {budget : Nat}
    (h : advanceAll s flights e = .finished (.ok (s₁, still), e₁))
    (hstart : startReady s₁.circuit.size s₁ e₁ = .finished (.ok (s₂, started), e₂))
    (hcons : still ++ started ≠ []) :
    runGates (budget + 1) s flights e
      = (flush >>= fun _ => runGates budget s₂ (still ++ started) : Eval m _) e₂ := by
  rw [runGates, bind_of_ok h]
  dsimp only
  rw [bind_of_ok hstart]
  cases hall : still ++ started with
  | nil => exact absurd hall hcons
  | cons flight flights => rfl

theorem runGates_succ_error {budget : Nat}
    (h : advanceAll s flights e = .finished (.ok (s₁, still), e₁))
    (hstart : startReady s₁.circuit.size s₁ e₁ = .finished (.error fault, e₂)) :
    runGates (budget + 1) s flights e = .finished (.error fault, e₂) := by
  rw [runGates, bind_of_ok h]
  dsimp only
  rw [bind_of_error hstart]

end Evaluator

/-! ## §3 In the middle of a round -/

/-- A gate in flight at all parties. -/
structure Flight (m : Modulus) (n : Nat) where
  id : NodeId
  gates : Fin n → Gate m
  /-- The round it is evaluated in next. -/
  round : Nat
  /-- Its messages that are on their way. -/
  cue : Traffic n
  /-- What its remaining rounds do to the pools. -/
  effects : List (Effect m n)

/-- The gate of one party. -/
def Flight.at (f : Flight m n) (i : Fin n) : Evaluator.InFlight m :=
  { id := f.id, gate := f.gates i, round := f.round }

/-- The messages of some gates, gate by gate. -/
def traffic (flights : List (Flight m n)) : Traffic n :=
  fun j i => flights.flatMap fun f => f.cue j i

/-- Number of rounds that some gates still need. -/
def roundsLeft (flights : List (Flight m n)) : Nat :=
  (flights.map fun f => f.effects.length).sum

theorem traffic_append (fs gs : List (Flight m n)) (j i : Fin n) :
    traffic (fs ++ gs) j i = traffic fs j i ++ traffic gs j i :=
  List.flatMap_append

theorem roundsLeft_append (fs gs : List (Flight m n)) :
    roundsLeft (fs ++ gs) = roundsLeft fs + roundsLeft gs := by
  simp [roundsLeft]

/-! ### The phases of a round at all parties -/

namespace Flight

open Evaluator (advance advanceAll startReady runGates)

variable {s s₁ s₂ : Fin n → Schedule m} {e e₁ e₂ : Fin n → Evaluator m} {f : Flight m n}
  {due still others started : List (Flight m n)} {budget : Nat}

theorem advanceAll_cons
    (h : ∀ i, advance (s i) (f.at i) (e i) = .finished (.ok (s₁ i, still.map (·.at i)), e₁ i))
    (hrest : ∀ i, advanceAll (s₁ i) (due.map (·.at i)) (e₁ i)
      = .finished (.ok (s₂ i, others.map (·.at i)), e₂ i)) (i : Fin n) :
    advanceAll (s i) ((f :: due).map (·.at i)) (e i)
      = .finished (.ok (s₂ i, (still ++ others).map (·.at i)), e₂ i) := by
  rw [List.map_append]
  exact Evaluator.advanceAll_cons (h i) (hrest i)

theorem startReady_cons {id : NodeId} {rest : List NodeId} {gates : Fin n → Gate m}
    (hready : ∀ i, (s i).ready = id :: rest)
    (hgates : ∀ i, Schedule.gate { s i with ready := rest } id = .ok (gates i))
    (h : ∀ i, advance { s i with ready := rest } ⟨id, gates i, 0⟩ (e i)
      = .finished (.ok (s₁ i, still.map (·.at i)), e₁ i))
    (hrest : ∀ i, startReady budget (s₁ i) (e₁ i)
      = .finished (.ok (s₂ i, others.map (·.at i)), e₂ i)) (i : Fin n) :
    startReady (budget + 1) (s i) (e i)
      = .finished (.ok (s₂ i, (still ++ others).map (·.at i)), e₂ i) := by
  rw [List.map_append]
  exact Evaluator.startReady_cons (hready i) (hgates i) (h i) (hrest i)

variable
  (hall : ∀ i, advanceAll (s i) (due.map (·.at i)) (e i)
    = .finished (.ok (s₁ i, still.map (·.at i)), e₁ i))
  (hstart : ∀ i, startReady (s₁ i).circuit.size (s₁ i) (e₁ i)
    = .finished (.ok (s₂ i, started.map (·.at i)), e₂ i))

include hall hstart

/-- The last round: nothing is in flight any more. -/
theorem runGates_nil (hnil : still ++ started = []) (i : Fin n) :
    runGates (budget + 1) (s i) (due.map (·.at i)) (e i) = .finished (.ok (s₂ i), e₂ i) := by
  refine Evaluator.runGates_nil (hall i) (hstart i) ?_
  rw [← List.map_append, hnil, List.map_nil]

/-- A round with another one after it. -/
theorem runGates_cons (hcons : still ++ started ≠ []) (i : Fin n) :
    runGates (budget + 1) (s i) (due.map (·.at i)) (e i)
      = (Evaluator.flush >>= fun _ => runGates budget (s₂ i) ((still ++ started).map (·.at i)) :
          Eval m _) (e₂ i) := by
  rw [List.map_append]
  refine Evaluator.runGates_cons (hall i) (hstart i) fun hnil => hcons ?_
  rw [← List.map_append] at hnil
  exact List.map_eq_nil_iff.mp hnil

/-- What is queued in a round is exchanged, and then come the later rounds. -/
theorem joint_runGates (hcons : still ++ started ≠ []) {frames : Fin n → List Frame}
    {e₃ : Fin n → Evaluator m}
    (hflush : Joint (fun i => Evaluator.flush (e₂ i)) [frames] fun i => (.ok (), e₃ i))
    {sent : List (Fin n → List Frame)} {results : Fin n → Except Fault (Schedule m) × Evaluator m}
    (hlater : Joint (fun i => runGates budget (s₂ i) ((still ++ started).map (·.at i)) (e₃ i)) sent
      results) :
    Joint (fun i => runGates (budget + 1) (s i) (due.map (·.at i)) (e i)) ([frames] ++ sent)
      results :=
  (Evaluator.joint_bind hflush hlater).congr (runGates_cons hall hstart hcons)

end Flight

/-- What a number of nodes use up together. -/
def Circuit.demand (c : Circuit m) (use : Operation m → Nat) (ids : Finset NodeId) : Nat :=
  ∑ id ∈ ids, ((c.operation? id).map use).getD 0

theorem Circuit.demand_erase {c : Circuit m} (use : Operation m → Nat) {ids : Finset NodeId}
    {id : NodeId} (hid : id ∈ ids) {op : Operation m} (hop : c.operation? id = some op) :
    c.demand use ids = use op + c.demand use (ids.erase id) := by
  rw [demand, ← Finset.add_sum_erase ids _ hid, hop]
  rfl

theorem Circuit.demand_range (c : Circuit m) (use : Operation m → Nat) :
    c.demand use (Finset.range c.size) = (c.nodes.map use).sum := by
  rw [demand, Finset.sum_range, ← Fin.sum_univ_fun_getElem]
  refine Finset.sum_congr rfl fun i _ => ?_
  have hop : c.operation? i = some c.nodes[i.val] := List.getElem?_eq_getElem i.isLt
  rw [hop]
  rfl

theorem Honest.acts {triples : Nat} {masks : Fin n → Nat} {pools pools' : Fin n → Pool m}
    (h : Honest key triples masks pools) {effects : List (Effect m n)}
    (ha : Effect.Acts effects pools pools')
    (hsound : ∀ effect ∈ effects, ∀ o ∈ effect.openings, Sound key o) :
    Honest key triples masks pools' := by
  obtain ⟨openings, table, hopenings⟩ := h.table
  refine ⟨⟨_, table.acts ha, fun o ho => ?_⟩, ?_, fun i => ?_⟩
  · rcases List.mem_append.mp ho with ho | ho
    · exact hopenings o ho
    · obtain ⟨effect, heffect, ho⟩ := List.mem_flatMap.mp ho
      exact hsound effect heffect o ho
  · have hsupplier : (fun i => (pools' i).supplier) = fun i => (pools i).supplier := by
      funext i
      obtain ⟨g, hg⟩ := ha i
      rw [hg]
      exact Effect.supplier_applyAll i (pools i) effects
    rw [hsupplier]
    exact h.stock
  · obtain ⟨g, hg⟩ := ha i
    rw [hg]
    exact Effect.hasJointRandomness_applyAll i effects (h.seeded i)

/-- What honest parties evaluate together: a circuit that can be evaluated in the clear, with the
material that has to be left over for later ones. -/
structure Setting (m : Modulus) (n : Nat) where
  key : Fin n → Element m
  circuit : Circuit m
  plains : List (PlainValue m)
  triples : Nat
  masks : Fin n → Nat
  valid : circuit.validate n = .ok ()
  kinded : circuit.WellKinded
  computes : Plain.Computes circuit plains

namespace Setting

variable {σ : Setting m n}

/-- A gate in flight delivers the value that its node has in the clear. -/
structure Flies (σ : Setting m n) (f : Flight m n) : Prop where
  delivers : ∃ op x, σ.circuit.operation? f.id = some op ∧ σ.plains[f.id]? = some x
    ∧ Unison σ.key (Finish (Delivers σ.key op.kind x)) f.effects f.round f.gates f.cue
  openings : ∀ effect ∈ f.effects, ∀ o ∈ effect.openings, Sound σ.key o

/-- Pools with enough material for the waiting nodes. -/
def Provided (σ : Setting m n) (waiting : Finset NodeId) (pools : Fin n → Pool m) : Prop :=
  Honest σ.key (σ.circuit.demand (·.triples) waiting + σ.triples)
    (fun o => σ.circuit.demand (·.masks o) waiting + σ.masks o) pools

/-- The parties in the middle of a round: some gates are due, the others have been evaluated in
this round, and these nodes wait to be started. -/
structure Midway (σ : Setting m n) (waiting : Finset NodeId) (due past : List (Flight m n))
    (s : Fin n → Schedule m) (e : Fin n → Evaluator m) : Prop where
  agreed : ∃ values, Agreed σ.key σ.circuit σ.plains values s
    (due.map (·.id) ++ past.map (·.id))
  waiting_eq : ∀ i, (s i).waiting (due.map (·.id) ++ past.map (·.id)) = waiting
  seats : ∃ pools, σ.Provided waiting pools
    ∧ ∀ i, (e i).At i (pools i) (fun j => traffic past i j) fun j => traffic due j i
  flies : ∀ f ∈ due ++ past, σ.Flies f

/-- The same while the gate of one more node is evaluated. -/
structure Evaluating (σ : Setting m n) (waiting : Finset NodeId) (id : NodeId)
    (due past : List (Flight m n)) (s : Fin n → Schedule m) : Prop where
  agreed : ∃ values, Agreed σ.key σ.circuit σ.plains values s
    (id :: (due.map (·.id) ++ past.map (·.id)))
  waiting_eq : ∀ i, (s i).waiting (id :: (due.map (·.id) ++ past.map (·.id))) = waiting
  flies : ∀ f ∈ due ++ past, σ.Flies f

variable {waiting : Finset NodeId} {id : NodeId} {due past : List (Flight m n)} {f : Flight m n}
  {s : Fin n → Schedule m} {e : Fin n → Evaluator m} {pools : Fin n → Pool m}

/-- The circuits of all parties have one size. -/
theorem Midway.size_eq (h : σ.Midway waiting due past s e) (i : Fin n) :
    (s i).circuit.size = σ.circuit.size := by
  obtain ⟨values, agreed⟩ := h.agreed
  exact (agreed.shows i).size_eq

/-- All parties have the same nodes ready. -/
theorem Midway.ready_eq (h : σ.Midway waiting due past s e) (i j : Fin n) :
    (s i).ready = (s j).ready := by
  obtain ⟨values, agreed⟩ := h.agreed
  exact agreed.ready_eq i j

/-- When no node waits, none is ready. -/
theorem Midway.ready_eq_nil (h : σ.Midway ∅ due past s e) (i : Fin n) : (s i).ready = [] := by
  obtain ⟨values, agreed⟩ := h.agreed
  refine List.eq_nil_iff_forall_not_mem.mpr fun id hid => ?_
  have hmem := (agreed.sound i).mem_waiting hid
  rw [h.waiting_eq i] at hmem
  exact Finset.notMem_empty id hmem

/-- No more nodes wait than there are. -/
theorem Midway.card_waiting_le [NeZero n] (h : σ.Midway waiting due past s e) :
    waiting.card ≤ σ.circuit.size := by
  rw [← h.waiting_eq 0, ← h.size_eq 0]
  exact (Finset.card_filter_le _ _).trans_eq (Finset.card_range _)

theorem Midway.evaluating (h : σ.Midway waiting (f :: due) past s e) :
    σ.Evaluating waiting f.id due past s :=
  ⟨h.agreed, h.waiting_eq, fun g hg => h.flies g (List.mem_cons_of_mem _ hg)⟩

namespace Evaluating

/-- The gate stays in flight. -/
theorem stays (h : σ.Evaluating waiting f.id due past s) (flies : σ.Flies f)
    (provided : σ.Provided waiting pools)
    (seats : ∀ i, (e i).At i (pools i) (fun j => traffic past i j ++ f.cue i j)
      fun j => traffic due j i) : σ.Midway waiting due (past ++ [f]) s e := by
  have hperm : (due.map (·.id) ++ (past ++ [f]).map (·.id)).Perm
      (f.id :: (due.map (·.id) ++ past.map (·.id))) := by
    rw [List.map_append, ← List.append_assoc]
    exact List.perm_append_singleton _ _
  obtain ⟨values, agreed⟩ := h.agreed
  refine ⟨⟨values, agreed.perm hperm⟩, fun i => ?_, ⟨pools, provided, fun i => ?_⟩, fun g hg => ?_⟩
  · rw [Schedule.waiting_perm hperm]
    exact h.waiting_eq i
  · have hout : (fun j => traffic (past ++ [f]) i j) = fun j => traffic past i j ++ f.cue i j := by
      funext j
      rw [traffic_append]
      simp [traffic]
    rw [hout]
    exact seats i
  · rw [← List.append_assoc] at hg
    rcases List.mem_append.mp hg with hg | hg
    · exact h.flies g hg
    · rw [List.mem_singleton.mp hg]
      exact flies

/-- The node is complete. -/
theorem ends (h : σ.Evaluating waiting id due past s) {op : Operation m} {x : PlainValue m}
    (hop : σ.circuit.operation? id = some op) (hx : σ.plains[id]? = some x)
    {v : Fin n → Value m} (hcarries : Carries σ.key op.kind v x)
    (provided : σ.Provided waiting pools)
    (seats : ∀ i, (e i).At i (pools i) (fun j => traffic past i j) fun j => traffic due j i) :
    σ.Midway waiting due past (fun i => (s i).complete id (v i)) e := by
  obtain ⟨values, agreed⟩ := h.agreed
  refine ⟨⟨values.set id (some v), agreed.complete hop hx hcarries⟩, fun i => ?_,
    ⟨pools, provided, seats⟩, h.flies⟩
  rw [(agreed.sound i).waiting_complete (v i)]
  exact h.waiting_eq i

end Evaluating

/-- A due gate is evaluated: it stays in flight with a round less to go, or its node is
complete. -/
theorem Midway.advance (h : σ.Midway waiting (f :: due) past s e) :
    ∃ (still : List (Flight m n)) (s' : Fin n → Schedule m) (e' : Fin n → Evaluator m),
      (∀ i, Evaluator.advance (s i) (f.at i) (e i)
        = .finished (.ok (s' i, still.map (·.at i)), e' i))
      ∧ σ.Midway waiting due (past ++ still) s' e' ∧ roundsLeft still < f.effects.length := by
  obtain ⟨pools, provided, seats⟩ := h.seats
  obtain ⟨⟨op, x, hop, hx, hunison⟩, hsound⟩ := h.flies f (by simp)
  generalize f.effects = effects at hunison hsound
  cases effects with
  | nil => exact hunison.elim
  | cons effect effects =>
    obtain ⟨openings, table, -⟩ := provided.table
    obtain ⟨answer, gates, pools', cue, turns, acts, honward⟩ := hunison openings pools table
    have provided' : σ.Provided waiting pools' := by
      refine provided.acts acts fun one hone => ?_
      rw [List.mem_singleton.mp hone]
      exact hsound effect List.mem_cons_self
    match answer, honward with
    | .ok .more, hnext =>
      let still : Flight m n := ⟨f.id, gates, f.round + 1, cue, effects⟩
      have flies : σ.Flies still :=
        ⟨⟨op, x, hop, hx, hnext⟩, fun one hone => hsound one (List.mem_cons_of_mem _ hone)⟩
      choose e' hadvance hseat using fun i =>
        Evaluator.advance_more (s i) (f.at i) (turns i) (seats i)
      exact ⟨[still], s, e', hadvance,
        Evaluating.stays (f := still) h.evaluating flies provided' hseat,
        by simp [roundsLeft, still]⟩
    | .ok .done, ⟨_, hsilent, _, v, hout, hcarries⟩ =>
      subst hsilent
      choose e' hadvance hseat using fun i =>
        Evaluator.advance_done (s i) (f.at i) (turns i) (hout i) (seats i)
      refine ⟨[], fun i => (s i).complete f.id (v i), e', hadvance, ?_, Nat.succ_pos _⟩
      rw [List.append_nil]
      exact h.evaluating.ends hop hx hcarries provided' hseat
    | .error _, ⟨_, _, hdone, _⟩ => cases hdone

/-- All due gates are evaluated, in order. -/
theorem Midway.advanceAll (h : σ.Midway waiting due past s e) :
    ∃ (still : List (Flight m n)) (s' : Fin n → Schedule m) (e' : Fin n → Evaluator m),
      (∀ i, Evaluator.advanceAll (s i) (due.map (·.at i)) (e i)
        = .finished (.ok (s' i, still.map (·.at i)), e' i))
      ∧ σ.Midway waiting [] (past ++ still) s' e'
      ∧ roundsLeft still + due.length ≤ roundsLeft due := by
  induction due generalizing past s e with
  | nil => exact ⟨[], s, e, fun i => rfl, by rwa [List.append_nil], Nat.le_refl _⟩
  | cons f due ih =>
    obtain ⟨still, s₁, e₁, hadvance, h₁, hlt⟩ := h.advance
    obtain ⟨others, s₂, e₂, hrest, h₂, hle⟩ := ih h₁
    refine ⟨still ++ others, s₂, e₂, Flight.advanceAll_cons hadvance hrest,
      by rwa [← List.append_assoc], ?_⟩
    have hcons : roundsLeft (f :: due) = f.effects.length + roundsLeft due := by simp [roundsLeft]
    rw [roundsLeft_append, hcons, List.length_cons]
    omega

/-! ## §4 Starting nodes -/

theorem Provided.erase (h : σ.Provided waiting pools) (hid : id ∈ waiting) {op : Operation m}
    (hop : σ.circuit.operation? id = some op) :
    Honest σ.key (op.triples + (σ.circuit.demand (·.triples) (waiting.erase id) + σ.triples))
      (fun o => op.masks o + (σ.circuit.demand (·.masks o) (waiting.erase id) + σ.masks o))
      pools := by
  have h' := h
  simp only [Provided, Circuit.demand_erase _ hid hop, Nat.add_assoc] at h'
  exact h'

/-- A ready node is started: its gate is built and evaluated for the first time. -/
theorem Midway.start [NeZero n] {rest : List NodeId} (h : σ.Midway waiting [] past s e)
    (hready : ∀ i, (s i).ready = id :: rest) :
    id ∈ waiting ∧ ∃ gates : Fin n → Gate m,
      (∀ i, Schedule.gate { s i with ready := rest } id = .ok (gates i))
      ∧ ∃ (still : List (Flight m n)) (s' : Fin n → Schedule m) (e' : Fin n → Evaluator m),
        (∀ i, Evaluator.advance { s i with ready := rest } { id, gate := gates i, round := 0 } (e i)
          = .finished (.ok (s' i, still.map (·.at i)), e' i))
        ∧ σ.Midway (waiting.erase id) [] (past ++ still) s' e' ∧ roundsLeft still ≤ lastRound := by
  obtain ⟨values, agreed⟩ := h.agreed
  obtain ⟨pools, provided, seats⟩ := h.seats
  have hmem : ∀ i, id ∈ (s i).ready := fun i => by rw [hready i]; exact List.mem_cons_self
  have hwaiting : id ∈ waiting := by
    rw [← h.waiting_eq 0]
    exact (agreed.sound 0).mem_waiting (hmem 0)
  have hopen := (((agreed.sound 0).mem_ready id).mp (hmem 0)).2
  obtain ⟨op, hop, -, hknown⟩ := (agreed.open_iff 0 id).mp hopen
  obtain ⟨ops, hops, hshows⟩ := agreed.exists_operation hop
  obtain ⟨x, hx, hvalue⟩ := σ.computes.value id op hop
  obtain ⟨gates, hgates, pools', hbegins, provided'⟩ := Operation.begins
    (σ.kinded op (List.mem_of_getElem? hop)) (Circuit.unknownOwner?_eq_none σ.valid hop)
    agreed.known (fun y hy => ⟨Circuit.operand_lt σ.valid hop hy, hknown y hy⟩) hvalue hshows
    (provided.erase hwaiting hop)
  have hbegun : σ.Evaluating (waiting.erase id) id [] past fun i => { s i with ready := rest } := by
    refine ⟨⟨values, agreed.start hready⟩, fun i => ?_, h.flies⟩
    rw [Schedule.waiting_start]
    exact congrArg (·.erase id) (h.waiting_eq i)
  refine ⟨hwaiting, gates, fun i => ?_, ?_⟩
  · simp only [Schedule.gate, hops i, agreed.values_eq i]
    exact hgates i
  cases hbegins with
  | done p' turns ends =>
    obtain ⟨v, hout, hcarries⟩ := ends
    choose e' hadvance hseat using fun i => Evaluator.advance_done
      { s i with ready := rest } ⟨id, gates i, 0⟩ (turns i) (hout i) (seats i)
    refine ⟨[], fun i => Schedule.complete { s i with ready := rest } id (v i), e', hadvance, ?_,
      Nat.zero_le _⟩
    rw [List.append_nil]
    exact hbegun.ends hop hx hcarries provided' hseat
  | more p' cue effects turns others hlength hsound =>
    let still : Flight m n := ⟨id, p', 1, cue, effects⟩
    have flies : σ.Flies still := ⟨⟨op, x, hop, hx, others⟩, hsound⟩
    choose e' hadvance hseat using fun i => Evaluator.advance_more
      { s i with ready := rest } ⟨id, gates i, 0⟩ (turns i) (seats i)
    exact ⟨[still], fun i => { s i with ready := rest }, e', hadvance,
      Evaluating.stays (f := still) hbegun flies provided' hseat,
      by simpa [roundsLeft, still] using hlength⟩

/-- Every party starts nodes until none is ready. -/
theorem Midway.startReady [NeZero n] {budget : Nat} (h : σ.Midway waiting [] past s e)
    (hbudget : waiting.card ≤ budget) :
    ∃ (started : List (Flight m n)) (waiting' : Finset NodeId) (s' : Fin n → Schedule m)
        (e' : Fin n → Evaluator m),
      (∀ i, Evaluator.startReady budget (s i) (e i)
        = .finished (.ok (s' i, started.map (·.at i)), e' i))
      ∧ σ.Midway waiting' [] (past ++ started) s' e' ∧ (∀ i, (s' i).ready = [])
      ∧ lastRound * waiting'.card + roundsLeft started ≤ lastRound * waiting.card := by
  induction budget generalizing waiting past s e with
  | zero =>
    obtain rfl := Finset.card_eq_zero.mp (Nat.le_zero.mp hbudget)
    exact ⟨[], ∅, s, e, fun i => rfl, by rwa [List.append_nil], h.ready_eq_nil, Nat.le_refl _⟩
  | succ budget ih =>
    cases hready : (s 0).ready with
    | nil =>
      have hnil : ∀ i, (s i).ready = [] := fun i => (h.ready_eq i 0).trans hready
      exact ⟨[], waiting, s, e, fun i => Evaluator.startReady_nil (hnil i) _,
        by rwa [List.append_nil], hnil, Nat.le_refl _⟩
    | cons id rest =>
      have hcons : ∀ i, (s i).ready = id :: rest := fun i => (h.ready_eq i 0).trans hready
      obtain ⟨hid, gates, hgates, still, s₁, e₁, hadvance, h₁, hle⟩ := h.start hcons
      have hcard := Finset.card_erase_add_one hid
      obtain ⟨started, waiting', s₂, e₂, hrest, h₂, hdone, hle'⟩ := ih h₁ (by omega)
      refine ⟨still ++ started, waiting', s₂, e₂,
        Flight.startReady_cons hcons hgates hadvance hrest, by rwa [← List.append_assoc], hdone, ?_⟩
      rw [roundsLeft_append, ← hcard, Nat.mul_add]
      omega

/-! ## §5 Round after round -/

/-- What was queued in a round arrives before the next one. -/
theorem Midway.flush (h : σ.Midway waiting [] past s e) :
    ∃ (frames : Fin n → List Frame) (e' : Fin n → Evaluator m),
      Joint (fun i => Evaluator.flush (e i)) [frames] (fun i => (.ok (), e' i))
      ∧ σ.Midway waiting past [] s e' := by
  obtain ⟨pools, provided, seats⟩ := h.seats
  obtain ⟨e', hjoint, hseat⟩ := Evaluator.joint_flush seats
  have hnil : past.map (·.id) ++ ([] : List (Flight m n)).map (·.id)
      = ([] : List (Flight m n)).map (·.id) ++ past.map (·.id) := List.append_nil _
  refine ⟨_, e', hjoint, ⟨?_, ?_, ⟨pools, provided, hseat⟩, ?_⟩⟩
  · rw [hnil]
    exact h.agreed
  · rw [hnil]
    exact h.waiting_eq
  · rw [List.append_nil]
    exact h.flies

/-- With nothing ready and nothing in flight, every node has its value. -/
theorem Midway.all_settled (h : σ.Midway waiting [] [] s e) (hready : ∀ i, (s i).ready = [])
    (i : Fin n) {id : NodeId} (hid : id < (s i).circuit.size) : (s i).value? id ≠ none := by
  obtain ⟨values, agreed⟩ := h.agreed
  refine (agreed.sound i).all_settled (hready i) (fun k op hop y hy => ?_) id hid
  have hrel := (agreed.shows i).operation? k
  rw [hop] at hrel
  generalize hc : σ.circuit.operation? k = o at hrel
  cases hrel with
  | some hshows => exact Circuit.operand_lt σ.valid hc (hshows.operands_eq ▸ hy)

/-- All parties evaluate rounds until every node has a value. -/
theorem runGates_joint [NeZero n] {budget : Nat} (h : σ.Midway waiting due [] s e)
    (hbudget : lastRound * waiting.card + roundsLeft due < budget + due.length) :
    ∃ (sent : List (Fin n → List Frame)) (waiting' : Finset NodeId) (s' : Fin n → Schedule m)
        (e' : Fin n → Evaluator m),
      Joint (fun i => Evaluator.runGates budget (s i) (due.map (·.at i)) (e i)) sent
        (fun i => (.ok (s' i), e' i))
      ∧ σ.Midway waiting' [] [] s' e' ∧ ∀ i, (s' i).ready = [] := by
  induction budget generalizing waiting due s e with
  | zero =>
    obtain ⟨still, s₁, e₁, hadvance, h₁, hle⟩ := h.advanceAll
    omega
  | succ budget ih =>
    obtain ⟨still, s₁, e₁, hadvance, h₁, hle⟩ := h.advanceAll
    obtain ⟨started, waiting', s₂, e₂, hstart, h₂, hready, hle'⟩ := h₁.startReady h₁.card_waiting_le
    rw [List.nil_append] at h₂
    have hround : ∀ i, Evaluator.startReady (s₁ i).circuit.size (s₁ i) (e₁ i)
        = .finished (.ok (s₂ i, started.map (·.at i)), e₂ i) := fun i => by
      rw [h₁.size_eq i]
      exact hstart i
    have hremaining := roundsLeft_append still started
    by_cases hnil : still ++ started = []
    · rw [hnil] at h₂
      exact ⟨[], waiting', s₂, e₂, .of_finished (Flight.runGates_nil hadvance hround hnil), h₂,
        hready⟩
    · have hpos := List.length_pos_iff.mpr hnil
      obtain ⟨frames, e₃, hflush, h₃⟩ := h₂.flush
      obtain ⟨sent, waiting'', s₄, e₄, hjoint, h₄, hready'⟩ := ih h₃ (by omega)
      exact ⟨[frames] ++ sent, waiting'', s₄, e₄,
        Flight.joint_runGates hadvance hround hnil hflush hjoint, h₄, hready'⟩

end Setting

end JointCircuit
