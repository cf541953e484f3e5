/-
JointCircuit.Proofs.Refinement — honest parties compute what the circuit means.

§1 and §2 treat what surrounds the gates of a circuit: the toss of a
joint seed before the first circuit, and the check of all openings after
each one. §3 puts an evaluation together, and §4 runs several circuits
one after another; the material has to suffice for all of them.

Main statement: `evaluate_refines_plain` — every honest party succeeds,
and at every node the parties hold parts of the value that the node has
in the clear.
-/
import JointCircuit.Proofs.Flights
import Mathlib.Tactic.FinCases
import Mathlib.Tactic.IntervalCases

namespace JointCircuit

open scoped Fin.CommRing

variable {m : Modulus} {n : Nat} {key : Fin n → Element m}

/-! ## §1 The joint seed -/

/-- Honest parties between two evaluations: their stores hold nothing that a check would reject,
consistent material lies ahead, nothing is queued, and either all of them have agreed on a seed
or none of them has. -/
structure Idle (key : Fin n → Element m) (triples : Nat) (masks : Fin n → Nat)
    (pools : Fin n → Pool m) (e : Fin n → Evaluator m) : Prop where
  table : ∃ openings, Table key openings pools ∧ ∀ o ∈ openings, Sound key o
  stock : Stocked key triples masks fun i => (pools i).supplier
  alike : ∀ i j, (pools i).hasJointRandomness = (pools j).hasJointRandomness
  seats : ∀ i, (e i).At i (pools i) (fun _ => []) fun _ => []

/-- More material than needed does no harm. -/
theorem Idle.mono {triples triples' : Nat} {masks masks' : Fin n → Nat} {pools : Fin n → Pool m}
    {e : Fin n → Evaluator m} (h : Idle key triples masks pools e) (ht : triples' ≤ triples)
    (hm : ∀ owner, masks' owner ≤ masks owner) : Idle key triples' masks' pools e :=
  { h with stock := h.stock.mono ht hm }

namespace Evaluator

/-- All parties agree on a seed. -/
theorem initialize_joint {openings : List (Opening m n)} {pools : Fin n → Pool m}
    (table : Table key openings pools) {e : Fin n → Evaluator m}
    (seats : ∀ i, (e i).At i (pools i) (fun _ => []) fun _ => []) :
    ∃ (sent : List (Fin n → List Frame)) (g : Fin n → Generator) (joint : Generator)
        (e' : Fin n → Evaluator m),
      Joint (fun i => initializeJointRandomness (e i)) sent (fun i => (.ok (), e' i))
      ∧ ∀ i, (e' i).At i { pools i with localGenerator := g i, jointGenerator := some joint }
        (fun _ => []) fun _ => [] := by
  have first := fun i => CoinToss.turn_begin (n := n) 0 (pools i)
  let pools' (i : Fin n) : Pool m :=
    { pools i with localGenerator := CoinToss.afterDraws (pools i).localGenerator }
  have table' : Table key openings pools' :=
    ⟨table.party, table.parties, table.keyShare, table.opened⟩
  let seeds (i : Fin n) : Seed := CoinToss.ownSeed (pools i).localGenerator
  have hrounds := @CoinToss.unison m n key seeds
    (fun i => CoinToss.ownRandomness (pools i).localGenerator) (fun i => length_bytes _ _) 0
  have hlength : (List.replicate (2 * confirmations n + 1 + 1) (.none : Effect m n)).length
      ≤ lastRound := by
    have hle := confirmations_le n
    simp only [List.length_replicate, lastRound]
    omega
  obtain ⟨sent, answer, p, pools'', e₁, hjoint, hseat, acts, hlast⟩ :=
    run_of_unison first table' hrounds hlength seats
  obtain ⟨rfl, hout⟩ := hlast
  have hconclude : ∀ i, conclude (m := m) (.ok .done) (p i) = .ok (Seed.joint seeds) := by
    intro i
    have hout' : (Protocol.out m (p i)).1 = some (Seed.joint seeds) := hout i
    rw [conclude, hout']
  choose e₂ hinstall hseat' using fun i =>
    (hseat i).onPool (Pool.installJointSeed_apply (Seed.joint seeds) (pools'' i))
  choose g hg using acts
  refine ⟨sent ++ [], g, .ofPartySeed (Seed.joint seeds), e₂, ?_, fun i => ?_⟩
  · exact joint_bind (hjoint.congr_results fun i => by rw [hconclude i]) (.of_finished hinstall)
  · have hpool := hseat' i
    rw [hg i, Effect.applyAll_replicate_none] at hpool
    exact hpool

/-- Parties that have not agreed on a seed do so before they evaluate a circuit. -/
theorem seed_joint [NeZero n] {triples : Nat} {masks : Fin n → Nat} {pools : Fin n → Pool m}
    {e : Fin n → Evaluator m} (idle : Idle key triples masks pools e) :
    ∃ (sent : List (Fin n → List Frame)) (pools' : Fin n → Pool m) (e' : Fin n → Evaluator m),
      Joint (fun i => (if (pools i).hasJointRandomness then pure ()
        else initializeJointRandomness : Eval m Unit) (e i)) sent (fun i => (.ok (), e' i))
      ∧ Honest key triples masks pools'
      ∧ ∀ i, (e' i).At i (pools' i) (fun _ => []) fun _ => [] := by
  obtain ⟨openings, table, hsound⟩ := idle.table
  cases hseeded : (pools 0).hasJointRandomness with
  | true =>
    have hall : ∀ i, (pools i).hasJointRandomness = true :=
      fun i => (idle.alike i 0).trans hseeded
    refine ⟨[], pools, e, .of_finished fun i => ?_, ⟨idle.table, idle.stock, hall⟩, idle.seats⟩
    rw [if_pos (hall i)]
    rfl
  | false =>
    obtain ⟨sent, g, joint, e', hjoint, hseat⟩ := initialize_joint table idle.seats
    let pools' (i : Fin n) : Pool m :=
      { pools i with localGenerator := g i, jointGenerator := some joint }
    refine ⟨sent, pools', e', hjoint.congr fun i => ?_,
      ⟨⟨openings, ⟨table.party, table.parties, table.keyShare, table.opened⟩, hsound⟩, idle.stock,
        fun i => rfl⟩, hseat⟩
    rw [idle.alike i 0, hseeded]
    rfl

/-! ## §2 The closing check -/

/-- Honest parties check what they have opened, and accept. -/
theorem close_joint [NeZero n] {triples : Nat} {masks : Fin n → Nat} {pools : Fin n → Pool m}
    (honest : Honest key triples masks pools) {e : Fin n → Evaluator m}
    (seats : ∀ i, (e i).At i (pools i) (fun _ => []) fun _ => []) :
    ∃ (sent : List (Fin n → List Frame)) (pools' : Fin n → Pool m) (e' : Fin n → Evaluator m),
      Joint (fun i => (if (pools i).opened.hasPending then run ({} : MacCheck m) else pure ()
        : Eval m Unit) (e i)) sent (fun i => (.ok (), e' i))
      ∧ Idle key triples masks pools' e' ∧ ∀ i, (pools' i).opened = {} := by
  obtain ⟨openings, table, hsound⟩ := honest.table
  have halike : ∀ i j, (pools i).hasJointRandomness = (pools j).hasJointRandomness :=
    fun i j => (honest.seeded i).trans (honest.seeded j).symm
  by_cases hempty : openings = []
  · subst hempty
    have hopened : ∀ i, (pools i).opened = {} := fun i => (table.opened i).trans rfl
    refine ⟨[], pools, e, .of_finished fun i => ?_, ⟨honest.table, honest.stock, halike, seats⟩,
      hopened⟩
    rw [hopened i]
    rfl
  · obtain ⟨sent, e', hjoint, hend⟩ := MacCheck.joint_run hempty table seats
    choose g hseat using hend
    let pools' (i : Fin n) : Pool m :=
      { pools i with
        opened := {}
        jointGenerator := some (MacCheck.coefficients m
          (Seed.joint fun i => CoinToss.ownSeed (pools i).localGenerator) openings.length).2
        localGenerator := g i }
    refine ⟨sent, pools', e', (hjoint.congr_results fun i => ?_).congr fun i => ?_,
      ⟨⟨[], ⟨table.party, table.parties, table.keyShare, fun i => rfl⟩, by simp⟩, honest.stock,
        fun i j => rfl, hseat⟩, fun i => rfl⟩
    · rw [if_pos (combinedDefect_eq_zero hsound _)]
    · have hpending : (pools i).opened.hasPending = true := by
        rw [table.opened i]
        simp [OpenedValues.hasPending, openedAt, hempty]
      rw [hpending]
      rfl

end Evaluator

/-! ## §3 A circuit -/

/-- What the parties output for a circuit with these values in the clear. -/
structure Refines (key : Fin n → Element m) (c : Circuit m) (plains : List (PlainValue m))
    (outputs : Fin n → Outputs m) : Prop where
  size : ∀ i, (outputs i).size = c.size
  carries : ∀ id op, c.operation? id = some op → ∃ (x : PlainValue m) (v : Fin n → Value m),
    plains[id]? = some x ∧ (∀ i, (outputs i).get? id = some (v i)) ∧ Carries key op.kind v x

/-- A party accepts its version of a valid circuit. -/
theorem Circuit.Shows.validate {c c' : Circuit m} {party parties : Nat} (h : c.Shows party c')
    (valid : c.validate parties = .ok ()) : c'.validate parties = .ok () := by
  refine validate_eq_ok_iff.mpr fun op id hmem => ?_
  have hop : c'.operation? id = some op := List.mem_zipIdx_iff_getElem?.mp hmem
  have hrel := h.operation? id
  rw [hop] at hrel
  generalize hc : c.operation? id = o at hrel
  cases hrel with
  | some hshows =>
    refine ⟨fun y hy => operand_lt valid hc (hshows.operands_eq ▸ hy), ?_⟩
    rw [hshows.unknownOwner?_eq]
    exact unknownOwner?_eq_none valid hc

namespace Setting

variable {σ : Setting m n} {views : Fin n → Circuit m} {s : Fin n → Schedule m}
  {e : Fin n → Evaluator m}

/-- Before the first round all nodes wait. -/
theorem midway_new (shows : ∀ i : Fin n, σ.circuit.Shows (i + 1) (views i))
    {pools : Fin n → Pool m} (provided : σ.Provided (Finset.range σ.circuit.size) pools)
    (seats : ∀ i, (e i).At i (pools i) (fun _ => []) fun _ => []) :
    σ.Midway (Finset.range σ.circuit.size) [] [] (fun i => .new (views i)) e where
  agreed := by
    refine ⟨List.replicate σ.circuit.size none, shows, fun i => ?_,
      fun i => Schedule.sound_new (views i), fun id v hv => ?_⟩
    · rw [valuesAt, List.map_replicate, ← (shows i).size_eq]
      rfl
    · rw [List.getElem?_replicate] at hv
      split at hv <;> cases hv
  waiting_eq i := by
    rw [← (shows i).size_eq]
    exact Schedule.waiting_new (views i)
  seats := ⟨pools, provided, seats⟩
  flies f hf := absurd hf List.not_mem_nil

/-- After the last round every node has its value. -/
theorem Midway.outputs [NeZero n] {waiting : Finset NodeId} (h : σ.Midway waiting [] [] s e)
    (hready : ∀ i, (s i).ready = []) :
    waiting = ∅ ∧ ∃ values : List (Fin n → Value m),
      (∀ i, (s i).outputs = .ok (values.map (· i)))
      ∧ Refines σ.key σ.circuit σ.plains fun i => ⟨values.map (· i)⟩ := by
  obtain ⟨values, agreed⟩ := h.agreed
  have hsettled : ∀ i id, id < (s i).circuit.size → (s i).value? id ≠ none :=
    fun i _ hid => h.all_settled hready i hid
  have hsize := h.size_eq
  have hlength : values.length = σ.circuit.size := by
    have hlength' := (agreed.sound 0).length_values
    rw [agreed.values_eq 0, hsize 0] at hlength'
    simpa [valuesAt] using hlength'
  have hall : ∀ id, id < σ.circuit.size → ∃ v, values[id]? = some (some v) := fun id hid =>
    (agreed.value?_ne_none 0 id).mp (hsettled 0 id ((hsize 0).symm ▸ hid))
  constructor
  · rw [← h.waiting_eq 0]
    refine Finset.filter_false_of_mem fun id hid hwaits => ?_
    exact hsettled 0 id (Finset.mem_range.mp hid) hwaits.1
  choose v hv using hall
  have hvalues : values
      = (List.ofFn fun id : Fin σ.circuit.size => v id id.isLt).map some := by
    refine List.ext_getElem? fun id => ?_
    by_cases hid : id < σ.circuit.size
    · rw [hv id hid, List.getElem?_map, List.getElem?_ofFn, dif_pos hid]
      rfl
    · rw [List.getElem?_eq_none (by omega), List.getElem?_eq_none (by simpa using hid)]
  refine ⟨List.ofFn fun id : Fin σ.circuit.size => v id id.isLt, fun i => ?_, fun i => ?_,
    fun id op hop => ?_⟩
  · refine Schedule.outputs_eq_ok ?_
    rw [agreed.values_eq i, hvalues, valuesAt, List.map_map, List.map_map]
    rfl
  · simp [Outputs.size]
  · have hid : id < σ.circuit.size := (List.getElem?_eq_some_iff.mp hop).1
    obtain ⟨op', x, hop', hx, hcarries⟩ := agreed.known id _ (hv id hid)
    obtain rfl := Option.some.inj (hop'.symm.trans hop)
    refine ⟨x, v id hid, hx, fun i => ?_, hcarries⟩
    simp [Outputs.get?, hid]

/-- All parties evaluate their version of a circuit. -/
theorem evaluate_joint [NeZero n] (shows : ∀ i : Fin n, σ.circuit.Shows (i + 1) (views i))
    {pools : Fin n → Pool m}
    (idle : Idle σ.key (σ.circuit.demand (·.triples) (Finset.range σ.circuit.size) + σ.triples)
      (fun o => σ.circuit.demand (·.masks o) (Finset.range σ.circuit.size) + σ.masks o) pools e) :
    ∃ (sent : List (Fin n → List Frame)) (outputs : Fin n → Outputs m)
        (pools' : Fin n → Pool m) (e' : Fin n → Evaluator m),
      Joint (fun i => Evaluator.evaluate (views i) (e i)) sent
        (fun i => (.ok (outputs i), e' i))
      ∧ Refines σ.key σ.circuit σ.plains outputs ∧ Idle σ.key σ.triples σ.masks pools' e'
      ∧ ∀ i, (pools' i).opened = {} := by
  obtain ⟨openings, table, -⟩ := idle.table
  have hvalid : ∀ i, Evaluator.ofExcept .circuit
      ((views i).validate (e i).participant.pool.parties) (e i) = .finished (.ok (), e i) := by
    intro i
    rw [(idle.seats i).pool_eq, table.parties i, (shows i).validate σ.valid]
    rfl
  obtain ⟨sent₁, pools₁, e₁, hseed, honest₁, seats₁⟩ := Evaluator.seed_joint idle
  have hbudget : ∀ i, Evaluator.roundBudget (views i).size
      = Evaluator.roundBudget σ.circuit.size := fun i => by rw [(shows i).size_eq]
  have henough : lastRound * (Finset.range σ.circuit.size).card
      + roundsLeft ([] : List (Flight m n))
      < Evaluator.roundBudget σ.circuit.size + ([] : List (Flight m n)).length := by
    simp [roundsLeft, Evaluator.roundBudget]
  obtain ⟨sent₂, waiting, s, e₂, hgates, midway, hready⟩ :=
    runGates_joint (midway_new shows honest₁ seats₁) henough
  obtain ⟨rfl, values, houtputs, hrefines⟩ := midway.outputs hready
  have houtputs' : ∀ i, Evaluator.ofExcept .circuit (s i).outputs (e₂ i)
      = .finished (.ok (values.map (· i)), e₂ i) := fun i => by
    rw [houtputs i]
    rfl
  obtain ⟨pools₂, provided, seats₂⟩ := midway.seats
  have honest₂ : Honest σ.key σ.triples σ.masks pools₂ := by
    simpa [Provided, Circuit.demand] using provided
  obtain ⟨sent₃, pools₃, e₃, hclose, idle', hopened⟩ := Evaluator.close_joint honest₂ seats₂
  refine ⟨sent₁ ++ (sent₂ ++ (sent₃ ++ [])), fun i => ⟨values.map (· i)⟩, pools₃, e₃, ?_, hrefines,
    idle', hopened⟩
  refine Joint.congr ?_ fun i => congrFun (Evaluator.evaluate_eq (views i)) (e i)
  refine Evaluator.joint_step (fun i => Evaluator.onPool_get (e i)) ?_
  refine Evaluator.joint_step hvalid ?_
  refine Evaluator.joint_step (fun i => Evaluator.onPool_get (e i)) ?_
  refine Evaluator.joint_bind
    (hseed.congr fun i => by rw [(idle.seats i).pool_eq]) ?_
  refine Evaluator.joint_bind (hgates.congr fun i => by rw [hbudget i]; rfl) ?_
  refine Evaluator.joint_step (fun i => (seats₂ i).checkQuiescent) ?_
  refine Evaluator.joint_step houtputs' ?_
  refine Evaluator.joint_step (fun i => Evaluator.onPool_get (e₂ i)) ?_
  refine Evaluator.joint_bind (hclose.congr fun i => by rw [(seats₂ i).pool_eq]) ?_
  exact .finished _

end Setting

/-! ## §4 Several circuits -/

/-- What the nodes of a circuit use up together. -/
def Circuit.uses (c : Circuit m) (use : Operation m → Nat) : Nat :=
  (c.nodes.map use).sum

/-- Honest parties that evaluate a circuit all succeed, with parts of its values in the clear. -/
theorem evaluate_circuit_joint [NeZero n] {c : Circuit m} {views : Fin n → Circuit m}
    (valid : c.validate n = .ok ()) (kinded : c.WellKinded) (inputs : c.HasInputs)
    (shows : ∀ i : Fin n, c.Shows (i + 1) (views i)) {triples : Nat} {masks : Fin n → Nat}
    {pools : Fin n → Pool m} {e : Fin n → Evaluator m}
    (idle : Idle key (c.uses (·.triples) + triples) (fun o => c.uses (·.masks o) + masks o)
      pools e) :
    ∃ (plains : List (PlainValue m)) (sent : List (Fin n → List Frame))
        (outputs : Fin n → Outputs m) (pools' : Fin n → Pool m) (e' : Fin n → Evaluator m),
      (∀ counts, ∃ counts', Plain.evaluate c counts = .ok plains counts')
      ∧ Joint (fun i => Evaluator.evaluate (views i) (e i)) sent
        (fun i => (.ok (outputs i), e' i))
      ∧ Refines key c plains outputs ∧ Idle key triples masks pools' e'
      ∧ ∀ i, (pools' i).opened = {} := by
  obtain ⟨plains, heval, computes⟩ := Plain.evaluate_eq_ok valid kinded inputs
  let σ : Setting m n := { key, circuit := c, plains, triples, masks, valid, kinded, computes }
  have idle' : Idle σ.key
      (σ.circuit.demand (·.triples) (Finset.range σ.circuit.size) + σ.triples)
      (fun o => σ.circuit.demand (·.masks o) (Finset.range σ.circuit.size) + σ.masks o)
      pools e := by
    simp only [Circuit.demand_range]
    exact idle
  obtain ⟨sent, outputs, pools', e', hjoint, hrefines, hidle, hopened⟩ :=
    σ.evaluate_joint shows idle'
  exact ⟨plains, sent, outputs, pools', e', heval, hjoint, hrefines, hidle, hopened⟩

/-- Honest parties that evaluate a number of circuits, one after another, all succeed, and at
every node of every circuit they hold parts of the value that the node has in the clear. Nothing
that they have opened is left unchecked. -/
theorem evaluate_refines_plain [NeZero n] {circuits : List (Circuit m)}
    {views : Fin n → List (Circuit m)} (valid : ∀ c ∈ circuits, c.validate n = .ok ())
    (kinded : ∀ c ∈ circuits, c.WellKinded) (inputs : ∀ c ∈ circuits, c.HasInputs)
    (shows : ∀ i : Fin n, List.Forall₂ (Circuit.Shows (i + 1)) circuits (views i))
    {pools : Fin n → Pool m} {e : Fin n → Evaluator m}
    (idle : Idle key (circuits.map (·.uses (·.triples))).sum
      (fun o => (circuits.map (·.uses (·.masks o))).sum) pools e) :
    ∃ (sent : List (Fin n → List Frame)) (outputs : List (Fin n → Outputs m))
        (pools' : Fin n → Pool m) (e' : Fin n → Evaluator m),
      Joint (fun i => ((views i).mapM Evaluator.evaluate) (e i)) sent
        (fun i => (.ok (outputs.map (· i)), e' i))
      ∧ List.Forall₂ (fun c outputs => ∃ plains,
          (∀ counts, ∃ counts', Plain.evaluate c counts = .ok plains counts')
          ∧ Refines key c plains outputs) circuits outputs
      ∧ Idle key 0 (fun _ => 0) pools' e'
      ∧ ((circuits = [] ∧ pools' = pools) ∨ ∀ i, (pools' i).opened = {}) := by
  induction circuits generalizing views pools e with
  | nil =>
    have hviews : ∀ i, views i = [] := fun i => List.forall₂_nil_left_iff.mp (shows i)
    refine ⟨[], [], pools, e, .of_finished fun i => ?_, .nil, idle, .inl ⟨rfl, rfl⟩⟩
    rw [hviews i]
    rfl
  | cons c circuits ih =>
    have hviews : ∀ i : Fin n, ∃ first rest, views i = first :: rest ∧ c.Shows (i + 1) first
        ∧ List.Forall₂ (Circuit.Shows (i + 1)) circuits rest := by
      intro i
      have hshows := shows i
      generalize views i = vs at hshows
      cases hshows with
      | cons hfirst hrest => exact ⟨_, _, rfl, hfirst, hrest⟩
    choose first rest hviews hfirst hrest using hviews
    have hmem : c ∈ c :: circuits := List.mem_cons_self
    simp only [List.map_cons, List.sum_cons] at idle
    obtain ⟨plains, sent₁, output, pools₁, e₁, heval, hjoint₁, hrefines, idle₁, hopened₁⟩ :=
      evaluate_circuit_joint (valid c hmem) (kinded c hmem) (inputs c hmem) hfirst idle
    obtain ⟨sent₂, outputs, pools₂, e₂, hjoint₂, hall, idle₂, hopened₂⟩ :=
      ih (fun c hc => valid c (List.mem_cons_of_mem _ hc))
        (fun c hc => kinded c (List.mem_cons_of_mem _ hc))
        (fun c hc => inputs c (List.mem_cons_of_mem _ hc)) hrest idle₁
    refine ⟨sent₁ ++ (sent₂ ++ []), output :: outputs, pools₂, e₂, ?_,
      .cons ⟨plains, heval, hrefines⟩ hall, idle₂, ?_⟩
    · refine Joint.congr ?_ fun i => congrFun (congrArg (List.mapM Evaluator.evaluate)
        (hviews i)) (e i)
      refine Joint.congr ?_ fun i => congrFun List.mapM_cons (e i)
      exact Evaluator.joint_bind hjoint₁ (Evaluator.joint_bind hjoint₂ (.finished _))
    · rcases hopened₂ with ⟨-, rfl⟩ | hopened₂
      · exact .inr hopened₁
      · exact .inr hopened₂

/-- The product of an input of each party, opened and checked. The inputs may be unknown. -/
def productCircuit (x y : Option (Element .mersenne61)) : Circuit .mersenne61 :=
  { nodes := [.input 1 x, .input 2 y, .multiply 0 1, .reveal 2, .macCheck [3]] }

/-- The square of an input of the first party, taken in a batch. -/
def squareCircuit (x : Option (Element .mersenne61)) : Circuit .mersenne61 :=
  { nodes := [.input 1 x, .multiplyBatch [(0, 0)], .select 1 0] }

/-- Two circuits as the parties see them: the first party knows 5 and 9, the second one 7. -/
def productAndSquare (i : Fin 2) : List (Circuit .mersenne61) :=
  if i.val = 0 then [productCircuit (some 5) none, squareCircuit (some 9)]
  else [productCircuit none (some 7), squareCircuit none]

/-- The whole of a value at the first party, under the key shares 3 and 4. -/
def wholeAtFirst (i : Fin 2) (x : Element .mersenne61) : AuthShare .mersenne61 :=
  if i.val = 0 then ⟨x, 7 * x⟩ else ⟨0, 0⟩

/-- The pools of two parties with two triples and two masks for each of them. -/
def stockedPool (i : Fin 2) : Pool .mersenne61 :=
  let key : Element .mersenne61 := if i.val = 0 then 3 else 4
  let triple := ⟨wholeAtFirst i 2, wholeAtFirst i 3, wholeAtFirst i 6⟩
  let masks := [wholeAtFirst i 10, wholeAtFirst i 11]
  { party := i + 1
    parties := 2
    keyShare := key
    supplier := .dealt ⟨⟨2, i + 1, key, [triple, triple], [masks, masks], [10, 11]⟩⟩
    localGenerator := .ofPartySeed (Vector.replicate 32 (UInt8.ofNat i)) }

theorem shared_wholeAtFirst (x : Element .mersenne61) :
    Shared (fun i => (stockedPool i).keyShare) (fun i => wholeAtFirst i x) x := by
  constructor
  · show x + 0 = x
    exact add_zero x
  · show 7 * x + 0 = (3 + 4) * x
    rw [add_zero]
    rfl

theorem idle_stockedPool :
    Idle (fun i => (stockedPool i).keyShare) 2 (fun _ => 2) stockedPool
      fun i => { participant := .new (stockedPool i) } where
  table := ⟨[], ⟨fun i => rfl, fun i => rfl, fun i => rfl, fun i => rfl⟩, by simp⟩
  stock := by
    constructor
    · intro k hk
      refine ⟨fun i => ⟨wholeAtFirst i 2, wholeAtFirst i 3, wholeAtFirst i 6⟩, fun i => ?_,
        2, 3, shared_wholeAtFirst 2, shared_wholeAtFirst 3, shared_wholeAtFirst 6⟩
      interval_cases k <;> rfl
    · intro owner k hk
      let x (k : Nat) : Element .mersenne61 := if k = 0 then 11 else 10
      refine ⟨fun i => ⟨if i = owner then some (x k) else none, wholeAtFirst i (x k)⟩, fun i => ?_,
        x k, shared_wholeAtFirst (x k), if_pos rfl⟩
      interval_cases k <;> fin_cases owner <;> fin_cases i <;> rfl
  alike i j := rfl
  seats i := ⟨rfl, 0, Mailbox.new_eq_ofPeers (i + 1) 2⟩

theorem wellKinded_productCircuit (x y : Option (Element .mersenne61)) :
    (productCircuit x y).WellKinded := by
  intro op hop
  simp only [productCircuit, List.mem_cons, List.not_mem_nil, or_false] at hop
  rcases hop with rfl | rfl | rfl | rfl | rfl <;>
    simp [Operation.WellKinded, Operation.operands, productCircuit, Circuit.operation?,
      Operation.kind]

theorem hasInputs_productCircuit (x y : Element .mersenne61) :
    (productCircuit (some x) (some y)).HasInputs := by
  intro owner value hvalue
  simp [productCircuit] at hvalue
  rcases hvalue with ⟨-, rfl⟩ | ⟨-, rfl⟩ <;> simp

/-- The product as a party sees it. -/
theorem productCircuit_shows (x y : Element .mersenne61) :
    (productCircuit (some x) (some y)).Shows 1 (productCircuit (some x) none)
      ∧ (productCircuit (some x) (some y)).Shows 2 (productCircuit none (some y)) := by
  constructor
  · exact .cons (.same _) (.cons (.input 2 _ _ (absurd · (by decide))) (.cons (.same _)
      (.cons (.same _) (.cons (.same _) .nil))))
  · exact .cons (.input 1 _ _ (absurd · (by decide))) (.cons (.same _) (.cons (.same _)
      (.cons (.same _) (.cons (.same _) .nil))))

/-- Two parties evaluate both circuits. -/
theorem evaluate_refines_plain_productAndSquare :
    ∃ (sent : List (Fin 2 → List Frame)) (outputs : List (Fin 2 → Outputs .mersenne61))
        (e' : Fin 2 → Evaluator .mersenne61),
      Joint (fun i => ((productAndSquare i).mapM Evaluator.evaluate)
          { participant := .new (stockedPool i) }) sent (fun i => (.ok (outputs.map (· i)), e' i))
      ∧ ∀ i, (e' i).participant.pool.opened = {} := by
  let circuits := [productCircuit (some 5) (some 7), squareCircuit (some 9)]
  have valid : ∀ c ∈ circuits, c.validate 2 = .ok () := by decide
  have kinded : ∀ c ∈ circuits, c.WellKinded := by
    intro c hc op hop
    rcases List.mem_pair.mp hc with rfl | rfl
    · exact wellKinded_productCircuit _ _ op hop
    · simp only [squareCircuit, List.mem_cons, List.not_mem_nil, or_false] at hop
      rcases hop with rfl | rfl | rfl <;>
        simp [Operation.WellKinded, Operation.operands, squareCircuit, Circuit.operation?,
          Operation.kind]
  have inputs : ∀ c ∈ circuits, c.HasInputs := by
    intro c hc owner value hvalue
    rcases List.mem_pair.mp hc with rfl | rfl
    · exact hasInputs_productCircuit 5 7 owner value hvalue
    · simp [squareCircuit] at hvalue
      simp [hvalue.2]
  have shows : ∀ i : Fin 2, List.Forall₂ (Circuit.Shows (i + 1)) circuits (productAndSquare i) := by
    intro i
    fin_cases i
    · exact .cons (productCircuit_shows 5 7).1 (.cons (.cons (.same _) (.cons (.same _)
        (.cons (.same _) .nil))) .nil)
    · exact .cons (productCircuit_shows 5 7).2 (.cons (.cons (.input 1 _ _ (by decide))
        (.cons (.same _) (.cons (.same _) .nil))) .nil)
  obtain ⟨sent, outputs, pools, e', hjoint, -, idle, hopened⟩ :=
    evaluate_refines_plain valid kinded inputs shows
      (idle_stockedPool.mono (by decide) (by decide))
  refine ⟨sent, outputs, e', hjoint, fun i => ?_⟩
  rcases hopened with ⟨hnil, -⟩ | hopened
  · exact absurd hnil (List.cons_ne_nil _ _)
  · rw [(idle.seats i).pool_eq, hopened i]

end JointCircuit
