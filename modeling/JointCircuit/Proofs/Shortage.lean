/-
JointCircuit.Proofs.Shortage — material that suffices, or runs out for everybody.

Honest parties with consistent dealt data take the same material at the
same nodes. So they end a circuit with the same counts left, or they find
at the same node of the same round that there is not enough, and nobody
sends the frames of that round (`StopTogether`, §1).

The evaluators of a `Scene` have padded data, which never ends; beside
them the parties really have what is left of theirs (`Spends`, §2). Every
phase of a round keeps it, unless the node to be started needs more.

Main statement: `evaluate_spends`.
-/
import JointCircuit.Proofs.Privacy
import JointCircuit.Proofs.Rations
import JointCircuit.Proofs.Receipts

namespace JointCircuit

variable {m : Modulus} {n : Nat} {α β : Type}

/-! ## §1 Parties that stop together -/

/-- The last thing in the trace is the first round of the node, after the last exchange. -/
def Trace.StopsAt (t : Trace m) (id : NodeId) : Prop :=
  ∃ r, t.now.rounds.getLast? = some r ∧ r.node = some id ∧ r.number = 0

namespace Evaluator

namespace Traced

variable {e e' : Evaluator m} {t t' : Trace m} {a : α} {fault : Fault}

theorem bind_of_ok {x : Traced m (Trace m) α} {f : α → Traced m (Trace m) β}
    (h : x (e, t) = .finished (.ok a, (e', t'))) : (x >>= f) (e, t) = f a (e', t') := by
  rw [bind_apply, h]
  rfl

section Erases

variable {κ : Type} {x : Fin n → Traced m κ α} {y : Fin n → Eval m α} {e e' : Fin n → Evaluator m}
  {sent : List (Fin n → List Frame)} {answer : Fin n → Except Fault α}

/-- A joint execution can be written down. -/
theorem Erases.joint (h : ∀ i, Erases (x i) (y i))
    (hjoint : Joint (fun i => y i (e i)) sent fun i => (answer i, e' i)) (notes : Fin n → κ) :
    ∃ notes' : Fin n → κ,
      Joint (fun i => x i (e i, notes i)) sent fun i => (answer i, (e' i, notes' i)) := by
  obtain ⟨results, hresults, heq⟩ := (hjoint.congr fun i => h i (e i) (notes i)).of_map
  refine ⟨fun i => (results i).2.2, hresults.congr_results fun i => ?_⟩
  obtain ⟨hanswer, he⟩ := Prod.mk.inj (heq i)
  rw [hanswer, he]

/-- Without the notes it is the joint execution. -/
theorem Erases.joint_erased (h : ∀ i, Erases (x i) (y i)) {notes notes' : Fin n → κ}
    (hjoint : Joint (fun i => x i (e i, notes i)) sent
      fun i => (answer i, (e' i, notes' i))) :
    Joint (fun i => y i (e i)) sent fun i => (answer i, e' i) :=
  (hjoint.map fun _ r => (r.1, r.2.1)).congr fun i => (h i (e i) (notes i)).symm

end Erases

/-- After these exchanges all parties fail for lack of material, at the same node and for the same
cause, whatever they have done before. -/
def StopTogether (run : Fin n → Traced m (Trace m) α) (e : Fin n → Evaluator m)
    (sent : List (Fin n → List Frame)) (id : NodeId) (cause : Shortage) : Prop :=
  ∀ t : Fin n → Trace m, ∃ (e' : Fin n → Evaluator m) (t' : Fin n → Trace m),
    Joint (fun i => run i (e i, t i)) sent (fun i => (.error (.exhausted cause), (e' i, t' i)))
      ∧ ∀ i, (t' i).StopsAt id

namespace StopTogether

variable {run : Fin n → Traced m (Trace m) α} {e e₁ : Fin n → Evaluator m}
  {sent sent' : List (Fin n → List Frame)}
  {id : NodeId} {cause : Shortage}

theorem congr {run' : Fin n → Traced m (Trace m) α} (h : StopTogether run e sent id cause)
    (hrun : ∀ i t, run' i (e i, t) = run i (e i, t)) : StopTogether run' e sent id cause := by
  intro t
  obtain ⟨e', t', hjoint, hstops⟩ := h t
  exact ⟨e', t', hjoint.congr fun i => hrun i (t i), hstops⟩

/-- What would come after it does not. -/
theorem bind (h : StopTogether run e sent id cause) (f : Fin n → α → Traced m (Trace m) β) :
    StopTogether (fun i => run i >>= f i) e sent id cause := by
  intro t
  obtain ⟨e', t', hjoint, hstops⟩ := h t
  refine ⟨e', t', Joint.congr ?_ fun i => bind_apply (run i) (f i) (e i) (t i), hstops⟩
  rw [← List.append_nil sent]
  exact hjoint.bind (.finished _)

/-- What comes before it is done. -/
theorem after {x : Fin n → Traced m (Trace m) β} {y : Fin n → Eval m β}
    (herases : ∀ i, Erases (x i) (y i)) {b : Fin n → β}
    (hy : Joint (fun i => y i (e i)) sent fun i => (.ok (b i), e₁ i))
    {f : Fin n → β → Traced m (Trace m) α}
    (h : StopTogether (fun i => f i (b i)) e₁ sent' id cause) :
    StopTogether (fun i => x i >>= f i) e (sent ++ sent') id cause := by
  intro t
  obtain ⟨t₁, hjoint₁⟩ := Erases.joint herases hy t
  obtain ⟨e', t', hjoint, hstops⟩ := h t₁
  exact ⟨e', t', Joint.congr (hjoint₁.bind hjoint) fun i => bind_apply (x i) (f i) (e i) (t i),
    hstops⟩

/-- What comes before it without an exchange is done. -/
theorem after_step {x : Fin n → Traced m (Trace m) β} {y : Fin n → Eval m β}
    (herases : ∀ i, Erases (x i) (y i)) {b : Fin n → β}
    (hy : ∀ i, y i (e i) = .finished (.ok (b i), e₁ i)) {f : Fin n → β → Traced m (Trace m) α}
    (h : StopTogether (fun i => f i (b i)) e₁ sent id cause) :
    StopTogether (fun i => x i >>= f i) e sent id cause :=
  after herases (.of_finished hy) h

/-! ### Where gates are started -/

variable {s s₁ s₂ : Fin n → Schedule m} {gates : Fin n → Gate m} {rest : List NodeId}
  {budget : Nat} {still started : Fin n → List (InFlight m)}

/-- A gate that lacks what it draws fails in its first round. -/
theorem advance (h : ∀ i, ∃ left, (gates i).draw (e i).supplier = .error (.exhausted cause) left) :
    StopTogether (fun i => Traced.advance gateRound (s i) ⟨id, gates i, 0⟩) e [] id cause := by
  intro t
  have hround : ∀ i, ∃ state, Gate.evaluate 0 (gates i, (e i).participant)
      = .error (.exhausted cause) state := fun i => by
    obtain ⟨left, hleft⟩ := h i
    exact ((gates i).draws).fails (e i).participant hleft
  choose state hstate using hround
  let r (i : Fin n) : Played m :=
    ⟨some id, 0, (.gate (gates i), (e i).participant), (.gate (state i).1, (state i).2)⟩
  refine ⟨fun i => { e i with participant := (state i).2 }, fun i => (t i).play (r i),
    .of_finished fun i => ?_, fun i => ⟨r i, List.getLast?_concat, rfl, rfl⟩⟩
  have hplay : play (some id) .gate 0 (gates i) (Gate.evaluate 0) (e i, t i) = .finished
      (.error (.exhausted cause), ({ e i with participant := (state i).2 }, (t i).play (r i))) := by
    simp only [play, hstate i]
    rfl
  show (play _ _ _ _ _ >>= _ : Traced m (Trace m) _) (e i, t i) = _
  rw [bind_apply, hplay]
  rfl

/-- The lowest ready node is not started. -/
theorem startReady (hready : ∀ i, (s i).ready = id :: rest)
    (hgate : ∀ i, Schedule.gate { s i with ready := rest } id = .ok (gates i))
    (h : StopTogether
      (fun i => Traced.advance gateRound { s i with ready := rest } ⟨id, gates i, 0⟩) e [] id
      cause) :
    StopTogether (fun i => Traced.startReady gateRound (budget + 1) (s i)) e [] id cause := by
  have hstart := h.bind (β := Schedule m × List (InFlight m)) fun _ p =>
    Traced.startReady gateRound budget p.1 >>= fun q => pure (q.1, p.2 ++ q.2)
  refine hstart.congr fun i t => ?_
  simp only [Traced.startReady, Schedule.next?, hready i, hgate i]
  rfl

/-- A node that becomes ready later is not started. -/
theorem startReady_later {id' : NodeId} (hready : ∀ i, (s i).ready = id' :: rest)
    (hgate : ∀ i, Schedule.gate { s i with ready := rest } id' = .ok (gates i))
    (hstep : ∀ i, Evaluator.advance { s i with ready := rest } ⟨id', gates i, 0⟩ (e i)
      = .finished (.ok (s₁ i, still i), e₁ i))
    (h : StopTogether (fun i => Traced.startReady gateRound budget (s₁ i)) e₁ [] id cause) :
    StopTogether (fun i => Traced.startReady gateRound (budget + 1) (s i)) e [] id cause := by
  have hlater := (h.bind fun i p => (return (p.1, still i ++ p.2) :
    Traced m (Trace m) (Schedule m × List (InFlight m)))).after_step
      (fun i => erases_advance erases_gateRound { s i with ready := rest } ⟨id', gates i, 0⟩) hstep
      (f := fun _ p => Traced.startReady gateRound budget p.1 >>= fun q => pure (q.1, p.2 ++ q.2))
  refine hlater.congr fun i t => ?_
  simp only [Traced.startReady, Schedule.next?, hready i, hgate i]
  rfl

/-- What follows the start of the ready nodes in a round. -/
def goOn (budget : Nat) (s : Schedule m) : List (InFlight m) → Traced m (Trace m) (Schedule m)
  | [] => return s
  | flights => do
    flush (dueNext flights)
    runGates gateRound budget s flights

theorem runGates_succ (budget : Nat) (s : Schedule m) (flights : List (InFlight m)) :
    Traced.runGates gateRound (budget + 1) s flights
      = Traced.advanceAll gateRound s flights >>= fun p =>
        Traced.startReady gateRound p.1.circuit.size p.1 >>= fun q =>
          goOn budget q.1 (p.2 ++ q.2) := by
  simp only [Traced.runGates]
  refine bind_congr fun p => bind_congr fun q => ?_
  cases p.2 ++ q.2 <;> rfl

variable {flights : Fin n → List (InFlight m)}
  (hall : ∀ i, Evaluator.advanceAll (s i) (flights i) (e i) = .finished (.ok (s₁ i, still i), e₁ i))

include hall

/-- The nodes of a round are not all started. -/
theorem runGates
    (h : StopTogether (fun i => Traced.startReady gateRound (s₁ i).circuit.size (s₁ i)) e₁ [] id
      cause) :
    StopTogether (fun i => Traced.runGates gateRound (budget + 1) (s i) (flights i)) e [] id
      cause := by
  have hround := (h.bind fun i q => goOn budget q.1 (still i ++ q.2)).after_step
    (fun i => erases_advanceAll erases_gateRound (s i) (flights i)) hall
    (f := fun _ p => Traced.startReady gateRound p.1.circuit.size p.1 >>= fun q =>
      goOn budget q.1 (p.2 ++ q.2))
  refine hround.congr fun i t => ?_
  rw [runGates_succ]

/-- Those of a later round are not. -/
theorem runGates_later {e₂ e₃ : Fin n → Evaluator m} {frames : Fin n → List Frame}
    (hstart : ∀ i, Evaluator.startReady (s₁ i).circuit.size (s₁ i) (e₁ i)
      = .finished (.ok (s₂ i, started i), e₂ i))
    (hcons : ∀ i, still i ++ started i ≠ [])
    (hflush : Joint (fun i => Evaluator.flush (e₂ i)) [frames] fun i => (.ok (), e₃ i))
    (h : StopTogether (fun i => Traced.runGates gateRound budget (s₂ i) (still i ++ started i)) e₃
      sent id cause) :
    StopTogether (fun i => Traced.runGates gateRound (budget + 1) (s i) (flights i)) e
      ([frames] ++ sent) id cause := by
  have hgoOn : StopTogether (fun i => goOn budget (s₂ i) (still i ++ started i)) e₂
      ([frames] ++ sent) id cause := by
    have hrest := h.after (fun i => erases_flush (dueNext (still i ++ started i))) hflush
      (f := fun i _ => Traced.runGates gateRound budget (s₂ i) (still i ++ started i))
    refine hrest.congr fun i t => ?_
    cases hflights : still i ++ started i with
    | nil => exact absurd hflights (hcons i)
    | cons flight rest => rfl
  have hlater := hgoOn.after_step
    (fun i => erases_startReady erases_gateRound (s₁ i).circuit.size (s₁ i)) hstart
    (f := fun i q => goOn budget q.1 (still i ++ q.2))
  have hround := hlater.after_step
    (fun i => erases_advanceAll erases_gateRound (s i) (flights i)) hall
    (f := fun _ p => Traced.startReady gateRound p.1.circuit.size p.1 >>= fun q =>
      goOn budget q.1 (p.2 ++ q.2))
  refine hround.congr fun i t => ?_
  rw [runGates_succ]

end StopTogether

end Traced

end Evaluator

namespace Evaluator

variable {s s' : Schedule m} {e e' : Evaluator m} {flights still : List (InFlight m)}

/-- A gate that stays in flight has had its first round. -/
theorem started_of_advance {flight : InFlight m}
    (h : advance s flight e = .finished (.ok (s', still), e')) : ∀ f ∈ still, f.round ≠ 0 := by
  obtain ⟨status, gate, -, ⟨-, -, rfl, -⟩ | ⟨-, rfl, -⟩⟩ := advance_eq_ok h
  · intro f hf
    rw [List.mem_singleton.mp hf]
    exact Nat.succ_ne_zero _
  · exact fun f hf => absurd hf List.not_mem_nil

theorem started_of_advanceAll (h : advanceAll s flights e = .finished (.ok (s', still), e')) :
    ∀ f ∈ still, f.round ≠ 0 := by
  induction flights generalizing s e still with
  | nil =>
    cases h
    exact fun f hf => absurd hf List.not_mem_nil
  | cons flight flights ih =>
    obtain ⟨s₁, first, e₁, others, hadvance, hrest, rfl⟩ := advanceAll_cons_eq_ok h
    exact List.forall_mem_append.mpr ⟨started_of_advance hadvance, ih hrest⟩

end Evaluator

/-! ## §2 What has been spent -/

section

variable {σ : Setting m n} {data : Fin n → DealtData m} {triples spentTriples : Nat}
  {masks spentMasks : Fin n → Nat} {waiting : Finset NodeId} {past : List (Flight m n)}
  {x : Scene m n} {id : NodeId} {rest : List NodeId}

/-- The parties have spent so much of their data, which is what all nodes but the waiting ones
need, and the padded data of the evaluators goes on as theirs does. -/
structure Spends (σ : Setting m n) (data : Fin n → DealtData m) (triples : Nat)
    (masks : Fin n → Nat) (waiting : Finset NodeId) (spentTriples : Nat) (spentMasks : Fin n → Nat)
    (x : Scene m n) : Prop where
  started : ∀ f ∈ x.flights, f.round ≠ 0
  triples_eq : spentTriples + σ.circuit.demand (·.triples) waiting = σ.circuit.uses (·.triples)
  masks_eq : ∀ o, spentMasks o + σ.circuit.demand (·.masks o) waiting = σ.circuit.uses (·.masks o)
  triples_le : spentTriples ≤ triples
  masks_le : ∀ o, spentMasks o ≤ masks o
  suppliers : ∀ i, x.suppliers i = Consistent.left data spentTriples spentMasks i
  cutOff : ∀ i, CutOff (triples - spentTriples) (fun o => masks o - spentMasks o)
    (x.evaluators i).supplier (x.suppliers i)

namespace Spends

open Evaluator

/-- In every flight the gates of all parties have had their first rounds. -/
theorem started_at (h : Spends σ data triples masks waiting spentTriples spentMasks x) (i : Fin n) :
    ∀ f ∈ x.flights.map (·.at i), f.round ≠ 0 := by
  intro f hf
  obtain ⟨g, hg, rfl⟩ := List.mem_map.mp hf
  exact h.started g hg

theorem started_of_at [NeZero n] {flights : List (Flight m n)}
    (h : ∀ f ∈ flights.map (·.at 0), f.round ≠ 0) : ∀ f ∈ flights, f.round ≠ 0 :=
  fun f hf => h (f.at 0) (List.mem_map_of_mem hf)

/-- A gate in flight needs no more material. -/
theorem advanceAll [NeZero n] (h : Spends σ data triples masks waiting spentTriples spentMasks x)
    (midway : σ.Midway waiting x.flights [] x.schedules x.evaluators) :
    ∃ y : Scene m n,
      x.Steps (fun i => Evaluator.advanceAll (x.schedules i) (x.flights.map (·.at i))) y y.flights
      ∧ Spends σ data triples masks waiting spentTriples spentMasks y
      ∧ σ.Midway waiting [] y.flights y.schedules y.evaluators
      ∧ roundsLeft y.flights + x.flights.length ≤ roundsLeft x.flights := by
  obtain ⟨still, s, e, hadvance, h₁, hle⟩ := midway.advanceAll
  have hblind := fun i => blind_advanceAll (h.started_at i) (x.schedules i)
  have hsupplier := fun i => (hblind i).supplier_eq (hadvance i)
  refine ⟨⟨still, s, e, x.suppliers⟩, ⟨hadvance, fun i => (hblind i).finished (hadvance i) _⟩,
    { h with started := started_of_at (started_of_advanceAll (hadvance 0)), cutOff := fun i => ?_ },
    h₁, hle⟩
  dsimp only
  rw [hsupplier i]
  exact h.cutOff i

/-- A node is started with the material that it needs, or there is not enough for the circuit and
nobody starts it. -/
theorem start [NeZero n] (consistent : Consistent data triples masks)
    (h : Spends σ data triples masks waiting spentTriples spentMasks x)
    (midway : σ.Midway waiting [] x.flights x.schedules x.evaluators)
    (hready : ∀ i, (x.schedules i).ready = id :: rest) :
    id ∈ waiting ∧ ∃ gates : Fin n → Gate m,
      (∀ i, Schedule.gate { x.schedules i with ready := rest } id = .ok (gates i))
      ∧ ((∃ (y : Scene m n) (still : List (Flight m n)) (spentTriples' : Nat)
            (spentMasks' : Fin n → Nat),
          x.Steps (fun i => Evaluator.advance { x.schedules i with ready := rest } ⟨id, gates i, 0⟩)
            y still
          ∧ y.flights = x.flights ++ still
          ∧ Spends σ data triples masks (waiting.erase id) spentTriples' spentMasks' y
          ∧ σ.Midway (waiting.erase id) [] y.flights y.schedules y.evaluators
          ∧ roundsLeft still ≤ lastRound)
        ∨ ¬ σ.circuit.Fits triples masks ∧ ∃ cause, Traced.StopTogether
          (fun i => Traced.advance Traced.gateRound { x.schedules i with ready := rest }
            ⟨id, gates i, 0⟩) x.actual [] id cause) := by
  obtain ⟨values, agreed⟩ := midway.agreed
  obtain ⟨hid, gates, hgates, still, s, e, hadvance, h₁, hle⟩ := midway.start hready
  refine ⟨hid, gates, hgates, ?_⟩
  have hmem : id ∈ (x.schedules 0).ready := hready 0 ▸ List.mem_cons_self
  obtain ⟨op, hop, -⟩ := (agreed.open_iff 0 id).mp (((agreed.sound 0).mem_ready id).mp hmem).2
  have hdraws := fun i => agreed.draw_eq hop (hgates i)
  choose drawn hdrawn using fun i => draw_of_advance (hadvance i)
  have howner : op.unknownOwner? n = none := Circuit.unknownOwner?_eq_none σ.valid hop
  have htriples := h.triples_eq
  have hmasks := h.masks_eq
  rw [Circuit.demand_erase _ hid hop, ← Nat.add_assoc] at htriples
  simp only [Circuit.demand_erase _ hid hop, ← Nat.add_assoc] at hmasks
  have htriplesLe := h.triples_le
  have hmasksLe := h.masks_le
  by_cases henough : CutOff.Suffices (triples - spentTriples) (fun o => masks o - spentMasks o) op
  · choose left hleft hcut using fun i => (h.cutOff i).draw howner henough (hdraws i ▸ hdrawn i)
    -- What the draw leaves is what has been spent, and the part of the padded data before it ends.
    have hspent : ∀ i, left i = Consistent.left data (spentTriples + op.triples)
        (fun o => spentMasks o + op.masks o) i := by
      intro i
      obtain ⟨drawn', hdrawn'⟩ := consistent.draw_spent howner henough i
      rw [← h.suppliers i, hleft i] at hdrawn'
      exact (EStateM.Result.ok.inj hdrawn').2
    refine .inl ⟨⟨x.flights ++ still, s, e, left⟩, still, spentTriples + op.triples,
      fun o => spentMasks o + op.masks o, ⟨hadvance, fun i => ?_⟩, rfl,
      ⟨?_, htriples, hmasks, ?_, fun o => ?_, hspent, fun i => ?_⟩, h₁, hle⟩
    · exact advance_supplied (hadvance i) (hdrawn i) ((hdraws i).symm ▸ hleft i)
    · exact List.forall_mem_append.mpr
        ⟨h.started, started_of_at (started_of_advance (hadvance 0))⟩
    · have := henough.1
      omega
    · have hneed : op.masks o ≤ masks o - spentMasks o := henough.2 o
      have := hmasksLe o
      omega
    · simp only [Nat.sub_add_eq]
      exact hcut i
  · obtain ⟨cause, hcause⟩ := consistent.draw_exhausted howner henough
    refine .inr ⟨fun fits => henough ⟨?_, fun o => ?_⟩, cause, .advance fun i => ?_⟩
    · have := fits.triples
      omega
    · have := fits.masks o
      have := hmasks o
      dsimp only
      omega
    · obtain ⟨left, hleft⟩ := hcause i
      rw [← h.suppliers i] at hleft
      exact ⟨left, (hdraws i).symm ▸ hleft⟩

/-- Nodes are started until none is ready, or until there is not enough. -/
theorem startReady [NeZero n] (consistent : Consistent data triples masks) {budget : Nat}
    (h : Spends σ data triples masks waiting spentTriples spentMasks x)
    (midway : σ.Midway waiting [] x.flights x.schedules x.evaluators)
    (hbudget : waiting.card ≤ budget) :
    (∃ (y : Scene m n) (started : List (Flight m n)) (waiting' : Finset NodeId)
        (spentTriples' : Nat) (spentMasks' : Fin n → Nat),
      x.Steps (fun i => Evaluator.startReady budget (x.schedules i)) y started
      ∧ y.flights = x.flights ++ started
      ∧ Spends σ data triples masks waiting' spentTriples' spentMasks' y
      ∧ σ.Midway waiting' [] y.flights y.schedules y.evaluators
      ∧ (∀ i, (y.schedules i).ready = [])
      ∧ lastRound * waiting'.card + roundsLeft started ≤ lastRound * waiting.card)
    ∨ ¬ σ.circuit.Fits triples masks ∧ ∃ id cause, Traced.StopTogether
      (fun i => Traced.startReady Traced.gateRound budget (x.schedules i)) x.actual [] id
        cause := by
  induction budget generalizing waiting spentTriples spentMasks x with
  | zero =>
    obtain rfl := Finset.card_eq_zero.mp (Nat.le_zero.mp hbudget)
    exact .inl ⟨x, [], ∅, spentTriples, spentMasks, ⟨fun i => rfl, fun i => rfl⟩,
      (List.append_nil _).symm, h, midway, midway.ready_eq_nil, Nat.le_refl _⟩
  | succ budget ih =>
    cases hready : (x.schedules 0).ready with
    | nil =>
      have hnil : ∀ i, (x.schedules i).ready = [] := fun i => (midway.ready_eq i 0).trans hready
      exact .inl ⟨x, [], waiting, spentTriples, spentMasks,
        ⟨fun i => startReady_nil (hnil i) _, fun i => startReady_nil (hnil i) _⟩,
        (List.append_nil _).symm, h, midway, hnil, Nat.le_refl _⟩
    | cons id rest =>
      have hcons : ∀ i, (x.schedules i).ready = id :: rest :=
        fun i => (midway.ready_eq i 0).trans hready
      obtain ⟨hid, gates, hgates, hfirst⟩ := h.start consistent midway hcons
      have hcard := Finset.card_erase_add_one hid
      rcases hfirst with ⟨y, still, spentTriples₁, spentMasks₁, hstep, hflights, h₁, midway₁, hle⟩
        | ⟨hfits, cause, hstop⟩
      · rcases ih h₁ midway₁ (by omega) with
          ⟨z, started, waiting', spentTriples₂, spentMasks₂, hrest, hflights₁, h₂, midway₂, hnone,
            hle'⟩ | ⟨hfits, id', cause, hstop⟩
        · refine .inl ⟨z, still ++ started, waiting', spentTriples₂, spentMasks₂,
            hstep.startReady_cons hcons hgates hrest, ?_, h₂, midway₂, hnone, ?_⟩
          · rw [hflights₁, hflights, List.append_assoc]
          · rw [roundsLeft_append, ← hcard, Nat.mul_add]
            omega
        · exact .inr ⟨hfits, id', cause, hstop.startReady_later hcons hgates hstep.2⟩
      · exact .inr ⟨hfits, id, cause, hstop.startReady hcons hgates⟩

/-- What was queued is exchanged. -/
theorem flush [NeZero n] (h : Spends σ data triples masks waiting spentTriples spentMasks x)
    (midway : σ.Midway waiting [] x.flights x.schedules x.evaluators) :
    ∃ (frames : Fin n → List Frame) (e : Fin n → Evaluator m),
      let y : Scene m n := { x with evaluators := e }
      Joint (fun i => Evaluator.flush (x.actual i)) [frames] (fun i => (.ok (), y.actual i))
      ∧ Spends σ data triples masks waiting spentTriples spentMasks y
      ∧ σ.Midway waiting y.flights [] y.schedules y.evaluators := by
  obtain ⟨frames, e, hflush, h₁⟩ := midway.flush
  refine ⟨frames, e, Joint.supplied (fun _ => blind_flush) hflush x.suppliers,
    { h with cutOff := fun i => ?_ }, h₁⟩
  have hsupplier : (e i).supplier = (x.evaluators i).supplier :=
    congrArg Pool.supplier (midway.pool_of_flush hflush i)
  dsimp only
  rw [hsupplier]
  exact h.cutOff i

/-- Rounds of gates, until every node has its value or until there is not enough. -/
theorem runGates [NeZero n] (consistent : Consistent data triples masks) {budget : Nat}
    (h : Spends σ data triples masks waiting spentTriples spentMasks x)
    (midway : σ.Midway waiting x.flights [] x.schedules x.evaluators)
    (hbudget : lastRound * waiting.card + roundsLeft x.flights < budget + x.flights.length) :
    ∃ sent : List (Fin n → List Frame),
      (∃ (y : Scene m n) (spentTriples' : Nat) (spentMasks' : Fin n → Nat),
        Joint (fun i => Evaluator.runGates budget (x.schedules i) (x.flights.map (·.at i))
          (x.actual i)) sent (fun i => (.ok (y.schedules i), y.actual i))
        ∧ Spends σ data triples masks ∅ spentTriples' spentMasks' y)
      ∨ ¬ σ.circuit.Fits triples masks ∧ ∃ id cause, Traced.StopTogether
        (fun i => Traced.runGates Traced.gateRound budget (x.schedules i) (x.flights.map (·.at i)))
        x.actual sent id cause := by
  induction budget generalizing waiting spentTriples spentMasks x with
  | zero =>
    obtain ⟨still, s₁, e₁, hadvance, h₁, hle⟩ := midway.advanceAll
    omega
  | succ budget ih =>
    obtain ⟨y, hall, h₁, midway₁, hle⟩ := h.advanceAll midway
    rcases h₁.startReady consistent midway₁ midway₁.card_waiting_le with
      ⟨z, started, waiting', spentTriples', spentMasks', hstart, hflights, h₂, midway₂, hready,
          hle'⟩
        | ⟨hfits, id, cause, hstop⟩
    · by_cases hnil : z.flights = []
      · rw [hnil] at midway₂
        obtain ⟨rfl, -⟩ := midway₂.outputs hready
        exact ⟨[], .inl ⟨z, spentTriples', spentMasks',
          hall.joint_last midway₁.size_eq hstart hflights hnil, h₂⟩⟩
      · have hround : ∀ i, Evaluator.startReady (y.schedules i).circuit.size (y.schedules i)
            (y.actual i) = .finished (.ok (z.schedules i, started.map (·.at i)), z.actual i) :=
          fun i => midway₁.size_eq i ▸ hstart.2 i
        have hgates : ∀ i, y.flights.map (·.at i) ++ started.map (·.at i)
            = z.flights.map (·.at i) := fun i => by rw [← List.map_append, ← hflights]
        have hcons : ∀ i, y.flights.map (·.at i) ++ started.map (·.at i) ≠ [] := fun i => by
          rw [hgates i]
          exact fun hempty => hnil (List.map_eq_nil_iff.mp hempty)
        have hpos := List.length_pos_iff.mpr hnil
        have hremaining : roundsLeft z.flights = roundsLeft y.flights + roundsLeft started := by
          rw [hflights, roundsLeft_append]
        obtain ⟨frames, e, hflush, h₃, midway₃⟩ := h₂.flush midway₂
        obtain ⟨sent, ⟨u, spentTriples'', spentMasks'', hrun, h₄⟩ | ⟨hfits, id, cause, hstop⟩⟩ :=
          ih h₃ midway₃ (by dsimp only; omega)
        · exact ⟨[frames] ++ sent, .inl ⟨u, spentTriples'', spentMasks'',
            hall.joint_runGates midway₁.size_eq hstart hflights hnil hflush hrun, h₄⟩⟩
        · refine ⟨[frames] ++ sent, .inr ⟨hfits, id, cause,
            .runGates_later hall.2 hround hcons hflush (hstop.congr fun i t => ?_)⟩⟩
          rw [hgates i]
    · exact ⟨[], .inr ⟨hfits, id, cause,
        .runGates hall.2 (hstop.congr fun i t => by rw [midway₁.size_eq i])⟩⟩

end Spends

end

/-! ## §3 Whole evaluations -/

namespace Evaluator

/-- The pool is read, but not its supplier. -/
theorem Blind.onPool_get_bind {k : Pool m → Eval m α}
    (h : ∀ pool supplier, k (Pool.supplied pool supplier) = k pool) (hk : ∀ pool, Blind (k pool)) :
    Blind (Evaluator.onPool get >>= k) := by
  intro e supplier
  have hread : ∀ e : Evaluator m, (Evaluator.onPool get >>= k) e = k e.participant.pool e :=
    fun _ => rfl
  rw [hread, hread]
  show k (e.participant.pool.supplied supplier) _ = _
  rw [h]
  exact hk e.participant.pool e supplier

/-- When every node has its value, no more material is looked at. -/
theorem blind_deliver (s : Schedule m) : Blind (deliver s) := by
  refine .bind blind_checkQuiescent fun _ => .bind (.ofExcept _ _) fun values =>
    .onPool_get_bind (fun _ _ => rfl) fun pool => .bind ?_ fun _ => .pure _
  split
  · exact blind_run MacCheck.blind _
  · exact .pure ()

/-- A party agrees on a seed, unless that has been done. -/
def seed (pool : Pool m) : Eval m Unit :=
  if pool.hasJointRandomness then pure () else initializeJointRandomness

theorem blind_seed (pool : Pool m) : Blind (seed pool) := by
  unfold seed
  split
  · exact .pure ()
  · exact blind_initializeJointRandomness

/-- The parts of the evaluation of a valid circuit. -/
theorem evaluate_apply {c : Circuit m} {e : Evaluator m}
    (hvalid : c.validate e.participant.pool.parties = .ok ()) :
    evaluate c e = (seed e.participant.pool >>= fun _ =>
      runGates (roundBudget c.size) (.new c) [] >>= deliver : Eval m _) e := by
  rw [evaluate_eq, bind_of_ok (onPool_get e), hvalid, bind_of_ok (ofExcept_ok _ _ _),
    bind_of_ok (onPool_get e)]
  rfl

namespace Traced

/-- The same with a trace. -/
def seed (pool : Pool m) : Traced m (Trace m) Unit :=
  if pool.hasJointRandomness then pure () else initializeJointRandomness

theorem erases_seed (pool : Pool m) : Erases (seed pool) (Evaluator.seed pool) := by
  unfold seed Evaluator.seed
  split
  · exact erases_pure _
  · exact erases_initializeJointRandomness

/-- What is left of an evaluation when every node has its value. -/
def deliver (s : Schedule m) : Traced m (Trace m) (Outputs m) := do
  lift checkQuiescent
  let values ← lift (ofExcept .circuit s.outputs)
  note fun e t => t.finish e.participant
  let pool ← lift (onPool get)
  (if pool.opened.hasPending then run (fun p => .gate (.macCheck p)) ({} : MacCheck m)
    else pure () : Traced m (Trace m) Unit)
  return ⟨values⟩

theorem evaluate_apply {c : Circuit m} {e : Evaluator m}
    (hvalid : c.validate e.participant.pool.parties = .ok ()) (t : Trace m) :
    evaluate c (e, t) = (seed e.participant.pool >>= fun _ =>
      runGates gateRound (roundBudget c.size) (.new c) [] >>= deliver : Traced m (Trace m) _)
        (e, t) := by
  have hread : (lift (onPool get) : Traced m (Trace m) (Pool m)) (e, t)
      = .finished (.ok e.participant.pool, (e, t)) := rfl
  have haccepted : (lift (ofExcept .circuit (.ok ())) : Traced m (Trace m) Unit) (e, t)
      = .finished (.ok (), (e, t)) := rfl
  rw [evaluate, evaluateWith, bind_of_ok hread, hvalid, bind_of_ok haccepted, bind_of_ok hread]
  rfl

end Traced

end Evaluator

/-- An idle party has an empty mailbox. -/
theorem Evaluator.At.quiescent {e : Evaluator m} {i : Fin n} {pool : Pool m}
    (h : e.At i pool (fun _ => []) fun _ => []) : e.participant.mailbox.Quiescent n := by
  obtain ⟨bytes, hbox⟩ := h.mailbox_eq
  rw [hbox]
  refine ⟨⟨Nat.succ_pos _, i.isLt, List.length_ofFn, List.length_ofFn⟩,
    Mailbox.hasOutgoing_ofPeers_nil,
    fun j => Mailbox.leftover?_eq_none Mailbox.leftover?_ofPeers_nil j⟩

/-- Idle parties with dealt data are idle with padded data. -/
theorem Idle.padded {key : Fin n → Element m} {triples : Nat} {masks : Fin n → Nat}
    {pools : Fin n → Pool m} {e : Fin n → Evaluator m} (idle : Idle key triples masks pools e)
    {data : Fin n → DealtData m} (consistent : Consistent data triples masks)
    (hkey : ∀ i, (data i).keyShare = key i) (count : Nat) :
    Idle key (triples + count) (fun o => masks o + count)
      (fun i => (pools i).supplied (.dealt ⟨(data i).padded count⟩))
      fun i => (e i).supplied (.dealt ⟨(data i).padded count⟩) where
  table := by
    obtain ⟨openings, table, hsound⟩ := idle.table
    exact ⟨openings, ⟨table.party, table.parties, table.keyShare, table.opened⟩, hsound⟩
  stock := by
    have hstock := (consistent.padded count).stocked
    have hkeys : (fun i => ((data i).padded count).keyShare) = key := funext hkey
    rwa [hkeys] at hstock
  alike := idle.alike
  seats i := ⟨congrArg (Pool.supplied · _) (idle.seats i).pool_eq, (idle.seats i).mailbox_eq⟩

section

variable {σ : Setting m n} {data : Fin n → DealtData m} {triples : Nat} {masks : Fin n → Nat}
  {views : Fin n → Circuit m} {pools : Fin n → Pool m} {e : Fin n → Evaluator m}

open Evaluator

/-- Idle parties agree on a seed, and have spent nothing before the first round. -/
theorem Spends.begin [NeZero n] (consistent : Consistent data triples masks)
    (hkey : ∀ i, (data i).keyShare = σ.key i) (hzero : σ.triples = 0 ∧ ∀ o, σ.masks o = 0)
    (shows : ∀ i : Fin n, σ.circuit.Shows (i + 1) (views i))
    (idle : Idle σ.key triples masks pools e)
    (supply : ∀ i, (pools i).supplier = .dealt ⟨data i⟩) :
    ∃ (sent : List (Fin n → List Frame)) (x : Scene m n),
      Joint (fun i => seed (e i).participant.pool (e i)) sent (fun i => (.ok (), x.actual i))
      ∧ x.flights = [] ∧ (∀ i, x.schedules i = .new (views i))
      ∧ Spends σ data triples masks (Finset.range σ.circuit.size) 0 (fun _ => 0) x
      ∧ σ.Midway (Finset.range σ.circuit.size) x.flights [] x.schedules x.evaluators := by
  let count := σ.circuit.allNeeds n
  let full (i : Fin n) : Supplier m := .dealt ⟨(data i).padded count⟩
  have hfull : Idle σ.key (σ.circuit.demand (·.triples) (Finset.range σ.circuit.size) + σ.triples)
      (fun o => σ.circuit.demand (·.masks o) (Finset.range σ.circuit.size) + σ.masks o)
      (fun i => (pools i).supplied (full i)) fun i => (e i).supplied (full i) :=
    (idle.padded consistent hkey count).mono
      (Circuit.demand_triples_le hzero.1 (Nat.le_refl _))
      (Circuit.demand_masks_le hzero.2 (Nat.le_refl _))
  obtain ⟨sent, pools', e', hseed, honest, seats⟩ := seed_joint hfull
  have hpool : ∀ i, (e i).participant.pool = pools i := fun i => (idle.seats i).pool_eq
  have hblind := fun i => blind_seed ((pools i).supplied (full i))
  have hsupplier : ∀ i, (e' i).supplier = full i := Joint.supplier_eq hblind hseed
  have hactual : ∀ i, ((e i).supplied (full i)).supplied (.dealt ⟨data i⟩) = e i := fun i => by
    rw [← supply i, ← hpool i]
    rfl
  refine ⟨sent, ⟨[], fun i => .new (views i), e', fun i => .dealt ⟨data i⟩⟩,
    (Joint.supplied hblind hseed fun i => .dealt ⟨data i⟩).congr fun i => ?_, rfl, fun _ => rfl,
    ⟨fun f hf => absurd hf List.not_mem_nil, ?_, fun o => ?_, Nat.zero_le _, fun o => Nat.zero_le _,
      fun i => ?_, fun i => ?_⟩, σ.midway_new shows honest seats⟩
  · rw [hactual i, hpool i]
    rfl
  · rw [Nat.zero_add, Circuit.demand_range]
    rfl
  · rw [Nat.zero_add, Circuit.demand_range]
    rfl
  · rw [Consistent.left, DealtData.spent_zero i (data i) (consistent.length_masksLists i)]
  · dsimp only
    rw [hsupplier i]
    exact consistent.cutOff count i

/-- Idle parties agree on a seed and evaluate gates, until every node has its value or until there
is not enough. -/
theorem Spends.seed_runGates [NeZero n] (consistent : Consistent data triples masks)
    (hkey : ∀ i, (data i).keyShare = σ.key i) (hzero : σ.triples = 0 ∧ ∀ o, σ.masks o = 0)
    (shows : ∀ i : Fin n, σ.circuit.Shows (i + 1) (views i))
    (idle : Idle σ.key triples masks pools e)
    (supply : ∀ i, (pools i).supplier = .dealt ⟨data i⟩) :
    ∃ (sent₁ sent₂ : List (Fin n → List Frame)) (e₁ : Fin n → Evaluator m),
      Joint (fun i => seed (e i).participant.pool (e i)) sent₁ (fun i => (.ok (), e₁ i))
      ∧ ((∃ (y : Scene m n) (spentTriples : Nat) (spentMasks : Fin n → Nat),
          Joint (fun i =>
              Evaluator.runGates (roundBudget (views i).size) (.new (views i)) [] (e₁ i)) sent₂
            (fun i => (.ok (y.schedules i), y.actual i))
          ∧ Spends σ data triples masks ∅ spentTriples spentMasks y)
        ∨ ¬ σ.circuit.Fits triples masks ∧ ∃ id cause, Traced.StopTogether
          (fun i =>
            Traced.runGates Traced.gateRound (roundBudget (views i).size) (.new (views i)) [])
          e₁ sent₂ id cause) := by
  obtain ⟨sent₁, x, hseed, hflights, hschedules, h, midway⟩ :=
    Spends.begin consistent hkey hzero shows idle supply
  have hbudget : lastRound * (Finset.range σ.circuit.size).card + roundsLeft x.flights
      < roundBudget σ.circuit.size + x.flights.length := by
    rw [hflights]
    simp [roundsLeft, roundBudget]
  obtain ⟨sent₂, hgates⟩ := h.runGates consistent midway hbudget
  simp only [hflights, hschedules, List.map_nil] at hgates
  have hsize : ∀ i, (views i).size = σ.circuit.size := fun i => (shows i).size_eq
  simp only [hsize]
  exact ⟨sent₁, sent₂, x.actual, hseed, hgates⟩

/-- When no node waits, everything has been spent that they need. -/
theorem Spends.all_spent {x : Scene m n} {spentTriples : Nat} {spentMasks : Fin n → Nat}
    (h : Spends σ data triples masks ∅ spentTriples spentMasks x) :
    spentTriples = σ.circuit.uses (·.triples)
      ∧ spentMasks = fun o => σ.circuit.uses (·.masks o) :=
  ⟨h.triples_eq, funext h.masks_eq⟩

/-- So the data has sufficed. -/
theorem Spends.fits {x : Scene m n} {spentTriples : Nat} {spentMasks : Fin n → Nat}
    (h : Spends σ data triples masks ∅ spentTriples spentMasks x) :
    σ.circuit.Fits triples masks := by
  obtain ⟨rfl, rfl⟩ := h.all_spent
  exact ⟨h.triples_le, h.masks_le⟩

/-- What a party sees of an operation opens as much. -/
theorem Circuit.Shows.openings_eq {party : Nat} {c c' : Circuit m} (h : c.Shows party c') :
    c'.uses (·.openings) = c.uses (·.openings) := by
  have hall : ∀ {ops ops' : List (Operation m)}, List.Forall₂ (Operation.Shows party) ops ops' →
      ops'.map (·.openings) = ops.map (·.openings) := by
    intro ops ops' hops
    induction hops with
    | nil => rfl
    | cons hop _ ih =>
      rw [List.map_cons, List.map_cons, ih]
      cases hop <;> rfl
  exact congrArg List.sum (hall h)

/-- What is done after the last gate takes no material. -/
theorem Evaluator.supplier_of_evaluate [NeZero n] {e₁ e₂ e' : Fin n → Evaluator m}
    {s : Fin n → Schedule m} {sent sent₁ sent₂ : List (Fin n → List Frame)}
    {outputs : Fin n → Outputs m}
    (hvalid : ∀ i, (views i).validate (e i).participant.pool.parties = .ok ())
    (hseed : Joint (fun i => seed (e i).participant.pool (e i)) sent₁ fun i => (.ok (), e₁ i))
    (hgates : Joint (fun i => runGates (roundBudget (views i).size) (.new (views i)) [] (e₁ i))
      sent₂ fun i => (.ok (s i), e₂ i))
    (h : Joint (fun i => evaluate (views i) (e i)) sent fun i => (.ok (outputs i), e' i))
    (i : Fin n) : (e' i).supplier = (e₂ i).supplier := by
  obtain ⟨rest, -, hrest⟩ := joint_split hseed
    (h.congr fun i => (evaluate_apply (hvalid i)).symm)
  obtain ⟨rest', -, hdeliver⟩ := joint_split hgates hrest
  exact Joint.supplier_eq (fun i => blind_deliver (s i)) hdeliver i

/-- The openings of a circuit are recorded once each, those of its products included. -/
theorem Idle.pushes_eq {c : Circuit m} (shows : ∀ i : Fin n, c.Shows (i + 1) (views i))
    {key : Fin n → Element m} (idle : Idle key triples masks pools e) {e' : Fin n → Evaluator m}
    {sent : List (Fin n → List Frame)} {outputs : Fin n → Outputs m} {history : Fin n → History m}
    (h : Joint (fun i => Traced.evaluate (views i) (e i, [])) sent
      fun i => (.ok (outputs i), (e' i, history i))) (i : Fin n) :
    (history i).pushes = 2 * c.uses (·.triples) + c.uses (·.reveals) := by
  obtain ⟨openings, table, -⟩ := idle.table
  obtain ⟨replies, hreplies⟩ := h.run i
  have hinitial : (e i).participant.pool.opened
      = .ofEntries (e i).participant.pool.opened.entries := by
    refine OpenedValues.eq_ofEntries ?_
    rw [(idle.seats i).pool_eq, table.opened i]
    simp [openedAt]
  rw [pushes_of_evaluate hinitial hreplies, (shows i).openings_eq,
    Circuit.uses_openings]

/-- A trace has one exchange for every exchange of its party. -/
theorem Idle.length_past {key : Fin n → Element m} (idle : Idle key triples masks pools e)
    {sent : List (Fin n → List Frame)} {answers : Fin n → Except Fault (Outputs m)}
    {e' : Fin n → Evaluator m} {t : Fin n → Trace m}
    (h : Joint (fun i => Traced.evaluate (views i) (e i, {})) sent
      fun i => (answers i, (e' i, t i)))
    (i : Fin n) : (t i).past.length = sent.length := by
  obtain ⟨replies, hrun, hlength⟩ := h.run_length i
  have quiet := (idle.seats i).quiescent
  obtain ⟨hextends, -⟩ := Traced.keeps_books_evaluate (n := n) (views i) _ _ _ _ _ _
    ⟨.new quiet, quiet⟩ hrun
  rw [hextends.exchanges_eq, hlength]
  exact Nat.zero_add _

/-- Honest parties with consistent dealt data that evaluate a circuit together. If the data
suffices, every party succeeds, has spent what the nodes of the circuit need, and has recorded two
entries for every product and one for every opening. If it does not, all parties are told so at the
same node after the same exchanges, before they send anything more. The evaluation in the clear
counts a product for every triple. -/
theorem evaluate_spends [NeZero n] {c : Circuit m} (valid : c.validate n = .ok ())
    (kinded : c.WellKinded) (inputs : c.HasInputs) (shows : ∀ i : Fin n, c.Shows (i + 1) (views i))
    (consistent : Consistent data triples masks)
    (idle : Idle (fun i => (data i).keyShare) triples masks pools e)
    (supply : ∀ i, (pools i).supplier = .dealt ⟨data i⟩) :
    (c.Fits triples masks →
      ∃ (sent : List (Fin n → List Frame)) (outputs : Fin n → Outputs m)
          (history : Fin n → History m) (e' : Fin n → Evaluator m),
        Joint (fun i => evaluate (views i) (e i)) sent (fun i => (.ok (outputs i), e' i))
        ∧ Joint (fun i => Traced.evaluate (views i) (e i, [])) sent
          (fun i => (.ok (outputs i), (e' i, history i)))
        ∧ ∀ i, (e' i).supplier
            = .dealt ⟨(data i).spent i (c.uses (·.triples)) fun o => c.uses (·.masks o)⟩
          ∧ (history i).pushes = 2 * c.uses (·.triples) + c.uses (·.reveals))
    ∧ (¬ c.Fits triples masks →
      ∃ (sent : List (Fin n → List Frame)) (id : NodeId) (cause : Shortage)
          (e' : Fin n → Evaluator m) (t : Fin n → Trace m),
        Joint (fun i => evaluate (views i) (e i)) sent
          (fun i => (.error (.exhausted cause), e' i))
        ∧ Joint (fun i => Traced.evaluate (views i) (e i, {})) sent
          (fun i => (.error (.exhausted cause), (e' i, t i)))
        ∧ ∀ i, (t i).StopsAt id ∧ (t i).past.length = sent.length)
    ∧ ∀ counts, ∃ plains counts', Plain.evaluate c counts = .ok plains counts'
      ∧ counts'.multiplications = counts.multiplications + c.uses (·.triples) := by
  obtain ⟨plains, heval, computes⟩ := Plain.evaluate_eq_ok valid kinded inputs
  let σ : Setting m n :=
    { key := fun i => (data i).keyShare
      circuit := c
      plains
      triples := 0
      masks := fun _ => 0
      valid
      kinded
      computes }
  obtain ⟨openings, table, -⟩ := idle.table
  have hvalid : ∀ i, (views i).validate (e i).participant.pool.parties = .ok () := fun i => by
    rw [(idle.seats i).pool_eq, table.parties i]
    exact (shows i).validate valid
  obtain ⟨sent₁, sent₂, e₁, hseed, hgates⟩ :=
    Spends.seed_runGates (σ := σ) consistent (fun _ => rfl) ⟨rfl, fun _ => rfl⟩ shows idle supply
  refine ⟨fun fits => ?_, fun hfits => ?_, fun counts => ?_⟩
  · obtain ⟨y, spentTriples, spentMasks, hrun, hspent⟩ | ⟨hfits, -⟩ := hgates
    · have needed : Idle σ.key (c.uses (·.triples) + 0) (fun o => c.uses (·.masks o) + 0) pools e :=
        idle.mono fits.triples fits.masks
      obtain ⟨-, sent, outputs, -, e', -, hjoint, -⟩ :=
        evaluate_circuit_joint valid kinded inputs shows needed
      obtain ⟨history, hrecorded⟩ := Traced.Erases.joint
        (fun i => Traced.erases_evaluate (views i)) hjoint fun _ => ([] : History m)
      obtain ⟨rfl, rfl⟩ := hspent.all_spent
      exact ⟨sent, outputs, history, e', hjoint, hrecorded, fun i =>
        ⟨(supplier_of_evaluate hvalid hseed hrun hjoint i).trans (hspent.suppliers i),
          idle.pushes_eq shows hrecorded i⟩⟩
    · exact absurd fits hfits
  · obtain ⟨y, spentTriples, spentMasks, -, hspent⟩ | ⟨-, id, cause, hstop⟩ := hgates
    · exact absurd hspent.fits hfits
    · have hseeded := (hstop.bind fun _ => Traced.deliver).after
        (fun i => Traced.erases_seed (e i).participant.pool) hseed
        (f := fun i _ => Traced.runGates Traced.gateRound (roundBudget (views i).size)
          (.new (views i)) [] >>= Traced.deliver)
      have hstops := hseeded.congr fun i t => Traced.evaluate_apply (hvalid i) t
      obtain ⟨e', t, hjoint, hstopped⟩ := hstops fun _ => {}
      exact ⟨sent₁ ++ sent₂, id, cause, e', t,
        Traced.Erases.joint_erased (fun i => Traced.erases_evaluate (views i)) hjoint, hjoint,
        fun i => ⟨hstopped i, idle.length_past hjoint i⟩⟩
  · obtain ⟨counts', hcounts⟩ := heval counts
    exact ⟨plains, counts', hcounts, Plain.multiplications_of_evaluate hcounts⟩

end

/-- Two parties with two triples, and two masks of each of them. -/
theorem consistent_stockedMaterial : Consistent stockedMaterial.1 2 fun _ => 2 :=
  ⟨fun _ => rfl, fun _ => rfl, fun _ => rfl, fun _ => rfl, fun _ => rfl, idle_stockedPool.stock⟩

/-- Three squares of an input of the first party, taken in one batch. -/
def squaresCircuit : Circuit .mersenne61 :=
  { nodes := [.input 1 (some 9), .multiplyBatch [(0, 0), (0, 0), (0, 0)]] }

/-- Two triples suffice for a product, and not for three squares. -/
theorem evaluate_spends_stocked :
    (∃ (views : Fin 2 → Circuit .mersenne61) (sent : List (Fin 2 → List Frame))
        (outputs : Fin 2 → Outputs .mersenne61) (e' : Fin 2 → Evaluator .mersenne61),
      Joint (fun i => Evaluator.evaluate (views i) { participant := .new (stockedPool i) }) sent
        (fun i => (.ok (outputs i), e' i))
      ∧ ∀ i, (e' i).supplier = .dealt ⟨(stockedMaterial.1 i).spent i 1 fun _ => 1⟩)
    ∧ ∃ (sent : List (Fin 2 → List Frame)) (cause : Shortage) (e' : Fin 2 → Evaluator .mersenne61),
      Joint (fun i => Evaluator.evaluate squaresCircuit { participant := .new (stockedPool i) })
        sent fun i => (.error (.exhausted cause), e' i) := by
  constructor
  · let views (i : Fin 2) :=
      if i = 0 then productCircuit (some 5) none else productCircuit none (some 7)
    have shows : ∀ i : Fin 2, (productCircuit (some 5) (some 7)).Shows (i + 1) (views i) := by
      intro i
      fin_cases i
      · exact (productCircuit_shows 5 7).1
      · exact (productCircuit_shows 5 7).2
    obtain ⟨hsuffices, -⟩ := evaluate_spends (by decide) (wellKinded_productCircuit _ _)
      (hasInputs_productCircuit 5 7) shows consistent_stockedMaterial idle_stockedPool fun _ => rfl
    obtain ⟨sent, outputs, history, e', hjoint, -, hspent⟩ := hsuffices ⟨by decide, by decide⟩
    refine ⟨views, sent, outputs, e', hjoint, fun i => ?_⟩
    have hmasks : (fun o : Fin 2 => (productCircuit (some 5) (some 7)).uses (·.masks o))
        = fun _ => 1 := by
      funext o
      fin_cases o <;> rfl
    rw [(hspent i).1, hmasks]
    rfl
  · have kinded : squaresCircuit.WellKinded := by
      intro op hop
      simp only [squaresCircuit, List.mem_cons, List.not_mem_nil, or_false] at hop
      rcases hop with rfl | rfl <;>
        simp [Operation.WellKinded, Operation.operands, squaresCircuit, Circuit.operation?,
          Operation.kind]
    have inputs : squaresCircuit.HasInputs := by
      intro owner value hvalue
      simp [squaresCircuit] at hvalue
      simp [hvalue.2]
    obtain ⟨-, hfails, -⟩ := evaluate_spends (by decide) kinded inputs
      (fun _ => .cons (.same _) (.cons (.same _) .nil)) consistent_stockedMaterial idle_stockedPool
      fun _ => rfl
    obtain ⟨sent, id, cause, e', t, hjoint, -⟩ := hfails fun fits => absurd fits.triples (by decide)
    exact ⟨sent, cause, e', hjoint⟩

end JointCircuit
