/-
JointCircuit.Proofs.Disclosure — what an opening gives away.

The parties open a number by sending each other their parts of it, in
full width, and each of them reduces the sum to its effective width by
itself. So the messages of an opening hide nothing of the number (§2): if
they are the same in two evaluations, then so is what they add up to,
whatever is left of it after the reduction. For this the two evaluations
are followed side by side, as one party sees them (§3). If on the other
hand the opened numbers are the same in full width, then other inputs of
a party can be made up for by other material of that party
(`hidden_of_number_eq`).

Main statement: `evaluate_hides_iff` (§4) — over every modulus, there is
a bijection on consistent material that hides other inputs of a party if
and only if every opening has the same number at its operand.
-/
import JointCircuit.Proofs.Conduct
import JointCircuit.Proofs.Privacy

namespace JointCircuit

open scoped Fin.CommRing

variable {m : Modulus} {n : Nat}

/-! ## §1 Numbers that are opened -/

/-- This number is opened at a node: the one at the operand, before it is reduced to its effective
width. -/
def Circuit.Bares (c : Circuit m) (id : NodeId) (a : Element m) : Prop :=
  ∃ x plains counts, c.operation? id = some (.reveal x)
    ∧ Plain.evaluate c {} = .ok plains counts ∧ Plain.scalar plains x = .ok a

/-- What is a number is the number at the node. -/
theorem Plain.scalar_eq_ok_number {plains : List (PlainValue m)} {x : NodeId} {a : Element m}
    (h : scalar plains x = .ok a) : number plains x = a := by
  unfold scalar at h
  split at h
  · rename_i y hy
    cases h
    exact number_eq hy
  · cases h

/-- Every opening opens the number at its operand. -/
theorem Circuit.bares_iff {c : Circuit m} {parties : Nat} (valid : c.validate parties = .ok ())
    {plains : List (PlainValue m)} {counts : PlainCounts}
    (heval : Plain.evaluate c {} = .ok plains counts) (computes : Plain.Computes c plains)
    {id : NodeId} {a : Element m} :
    c.Bares id a ↔ ∃ x, c.operation? id = some (.reveal x) ∧ Plain.number plains x = a := by
  constructor
  · rintro ⟨x, plains', counts', hop, heval', hscalar⟩
    rw [heval] at heval'
    cases heval'
    exact ⟨x, hop, Plain.scalar_eq_ok_number hscalar⟩
  · rintro ⟨x, hop, rfl⟩
    obtain ⟨v, -, hvalue⟩ := computes.value id _ hop
    obtain ⟨a, ha, -⟩ := except_bind_eq_ok.mp hvalue
    have hlt : x < id := operand_lt valid hop (List.mem_singleton.mpr rfl)
    have hscalar : Plain.scalar plains x = .ok a := by
      rwa [Plain.scalar, List.getElem?_take, if_pos hlt] at ha
    exact ⟨x, plains, counts, hop, heval, hscalar.trans
      (congrArg Except.ok (Plain.scalar_eq_ok_number hscalar).symm)⟩

/-! ## §2 The messages of an opening -/

/-- A gate that opens is over after its second round. -/
theorem Gate.done_of_reveal {round : Nat} {p : Reveal m} {gate : Gate m} {w w' : Participant m}
    {status : Status} (h : evaluate (round + 1) (.reveal p, w) = .ok status (gate, w')) :
    status = .done := by
  cases branch h with
  | reveal act =>
    rw [Reveal.status_eq act]
    exact Status.before_of_le (Nat.le_add_left 1 round)

/-- What a gate leaves in flight when it is advanced belongs to its node. -/
theorem Evaluator.id_of_advance {s s' : Schedule m} {flight : InFlight m}
    {still : List (InFlight m)} {e e' : Evaluator m}
    (h : advance s flight e = .finished (.ok (s', still), e')) {f : InFlight m}
    (hf : f ∈ still) : f.id = flight.id := by
  obtain ⟨_, _, -, ⟨-, -, rfl, -⟩ | ⟨-, rfl, -⟩⟩ := advance_eq_ok h
  · rw [List.mem_singleton.mp hf]
  · cases hf

namespace Setting

variable {σ : Setting m n} {waiting waiting' : Finset NodeId} {due past still : List (Flight m n)}
  {f : Flight m n} {s s' : Fin n → Schedule m} {e e' : Fin n → Evaluator m} {id : NodeId}
  {rest : List NodeId} {gates : Fin n → Gate m}

/-- If the gate in flight is an opening, its messages are the parts of the number at its operand. -/
def Bares (σ : Setting m n) (f : Flight m n) : Prop :=
  ∀ y, σ.circuit.operation? f.id = some (.reveal y) →
    ∃ part : Fin n → AuthShare m, Shared σ.key part (Plain.number σ.plains y)
      ∧ (∀ i, f.gates i = .reveal { share := part i }) ∧ f.round = 1
      ∧ ∀ i k, f.cue i k = [(part i).share.toBytes]

/-- An opening in flight does not stay there. -/
theorem Bares.advance (h : σ.Bares f) {i : Fin n} {t t' : Schedule m} {u u' : Evaluator m}
    (hadvance : Evaluator.advance t (f.at i) u
      = .finished (.ok (t', still.map (·.at i)), u')) : ∀ g ∈ still, σ.Bares g := by
  intro g hg y hop
  have hmem : g.at i ∈ still.map (·.at i) := List.mem_map_of_mem hg
  have hid : g.id = f.id := Evaluator.id_of_advance hadvance hmem
  rw [hid] at hop
  obtain ⟨part, -, hgates, hround, -⟩ := h y hop
  obtain ⟨status, gate, heval, ⟨rfl, -⟩ | ⟨-, hnil, -⟩⟩ := Evaluator.advance_eq_ok hadvance
  · have heval : Gate.evaluate f.round (f.gates i, u.participant)
        = .ok .more (gate, u'.participant) := heval
    rw [hround, hgates i] at heval
    cases Gate.done_of_reveal heval
  · rw [hnil] at hmem
    cases hmem

/-- The gates for an opening are about the parts of the number at its operand. -/
theorem Midway.gates_of_reveal [NeZero n] (h : σ.Midway waiting [] past s e)
    (hgates : ∀ i, Schedule.gate { s i with ready := rest } id = .ok (gates i)) {y : NodeId}
    (hop : σ.circuit.operation? id = some (.reveal y)) :
    ∃ part : Fin n → AuthShare m, Shared σ.key part (Plain.number σ.plains y)
      ∧ ∀ i, gates i = .reveal { share := part i } := by
  obtain ⟨values, agreed⟩ := h.agreed
  have hshare : ∀ i, ∃ a, Gate.shareOf (valuesAt i values) y = .ok a
      ∧ gates i = .reveal { share := a } := by
    intro i
    obtain ⟨v, hshows, hbuilt⟩ := agreed.gate_eq_ok hop (hgates i)
    obtain rfl := hshows.eq (by simp)
    obtain ⟨a, ha, hgate⟩ := except_bind_eq_ok.mp hbuilt
    exact ⟨a, ha, (Except.ok.inj hgate).symm⟩
  obtain ⟨a, ha, -⟩ := hshare 0
  obtain ⟨part, hpart, -, hvalues⟩ := agreed.known.share_eq ha
  refine ⟨part, hpart, fun i => ?_⟩
  obtain ⟨b, hb, hbuilt⟩ := hshare i
  rw [Gate.shareOf, Gate.operand, hvalues i] at hb
  rw [hbuilt, ← Except.ok.inj hb]

/-- A gate for an opening sends the parts of the number at its operand, and stays in flight. -/
theorem Midway.bares_start [NeZero n] (h : σ.Midway waiting [] past s e)
    (hgates : ∀ i, Schedule.gate { s i with ready := rest } id = .ok (gates i))
    (hadvance : ∀ i, Evaluator.advance { s i with ready := rest } ⟨id, gates i, 0⟩ (e i)
      = .finished (.ok (s' i, still.map (·.at i)), e' i))
    (h' : σ.Midway waiting' [] (past ++ still) s' e') {y : NodeId}
    (hop : σ.circuit.operation? id = some (.reveal y)) (j : Fin n) :
    (∀ f ∈ still, σ.Bares f) ∧ s' j = { s j with ready := rest } := by
  obtain ⟨part, hpart, hgate⟩ := h.gates_of_reveal hgates hop
  obtain ⟨pools, -, seats⟩ := h.seats
  obtain ⟨pools', -, seats'⟩ := h'.seats
  have hsends : ∀ i, s' i = { s i with ready := rest }
      ∧ still.map (·.at i) = [⟨id, gates i, 1⟩]
      ∧ (fun k => traffic (past ++ still) i k)
        = fun k => traffic past i k ++ [(part i).share.toBytes] := by
    intro i
    have hturn : Turn (n := n) (Gate.evaluate 0) (gates i) (pools i) (fun _ => []) (.ok .more)
        (gates i) (pools i) fun _ => [(part i).share.toBytes] := by
      rw [hgate i]
      exact turn_of_within (fun p w => Gate.evaluate_reveal 0 p w)
        (Reveal.turn_send { share := part i } (pools i))
    obtain ⟨u, hmore, hat⟩ := Evaluator.advance_more { s i with ready := rest } ⟨id, gates i, 0⟩
      hturn (seats i)
    obtain ⟨hs, hstill, he⟩ := Evaluator.finished_unique hmore (hadvance i)
    exact ⟨hs, hstill, ((he ▸ seats' i).unique hat).1⟩
  refine ⟨fun f hf => ?_, (hsends j).1⟩
  obtain ⟨g, rfl⟩ : ∃ g, still = [g] := by
    have hlength := congrArg List.length (hsends j).2.1
    rw [List.length_map] at hlength
    exact List.length_eq_one_iff.mp hlength
  obtain rfl := List.mem_singleton.mp hf
  have hat : ∀ i, f.at i = ⟨id, gates i, 1⟩ := fun i => List.singleton_inj.mp (hsends i).2.1
  intro z hz
  have hid : f.id = id := congrArg Evaluator.InFlight.id (hat j)
  rw [hid, hop] at hz
  cases hz
  refine ⟨part, hpart, fun i => ?_, congrArg Evaluator.InFlight.round (hat j), fun i k => ?_⟩
  · exact (congrArg Evaluator.InFlight.gate (hat i)).trans (hgate i)
  · have hcue := congrFun (hsends i).2.2 k
    simp only [traffic_append] at hcue
    have hcue := List.append_cancel_left hcue
    simpa [traffic] using hcue

end Setting

/-! ## §3 Two evaluations as one party sees them -/

/-- A joint evaluation in the middle of a round. -/
structure Juncture (m : Modulus) (n : Nat) where
  due : List (Flight m n)
  past : List (Flight m n)
  schedules : Fin n → Schedule m
  evaluators : Fin n → Evaluator m

namespace Juncture

/-- The parties are in the middle of a round, and everything that they open is in their
messages. -/
structure Bared (σ : Setting m n) (x : Juncture m n) : Prop where
  midway : ∃ waiting, σ.Midway waiting x.due x.past x.schedules x.evaluators
  bares : ∀ f ∈ x.due ++ x.past, σ.Bares f

/-- A step of every party that succeeds at once. -/
def Steps (step : Fin n → Eval m (Schedule m × List (Evaluator.InFlight m))) (x y : Juncture m n)
    (still : List (Flight m n)) : Prop :=
  ∀ i, step i (x.evaluators i)
    = .finished (.ok (y.schedules i, still.map (·.at i)), y.evaluators i)

variable {σ : Setting m n} {x : Juncture m n}

theorem Bared.advance (h : x.Bared σ) {f : Flight m n} {due : List (Flight m n)}
    (hdue : x.due = f :: due) (j : Fin n) :
    ∃ (y : Juncture m n) (still : List (Flight m n)),
      x.Steps (fun i => Evaluator.advance (x.schedules i) (f.at i)) y still
      ∧ y.due = due ∧ y.past = x.past ++ still ∧ y.Bared σ := by
  obtain ⟨waiting, midway⟩ := h.midway
  rw [hdue] at midway
  obtain ⟨still, s, e, hadvance, h₁, -⟩ := midway.advance
  have hf : σ.Bares f := h.bares f (by simp [hdue])
  refine ⟨⟨due, x.past ++ still, s, e⟩, still, hadvance, rfl, rfl, ⟨waiting, h₁⟩, fun g hg => ?_⟩
  rw [← List.append_assoc] at hg
  rcases List.mem_append.mp hg with hg | hg
  · exact h.bares g (by
      rw [hdue, List.cons_append]
      exact List.mem_cons_of_mem _ hg)
  · exact hf.advance (hadvance j) g hg

theorem Bared.start [NeZero n] (h : x.Bared σ) (hdue : x.due = []) {id : NodeId}
    {rest : List NodeId} {j : Fin n} (hready : (x.schedules j).ready = id :: rest) :
    (∀ i, (x.schedules i).ready = id :: rest) ∧ ∃ gates : Fin n → Gate m,
      (∀ i, Schedule.gate { x.schedules i with ready := rest } id = .ok (gates i))
      ∧ ∃ (y : Juncture m n) (still : List (Flight m n)),
        x.Steps (fun i => Evaluator.advance { x.schedules i with ready := rest } ⟨id, gates i, 0⟩) y
          still
        ∧ y.due = [] ∧ y.past = x.past ++ still ∧ y.Bared σ
        ∧ ∀ z, σ.circuit.operation? id = some (.reveal z) →
          y.schedules j = { x.schedules j with ready := rest } := by
  obtain ⟨waiting, midway⟩ := h.midway
  rw [hdue] at midway
  obtain ⟨values, agreed⟩ := midway.agreed
  have hall : ∀ i, (x.schedules i).ready = id :: rest :=
    fun i => (agreed.ready_eq i j).trans hready
  obtain ⟨-, gates, hgates, still, s, e, hadvance, h₁, -⟩ := midway.start hall
  refine ⟨hall, gates, hgates, ⟨[], x.past ++ still, s, e⟩, still, hadvance, rfl, rfl,
    ⟨⟨_, h₁⟩, fun g hg => ?_⟩,
    fun z hop => (midway.bares_start hgates hadvance h₁ hop j).2⟩
  rw [List.nil_append] at hg
  rcases List.mem_append.mp hg with hg | hg
  · exact h.bares g (List.mem_append_right _ hg)
  · intro z hop
    have hid : g.id = id := Evaluator.id_of_advance (hadvance j) (List.mem_map_of_mem hg)
    rw [hid] at hop
    exact (midway.bares_start hgates hadvance h₁ hop j).1 g hg z (hid ▸ hop)

theorem Bared.flush (h : x.Bared σ) (hdue : x.due = []) :
    ∃ (frames : Fin n → List Frame) (y : Juncture m n),
      Joint (fun i => Evaluator.flush (x.evaluators i)) [frames] (fun i => (.ok (), y.evaluators i))
      ∧ y.due = x.past ∧ y.past = [] ∧ y.schedules = x.schedules ∧ y.Bared σ := by
  obtain ⟨waiting, midway⟩ := h.midway
  rw [hdue] at midway
  obtain ⟨frames, e, hflush, h₁⟩ := midway.flush
  refine ⟨frames, ⟨x.past, [], x.schedules, e⟩, hflush, rfl, rfl, rfl, ⟨waiting, h₁⟩,
    fun f hf => ?_⟩
  rw [List.append_nil] at hf
  exact h.bares f (List.mem_append_right _ hf)

end Juncture

namespace Juncture

variable {σ : Setting m n} {x : Juncture m n}

/-- All parties have circuits of one size. -/
theorem Bared.size_eq (h : x.Bared σ) (i : Fin n) :
    (x.schedules i).circuit.size = σ.circuit.size := by
  obtain ⟨waiting, midway⟩ := h.midway
  exact midway.size_eq i

/-- All parties have the same nodes ready. -/
theorem Bared.ready_eq (h : x.Bared σ) (i k : Fin n) :
    (x.schedules i).ready = (x.schedules k).ready := by
  obtain ⟨waiting, midway⟩ := h.midway
  exact midway.ready_eq i k

/-- After as many starts as there are nodes, none is ready. -/
theorem Bared.ready_eq_nil [NeZero n] (h : x.Bared σ) (hdue : x.due = []) {y : Juncture m n}
    {started : List (Flight m n)}
    (hstart : x.Steps (fun i => Evaluator.startReady σ.circuit.size (x.schedules i)) y started)
    (i : Fin n) : (y.schedules i).ready = [] := by
  obtain ⟨waiting, midway⟩ := h.midway
  rw [hdue] at midway
  obtain ⟨_, _, s, e, hsame, -, hready, -⟩ := midway.startReady midway.card_waiting_le
  rw [(Evaluator.finished_unique (hsame i) (hstart i)).1]
  exact hready i

end Juncture

/-- Two evaluations that are the same to `j`, which has seen every number that has been opened. -/
structure Mirror (σ σ' : Setting m n) (j : Fin n) (x x' : Juncture m n) : Prop where
  bared : x.Bared σ
  bared' : x'.Bared σ'
  due : x'.due.map (·.at j) = x.due.map (·.at j)
  past : x'.past.map (·.at j) = x.past.map (·.at j)
  schedules : x'.schedules j = x.schedules j
  evaluators : x'.evaluators j = x.evaluators j
  told : ∀ id y, σ.circuit.operation? id = some (.reveal y) →
    (x.schedules j).value? id ≠ none → Plain.number σ.plains y = Plain.number σ'.plains y

namespace Mirror

variable {σ σ' : Setting m n} {j : Fin n} {x x' : Juncture m n}

/-- If nothing has a value yet, nothing has been opened. -/
theorem begin {waiting waiting' : Finset NodeId} {s s' : Fin n → Schedule m}
    {e e' : Fin n → Evaluator m} (h : σ.Midway waiting [] [] s e)
    (h' : σ'.Midway waiting' [] [] s' e') (hs : s' j = s j) (he : e' j = e j)
    (hnone : ∀ id, (s j).value? id = none) :
    Mirror σ σ' j ⟨[], [], s, e⟩ ⟨[], [], s', e'⟩ where
  bared := ⟨⟨_, h⟩, fun _ hf => absurd hf List.not_mem_nil⟩
  bared' := ⟨⟨_, h'⟩, fun _ hf => absurd hf List.not_mem_nil⟩
  due := rfl
  past := rfl
  schedules := hs
  evaluators := he
  told id _ _ hvalue := absurd (hnone id) hvalue

/-- The parts of an opened number have arrived in both evaluations, and they are the same. -/
theorem number_eq (h : Mirror σ σ' j x x') {f f' : Flight m n} {due due' : List (Flight m n)}
    (hdue : x.due = f :: due) (hdue' : x'.due = f' :: due') {y : NodeId}
    (hop : σ.circuit.operation? f.id = some (.reveal y))
    (hop' : σ'.circuit.operation? f'.id = some (.reveal y)) :
    Plain.number σ.plains y = Plain.number σ'.plains y := by
  obtain ⟨part, hpart, -, -, hcue⟩ := h.bared.bares f (by simp [hdue]) y hop
  obtain ⟨part', hpart', -, -, hcue'⟩ := h.bared'.bares f' (by simp [hdue']) y hop'
  obtain ⟨waiting, midway⟩ := h.bared.midway
  obtain ⟨waiting', midway'⟩ := h.bared'.midway
  obtain ⟨pools, -, seats⟩ := midway.seats
  obtain ⟨pools', -, seats'⟩ := midway'.seats
  have harrived := (h.evaluators ▸ seats' j).unique (seats j)
  rw [hdue, hdue'] at harrived
  have hshare : ∀ i, (part i).share = (part' i).share := by
    intro i
    have hqueue := congrFun harrived.2 i
    simp only [traffic, List.flatMap_cons, hcue, hcue', List.singleton_append] at hqueue
    have hbytes := (List.cons.inj hqueue).1
    have hdecoded := Element.ofBytes_eq_ok_iff.mpr hbytes.symm
    rw [Element.ofBytes_eq_ok_iff.mpr rfl] at hdecoded
    exact Except.ok.inj hdecoded
  rw [← hpart.share, ← hpart'.share]
  exact Finset.sum_congr rfl fun i _ => hshare i

/-- Equal evaluators of `j` do the same with the same gates. -/
theorem same_step {y y' : Juncture m n} {still still' : List (Flight m n)}
    {step step' : Fin n → Eval m (Schedule m × List (Evaluator.InFlight m))}
    (h : x'.evaluators j = x.evaluators j) (hj : step' j = step j) (hstep : x.Steps step y still)
    (hstep' : x'.Steps step' y' still') :
    still'.map (·.at j) = still.map (·.at j) ∧ y'.schedules j = y.schedules j
      ∧ y'.evaluators j = y.evaluators j := by
  have hsame := hstep' j
  rw [h, hj] at hsame
  obtain ⟨hs, hstill, he⟩ := Evaluator.finished_unique (hstep j) hsame
  exact ⟨hstill, hs, he⟩

variable (same : ∀ id y, σ.circuit.operation? id = some (.reveal y) →
  σ'.circuit.operation? id = some (.reveal y))

include same

/-- The first due gate is advanced in both evaluations. -/
theorem advance (h : Mirror σ σ' j x x') {f : Flight m n} {due : List (Flight m n)}
    (hdue : x.due = f :: due) :
    ∃ (f' : Flight m n) (due' : List (Flight m n)), x'.due = f' :: due' ∧
      ∃ (y y' : Juncture m n) (still still' : List (Flight m n)),
        x.Steps (fun i => Evaluator.advance (x.schedules i) (f.at i)) y still
        ∧ x'.Steps (fun i => Evaluator.advance (x'.schedules i) (f'.at i)) y' still'
        ∧ (y.due = due ∧ y.past = x.past ++ still) ∧ (y'.due = due' ∧ y'.past = x'.past ++ still')
        ∧ Mirror σ σ' j y y' := by
  have hflights := h.due
  rw [hdue, List.map_cons] at hflights
  obtain ⟨f', due', hdue', hf, hrest⟩ := List.map_eq_cons_iff.mp hflights
  obtain ⟨y, still, hstep, hydue, hypast, bared⟩ := h.bared.advance hdue j
  obtain ⟨y', still', hstep', hydue', hypast', bared'⟩ := h.bared'.advance hdue' j
  obtain ⟨hstill, hschedule, hevaluator⟩ :=
    same_step h.evaluators (by rw [hf, h.schedules]) hstep hstep'
  refine ⟨f', due', hdue', y, y', still, still', hstep, hstep', ⟨hydue, hypast⟩,
    ⟨hydue', hypast'⟩, bared, bared', ?_, ?_, hschedule, hevaluator, fun id z hop hvalue => ?_⟩
  · rw [hydue, hydue', hrest]
  · rw [hypast, hypast', List.map_append, List.map_append, hstill, h.past]
  · by_cases hid : id = f.id
    · have hid' : id = f'.id := hid.trans (congrArg Evaluator.InFlight.id hf).symm
      exact h.number_eq hdue hdue' (hid ▸ hop) (hid' ▸ same id z hop)
    · refine h.told id z hop ?_
      obtain ⟨_, _, -, ⟨-, hs, -⟩ | ⟨-, -, value, -, hs, -⟩⟩ := Evaluator.advance_eq_ok (hstep j)
      · rwa [hs] at hvalue
      · obtain ⟨waiting, midway⟩ := h.bared.midway
        obtain ⟨values, agreed⟩ := midway.agreed
        rw [hdue] at agreed
        have hvalue' := (agreed.sound j).value?_complete value id
        rw [if_neg hid] at hvalue'
        rw [hs] at hvalue
        exact fun hnone => hvalue (hvalue'.trans hnone)

theorem advanceAll (h : Mirror σ σ' j x x') :
    ∃ (y y' : Juncture m n) (still still' : List (Flight m n)),
      x.Steps (fun i => Evaluator.advanceAll (x.schedules i) (x.due.map (·.at i))) y still
      ∧ x'.Steps (fun i => Evaluator.advanceAll (x'.schedules i) (x'.due.map (·.at i))) y' still'
      ∧ (y.due = [] ∧ y.past = x.past ++ still) ∧ (y'.due = [] ∧ y'.past = x'.past ++ still')
      ∧ Mirror σ σ' j y y' := by
  generalize hdue : x.due = due
  induction due generalizing x x' with
  | nil =>
    have hnil : x'.due = [] := by
      have hflights := h.due
      rw [hdue] at hflights
      exact List.map_eq_nil_iff.mp hflights
    refine ⟨x, x', [], [], fun i => rfl, fun i => ?_, ⟨hdue, (List.append_nil _).symm⟩,
      ⟨hnil, (List.append_nil _).symm⟩, h⟩
    rw [hnil]
    rfl
  | cons f due ih =>
    obtain ⟨f', due', hdue', y, y', still, still', hstep, hstep', ⟨hydue, hypast⟩,
      ⟨hydue', hypast'⟩, h₁⟩ := h.advance same hdue
    obtain ⟨z, z', others, others', hrest, hrest', ⟨hzdue, hzpast⟩, ⟨hzdue', hzpast'⟩, h₂⟩ :=
      ih h₁ hydue
    rw [hdue']
    rw [hydue'] at hrest'
    refine ⟨z, z', still ++ others, still' ++ others', Flight.advanceAll_cons hstep hrest,
      Flight.advanceAll_cons hstep' hrest', ⟨hzdue, ?_⟩, ⟨hzdue', ?_⟩, h₂⟩
    · rw [hzpast, hypast, List.append_assoc]
    · rw [hzpast', hypast', List.append_assoc]

omit same

/-- The lowest ready node is started in both evaluations. -/
theorem start [NeZero n] (h : Mirror σ σ' j x x') (hdue : x.due = []) (hdue' : x'.due = [])
    {id : NodeId} {rest : List NodeId} (hready : (x.schedules j).ready = id :: rest) :
    ∃ gates gates' : Fin n → Gate m,
      (∀ i, (x.schedules i).ready = id :: rest)
      ∧ (∀ i, Schedule.gate { x.schedules i with ready := rest } id = .ok (gates i))
      ∧ (∀ i, (x'.schedules i).ready = id :: rest)
      ∧ (∀ i, Schedule.gate { x'.schedules i with ready := rest } id = .ok (gates' i))
      ∧ ∃ (y y' : Juncture m n) (still still' : List (Flight m n)),
        x.Steps (fun i => Evaluator.advance { x.schedules i with ready := rest } ⟨id, gates i, 0⟩) y
          still
        ∧ x'.Steps
          (fun i => Evaluator.advance { x'.schedules i with ready := rest } ⟨id, gates' i, 0⟩) y'
          still'
        ∧ (y.due = [] ∧ y.past = x.past ++ still) ∧ (y'.due = [] ∧ y'.past = x'.past ++ still')
        ∧ Mirror σ σ' j y y' := by
  have hready' : (x'.schedules j).ready = id :: rest := by rw [h.schedules, hready]
  obtain ⟨hall, gates, hgates, y, still, hstep, hydue, hypast, bared, hquiet⟩ :=
    h.bared.start hdue hready
  obtain ⟨hall', gates', hgates', y', still', hstep', hydue', hypast', bared', -⟩ :=
    h.bared'.start hdue' hready'
  have hgate : gates' j = gates j := by
    have hbuilt := hgates' j
    rw [h.schedules, hgates j] at hbuilt
    exact (Except.ok.inj hbuilt).symm
  obtain ⟨hstill, hschedule, hevaluator⟩ :=
    same_step h.evaluators (by rw [hgate, h.schedules]) hstep hstep'
  refine ⟨gates, gates', hall, hgates, hall', hgates', y, y', still, still', hstep, hstep',
    ⟨hydue, hypast⟩, ⟨hydue', hypast'⟩, bared, bared', by rw [hydue, hydue'], ?_, hschedule,
    hevaluator, fun k z hop hvalue => h.told k z hop ?_⟩
  · rw [hypast, hypast', List.map_append, List.map_append, hstill, h.past]
  · by_cases hk : k = id
    · -- An opening is not over when it has been started.
      rw [hquiet z (hk ▸ hop)] at hvalue
      exact hvalue
    · obtain ⟨_, _, -, ⟨-, hs, -⟩ | ⟨-, -, value, -, hs, -⟩⟩ := Evaluator.advance_eq_ok (hstep j)
      · rw [hs] at hvalue
        exact hvalue
      · obtain ⟨waiting, midway⟩ := h.bared.midway
        obtain ⟨values, agreed⟩ := midway.agreed
        have hsound := (agreed.sound j).start (hall j)
        rw [hs, hsound.value?_complete value, if_neg hk] at hvalue
        exact hvalue

/-- Nodes are started in both evaluations until none is ready. -/
theorem startReady [NeZero n] (h : Mirror σ σ' j x x') (hdue : x.due = []) (hdue' : x'.due = [])
    (budget : Nat) :
    ∃ (y y' : Juncture m n) (started started' : List (Flight m n)),
      x.Steps (fun i => Evaluator.startReady budget (x.schedules i)) y started
      ∧ x'.Steps (fun i => Evaluator.startReady budget (x'.schedules i)) y' started'
      ∧ (y.due = [] ∧ y.past = x.past ++ started) ∧ (y'.due = [] ∧ y'.past = x'.past ++ started')
      ∧ Mirror σ σ' j y y' := by
  induction budget generalizing x x' with
  | zero =>
    exact ⟨x, x', [], [], fun i => rfl, fun i => rfl, ⟨hdue, (List.append_nil _).symm⟩,
      ⟨hdue', (List.append_nil _).symm⟩, h⟩
  | succ budget ih =>
    cases hready : (x.schedules j).ready with
    | nil =>
      have hnil : ∀ i, (x.schedules i).ready = [] := fun i =>
        (h.bared.ready_eq i j).trans hready
      have hnil' : ∀ i, (x'.schedules i).ready = [] := fun i =>
        (h.bared'.ready_eq i j).trans ((congrArg Schedule.ready h.schedules).trans hready)
      exact ⟨x, x', [], [], fun i => Evaluator.startReady_nil (hnil i) _,
        fun i => Evaluator.startReady_nil (hnil' i) _, ⟨hdue, (List.append_nil _).symm⟩,
        ⟨hdue', (List.append_nil _).symm⟩, h⟩
    | cons id rest =>
      obtain ⟨gates, gates', hall, hgates, hall', hgates', y, y', still, still', hstep, hstep',
        ⟨hydue, hypast⟩, ⟨hydue', hypast'⟩, h₁⟩ := h.start hdue hdue' hready
      obtain ⟨z, z', others, others', hrest, hrest', ⟨hzdue, hzpast⟩, ⟨hzdue', hzpast'⟩, h₂⟩ :=
        ih h₁ hydue hydue'
      refine ⟨z, z', still ++ others, still' ++ others',
        Flight.startReady_cons hall hgates hstep hrest,
        Flight.startReady_cons hall' hgates' hstep' hrest', ⟨hzdue, ?_⟩, ⟨hzdue', ?_⟩, h₂⟩
      · rw [hzpast, hypast, List.append_assoc]
      · rw [hzpast', hypast', List.append_assoc]

/-- What is queued is exchanged in both evaluations. If it is the same, the party cannot tell them
apart afterwards. -/
theorem flush (h : Mirror σ σ' j x x') (hdue : x.due = []) (hdue' : x'.due = []) :
    ∃ (frames frames' : Fin n → List Frame) (y y' : Juncture m n),
      Joint (fun i => Evaluator.flush (x.evaluators i)) [frames] (fun i => (.ok (), y.evaluators i))
      ∧ Joint (fun i => Evaluator.flush (x'.evaluators i)) [frames']
        (fun i => (.ok (), y'.evaluators i))
      ∧ (y.due = x.past ∧ y.past = [] ∧ y.schedules = x.schedules)
      ∧ (y'.due = x'.past ∧ y'.past = [] ∧ y'.schedules = x'.schedules)
      ∧ (frames = frames' → Mirror σ σ' j y y') := by
  obtain ⟨frames, y, hflush, hydue, hypast, hys, bared⟩ := h.bared.flush hdue
  obtain ⟨frames', y', hflush', hydue', hypast', hys', bared'⟩ := h.bared'.flush hdue'
  refine ⟨frames, frames', y, y', hflush, hflush', ⟨hydue, hypast, hys⟩, ⟨hydue', hypast', hys'⟩,
    fun heq => ⟨bared, bared', ?_, ?_, ?_, ?_, ?_⟩⟩
  · rw [hydue, hydue', h.past]
  · rw [hypast, hypast']
  · rw [hys, hys', h.schedules]
  · subst heq
    exact congrArg Prod.snd (hflush.result_eq hflush' (congrArg Evaluator.flush h.evaluators))
  · rw [hys]
    exact h.told

/-- When nothing is in flight and nothing can be started, everything has been opened. -/
theorem number_eq_of_idle (h : Mirror σ σ' j x x') (hdue : x.due = []) (hpast : x.past = [])
    (hready : ∀ i, (x.schedules i).ready = []) {id y : NodeId}
    (hop : σ.circuit.operation? id = some (.reveal y)) :
    Plain.number σ.plains y = Plain.number σ'.plains y := by
  obtain ⟨waiting, midway⟩ := h.bared.midway
  rw [hdue, hpast] at midway
  have hlt : id < (x.schedules j).circuit.size := by
    rw [midway.size_eq j]
    exact (List.getElem?_eq_some_iff.mp hop).1
  exact h.told id y hop (midway.all_settled hready j hlt)

include same

/-- If the two evaluations send the same, they open the same numbers. -/
theorem runGates [NeZero n] {budget : Nat} (h : Mirror σ σ' j x x') (hpast : x.past = [])
    (hpast' : x'.past = []) {total sent sent' : List (Fin n → List Frame)}
    (hsent : sent <+: total) (hsent' : sent' <+: total) {t t' : Fin n → Schedule m}
    {e e' : Fin n → Evaluator m}
    (hrun : Joint (fun i => Evaluator.runGates budget (x.schedules i) (x.due.map (·.at i))
      (x.evaluators i)) sent fun i => (.ok (t i), e i))
    (hrun' : Joint (fun i => Evaluator.runGates budget (x'.schedules i) (x'.due.map (·.at i))
      (x'.evaluators i)) sent' fun i => (.ok (t' i), e' i)) {id y : NodeId}
    (hop : σ.circuit.operation? id = some (.reveal y)) :
    Plain.number σ.plains y = Plain.number σ'.plains y := by
  induction budget generalizing x x' total sent sent' with
  | zero =>
    obtain ⟨-, hresults⟩ := hrun.unique (.of_finished fun i => rfl)
    cases congrArg Prod.fst (congrFun hresults j)
  | succ budget ih =>
    obtain ⟨y₁, y₁', still, still', hadvance, hadvance', ⟨hdue₁, hpast₁⟩, ⟨hdue₁', hpast₁'⟩, h₁⟩ :=
      h.advanceAll same
    have hsize : σ'.circuit.size = σ.circuit.size := by
      rw [← h₁.bared.size_eq j, ← h₁.bared'.size_eq j, h₁.schedules]
    obtain ⟨y₂, y₂', started, started', hstart, hstart', ⟨hdue₂, hpast₂⟩, ⟨hdue₂', hpast₂'⟩, h₂⟩ :=
      h₁.startReady hdue₁ hdue₁' σ.circuit.size
    have hstart₁ : y₁.Steps (fun i => Evaluator.startReady (y₁.schedules i).circuit.size
        (y₁.schedules i)) y₂ started := fun i => by
      dsimp only
      rw [h₁.bared.size_eq i]
      exact hstart i
    have hstart₁' : y₁'.Steps (fun i => Evaluator.startReady (y₁'.schedules i).circuit.size
        (y₁'.schedules i)) y₂' started' := fun i => by
      dsimp only
      rw [h₁.bared'.size_eq i, hsize]
      exact hstart' i
    rw [hpast₁, hpast, List.nil_append] at hpast₂
    rw [hpast₁', hpast', List.nil_append] at hpast₂'
    by_cases hflights : still ++ started = []
    · exact h₂.number_eq_of_idle hdue₂ (hpast₂.trans hflights)
        (h₁.bared.ready_eq_nil hdue₁ hstart) hop
    · have hflights' : still' ++ started' ≠ [] := fun hnil => hflights (by
        have hsame := h₂.past
        rw [hpast₂, hpast₂', hnil] at hsame
        exact List.map_eq_nil_iff.mp hsame.symm)
      obtain ⟨frames, frames', z, z', hflush, hflush', ⟨hdue₃, hpast₃, hs₃⟩,
        ⟨hdue₃', hpast₃', hs₃'⟩, h₃⟩ := h₂.flush hdue₂ hdue₂'
      obtain ⟨rest, rfl, hrest⟩ := Evaluator.joint_split hflush
        (hrun.congr fun i => (Flight.runGates_cons hadvance hstart₁ hflights i).symm)
      obtain ⟨rest', rfl, hrest'⟩ := Evaluator.joint_split hflush'
        (hrun'.congr fun i => (Flight.runGates_cons hadvance' hstart₁' hflights' i).symm)
      obtain ⟨later, rfl⟩ := hsent
      obtain ⟨hframes, hlater⟩ := List.cons_prefix_cons.mp hsent'
      refine ih (h₃ hframes.symm) hpast₃ hpast₃' (List.prefix_append rest later) hlater ?_ ?_
      · rw [hdue₃, hpast₂, hs₃]
        exact hrest
      · rw [hdue₃', hpast₂', hs₃']
        exact hrest'

end Mirror

/-! ## §4 Two evaluations of all parties -/

/-- The data of a party that was dealt nothing. -/
def DealtData.nothing (n : Nat) (i : Fin n) : DealtData m :=
  ⟨n, i + 1, 0, [], List.replicate n [], []⟩

theorem consistent_nothing : Consistent (DealtData.nothing (m := m) n) 0 fun _ => 0 where
  party _ := rfl
  parties _ := rfl
  length_triples _ := rfl
  length_masks _ := by simp [DealtData.nothing]
  length_plaintexts _ := rfl
  stocked :=
    ⟨fun _ hk => absurd hk (Nat.not_lt_zero _), fun _ _ hk => absurd hk (Nat.not_lt_zero _)⟩

/-- So many zeros of everything. -/
def Material.zeros (m : Modulus) (n count : Nat) : Material m n :=
  ⟨fun i => (DealtData.nothing n i).padded count, _, _, consistent_nothing.padded count⟩

/-- A reassignment leaves the openings where they are. -/
theorem Circuit.Reassigns.operation?_reveal {c c' : Circuit m} {party : Nat}
    (h : c.Reassigns party c') {id x : NodeId} (hop : c.operation? id = some (.reveal x)) :
    c'.operation? id = some (.reveal x) := by
  obtain ⟨op', hop', hre⟩ := h.exists_operation hop
  obtain rfl := hre.eq (by simp)
  exact hop'

/-- How much there is of everything can be read off the data of any party. -/
theorem Consistent.counts_eq {data data' : Fin n → DealtData m} {triples triples' : Nat}
    {masks masks' : Fin n → Nat} (h : Consistent data triples masks)
    (h' : Consistent data' triples' masks') {j : Fin n} (hj : data' j = data j) :
    triples' = triples ∧ masks' = masks := by
  constructor
  · rw [← h.length_triples j, ← h'.length_triples j, hj]
  · refine List.ofFn_injective ?_
    rw [← h.length_masks j, ← h'.length_masks j, hj]

/-- A party that has not agreed on a seed does so, and evaluates its gates. -/
theorem Evaluator.evaluate_fresh {c : Circuit m} {e : Evaluator m}
    (hvalid : c.validate e.participant.pool.parties = .ok ())
    (hfresh : e.participant.pool.hasJointRandomness = false) :
    evaluate c e = (initializeJointRandomness >>= fun _ =>
      runGates (roundBudget c.size) (.new c) [] >>= deliver : Eval m _) e := by
  rw [evaluate_eq, bind_of_ok (onPool_get e), hvalid, bind_of_ok (ofExcept_ok _ _ _),
    bind_of_ok (onPool_get e), hfresh]
  rfl

/-- Parties with consistent data that suffices agree on a seed, and complete the rounds of their
gates: what they send in an evaluation begins with what they send for that. -/
theorem Consistent.seeds_and_gates [NeZero n] {σ : Setting m n} {data : Fin n → DealtData m}
    {triples : Nat} {masks : Fin n → Nat} (h : Consistent data triples masks)
    (hkey : ∀ i, (data i).keyShare = σ.key i)
    (htriples : σ.circuit.demand (·.triples) (Finset.range σ.circuit.size) + σ.triples ≤ triples)
    (hmasks : ∀ o, σ.circuit.demand (·.masks o) (Finset.range σ.circuit.size) + σ.masks o ≤ masks o)
    {views : Fin n → Circuit m} (shows : ∀ i : Fin n, σ.circuit.Shows (i + 1) (views i))
    {seeds : Fin n → Seed} {sent : List (Fin n → List Frame)}
    {results : Fin n → Except Fault (Outputs m) × Evaluator m}
    (joint : Joint (fun i => Evaluator.evaluate (views i) (.dealt (data i) (seeds i))) sent
      results) :
    ∃ (seeding gates later : List (Fin n → List Frame)) (e e' : Fin n → Evaluator m)
      (s : Fin n → Schedule m),
      sent = seeding ++ (gates ++ later)
      ∧ Joint (fun i => Evaluator.initializeJointRandomness (.dealt (data i) (seeds i))) seeding
        (fun i => (.ok (), e i))
      ∧ σ.Midway (Finset.range σ.circuit.size) [] [] (fun i => .new (views i)) e
      ∧ Joint (fun i => Evaluator.runGates (Evaluator.roundBudget σ.circuit.size)
        (.new (views i)) [] (e i)) gates (fun i => (.ok (s i), e' i)) := by
  obtain ⟨seeding, e, hseed, midway, -⟩ := h.seeded hkey htriples hmasks shows seeds
  have hfresh : ∀ i, Evaluator.evaluate (views i) (.dealt (data i) (seeds i))
      = (Evaluator.initializeJointRandomness >>= fun _ =>
        Evaluator.runGates (Evaluator.roundBudget σ.circuit.size) (.new (views i)) []
          >>= Evaluator.deliver : Eval m _) (.dealt (data i) (seeds i)) := fun i => by
    rw [← (shows i).size_eq]
    exact Evaluator.evaluate_fresh (h.validate σ.valid shows seeds i) rfl
  obtain ⟨rest, rfl, hrest⟩ := Evaluator.joint_split hseed (joint.congr fun i => (hfresh i).symm)
  have hbudget : lastRound * (Finset.range σ.circuit.size).card
      + roundsLeft ([] : List (Flight m n)) < Evaluator.roundBudget σ.circuit.size
        + ([] : List (Flight m n)).length := by
    simp [roundsLeft, Evaluator.roundBudget]
  obtain ⟨gates, _, s, e', hgates, -, -⟩ := Setting.runGates_joint midway hbudget
  obtain ⟨later, rfl, -⟩ := Evaluator.joint_split hgates hrest
  exact ⟨seeding, gates, later, e, e', s, rfl, hseed, midway, hgates⟩

section

variable {p : Fin n} {c c' : Circuit m} {plains plains' : List (PlainValue m)}
  {views views' : Fin n → Circuit m} (hn : 2 ≤ n) (valid : c.validate n = .ok ())
  (valid' : c'.validate n = .ok ()) (kinded : c.WellKinded) (kinded' : c'.WellKinded)
  (computes : Plain.Computes c plains) (computes' : Plain.Computes c' plains')
  (shows : ∀ i : Fin n, c.Shows (i + 1) (views i))
  (shows' : ∀ i : Fin n, c'.Shows (i + 1) (views' i)) (others : ∀ i ≠ p, views' i = views i)

include hn valid valid' kinded kinded' computes computes' shows shows' others

/-- What is sent shows every number that is opened, in full width. -/
theorem number_eq_of_hidden (reassigns : c.Reassigns (p + 1) c') (hidden : Hidden p views views')
    {id x : NodeId} (hop : c.operation? id = some (.reveal x)) :
    Plain.number plains x = Plain.number plains' x := by
  have hnonzero : NeZero n := ⟨by omega⟩
  have hnontrivial : Nontrivial (Fin n) := Fin.nontrivial_iff_two_le.mpr hn
  obtain ⟨j, hj⟩ := exists_ne p
  obtain ⟨φ, hbut, hsame⟩ := hidden
  -- Nothing runs out with this much of everything.
  let count := c.allNeeds n + c'.allNeeds n
  let D := Material.zeros m n count
  have h : Consistent D.1 (0 + count) fun _ => 0 + count := consistent_nothing.padded count
  obtain ⟨hothers, hown⟩ := hbut D
  obtain ⟨triples, masks, h'⟩ := (φ D).2
  obtain ⟨rfl, rfl⟩ := h.counts_eq h' (hothers j hj)
  have hkey : ∀ i, ((φ D).1 i).keyShare = (D.1 i).keyShare := by
    intro i
    by_cases hi : i = p
    · obtain ⟨_, _, _, hdata⟩ := hown
      rw [hi, hdata]
    · rw [hothers i hi]
  let σ : Setting m n :=
    { key := fun i => (D.1 i).keyShare, circuit := c, plains, triples := 0, masks := fun _ => 0
      valid, kinded, computes }
  let σ' : Setting m n :=
    { key := fun i => (D.1 i).keyShare, circuit := c', plains := plains', triples := 0
      masks := fun _ => 0, valid := valid', kinded := kinded', computes := computes' }
  let seeds : Fin n → Seed := fun _ => Vector.replicate 32 0
  obtain ⟨sent, results, results', hjoint, hjoint'⟩ := hsame D seeds
  obtain ⟨seeding, gates, later, e, u, t, rfl, hseed, midway, hgates⟩ :=
    h.seeds_and_gates (σ := σ) (fun _ => rfl)
      (Circuit.demand_triples_le rfl (Nat.le_add_right _ _))
      (Circuit.demand_masks_le (fun _ => rfl) (Nat.le_add_right _ _)) shows hjoint
  obtain ⟨seeding', gates', later', e', u', t', hsent, hseed', midway', hgates'⟩ :=
    h'.seeds_and_gates (σ := σ') hkey
      (Circuit.demand_triples_le rfl (Nat.le_add_left _ _))
      (Circuit.demand_masks_le (fun _ => rfl) (Nat.le_add_left _ _)) shows' hjoint'
  obtain ⟨rfl, -⟩ :=
    (h.seeding_supplied h' (fun i => (hkey i).symm) hseed).unique hseed'
  have hlater := List.append_cancel_left hsent
  have hj' : e' j = e j := congrArg Prod.snd (hseed.result_eq hseed' (by rw [hothers j hj]))
  have hmirror : Mirror σ σ' j ⟨[], [], fun i => .new (views i), e⟩
      ⟨[], [], fun i => .new (views' i), e'⟩ :=
    .begin midway midway' (by rw [others j hj]) hj' (Schedule.value?_new (views j))
  have hsize : c'.size = c.size := reassigns.size_eq
  simp only [σ', hsize] at hgates'
  exact hmirror.runGates (fun _ _ hop => reassigns.operation?_reveal hop) rfl rfl
    (List.prefix_append gates later) ⟨later', hlater.symm⟩ hgates hgates' hop

end

/-- Other inputs of a party can be hidden if and only if every opening has the same number at its
operand, in full width: only then is there a bijection on consistent material that changes nothing
but what the party itself holds of it, and after which the parties exchange the same frames. -/
theorem evaluate_hides_iff (hn : 2 ≤ n) (p : Fin n) {c c' : Circuit m}
    (valid : c.validate n = .ok ()) (kinded : c.WellKinded) (inputs : c.HasInputs)
    (inputs' : c'.HasInputs) (reassigns : c.Reassigns (p + 1) c') {views views' : Fin n → Circuit m}
    (shows : ∀ i : Fin n, c.Shows (i + 1) (views i))
    (shows' : ∀ i : Fin n, c'.Shows (i + 1) (views' i)) (others : ∀ i ≠ p, views' i = views i) :
    Hidden p views views' ↔ ∀ id a, c.Bares id a → c'.Bares id a := by
  have valid' := reassigns.validate valid
  have kinded' := reassigns.wellKinded kinded
  obtain ⟨plains, heval, computes⟩ := Plain.evaluate_eq_ok valid kinded inputs
  obtain ⟨plains', heval', computes'⟩ := Plain.evaluate_eq_ok valid' kinded' inputs'
  obtain ⟨counts, hcounts⟩ := heval {}
  obtain ⟨counts', hcounts'⟩ := heval' {}
  constructor
  · intro hidden id a hbares
    obtain ⟨x, hop, rfl⟩ := (Circuit.bares_iff valid hcounts computes).mp hbares
    refine (Circuit.bares_iff valid' hcounts' computes').mpr
      ⟨x, reassigns.operation?_reveal hop, ?_⟩
    exact (number_eq_of_hidden hn valid valid' kinded kinded' computes computes' shows shows' others
      reassigns hidden hop).symm
  · intro hbares
    refine hidden_of_number_eq hn valid valid' kinded kinded' computes computes' shows shows' others
      reassigns fun id x hop => ?_
    have hbared := hbares id _ ((Circuit.bares_iff valid hcounts computes).mpr ⟨x, hop, rfl⟩)
    obtain ⟨y, hop', hnumber⟩ := (Circuit.bares_iff valid' hcounts' computes').mp hbared
    cases (reassigns.operation?_reveal hop).symm.trans hop'
    exact hnumber.symm

/-- An input of the first party is multiplied with a constant, and opened. -/
def scaledCircuit (k : Element .ring128) (x : Option (Element .ring128)) : Circuit .ring128 :=
  ⟨[.input 1 x, .mulPublic 0 k, .reveal 1]⟩

/-- The circuit as a party sees it. -/
def scaledView (k x : Element .ring128) (i : Fin 2) : Circuit .ring128 :=
  scaledCircuit k (if i.val = 0 then some x else none)

section

variable (k : Element .ring128)

theorem wellKinded_scaledCircuit (x : Option (Element .ring128)) :
    (scaledCircuit k x).WellKinded := by
  intro op hop
  simp only [scaledCircuit, List.mem_cons, List.not_mem_nil, or_false] at hop
  rcases hop with rfl | rfl | rfl <;>
    simp [Operation.WellKinded, Operation.operands, scaledCircuit, Circuit.operation?,
      Operation.kind]

theorem hasInputs_scaledCircuit (x : Element .ring128) :
    (scaledCircuit k (some x)).HasInputs := by
  intro owner value hvalue
  simp [scaledCircuit] at hvalue
  simp [hvalue.2]

theorem scaledCircuit_shows (x : Element .ring128) (i : Fin 2) :
    (scaledCircuit k (some x)).Shows (i + 1) (scaledView k x i) := by
  refine .cons (.input 1 _ _ fun hown => if_pos ?_) (.cons (.same _) (.cons (.same _) .nil))
  omega

theorem scaledView_of_ne (x y : Element .ring128) (i : Fin 2) (hi : i ≠ 0) :
    scaledView k y i = scaledView k x i := by
  have hval : i.val ≠ 0 := Fin.val_ne_of_ne hi
  rw [scaledView, scaledView, if_neg hval, if_neg hval]

theorem scaledCircuit_reassigns (x y : Element .ring128) :
    (scaledCircuit k (some x)).Reassigns 1 (scaledCircuit k (some y)) :=
  .cons (.input _ _) (.cons (.same _) (.cons (.same _) .nil))

theorem evaluate_scaledCircuit (x : Element .ring128) :
    Plain.evaluate (scaledCircuit k (some x)) {}
      = .ok [.scalar x, .scalar (x * k), .scalar (x * k).effective] ⟨1, 0⟩ :=
  rfl

theorem operation?_scaledCircuit {x : Option (Element .ring128)} {id y : NodeId} :
    (scaledCircuit k x).operation? id = some (.reveal y) ↔ id = 2 ∧ y = 1 := by
  match id with
  | 0 | 1 => simp [scaledCircuit, Circuit.operation?]
  | 2 => simp [scaledCircuit, Circuit.operation?, eq_comm]
  | _ + 3 => simp [scaledCircuit, Circuit.operation?]

/-- Only the product is opened. -/
theorem bares_scaledCircuit {x a : Element .ring128} {id : NodeId} :
    (scaledCircuit k (some x)).Bares id a ↔ id = 2 ∧ x * k = a := by
  constructor
  · rintro ⟨operand, plains, counts, hop, heval, hscalar⟩
    obtain ⟨rfl, rfl⟩ := (operation?_scaledCircuit k).mp hop
    cases (evaluate_scaledCircuit k x).symm.trans heval
    exact ⟨rfl, Except.ok.inj hscalar⟩
  · rintro ⟨rfl, rfl⟩
    exact ⟨1, _, _, rfl, evaluate_scaledCircuit k x, rfl⟩

/-- What it ends as is its lower half. -/
theorem opens_scaledCircuit {x z : Element .ring128} {id : NodeId} :
    (scaledCircuit k (some x)).Opens id z ↔ id = 2 ∧ (x * k).effective = z := by
  constructor
  · rintro ⟨operand, plains, counts, hop, heval, hvalue⟩
    obtain ⟨rfl, rfl⟩ := (operation?_scaledCircuit k).mp hop
    cases (evaluate_scaledCircuit k x).symm.trans heval
    exact ⟨rfl, PlainValue.scalar.inj (Option.some.inj hvalue)⟩
  · rintro ⟨rfl, rfl⟩
    exact ⟨1, _, _, rfl, evaluate_scaledCircuit k x, rfl⟩

end

/-- Once and three times the highest bit are the same number, so nobody learns whether the input was
1 or 3 when it is opened times the highest bit. -/
theorem evaluate_hides_iff_topBit :
    (∀ id a, (scaledCircuit (2 ^ 127) (some 1)).Bares id a →
        (scaledCircuit (2 ^ 127) (some 3)).Bares id a)
      ∧ Hidden 0 (scaledView (2 ^ 127) 1) (scaledView (2 ^ 127) 3) := by
  have hiff := evaluate_hides_iff (by decide) 0 (by decide) (wellKinded_scaledCircuit _ _)
    (hasInputs_scaledCircuit _ 1) (hasInputs_scaledCircuit _ 3) (scaledCircuit_reassigns _ 1 3)
    (scaledCircuit_shows (2 ^ 127) 1) (scaledCircuit_shows _ 3) (scaledView_of_ne _ 1 3)
  have hbares : ∀ id a, (scaledCircuit (2 ^ 127) (some 1)).Bares id a →
      (scaledCircuit (2 ^ 127) (some 3)).Bares id a := by
    intro id a h
    obtain ⟨rfl, rfl⟩ := (bares_scaledCircuit _).mp h
    exact (bares_scaledCircuit _).mpr ⟨rfl, by decide +kernel⟩
  exact ⟨hbares, hiff.mpr hbares⟩

/-- Opened times `2 ^ 64`, the inputs 0 and 1 both end as 0, for nothing is left of the product in
the effective width. But no material hides which of them it was. -/
theorem highHalf_discloses :
    ((scaledCircuit (2 ^ 64) (some 0)).validate 2 = .ok ()
        ∧ (scaledCircuit (2 ^ 64) (some 0)).WellKinded
        ∧ (scaledCircuit (2 ^ 64) (some 0)).Reassigns 1 (scaledCircuit (2 ^ 64) (some 1))
        ∧ (∀ (x : Element .ring128) (i : Fin 2),
          (scaledCircuit (2 ^ 64) (some x)).Shows (i + 1) (scaledView (2 ^ 64) x i))
        ∧ ∀ i ≠ 0, scaledView (2 ^ 64) 1 i = scaledView (2 ^ 64) 0 i)
      ∧ ((0 : Element .ring128).val < 2 ^ 64 ∧ (1 : Element .ring128).val < 2 ^ 64)
      ∧ (∀ id z, (scaledCircuit (2 ^ 64) (some 0)).Opens id z
        ↔ (scaledCircuit (2 ^ 64) (some 1)).Opens id z)
      ∧ ¬ Hidden 0 (scaledView (2 ^ 64) 0) (scaledView (2 ^ 64) 1) := by
  have valid : ∀ x, (scaledCircuit (2 ^ 64) (some x)).validate 2 = .ok () := fun _ => rfl
  have hcomputes : ∀ x, Plain.Computes (scaledCircuit (2 ^ 64) (some x))
      [.scalar x, .scalar (x * 2 ^ 64), .scalar (x * 2 ^ 64).effective] := by
    intro x
    obtain ⟨plains, heval, computes⟩ := Plain.evaluate_eq_ok (valid x)
      (wellKinded_scaledCircuit _ _) (hasInputs_scaledCircuit _ x)
    obtain ⟨counts, hcounts⟩ := heval {}
    cases (evaluate_scaledCircuit _ x).symm.trans hcounts
    exact computes
  refine ⟨⟨valid 0, wellKinded_scaledCircuit _ _, scaledCircuit_reassigns _ 0 1,
      scaledCircuit_shows _, scaledView_of_ne _ 0 1⟩, ⟨by decide, by decide +kernel⟩,
    fun id z => ?_, fun hidden => ?_⟩
  · have hzero :
        ((0 : Element .ring128) * 2 ^ 64).effective = (1 * 2 ^ 64 : Element _).effective := by
      decide +kernel
    rw [opens_scaledCircuit, opens_scaledCircuit, hzero]
  · have hnumber := number_eq_of_hidden (by decide) (valid 0) (valid 1)
      (wellKinded_scaledCircuit _ _) (wellKinded_scaledCircuit _ _) (hcomputes 0) (hcomputes 1)
      (scaledCircuit_shows _ 0) (scaledCircuit_shows _ 1) (scaledView_of_ne _ 0 1)
      (scaledCircuit_reassigns _ 0 1) hidden ((operation?_scaledCircuit _).mpr ⟨rfl, rfl⟩)
    have hne : (0 : Element .ring128) * 2 ^ 64 ≠ 1 * 2 ^ 64 := by decide +kernel
    exact hne hnumber

end JointCircuit
