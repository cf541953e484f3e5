/-
JointCircuit.Proofs.Ledger — nothing that was opened escapes the checks.

A party evaluates a circuit against peers that answer whatever they like.
`Ledger` is what stays true meanwhile of its schedule, its gates in
flight, its history and its store: the books are kept (§1), every gate in
flight is underway and every node with a value is over. Advancing a gate
and starting one keep it (§2), and so do the closing check and the toss
before the first gate, which do not belong to any node (§3).

Main statement: `evaluate_accounts` — when the evaluation succeeds,
everything that was in the store or came into it has been drained, in
order, by checks that accepted it, and the store is empty.
-/
import JointCircuit.Proofs.Books
import JointCircuit.Proofs.Refinement

namespace JointCircuit

open Evaluator Round
open Traced (Keeps keeps_evaluateWith keeps_flush_pool keeps_initializeJointRandomness keeps_play
  keeps_pure_from keeps_run keeps_run_pool keeps_runRounds)

variable {m : Modulus} {initial : List (Entry m)} {c : Circuit m} {s s' : Schedule m}
  {flights rest still : List (InFlight m)} {f : InFlight m} {history history' : History m}
  {opened opened' : OpenedValues m} {w w' : Participant m} {e e' : Evaluator m} {id : NodeId}

/-! ## §1 The invariant -/

/-- What is true of an evaluation with these gates in flight. -/
structure Ledger (initial : List (Entry m)) (c : Circuit m) (s : Schedule m)
    (flights : List (InFlight m)) (history : History m) (opened : OpenedValues m) : Prop where
  circuit : s.circuit = c
  sound : s.Sound (flights.map (·.id))
  books : Books initial history opened
  underway : ∀ f ∈ flights, ∀ op, c.operation? f.id = some op →
    Underway op.openings f.gate f.round (history.of f.id)
  ended : ∀ (id : NodeId) op, c.operation? id = some op → s.value? id ≠ none →
    Over op.openings (history.of id)
  unstarted : ∀ id : NodeId, s.value? id = none → id ∉ flights.map (·.id) → history.of id = []
  closing : history.of none = []

namespace Ledger

/-- The order of the gates in flight does not matter. -/
theorem perm (h : Ledger initial c s flights history opened) {flights' : List (InFlight m)}
    (hperm : flights'.Perm flights) : Ledger initial c s flights' history opened :=
  { h with
    sound := h.sound.perm (hperm.map _)
    underway := fun f hf => h.underway f (hperm.mem_iff.mp hf)
    unstarted := fun id hid hnot => h.unstarted id hid fun hmem =>
      hnot ((hperm.map (·.id)).mem_iff.mpr hmem) }

/-- Before the first gate there are only the entries at the start. -/
theorem new (initial : List (Entry m)) (c : Circuit m) :
    Ledger initial c (.new c) [] [] (.ofEntries initial) where
  circuit := rfl
  sound := Schedule.sound_new c
  books := .opening
  underway _ hf := absurd hf List.not_mem_nil
  ended id _ _ hvalue := absurd (Schedule.value?_new c id) hvalue
  unstarted _ _ _ := rfl
  closing := rfl

/-- A gate has gone through a round and stays in flight. -/
theorem stays (h : Ledger initial c s (f :: rest) history opened) {r : Record m}
    (hnode : r.node = some f.id) (hbooks : Books initial (history ++ [r]) opened') {gate : Gate m}
    {round : Nat} (hunderway : ∀ op, c.operation? f.id = some op →
      Underway op.openings gate round (history.of f.id ++ [r])) :
    Ledger initial c s ({ f with gate, round } :: rest) (history ++ [r]) opened' := by
  obtain ⟨hnot, -⟩ := List.nodup_cons.mp h.sound.nodup
  refine ⟨h.circuit, h.sound, hbooks, fun q hq op hop => ?_, fun id op hop hvalue => ?_,
    fun id hvalue hid => ?_, ?_⟩
  · rcases List.mem_cons.mp hq with rfl | hq
    · rw [History.of_append_of_eq hnode]
      exact hunderway op hop
    · rw [History.of_append_of_id_ne hnode]
      · exact h.underway q (List.mem_cons_of_mem _ hq) op hop
      · exact fun heq => hnot (List.mem_map.mpr ⟨q, hq, heq⟩)
  · rw [History.of_append_of_id_ne hnode]
    · exact h.ended id op hop hvalue
    · rintro rfl
      obtain ⟨-, -, hnone, -⟩ := h.sound.running_open f.id List.mem_cons_self
      exact hvalue hnone
  · rw [History.of_append_of_id_ne hnode]
    · exact h.unstarted id hvalue hid
    · rintro rfl
      exact hid List.mem_cons_self
  · rw [History.of_append_of_ne (by rw [hnode]; nofun)]
    exact h.closing

/-- A gate has gone through its last round, and its node gets its value. -/
theorem ends (h : Ledger initial c s (f :: rest) history opened) {r : Record m}
    (hnode : r.node = some f.id) (hbooks : Books initial (history ++ [r]) opened')
    (hover : ∀ op, c.operation? f.id = some op → Over op.openings (history.of f.id ++ [r]))
    (value : Value m) :
    Ledger initial c (s.complete f.id value) rest (history ++ [r]) opened' := by
  obtain ⟨hnot, -⟩ := List.nodup_cons.mp h.sound.nodup
  have hsound : s.Sound (f.id :: rest.map (·.id)) := h.sound
  refine ⟨(Schedule.circuit_complete s f.id value).trans h.circuit, hsound.complete value, hbooks,
    fun q hq op hop => ?_, fun id op hop hvalue => ?_, fun id hvalue hid => ?_, ?_⟩
  · rw [History.of_append_of_id_ne hnode]
    · exact h.underway q (List.mem_cons_of_mem _ hq) op hop
    · exact fun heq => hnot (List.mem_map.mpr ⟨q, hq, heq⟩)
  · rw [hsound.value?_complete] at hvalue
    by_cases hid : id = f.id
    · subst hid
      rw [History.of_append_of_eq hnode]
      exact hover op hop
    · rw [if_neg hid] at hvalue
      rw [History.of_append_of_id_ne hnode hid]
      exact h.ended id op hop hvalue
  · rw [hsound.value?_complete] at hvalue
    by_cases hid' : id = f.id
    · rw [if_pos hid'] at hvalue
      cases hvalue
    · rw [if_neg hid'] at hvalue
      rw [History.of_append_of_id_ne hnode hid']
      refine h.unstarted id hvalue fun hmem => ?_
      rcases List.mem_cons.mp hmem with heq | hmem
      · exact hid' heq
      · exact hid hmem
  · rw [History.of_append_of_ne (by rw [hnode]; nofun)]
    exact h.closing

/-- The lowest ready node has been given its gate. -/
theorem start {ready : List NodeId} (h : Ledger initial c s flights history opened)
    (hready : s.ready = id :: ready) {gate : Gate m} (hgate : s.gate id = .ok gate) :
    Ledger initial c { s with ready } (⟨id, gate, 0⟩ :: flights) history opened := by
  have hsound := h.sound.start hready
  obtain ⟨hnot, op, hop, hnone, -⟩ :=
    (h.sound.mem_ready id).mp (by rw [hready]; exact List.mem_cons_self)
  refine ⟨h.circuit, hsound, h.books, fun q hq op' hop' => ?_, h.ended, fun k hk hnot' => ?_,
    h.closing⟩
  · rcases List.mem_cons.mp hq with rfl | hq
    · rw [← h.circuit] at hop'
      simp only [Schedule.gate, hop'] at hgate
      rw [h.unstarted id hnone hnot]
      exact .of_instantiate hgate
    · exact h.underway q hq op' hop'
  · exact h.unstarted k hk fun hmem => hnot' (List.mem_cons_of_mem _ hmem)

/-! ## §2 Rounds of the gates -/

/-- A round of a gate in flight keeps the books. -/
theorem advances (h : Ledger initial c s (f :: rest) history w.pool.opened) {status : Status}
    {after : Gate m × Participant m}
    (hround : Gate.evaluate f.round (f.gate, w) = .ok status after) :
    Books initial (history ++ [⟨some f.id, f.round, (f.gate, w), status, after⟩])
        after.2.pool.opened
      ∧ ∀ op, c.operation? f.id = some op → Advances op.openings (history.of f.id)
        ⟨some f.id, f.round, (f.gate, w), status, after⟩ := by
  let r : Record m := ⟨some f.id, f.round, (f.gate, w), status, after⟩
  obtain ⟨held, hheld, -⟩ := h.books.balance
  have hstep : ∀ op, c.operation? f.id = some op → Advances op.openings (history.of f.id) r :=
    fun op hop => Underway.step (r := r) (h.underway f List.mem_cons_self op hop) hround hheld
  obtain ⟨op, hop, -⟩ := h.sound.running_open f.id List.mem_cons_self
  rw [h.circuit] at hop
  exact ⟨.round (r := r) h.books hround (hstep op hop).1, hstep⟩

/-- Every step of the loop over the gates keeps what is true of the gates in flight. -/
theorem invariant (initial : List (Entry m)) (c : Circuit m) :
    Traced.Invariant Traced.gateRound c (fun _ _ _ => True) fun _ s still todo e history =>
      Ledger initial c s (still ++ todo) history e.participant.pool.opened where
  round {_ s still rest flight} _ := by
    refine keeps_play (fun e history status gate w h hround => ?_)
      fun _ _ _ _ _ _ _ => trivial
    have hfirst : Ledger initial c s (flight :: (still ++ rest)) history
        e.participant.pool.opened := h.perm List.perm_middle.symm
    obtain ⟨hbooks, hstep⟩ := hfirst.advances hround
    cases status with
    | more =>
      refine (hfirst.stays rfl hbooks fun op hop => (hstep op hop).2.1 rfl).perm ?_
      rw [List.append_assoc]
      exact List.perm_middle
    | done =>
      unfold Traced.AfterRound
      cases gate.out.1 with
      | none => trivial
      | some value => exact hfirst.ends rfl hbooks (fun op hop => (hstep op hop).2.2 rfl) value
  start {_ s still _ _ _ _ _} h _ hready hgate := by
    rw [List.append_nil] at h
    exact (h.start hready hgate).perm (List.perm_append_singleton _ still)
  misfit _ _ _ _ := trivial
  flush {_ s flights} _ _ _ := by
    refine (keeps_flush_pool
      (Q := fun pool history => Ledger initial c s flights history pool.opened)
      (fun _ _ _ _ => trivial) (fun _ _ _ h => h) _).of_pre ?_
    rintro e _ ⟨history, h, rfl⟩
    rwa [List.append_nil] at h
  rest h _ _ := h
  endless _ := trivial

end Ledger

/-! ## §3 Rounds outside the gates -/

/-- The toss that seeds the joint generator leaves the store alone, and is no round of a gate. -/
theorem keeps_seeding (opened : OpenedValues m) :
    Keeps (fun _ _ _ => True)
      (fun e (history : History m) => e.participant.pool.opened = opened ∧ history = [])
      Traced.initializeJointRandomness
      fun _ e history => e.participant.pool.opened = opened ∧ history = [] := by
  refine keeps_initializeJointRandomness (keeps_run_pool
    (Q := fun pool (history : History m) => pool.opened = opened ∧ history = [])
    (fun _ _ _ _ => trivial) (fun _ _ _ h => h) ?_ (fun _ _ _ _ _ _ _ _ _ => trivial) _)
    fun _ _ _ h => h
  intro round p status p' w w' history h hround
  obtain ⟨hopened, -, -⟩ := CoinToss.quiet round _ _ _ _ _ hround
  exact ⟨hopened.trans h.1, h.2⟩

/-- After some rounds of the closing check, the gates having gone through `gates`. -/
structure Closing (initial : List (Entry m)) (gates : History m) (round : Nat) (p : MacCheck m)
    (history : History m) (opened : OpenedValues m) : Prop where
  books : Books initial history opened
  underway : Underway 0 (.macCheck p) round (history.of none)
  same : ∀ id : NodeId, history.of id = gates.of id
  /-- The first round takes all there is. -/
  empty : p = {} ∨ opened = {}

/-- The gates having gone through `gates`, the closing check is over too. -/
structure Closed (initial : List (Entry m)) (gates history : History m) (opened : OpenedValues m) :
    Prop where
  books : Books initial history opened
  finished : Over 0 (history.of none)
  same : ∀ id : NodeId, history.of id = gates.of id
  empty : opened = {}

/-- A round of the closing check keeps the books of its own. -/
theorem Closing.step {gates : History m} {round : Nat} {p p' : MacCheck m} {status : Status}
    (h : Closing initial gates round p history w.pool.opened)
    (hround : MacCheck.evaluate round (p, w) = .ok status (p', w')) :
    (status = .more → Closing initial gates (round + 1) p'
      (history ++ [⟨none, round, (.macCheck p, w), status, (.macCheck p', w')⟩]) w'.pool.opened)
    ∧ (status = .done → Closed initial gates
      (history ++ [⟨none, round, (.macCheck p, w), status, (.macCheck p', w')⟩])
      w'.pool.opened) := by
  let r : Record m := ⟨none, round, (.macCheck p, w), status, (.macCheck p', w')⟩
  have hgenuine : r.Genuine := Gate.evaluate_macCheck_eq_ok.mpr ⟨p', rfl, hround⟩
  obtain ⟨held, hheld, -⟩ := h.books.balance
  obtain ⟨hbalanced, hmore, hdone⟩ := Underway.step (r := r) h.underway hgenuine hheld
  have hbooks : Books initial (history ++ [r]) w'.pool.opened := .round h.books hgenuine hbalanced
  have hempty : w'.pool.opened = {} := hbalanced.empty_of_check rfl h.empty
  have hself : (history ++ [r] : History m).of none = history.of none ++ [r] :=
    History.of_append_of_eq rfl
  have hothers : ∀ id : NodeId, (history ++ [r] : History m).of id = gates.of id := fun id =>
    (History.of_append_of_ne (show r.node ≠ some id from nofun)).trans (h.same id)
  exact ⟨fun hstatus => ⟨hbooks, hself ▸ hmore hstatus, hothers, .inr hempty⟩,
    fun hstatus => ⟨hbooks, hself ▸ hdone hstatus, hothers, hempty⟩⟩

/-- Nothing to check is as good as a check. -/
theorem Closed.of_empty (hbooks : Books initial history opened) (hnone : history.of none = [])
    (hpending : opened.hasPending = false) : Closed initial history history opened := by
  refine ⟨hbooks, ?_, fun id => rfl, ?_⟩
  · rw [hnone]
    exact ⟨rfl, fun r hr => absurd hr List.not_mem_nil⟩
  · obtain ⟨held, rfl, -⟩ := hbooks.balance
    have hnil : held = [] := by
      simpa [OpenedValues.hasPending, OpenedValues.ofEntries] using hpending
    rw [hnil]
    rfl

/-- The check that closes an evaluation, if there is something to check, keeps the books and leaves
an empty store behind. -/
theorem keeps_close {initial : List (Entry m)} {e₀ : Evaluator m} {gates : History m}
    (hbooks : Books initial gates e₀.participant.pool.opened) (hnone : gates.of none = []) :
    Keeps (fun _ _ _ => True) (fun e history => e = e₀ ∧ history = gates)
      (if e₀.participant.pool.opened.hasPending then
        Traced.run (fun p => .gate (.macCheck p)) ({} : MacCheck m) else pure ())
      fun _ e history => Closed initial gates history e.participant.pool.opened := by
  split
  · have hflush (round : Nat) (p : MacCheck m) : Keeps (fun _ _ _ => True)
        (fun e history => Closing initial gates round p history e.participant.pool.opened)
        (Traced.flush [(.gate (.macCheck p), round)])
        fun _ e history => Closing initial gates round p history e.participant.pool.opened :=
      keeps_flush_pool (Q := fun pool => (Closing initial gates round p · pool.opened))
        (fun _ _ _ _ => trivial) (fun _ _ _ h => h) _
    have hrounds : Keeps (fun _ _ _ => True)
        (fun e history => Closing initial gates 0 {} history e.participant.pool.opened)
        (Traced.runRounds (fun p => .gate (.macCheck p)) (lastRound + 1) 0 {})
        fun _ e history => Closed initial gates history e.participant.pool.opened :=
      keeps_runRounds (fun _ _ _ _ _ _ h hround => (h.step hround).1 rfl)
        (fun _ _ _ _ _ _ h hround => (h.step hround).2 rfl) (fun _ _ _ _ _ _ _ _ _ => trivial)
        hflush (fun _ _ _ _ => trivial) (Nat.zero_add _) _
    have hrun : Keeps (fun _ _ _ => True)
        (fun e history => Closing initial gates 0 {} history e.participant.pool.opened)
        (Traced.run (fun p => .gate (.macCheck p)) {})
        fun _ e history => Closed initial gates history e.participant.pool.opened :=
      keeps_run hrounds (fun _ _ _ h _ _ => h) (fun _ _ _ _ _ _ => trivial)
        (fun _ _ _ _ => trivial) fun _ _ _ _ h _ => h
    refine hrun.from_state ⟨hbooks, ⟨fun r hr => ?_, ?_⟩, fun _ => rfl, .inl rfl⟩
    · rw [hnone] at hr
      exact absurd hr List.not_mem_nil
    · rw [hnone]
      exact .fresh rfl
  · rename_i hpending
    exact keeps_pure_from (.of_empty hbooks hnone (Bool.eq_false_iff.mpr hpending))

/-! ## §4 Whole evaluations -/

theorem except_mapM_eq_ok {ε α β : Type} {f : α → Except ε β} {xs : List α} {ys : List β}
    (h : xs.mapM f = .ok ys) {x : α} (hx : x ∈ xs) : ∃ y, f x = .ok y := by
  induction xs generalizing ys with
  | nil => exact absurd hx List.not_mem_nil
  | cons x' xs ih =>
    rw [List.mapM_cons] at h
    obtain ⟨y, hy, h⟩ := except_bind_eq_ok.mp h
    obtain ⟨ys', hys, -⟩ := except_bind_eq_ok.mp h
    rcases List.mem_cons.mp hx with rfl | hx
    · exact ⟨y, hy⟩
    · exact ih hys hx

/-- A schedule with outputs has a value for every node. -/
theorem Schedule.value?_ne_none_of_outputs {values : List (Value m)}
    (h : s.outputs = .ok values) (hlt : id < s.values.length) : s.value? id ≠ none := by
  have hget : s.values[id]? = some s.values[id] := List.getElem?_eq_getElem hlt
  have hmem : (s.values[id], id) ∈ s.values.zipIdx := List.mem_zipIdx_iff_getElem?.mpr hget
  obtain ⟨value, hvalue⟩ := except_mapM_eq_ok h hmem
  intro hnone
  rw [value?, hget, Option.join_some] at hnone
  simp only [hnone] at hvalue
  cases hvalue

/-- An account of everything that was opened, for a circuit that was evaluated with this history
from a store with entries `initial`. -/
structure Account (initial : List (Entry m)) (c : Circuit m) (history : History m)
    (opened : OpenedValues m) : Prop where
  books : Books initial history opened
  /-- Every product has pushed two entries, every opening one. -/
  length_pushed : ∀ (id : NodeId) op, c.operation? id = some op →
    ((history.of id).flatMap Record.pushed).length = op.openings
  /-- What was there and what was pushed is what was drained, each entry once. -/
  drained : initial ++ history.flatMap Record.pushed = history.flatMap Record.drained
  /-- Whatever was drained, was drained by a check that has accepted it. -/
  checked : ∀ r ∈ history, r.drained ≠ [] → Checked (history.of r.node)
  empty : opened = {}

/-- The evaluation with this history is over: with all the gates first, then with the closing
check. -/
def Concluded (initial : List (Entry m)) (c : Circuit m) (history : History m)
    (opened : OpenedValues m) : Prop :=
  ∃ s gates held, Ledger initial c s [] gates held
    ∧ (∀ id, id < s.values.length → s.value? id ≠ none) ∧ Closed initial gates history opened

/-- The account of an evaluation that is over. -/
theorem Concluded.account (h : Concluded initial c history opened) :
    Account initial c history opened := by
  obtain ⟨s, gates, held, h, hvalues, hbooks, hover, hsame, hempty⟩ := h
  have hnodes : ∀ (id : NodeId) op, c.operation? id = some op →
      Over op.openings (history.of id) := by
    intro id op hop
    have hlt : id < s.values.length := by
      rw [h.sound.length_values, h.circuit]
      exact (List.getElem?_eq_some_iff.mp hop).1
    rw [hsame]
    exact h.ended id op hop (hvalues id hlt)
  refine ⟨hbooks, fun id op hop => (hnodes id op hop).length_pushed, ?_, fun r hr hne => ?_, hempty⟩
  · obtain ⟨left, hleft, hbalance⟩ := hbooks.balance
    have hnil : left = [] := by
      rw [← OpenedValues.entries_ofEntries left, ← hleft, hempty, OpenedValues.entries_empty]
    rw [hbalance, hnil, List.append_nil]
  · have hmem : r ∈ history.of r.node := List.mem_filter.mpr ⟨hr, by simp⟩
    cases hnode : r.node with
    | none =>
      rw [hnode] at hmem
      exact hover.checked r hmem hne
    | some id =>
      rw [hnode] at hmem
      have hvalue : s.value? id ≠ none := by
        intro hnone
        rw [hsame, h.unstarted id hnone List.not_mem_nil] at hmem
        exact List.not_mem_nil hmem
      have hlt : id < c.nodes.length := by
        by_contra hge
        refine hvalue ?_
        rw [Schedule.value?, List.getElem?_eq_none]
        · rfl
        · rw [h.sound.length_values, h.circuit]
          exact Nat.le_of_not_lt hge
      exact (hnodes id _ (List.getElem?_eq_getElem hlt)).checked r hmem hne

/-- Whatever is received, an evaluation that succeeds is over. -/
theorem Ledger.keeps_evaluate (initial : List (Entry m)) (c : Circuit m) :
    Keeps (fun _ _ _ => True)
      (fun e (history : History m) =>
        e.participant.pool.opened = .ofEntries initial ∧ history = [])
      (Traced.evaluate c)
      fun _ e history => Concluded initial c history e.participant.pool.opened := by
  refine keeps_evaluateWith
    (fun e history => Ledger initial c (.new c) [] history e.participant.pool.opened)
    (fun s e history => Ledger initial c s [] history e.participant.pool.opened)
    (fun _ e gates => ∃ s, (∀ id, id < s.values.length → s.value? id ≠ none)
      ∧ Ledger initial c s [] gates e.participant.pool.opened)
    (fun _ _ _ _ _ => trivial) ?seed ?gates (fun _ _ _ _ _ _ => trivial)
    (fun _ _ _ _ _ _ => trivial)
    (fun s _ _ _ h _ _ houtputs => ⟨s, fun _ => Schedule.value?_ne_none_of_outputs houtputs, h⟩)
    ?check
  case seed =>
    intro e₀ history₀ h _
    have hnew : ∀ (e : Evaluator m) (history : History m),
        e.participant.pool.opened = .ofEntries initial ∧ history = [] →
        Ledger initial c (.new c) [] history e.participant.pool.opened := by
      rintro e _ ⟨hopened, rfl⟩
      rw [hopened]
      exact .new initial c
    split
    · exact keeps_pure_from (hnew e₀ history₀ h)
    · exact ((keeps_seeding _).from_state h).mono fun _ => hnew
  case gates =>
    exact ((Ledger.invariant initial c).keeps_runGates (.new c)).mono fun _ _ _ ⟨_, _, h⟩ => h
  case check =>
    exact fun _ e gates ⟨s, hvalues, hledger⟩ =>
      (keeps_close hledger.books hledger.closing).mono fun _ _ _ hclosed =>
        ⟨s, gates, _, hledger, hvalues, hclosed⟩

/-- A party evaluates a circuit and succeeds, whatever its peers have sent. Then this very run has a
history that accounts for everything that was in the store at the start or came into it: it has
been drained, each entry once, by checks that tossed their seed after that, drew a coefficient for
every entry and accepted, and the store is empty. -/
theorem evaluate_accounts {replies : List (Except TransportError Delivery)} {outputs : Outputs m}
    (hpaired : e.participant.pool.opened.shares.length = e.participant.pool.opened.values.length)
    (hrun : Session.Run (evaluate c e) replies (.ok outputs, e')) :
    ∃ history : History m,
      Session.Run (Traced.evaluate c (e, [])) replies (.ok outputs, (e', history))
      ∧ Account e.participant.pool.opened.entries c history e'.participant.pool.opened := by
  obtain ⟨history, hrecorded⟩ := (Traced.erases_evaluate c).exists_notes ([] : History m) hrun
  obtain ⟨-, hended, -⟩ := Ledger.keeps_evaluate _ c _ _ _ _ _ _
    ⟨OpenedValues.eq_ofEntries hpaired, rfl⟩ hrecorded
  exact ⟨history, hrecorded, (hended outputs rfl).account⟩

/-- The first of two honest parties that multiply, open and check. -/
theorem evaluate_accounts_product :
    ∃ (replies : List (Except TransportError Delivery)) (outputs : Outputs .mersenne61)
        (e' : Evaluator .mersenne61) (history : History .mersenne61),
      Session.Run (evaluate (productCircuit (some 5) none) { participant := .new (stockedPool 0) })
        replies (.ok outputs, e')
      ∧ Session.Run (Traced.evaluate (productCircuit (some 5) none)
        ({ participant := .new (stockedPool 0) }, [])) replies (.ok outputs, (e', history))
      ∧ Account [] (productCircuit (some 5) none) history e'.participant.pool.opened := by
  let views (i : Fin 2) :=
    if i = 0 then productCircuit (some 5) none else productCircuit none (some 7)
  have shows : ∀ i : Fin 2, (productCircuit (some 5) (some 7)).Shows (i + 1) (views i) := by
    intro i
    fin_cases i
    · exact (productCircuit_shows 5 7).1
    · exact (productCircuit_shows 5 7).2
  obtain ⟨plains, sent, outputs, pools, e', -, hjoint, -⟩ :=
    evaluate_circuit_joint (by decide) (wellKinded_productCircuit _ _)
      (hasInputs_productCircuit 5 7) shows
      (@Idle.mono _ _ _ _ (Circuit.uses (productCircuit (some 5) (some 7)) (·.triples) + 0) _
        (fun o => (productCircuit (some 5) (some 7)).uses (·.masks o) + 0) _ _ idle_stockedPool
        (by decide) (by decide))
  obtain ⟨replies, hrun⟩ := hjoint.run 0
  obtain ⟨history, hrecorded, haccount⟩ := evaluate_accounts rfl hrun
  exact ⟨replies, outputs 0, e' 0, history, hrun, hrecorded, haccount⟩

end JointCircuit
