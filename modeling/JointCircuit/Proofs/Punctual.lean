/-
JointCircuit.Proofs.Punctual — the gates of a circuit run on time.

A trace shows which nodes have been started, and whether there was
anything to check when they were (§1). A gate in flight goes on until its
last round, whatever the peers send (§2). So a node is started when the
last of its operands is complete, is complete after as many exchanges as
its operation takes, and nothing is ever early or late (`OnTime`, §3). A
party that is on time has done what it did within bounds (`Steady`, §4),
and an evaluation keeps both (§5).

Main statement: `keeps_punctual`.
-/
import JointCircuit.Proofs.CriticalPath
import JointCircuit.Proofs.Faults
import JointCircuit.Proofs.Safety

namespace JointCircuit

open JointCircuit.Action

variable {m : Modulus} {n : Nat}

/-! ## §1 Starts -/

/-- The node that is started in a round, if one is, and whether the store holds anything then. -/
def Played.start? (r : Played m) : Option (NodeId × Bool) :=
  if r.number = 0 then r.node.map (·, r.before.2.pool.opened.hasPending) else none

namespace Trace

/-- The nodes started, in order, each with whether there was anything to check. -/
def starts (t : Trace m) : List (NodeId × Bool) :=
  t.played.filterMap Played.start?

/-- Whether there was anything to check when a node was started. -/
def pendingAt (t : Trace m) (id : NodeId) : Bool :=
  decide ((id, true) ∈ t.starts)

/-- The starts of the trace are as predicted. -/
def Agrees (t : Trace m) (pending : NodeId → Bool) : Prop :=
  ∀ start ∈ t.starts, pending start.1 = start.2

/-- No node is started twice. -/
def Once (t : Trace m) : Prop :=
  (t.starts.map (·.1)).Nodup

variable {t : Trace m} {r : Played m}

theorem starts_play (t : Trace m) (r : Played m) :
    (t.play r).starts = t.starts ++ r.start?.toList := by
  rw [starts, played_play, List.filterMap_append]
  cases h : r.start? <;> simp [starts, h]

@[simp] theorem starts_exchange (t : Trace m) (x : Exchanged m) :
    (t.exchange x).starts = t.starts := by
  rw [starts, played_exchange, starts]

@[simp] theorem starts_complete (t : Trace m) (id : NodeId) (s : Schedule m) :
    (t.complete id s).starts = t.starts := rfl

@[simp] theorem starts_finish (t : Trace m) (w : Participant m) : (t.finish w).starts = t.starts :=
  rfl

/-- A trace in which no node is started twice predicts its own starts. -/
theorem Once.agrees_pendingAt (once : t.Once) : t.Agrees t.pendingAt := by
  rintro ⟨id, found⟩ hstart
  cases found with
  | true => exact decide_eq_true hstart
  | false =>
    refine decide_eq_false fun hstart' => ?_
    have heq := List.inj_on_of_nodup_map once hstart hstart' rfl
    cases heq

/-- What predicts the starts has predicted those before. -/
theorem Agrees.of_play {pending : NodeId → Bool} (h : (t.play r).Agrees pending) :
    t.Agrees pending ∧ ∀ start, r.start? = some start → pending start.1 = start.2 := by
  rw [Agrees, starts_play, List.forall_mem_append] at h
  refine ⟨h.1, fun start hstart => h.2 start ?_⟩
  rw [hstart]
  exact List.mem_singleton_self start

/-- A round starts a node that has not been started. -/
theorem Once.play (once : t.Once)
    (hnew : ∀ start, r.start? = some start → start.1 ∉ t.starts.map (·.1)) : (t.play r).Once := by
  rw [Once, starts_play]
  cases hstart : r.start? with
  | none => rwa [Option.toList_none, List.append_nil]
  | some start =>
    have hnew := hnew start hstart
    rw [Option.toList_some, List.map_append]
    refine List.Nodup.append once (List.nodup_singleton _) fun id hid hid' => ?_
    obtain rfl := List.mem_singleton.mp hid'
    exact hnew hid

end Trace

namespace Evaluator

/-! ## §2 Gates in flight -/

namespace InFlight

variable {c : Circuit m} {f : InFlight m} {op : Operation m}

/-- The gate as it is after a round that goes on. -/
def next (f : InFlight m) (gate : Gate m) : InFlight m :=
  { f with gate, round := f.round + 1 }

/-- The gate has been built for its node, or it goes on and is not beyond its last round. -/
inductive Going (c : Circuit m) (n : Nat) (f : InFlight m) : Prop
  | built {op : Operation m} {values : List (Option (Value m))} (hop : c.operation? f.id = some op)
      (hround : f.round = 0) (hgate : Gate.instantiate values op = .ok f.gate)
  | due (hpos : 0 < f.round) (hle : f.round ≤ f.gate.last n) (hdue : f.gate.Due n f.round)

/-- The last round of the gate; it is known from its first round on. -/
def last (n : Nat) (op : Operation m) (pending : Bool) (f : InFlight m) : Nat :=
  if f.round = 0 then op.last n pending else f.gate.last n

theorem Going.timely (h : f.Going c n) : f.gate.Timely f.round := by
  cases h with
  | built hop hround hgate => exact Gate.timely_of_instantiate hgate
  | due hpos hle hdue => exact hdue.timely

/-- What a gate with this last round does in a round of its. -/
structure Advances (c : Circuit m) (n last : Nat) (f : InFlight m) (status : Status)
    (gate : Gate m) : Prop where
  more : status = .more → f.round < last ∧ gate.last n = last ∧ (f.next gate).Going c n
  done : status = .done → f.round = last

theorem advances_of_before {last : Nat} {status : Status} {gate : Gate m} (hle : f.round ≤ last)
    (hstatus : status = .before last f.round)
    (hmore : status = .more → gate.Due n (f.round + 1) ∧ gate.last n = last) :
    Advances c n last f status gate where
  more hm := by
    obtain ⟨hdue, hlast⟩ := hmore hm
    have hlt : f.round < last := Status.before_eq_more.mp (hstatus.symm.trans hm)
    exact ⟨hlt, hlast, .due (Nat.succ_pos _) (hlast ▸ hlt) hdue⟩
  done hd := Nat.le_antisymm hle (Status.before_eq_done.mp (hstatus.symm.trans hd))

/-- A gate goes on until its last round, whatever it receives. -/
theorem Going.step {w w' : Participant m} {gate : Gate m} {status : Status} (going : f.Going c n)
    (hop : c.operation? f.id = some op) (fit : w.Fit n)
    (hround : Gate.evaluate f.round (f.gate, w) = .ok status (gate, w')) :
    Advances c n (f.last n op w.pool.opened.hasPending) f status gate := by
  have hold := OpenedValues.eq_ofEntries fit.opened
  have hdue {last : Nat} (due : f.gate.Due n f.round) (hlast : f.gate.last n = last)
      (hle : f.round ≤ last) : Advances c n last f status gate := by
    obtain ⟨hstatus, hmore, -⟩ := due.step fit.parties hround hold
    rw [hlast] at hstatus hmore
    exact advances_of_before hle hstatus fun hm => ⟨(hmore hm).1, (hmore hm).2.1⟩
  cases going with
  | due hpos hle due =>
    rw [last, if_neg (Nat.ne_of_gt hpos)]
    exact hdue due rfl hle
  | built hop' hzero hgate =>
    obtain rfl := Option.some.inj (hop.symm.trans hop')
    obtain ⟨-, hsupplied, -⟩ := Gate.instantiate_eq_ok hgate
    obtain ⟨hother, hcheck⟩ := Gate.kind_of_instantiate (n := n) hgate w.pool.opened.hasPending
    rw [last, if_pos hzero]
    cases hkind : op.isCheck with
    | false =>
      obtain ⟨hnone, hlast⟩ := hother hkind
      refine hdue ⟨hzero ▸ hsupplied, fun p hp => ?_⟩ hlast (hzero ▸ Nat.zero_le _)
      rw [hp] at hnone
      cases hnone
    | true =>
      obtain ⟨after, rfl⟩ : ∃ after, op = .macCheck after := by
        cases op <;> first | exact ⟨_, rfl⟩ | cases hkind
      rw [hcheck hkind, hzero] at hround
      obtain ⟨-, hstatus, hmore⟩ := Gate.evaluate_new_check n hround
      refine advances_of_before (hzero ▸ Nat.zero_le _) (hzero ▸ hstatus) fun hm => ?_
      obtain ⟨due, hlast, -⟩ := hmore hm
      rw [hzero]
      refine ⟨due, hlast.trans ?_⟩
      rw [hm] at hstatus
      simp only [Operation.last]
      split
      · rfl
      · rename_i hnothing
        rw [if_neg hnothing] at hstatus
        cases hstatus

end InFlight

/-! ## §3 On time -/

/-- After `now` exchanges, `base` of them before the first gate: the nodes with values have
finished, and every gate and every ready node started when the last of its operands finished. -/
structure OnTime (c : Circuit m) (n base : Nat) (pending : NodeId → Bool) (now : Nat)
    (s : Schedule m) (still todo : List (InFlight m)) : Prop where
  clocked : ∀ f ∈ still ++ todo, 0 < f.round →
    ∀ op, c.operation? f.id = some op → f.gate.last n = op.last n (pending f.id)
  valued : ∀ id, s.value? id ≠ none → base + c.finishTime n pending id ≤ now
  ready : ∀ id ∈ s.ready, base + c.startTime n pending id = now
  still : ∀ f ∈ still, 0 < f.round ∧ base + c.startTime n pending f.id + f.round = now + 1
  todo : ∀ f ∈ todo, base + c.startTime n pending f.id + f.round = now
  begun : base ≤ now
  reached : now ≤ base + c.criticalPath n pending

namespace OnTime

variable {c : Circuit m} {base now : Nat} {pending : NodeId → Bool} {s : Schedule m}
variable {still rest : List (InFlight m)} {f : InFlight m} {op : Operation m}

/-- Nodes without operands are ready at once. -/
theorem new (c : Circuit m) (n base : Nat) (pending : NodeId → Bool) :
    OnTime c n base pending base (.new c) [] [] where
  clocked _ hf := absurd hf List.not_mem_nil
  valued id h := absurd (Schedule.value?_new c id) h
  ready id hid := by
    obtain ⟨-, op, hop, -, hall⟩ := ((Schedule.sound_new c).mem_ready id).mp hid
    have hzero : c.startTime n pending id ≤ 0 :=
      (Circuit.startTime_le_iff hop).mpr fun y hy => absurd (Schedule.value?_new c y) (hall y hy)
    rw [Nat.le_zero.mp hzero, Nat.add_zero]
  still _ hf := absurd hf List.not_mem_nil
  todo _ hf := absurd hf List.not_mem_nil
  begun := Nat.le_refl _
  reached := Nat.le_add_right _ _

/-- The last round of a gate is that of its operation. -/
theorem last_eq {b : Bool} (h : OnTime c n base pending now s still (f :: rest))
    (hop : c.operation? f.id = some op) (hpending : f.round = 0 → pending f.id = b) :
    f.last n op b = op.last n (pending f.id) := by
  unfold InFlight.last
  split
  · rename_i hzero
    rw [hpending hzero]
  · rename_i hpos
    exact h.clocked f (List.mem_append_right _ List.mem_cons_self) (Nat.pos_of_ne_zero hpos) op hop

/-- A gate goes on. -/
theorem more (h : OnTime c n base pending now s still (f :: rest)) {gate : Gate m}
    (hop : c.operation? f.id = some op) (hlast : gate.last n = op.last n (pending f.id)) :
    OnTime c n base pending now s (still ++ [f.next gate]) rest :=
  { h with
    clocked := fun g hg hpos op' hop' => by
      simp only [List.mem_append, List.mem_singleton] at hg
      obtain (hg | rfl) | hg := hg
      · exact h.clocked g (List.mem_append_left _ hg) hpos op' hop'
      · obtain rfl := Option.some.inj (hop.symm.trans hop')
        exact hlast
      · exact h.clocked g (List.mem_append_right _ (List.mem_cons_of_mem _ hg)) hpos op' hop'
    still := fun g hg => by
      obtain hg | hg := List.mem_append.mp hg
      · exact h.still g hg
      · obtain rfl := List.mem_singleton.mp hg
        exact ⟨Nat.succ_pos _, congrArg (· + 1) (h.todo f List.mem_cons_self)⟩
    todo := fun g hg => h.todo g (List.mem_cons_of_mem _ hg) }

/-- A node is complete after its own time, and what waited for it alone is ready now. -/
theorem done (h : OnTime c n base pending now s still (f :: rest)) (ordered : c.Ordered)
    (hcircuit : s.circuit = c) {running : List NodeId} (sound : s.Sound (f.id :: running))
    (hop : c.operation? f.id = some op) (hround : f.round = op.last n (pending f.id))
    (value : Value m) : OnTime c n base pending now (s.complete f.id value) still rest := by
  have hfinish : base + c.finishTime n pending f.id = now := by
    rw [Circuit.finishTime_eq ordered hop, ← hround, ← Nat.add_assoc]
    exact h.todo f List.mem_cons_self
  have hvalued : ∀ id, (s.complete f.id value).value? id ≠ none →
      base + c.finishTime n pending id ≤ now := fun id hid => by
    rw [sound.value?_complete] at hid
    by_cases hsame : id = f.id
    · exact hsame ▸ hfinish.le
    · rw [if_neg hsame] at hid
      exact h.valued id hid
  exact
    { h with
      clocked := fun g hg => h.clocked g (by
        simp only [List.mem_append, List.mem_cons] at hg ⊢
        exact hg.imp_right .inr)
      valued := hvalued
      ready := fun id hid => by
        obtain ⟨hrun, hopen⟩ := ((sound.complete value).mem_ready id).mp hid
        obtain ⟨hne, hbefore | ⟨op', hop', hmem, hmet⟩⟩ := (sound.open_complete value id).mp hopen
        · refine h.ready id ((sound.mem_ready id).mpr ⟨fun hmem => ?_, hbefore⟩)
          exact (List.mem_cons.mp hmem).elim hne hrun
        · -- the node was the last one that was waited for
          rw [hcircuit] at hop'
          have hoperand := Operation.mem_dependencies.mp hmem
          have hmet := Schedule.unmet_eq_zero.mp hmet
          refine Nat.le_antisymm ?_ ?_
          · have hlate : c.startTime n pending id ≤ now - base :=
              (Circuit.startTime_le_iff hop').mpr fun y hy =>
                Nat.le_sub_of_add_le' (hvalued y (hmet y hy))
            have hbegun := h.begun
            omega
          · rw [← hfinish]
            exact Nat.add_le_add_left (Circuit.finishTime_le_startTime hop' hoperand) _
      todo := fun g hg => h.todo g (List.mem_cons_of_mem _ hg) }

/-- A ready node is started. -/
theorem start (h : OnTime c n base pending now s still []) {id : NodeId} {ids : List NodeId}
    {gate : Gate m} (hready : s.ready = id :: ids) :
    OnTime c n base pending now { s with ready := ids } still [{ id, gate, round := 0 }] :=
  { h with
    clocked := fun g hg hpos => by
      obtain hg | hg := List.mem_append.mp hg
      · exact h.clocked g (List.mem_append_left _ hg) hpos
      · obtain rfl := List.mem_singleton.mp hg
        cases hpos
    ready := fun k hk => h.ready k (hready ▸ List.mem_cons_of_mem _ hk)
    todo := fun g hg => by
      obtain rfl := List.mem_singleton.mp hg
      exact h.ready id (hready ▸ List.mem_cons_self) }

/-- An exchange takes place only if some node finishes after it. -/
theorem lt_criticalPath (h : OnTime c n base pending now s still []) (ordered : c.Ordered)
    (hmem : f ∈ still) (going : f.Going c n) (hop : c.operation? f.id = some op) :
    now + 1 ≤ base + c.criticalPath n pending := by
  obtain ⟨hpos, htime⟩ := h.still f hmem
  have hlast := h.clocked f (List.mem_append_left _ hmem) hpos op hop
  have hround : f.round ≤ op.last n (pending f.id) := by
    cases going with
    | built _ hzero _ =>
      rw [hzero] at hpos
      cases hpos
    | due _ hle _ => exact hlast ▸ hle
  have hfinish : c.finishTime n pending f.id ≤ c.criticalPath n pending :=
    Circuit.finishTime_le_criticalPath (List.getElem?_eq_some_iff.mp hop).1
  rw [Circuit.finishTime_eq ordered hop] at hfinish
  omega

/-- After an exchange every gate is due. -/
theorem exchange (h : OnTime c n base pending now s still []) (hready : s.ready = [])
    (hlt : now + 1 ≤ base + c.criticalPath n pending) :
    OnTime c n base pending (now + 1) s [] still where
  clocked g hg := h.clocked g (List.mem_append_left _ hg)
  valued id hid := (h.valued id hid).trans (Nat.le_succ now)
  ready := by
    rw [hready]
    exact fun _ hid => absurd hid List.not_mem_nil
  still _ hf := absurd hf List.not_mem_nil
  todo g hg := (h.still g hg).2
  begun := h.begun.trans (Nat.le_succ now)
  reached := hlt

/-- When every node has its value, the circuit has taken its time. -/
theorem finished (h : OnTime c n base pending now s [] [])
    (hall : ∀ id < c.size, s.value? id ≠ none) : now = base + c.criticalPath n pending := by
  have hlate : c.criticalPath n pending ≤ now - base :=
    Circuit.criticalPath_le_iff.mpr fun id hid => Nat.le_sub_of_add_le' (h.valued id (hall id hid))
  have hbegun := h.begun
  exact Nat.le_antisymm h.reached (by omega)

end OnTime

/-! ## §4 Within bounds -/

/-- A party among `n` that has done nothing out of bounds and has counted its exchanges, of which
`rounds` came before the trace. -/
structure Steady (n rounds : Nat) (e : Evaluator m) (t : Trace m) : Prop where
  fit : e.participant.Fit n
  safe : t.Safe n
  once : t.Once
  counted : e.rounds = rounds + t.past.length

/-- What a failure leaves behind: it comes after at most `limit` exchanges, and is not a computation
that is given up. -/
structure Stopped (n limit : Nat) (pending : NodeId → Bool) (fault : Fault) (e : Evaluator m)
    (t : Trace m) : Prop where
  fit : e.participant.Fit n
  safe : t.Safe n
  once : t.Once
  bounded : t.Agrees pending → fault ≠ .protocol .endless ∧ t.past.length ≤ limit

/-- The trace has gone on for `k` exchanges, and no node has been started. -/
structure Later (k : Nat) (t₀ t : Trace m) : Prop where
  exchanges : t.past.length = t₀.past.length + k
  starts : t.starts = t₀.starts
  finished : t.finished = t₀.finished

theorem Later.refl (t : Trace m) : Later 0 t t := ⟨rfl, rfl, rfl⟩

theorem Later.trans {k k' : Nat} {t t' t'' : Trace m} (h : Later k t t') (h' : Later k' t' t'') :
    Later (k + k') t t'' :=
  ⟨by rw [h'.exchanges, h.exchanges, Nat.add_assoc], h'.starts.trans h.starts,
    h'.finished.trans h.finished⟩

theorem Later.agrees {k : Nat} {t₀ t : Trace m} (h : Later k t₀ t) {pending : NodeId → Bool}
    (agrees : t.Agrees pending) : t₀.Agrees pending := by
  rwa [Trace.Agrees, h.starts] at agrees

namespace Steady

variable {rounds limit : Nat} {pending : NodeId → Bool} {e : Evaluator m} {t : Trace m}

theorem stopped (h : Steady n rounds e t) {fault : Fault}
    (hbounded : t.Agrees pending → fault ≠ .protocol .endless ∧ t.past.length ≤ limit) :
    Stopped n limit pending fault e t := ⟨h.fit, h.safe, h.once, hbounded⟩

/-- Counting protocols changes nothing. -/
theorem count (h : Steady n rounds e t) (protocols : Nat) :
    Steady n rounds { e with protocols } t :=
  ⟨h.fit, h.safe, h.once, h.counted⟩

/-- A round is evaluated, and may fail. -/
theorem play (h : Steady n rounds e t) {r : Played m} (hbefore : r.before.2 = e.participant)
    (hround : r.after = endState (Task.evaluate r.number r.before))
    (timely : r.before.1.Timely r.number)
    (hnew : ∀ start, r.start? = some start → start.1 ∉ t.starts.map (·.1)) :
    Steady n rounds { e with participant := r.after.2 } (t.play r) where
  fit := by
    have hserves : Serves e.participant r.after.2 := by
      rw [hround, ← hbefore]
      exact Task.serves
    exact h.fit.serves hserves
  safe := h.safe.play timely (hbefore ▸ h.fit)
  once := h.once.play hnew
  counted := h.counted

/-- Frames leave, and the reply is delivered. -/
theorem exchange (h : Steady n rounds e t) {frames : List Frame} {box box' : Mailbox}
    {delivery : Delivery} (htake : Mailbox.takeOutgoing e.participant.mailbox = .ok frames box)
    (hdeliver : Mailbox.deliver delivery box = .ok () box') (due : List (Task m × Nat)) :
    Steady n rounds { e with participant.mailbox := box', rounds := e.rounds + 1 }
      (t.exchange ⟨due, e.participant.mailbox, .ok delivery⟩) where
  fit := by
    obtain ⟨-, hshaped, -⟩ := Mailbox.takeOutgoing_eq_ok h.fit.mailbox htake
    obtain ⟨-, hshaped', -⟩ := Mailbox.deliver_eq_ok hshaped hdeliver
    exact ⟨hshaped', h.fit.parties, h.fit.opened⟩
  safe := h.safe.exchange h.fit.mailbox
  once := by
    rw [Trace.Once, Trace.starts_exchange]
    exact h.once
  counted := by
    rw [Trace.past_exchange, List.length_append, List.length_singleton, ← Nat.add_assoc,
      ← h.counted]

end Steady

namespace Traced

variable {rounds limit : Nat} {pending : NodeId → Bool}

/-- An exchange keeps a party within bounds, if one more exchange is allowed. -/
theorem keeps_steady_flush (due : List (Task m × Nat)) {e₀ : Evaluator m} {t₀ : Trace m}
    (steady : Steady n rounds e₀ t₀)
    (hlimit : t₀.Agrees pending → t₀.past.length + 1 ≤ limit) :
    Keeps (Stopped n limit pending) (fun e t => e = e₀ ∧ t = t₀) (flush due)
      fun _ e t => Steady n rounds e t ∧ e.participant.pool = e₀.participant.pool
        ∧ Later 1 t₀ t := by
  have hlater (x : Exchanged m) : Later 1 t₀ (t₀.exchange x) :=
    ⟨by simp, Trace.starts_exchange t₀ x, rfl⟩
  have hstopped {x : Exchanged m} {fault : Fault} {box : Mailbox} (hshaped : box.Shaped n)
      (hfault : fault ≠ .protocol .endless) (hmailbox : x.mailbox = e₀.participant.mailbox) :
      Stopped n limit pending fault { e₀ with participant.mailbox := box } (t₀.exchange x) := by
    refine ⟨⟨hshaped, steady.fit.parties, steady.fit.opened⟩,
      steady.safe.exchange (hmailbox ▸ steady.fit.mailbox), ?_, fun agrees => ⟨hfault, ?_⟩⟩
    · rw [Trace.Once, Trace.starts_exchange]
      exact steady.once
    · rw [(hlater x).exchanges]
      exact hlimit ((hlater x).agrees agrees)
  refine keeps_flush ?_ ?_ ?_ ?_
  · rintro e t fault box ⟨rfl, rfl⟩ htake
    obtain ⟨rfl, count, party, rfl⟩ := takeOutgoing_eq_error htake
    exact steady.stopped fun agrees => ⟨nofun, (Nat.le_succ _).trans (hlimit agrees)⟩
  · rintro e t frames box error ⟨rfl, rfl⟩ htake
    exact hstopped (Mailbox.takeOutgoing_eq_ok steady.fit.mailbox htake).2.1 (by nofun) rfl
  · rintro e t frames box delivery fault box' ⟨rfl, rfl⟩ htake hdeliver
    have hshaped := (Mailbox.takeOutgoing_eq_ok steady.fit.mailbox htake).2.1
    exact hstopped (Mailbox.shaped_of_deliver hshaped hdeliver)
      (Mailbox.fails_deliver delivery _ _ _ hdeliver).ne_endless rfl
  · rintro e t frames box delivery box' ⟨rfl, rfl⟩ htake hdeliver
    exact ⟨steady.exchange htake hdeliver due, rfl, hlater _⟩

end Traced

/-! ## §5 The gates of a circuit -/

/-- An evaluation inside a round: every gate goes on, the nodes started are those with a value and
those in flight, and if the starts are as predicted, everything is on time. -/
structure Punctual (c : Circuit m) (n base rounds : Nat) (pending : NodeId → Bool)
    (s : Schedule m) (still todo : List (InFlight m)) (e : Evaluator m) (t : Trace m) : Prop where
  steady : Steady n rounds e t
  going : ∀ f ∈ still ++ todo, f.Going c n
  started : ∀ id, id ∈ t.starts.map (·.1) ↔
    s.value? id ≠ none ∨ ∃ f ∈ still ++ todo, f.id = id ∧ 0 < f.round
  onTime : t.Agrees pending → OnTime c n base pending t.past.length s still todo

/-- A gate in flight has an operation. -/
theorem Traced.Underway.exists_operation {c : Circuit m} {s : Schedule m}
    {flights : List (InFlight m)} (underway : Traced.Underway c s flights) {f : InFlight m}
    (hf : f ∈ flights) : ∃ op, c.operation? f.id = some op := by
  obtain ⟨op, hop, -⟩ := underway.sound.running_open f.id (List.mem_map_of_mem hf)
  exact ⟨op, underway.circuit ▸ hop⟩

namespace Punctual

variable {c : Circuit m} {base rounds : Nat} {pending : NodeId → Bool} {s : Schedule m}
variable {still rest : List (InFlight m)} {f : InFlight m} {e : Evaluator m} {t : Trace m}

theorem new (steady : Steady n rounds e t) (hstarts : t.starts = [])
    (hbase : t.past.length = base) : Punctual c n base rounds pending (.new c) [] [] e t where
  steady := steady
  going _ hf := absurd hf List.not_mem_nil
  started id := by simp [hstarts, Schedule.value?_new]
  onTime _ := hbase ▸ .new c n base pending

theorem start?_played (f : InFlight m) (w : Participant m) (after : Gate m × Participant m) :
    (f.played w after).start?
      = if f.round = 0 then some (f.id, w.pool.opened.hasPending) else none := rfl

/-- A gate in its first round has not been started. -/
theorem not_started (h : Punctual c n base rounds pending s still (f :: rest) e t)
    (underway : Traced.Underway c s (still ++ f :: rest)) (hzero : f.round = 0) :
    f.id ∉ t.starts.map (·.1) := by
  have hmem : f ∈ still ++ f :: rest := List.mem_append_right _ List.mem_cons_self
  rw [h.started]
  rintro (hvalue | ⟨g, hg, hid, hpos⟩)
  · obtain ⟨-, -, hnone, -⟩ := underway.sound.running_open f.id (List.mem_map_of_mem hmem)
    exact hvalue hnone
  · obtain rfl := List.inj_on_of_nodup_map underway.sound.nodup hg hmem hid
    rw [hzero] at hpos
    cases hpos

/-- A round of a gate, which may fail. -/
theorem play (h : Punctual c n base rounds pending s still (f :: rest) e t)
    (underway : Traced.Underway c s (still ++ f :: rest)) (after : Gate m × Participant m)
    (hround : ((.gate after.1, after.2) : Task m × Participant m)
      = endState (Task.evaluate f.round (.gate f.gate, e.participant))) :
    Steady n rounds { e with participant := after.2 } (t.play (f.played e.participant after)) := by
  refine h.steady.play (r := f.played e.participant after) rfl hround ?_ fun start hstart => ?_
  · exact (h.going f (List.mem_append_right _ List.mem_cons_self)).timely
  · rw [start?_played] at hstart
    split at hstart
    · rename_i hzero
      cases hstart
      exact h.not_started underway hzero
    · cases hstart

/-- The nodes started up to a round of a gate. -/
theorem started_play (h : Punctual c n base rounds pending s still (f :: rest) e t)
    (after : Gate m × Participant m) (id : NodeId) :
    id ∈ (t.play (f.played e.participant after)).starts.map (·.1)
      ↔ s.value? id ≠ none ∨ id = f.id ∨ ∃ g ∈ still ++ rest, g.id = id ∧ 0 < g.round := by
  have hflights : (∃ g ∈ still ++ f :: rest, g.id = id ∧ 0 < g.round)
      ↔ (id = f.id ∧ 0 < f.round) ∨ ∃ g ∈ still ++ rest, g.id = id ∧ 0 < g.round := by
    simp only [List.mem_append, List.mem_cons]
    constructor
    · rintro ⟨g, hg | rfl | hg, hid, hpos⟩
      · exact .inr ⟨g, .inl hg, hid, hpos⟩
      · exact .inl ⟨hid.symm, hpos⟩
      · exact .inr ⟨g, .inr hg, hid, hpos⟩
    · rintro (⟨rfl, hpos⟩ | ⟨g, hg, hid⟩)
      · exact ⟨f, .inr (.inl rfl), rfl, hpos⟩
      · exact ⟨g, hg.imp_right .inr, hid⟩
  rw [Trace.starts_play, List.map_append, List.mem_append, h.started, hflights, start?_played]
  split
  · rename_i hzero
    simp only [hzero, Nat.lt_irrefl, and_false, false_or, Option.toList_some, List.map_singleton,
      List.mem_singleton]
    rw [or_assoc, or_comm (a := ∃ g ∈ still ++ rest, _)]
  · rename_i hpos
    simp only [Nat.pos_of_ne_zero hpos, and_true, Option.toList_none, List.map_nil,
      List.not_mem_nil, or_false]

/-- If the starts are as predicted, a gate that is evaluated is on time for its operation. -/
theorem onTime_play (h : Punctual c n base rounds pending s still (f :: rest) e t)
    {after : Gate m × Participant m} {op : Operation m} (hop : c.operation? f.id = some op)
    (agrees : (t.play (f.played e.participant after)).Agrees pending) :
    OnTime c n base pending t.past.length s still (f :: rest)
      ∧ f.last n op e.participant.pool.opened.hasPending = op.last n (pending f.id) := by
  obtain ⟨hbefore, hstart⟩ := agrees.of_play
  have onTime := h.onTime hbefore
  refine ⟨onTime, onTime.last_eq hop fun hzero =>
    hstart (f.id, e.participant.pool.opened.hasPending) ?_⟩
  rw [start?_played, if_pos hzero]

theorem more (h : Punctual c n base rounds pending s still (f :: rest) e t)
    (underway : Traced.Underway c s (still ++ f :: rest)) {gate : Gate m} {w : Participant m}
    (hround : Gate.evaluate f.round (f.gate, e.participant) = .ok .more (gate, w)) :
    Punctual c n base rounds pending s (still ++ [f.next gate]) rest { e with participant := w }
      (t.play (f.played e.participant (gate, w))) := by
  obtain ⟨op, hop⟩ := underway.exists_operation (List.mem_append_right _ List.mem_cons_self)
  have hgoing := h.going f (List.mem_append_right _ List.mem_cons_self)
  obtain ⟨-, hlast, hnext⟩ := (hgoing.step hop h.steady.fit hround).more rfl
  refine ⟨h.play underway (gate, w) ?_, fun g hg => ?_, fun id => ?_, fun agrees => ?_⟩
  · rw [Faithful.gate.of_ok hround, endState_ok]
  · simp only [List.mem_append, List.mem_singleton] at hg
    obtain (hg | rfl) | hg := hg
    · exact h.going g (List.mem_append_left _ hg)
    · exact hnext
    · exact h.going g (List.mem_append_right _ (List.mem_cons_of_mem _ hg))
  · rw [h.started_play]
    refine or_congr_right ?_
    simp only [List.mem_append, List.mem_singleton]
    constructor
    · rintro (rfl | ⟨g, hg | hg, hid⟩)
      · exact ⟨f.next gate, .inl (.inr rfl), rfl, Nat.succ_pos _⟩
      · exact ⟨g, .inl (.inl hg), hid⟩
      · exact ⟨g, .inr hg, hid⟩
    · rintro ⟨g, (hg | rfl) | hg, hid, hpos⟩
      · exact .inr ⟨g, .inl hg, hid, hpos⟩
      · exact .inl hid.symm
      · exact .inr ⟨g, .inr hg, hid, hpos⟩
  · obtain ⟨onTime, hclock⟩ := h.onTime_play hop agrees
    exact onTime.more hop (hlast.trans hclock)

theorem done (h : Punctual c n base rounds pending s still (f :: rest) e t) (ordered : c.Ordered)
    (underway : Traced.Underway c s (still ++ f :: rest)) {gate : Gate m} {w : Participant m}
    (hround : Gate.evaluate f.round (f.gate, e.participant) = .ok .done (gate, w))
    (value : Value m) :
    Punctual c n base rounds pending (s.complete f.id value) still rest
      { e with participant := w, protocols := e.protocols + 1 }
      ((t.play (f.played e.participant (gate, w))).complete f.id s) := by
  obtain ⟨op, hop⟩ := underway.exists_operation (List.mem_append_right _ List.mem_cons_self)
  have hgoing := h.going f (List.mem_append_right _ List.mem_cons_self)
  have hlast := (hgoing.step hop h.steady.fit hround).done rfl
  have sound : s.Sound (f.id :: (still ++ rest).map (·.id)) :=
    underway.sound.perm (List.perm_middle.symm.map InFlight.id)
  have hplayed := h.play underway (gate, w)
    (by rw [Faithful.gate.of_ok hround, endState_ok])
  refine ⟨⟨hplayed.fit, hplayed.safe.complete sound.completable, hplayed.once, hplayed.counted⟩,
    fun g hg => h.going g ?_, fun id => ?_, fun agrees => ?_⟩
  · exact (List.mem_append.mp hg).elim (List.mem_append_left _)
      fun hg => List.mem_append_right _ (List.mem_cons_of_mem _ hg)
  · rw [Trace.starts_complete, h.started_play, sound.value?_complete]
    by_cases hsame : id = f.id
    · simp [hsame]
    · rw [if_neg hsame]
      simp only [hsame, false_or]
  · obtain ⟨onTime, hclock⟩ := h.onTime_play hop agrees
    exact onTime.done ordered underway.circuit sound hop (hlast.trans hclock) value

theorem start (h : Punctual c n base rounds pending s still [] e t)
    (underway : Traced.Underway c s still) {id : NodeId} {ids : List NodeId} {gate : Gate m}
    (hready : s.ready = id :: ids) (hgate : s.gate id = .ok gate) :
    Punctual c n base rounds pending { s with ready := ids } still [{ id, gate, round := 0 }]
      e t := by
  refine ⟨h.steady, fun g hg => ?_, fun k => ?_, fun agrees => (h.onTime agrees).start hready⟩
  · obtain hg | hg := List.mem_append.mp hg
    · exact h.going g (List.mem_append_left _ hg)
    · obtain rfl := List.mem_singleton.mp hg
      unfold Schedule.gate at hgate
      split at hgate
      · cases hgate
      · rename_i op hop
        exact .built (underway.circuit ▸ hop) rfl hgate
  · rw [h.started]
    refine or_congr_right ?_
    rw [List.append_nil]
    constructor
    · rintro ⟨g, hg, hid⟩
      exact ⟨g, List.mem_append_left _ hg, hid⟩
    · rintro ⟨g, hg, hid, hpos⟩
      obtain hg | hg := List.mem_append.mp hg
      · exact ⟨g, hg, hid, hpos⟩
      · obtain rfl := List.mem_singleton.mp hg
        cases hpos

end Punctual

/-- Every node has been started, each once, and has its value; if the starts are as predicted, that
took the time of the circuit. -/
structure Through (c : Circuit m) (n base rounds : Nat) (pending : NodeId → Bool)
    (e : Evaluator m) (t : Trace m) : Prop where
  steady : Steady n rounds e t
  started : (t.starts.map (·.1)).Perm (List.range c.size)
  time : t.Agrees pending → t.past.length = base + c.criticalPath n pending

namespace Traced

variable {c : Circuit m} {base rounds limit : Nat} {pending : NodeId → Bool}

/-- The gates of a circuit run on time, whatever arrives. -/
theorem upkeep_punctual (ordered : c.Ordered) (hlimit : base + c.criticalPath n pending ≤ limit) :
    Upkeep c (base + roundBudget c.size) (Stopped n limit pending)
      (Punctual c n base rounds pending) where
  more h underway hround := h.more underway hround
  done h underway hround _ := h.done ordered underway hround _
  silent h underway hround _ := by
    refine (h.play underway (_, _) ?_).stopped fun agrees => ⟨by nofun, ?_⟩
    · rw [Faithful.gate.of_ok hround, endState_ok]
    · exact (h.onTime agrees.of_play.1).reached.trans hlimit
  failed h underway hround := by
    refine (h.play underway (_, _) (Faithful.gate.of_error hround)).stopped
      fun agrees => ⟨(Gate.fails _ _ _ _ hround).ne_endless, ?_⟩
    exact (h.onTime agrees.of_play.1).reached.trans hlimit
  start h underway hready hgate := h.start underway hready hgate
  misfit h _ _ _ :=
    h.steady.stopped fun agrees => ⟨by nofun, (h.onTime agrees).reached.trans hlimit⟩
  flush s flights underway hready hflights := by
    obtain ⟨f, hf⟩ := List.exists_mem_of_ne_nil flights hflights
    obtain ⟨op, hop⟩ := underway.exists_operation hf
    refine keeps_at fun e₀ t₀ h => ?_
    have hlt (agrees : t₀.Agrees pending) : t₀.past.length + 1 ≤ base + c.criticalPath n pending :=
      (h.onTime agrees).lt_criticalPath ordered hf (h.going f (List.mem_append_left _ hf)) hop
    refine (keeps_steady_flush _ h.steady fun agrees => (hlt agrees).trans hlimit).mono ?_
    rintro _ e t ⟨steady, -, later⟩
    refine ⟨steady, fun g hg => h.going g (List.mem_append_left _ hg), fun id => ?_,
      fun agrees => ?_⟩
    · rw [later.starts, h.started, List.append_nil, List.nil_append]
    · have agrees₀ := later.agrees agrees
      rw [later.exchanges]
      exact (h.onTime agrees₀).exchange hready (hlt agrees₀)
  endless {s flights e t} h hend := by
    refine h.steady.stopped fun agrees => ?_
    have hreached := (h.onTime agrees).reached
    have hbudget : c.criticalPath n pending ≤ lastRound * c.size :=
      Circuit.criticalPath_le_budget ordered
    rw [hend, roundBudget] at hreached
    omega

/-- The gates of a circuit take the time of the circuit. -/
theorem keeps_punctual (ordered : c.Ordered) (hlimit : base + c.criticalPath n pending ≤ limit) :
    Keeps (Stopped n limit pending)
      (fun e t => Steady n rounds e t ∧ t.past.length = base ∧ t.starts = [])
      (runGates gateRound (roundBudget c.size) (.new c) [])
      fun _ => Through c n base rounds pending := by
  have hgates : Keeps (Stopped n limit pending)
      (fun e t => Punctual c n base rounds pending (.new c) [] [] e t ∧ t.past.length = base)
      (runGates gateRound (roundBudget c.size) (.new c) [])
      fun s e t => (Underway c s [] ∧ s.ready = [])
        ∧ Punctual c n base rounds pending s [] [] e t :=
    (upkeep_punctual ordered hlimit).keeps_runGates rfl (.new c)
  refine (hgates.of_pre ?_).mono ?_
  · rintro e t ⟨steady, hbase, hstarts⟩
    exact ⟨.new steady hstarts hbase, hbase⟩
  · rintro s e t ⟨⟨underway, hready⟩, h⟩
    have hall : ∀ id < c.size, s.value? id ≠ none :=
      underway.circuit ▸ underway.sound.all_settled hready (underway.circuit ▸ ordered)
    refine ⟨h.steady, ?_, fun agrees => (h.onTime agrees).finished hall⟩
    refine (List.perm_ext_iff_of_nodup h.steady.once List.nodup_range).mpr fun id => ?_
    rw [h.started, List.mem_range]
    refine ⟨fun hid => ?_, fun hid => .inl (hall id hid)⟩
    obtain hvalue | ⟨g, hg, -⟩ := hid
    · rw [← underway.circuit, ← underway.sound.length_values]
      by_contra hge
      refine hvalue ?_
      rw [Schedule.value?, List.getElem?_eq_none (Nat.le_of_not_lt hge)]
      rfl
    · exact absurd hg List.not_mem_nil

end Traced

end Evaluator

end JointCircuit
