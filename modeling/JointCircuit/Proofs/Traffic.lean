/-
JointCircuit.Proofs.Traffic — what can be seen of an evaluation from outside.

An onlooker who cannot read the messages still sees when frames leave,
for whom, how many messages they hold and how long these are; one on the
machine also sees which rounds are evaluated. Two evaluations of circuits
of one shape do not differ in any of this: not in the inputs, not in the
material, not in what the peers send, as long as neither fails. Messages
that an evaluation that failed before has left in the mailbox are the one
thing that makes a difference, since they leave with the first frames
(`leftovers_leave`, §3).

Traces keep the frames that leave (`logs_evaluate`, §1), and what is seen
of a trace is read from the itinerary (§2).

Main statement: `evaluate_traffic` (§3).
-/
import JointCircuit.Proofs.Passage

namespace JointCircuit

variable {m : Modulus} {n : Nat} {π ρ α β : Type}

/-! ## §1 Frames that leave -/

namespace Session

/-- The frames handed out by a session whose exchanges are answered by these replies. -/
def sent : Session α → List (Except TransportError Delivery) → List (List Frame)
  | .exchange frames resume, received :: replies => frames :: (resume received).sent replies
  | _, _ => []

theorem sent_nil (session : Session α) : session.sent [] = [] := by
  cases session <;> rfl

theorem sent_bind {session : Session α} {next : α → Session β} {a : α}
    {replies replies' : List (Except TransportError Delivery)} (h : Run session replies a) :
    (session >>= next).sent (replies ++ replies')
      = session.sent replies ++ (next a).sent replies' := by
  induction h with
  | finished a => rfl
  | exchange frames resume rest ih => exact congrArg (frames :: ·) ih

theorem sent_map (session : Session α) (f : α → β)
    (replies : List (Except TransportError Delivery)) :
    (f <$> session).sent replies = session.sent replies := by
  induction session generalizing replies with
  | finished a => rfl
  | exchange frames resume ih =>
    cases replies with
    | nil => rfl
    | cons received replies => exact congrArg (frames :: ·) (ih received replies)

end Session

namespace Evaluator

namespace Traced

/-- A step that ends at once and sends nothing. -/
def Instant (x : Traced m (Trace m) α) : Prop :=
  ∀ e t, ∃ answer e' t', x (e, t) = .finished (answer, (e', t')) ∧ t'.sent = t.sent

/-- A property of computations that every way of composing them preserves. -/
structure Compositional (P : {α : Type} → Traced m (Trace m) α → Prop) : Prop where
  instant : ∀ {α : Type} {x : Traced m (Trace m) α}, Instant x → P x
  bind : ∀ {α β : Type} {x : Traced m (Trace m) α} {f : α → Traced m (Trace m) β}, P x →
    (∀ a, P (f a)) → P (x >>= f)
  flush : ∀ due, P (flush due)

namespace Instant

theorem pure (a : α) : Instant (pure a : Traced m (Trace m) α) :=
  fun e t => ⟨_, e, t, rfl, rfl⟩

theorem throw (fault : Fault) : Instant (throw fault : Traced m (Trace m) α) :=
  fun e t => ⟨_, e, t, rfl, rfl⟩

theorem lift {y : Eval m α} (h : ∀ e, ∃ answer e', y e = .finished (answer, e')) :
    Instant (lift y) := by
  intro e t
  obtain ⟨answer, e', hy⟩ := h e
  exact ⟨answer, e', t, by rw [Traced.lift, hy]; rfl, rfl⟩

theorem onPool {action : Action (Pool m) α} : Instant (Traced.lift (onPool action)) := by
  refine lift fun e => ?_
  simp only [Evaluator.onPool, act]
  split <;> exact ⟨_, _, rfl⟩

theorem ofExcept {ε : Type} {fault : ε → Fault} {x : Except ε α} :
    Instant (m := m) (Traced.lift (ofExcept fault x)) :=
  lift fun _ => by cases x <;> exact ⟨_, _, rfl⟩

theorem checkQuiescent : Instant (m := m) (Traced.lift checkQuiescent) :=
  lift fun e => ⟨_, _, checkQuiescent_apply e⟩

theorem countProtocol : Instant (m := m) (Traced.lift countProtocol) :=
  lift fun _ => ⟨_, _, rfl⟩

theorem note {g : Evaluator m → Trace m → Trace m} (h : ∀ e t, (g e t).sent = t.sent) :
    Instant (note g) :=
  fun e t => ⟨_, e, g e t, rfl, h e t⟩

theorem play (node : Option NodeId) (wrap : π → Task m) (number : Nat) (p : π)
    (round : Round m π Status) : Instant (play node wrap number p round) := by
  intro e t
  simp only [Traced.play]
  cases round (p, e.participant) <;> exact ⟨_, _, _, rfl, Trace.sent_play ..⟩

end Instant

namespace Compositional

variable {P : {α : Type} → Traced m (Trace m) α → Prop} (h : Compositional P)

include h

theorem runRounds [Protocol m π ρ] (wrap : π → Task m) (budget round : Nat) (p : π) :
    P (runRounds wrap budget round p) := by
  induction budget generalizing round p with
  | zero => exact h.instant (.throw _)
  | succ budget ih =>
    refine h.bind (h.instant (.play _ _ _ _ _)) ?_
    rintro ⟨status, p⟩
    cases status with
    | done => exact h.instant (.pure _)
    | more => exact h.bind (h.flush _) fun _ => ih _ _

theorem run [Protocol m π ρ] (wrap : π → Task m) (p : π) : P (run wrap p) := by
  refine h.bind (h.runRounds _ _ _ _) fun p => h.bind (h.instant .checkQuiescent) fun _ =>
    h.bind (h.instant .countProtocol) fun _ => ?_
  cases (Protocol.out m p).1 with
  | none => exact h.instant (.throw _)
  | some result => exact h.instant (.pure _)

theorem advance (s : Schedule m) (flight : InFlight m) : P (advance gateRound s flight) := by
  refine h.bind (h.instant (.play _ _ _ _ _)) ?_
  rintro ⟨status, gate⟩
  cases status with
  | more => exact h.instant (.pure _)
  | done =>
    dsimp only
    cases gate.out.1 with
    | none => exact h.instant (.throw _)
    | some value =>
      exact h.bind (h.instant .countProtocol) fun _ =>
        h.bind (h.instant (.note fun _ _ => rfl)) fun _ => h.instant (.pure _)

theorem advanceAll (s : Schedule m) (flights : List (InFlight m)) :
    P (advanceAll gateRound s flights) := by
  induction flights generalizing s with
  | nil => exact h.instant (.pure _)
  | cons flight rest ih =>
    exact h.bind (h.advance s flight) fun p => h.bind (ih p.1) fun q => h.instant (.pure _)

theorem startReady (budget : Nat) (s : Schedule m) : P (startReady gateRound budget s) := by
  induction budget generalizing s with
  | zero => exact h.instant (.pure _)
  | succ budget ih =>
    unfold Traced.startReady
    cases s.next? with
    | none => exact h.instant (.pure _)
    | some next =>
      exact h.bind (h.instant .ofExcept) fun gate => h.bind (h.instant (.note fun _ _ => rfl))
        fun _ => h.bind (h.advance _ _) fun p => h.bind (ih p.1) fun q => h.instant (.pure _)

theorem runGates (budget : Nat) (s : Schedule m) (flights : List (InFlight m)) :
    P (runGates gateRound budget s flights) := by
  induction budget generalizing s flights with
  | zero => exact h.instant (.throw _)
  | succ budget ih =>
    refine h.bind (h.advanceAll s flights) fun p => h.bind (h.startReady _ _) fun q =>
      h.bind (h.instant (.note fun _ _ => rfl)) fun _ => ?_
    cases p.2 ++ q.2 with
    | nil => exact h.instant (.pure _)
    | cons flight flights => exact h.bind (h.flush _) fun _ => ih _ _

/-- A property of that kind holds of an evaluation. -/
theorem evaluate (c : Circuit m) : P (evaluate c) := by
  refine h.bind (h.instant .onPool) fun pool => h.bind (h.instant .ofExcept) fun _ =>
    h.bind (h.instant .onPool) fun pool => h.bind ?_ fun _ => h.bind (h.runGates _ _ _) fun s =>
    h.bind (h.instant .checkQuiescent) fun _ => h.bind (h.instant .ofExcept) fun values =>
    h.bind (h.instant (.note fun _ _ => rfl)) fun _ => h.bind (h.instant .onPool) fun pool =>
    h.bind ?_ fun _ => h.instant (.pure _)
  · split
    · exact h.instant (.pure _)
    · exact h.bind (h.run _ _) fun _ => h.instant .onPool
  · split
    · exact h.run _ _
    · exact h.instant (.pure _)

end Compositional

/-- The trace keeps all frames that the computation hands out. -/
def Logs (x : Traced m (Trace m) α) : Prop :=
  ∀ e t replies answer e' t', Session.Run (x (e, t)) replies (answer, (e', t')) →
    t'.sent = t.sent ++ (x (e, t)).sent replies

theorem Instant.logs {x : Traced m (Trace m) α} (h : Instant x) : Logs x := by
  intro e t replies answer e' t' hrun
  obtain ⟨answer₁, e₁, t₁, hx, hsent⟩ := h e t
  rw [hx] at hrun ⊢
  obtain ⟨rfl, heq⟩ := Session.run_finished.mp hrun
  cases heq
  exact hsent.trans (List.append_nil _).symm

theorem logs_bind {x : Traced m (Trace m) α} {f : α → Traced m (Trace m) β} (hx : Logs x)
    (hf : ∀ a, Logs (f a)) : Logs (x >>= f) := by
  intro e t replies answer e' t' hrun
  rw [bind_apply, Session.run_bind] at hrun
  obtain ⟨⟨answer₁, e₁, t₁⟩, replies₁, replies₂, rfl, hfirst, hrest⟩ := hrun
  rw [bind_apply, Session.sent_bind hfirst, ← List.append_assoc, ← hx _ _ _ _ _ _ hfirst]
  cases answer₁ with
  | ok a => exact hf a _ _ _ _ _ _ hrest
  | error fault =>
    obtain ⟨rfl, heq⟩ := Session.run_finished.mp hrest
    cases heq
    exact (List.append_nil _).symm

/-- The frames that leave are those of the mailbox before. -/
theorem logs_flush (due : List (Task m × Nat)) : Logs (flush due) := by
  intro e t replies answer e' t' hrun
  rw [flush_apply] at hrun ⊢
  cases htake : Mailbox.takeOutgoing e.participant.mailbox with
  | error fault box =>
    rw [htake] at hrun
    obtain ⟨rfl, heq⟩ := Session.run_finished.mp hrun
    cases heq
    exact (List.append_nil _).symm
  | ok frames box =>
    obtain ⟨hframes, -⟩ := Mailbox.takeOutgoing_letters htake
    rw [htake] at hrun
    cases hrun with
    | exchange _ _ rest =>
      rename_i reply replies
      -- whatever the reply, the trace gets the exchange and nothing else is sent
      have hended (session : Session (Except Fault Unit × Evaluator m × Trace m))
          (h : replies = []) (ht : t' = t.exchange ⟨due, e.participant.mailbox, reply⟩) :
          t'.sent = t.sent ++ frames :: session.sent replies := by
        rw [h, ht, Trace.sent_exchange, hframes, Session.sent_nil]
      cases reply with
      | error error =>
        obtain ⟨rfl, heq⟩ := Session.run_finished.mp rest
        cases heq
        exact hended _ rfl rfl
      | ok delivery =>
        dsimp only at rest
        cases hdeliver : Mailbox.deliver delivery box with
        | error fault box' =>
          rw [hdeliver] at rest
          obtain ⟨rfl, heq⟩ := Session.run_finished.mp rest
          cases heq
          exact hended _ rfl rfl
        | ok u box' =>
          rw [hdeliver] at rest
          obtain ⟨rfl, heq⟩ := Session.run_finished.mp rest
          cases heq
          exact hended _ rfl rfl

/-- The trace of an evaluation keeps the frames that leave. -/
theorem logs_evaluate (c : Circuit m) : Logs (evaluate c) :=
  Compositional.evaluate ⟨Instant.logs, logs_bind, logs_flush⟩ c

/-- The frames that leave do not depend on whether a trace is kept. -/
theorem Erases.sent_eq {x : Traced m (Trace m) α} {y : Eval m α} (h : Erases x y) (e : Evaluator m)
    (t : Trace m) (replies : List (Except TransportError Delivery)) :
    (x (e, t)).sent replies = (y e).sent replies := by
  rw [← h e t, Session.sent_map]

/-- What the trace of an evaluation says is what leaves. -/
theorem sent_eq_of_run {c : Circuit m} {e e' : Evaluator m} {t : Trace m}
    {replies : List (Except TransportError Delivery)} {answer : Except Fault (Outputs m)}
    (hrun : Session.Run (evaluate c (e, {})) replies (answer, (e', t))) :
    t.sent = (Evaluator.evaluate c e).sent replies := by
  rw [logs_evaluate c _ _ _ _ _ _ hrun, (erases_evaluate c).sent_eq]
  rfl

end Traced

/-! ## §2 A run and its itinerary -/

/-- Two runs do the same as long as neither fails: one is not behind the other, unless it has
failed. -/
structure Abreast (succeeds succeeds' : Prop) (l l' : List α) : Prop where
  comparable : l <+: l' ∨ l' <+: l
  ahead : succeeds → l' <+: l
  ahead' : succeeds' → l <+: l'

namespace Abreast

variable {succeeds succeeds' : Prop} {l l' : List α}

/-- What successful runs do is the same. -/
theorem eq (h : Abreast succeeds succeeds' l l') (hsucceeds : succeeds) (hsucceeds' : succeeds') :
    l = l' :=
  (h.ahead' hsucceeds').eq_of_length_le (h.ahead hsucceeds).length_le

theorem imp (h : Abreast succeeds succeeds' l l') {f : List α → List β}
    (hf : ∀ l l', l <+: l' → f l <+: f l') : Abreast succeeds succeeds' (f l) (f l') where
  comparable := h.comparable.imp (hf _ _) (hf _ _)
  ahead hsucceeds := hf _ _ (h.ahead hsucceeds)
  ahead' hsucceeds := hf _ _ (h.ahead' hsucceeds)

theorem map (h : Abreast succeeds succeeds' l l') (f : α → β) :
    Abreast succeeds succeeds' (l.map f) (l'.map f) :=
  h.imp fun _ _ h => h.map f

end Abreast

/-- The run of an evaluation has gone as far as `marks` on the itinerary, and if it succeeds this
is all. -/
structure Went (n : Nat) (c : Circuit m) (e : Evaluator m) (succeeds : Prop) (marks : List Mark)
    (e' : Evaluator m) (t : Trace m) : Prop where
  sights : t.sights = marks.map Mark.sight
  sent : t.sent.map lengthsOf = (e.bag.addAll marks).sent
  onTheWay : ∃ k, marks <+: itinerary n c e.participant.pool.hasJointRandomness
    e.participant.pool.opened.hasPending k
  arrived : succeeds → ∃ k, Traced.Arrived n c e e.participant.pool.hasJointRandomness
      e.participant.pool.opened.hasPending k e' t
    ∧ marks = itinerary n c e.participant.pool.hasJointRandomness
      e.participant.pool.opened.hasPending k

/-- Every run of an evaluation keeps to the itinerary of its circuit. -/
theorem exists_went {e e' : Evaluator m} (fit : e.participant.Fit n) {c : Circuit m}
    {replies : List (Except TransportError Delivery)} {answer : Except Fault (Outputs m)}
    {t : Trace m} (hrun : Session.Run (Traced.evaluate c (e, {})) replies (answer, (e', t))) :
    ∃ marks, Went n c e (answer.isOk = true) marks e' t := by
  obtain ⟨-, hok, herror⟩ :=
    Traced.keeps_itinerary fit c rfl rfl e {} _ _ _ _ ⟨rfl, rfl⟩ hrun
  cases answer with
  | ok outputs =>
    obtain ⟨k, harrived⟩ := hok outputs rfl
    exact ⟨_, harrived.follows.sights, harrived.follows.sent, ⟨k, List.prefix_refl _⟩,
      fun _ => ⟨k, harrived, rfl⟩⟩
  | error fault =>
    obtain ⟨k, marks, hbefore, hsights, hsent⟩ := herror fault rfl
    exact ⟨marks, hsights, hsent, ⟨k, hbefore⟩, nofun⟩

/-! ## §3 Two runs -/

/-- Two successful runs add the same to the counters of the evaluators. -/
structure GrowAlike (e₁ e₁' e₂ e₂' : Evaluator m) : Prop where
  rounds : e₁'.rounds + e₂.rounds = e₂'.rounds + e₁.rounds
  protocols : e₁'.protocols + e₂.protocols = e₂'.protocols + e₁.protocols

namespace Went

variable {c : Circuit m} {succeeds succeeds₁ succeeds₂ : Prop} {marks marks₁ marks₂ : List Mark}
variable {e e' e₁ e₁' e₂ e₂' : Evaluator m} {t t₁ t₂ : Trace m}

/-- Only the shape of the circuit matters. -/
theorem shape (h : Went n c e succeeds marks e' t) : Went n c.shape e succeeds marks e' t where
  sights := h.sights
  sent := h.sent
  onTheWay := (itinerary_shape c _ _).symm ▸ h.onTheWay
  arrived hsucceeds := by
    obtain ⟨k, harrived, hmarks⟩ := h.arrived hsucceeds
    exact ⟨k, harrived.shape, (itinerary_shape c _ _).symm ▸ hmarks⟩

section

variable (h₁ : Went n c e₁ succeeds₁ marks₁ e₁' t₁) (h₂ : Went n c e₂ succeeds₂ marks₂ e₂' t₂)
variable (hpending : e₁.participant.pool.opened.hasPending = e₂.participant.pool.opened.hasPending)
variable (hjoint : e₁.participant.pool.hasJointRandomness = e₂.participant.pool.hasJointRandomness)

include h₁ h₂ hpending hjoint

/-- Two runs on one way. -/
theorem abreast : Abreast succeeds₁ succeeds₂ marks₁ marks₂ := by
  obtain ⟨k₁, hplan₁⟩ := h₁.onTheWay
  obtain ⟨k₂, hplan₂⟩ := h₂.onTheWay
  rw [hpending, hjoint] at hplan₁
  refine ⟨?_, fun hsucceeds => ?_, fun hsucceeds => ?_⟩
  · exact List.prefix_or_prefix_of_prefix (hplan₁.trans (itinerary_mono (Nat.le_max_left k₁ k₂)))
      (hplan₂.trans (itinerary_mono (Nat.le_max_right k₁ k₂)))
  · obtain ⟨k, harrived, hmarks⟩ := h₁.arrived hsucceeds
    rw [hpending, hjoint] at harrived hmarks
    exact hmarks ▸ hplan₂.trans (itinerary_le_of_over harrived.ended k₂)
  · obtain ⟨k, harrived, hmarks⟩ := h₂.arrived hsucceeds
    exact hmarks ▸ hplan₁.trans (itinerary_le_of_over harrived.ended k₁)

/-- Two runs to its end. -/
theorem growAlike (hsucceeds₁ : succeeds₁) (hsucceeds₂ : succeeds₂) :
    GrowAlike e₁ e₁' e₂ e₂' := by
  have hmarks := (h₁.abreast h₂ hpending hjoint).eq hsucceeds₁ hsucceeds₂
  obtain ⟨k₁, harrived₁, -⟩ := h₁.arrived hsucceeds₁
  obtain ⟨k₂, harrived₂, -⟩ := h₂.arrived hsucceeds₂
  have hrounds : t₁.sent.length = t₂.sent.length := by
    rw [← List.length_map lengthsOf, h₁.sent, Bag.length_sent, hmarks, ← h₂.sights]
    rw [← List.length_map lengthsOf, h₂.sent, Bag.length_sent, ← h₂.sights]
    rfl
  rw [hpending, hjoint] at harrived₁
  have hend := harrived₁.ended.eq harrived₂.ended
  constructor
  · rw [harrived₁.follows.rounds, harrived₂.follows.rounds, hrounds]
    omega
  · rw [harrived₁.counted, harrived₂.counted, hend]
    omega

end

end Went

/-- Evaluations of circuits of one shape look the same from outside. The parties may hold and
receive anything: as long as neither fails they evaluate the same rounds, with the same exchanges
between them. If it is the same party, and has messages of the same lengths queued at the start,
then its frames hold messages of the same lengths. -/
theorem evaluate_traffic {c₁ c₂ : Circuit m} (hshape : c₁.shape = c₂.shape)
    {e₁ e₂ e₁' e₂' : Evaluator m} (fit₁ : e₁.participant.Fit n) (fit₂ : e₂.participant.Fit n)
    (hpending : e₁.participant.pool.opened.hasPending = e₂.participant.pool.opened.hasPending)
    (hjoint : e₁.participant.pool.hasJointRandomness = e₂.participant.pool.hasJointRandomness)
    {replies₁ replies₂ : List (Except TransportError Delivery)}
    {answer₁ answer₂ : Except Fault (Outputs m)}
    (hrun₁ : Session.Run (evaluate c₁ e₁) replies₁ (answer₁, e₁'))
    (hrun₂ : Session.Run (evaluate c₂ e₂) replies₂ (answer₂, e₂')) :
    ∃ t₁ t₂ : Trace m, Session.Run (Traced.evaluate c₁ (e₁, {})) replies₁ (answer₁, (e₁', t₁))
      ∧ Session.Run (Traced.evaluate c₂ (e₂, {})) replies₂ (answer₂, (e₂', t₂))
      ∧ Abreast (answer₁.isOk = true) (answer₂.isOk = true) t₁.sights t₂.sights
      ∧ (answer₁.isOk = true → answer₂.isOk = true → GrowAlike e₁ e₁' e₂ e₂')
      ∧ (e₁.bag = e₂.bag →
        Abreast (answer₁.isOk = true) (answer₂.isOk = true)
          (((evaluate c₁ e₁).sent replies₁).map lengthsOf)
          (((evaluate c₂ e₂).sent replies₂).map lengthsOf)
        ∧ (answer₁.isOk = true → answer₂.isOk = true →
          e₁'.bytesSent + e₂.bytesSent = e₂'.bytesSent + e₁.bytesSent)) := by
  obtain ⟨t₁, htrace₁⟩ := (Traced.erases_evaluate c₁).exists_notes ({} : Trace m) hrun₁
  obtain ⟨t₂, htrace₂⟩ := (Traced.erases_evaluate c₂).exists_notes ({} : Trace m) hrun₂
  obtain ⟨marks₁, hwent₁⟩ := exists_went fit₁ htrace₁
  obtain ⟨marks₂, hwent₂⟩ := exists_went fit₂ htrace₂
  have hshape₁ : Went n c₂.shape e₁ _ marks₁ e₁' t₁ := hshape ▸ hwent₁.shape
  have habreast := hshape₁.abreast hwent₂.shape hpending hjoint
  refine ⟨t₁, t₂, htrace₁, htrace₂, ?_, hshape₁.growAlike hwent₂.shape hpending hjoint,
    fun hbag => ?_⟩
  · rw [hwent₁.sights, hwent₂.sights]
    exact habreast.map _
  rw [← Traced.sent_eq_of_run htrace₁, ← Traced.sent_eq_of_run htrace₂]
  have hframes : Abreast (answer₁.isOk = true) (answer₂.isOk = true) (t₁.sent.map lengthsOf)
      (t₂.sent.map lengthsOf) := by
    rw [hwent₁.sent, hwent₂.sent, hbag]
    exact habreast.imp fun _ _ => Bag.sent_mono _
  refine ⟨hframes, fun hok₁ hok₂ => ?_⟩
  obtain ⟨k₁, harrived₁, -⟩ := hwent₁.arrived hok₁
  obtain ⟨k₂, harrived₂, -⟩ := hwent₂.arrived hok₂
  rw [harrived₁.follows.bytesSent, harrived₂.follows.bytesSent, hframes.eq hok₁ hok₂]
  omega

/-- As `sumCircuit`, with another input. -/
def otherSum : Circuit .mersenne61 :=
  ⟨[.input 1 (some 9), .input 2 none, .add 0 1, .macCheck [2]]⟩

/-- Neither its own input nor that of its peer can be told from the frames of a party. -/
theorem evaluate_traffic_sums : ∃ replies₁ replies₂ outputs₁ outputs₂ e₁' e₂',
    Session.Run (evaluate sumCircuit seededParty) replies₁ (.ok outputs₁, e₁')
    ∧ Session.Run (evaluate otherSum seededParty) replies₂ (.ok outputs₂, e₂')
    ∧ GrowAlike seededParty e₁' seededParty e₂'
    ∧ ((evaluate sumCircuit seededParty).sent replies₁).map lengthsOf
      = ((evaluate otherSum seededParty).sent replies₂).map lengthsOf := by
  have fit : seededParty.participant.Fit 2 :=
    .new seededParty.participant.pool (by decide) (by decide) rfl
  have hshape : sumCircuit.shape = otherSum.shape := rfl
  let replies (x : Element .mersenne61) : List (Except TransportError Delivery) :=
    [.ok [(2, [x.toBytes])]]
  have hanswered₁ : ((evaluate sumCircuit seededParty).answered (replies 3)).map (·.1.isOk)
      = some true := by decide +kernel
  have hanswered₂ : ((evaluate otherSum seededParty).answered (replies 8)).map (·.1.isOk)
      = some true := by decide +kernel
  obtain ⟨⟨answer₁, e₁'⟩, hrun₁, hok₁⟩ := Option.map_eq_some_iff.mp hanswered₁
  obtain ⟨⟨answer₂, e₂'⟩, hrun₂, hok₂⟩ := Option.map_eq_some_iff.mp hanswered₂
  cases answer₁ with
  | error fault => cases hok₁
  | ok outputs₁ =>
    cases answer₂ with
    | error fault => cases hok₂
    | ok outputs₂ =>
      have hrun₁ := Session.run_of_answered hrun₁
      have hrun₂ := Session.run_of_answered hrun₂
      obtain ⟨-, -, -, -, -, hgrow, hsame⟩ :=
        evaluate_traffic hshape fit fit rfl rfl hrun₁ hrun₂
      exact ⟨_, _, outputs₁, outputs₂, e₁', e₂', hrun₁, hrun₂, hgrow rfl rfl,
        (hsame rfl).1.eq rfl rfl⟩

/-- An evaluation that fails once it has queued a message. -/
def abandoned : Circuit .mersenne61 :=
  ⟨[.input 1 (some 5), .input 1 none]⟩

/-- An evaluation in which the first party has nothing to send. -/
def silent : Circuit .mersenne61 :=
  ⟨[.input 2 none]⟩

/-- What an evaluation that failed has left in the mailbox leaves with the first frames of the next
one: with nothing else to tell them apart, two evaluations of one circuit begin differently. -/
theorem leftovers_leave : ∃ fault e answer₁ answer₂ e₁ e₂ replies,
    Session.Run (evaluate abandoned seededParty) [] (.error fault, e)
    ∧ e.participant.pool.opened.length = seededParty.participant.pool.opened.length
    ∧ e.participant.pool.hasJointRandomness = seededParty.participant.pool.hasJointRandomness
    ∧ Session.Run (evaluate silent seededParty) replies (answer₁, e₁)
    ∧ Session.Run (evaluate silent e) replies (answer₂, e₂)
    ∧ ((evaluate silent seededParty).sent replies).map lengthsOf = [[[], []]]
    ∧ ((evaluate silent e).sent replies).map lengthsOf = [[[], [8]]] := by
  let replies : List (Except TransportError Delivery) :=
    [.ok [(2, [(0 : Element .mersenne61).toBytes])]]
  have hfresh : ((evaluate silent seededParty).answered replies).isSome = true := by decide +kernel
  have hfailed : ((evaluate abandoned seededParty).answered []).map (fun r =>
      (r.1.isOk, r.2.participant.pool.opened.length, r.2.participant.pool.hasJointRandomness))
        = some (false, seededParty.participant.pool.opened.length,
          seededParty.participant.pool.hasJointRandomness) := by
    decide +kernel
  have hnext : ((evaluate abandoned seededParty).answered []).map (fun r =>
      (((evaluate silent r.2).answered replies).isSome,
        ((evaluate silent r.2).sent replies).map lengthsOf)) = some (true, [[[], [8]]]) := by
    decide +kernel
  obtain ⟨⟨answer₁, e₁⟩, hrun₁⟩ := Option.isSome_iff_exists.mp hfresh
  obtain ⟨⟨answer, e⟩, hrun, hok⟩ := Option.map_eq_some_iff.mp hfailed
  rw [hrun] at hnext
  simp only [Option.map_some, Option.some.injEq, Prod.mk.injEq] at hok hnext
  obtain ⟨hended, hsent⟩ := hnext
  obtain ⟨⟨answer₂, e₂⟩, hrun₂⟩ := Option.isSome_iff_exists.mp hended
  cases answer with
  | ok outputs => cases hok.1
  | error fault =>
    exact ⟨fault, e, answer₁, answer₂, e₁, e₂, replies, Session.run_of_answered hrun, hok.2.1,
      hok.2.2, Session.run_of_answered hrun₁, Session.run_of_answered hrun₂, by decide +kernel,
      hsent⟩

end Evaluator

end JointCircuit
