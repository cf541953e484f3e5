/-
JointCircuit.Proofs.Duration — how many exchanges an evaluation takes.

An evaluation tosses coins if it has no joint randomness yet, runs the
gates and checks what is still unchecked. The toss and the check count
their rounds like the gates do (§1), so all three take a time that is
known in advance up to what there is to check (§2); an evaluation that
fails has not gone on for longer.

Main statement: `evaluate_lasts` (§3).
-/
import JointCircuit.Proofs.Punctual

namespace JointCircuit

open JointCircuit.Action

variable {m : Modulus} {n : Nat} {π ρ α : Type}

/-! ## §1 Single protocols -/

/-- A protocol with a clock: before every round it is `due`, and it ends in its last round. -/
structure Clocked [Protocol m π ρ] (wrap : π → Task m) (n last : Nat)
    (due : Nat → π → Pool m → Prop) : Prop where
  faithful : Faithful wrap
  timely : ∀ {round p pool}, due round p pool → (wrap p).Timely round
  step : ∀ {round p p' w w' status}, due round p w.pool → w.Fit n →
    Protocol.evaluate round (p, w) = .ok status (p', w') →
    status = .before last round ∧ (round < last → due (round + 1) p' w'.pool)

/-- The coin toss takes a commitment. -/
theorem CoinToss.clocked : Clocked (.coinToss : CoinToss → Task m) n (2 * exchanges n)
    fun round p _ => (round = 0 ∧ p = {}) ∨ p.Due (exchanges n) round where
  faithful := .coinToss
  timely := by
    rintro round p pool (⟨-, rfl⟩ | due)
    · exact fun c hc => nomatch hc
    · exact due.timely
  step := by
    rintro round p p' w w' status hdue fit hround
    have hpositive : 0 < exchanges n := Nat.succ_pos _
    obtain ⟨rfl, rfl⟩ | due := hdue
    · obtain ⟨box, hnew⟩ := CoinToss.evaluate_new 0 w
      obtain ⟨⟩ := hnew.symm.trans hround
      refine ⟨(Status.before_of_lt (by omega)).symm, fun _ => .inr ⟨_, rfl, ?_⟩⟩
      exact Commit.due_begun _ _ hpositive
    · obtain ⟨hstatus, hdue⟩ := due.step (congrArg exchanges fit.parties) hround
      exact ⟨hstatus, fun hlt => .inr (hdue hlt)⟩

/-- A check of something takes a toss and a commitment. -/
theorem MacCheck.clocked : Clocked (fun p : MacCheck m => (.gate (.macCheck p) : Task m)) n
    (4 * exchanges n) fun round p pool =>
      (round = 0 ∧ p = {} ∧ pool.opened.hasPending = true) ∨ p.Due (exchanges n) round where
  faithful := .macCheck
  timely := by
    rintro round p pool (⟨-, rfl, -⟩ | due)
    · trivial
    · exact due.timely
  step := by
    rintro round p p' w w' status hdue fit hround
    have hpositive : 0 < exchanges n := Nat.succ_pos _
    obtain ⟨rfl, rfl, hpending⟩ | due := hdue
    · obtain ⟨-, hstart⟩ := MacCheck.evaluate_start hround
      have hentries : w.pool.opened.shares ≠ [] := by
        simpa [OpenedValues.hasPending] using hpending
      rw [if_neg hentries] at hstart
      obtain ⟨rfl, rfl⟩ := hstart
      exact ⟨(Status.before_of_lt (by omega)).symm,
        fun _ => .inr (MacCheck.due_begun _ _ _ hpositive)⟩
    · obtain ⟨hstatus, hdue, -⟩ := due.step (congrArg exchanges fit.parties) hround
      exact ⟨hstatus, fun hlt => .inr (hdue hlt)⟩

namespace Evaluator

theorem Later.play {k : Nat} {t₀ t : Trace m} (h : Later k t₀ t) {r : Played m}
    (hnone : r.start? = none) : Later k t₀ (t.play r) :=
  ⟨h.exchanges, by rw [Trace.starts_play, hnone, h.starts, Option.toList_none, List.append_nil],
    h.finished⟩

/-- A protocol with a clock that began in `t₀`, before this round of its and after `passed`
exchanges. -/
structure Ticking (n rounds last : Nat) (due : Nat → π → Pool m → Prop) (t₀ : Trace m)
    (passed round : Nat) (p : π) (e : Evaluator m) (t : Trace m) : Prop where
  steady : Steady n rounds e t
  due : due round p e.participant.pool
  le : round ≤ last
  later : Later passed t₀ t

namespace Ticking

variable [Protocol m π ρ] {wrap : π → Task m} {last rounds limit round : Nat}
variable {due : Nat → π → Pool m → Prop} {pending : NodeId → Bool} {p p' : π} {w : Participant m}
variable {e : Evaluator m} {t₀ t : Trace m}

theorem play (h : Ticking n rounds last due t₀ round round p e t)
    (clocked : Clocked wrap n last due)
    (hround : (wrap p', w) = endState (Task.evaluate round (wrap p, e.participant))) :
    Steady n rounds { e with participant := w }
        (t.play ⟨none, round, (wrap p, e.participant), (wrap p', w)⟩)
      ∧ Later round t₀ (t.play ⟨none, round, (wrap p, e.participant), (wrap p', w)⟩) := by
  have hnone : Played.start? (⟨none, round, (wrap p, e.participant), (wrap p', w)⟩ : Played m)
      = none := by simp [Played.start?]
  refine ⟨h.steady.play (r := ⟨none, round, (wrap p, e.participant), (wrap p', w)⟩) rfl hround
    (clocked.timely h.due) fun start hstart => ?_, h.later.play hnone⟩
  rw [hnone] at hstart
  cases hstart

theorem more (h : Ticking n rounds last due t₀ round round p e t)
    (clocked : Clocked wrap n last due)
    (hround : Protocol.evaluate round (p, e.participant) = .ok .more (p', w)) :
    Ticking n rounds last due t₀ round (round + 1) p' { e with participant := w }
      (t.play ⟨none, round, (wrap p, e.participant), (wrap p', w)⟩) := by
  obtain ⟨steady, later⟩ :=
    h.play clocked (by rw [clocked.faithful.of_ok hround, endState_ok])
  obtain ⟨hstatus, hdue⟩ := clocked.step h.due h.steady.fit hround
  have hlt : round < last := Status.before_eq_more.mp hstatus.symm
  exact ⟨steady, hdue hlt, hlt, later⟩

theorem done (h : Ticking n rounds last due t₀ round round p e t)
    (clocked : Clocked wrap n last due)
    (hround : Protocol.evaluate round (p, e.participant) = .ok .done (p', w)) :
    Steady n rounds { e with participant := w }
        (t.play ⟨none, round, (wrap p, e.participant), (wrap p', w)⟩)
      ∧ Later last t₀ (t.play ⟨none, round, (wrap p, e.participant), (wrap p', w)⟩) := by
  obtain ⟨steady, later⟩ :=
    h.play clocked (by rw [clocked.faithful.of_ok hround, endState_ok])
  obtain ⟨hstatus, -⟩ := clocked.step h.due h.steady.fit hround
  have hlast : round = last := Nat.le_antisymm h.le (Status.before_eq_done.mp hstatus.symm)
  exact ⟨steady, hlast ▸ later⟩

/-- A failure in between comes in time. -/
theorem stopped {k : Nat} (steady : Steady n rounds e t) (hk : k ≤ last) (later : Later k t₀ t)
    (hlimit : t₀.Agrees pending → t₀.past.length + last ≤ limit) {fault : Fault}
    (hfault : fault ≠ .protocol .endless) : Stopped n limit pending fault e t := by
  refine steady.stopped fun agrees => ⟨hfault, ?_⟩
  rw [later.exchanges]
  exact (Nat.add_le_add_left hk _).trans (hlimit (later.agrees agrees))

end Ticking

namespace Traced

variable {rounds limit : Nat} {pending : NodeId → Bool}

/-- A protocol with a clock runs until its last round, with an exchange after each round before. -/
theorem keeps_clocked [Protocol m π ρ] {wrap : π → Task m} {last : Nat}
    {due : Nat → π → Pool m → Prop} (clocked : Clocked wrap n last due) (hlast : last ≤ lastRound)
    {p : π} {e₀ : Evaluator m} {t₀ : Trace m} (steady : Steady n rounds e₀ t₀)
    (hdue : due 0 p e₀.participant.pool)
    (hlimit : t₀.Agrees pending → t₀.past.length + last ≤ limit) :
    Keeps (Stopped n limit pending) (fun e t => e = e₀ ∧ t = t₀) (run wrap p)
      fun _ e t => Steady n rounds e t ∧ Later last t₀ t := by
  have hflush : ∀ round p, Keeps (Stopped n limit pending)
      (fun e t => 0 < round ∧ Ticking n rounds last due t₀ (round - 1) round p e t)
      (flush [(wrap p, round)]) fun _ => Ticking n rounds last due t₀ round round p := by
    refine fun round p => keeps_at fun e₁ t₁ ⟨hpos, h⟩ => ?_
    have hpassed : round - 1 + 1 = round := Nat.sub_add_cancel hpos
    refine (keeps_steady_flush _ h.steady fun agrees => ?_).mono ?_
    · rw [h.later.exchanges, Nat.add_assoc, hpassed]
      exact (Nat.add_le_add_left h.le _).trans (hlimit (h.later.agrees agrees))
    · rintro _ e t ⟨steady, hpool, later⟩
      exact ⟨steady, hpool ▸ h.due, h.le, hpassed ▸ h.later.trans later⟩
  have hrounds : Keeps (Stopped n limit pending)
      (Ticking n rounds last due t₀ 0 0 p) (runRounds wrap (lastRound + 1) 0 p)
      fun _ e t => Steady n rounds e t ∧ Later last t₀ t := by
    refine keeps_runRounds ?_ ?_ ?_ hflush ?_ (Nat.zero_add _) p
    · exact fun round p p' w e t h hround => ⟨Nat.succ_pos _, h.more clocked hround⟩
    · exact fun round p p' w e t h hround => h.done clocked hround
    · intro round p fault p' w e t h hround
      obtain ⟨steady, later⟩ := h.play clocked (clocked.faithful.of_error hround)
      have hfault : fault.OfRound := Task.fails round (wrap p, e.participant) fault (wrap p', w)
        (by rw [clocked.faithful, Round.within_apply, hround])
      exact Ticking.stopped steady h.le later hlimit hfault.ne_endless
    · exact fun p e t h => absurd (h.le.trans hlast) (Nat.not_succ_le_self _)
  have hsilent : ∀ (_ : π) (e : Evaluator m) (t : Trace m),
      Steady n rounds e t ∧ Later last t₀ t → Stopped n limit pending (.protocol .noOutput) e t :=
    fun _ e t h => Ticking.stopped h.1 (Nat.le_refl _) h.2 hlimit (by nofun)
  refine keeps_run (hrounds.from_state ⟨steady, hdue, Nat.zero_le _, .refl t₀⟩) ?_ ?_ hsilent
    fun p result e t h _ => h
  · exact fun p e t h _ _ => ⟨h.1.count _, h.2⟩
  · intro p e t violation h hviolation
    refine Ticking.stopped h.1 (Nat.le_refl _) h.2 hlimit fun heq => ?_
    cases heq
    exact hviolation.ne_endless rfl

end Traced

end Evaluator

/-! ## §2 Evaluations -/

namespace Pool

/-- The exchanges before the first gate: those of a toss, if there is no joint randomness. -/
def tossTime (pool : Pool m) : Nat :=
  if pool.hasJointRandomness then 0 else 2 * exchanges pool.parties

/-- The exchanges after the last gate: those of a check, if there is anything to check. -/
def checkTime (pool : Pool m) : Nat :=
  if pool.opened.hasPending then 4 * exchanges pool.parties else 0

theorem checkTime_le (pool : Pool m) : pool.checkTime ≤ 4 * exchanges pool.parties := by
  unfold checkTime
  split
  · exact Nat.le_refl _
  · exact Nat.zero_le _

end Pool

namespace Evaluator

/-- The longest that an evaluation may take: as if every check had something to check. -/
def longest (c : Circuit m) (pool : Pool m) : Nat :=
  pool.tossTime + c.criticalPath pool.parties (fun _ => true) + 4 * exchanges pool.parties

theorem time_le_longest {c : Circuit m} (ordered : c.Ordered) (pool : Pool m)
    (pending : NodeId → Bool) : pool.tossTime + c.criticalPath pool.parties pending
      + 4 * exchanges pool.parties ≤ longest c pool := by
  have hmono : c.criticalPath pool.parties pending ≤ c.criticalPath pool.parties fun _ => true :=
    Circuit.criticalPath_mono ordered fun _ _ => rfl
  unfold longest
  omega

namespace Traced

variable {rounds limit : Nat} {pending : NodeId → Bool} {c : Circuit m}

/-- Joint randomness, if there is none yet. -/
theorem keeps_toss {e₀ : Evaluator m} {t₀ : Trace m} (steady : Steady n rounds e₀ t₀)
    (hlimit : t₀.Agrees pending → t₀.past.length + e₀.participant.pool.tossTime ≤ limit) :
    Keeps (Stopped n limit pending) (fun e t => e = e₀ ∧ t = t₀)
      (if e₀.participant.pool.hasJointRandomness then pure () else initializeJointRandomness)
      fun _ e t => Steady n rounds e t ∧ Later e₀.participant.pool.tossTime t₀ t := by
  unfold Pool.tossTime at hlimit ⊢
  split
  · exact keeps_pure_from ⟨steady, .refl t₀⟩
  · rename_i hnone
    rw [if_neg hnone, steady.fit.parties] at hlimit
    have hlast : 2 * exchanges n ≤ lastRound := by
      have hexchanges := exchanges_le_two n
      unfold lastRound
      omega
    rw [steady.fit.parties]
    refine keeps_initializeJointRandomness
      (keeps_clocked CoinToss.clocked hlast steady (.inl ⟨rfl, rfl⟩) hlimit) fun seed e t h => ?_
    exact ⟨⟨⟨h.1.fit.mailbox, h.1.fit.parties, h.1.fit.opened⟩, h.1.safe, h.1.once,
      h.1.counted⟩, h.2⟩

/-- The check of what is left in the store. -/
theorem keeps_close {e₀ : Evaluator m} {t₀ : Trace m} (steady : Steady n rounds e₀ t₀)
    (hlimit : t₀.Agrees pending → t₀.past.length + e₀.participant.pool.checkTime ≤ limit) :
    Keeps (Stopped n limit pending) (fun e t => e = e₀ ∧ t = t₀)
      (if e₀.participant.pool.opened.hasPending then
        run (fun p => .gate (.macCheck p)) ({} : MacCheck m) else pure () : Traced m (Trace m) Unit)
      fun _ e t => Steady n rounds e t ∧ Later e₀.participant.pool.checkTime t₀ t := by
  unfold Pool.checkTime at hlimit ⊢
  split
  · rename_i hpending
    rw [if_pos hpending, steady.fit.parties] at hlimit
    have hlast : 4 * exchanges n ≤ lastRound := by
      have hexchanges := exchanges_le_two n
      unfold lastRound
      omega
    rw [steady.fit.parties]
    exact keeps_clocked MacCheck.clocked hlast steady (.inl ⟨rfl, rfl, hpending⟩) hlimit
  · exact keeps_pure_from ⟨steady, .refl t₀⟩

/-- An evaluation takes the time of the toss, of the circuit and of the check. -/
theorem keeps_evaluate {e₀ : Evaluator m} (fit : e₀.participant.Fit n) :
    Keeps (Stopped n (longest c e₀.participant.pool) pending)
      (fun e t => e = e₀ ∧ t = {}) (evaluate c)
      fun _ e t => Steady n e₀.rounds e t ∧ (t.starts.map (·.1)).Perm (List.range c.size)
        ∧ ∃ w, t.finished = some w ∧ (t.Agrees pending → t.past.length
          = e₀.participant.pool.tossTime + c.criticalPath n pending + w.pool.checkTime) := by
  have steady : Steady n e₀.rounds e₀ {} := ⟨fit, .new, List.nodup_nil, rfl⟩
  have hlongest : c.Ordered → e₀.participant.pool.tossTime + c.criticalPath n pending
      + 4 * exchanges n ≤ longest c e₀.participant.pool := fun ordered =>
    fit.parties ▸ time_le_longest ordered e₀.participant.pool pending
  have hstopped {fault : Fault} {e : Evaluator m} {t : Trace m} (ordered : c.Ordered)
      (h : Through c n e₀.participant.pool.tossTime e₀.rounds pending e t)
      (hfault : fault ≠ .protocol .endless) :
      Stopped n (longest c e₀.participant.pool) pending fault e t :=
    h.steady.stopped fun agrees =>
      ⟨hfault, h.time agrees ▸ (Nat.le_add_right _ _).trans (hlongest ordered)⟩
  refine keeps_evaluateWith
    (fun e t => c.Ordered ∧ Steady n e₀.rounds e t ∧ Later e₀.participant.pool.tossTime {} t)
    (fun _ e t => c.Ordered ∧ Through c n e₀.participant.pool.tossTime e₀.rounds pending e t)
    (fun _ e t => c.Ordered ∧ Through c n e₀.participant.pool.tossTime e₀.rounds pending e t
      ∧ t.finished = some e.participant)
    ?refused ?seed ?gates ?restless ?unfinished ?finished ?check
  case refused =>
    rintro e t error ⟨rfl, rfl⟩ -
    exact steady.stopped fun _ => ⟨by nofun, Nat.zero_le _⟩
  case seed =>
    rintro e t ⟨rfl, rfl⟩ valid
    have ordered := Circuit.ordered_of_validate valid
    refine (keeps_toss steady fun _ => ?_).mono fun _ _ _ h => ⟨ordered, h⟩
    have htoss := hlongest ordered
    exact (Nat.zero_add _).le.trans (by omega)
  case gates =>
    refine keeps_of_imp fun ordered => ?_
    have htime := hlongest ordered
    refine ((keeps_punctual ordered (by omega)).of_pre fun e t h => ?_).mono fun _ _ _ h =>
      ⟨ordered, h⟩
    exact ⟨h.1, h.2.exchanges.trans (Nat.zero_add _), h.2.starts⟩
  case restless =>
    exact fun _ _ _ _ h hrestless =>
      hstopped h.1 h.2 fun heq => hrestless.ne_endless (Fault.protocol.inj heq)
  case unfinished =>
    exact fun _ _ _ _ h _ => hstopped h.1 h.2 (by nofun)
  case finished =>
    exact fun _ _ _ _ ⟨ordered, h⟩ _ _ _ => ⟨ordered, ⟨⟨h.steady.fit, h.steady.safe.finish _,
      h.steady.once, h.steady.counted⟩, h.started, h.time⟩, rfl⟩
  case check =>
    rintro values e t ⟨ordered, h, hfinished⟩
    have htime : e.participant.pool.checkTime ≤ 4 * exchanges n :=
      h.steady.fit.parties ▸ e.participant.pool.checkTime_le
    refine (keeps_close h.steady fun agrees => ?_).mono fun _ e' t' ⟨steady, later⟩ => ?_
    · rw [h.time agrees]
      exact (Nat.add_le_add_left htime _).trans (hlongest ordered)
    · refine ⟨steady, later.starts ▸ h.started, e.participant, later.finished.trans hfinished,
        fun agrees => ?_⟩
      rw [later.exchanges, h.time (later.agrees agrees)]

end Traced

end Evaluator

/-! ## §3 The number of exchanges -/

/-- Whatever arrives, a session ends. -/
theorem Session.exists_run (session : Session α) (arriving : Nat → Except TransportError Delivery) :
    ∃ k a, Run session ((List.range k).map arriving) a := by
  induction session generalizing arriving with
  | finished a => exact ⟨0, a, .finished a⟩
  | exchange frames resume ih =>
    obtain ⟨k, a, hrun⟩ := ih (arriving 0) fun i => arriving (i + 1)
    refine ⟨k + 1, a, ?_⟩
    rw [List.range_succ_eq_map, List.map_cons, List.map_map]
    exact .exchange frames resume hrun

namespace Evaluator

/-- How an evaluation by one of `n` parties comes to its end, with its exchanges answered by
`replies`. -/
structure Lasts (c : Circuit m) (n : Nat) (e : Evaluator m)
    (replies : List (Except TransportError Delivery)) (answer : Except Fault (Outputs m))
    (e' : Evaluator m) (t : Trace m) : Prop where
  replies_eq : t.replies = replies
  /-- Nothing is out of bounds, and the party may go on to another evaluation. -/
  safe : t.Safe n
  fit : e'.participant.Fit n
  /-- The evaluation is not given up. -/
  conclusive : answer ≠ .error (.protocol .endless)
  /-- A circuit that is not valid is refused at once. -/
  refused : ∀ error, c.validate n = .error error →
    answer = .error (.circuit error) ∧ replies = [] ∧ e' = e
  /-- Before a success every node is started, and is started once. -/
  started : ∀ outputs, answer = .ok outputs → (t.starts.map (·.1)).Perm (List.range c.size)
  /-- A success takes the time of the toss, of the circuit and of the check. -/
  succeeded : ∀ outputs, answer = .ok outputs → ∃ w, t.finished = some w
    ∧ replies.length = e.participant.pool.tossTime + c.criticalPath n t.pendingAt + w.pool.checkTime
    ∧ e'.rounds = e.rounds + replies.length
  /-- A failure takes no longer than if every check had something to check. -/
  failed : ∀ fault, answer = .error fault → replies.length
    ≤ e.participant.pool.tossTime + c.criticalPath n (fun _ => true) + 4 * exchanges n

theorem evaluate_refused {c : Circuit m} {e : Evaluator m} {error : CircuitError}
    (h : c.validate e.participant.pool.parties = .error error) :
    evaluate c e = .finished (.error (.circuit error), e) := by
  rw [evaluate_eq, bind_of_ok (onPool_get e), h]
  rfl

/-- Whatever arrives at a party, its evaluation of any circuit ends, and takes a number of exchanges
that depends on the circuit and on what there is to check. -/
theorem evaluate_lasts {e : Evaluator m} (fit : e.participant.Fit n) (c : Circuit m) :
    (∀ arriving : Nat → Except TransportError Delivery, ∃ k answer e',
      Session.Run (evaluate c e) ((List.range k).map arriving) (answer, e'))
    ∧ ∀ replies answer e', Session.Run (evaluate c e) replies (answer, e') →
      ∃ t : Trace m, Session.Run (Traced.evaluate c (e, {})) replies (answer, (e', t))
        ∧ Lasts c n e replies answer e' t := by
  constructor
  · intro arriving
    obtain ⟨k, ⟨answer, e'⟩, hrun⟩ := (evaluate c e).exists_run arriving
    exact ⟨k, answer, e', hrun⟩
  intro replies answer e' hrun
  obtain ⟨t, htrace⟩ := (Traced.erases_evaluate c).exists_notes ({} : Trace m) hrun
  have hkeeps : Traced.Keeps (Stopped n (longest c e.participant.pool) t.pendingAt)
      (fun e' t' => e' = e ∧ t' = {}) (Traced.evaluate c) _ := Traced.keeps_evaluate fit
  obtain ⟨hext, hok, herror⟩ := hkeeps e {} _ _ _ _ ⟨rfl, rfl⟩ htrace
  have hlength : t.past.length = replies.length := by simpa using hext.exchanges_eq
  refine ⟨t, htrace, hext.replies_eq, ?_, ?_, ?_, fun error hinvalid => ?_,
    fun outputs houtputs => ?_, fun outputs houtputs => ?_, fun fault hfault => ?_⟩
  · cases answer with
    | ok outputs => exact (hok outputs rfl).1.safe
    | error fault => exact (herror fault rfl).safe
  · cases answer with
    | ok outputs => exact (hok outputs rfl).1.fit
    | error fault => exact (herror fault rfl).fit
  · rintro rfl
    have hstopped := herror _ rfl
    exact (hstopped.bounded hstopped.once.agrees_pendingAt).1 rfl
  · rw [evaluate_refused (fit.parties ▸ hinvalid)] at hrun
    obtain ⟨rfl, heq⟩ := Session.run_finished.mp hrun
    cases heq
    exact ⟨rfl, rfl, rfl⟩
  · exact (hok outputs houtputs).2.1
  · obtain ⟨steady, -, w, hfinished, htime⟩ := hok outputs houtputs
    refine ⟨w, hfinished, ?_, ?_⟩
    · rw [← hlength]
      exact htime steady.once.agrees_pendingAt
    · rw [← hlength]
      exact steady.counted
  · have hstopped := herror fault hfault
    rw [← hlength]
    have hbound := (hstopped.bounded hstopped.once.agrees_pendingAt).2
    rwa [longest, fit.parties] at hbound

/-- Both parties have an input, and the check after their sum finds nothing to check. -/
def sumCircuit : Circuit .mersenne61 :=
  ⟨[.input 1 (some 5), .input 2 none, .add 0 1, .macCheck [2]]⟩

/-- The inputs share the only exchange. -/
theorem evaluate_lasts_sumCircuit : ∃ outputs e' t,
    seededParty.participant.Fit 2
    ∧ Session.Run (Traced.evaluate sumCircuit (seededParty, {}))
      [.ok [(2, [(0 : Element .mersenne61).toBytes])]] (.ok outputs, (e', t))
    ∧ Lasts sumCircuit 2 seededParty [.ok [(2, [(0 : Element .mersenne61).toBytes])]]
      (.ok outputs) e' t := by
  have fit : seededParty.participant.Fit 2 :=
    .new seededParty.participant.pool (by decide) (by decide) rfl
  have hanswered : ((evaluate sumCircuit seededParty).answered
      [.ok [(2, [(0 : Element .mersenne61).toBytes])]]).map (·.1.isOk) = some true := by
    decide +kernel
  obtain ⟨⟨answer, e'⟩, hrun, hok⟩ := Option.map_eq_some_iff.mp hanswered
  cases answer with
  | error fault => cases hok
  | ok outputs =>
    obtain ⟨t, htrace, hlasts⟩ :=
      (evaluate_lasts fit sumCircuit).2 _ _ _ (Session.run_of_answered hrun)
    exact ⟨outputs, e', t, fit, htrace, hlasts⟩

end Evaluator

end JointCircuit
