/-
JointCircuit.Proofs.Tracing — an evaluation that is written down.

An evaluation leaves nothing behind of what went on in it. Here it is
done once more while a scribe takes notes: of rounds and exchanges, of
nodes that start and that are complete, and of the end of every round.
What is noted, and in what form, is up to the scribe (§1); the notes
survive a failure and are otherwise without effect (`erases_evaluate`,
`erases_run`, §3). What a round of a gate in flight does is left open as
well, so it may be looked at how an evaluation goes whatever its gates do
(`evaluateWith`).

What holds along every such evaluation is shown step by step: `Keeps` has
a rule for every way of composing steps (§4), and for the loop over the
gates of a circuit it suffices to know what one round of a gate, one
start and one exchange preserve (`Invariant`, §5). The schedule
underneath is sound all the time, so nothing is ready when frames leave.
A whole evaluation is put together from its stages, once, in §6.

Main statements: `erases_evaluate`, `Invariant.keeps_runGates` and
`keeps_evaluateWith`.
-/
import JointCircuit.Protocol.Task
import JointCircuit.Proofs.Runs
import JointCircuit.Proofs.Scheduling

namespace JointCircuit

variable {m : Modulus} {κ π ρ α β : Type}

/-! ## §1 Scribes -/

/-- A round of a protocol, with its state and the participant before and after it. -/
structure Played (m : Modulus) where
  /-- The node it computes, if it computes one. -/
  node : Option NodeId
  number : Nat
  before : Task m × Participant m
  after : Task m × Participant m

/-- An exchange of frames. -/
structure Exchanged (m : Modulus) where
  /-- The protocols that go on after it, each with the number of its next round. -/
  due : List (Task m × Nat)
  /-- The mailbox before it. -/
  mailbox : Mailbox
  reply : Except TransportError Delivery

namespace Evaluator

/-- A round of a gate in flight. -/
def InFlight.played (flight : InFlight m) (w : Participant m) (after : Gate m × Participant m) :
    Played m :=
  ⟨some flight.id, flight.round, (.gate flight.gate, w), (.gate after.1, after.2)⟩

end Evaluator

/-- Somebody who attends an evaluation and takes notes. -/
class Scribe (m : Modulus) (κ : Type) where
  /-- A round of a protocol was evaluated, and this came of it. -/
  played : Played m → Except Fault Status → κ → κ := fun _ _ notes => notes
  /-- Frames were exchanged. -/
  exchanged : Exchanged m → κ → κ := fun _ notes => notes
  /-- A node is taken from the ready ones, which leaves this schedule. -/
  started : NodeId → Schedule m → κ → κ := fun _ _ notes => notes
  /-- A node gets its value, and this was the schedule before. -/
  completed : NodeId → Value m → Schedule m → κ → κ := fun _ _ _ notes => notes
  /-- Nothing more can be done in the round, and these gates are in flight. -/
  paused : Schedule m → List (Evaluator.InFlight m) → κ → κ := fun _ _ notes => notes
  /-- Every node has its value. -/
  finished : Participant m → κ → κ := fun _ notes => notes
  /-- The notes have gone on, and these replies have come in meanwhile. -/
  Extends : List (Except TransportError Delivery) → κ → κ → Prop
  refl : ∀ notes, Extends [] notes notes
  trans : ∀ {replies replies' notes notes' notes''}, Extends replies notes notes' →
    Extends replies' notes' notes'' → Extends (replies ++ replies') notes notes''
  extends_played : ∀ round outcome notes, Extends [] notes (played round outcome notes)
  extends_exchanged : ∀ exchange notes,
    Extends [exchange.reply] notes (exchanged exchange notes)
  extends_started : ∀ id s notes, Extends [] notes (started id s notes)
  extends_completed : ∀ id value s notes, Extends [] notes (completed id value s notes)
  extends_paused : ∀ s flights notes, Extends [] notes (paused s flights notes)
  extends_finished : ∀ w notes, Extends [] notes (finished w notes)

/-! ## §2 Evaluation with notes -/

namespace Evaluator

/-- A computation of one party that a scribe attends. The notes are kept also when it fails. -/
abbrev Traced (m : Modulus) (κ : Type) := ExceptT Fault (StateT (Evaluator m × κ) Session)

namespace Traced

/-- A step that is not noted. -/
def lift (x : Eval m α) : Traced m κ α := fun (e, notes) =>
  (fun (answer, e) => (answer, (e, notes))) <$> x e

/-- Write something down. -/
def note (f : Evaluator m → κ → κ) : Traced m κ Unit :=
  modify fun (e, notes) => (e, f e notes)

section Scribe

variable [Scribe m κ]

/-- Evaluate a round of a protocol, whose state is noted as that of a task. -/
def play (node : Option NodeId) (wrap : π → Task m) (number : Nat) (p : π)
    (round : Round m π Status) : Traced m κ (Status × π) := fun (e, notes) =>
  let played (after : π × Participant m) : Played m :=
    { node, number, before := (wrap p, e.participant), after := (wrap after.1, after.2) }
  match round (p, e.participant) with
  | .ok status (p, participant) =>
    pure (.ok (status, p),
      ({ e with participant }, Scribe.played (played (p, participant)) (.ok status) notes))
  | .error fault (p, participant) =>
    pure (.error fault,
      ({ e with participant }, Scribe.played (played (p, participant)) (.error fault) notes))

/-- Exchange the messages of the round with all peers, these protocols being due next. -/
def flush (due : List (Task m × Nat)) : Traced m κ Unit := do
  let mailbox ← lift (onMailbox get)
  let frames ← lift (onMailbox Mailbox.takeOutgoing)
  let reply ← lift (liftM (Session.exchangeFrames frames))
  note fun _ => Scribe.exchanged { due, mailbox, reply }
  lift do
    onMailbox (Mailbox.deliver (← ofExcept .transport reply))
    modify fun e => { e with rounds := e.rounds + 1 }

/-- Evaluate the rounds of a protocol from `round` on. -/
def runRounds [Protocol m π ρ] (wrap : π → Task m) : (budget round : Nat) → π → Traced m κ π
  | 0, _, _ => throw (.protocol .endless)
  | budget + 1, round, p => do
    match ← play none wrap round p (Protocol.evaluate round) with
    | (.done, p) => return p
    | (.more, p) =>
      flush [(wrap p, round + 1)]
      runRounds wrap budget (round + 1) p

/-- Run a protocol to completion by itself. -/
def run [Protocol m π ρ] (wrap : π → Task m) (p : π) : Traced m κ ρ := do
  let p ← runRounds wrap (lastRound + 1) 0 p
  lift checkQuiescent
  lift countProtocol
  match (Protocol.out m p).1 with
  | some result => return result
  | none => throw (.protocol .noOutput)

/-- Agree on the seed of the joint generator with all parties. -/
def initializeJointRandomness : Traced m κ Unit := do
  let seed ← run .coinToss ({} : CoinToss)
  lift (onPool (Pool.installJointSeed seed))

/-- The gates in flight as protocols that are due. -/
def dueNext (flights : List (InFlight m)) : List (Task m × Nat) :=
  flights.map fun flight => (.gate flight.gate, flight.round)

/-- A gate's own round. -/
def gateRound (flight : InFlight m) : Traced m κ (Status × Gate m) :=
  play (some flight.id) .gate flight.round flight.gate (Gate.evaluate flight.round)

section Conduct

-- what a round of a gate in flight does
variable (conduct : InFlight m → Traced m κ (Status × Gate m))

/-- Evaluate a round of a gate. -/
def advance (s : Schedule m) (flight : InFlight m) :
    Traced m κ (Schedule m × List (InFlight m)) := do
  match ← conduct flight with
  | (.more, gate) => return (s, [{ flight with gate, round := flight.round + 1 }])
  | (.done, gate) =>
    match gate.out.1 with
    | none => throw (.protocol (.nodeWithoutOutput flight.id))
    | some value =>
      lift countProtocol
      note fun _ => Scribe.completed flight.id value s
      return (s.complete flight.id value, [])

/-- Advance the gates in flight, in order. -/
def advanceAll (s : Schedule m) : List (InFlight m) → Traced m κ (Schedule m × List (InFlight m))
  | [] => return (s, [])
  | flight :: rest => do
    let (s, still) ← advance conduct s flight
    let (s, others) ← advanceAll s rest
    return (s, still ++ others)

/-- Start the ready nodes, lowest first. -/
def startReady : (budget : Nat) → Schedule m → Traced m κ (Schedule m × List (InFlight m))
  | 0, s => return (s, [])
  | budget + 1, s =>
    match s.next? with
    | none => return (s, [])
    | some (id, s) => do
      let gate ← lift (ofExcept .circuit (s.gate id))
      note fun _ => Scribe.started id s
      let (s, still) ← advance conduct s { id, gate, round := 0 }
      let (s, others) ← startReady budget s
      return (s, still ++ others)

/-- Evaluate rounds until no gate is in flight. -/
def runGates : (budget : Nat) → Schedule m → List (InFlight m) → Traced m κ (Schedule m)
  | 0, _, _ => throw (.protocol .endless)
  | budget + 1, s, flights => do
    let (s, still) ← advanceAll conduct s flights
    let (s, started) ← startReady conduct s.circuit.size s
    note fun _ => Scribe.paused s (still ++ started)
    match still ++ started with
    | [] => return s
    | flights =>
      flush (dueNext flights)
      runGates budget s flights

/-- Evaluate every node of a circuit, with this many rounds at most. -/
def evaluateWith (budget : Nat) (c : Circuit m) : Traced m κ (Outputs m) := do
  let pool ← lift (onPool get)
  lift (ofExcept .circuit (c.validate pool.parties))
  let pool ← lift (onPool get)
  (if pool.hasJointRandomness then pure () else initializeJointRandomness : Traced m κ Unit)
  let s ← runGates conduct budget (.new c) []
  lift checkQuiescent
  let values ← lift (ofExcept .circuit s.outputs)
  note fun e => Scribe.finished e.participant
  let pool ← lift (onPool get)
  (if pool.opened.hasPending then run (fun p => .gate (.macCheck p)) ({} : MacCheck m)
    else pure () : Traced m κ Unit)
  return ⟨values⟩

end Conduct

/-- Evaluate every node of a circuit. -/
def evaluate (c : Circuit m) : Traced m κ (Outputs m) :=
  evaluateWith gateRound (roundBudget c.size) c

end Scribe

/-! ## §3 Forgetting the notes -/

/-- Without its notes the computation is this one. -/
def Erases (x : Traced m κ α) (y : Eval m α) : Prop :=
  ∀ e notes, (fun r => (r.1, r.2.1)) <$> x (e, notes) = y e

theorem bind_apply (x : Traced m κ α) (f : α → Traced m κ β) (e : Evaluator m) (notes : κ) :
    (x >>= f) (e, notes) = x (e, notes) >>= fun (answer, e, notes) => match answer with
      | .ok a => f a (e, notes)
      | .error fault => .finished (.error fault, (e, notes)) := by
  show Session.bind _ _ = Session.bind _ _
  congr 1
  funext ⟨answer, e, notes⟩
  cases answer <;> rfl

theorem erases_pure (a : α) : Erases (pure a : Traced m κ α) (pure a) :=
  fun _ _ => rfl

theorem erases_throw (fault : Fault) : Erases (throw fault : Traced m κ α) (throw fault) :=
  fun _ _ => rfl

theorem erases_lift (y : Eval m α) : Erases (lift y : Traced m κ α) y := by
  intro e notes
  simp only [lift, Functor.map_map]
  exact id_map _

theorem erases_bind {x : Traced m κ α} {y : Eval m α} (h : Erases x y) {f : α → Traced m κ β}
    {g : α → Eval m β} (hf : ∀ a, Erases (f a) (g a)) : Erases (x >>= f) (y >>= g) := by
  intro e notes
  rw [bind_apply, Evaluator.bind_apply, ← h e notes, map_bind, bind_map_left]
  refine bind_congr fun r => ?_
  obtain ⟨answer, e', notes'⟩ := r
  cases answer with
  | ok a => exact hf a e' notes'
  | error fault => rfl

theorem note_bind (g : Evaluator m → κ → κ) (f : Unit → Traced m κ α) (e : Evaluator m)
    (notes : κ) : (note g >>= f) (e, notes) = f () (e, g e notes) := rfl

/-- Writing something down changes nothing. -/
theorem erases_note (g : Evaluator m → κ → κ) {f : Unit → Traced m κ α} {y : Eval m α}
    (h : Erases (f ()) y) : Erases (note g >>= f) y := by
  intro e notes
  rw [note_bind]
  exact h e _

/-- Neither does looking at the mailbox. -/
theorem erases_look {f : Mailbox → Traced m κ α} {y : Eval m α} (h : ∀ box, Erases (f box) y) :
    Erases (lift (onMailbox get) >>= f) y := by
  intro e notes
  exact h e.participant.mailbox e notes

/-- Every run can be written down. -/
theorem Erases.exists_notes {x : Traced m κ α} {y : Eval m α} (h : Erases x y) (notes : κ)
    {e e' : Evaluator m} {replies : List (Except TransportError Delivery)}
    {answer : Except Fault α} (hrun : Session.Run (y e) replies (answer, e')) :
    ∃ notes', Session.Run (x (e, notes)) replies (answer, (e', notes')) := by
  rw [← h e notes, Session.run_map] at hrun
  obtain ⟨⟨_, _, notes'⟩, hrun, heq⟩ := hrun
  cases heq
  exact ⟨notes', hrun⟩

section Erases

variable [Scribe m κ]

theorem erases_play (node : Option NodeId) (wrap : π → Task m) (number : Nat) (p : π)
    (round : Round m π Status) :
    Erases (play node wrap number p round : Traced m κ _) (actOn p round) := by
  intro e notes
  simp only [play, actOn]
  cases round (p, e.participant) <;> rfl

theorem erases_flush (due : List (Task m × Nat)) :
    Erases (flush due : Traced m κ Unit) Evaluator.flush :=
  erases_look fun _ => erases_bind (erases_lift _) fun _ => erases_bind (erases_lift _) fun _ =>
    erases_note _ (erases_lift _)

theorem erases_runRounds [Protocol m π ρ] (wrap : π → Task m) (budget round : Nat) (p : π) :
    Erases (runRounds wrap budget round p : Traced m κ π)
      (Evaluator.runRounds budget round p) := by
  induction budget generalizing round p with
  | zero => exact erases_throw _
  | succ budget ih =>
    refine erases_bind (erases_play _ _ _ _ _) ?_
    rintro ⟨status, p⟩
    cases status with
    | done => exact erases_pure _
    | more => exact erases_bind (erases_flush _) fun _ => ih _ _

/-- Running a protocol with notes is running it, the notes forgotten. -/
theorem erases_run [Protocol m π ρ] (wrap : π → Task m) (p : π) :
    Erases (run wrap p : Traced m κ ρ) (Evaluator.run p) := by
  refine erases_bind (erases_runRounds _ _ _ _) fun p => erases_bind (erases_lift _) fun _ =>
    erases_bind (erases_lift _) fun _ => ?_
  cases (Protocol.out m p).1 with
  | none => exact erases_throw _
  | some result => exact erases_pure _

theorem erases_initializeJointRandomness :
    Erases (initializeJointRandomness : Traced m κ Unit) Evaluator.initializeJointRandomness :=
  erases_bind (erases_run _ _) fun _ => erases_lift _

section Conduct

variable {conduct : InFlight m → Traced m κ (Status × Gate m)}
  (h : ∀ flight, Erases (conduct flight) (actOn flight.gate (Gate.evaluate flight.round)))

include h

theorem erases_advance (s : Schedule m) (flight : InFlight m) :
    Erases (advance conduct s flight) (Evaluator.advance s flight) := by
  refine erases_bind (h flight) ?_
  rintro ⟨status, gate⟩
  cases status with
  | more => exact erases_pure _
  | done =>
    dsimp only
    cases gate.out.1 with
    | none => exact erases_throw _
    | some value =>
      exact erases_bind (erases_lift _) fun _ => erases_note _ (erases_pure _)

theorem erases_advanceAll (s : Schedule m) (flights : List (InFlight m)) :
    Erases (advanceAll conduct s flights) (Evaluator.advanceAll s flights) := by
  induction flights generalizing s with
  | nil => exact erases_pure _
  | cons flight rest ih =>
    exact erases_bind (erases_advance h s flight) fun p =>
      erases_bind (ih p.1) fun q => erases_pure _

theorem erases_startReady (budget : Nat) (s : Schedule m) :
    Erases (startReady conduct budget s) (Evaluator.startReady budget s) := by
  induction budget generalizing s with
  | zero => exact erases_pure _
  | succ budget ih =>
    unfold startReady Evaluator.startReady
    cases s.next? with
    | none => exact erases_pure _
    | some next =>
      exact erases_bind (erases_lift _) fun gate => erases_note _ <|
        erases_bind (erases_advance h _ _) fun p => erases_bind (ih p.1) fun q => erases_pure _

theorem erases_runGates (budget : Nat) (s : Schedule m) (flights : List (InFlight m)) :
    Erases (runGates conduct budget s flights) (Evaluator.runGates budget s flights) := by
  induction budget generalizing s flights with
  | zero => exact erases_throw _
  | succ budget ih =>
    refine erases_bind (erases_advanceAll h s flights) fun p =>
      erases_bind (erases_startReady h _ _) fun q => ?_
    refine erases_note _ ?_
    dsimp only
    cases p.2 ++ q.2 with
    | nil => exact erases_pure _
    | cons flight flights => exact erases_bind (erases_flush _) fun _ => ih _ _

/-- With the gates' own rounds an evaluation with notes is the evaluation, the notes forgotten. -/
theorem erases_evaluateWith (c : Circuit m) :
    Erases (evaluateWith conduct (roundBudget c.size) c) (Evaluator.evaluate c) := by
  rw [evaluate_eq]
  refine erases_bind (erases_lift _) fun pool => erases_bind (erases_lift _) fun _ =>
    erases_bind (erases_lift _) fun pool => erases_bind ?_ fun _ =>
    erases_bind (erases_runGates h _ _ _) fun s => erases_bind (erases_lift _) fun _ =>
    erases_bind (erases_lift _) fun values => erases_note _ <|
    erases_bind (erases_lift _) fun pool => erases_bind ?_ fun _ => erases_pure _
  · split
    · exact erases_pure _
    · exact erases_initializeJointRandomness
  · split
    · exact erases_run _ _
    · exact erases_pure _

end Conduct

theorem erases_gateRound (flight : InFlight m) :
    Erases (gateRound flight : Traced m κ _) (actOn flight.gate (Gate.evaluate flight.round)) :=
  erases_play _ _ _ _ _

theorem erases_evaluate (c : Circuit m) :
    Erases (evaluate c : Traced m κ (Outputs m)) (Evaluator.evaluate c) :=
  erases_evaluateWith erases_gateRound c

end Erases

/-! ## §4 What holds along every evaluation -/

section Keeps

variable [Scribe m κ]

-- what holds where a computation fails
variable {fails : Fault → Evaluator m → κ → Prop}
variable {pre : Evaluator m → κ → Prop} {post : α → Evaluator m → κ → Prop}

/-- From `pre` on, a success is in `post` and a failure in `fails`, and the trace goes on with the
exchanges of the run. -/
def Keeps (fails : Fault → Evaluator m → κ → Prop) (pre : Evaluator m → κ → Prop)
    (x : Traced m κ α) (post : α → Evaluator m → κ → Prop) : Prop :=
  ∀ e t replies answer e' t', pre e t → Session.Run (x (e, t)) replies (answer, (e', t')) →
    Scribe.Extends m replies t t' ∧ (∀ a, answer = .ok a → post a e' t')
      ∧ ∀ fault, answer = .error fault → fails fault e' t'

theorem keeps_pure {a : α} (h : ∀ e t, pre e t → post a e t) :
    Keeps fails pre (pure a : Traced m κ α) post := by
  intro e t replies answer e' t' hpre hrun
  obtain ⟨rfl, heq⟩ := Session.run_finished.mp hrun
  cases heq
  refine ⟨Scribe.refl t, fun b hb => ?_, nofun⟩
  cases hb
  exact h e t hpre

theorem keeps_throw {fault : Fault} (h : ∀ e t, pre e t → fails fault e t) :
    Keeps fails pre (throw fault : Traced m κ α) post := by
  intro e t replies answer e' t' hpre hrun
  obtain ⟨rfl, heq⟩ := Session.run_finished.mp hrun
  cases heq
  refine ⟨Scribe.refl t, nofun, fun fault' hfault => ?_⟩
  cases hfault
  exact h e t hpre

theorem keeps_bind {x : Traced m κ α} {f : α → Traced m κ β} {next : β → Evaluator m → κ → Prop}
    (hx : Keeps fails pre x post) (hf : ∀ a, Keeps fails (post a) (f a) next) :
    Keeps fails pre (x >>= f) next := by
  intro e t replies answer e' t' hpre hrun
  rw [bind_apply, Session.run_bind] at hrun
  obtain ⟨⟨answer₁, e₁, t₁⟩, replies₁, replies₂, rfl, hfirst, hrest⟩ := hrun
  obtain ⟨hext, hpost, hfails⟩ := hx _ _ _ _ _ _ hpre hfirst
  cases answer₁ with
  | ok a =>
    obtain ⟨hext', hrest⟩ := hf a _ _ _ _ _ _ (hpost a rfl) hrest
    exact ⟨Scribe.trans hext hext', hrest⟩
  | error fault =>
    obtain ⟨rfl, heq⟩ := Session.run_finished.mp hrest
    cases heq
    rw [List.append_nil]
    refine ⟨hext, nofun, fun fault' hfault => ?_⟩
    cases hfault
    exact hfails fault rfl

theorem Keeps.of_pre {x : Traced m κ α} {pre' : Evaluator m → κ → Prop}
    (h : Keeps fails pre x post) (hpre : ∀ e t, pre' e t → pre e t) : Keeps fails pre' x post :=
  fun _ _ _ _ _ _ h' hrun => h _ _ _ _ _ _ (hpre _ _ h') hrun

theorem Keeps.mono {x : Traced m κ α} {post' : α → Evaluator m → κ → Prop}
    (h : Keeps fails pre x post) (hpost : ∀ a e t, post a e t → post' a e t) :
    Keeps fails pre x post' := by
  intro e t replies answer e' t' hpre hrun
  obtain ⟨hext, hok, hfails⟩ := h _ _ _ _ _ _ hpre hrun
  exact ⟨hext, fun a ha => hpost _ _ _ (hok a ha), hfails⟩

/-- Facts that do not depend on the state may be used. -/
theorem keeps_of_imp {x : Traced m κ α} {p : Prop} (h : p → Keeps fails pre x post) :
    Keeps fails (fun e t => p ∧ pre e t) x post :=
  fun _ _ _ _ _ _ hpre hrun => h hpre.1 _ _ _ _ _ _ hpre.2 hrun

/-- The state in which a computation begins may be named. -/
theorem keeps_at {x : Traced m κ α}
    (h : ∀ e₀ t₀, pre e₀ t₀ → Keeps fails (fun e t => e = e₀ ∧ t = t₀) x post) :
    Keeps fails pre x post :=
  fun e t _ _ _ _ hpre hrun => h e t hpre _ _ _ _ _ _ ⟨rfl, rfl⟩ hrun

/-- What holds of all states that a computation may begin in holds of one of them. -/
theorem Keeps.from_state {x : Traced m κ α} (h : Keeps fails pre x post) {e₀ : Evaluator m} {t₀ : κ}
    (hpre : pre e₀ t₀) : Keeps fails (fun e t => e = e₀ ∧ t = t₀) x post := by
  refine h.of_pre ?_
  rintro e t ⟨rfl, rfl⟩
  exact hpre

theorem keeps_pure_from {a : α} {e₀ : Evaluator m} {t₀ : κ} (h : post a e₀ t₀) :
    Keeps fails (fun e t => e = e₀ ∧ t = t₀) (pure a : Traced m κ α) post :=
  (keeps_pure fun _ _ h => h).from_state h

/-- A step that leaves no trace and does not exchange anything. -/
theorem keeps_lift {y : Eval m α}
    (h : ∀ e t, pre e t → ∃ answer e', y e = .finished (answer, e')
      ∧ (∀ a, answer = .ok a → post a e' t) ∧ ∀ fault, answer = .error fault → fails fault e' t) :
    Keeps fails pre (lift y) post := by
  intro e t replies answer e' t' hpre hrun
  obtain ⟨answer₁, e₁, hy, hpost, hfails⟩ := h e t hpre
  rw [lift, hy] at hrun
  obtain ⟨rfl, heq⟩ := Session.run_finished.mp hrun
  cases heq
  exact ⟨Scribe.refl t, hpost, hfails⟩

/-- A step of that kind that succeeds. -/
theorem keeps_lift_ok {y : Eval m α} (a : Evaluator m → α) (g : Evaluator m → Evaluator m)
    (hy : ∀ e, y e = .finished (.ok (a e), g e)) (h : ∀ e t, pre e t → post (a e) (g e) t) :
    Keeps fails pre (lift y) post :=
  keeps_lift fun e t hpre => ⟨_, _, hy e, fun _ ha => Except.ok.inj ha ▸ h e t hpre, nofun⟩

theorem keeps_ofExcept {ε : Type} {fault : ε → Fault} {x : Except ε α}
    (hok : ∀ e t a, pre e t → x = .ok a → post a e t)
    (herror : ∀ e t error, pre e t → x = .error error → fails (fault error) e t) :
    Keeps fails pre (lift (ofExcept fault x)) post := by
  refine keeps_lift fun e t hpre => ?_
  cases x with
  | ok a => exact ⟨_, e, rfl, fun _ ha => Except.ok.inj ha ▸ hok e t a hpre rfl, nofun⟩
  | error error =>
    exact ⟨_, e, rfl, nofun, fun _ h => Except.error.inj h ▸ herror e t error hpre rfl⟩

/-- A note, and what comes after it. -/
theorem keeps_note_bind {g : Evaluator m → κ → κ} {f : Unit → Traced m κ α}
    (middle : Evaluator m → κ → Prop) (hext : ∀ e t, Scribe.Extends m [] t (g e t))
    (h : ∀ e t, pre e t → middle e (g e t)) (hf : Keeps fails middle (f ()) post) :
    Keeps fails pre (note g >>= f) post := by
  intro e t replies answer e' t' hpre hrun
  obtain ⟨hext', hrest⟩ := hf _ _ _ _ _ _ (h e t hpre) hrun
  exact ⟨Scribe.trans (hext e t) hext', hrest⟩

/-- A round of a protocol. -/
theorem keeps_play {node : Option NodeId} {wrap : π → Task m} {number : Nat} {p : π}
    {round : Round m π Status} {post : Status × π → Evaluator m → κ → Prop}
    (hok : ∀ e t status p' w, pre e t → round (p, e.participant) = .ok status (p', w) →
      post (status, p') { e with participant := w }
        (Scribe.played ⟨node, number, (wrap p, e.participant), (wrap p', w)⟩ (.ok status) t))
    (herror : ∀ e t fault p' w, pre e t → round (p, e.participant) = .error fault (p', w) →
      fails fault { e with participant := w }
        (Scribe.played ⟨node, number, (wrap p, e.participant), (wrap p', w)⟩ (.error fault) t)) :
    Keeps fails pre (play node wrap number p round) post := by
  intro e t replies answer e' t' hpre hrun
  simp only [play] at hrun
  cases hround : round (p, e.participant) with
  | ok status s =>
    rw [hround] at hrun
    obtain ⟨rfl, heq⟩ := Session.run_finished.mp hrun
    cases heq
    exact ⟨Scribe.extends_played _ _ t,
      fun _ h => Except.ok.inj h ▸ hok e t status s.1 s.2 hpre hround, nofun⟩
  | error fault s =>
    rw [hround] at hrun
    obtain ⟨rfl, heq⟩ := Session.run_finished.mp hrun
    cases heq
    exact ⟨Scribe.extends_played _ _ t, nofun,
      fun _ h => Except.error.inj h ▸ herror e t fault s.1 s.2 hpre hround⟩

theorem onMailbox_apply {γ : Type} (action : Action Mailbox γ) (e : Evaluator m) :
    onMailbox action e = match action e.participant.mailbox with
      | .ok a box => .finished (.ok a, { e with participant.mailbox := box })
      | .error fault box => .finished (.error fault, { e with participant.mailbox := box }) := by
  simp only [onMailbox, act, Action.within]
  cases action e.participant.mailbox <;> rfl

/-- The frames leave, the reply arrives and is delivered. -/
theorem flush_apply (due : List (Task m × Nat)) (e : Evaluator m) (t : κ) :
    flush due (e, t) = match Mailbox.takeOutgoing e.participant.mailbox with
      | .error fault box => .finished (.error fault, ({ e with participant.mailbox := box }, t))
      | .ok frames box => .exchange frames fun reply =>
        let t := Scribe.exchanged ⟨due, e.participant.mailbox, reply⟩ t
        match reply with
        | .error error =>
          .finished (.error (.transport error), ({ e with participant.mailbox := box }, t))
        | .ok delivery => match Mailbox.deliver delivery box with
          | .error fault box => .finished (.error fault, ({ e with participant.mailbox := box }, t))
          | .ok _ box => .finished
            (.ok (), ({ e with participant.mailbox := box, rounds := e.rounds + 1 }, t)) := by
  rw [flush, bind_apply, lift, onMailbox_get]
  show ((lift (onMailbox Mailbox.takeOutgoing) >>= _ : Traced m κ Unit) (e, t)) = _
  rw [bind_apply, lift, onMailbox_apply]
  cases htake : Mailbox.takeOutgoing e.participant.mailbox with
  | error fault box => rfl
  | ok frames box =>
    show (lift _ >>= _ : Traced m κ Unit) (_, t) = _
    rw [bind_apply, lift, lift_apply]
    show Session.exchange frames _ = Session.exchange frames _
    congr 1
    funext reply
    cases reply with
    | error error => rfl
    | ok delivery =>
      show (note _ >>= _ : Traced m κ Unit) (_, t) = _
      rw [note_bind, lift]
      show _ <$> (onMailbox (Mailbox.deliver delivery) >>= _ : Eval m Unit) _ = _
      rw [Evaluator.bind_apply, onMailbox_apply]
      dsimp only
      cases Mailbox.deliver delivery box <;> rfl

/-- An exchange: the frames leave, the reply arrives and is delivered. -/
theorem keeps_flush {due : List (Task m × Nat)} {post : Unit → Evaluator m → κ → Prop}
    (hrefused : ∀ e t fault box, pre e t →
      Mailbox.takeOutgoing e.participant.mailbox = .error fault box →
      fails fault { e with participant.mailbox := box } t)
    (hlost : ∀ e t frames box error, pre e t →
      Mailbox.takeOutgoing e.participant.mailbox = .ok frames box →
      fails (.transport error) { e with participant.mailbox := box }
        (Scribe.exchanged ⟨due, e.participant.mailbox, .error error⟩ t))
    (hstray : ∀ e t frames box delivery fault box', pre e t →
      Mailbox.takeOutgoing e.participant.mailbox = .ok frames box →
      Mailbox.deliver delivery box = .error fault box' →
      fails fault { e with participant.mailbox := box' }
        (Scribe.exchanged ⟨due, e.participant.mailbox, .ok delivery⟩ t))
    (hok : ∀ e t frames box delivery box', pre e t →
      Mailbox.takeOutgoing e.participant.mailbox = .ok frames box →
      Mailbox.deliver delivery box = .ok () box' →
      post () { e with participant.mailbox := box', rounds := e.rounds + 1 }
        (Scribe.exchanged ⟨due, e.participant.mailbox, .ok delivery⟩ t)) :
    Keeps fails pre (flush due) post := by
  intro e t replies answer e' t' hpre hrun
  rw [flush_apply] at hrun
  cases htake : Mailbox.takeOutgoing e.participant.mailbox with
  | error fault box =>
    rw [htake] at hrun
    obtain ⟨rfl, heq⟩ := Session.run_finished.mp hrun
    cases heq
    refine ⟨Scribe.refl t, nofun, fun _ h => ?_⟩
    cases h
    exact hrefused e t fault box hpre htake
  | ok frames box =>
    rw [htake] at hrun
    cases hrun with
    | exchange _ _ rest =>
      rename_i reply replies
      cases reply with
      | error error =>
        obtain ⟨rfl, heq⟩ := Session.run_finished.mp rest
        cases heq
        refine ⟨Scribe.extends_exchanged ⟨due, _, .error error⟩ t, nofun, fun _ h => ?_⟩
        cases h
        exact hlost e t frames box error hpre htake
      | ok delivery =>
        dsimp only at rest
        cases hdeliver : Mailbox.deliver delivery box with
        | error fault box' =>
          rw [hdeliver] at rest
          obtain ⟨rfl, heq⟩ := Session.run_finished.mp rest
          cases heq
          refine ⟨Scribe.extends_exchanged ⟨due, _, .ok delivery⟩ t, nofun, fun _ h => ?_⟩
          cases h
          exact hstray e t frames box delivery fault box' hpre htake hdeliver
        | ok u box' =>
          rw [hdeliver] at rest
          obtain ⟨rfl, heq⟩ := Session.run_finished.mp rest
          cases heq
          refine ⟨Scribe.extends_exchanged ⟨due, _, .ok delivery⟩ t, fun _ _ => ?_, nofun⟩
          exact hok e t frames box delivery box' hpre htake hdeliver

/-- What is shown twice of a computation holds together. -/
theorem Keeps.and {x : Traced m κ α} {pre' : Evaluator m → κ → Prop}
    {post' : α → Evaluator m → κ → Prop} (h : Keeps fails pre x post)
    (h' : Keeps (fun _ _ _ => True) pre' x post') :
    Keeps fails (fun e t => pre e t ∧ pre' e t) x fun a e t => post a e t ∧ post' a e t := by
  intro e t replies answer e' t' hpre hrun
  obtain ⟨hext, hok, hfails⟩ := h _ _ _ _ _ _ hpre.1 hrun
  obtain ⟨-, hok', -⟩ := h' _ _ _ _ _ _ hpre.2 hrun
  exact ⟨hext, fun a ha => ⟨hok a ha, hok' a ha⟩, hfails⟩

/-- Only a mailbox without messages passes for quiescent. -/
theorem checkQuiescent_apply (e : Evaluator m) : checkQuiescent e = .finished
    (if e.participant.mailbox.hasOutgoing then .error (.protocol .sentInFinalRound)
      else match e.participant.mailbox.leftover? with
        | none => .ok ()
        | some violation => .error (.protocol violation), e) := by
  rw [checkQuiescent, Evaluator.bind_of_ok (onMailbox_get e)]
  split
  · rfl
  · show onMailbox Mailbox.ensureDrained e = _
    rw [onMailbox_apply]
    simp only [Mailbox.ensureDrained, Action.bind_apply, Action.get_apply]
    cases e.participant.mailbox.leftover? <;> rfl

/-- What is left in a mailbox has not been taken. -/
theorem leftover?_eq_some {box : Mailbox} {violation : Violation}
    (h : box.leftover? = some violation) : ∃ count party, violation = .unconsumed count party := by
  unfold Mailbox.leftover? at h
  split at h
  · cases h
  · cases h
    exact ⟨_, _, rfl⟩

/-- Frames that do not leave are left where they are. -/
theorem takeOutgoing_eq_error {box box' : Mailbox} {fault : Fault}
    (h : Mailbox.takeOutgoing box = .error fault box') :
    box' = box ∧ ∃ count party, fault = .protocol (.unconsumed count party) := by
  obtain h | ⟨_, _, -, h⟩ := Action.bind_eq_error.mp h
  · simp only [Mailbox.ensureDrained, Action.bind_apply, Action.get_apply] at h
    cases hleft : box.leftover? with
    | none =>
      rw [hleft] at h
      cases h
    | some violation =>
      rw [hleft] at h
      cases h
      obtain ⟨count, party, rfl⟩ := leftover?_eq_some hleft
      exact ⟨rfl, count, party, rfl⟩
  · cases h

/-- What the check for quiescence objects to: messages that are queued, or that were not taken. -/
def Restless (box : Mailbox) (violation : Violation) : Prop :=
  violation = .sentInFinalRound ∧ box.hasOutgoing = true
    ∨ ∃ count party, violation = .unconsumed count party

theorem Restless.ne_endless {box : Mailbox} {violation : Violation} (h : Restless box violation) :
    violation ≠ .endless := by
  obtain ⟨rfl, -⟩ | ⟨count, party, rfl⟩ := h <;> nofun

/-- The check for quiescence. -/
theorem keeps_checkQuiescent {post : Unit → Evaluator m → κ → Prop}
    (hok : ∀ e t, pre e t → e.participant.mailbox.hasOutgoing = false →
      e.participant.mailbox.leftover? = none → post () e t)
    (herror : ∀ e t violation, pre e t → Restless e.participant.mailbox violation →
      fails (.protocol violation) e t) :
    Keeps fails pre (lift checkQuiescent) post := by
  refine keeps_lift fun e t h => ⟨_, e, checkQuiescent_apply e, ?_⟩
  split
  · rename_i hsent
    refine ⟨nofun, fun fault hfault => ?_⟩
    cases hfault
    exact herror e t _ h (.inl ⟨rfl, hsent⟩)
  · rename_i hsent
    cases hleft : e.participant.mailbox.leftover? with
    | none => exact ⟨fun _ _ => hok e t h (Bool.eq_false_iff.mpr hsent) hleft, nofun⟩
    | some violation =>
      refine ⟨nofun, fun fault hfault => ?_⟩
      cases hfault
      exact herror e t _ h (.inr (leftover?_eq_some hleft))

/-- The rounds of a single protocol: `before` holds when one begins, and `between` after one that
goes on. -/
theorem keeps_runRounds [Protocol m π ρ] {wrap : π → Task m} {limit : Nat}
    {before between : Nat → π → Evaluator m → κ → Prop}
    {ended : π → Evaluator m → κ → Prop}
    (hmore : ∀ round p p' w e t, before round p e t →
      Protocol.evaluate round (p, e.participant) = .ok .more (p', w) →
      between (round + 1) p' { e with participant := w }
        (Scribe.played ⟨none, round, (wrap p, e.participant), (wrap p', w)⟩ (.ok .more) t))
    (hdone : ∀ round p p' w e t, before round p e t →
      Protocol.evaluate round (p, e.participant) = .ok .done (p', w) →
      ended p' { e with participant := w }
        (Scribe.played ⟨none, round, (wrap p, e.participant), (wrap p', w)⟩ (.ok .done) t))
    (hfailed : ∀ round p fault p' w e t, before round p e t →
      Protocol.evaluate round (p, e.participant) = .error fault (p', w) →
      fails fault { e with participant := w }
        (Scribe.played ⟨none, round, (wrap p, e.participant), (wrap p', w)⟩ (.error fault) t))
    (hflush : ∀ round p, Keeps fails (between round p) (flush [(wrap p, round)])
      fun _ => before round p)
    (hendless : ∀ p e t, before limit p e t → fails (.protocol .endless) e t)
    {budget round : Nat} (hlimit : round + budget = limit) (p : π) :
    Keeps fails (before round p) (runRounds wrap budget round p) ended := by
  induction budget generalizing round p with
  | zero =>
    obtain rfl : round = limit := hlimit
    exact keeps_throw (hendless p)
  | succ budget ih =>
    have hplay : Keeps fails (before round p) (play none wrap round p (Protocol.evaluate round))
        fun r e t => (r.1 = .more → between (round + 1) r.2 e t)
          ∧ (r.1 = .done → ended r.2 e t) := by
      refine keeps_play (fun e t status p' w h hround => ⟨?_, ?_⟩) fun e t fault p' w h hround =>
        hfailed round p fault p' w e t h hround
      · rintro rfl
        exact hmore round p p' w e t h hround
      · rintro rfl
        exact hdone round p p' w e t h hround
    refine keeps_bind hplay ?_
    rintro ⟨status, p'⟩
    cases status with
    | done => exact keeps_pure fun _ _ h => h.2 rfl
    | more => exact keeps_bind ((hflush _ _).of_pre fun _ _ h => h.1 rfl) fun _ => ih (by omega) p'

/-- A single protocol, when its rounds are over. -/
theorem keeps_run [Protocol m π ρ] {wrap : π → Task m} {p : π}
    {ended closed : π → Evaluator m → κ → Prop} {post : ρ → Evaluator m → κ → Prop}
    (hrounds : Keeps fails pre (runRounds wrap (lastRound + 1) 0 p) ended)
    (hquiet : ∀ p e t, ended p e t → e.participant.mailbox.hasOutgoing = false →
      e.participant.mailbox.leftover? = none →
      closed p { e with protocols := e.protocols + 1 } t)
    (hrestless : ∀ p e t violation, ended p e t → Restless e.participant.mailbox violation →
      fails (.protocol violation) e t)
    (hsilent : ∀ p e t, closed p e t → fails (.protocol .noOutput) e t)
    (hout : ∀ p result e t, closed p e t → (Protocol.out m p).1 = some result → post result e t) :
    Keeps fails pre (run wrap p) post := by
  refine keeps_bind hrounds fun p => ?_
  have hcheck : Keeps fails (ended p) (lift checkQuiescent)
      fun _ e t => closed p { e with protocols := e.protocols + 1 } t :=
    keeps_checkQuiescent (hquiet p) (hrestless p)
  have hcount : Keeps fails (fun e t => closed p { e with protocols := e.protocols + 1 } t)
      (lift countProtocol) fun _ => closed p :=
    keeps_lift_ok (fun _ => ()) _ (fun _ => rfl) fun _ _ h => h
  refine keeps_bind hcheck fun _ => keeps_bind hcount fun _ => ?_
  cases hresult : (Protocol.out m p).1 with
  | none => exact keeps_throw (hsilent p)
  | some result => exact keeps_pure fun e t h => hout p result e t h hresult

/-- A toss, whose seed is for the joint generator. -/
theorem keeps_initializeJointRandomness {tossed : Evaluator m → κ → Prop}
    {post : Unit → Evaluator m → κ → Prop}
    (htoss : Keeps fails pre (run .coinToss ({} : CoinToss)) fun _ => tossed)
    (hinstalled : ∀ (seed : Seed) (e : Evaluator m) t, tossed e t → post ()
      { e with participant.pool :=
          { e.participant.pool with jointGenerator := some (.ofPartySeed seed) } } t) :
    Keeps fails pre initializeJointRandomness post :=
  keeps_bind htoss fun seed => keeps_lift_ok (fun _ => ()) _
    (fun e => onPool_of_ok (Pool.installJointSeed_apply seed e.participant.pool)) (hinstalled seed)

section Pool

-- a condition on the pool and on the notes
variable {Q : Pool m → κ → Prop} (hfails : ∀ fault e t, Q e.participant.pool t → fails fault e t)
  (hexchanged : ∀ (x : Exchanged m) pool t, Q pool t → Q pool (Scribe.exchanged x t))

include hfails hexchanged

/-- An exchange does not touch the pool. -/
theorem keeps_flush_pool (due : List (Task m × Nat)) :
    Keeps fails (fun e => Q e.participant.pool) (flush due) fun _ e => Q e.participant.pool :=
  keeps_flush (fun _ _ _ _ h _ => hfails _ _ _ h)
    (fun _ _ _ _ _ h _ => hfails _ _ _ (hexchanged _ _ _ h))
    (fun _ _ _ _ _ _ _ h _ _ => hfails _ _ _ (hexchanged _ _ _ h))
    fun _ _ _ _ _ _ h _ _ => hexchanged _ _ _ h

/-- What the rounds of a protocol preserve of the pool stays true while it runs by itself. -/
theorem keeps_run_pool [Protocol m π ρ] {wrap : π → Task m}
    (hplayed : ∀ round p status p' w w' t, Q w.pool t →
      Protocol.evaluate round (p, w) = .ok status (p', w') →
      Q w'.pool (Scribe.played ⟨none, round, (wrap p, w), (wrap p', w')⟩ (.ok status) t))
    (hfailed : ∀ round p fault p' w (e : Evaluator m) t, Q e.participant.pool t →
      Protocol.evaluate round (p, e.participant) = .error fault (p', w) →
      fails fault { e with participant := w }
        (Scribe.played ⟨none, round, (wrap p, e.participant), (wrap p', w)⟩ (.error fault) t))
    (p : π) :
    Keeps fails (fun e => Q e.participant.pool) (run wrap p : Traced m κ ρ)
      fun _ e => Q e.participant.pool := by
  have hrounds : Keeps fails (fun e => Q e.participant.pool) (runRounds wrap (lastRound + 1) 0 p)
      fun _ e => Q e.participant.pool :=
    keeps_runRounds (fun _ _ _ _ _ _ h hround => hplayed _ _ _ _ _ _ _ h hround)
      (fun _ _ _ _ _ _ h hround => hplayed _ _ _ _ _ _ _ h hround)
      (fun _ _ _ _ _ _ _ h hround => hfailed _ _ _ _ _ _ _ h hround)
      (fun _ _ => keeps_flush_pool hfails hexchanged _) (fun _ _ _ h => hfails _ _ _ h)
      (Nat.zero_add _) p
  exact keeps_run hrounds (fun _ _ _ h _ _ => h) (fun _ _ _ _ h _ => hfails _ _ _ h)
    (fun _ _ _ h => hfails _ _ _ h) fun _ _ _ _ h _ => h

end Pool

end Keeps

/-! ## §5 The loop over the gates -/

/-- The schedule of a circuit while these gates are in flight. -/
structure Underway (c : Circuit m) (s : Schedule m) (flights : List (InFlight m)) : Prop where
  circuit : s.circuit = c
  sound : s.Sound (flights.map (·.id))

/-- The nodes that have not been started. -/
def waitingFor (s : Schedule m) (flights : List (InFlight m)) : Finset NodeId :=
  s.waiting (flights.map (·.id))

theorem waitingFor_perm (s : Schedule m) {flights flights' : List (InFlight m)}
    (hperm : flights'.Perm flights) : waitingFor s flights' = waitingFor s flights :=
  Schedule.waiting_perm (hperm.map _)

namespace Underway

variable {c : Circuit m} {s : Schedule m} {still rest : List (InFlight m)} {flight : InFlight m}

theorem new (c : Circuit m) : Underway c (.new c) [] :=
  ⟨rfl, Schedule.sound_new c⟩

/-- A node that is started is in flight, and one less is waiting. -/
theorem start (underway : Underway c s still) {id : NodeId} {ready : List NodeId}
    (hready : s.ready = id :: ready) (gate : Gate m) :
    Underway c { s with ready } (still ++ [{ id, gate, round := 0 }])
      ∧ (waitingFor { s with ready } (still ++ [{ id, gate, round := 0 }])).card + 1
        = (waitingFor s still).card := by
  have hperm : (still ++ [({ id, gate, round := 0 } : InFlight m)]).Perm
      (({ id, gate, round := 0 } : InFlight m) :: still) := List.perm_append_singleton _ _
  have hsound : ({ s with ready } : Schedule m).Sound
      ((({ id, gate, round := 0 } : InFlight m) :: still).map InFlight.id) :=
    underway.sound.start hready
  have hmem : id ∈ s.waiting (still.map InFlight.id) :=
    underway.sound.mem_waiting (hready ▸ List.mem_cons_self)
  refine ⟨⟨underway.circuit, hsound.perm (hperm.map InFlight.id)⟩, ?_⟩
  rw [waitingFor_perm _ hperm, waitingFor, List.map_cons, Schedule.waiting_start]
  exact Finset.card_erase_add_one hmem

/-- A gate that goes on stays in flight. -/
theorem goesOn (underway : Underway c s (still ++ flight :: rest)) (gate : Gate m) :
    Underway c s (still ++ [{ flight with gate, round := flight.round + 1 }] ++ rest)
      ∧ waitingFor s (still ++ [{ flight with gate, round := flight.round + 1 }] ++ rest)
        = waitingFor s (still ++ flight :: rest) := by
  refine ⟨⟨underway.circuit, ?_⟩, ?_⟩
  · rw [List.append_assoc]
    simpa using underway.sound
  · simp [waitingFor]

/-- A node leaves the flight that it was in, and none is started. -/
theorem complete (underway : Underway c s (still ++ flight :: rest)) (value : Value m) :
    Underway c (s.complete flight.id value) (still ++ rest)
      ∧ waitingFor (s.complete flight.id value) (still ++ rest)
        = waitingFor s (still ++ flight :: rest) := by
  have hperm : (flight :: (still ++ rest)).Perm (still ++ flight :: rest) :=
    List.perm_middle.symm
  have hsound : s.Sound (flight.id :: (still ++ rest).map (·.id)) :=
    underway.sound.perm (hperm.map InFlight.id)
  exact ⟨⟨(s.circuit_complete _ _).trans underway.circuit, hsound.complete value⟩,
    (hsound.waiting_complete value).trans (waitingFor_perm s hperm)⟩

end Underway

section Invariant

variable [Scribe m κ]

/-- What a round of `flight` comes to: the gate goes on, or its node is complete, or it is done and
has no value. -/
def AfterRound (fails : Fault → Evaluator m → κ → Prop)
    (P : Schedule m → List (InFlight m) → List (InFlight m) → Evaluator m → κ → Prop)
    (s : Schedule m) (still rest : List (InFlight m)) (flight : InFlight m)
    (r : Status × Gate m) (e : Evaluator m) (t : κ) : Prop :=
  match r.1, r.2.out.1 with
  | .more, _ => P s (still ++ [{ flight with gate := r.2, round := flight.round + 1 }]) rest e t
  | .done, none => fails (.protocol (.nodeWithoutOutput flight.id)) e t
  | .done, some value => P (s.complete flight.id value) still rest
      { e with protocols := e.protocols + 1 } (Scribe.completed flight.id value s t)

/-- What single steps preserve. `P left s still todo` is about a point inside a round, with `left`
rounds to come at most, where the gates `still` go on in the next round and the gates `todo` are
yet to be evaluated in this one. -/
structure Invariant (conduct : InFlight m → Traced m κ (Status × Gate m)) (c : Circuit m)
    (fails : Fault → Evaluator m → κ → Prop)
    (P : Nat → Schedule m → List (InFlight m) → List (InFlight m) → Evaluator m → κ → Prop) :
    Prop where
  round {left : Nat} {s : Schedule m} {still rest : List (InFlight m)} {flight : InFlight m}
    (underway : Underway c s (still ++ flight :: rest)) :
    Keeps fails (P left s still (flight :: rest)) (conduct flight)
      (AfterRound fails (P left) s still rest flight)
  start {left : Nat} {s : Schedule m} {still : List (InFlight m)} {id : NodeId}
    {rest : List NodeId} {gate : Gate m} {e : Evaluator m} {t : κ} (h : P left s still [] e t)
    (underway : Underway c s still) (hready : s.ready = id :: rest)
    (hgate : s.gate id = .ok gate) :
    P left { s with ready := rest } still [{ id, gate, round := 0 }] e
      (Scribe.started id { s with ready := rest } t)
  misfit {left : Nat} {s : Schedule m} {still : List (InFlight m)} {id : NodeId}
    {rest : List NodeId} {error : CircuitError} {e : Evaluator m} {t : κ}
    (h : P left s still [] e t) (underway : Underway c s still) (hready : s.ready = id :: rest)
    (hgate : s.gate id = .error error) : fails (.circuit error) e t
  flush {left : Nat} {s : Schedule m} {flights : List (InFlight m)}
    (underway : Underway c s flights) (hready : s.ready = []) (hflights : flights ≠ []) :
    Keeps fails (fun e t => ∃ t₀, P (left + 1) s flights [] e t₀ ∧ t = Scribe.paused s flights t₀)
      (flush (dueNext flights)) fun _ => P left s [] flights
  rest {left : Nat} {s : Schedule m} {e : Evaluator m} {t : κ} (h : P left s [] [] e t)
    (underway : Underway c s []) (hready : s.ready = []) :
    P left s [] [] e (Scribe.paused s [] t)
  endless {s : Schedule m} {flights : List (InFlight m)} {e : Evaluator m} {t : κ}
    (h : P 0 s [] flights e t) : fails (.protocol .endless) e t

namespace Invariant

variable {conduct : InFlight m → Traced m κ (Status × Gate m)} {c : Circuit m}
  {fails : Fault → Evaluator m → κ → Prop}
  {P : Nat → Schedule m → List (InFlight m) → List (InFlight m) → Evaluator m → κ → Prop}
  {left : Nat} {s : Schedule m}

/-- A gate goes on, or its node is complete; no node is started. -/
theorem keeps_advance (inv : Invariant conduct c fails P) {still rest : List (InFlight m)}
    {flight : InFlight m} (underway : Underway c s (still ++ flight :: rest)) :
    Keeps fails (P left s still (flight :: rest)) (advance conduct s flight) fun r e t =>
      (Underway c r.1 (still ++ r.2 ++ rest)
        ∧ waitingFor r.1 (still ++ r.2 ++ rest) = waitingFor s (still ++ flight :: rest))
      ∧ P left r.1 (still ++ r.2) rest e t := by
  refine keeps_bind (inv.round underway) ?_
  rintro ⟨status, gate⟩
  cases status with
  | more => exact keeps_pure fun e t h => ⟨underway.goesOn gate, h⟩
  | done =>
    dsimp only
    cases hout : gate.out.1 with
    | none =>
      refine keeps_throw fun e t h => ?_
      simpa only [AfterRound, hout] using h
    | some value =>
      have hcount : Keeps fails (AfterRound fails (P left) s still rest flight (.done, gate))
          (lift countProtocol) fun _ e t => P left (s.complete flight.id value) still rest e
            (Scribe.completed flight.id value s t) := by
        refine keeps_lift_ok (fun _ => ()) _ (fun _ => rfl) fun e t h => ?_
        simpa only [AfterRound, hout] using h
      refine keeps_bind hcount fun _ => keeps_note_bind
        (P left (s.complete flight.id value) still rest)
        (fun _ t => Scribe.extends_completed _ _ _ t) (fun _ _ h => h) (keeps_pure fun e t h => ?_)
      rw [List.append_nil]
      exact ⟨underway.complete value, h⟩

/-- All gates in flight are evaluated once. -/
theorem keeps_advanceAll (inv : Invariant conduct c fails P) {still flights : List (InFlight m)}
    (underway : Underway c s (still ++ flights)) :
    Keeps fails (P left s still flights) (advanceAll conduct s flights) fun r e t =>
      Underway c r.1 (still ++ r.2) ∧ P left r.1 (still ++ r.2) [] e t := by
  induction flights generalizing s still with
  | nil =>
    refine keeps_pure fun e t h => ?_
    rw [List.append_nil] at underway ⊢
    exact ⟨underway, h⟩
  | cons flight rest ih =>
    refine keeps_bind (inv.keeps_advance underway) fun p => ?_
    refine keeps_of_imp fun ⟨hp, _⟩ => keeps_bind (ih hp) fun q => keeps_pure fun e t h => ?_
    rwa [List.append_assoc] at h

/-- The nodes that are ready or become ready are started; when the budget covers the nodes that
have not been started, none is left ready. -/
theorem keeps_startReady (inv : Invariant conduct c fails P) {still : List (InFlight m)}
    (underway : Underway c s still) {budget : Nat} (hbudget : (waitingFor s still).card ≤ budget) :
    Keeps fails (P left s still []) (startReady conduct budget s) fun r e t =>
      (Underway c r.1 (still ++ r.2) ∧ r.1.ready = []) ∧ P left r.1 (still ++ r.2) [] e t := by
  induction budget generalizing s still with
  | zero =>
    refine keeps_pure fun e t h => ?_
    rw [List.append_nil]
    refine ⟨⟨underway, List.eq_nil_iff_forall_not_mem.mpr fun id hid => ?_⟩, h⟩
    have hempty := Finset.card_eq_zero.mp (Nat.le_zero.mp hbudget)
    have hmem : id ∈ waitingFor s still := underway.sound.mem_waiting hid
    rw [hempty] at hmem
    exact absurd hmem (Finset.notMem_empty id)
  | succ budget ih =>
    unfold startReady Schedule.next?
    cases hready : s.ready with
    | nil =>
      refine keeps_pure fun e t h => ?_
      rw [List.append_nil]
      exact ⟨⟨underway, hready⟩, h⟩
    | cons id rest =>
      have hbuild : Keeps fails (P left s still [])
          (lift (ofExcept .circuit (({ s with ready := rest } : Schedule m).gate id)))
          fun gate e t => P left { s with ready := rest } still [{ id, gate, round := 0 }] e
            (Scribe.started id { s with ready := rest } t) :=
        keeps_ofExcept (fun e t gate h hgate => inv.start h underway hready hgate)
          fun e t error h hgate => inv.misfit h underway hready hgate
      refine keeps_bind hbuild fun gate => ?_
      refine keeps_note_bind (P left { s with ready := rest } still [{ id, gate, round := 0 }])
        (fun _ t => Scribe.extends_started _ _ t) (fun _ _ h => h) ?_
      obtain ⟨underway', hfewer⟩ := underway.start hready gate
      refine keeps_bind (inv.keeps_advance underway') fun p => ?_
      refine keeps_of_imp fun ⟨hp, hwaiting⟩ => ?_
      rw [List.append_nil] at hp hwaiting
      have hbudget' : (waitingFor p.1 (still ++ p.2)).card ≤ budget := by
        rw [hwaiting]
        omega
      refine keeps_bind (ih hp hbudget') fun q => keeps_pure fun e t h => ?_
      rwa [List.append_assoc] at h

/-- Rounds until nothing is in flight: then nothing is ready either. -/
theorem keeps_runGates (inv : Invariant conduct c fails P) {flights : List (InFlight m)}
    (underway : Underway c s flights) :
    Keeps fails (P left s [] flights) (runGates conduct left s flights) fun s' e t =>
      (Underway c s' [] ∧ s'.ready = []) ∧ ∃ left, P left s' [] [] e t := by
  induction left generalizing s flights with
  | zero => exact keeps_throw fun e t h => inv.endless h
  | succ left ih =>
    have hround : Underway c s ([] ++ flights) := underway
    refine keeps_bind (inv.keeps_advanceAll hround) fun p => ?_
    refine keeps_of_imp fun hp => ?_
    have hall : (waitingFor p.1 ([] ++ p.2)).card ≤ p.1.circuit.size :=
      (Finset.card_filter_le _ _).trans (Nat.le_of_eq (Finset.card_range _))
    refine keeps_bind (inv.keeps_startReady hp hall) fun q => ?_
    refine keeps_of_imp fun ⟨hq, hready⟩ => ?_
    rw [List.nil_append] at hq ⊢
    refine keeps_note_bind
      (fun e t => ∃ t₀, P (left + 1) q.1 (p.2 ++ q.2) [] e t₀
        ∧ t = Scribe.paused q.1 (p.2 ++ q.2) t₀)
      (fun _ t => Scribe.extends_paused _ _ t) (fun e t h => ⟨t, h, rfl⟩) ?_
    cases hflights : p.2 ++ q.2 with
    | nil =>
      rw [hflights] at hq
      refine keeps_pure ?_
      rintro e t ⟨t₀, h, rfl⟩
      exact ⟨⟨hq, hready⟩, _, inv.rest h hq hready⟩
    | cons flight rest =>
      rw [hflights] at hq
      exact keeps_bind (inv.flush hq hready (List.cons_ne_nil _ _)) fun _ => ih hq

end Invariant

end Invariant

/-! ## §6 Whole evaluations -/

section Evaluation

variable [Scribe m κ] {conduct : InFlight m → Traced m κ (Status × Gate m)} {budget : Nat}
  {c : Circuit m} {fails : Fault → Evaluator m → κ → Prop} {begun : Evaluator m → κ → Prop}
  {ended : Outputs m → Evaluator m → κ → Prop}

/-- Looking at the pool. -/
theorem keeps_pool {e₀ : Evaluator m} {t₀ : κ} :
    Keeps fails (fun e t => e = e₀ ∧ t = t₀) (lift (onPool get))
      fun pool e t => pool = e₀.participant.pool ∧ e = e₀ ∧ t = t₀ :=
  keeps_lift_ok (fun e => e.participant.pool) id onPool_get fun _ _ h => ⟨by rw [h.1], h⟩

/-- An evaluation tosses a seed if there is none, goes through its gates and checks what is left in
the store. It suffices to know what holds in between: `seeded` after the toss, `through s` after the
gates, and `given values` when the outputs are determined. -/
theorem keeps_evaluateWith (seeded : Evaluator m → κ → Prop)
    (through : Schedule m → Evaluator m → κ → Prop)
    (given : List (Value m) → Evaluator m → κ → Prop)
    (refused : ∀ e t error, begun e t → c.validate e.participant.pool.parties = .error error →
      fails (.circuit error) e t)
    (seed : ∀ e₀ t₀, begun e₀ t₀ → c.validate e₀.participant.pool.parties = .ok () →
      Keeps fails (fun e t => e = e₀ ∧ t = t₀)
        (if e₀.participant.pool.hasJointRandomness then pure () else initializeJointRandomness)
        fun _ => seeded)
    (gates : Keeps fails seeded (runGates conduct budget (.new c) []) through)
    (restless : ∀ s e t violation, through s e t → Restless e.participant.mailbox violation →
      fails (.protocol violation) e t)
    (unfinished : ∀ s e t error, through s e t → s.outputs = .error error →
      fails (.circuit error) e t)
    (finished : ∀ s values e t, through s e t → e.participant.mailbox.hasOutgoing = false →
      e.participant.mailbox.leftover? = none → s.outputs = .ok values →
      given values e (Scribe.finished e.participant t))
    (check : ∀ values e₀ t₀, given values e₀ t₀ →
      Keeps fails (fun e t => e = e₀ ∧ t = t₀)
        (if e₀.participant.pool.opened.hasPending then
          run (fun p => .gate (.macCheck p)) ({} : MacCheck m) else pure ())
        fun _ => ended ⟨values⟩) :
    Keeps fails begun (evaluateWith conduct budget c) ended := by
  refine keeps_at fun e₀ t₀ h => keeps_bind keeps_pool fun pool => keeps_of_imp fun hpool => ?_
  subst hpool
  have hvalidate : Keeps fails (fun e t => e = e₀ ∧ t = t₀)
      (lift (ofExcept .circuit (c.validate e₀.participant.pool.parties)))
      fun _ e t => c.validate e₀.participant.pool.parties = .ok () ∧ e = e₀ ∧ t = t₀ := by
    refine keeps_ofExcept (fun _ _ _ heq valid => ⟨valid, heq⟩) ?_
    rintro _ _ error ⟨rfl, rfl⟩ invalid
    exact refused _ _ error h invalid
  refine keeps_bind hvalidate fun _ => keeps_of_imp fun valid => ?_
  refine keeps_bind keeps_pool fun pool => keeps_of_imp fun hpool => ?_
  subst hpool
  refine keeps_bind (seed e₀ t₀ h valid) fun _ => keeps_bind gates fun s => ?_
  have hquiet : Keeps fails (through s) (lift checkQuiescent) fun _ e t => through s e t
      ∧ e.participant.mailbox.hasOutgoing = false ∧ e.participant.mailbox.leftover? = none :=
    keeps_checkQuiescent (fun _ _ h hsent hleft => ⟨h, hsent, hleft⟩) (restless s)
  have houtputs : Keeps fails (fun e t => through s e t
        ∧ e.participant.mailbox.hasOutgoing = false ∧ e.participant.mailbox.leftover? = none)
      (lift (ofExcept .circuit s.outputs))
      fun values e t => given values e (Scribe.finished e.participant t) :=
    keeps_ofExcept (fun e t values ⟨h, hsent, hleft⟩ => finished s values e t h hsent hleft)
      fun e t error h => unfinished s e t error h.1
  refine keeps_bind hquiet fun _ => keeps_bind houtputs fun values =>
    keeps_note_bind (given values) (fun _ t => Scribe.extends_finished _ t) (fun _ _ h => h) ?_
  refine keeps_at fun e t h => keeps_bind keeps_pool fun pool => keeps_of_imp fun hpool => ?_
  subst hpool
  exact keeps_bind (check values e t h) fun _ => keeps_pure fun _ _ h => h

end Evaluation

end Traced

end Evaluator

end JointCircuit
