/-
JointCircuit.Proofs.Conduct — what a round does however it ends.

A failing step keeps what it did, so a law about every point of a
protocol has to cover failures as well. `Action.Respects R` says that a
step leaves its state in relation `R` to what it was, whether it
succeeds or not; there is a rule for every way of composing steps (§1).

Main statement: `Task.respects` (§3) — a relation between participants
that every single step of a pool and of a mailbox respects
(`Manners`, §2) is respected by every round of every protocol.
-/
import JointCircuit.Protocol.Task
import JointCircuit.Proofs.Steps

namespace JointCircuit

variable {m : Modulus} {σ τ π ρ α β γ : Type}

/-! ## §1 Steps that respect a relation -/

namespace Action

/-- The state that a step ends in. -/
def endState : EStateM.Result Fault σ α → σ
  | .ok _ s => s
  | .error _ s => s

@[simp] theorem endState_ok (a : α) (s : σ) :
    endState (.ok a s : EStateM.Result Fault σ α) = s := rfl

@[simp] theorem endState_error (fault : Fault) (s : σ) :
    endState (.error fault s : EStateM.Result Fault σ α) = s := rfl

theorem endState_within (part : σ → τ) (put : τ → σ → σ) (act : Action τ α) (s : σ) :
    endState (within part put act s) = put (endState (act (part s))) s := by
  unfold within
  cases act (part s) <;> rfl

/-- Whether it succeeds or fails, the step leaves its state in relation `R` to what it was. -/
def Respects (R : σ → σ → Prop) (act : Action σ α) : Prop :=
  ∀ s, R s (endState (act s))

namespace Respects

variable {R : σ → σ → Prop}

theorem pure [Std.Refl R] (a : α) : Respects R (Pure.pure a : Action σ α) :=
  fun s => Std.Refl.refl s

theorem throw [Std.Refl R] (fault : Fault) : Respects R (MonadExcept.throw fault : Action σ α) :=
  fun s => Std.Refl.refl s

theorem ofExcept [Std.Refl R] {ε : Type} (fault : ε → Fault) (x : Except ε α) :
    Respects R (Action.ofExcept fault x) := by
  cases x <;> exact fun s => Std.Refl.refl s

theorem bind [IsTrans σ R] {x : Action σ α} {f : α → Action σ β} (hx : Respects R x)
    (hf : ∀ a, Respects R (f a)) : Respects R (x >>= f) := by
  intro s
  have hfirst := hx s
  rw [bind_apply]
  cases h : x s with
  | ok a t =>
    rw [h] at hfirst
    exact IsTrans.trans _ _ _ hfirst (hf a t)
  | error fault t =>
    rw [h] at hfirst
    exact hfirst

/-- What may be preceded by something else. -/
theorem preceded {c : Prop} [Decidable c] {first rest : Action σ α} (hrest : Respects R rest)
    (hfirst : Respects R rest → Respects R first) : Respects R (if c then first else rest) := by
  split
  · exact hfirst hrest
  · exact hrest

/-- A success ends in a state that is in relation to the first one. -/
theorem of_ok {act : Action σ α} (h : Respects R act) {s t : σ} {a : α} (hok : act s = .ok a t) :
    R s t := by
  have hs := h s
  rwa [hok] at hs

theorem of_error {act : Action σ α} (h : Respects R act) {s t : σ} {fault : Fault}
    (herror : act s = .error fault t) : R s t := by
  have hs := h s
  rwa [herror] at hs

end Respects

end Action

open JointCircuit.Action

namespace Round

/-! Two kinds of relations between the states of a round: the protocol keeps a part of its state,
or the participants are related. -/

/-- The protocol keeps this part of its state. -/
def Same (keep : π → γ) (s t : π × Participant m) : Prop :=
  keep t.1 = keep s.1

/-- The participants are related. -/
def Between (R : Participant m → Participant m → Prop) (s t : π × Participant m) : Prop :=
  R s.2 t.2

instance (keep : π → γ) : Std.Refl (Same keep : π × Participant m → _ → Prop) :=
  ⟨fun _ => rfl⟩

instance (keep : π → γ) : IsTrans (π × Participant m) (Same keep) :=
  ⟨fun _ _ _ h h' => h'.trans h⟩

variable {R : Participant m → Participant m → Prop}

instance [Std.Refl R] : Std.Refl (Between R : π × Participant m → _ → Prop) :=
  ⟨fun s => Std.Refl.refl s.2⟩

instance [IsTrans (Participant m) R] : IsTrans (π × Participant m) (Between R) :=
  ⟨fun s t u => IsTrans.trans s.2 t.2 u.2⟩

theorem same_protocol (keep : π → γ) :
    Respects (Same keep) (Round.protocol : Round m π π) := fun _ => rfl

theorem same_update {keep : π → γ} {f : π → π} (h : ∀ p, keep (f p) = keep p) :
    Respects (Same keep) (Round.update f : Round m π Unit) := fun s => h s.1

theorem same_pool (keep : π → γ) (act : Action (Pool m) α) :
    Respects (Same keep) (Round.pool act : Round m π α) := by
  intro s
  rw [Round.pool, endState_within]
  rfl

theorem same_mailbox (keep : π → γ) (act : Action Mailbox α) :
    Respects (Same keep) (Round.mailbox act : Round m π α) := by
  intro s
  rw [Round.mailbox, endState_within]
  rfl

/-- The state of a part is none of what is kept. -/
theorem same_within {keep : π → γ} {inner : ρ} {put : ρ → π → π} (act : Round m ρ α)
    (h : ∀ t p, keep (put t p) = keep p) : Respects (Same keep) (Round.within inner put act) := by
  intro s
  rw [Round.within, endState_within]
  exact h _ s.1

theorem between_protocol [Std.Refl R] :
    Respects (Between R) (Round.protocol : Round m π π) := fun s => Std.Refl.refl s.2

theorem between_update [Std.Refl R] (f : π → π) :
    Respects (Between R) (Round.update f : Round m π Unit) := fun s => Std.Refl.refl s.2

theorem between_pool {act : Action (Pool m) α}
    (h : ∀ w : Participant m, R w { w with pool := endState (act w.pool) }) :
    Respects (Between R) (Round.pool act : Round m π α) := by
  intro s
  rw [Round.pool, endState_within]
  exact h s.2

theorem between_pool_get [Std.Refl R] :
    Respects (Between R) (Round.pool get : Round m π (Pool m)) :=
  between_pool fun w => Std.Refl.refl w

theorem between_mailbox {act : Action Mailbox α}
    (h : ∀ w : Participant m, R w { w with mailbox := endState (act w.mailbox) }) :
    Respects (Between R) (Round.mailbox act : Round m π α) := by
  intro s
  rw [Round.mailbox, endState_within]
  exact h s.2

theorem between_within {inner : ρ} {put : ρ → π → π} {act : Round m ρ α}
    (h : Respects (Between R) act) : Respects (Between R) (Round.within inner put act) := by
  intro s
  rw [Round.within, endState_within]
  exact h (inner, s.2)

theorem endState_round_within (inner : ρ) (put : ρ → π → π) (act : Round m ρ α) (p : π)
    (w : Participant m) : endState (Round.within inner put act (p, w))
      = (put (endState (act (inner, w))).1 p, (endState (act (inner, w))).2) :=
  endState_within _ _ _ _

end Round

open Round

section Kinds

variable (round : Nat)

/-! The round of a gate is that of its protocol, and so is the round of a task. -/

namespace Gate

theorem evaluate_input (p : Input m) (w : Participant m) : evaluate round (.input p, w)
    = Round.within p (fun q _ => .input q) (Input.evaluate round) (.input p, w) := rfl

theorem evaluate_linear (p : Linear m) (w : Participant m) : evaluate round (.linear p, w)
    = Round.within p (fun q _ => .linear q) (Linear.evaluate round) (.linear p, w) := rfl

theorem evaluate_multiply (p : Multiply m) (w : Participant m) : evaluate round (.multiply p, w)
    = Round.within p (fun q _ => .multiply q) (Multiply.evaluate round) (.multiply p, w) := rfl

theorem evaluate_multiplyBatch (p : MultiplyBatch m) (w : Participant m) :
    evaluate round (.multiplyBatch p, w)
    = Round.within p (fun q _ => .multiplyBatch q) (MultiplyBatch.evaluate round)
        (.multiplyBatch p, w) := rfl

theorem evaluate_reveal (p : Reveal m) (w : Participant m) : evaluate round (.reveal p, w)
    = Round.within p (fun q _ => .reveal q) (Reveal.evaluate round) (.reveal p, w) := rfl

theorem evaluate_macCheck (p : MacCheck m) (w : Participant m) : evaluate round (.macCheck p, w)
    = Round.within p (fun q _ => .macCheck q) (MacCheck.evaluate round) (.macCheck p, w) := rfl

end Gate

namespace Task

theorem evaluate_gate (p : Gate m) (w : Participant m) : evaluate round (.gate p, w)
    = Round.within p (fun q _ => .gate q) (Gate.evaluate round) (.gate p, w) := rfl

theorem evaluate_broadcast (p : Broadcast) (w : Participant m) : evaluate round (.broadcast p, w)
    = Round.within p (fun q _ => .broadcast q) (Broadcast.evaluate round) (.broadcast p, w) := rfl

theorem evaluate_commit (p : Commit) (w : Participant m) : evaluate round (.commit p, w)
    = Round.within p (fun q _ => .commit q) (Commit.evaluate round) (.commit p, w) := rfl

theorem evaluate_coinToss (p : CoinToss) (w : Participant m) : evaluate round (.coinToss p, w)
    = Round.within p (fun q _ => .coinToss q) (CoinToss.evaluate round) (.coinToss p, w) := rfl

end Task

end Kinds

/-! ## §2 Manners -/

/-- A relation that holds across every step that a protocol takes on its pool or its mailbox. -/
class Manners (R : Participant m → Participant m → Prop) : Prop
    extends Std.Refl R, IsTrans (Participant m) R where
  nextMask (owner : Nat) (w : Participant m) :
    R w { w with pool := endState (Pool.nextMask owner w.pool) }
  nextTriples (count : Nat) (w : Participant m) :
    R w { w with pool := endState (Pool.nextTriples count w.pool) }
  drawLocal {α : Type} (draw : Draw α) (w : Participant m) :
    R w { w with pool := endState (Pool.drawLocal draw w.pool) }
  installJointSeed (seed : Seed) (w : Participant m) :
    R w { w with pool := endState (Pool.installJointSeed seed w.pool) }
  drawJoint {α : Type} (draw : Draw α) (w : Participant m) :
    R w { w with pool := endState (Pool.drawJoint draw w.pool) }
  pushOpened (shares : List (AuthShare m)) (values : List (Element m)) (w : Participant m) :
    R w { w with pool := endState (Pool.pushOpened shares values w.pool) }
  drainOpened (w : Participant m) : R w { w with pool := endState (Pool.drainOpened w.pool) }
  sendToAll (message : Bytes) (w : Participant m) :
    R w { w with mailbox := endState (Mailbox.sendToAll message w.mailbox) }
  receive (party : Nat) (w : Participant m) :
    R w { w with mailbox := endState (Mailbox.receive party w.mailbox) }

/-! ## §3 Protocols -/

variable {R : Participant m → Participant m → Prop} [hR : Manners R]

/-- What is left of a part is returned with its answer. -/
theorem Round.between_with_protocol {act : Round m π α} (h : Respects (Between R) act) :
    Respects (Between R) (do return (← act, ← Round.protocol) : Round m π (α × π)) :=
  h.bind fun _ => between_protocol.bind fun _ => .pure _

theorem Round.between_sendToAll (message : Bytes) :
    Respects (Between R) (Round.mailbox (Mailbox.sendToAll message) : Round m π Unit) :=
  between_mailbox (hR.sendToAll message)

theorem Round.between_receive (party : Nat) :
    Respects (Between R) (Round.mailbox (Mailbox.receive party) : Round m π Bytes) :=
  between_mailbox (hR.receive party)

/-- One message is taken after another. -/
theorem Round.between_receiveFrom (parties : List Nat) :
    Respects (Between R)
      (Round.mailbox (Mailbox.receiveFrom parties) : Round m π (List Bytes)) := by
  have hbox : ∀ pool, Respects (fun box box' => R ⟨pool, box⟩ ⟨pool, box'⟩)
      (Mailbox.receiveFrom parties) := by
    intro pool
    have : Std.Refl fun box box' => R ⟨pool, box⟩ ⟨pool, box'⟩ := ⟨fun _ => hR.refl _⟩
    have : IsTrans Mailbox fun box box' => R ⟨pool, box⟩ ⟨pool, box'⟩ :=
      ⟨fun _ _ _ => hR.trans _ _ _⟩
    induction parties with
    | nil => exact .pure _
    | cons party rest ih =>
      exact .bind (fun box => hR.receive party ⟨pool, box⟩) fun _ => ih.bind fun _ => .pure _
  exact between_mailbox fun w => hbox w.pool w.mailbox

theorem Round.between_receiveFromAll :
    Respects (Between R) (Round.mailbox Mailbox.receiveFromAll : Round m π (List Bytes)) := by
  intro s
  exact between_receiveFrom ((List.range s.2.mailbox.parties).map (· + 1)) s

theorem Round.respects_sendDigest (messages : List Bytes) :
    Respects (Between R) (sendDigest messages : Round m π Bytes) :=
  (between_sendToAll _).bind fun _ => .pure _

theorem Round.respects_compareDigests (digest : Bytes) :
    Respects (Between R) (compareDigests digest : Round m π Unit) := by
  refine between_receiveFromAll.bind fun digests => ?_
  split
  · exact .pure _
  · exact .throw _

theorem Broadcast.respects (round : Nat) :
    Respects (Between R) (evaluate round : Round m Broadcast Status) := by
  match round with
  | 0 =>
    exact between_protocol.bind fun _ => (between_update _).bind fun _ =>
      (between_sendToAll _).bind fun _ => .pure _
  | 1 =>
    refine between_receiveFromAll.bind fun received => between_pool_get.bind fun pool => ?_
    split
    · exact (respects_sendDigest _).bind fun _ => (between_update _).bind fun _ => .pure _
    · exact (between_update _).bind fun _ => .pure _
  | round + 2 =>
    exact between_protocol.bind fun _ => (respects_compareDigests _).bind fun _ => .pure _

namespace Commit

theorem respects_takeReceived (b : Broadcast) (put : Broadcast → Phase) :
    Respects (Between R) (takeReceived b put : Round m Commit (List Bytes)) :=
  (between_update _).bind fun _ => .pure _

theorem respects_evaluateCommitments (round elapsed : Nat) (b : Broadcast) :
    Respects (Between R) (evaluateCommitments round elapsed b : Round m Commit Status) := by
  refine (between_within (between_with_protocol (Broadcast.respects elapsed))).bind ?_
  rintro ⟨status, b'⟩
  cases status with
  | more => exact .pure _
  | done =>
    refine (respects_takeReceived _ _).bind fun commitments => ?_
    dsimp only
    split
    · exact .throw _
    · exact between_protocol.bind fun _ => (between_update _).bind fun _ =>
        (between_within (Broadcast.respects 0)).bind fun _ => .pure _

theorem respects_evaluateOpenings (elapsed : Nat) (b : Broadcast) :
    Respects (Between R) (evaluateOpenings elapsed b : Round m Commit Status) := by
  refine (between_within (between_with_protocol (Broadcast.respects elapsed))).bind ?_
  rintro ⟨status, b'⟩
  cases status with
  | more => exact .pure _
  | done =>
    exact (respects_takeReceived _ _).bind fun _ => between_protocol.bind fun _ =>
      (Respects.ofExcept _ _).bind fun _ => (between_update _).bind fun _ => .pure _

theorem respects (round : Nat) : Respects (Between R) (evaluate round : Round m Commit Status) := by
  unfold evaluate
  refine between_protocol.bind fun p => .preceded ?_ fun hphases => ?_
  · refine between_protocol.bind fun p => ?_
    dsimp only
    split
    · exact respects_evaluateCommitments _ _ _
    · exact respects_evaluateOpenings _ _
    · exact .throw _
    · exact .throw _
  · exact ((between_pool (hR.drawLocal _)).bind fun _ => between_update _).bind fun _ => hphases

end Commit

theorem CoinToss.respects (round : Nat) :
    Respects (Between R) (evaluate round : Round m CoinToss Status) := by
  refine Respects.bind ?_ fun commit =>
    (between_within (between_with_protocol (Commit.respects round))).bind ?_
  · refine between_protocol.bind fun p => ?_
    split
    · exact .pure _
    · exact (between_pool (hR.drawLocal _)).bind fun _ => (between_update _).bind fun _ => .pure _
  · rintro ⟨status, commit⟩
    cases status with
    | more => exact .pure _
    | done =>
      exact (between_update _).bind fun _ => (Respects.ofExcept _ _).bind fun _ =>
        (between_update _).bind fun _ => .pure _

namespace MacCheck

/-- The own term takes a seed and draws the coefficients. -/
theorem respects_term (shares : List (AuthShare m)) (values : List (Element m)) (seed : Seed) :
    Respects (Between R) (Round.pool (term shares values seed) : Round m π (Element m)) := by
  have hpool : ∀ mailbox, Respects (fun pool pool' => R ⟨pool, mailbox⟩ ⟨pool', mailbox⟩)
      (term shares values seed) := by
    intro mailbox
    have : Std.Refl fun pool pool' => R ⟨pool, mailbox⟩ ⟨pool', mailbox⟩ := ⟨fun _ => hR.refl _⟩
    have : IsTrans (Pool m) fun pool pool' => R ⟨pool, mailbox⟩ ⟨pool', mailbox⟩ :=
      ⟨fun _ _ _ => hR.trans _ _ _⟩
    have hget : Respects (fun pool pool' => R ⟨pool, mailbox⟩ ⟨pool', mailbox⟩)
        (get : Action (Pool m) (Pool m)) := fun _ => hR.refl _
    exact .bind (fun pool => hR.installJointSeed seed ⟨pool, mailbox⟩) fun _ =>
      .bind (fun pool => hR.drawJoint _ ⟨pool, mailbox⟩) fun _ => hget.bind fun _ => .pure _
  exact between_pool fun w => hpool w.mailbox w.pool

theorem respects_evaluateSeeding (round elapsed : Nat) (shares : List (AuthShare m))
    (values : List (Element m)) (toss : CoinToss) :
    Respects (Between R) (evaluateSeeding round elapsed shares values toss) := by
  refine (between_within (between_with_protocol (CoinToss.respects elapsed))).bind ?_
  rintro ⟨status, toss⟩
  cases status with
  | more => exact .pure _
  | done =>
    refine (between_update _).bind fun _ => ?_
    dsimp only
    split
    · exact .throw _
    · exact (respects_term _ _ _).bind fun _ => (between_within (Commit.respects 0)).bind fun _ =>
        .pure _

theorem respects_evaluateChecking (elapsed : Nat) (commit : Commit) :
    Respects (Between R) (evaluateChecking elapsed commit : Round m (MacCheck m) Status) := by
  refine (between_within (between_with_protocol (Commit.respects elapsed))).bind ?_
  rintro ⟨status, commit⟩
  cases status with
  | more => exact .pure _
  | done =>
    refine (between_update _).bind fun _ => (Respects.ofExcept _ _).bind fun sum => ?_
    split
    · exact (between_update _).bind fun _ => .pure _
    · exact .throw _

theorem respects (round : Nat) :
    Respects (Between R) (evaluate round : Round m (MacCheck m) Status) := by
  have hbegin : Respects (Between R) (begin round : Round m (MacCheck m) Status) := by
    refine (between_pool hR.drainOpened).bind fun drained => ?_
    dsimp only
    split
    · exact (between_update _).bind fun _ => .pure _
    · exact (between_update _).bind fun _ => .pure _
  unfold evaluate
  refine between_protocol.bind fun p => .preceded ?_ fun hphases => ?_
  · refine between_protocol.bind fun p => ?_
    dsimp only
    split
    · exact respects_evaluateSeeding _ _ _ _ _
    · exact respects_evaluateChecking _ _
    · exact .throw _
    · exact .throw _
  · refine hbegin.bind fun status => ?_
    split
    · exact .pure _
    · exact hphases

end MacCheck

namespace Input

theorem respects_sendMasked : Respects (Between R) (sendMasked : Round m (Input m) Unit) := by
  refine between_protocol.bind fun p => (between_pool (hR.nextMask _)).bind fun mask =>
    between_pool_get.bind fun pool => ?_
  dsimp only
  split
  · refine (between_update _).bind fun _ => ?_
    split
    · exact (Respects.throw _).bind fun _ => between_update _
    · split
      · exact (Respects.throw _).bind fun _ => between_update _
      · exact (between_sendToAll _).bind fun _ => between_update _
  · exact between_update _

theorem respects_finish : Respects (Between R) (finish : Round m (Input m) Unit) := by
  refine between_protocol.bind fun p => (between_update _).bind fun _ => ?_
  split
  · exact .throw _
  · refine (between_update _).bind fun _ => ?_
    split
    · exact .throw _
    · exact between_pool_get.bind fun _ => between_update _

theorem respects (round : Nat) :
    Respects (Between R) (evaluate round : Round m (Input m) Status) := by
  match round with
  | 0 => exact respects_sendMasked.bind fun _ => .pure _
  | 1 =>
    refine between_protocol.bind fun p => (between_receive _).bind fun bytes =>
      (Respects.ofExcept _ _).bind fun masked => (between_update _).bind fun _ =>
      between_pool_get.bind fun pool => ?_
    split
    · exact (respects_sendDigest _).bind fun _ => (between_update _).bind fun _ => .pure _
    · exact respects_finish.bind fun _ => .pure _
  | round + 2 =>
    exact between_protocol.bind fun p => (respects_compareDigests _).bind fun _ =>
      respects_finish.bind fun _ => .pure _

end Input

theorem Linear.respects (round : Nat) :
    Respects (Between R) (evaluate round : Round m (Linear m) Status) :=
  between_pool_get.bind fun _ => (between_update _).bind fun _ => .pure _

theorem MultiplyBatch.respects (round : Nat) :
    Respects (Between R) (evaluate round : Round m (MultiplyBatch m) Status) := by
  refine between_protocol.bind fun p => ?_
  dsimp only
  split
  · exact (between_update _).bind fun _ => .pure _
  match round with
  | 0 =>
    exact (between_pool (hR.nextTriples _)).bind fun _ => (between_update _).bind fun _ =>
      (between_sendToAll _).bind fun _ => .pure _
  | round + 1 =>
    exact between_receiveFromAll.bind fun _ => (Respects.ofExcept _ _).bind fun _ =>
      (between_pool (hR.pushOpened _ _)).bind fun _ => between_pool_get.bind fun _ =>
      (between_update _).bind fun _ => .pure _

theorem Multiply.respects (round : Nat) :
    Respects (Between R) (evaluate round : Round m (Multiply m) Status) :=
  between_protocol.bind fun _ => between_within (MultiplyBatch.respects round)

theorem Reveal.respects (round : Nat) :
    Respects (Between R) (evaluate round : Round m (Reveal m) Status) := by
  refine between_protocol.bind fun p => ?_
  match round with
  | 0 => exact (between_sendToAll _).bind fun _ => .pure _
  | round + 1 =>
    exact between_receiveFromAll.bind fun _ => (Respects.ofExcept _ _).bind fun _ =>
      (between_pool (hR.pushOpened _ _)).bind fun _ => (between_update _).bind fun _ => .pure _

theorem Gate.respects (round : Nat) :
    Respects (Between R) (evaluate round : Round m (Gate m) Status) := by
  refine between_protocol.bind fun g => ?_
  cases g with
  | input p => exact between_within (Input.respects round)
  | linear p => exact between_within (Linear.respects round)
  | multiply p => exact between_within (Multiply.respects round)
  | multiplyBatch p => exact between_within (MultiplyBatch.respects round)
  | reveal p => exact between_within (Reveal.respects round)
  | macCheck p => exact between_within (MacCheck.respects round)

/-- What holds across every step on a pool or a mailbox holds across every round of every
protocol. -/
theorem Task.respects (round : Nat) :
    Respects (Between R) (evaluate round : Round m (Task m) Status) := by
  refine between_protocol.bind fun t => ?_
  cases t with
  | gate p => exact between_within (Gate.respects round)
  | broadcast p => exact between_within (Broadcast.respects round)
  | commit p => exact between_within (Commit.respects round)
  | coinToss p => exact between_within (CoinToss.respects round)

end JointCircuit
