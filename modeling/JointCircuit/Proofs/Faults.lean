/-
JointCircuit.Proofs.Faults — which faults a round can raise.

A round of a protocol fails because of what it finds: a message that is
missing, malformed or proves a peer malicious, material that has run
out, a state that it must not be evaluated in. What has to do with the
way rounds are strung together — an exchange that fails, a message left
over, a protocol that never ends — is not for a round to say.

Main statement: `Task.fails` — the faults of the rounds of any protocol.
-/
import JointCircuit.Protocol.Task
import JointCircuit.Proofs.Steps

namespace JointCircuit

variable {m : Modulus} {σ τ π ρ α β : Type}

/-- The faults that a round can raise. -/
def Fault.OfRound : Fault → Prop
  | .transport _ => False
  | .protocol (.unconsumed _ _) => False
  | .protocol .sentInFinalRound => False
  | .protocol .noOutput => False
  | .protocol (.nodeWithoutOutput _) => False
  | .protocol (.foreignTransport _ _ _ _) => False
  | .protocol .endless => False
  | _ => True

theorem Fault.OfRound.ne_endless {fault : Fault} (h : fault.OfRound) :
    fault ≠ .protocol .endless := by
  rintro rfl
  exact h

/-! ## §1 Steps -/

namespace Action

/-- Whenever the step fails, it raises a fault of a round. -/
def Fails (act : Action σ α) : Prop :=
  ∀ s fault s', act s = .error fault s' → fault.OfRound

namespace Fails

theorem pure (a : α) : Fails (Pure.pure a : Action σ α) := fun _ _ _ h => nomatch h

theorem throw {fault : Fault} (h : fault.OfRound) :
    Fails (MonadExcept.throw fault : Action σ α) := by
  intro _ fault' _ heq
  cases heq
  exact h

/-- A value that cannot be read is a fault of the round that reads it. -/
theorem wire (x : Except WireError α) : Fails (Action.ofExcept .wire x : Action σ α) := by
  cases x with
  | ok a => exact pure a
  | error e => exact throw True.intro

/-- What a peer is caught at is a fault of the round that looks. -/
theorem malicious (x : Except Misbehaviour α) :
    Fails (Action.ofExcept .malicious x : Action σ α) := by
  cases x with
  | ok a => exact pure a
  | error e => exact throw True.intro

theorem bind {x : Action σ α} {f : α → Action σ β} (hx : Fails x) (hf : ∀ a, Fails (f a)) :
    Fails (x >>= f) := by
  intro s fault s' h
  obtain h | ⟨a, t, -, h⟩ := bind_eq_error.mp h
  · exact hx s fault s' h
  · exact hf a t fault s' h

theorem get : Fails (MonadState.get : Action σ σ) := fun _ _ _ h => nomatch h

theorem set (s : σ) : Fails (MonadStateOf.set s : Action σ PUnit) := fun _ _ _ h => nomatch h

theorem modify (f : σ → σ) :
    Fails (MonadState.modifyGet fun s => (PUnit.unit, f s) : Action σ PUnit) :=
  fun _ _ _ h => nomatch h

/-- What may be preceded by something else. -/
theorem preceded {c : Prop} [Decidable c] {first rest : Action σ α} (hrest : Fails rest)
    (hfirst : Fails rest → Fails first) : Fails (if c then first else rest) := by
  split
  · exact hfirst hrest
  · exact hrest

theorem within {part : σ → τ} {put : τ → σ → σ} {act : Action τ α} (h : Fails act) :
    Fails (Action.within part put act) := by
  intro s fault s' heq
  unfold Action.within at heq
  cases hact : act (part s) with
  | ok a t =>
    rw [hact] at heq
    cases heq
  | error fault' t =>
    rw [hact] at heq
    cases heq
    exact h _ _ _ hact

end Fails

end Action

open JointCircuit.Action

/-! ## §2 Mailboxes and pools -/

theorem Mailbox.fails_receive (party : Nat) : Fails (receive party) := by
  refine Fails.get.bind fun box => .preceded ?_ fun hrest =>
    Fails.bind (.throw True.intro) fun _ => hrest
  split
  · exact .throw True.intro
  · exact (Fails.set _).bind fun _ => .pure _

theorem Mailbox.fails_receiveFrom (parties : List Nat) : Fails (receiveFrom parties) := by
  induction parties with
  | nil => exact .pure _
  | cons party rest ih => exact (fails_receive party).bind fun _ => ih.bind fun _ => .pure _

theorem Mailbox.fails_deliver (delivery : List (Nat × Frame)) : Fails (deliver delivery) := by
  induction delivery with
  | nil => exact .pure _
  | cons sent rest ih =>
    exact Fails.get.bind fun box => .preceded ((Fails.set _).bind fun _ => ih) fun hrest =>
      Fails.bind (.throw True.intro) fun _ => hrest

theorem SyntheticSupplier.fails_nextMask (owner : Nat) :
    Fails (nextMask owner : Action (SyntheticSupplier m) (InputMask m)) := by
  unfold nextMask
  refine Fails.get.bind fun s => .preceded ?_ fun hrest =>
    Fails.bind (.throw True.intro) fun _ => hrest
  generalize hmask : Synthetic.randomAuthenticated s.place s.key = draw
  split
  · exact .throw True.intro
  · exact (Fails.set _).bind fun _ => .pure _

theorem DealtSupplier.fails_nextMask (owner : Nat) :
    Fails (nextMask owner : Action (DealtSupplier m) (InputMask m)) := by
  refine Fails.get.bind fun s => .preceded ?_ fun hrest =>
    Fails.bind (.throw True.intro) fun _ => hrest
  split
  · exact .throw True.intro
  · refine (Fails.set _).bind fun _ => ?_
    split
    · split
      · exact .throw True.intro
      · exact (Fails.set _).bind fun _ => .pure _
    · exact .pure _

theorem Supplier.fails_nextMask (owner : Nat) :
    Fails (nextMask owner : Action (Supplier m) (InputMask m)) := by
  intro supplier fault after h
  cases supplier with
  | synthetic s =>
    unfold nextMask at h
    exact Fails.within (SyntheticSupplier.fails_nextMask owner) _ fault after h
  | dealt s =>
    unfold nextMask at h
    exact Fails.within (DealtSupplier.fails_nextMask owner) _ fault after h

theorem SyntheticSupplier.fails_nextTriples (count : Nat) :
    Fails (nextTriples count : Action (SyntheticSupplier m) (List (Triple m))) := by
  unfold nextTriples
  refine Fails.get.bind fun s => ?_
  split
  exact (Fails.set _).bind fun _ => .pure _

theorem DealtSupplier.fails_nextTriples (count : Nat) :
    Fails (nextTriples count : Action (DealtSupplier m) (List (Triple m))) :=
  Fails.get.bind fun _ => .preceded ((Fails.set _).bind fun _ => .pure _) fun hrest =>
    Fails.bind (.throw True.intro) fun _ => hrest

theorem Supplier.fails_nextTriples (count : Nat) :
    Fails (nextTriples count : Action (Supplier m) (List (Triple m))) := by
  intro supplier fault after h
  cases supplier with
  | synthetic s =>
    unfold nextTriples at h
    exact Fails.within (SyntheticSupplier.fails_nextTriples count) _ fault after h
  | dealt s =>
    unfold nextTriples at h
    exact Fails.within (DealtSupplier.fails_nextTriples count) _ fault after h

namespace Round

theorem fails_protocol : Fails (Round.protocol : Round m π π) := fun _ _ _ h => nomatch h

theorem fails_update (f : π → π) : Fails (Round.update f : Round m π Unit) :=
  fun _ _ _ h => nomatch h

theorem fails_get : Fails (Round.pool get : Round m π (Pool m)) := Fails.within .get

theorem fails_nextMask (owner : Nat) :
    Fails (Round.pool (Pool.nextMask owner) : Round m π (InputMask m)) :=
  Fails.within (Fails.within (Supplier.fails_nextMask owner))

theorem fails_nextTriples (count : Nat) :
    Fails (Round.pool (Pool.nextTriples count) : Round m π (List (Triple m))) :=
  Fails.within (Fails.within (Supplier.fails_nextTriples count))

theorem fails_drawLocal (draw : Draw α) :
    Fails (Round.pool (Pool.drawLocal draw) : Round m π α) :=
  Fails.within (Fails.get.bind fun _ => (Fails.set _).bind fun _ => .pure _)

theorem fails_drawJoint (draw : Draw α) : Fails (Pool.drawJoint draw : Action (Pool m) α) := by
  refine Fails.get.bind fun pool => ?_
  split
  · exact .throw True.intro
  · exact (Fails.set _).bind fun _ => .pure _

theorem fails_pushOpened (shares : List (AuthShare m)) (values : List (Element m)) :
    Fails (Round.pool (Pool.pushOpened shares values) : Round m π Unit) := by
  refine Fails.within (Fails.within (Fails.get.bind fun _ =>
    (Fails.modify _).bind fun _ => Fails.get.bind fun _ => ?_))
  split
  · exact (Fails.set _).bind fun _ => .throw True.intro
  · exact .pure _

theorem fails_drainOpened :
    Fails (Round.pool Pool.drainOpened : Round m π (List (AuthShare m) × List (Element m))) :=
  Fails.within (Fails.within (Fails.get.bind fun _ => (Fails.set _).bind fun _ => .pure _))

theorem fails_sendToAll (message : Bytes) :
    Fails (Round.mailbox (Mailbox.sendToAll message) : Round m π Unit) :=
  Fails.within (.modify _)

theorem fails_receive (party : Nat) :
    Fails (Round.mailbox (Mailbox.receive party) : Round m π Bytes) :=
  Fails.within (Mailbox.fails_receive party)

theorem fails_receiveFromAll :
    Fails (Round.mailbox Mailbox.receiveFromAll : Round m π (List Bytes)) :=
  Fails.within (Fails.get.bind fun _ => Mailbox.fails_receiveFrom _)

/-- What is left of a part is returned with its answer. -/
theorem fails_with_protocol {act : Round m π α} (h : Fails act) :
    Fails (do return (← act, ← Round.protocol) : Round m π (α × π)) :=
  h.bind fun _ => fails_protocol.bind fun _ => .pure _

theorem fails_within {inner : ρ} {put : ρ → π → π} {act : Round m ρ α} (h : Fails act) :
    Fails (Round.within inner put act) :=
  Fails.within h

theorem fails_sendDigest (messages : List Bytes) :
    Fails (sendDigest messages : Round m π Bytes) :=
  (fails_sendToAll _).bind fun _ => .pure _

theorem fails_compareDigests (digest : Bytes) :
    Fails (compareDigests digest : Round m π Unit) := by
  refine fails_receiveFromAll.bind fun digests => ?_
  split
  · exact .pure _
  · exact .throw True.intro

end Round

open Round

/-! ## §3 Protocols -/

theorem Broadcast.fails (round : Nat) : Fails (evaluate round : Round m Broadcast Status) := by
  match round with
  | 0 =>
    exact fails_protocol.bind fun _ => (fails_update _).bind fun _ =>
      (fails_sendToAll _).bind fun _ => .pure _
  | 1 =>
    refine fails_receiveFromAll.bind fun received => fails_get.bind fun pool => ?_
    split
    · exact (fails_sendDigest _).bind fun _ => (fails_update _).bind fun _ => .pure _
    · exact (fails_update _).bind fun _ => .pure _
  | round + 2 =>
    exact fails_protocol.bind fun _ => (fails_compareDigests _).bind fun _ => .pure _

namespace Commit

theorem fails_evaluateCommitments (round elapsed : Nat) (b : Broadcast) :
    Fails (evaluateCommitments round elapsed b : Round m Commit Status) := by
  refine (fails_within (fails_with_protocol (Broadcast.fails elapsed))).bind ?_
  rintro ⟨status, b'⟩
  cases status with
  | more => exact .pure _
  | done =>
    refine ((fails_update _).bind fun _ => .pure _).bind fun commitments => ?_
    dsimp only
    split
    · exact .throw True.intro
    · exact fails_protocol.bind fun _ => (fails_update _).bind fun _ =>
        (fails_within (Broadcast.fails 0)).bind fun _ => .pure _

theorem fails_evaluateOpenings (elapsed : Nat) (b : Broadcast) :
    Fails (evaluateOpenings elapsed b : Round m Commit Status) := by
  refine (fails_within (fails_with_protocol (Broadcast.fails elapsed))).bind ?_
  rintro ⟨status, b'⟩
  cases status with
  | more => exact .pure _
  | done =>
    exact ((fails_update _).bind fun _ => .pure _).bind fun _ => fails_protocol.bind fun _ =>
      (Fails.malicious _).bind fun _ => (fails_update _).bind fun _ => .pure _

theorem fails (round : Nat) : Fails (evaluate round : Round m Commit Status) := by
  unfold evaluate
  refine fails_protocol.bind fun p => .preceded ?_ fun hphases => ?_
  · refine fails_protocol.bind fun p => ?_
    dsimp only
    split
    · exact fails_evaluateCommitments _ _ _
    · exact fails_evaluateOpenings _ _
    · exact .throw True.intro
    · exact .throw True.intro
  · exact ((fails_drawLocal _).bind fun _ => fails_update _).bind fun _ => hphases

end Commit

theorem CoinToss.fails (round : Nat) : Fails (evaluate round : Round m CoinToss Status) := by
  refine Fails.bind ?_ fun commit =>
    (fails_within (fails_with_protocol (Commit.fails round))).bind ?_
  · refine fails_protocol.bind fun p => ?_
    split
    · exact .pure _
    · exact (fails_drawLocal _).bind fun _ => (fails_update _).bind fun _ => .pure _
  · rintro ⟨status, commit⟩
    cases status with
    | more => exact .pure _
    | done =>
      exact (fails_update _).bind fun _ => (Fails.malicious _).bind fun _ =>
        (fails_update _).bind fun _ => .pure _

namespace MacCheck

theorem fails_term (shares : List (AuthShare m)) (values : List (Element m)) (seed : Seed) :
    Fails (Round.pool (term shares values seed) : Round m π (Element m)) :=
  Fails.within ((Fails.modify _).bind fun _ => (fails_drawJoint _).bind fun _ =>
    Fails.get.bind fun _ => .pure _)

theorem fails_evaluateSeeding (round elapsed : Nat) (shares : List (AuthShare m))
    (values : List (Element m)) (toss : CoinToss) :
    Fails (evaluateSeeding round elapsed shares values toss) := by
  refine (fails_within (fails_with_protocol (CoinToss.fails elapsed))).bind ?_
  rintro ⟨status, toss⟩
  cases status with
  | more => exact .pure _
  | done =>
    refine (fails_update _).bind fun _ => ?_
    dsimp only
    split
    · exact .throw True.intro
    · exact (fails_term _ _ _).bind fun _ => (fails_within (Commit.fails 0)).bind fun _ => .pure _

theorem fails_evaluateChecking (elapsed : Nat) (commit : Commit) :
    Fails (evaluateChecking elapsed commit : Round m (MacCheck m) Status) := by
  refine (fails_within (fails_with_protocol (Commit.fails elapsed))).bind ?_
  rintro ⟨status, commit⟩
  cases status with
  | more => exact .pure _
  | done =>
    refine (fails_update _).bind fun _ => (Fails.wire _).bind fun sum => ?_
    split
    · exact (fails_update _).bind fun _ => .pure _
    · exact .throw True.intro

theorem fails (round : Nat) : Fails (evaluate round : Round m (MacCheck m) Status) := by
  have hbegin : Fails (begin round : Round m (MacCheck m) Status) := by
    refine fails_drainOpened.bind fun drained => ?_
    dsimp only
    split
    · exact (fails_update _).bind fun _ => .pure _
    · exact (fails_update _).bind fun _ => .pure _
  unfold evaluate
  refine fails_protocol.bind fun p => .preceded ?_ fun hphases => ?_
  · refine fails_protocol.bind fun p => ?_
    dsimp only
    split
    · exact fails_evaluateSeeding _ _ _ _ _
    · exact fails_evaluateChecking _ _
    · exact .throw True.intro
    · exact .throw True.intro
  · refine hbegin.bind fun status => ?_
    split
    · exact .pure _
    · exact hphases

end MacCheck

namespace Input

theorem fails_sendMasked : Fails (sendMasked : Round m (Input m) Unit) := by
  refine fails_protocol.bind fun p => (fails_nextMask _).bind fun mask =>
    fails_get.bind fun pool => ?_
  dsimp only
  split
  · refine (fails_update _).bind fun _ => ?_
    split
    · exact Fails.bind (.throw True.intro) fun _ => fails_update _
    · split
      · exact Fails.bind (.throw True.intro) fun _ => fails_update _
      · exact (fails_sendToAll _).bind fun _ => fails_update _
  · exact fails_update _

theorem fails_finish : Fails (finish : Round m (Input m) Unit) := by
  refine fails_protocol.bind fun p => (fails_update _).bind fun _ => ?_
  split
  · exact .throw True.intro
  · refine (fails_update _).bind fun _ => ?_
    split
    · exact .throw True.intro
    · exact fails_get.bind fun _ => fails_update _

theorem fails (round : Nat) : Fails (evaluate round : Round m (Input m) Status) := by
  match round with
  | 0 => exact fails_sendMasked.bind fun _ => .pure _
  | 1 =>
    refine fails_protocol.bind fun p => (fails_receive _).bind fun bytes =>
      (Fails.wire _).bind fun masked => (fails_update _).bind fun _ =>
      fails_get.bind fun pool => ?_
    split
    · exact (fails_sendDigest _).bind fun _ => (fails_update _).bind fun _ => .pure _
    · exact fails_finish.bind fun _ => .pure _
  | round + 2 =>
    exact fails_protocol.bind fun p => (fails_compareDigests _).bind fun _ =>
      fails_finish.bind fun _ => .pure _

end Input

theorem Linear.fails (round : Nat) : Fails (evaluate round : Round m (Linear m) Status) :=
  fails_get.bind fun _ => (fails_update _).bind fun _ => .pure _

theorem MultiplyBatch.fails (round : Nat) :
    Fails (evaluate round : Round m (MultiplyBatch m) Status) := by
  refine fails_protocol.bind fun p => ?_
  dsimp only
  split
  · exact (fails_update _).bind fun _ => .pure _
  match round with
  | 0 =>
    exact (fails_nextTriples _).bind fun _ => (fails_update _).bind fun _ =>
      (fails_sendToAll _).bind fun _ => .pure _
  | round + 1 =>
    exact fails_receiveFromAll.bind fun _ => (Fails.wire _).bind fun _ =>
      (fails_pushOpened _ _).bind fun _ => fails_get.bind fun _ => (fails_update _).bind fun _ =>
      .pure _

theorem Reveal.fails (round : Nat) : Fails (evaluate round : Round m (Reveal m) Status) := by
  refine fails_protocol.bind fun p => ?_
  match round with
  | 0 => exact (fails_sendToAll _).bind fun _ => .pure _
  | round + 1 =>
    exact fails_receiveFromAll.bind fun _ => (Fails.wire _).bind fun _ =>
      (fails_pushOpened _ _).bind fun _ => (fails_update _).bind fun _ => .pure _

theorem Gate.fails (round : Nat) : Fails (evaluate round : Round m (Gate m) Status) := by
  refine fails_protocol.bind fun g => ?_
  cases g with
  | input p => exact fails_within (Input.fails round)
  | linear p => exact fails_within (Linear.fails round)
  | multiply p =>
    exact fails_within (fails_protocol.bind fun _ => fails_within (MultiplyBatch.fails round))
  | multiplyBatch p => exact fails_within (MultiplyBatch.fails round)
  | reveal p => exact fails_within (Reveal.fails round)
  | macCheck p => exact fails_within (MacCheck.fails round)

/-- A round of any protocol raises faults of a round only. -/
theorem Task.fails (round : Nat) : Fails (evaluate round : Round m (Task m) Status) := by
  refine fails_protocol.bind fun t => ?_
  cases t with
  | gate p => exact fails_within (Gate.fails round)
  | broadcast p => exact fails_within (Broadcast.fails round)
  | commit p => exact fails_within (Commit.fails round)
  | coinToss p => exact fails_within (CoinToss.fails round)

end JointCircuit
