/-
JointCircuit.Proofs.Blindness — what a party does without looking at its material.

Only the first round of a gate takes preprocessed material. Everything
else commutes with an exchange of the supplier: the same frames go out,
the same answer is given, and the new supplier is still there at the end.
`Action.Commutes` (§1) says so for a step, with a rule for every way of
composing steps; `Round.Blind` (§2) is the case of the rounds of a
protocol and `Evaluator.Blind` (§4) that of a computation of an evaluator.

Main statements: `Gate.blind` — all rounds of a gate but the first are
blind; `Gate.draws` (§3) — the first one sees no more of the supplier
than what it draws; `Joint.supplied` (§4) — blind computations
of several parties exchange the same frames whatever the suppliers are.
-/
import JointCircuit.Proofs.Seats

namespace JointCircuit

variable {m : Modulus} {σ τ π ρ α β γ : Type}

/-! ## §1 Steps that commute with a change of the state -/

namespace Action

/-- Change the state that a step ends in. -/
def carry (f : σ → τ) : EStateM.Result Fault σ α → EStateM.Result Fault τ α
  | .ok a s => .ok a (f s)
  | .error fault s => .error fault (f s)

@[simp] theorem carry_ok (f : σ → τ) (a : α) (s : σ) :
    carry f (.ok a s : EStateM.Result Fault σ α) = .ok a (f s) := rfl

@[simp] theorem carry_error (f : σ → τ) (fault : Fault) (s : σ) :
    carry f (.error fault s : EStateM.Result Fault σ α) = .error fault (f s) := rfl

/-- The change `f` makes no difference to the step, which keeps it. -/
def Commutes (f : σ → σ) (act : Action σ α) : Prop :=
  ∀ s, act (f s) = carry f (act s)

namespace Commutes

variable {f : σ → σ}

theorem unchanged (act : Action σ α) : Commutes (fun s => s) act := by
  intro s
  cases act s <;> rfl

theorem pure (a : α) : Commutes f (Pure.pure a : Action σ α) := fun _ => rfl

theorem throw (fault : Fault) : Commutes f (MonadExcept.throw fault : Action σ α) := fun _ => rfl

theorem ofExcept {ε : Type} (fault : ε → Fault) (x : Except ε α) :
    Commutes f (Action.ofExcept fault x) := by
  cases x <;> exact fun _ => rfl

theorem bind {x : Action σ α} {k : α → Action σ β} (hx : Commutes f x)
    (hk : ∀ a, Commutes f (k a)) : Commutes f (x >>= k) := by
  intro s
  rw [bind_apply, bind_apply, hx s]
  cases x s with
  | ok a t => exact hk a t
  | error fault t => rfl

/-- A step on a part of the state, which the change meets as `g`. -/
theorem within {part : σ → τ} {put : τ → σ → σ} {act : Action τ α} {g : τ → τ}
    (hpart : ∀ s, part (f s) = g (part s)) (hput : ∀ t s, put (g t) (f s) = f (put t s))
    (hact : Commutes g act) : Commutes f (Action.within part put act) := by
  intro s
  simp only [Action.within, hpart s, hact (part s)]
  cases act (part s) <;> simp [hput]

end Commutes

end Action

open JointCircuit.Action

/-! ## §2 Rounds -/

/-- The pool with this supplier instead of its own. -/
def Pool.supplied (pool : Pool m) (supplier : Supplier m) : Pool m :=
  { pool with supplier }

/-- The participant with this supplier instead of its own. -/
def Participant.supplied (w : Participant m) (supplier : Supplier m) : Participant m :=
  { w with pool := w.pool.supplied supplier }

/-- A step on the pool that does not look at the supplier. -/
def Pool.Blind (act : Action (Pool m) α) : Prop :=
  ∀ supplier, Commutes (Pool.supplied · supplier) act

namespace Round

/-- A round that does not look at the supplier. -/
def Blind (act : Round m π α) : Prop :=
  ∀ supplier, Commutes (fun s => (s.1, s.2.supplied supplier)) act

namespace Blind

theorem pure (a : α) : Blind (Pure.pure a : Round m π α) := fun _ => .pure a

theorem throw (fault : Fault) : Blind (MonadExcept.throw fault : Round m π α) :=
  fun _ => .throw fault

theorem ofExcept {ε : Type} (fault : ε → Fault) (x : Except ε α) :
    Blind (Action.ofExcept fault x : Round m π α) := fun _ => .ofExcept fault x

theorem bind {x : Round m π α} {k : α → Round m π β} (hx : Blind x) (hk : ∀ a, Blind (k a)) :
    Blind (x >>= k) := fun supplier => (hx supplier).bind fun a => hk a supplier

theorem protocol : Blind (Round.protocol : Round m π π) := fun _ _ => rfl

theorem update (f : π → π) : Blind (Round.update f : Round m π Unit) := fun _ _ => rfl

theorem mailbox (act : Action Mailbox α) : Blind (Round.mailbox act : Round m π α) :=
  fun _ => .within (fun _ => rfl) (fun _ _ => rfl) (.unchanged act)

theorem pool {act : Action (Pool m) α} (hact : Pool.Blind act) :
    Blind (Round.pool act : Round m π α) :=
  fun supplier => .within (fun _ => rfl) (fun _ _ => rfl) (hact supplier)

/-- The pool is read, but not its supplier. -/
theorem pool_get_bind {k : Pool m → Round m π α}
    (h : ∀ pool supplier, k (Pool.supplied pool supplier) = k pool) (hk : ∀ pool, Blind (k pool)) :
    Blind (Round.pool get >>= k) := by
  intro supplier s
  have hread : ∀ s : π × Participant m, (Round.pool get >>= k) s = k s.2.pool s := fun _ => rfl
  rw [hread, hread]
  show k (s.2.pool.supplied supplier) _ = _
  rw [h]
  exact hk s.2.pool supplier s

theorem within {inner : ρ} {put : ρ → π → π} {act : Round m ρ α} (hact : Blind act) :
    Blind (Round.within inner put act) :=
  fun supplier => .within (fun _ => rfl) (fun _ _ => rfl) (hact supplier)

/-- What may be preceded by something else. -/
theorem preceded {c : Prop} [Decidable c] {first rest : Round m π α} (hrest : Blind rest)
    (hfirst : Blind rest → Blind first) : Blind (if c then first else rest) := by
  split
  · exact hfirst hrest
  · exact hrest

/-- A part that answers with what is left of it. -/
theorem with_protocol {act : Round m π α} (hact : Blind act) :
    Blind (do return (← act, ← Round.protocol) : Round m π (α × π)) :=
  hact.bind fun _ => protocol.bind fun _ => pure _

end Blind

end Round

theorem Pool.blind_drawLocal (draw : Draw α) : Pool.Blind (m := m) (drawLocal draw) :=
  fun _ _ => rfl

theorem Pool.blind_drainOpened : Pool.Blind (m := m) drainOpened := fun _ _ => rfl

theorem Pool.blind_pushOpened (shares : List (AuthShare m)) (values : List (Element m)) :
    Pool.Blind (pushOpened shares values) :=
  fun _ => .within (fun _ => rfl) (fun _ _ => rfl) (.unchanged _)

open Round (Blind)

/-- The own message of a broadcast, the others' messages and the comparison come from the
mailbox. -/
theorem Broadcast.blind (round : Nat) : Blind (evaluate round : Round m Broadcast Status) := by
  match round with
  | 0 =>
    exact .bind .protocol fun _ => .bind (.update _) fun _ => .bind (.mailbox _) fun _ => .pure _
  | 1 =>
    refine .bind (.mailbox _) fun received => .pool_get_bind (fun _ _ => rfl) fun pool => ?_
    split
    · exact .bind (.bind (.mailbox _) fun _ => .pure _) fun _ => .bind (.update _) fun _ => .pure _
    · exact .bind (.update _) fun _ => .pure _
  | round + 2 =>
    refine .bind .protocol fun b => .bind (.bind (.mailbox _) fun digests => ?_) fun _ => .pure _
    split
    · exact .pure _
    · exact .throw _

namespace Commit

theorem blind_takeReceived (b : Broadcast) (put : Broadcast → Phase) :
    Blind (takeReceived b put : Round m Commit (List Bytes)) := .bind (.update _) fun _ => .pure _

theorem blind_evaluateCommitments (round elapsed : Nat) (b : Broadcast) :
    Blind (evaluateCommitments round elapsed b : Round m Commit Status) := by
  refine .bind (.within (Broadcast.blind elapsed).with_protocol) ?_
  rintro ⟨status, b'⟩
  cases status with
  | more => exact .pure _
  | done =>
    refine .bind (blind_takeReceived _ _) fun commitments => ?_
    dsimp only
    split
    · exact .throw _
    · exact .bind .protocol fun _ => .bind (.update _) fun _ =>
        .bind (.within (Broadcast.blind 0)) fun _ => .pure _

theorem blind_evaluateOpenings (elapsed : Nat) (b : Broadcast) :
    Blind (evaluateOpenings elapsed b : Round m Commit Status) := by
  refine .bind (.within (Broadcast.blind elapsed).with_protocol) ?_
  rintro ⟨status, b'⟩
  cases status with
  | more => exact .pure _
  | done =>
    exact .bind (blind_takeReceived _ _) fun _ => .bind .protocol fun _ =>
      .bind (.ofExcept _ _) fun _ => .bind (.update _) fun _ => .pure _

theorem blind (round : Nat) : Blind (evaluate round : Round m Commit Status) := by
  unfold evaluate
  refine .bind .protocol fun p => .preceded ?_ fun hphases => ?_
  · refine .bind .protocol fun p => ?_
    dsimp only
    split
    · exact blind_evaluateCommitments _ _ _
    · exact blind_evaluateOpenings _ _
    · exact .throw _
    · exact .throw _
  · exact .bind (.bind (.pool (Pool.blind_drawLocal _)) fun _ => .update _) fun _ => hphases

end Commit

theorem CoinToss.blind (round : Nat) : Blind (evaluate round : Round m CoinToss Status) := by
  refine .bind ?_ fun commit => .bind (.within (Commit.blind round).with_protocol) ?_
  · refine .bind .protocol fun p => ?_
    split
    · exact .pure _
    · exact .bind (.pool (Pool.blind_drawLocal _)) fun _ => .bind (.update _) fun _ => .pure _
  · rintro ⟨status, commit⟩
    cases status with
    | more => exact .pure _
    | done =>
      exact .bind (.update _) fun _ => .bind (.ofExcept _ _) fun _ => .bind (.update _) fun _ =>
        .pure _

namespace MacCheck

/-- The own term comes from the store, the key share and the joint generator. -/
theorem blind_term (shares : List (AuthShare m)) (values : List (Element m)) (seed : Seed) :
    Pool.Blind (term shares values seed) := fun _ _ => rfl

theorem blind_evaluateSeeding (round elapsed : Nat) (shares : List (AuthShare m))
    (values : List (Element m)) (toss : CoinToss) :
    Blind (evaluateSeeding round elapsed shares values toss) := by
  refine .bind (.within (CoinToss.blind elapsed).with_protocol) ?_
  rintro ⟨status, toss⟩
  cases status with
  | more => exact .pure _
  | done =>
    refine .bind (.update _) fun _ => ?_
    dsimp only
    split
    · exact .throw _
    · exact .bind (.pool (blind_term _ _ _)) fun _ => .bind (.within (Commit.blind 0)) fun _ =>
        .pure _

theorem blind_evaluateChecking (elapsed : Nat) (commit : Commit) :
    Blind (evaluateChecking elapsed commit : Round m (MacCheck m) Status) := by
  refine .bind (.within (Commit.blind elapsed).with_protocol) ?_
  rintro ⟨status, commit⟩
  cases status with
  | more => exact .pure _
  | done =>
    refine .bind (.update _) fun _ => .bind (.ofExcept _ _) fun sum => ?_
    split
    · exact .bind (.update _) fun _ => .pure _
    · exact .throw _

theorem blind (round : Nat) : Blind (evaluate round : Round m (MacCheck m) Status) := by
  have hbegin : Blind (begin round : Round m (MacCheck m) Status) := by
    refine .bind (.pool Pool.blind_drainOpened) fun drained => ?_
    dsimp only
    split
    · exact .bind (.update _) fun _ => .pure _
    · exact .bind (.update _) fun _ => .pure _
  unfold evaluate
  refine .bind .protocol fun p => .preceded ?_ fun hphases => ?_
  · refine .bind .protocol fun p => ?_
    dsimp only
    split
    · exact blind_evaluateSeeding _ _ _ _ _
    · exact blind_evaluateChecking _ _
    · exact .throw _
    · exact .throw _
  · refine .bind hbegin fun status => ?_
    split
    · exact .pure _
    · exact hphases

end MacCheck

theorem Linear.blind (round : Nat) : Blind (evaluate round : Round m (Linear m) Status) :=
  .pool_get_bind (fun _ _ => rfl) fun _ => .bind (.update _) fun _ => .pure _

theorem Reveal.blind (round : Nat) : Blind (evaluate round : Round m (Reveal m) Status) := by
  refine .bind .protocol fun p => ?_
  match round with
  | 0 => exact .bind (.mailbox _) fun _ => .pure _
  | round + 1 =>
    exact .bind (.mailbox _) fun _ => .bind (.ofExcept _ _) fun _ =>
      .bind (.pool (Pool.blind_pushOpened _ _)) fun _ => .bind (.update _) fun _ => .pure _

theorem Input.blind (round : Nat) : Blind (evaluate (round + 1) : Round m (Input m) Status) := by
  have hfinish : Blind (finish : Round m (Input m) Unit) := by
    refine .bind .protocol fun p => .bind (.update _) fun _ => ?_
    split
    · exact .throw _
    · refine .bind (.update _) fun _ => ?_
      split
      · exact .throw _
      · exact .pool_get_bind (fun _ _ => rfl) fun _ => .update _
  match round with
  | 0 =>
    refine .bind .protocol fun p => .bind (.mailbox _) fun bytes => .bind (.ofExcept _ _)
      fun masked => .bind (.update _) fun _ => .pool_get_bind (fun _ _ => rfl) fun pool => ?_
    split
    · exact .bind (.bind (.mailbox _) fun _ => .pure _) fun _ => .bind (.update _) fun _ => .pure _
    · exact .bind hfinish fun _ => .pure _
  | round + 1 =>
    refine .bind .protocol fun p => .bind (.bind (.mailbox _) fun digests => ?_) fun _ =>
      .bind hfinish fun _ => .pure _
    split
    · exact .pure _
    · exact .throw _

theorem MultiplyBatch.blind (round : Nat) :
    Blind (evaluate (round + 1) : Round m (MultiplyBatch m) Status) := by
  refine .bind .protocol fun p => ?_
  dsimp only
  split
  · exact .bind (.update _) fun _ => .pure _
  · exact .bind (.mailbox _) fun _ => .bind (.ofExcept _ _) fun _ =>
      .bind (.pool (Pool.blind_pushOpened _ _)) fun _ =>
        .pool_get_bind (fun _ _ => rfl) fun _ => .bind (.update _) fun _ => .pure _

/-- After its first round a gate has all the material that it needs. -/
theorem Gate.blind (round : Nat) : Blind (evaluate (round + 1) : Round m (Gate m) Status) := by
  refine .bind .protocol fun g => ?_
  cases g with
  | input p => exact .within (Input.blind round)
  | linear p => exact .within (Linear.blind _)
  | multiply p => exact .within (.bind .protocol fun _ => .within (MultiplyBatch.blind round))
  | multiplyBatch p => exact .within (MultiplyBatch.blind round)
  | reveal p => exact .within (Reveal.blind _)
  | macCheck p => exact .within (MacCheck.blind _)

/-! ## §3 Draws -/

/-- What the first round of a gate takes from the supplier. -/
inductive Drawn (m : Modulus) where
  | nothing
  | mask (mask : InputMask m)
  | triples (triples : List (Triple m))

/-- A batch takes a triple for every pair; an empty one does not even ask. -/
def MultiplyBatch.draw (p : MultiplyBatch m) : Action (Supplier m) (Drawn m) :=
  if p.pairs.isEmpty then pure .nothing else .triples <$> Supplier.nextTriples p.pairs.length

/-- What a gate takes from the supplier. -/
def Gate.draw : Gate m → Action (Supplier m) (Drawn m)
  | .input p => .mask <$> Supplier.nextMask p.owner
  | .multiply p => p.batch.draw
  | .multiplyBatch p => p.draw
  | _ => pure .nothing

namespace Round

/-- Let a step act on the supplier. -/
def supplier (act : Action (Supplier m) α) : Round m π α :=
  .pool (.within (·.supplier) (fun supplier pool => { pool with supplier }) act)

/-- From the state `p` the round looks at the supplier only in making the draw `draw`: two suppliers
that hand out the same make no difference, and without the draw the round fails. -/
structure Draws (draw : Action (Supplier m) α) (p : π) (act : Round m π β) : Prop where
  same : ∀ (w : Participant m) {s s' t t' : Supplier m} {a : α}, draw s = .ok a s' →
    draw t = .ok a t' → act (p, w.supplied t)
      = carry (fun state => (state.1, state.2.supplied t')) (act (p, w.supplied s))
  fails : ∀ (w : Participant m) {s s' : Supplier m} {fault : Fault}, draw s = .error fault s' →
    ∃ state, act (p, w.supplied s) = .error fault state

namespace Draws

variable {draw : Action (Supplier m) α} {p : π}

theorem of_blind {act : Round m π β} (h : Blind act) (a : α) : Draws (pure a) p act where
  same := by
    intro w s s' t t' a hs ht
    cases hs
    cases ht
    exact h t (p, w.supplied s)
  fails := by
    intro w s s' fault hs
    cases hs

theorem protocol_bind {k : π → Round m π β} (h : Draws draw p (k p)) :
    Draws draw p (Round.protocol >>= k) := ⟨h.same, h.fails⟩

theorem supplier_bind {k : α → Round m π β} (hk : ∀ a, Blind (k a)) :
    Draws draw p (Round.supplier draw >>= k) where
  same := by
    intro w s s' t t' a hs ht
    have happly : ∀ {s s' : Supplier m}, draw s = .ok a s' →
        (Round.supplier draw >>= k) (p, w.supplied s) = k a (p, w.supplied s') := by
      intro s s' hs
      have hs' : draw (w.supplied s).pool.supplier = .ok a s' := hs
      rw [Action.bind_apply, supplier, pool_apply, Action.within_ok hs']
      rfl
    rw [happly hs, happly ht]
    exact hk a t' (p, w.supplied s')
  fails := by
    intro w s s' fault hs
    have hs' : draw (w.supplied s).pool.supplier = .error fault s' := hs
    rw [Action.bind_apply, supplier, pool_apply, Action.within_error hs']
    exact ⟨_, rfl⟩

theorem bind {x : Round m π β} {k : β → Round m π γ} (hx : Draws draw p x)
    (hk : ∀ b, Blind (k b)) : Draws draw p (x >>= k) where
  same := by
    intro w s s' t t' a hs ht
    rw [Action.bind_apply, Action.bind_apply, hx.same w hs ht]
    cases x (p, w.supplied s) with
    | ok b state => exact hk b t' state
    | error fault state => rfl
  fails := by
    intro w s s' fault hs
    obtain ⟨state, hx⟩ := hx.fails w hs
    rw [Action.bind_apply, hx]
    exact ⟨state, rfl⟩

theorem within {inner : ρ} {put : ρ → π → π} {act : Round m ρ β} (h : Draws draw inner act) :
    Draws draw p (Round.within inner put act) where
  same := by
    intro w s s' t t' a hs ht
    rw [within_apply, within_apply, h.same w hs ht]
    cases act (inner, w.supplied s) <;> rfl
  fails := by
    intro w s s' fault hs
    obtain ⟨state, hact⟩ := h.fails w hs
    rw [within_apply, hact]
    exact ⟨_, rfl⟩

theorem map {f : α → γ} (hf : f.Injective) {act : Round m π β} (h : Draws draw p act) :
    Draws (f <$> draw) p act where
  same := by
    intro w s s' t t' a hs ht
    obtain ⟨b, hdraw, rfl⟩ := Action.map_eq_ok.mp hs
    obtain ⟨b', hdraw', hb⟩ := Action.map_eq_ok.mp ht
    exact h.same w hdraw (hf hb ▸ hdraw')
  fails := by
    intro w s s' fault hs
    exact h.fails w (Action.map_eq_error.mp hs)

end Draws

end Round

open Round (Draws)

/-- An input takes a mask of its owner. -/
theorem Input.draws (p : Input m) :
    Draws (Drawn.mask <$> Supplier.nextMask p.owner) p (evaluate 0 : Round m (Input m) Status) := by
  refine .map (fun _ _ h => by cases h; rfl) (.bind (.protocol_bind (.supplier_bind fun mask => ?_))
    fun _ => .pure _)
  refine .pool_get_bind (fun _ _ => rfl) fun pool => ?_
  dsimp only
  split
  · refine .bind (.update _) fun _ => ?_
    split
    · exact .bind (.throw _) fun _ => .update _
    · split
      · exact .bind (.throw _) fun _ => .update _
      · exact .bind (.mailbox _) fun _ => .update _
  · exact .update _

theorem MultiplyBatch.draws (p : MultiplyBatch m) :
    Draws p.draw p (evaluate 0 : Round m (MultiplyBatch m) Status) := by
  refine .protocol_bind ?_
  rw [draw]
  dsimp only
  split
  · exact .of_blind (.bind (.update _) fun _ => .pure _) _
  · exact .map (fun _ _ h => by cases h; rfl) (.supplier_bind fun triples =>
      .bind (.update _) fun _ => .bind (.mailbox _) fun _ => .pure _)

/-- The first round of a gate looks at the supplier only in making its draw. -/
theorem Gate.draws (g : Gate m) : Draws g.draw g (evaluate 0 : Round m (Gate m) Status) := by
  refine .protocol_bind ?_
  cases g with
  | input p => exact .within (Input.draws p)
  | linear p => exact .of_blind (.within (Linear.blind 0)) _
  | multiply p => exact .within (.protocol_bind (.within (MultiplyBatch.draws p.batch)))
  | multiplyBatch p => exact .within (MultiplyBatch.draws p)
  | reveal p => exact .of_blind (.within (Reveal.blind 0)) _
  | macCheck p => exact .of_blind (.within (MacCheck.blind 0)) _

/-! ## §4 Evaluators -/

namespace Evaluator

/-- The evaluator with this supplier instead of its own. -/
def supplied (e : Evaluator m) (supplier : Supplier m) : Evaluator m :=
  { e with participant := e.participant.supplied supplier }

/-- The supplier of an evaluator. -/
def supplier (e : Evaluator m) : Supplier m := e.participant.pool.supplier

/-- A computation that does not look at the supplier. -/
def Blind (x : Eval m α) : Prop :=
  ∀ e supplier, x (e.supplied supplier)
    = x e >>= fun (answer, e') => .finished (answer, e'.supplied supplier)

namespace Blind

theorem pure (a : α) : Blind (Pure.pure a : Eval m α) := fun _ _ => rfl

theorem throw (fault : Fault) : Blind (MonadExcept.throw fault : Eval m α) := fun _ _ => rfl

theorem ofExcept {ε : Type} (fault : ε → Fault) (x : Except ε α) :
    Blind (Evaluator.ofExcept fault x : Eval m α) := by
  cases x <;> exact fun _ _ => rfl

theorem bind {x : Eval m α} {f : α → Eval m β} (hx : Blind x) (hf : ∀ a, Blind (f a)) :
    Blind (x >>= f) := by
  intro e supplier
  rw [bind_apply, bind_apply, hx e supplier, Session.bind_assoc, Session.bind_assoc]
  congr 1
  funext ⟨answer, e'⟩
  cases answer with
  | ok a => exact hf a e' supplier
  | error fault => rfl

theorem onMailbox (action : Action Mailbox α) :
    Blind (Evaluator.onMailbox action : Eval m α) := by
  intro e supplier
  have hmailbox : (e.supplied supplier).participant.mailbox = e.participant.mailbox := rfl
  simp only [Evaluator.onMailbox, act, Action.within, hmailbox]
  cases action e.participant.mailbox <;> rfl

theorem onPool {action : Action (Pool m) α} (h : Pool.Blind action) :
    Blind (Evaluator.onPool action : Eval m α) := by
  intro e supplier
  have hpool : (e.supplied supplier).participant.pool = e.participant.pool.supplied supplier := rfl
  simp only [Evaluator.onPool, act, Action.within, hpool, h supplier e.participant.pool]
  cases action e.participant.pool <;> rfl

theorem actOn {p : π} {round : Round m π α} (h : Round.Blind round) :
    Blind (Evaluator.actOn p round) := by
  intro e supplier
  have hround := h supplier (p, e.participant)
  have hparticipant : (e.supplied supplier).participant = e.participant.supplied supplier := rfl
  simp only [Evaluator.actOn, hparticipant, hround]
  cases round (p, e.participant) <;> rfl

theorem modify {f : Evaluator m → Evaluator m}
    (h : ∀ e supplier, f (e.supplied supplier) = (f e).supplied supplier) :
    Blind (MonadState.modifyGet fun e => ((), f e) : Eval m Unit) := by
  intro e supplier
  show Session.finished (Except.ok (), f (e.supplied supplier)) = _
  rw [h]
  rfl

theorem exchangeFrames (frames : List Frame) :
    Blind (liftM (Session.exchangeFrames frames) :
      Eval m (Except TransportError Delivery)) :=
  fun _ _ => rfl

end Blind

namespace Blind

variable {x : Eval m α} {e e' : Evaluator m} {answer : Except Fault α}

/-- A step without an exchange, with another supplier. -/
theorem finished (h : Blind x) (hx : x e = .finished (answer, e')) (supplier : Supplier m) :
    x (e.supplied supplier) = .finished (answer, e'.supplied supplier) := by
  rw [h e supplier, hx]
  rfl

/-- A step that does not look at the supplier leaves it as it is. -/
theorem supplier_eq (h : Blind x) (hx : x e = .finished (answer, e')) :
    e'.supplier = e.supplier := by
  have hself : x e = .finished (answer, e'.supplied e.supplier) := h.finished hx e.supplier
  rw [hx] at hself
  have hsame := (Prod.mk.inj (Session.finished.inj hself)).2
  rw [hsame]
  rfl

end Blind

theorem blind_flush : Blind (flush : Eval m Unit) :=
  .bind (.onMailbox _) fun _ => .bind (.exchangeFrames _) fun _ => .bind (.ofExcept _ _) fun _ =>
    .bind (.onMailbox _) fun _ => .modify fun _ _ => rfl

theorem blind_checkQuiescent : Blind (checkQuiescent : Eval m Unit) := by
  refine .bind (.onMailbox _) fun box => ?_
  dsimp only
  split
  · exact .bind (.throw _) fun _ => .onMailbox _
  · exact .onMailbox _

theorem blind_countProtocol : Blind (countProtocol : Eval m Unit) := .modify fun _ _ => rfl

theorem blind_runRounds [Protocol m π ρ]
    (h : ∀ round, Round.Blind (Protocol.evaluate round : Round m π Status))
    (budget round : Nat) (p : π) : Blind (runRounds budget round p : Eval m π) := by
  induction budget generalizing round p with
  | zero => exact .throw _
  | succ budget ih =>
    refine .bind (.actOn (h round)) ?_
    rintro ⟨status, p⟩
    cases status with
    | more => exact .bind blind_flush fun _ => ih _ _
    | done => exact .pure _

theorem blind_run [Protocol m π ρ]
    (h : ∀ round, Round.Blind (Protocol.evaluate round : Round m π Status)) (p : π) :
    Blind (run p : Eval m ρ) := by
  refine .bind (blind_runRounds h _ _ _) fun p => .bind blind_checkQuiescent fun _ =>
    .bind blind_countProtocol fun _ => ?_
  split
  · exact .pure _
  · exact .throw _

theorem blind_initializeJointRandomness : Blind (initializeJointRandomness : Eval m Unit) :=
  .bind (blind_run CoinToss.blind _) fun _ => .onPool fun _ _ => rfl

/-- What becomes of a gate after a round: it stays in flight, or its node is complete. -/
def settle (s : Schedule m) (flight : InFlight m) :
    Status × Gate m → Eval m (Schedule m × List (InFlight m))
  | (.more, gate) => return (s, [{ flight with gate, round := flight.round + 1 }])
  | (.done, gate) =>
    match gate.out.1 with
    | none => throw (.protocol (.nodeWithoutOutput flight.id))
    | some value => do
      countProtocol
      return (s.complete flight.id value, [])

theorem advance_eq (s : Schedule m) (flight : InFlight m) :
    advance s flight = actOn flight.gate (Gate.evaluate flight.round) >>= settle s flight := rfl

/-- What an advanced gate has done: it stays in flight, or it has a value and its node is
complete. -/
theorem advance_eq_ok {s s' : Schedule m} {flight : InFlight m} {still : List (InFlight m)}
    {e e' : Evaluator m} (h : advance s flight e = .finished (.ok (s', still), e')) :
    ∃ status gate, Gate.evaluate flight.round (flight.gate, e.participant)
        = .ok status (gate, e'.participant)
      ∧ ((status = .more ∧ s' = s ∧ still = [{ flight with gate, round := flight.round + 1 }]
          ∧ e' = { e with participant := e'.participant })
        ∨ status = .done ∧ still = [] ∧ ∃ value, gate.out.1 = some value
          ∧ s' = s.complete flight.id value
          ∧ e' = { e with participant := e'.participant, protocols := e.protocols + 1 }) := by
  rw [advance_eq, bind_apply] at h
  cases hround : Gate.evaluate flight.round (flight.gate, e.participant) with
  | error fault state =>
    simp only [actOn, hround] at h
    cases h
  | ok status state =>
    obtain ⟨gate, w⟩ := state
    simp only [actOn, hround] at h
    cases status with
    | more =>
      cases h
      exact ⟨_, gate, rfl, .inl ⟨rfl, rfl, rfl, rfl⟩⟩
    | done =>
      have h : settle s flight (.done, gate) { e with participant := w }
        = .finished (.ok (s', still), e') := h
      unfold settle at h
      dsimp only at h
      cases hout : gate.out.1 with
      | none =>
        rw [hout] at h
        cases h
      | some value =>
        rw [hout] at h
        cases h
        exact ⟨_, gate, rfl, .inr ⟨rfl, rfl, value, hout, rfl, rfl⟩⟩

/-- Gates that are all advanced are advanced one after another. -/
theorem advanceAll_cons_eq_ok {s s' : Schedule m} {flight : InFlight m}
    {flights still : List (InFlight m)} {e e' : Evaluator m}
    (h : advanceAll s (flight :: flights) e = .finished (.ok (s', still), e')) :
    ∃ s₁ first e₁ others, advance s flight e = .finished (.ok (s₁, first), e₁)
      ∧ advanceAll s₁ flights e₁ = .finished (.ok (s', others), e') ∧ still = first ++ others := by
  obtain ⟨⟨s₁, first⟩, e₁, hadvance, h⟩ := bind_eq_ok h
  obtain ⟨⟨s₂, others⟩, e₂, hrest, h⟩ := bind_eq_ok h
  cases h
  exact ⟨s₁, first, e₁, others, hadvance, hrest, rfl⟩

theorem blind_settle (s : Schedule m) (flight : InFlight m) (result : Status × Gate m) :
    Blind (settle s flight result) := by
  obtain ⟨status, gate⟩ := result
  cases status with
  | more => exact .pure _
  | done =>
    unfold settle
    dsimp only
    split
    · exact .throw _
    · exact .bind blind_countProtocol fun _ => .pure _

/-- The gates in flight have had their first rounds. -/
theorem blind_advance (s : Schedule m) {flight : InFlight m} (h : flight.round ≠ 0) :
    Blind (advance s flight) := by
  obtain ⟨round, hround⟩ := Nat.exists_eq_succ_of_ne_zero h
  exact .bind (.actOn (hround ▸ Gate.blind round)) (blind_settle s flight)

theorem blind_advanceAll {flights : List (InFlight m)} (h : ∀ flight ∈ flights, flight.round ≠ 0)
    (s : Schedule m) : Blind (advanceAll s flights) := by
  induction flights generalizing s with
  | nil => exact .pure _
  | cons flight flights ih =>
    refine .bind (blind_advance s (h flight List.mem_cons_self)) fun result => ?_
    refine .bind (ih (fun f hf => h f (List.mem_cons_of_mem _ hf)) _) fun _ => .pure _

/-- A node starts in the same way with any supplier that hands out what its gate draws, and what
the draw leaves is left. -/
theorem advance_of_draw (s : Schedule m) {id : NodeId} {gate : Gate m} {e : Evaluator m}
    {drawn : Drawn m} {left supplier' left' : Supplier m}
    (h : gate.draw e.participant.pool.supplier = .ok drawn left)
    (h' : gate.draw supplier' = .ok drawn left') :
    advance s { id, gate, round := 0 } (e.supplied supplier')
      = advance s { id, gate, round := 0 } e
        >>= fun (answer, e') => .finished (answer, e'.supplied left') := by
  have hround := (gate.draws).same e.participant h h'
  have hself : e.participant.supplied e.participant.pool.supplier = e.participant := rfl
  rw [hself] at hround
  have hact : actOn gate (Gate.evaluate 0) (e.supplied supplier')
      = actOn gate (Gate.evaluate 0) e
        >>= fun ended => .finished (ended.1, ended.2.supplied left') := by
    have hparticipant : (e.supplied supplier').participant = e.participant.supplied supplier' := rfl
    simp only [actOn, hparticipant, hround]
    cases Gate.evaluate 0 (gate, e.participant) <;> rfl
  rw [advance_eq, bind_apply, bind_apply, hact, Session.bind_assoc, Session.bind_assoc]
  congr 1
  funext ended
  obtain ⟨answer, e'⟩ := ended
  cases answer with
  | error fault => rfl
  | ok result => exact blind_settle s _ result e' left'

/-- What a start does with another supplier that hands out the same. -/
theorem advance_supplied {s : Schedule m} {id : NodeId} {gate : Gate m} {e e' : Evaluator m}
    {drawn : Drawn m} {left supplier' left' : Supplier m}
    {answer : Except Fault (Schedule m × List (InFlight m))}
    (h : advance s { id, gate, round := 0 } e = .finished (answer, e'))
    (hdraw : gate.draw e.supplier = .ok drawn left)
    (hdraw' : gate.draw supplier' = .ok drawn left') :
    advance s { id, gate, round := 0 } (e.supplied supplier')
      = .finished (answer, e'.supplied left') := by
  rw [advance_of_draw s hdraw hdraw', h]
  rfl

/-- Without its draw a node fails to start. -/
theorem advance_of_draw_error (s : Schedule m) {id : NodeId} {gate : Gate m} {e : Evaluator m}
    {fault : Fault} {left : Supplier m}
    (h : gate.draw e.participant.pool.supplier = .error fault left) :
    ∃ e', advance s { id, gate, round := 0 } e = .finished (.error fault, e') := by
  obtain ⟨⟨gate', w⟩, hround⟩ := (gate.draws).fails e.participant h
  have hself : e.participant.supplied e.participant.pool.supplier = e.participant := rfl
  rw [hself] at hround
  refine ⟨{ e with participant := w }, bind_of_error ?_⟩
  simp only [actOn, hround]
  rfl

/-- A node that starts has made its draw, and has what the draw leaves. -/
theorem draw_of_advance {s s' : Schedule m} {id : NodeId} {gate : Gate m} {e e' : Evaluator m}
    {still : List (InFlight m)}
    (h : advance s { id, gate, round := 0 } e = .finished (.ok (s', still), e')) :
    ∃ drawn, gate.draw e.supplier = .ok drawn e'.supplier := by
  cases hdraw : gate.draw e.supplier with
  | error fault left =>
    obtain ⟨e₁, herror⟩ := @advance_of_draw_error m s id gate e fault left hdraw
    rw [herror] at h
    cases h
  | ok drawn left =>
    have hself : advance s { id, gate, round := 0 } e
        = .finished (.ok (s', still), e'.supplied left) := advance_supplied h hdraw hdraw
    rw [h] at hself
    have hleft : e'.supplier = left :=
      congrArg supplier (Prod.mk.inj (Session.finished.inj hself)).2
    exact ⟨drawn, by rw [hleft]⟩

end Evaluator

/-- Blind computations of several parties exchange the same frames whatever their suppliers
are. -/
theorem Joint.supplied {n : Nat} {x : Fin n → Eval m α} (h : ∀ i, Evaluator.Blind (x i))
    {e : Fin n → Evaluator m} {sent : List (Fin n → List Frame)}
    {results : Fin n → Except Fault α × Evaluator m}
    (joint : Joint (fun i => x i (e i)) sent results) (suppliers : Fin n → Supplier m) :
    Joint (fun i => x i ((e i).supplied (suppliers i))) sent
      fun i => ((results i).1, (results i).2.supplied (suppliers i)) := by
  rw [← List.append_nil sent]
  have hbind := @Joint.bind _ (Except Fault α × Evaluator m) n _ sent results joint
    (fun i result => .finished (result.1, result.2.supplied (suppliers i))) [] _ (.finished _)
  exact hbind.congr fun i => h i (e i) (suppliers i)

/-- They keep their suppliers. -/
theorem Joint.supplier_eq {n : Nat} [NeZero n] {x : Fin n → Eval m α}
    (h : ∀ i, Evaluator.Blind (x i)) {e : Fin n → Evaluator m} {sent : List (Fin n → List Frame)}
    {results : Fin n → Except Fault α × Evaluator m}
    (joint : Joint (fun i => x i (e i)) sent results) (i : Fin n) :
    (results i).2.supplier = (e i).supplier := by
  obtain ⟨-, hresults⟩ := joint.unique (Joint.supplied h joint fun i => (e i).supplier)
  exact congrArg (·.2.supplier) (congrFun hresults i).symm

end JointCircuit
