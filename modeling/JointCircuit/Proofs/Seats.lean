/-
JointCircuit.Proofs.Seats — evaluators in their seats.

§1 executes the steps of an evaluator symbolically, as
`JointCircuit.Proofs.Steps` does for rounds. §2 describes one evaluator
by its seat: the pool it holds and what is queued, in either direction,
for every peer (`At`). A turn of a protocol moves the evaluator from one
such description to the next (`Turn.actOn`).

Main statement (§3): `joint_flush` — when all seats exchange at once,
everything queued for a party is received by it, in order.
-/
import JointCircuit.Evaluator
import JointCircuit.Proofs.Lockstep

namespace JointCircuit

namespace Evaluator

variable {m : Modulus} {α β π ρ : Type} {n : Nat}

/-! ## §1 Steps of an evaluator -/

theorem bind_apply (x : Eval m α) (f : α → Eval m β) (e : Evaluator m) :
    (x >>= f) e = x e >>= fun (answer, e) => match answer with
      | .ok a => f a e
      | .error fault => .finished (.error fault, e) := by
  show Session.bind _ _ = Session.bind _ _
  congr 1
  funext ⟨answer, e⟩
  cases answer <;> rfl

/-- Continue after a step that succeeds without an exchange. -/
theorem bind_of_ok {x : Eval m α} {f : α → Eval m β} {e e' : Evaluator m} {a : α}
    (h : x e = .finished (.ok a, e')) : (x >>= f) e = f a e' := by
  rw [bind_apply, h]
  rfl

/-- A step that fails without an exchange ends the computation. -/
theorem bind_of_error {x : Eval m α} {f : α → Eval m β} {e e' : Evaluator m} {fault : Fault}
    (h : x e = .finished (.error fault, e')) : (x >>= f) e = .finished (.error fault, e') := by
  rw [bind_apply, h]
  rfl

/-- Both parts of a computation that succeeds without an exchange do. -/
theorem bind_eq_ok {x : Eval m α} {f : α → Eval m β} {e e' : Evaluator m} {b : β}
    (h : (x >>= f) e = .finished (.ok b, e')) :
    ∃ a e₁, x e = .finished (.ok a, e₁) ∧ f a e₁ = .finished (.ok b, e') := by
  rw [bind_apply] at h
  cases hx : x e with
  | exchange frames resume =>
    rw [hx] at h
    cases h
  | finished result =>
    obtain ⟨answer, e₁⟩ := result
    rw [hx] at h
    cases answer with
    | error fault => cases h
    | ok a => exact ⟨a, e₁, rfl, h⟩

/-- A step that ends at once has one outcome. -/
theorem finished_unique {session : Session (Except Fault (α × β) × Evaluator m)} {a a' : α}
    {b b' : β} {e e' : Evaluator m} (h : session = .finished (.ok (a, b), e))
    (h' : session = .finished (.ok (a', b'), e')) : a' = a ∧ b' = b ∧ e' = e := by
  cases h.symm.trans h'
  exact ⟨rfl, rfl, rfl⟩

@[simp] theorem pure_apply (a : α) (e : Evaluator m) :
    (pure a : Eval m α) e = .finished (.ok a, e) := rfl

@[simp] theorem throw_apply (fault : Fault) (e : Evaluator m) :
    (throw fault : Eval m α) e = .finished (.error fault, e) := rfl

@[simp] theorem modify_apply (f : Evaluator m → Evaluator m) (e : Evaluator m) :
    (modify f : Eval m PUnit) e = .finished (.ok (), f e) := rfl

@[simp] theorem ofExcept_ok {ε : Type} (fault : ε → Fault) (a : α) (e : Evaluator m) :
    (ofExcept fault (.ok a) : Eval m α) e = .finished (.ok a, e) := rfl

@[simp] theorem ofExcept_error {ε : Type} (fault : ε → Fault) (error : ε) (e : Evaluator m) :
    (ofExcept fault (.error error) : Eval m α) e = .finished (.error (fault error), e) := rfl

theorem lift_apply (session : Session α) (e : Evaluator m) :
    (liftM session : Eval m α) e = session >>= fun a => .finished (.ok a, e) := by
  show Session.bind (Session.bind _ _) _ = _
  exact Session.bind_assoc _ _ _

theorem onPool_get (e : Evaluator m) :
    (onPool get : Eval m (Pool m)) e = .finished (.ok e.participant.pool, e) := rfl

theorem onMailbox_get (e : Evaluator m) :
    (onMailbox get : Eval m Mailbox) e = .finished (.ok e.participant.mailbox, e) := rfl

theorem onPool_of_ok {action : Action (Pool m) α} {e : Evaluator m} {a : α} {pool : Pool m}
    (h : action e.participant.pool = .ok a pool) :
    onPool action e
      = .finished (.ok a, { e with participant := { e.participant with pool } }) := by
  simp only [onPool, act, Action.within_ok h]
  rfl

theorem onMailbox_of_ok {action : Action Mailbox α} {e : Evaluator m} {a : α} {mailbox : Mailbox}
    (h : action e.participant.mailbox = .ok a mailbox) :
    onMailbox action e
      = .finished (.ok a, { e with participant := { e.participant with mailbox } }) := by
  simp only [onMailbox, act, Action.within_ok h]
  rfl

theorem ite_pure_bind (p : Prop) [Decidable p] (x : Eval m Unit) (f : Unit → Eval m α) :
    (if p then pure () else x) >>= f = if p then f () else x >>= f := by
  split
  · exact pure_bind () f
  · rfl

theorem ite_bind_pure (p : Prop) [Decidable p] (x : Eval m Unit) (f : Unit → Eval m α) :
    (if p then x else pure ()) >>= f = if p then x >>= f else f () := by
  split
  · rfl
  · exact pure_bind () f

/-- An evaluation as a sequence of steps: seeding and checking are steps like the others. -/
theorem evaluate_eq (c : Circuit m) :
    evaluate c = (do
      let pool ← onPool get
      ofExcept .circuit (c.validate pool.parties)
      let pool ← onPool get
      (if pool.hasJointRandomness then pure () else initializeJointRandomness : Eval m Unit)
      let s ← runGates (roundBudget c.size) (.new c) []
      checkQuiescent
      let values ← ofExcept .circuit s.outputs
      let pool ← onPool get
      (if pool.opened.hasPending then run ({} : MacCheck m) else pure () : Eval m Unit)
      return ⟨values⟩) := by
  unfold evaluate
  simp only [ite_pure_bind, ite_bind_pure]

/-! ## §2 A seat -/

/-- The evaluator of party `i + 1` holds this pool, and these messages are queued for and
received from every peer. -/
structure At (e : Evaluator m) (i : Fin n) (pool : Pool m) (outgoing incoming : Fin n → Frame) :
    Prop where
  pool_eq : e.participant.pool = pool
  mailbox_eq : ∃ bytes, e.participant.mailbox = .ofPeers (i + 1) outgoing incoming bytes

namespace At

variable {e : Evaluator m} {i : Fin n} {pool : Pool m} {outgoing incoming : Fin n → Frame}

/-- What a party holds is determined. -/
theorem unique (h : e.At i pool outgoing incoming) {pool' : Pool m}
    {outgoing' incoming' : Fin n → Frame} (h' : e.At i pool' outgoing' incoming') :
    outgoing = outgoing' ∧ incoming = incoming' := by
  obtain ⟨bytes, hbox⟩ := h.mailbox_eq
  obtain ⟨bytes', hbox'⟩ := h'.mailbox_eq
  exact Mailbox.ofPeers_inj (hbox.symm.trans hbox')

/-- The counters play no part. -/
theorem count (h : e.At i pool outgoing incoming) (rounds protocols : Nat) :
    ({ e with rounds, protocols } : Evaluator m).At i pool outgoing incoming :=
  ⟨h.pool_eq, h.mailbox_eq⟩

theorem countProtocol (h : e.At i pool outgoing incoming) :
    ∃ e', Evaluator.countProtocol e = .finished (.ok (), e')
      ∧ e'.At i pool outgoing incoming :=
  ⟨_, rfl, h.count _ _⟩

/-- A step on the pool. -/
theorem onPool (h : e.At i pool outgoing incoming) {action : Action (Pool m) α} {a : α}
    {pool' : Pool m} (hp : action pool = .ok a pool') :
    ∃ e', Evaluator.onPool action e = .finished (.ok a, e') ∧ e'.At i pool' outgoing incoming := by
  rw [← h.pool_eq] at hp
  exact ⟨_, onPool_of_ok hp, rfl, h.mailbox_eq⟩

/-- Empty queues count as quiescent. -/
theorem checkQuiescent (h : e.At i pool (fun _ => []) (fun _ => [])) :
    Evaluator.checkQuiescent e = .finished (.ok (), e) := by
  obtain ⟨bytes, hbox⟩ := h.mailbox_eq
  have hdrained : Mailbox.ensureDrained e.participant.mailbox = .ok () e.participant.mailbox := by
    rw [hbox, Mailbox.ensureDrained_ofPeers_nil]
  have hquiet : e.participant.mailbox.hasOutgoing = false := by
    rw [hbox, Mailbox.hasOutgoing_ofPeers_nil]
  unfold Evaluator.checkQuiescent
  rw [bind_of_ok (onMailbox_get e)]
  simp only [hquiet, Bool.false_eq_true, if_false]
  exact onMailbox_of_ok hdrained

end At

/-- A turn of a protocol in a seat: it takes its messages and queues its own behind those that
are queued already. -/
theorem actOn_of_turn {act : Round m π α} {p p' : π} {pool pool' : Pool m} {i : Fin n}
    {takes gives rest outgoing : Fin n → Frame} {answer : Except Fault α} {e : Evaluator m}
    (turn : Turn act p pool takes answer p' pool' gives)
    (h : e.At i pool outgoing (fun j => takes j ++ rest j)) :
    ∃ e', actOn p act e = .finished (answer.map (·, p'), e')
      ∧ e'.At i pool' (fun j => outgoing j ++ gives j) rest := by
  obtain ⟨bytes, hbox⟩ := h.mailbox_eq
  have hstate : e.participant
      = ⟨pool, .ofPeers (i + 1) outgoing (fun j => takes j ++ rest j) bytes⟩ := by
    rw [← h.pool_eq, ← hbox]
  have hturn := turn (i + 1) outgoing rest bytes
  cases answer with
  | ok a =>
    refine ⟨{ e with participant := ⟨pool', .ofPeers (i + 1) _ rest bytes⟩ }, ?_, rfl, bytes, rfl⟩
    simp only [actOn, hstate, hturn, Action.outcome_ok]
    rfl
  | error fault =>
    refine ⟨{ e with participant := ⟨pool', .ofPeers (i + 1) _ rest bytes⟩ }, ?_, rfl, bytes, rfl⟩
    simp only [actOn, hstate, hturn, Action.outcome_error]
    rfl

/-! ## §3 An exchange -/

/-- The frame for every party, with nothing in the own place: that frame is looped back. -/
def framesOf (i : Fin n) (outgoing : Fin n → Frame) : List Frame :=
  List.ofFn (Function.update outgoing i [])

theorem getD_framesOf {i j : Fin n} (h : i ≠ j) (outgoing : Fin n → Frame) :
    (framesOf i outgoing).getD j [] = outgoing j := by
  simp [framesOf, List.getD_eq_getElem?_getD, Function.update_of_ne (Ne.symm h)]

/-- What a party does in an exchange, and how it goes on when the frames of its peers arrive. -/
theorem flush_counted {i : Fin n} {e : Evaluator m} {outgoing : Fin n → Frame} {bytes : Nat}
    (h : e.participant.mailbox = .ofPeers (i + 1) outgoing (fun _ => []) bytes) :
    ∃ resume, flush e = .exchange (framesOf i outgoing) resume
      ∧ ∀ frames : Fin n → Frame,
          resume (.ok (((List.finRange n).filter (· ≠ i)).map fun j => (j.val + 1, frames j)))
            = .finished (.ok (), ⟨⟨e.participant.pool, .ofPeers (i + 1) (fun _ => [])
              (fun j => if j = i then outgoing i else frames j)
              (bytes + (framesOf i outgoing).flatten.flatten.length)⟩, e.rounds + 1,
              e.protocols⟩) := by
  have htake := @Mailbox.takeOutgoing_ofPeers n bytes outgoing i
  rw [← h] at htake
  unfold flush
  rw [bind_of_ok (onMailbox_of_ok htake), bind_apply, lift_apply]
  refine ⟨_, rfl, fun frames => ?_⟩
  have hpeers : ((List.finRange n).filter (· ≠ i)).Nodup := (List.nodup_finRange n).filter _
  have hdeliver : Mailbox.deliver
      (((List.finRange n).filter (· ≠ i)).map fun j => (j.val + 1, frames j))
      (.ofPeers (i + 1) (fun _ => []) (Function.update (fun _ => []) i (outgoing i))
        (bytes + (framesOf i outgoing).flatten.flatten.length))
      = .ok () (.ofPeers (i + 1) (fun _ => [])
        (fun j => if j = i then outgoing i else frames j)
        (bytes + (framesOf i outgoing).flatten.flatten.length)) := by
    rw [Mailbox.deliver_ofPeers _ _ hpeers]
    congr 2
    funext j
    by_cases hj : j = i
    · subst hj
      simp
    · simp [hj]
  show (ofExcept _ (.ok _) >>= _ : Eval m Unit) _ = _
  rw [bind_of_ok (ofExcept_ok _ _ _), bind_of_ok (onMailbox_of_ok hdeliver)]
  rfl

/-- What a seat does in an exchange, and how it goes on when the frames of its peers arrive. -/
theorem flush_at {i : Fin n} {e : Evaluator m} {pool : Pool m} {outgoing : Fin n → Frame}
    (h : e.At i pool outgoing fun _ => []) :
    ∃ resume, flush e = .exchange (framesOf i outgoing) resume
      ∧ ∀ frames : Fin n → Frame, ∃ e' : Evaluator m,
          resume (.ok (((List.finRange n).filter (· ≠ i)).map fun j => (j.val + 1, frames j)))
            = .finished (.ok (), e')
          ∧ e'.At i pool (fun _ => []) (fun j => if j = i then outgoing i else frames j) := by
  obtain ⟨bytes, hbox⟩ := h.mailbox_eq
  obtain ⟨resume, hflush, hresume⟩ := flush_counted hbox
  exact ⟨resume, hflush, fun frames => ⟨_, hresume frames, h.pool_eq, _, rfl⟩⟩

/-- When all parties exchange at once, each receives what its peers and it itself queued for it,
and counts what it handed out. -/
theorem joint_flush_counted {e : Fin n → Evaluator m} {outgoing : Fin n → Fin n → Frame}
    {bytes : Fin n → Nat}
    (h : ∀ i, (e i).participant.mailbox = .ofPeers (i + 1) (outgoing i) (fun _ => []) (bytes i)) :
    Joint (fun i => flush (e i)) [fun i => framesOf i (outgoing i)] fun i =>
      (.ok (), ⟨⟨(e i).participant.pool, .ofPeers (i + 1) (fun _ => []) (fun j => outgoing j i)
        (bytes i + (framesOf i (outgoing i)).flatten.flatten.length)⟩, (e i).rounds + 1,
        (e i).protocols⟩) := by
  choose resume hflush hresume using fun i => flush_counted (h i)
  rw [funext hflush]
  refine .exchange _ resume (.of_finished fun i => ?_)
  have hqueues : (fun j => if j = i then outgoing i i
      else (framesOf j (outgoing j)).getD i []) = fun j => outgoing j i := by
    funext j
    by_cases hj : j = i
    · simp [hj]
    · rw [if_neg hj, getD_framesOf hj]
  rw [Lockstep.deliveryTo_ofFn, hresume i fun j => (framesOf j (outgoing j)).getD i [], hqueues]

/-- When all seats exchange at once, every party receives what its peers and it itself queued
for it. -/
theorem joint_flush {e : Fin n → Evaluator m} {pools : Fin n → Pool m}
    {outgoing : Fin n → Fin n → Frame} (h : ∀ i, (e i).At i (pools i) (outgoing i) fun _ => []) :
    ∃ e' : Fin n → Evaluator m,
      Joint (fun i => flush (e i)) [fun i => framesOf i (outgoing i)] (fun i => (.ok (), e' i))
      ∧ ∀ i, (e' i).At i (pools i) (fun _ => []) fun j => outgoing j i := by
  choose bytes hbox using fun i => (h i).mailbox_eq
  exact ⟨_, joint_flush_counted hbox, fun i => ⟨(h i).pool_eq, _, rfl⟩⟩

/-- All parties do one thing after another. -/
theorem joint_bind {x : Fin n → Eval m α} {f : Fin n → α → Eval m β} {e e' : Fin n → Evaluator m}
    {a : Fin n → α} {sent sent' : List (Fin n → List Frame)}
    {results : Fin n → Except Fault β × Evaluator m}
    (h : Joint (fun i => x i (e i)) sent fun i => (.ok (a i), e' i))
    (h' : Joint (fun i => f i (a i) (e' i)) sent' results) :
    Joint (fun i => (x i >>= f i) (e i)) (sent ++ sent') results := by
  refine Joint.congr ?_ fun i => bind_apply (x i) (f i) (e i)
  exact h.bind h'

/-- What all parties do after something is what is left of a joint execution. -/
theorem joint_split [NeZero n] {x : Fin n → Eval m α} {f : Fin n → α → Eval m β}
    {e e' : Fin n → Evaluator m} {a : Fin n → α} {sent sent' : List (Fin n → List Frame)}
    {results : Fin n → Except Fault β × Evaluator m}
    (h : Joint (fun i => x i (e i)) sent fun i => (.ok (a i), e' i))
    (h' : Joint (fun i => (x i >>= f i) (e i)) sent' results) :
    ∃ rest, sent' = sent ++ rest ∧ Joint (fun i => f i (a i) (e' i)) rest results :=
  h.split (h'.congr fun i => (bind_apply (x i) (f i) (e i)).symm)

/-- All parties fail, and do nothing else. -/
theorem joint_bind_error {x : Fin n → Eval m α} {f : Fin n → α → Eval m β}
    {e e' : Fin n → Evaluator m} {fault : Fin n → Fault} {sent : List (Fin n → List Frame)}
    (h : Joint (fun i => x i (e i)) sent fun i => (.error (fault i), e' i)) :
    Joint (fun i => (x i >>= f i) (e i)) sent fun i => (.error (fault i), e' i) := by
  refine Joint.congr ?_ fun i => bind_apply (x i) (f i) (e i)
  rw [← List.append_nil sent]
  exact h.bind (.finished _)

/-- All parties take a step without an exchange, and go on. -/
theorem joint_step {x : Fin n → Eval m α} {f : Fin n → α → Eval m β} {e e' : Fin n → Evaluator m}
    {a : Fin n → α} {sent : List (Fin n → List Frame)}
    {results : Fin n → Except Fault β × Evaluator m}
    (h : ∀ i, x i (e i) = .finished (.ok (a i), e' i))
    (h' : Joint (fun i => f i (a i) (e' i)) sent results) :
    Joint (fun i => (x i >>= f i) (e i)) sent results :=
  h'.congr fun i => bind_of_ok (h i)

end Evaluator

end JointCircuit
