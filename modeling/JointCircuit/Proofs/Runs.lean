/-
JointCircuit.Proofs.Runs — one party against arbitrary peers.

`Session.Run session replies a` says that the session ends with `a` when
its exchanges are answered by these replies, whatever the peers meant by
them. `Evaluator.Returns` is the same for a computation of an evaluator
that succeeds; it is inverted step by step (§2), which turns the success
of a computation into the successes of its parts.

Main statement: `Joint.run` — in a joint execution every party's session
is run in this sense.
-/
import JointCircuit.Proofs.Seats

namespace JointCircuit

variable {α β : Type}

/-! ## §1 Runs of a session -/

namespace Session

/-- The session ends with `a` when its exchanges are answered by these replies. -/
inductive Run : Session α → List (Except TransportError Delivery) → α → Prop
  | finished (a : α) : Run (.finished a) [] a
  | exchange (frames : List Frame) (resume : Except TransportError Delivery → Session α)
      {received : Except TransportError Delivery}
      {replies : List (Except TransportError Delivery)} {a : α}
      (rest : Run (resume received) replies a) :
      Run (.exchange frames resume) (received :: replies) a

theorem run_finished {a b : α} {replies : List (Except TransportError Delivery)} :
    Run (.finished a) replies b ↔ replies = [] ∧ a = b := by
  constructor
  · rintro ⟨⟩
    exact ⟨rfl, rfl⟩
  · rintro ⟨rfl, rfl⟩
    exact .finished a

/-- A run of a sequence is a run of its first part and one of its second part. -/
theorem run_bind {session : Session α} {next : α → Session β}
    {replies : List (Except TransportError Delivery)} {b : β} :
    Run (session >>= next) replies b
      ↔ ∃ a replies₁ replies₂, replies = replies₁ ++ replies₂ ∧ Run session replies₁ a
        ∧ Run (next a) replies₂ b := by
  constructor
  · intro h
    induction session generalizing replies with
    | finished a => exact ⟨a, [], replies, rfl, .finished a, h⟩
    | exchange frames resume ih =>
      cases h with
      | exchange _ _ rest =>
        obtain ⟨a, replies₁, replies₂, rfl, h₁, h₂⟩ := ih _ rest
        exact ⟨a, _ :: replies₁, replies₂, rfl, .exchange frames resume h₁, h₂⟩
  · rintro ⟨a, replies₁, replies₂, rfl, h₁, h₂⟩
    induction h₁ with
    | finished a => exact h₂
    | exchange frames resume rest ih => exact .exchange frames _ (ih h₂)

theorem run_map {session : Session α} {f : α → β} {replies : List (Except TransportError Delivery)}
    {b : β} : Run (f <$> session) replies b ↔ ∃ a, Run session replies a ∧ f a = b := by
  rw [← bind_pure_comp, run_bind]
  constructor
  · rintro ⟨a, replies₁, replies₂, rfl, h₁, h₂⟩
    obtain ⟨rfl, rfl⟩ := run_finished.mp h₂
    exact ⟨a, by rwa [List.append_nil], rfl⟩
  · rintro ⟨a, h, rfl⟩
    exact ⟨a, replies, [], (List.append_nil _).symm, h, .finished _⟩

/-- The result of a session whose exchanges are answered by these replies, if they suffice. -/
def answered : Session α → List (Except TransportError Delivery) → Option α
  | .finished a, [] => some a
  | .exchange _ resume, received :: replies => (resume received).answered replies
  | _, _ => none

theorem run_of_answered {session : Session α} {replies : List (Except TransportError Delivery)}
    {a : α} (h : session.answered replies = some a) : Run session replies a := by
  induction session generalizing replies with
  | finished b =>
    cases replies with
    | nil =>
      cases h
      exact .finished a
    | cons _ _ => cases h
  | exchange frames resume ih =>
    cases replies with
    | nil => cases h
    | cons received replies => exact .exchange frames resume (ih received h)

end Session

/-- In a joint execution every party's session is run to its result. -/
theorem Joint.run {n : Nat} {sessions : Fin n → Session α} {sent : List (Fin n → List Frame)}
    {results : Fin n → α} (h : Joint sessions sent results) (i : Fin n) :
    ∃ replies, Session.Run (sessions i) replies (results i) := by
  induction h with
  | finished results => exact ⟨[], .finished _⟩
  | exchange frames resume rest ih =>
    obtain ⟨replies, hrun⟩ := ih
    exact ⟨_, .exchange _ _ hrun⟩

/-- Every exchange of a joint execution has its reply. -/
theorem Joint.run_length {n : Nat} {sessions : Fin n → Session α} {sent : List (Fin n → List Frame)}
    {results : Fin n → α} (h : Joint sessions sent results) (i : Fin n) :
    ∃ replies, Session.Run (sessions i) replies (results i) ∧ replies.length = sent.length := by
  induction h with
  | finished results => exact ⟨[], .finished _, rfl⟩
  | exchange frames resume rest ih =>
    obtain ⟨replies, hrun, hlength⟩ := ih
    exact ⟨_, .exchange _ _ hrun, congrArg Nat.succ hlength⟩

/-! ## §2 Successes of an evaluator -/

namespace Evaluator

variable {m : Modulus} {π ρ : Type} {e e' : Evaluator m}

/-- The computation may succeed with `a` and leave `e'`, whatever is received meanwhile. -/
def Returns (x : Eval m α) (e : Evaluator m) (a : α) (e' : Evaluator m) : Prop :=
  ∃ replies, Session.Run (x e) replies (.ok a, e')

theorem returns_pure {a b : α} : Returns (pure a) e b e' ↔ a = b ∧ e = e' := by
  constructor
  · rintro ⟨replies, h⟩
    obtain ⟨-, heq⟩ := Session.run_finished.mp h
    cases heq
    exact ⟨rfl, rfl⟩
  · rintro ⟨rfl, rfl⟩
    exact ⟨[], .finished _⟩

theorem returns_throw {fault : Fault} {a : α} : ¬ Returns (throw fault) e a e' := by
  rintro ⟨replies, h⟩
  obtain ⟨-, heq⟩ := Session.run_finished.mp h
  cases heq

theorem returns_bind {x : Eval m α} {f : α → Eval m β} {b : β} {e'' : Evaluator m} :
    Returns (x >>= f) e b e'' ↔ ∃ a e', Returns x e a e' ∧ Returns (f a) e' b e'' := by
  constructor
  · rintro ⟨replies, h⟩
    rw [bind_apply, Session.run_bind] at h
    obtain ⟨⟨answer, e'⟩, replies₁, replies₂, -, h₁, h₂⟩ := h
    cases answer with
    | ok a => exact ⟨a, e', ⟨replies₁, h₁⟩, replies₂, h₂⟩
    | error fault => exact absurd ⟨replies₂, h₂⟩ returns_throw
  · rintro ⟨a, e', ⟨replies₁, h₁⟩, replies₂, h₂⟩
    refine ⟨replies₁ ++ replies₂, ?_⟩
    rw [bind_apply, Session.run_bind]
    exact ⟨_, replies₁, replies₂, rfl, h₁, h₂⟩

theorem returns_ofExcept {ε : Type} {fault : ε → Fault} {x : Except ε α} {a : α} :
    Returns (ofExcept fault x) e a e' ↔ x = .ok a ∧ e = e' := by
  cases x with
  | ok b =>
    show Returns (pure b) e a e' ↔ _
    rw [returns_pure, Except.ok.injEq]
  | error error =>
    simp only [reduceCtorEq, false_and, iff_false]
    exact returns_throw

theorem returns_onPool {action : Action (Pool m) α} {a : α}
    (h : Returns (onPool action) e a e') :
    ∃ pool, action e.participant.pool = .ok a pool
      ∧ e' = { e with participant := { e.participant with pool } } := by
  obtain ⟨replies, h⟩ := h
  simp only [onPool, act, Action.within] at h
  cases hact : action e.participant.pool with
  | ok b pool =>
    rw [hact] at h
    obtain ⟨-, heq⟩ := Session.run_finished.mp h
    cases heq
    exact ⟨pool, rfl, rfl⟩
  | error fault pool =>
    rw [hact] at h
    obtain ⟨-, heq⟩ := Session.run_finished.mp h
    cases heq

theorem returns_onPool_get {pool : Pool m} (h : Returns (onPool get) e pool e') :
    pool = e.participant.pool ∧ e' = e := by
  obtain ⟨pool', hget, rfl⟩ := returns_onPool h
  cases hget
  exact ⟨rfl, rfl⟩

end Evaluator

end JointCircuit
