/-
JointCircuit.Proofs.Steps — running steps forwards and reading them backwards.

§1 gives the result of every elementary step at a state (`bind_apply`,
`within_apply`, …); rewriting with them executes a round symbolically.
§2 gives, for every elementary step, what a success says about its
state (`bind_eq_ok`, `within_eq_ok`, …); rewriting with them turns the
success of a round into the facts it rests on. §3 does both for the
steps of a round, §4 for a push to the store of opened values.
-/
import JointCircuit.Protocol.Basic
import Mathlib.Tactic.Common

namespace JointCircuit

namespace Action

variable {σ τ α β : Type}

/-! ## §1 Forwards -/

/-- The result of a step that ends in `s` with an answer or a fault. -/
def outcome (answer : Except Fault α) (s : σ) : EStateM.Result Fault σ α :=
  match answer with
  | .ok a => .ok a s
  | .error fault => .error fault s

@[simp] theorem outcome_ok (a : α) (s : σ) : outcome (.ok a) s = .ok a s := rfl

@[simp] theorem outcome_error (fault : Fault) (s : σ) :
    outcome (.error fault : Except Fault α) s = .error fault s := rfl

@[simp] theorem pure_apply (a : α) (s : σ) : (pure a : Action σ α) s = .ok a s := rfl

@[simp] theorem throw_apply (fault : Fault) (s : σ) :
    (throw fault : Action σ α) s = .error fault s := rfl

@[simp] theorem get_apply (s : σ) : (get : Action σ σ) s = .ok s s := rfl

@[simp] theorem set_apply (s t : σ) : (set t : Action σ PUnit) s = .ok () t := rfl

@[simp] theorem modify_apply (f : σ → σ) (s : σ) :
    (modify f : Action σ PUnit) s = .ok () (f s) := rfl

@[simp] theorem bind_apply (x : Action σ α) (f : α → Action σ β) (s : σ) :
    (x >>= f) s = match x s with
      | .ok a t => f a t
      | .error fault t => .error fault t := by
  show EStateM.bind x f s = _
  unfold EStateM.bind
  cases x s <;> rfl

@[simp] theorem map_apply (f : α → β) (x : Action σ α) (s : σ) :
    (f <$> x) s = match x s with
      | .ok a t => .ok (f a) t
      | .error fault t => .error fault t := by
  show EStateM.map f x s = _
  unfold EStateM.map
  cases x s <;> rfl

@[simp] theorem ofExcept_ok {ε : Type} (fault : ε → Fault) (a : α) (s : σ) :
    ofExcept fault (.ok a) s = .ok a s := rfl

@[simp] theorem ofExcept_error {ε : Type} (fault : ε → Fault) (e : ε) (s : σ) :
    (ofExcept fault (.error e) : Action σ α) s = .error (fault e) s := rfl

/-! ## §2 Backwards -/

theorem bind_eq_ok {x : Action σ α} {f : α → Action σ β} {s u : σ} {b : β} :
    (x >>= f) s = .ok b u ↔ ∃ a t, x s = .ok a t ∧ f a t = .ok b u := by
  rw [bind_apply]
  cases h : x s with
  | ok a t => simp
  | error fault t => simp

/-- A sequence fails in its first part or after it. -/
theorem bind_eq_error {x : Action σ α} {f : α → Action σ β} {s u : σ} {fault : Fault} :
    (x >>= f) s = .error fault u
      ↔ x s = .error fault u ∨ ∃ a t, x s = .ok a t ∧ f a t = .error fault u := by
  rw [bind_apply]
  cases h : x s with
  | ok a t => simp
  | error fault t => simp

theorem map_eq_ok {f : α → β} {x : Action σ α} {s u : σ} {b : β} :
    (f <$> x) s = .ok b u ↔ ∃ a, x s = .ok a u ∧ f a = b := by
  rw [map_apply]
  cases h : x s with
  | ok a t => simp [and_comm]
  | error fault t => simp

theorem map_eq_error {f : α → β} {x : Action σ α} {s u : σ} {fault : Fault} :
    (f <$> x) s = .error fault u ↔ x s = .error fault u := by
  rw [map_apply]
  cases h : x s with
  | ok a t => simp
  | error fault t => simp

theorem pure_eq_ok {a b : α} {s t : σ} :
    (pure a : Action σ α) s = .ok b t ↔ a = b ∧ s = t := by
  simp

theorem ofExcept_eq_ok {ε : Type} {fault : ε → Fault} {x : Except ε α} {s t : σ} {a : α} :
    ofExcept fault x s = .ok a t ↔ x = .ok a ∧ s = t := by
  cases x <;> simp

theorem within_eq_ok {part : σ → τ} {put : τ → σ → σ} {act : Action τ α} {s u : σ} {a : α} :
    within part put act s = .ok a u ↔ ∃ t, act (part s) = .ok a t ∧ put t s = u := by
  unfold within
  cases h : act (part s) with
  | ok a t => simp
  | error fault t => simp

theorem within_eq_error {part : σ → τ} {put : τ → σ → σ} {act : Action τ α} {s u : σ}
    {fault : Fault} :
    within part put act s = .error fault u ↔ ∃ t, act (part s) = .error fault t ∧ put t s = u := by
  unfold within
  cases h : act (part s) with
  | ok a t => simp
  | error fault t => simp

end Action

theorem except_bind_eq_ok {ε α β : Type} {x : Except ε α} {f : α → Except ε β} {b : β} :
    x >>= f = .ok b ↔ ∃ a, x = .ok a ∧ f a = .ok b := by
  cases x with
  | ok a => simp [bind, Except.bind]
  | error e => simp [bind, Except.bind]

theorem except_length_mapM {ε α β : Type} {f : α → Except ε β} {xs : List α} {ys : List β}
    (h : xs.mapM f = .ok ys) : ys.length = xs.length := by
  induction xs generalizing ys with
  | nil =>
    cases h
    rfl
  | cons x xs ih =>
    rw [List.mapM_cons] at h
    obtain ⟨y, -, h⟩ := except_bind_eq_ok.mp h
    obtain ⟨rest, hrest, h⟩ := except_bind_eq_ok.mp h
    cases h
    rw [List.length_cons, List.length_cons, ih hrest]

/-! ## §3 Rounds -/

namespace Round

variable {m : Modulus} {π ρ α : Type}

@[simp] theorem protocol_apply (p : π) (w : Participant m) :
    Round.protocol (p, w) = .ok p (p, w) := rfl

@[simp] theorem update_apply (f : π → π) (p : π) (w : Participant m) :
    Round.update f (p, w) = .ok () (f p, w) := rfl

@[simp] theorem pool_apply (act : Action (Pool m) α) (p : π) (w : Participant m) :
    Round.pool act (p, w) = match act w.pool with
      | .ok a pool => .ok a (p, { w with pool })
      | .error fault pool => .error fault (p, { w with pool }) := by
  unfold Round.pool Action.within
  cases act w.pool <;> rfl

@[simp] theorem mailbox_apply (act : Action Mailbox α) (p : π) (w : Participant m) :
    Round.mailbox act (p, w) = match act w.mailbox with
      | .ok a mailbox => .ok a (p, { w with mailbox })
      | .error fault mailbox => .error fault (p, { w with mailbox }) := by
  unfold Round.mailbox Action.within
  cases act w.mailbox <;> rfl

@[simp] theorem within_apply (inner : ρ) (put : ρ → π → π) (act : Round m ρ α) (p : π)
    (w : Participant m) :
    Round.within inner put act (p, w) = match act (inner, w) with
      | .ok a (t, w) => .ok a (put t p, w)
      | .error fault (t, w) => .error fault (put t p, w) := by
  unfold Round.within Action.within
  cases act (inner, w) <;> rfl

theorem pool_eq_ok {act : Action (Pool m) α} {p : π} {w : Participant m} {a : α}
    {s : π × Participant m} :
    Round.pool act (p, w) = .ok a s
      ↔ ∃ pool, act w.pool = .ok a pool ∧ (p, ({ w with pool } : Participant m)) = s :=
  Action.within_eq_ok

theorem mailbox_eq_ok {act : Action Mailbox α} {p : π} {w : Participant m} {a : α}
    {s : π × Participant m} :
    Round.mailbox act (p, w) = .ok a s
      ↔ ∃ mailbox, act w.mailbox = .ok a mailbox
        ∧ (p, ({ w with mailbox } : Participant m)) = s :=
  Action.within_eq_ok

theorem mailbox_eq_error {act : Action Mailbox α} {p : π} {w : Participant m} {fault : Fault}
    {s : π × Participant m} :
    Round.mailbox act (p, w) = .error fault s
      ↔ ∃ mailbox, act w.mailbox = .error fault mailbox
        ∧ (p, ({ w with mailbox } : Participant m)) = s :=
  Action.within_eq_error

theorem within_eq_ok {inner : ρ} {put : ρ → π → π} {act : Round m ρ α} {p : π}
    {w : Participant m} {a : α} {s : π × Participant m} :
    Round.within inner put act (p, w) = .ok a s
      ↔ ∃ t w', act (inner, w) = .ok a (t, w') ∧ (put t p, w') = s := by
  unfold Round.within
  rw [Action.within_eq_ok]
  exact Prod.exists

end Round

/-! ## §4 Opened values -/

namespace OpenedValues

variable {m : Modulus} {shares : List (AuthShare m)} {values : List (Element m)}
  {s : OpenedValues m}

/-- A push succeeds exactly if shares and values are equal in number afterwards. -/
theorem push_eq_ok {u : Unit} {after : OpenedValues m} :
    push shares values s = .ok u after
      ↔ (s.shares ++ shares).length = (s.values ++ values).length
        ∧ after = s.extend shares values := by
  simp only [push, Action.bind_apply, Action.get_apply, Action.modify_apply]
  by_cases h : (s.extend shares values).shares.length = (s.extend shares values).values.length
  · rw [if_neg (not_not.mpr h), Action.pure_eq_ok]
    exact ⟨fun hok => ⟨h, hok.2.symm⟩, fun hok => ⟨rfl, hok.2.symm⟩⟩
  · rw [if_pos h]
    exact iff_of_false nofun fun hok => h hok.1

/-- What was appended to a store that is in step is taken back by cutting both lists. -/
theorem truncate_extend (hstep : s.shares.length = s.values.length) :
    (s.extend shares values).truncate s.length = s := by
  rw [truncate, extend, length, List.take_left, hstep, List.take_left]

/-- A store that is in step takes as many shares as values, and is left as it was by any other
push. -/
theorem push_of_paired (hstep : s.shares.length = s.values.length) :
    push shares values s
      = if shares.length = values.length then .ok () (s.extend shares values)
        else .error (.protocol (.openingCounts shares.length values.length)) s := by
  split
  · rename_i h
    exact push_eq_ok.mpr ⟨by rw [List.length_append, List.length_append, hstep, h], rfl⟩
  · rename_i h
    have hlengths : (s.extend shares values).shares.length
        ≠ (s.extend shares values).values.length := by
      simp only [extend, List.length_append, hstep]
      exact fun heq => h (Nat.add_left_cancel heq)
    have hshares : (s.extend shares values).shares.length - s.length = shares.length := by
      simp [extend, length]
    have hvalues : (s.extend shares values).values.length - s.length = values.length := by
      simp [extend, length, hstep]
    simp only [push, Action.bind_apply, Action.get_apply, Action.modify_apply, hlengths, ne_eq,
      not_false_eq_true, if_true, Action.set_apply, Action.throw_apply, truncate_extend hstep,
      hshares, hvalues]

end OpenedValues

/-! ## §5 Pools -/

namespace Pool

variable {m : Modulus} {α : Type}

@[simp] theorem installJointSeed_apply (seed : Seed) (pool : Pool m) :
    installJointSeed seed pool
      = .ok () { pool with jointGenerator := some (.ofPartySeed seed) } := rfl

@[simp] theorem drawLocal_apply (draw : Draw α) (pool : Pool m) :
    drawLocal draw pool
      = .ok (draw pool.localGenerator).1
        { pool with localGenerator := (draw pool.localGenerator).2 } := rfl

@[simp] theorem drainOpened_apply (pool : Pool m) :
    drainOpened pool
      = .ok (pool.opened.shares, pool.opened.values) { pool with opened := {} } := rfl

/-- Shares and values that are as many as each other join a store that is in step. -/
theorem pushOpened_apply {shares : List (AuthShare m)} {values : List (Element m)} {pool : Pool m}
    (hstep : pool.opened.shares.length = pool.opened.values.length)
    (h : shares.length = values.length) :
    pushOpened shares values pool
      = .ok () { pool with
        opened :=
          { shares := pool.opened.shares ++ shares, values := pool.opened.values ++ values } } := by
  have hpush : OpenedValues.push shares values pool.opened
      = .ok () (pool.opened.extend shares values) := by
    rw [OpenedValues.push_of_paired hstep, if_pos h]
  rw [pushOpened, Action.within_ok hpush, OpenedValues.extend]

end Pool

end JointCircuit
