/-
JointCircuit.Proofs.Unison — a protocol run by all parties in unison.

What is queued in a round arrives in the next one, so the joint state of
a protocol is the state of every party together with the messages that
are on their way (`Traffic`). Between two rounds other protocols may
change the pools; all a round may rely on is that the parties sit at one
table (`Table`): they hold their own key shares, and the stores of opened
values have the same length everywhere. In return a round says what it
does to the pools (`Effect`), up to draws from the private generators.

`Unison` describes the remaining rounds of a protocol in this way. Main
statements: `Unison.embed` carries it over to a protocol of which the
first one is a part, and `runRounds_of_unison` runs a protocol by itself.
-/
import JointCircuit.Proofs.Seats

namespace JointCircuit

variable {m : Modulus} {n : Nat}

/-! ## §1 The table -/

/-- What an opening leaves in the stores: at every party a share, and the value it was opened
to there. -/
abbrev Opening (m : Modulus) (n : Nat) := Fin n → AuthShare m × Element m

/-- The store of one party after these openings. -/
def openedAt (i : Fin n) (openings : List (Opening m n)) : OpenedValues m :=
  { shares := openings.map fun o => (o i).1, values := openings.map fun o => (o i).2 }

theorem openedAt_append (i : Fin n) (xs ys : List (Opening m n)) :
    openedAt i (xs ++ ys)
      = { shares := (openedAt i xs).shares ++ (openedAt i ys).shares
          values := (openedAt i xs).values ++ (openedAt i ys).values } := by
  simp [openedAt]

/-- The pools of `n` parties with these key shares, after these openings. -/
structure Table (key : Fin n → Element m) (openings : List (Opening m n))
    (pools : Fin n → Pool m) : Prop where
  party : ∀ i, (pools i).party = i + 1
  parties : ∀ i, (pools i).parties = n
  keyShare : ∀ i, (pools i).keyShare = key i
  opened : ∀ i, (pools i).opened = openedAt i openings

/-- What a round does to the pools, apart from draws from the private generators. -/
inductive Effect (m : Modulus) (n : Nat) where
  | none
  /-- The joint generator is left in this state. -/
  | seed (generator : Generator)
  /-- These openings are recorded. -/
  | push (openings : List (Opening m n))

namespace Effect

/-- The openings that are recorded. -/
def openings : Effect m n → List (Opening m n)
  | push openings => openings
  | _ => []

/-- The effect on one pool. -/
def apply (i : Fin n) (pool : Pool m) : Effect m n → Pool m
  | none => pool
  | seed generator => { pool with jointGenerator := some generator }
  | push openings =>
    { pool with
      opened :=
        { shares := pool.opened.shares ++ (openedAt i openings).shares
          values := pool.opened.values ++ (openedAt i openings).values } }

/-- The effects of several rounds on one pool. -/
def applyAll (i : Fin n) (pool : Pool m) (effects : List (Effect m n)) : Pool m :=
  effects.foldl (apply i) pool

/-- All pools have changed by these effects and by draws from the private generators. -/
def Acts (effects : List (Effect m n)) (pools pools' : Fin n → Pool m) : Prop :=
  ∀ i, ∃ g, pools' i = { applyAll i (pools i) effects with localGenerator := g }

theorem applyAll_localGenerator (i : Fin n) (pool : Pool m) (g : Generator)
    (effects : List (Effect m n)) :
    applyAll i { pool with localGenerator := g } effects
      = { applyAll i pool effects with localGenerator := g } := by
  induction effects generalizing pool with
  | nil => rfl
  | cons effect effects ih =>
    have hstep : apply i { pool with localGenerator := g } effect
        = { apply i pool effect with localGenerator := g } := by
      cases effect <;> rfl
    simp only [applyAll, List.foldl_cons] at ih ⊢
    rw [hstep, ih]

theorem Acts.trans {effects effects' : List (Effect m n)} {pools pools' pools'' : Fin n → Pool m}
    (h : Acts effects pools pools') (h' : Acts effects' pools' pools'') :
    Acts (effects ++ effects') pools pools'' := by
  intro i
  obtain ⟨g, hg⟩ := h i
  obtain ⟨g', hg'⟩ := h' i
  refine ⟨g', ?_⟩
  rw [hg', hg, applyAll_localGenerator]
  simp only [applyAll, List.foldl_append]

theorem applyAll_replicate_none (i : Fin n) (pool : Pool m) (k : Nat) :
    applyAll i pool (List.replicate k .none) = pool := by
  induction k with
  | zero => rfl
  | succ k ih => simpa [List.replicate_succ, applyAll, apply] using ih

theorem applyAll_append (i : Fin n) (pool : Pool m) (xs ys : List (Effect m n)) :
    applyAll i pool (xs ++ ys) = applyAll i (applyAll i pool xs) ys :=
  List.foldl_append

theorem applyAll_cons (i : Fin n) (pool : Pool m) (x : Effect m n) (xs : List (Effect m n)) :
    applyAll i pool (x :: xs) = applyAll i (apply i pool x) xs := rfl

/-- No round takes material, but the first one of a protocol. -/
theorem supplier_applyAll (i : Fin n) (pool : Pool m) (effects : List (Effect m n)) :
    (applyAll i pool effects).supplier = pool.supplier := by
  induction effects generalizing pool with
  | nil => rfl
  | cons effect effects ih =>
    rw [applyAll_cons, ih]
    cases effect <;> rfl

/-- A seeded generator stays seeded. -/
theorem hasJointRandomness_applyAll (i : Fin n) {pool : Pool m} (effects : List (Effect m n))
    (h : pool.hasJointRandomness = true) : (applyAll i pool effects).hasJointRandomness = true := by
  induction effects generalizing pool with
  | nil => exact h
  | cons effect effects ih =>
    rw [applyAll_cons]
    refine ih ?_
    cases effect with
    | none => exact h
    | seed generator => rfl
    | push openings => exact h

end Effect

theorem Table.acts {key : Fin n → Element m} {openings : List (Opening m n)}
    {pools pools' : Fin n → Pool m} (h : Table key openings pools) {effects : List (Effect m n)}
    (ha : Effect.Acts effects pools pools') :
    Table key (openings ++ effects.flatMap (·.openings)) pools' := by
  induction effects generalizing openings pools with
  | nil =>
    have hp : ∀ i, ∃ g, pools' i = { pools i with localGenerator := g } := ha
    choose g hg using hp
    rw [funext hg]
    simpa using ⟨h.party, h.parties, h.keyShare, h.opened⟩
  | cons effect effects ih =>
    have hstep : Table key (openings ++ effect.openings)
        (fun i => effect.apply i (pools i)) := by
      cases effect with
      | none =>
        show Table key (openings ++ []) pools
        rw [List.append_nil]
        exact h
      | seed generator =>
        simpa [Effect.openings] using ⟨h.party, h.parties, h.keyShare, h.opened⟩
      | push new =>
        refine ⟨h.party, h.parties, h.keyShare, fun i => ?_⟩
        rw [Effect.openings, openedAt_append]
        simp only [Effect.apply, h.opened]
    have hnext := ih hstep fun i => by
      obtain ⟨g, hg⟩ := ha i
      exact ⟨g, hg⟩
    rw [List.flatMap_cons, ← List.append_assoc]
    exact hnext

/-! ## §2 Rounds in unison -/

/-- Messages on their way: `cue j i` is what party `j + 1` has queued for party `i + 1`. -/
abbrev Traffic (n : Nat) := Fin n → Fin n → Frame

/-- No messages at all. -/
def Traffic.silent : Traffic n := fun _ _ => []

variable {π τ ρ υ α : Type}

/-- All parties evaluate `act` on what is on its way for them, whatever happened to the pools
before. -/
def Move (key : Fin n → Element m) (effect : Effect m n) (act : Round m π α) (p : Fin n → π)
    (cue : Traffic n) (post : Except Fault α → (Fin n → π) → Traffic n → Prop) : Prop :=
  ∀ openings pools, Table key openings pools → ∃ answer p' pools' cue',
    (∀ i, Turn act (p i) (pools i) (fun j => cue j i) answer (p' i) (pools' i) (cue' i))
    ∧ Effect.Acts [effect] pools pools' ∧ post answer p' cue'

/-- How the parties go on after a round. They end together, and nobody sends anything in the
last round. -/
def Onward (next : (Fin n → π) → Traffic n → Prop) (ends : Prop)
    (last : Except Fault Status → (Fin n → π) → Prop) :
    Except Fault Status → (Fin n → π) → Traffic n → Prop
  | .ok .more, p, cue => next p cue
  | answer, p, cue => ends ∧ cue = Traffic.silent ∧ last answer p

/-- The parties evaluate their protocols from `round` on, one round for each of the effects,
and end as `last` says. -/
def Unison [Protocol m π ρ] (key : Fin n → Element m)
    (last : Except Fault Status → (Fin n → π) → Prop) :
    List (Effect m n) → Nat → (Fin n → π) → Traffic n → Prop
  | [], _, _, _ => False
  | effect :: effects, round, p, cue =>
    Move key effect (Protocol.evaluate round) p cue
      (Onward (Unison key last effects (round + 1)) (effects = []) last)

/-- The parties end together, in states of which `post` holds. -/
def Finish (post : (Fin n → π) → Prop) (answer : Except Fault Status) (p : Fin n → π) : Prop :=
  answer = .ok .done ∧ post p

namespace Move

variable {key : Fin n → Element m} {effect : Effect m n} {act : Round m π α} {p : Fin n → π}
  {cue : Traffic n}

theorem mono {post post' : Except Fault α → (Fin n → π) → Traffic n → Prop}
    (h : Move key effect act p cue post)
    (hpost : ∀ answer p cue, post answer p cue → post' answer p cue) :
    Move key effect act p cue post' := by
  intro openings pools table
  obtain ⟨answer, p', pools', cue', turns, acts, hp⟩ := h openings pools table
  exact ⟨answer, p', pools', cue', turns, acts, hpost _ _ _ hp⟩

end Move

namespace Unison

variable [Protocol m π ρ] [Protocol m τ υ] {key : Fin n → Element m}

theorem mono {last last' : Except Fault Status → (Fin n → π) → Prop}
    {effects : List (Effect m n)} {round : Nat} {p : Fin n → π} {cue : Traffic n}
    (h : Unison key last effects round p cue) (hlast : ∀ answer p, last answer p → last' answer p) :
    Unison key last' effects round p cue := by
  induction effects generalizing round p cue with
  | nil => exact h
  | cons effect effects ih =>
    refine Move.mono h fun answer p' cue' hp => ?_
    match answer, hp with
    | .ok .more, hp => exact ih hp
    | .ok .done, ⟨ends, silent, hl⟩ => exact ⟨ends, silent, hlast _ _ hl⟩
    | .error _, ⟨ends, silent, hl⟩ => exact ⟨ends, silent, hlast _ _ hl⟩

/-- A last round in which the turns are the same whatever happened to the pools. -/
theorem of_done {effect : Effect m n} {round : Nat} {p : Fin n → π} {cue : Traffic n}
    {post : (Fin n → π) → Prop} (p' : Fin n → π)
    (turns : ∀ openings pools, Table key openings pools → ∀ i,
      Turn (Protocol.evaluate round) (p i) (pools i) (fun j => cue j i) (.ok .done) (p' i)
        (effect.apply i (pools i)) fun _ => [])
    (hpost : post p') : Unison key (Finish post) [effect] round p cue := by
  intro openings pools table
  exact ⟨.ok .done, p', fun i => effect.apply i (pools i), Traffic.silent,
    turns openings pools table, fun i => ⟨_, rfl⟩, rfl, rfl, rfl, hpost⟩

/-- A round in which the turns are the same whatever happened to the pools, and then the
others. -/
theorem of_more {effect : Effect m n} {effects : List (Effect m n)} {round : Nat}
    {p : Fin n → π} {cue : Traffic n} {last : Except Fault Status → (Fin n → π) → Prop}
    (p' : Fin n → π) (cue' : Traffic n)
    (turns : ∀ openings pools, Table key openings pools → ∀ i,
      Turn (Protocol.evaluate round) (p i) (pools i) (fun j => cue j i) (.ok .more) (p' i)
        (effect.apply i (pools i)) (cue' i))
    (h : Unison key last effects (round + 1) p' cue') :
    Unison key last (effect :: effects) round p cue := by
  intro openings pools table
  exact ⟨.ok .more, p', fun i => effect.apply i (pools i), cue', turns openings pools table,
    fun i => ⟨_, rfl⟩, h⟩

/-- A protocol of which another one is a part goes on while its part goes on. `start` is the
round in which the part began, `store` puts its state in place. When the part has finished, the
rest of that round (`finish`) says how the whole goes on. -/
theorem embed (start : Nat) (store : Fin n → π → τ) {post : (Fin n → π) → Prop}
    {last : Except Fault Status → (Fin n → τ) → Prop} {effect : Effect m n}
    {effects : List (Effect m n)} {k round : Nat} {p : Fin n → π} {cue : Traffic n}
    (h : Unison key (Finish post) (List.replicate (k + 1) .none) round p cue)
    (more : ∀ (round : Nat) (i : Fin n) (p : π) (pool : Pool m) (takes : Fin n → Frame) (p' : π)
      (pool' : Pool m) (gives : Fin n → Frame),
      Turn (Protocol.evaluate round : Round m π Status) p pool takes (.ok .more) p' pool' gives →
      Turn (Protocol.evaluate (start + round) : Round m τ Status) (store i p) pool takes (.ok .more)
        (store i p') pool' gives)
    (finish : ∀ (p : Fin n → π) (cue : Traffic n) (p' : Fin n → π) (openings : List (Opening m n))
      (pools pools' : Fin n → Pool m), Table key openings pools' → post p' →
      (∀ i, Turn (Protocol.evaluate (round + k) : Round m π Status) (p i) (pools i)
        (fun j => cue j i) (.ok .done) (p' i) (pools' i) (fun _ => [])) →
      ∃ (answer : Except Fault Status) (q : Fin n → τ) (pools'' : Fin n → Pool m)
          (cue' : Traffic n),
        (∀ i, Turn (Protocol.evaluate (start + (round + k)) : Round m τ Status) (store i (p i))
          (pools i) (fun j => cue j i) answer (q i) (pools'' i) (cue' i))
        ∧ Effect.Acts [effect] pools' pools''
        ∧ Onward (Unison key last effects (start + (round + k) + 1)) (effects = []) last
            answer q cue') :
    Unison key last (List.replicate k .none ++ effect :: effects) (start + round)
      (fun i => store i (p i)) cue := by
  induction k generalizing round p cue with
  | zero =>
    intro openings pools table
    obtain ⟨answer, p', pools', cue', turns, acts, hp⟩ := h openings pools table
    match answer, hp with
    | .ok .done, ⟨_, silent, _, hpost⟩ =>
      subst silent
      have table' := table.acts acts
      obtain ⟨answer, q, pools'', cue'', turns', acts', honward⟩ :=
        finish p cue p' _ pools pools' table' hpost turns
      exact ⟨answer, q, pools'', cue'', turns', acts.trans acts', honward⟩
    | .error _, ⟨_, _, hdone, _⟩ => cases hdone
  | succ k ih =>
    intro openings pools table
    obtain ⟨answer, p', pools', cue', turns, acts, hp⟩ := h openings pools table
    match answer, hp with
    | .ok .more, hp =>
      have hk : round + 1 + k = round + (k + 1) := by omega
      refine ⟨.ok .more, fun i => store i (p' i), pools', cue',
        fun i => more _ _ _ _ _ _ _ _ (turns i), acts, ?_⟩
      have hnext := ih hp (by rw [hk]; exact finish)
      rw [← Nat.add_assoc] at hnext
      exact hnext
    | .ok .done, ⟨ends, _⟩ => simp at ends
    | .error _, ⟨ends, _⟩ => simp at ends

/-- A protocol that only wraps another one runs as that one does. -/
theorem lift {wrap : π → τ}
    (turn : ∀ (round : Nat) (p : π) (pool : Pool m) (takes : Fin n → Frame)
      (answer : Except Fault Status) (p' : π) (pool' : Pool m) (gives : Fin n → Frame),
      Turn (Protocol.evaluate round : Round m π Status) p pool takes answer p' pool' gives →
      Turn (Protocol.evaluate round : Round m τ Status) (wrap p) pool takes answer (wrap p') pool'
        gives)
    {last : Except Fault Status → (Fin n → π) → Prop}
    {last' : Except Fault Status → (Fin n → τ) → Prop}
    (hlast : ∀ answer p, last answer p → last' answer fun i => wrap (p i))
    {effects : List (Effect m n)} {round : Nat} {p : Fin n → π} {cue : Traffic n}
    (h : Unison key last effects round p cue) :
    Unison key last' effects round (fun i => wrap (p i)) cue := by
  induction effects generalizing round p cue with
  | nil => exact h
  | cons effect effects ih =>
    intro openings pools table
    obtain ⟨answer, p', pools', cue', turns, acts, hp⟩ := h openings pools table
    refine ⟨answer, fun i => wrap (p' i), pools', cue',
      fun i => turn _ _ _ _ _ _ _ _ (turns i), acts, ?_⟩
    match answer, hp with
    | .ok .more, hp => exact ih hp
    | .ok .done, ⟨ends, silent, hl⟩ => exact ⟨ends, silent, hlast _ _ hl⟩
    | .error _, ⟨ends, silent, hl⟩ => exact ⟨ends, silent, hlast _ _ hl⟩

end Unison

/-- The first round of a protocol at all parties: it is the only one, or the others follow in
unison. No opening that they record has a defect. -/
inductive Begins [Protocol m π ρ] (sound : Opening m n → Prop) (key : Fin n → Element m)
    (post : (Fin n → π) → Prop) (p : Fin n → π) (pools pools' : Fin n → Pool m) : Prop
  | done (p' : Fin n → π)
      (turns : ∀ i, Turn (Protocol.evaluate 0) (p i) (pools i) (fun _ : Fin n => []) (.ok .done)
        (p' i) (pools' i) fun _ => [])
      (ends : post p')
  | more (p' : Fin n → π) (cue : Traffic n) (effects : List (Effect m n))
      (turns : ∀ i, Turn (Protocol.evaluate 0) (p i) (pools i) (fun _ : Fin n => []) (.ok .more)
        (p' i) (pools' i) (cue i))
      (others : Unison key (Finish post) effects 1 p' cue) (length : effects.length ≤ lastRound)
      (openings : ∀ effect ∈ effects, ∀ o ∈ effect.openings, sound o)

theorem Begins.lift [Protocol m π ρ] [Protocol m τ υ] {sound : Opening m n → Prop}
    {key : Fin n → Element m} (wrap : π → τ)
    (turn : ∀ (round : Nat) (p : π) (pool : Pool m) (takes : Fin n → Frame)
      (answer : Except Fault Status) (p' : π) (pool' : Pool m) (gives : Fin n → Frame),
      Turn (Protocol.evaluate round : Round m π Status) p pool takes answer p' pool' gives →
      Turn (Protocol.evaluate round : Round m τ Status) (wrap p) pool takes answer (wrap p') pool'
        gives)
    {post : (Fin n → π) → Prop} {post' : (Fin n → τ) → Prop}
    (hpost : ∀ p, post p → post' fun i => wrap (p i)) {p : Fin n → π}
    {pools pools' : Fin n → Pool m} (h : Begins sound key post p pools pools') :
    Begins sound key post' (fun i => wrap (p i)) pools pools' := by
  cases h with
  | done p' turns ends =>
    exact .done (fun i => wrap (p' i)) (fun i => turn _ _ _ _ _ _ _ _ (turns i)) (hpost _ ends)
  | more p' cue effects turns others length openings =>
    exact .more (fun i => wrap (p' i)) cue effects (fun i => turn _ _ _ _ _ _ _ _ (turns i))
      (others.lift turn fun _ _ hl => ⟨hl.1, hpost _ hl.2⟩) length openings

/-! ## §3 A protocol by itself -/

namespace Evaluator

variable [Protocol m π ρ] {key : Fin n → Element m}

/-- All parties run the remaining rounds of a protocol and end together. -/
theorem runRounds_of_unison {last : Except Fault Status → (Fin n → π) → Prop}
    {effects : List (Effect m n)} {round budget : Nat} {p : Fin n → π} {cue : Traffic n}
    (h : Unison key last effects round p cue) (hbudget : effects.length ≤ budget)
    {openings : List (Opening m n)} {pools : Fin n → Pool m} (table : Table key openings pools)
    {e : Fin n → Evaluator m} (he : ∀ i, (e i).At i (pools i) (fun _ => []) fun j => cue j i) :
    ∃ (sent : List (Fin n → List Frame)) (answer : Except Fault Status) (p' : Fin n → π)
        (pools' : Fin n → Pool m) (e' : Fin n → Evaluator m),
      Joint (fun i => runRounds budget round (p i) (e i)) sent
        (fun i => ((answer : Except Fault Status).map fun _ => p' i, e' i))
      ∧ (∀ i, (e' i).At i (pools' i) (fun _ => []) fun _ => [])
      ∧ Effect.Acts effects pools pools' ∧ last answer p' ∧ answer ≠ .ok .more := by
  induction effects generalizing round budget p cue openings pools e with
  | nil => exact h.elim
  | cons effect effects ih =>
    obtain ⟨budget, rfl⟩ : ∃ b, budget = b + 1 :=
      ⟨budget - 1, by simp only [List.length_cons] at hbudget; omega⟩
    obtain ⟨answer, p', pools', cue', turns, acts, hp⟩ := h openings pools table
    have hseats : ∀ i, (e i).At i (pools i) (fun _ => []) fun j => cue j i ++ [] :=
      fun i => by simpa using he i
    choose e₁ hact hseat using fun i => actOn_of_turn (turns i) (hseats i)
    match answer, hp with
    | .ok .more, hp =>
      obtain ⟨e₂, hflush, hseat'⟩ := joint_flush fun i => hseat i
      have table' := table.acts acts
      obtain ⟨sent, answer, p'', pools'', e₃, hjoint, hdone, acts', hlast⟩ :=
        ih hp (by simpa using hbudget) table' (by simpa using hseat')
      refine ⟨[fun i => framesOf i fun j => [] ++ cue' i j] ++ sent, answer, p'', pools'', e₃, ?_,
        hdone, acts.trans acts', hlast⟩
      exact joint_step hact (joint_bind hflush hjoint)
    | .ok .done, ⟨ends, silent, hl⟩ =>
      subst ends silent
      refine ⟨[], .ok .done, p', pools', e₁, .of_finished fun i => ?_, ?_, acts, hl, by simp⟩
      · rw [runRounds, bind_of_ok (hact i)]
        rfl
      · simpa [Traffic.silent] using hseat
    | .error fault, ⟨ends, silent, hl⟩ =>
      subst ends silent
      refine ⟨[], .error fault, p', pools', e₁, .of_finished fun i => ?_, ?_, acts, hl, by simp⟩
      · rw [runRounds, bind_of_error (hact i)]
        rfl
      · simpa [Traffic.silent] using hseat

/-- What a party makes of the last round. -/
def conclude (answer : Except Fault Status) (p : π) : Except Fault ρ :=
  match answer with
  | .error fault => .error fault
  | .ok _ =>
    match (Protocol.out m p).1 with
    | some result => .ok result
    | none => .error (.protocol .noOutput)

/-- The end of a run, once no round is left. -/
theorem run_ending {i : Fin n} {e : Evaluator m} {pool : Pool m} (p : π)
    (h : e.At i pool (fun _ => []) fun _ => []) :
    ∃ e', (do
        checkQuiescent
        countProtocol
        match (Protocol.out m p).1 with
        | some result => return result
        | none => throw (.protocol .noOutput) : Eval m ρ) e
        = .finished (conclude (m := m) (.ok .done) p, e')
      ∧ e'.At i pool (fun _ => []) fun _ => [] := by
  obtain ⟨e', hcount, hseat⟩ := h.countProtocol
  refine ⟨e', ?_, hseat⟩
  rw [bind_of_ok h.checkQuiescent, bind_of_ok hcount, conclude]
  cases (Protocol.out m p).1 <;> rfl

/-- All parties run a protocol from its first round to its end. -/
theorem run_of_unison {last : Except Fault Status → (Fin n → π) → Prop}
    {effects : List (Effect m n)} {p p' : Fin n → π} {cue : Traffic n}
    {openings : List (Opening m n)} {pools pools' : Fin n → Pool m}
    (first : ∀ i, Turn (Protocol.evaluate 0) (p i) (pools i) (fun _ : Fin n => []) (.ok .more)
      (p' i) (pools' i) (cue i))
    (table : Table key openings pools') (h : Unison key last effects 1 p' cue)
    (hlength : effects.length ≤ lastRound) {e : Fin n → Evaluator m}
    (he : ∀ i, (e i).At i (pools i) (fun _ => []) fun _ => []) :
    ∃ (sent : List (Fin n → List Frame)) (answer : Except Fault Status) (p'' : Fin n → π)
        (pools'' : Fin n → Pool m) (e' : Fin n → Evaluator m),
      Joint (fun i => run (p i) (e i)) sent (fun i => (conclude (m := m) answer (p'' i), e' i))
      ∧ (∀ i, (e' i).At i (pools'' i) (fun _ => []) fun _ => [])
      ∧ Effect.Acts effects pools' pools'' ∧ last answer p'' := by
  have hseats : ∀ i, (e i).At i (pools i) (fun _ => []) fun _ => [] ++ [] := he
  choose e₁ hact hseat using fun i => actOn_of_turn (first i) (hseats i)
  obtain ⟨e₂, hflush, hseat'⟩ := joint_flush fun i => hseat i
  obtain ⟨sent, answer, p'', pools'', e₃, hjoint, hdone, acts, hlast, hmore⟩ :=
    runRounds_of_unison h hlength table hseat'
  have hrounds : Joint (fun i => runRounds (lastRound + 1) 0 (p i) (e i))
      ([fun i => framesOf i fun j => [] ++ cue i j] ++ sent)
      fun i => (answer.map fun _ => p'' i, e₃ i) :=
    joint_step hact (joint_bind hflush hjoint)
  match answer, hmore with
  | .error fault, _ =>
    exact ⟨[fun i => framesOf i fun j => [] ++ cue i j] ++ sent, .error fault, p'', pools'', e₃,
      joint_bind_error hrounds, hdone, acts, hlast⟩
  | .ok .done, _ =>
    choose e₄ hending hseat₄ using fun i => run_ending (p'' i) (hdone i)
    refine ⟨[fun i => framesOf i fun j => [] ++ cue i j] ++ sent ++ [], .ok .done, p'', pools'', e₄,
      ?_, hseat₄, acts, hlast⟩
    exact joint_bind hrounds (.of_finished hending)

end Evaluator

end JointCircuit
