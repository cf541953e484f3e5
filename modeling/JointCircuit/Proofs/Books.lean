/-
JointCircuit.Proofs.Books — where opened values come from and go to.

The history of a party has a record of every round that one of its gates
has gone through (§1). A record tells which entries its round added to
the store (`pushed`) and which ones it took out (`drained`). The books of
a party are its history together with the store: every round starts from
the store that the one before has left, and moves it by what it pushed
and drained (`Books`).

`Checked` says of the rounds of a check what makes it a check: it drained
the entries at once, tossed a seed after that, fixed its term with one
coefficient for every entry, and accepted terms that add up to zero.
`Underway` is what is true of a gate that is not done.

Main statement: `Underway.step` — a round of a gate keeps the books, and
the gate goes on or is over. It holds for all peers.
-/
import JointCircuit.Proofs.Entries
import JointCircuit.Proofs.Tracing

namespace JointCircuit

open Round

variable {m : Modulus}

/-! ## §1 Histories -/

/-- A round of a gate, as it was evaluated. -/
structure Record (m : Modulus) where
  /-- The node that the gate computes; the check that closes a circuit computes none. -/
  node : Option NodeId
  round : Nat
  before : Gate m × Participant m
  status : Status
  after : Gate m × Participant m

/-- The rounds evaluated so far, in order. -/
abbrev History (m : Modulus) := List (Record m)

/-- A round joins a history if it is one of a gate and does not fail. -/
def History.play (history : History m) (round : Played m) : Except Fault Status → History m
  | .ok status => match round.before, round.after with
    | (.gate before, w), (.gate after, w') =>
      history ++ [⟨round.node, round.number, (before, w), status, (after, w')⟩]
    | _, _ => history
  | .error _ => history

theorem History.prefix_play (history : History m) (round : Played m)
    (outcome : Except Fault Status) : history <+: history.play round outcome := by
  unfold play
  split
  · split
    · exact List.prefix_append _ _
    · exact List.prefix_refl _
  · exact List.prefix_refl _

/-- The rounds of the gates are noted. -/
instance : Scribe m (History m) where
  played round outcome history := history.play round outcome
  Extends _ history history' := history <+: history'
  refl := List.prefix_refl
  trans := List.IsPrefix.trans
  extends_played round outcome history := history.prefix_play round outcome
  extends_exchanged _ := List.prefix_refl
  extends_started _ _ := List.prefix_refl
  extends_completed _ _ _ := List.prefix_refl
  extends_paused _ _ := List.prefix_refl
  extends_finished _ := List.prefix_refl

/-! ## §2 Books -/

namespace Record

/-- The round was evaluated as recorded. -/
def Genuine (r : Record m) : Prop :=
  Gate.evaluate r.round r.before = .ok r.status r.after

/-- The entries that the round took out of the store: a new check takes all of them. -/
def drained (r : Record m) : List (Entry m) :=
  if r.before.1 = .macCheck {} then r.before.2.pool.opened.entries else []

/-- The entries that the round added to the store; a check adds none. -/
def pushed (r : Record m) : List (Entry m) :=
  if r.before.1.isCheck then []
  else r.after.2.pool.opened.entries.drop r.before.2.pool.opened.entries.length

/-- What the store held and what was pushed is what was drained and what is left. -/
def Balanced (r : Record m) : Prop :=
  ∃ held left : List (Entry m), r.before.2.pool.opened = .ofEntries held
    ∧ r.after.2.pool.opened = .ofEntries left ∧ held ++ r.pushed = r.drained ++ left

end Record

/-- The rounds of a node, or those of the closing check. -/
def History.of (history : History m) (node : Option NodeId) : History m :=
  history.filter (·.node = node)

/-- The history moves the store from these entries to `opened`, round by round. -/
inductive Books (start : List (Entry m)) : History m → OpenedValues m → Prop
  | opening : Books start [] (.ofEntries start)
  | round {history : History m} {r : Record m}
      (earlier : Books start history r.before.2.pool.opened) (genuine : r.Genuine)
      (balanced : r.Balanced) :
      Books start (history ++ [r]) r.after.2.pool.opened

/-- Over a whole history, what was there and what was pushed is what was drained and what is
left, in this order. -/
theorem Books.balance {start : List (Entry m)} {history : History m} {opened : OpenedValues m}
    (h : Books start history opened) : ∃ left : List (Entry m), opened = .ofEntries left
      ∧ start ++ history.flatMap Record.pushed = history.flatMap Record.drained ++ left := by
  induction h with
  | opening => exact ⟨start, rfl, by simp⟩
  | @round history r earlier genuine balanced ih =>
    obtain ⟨held, hheld, hearlier⟩ := ih
    obtain ⟨held', left, hheld', hleft, hround⟩ := balanced
    have heq : held' = held := by
      rw [← OpenedValues.entries_ofEntries held', ← hheld', hheld,
        OpenedValues.entries_ofEntries]
    subst heq
    refine ⟨left, hleft, ?_⟩
    calc start ++ (history ++ [r]).flatMap Record.pushed
        = (start ++ history.flatMap Record.pushed) ++ r.pushed := by simp
      _ = history.flatMap Record.drained ++ (held' ++ r.pushed) := by
        rw [hearlier, List.append_assoc]
      _ = (history ++ [r]).flatMap Record.drained ++ left := by
        rw [hround]
        simp

namespace History

variable {history : History m} {r : Record m} {node : Option NodeId}

theorem of_append_of_eq (h : r.node = node) :
    (history ++ [r] : History m).of node = history.of node ++ [r] := by
  simp [of, h]

theorem of_append_of_ne (h : r.node ≠ node) :
    (history ++ [r] : History m).of node = history.of node := by
  simp [of, h]

/-- A round of one node is no round of another. -/
theorem of_append_of_id_ne {id id' : NodeId} (h : r.node = some id) (hne : id' ≠ id) :
    (history ++ [r] : History m).of id' = history.of id' := by
  refine of_append_of_ne fun heq => hne ?_
  exact Option.some.inj (heq.symm.trans h)

end History

/-! ## §3 The rounds of a gate -/

/-- These rounds, one after another, lead a gate from one state to another. -/
inductive Leads (g : Gate m) : History m → Gate m → Prop
  | nothing : Leads g [] g
  | round {rs : History m} {r : Record m} (earlier : Leads g rs r.before.1) :
      Leads g (rs ++ [r]) r.after.1

namespace Record

/-- A new check takes these entries out of the store, and its toss begins after that. -/
structure Begins (r : Record m) (entries : List (Entry m)) : Prop where
  fresh : r.before.1 = .macCheck {}
  taken : r.before.2.pool.opened = .ofEntries entries
  toss : r.after.1 = .macCheck (.begun (.ofEntries entries)
    (CoinToss.ownSeed r.before.2.pool.localGenerator)
    (CoinToss.ownRandomness r.before.2.pool.localGenerator) r.round)

/-- The toss yields this seed, and the own term for these entries is fixed with the coefficients
drawn from it, one for every entry. -/
def Tosses (r : Record m) (entries : List (Entry m)) (seed : Seed) (term : Bytes) : Prop :=
  ∃ (p p' : MacCheck m) (t t' : CoinToss) (w : Participant m) (c : Commit),
    r.before.1 = .macCheck p ∧ p.phase = .seeding (entries.map (·.1)) (entries.map (·.2)) t
    ∧ CoinToss.evaluate (roundsSince p.phaseStart r.round) (t, r.before.2) = .ok .done (t', w)
    ∧ t'.output = some seed
    ∧ (MacCheck.coefficients m seed entries.length).1.length = entries.length
    ∧ term = (checkTerm r.before.2.pool.keyShare (entries.map (·.1)) (entries.map (·.2))
        (MacCheck.coefficients m seed entries.length).1).toBytes
    ∧ r.after.1 = .macCheck p' ∧ p'.phase = .checking c ∧ c.value = term

/-- The commitment to this term is open, and the terms of all parties add up to zero. -/
def Accepts (r : Record m) (term : Bytes) : Prop :=
  ∃ (p : MacCheck m) (c c' : Commit) (w : Participant m) (terms : List Bytes),
    r.before.1 = .macCheck p ∧ p.phase = .checking c ∧ c.value = term
    ∧ Commit.evaluate (roundsSince p.phaseStart r.round) (c, r.before.2) = .ok .done (c', w)
    ∧ c'.output = some terms ∧ sumEncoded m terms = .ok 0 ∧ r.status = .done

end Record

/-- These are all rounds of a check that has accepted the entries it drained in the first. -/
inductive Checked : History m → Prop
  | intro {first tossed accepted : Record m} {tosses checks : History m}
      {entries : List (Entry m)} {seed : Seed} {term : Bytes} {g : Gate m}
      (begins : first.Begins entries)
      (once : ∀ r ∈ tosses ++ tossed :: (checks ++ [accepted]), r.drained = [])
      (seeded : tossed.Tosses entries seed term)
      (accepts : accepted.Accepts term)
      (leads : Leads (.macCheck {}) (first :: (tosses ++ tossed :: (checks ++ [accepted]))) g) :
      Checked (first :: (tosses ++ tossed :: (checks ++ [accepted])))

/-- How far a gate that records `openings` entries is after these rounds. -/
inductive Stage (openings : Nat) : Gate m → Nat → History m → Prop
  | unchecked {g : Gate m} {round : Nat} {rs : History m} (check : g.isCheck = false)
      (supplied : g.Supplied round) (target : g.openings = openings)
      (kept : ∀ r ∈ rs, r.drained = []) : Stage openings g round rs
  | fresh {round : Nat} (target : openings = 0) : Stage openings (.macCheck {}) round []
  | seeding {p : MacCheck m} {round : Nat} {first : Record m} {tosses : History m}
      {entries : List (Entry m)} {t : CoinToss} (target : openings = 0)
      (begins : first.Begins entries) (once : ∀ r ∈ tosses, r.drained = [])
      (phase : p.phase = .seeding (entries.map (·.1)) (entries.map (·.2)) t)
      (leads : Leads (.macCheck {}) (first :: tosses) (.macCheck p)) :
      Stage openings (.macCheck p) round (first :: tosses)
  | checking {p : MacCheck m} {round : Nat} {first tossed : Record m} {tosses checks : History m}
      {entries : List (Entry m)} {seed : Seed} {term : Bytes} {c : Commit} (target : openings = 0)
      (begins : first.Begins entries) (once : ∀ r ∈ tosses ++ tossed :: checks, r.drained = [])
      (seeded : tossed.Tosses entries seed term)
      (phase : p.phase = .checking c) (value : c.value = term)
      (leads : Leads (.macCheck {}) (first :: (tosses ++ tossed :: checks)) (.macCheck p)) :
      Stage openings (.macCheck p) round (first :: (tosses ++ tossed :: checks))

/-- A gate that is not done after these rounds: it has recorded nothing yet. -/
structure Underway (openings : Nat) (g : Gate m) (round : Nat) (rs : History m) : Prop where
  idle : ∀ r ∈ rs, r.pushed = []
  stage : Stage openings g round rs

/-- A gate that is done after these rounds: it has recorded its entries, and what it drained it
has checked. -/
structure Over (openings : Nat) (rs : History m) : Prop where
  length_pushed : (rs.flatMap Record.pushed).length = openings
  checked : ∀ r ∈ rs, r.drained ≠ [] → Checked rs

/-- A gate that has been built is at its beginning. -/
theorem Underway.of_instantiate {values : List (Option (Value m))} {op : Operation m} {g : Gate m}
    (h : Gate.instantiate values op = .ok g) : Underway op.openings g 0 [] := by
  obtain ⟨hopenings, hsupplied, hcheck⟩ := Gate.instantiate_eq_ok h
  refine ⟨fun r hr => absurd hr List.not_mem_nil, ?_⟩
  cases hisCheck : g.isCheck with
  | false =>
    exact .unchecked hisCheck hsupplied hopenings fun r hr => absurd hr List.not_mem_nil
  | true =>
    obtain rfl := hcheck hisCheck
    exact .fresh hopenings.symm

/-! ## §4 A round of a gate -/

theorem Draw.length_replicate {α : Type} (draw : Draw α) (count : Nat) (g : Generator) :
    (replicate draw count g).1.length = count := by
  induction count generalizing g with
  | zero => rfl
  | succ count ih =>
    show (_ :: (replicate draw count _).1).length = _
    rw [List.length_cons, ih]

section Step

variable {openings : Nat} {r : Record m} {rs : History m} {held : List (Entry m)}
  {p : MacCheck m} {entries : List (Entry m)}

theorem forall_mem_append_singleton {α : Type} {xs : List α} {x : α} {q : α → Prop}
    (h : ∀ y ∈ xs, q y) (hx : q x) : ∀ y ∈ xs ++ [x], q y := by
  intro y hy
  rcases List.mem_append.mp hy with hy | hy
  · exact h y hy
  · rw [List.mem_singleton.mp hy]
    exact hx

/-- What a step lemma says of one round. -/
def Advances (openings : Nat) (rs : History m) (r : Record m) : Prop :=
  r.Balanced ∧ (r.status = .more → Underway openings r.after.1 (r.round + 1) (rs ++ [r]))
    ∧ (r.status = .done → Over openings (rs ++ [r]))

theorem Record.pushed_of_check (h : r.before.1 = .macCheck p) : r.pushed = [] := by
  rw [pushed, h]
  rfl

theorem Record.drained_of_ne (h : r.before.1 ≠ .macCheck {}) : r.drained = [] :=
  if_neg h

/-- A check that is done has recorded nothing. -/
theorem Over.of_check (target : openings = 0) (idle : ∀ r ∈ rs, r.pushed = [])
    (checked : ∀ r ∈ rs, r.drained ≠ [] → Checked rs) : Over openings rs := by
  refine ⟨?_, checked⟩
  rw [List.flatMap_eq_nil_iff.mpr idle, target]
  rfl

/-- After a new check, and after one that found the store empty, the store is empty. -/
theorem Record.Balanced.empty_of_check (h : r.Balanced) (gate : r.before.1 = .macCheck p)
    (hempty : p = {} ∨ r.before.2.pool.opened = {}) : r.after.2.pool.opened = {} := by
  obtain ⟨held, left, hheld, hleft, hround⟩ := h
  rw [Record.pushed_of_check gate, List.append_nil] at hround
  have hnil : left = [] := by
    rcases hempty with rfl | hempty
    · have hdrained : r.drained = held := by simp [Record.drained, gate, hheld]
      rw [hdrained] at hround
      exact List.self_eq_append_right.mp hround
    · have hnone : held = [] := by
        rw [← OpenedValues.entries_ofEntries held, ← hheld, hempty, OpenedValues.entries_empty]
      rw [hnone] at hround
      exact (List.append_eq_nil_iff.mp hround.symm).2
  rw [hleft, hnil]
  rfl

theorem advances_unchecked (genuine : r.Genuine) (hheld : r.before.2.pool.opened = .ofEntries held)
    (idle : ∀ r ∈ rs, r.pushed = []) (check : r.before.1.isCheck = false)
    (supplied : r.before.1.Supplied r.round) (target : r.before.1.openings = openings)
    (kept : ∀ r ∈ rs, r.drained = []) : Advances openings rs r := by
  obtain ⟨hcheck, hmore, new, hnew, hlength⟩ :=
    Gate.evaluate_eq_ok genuine check supplied hheld
  have hpushed : r.pushed = new := by
    simp [Record.pushed, check, hheld, hnew]
  have hdrained : r.drained = [] := by
    refine Record.drained_of_ne fun heq => ?_
    rw [heq] at check
    cases check
  have hkept : ∀ q ∈ rs ++ [r], q.drained = [] := forall_mem_append_singleton kept hdrained
  refine ⟨⟨held, held ++ new, hheld, hnew, by rw [hpushed, hdrained]; rfl⟩, ?_, ?_⟩
  · intro hstatus
    obtain ⟨hopenings, hsupplied⟩ := hmore hstatus
    rw [hstatus] at hlength
    refine ⟨forall_mem_append_singleton idle ?_,
      .unchecked hcheck hsupplied (hopenings.trans target) hkept⟩
    rw [hpushed]
    exact List.eq_nil_of_length_eq_zero hlength
  · intro hstatus
    rw [hstatus] at hlength
    refine ⟨?_, fun q hq hne => absurd (hkept q hq) hne⟩
    rw [List.flatMap_append, List.flatMap_eq_nil_iff.mpr idle]
    simpa [hpushed, hlength, Status.recorded] using target

/-- What the first round of a check does. -/
theorem advances_fresh (genuine : r.Genuine) (hheld : r.before.2.pool.opened = .ofEntries held)
    (fresh : r.before.1 = .macCheck {}) (target : openings = 0) : Advances openings [] r := by
  have hpushed : r.pushed = [] := Record.pushed_of_check fresh
  have hdrained : r.drained = held := by simp [Record.drained, fresh, hheld]
  have hidle : ∀ q ∈ [r], q.pushed = [] := by
    intro q hq
    rw [List.mem_singleton.mp hq]
    exact hpushed
  have hleads : Leads (.macCheck {}) ([] ++ [r]) r.after.1 := .round (by rw [fresh]; exact .nothing)
  obtain ⟨node, round, ⟨g, w⟩, status, ⟨g', w'⟩⟩ := r
  obtain rfl : g = .macCheck {} := fresh
  obtain ⟨p', rfl, hround⟩ : ∃ p', g' = .macCheck p'
      ∧ MacCheck.evaluate round ({}, w) = .ok status (p', w') :=
    Gate.evaluate_macCheck_eq_ok.mp genuine
  obtain ⟨hempty, hrest⟩ := MacCheck.evaluate_start hround
  refine ⟨⟨held, [], hheld, hempty, by rw [hpushed, hdrained]⟩, ?_, ?_⟩
  · intro hstatus
    obtain rfl : status = .more := hstatus
    split at hrest
    · cases hrest
    · obtain ⟨-, rfl⟩ := hrest
      have htaken : w.pool.opened = .ofEntries held := hheld
      have hphase : (MacCheck.begun w.pool.opened (CoinToss.ownSeed w.pool.localGenerator)
          (CoinToss.ownRandomness w.pool.localGenerator) round).phase
          = .seeding (held.map (·.1)) (held.map (·.2)) (.begun
            (CoinToss.ownSeed w.pool.localGenerator)
            (CoinToss.ownRandomness w.pool.localGenerator) 0) := by
        rw [MacCheck.begun, htaken]
        rfl
      refine ⟨hidle, .seeding target ⟨rfl, hheld, ?_⟩ (fun q hq => absurd hq List.not_mem_nil)
        hphase hleads⟩
      rw [htaken]
  · intro hstatus
    obtain rfl : status = .done := hstatus
    have hnil : held = [] := by
      split at hrest
      · rename_i hshares
        rw [show w.pool.opened = _ from hheld] at hshares
        exact List.map_eq_nil_iff.mp hshares
      · cases hrest.1
    refine .of_check target hidle fun q hq hne => ?_
    rw [List.mem_singleton.mp hq, hdrained] at hne
    exact absurd hnil hne

/-- What a round of the toss of a check does. -/
theorem advances_seeding {first : Record m} {tosses : History m} {t : CoinToss}
    (genuine : r.Genuine) (hheld : r.before.2.pool.opened = .ofEntries held)
    (gate : r.before.1 = .macCheck p) (idle : ∀ q ∈ first :: tosses, q.pushed = [])
    (target : openings = 0) (begins : first.Begins entries) (once : ∀ q ∈ tosses, q.drained = [])
    (phase : p.phase = .seeding (entries.map (·.1)) (entries.map (·.2)) t)
    (leads : Leads (.macCheck {}) (first :: tosses) (.macCheck p)) :
    Advances openings (first :: tosses) r := by
  have hpushed : r.pushed = [] := Record.pushed_of_check gate
  have hdrained : r.drained = [] := by
    refine Record.drained_of_ne fun heq => ?_
    rw [gate] at heq
    cases heq
    cases phase
  have hidle := forall_mem_append_singleton idle hpushed
  have hleads : Leads (.macCheck {}) (first :: tosses ++ [r]) r.after.1 :=
    .round (by rw [gate]; exact leads)
  obtain ⟨node, round, ⟨g, w⟩, status, ⟨g', w'⟩⟩ := r
  obtain rfl : g = .macCheck p := gate
  obtain ⟨p', rfl, hround⟩ : ∃ p', g' = .macCheck p'
      ∧ MacCheck.evaluate round (p, w) = .ok status (p', w') :=
    Gate.evaluate_macCheck_eq_ok.mp genuine
  obtain ⟨rfl, hopened, hrest⟩ := MacCheck.evaluate_of_seeding phase hround
  refine ⟨⟨held, held, hheld, hopened.trans hheld, by rw [hpushed, hdrained]; simp⟩, fun _ => ?_,
    nofun⟩
  refine ⟨hidle, ?_⟩
  rcases hrest with ⟨t', hphase⟩ | ⟨t', w₂, seed, c, htoss, hseed, hphase, hvalue⟩
  · exact .seeding target begins (forall_mem_append_singleton once hdrained) hphase hleads
  · rw [List.length_map] at hvalue
    exact .checking target begins (forall_mem_append_singleton once hdrained)
      ⟨p, p', t, t', w₂, c, rfl, phase, htoss, hseed, Draw.length_replicate _ _ _, rfl, rfl,
        hphase, hvalue⟩ hphase hvalue hleads

/-- What a round of the commitment to the terms of a check does. -/
theorem advances_checking {first tossed : Record m} {tosses checks : History m} {seed : Seed}
    {term : Bytes} {c : Commit} (genuine : r.Genuine)
    (hheld : r.before.2.pool.opened = .ofEntries held) (gate : r.before.1 = .macCheck p)
    (idle : ∀ q ∈ first :: (tosses ++ tossed :: checks), q.pushed = []) (target : openings = 0)
    (begins : first.Begins entries) (once : ∀ q ∈ tosses ++ tossed :: checks, q.drained = [])
    (seeded : tossed.Tosses entries seed term) (phase : p.phase = .checking c)
    (value : c.value = term)
    (leads : Leads (.macCheck {}) (first :: (tosses ++ tossed :: checks)) (.macCheck p)) :
    Advances openings (first :: (tosses ++ tossed :: checks)) r := by
  have hpushed : r.pushed = [] := Record.pushed_of_check gate
  have hdrained : r.drained = [] := by
    refine Record.drained_of_ne fun heq => ?_
    rw [gate] at heq
    cases heq
    cases phase
  have hidle := forall_mem_append_singleton idle hpushed
  have honce := forall_mem_append_singleton once hdrained
  have hlist : ∀ q : Record m, first :: (tosses ++ tossed :: checks) ++ [q]
      = first :: (tosses ++ tossed :: (checks ++ [q])) := by
    intro q
    simp
  rw [List.append_assoc, List.cons_append] at honce
  have hleads : Leads (.macCheck {}) (first :: (tosses ++ tossed :: checks) ++ [r]) r.after.1 :=
    .round (by rw [gate]; exact leads)
  obtain ⟨node, round, ⟨g, w⟩, status, ⟨g', w'⟩⟩ := r
  obtain rfl : g = .macCheck p := gate
  obtain ⟨p', rfl, hround⟩ : ∃ p', g' = .macCheck p'
      ∧ MacCheck.evaluate round (p, w) = .ok status (p', w') :=
    Gate.evaluate_macCheck_eq_ok.mp genuine
  obtain ⟨hopened, hrest⟩ := MacCheck.evaluate_of_checking phase hround
  refine ⟨⟨held, held, hheld, hopened.trans hheld, by rw [hpushed, hdrained]; simp⟩, ?_, ?_⟩
  · intro hstatus
    rcases hrest with ⟨-, c', hphase, hvalue⟩ | ⟨hdone, -⟩
    · refine ⟨hidle, ?_⟩
      rw [hlist] at hleads ⊢
      exact .checking target begins honce seeded hphase (hvalue.trans value) hleads
    · cases hstatus.symm.trans hdone
  · intro hstatus
    rcases hrest with ⟨hmore, -⟩ | ⟨hdone, c', w₁, terms, hcommit, hterms, hsum⟩
    · cases hstatus.symm.trans hmore
    · refine .of_check target hidle fun q hq hne => ?_
      rw [hlist] at hleads ⊢
      exact .intro begins honce seeded ⟨p, c, c', w₁, terms, rfl, phase, value, hcommit, hterms,
        hsum, hdone⟩ hleads

/-- A round of a gate that is not done keeps the books, and the gate goes on or is over. -/
theorem Underway.step (h : Underway openings r.before.1 r.round rs) (genuine : r.Genuine)
    (hheld : r.before.2.pool.opened = .ofEntries held) : Advances openings rs r := by
  obtain ⟨idle, stage⟩ := h
  generalize hgate : r.before.1 = g at stage
  generalize hround : r.round = round at stage
  cases stage with
  | unchecked check supplied target kept =>
    subst hgate hround
    exact advances_unchecked genuine hheld idle check supplied target kept
  | fresh target => exact advances_fresh genuine hheld hgate target
  | seeding target begins once phase leads =>
    exact advances_seeding genuine hheld hgate idle target begins once phase leads
  | checking target begins once seeded phase value leads =>
    exact advances_checking genuine hheld hgate idle target begins once seeded phase value leads

end Step

end JointCircuit
