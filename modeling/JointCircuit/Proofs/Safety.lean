/-
JointCircuit.Proofs.Safety — nothing is read or counted out of bounds.

Wherever an evaluation indexes a table or takes one number off another,
something has to be true for that to make sense: a mailbox has a queue
for the own party, no phase of a protocol begins after the round that is
evaluated, the store has as many shares as values, and a node that is
completed has a place in every table and is still missing at those that
wait for it. `Trace.Safe` says so at every such point of a trace.

Main statements: `Schedule.Sound.completable` (§2) and the rules of
`Trace.Safe` (§3).
-/
import JointCircuit.Proofs.Receipts

namespace JointCircuit

open JointCircuit.Action

variable {m : Modulus} {n round wait : Nat}

/-! ## §1 Participants and rounds -/

/-- A party among `n` whose store of opened values is in step. -/
structure Participant.Fit (n : Nat) (w : Participant m) : Prop where
  mailbox : w.mailbox.Shaped n
  parties : w.pool.parties = n
  opened : w.pool.opened.Paired

namespace Participant.Fit

variable {w w' : Participant m}

theorem serves (h : w.Fit n) (hserves : Serves w w') : w'.Fit n where
  mailbox := ⟨hserves.party ▸ h.mailbox.party_pos, hserves.party ▸ h.mailbox.party_le,
    hserves.outgoing.trans h.mailbox.outgoing, hserves.incoming.trans h.mailbox.incoming⟩
  parties := hserves.parties.trans h.parties
  opened := hserves.paired h.opened

/-- A participant that has not done anything yet. -/
theorem new (pool : Pool m) (hpos : 0 < pool.party) (hle : pool.party ≤ pool.parties)
    (hopened : pool.opened = {}) : (Participant.new pool).Fit pool.parties where
  mailbox := (Mailbox.quiescent_new hpos hle).shaped
  parties := rfl
  opened := by
    rw [OpenedValues.Paired, Participant.new, hopened]
    rfl

end Participant.Fit

/-- Every party that has been set up is fit for an evaluation. -/
theorem Evaluator.fit_of_new {config : PoolConfig} {supplier : Supplier m} {entropy : Seed}
    {pool : Pool m} {party parties : Nat} {e : Evaluator m}
    (hpool : Pool.new config supplier entropy = .ok pool)
    (he : Evaluator.new pool party parties = .ok e) : e.participant.Fit parties ∧ 2 ≤ parties := by
  obtain ⟨_, hvalid, hpool⟩ := except_bind_eq_ok.mp hpool
  cases hpool
  unfold Evaluator.new at he
  split at he
  · rename_i hsame
    obtain ⟨-, rfl⟩ := hsame
    cases he
    unfold PoolConfig.validate at hvalid
    split at hvalid
    · cases hvalid
    split at hvalid
    · cases hvalid
    · refine ⟨.new _ ?_ ?_ rfl, ?_⟩
      all_goals simp only
      all_goals omega
  · cases he

/-- The round is not before the phase of the commitment; a commitment that starts sets its phase
to the round. -/
def Commit.Timely (round : Nat) (c : Commit) : Prop :=
  c.phase = .start ∨ c.phaseStart ≤ round

/-- The same for the commitment of a coin toss. -/
def CoinToss.Timely (round : Nat) (t : CoinToss) : Prop :=
  ∀ c, t.commit = some c → c.Timely round

/-- The same for a check and for the parts of it, which count their rounds from its phase. -/
def MacCheck.Timely (round : Nat) (p : MacCheck m) : Prop :=
  match p.phase with
  | .start => True
  | .seeding _ _ t => p.phaseStart ≤ round ∧ t.Timely (round - p.phaseStart)
  | .checking c => p.phaseStart ≤ round ∧ c.Timely (round - p.phaseStart)
  | .finished => p.phaseStart ≤ round

/-- Only a check has phases. -/
def Gate.Timely (round : Nat) : Gate m → Prop
  | .macCheck p => p.Timely round
  | _ => True

/-- No phase of the protocol begins after the round. -/
def Task.Timely (round : Nat) : Task m → Prop
  | .gate g => g.Timely round
  | .broadcast _ => True
  | .commit c => c.Timely round
  | .coinToss t => t.Timely round

theorem Commit.Due.timely {c : Commit} (h : c.Due wait round) : c.Timely round := by
  rcases h with ⟨b, -, hstart, -, -⟩ | ⟨b, -, hstart, hround, -⟩
  · exact .inr (hstart ▸ Nat.zero_le round)
  · exact .inr (hstart ▸ hround.le)

theorem CoinToss.Due.timely {t : CoinToss} (h : t.Due wait round) : t.Timely round := by
  obtain ⟨c, hcommit, due⟩ := h
  intro c' hc'
  obtain rfl := Option.some.inj (hcommit.symm.trans hc')
  exact due.timely

theorem MacCheck.Due.timely {p : MacCheck m} (h : p.Due wait round) : p.Timely round := by
  rcases h with ⟨shares, values, t, hphase, hstart, -, due⟩ | ⟨c, hphase, hstart, hround, due⟩
  · rw [Timely, hphase]
    exact ⟨hstart ▸ Nat.zero_le round, hstart ▸ due.timely⟩
  · rw [Timely, hphase]
    exact ⟨hstart ▸ hround.le, hstart ▸ due.timely⟩

theorem Gate.Due.timely {g : Gate m} (h : g.Due n round) : g.Timely round := by
  cases g with
  | macCheck p => exact (h.check p rfl).timely
  | _ => trivial

/-- A new gate has no phase behind it. -/
theorem Gate.timely_of_instantiate {values : List (Option (Value m))} {op : Operation m}
    {g : Gate m} (h : instantiate values op = .ok g) : g.Timely round := by
  cases g with
  | macCheck p =>
    obtain ⟨-, -, hcheck⟩ := instantiate_eq_ok h
    cases hcheck rfl
    trivial
  | _ => trivial

/-! ## §2 Schedules -/

namespace Schedule

variable {s : Schedule m} {running : List NodeId} {id : NodeId}

/-- The node has its place in the tables, and at each of the nodes that wait for it there is
something to take off. -/
structure Completable (s : Schedule m) (id : NodeId) : Prop where
  known : id < s.values.length
  distinct : (s.circuit.dependents id).Nodup
  waiting : ∀ k ∈ s.circuit.dependents id, ∃ missing, s.missing[k]? = some (missing + 1)

/-- A running node may be completed. -/
theorem Sound.completable (h : s.Sound (id :: running)) : s.Completable id where
  known := h.open_lt (h.running_open id List.mem_cons_self)
  distinct := s.circuit.nodup_dependents id
  waiting := by
    obtain ⟨-, -, hnone, -⟩ := h.running_open id List.mem_cons_self
    intro k hk
    obtain ⟨op, hop, hdepends⟩ := Circuit.mem_dependents.mp hk
    have hunmet : 0 < s.unmet op :=
      List.countP_pos_iff.mpr ⟨id, hdepends, by rw [hnone]; rfl⟩
    exact ⟨s.unmet op - 1, by rw [h.missing k op hop, Nat.sub_add_cancel hunmet]⟩

end Schedule

/-! ## §3 Traces -/

namespace Trace

/-- Nothing in the trace is out of bounds. -/
structure Safe (n : Nat) (t : Trace m) : Prop where
  exchanges : ∀ leg ∈ t.legs, ∀ x, leg.opening = some x → x.mailbox.Shaped n
  rounds : ∀ r ∈ t.played, r.before.1.Timely r.number ∧ r.before.2.pool.opened.Paired
  completions : ∀ node ∈ t.completed, node.2.Completable node.1

namespace Safe

variable {t : Trace m}

theorem new : ({} : Trace m).Safe n where
  exchanges := by simp [legs]
  rounds := by simp [played, legs]
  completions := fun _ h => absurd h List.not_mem_nil

theorem play (h : t.Safe n) {r : Played m} (htimely : r.before.1.Timely r.number)
    (hfit : r.before.2.Fit n) : (t.play r).Safe n where
  exchanges leg hleg x hx := by
    obtain hleg | hleg := List.mem_append.mp hleg
    · exact h.exchanges leg (List.mem_append_left _ hleg) x hx
    · obtain rfl := List.mem_singleton.mp hleg
      exact h.exchanges t.now (List.mem_append_right _ List.mem_cons_self) x hx
  rounds := by
    rw [played_play]
    exact List.forall_mem_append.mpr
      ⟨h.rounds, List.forall_mem_singleton.mpr ⟨htimely, hfit.opened⟩⟩
  completions := h.completions

theorem exchange (h : t.Safe n) {x : Exchanged m} (hshaped : x.mailbox.Shaped n) :
    (t.exchange x).Safe n where
  exchanges leg hleg y hy := by
    obtain hleg | hleg := List.mem_append.mp hleg
    · exact h.exchanges leg hleg y hy
    · obtain rfl := List.mem_singleton.mp hleg
      cases hy
      exact hshaped
  rounds := by
    rw [played_exchange]
    exact h.rounds
  completions := h.completions

theorem complete (h : t.Safe n) {id : NodeId} {s : Schedule m} (hid : s.Completable id) :
    (t.complete id s).Safe n where
  exchanges := h.exchanges
  rounds := h.rounds
  completions := List.forall_mem_append.mpr ⟨h.completions, List.forall_mem_singleton.mpr hid⟩

theorem finish (h : t.Safe n) (w : Participant m) : (t.finish w).Safe n :=
  ⟨h.exchanges, h.rounds, h.completions⟩

end Safe

end Trace

end JointCircuit
