/-
JointCircuit.Proofs.Clock — when a gate is done.

How many rounds a protocol takes depends on the number of parties alone,
not on what the peers send: a round that succeeds goes on or ends as the
clock says. A broadcast ends in the round after its `confirmations`, a
commitment takes two broadcasts, a toss one commitment and a check two of
them, one after another.

Main statement: `Gate.Due.step` (§3) — a gate ends in its last round and
not before, and that is when it records its openings.
-/
import JointCircuit.Proofs.Entries
import JointCircuit.Proofs.Gates

namespace JointCircuit

variable {m : Modulus} {n : Nat}

/-! ## §1 Broadcasts, commitments and tosses -/

/-- The answer of a round of a protocol whose last round this is. -/
def Status.before (last round : Nat) : Status :=
  if round < last then .more else .done

theorem Status.before_of_lt {last round : Nat} (h : round < last) : before last round = .more :=
  if_pos h

theorem Status.before_of_le {last round : Nat} (h : last ≤ round) : before last round = .done :=
  if_neg (Nat.not_lt.mpr h)

theorem Status.before_eq_more {last round : Nat} : before last round = .more ↔ round < last := by
  unfold before
  split_ifs with h <;> simp [h]

theorem Status.before_eq_done {last round : Nat} : before last round = .done ↔ last ≤ round := by
  rw [← Nat.not_lt, ← before_eq_more]
  unfold before
  split_ifs <;> simp

/-- The exchanges of a broadcast: the messages, then the digests if they have to be compared. -/
def exchanges (parties : Nat) : Nat :=
  confirmations parties + 1

theorem exchanges_eq (parties : Nat) :
    exchanges parties = if needsValidation parties then 2 else 1 := by
  unfold exchanges confirmations
  split <;> rfl

theorem Broadcast.status_eq {round : Nat} {b b' : Broadcast} {w w' : Participant m}
    {status : Status} (h : evaluate round (b, w) = .ok status (b', w')) :
    status = .before (exchanges w.pool.parties) round := by
  rw [exchanges_eq]
  cases branch h with
  | send => split <;> rfl
  | digest receives needs =>
    rw [if_pos needs]
    rfl
  | receive receives needs =>
    rw [needs]
    rfl
  | compare =>
    refine (Status.before_of_le ?_).symm
    split <;> omega

namespace Commit

/-- A commitment that began in round 0 and is evaluated next in this round; its broadcasts take
`wait` exchanges each. -/
def Due (wait round : Nat) (c : Commit) : Prop :=
  (∃ b, c.phase = .commitments b ∧ c.phaseStart = 0 ∧ 0 < round ∧ round ≤ wait)
    ∨ ∃ b, c.phase = .openings b ∧ c.phaseStart = wait ∧ wait < round ∧ round ≤ 2 * wait

theorem due_begun (value randomness : Bytes) {wait : Nat} (h : 0 < wait) :
    (begun value randomness 0).Due wait 1 :=
  .inl ⟨_, rfl, rfl, Nat.one_pos, h⟩

variable {round wait : Nat} {c c' : Commit} {w w' : Participant m} {status : Status}

theorem status_of_commitments {b : Broadcast} (hphase : c.phase = .commitments b)
    (hstart : c.phaseStart = 0) (hround : 0 < round) (hle : round ≤ wait)
    (hwait : exchanges w.pool.parties = wait)
    (h : evaluate round (c, w) = .ok status (c', w')) :
    status = .more ∧ c'.Due wait (round + 1) := by
  cases branch h with
  | begin phase => cases hphase.symm.trans phase
  | commitments phase part =>
    have hanswer := Broadcast.status_eq part
    rw [hstart, roundsSince_of_le (Nat.zero_le round), hwait, Nat.sub_zero] at hanswer
    exact ⟨rfl, .inl ⟨_, rfl, hstart, by omega, Status.before_eq_more.mp hanswer.symm⟩⟩
  | committed phase part =>
    have hanswer := Broadcast.status_eq part
    rw [hstart, roundsSince_of_le (Nat.zero_le round), hwait, Nat.sub_zero] at hanswer
    have hlast : round = wait := Nat.le_antisymm hle (Status.before_eq_done.mp hanswer.symm)
    exact ⟨rfl, .inr ⟨_, rfl, hlast, by omega, by omega⟩⟩
  | openings phase => cases hphase.symm.trans phase
  | opened phase => cases hphase.symm.trans phase

theorem status_of_openings {b : Broadcast} (hphase : c.phase = .openings b)
    (hstart : c.phaseStart = wait) (hround : wait < round)
    (hwait : exchanges w.pool.parties = wait)
    (h : evaluate round (c, w) = .ok status (c', w')) :
    status = .before (2 * wait) round ∧ (round < 2 * wait → c'.Due wait (round + 1)) := by
  cases branch h with
  | begin phase => cases hphase.symm.trans phase
  | commitments phase => cases hphase.symm.trans phase
  | committed phase => cases hphase.symm.trans phase
  | openings phase part =>
    have hanswer := Broadcast.status_eq part
    rw [hstart, roundsSince_of_le hround.le, hwait] at hanswer
    have hlt := Status.before_eq_more.mp hanswer.symm
    exact ⟨(Status.before_of_lt (by omega)).symm,
      fun _ => .inr ⟨_, rfl, hstart, by omega, by omega⟩⟩
  | opened phase part =>
    have hanswer := Broadcast.status_eq part
    rw [hstart, roundsSince_of_le hround.le, hwait] at hanswer
    have hge := Status.before_eq_done.mp hanswer.symm
    exact ⟨(Status.before_of_le (by omega)).symm, fun hlt => absurd hlt (by omega)⟩

/-- A commitment is over when its two broadcasts are. -/
theorem Due.step (due : c.Due wait round) (hwait : exchanges w.pool.parties = wait)
    (h : evaluate round (c, w) = .ok status (c', w')) :
    status = .before (2 * wait) round ∧ (round < 2 * wait → c'.Due wait (round + 1)) := by
  rcases due with ⟨b, hphase, hstart, hround, hle⟩ | ⟨b, hphase, hstart, hround, hle⟩
  · obtain ⟨rfl, due⟩ := status_of_commitments hphase hstart hround hle hwait h
    exact ⟨(Status.before_of_lt (by omega)).symm, fun _ => due⟩
  · exact status_of_openings hphase hstart hround hwait h

end Commit

namespace CoinToss

/-- A toss that began in round 0 and is evaluated next in this round. -/
def Due (wait round : Nat) (t : CoinToss) : Prop :=
  ∃ c, t.commit = some c ∧ c.Due wait round

variable {round wait : Nat} {t t' : CoinToss} {w w' : Participant m} {status : Status}

theorem Due.step (due : t.Due wait round) (hwait : exchanges w.pool.parties = wait)
    (h : evaluate round (t, w) = .ok status (t', w')) :
    status = .before (2 * wait) round ∧ (round < 2 * wait → t'.Due wait (round + 1)) := by
  obtain ⟨c, hcommit, due⟩ := due
  cases branch hcommit h with
  | commit part =>
    obtain ⟨hanswer, due'⟩ := due.step hwait part
    exact ⟨hanswer, fun hlt => ⟨_, rfl, due' hlt⟩⟩
  | combine part =>
    obtain ⟨hanswer, -⟩ := due.step hwait part
    exact ⟨hanswer, fun hlt => absurd (Status.before_eq_done.mp hanswer.symm) (by omega)⟩

end CoinToss

/-! ## §2 Checks -/

namespace MacCheck

/-- A check with something to check that began in round 0 and is evaluated next in this round. -/
def Due (wait round : Nat) (p : MacCheck m) : Prop :=
  (∃ shares values t, p.phase = .seeding shares values t ∧ p.phaseStart = 0
      ∧ round ≤ 2 * wait ∧ t.Due wait round)
    ∨ ∃ c, p.phase = .checking c ∧ p.phaseStart = 2 * wait ∧ 2 * wait < round
      ∧ c.Due wait (round - 2 * wait)

variable {round wait : Nat} {p p' : MacCheck m} {w w' : Participant m} {status : Status}

theorem due_begun (opened : OpenedValues m) (seed : Seed) (randomness : Bytes) (h : 0 < wait) :
    (begun opened seed randomness 0).Due wait 1 :=
  .inl ⟨_, _, _, rfl, rfl, by omega, _, rfl, Commit.due_begun _ _ h⟩

theorem due_of_seeding {shares : List (AuthShare m)} {values : List (Element m)} {t : CoinToss}
    (hphase : p.phase = .seeding shares values t) (hstart : p.phaseStart = 0)
    (hle : round ≤ 2 * wait) (due : t.Due wait round) (hwait : exchanges w.pool.parties = wait)
    (h : evaluate round (p, w) = .ok status (p', w')) : p'.Due wait (round + 1) := by
  have hpositive : 0 < wait := by
    rw [← hwait]
    exact Nat.succ_pos _
  cases branch (by rw [hphase]; nofun) h with
  | seeding phase part =>
    obtain ⟨rfl, rfl, rfl⟩ := Phase.seeding.inj (hphase.symm.trans phase)
    rw [hstart, roundsSince_of_le (Nat.zero_le round), Nat.sub_zero] at part
    obtain ⟨hanswer, due'⟩ := due.step hwait part
    have hlt := Status.before_eq_more.mp hanswer.symm
    exact .inl ⟨_, _, _, rfl, hstart, hlt, due' hlt⟩
  | seeded phase part tossed term commits =>
    obtain ⟨rfl, rfl, rfl⟩ := Phase.seeding.inj (hphase.symm.trans phase)
    rw [hstart, roundsSince_of_le (Nat.zero_le round), Nat.sub_zero] at part
    obtain ⟨hanswer, -⟩ := due.step hwait part
    have hlast : round = 2 * wait :=
      Nat.le_antisymm hle (Status.before_eq_done.mp hanswer.symm)
    obtain ⟨box, hbegun⟩ := Commit.evaluate_new _ 0 _
    cases hbegun.symm.trans commits
    refine .inr ⟨_, rfl, hlast, by omega, ?_⟩
    rw [hlast, Nat.add_sub_cancel_left]
    exact Commit.due_begun _ _ hpositive
  | checking phase => cases hphase.symm.trans phase
  | checked phase => cases hphase.symm.trans phase

theorem due_of_checking {c : Commit} (hphase : p.phase = .checking c)
    (hstart : p.phaseStart = 2 * wait) (hround : 2 * wait < round)
    (due : c.Due wait (round - 2 * wait)) (hwait : exchanges w.pool.parties = wait)
    (h : evaluate round (p, w) = .ok status (p', w')) :
    status = .before (4 * wait) round ∧ (round < 4 * wait → p'.Due wait (round + 1)) := by
  cases branch (by rw [hphase]; nofun) h with
  | seeding phase => cases hphase.symm.trans phase
  | seeded phase => cases hphase.symm.trans phase
  | checking phase part =>
    obtain rfl := Phase.checking.inj (hphase.symm.trans phase)
    rw [hstart, roundsSince_of_le hround.le] at part
    obtain ⟨hanswer, due'⟩ := due.step hwait part
    have hlt := Status.before_eq_more.mp hanswer.symm
    refine ⟨(Status.before_of_lt (by omega)).symm, fun _ => .inr ⟨_, rfl, hstart, by omega, ?_⟩⟩
    rw [Nat.sub_add_comm hround.le]
    exact due' hlt
  | checked phase part =>
    obtain rfl := Phase.checking.inj (hphase.symm.trans phase)
    rw [hstart, roundsSince_of_le hround.le] at part
    obtain ⟨hanswer, -⟩ := due.step hwait part
    have hge := Status.before_eq_done.mp hanswer.symm
    exact ⟨(Status.before_of_le (by omega)).symm, fun hlt => absurd hlt (by omega)⟩

/-- A check is over when its toss and its commitment are, and it leaves the store alone. -/
theorem Due.step (due : p.Due wait round) (hwait : exchanges w.pool.parties = wait)
    (h : evaluate round (p, w) = .ok status (p', w')) :
    status = .before (4 * wait) round ∧ (round < 4 * wait → p'.Due wait (round + 1))
      ∧ w'.pool.opened = w.pool.opened := by
  rcases due with ⟨shares, values, t, hphase, hstart, hle, due⟩ | ⟨c, hphase, hstart, hround, due⟩
  · obtain ⟨rfl, hopened, -⟩ := evaluate_of_seeding hphase h
    have hpositive : 0 < wait := by
      rw [← hwait]
      exact Nat.succ_pos _
    exact ⟨(Status.before_of_lt (by omega)).symm,
      fun _ => due_of_seeding hphase hstart hle due hwait h, hopened⟩
  · obtain ⟨hstatus, hdue⟩ := due_of_checking hphase hstart hround due hwait h
    exact ⟨hstatus, hdue, (evaluate_of_checking hphase h).1⟩

end MacCheck

/-! ## §3 Gates -/

theorem Input.status_eq {round : Nat} {p p' : Input m} {w w' : Participant m} {status : Status}
    (h : evaluate round (p, w) = .ok status (p', w')) :
    status = .before (exchanges w.pool.parties) round := by
  rw [exchanges_eq]
  cases branch h with
  | own => split <;> rfl
  | other => split <;> rfl
  | digest receives decodes needs =>
    rw [if_pos needs]
    rfl
  | receive receives decodes needs =>
    rw [needs]
    rfl
  | compare =>
    refine (Status.before_of_le ?_).symm
    split <;> omega

/-- Products are open after one exchange, if there are any. -/
theorem MultiplyBatch.status_eq {round : Nat} {p p' : MultiplyBatch m} {w w' : Participant m}
    {status : Status} (h : evaluate round (p, w) = .ok status (p', w')) :
    status = .before (if p.openings = 0 then 0 else 1) round := by
  have hopenings : p.openings = 0 ↔ p.pairs = [] := by
    simp [openings]
  cases branch h with
  | empty no_pairs => rw [if_pos (hopenings.mpr no_pairs), Status.before_of_le (Nat.zero_le round)]
  | send has_pairs =>
    rw [if_neg (mt hopenings.mp has_pairs)]
    rfl
  | finish has_pairs =>
    rw [if_neg (mt hopenings.mp has_pairs)]
    exact (Status.before_of_le (Nat.le_add_left 1 _)).symm

theorem Reveal.status_eq {round : Nat} {p p' : Reveal m} {w w' : Participant m} {status : Status}
    (h : evaluate round (p, w) = .ok status (p', w')) : status = .before 1 round := by
  cases branch h with
  | send => rfl
  | finish => exact (Status.before_of_le (Nat.le_add_left 1 _)).symm

namespace Gate

/-- The last round of a gate among `n` parties; that of a check, if there is something to check. -/
def last (n : Nat) : Gate m → Nat
  | .input _ => exchanges n
  | .macCheck _ => 4 * exchanges n
  | g => if g.openings = 0 then 0 else 1

/-- A gate that is evaluated next in this round; a check is not a new one. -/
structure Due (n round : Nat) (g : Gate m) : Prop where
  supplied : g.Supplied round
  check : ∀ p, g = .macCheck p → p.Due (exchanges n) round

variable {round : Nat} {g g' : Gate m} {w w' : Participant m} {status : Status}

/-- A gate that is no check answers by its clock, which goes on with the openings to come. -/
theorem status_eq (h : evaluate round (g, w) = .ok status (g', w')) (hcheck : g.isCheck = false)
    (hparties : w.pool.parties = n) :
    status = .before (g.last n) round ∧ (g'.openings = g.openings → g'.last n = g.last n) := by
  subst hparties
  cases branch h with
  | input act => exact ⟨Input.status_eq act, fun _ => rfl⟩
  | linear act =>
    obtain ⟨rfl, -⟩ := Linear.evaluate_eq_ok act
    exact ⟨(Status.before_of_le (Nat.zero_le round)).symm, fun _ => rfl⟩
  | multiply act =>
    exact ⟨MultiplyBatch.status_eq (Multiply.evaluate_eq_ok.mp act),
      fun hopenings => by simp only [last, hopenings]⟩
  | multiplyBatch act =>
    exact ⟨MultiplyBatch.status_eq act, fun hopenings => by simp only [last, hopenings]⟩
  | reveal act => exact ⟨Reveal.status_eq act, fun _ => rfl⟩
  | macCheck => cases hcheck

/-- A gate ends in its last round and not before, and records its openings there. -/
theorem Due.step (due : g.Due n round) (hparties : w.pool.parties = n)
    (h : evaluate round (g, w) = .ok status (g', w')) {old : List (Entry m)}
    (hold : w.pool.opened = .ofEntries old) :
    status = .before (g.last n) round
      ∧ (status = .more → g'.Due n (round + 1) ∧ g'.last n = g.last n ∧ g'.openings = g.openings)
      ∧ ∃ new : List (Entry m), w'.pool.opened = .ofEntries (old ++ new)
        ∧ new.length = status.recorded g.openings := by
  cases hcheck : g.isCheck with
  | false =>
    obtain ⟨hcheck', hmore, hnew⟩ := evaluate_eq_ok h hcheck due.supplied hold
    obtain ⟨hstatus, hlast⟩ := status_eq h hcheck hparties
    refine ⟨hstatus, fun hm => ?_, hnew⟩
    obtain ⟨hopenings, hsupplied⟩ := hmore hm
    refine ⟨⟨hsupplied, fun p hp => ?_⟩, hlast hopenings, hopenings⟩
    rw [hp] at hcheck'
    cases hcheck'
  | true =>
    cases g with
    | macCheck p =>
      obtain ⟨p', rfl, hround⟩ := evaluate_macCheck_eq_ok.mp h
      obtain ⟨rfl, hdue, hopened⟩ :=
        (due.check p rfl).step (congrArg exchanges hparties) hround
      refine ⟨rfl, fun hm => ⟨⟨trivial, fun q hq => ?_⟩, rfl, rfl⟩, [], ?_, ?_⟩
      · cases hq
        exact hdue (Status.before_eq_more.mp hm)
      · rw [hopened, hold, List.append_nil]
      · generalize Status.before _ _ = status
        cases status <;> rfl
    | _ => cases hcheck

/-- A new check takes everything out of the store, and ends at once if there was nothing. -/
theorem evaluate_new_check (n : Nat) (h : evaluate 0 (.macCheck {}, w) = .ok status (g', w')) :
    w'.pool.opened = {}
      ∧ status = .before (if w.pool.opened.hasPending then 4 * exchanges n else 0) 0
      ∧ (status = .more → g'.Due n 1 ∧ g'.last n = 4 * exchanges n ∧ g'.openings = 0) := by
  obtain ⟨p', rfl, hround⟩ := evaluate_macCheck_eq_ok.mp h
  obtain ⟨hopened, hstatus⟩ := MacCheck.evaluate_start hround
  have hpositive : 0 < exchanges n := Nat.succ_pos _
  refine ⟨hopened, ?_⟩
  split at hstatus
  · rename_i hempty
    subst hstatus
    simp [OpenedValues.hasPending, hempty, Status.before]
  · rename_i hentries
    obtain ⟨rfl, rfl⟩ := hstatus
    have hpending : w.pool.opened.hasPending = true := by
      simpa [OpenedValues.hasPending] using hentries
    rw [if_pos hpending, Status.before_of_lt (by omega)]
    refine ⟨rfl, fun _ => ⟨⟨trivial, fun p hp => ?_⟩, rfl, rfl⟩⟩
    cases hp
    exact MacCheck.due_begun _ _ _ hpositive

end Gate

namespace Operation

/-- The last round of a node that is started now, with something to check or without. -/
def last (n : Nat) (pending : Bool) : Operation m → Nat
  | .input _ _ => exchanges n
  | .macCheck _ => if pending then 4 * exchanges n else 0
  | op => if op.openings = 0 then 0 else 1

/-- Whether the operation is a check. -/
def isCheck : Operation m → Bool
  | .macCheck _ => true
  | _ => false

end Operation

/-- The gate of an operation is of its kind, and has the same clock. -/
theorem Gate.kind_of_instantiate {values : List (Option (Value m))} {op : Operation m} {g : Gate m}
    (h : instantiate values op = .ok g) (pending : Bool) :
    (op.isCheck = false → g.isCheck = false ∧ g.last n = op.last n pending)
      ∧ (op.isCheck = true → g = .macCheck {}) := by
  obtain ⟨hopenings, -, -⟩ := instantiate_eq_ok h
  cases op with
  | input owner value =>
    cases h
    exact ⟨fun _ => ⟨rfl, rfl⟩, nofun⟩
  | macCheck after =>
    cases h
    exact ⟨nofun, fun _ => rfl⟩
  | multiply x y =>
    obtain ⟨_, -, h⟩ := except_bind_eq_ok.mp h
    obtain ⟨_, -, h⟩ := except_bind_eq_ok.mp h
    cases h
    exact ⟨fun _ => ⟨rfl, by simp only [last, Operation.last, hopenings]⟩, nofun⟩
  | multiplyBatch pairs =>
    obtain ⟨_, -, h⟩ := except_bind_eq_ok.mp h
    cases h
    exact ⟨fun _ => ⟨rfl, by simp only [last, Operation.last, hopenings]⟩, nofun⟩
  | reveal x =>
    obtain ⟨_, -, h⟩ := except_bind_eq_ok.mp h
    cases h
    exact ⟨fun _ => ⟨rfl, rfl⟩, nofun⟩
  | _ =>
    obtain ⟨_, -, h⟩ := except_bind_eq_ok.mp h
    first
      | cases h
        exact ⟨fun _ => ⟨rfl, rfl⟩, nofun⟩
      | obtain ⟨_, -, h⟩ := except_bind_eq_ok.mp h
        cases h
        exact ⟨fun _ => ⟨rfl, rfl⟩, nofun⟩

end JointCircuit
