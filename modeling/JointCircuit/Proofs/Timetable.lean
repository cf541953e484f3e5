/-
JointCircuit.Proofs.Timetable — when nodes start, without their values.

When a node is started depends on the circuit and on the number of
parties: not on values, not on material, not on what peers send. A
timetable (§1) runs through an evaluation with the clock alone. It keeps
a schedule whose values mean nothing, for every gate in flight its round
and its last one, and whether the store holds anything.

Main statements: `Timetable.Follows.advance`, `Timetable.Follows.start`
(§2) — whatever an evaluator does to a gate is what the timetable says;
`Timetable.starts` lists the nodes in the order in which they are started.
-/
import JointCircuit.Proofs.Blindness
import JointCircuit.Proofs.Clock

namespace JointCircuit

variable {m : Modulus} {n : Nat}

/-! ## §1 Timetables -/

/-- A gate in flight as the clock sees it. -/
structure Slot where
  id : NodeId
  /-- The round it is evaluated in next. -/
  round : Nat
  /-- Its last round. -/
  last : Nat
  /-- Whether it records anything in its last round. -/
  opens : Bool
deriving DecidableEq

/-- An evaluation without values: a schedule in which only the other fields count, and whether the
store holds anything. -/
structure Timetable (m : Modulus) where
  schedule : Schedule m
  pending : Bool := false

namespace Timetable

/-- A round of a gate: it stays in flight until its last round. -/
def advance (t : Timetable m) (slot : Slot) : Timetable m × List Slot :=
  if slot.round < slot.last then (t, [{ slot with round := slot.round + 1 }])
  else
    ({ schedule := t.schedule.complete slot.id .checked, pending := t.pending || slot.opens }, [])

/-- A round of the gates in flight, in order. -/
def advanceAll (t : Timetable m) : List Slot → Timetable m × List Slot
  | [] => (t, [])
  | slot :: rest =>
    let (t, still) := t.advance slot
    let (t, others) := t.advanceAll rest
    (t, still ++ others)

/-- The first round of a node. A check empties the store before anything else. -/
def start (n : Nat) (t : Timetable m) (id : NodeId) : Timetable m × List Slot :=
  match t.schedule.circuit.operation? id with
  | none => (t, [])
  | some op =>
    advance { t with pending := t.pending && !op.isCheck }
      { id, round := 0, last := op.last n t.pending, opens := op.openings ≠ 0 }

/-- Start the ready nodes, lowest first; the nodes started are listed as well. -/
def startReady (n : Nat) : (budget : Nat) → Timetable m → Timetable m × List Slot × List NodeId
  | 0, t => (t, [], [])
  | budget + 1, t =>
    match t.schedule.next? with
    | none => (t, [], [])
    | some (id, schedule) =>
      let (t, still) := start n { t with schedule } id
      let (t, others, ids) := startReady n budget t
      (t, still ++ others, id :: ids)

/-- The nodes that are started from a round on, in order. -/
def starts (n : Nat) : (budget : Nat) → Timetable m → List Slot → List NodeId
  | 0, _, _ => []
  | budget + 1, t, slots =>
    let (t, still) := t.advanceAll slots
    let (t, started, ids) := startReady n t.schedule.circuit.size t
    match still ++ started with
    | [] => ids
    | slots => ids ++ starts n budget t slots

end Timetable

/-- The nodes of a circuit, in the order in which `n` parties start them. -/
def Circuit.startOrder (c : Circuit m) (n : Nat) : List NodeId :=
  Timetable.starts n (Evaluator.roundBudget c.size) { schedule := .new c } []

/-! ## §2 Evaluators that follow a timetable -/

/-- Schedules that agree on everything but values. -/
structure Schedule.Alike (s s' : Schedule m) : Prop where
  circuit : s.circuit = s'.circuit
  missing : s.missing = s'.missing
  ready : s.ready = s'.ready

namespace Schedule.Alike

variable {s s' : Schedule m}

theorem release (h : s.Alike s') (id : NodeId) : (s.release id).Alike (s'.release id) := by
  unfold Schedule.release
  rw [h.missing, h.ready]
  dsimp only
  split
  · exact ⟨h.circuit, rfl, rfl⟩
  · exact ⟨h.circuit, rfl, rfl⟩

theorem foldl_release (h : s.Alike s') (ids : List NodeId) :
    (ids.foldl Schedule.release s).Alike (ids.foldl Schedule.release s') := by
  induction ids generalizing s s' with
  | nil => exact h
  | cons id ids ih => exact ih (h.release id)

/-- Which nodes are released does not depend on the value. -/
theorem complete (h : s.Alike s') (id : NodeId) (value value' : Value m) :
    (s.complete id value).Alike (s'.complete id value') := by
  unfold Schedule.complete
  rw [h.circuit]
  refine foldl_release ?_ _
  exact ⟨rfl, h.missing, h.ready⟩

theorem start (h : s.Alike s') (rest : List NodeId) :
    Schedule.Alike { s with ready := rest } { s' with ready := rest } := ⟨h.circuit, h.missing, rfl⟩

end Schedule.Alike

open Evaluator

/-- The gate is where the slot says. -/
structure Slot.Of (n : Nat) (slot : Slot) (flight : InFlight m) : Prop where
  id : slot.id = flight.id
  round : slot.round = flight.round
  last : slot.last = flight.gate.last n
  opens : slot.opens = decide (flight.gate.openings ≠ 0)
  due : flight.gate.Due n flight.round

namespace Timetable

/-- The evaluator is where the timetable says, with this schedule. -/
structure Follows (t : Timetable m) (s : Schedule m) (e : Evaluator m) : Prop where
  schedule : t.schedule.Alike s
  entries : ∃ entries, e.participant.pool.opened = .ofEntries entries
  pending : t.pending = e.participant.pool.opened.hasPending

/-- What the store holds after some more entries. -/
theorem hasPending_append {old new : List (Entry m)} {status : Status} {openings : Nat}
    (h : new.length = status.recorded openings) :
    (OpenedValues.ofEntries (old ++ new)).hasPending
      = ((OpenedValues.ofEntries old).hasPending
        || (decide (status = .done) && decide (openings ≠ 0))) := by
  cases status with
  | more =>
    obtain rfl := List.length_eq_zero_iff.mp h
    simp
  | done =>
    have hnew : decide (openings ≠ 0) = !new.isEmpty := by
      rw [← (show new.length = openings from h)]
      cases new <;> simp
    rw [hnew]
    cases old <;> cases new <;> rfl

namespace Follows

variable {t : Timetable m} {s s' : Schedule m} {e e' : Evaluator m}

/-- A gate in flight is advanced by its clock. -/
theorem advance {slot : Slot} {flight : InFlight m} {still : List (InFlight m)}
    (h : t.Follows s e) (hof : slot.Of n flight) (hparties : e.participant.pool.parties = n)
    (hadvance : Evaluator.advance s flight e = .finished (.ok (s', still), e')) :
    (t.advance slot).1.Follows s' e' ∧ List.Forall₂ (Slot.Of n) (t.advance slot).2 still := by
  obtain ⟨old, hold⟩ := h.entries
  obtain ⟨status, gate, hround, hsettled⟩ := advance_eq_ok hadvance
  obtain ⟨hstatus, hmore, new, hopened, hnew⟩ := hof.due.step hparties hround hold
  have hpending := @hasPending_append m old _ _ _ hnew
  rw [← hopened, ← hold, ← h.pending] at hpending
  rw [← hof.last, ← hof.round] at hstatus
  unfold Timetable.advance
  rcases hsettled with ⟨rfl, rfl, rfl, -⟩ | ⟨rfl, rfl, value, -, rfl, -⟩
  · have hlt : slot.round < slot.last := Status.before_eq_more.mp hstatus.symm
    obtain ⟨hdue, hlast, hopenings⟩ := hmore rfl
    rw [if_pos hlt]
    refine ⟨⟨h.schedule, ⟨_, hopened⟩, by simpa using hpending.symm⟩, .cons ?_ .nil⟩
    refine ⟨hof.id, congrArg (· + 1) hof.round, hof.last.trans hlast.symm, ?_, hdue⟩
    exact hof.opens.trans (congrArg (fun k => decide (k ≠ 0)) hopenings.symm)
  · have hge : ¬ slot.round < slot.last := Nat.not_lt.mpr (Status.before_eq_done.mp hstatus.symm)
    rw [if_neg hge]
    refine ⟨⟨?_, ⟨_, hopened⟩, ?_⟩, .nil⟩
    · rw [hof.id]
      exact h.schedule.complete _ _ _
    · rw [hpending, hof.opens]
      simp

/-- A new check goes on if there is something to check. -/
theorem start_check {id : NodeId} {still : List (InFlight m)} (h : t.Follows s e)
    (hadvance : Evaluator.advance s ⟨id, .macCheck {}, 0⟩ e = .finished (.ok (s', still), e')) :
    let begun := Timetable.advance { t with pending := false }
      { id, round := 0, last := if t.pending then 4 * exchanges n else 0, opens := false }
    begun.1.Follows s' e' ∧ List.Forall₂ (Slot.Of n) begun.2 still := by
  obtain ⟨status, gate, hround, hsettled⟩ := advance_eq_ok hadvance
  obtain ⟨hopened, hstatus, hmore⟩ := Gate.evaluate_new_check n hround
  have hentries : ∃ entries, e'.participant.pool.opened = .ofEntries entries := ⟨[], hopened⟩
  have hpending : false = e'.participant.pool.opened.hasPending := by
    rw [hopened]
    rfl
  rw [← h.pending] at hstatus
  unfold Timetable.advance
  rcases hsettled with ⟨rfl, rfl, rfl, -⟩ | ⟨rfl, rfl, value, -, rfl, -⟩
  · cases hpends : t.pending with
    | false =>
      rw [hpends] at hstatus
      cases hstatus
    | true =>
      have hlast : 0 < 4 * exchanges n := Nat.succ_pos _
      obtain ⟨hdue, hround', hnothing⟩ := hmore rfl
      simp only [if_true, hlast]
      refine ⟨⟨h.schedule, hentries, hpending⟩, .cons ⟨rfl, rfl, hround'.symm, ?_, hdue⟩ .nil⟩
      rw [hnothing]
      rfl
  · cases hpends : t.pending with
    | false => exact ⟨⟨h.schedule.complete _ _ _, hentries, hpending⟩, .nil⟩
    | true =>
      have hlast : 0 < 4 * exchanges n := Nat.succ_pos _
      rw [hpends, if_pos rfl, Status.before_of_lt hlast] at hstatus
      cases hstatus

/-- A node is started as its operation says. -/
theorem start {id : NodeId} {gate : Gate m} {still : List (InFlight m)} (h : t.Follows s e)
    (hparties : e.participant.pool.parties = n) (hgate : s.gate id = .ok gate)
    (hadvance : Evaluator.advance s ⟨id, gate, 0⟩ e = .finished (.ok (s', still), e')) :
    (t.start n id).1.Follows s' e' ∧ List.Forall₂ (Slot.Of n) (t.start n id).2 still := by
  unfold Schedule.gate at hgate
  rw [← h.schedule.circuit] at hgate
  unfold Timetable.start
  cases hop : t.schedule.circuit.operation? id with
  | none =>
    rw [hop] at hgate
    cases hgate
  | some op =>
    rw [hop] at hgate
    dsimp only at hgate ⊢
    obtain ⟨hopenings, hsupplied, -⟩ := Gate.instantiate_eq_ok hgate
    obtain ⟨hother, hcheck⟩ := Gate.kind_of_instantiate (n := n) hgate t.pending
    cases hkind : op.isCheck with
    | false =>
      obtain ⟨hnone, hlast⟩ := hother hkind
      rw [Bool.not_false, Bool.and_true]
      refine h.advance ⟨rfl, rfl, hlast.symm, ?_, hsupplied, fun p hp => ?_⟩ hparties hadvance
      · exact congrArg (fun k => decide (k ≠ 0)) hopenings.symm
      · have hp : gate = .macCheck p := hp
        rw [hp] at hnone
        cases hnone
    | true =>
      obtain rfl := hcheck hkind
      obtain ⟨after, rfl⟩ : ∃ after, op = .macCheck after := by
        cases op <;> first | exact ⟨_, rfl⟩ | cases hkind
      rw [Bool.not_true, Bool.and_false]
      exact h.start_check hadvance

end Follows

end Timetable

end JointCircuit
