/-
JointCircuit.Proofs.Trace — everything a party does, also when it fails.

A party alternates between rounds of protocols and exchanges. A trace
keeps both, cut into legs at the exchanges: a leg begins with what was
exchanged and goes on with the rounds that were evaluated after it (§1).
The scribe of a trace notes every round, and `Extends` says that a trace
goes on with as many exchanges as there were replies.

For what holds along every trace of a circuit it suffices to know what
the single steps of its gates preserve (`Upkeep`, §2); a computation that
goes on for too long can be told from its trace.

Main statement: `Upkeep.keeps_runGates`.
-/
import JointCircuit.Proofs.Conduct
import JointCircuit.Proofs.Tracing

namespace JointCircuit

variable {m : Modulus}

/-! ## §1 Traces -/

/-- The rounds between two exchanges, in order. -/
structure Leg (m : Modulus) where
  /-- The exchange before the rounds; the first leg has none. -/
  opening : Option (Exchanged m)
  rounds : List (Played m) := []

/-- What a party has done so far. -/
structure Trace (m : Modulus) where
  /-- The legs that ended with an exchange. -/
  past : List (Leg m) := []
  now : Leg m := { opening := none }
  /-- The nodes completed, each with the schedule just before. -/
  completed : List (NodeId × Schedule m) := []
  /-- The participant when every node had its value. -/
  finished : Option (Participant m) := none

namespace Trace

/-- All legs, in order. -/
def legs (t : Trace m) : List (Leg m) :=
  t.past ++ [t.now]

/-- All rounds, in order. -/
def played (t : Trace m) : List (Played m) :=
  t.legs.flatMap (·.rounds)

/-- The replies to the exchanges, in order. -/
def replies (t : Trace m) : List (Except TransportError Delivery) :=
  t.legs.flatMap fun leg => (leg.opening.map (·.reply)).toList

/-- A round is evaluated. -/
def play (t : Trace m) (round : Played m) : Trace m :=
  { t with now := { t.now with rounds := t.now.rounds ++ [round] } }

/-- Frames are exchanged. -/
def exchange (t : Trace m) (exchanged : Exchanged m) : Trace m :=
  { t with past := t.past ++ [t.now], now := { opening := some exchanged } }

/-- A node is completed. -/
def complete (t : Trace m) (id : NodeId) (s : Schedule m) : Trace m :=
  { t with completed := t.completed ++ [(id, s)] }

/-- Every node has its value. -/
def finish (t : Trace m) (w : Participant m) : Trace m :=
  { t with finished := some w }

variable (t : Trace m) (round : Played m) (exchanged : Exchanged m)

@[simp] theorem past_play : (t.play round).past = t.past := rfl

@[simp] theorem past_exchange : (t.exchange exchanged).past = t.past ++ [t.now] := rfl

@[simp] theorem played_play : (t.play round).played = t.played ++ [round] := by
  simp [played, legs, play]

@[simp] theorem played_exchange : (t.exchange exchanged).played = t.played := by
  simp [played, legs, exchange]

@[simp] theorem replies_play : (t.play round).replies = t.replies := by
  simp [replies, legs, play]

@[simp] theorem replies_exchange :
    (t.exchange exchanged).replies = t.replies ++ [exchanged.reply] := by
  simp [replies, legs, exchange]

/-- The trace goes on, and its exchanges are answered by these replies. -/
structure Extends (replies : List (Except TransportError Delivery)) (t t' : Trace m) : Prop where
  replies_eq : t'.replies = t.replies ++ replies
  exchanges_eq : t'.past.length = t.past.length + replies.length
  played_prefix : t.played <+: t'.played

namespace Extends

variable {t}

theorem refl (t : Trace m) : Extends [] t t :=
  ⟨(List.append_nil _).symm, rfl, List.prefix_refl _⟩

theorem trans {replies replies' : List (Except TransportError Delivery)} {t' t'' : Trace m}
    (h : Extends replies t t') (h' : Extends replies' t' t'') :
    Extends (replies ++ replies') t t'' :=
  ⟨by rw [h'.replies_eq, h.replies_eq, List.append_assoc],
   by rw [h'.exchanges_eq, h.exchanges_eq, List.length_append, Nat.add_assoc],
   h.played_prefix.trans h'.played_prefix⟩

/-- What is noted beside the legs does not matter. -/
theorem same {t' : Trace m} (hreplies : t'.replies = t.replies) (hpast : t'.past = t.past)
    (hplayed : t'.played = t.played) : Extends [] t t' :=
  ⟨by rw [hreplies, List.append_nil], by rw [hpast]; rfl, by rw [hplayed]⟩

theorem play (t : Trace m) (round : Played m) : Extends [] t (t.play round) :=
  ⟨by simp, rfl, by simp⟩

theorem exchange (t : Trace m) (exchanged : Exchanged m) :
    Extends [exchanged.reply] t (t.exchange exchanged) :=
  ⟨by simp, by simp, by simp⟩

end Extends

end Trace

/-- Everything is noted but the values of the nodes. -/
instance : Scribe m (Trace m) where
  played round _ t := t.play round
  exchanged x t := t.exchange x
  completed id _ s t := t.complete id s
  finished w t := t.finish w
  Extends := Trace.Extends
  refl := .refl
  trans := .trans
  extends_played round _ t := .play t round
  extends_exchanged x t := .exchange t x
  extends_started _ _ := .refl
  extends_completed id _ s t := .same (by simp [Trace.complete, Trace.replies, Trace.legs]) rfl rfl
  extends_paused _ _ := .refl
  extends_finished w t := .same (by simp [Trace.finish, Trace.replies, Trace.legs]) rfl rfl

namespace Trace

variable (t : Trace m)

@[simp] theorem scribe_played (round : Played m) (outcome : Except Fault Status) :
    Scribe.played round outcome t = t.play round := rfl

@[simp] theorem scribe_exchanged (exchanged : Exchanged m) :
    Scribe.exchanged exchanged t = t.exchange exchanged := rfl

@[simp] theorem scribe_completed (id : NodeId) (value : Value m) (s : Schedule m) :
    Scribe.completed id value s t = t.complete id s := rfl

@[simp] theorem scribe_finished (w : Participant m) : Scribe.finished w t = t.finish w := rfl

end Trace

namespace Evaluator

namespace Traced

/-! ## §2 The gates of a circuit -/

/-- An exchange closes a leg. -/
theorem keeps_flush_length (due : List (Task m × Nat)) (k : Nat) :
    Keeps (fun _ _ _ => True) (fun _ (t : Trace m) => t.past.length = k) (flush due)
      fun _ _ t => t.past.length = k + 1 :=
  keeps_flush (fun _ _ _ _ _ _ => trivial) (fun _ _ _ _ _ _ _ => trivial)
    (fun _ _ _ _ _ _ _ _ _ _ => trivial) fun e t _ _ _ _ h _ _ => by simp [h]

section Upkeep

variable {fails : Fault → Evaluator m → Trace m → Prop}
variable {P : Schedule m → List (InFlight m) → List (InFlight m) → Evaluator m → Trace m → Prop}
variable {c : Circuit m} {limit : Nat}

/-- What single steps preserve. `P s still todo` is about a point inside a round, where the gates
`still` go on in the next round and the gates `todo` are yet to be evaluated in this one; a
computation that goes on for more than `limit` exchanges is given up. -/
structure Upkeep (c : Circuit m) (limit : Nat) (fails : Fault → Evaluator m → Trace m → Prop)
    (P : Schedule m → List (InFlight m) → List (InFlight m) → Evaluator m → Trace m → Prop) :
    Prop where
  more {s : Schedule m} {still rest : List (InFlight m)} {flight : InFlight m} {e : Evaluator m}
    {t : Trace m} {gate : Gate m} {w : Participant m} (h : P s still (flight :: rest) e t)
    (underway : Underway c s (still ++ flight :: rest))
    (hround : Gate.evaluate flight.round (flight.gate, e.participant) = .ok .more (gate, w)) :
    P s (still ++ [{ flight with gate, round := flight.round + 1 }]) rest
      { e with participant := w } (t.play (flight.played e.participant (gate, w)))
  done {s : Schedule m} {still rest : List (InFlight m)} {flight : InFlight m} {e : Evaluator m}
    {t : Trace m} {gate : Gate m} {w : Participant m} {value : Value m}
    (h : P s still (flight :: rest) e t) (underway : Underway c s (still ++ flight :: rest))
    (hround : Gate.evaluate flight.round (flight.gate, e.participant) = .ok .done (gate, w))
    (hout : gate.out.1 = some value) :
    P (s.complete flight.id value) still rest
      { e with participant := w, protocols := e.protocols + 1 }
      ((t.play (flight.played e.participant (gate, w))).complete flight.id s)
  silent {s : Schedule m} {still rest : List (InFlight m)} {flight : InFlight m} {e : Evaluator m}
    {t : Trace m} {gate : Gate m} {w : Participant m} (h : P s still (flight :: rest) e t)
    (underway : Underway c s (still ++ flight :: rest))
    (hround : Gate.evaluate flight.round (flight.gate, e.participant) = .ok .done (gate, w))
    (hout : gate.out.1 = none) :
    fails (.protocol (.nodeWithoutOutput flight.id)) { e with participant := w }
      (t.play (flight.played e.participant (gate, w)))
  failed {s : Schedule m} {still rest : List (InFlight m)} {flight : InFlight m} {e : Evaluator m}
    {t : Trace m} {gate : Gate m} {w : Participant m} {fault : Fault}
    (h : P s still (flight :: rest) e t) (underway : Underway c s (still ++ flight :: rest))
    (hround : Gate.evaluate flight.round (flight.gate, e.participant) = .error fault (gate, w)) :
    fails fault { e with participant := w } (t.play (flight.played e.participant (gate, w)))
  start {s : Schedule m} {still : List (InFlight m)} {id : NodeId} {rest : List NodeId}
    {gate : Gate m} {e : Evaluator m} {t : Trace m} (h : P s still [] e t)
    (underway : Underway c s still) (hready : s.ready = id :: rest)
    (hgate : s.gate id = .ok gate) :
    P { s with ready := rest } still [{ id, gate, round := 0 }] e t
  misfit {s : Schedule m} {still : List (InFlight m)} {id : NodeId} {rest : List NodeId}
    {error : CircuitError} {e : Evaluator m} {t : Trace m} (h : P s still [] e t)
    (underway : Underway c s still) (hready : s.ready = id :: rest)
    (hgate : s.gate id = .error error) : fails (.circuit error) e t
  flush (s : Schedule m) (flights : List (InFlight m)) (underway : Underway c s flights)
    (hready : s.ready = []) (hflights : flights ≠ []) :
    Keeps fails (P s flights []) (flush (dueNext flights)) fun _ => P s [] flights
  endless {s : Schedule m} {flights : List (InFlight m)} {e : Evaluator m} {t : Trace m}
    (h : P s [] flights e t) (hlimit : t.past.length = limit) :
    fails (.protocol .endless) e t

namespace Upkeep

/-- The exchanges made and the rounds to come are as many as are allowed. -/
theorem invariant (hup : Upkeep c limit fails P) :
    Invariant gateRound c fails fun left s still todo e t =>
      P s still todo e t ∧ t.past.length + left = limit where
  round underway := by
    refine keeps_play (fun e t status gate w h hround => ?_) fun e t fault gate w h hround =>
      hup.failed h.1 underway hround
    cases status with
    | more => exact ⟨hup.more h.1 underway hround, h.2⟩
    | done =>
      unfold AfterRound
      cases hout : gate.out.1 with
      | none => exact hup.silent h.1 underway hround hout
      | some value => exact ⟨hup.done h.1 underway hround hout, h.2⟩
  start h underway hready hgate := ⟨hup.start h.1 underway hready hgate, h.2⟩
  misfit h := hup.misfit h.1
  flush {left s flights} underway hready hflights := by
    refine keeps_at fun e₀ t₀ ⟨_, h, ht⟩ => ?_
    subst ht
    refine (((hup.flush s flights underway hready hflights).and
      (keeps_flush_length _ t₀.past.length)).from_state ⟨h.1, rfl⟩).mono fun _ e t h' => ⟨h'.1, ?_⟩
    rw [h'.2, ← h.2]
    omega
  rest h _ _ := h
  endless h := hup.endless h.1 h.2

/-- Rounds until nothing is in flight: then nothing is ready either. -/
theorem keeps_runGates (hup : Upkeep c limit fails P) {budget k : Nat} (hlimit : k + budget = limit)
    {s : Schedule m} {flights : List (InFlight m)} (underway : Underway c s flights) :
    Keeps fails (fun e t => P s [] flights e t ∧ t.past.length = k)
      (runGates gateRound budget s flights)
      fun s' e t => (Underway c s' [] ∧ s'.ready = []) ∧ P s' [] [] e t := by
  refine ((hup.invariant.keeps_runGates underway).of_pre fun e t h => ⟨h.1, ?_⟩).mono ?_
  · rw [h.2, hlimit]
  · rintro s' e t ⟨hs, left, h, -⟩
    exact ⟨hs, h⟩

/-- What is preserved whatever the limit may be holds without counting the exchanges. -/
theorem keeps_runGates_forall (hup : ∀ limit, Upkeep c limit fails P) {budget : Nat}
    {s : Schedule m} {flights : List (InFlight m)} (underway : Underway c s flights) :
    Keeps fails (P s [] flights) (runGates gateRound budget s flights)
      fun s' e t => (Underway c s' [] ∧ s'.ready = []) ∧ P s' [] [] e t := by
  exact keeps_at fun e₀ t₀ h =>
    ((hup (t₀.past.length + budget)).keeps_runGates rfl underway).from_state ⟨h, rfl⟩

end Upkeep

end Upkeep

end Traced

end Evaluator

end JointCircuit
