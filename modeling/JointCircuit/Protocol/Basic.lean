/-
JointCircuit.Protocol.Basic — protocols that proceed in rounds.

A protocol is a state that a participant evaluates once per round. A
round first takes what the peers sent in the round before, then queues
messages of its own; the round that reports `done` queues none. The
state is kept also when a round fails, and the result is handed out
once.
-/
import JointCircuit.Pool
import JointCircuit.Mailbox

namespace JointCircuit

/-- A party at work: its pool and its mailbox. -/
structure Participant (m : Modulus) where
  pool : Pool m
  mailbox : Mailbox
deriving DecidableEq

/-- The participant that owns a pool, before any round. -/
def Participant.new {m : Modulus} (pool : Pool m) : Participant m :=
  ⟨pool, .new pool.party pool.parties⟩

/-- Outcome of a round: the protocol goes on, or has its result. -/
inductive Status where
  | more
  | done
deriving DecidableEq, Repr

/-- A step of a protocol with state `π`, run by a participant. -/
abbrev Round (m : Modulus) (π : Type) := Action (π × Participant m)

namespace Round

variable {m : Modulus} {π ρ α : Type}

/-- Act on the pool. -/
def pool (act : Action (Pool m) α) : Round m π α :=
  .within (·.2.pool) (fun pool s => (s.1, { s.2 with pool })) act

/-- Act on the mailbox. -/
def mailbox (act : Action Mailbox α) : Round m π α :=
  .within (·.2.mailbox) (fun mailbox s => (s.1, { s.2 with mailbox })) act

/-- The state of the protocol. -/
def protocol : Round m π π := do
  return (← get).1

/-- Change the state of the protocol. -/
def update (f : π → π) : Round m π Unit :=
  modify fun s => (f s.1, s.2)

/-- Evaluate a protocol that is part of this one: start from `inner` and store what is left
by `put`. -/
def within (inner : ρ) (put : ρ → π → π) (act : Round m ρ α) : Round m π α :=
  Action.within (fun s => (inner, s.2)) (fun t s => (put t.1 s.1, t.2)) act

end Round

/-- A protocol with states `π` and results `ρ`. -/
class Protocol (m : Modulus) (π : Type) (ρ : outParam Type) where
  /-- Evaluate the round with this number, from 0. -/
  evaluate : (round : Nat) → Round m π Status
  /-- Take the result out, if there is one. -/
  out : π → Option ρ × π

/-- No protocol goes on past this round: the longest is a check with three or more parties,
a coin toss of four exchanges followed by a commitment of four. -/
def lastRound : Nat := 8

/-- Rounds since a phase began, on a counter of 64 bits: a round before the start counts as one
that no phase reaches. -/
def roundsSince (start round : Nat) : Nat :=
  if start ≤ round then round - start else Bytes.capacity 8 + round - start

theorem roundsSince_of_le {start round : Nat} (h : start ≤ round) :
    roundsSince start round = round - start :=
  if_pos h

/-- The sum of the elements that messages encode; the first malformed message is reported. -/
def sumEncoded (m : Modulus) (messages : List Bytes) : Except WireError (Element m) :=
  messages.foldlM (fun acc bytes => (acc + ·) <$> Element.ofBytes m bytes) 0

end JointCircuit
