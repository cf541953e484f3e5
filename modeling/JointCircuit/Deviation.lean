/-
JointCircuit.Deviation — parties that do not send what they should.

A rule names a party and a round and says how the messages that the
party sends then are corrupted. The rules for a transport count
exchanges; the rules for a single protocol count its rounds, and the
messages a party sends to itself are corrupted as well. A message to
corrupt that is empty has no first or last byte and stays as it is.
-/
import JointCircuit.Lockstep
import JointCircuit.Protocol.Basic

namespace JointCircuit

/-! ## §1 Rules -/

/-- What happens to a message. -/
inductive Corruption where
  /-- The first byte becomes 255. -/
  | sentinel
  /-- The lowest bit of the last byte flips. -/
  | flip
  /-- The last byte is cut off. -/
  | truncate
  /-- A zero byte follows. -/
  | extend
  /-- Another message takes its place. -/
  | replace (message : Bytes)
  | drop
  /-- It is sent twice. -/
  | double
deriving DecidableEq, Repr

/-- What is sent instead of a message. -/
def Corruption.apply : Corruption → Bytes → List Bytes
  | .sentinel, message => [message.modify 0 fun _ => 255]
  | .flip, message => [message.modify (message.length - 1) (· ^^^ 1)]
  | .truncate, message => [message.dropLast]
  | .extend, message => [message ++ [0]]
  | .replace other, _ => [other]
  | .drop, _ => []
  | .double, message => [message, message]

/-- What happens to a frame. -/
inductive FrameCorruption where
  /-- Every message of the frame is corrupted, or the one at a position. -/
  | messages (position : Option Nat) (corruption : Corruption)
  /-- A message is added at the end. -/
  | append (message : Bytes)
deriving DecidableEq, Repr

/-- What is sent instead of a frame. -/
def FrameCorruption.apply : FrameCorruption → Frame → Frame
  | .messages position corruption, frame =>
    frame.zipIdx.flatMap fun (message, i) =>
      if position.all (· = i) then corruption.apply message else [message]
  | .append message, frame => frame ++ [message]

/-- Who deviates, when, towards whom, and how. -/
structure DeviationRule (κ : Type) where
  party : Nat
  round : Nat
  /-- The party deceived; all of them if absent. -/
  towards : Option Nat := none
  corruption : κ
deriving DecidableEq

/-- Whether the frame for a party is corrupted. -/
def DeviationRule.concerns {κ : Type} (rule : DeviationRule κ) (receiver : Nat) : Bool :=
  rule.towards.all (· = receiver)

/-! ## §2 Deviations of a transport -/

namespace Alteration

/-- The frames of one exchange under one rule. -/
def applyRule (party exchange : Nat) (frames : List Frame) (rule : DeviationRule FrameCorruption) :
    List Frame :=
  if rule.party = party ∧ rule.round = exchange then
    (frames.zipIdx 1).map fun (frame, receiver) =>
      if rule.concerns receiver then rule.corruption.apply frame else frame
  else frames

/-- The alteration that applies rules one after another. -/
def ofRules (rules : List (DeviationRule FrameCorruption)) : Alteration :=
  fun party exchange frames => rules.foldl (applyRule party exchange) frames

end Alteration

/-! ## §3 Deviations in a protocol -/

/-- A protocol, the messages of which are corrupted in one round. -/
structure Deviating (π : Type) where
  inner : π
  rule : DeviationRule Corruption
deriving DecidableEq

namespace Deviating

variable {m : Modulus} {π ρ : Type}

/-- Corrupt what was queued since a mailbox was in the state `before`. -/
def corrupt (rule : DeviationRule Corruption) (before after : Mailbox) : Mailbox :=
  let outgoing := (after.outgoing.zipIdx).map fun (frame, i) =>
    let old := (before.outgoing.getD i []).length
    if rule.concerns (i + 1) then frame.take old ++ (frame.drop old).flatMap rule.corruption.apply
    else frame
  { after with outgoing }

/-- Run a step and corrupt what it queues, whether or not it succeeds. -/
def corrupting {α : Type} (rule : DeviationRule Corruption) (step : Round m π α) : Round m π α :=
  fun s =>
    let spoil (t : π × Participant m) : π × Participant m :=
      (t.1, { t.2 with mailbox := corrupt rule s.2.mailbox t.2.mailbox })
    match step s with
    | .ok a t => .ok a (spoil t)
    | .error fault t => .error fault (spoil t)

/-- A round of the protocol, corrupted if the rule says so. -/
def evaluate [Protocol m π ρ] (round : Nat) : Round m (Deviating π) Status := do
  let p ← Round.protocol
  let step : Round m π Status := Protocol.evaluate round
  let deviates := p.rule.round = round ∧ p.rule.party = (← Round.pool get).party
  Round.within p.inner (fun inner p => { p with inner })
    (if deviates then corrupting p.rule step else step)

/-- Take the result. -/
def out [Protocol m π ρ] (p : Deviating π) : Option ρ × Deviating π :=
  let (result, inner) := Protocol.out m p.inner
  (result, { p with inner })

instance [Protocol m π ρ] : Protocol m (Deviating π) ρ := ⟨evaluate, @out m π ρ _⟩

end Deviating

end JointCircuit
