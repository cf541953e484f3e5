/-
JointCircuit.Mailbox — one party's messages of a round.

Protocols queue messages for parties and take what parties sent them, in
the order of sending. Between rounds the queued frames leave together
and the peers' frames arrive together; the frame a party sends to itself
never leaves the mailbox. Frames may leave only when every message of
the round before has been taken.
-/
import JointCircuit.Bytes
import JointCircuit.Action

namespace JointCircuit

/-- The messages one party sends to one peer in a round. -/
abbrev Frame := List Bytes

/-- Queued and received messages of one party, by peer. -/
structure Mailbox where
  /-- The party the mailbox belongs to, from 1. -/
  party : Nat
  /-- Messages queued for each party. -/
  outgoing : List Frame
  /-- Messages received from each party and not yet taken. -/
  incoming : List Frame
  /-- Total length of the messages handed to peers so far. -/
  bytesSent : Nat := 0
deriving DecidableEq

namespace Mailbox

/-- An empty mailbox for a party among `parties`. -/
def new (party parties : Nat) : Mailbox :=
  { party, outgoing := List.replicate parties [], incoming := List.replicate parties [] }

/-- Number of parties reachable. -/
def parties (box : Mailbox) : Nat :=
  box.outgoing.length

/-- Whether any message is queued. -/
def hasOutgoing (box : Mailbox) : Bool :=
  box.outgoing.any (!·.isEmpty)

/-- The error for a received message that nobody took: the first party that has one. -/
def leftover? (box : Mailbox) : Option Violation :=
  match box.incoming.findIdx? (!·.isEmpty) with
  | none => none
  | some i => some (.unconsumed (box.incoming.getD i []).length (i + 1))

/-- Fail if a received message was not taken. -/
def ensureDrained : Action Mailbox Unit := do
  match (← get).leftover? with
  | none => return ()
  | some violation => throw (.protocol violation)

/-- Queue a message for a party. -/
def send (party : Nat) (message : Bytes) : Action Mailbox Unit := do
  let box ← get
  if party = 0 ∨ box.outgoing.length < party then
    throw (.config (.partyOutOfRange party box.outgoing.length))
  set { box with outgoing := box.outgoing.modify (party - 1) (· ++ [message]) }

/-- Queue a message for every party, the own one included. -/
def sendToAll (message : Bytes) : Action Mailbox Unit :=
  modify fun box => { box with outgoing := box.outgoing.map (· ++ [message]) }

/-- Take the next message of a party. -/
def receive (party : Nat) : Action Mailbox Bytes := do
  let box ← get
  if party = 0 ∨ box.incoming.length < party then
    throw (.config (.partyOutOfRange party box.incoming.length))
  match box.incoming.getD (party - 1) [] with
  | [] => throw (.protocol (.noMessage party))
  | message :: rest =>
    set { box with incoming := box.incoming.set (party - 1) rest }
    return message

/-- Take the next message of each party listed, in order. -/
def receiveFrom : List Nat → Action Mailbox (List Bytes)
  | [] => return []
  | party :: rest => do
    let message ← receive party
    let messages ← receiveFrom rest
    return message :: messages

/-- Take the next message of every party, lowest id first. -/
def receiveFromAll : Action Mailbox (List Bytes) := do
  let box ← get
  receiveFrom ((List.range box.parties).map (· + 1))

/-- Take all queued frames, one per party. The own frame is looped back
and the one handed out in its place is empty. -/
def takeOutgoing : Action Mailbox (List Frame) := do
  ensureDrained
  let box ← get
  let own := box.outgoing.getD (box.party - 1) []
  let frames := box.outgoing.set (box.party - 1) []
  set { box with
    outgoing := List.replicate box.parties []
    incoming := box.incoming.modify (box.party - 1) (· ++ own)
    bytesSent := box.bytesSent + frames.flatten.flatten.length }
  return frames

/-- Store frames received from peers. Frames before one of an unknown party are kept. -/
def deliver : List (Nat × Frame) → Action Mailbox Unit
  | [] => return ()
  | (party, frame) :: rest => do
    let box ← get
    if party = 0 ∨ box.incoming.length < party then
      throw (.config (.partyOutOfRange party box.incoming.length))
    set { box with incoming := box.incoming.modify (party - 1) (· ++ frame) }
    deliver rest

end Mailbox

end JointCircuit
