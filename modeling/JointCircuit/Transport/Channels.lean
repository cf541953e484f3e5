/-
JointCircuit.Transport.Channels — channels between parties in one process.

Between any two parties there is a channel in each direction. Messages
wait on it until they are taken, in the order in which they were sent.
A party that closes its ends takes nothing more: sending to it fails,
while what it sent before can still be taken, and after that receiving
from it fails too.
-/
import JointCircuit.Bytes
import JointCircuit.Action

namespace JointCircuit

/-- A message on its way. -/
structure Letter where
  sender : Nat
  receiver : Nat
  message : Bytes
deriving DecidableEq, Repr

/-- The channels between all parties. -/
structure Channels where
  parties : Nat
  /-- Parties that closed their ends. -/
  closed : List Nat := []
  /-- Messages that nobody has taken, in the order of sending. -/
  waiting : List Letter := []
deriving DecidableEq, Repr

namespace Channels

/-- Fail unless there is a channel from a party to another. -/
def ensureChannel (party peer : Nat) : Action Channels Unit := do
  if peer = 0 ∨ (← get).parties < peer ∨ peer = party then
    throw (.transport (.missingChannel peer))

/-- Send a message. -/
def send (party peer : Nat) (message : Bytes) : Action Channels Unit := do
  ensureChannel party peer
  let c ← get
  if peer ∈ c.closed then throw (.transport (.send peer))
  set { c with waiting := c.waiting ++ [(⟨party, peer, message⟩ : Letter)] }

/-- Take the first message of a peer, if one has arrived. -/
def receive? (party peer : Nat) : Action Channels (Option Bytes) := do
  ensureChannel party peer
  let c ← get
  match c.waiting.find? fun l => l.sender = peer ∧ l.receiver = party with
  | some letter =>
    set { c with waiting := c.waiting.erase letter }
    return some letter.message
  | none =>
    if peer ∈ c.closed then throw (.transport (.receive peer))
    return none

/-- Close the ends of a party. -/
def close (party : Nat) : Action Channels Unit :=
  modify fun c =>
    { c with
      closed := party :: c.closed
      waiting := c.waiting.filter (·.receiver ≠ party) }

/-- Send to the parties from `peer` on and take a message from each; the result is absent if one
of them has not sent yet. The message at the own place is not sent. -/
def exchangeFrom (party peer : Nat) : List Bytes → Action Channels (Option (List (Nat × Bytes)))
  | [] => return some []
  | message :: rest => do
    if (← get).parties < peer then return some []
    else if peer = party then exchangeFrom party (peer + 1) rest
    else
      send party peer message
      let received ← receive? party peer
      let others ← exchangeFrom party (peer + 1) rest
      return do return (peer, ← received) :: (← others)

/-- Send one message to every peer and take one from each. What was taken stays taken even if
another peer has not sent yet. -/
def exchange (party : Nat) (messages : List Bytes) :
    Action Channels (Option (List (Nat × Bytes))) :=
  exchangeFrom party 1 messages

/-- What became of a party's exchange. -/
inductive Exchanged where
  /-- The party had closed its ends before. -/
  | closed
  | failed (fault : Fault)
  /-- A peer has not sent yet. -/
  | pending
  | received (messages : List (Nat × Bytes))
deriving DecidableEq

/-- The exchanges of the parties from `party` on, tried once each, lowest party first. -/
def exchangeAllFrom (party : Nat) : List (List Bytes) → StateM Channels (List Exchanged)
  | [] => return []
  | messages :: rest => do
    let c ← get
    let (exchanged, after) : Exchanged × Channels :=
      if party ∈ c.closed then (.closed, c)
      else
        match exchange party messages c with
        | .ok (some received) after => (.received received, after)
        | .ok none after => (.pending, after)
        | .error fault after => (.failed fault, after)
    set after
    let others ← exchangeAllFrom (party + 1) rest
    return exchanged :: others

/-- The exchanges of all parties at once, given their messages; lists beyond the last party are
nobody's. There is no result if one of them cannot finish, but what the others sent and took stays
so. -/
def exchangeAll (messages : List (List Bytes)) : StateM Channels (Option (List Exchanged)) := do
  let exchanged ← exchangeAllFrom 1 (messages.take (← get).parties)
  return if Exchanged.pending ∈ exchanged then none else some exchanged

/-- The first peer of a party to whom there is no channel, given which channels are present. -/
def firstMissing? (present : List Bool) (party : Nat) : Option Nat :=
  ((present.zipIdx 1).find? fun (there, peer) => peer ≠ party && !there).map (·.2)

end Channels

end JointCircuit
