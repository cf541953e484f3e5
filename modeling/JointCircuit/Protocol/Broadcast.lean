/-
JointCircuit.Protocol.Broadcast — every party sends one message to all.

With three or more parties a peer could send different messages to
different parties, so the parties then exchange digests of what they
received and compare them. With two parties nobody can be shown
something else.
-/
import JointCircuit.Protocol.Basic
import JointCircuit.Digest.Framing

namespace JointCircuit

/-- Whether received broadcasts have to be compared. -/
def needsValidation (parties : Nat) : Bool :=
  3 ≤ parties

namespace Round

variable {m : Modulus} {π : Type}

/-- Send everyone the digest of what was received, and keep it for comparison. -/
def sendDigest (messages : List Bytes) : Round m π Bytes := do
  let digest := Digest.ofMessages messages
  mailbox (Mailbox.sendToAll digest)
  return digest

/-- Take everyone's digest; all of them have to be equal to the own one. -/
def compareDigests (digest : Bytes) : Round m π Unit := do
  let digests ← mailbox Mailbox.receiveFromAll
  match digests.findIdx? (· != digest) with
  | none => return ()
  | some i => throw (.malicious (.digestMismatch (i + 1)))

end Round

/-- The state of a broadcast. -/
structure Broadcast where
  /-- The own message, until it is sent. -/
  message : Option Bytes
  /-- The messages of all parties, once received. -/
  received : Option (List Bytes) := none
  digest : Bytes := []
deriving DecidableEq

namespace Broadcast

variable {m : Modulus}

/-- A broadcast of one's own message. -/
def new (message : Bytes) : Broadcast :=
  { message := some message }

/-- Round 0 sends, round 1 receives, and later rounds compare digests. -/
def evaluate (round : Nat) : Round m Broadcast Status := do
  match round with
  | 0 =>
    let b ← Round.protocol
    Round.update ({ · with message := none })
    Round.mailbox (Mailbox.sendToAll (b.message.getD []))
    return .more
  | 1 =>
    let received ← Round.mailbox Mailbox.receiveFromAll
    if needsValidation (← Round.pool get).parties then
      let digest ← Round.sendDigest received
      Round.update ({ · with digest, received := some received })
      return .more
    else
      Round.update ({ · with received := some received })
      return .done
  | _ =>
    Round.compareDigests (← Round.protocol).digest
    return .done

/-- Take the received messages, in party order. -/
def out (b : Broadcast) : Option (List Bytes) × Broadcast :=
  (b.received, { b with received := none })

instance : Protocol m Broadcast (List Bytes) := ⟨evaluate, out⟩

end Broadcast

end JointCircuit
