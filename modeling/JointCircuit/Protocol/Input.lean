/-
JointCircuit.Protocol.Input — share a value that one party holds.

The owner sends everyone its value less a mask that only it knows. The
mask is shared beforehand, so adding the masked value as a public
constant to the shared mask shares the value itself. With three or more
parties digests of the masked value are compared, so the owner cannot
give different parties different ones.
-/
import JointCircuit.Protocol.Broadcast

namespace JointCircuit

/-- The state of an input. -/
structure Input (m : Modulus) where
  owner : Nat
  /-- The value, at the owner, until it is sent. -/
  value : Option (Element m)
  mask : Option (InputMask m) := none
  masked : Option (Element m) := none
  digest : Bytes := []
  output : Option (AuthShare m) := none
deriving DecidableEq

namespace Input

variable {m : Modulus}

/-- An input of `owner`; only the owner's value is ever read. -/
def new (owner : Nat) (value : Option (Element m)) : Input m :=
  { owner, value }

/-- Draw the mask and, at the owner, send the masked value. -/
def sendMasked : Round m (Input m) Unit := do
  let p ← Round.protocol
  let mask ← Round.pool (Pool.nextMask p.owner)
  if (← Round.pool get).party = p.owner then
    Round.update ({ · with value := none })
    match p.value with
    | none => throw (.circuit (.missingInput p.owner))
    | some value =>
      match mask.plaintext with
      | none => throw (.protocol .maskWithoutPlaintext)
      | some plaintext => Round.mailbox (Mailbox.sendToAll (Element.toBytes (value - plaintext)))
  Round.update ({ · with mask := some mask })

/-- Add the masked value to the shared mask. Both are used up. -/
def finish : Round m (Input m) Unit := do
  let p ← Round.protocol
  Round.update ({ · with mask := none })
  match p.mask with
  | none => throw (.protocol .maskNotDrawn)
  | some mask =>
    Round.update ({ · with masked := none })
    match p.masked with
    | none => throw (.protocol .maskedNotReceived)
    | some masked =>
      let pool ← Round.pool get
      Round.update ({ · with output := some (mask.mask.addPublic masked pool.keyShare pool.party) })

/-- Round 0 masks, round 1 receives the masked value, and later rounds compare digests. -/
def evaluate (round : Nat) : Round m (Input m) Status := do
  match round with
  | 0 =>
    sendMasked
    return .more
  | 1 =>
    let bytes ← Round.mailbox (Mailbox.receive (← Round.protocol).owner)
    let masked ← Action.ofExcept .wire (Element.ofBytes m bytes)
    Round.update ({ · with masked := some masked })
    if needsValidation (← Round.pool get).parties then
      let digest ← Round.sendDigest [bytes]
      Round.update ({ · with digest })
      return .more
    else
      finish
      return .done
  | _ =>
    Round.compareDigests (← Round.protocol).digest
    finish
    return .done

/-- Take the share of the value. -/
def out (p : Input m) : Option (AuthShare m) × Input m :=
  (p.output, { p with output := none })

instance : Protocol m (Input m) (AuthShare m) := ⟨evaluate, out⟩

end Input

end JointCircuit
