/-
JointCircuit.Protocol.Reveal — make a shared value known to everyone.

Every party sends its part and adds up all parts. The result is what
the peers made of it: it is recorded for the next check and can be
trusted only after that.
-/
import JointCircuit.Protocol.Basic

namespace JointCircuit

/-- The state of an opening. -/
structure Reveal (m : Modulus) where
  share : AuthShare m
  output : Option (Element m) := none
deriving DecidableEq

namespace Reveal

variable {m : Modulus}

/-- Round 0 sends the own part; later rounds add up all parts. -/
def evaluate (round : Nat) : Round m (Reveal m) Status := do
  let p ← Round.protocol
  match round with
  | 0 =>
    Round.mailbox (Mailbox.sendToAll p.share.share.toBytes)
    return .more
  | _ =>
    let parts ← Round.mailbox Mailbox.receiveFromAll
    let value ← Action.ofExcept .wire (sumEncoded m parts)
    Round.pool (Pool.pushOpened [p.share] [value])
    Round.update ({ · with output := some value.effective })
    return .done

/-- Take the opened value, reduced to its effective width. -/
def out (p : Reveal m) : Option (Element m) × Reveal m :=
  (p.output, { p with output := none })

instance : Protocol m (Reveal m) (Element m) := ⟨evaluate, out⟩

end Reveal

end JointCircuit
