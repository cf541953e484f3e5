/-
JointCircuit.Protocol.Task — any one protocol, with its result.

The gates of a circuit together with the protocols that only occur
inside or between them, so that each can also be run by itself.
-/
import JointCircuit.Protocol.Gate

namespace JointCircuit

/-- Any protocol. -/
inductive Task (m : Modulus) where
  | gate (p : Gate m)
  | broadcast (p : Broadcast)
  | commit (p : Commit)
  | coinToss (p : CoinToss)
deriving DecidableEq

/-- The result of any protocol. -/
inductive TaskResult (m : Modulus) where
  | value (value : Value m)
  | messages (messages : List Bytes)
  | seed (seed : Seed)
deriving DecidableEq

namespace Task

variable {m : Modulus}

/-- A round of the protocol. -/
def evaluate (round : Nat) : Round m (Task m) Status := do
  match ← Round.protocol with
  | .gate p => Round.within p (fun q _ => .gate q) (Gate.evaluate round)
  | .broadcast p => Round.within p (fun q _ => .broadcast q) (Broadcast.evaluate round)
  | .commit p => Round.within p (fun q _ => .commit q) (Commit.evaluate round)
  | .coinToss p => Round.within p (fun q _ => .coinToss q) (CoinToss.evaluate round)

/-- Take the result. -/
def out : Task m → Option (TaskResult m) × Task m
  | .gate p => (p.out.1.map .value, .gate p.out.2)
  | .broadcast p => (p.out.1.map .messages, .broadcast p.out.2)
  | .commit p => (p.out.1.map .messages, .commit p.out.2)
  | .coinToss p => (p.out.1.map .seed, .coinToss p.out.2)

instance : Protocol m (Task m) (TaskResult m) := ⟨evaluate, out⟩

end Task

end JointCircuit
