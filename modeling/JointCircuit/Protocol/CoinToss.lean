/-
JointCircuit.Protocol.CoinToss — agree on a random seed.

Every party commits to a seed of its own; the joint seed is the
exclusive or of all of them.
-/
import JointCircuit.Protocol.Commit

namespace JointCircuit

/-- The bytewise exclusive or of two seeds. -/
def Seed.xor (s t : Seed) : Seed :=
  Vector.zipWith (· ^^^ ·) s t

/-- The state of a coin toss. -/
structure CoinToss where
  /-- The commitment to the own seed, once drawn. -/
  commit : Option Commit := none
  output : Option Seed := none
deriving DecidableEq

namespace CoinToss

variable {m : Modulus}

/-- The commitment to the own seed, drawn when it is first needed. -/
def commitment : Round m CoinToss Commit := do
  match (← Round.protocol).commit with
  | some commit => return commit
  | none =>
    let seed ← Round.pool (Pool.drawLocal Draw.seed)
    let commit := Commit.new seed.toList
    Round.update ({ · with commit := some commit })
    return commit

/-- Add up the seeds of party `party` and the parties after it. -/
def combineFrom (party : Nat) (joint : Seed) : List Bytes → Except Misbehaviour Seed
  | [] => .ok joint
  | bytes :: rest =>
    match Seed.ofBytes? bytes with
    | none => .error (.seedLength party bytes.length)
    | some seed => combineFrom (party + 1) (joint.xor seed) rest

/-- The joint seed of all parties' seeds. -/
def combine (seeds : List Bytes) : Except Misbehaviour Seed :=
  combineFrom 1 (Vector.replicate 32 0) seeds

/-- The rounds of the commitment, then the exclusive or. -/
def evaluate (round : Nat) : Round m CoinToss Status := do
  let commit ← commitment
  let store (c : Commit) (p : CoinToss) : CoinToss := { p with commit := some c }
  match ← Round.within commit store (do return (← Commit.evaluate round, ← Round.protocol)) with
  | (.more, _) => return .more
  | (.done, commit) =>
    let (seeds, commit) := commit.out
    Round.update ({ · with commit := some commit })
    let joint ← Action.ofExcept .malicious (combine (seeds.getD []))
    Round.update ({ · with output := some joint })
    return .done

/-- Take the joint seed. -/
def out (p : CoinToss) : Option Seed × CoinToss :=
  (p.output, { p with output := none })

instance : Protocol m CoinToss Seed := ⟨evaluate, out⟩

end CoinToss

end JointCircuit
