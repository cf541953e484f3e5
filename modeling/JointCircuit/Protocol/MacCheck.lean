/-
JointCircuit.Protocol.MacCheck — verify everything opened so far at once.

The store is drained first and a fresh joint seed is tossed after that,
so the coefficients that combine the entries are fixed only when the
entries are. Each party commits to its term of the check, and the batch
is accepted only if the opened terms sum to zero. Without entries there
is nothing to do.
-/
import JointCircuit.Protocol.CoinToss

namespace JointCircuit

/-- Where a check stands. -/
inductive MacCheck.Phase (m : Modulus) where
  | start
  | seeding (shares : List (AuthShare m)) (values : List (Element m)) (toss : CoinToss)
  | checking (commit : Commit)
  | finished
deriving DecidableEq

/-- The state of a check. -/
structure MacCheck (m : Modulus) where
  phase : MacCheck.Phase m := .start
  /-- The round in which the phase began. -/
  phaseStart : Nat := 0
  output : Option Unit := none
deriving DecidableEq

namespace MacCheck

variable {m : Modulus}

/-- Drain the store. Without entries the check is over. -/
def begin (round : Nat) : Round m (MacCheck m) Status := do
  let (shares, values) ← Round.pool Pool.drainOpened
  if shares.isEmpty then
    Round.update ({ · with phase := .finished, output := some () })
    return .done
  else
    Round.update ({ · with phase := .seeding shares values {}, phaseStart := round })
    return .more

/-- The own term of the check, with coefficients from the freshly seeded joint generator. -/
def term (shares : List (AuthShare m)) (values : List (Element m)) (seed : Seed) :
    Action (Pool m) (Element m) := do
  Pool.installJointSeed seed
  let coefficients ← Pool.drawJoint (Draw.replicate (Draw.element m) shares.length)
  return checkTerm (← get).keyShare shares values coefficients

/-- A round of the coin toss. When the seed is known, the commitment to the own term goes out
within the same round. -/
def evaluateSeeding (round elapsed : Nat) (shares : List (AuthShare m)) (values : List (Element m))
    (toss : CoinToss) : Round m (MacCheck m) Status := do
  let store (t : CoinToss) (p : MacCheck m) : MacCheck m :=
    { p with phase := .seeding shares values t }
  match ← Round.within toss store (do return (← CoinToss.evaluate elapsed, ← Round.protocol)) with
  | (.more, _) => return .more
  | (.done, toss) =>
    let (seed, toss) := toss.out
    Round.update (store toss)
    match seed with
    | none => throw (.protocol .tossWithoutSeed)
    | some seed =>
      let own ← Round.pool (term shares values seed)
      let proceed (c : Commit) (p : MacCheck m) : MacCheck m :=
        { p with phase := .checking c, phaseStart := round }
      let _ ← Round.within (.new own.toBytes) proceed (Commit.evaluate 0)
      return .more

/-- A round of the commitment to the terms, and the verdict when they are open. -/
def evaluateChecking (elapsed : Nat) (commit : Commit) : Round m (MacCheck m) Status := do
  let store (c : Commit) (p : MacCheck m) : MacCheck m := { p with phase := .checking c }
  match ← Round.within commit store (do return (← Commit.evaluate elapsed, ← Round.protocol)) with
  | (.more, _) => return .more
  | (.done, commit) =>
    let (terms, commit) := commit.out
    Round.update (store commit)
    let sum ← Action.ofExcept .wire (sumEncoded m (terms.getD []))
    if sum = 0 then
      Round.update ({ · with phase := .finished, output := some () })
      return .done
    else
      throw (.malicious .macCheckFailed)

/-- A round; the first one evaluated drains the store, whatever its number. -/
def evaluate (round : Nat) : Round m (MacCheck m) Status := do
  if (← Round.protocol).phase = .start then
    if (← begin round) = .done then return .done
  let p ← Round.protocol
  let elapsed := roundsSince p.phaseStart round
  match p.phase with
  | .seeding shares values toss => evaluateSeeding round elapsed shares values toss
  | .checking commit => evaluateChecking elapsed commit
  | .start => throw (.protocol .checkFinished)
  | .finished => throw (.protocol .checkFinished)

/-- Take the completion mark. -/
def out (p : MacCheck m) : Option Unit × MacCheck m :=
  (p.output, { p with output := none })

instance : Protocol m (MacCheck m) Unit := ⟨evaluate, out⟩

end MacCheck

end JointCircuit
