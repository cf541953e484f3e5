/-
JointCircuit.Protocol.Commit — everyone fixes a value before any is shown.

Each party broadcasts the digest of its value followed by 32 random
bytes, and only when all commitments are in does it broadcast the value
and the bytes. An opening that does not hash to the commitment of the
same party is refused. The openings go out in the round in which the
commitments are complete.
-/
import JointCircuit.Protocol.Broadcast

namespace JointCircuit

/-- Where a commitment stands. -/
inductive Commit.Phase where
  | start
  | commitments (broadcast : Broadcast)
  | openings (broadcast : Broadcast)
  | finished
deriving DecidableEq

/-- The state of a commitment. -/
structure Commit where
  value : Bytes
  /-- The value and its randomness, until they are broadcast. -/
  opening : Bytes := []
  phase : Commit.Phase := .start
  /-- The round in which the phase began. -/
  phaseStart : Nat := 0
  commitments : List Bytes := []
  output : Option (List Bytes) := none
deriving DecidableEq

namespace Commit

variable {m : Modulus}

/-- Number of random bytes appended to a value. -/
def randomnessLength : Nat := 32

/-- A commitment to one's own value. -/
def new (value : Bytes) : Commit :=
  { value }

/-- Draw the randomness and begin to broadcast the commitment. -/
def begin (round : Nat) : Round m Commit Unit := do
  let randomness ← Round.pool (Pool.drawLocal (Draw.bytes randomnessLength))
  Round.update fun p =>
    let opening := p.value ++ randomness
    { p with
      opening
      phase := .commitments (.new (Digest.commitment opening))
      phaseStart := round }

/-- The value in an opening that hashes to a commitment. -/
def openingValue? (opening commitment : Bytes) : Option Bytes :=
  if randomnessLength ≤ opening.length ∧ Digest.commitment opening = commitment then
    some (opening.take (opening.length - randomnessLength))
  else none

/-- The values in the openings of party `party` and the parties after it. -/
def verifyFrom (party : Nat) : List (Bytes × Bytes) → Except Misbehaviour (List Bytes)
  | [] => .ok []
  | (opening, commitment) :: rest =>
    match openingValue? opening commitment with
    | none => .error (.openingMismatch party)
    | some value => (value :: ·) <$> verifyFrom (party + 1) rest

/-- Take what a broadcast received, storing the broadcast back by `put`. -/
def takeReceived (broadcast : Broadcast) (put : Broadcast → Phase) :
    Round m Commit (List Bytes) := do
  let (received, broadcast) := broadcast.out
  Round.update ({ · with phase := put broadcast })
  return received.getD []

/-- A round of the commitment phase. When the commitments of all parties are in, the openings
start within the same round. -/
def evaluateCommitments (round elapsed : Nat) (broadcast : Broadcast) : Round m Commit Status := do
  let store (b : Broadcast) (p : Commit) : Commit := { p with phase := .commitments b }
  match ← Round.within broadcast store
    (do return (← Broadcast.evaluate elapsed, ← Round.protocol)) with
  | (.more, _) => return .more
  | (.done, broadcast) =>
    let commitments ← takeReceived broadcast .commitments
    match commitments.findIdx? (·.length ≠ digestLength) with
    | some i => throw (.malicious (.commitmentLength (i + 1)))
    | none =>
      let opening := (← Round.protocol).opening
      Round.update ({ · with commitments, opening := [] })
      let proceed (b : Broadcast) (p : Commit) : Commit :=
        { p with phase := .openings b, phaseStart := round }
      let _ ← Round.within (.new opening) proceed (Broadcast.evaluate 0)
      return .more

/-- A round of the opening phase. -/
def evaluateOpenings (elapsed : Nat) (broadcast : Broadcast) : Round m Commit Status := do
  let store (b : Broadcast) (p : Commit) : Commit := { p with phase := .openings b }
  match ← Round.within broadcast store
    (do return (← Broadcast.evaluate elapsed, ← Round.protocol)) with
  | (.more, _) => return .more
  | (.done, broadcast) =>
    let openings ← takeReceived broadcast .openings
    let commitments := (← Round.protocol).commitments
    let values ← Action.ofExcept .malicious (verifyFrom 1 (openings.zip commitments))
    Round.update ({ · with output := some values, phase := .finished })
    return .done

/-- A round; the first one evaluated begins the commitment, whatever its number. -/
def evaluate (round : Nat) : Round m Commit Status := do
  if (← Round.protocol).phase = .start then begin round
  let p ← Round.protocol
  let elapsed := roundsSince p.phaseStart round
  match p.phase with
  | .commitments broadcast => evaluateCommitments round elapsed broadcast
  | .openings broadcast => evaluateOpenings elapsed broadcast
  | .start => throw (.protocol .commitmentFinished)
  | .finished => throw (.protocol .commitmentFinished)

/-- Take the values of all parties, in party order. -/
def out (p : Commit) : Option (List Bytes) × Commit :=
  (p.output, { p with output := none })

instance : Protocol m Commit (List Bytes) := ⟨evaluate, out⟩

end Commit

end JointCircuit
