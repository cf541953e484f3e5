/-
JointCircuit.Evaluator — one party's part in a joint evaluation.

The evaluator runs protocols round by round and exchanges the messages
of all protocols of a round at once. In a round the protocols in flight
advance first, in the order in which they were advanced before; the
nodes that became ready follow in ascending order. The order depends on
the circuit alone, so the messages of all parties match. What was opened
anywhere in a circuit is checked before its values are returned.
-/
import JointCircuit.Session
import JointCircuit.Evaluator.Schedule

namespace JointCircuit

/-- A participant with the counters of its lifetime. -/
structure Evaluator (m : Modulus) where
  participant : Participant m
  /-- Exchanges completed. -/
  rounds : Nat := 0
  /-- Protocols run to completion. -/
  protocols : Nat := 0
deriving DecidableEq

/-- A computation of one party that may exchange frames and may fail. It keeps what it did
before it failed. -/
abbrev Eval (m : Modulus) := ExceptT Fault (StateT (Evaluator m) Session)

namespace Evaluator

variable {m : Modulus} {π ρ α : Type}

/-- Join a pool to the transport of a party; both have to be the same party's. -/
def new (pool : Pool m) (party parties : Nat) : Except Fault (Evaluator m) :=
  if party = pool.party ∧ parties = pool.parties then .ok { participant := .new pool }
  else .error (.protocol (.foreignTransport party parties pool.party pool.parties))

/-- Payload bytes handed to peers so far. -/
def bytesSent (e : Evaluator m) : Nat :=
  e.participant.mailbox.bytesSent

/-! ## §1 Steps -/

/-- Act on the participant. -/
def act (action : Action (Participant m) α) : Eval m α := fun e =>
  match action e.participant with
  | .ok a participant => pure (.ok a, { e with participant })
  | .error fault participant => pure (.error fault, { e with participant })

/-- Act on the pool. -/
def onPool (action : Action (Pool m) α) : Eval m α :=
  act (.within (·.pool) (fun pool p => { p with pool }) action)

/-- Act on the mailbox. -/
def onMailbox (action : Action Mailbox α) : Eval m α :=
  act (.within (·.mailbox) (fun mailbox p => { p with mailbox }) action)

/-- Act on a protocol and the participant, and return what is left of the protocol. -/
def actOn (p : π) (round : Round m π α) : Eval m (α × π) := fun e =>
  match round (p, e.participant) with
  | .ok a (p, participant) => pure (.ok (a, p), { e with participant })
  | .error fault (_, participant) => pure (.error fault, { e with participant })

/-- Turn an error of a narrower kind into a fault. -/
def ofExcept {ε : Type} (fault : ε → Fault) : Except ε α → Eval m α
  | .ok a => pure a
  | .error e => throw (fault e)

/-- Exchange the messages of the round with all peers. -/
def flush : Eval m Unit := do
  let frames ← onMailbox Mailbox.takeOutgoing
  let received ← (Session.exchangeFrames frames : Session _)
  onMailbox (Mailbox.deliver (← ofExcept .transport received))
  modify fun e => { e with rounds := e.rounds + 1 }

/-- Nothing may be queued after a final round, and every message received has to be taken. -/
def checkQuiescent : Eval m Unit := do
  if (← onMailbox get).hasOutgoing then throw (.protocol .sentInFinalRound)
  onMailbox Mailbox.ensureDrained

/-- Count a protocol that ran to completion. -/
def countProtocol : Eval m Unit :=
  modify fun e => { e with protocols := e.protocols + 1 }

/-! ## §2 A single protocol -/

/-- Evaluate the rounds from `round` on, `budget` of them at most, with an exchange after each
but the last. -/
def runRounds [Protocol m π ρ] : (budget round : Nat) → π → Eval m π
  | 0, _, _ => throw (.protocol .endless)
  | budget + 1, round, p => do
    match ← actOn p (Protocol.evaluate round) with
    | (.done, p) => return p
    | (.more, p) =>
      flush
      runRounds budget (round + 1) p

/-- Run a protocol to completion by itself. -/
def run [Protocol m π ρ] (p : π) : Eval m ρ := do
  let p ← runRounds (lastRound + 1) 0 p
  checkQuiescent
  countProtocol
  match (Protocol.out m p).1 with
  | some result => return result
  | none => throw (.protocol .noOutput)

/-- Agree on the seed of the joint generator with all parties. -/
def initializeJointRandomness : Eval m Unit := do
  let seed ← run ({} : CoinToss)
  onPool (Pool.installJointSeed seed)

/-! ## §3 A circuit -/

/-- A gate that goes on in a later round. -/
structure InFlight (m : Modulus) where
  id : NodeId
  gate : Gate m
  /-- The round it is evaluated in next. -/
  round : Nat
deriving DecidableEq

/-- Evaluate a round of a gate: it stays in flight, or its node is complete. -/
def advance (s : Schedule m) (flight : InFlight m) : Eval m (Schedule m × List (InFlight m)) := do
  match ← actOn flight.gate (Gate.evaluate flight.round) with
  | (.more, gate) => return (s, [{ flight with gate, round := flight.round + 1 }])
  | (.done, gate) =>
    match gate.out.1 with
    | none => throw (.protocol (.nodeWithoutOutput flight.id))
    | some value =>
      countProtocol
      return (s.complete flight.id value, [])

/-- Advance the gates in flight, in order. -/
def advanceAll (s : Schedule m) : List (InFlight m) → Eval m (Schedule m × List (InFlight m))
  | [] => return (s, [])
  | flight :: rest => do
    let (s, still) ← advance s flight
    let (s, others) ← advanceAll s rest
    return (s, still ++ others)

/-- Start the ready nodes, lowest first, including those that become ready meanwhile; at most
`budget` of them. -/
def startReady : (budget : Nat) → Schedule m → Eval m (Schedule m × List (InFlight m))
  | 0, s => return (s, [])
  | budget + 1, s =>
    match s.next? with
    | none => return (s, [])
    | some (id, s) => do
      let gate ← ofExcept .circuit (s.gate id)
      let (s, still) ← advance s { id, gate, round := 0 }
      let (s, others) ← startReady budget s
      return (s, still ++ others)

/-- Evaluate rounds until no gate is in flight, `budget` of them at most. -/
def runGates : (budget : Nat) → Schedule m → List (InFlight m) → Eval m (Schedule m)
  | 0, _, _ => throw (.protocol .endless)
  | budget + 1, s, flights => do
    let (s, still) ← advanceAll s flights
    let (s, started) ← startReady s.circuit.size s
    match still ++ started with
    | [] => return s
    | flights =>
      flush
      runGates budget s flights

/-- Rounds that suffice for any circuit of this size: its nodes one after another. -/
def roundBudget (size : Nat) : Nat :=
  lastRound * size + 1

/-- Evaluate every node of a circuit. -/
def evaluate (c : Circuit m) : Eval m (Outputs m) := do
  ofExcept .circuit (c.validate (← onPool get).parties)
  unless (← onPool get).hasJointRandomness do initializeJointRandomness
  let s ← runGates (roundBudget c.size) (.new c) []
  checkQuiescent
  let values ← ofExcept .circuit s.outputs
  if (← onPool get).opened.hasPending then run ({} : MacCheck m)
  return ⟨values⟩

end Evaluator

end JointCircuit
