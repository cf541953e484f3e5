/-
JointCircuit.Command.Demo — the command that evaluates an example.

Two parties put in a number each; all parties learn `x y + 3 x` and
`x² + y²`. Material is dealt data from files, or synthetic. The parties
are those of one process, joined by channels or by a mesh of
connections.
-/
import JointCircuit.Command.Deal
import JointCircuit.Circuit.Plain
import JointCircuit.Evaluator
import JointCircuit.Transport.Mesh

namespace JointCircuit

/-! ## §1 Options -/

/-- What is to be evaluated, and by whom. -/
structure DemoOptions where
  parties : Nat
  /-- The first of the ports that the parties listen on. -/
  basePort : Nat
  /-- The file with the parties' addresses. -/
  config : Option String
  /-- The pattern of the paths of dealt data; synthetic material is used without one. -/
  precomputed : Option String
  /-- The input of party 1. -/
  x : Nat
  /-- The input of party 2. -/
  y : Nat

/-- The same options with synthetic material. -/
def DemoOptions.withoutFiles (options : DemoOptions) : DemoOptions :=
  { options with precomputed := none }

/-- Options given so far. -/
structure DemoDraft where
  parties : Option Nat := none
  basePort : Option Nat := none
  config : Option String := none
  precomputed : Option String := none
  x : Option Nat := none
  y : Option Nat := none

namespace Demo

/-- The command and its options. -/
def command : Command DemoDraft where
  name := "mpc_test_app"
  description := "Runs a small arithmetic computation between local parties over TCP."
  options := [
    .single "parties" false "number of parties, ignored when a config file is given"
      (readNumber 64) (·.parties) fun n d => { d with parties := some n },
    .single "base-port" false "first localhost port, ignored when a config file is given"
      (readNumber 16) (·.basePort) fun n d => { d with basePort := some n },
    .single "config" false "path to a JSON network configuration"
      .ok (·.config) fun text d => { d with config := some text },
    .single "precomputed" false
      "path pattern of dealer output ('#' is replaced with party ID); fake data if absent"
      .ok (·.precomputed) fun text d => { d with precomputed := some text },
    .single "x" false "input of party 1"
      (readNumber 64) (·.x) fun n d => { d with x := some n },
    .single "y" false "input of party 2"
      (readNumber 64) (·.y) fun n d => { d with y := some n }]

/-- The options of a draft; each has a default. -/
def options (draft : DemoDraft) : DemoOptions where
  parties := draft.parties.getD 3
  basePort := draft.basePort.getD 48000
  config := draft.config
  precomputed := draft.precomputed
  x := draft.x.getD 1234567
  y := draft.y.getD 1110

/-! ## §2 The computation -/

/-- The modulus of the example. -/
abbrev modulus : Modulus := .mersenne127

/-- Build the circuit and name the two opened nodes. Inputs are filled in for the parties that
`knows` names. -/
def build (options : DemoOptions) (knows : Nat → Bool) : Builder modulus (List NodeId) := do
  let value (party n : Nat) : Option (Element modulus) :=
    if knows party then some (Element.ofNat modulus n) else none
  let x ← Builder.push (.input 1 (value 1 options.x))
  let y ← Builder.push (.input 2 (value 2 options.y))
  let xy ← Builder.push (.multiply x y)
  let tripleX ← Builder.push (.mulPublic x (Element.ofNat modulus 3))
  let first ← Builder.push (.add xy tripleX)
  let (_, squares) ← Builder.mulBatch [(x, x), (y, y)]
  let second ← Builder.push (.add (squares.getD 0 0) (squares.getD 1 0))
  Builder.pushAll [.reveal first, .reveal second]

/-- The values of the opened nodes in the clear. -/
def expected (options : DemoOptions) : Except Fault (List (PlainValue modulus)) :=
  let (outputs, circuit) := build options (fun _ => true) {}
  match Plain.evaluate circuit {} with
  | .ok values _ => .ok (outputs.filterMap (values[·]?))
  | .error fault _ => .error fault

/-- Number of nodes of the circuit. -/
def nodes (options : DemoOptions) : Nat :=
  (build options (fun _ => true) {}).2.size

/-! ## §3 One party -/

/-- What a party has after the evaluation. -/
structure Report where
  opened : List (Element modulus)
  rounds : Nat
  protocols : Nat
  bytesSent : Nat
deriving DecidableEq

/-- Load dealt data. -/
def load (m : Modulus) (files : FileStore) (path : String) : Except Fault (DealtSupplier m) :=
  match (files.read? path).map (DealtData.ofBytes m) with
  | some (.ok data) => (DealtSupplier.new data).mapError .config
  | _ => .error (.exhausted (.unloadable path))

/-- The seed byte of the synthetic material. -/
def seedByte : UInt8 := 123

/-- The pool of a party. Dealt data is loaded before anything else is checked. -/
def pool (options : DemoOptions) (files : FileStore) (entropy : Seed) (party : Nat) :
    Except Fault (Pool modulus) := do
  let supplier ← match options.precomputed with
    | some pattern => .dealt <$> load modulus files (pathFor pattern party)
    | none => pure (.synthetic (.new modulus options.parties party seedByte))
  (Pool.new (.ofModulus modulus party options.parties) supplier entropy).mapError .config

/-- Evaluate the circuit and look up the opened values. -/
def evaluate (options : DemoOptions) (party : Nat) : Eval modulus (List (Element modulus)) := do
  let (outputs, circuit) := build options (· = party) {}
  let values ← Evaluator.evaluate circuit
  Evaluator.ofExcept .circuit <| outputs.mapM fun id =>
    match values.plain? id with
    | some x => .ok x
    | none => .error (.notOpened id)

/-- The session of a party that owns a pool. -/
def session (options : DemoOptions) (pool : Pool modulus) : Session (Except Fault Report) := do
  match Evaluator.new pool pool.party options.parties with
  | .error fault => return .error fault
  | .ok evaluator =>
    let (result, evaluator) ← evaluate options pool.party evaluator
    return result.map fun opened =>
      ⟨opened, evaluator.rounds, evaluator.protocols, evaluator.bytesSent⟩

/-! ## §4 All parties -/

/-- The ids of all parties. -/
def parties (options : DemoOptions) : List Nat :=
  (List.range options.parties).map (· + 1)

/-- The reports of parties with these pools, joined by channels. -/
def evaluateAll (options : DemoOptions) (pools : List (Pool modulus)) :
    List (Except Fault Report) :=
  (Lockstep.runHonest (pools.map (session options))).map (·.result)

/-- All parties in one process; a pool that cannot be set up fails the whole. -/
def overChannels (options : DemoOptions) (files : FileStore) (entropy : Nat → Seed) :
    Except Fault (List (Except Fault Report)) := do
  let pools ← (parties options).mapM fun party => pool options files (entropy party) party
  return evaluateAll options pools

/-- Parties that connect to each other: all of them, or only one. A party whose pool cannot be
set up fails before it connects, and the parties that do connect then wait for it without end, so
that there is no outcome. -/
def overMesh (reachable : Bool) (options : DemoOptions) (files : FileStore) (entropy : Nat → Seed)
    (only : Option Nat) : Option (List (Except Fault Report)) :=
  let ids := match only with
    | some party => [party]
    | none => parties options
  let attempts := ids.map fun party => pool options files (entropy party) party
  let failures := attempts.filterMap fun
    | .error fault => some fault
    | .ok _ => none
  let pools := attempts.filterMap Except.toOption
  if pools.isEmpty then some (failures.map .error)
  else if pools.length < options.parties then none
  else
    match Mesh.setUpTogether reachable options.parties with
    | .ready => some (evaluateAll options pools)
    | _ => none

end Demo

end JointCircuit
