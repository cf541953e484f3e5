/-
JointCircuit.Pool — what one party holds during an evaluation.

A pool joins a party's key share and material with the values it has
opened, a generator private to the party, and the generator that all
parties seed alike once they have agreed on a seed. Construction checks
the party set and the bit widths.
-/
import JointCircuit.OpenedValues
import JointCircuit.Preprocessing.Supplier

namespace JointCircuit

/-- The parameters of a pool. -/
structure PoolConfig where
  /-- Id of the local party, from 1. -/
  party : Nat
  parties : Nat
  operationalBits : Nat
  effectiveBits : Nat
  /-- Seed of the private generator; drawn from outside if absent. -/
  localSeed : Option Seed := none
deriving DecidableEq

namespace PoolConfig

/-- The parameters with the bit widths of a modulus. -/
def ofModulus (m : Modulus) (party parties : Nat) : PoolConfig :=
  { party, parties, operationalBits := m.operationalBits, effectiveBits := m.effectiveBits }

/-- Check the parameters against a modulus: the number of parties, the id, then the widths. -/
def validate (config : PoolConfig) (m : Modulus) : Except ConfigError Unit :=
  if config.parties < 2 then .error (.tooFewParties config.parties)
  else if config.party = 0 ∨ config.parties < config.party then
    .error (.partyOutOfRange config.party config.parties)
  else if config.operationalBits ≠ m.operationalBits ∨ config.effectiveBits ≠ m.effectiveBits then
    .error (.unsupportedBits config.operationalBits config.effectiveBits
      m.operationalBits m.effectiveBits)
  else .ok ()

end PoolConfig

/-- What one party holds during an evaluation. -/
structure Pool (m : Modulus) where
  party : Nat
  parties : Nat
  keyShare : Element m
  supplier : Supplier m
  opened : OpenedValues m := {}
  /-- The generator private to this party. -/
  localGenerator : Generator
  /-- The generator seeded alike at every party, once a seed is agreed. -/
  jointGenerator : Option Generator := none
deriving DecidableEq

namespace Pool

variable {m : Modulus}

/-- Set up a pool around a supplier. `entropy` seeds the private generator if the
parameters name no seed. -/
def new (config : PoolConfig) (supplier : Supplier m) (entropy : Seed) :
    Except ConfigError (Pool m) := do
  config.validate m
  return {
    party := config.party
    parties := config.parties
    keyShare := supplier.keyShare
    supplier
    localGenerator := .ofPartySeed (config.localSeed.getD entropy) }

/-- Whether the joint generator is seeded. -/
def hasJointRandomness (pool : Pool m) : Bool :=
  pool.jointGenerator.isSome

/-- Seed the joint generator. -/
def installJointSeed (seed : Seed) : Action (Pool m) Unit :=
  modify fun pool => { pool with jointGenerator := some (.ofPartySeed seed) }

/-- Draw from the private generator. -/
def drawLocal {α : Type} (draw : Draw α) : Action (Pool m) α := do
  let pool ← get
  let (a, generator) := draw pool.localGenerator
  set { pool with localGenerator := generator }
  return a

/-- Draw from the joint generator. -/
def drawJoint {α : Type} (draw : Draw α) : Action (Pool m) α := do
  let pool ← get
  match pool.jointGenerator with
  | none => throw (.protocol .noJointRandomness)
  | some generator =>
    let (a, generator) := draw generator
    set { pool with jointGenerator := some generator }
    return a

/-- The next mask reserved for inputs of `owner`. -/
def nextMask (owner : Nat) : Action (Pool m) (InputMask m) :=
  .within (·.supplier) (fun supplier pool => { pool with supplier }) (Supplier.nextMask owner)

/-- The next `count` triples. -/
def nextTriples (count : Nat) : Action (Pool m) (List (Triple m)) :=
  .within (·.supplier) (fun supplier pool => { pool with supplier }) (Supplier.nextTriples count)

/-- Record opened shares with their values. -/
def pushOpened (shares : List (AuthShare m)) (values : List (Element m)) : Action (Pool m) Unit :=
  .within (·.opened) (fun opened pool => { pool with opened }) (OpenedValues.push shares values)

/-- Take all opened entries. -/
def drainOpened : Action (Pool m) (List (AuthShare m) × List (Element m)) :=
  .within (·.opened) (fun opened pool => { pool with opened }) OpenedValues.drain

end Pool

end JointCircuit
