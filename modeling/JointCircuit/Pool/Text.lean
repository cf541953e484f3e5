/-
JointCircuit.Pool.Text — pool parameters as JSON text.

The parameters are an object with one member for each; the seed may be
left out or null. Reading also accepts the parameters as a list in the
order in which they are written.
-/
import JointCircuit.Pool
import JointCircuit.Text.JsonValue

namespace JointCircuit

namespace PoolConfig

/-- The names of the parameters, in the order in which they are written. -/
def fieldNames : List String :=
  ["party_id", "num_parties", "operational_bits", "effective_bits", "local_seed"]

/-- The seed that a member holds; a missing member means that there is none. -/
def seedOfJson? : Option JsonValue → Option (Option Seed)
  | none => some none
  | some .null => some none
  | some value => do
    let seed ← Seed.ofBytes? (← value.bytes?)
    return some seed

/-- The parameters that a JSON value holds. Ids have 64 bits and bit widths 32. -/
def ofJson? (value : JsonValue) : Option PoolConfig := do
  match ← value.fields? fieldNames with
  | [party, parties, operationalBits, effectiveBits, localSeed] =>
    return {
      party := ← (← party).natural? (Nat.pow 2 64)
      parties := ← (← parties).natural? (Nat.pow 2 64)
      operationalBits := ← (← operationalBits).natural? (Nat.pow 2 32)
      effectiveBits := ← (← effectiveBits).natural? (Nat.pow 2 32)
      localSeed := ← seedOfJson? localSeed }
  | _ => none

/-- The compact JSON text of the parameters. -/
def render (config : PoolConfig) : String :=
  let seed := match config.localSeed with
    | none => "null"
    | some seed => JsonValue.renderBytes seed.toList
  let naturals := [config.party, config.parties, config.operationalBits, config.effectiveBits]
  JsonValue.renderObject (fieldNames.zip (naturals.map toString ++ [seed]))

/-- The parameters that a JSON text holds. -/
def parse? (text : String) : Option PoolConfig :=
  (JsonValue.parse? text).bind ofJson?

end PoolConfig

end JointCircuit
