/-
JointCircuit.Transport.NetworkConfig — who listens where.

A network is the list of the parties' addresses, that of party 1 first.
Its text is an object with one member, the list of the parties, each of
which is an object with the party's address.
-/
import JointCircuit.Transport.Address

namespace JointCircuit

/-- The addresses of all parties. -/
structure NetworkConfig where
  addresses : List Address
deriving DecidableEq

namespace NetworkConfig

/-- Number of parties. -/
def parties (config : NetworkConfig) : Nat :=
  config.addresses.length

/-- Parties on the host itself, listening on consecutive ports from `basePort` on. -/
def localhost (parties : Nat) (basePort : UInt16) : NetworkConfig :=
  ⟨(List.range parties).map fun i => .loopback (basePort + UInt16.ofNat i)⟩

/-- The compact JSON text of a network. -/
def render (config : NetworkConfig) : String :=
  let party (address : Address) : String :=
    JsonValue.renderObject [("address", JsonValue.renderString address.render)]
  JsonValue.renderObject [("parties", JsonValue.renderArray (config.addresses.map party))]

/-- The address of a party. -/
def addressOfJson? (value : JsonValue) : Option Address := do
  match ← value.fields? ["address"] with
  | [some (.string (some text))] => Address.parse? text
  | _ => none

/-- The network that a JSON text holds. -/
def parse? (text : String) : Option NetworkConfig := do
  match ← (← JsonValue.parse? text).fields? ["parties"] with
  | [some (.array items)] => return ⟨← items.mapM addressOfJson?⟩
  | _ => none

end NetworkConfig

end JointCircuit
