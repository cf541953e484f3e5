/-
JointCircuit.Transport.Mesh — a connection between any two parties.

Every party dials the parties with higher ids and listens for those with
lower ones, and is ready when all its connections stand. It does both at
once, and gives up as soon as one of them fails (`Joining.step`). A
refused dial is tried again for ever, so a party whose peers cannot be
reached waits without end; that is an outcome here, and not an error.
Whether the parties can reach each other is a property of the network,
given as `reachable`.
-/
import JointCircuit.Transport.Channels
import JointCircuit.Transport.Listener
import JointCircuit.Transport.NetworkConfig
import JointCircuit.Lockstep

namespace JointCircuit

namespace Mesh

/-! ## §1 One party -/

/-- Where a channel of a party leads. -/
inductive Channel (σ : Type) where
  /-- To the caller on a connection that was let in. -/
  | accepted (connection : σ)
  /-- To whoever listens at an address. -/
  | dialed (address : Address)
deriving DecidableEq

/-- What a party waits for that sets up its connections. -/
inductive Event (σ : Type) where
  /-- Something happens where it listens. -/
  | listening (event : Listener.Event σ)
  /-- A dial to one of the higher parties, the lowest of which is at index 0, got through; this came
  back. -/
  | dialed (index : Nat) (line : Line)
deriving DecidableEq

/-- A party on its way into a mesh. -/
structure Joining (σ : Type) where
  listener : Standing ConnectError (Listener σ) (List σ)
  /-- The addresses of the higher parties to whom connections stand, by index. -/
  dials : List (Option Address)
deriving DecidableEq

/-- The channels to the lower parties and to the higher ones, with an empty position in between. -/
def arrange {α : Type} (lower higher : List α) : List (Option α) :=
  lower.map some ++ [none] ++ higher.map some

/-- Channels in party order. Only the one at the own position may be missing. -/
def transport {α : Type} (channels : List (Option α)) (party : Nat) :
    Except TransportError (List (Option α)) :=
  match Channels.firstMissing? (channels.map Option.isSome) party with
  | some peer => .error (.missingChannel peer)
  | none => .ok channels

namespace Joining

variable {σ : Type} [DecidableEq σ]

/-- What has been reached: all channels, if every connection stands. -/
def outcome (party : Nat) (j : Joining σ) :
    Standing TransportError (Joining σ) (List (Option (Channel σ))) :=
  match j.listener with
  | .failed cause => .failed (.connect cause)
  | .waiting _ => .waiting j
  | .done streams =>
    if j.dials.all Option.isSome then
      let channels := arrange (streams.map .accepted) ((j.dials.filterMap id).map .dialed)
      match transport channels party with
      | .error cause => .failed cause
      | .ok channels => .done channels
    else .waiting j

/-- A step of a party. A dial ends only once. -/
def step (config : NetworkConfig) (party : Nat) (j : Joining σ) :
    Event σ → Standing TransportError (Joining σ) (List (Option (Channel σ)))
  | .listening event => outcome party { j with listener := j.listener.next Listener.step event }
  | .dialed index line =>
    match j.dials[index]? with
    | some none =>
      match Greeting.send line with
      | .error cause => .failed (.connect cause)
      | .ok () =>
        outcome party { j with dials := j.dials.set index config.addresses[party + index]? }
    | _ => .waiting j

/-- Start to listen at the own address, unless it cannot be `bound`, and to dial. -/
def start (config : NetworkConfig) (party : Nat) (bound : Except ConnectError Unit) :
    Standing TransportError (Joining σ) (List (Option (Channel σ))) :=
  if party = 0 ∨ config.parties < party then .failed (.connect .invalidParty)
  else outcome party
    { listener := Listener.start (party - 1) bound
      dials := List.replicate (config.parties - party) none }

end Joining

/-- Set up the connections of a party while this happens. -/
def connect {σ : Type} [DecidableEq σ] (config : NetworkConfig) (party : Nat)
    (bound : Except ConnectError Unit) (events : List (Event σ)) :
    Standing TransportError (Joining σ) (List (Option (Channel σ))) :=
  Standing.run (Joining.step config party) (Joining.start config party bound) events

/-! ## §2 Set-ups -/

/-- What comes of setting up the connections of a party. -/
inductive Setup where
  | ready
  | failed (cause : ConnectError)
  /-- The party waits for a peer that never comes. -/
  | waiting
deriving DecidableEq, Repr

/-- What a party has come to if nothing else happens. -/
def Setup.ofStanding {σ ρ : Type} : Standing TransportError σ ρ → Setup
  | .done _ => .ready
  | .failed (.connect cause) => .failed cause
  | .failed _ => .waiting
  | .waiting _ => .waiting

/-- A party that is the only one to set up connections. `occupied` tells whether its address is
taken; party 1 does not notice, since it listens for nobody. -/
def setUpAlone (parties party : Nat) (occupied : Bool) : Setup :=
  let bound := if occupied then .error .addressInUse else .ok ()
  .ofStanding (connect (σ := Bytes) (.localhost parties 0) party bound [])

/-- Any party when all of them set up connections. -/
def setUpTogether (reachable : Bool) (parties : Nat) : Setup :=
  if reachable ∨ parties ≤ 1 then .ready else .waiting

/-- A party that dials its only peer and gets this answer to its greeting. -/
def dial (reachable : Bool) (answer : Bytes) : Setup :=
  let events : List (Event Bytes) := if reachable then [.dialed 0 { bytes := answer }] else []
  .ofStanding (connect (.localhost 2 0) 1 (.ok ()) events)

/-- The highest party, while connections that send these bytes are made one after another: what
happens to each of them, and whether the party is ready after the last. Among no parties there is
no highest one. -/
def listen (reachable : Bool) (parties : Nat) (calls : List Bytes) : List Reception × Setup :=
  let fresh := Listener.start (parties - 1) (.ok ())
  let (receptions, standing) :=
    if reachable then Listener.offerAll fresh calls else (calls.map fun _ => .refused, fresh)
  let joining : Joining Bytes := { listener := standing, dials := [] }
  let setup := if parties = 0 then .failed .invalidParty
    else .ofStanding (joining.outcome parties)
  (receptions, setup)

/-! ## §3 All parties -/

/-- Exchange frames once for each round, and collect what arrives. -/
def exchangeRounds : (rounds : List (List Frame)) → Session (List (Except TransportError Delivery))
  | [] => return []
  | frames :: rest => do
    let received ← Session.exchangeFrames frames
    let later ← exchangeRounds rest
    return received :: later

/-- All parties set up connections and exchange the frames of each round, which are given by
party. There is no outcome if the parties never are ready. -/
def exchangeAll (reachable : Bool) (parties : Nat) (rounds : List (List (List Frame))) :
    Option (List (List (Except TransportError Delivery))) :=
  match setUpTogether reachable parties with
  | .ready =>
    let sessions := (List.range parties).map fun i =>
      exchangeRounds (rounds.map fun round => round.getD i [])
    some ((Lockstep.runHonest sessions).map (·.result))
  | _ => none

end Mesh

end JointCircuit
