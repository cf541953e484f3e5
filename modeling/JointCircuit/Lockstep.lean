/-
JointCircuit.Lockstep — the sessions of all parties against each other.

Exchange number `k` of a party meets exchange number `k` of every peer.
When one of the parties has ended, nobody else can complete an exchange
any more: all remaining exchanges fail. What a party hands to the
transport may be altered on the way, which is how deviating parties are
modelled; the alteration is part of what the party sent.

The recursion follows the session of the first party, which gets
smaller with every exchange, so every run ends.
-/
import JointCircuit.Session
import JointCircuit.Transport.Frame

namespace JointCircuit

/-- How the frames of a party's exchange are altered: by party and number of the exchange. -/
abbrev Alteration := (party exchange : Nat) → List Frame → List Frame

/-- What became of one party. -/
structure Outcome (α : Type) where
  result : α
  /-- The frames it handed to the transport, exchange by exchange. -/
  sent : List (List Frame)

namespace Lockstep

variable {α : Type}

/-- A session that waits for an exchange: its frames, and how it goes on. -/
abbrev Waiting (α : Type) := List Frame × (Except TransportError Delivery → Session α)

/-- The exchange a session waits for, unless it has ended. -/
def waiting? : Session α → Option (Waiting α)
  | .finished _ => none
  | .exchange frames resume => some (frames, resume)

/-- Run a session all of whose exchanges fail, from exchange number `k` on. -/
def abandon (alter : Alteration) (cause : TransportError) (party : Nat) :
    (k : Nat) → Session α → Outcome α
  | _, .finished result => ⟨result, []⟩
  | k, .exchange frames resume =>
    let rest := abandon alter cause party (k + 1) (resume (.error cause))
    ⟨rest.result, alter party k frames :: rest.sent⟩

/-- What party `receiver` receives when the parties sent these frames, lowest party first. -/
def deliveryTo (receiver : Nat) (sent : List (List Frame)) : Delivery :=
  (sent.zipIdx 1).filterMap fun (frames, sender) =>
    if sender = receiver then none else some (sender, frames.getD (receiver - 1) [])

/-- The first peer of `sender` whose frame does not fit a record. -/
def oversized? (sender : Nat) (frames : List Frame) : Option Nat :=
  let hit := (frames.zipIdx 1).find? fun (frame, receiver) =>
    receiver ≠ sender && (Frame.put? frame).isNone
  hit.map (·.2)

/-- What each party learns when the parties sent these frames. A frame that fits no record
fails the exchange of everyone. -/
def receptions (sent : List (List Frame)) : List (Except TransportError Delivery) :=
  let failure := (sent.zipIdx 1).findSome? fun (frames, sender) =>
    (oversized? sender frames).map fun receiver => (sender, receiver)
  (List.range sent.length).map fun i =>
    match failure with
    | none => .ok (deliveryTo (i + 1) sent)
    | some (sender, receiver) => .error (if sender = i + 1 then .send receiver else .receive sender)

/-- Put a round's frames in front of what the parties sent later. -/
def record (sent : List (List Frame)) (outcomes : List (Outcome α)) : List (Outcome α) :=
  List.zipWith (fun frames o => ⟨o.result, frames :: o.sent⟩) sent outcomes

/-- Everybody's remaining exchanges fail. -/
def abandonAll (alter : Alteration) (k : Nat) (sessions : List (Session α)) : List (Outcome α) :=
  let ended := sessions.findIdx (fun s => (waiting? s).isNone) + 1
  (sessions.zipIdx 1).map fun (session, party) => abandon alter (.receive ended) party k session

/-- Run the first session together with the others, from exchange number `k` on. -/
def runFrom (alter : Alteration) : (k : Nat) → Session α → List (Session α) → List (Outcome α)
  | k, .finished result, others => abandonAll alter k (.finished result :: others)
  | k, .exchange frames resume, others =>
    match others.mapM waiting? with
    | none => abandonAll alter k (.exchange frames resume :: others)
    | some waiting =>
      let sent := ((frames :: waiting.map (·.1)).zipIdx 1).map fun (fs, party) => alter party k fs
      match receptions sent with
      | [] => []
      | first :: rest =>
        let others := List.zipWith (fun w received => w.2 received) waiting rest
        record sent (runFrom alter (k + 1) (resume first) others)

/-- Run the sessions of parties 1, 2, … against each other. -/
def run (alter : Alteration) : List (Session α) → List (Outcome α)
  | [] => []
  | first :: others => runFrom alter 0 first others

/-- Run sessions whose frames arrive as they were sent. -/
def runHonest (sessions : List (Session α)) : List (Outcome α) :=
  run (fun _ _ frames => frames) sessions

end Lockstep

end JointCircuit
