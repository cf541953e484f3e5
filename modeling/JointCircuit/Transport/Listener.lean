/-
JointCircuit.Transport.Listener — who is let in to a mesh.

Every party listens for the parties with lower ids. A connection starts
with a greeting: a fixed word and the id of the caller, four bytes each,
most significant first. A proper greeting is answered with the word and
fills the place of its party, unless another connection has filled it
before; any other connection is dropped and changes nothing. The
listener is done when every place is filled.

Connections come in while earlier ones are still in their greetings, and
greetings end in any order. The listener takes such events one at a time
(`Listener.step`).

Main statement: the greetings that are answered are exactly those of the
lower parties (`Greeting.receive_eq_ok`).
-/
import JointCircuit.Bytes
import JointCircuit.Fault

namespace JointCircuit

/-! ## §1 Greetings -/

/-- What the far end of a connection lets a party read and write. -/
structure Line where
  /-- The bytes that come in. -/
  bytes : Bytes
  /-- How a reading fails that wants more bytes than there are. -/
  ending : ConnectError := .unexpectedEnd
  /-- How a writing fails, if it does. -/
  broken : Option ConnectError := none
deriving DecidableEq

namespace Greeting

/-- The word that both sides of a connection send first. -/
def magic : Nat := 0xdeadbeef

/-- The answer to a greeting. -/
def answer : Bytes :=
  Bytes.big 4 magic

/-- The greeting of a party. -/
def encode (party : Nat) : Bytes :=
  answer ++ Bytes.big 4 party

/-- Take a greeting off a connection and answer it: the id of the caller, one of the parties
`1..=lower`. What follows the greeting is left for later. -/
def receive (lower : Nat) (line : Line) : Except ConnectError Nat :=
  if line.bytes.length < 4 then .error line.ending
  else if line.bytes.take 4 ≠ answer then .error .invalidMagic
  else if line.bytes.length < 8 then .error line.ending
  else
    let party := Bytes.ofBig ((line.bytes.drop 4).take 4)
    if party = 0 ∨ lower < party then .error .invalidParty
    else
      match line.broken with
      | some cause => .error cause
      | none => .ok party

/-- Greet the peer on a connection, and take its answer. -/
def send (line : Line) : Except ConnectError Unit :=
  match line.broken with
  | some cause => .error cause
  | none =>
    if line.bytes.length < 4 then .error line.ending
    else if line.bytes.take 4 = answer then .ok ()
    else .error .invalidMagic

theorem length_answer : answer.length = 4 :=
  Bytes.length_big 4 magic

theorem take_encode (party : Nat) (rest : Bytes) : (encode party ++ rest).take 4 = answer := by
  rw [encode, List.append_assoc, List.take_left' length_answer]

theorem drop_encode (party : Nat) (rest : Bytes) :
    ((encode party ++ rest).drop 4).take 4 = Bytes.big 4 party := by
  rw [encode, List.append_assoc, List.drop_left' length_answer,
    List.take_left' (Bytes.length_big 4 party)]

/-- Eight bytes that start with the word are a greeting. -/
theorem exists_encode {bytes : Bytes} (hlength : 8 ≤ bytes.length) (hword : bytes.take 4 = answer) :
    ∃ rest, bytes = encode (Bytes.ofBig ((bytes.drop 4).take 4)) ++ rest := by
  have hfield : ((bytes.drop 4).take 4).length = 4 :=
    List.length_take_of_le (by rw [List.length_drop]; omega)
  have hparty : Bytes.big 4 (Bytes.ofBig ((bytes.drop 4).take 4)) = (bytes.drop 4).take 4 := by
    have := Bytes.big_ofBig ((bytes.drop 4).take 4)
    rwa [hfield] at this
  refine ⟨(bytes.drop 4).drop 4, ?_⟩
  rw [encode, hparty, ← hword, List.append_assoc, List.take_append_drop, List.take_append_drop]

/-- Answered are the greetings of the parties that are listened for, if they arrive whole. -/
theorem receive_eq_ok {lower party : Nat} {line : Line} : receive lower line = .ok party ↔
    (∃ rest, line.bytes = encode party ++ rest) ∧ 0 < party ∧ party ≤ lower
      ∧ party < Bytes.capacity 4 ∧ line.broken = none := by
  constructor
  · intro h
    unfold receive at h
    split at h
    · cases h
    split at h
    · cases h
    rename_i hword
    split at h
    · cases h
    rename_i hlength
    dsimp only at h
    split at h
    · cases h
    rename_i hparty
    split at h
    · cases h
    rename_i hbroken
    cases h
    obtain ⟨rest, hrest⟩ := exists_encode (Nat.le_of_not_lt hlength) (Decidable.not_not.mp hword)
    have hcapacity := Bytes.ofBig_lt ((line.bytes.drop 4).take 4)
    rw [List.length_take_of_le (by rw [List.length_drop]; omega)] at hcapacity
    exact ⟨⟨rest, hrest⟩, by omega, by omega, hcapacity, hbroken⟩
  · rintro ⟨⟨rest, hbytes⟩, hpos, hlower, hcapacity, hbroken⟩
    have hlength : line.bytes.length = 8 + rest.length := by
      rw [hbytes, encode, List.length_append, List.length_append, length_answer, Bytes.length_big]
    have hparty : Bytes.ofBig ((line.bytes.drop 4).take 4) = party := by
      rw [hbytes, drop_encode, Bytes.ofBig_big hcapacity]
    have hword : line.bytes.take 4 = answer := by rw [hbytes, take_encode]
    unfold receive
    rw [if_neg (by omega), if_neg (Decidable.not_not.mpr hword), if_neg (by omega)]
    simp only [hparty, hbroken]
    exact if_neg (by omega)

end Greeting

/-! ## §2 Steps -/

/-- How far something has come that takes several steps. -/
inductive Standing (ε σ ρ : Type) where
  | waiting (state : σ)
  | done (result : ρ)
  | failed (cause : ε)
deriving DecidableEq

namespace Standing

variable {ε σ ρ α : Type}

/-- One more step, unless it is over. -/
def next (step : σ → α → Standing ε σ ρ) (standing : Standing ε σ ρ) (event : α) :
    Standing ε σ ρ :=
  match standing with
  | .waiting state => step state event
  | .done result => .done result
  | .failed cause => .failed cause

/-- A step for each event, as long as it is not over. -/
def run (step : σ → α → Standing ε σ ρ) (standing : Standing ε σ ρ) (events : List α) :
    Standing ε σ ρ :=
  events.foldl (next step) standing

end Standing

/-! ## §3 Places -/

/-- The places of the lower parties, with connections of type `σ` where they are filled, and the
connections that are still in their greetings. -/
structure Listener (σ : Type) where
  places : List (Option σ)
  greeting : List σ := []
deriving DecidableEq

namespace Listener

/-- What a listener waits for. -/
inductive Event (σ : Type) where
  /-- A connection comes in. -/
  | arrival (connection : σ)
  /-- The greeting of a connection is over, with so much sent. -/
  | greeted (connection : σ) (line : Line)
  /-- No more connections can come in. -/
  | breakdown (cause : ConnectError)
deriving DecidableEq

variable {σ : Type} [DecidableEq σ]

/-- A listener for `lower` parties. -/
def new (lower : Nat) : Listener σ :=
  ⟨List.replicate lower none, []⟩

/-- Put a connection in the place of a party. -/
def fill (l : Listener σ) (party : Nat) (connection : σ) : Listener σ :=
  { l with places := l.places.set (party - 1) (some connection) }

/-- A step of the listener. The first connection of a party keeps the place; only connections that
are in their greetings can come to their end. -/
def step (l : Listener σ) : Event σ → Standing ConnectError (Listener σ) (List σ)
  | .arrival connection => .waiting { l with greeting := l.greeting ++ [connection] }
  | .greeted connection line =>
    if connection ∈ l.greeting then
      let l := { l with greeting := l.greeting.erase connection }
      match Greeting.receive l.places.length line with
      | .error _ => .waiting l
      | .ok party =>
        match l.places[party - 1]? with
        | some none =>
          let l := l.fill party connection
          if l.places.all Option.isSome then .done (l.places.filterMap id) else .waiting l
        | _ => .waiting l
    else .waiting l
  | .breakdown cause => .failed cause

/-- Start to listen for the parties `1..=lower` at an address, unless it cannot be `bound`; the
address is left alone if there are none. -/
def start (lower : Nat) (bound : Except ConnectError Unit) :
    Standing ConnectError (Listener σ) (List σ) :=
  if lower = 0 then .done []
  else
    match bound with
    | .error cause => .failed cause
    | .ok () => .waiting (new lower)

/-- Listen while this happens. -/
def listen (lower : Nat) (bound : Except ConnectError Unit) (events : List (Event σ)) :
    Standing ConnectError (Listener σ) (List σ) :=
  Standing.run step (start lower bound) events

end Listener

/-! ## §4 One connection after another -/

/-- What happens to a connection. -/
inductive Reception where
  /-- Nobody listens. -/
  | refused
  /-- It is dropped without an answer. -/
  | dropped
  /-- Its greeting is answered. -/
  | answered
deriving DecidableEq, Repr

namespace Listener

/-- A connection that sends these bytes and ends, while no other comes in. -/
def offer (standing : Standing ConnectError (Listener Bytes) (List Bytes)) (bytes : Bytes) :
    Reception × Standing ConnectError (Listener Bytes) (List Bytes) :=
  match standing with
  | .waiting l =>
    let reception := match Greeting.receive l.places.length { bytes } with
      | .ok _ => .answered
      | .error _ => .dropped
    (reception, Standing.run step standing [.arrival bytes, .greeted bytes { bytes }])
  | .done connections => (.refused, .done connections)
  | .failed cause => (.refused, .failed cause)

/-- Connections that are made one after another, named by their bytes. -/
def offerAll (standing : Standing ConnectError (Listener Bytes) (List Bytes)) :
    List Bytes → List Reception × Standing ConnectError (Listener Bytes) (List Bytes)
  | [] => ([], standing)
  | bytes :: rest =>
    let (reception, standing) := offer standing bytes
    let (receptions, standing) := offerAll standing rest
    (reception :: receptions, standing)

/-- To the listener these are events like any others. -/
theorem offerAll_snd (standing : Standing ConnectError (Listener Bytes) (List Bytes))
    (calls : List Bytes) : (offerAll standing calls).2 = Standing.run step standing
      (calls.flatMap fun bytes => [.arrival bytes, .greeted bytes { bytes }]) := by
  induction calls generalizing standing with
  | nil => rfl
  | cons bytes rest ih =>
    have hoffer : (offer standing bytes).2
        = Standing.run step standing [.arrival bytes, .greeted bytes { bytes }] := by
      cases standing <;> rfl
    rw [List.flatMap_cons, Standing.run, List.foldl_append, ← Standing.run, ← Standing.run,
      ← hoffer, ← ih]
    rfl

end Listener

end JointCircuit
