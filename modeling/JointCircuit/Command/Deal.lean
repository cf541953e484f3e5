/-
JointCircuit.Command.Deal — the command that deals material to files.

The output pattern names one file for each party: every `#` in it stands
for the party's id. A pattern without one names the same file for all
parties, and the last party's data stays in it.
-/
import JointCircuit.Command.Arguments
import JointCircuit.Command.FileStore
import JointCircuit.Preprocessing.Dealer
import JointCircuit.Preprocessing.Layout
import JointCircuit.Random.Expand
import JointCircuit.Text.Decimal

namespace JointCircuit

/-! ## §1 Paths and numbers -/

/-- The path that a pattern names for a party. -/
def pathFor (pattern : String) (party : Nat) : String :=
  String.ofList (pattern.toList.flatMap fun c => if c = '#' then (toString party).toList else [c])

/-- Read the value of an option that is a number of some bits. -/
def readNumber (bits : Nat) (text : String) : Except String Nat :=
  (Decimal.read (Nat.pow 2 bits) text).mapError (·.message)

/-! ## §2 Options -/

/-- What is to be dealt. -/
structure DealOptions where
  parties : Nat
  /-- The pattern of the output paths. -/
  output : String
  modulus : Modulus
  triples : Nat
  /-- Number of masks for each owner. -/
  masks : Nat
  /-- A number that the dealer's generator is seeded with. -/
  seed : Option Nat

/-- Options given so far. -/
structure DealDraft where
  parties : Option Nat := none
  output : Option String := none
  modulus : Option Modulus := none
  triples : Option Nat := none
  masks : Option Nat := none
  seed : Option Nat := none

/-- The modulus with a name. -/
def readModulus : String → Except String Modulus
  | "61" => .ok .mersenne61
  | "127" => .ok .mersenne127
  | "ring128" => .ok .ring128
  | _ => .error "Unsupported field type. Available options: 61, 127, ring128"

namespace Deal

/-- The command and its options. -/
def command : Command DealDraft where
  name := "dealer"
  description := "SPDZ offline preprocessing tool."
  options := [
    .single "parties" true "number of parties participating in protocol"
      (readNumber 64) (·.parties) fun n d => { d with parties := some n },
    .single "output" true "output path pattern ('#' is replaced with party ID, starting from 1)"
      .ok (·.output) fun text d => { d with output := some text },
    .single "field" false "target field"
      readModulus (·.modulus) fun modulus d => { d with modulus := some modulus },
    .single "beaver-triples" true "number of beaver triples to be generated"
      (readNumber 64) (·.triples) fun n d => { d with triples := some n },
    .single "input-masks" true "number of input masks to be generated for each party"
      (readNumber 64) (·.masks) fun n d => { d with masks := some n },
    .single "seed" false "seed for reproducible output, drawn from the OS if absent"
      (readNumber 64) (·.seed) fun n d => { d with seed := some n }]

/-- The options of a draft in which nothing required is missing. -/
def options? (draft : DealDraft) : Option DealOptions := do
  return {
    parties := ← draft.parties
    output := ← draft.output
    modulus := draft.modulus.getD .mersenne127
    triples := ← draft.triples
    masks := ← draft.masks
    seed := draft.seed }

/-! ## §3 Dealing -/

/-- Why nothing, or not everything, was dealt. -/
inductive Failure where
  | tooFewParties
  | file (cause : FileError)
deriving DecidableEq, Repr

/-- The text shown when a deal is refused. -/
def Failure.message : Failure → String
  | .tooFewParties => "at least two parties are required"
  | .file cause => cause.message

/-- The generator of a deal; `entropy` seeds it if no number does. -/
def generator (options : DealOptions) (entropy : Seed) : Generator :=
  match options.seed with
  | some number => .ofNumber (UInt64.ofNat number)
  | none => .ofSeed 12 entropy

/-- The data dealt to all parties. -/
def data (options : DealOptions) (entropy : Seed) : List (DealtData options.modulus) :=
  (Dealer.generate options.modulus options.parties options.triples options.masks
    (generator options entropy)).1

/-- Deal to every party and write the files, those of lower parties first. -/
def run (options : DealOptions) (entropy : Seed) (files : FileStore) : Except Failure FileStore :=
  if options.parties < 2 then .error .tooFewParties
  else
    let outputs := (data options entropy).map fun d => (pathFor options.output d.party, d.toBytes)
    (files.writeAll outputs).mapError .file

end Deal

end JointCircuit
