/-
JointCircuit.Fault — everything that can go wrong in a joint evaluation.

A fault is recorded by its cause, with the numbers that identify it; the
wording is kept apart in one `message` function per type. Every fault is
final for the evaluation that meets it.
-/
namespace JointCircuit

/-! ## §1 Data that cannot be decoded -/

/-- Why a byte string is not the encoding of an element. -/
inductive WireError where
  /-- The byte string has the wrong length. -/
  | length (expected actual : Nat)
  /-- The number encoded is not below the modulus. -/
  | nonCanonical
deriving DecidableEq, Repr

/-- The text shown for a wire error. -/
def WireError.message : WireError → String
  | .length expected actual => s!"expected {expected} bytes, got {actual}"
  | .nonCanonical => "encoding is not a canonical element of the modulus"

/-! ## §2 Rejected parameters -/

/-- Why construction parameters are rejected. -/
inductive ConfigError where
  /-- Fewer than two parties. -/
  | tooFewParties (parties : Nat)
  /-- A party id outside 1..=parties. -/
  | partyOutOfRange (party parties : Nat)
  /-- Dealt data with masks for another number of parties. -/
  | maskLists (found expected : Nat)
  /-- Dealt data whose own masks and their plaintexts differ in number. -/
  | maskPlaintexts (masks plaintexts : Nat)
  /-- Bit widths that are not those of the modulus. -/
  | unsupportedBits (operational effective supportedOperational supportedEffective : Nat)
deriving DecidableEq, Repr

/-- The text shown for a rejected parameter. -/
def ConfigError.message : ConfigError → String
  | .tooFewParties parties => s!"at least two parties are required, got {parties}"
  | .partyOutOfRange party parties => s!"party id {party} is outside 1..={parties}"
  | .maskLists found expected =>
    s!"inconsistent preprocessing data: input masks for {found} parties, expected {expected}"
  | .maskPlaintexts masks plaintexts =>
    s!"inconsistent preprocessing data: {masks} own input masks but {plaintexts} plaintexts"
  | .unsupportedBits operational effective supportedOperational supportedEffective =>
    s!"unsupported bit lengths {operational}/{effective}, "
      ++ s!"expected {supportedOperational}/{supportedEffective}"

/-! ## §3 Channels -/

/-- Why a connection to the peers could not be set up. -/
inductive ConnectError where
  /-- The own id is not one of the configured parties. -/
  | invalidParty
  /-- The peer did not answer with the greeting word. -/
  | invalidMagic
  /-- The listening address is taken. -/
  | addressInUse
  /-- The peer closed before its answer was complete. -/
  | unexpectedEnd
  /-- Any other failure that the operating system reports. -/
  | system
deriving DecidableEq, Repr

/-- The text of a connection failure that this library itself words;
the others are worded by the operating system. -/
def ConnectError.detail? : ConnectError → Option String
  | .invalidParty => some "Invalid party ID"
  | .invalidMagic => some "Invalid magic"
  | .addressInUse => none
  | .unexpectedEnd => none
  | .system => none

/-- Failure of a channel; parties are named by their ids, from 1. -/
inductive TransportError where
  | send (party : Nat)
  | receive (party : Nat)
  /-- There is no channel to this party. -/
  | missingChannel (party : Nat)
  | connect (cause : ConnectError)
deriving DecidableEq, Repr

/-- The text shown for a channel failure. -/
def TransportError.message : TransportError → String
  | .send party => s!"error while sending message to party {party}"
  | .receive party => s!"error while receiving message from party {party}"
  | .missingChannel party => s!"no channel to party {party}"
  | .connect cause =>
    match cause.detail? with
    | some detail => s!"connection setup failed: {detail}"
    | none => "connection setup failed"

/-! ## §4 Deviating peers -/

/-- Evidence that a peer did not follow the protocol. -/
inductive Misbehaviour where
  /-- This party saw other broadcasts than the others did. -/
  | digestMismatch (party : Nat)
  /-- A commitment is not as long as a digest. -/
  | commitmentLength (party : Nat)
  /-- An opening does not hash to the commitment received before. -/
  | openingMismatch (party : Nat)
  /-- A contribution to a joint seed is not as long as a seed. -/
  | seedLength (party length : Nat)
  /-- The opened terms of a check do not cancel. -/
  | macCheckFailed
deriving DecidableEq, Repr

/-- The text shown for a misbehaviour. -/
def Misbehaviour.message : Misbehaviour → String
  | .digestMismatch party => s!"broadcast digest of party {party} does not match"
  | .commitmentLength party => s!"commitment of party {party} has the wrong length"
  | .openingMismatch party => s!"opening of party {party} does not match its commitment"
  | .seedLength party length => s!"seed of party {party} has length {length}"
  | .macCheckFailed => "MAC check failed"

/-! ## §5 Missing preprocessing -/

/-- Preprocessed material that cannot be handed out. -/
inductive Shortage where
  | masks (owner : Nat)
  /-- Own masks are left but their plaintexts are not. -/
  | maskPlaintexts
  | triples (requested left : Nat)
  /-- The file that should hold the material cannot be loaded. -/
  | unloadable (path : String)
deriving DecidableEq, Repr

/-- The text shown for a shortage. -/
def Shortage.message : Shortage → String
  | .masks owner => s!"no input masks left for party {owner}"
  | .maskPlaintexts => "no input mask plaintexts left"
  | .triples requested left => s!"requested {requested} triples, {left} left"
  | .unloadable path => s!"cannot load {path}"

/-! ## §6 Circuits that cannot be evaluated -/

/-- What a node of a circuit produces. -/
inductive ValueKind where
  | share | batch | plain | check
deriving DecidableEq, Repr

/-- How a kind of value is called in a message. -/
def ValueKind.describe : ValueKind → String
  | .share => "a share"
  | .batch => "a share batch"
  | .plain => "a plaintext"
  | .check => "a MAC check"

/-- What is wrong with a circuit; nodes are named by their index. -/
inductive CircuitError where
  /-- An operand that does not come before its user. -/
  | forwardOperand (node operand : Nat)
  /-- An input of a party that does not exist. -/
  | unknownOwner (node owner parties : Nat)
  /-- The owner of an input was not given its value. -/
  | missingInput (owner : Nat)
  /-- An operand without a value. -/
  | unevaluated (node : Nat)
  /-- An operand of another kind than its user takes. -/
  | kindMismatch (node : Nat) (found expected : ValueKind)
  /-- A selection past the end of a batch of shares. -/
  | selectionOutside (index length batch : Nat)
  /-- An input without a value, met in the clear. -/
  | missingPlaintext (node : Nat)
  /-- An operand that is not a number, met in the clear. -/
  | notScalar (node : Nat)
  /-- A selection past the end of a batch, met in the clear. -/
  | selectionPastEnd (node batch : Nat)
  /-- A selection from something else than a batch, met in the clear. -/
  | selectionFromOther (node batch : Nat)
  /-- A node that a finished evaluation left out. -/
  | neverEvaluated (node : Nat)
  /-- A result asked for that is not an opened value. -/
  | notOpened (node : Nat)
deriving DecidableEq, Repr

/-- The text shown for a circuit error. -/
def CircuitError.message : CircuitError → String
  | .forwardOperand node operand =>
    s!"node {node} depends on node {operand}, which does not precede it"
  | .unknownOwner node owner parties =>
    s!"node {node} takes input from party {owner}, but there are {parties} parties"
  | .missingInput owner => s!"party {owner} has no value to input"
  | .unevaluated node => s!"node {node} has not been evaluated"
  | .kindMismatch node found expected =>
    s!"node {node} is {found.describe}, expected {expected.describe}"
  | .selectionOutside index length batch =>
    s!"index {index} is outside the batch of {length} produced by node {batch}"
  | .missingPlaintext node => s!"node {node} has no plaintext input"
  | .notScalar node => s!"node {node} is not a scalar"
  | .selectionPastEnd node batch => s!"node {node} selects past the end of node {batch}"
  | .selectionFromOther node batch =>
    s!"node {node} selects from node {batch}, which is not a batch"
  | .neverEvaluated node => s!"node {node} was never evaluated"
  | .notOpened node => s!"node {node} is not an opened value"

/-! ## §7 Violations of the round contract -/

/-- A local violation of the rules that protocols, mailboxes and
evaluators share. -/
inductive Violation where
  /-- As many opened shares as opened values are recorded at a time. -/
  | openingCounts (shares values : Nat)
  /-- The joint generator is used before a seed is agreed. -/
  | noJointRandomness
  | noMessage (party : Nat)
  | unconsumed (count party : Nat)
  /-- Nothing may be sent in the round that finishes a protocol. -/
  | sentInFinalRound
  | noOutput
  | nodeWithoutOutput (node : Nat)
  | maskWithoutPlaintext
  | maskNotDrawn
  | maskedNotReceived
  | commitmentFinished
  | checkFinished
  | tossWithoutSeed
  /-- A transport of one party joined to the pool of another. -/
  | foreignTransport (party parties poolParty poolParties : Nat)
  /-- A protocol that goes on past its last round; none does. -/
  | endless
deriving DecidableEq, Repr

/-- The text shown for a violation. -/
def Violation.message : Violation → String
  | .openingCounts shares values => s!"{shares} opened shares but {values} opened values"
  | .noJointRandomness => "joint randomness is not initialized"
  | .noMessage party => s!"no message from party {party} in this round"
  | .unconsumed count party => s!"{count} unconsumed message(s) from party {party}"
  | .sentInFinalRound => "messages were sent in the final round of a protocol"
  | .noOutput => "protocol finished without output"
  | .nodeWithoutOutput node => s!"node {node} finished without output"
  | .maskWithoutPlaintext => "input mask of own input carries no plaintext"
  | .maskNotDrawn => "input mask was not drawn"
  | .maskedNotReceived => "masked input was not received"
  | .commitmentFinished => "commitment protocol evaluated after completion"
  | .checkFinished => "MAC check evaluated after completion"
  | .tossWithoutSeed => "coin toss finished without a seed"
  | .foreignTransport party parties poolParty poolParties =>
    s!"transport of party {party}/{parties} "
      ++ s!"used with resource pool of party {poolParty}/{poolParties}"
  | .endless => "protocol did not finish"

/-! ## §8 Faults -/

/-- Why a joint evaluation failed. -/
inductive Fault where
  | malicious (cause : Misbehaviour)
  | exhausted (cause : Shortage)
  | wire (cause : WireError)
  | config (cause : ConfigError)
  | transport (cause : TransportError)
  | circuit (cause : CircuitError)
  | protocol (cause : Violation)
deriving DecidableEq, Repr

/-- The text shown for a fault: a heading for its kind, then its cause. -/
def Fault.message : Fault → String
  | .malicious cause => s!"malicious activity detected: {cause.message}"
  | .exhausted cause => s!"preprocessing exhausted: {cause.message}"
  | .wire cause => s!"malformed wire data: {cause.message}"
  | .config cause => s!"invalid configuration: {cause.message}"
  | .transport cause => cause.message
  | .circuit cause => s!"invalid protocol graph: {cause.message}"
  | .protocol cause => s!"protocol violation: {cause.message}"

/-- Whether a fault came from a channel, so that no further exchange can succeed. -/
def Fault.isTransport : Fault → Bool
  | .transport _ => true
  | _ => false

end JointCircuit
