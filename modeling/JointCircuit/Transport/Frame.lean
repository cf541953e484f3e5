/-
JointCircuit.Transport.Frame — frames as bytes on a channel.

A channel carries records: four bytes with the length of the record,
most significant first, then the record. A record is a frame: the number
of its messages, then each message as its length and its bytes. Counts
are written in one byte below 251; larger ones after a mark that says
how many bytes follow, least significant first. Reading accepts longer
forms than writing chooses, but nothing after the last message.
-/
import JointCircuit.Mailbox

namespace JointCircuit

namespace Frame

/-- The longest record that a channel carries. -/
def recordLimit : Nat := 8 * 1024 * 1024

/-! ## §1 Counts -/

/-- A count in its shortest form. -/
def encodeCount (n : Nat) : Bytes :=
  if n < 251 then [UInt8.ofNat n]
  else if n < Bytes.capacity 2 then 0xfb :: Bytes.little 2 n
  else if n < Bytes.capacity 4 then 0xfc :: Bytes.little 4 n
  else 0xfd :: Bytes.little 8 n

/-- Split off the first `width` bytes, if there are as many. -/
def splitBytes? (width : Nat) (bytes : Bytes) : Option (Bytes × Bytes) :=
  if width ≤ bytes.length then some (bytes.take width, bytes.drop width) else none

/-- A number of `width` bytes, least significant first. -/
def decodeLittle? (width : Nat) (bytes : Bytes) : Option (Nat × Bytes) :=
  (splitBytes? width bytes).map fun (field, rest) => (Bytes.ofLittle field, rest)

/-- A count and the bytes after it. -/
def decodeCount? : Bytes → Option (Nat × Bytes)
  | [] => none
  | mark :: rest =>
    if mark < 251 then some (mark.toNat, rest)
    else if mark = 0xfb then decodeLittle? 2 rest
    else if mark = 0xfc then decodeLittle? 4 rest
    else if mark = 0xfd then decodeLittle? 8 rest
    else none

/-! ## §2 Records -/

/-- A message: its length and its bytes. -/
def encodeMessage (message : Bytes) : Bytes :=
  encodeCount message.length ++ message

/-- A frame: the number of its messages and the messages. -/
def encode (frame : Frame) : Bytes :=
  encodeCount frame.length ++ frame.flatMap encodeMessage

/-- A message and the bytes after it. -/
def decodeMessage? (bytes : Bytes) : Option (Bytes × Bytes) := do
  let (length, rest) ← decodeCount? bytes
  splitBytes? length rest

/-- `count` messages and the bytes after them. -/
def decodeMessages? : (count : Nat) → Bytes → Option (Frame × Bytes)
  | 0, bytes => some ([], bytes)
  | count + 1, bytes => do
    let (message, rest) ← decodeMessage? bytes
    let (messages, rest) ← decodeMessages? count rest
    return (message :: messages, rest)

/-- The frame that a whole record holds. -/
def decode? (bytes : Bytes) : Option Frame := do
  let (count, rest) ← decodeCount? bytes
  let (messages, rest) ← decodeMessages? count rest
  if rest.isEmpty then some messages else none

/-! ## §3 Channels -/

/-- The bytes put on a channel for a frame, unless the record is too long. -/
def put? (frame : Frame) : Option Bytes :=
  let record := encode frame
  if record.length ≤ recordLimit then some (Bytes.big 4 record.length ++ record) else none

/-- What stands first on a channel whose sender has closed it. -/
inductive Reading where
  | frame (frame : Frame) (rest : Bytes)
  /-- The channel is over. -/
  | ended
  /-- A record is incomplete, too long, or holds no frame. -/
  | malformed
deriving DecidableEq

/-- Read the first record on a channel. A channel that breaks off right after the length of a
record that never came counts as over, like one that ends between records. -/
def readFirst (bytes : Bytes) : Reading :=
  if bytes.isEmpty then .ended
  else
    match splitBytes? 4 bytes with
    | none => .malformed
    | some (header, rest) =>
      let length := Bytes.ofBig header
      if recordLimit < length then .malformed
      else if rest.isEmpty && 0 < length then .ended
      else
        match splitBytes? length rest with
        | none => .malformed
        | some (record, rest) =>
          match decode? record with
          | none => .malformed
          | some frame => .frame frame rest

/-- The frames on a channel, up to the end or to the first that cannot be read; the flag tells
whether the end was reached. At most `budget` frames are read. -/
def readUpTo : (budget : Nat) → Bytes → List Frame × Bool
  | 0, bytes => ([], bytes.isEmpty)
  | budget + 1, bytes =>
    match readFirst bytes with
    | .ended => ([], true)
    | .malformed => ([], false)
    | .frame frame rest =>
      let (frames, whole) := readUpTo budget rest
      (frame :: frames, whole)

/-- The frames on a channel. Every record takes at least one byte, so the length bounds their
number. -/
def readAll (bytes : Bytes) : List Frame × Bool :=
  readUpTo bytes.length bytes

end Frame

end JointCircuit
