/-
JointCircuit.Transport.Address — socket addresses as text.

An address is four octets or eight 16-bit groups, with a port. Octets are
decimal without superfluous zeros. Groups are hexadecimal; the longest
run of zero groups may be left out between two colons, and the last two
groups may be written as four octets. Ports and scopes are decimal with
any number of leading zeros. Reading accepts every such form; writing
chooses one of them.
-/
import JointCircuit.Text.JsonValue

namespace JointCircuit

/-- The address and port that a party listens on. -/
inductive Address where
  | ipv4 (octets : Vector UInt8 4) (port : UInt16)
  | ipv6 (groups : Vector UInt16 8) (scope : UInt32) (port : UInt16)
deriving DecidableEq

namespace Address

/-- The address of the host itself, with a port. -/
def loopback (port : UInt16) : Address :=
  .ipv4 #v[127, 0, 0, 1] port

/-! ## §1 Numbers -/

/-- A decimal number below `bound` at the front of a text. -/
def readDecimal (bound : Nat) (cs : List Char) : Option (Nat × List Char) :=
  let digits := cs.takeWhile JsonValue.isDigit
  let n := JsonValue.digitsValue digits
  if digits.isEmpty ∨ bound ≤ n then none else some (n, cs.dropWhile JsonValue.isDigit)

/-- A decimal octet at the front of a text, without superfluous zeros. -/
def readOctet (cs : List Char) : Option (UInt8 × List Char) :=
  let digits := cs.takeWhile JsonValue.isDigit
  if digits.head? = some '0' ∧ 1 < digits.length then none
  else (readDecimal 256 cs).map fun (n, rest) => (UInt8.ofNat n, rest)

/-- A group at the front of a text: one to four hexadecimal digits, and no fifth. -/
def readGroup (cs : List Char) : Option (UInt16 × List Char) :=
  let isHex (c : Char) : Bool := (JsonValue.hexDigit? c).isSome
  let digits := cs.takeWhile isHex
  if digits.isEmpty ∨ 4 < digits.length then none
  else
    let n := digits.foldl (fun acc c => 16 * acc + (JsonValue.hexDigit? c).getD 0) 0
    some (UInt16.ofNat n, cs.dropWhile isHex)

/-- Drop a character that has to come next. -/
def expect (c : Char) : List Char → Option (List Char)
  | [] => none
  | d :: rest => if d = c then some rest else none

/-! ## §2 Reading -/

/-- Four octets at the front of a text. -/
def readOctets (cs : List Char) : Option (Vector UInt8 4 × List Char) := do
  let (a, rest) ← readOctet cs
  let (b, rest) ← readOctet (← expect '.' rest)
  let (c, rest) ← readOctet (← expect '.' rest)
  let (d, rest) ← readOctet (← expect '.' rest)
  return (#v[a, b, c, d], rest)

/-- Two octets as a group. -/
def joinOctets (high low : UInt8) : UInt16 :=
  high.toUInt16 * 256 + low.toUInt16

/-- As many groups as there are at the front of a text, at most `room`; the flag tells whether the
last two of them were written as octets. All groups but the first follow a colon. -/
def readGroups : (room : Nat) → (first : Bool) → List Char → List UInt16 × Bool × List Char
  | 0, _, cs => ([], false, cs)
  | room + 1, first, cs =>
    match if first then some cs else expect ':' cs with
    | none => ([], false, cs)
    | some body =>
      match if room = 0 then none else readOctets body with
      | some (octets, rest) =>
        ([joinOctets octets[0] octets[1], joinOctets octets[2] octets[3]], true, rest)
      | none =>
        match readGroup body with
        | none => ([], false, cs)
        | some (group, rest) =>
          let (groups, octets, rest) := readGroups room false rest
          (group :: groups, octets, rest)

/-- Eight groups at the front of a text. If fewer than eight come before two colons, those stand
for at least one group of zeros. -/
def readAllGroups (cs : List Char) : Option (List UInt16 × List Char) :=
  let (front, octets, rest) := readGroups 8 true cs
  if front.length = 8 then some (front, rest)
  else if octets then none
  else do
    let (back, _, rest) := readGroups (7 - front.length) true (← expect ':' (← expect ':' rest))
    let zeros := List.replicate (8 - front.length - back.length) 0
    return (front ++ zeros ++ back, rest)

/-- A colon and a port, with nothing after them. -/
def readPort (cs : List Char) : Option UInt16 := do
  let (port, rest) ← readDecimal (Nat.pow 2 16) (← expect ':' cs)
  if rest.isEmpty then some (UInt16.ofNat port) else none

/-- An address of four octets. -/
def readIPv4 (cs : List Char) : Option Address := do
  let (octets, rest) ← readOctets cs
  return .ipv4 octets (← readPort rest)

/-- A scope after a percent sign; zero if there is none. -/
def readScope (cs : List Char) : Nat × List Char :=
  ((expect '%' cs).bind (readDecimal (Nat.pow 2 32))).getD (0, cs)

/-- An address of eight groups. -/
def readIPv6 (cs : List Char) : Option Address := do
  let (groups, rest) ← readAllGroups (← expect '[' cs)
  let (scope, rest) := readScope rest
  let port ← readPort (← expect ']' rest)
  return .ipv6 (Vector.ofFn fun i => groups.getD i 0) (UInt32.ofNat scope) port

/-- The address that a whole text holds. -/
def parse? (text : String) : Option Address :=
  let cs := text.toList
  (readIPv4 cs).or (readIPv6 cs)

/-! ## §3 Writing -/

/-- Four octets. -/
def renderOctets (octets : List UInt8) : String :=
  String.intercalate "." (octets.map fun octet => toString octet.toNat)

/-- A run of groups. -/
def renderGroups (groups : List UInt16) : String :=
  String.intercalate ":" (groups.map fun g => String.ofList (Nat.toDigits 16 g.toNat))

/-- Start and length of the longest run of zeros, the first of equally long ones. `start` is the
position of the first group in the list. -/
def longestZeros (start : Nat) : List UInt16 → Nat × Nat
  | [] => (start, 0)
  | g :: rest =>
    let here := ((g :: rest).takeWhile (· == 0)).length
    let later := longestZeros (start + 1) rest
    if later.2 ≤ here then (start, here) else later

/-- Eight groups. Addresses that embed four octets show them; otherwise the longest run of at
least two zeros is left out. -/
def renderAllGroups (groups : List UInt16) : String :=
  match groups with
  | [0, 0, 0, 0, 0, 0xffff, high, low] =>
    "::ffff:" ++ renderOctets [(high / 256).toUInt8, high.toUInt8, (low / 256).toUInt8, low.toUInt8]
  | _ =>
    let (start, length) := longestZeros 0 groups
    if length < 2 then renderGroups groups
    else renderGroups (groups.take start) ++ "::" ++ renderGroups (groups.drop (start + length))

/-- The text of an address. -/
def render : Address → String
  | .ipv4 octets port => renderOctets octets.toList ++ ":" ++ toString port.toNat
  | .ipv6 groups scope port =>
    let shown := if scope = 0 then "" else "%" ++ toString scope.toNat
    "[" ++ renderAllGroups groups.toList ++ shown ++ "]:" ++ toString port.toNat

end Address

end JointCircuit
