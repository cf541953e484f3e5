/-
JointCircuit.Text.JsonValue — JSON text.

A reader for whole JSON texts, as far as configurations need it: of
numbers only natural ones keep their value. A string that escapes half
of a surrogate pair names no text; such a string may stand where it is
not looked at, and is refused where it is.
-/
import JointCircuit.Text.Decimal

namespace JointCircuit

/-- A JSON value. Members of objects keep their order and may repeat. -/
inductive JsonValue where
  | null
  | bool (b : Bool)
  /-- A number written as digits alone. -/
  | natural (n : Nat)
  /-- Any other number. -/
  | otherNumber
  /-- A string, unless it escapes half of a surrogate pair. -/
  | string (text : Option String)
  | array (items : List JsonValue)
  | object (members : List (Option String × JsonValue))

namespace JsonValue

/-! ## §1 Numbers -/

/-- Whether a character may stand between tokens. -/
def isSpace (c : Char) : Bool :=
  c = ' ' || c = '\n' || c = '\t' || c = '\r'

/-- Drop spaces. -/
def skipSpaces (cs : List Char) : List Char :=
  cs.dropWhile isSpace

/-- Whether a character is a decimal digit. -/
def isDigit (c : Char) : Bool :=
  (Decimal.digit? c).isSome

/-- The number that a list of digits stands for. -/
def digitsValue (digits : List Char) : Nat :=
  digits.foldl (fun acc c => 10 * acc + (Decimal.digit? c).getD 0) 0

/-- An integer without superfluous zeros: its digits and what follows. -/
def readInteger (cs : List Char) : Option (List Char × List Char) :=
  match cs with
  | '0' :: rest => if (rest.head?.any isDigit) then none else some (['0'], rest)
  | _ =>
    let digits := cs.takeWhile isDigit
    if digits.isEmpty then none else some (digits, cs.dropWhile isDigit)

/-- Drop one or more digits. -/
def skipDigits (cs : List Char) : Option (List Char) :=
  if cs.head?.any isDigit then some (cs.dropWhile isDigit) else none

/-- Drop a fraction, if there is one; the flag tells whether there was. -/
def skipFraction : List Char → Option (Bool × List Char)
  | '.' :: rest => (skipDigits rest).map (true, ·)
  | cs => some (false, cs)

/-- Drop an exponent, if there is one; the flag tells whether there was. -/
def skipExponent (cs : List Char) : Option (Bool × List Char) :=
  match cs with
  | c :: rest =>
    if c = 'e' || c = 'E' then
      match rest with
      | '+' :: digits => (skipDigits digits).map (true, ·)
      | '-' :: digits => (skipDigits digits).map (true, ·)
      | digits => (skipDigits digits).map (true, ·)
    else some (false, cs)
  | [] => some (false, [])

/-- A number after its sign. -/
def readNumber (negative : Bool) (cs : List Char) : Option (JsonValue × List Char) := do
  let (digits, rest) ← readInteger cs
  let (hasFraction, rest) ← skipFraction rest
  let (hasExponent, rest) ← skipExponent rest
  if negative || hasFraction || hasExponent then return (.otherNumber, rest)
  else return (.natural (digitsValue digits), rest)

/-! ## §2 Strings -/

/-- The value of a hexadecimal digit of either case. -/
def hexDigit? (c : Char) : Option Nat :=
  if '0' ≤ c ∧ c ≤ '9' then some (c.toNat - '0'.toNat)
  else if 'a' ≤ c ∧ c ≤ 'f' then some (c.toNat - 'a'.toNat + 10)
  else if 'A' ≤ c ∧ c ≤ 'F' then some (c.toNat - 'A'.toNat + 10)
  else none

/-- Four hexadecimal digits. -/
def readHex4 : List Char → Option (Nat × List Char)
  | a :: b :: c :: d :: rest => do
    return ((← hexDigit? a) * 4096 + (← hexDigit? b) * 256 + (← hexDigit? c) * 16
      + (← hexDigit? d), rest)
  | _ => none

/-- The character of a one-letter escape. -/
def simpleEscape? : Char → Option Char
  | '"' => some '"'
  | '\\' => some '\\'
  | '/' => some '/'
  | 'b' => some '\x08'
  | 'f' => some '\x0c'
  | 'n' => some '\n'
  | 'r' => some '\r'
  | 't' => some '\t'
  | _ => none

/-- A piece of a string: a character, or a 16-bit unit that was escaped. -/
inductive Piece where
  | char (c : Char)
  | unit (n : Nat)

/-- The pieces of a string up to its closing quote, and what follows. -/
def readPieces : (budget : Nat) → List Char → Option (List Piece × List Char)
  | 0, _ => none
  | _ + 1, [] => none
  | _ + 1, '"' :: rest => some ([], rest)
  | budget + 1, '\\' :: 'u' :: rest => do
    let (n, rest) ← readHex4 rest
    let (pieces, rest) ← readPieces budget rest
    return (.unit n :: pieces, rest)
  | budget + 1, '\\' :: c :: rest => do
    let escaped ← simpleEscape? c
    let (pieces, rest) ← readPieces budget rest
    return (.char escaped :: pieces, rest)
  | budget + 1, c :: rest =>
    if c = '\\' || c.toNat < 0x20 then none
    else do
      let (pieces, rest) ← readPieces budget rest
      return (.char c :: pieces, rest)

/-- The characters that pieces stand for: two surrogates that follow each other make one. -/
def joinPieces : List Piece → Option (List Char)
  | [] => some []
  | .char c :: rest => (c :: ·) <$> joinPieces rest
  | .unit high :: .unit low :: rest =>
    if 0xd800 ≤ high ∧ high < 0xdc00 ∧ 0xdc00 ≤ low ∧ low < 0xe000 then
      (Char.ofNat (0x10000 + (high - 0xd800) * 0x400 + (low - 0xdc00)) :: ·) <$> joinPieces rest
    else if 0xd800 ≤ high ∧ high < 0xe000 then none
    else (Char.ofNat high :: ·) <$> joinPieces (.unit low :: rest)
  | .unit n :: rest =>
    if 0xd800 ≤ n ∧ n < 0xe000 then none else (Char.ofNat n :: ·) <$> joinPieces rest

/-- A string after its opening quote. -/
def readString (cs : List Char) : Option (Option String × List Char) := do
  let (pieces, rest) ← readPieces (cs.length + 1) cs
  return ((joinPieces pieces).map String.ofList, rest)

/-! ## §3 Values -/

/-- A fixed word. -/
def readWord (word : String) (value : JsonValue) (cs : List Char) :
    Option (JsonValue × List Char) :=
  if word.toList.isPrefixOf cs then some (value, cs.drop word.length) else none

mutual

/-- A value, spaces before it included. -/
def readValue : (budget : Nat) → List Char → Option (JsonValue × List Char)
  | 0, _ => none
  | budget + 1, cs =>
    match skipSpaces cs with
    | 'n' :: rest => readWord "ull" .null rest
    | 't' :: rest => readWord "rue" (.bool true) rest
    | 'f' :: rest => readWord "alse" (.bool false) rest
    | '-' :: rest => readNumber true rest
    | '"' :: rest => (readString rest).map fun (text, rest) => (.string text, rest)
    | '[' :: rest =>
      match skipSpaces rest with
      | ']' :: rest => some (.array [], rest)
      | _ => (readItems budget rest).map fun (items, rest) => (.array items, rest)
    | '{' :: rest =>
      match skipSpaces rest with
      | '}' :: rest => some (.object [], rest)
      | _ => (readMembers budget rest).map fun (members, rest) => (.object members, rest)
    | cs => readNumber false cs

/-- One or more items and the bracket after them. -/
def readItems : (budget : Nat) → List Char → Option (List JsonValue × List Char)
  | 0, _ => none
  | budget + 1, cs => do
    let (item, rest) ← readValue budget cs
    match skipSpaces rest with
    | ',' :: rest =>
      let (items, rest) ← readItems budget rest
      return (item :: items, rest)
    | ']' :: rest => return ([item], rest)
    | _ => none

/-- One or more members and the brace after them. -/
def readMembers : (budget : Nat) → List Char → Option (List (Option String × JsonValue) × List Char)
  | 0, _ => none
  | budget + 1, cs =>
    match skipSpaces cs with
    | '"' :: rest => do
      let (key, rest) ← readString rest
      match skipSpaces rest with
      | ':' :: rest =>
        let (value, rest) ← readValue budget rest
        match skipSpaces rest with
        | ',' :: rest =>
          let (members, rest) ← readMembers budget rest
          return ((key, value) :: members, rest)
        | '}' :: rest => return ([(key, value)], rest)
        | _ => none
      | _ => none
    | _ => none

end

/-- The value that a whole text holds. Every step into a value takes a character, so the length
bounds the depth. -/
def parse? (text : String) : Option JsonValue := do
  let cs := text.toList
  let (value, rest) ← readValue (2 * cs.length + 2) cs
  if (skipSpaces rest).isEmpty then some value else none

/-! ## §4 Reading values of known shape -/

/-- A natural number below a bound. -/
def natural? (bound : Nat) : JsonValue → Option Nat
  | .natural n => if n < bound then some n else none
  | _ => none

/-- A list of bytes. -/
def bytes? : JsonValue → Option (List UInt8)
  | .array items => items.mapM fun item => (item.natural? 256).map UInt8.ofNat
  | _ => none

/-- The fields of a record, in the order of `names`. An object may hold other members too, but
no field twice; an array gives the fields by position and no more than there are. -/
def fields? (names : List String) : JsonValue → Option (List (Option JsonValue))
  | .object members => do
    let members ← members.mapM fun (key, value) => key.map (·, value)
    names.mapM fun name =>
      match members.filter (·.1 = name) with
      | [] => some none
      | [(_, value)] => some (some value)
      | _ => none
  | .array items =>
    if items.length ≤ names.length then
      some (items.map some ++ List.replicate (names.length - items.length) none)
    else none
  | _ => none

/-! ## §5 Writing -/

/-- The text of a string. The strings that are written hold no character that would have to be
escaped. -/
def renderString (text : String) : String :=
  "\"" ++ text ++ "\""

/-- The text of an array whose items have these texts. -/
def renderArray (items : List String) : String :=
  "[" ++ String.intercalate "," items ++ "]"

/-- The text of an object whose members have these names and texts. -/
def renderObject (members : List (String × String)) : String :=
  let texts := members.map fun (name, value) => renderString name ++ ":" ++ value
  "\x7b" ++ String.intercalate "," texts ++ "\x7d"

/-- The text of a list of bytes. -/
def renderBytes (bytes : List UInt8) : String :=
  renderArray (bytes.map fun b => toString b.toNat)

end JsonValue

end JointCircuit
