/-
JointCircuit.Text.Hex — byte strings in hexadecimal.

A byte is written with two lower-case digits; reading takes digits of
either case, two for each byte.
-/
import JointCircuit.Bytes
import JointCircuit.Text.JsonValue

namespace JointCircuit

namespace Bytes

/-- The hexadecimal text of a byte string. -/
def toHex (bytes : Bytes) : String :=
  String.ofList (bytes.flatMap fun b => (Nat.toDigits 16 (256 + b.toNat)).tail)

/-- The bytes that pairs of digits stand for. -/
def ofHexDigits? : List Char → Option Bytes
  | [] => some []
  | high :: low :: rest => do
    let byte := 16 * (← JsonValue.hexDigit? high) + (← JsonValue.hexDigit? low)
    return UInt8.ofNat byte :: (← ofHexDigits? rest)
  | _ => none

/-- The byte string that a hexadecimal text stands for. -/
def ofHex? (text : String) : Option Bytes :=
  ofHexDigits? text.toList

end Bytes

end JointCircuit
