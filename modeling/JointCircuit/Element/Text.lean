/-
JointCircuit.Element.Text — elements as JSON text.

Below a prime modulus an element is the list of its bytes, least
significant first; in the ring it is a number.

-/
import JointCircuit.Element
import JointCircuit.Text.JsonValue

namespace JointCircuit

namespace Element

variable {m : Modulus}

/-- The compact JSON text of an element. -/
def render (x : Element m) : String :=
  match m with
  | .ring128 => toString x.val
  | _ => JsonValue.renderBytes (Bytes.little m.byteLength x.val)

/-- The element that a list of bytes holds, least significant first. -/
def ofLittleBytes? (m : Modulus) (bytes : Bytes) : Option (Element m) :=
  if h : Bytes.ofLittle bytes < m.size then
    if bytes.length = m.byteLength then some ⟨Bytes.ofLittle bytes, h⟩ else none
  else none

/-- The element that a JSON value holds. -/
def ofJson? (m : Modulus) (value : JsonValue) : Option (Element m) :=
  match m with
  | .ring128 => (value.natural? Modulus.ring128.size).map (Element.ofNat .ring128)
  | .mersenne61 => value.bytes?.bind (ofLittleBytes? .mersenne61)
  | .mersenne127 => value.bytes?.bind (ofLittleBytes? .mersenne127)

/-- The element that a JSON text holds. -/
def parse? (m : Modulus) (text : String) : Option (Element m) :=
  (JsonValue.parse? text).bind (ofJson? m)

end Element

end JointCircuit
