/-
JointCircuit.Element — residues of a modulus and their encoding.

An element is a natural number below the modulus, with the usual
arithmetic of residues. `toBytes` writes the fixed-width big-endian
encoding that peers exchange and `ofBytes` accepts exactly those
encodings; `encodeAll` and `decodeAll` do the same for a whole payload.

Main statements: `ofBytes_eq_ok_iff` and `decodeAll_encodeAll`.
-/
import JointCircuit.Modulus
import JointCircuit.Bytes
import JointCircuit.Fault

namespace JointCircuit

/-- A residue of the modulus `m`. -/
abbrev Element (m : Modulus) := Fin m.size

namespace Element

variable {m : Modulus}

/-- The residue of a number. -/
def ofNat (m : Modulus) (n : Nat) : Element m :=
  Fin.ofNat m.size n

/-- What an opened value is worth: its residue modulo the effective
width. Below a prime modulus that is the value itself. -/
def effective (x : Element m) : Element m :=
  ⟨x.val % Nat.pow 2 m.effectiveBits, Nat.lt_of_le_of_lt (Nat.mod_le _ _) x.isLt⟩

/-- Over a prime modulus every value is its own effective value. -/
theorem effective_eq_self (h : m ≠ .ring128) (x : Element m) : x.effective = x :=
  Fin.ext (Nat.mod_eq_of_lt (m.lt_two_pow_effectiveBits h x.isLt))

/-! ## §1 One element -/

/-- The encoding of an element: fixed width, most significant byte first. -/
def toBytes (x : Element m) : Bytes :=
  Bytes.big m.byteLength x.val

/-- The element with a given encoding. The length is checked first. -/
def ofBytes (m : Modulus) (bytes : Bytes) : Except WireError (Element m) :=
  if bytes.length = m.byteLength then
    if h : Bytes.ofBig bytes < m.size then .ok ⟨Bytes.ofBig bytes, h⟩ else .error .nonCanonical
  else .error (.length m.byteLength bytes.length)

@[simp] theorem length_toBytes (x : Element m) : x.toBytes.length = m.byteLength := by
  simp [toBytes]

/-- The encoding is wide enough for every element. -/
theorem val_lt_capacity (x : Element m) : x.val < Bytes.capacity m.byteLength := by
  have h : m.size ≤ Bytes.capacity m.byteLength := by cases m <;> decide
  exact Nat.lt_of_lt_of_le x.isLt h

/-- Decoding accepts a byte string exactly if it is the encoding of the element it yields. -/
theorem ofBytes_eq_ok_iff {bytes : Bytes} {x : Element m} :
    ofBytes m bytes = .ok x ↔ bytes = x.toBytes := by
  constructor
  · intro h
    unfold ofBytes at h
    split at h
    · rename_i hl
      split at h
      · cases h
        simp only [toBytes, ← hl, Bytes.big_ofBig]
      · cases h
    · cases h
  · rintro rfl
    have hv : Bytes.ofBig x.toBytes = x.val := Bytes.ofBig_big (val_lt_capacity x)
    simp [ofBytes, hv]

/-! ## §2 Payloads of several elements -/

/-- The encodings of all elements, one after another. -/
def encodeAll (xs : List (Element m)) : Bytes :=
  xs.flatMap toBytes

/-- The first `count` fixed-width pieces of a payload, decoded in order. -/
def decodePieces (m : Modulus) : (count : Nat) → Bytes → Except WireError (List (Element m))
  | 0, _ => .ok []
  | count + 1, bytes => do
    let x ← ofBytes m (bytes.take m.byteLength)
    let xs ← decodePieces m count (bytes.drop m.byteLength)
    return x :: xs

/-- The number of bytes that a count of elements stands for. Lengths are counted in 64 bits, so a
product that does not fit wraps around. -/
def announcedLength (m : Modulus) (count : Nat) : Nat :=
  count * m.byteLength % Bytes.capacity 8

/-- Split a payload into `count` elements. The total length is checked before any piece is
decoded; a length that only a wrapped product announces passes the check, and then as many
elements are decoded as there are. -/
def decodeAll (m : Modulus) (count : Nat) (bytes : Bytes) : Except WireError (List (Element m)) :=
  if bytes.length = count * m.byteLength ∨ bytes.length = announcedLength m count then
    decodePieces m (bytes.length / m.byteLength) bytes
  else .error (.length (announcedLength m count) bytes.length)

theorem length_encodeAll (xs : List (Element m)) :
    (encodeAll xs).length = xs.length * m.byteLength := by
  induction xs with
  | nil => simp [encodeAll]
  | cons x xs ih => simp_all [encodeAll, Nat.add_mul, Nat.add_comm]

theorem decodePieces_encodeAll (xs : List (Element m)) :
    decodePieces m xs.length (encodeAll xs) = .ok xs := by
  induction xs with
  | nil => rfl
  | cons x xs ih =>
    have htake : (encodeAll (x :: xs)).take m.byteLength = x.toBytes := by
      simp [encodeAll]
    have hdrop : (encodeAll (x :: xs)).drop m.byteLength = encodeAll xs := by
      simp [encodeAll]
    have hx : ofBytes m x.toBytes = .ok x := ofBytes_eq_ok_iff.mpr rfl
    simp [decodePieces, htake, hdrop, hx, ih, bind, Except.bind, pure, Except.pure]

/-- A payload is read back as the elements it was made of. -/
theorem decodeAll_encodeAll (xs : List (Element m)) :
    decodeAll m xs.length (encodeAll xs) = .ok xs := by
  simp [decodeAll, length_encodeAll, Nat.mul_div_cancel _ m.byteLength_pos, decodePieces_encodeAll]

end Element

end JointCircuit
