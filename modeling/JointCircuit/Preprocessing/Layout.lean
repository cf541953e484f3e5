/-
JointCircuit.Preprocessing.Layout — dealt data as the bytes of a file.

A layout pairs a writer with a reader that takes its part off the front
of a byte string. Numbers take eight bytes and elements the width of the
modulus, least significant byte first; a list is its length followed by
its members. Bytes after the value are left over and ignored.

Main statement: reading what was written gives the value and the bytes
after it, for every layout built here (`Layout.Lawful`).
-/
import JointCircuit.Preprocessing.Dealt

namespace JointCircuit

/-- Why bytes cannot be read back. -/
inductive LayoutError where
  /-- The bytes end before the value does. -/
  | incomplete
  /-- A number is not below the modulus. -/
  | invalidElement
deriving DecidableEq, Repr

/-- The text of a layout error that this library itself words. -/
def LayoutError.detail? : LayoutError → Option String
  | .incomplete => none
  | .invalidElement => some "Invalid field element"

/-- A way to write values as bytes and to read them back. -/
structure Layout (α : Type) where
  encode : α → Bytes
  decode : Bytes → Except LayoutError (α × Bytes)

namespace Layout

variable {α β : Type} {m : Modulus}

/-- Reading what was written gives the value back and leaves what follows it. -/
def Lawful (layout : Layout α) (valid : α → Prop) : Prop :=
  ∀ x rest, valid x → layout.decode (layout.encode x ++ rest) = .ok (x, rest)

/-! ## §1 Layouts -/

/-- Take the first `width` bytes off. -/
def takeBytes (width : Nat) (bytes : Bytes) : Except LayoutError (Bytes × Bytes) :=
  if width ≤ bytes.length then .ok (bytes.take width, bytes.drop width) else .error .incomplete

/-- A number of eight bytes. -/
def natural : Layout Nat where
  encode n := Bytes.little 8 n
  decode bytes := do
    let (field, rest) ← takeBytes 8 bytes
    return (Bytes.ofLittle field, rest)

/-- An element; a number that is not below the modulus is refused. -/
def element (m : Modulus) : Layout (Element m) where
  encode x := Bytes.little m.byteLength x.val
  decode bytes := do
    let (field, rest) ← takeBytes m.byteLength bytes
    if h : Bytes.ofLittle field < m.size then return (⟨Bytes.ofLittle field, h⟩, rest)
    else throw .invalidElement

/-- One value after another. -/
def pair (first : Layout α) (second : Layout β) : Layout (α × β) where
  encode p := first.encode p.1 ++ second.encode p.2
  decode bytes := do
    let (a, rest) ← first.decode bytes
    let (b, rest) ← second.decode rest
    return ((a, b), rest)

/-- Values that are written as other values. -/
def via (layout : Layout β) (into : α → β) (back : β → α) : Layout α where
  encode a := layout.encode (into a)
  decode bytes := do
    let (b, rest) ← layout.decode bytes
    return (back b, rest)

/-- Read `count` values. -/
def decodeMany (layout : Layout α) : (count : Nat) → Bytes → Except LayoutError (List α × Bytes)
  | 0, bytes => .ok ([], bytes)
  | count + 1, bytes => do
    let (x, rest) ← layout.decode bytes
    let (xs, rest) ← decodeMany layout count rest
    return (x :: xs, rest)

/-- A list: its length and its members. -/
def list (layout : Layout α) : Layout (List α) where
  encode xs := natural.encode xs.length ++ xs.flatMap layout.encode
  decode bytes := do
    let (count, rest) ← natural.decode bytes
    decodeMany layout count rest

/-- A share: its value part, then its MAC part. -/
def share (m : Modulus) : Layout (AuthShare m) :=
  (pair (element m) (element m)).via (fun s => (s.share, s.mac)) (fun p => ⟨p.1, p.2⟩)

/-- A triple: its three shares. -/
def triple (m : Modulus) : Layout (Triple m) :=
  (pair (share m) (pair (share m) (share m))).via
    (fun t => (t.a, t.b, t.c)) (fun p => ⟨p.1, p.2.1, p.2.2⟩)

/-- Dealt data: its fields in order. -/
def dealtData (m : Modulus) : Layout (DealtData m) :=
  (pair natural (pair natural (pair (element m) (pair (list (triple m))
    (pair (list (list (share m))) (list (element m))))))).via
    (fun d => (d.parties, d.party, d.keyShare, d.triples, d.masks, d.plaintexts))
    (fun p => ⟨p.1, p.2.1, p.2.2.1, p.2.2.2.1, p.2.2.2.2.1, p.2.2.2.2.2⟩)

/-! ## §2 Reading back what was written -/

theorem takeBytes_append {width : Nat} {field rest : Bytes} (h : field.length = width) :
    takeBytes width (field ++ rest) = .ok (field, rest) := by
  subst h
  simp [takeBytes]

theorem natural_lawful : natural.Lawful (· < Bytes.capacity 8) := by
  intro n rest hn
  have hv : Bytes.ofLittle (Bytes.little 8 n) = n := Bytes.ofLittle_little hn
  simp only [natural, takeBytes_append (Bytes.length_little 8 n), bind, Except.bind, pure,
    Except.pure, hv]

theorem element_lawful : (element m).Lawful (fun _ => True) := by
  intro x rest _
  have hv : Bytes.ofLittle (Bytes.little m.byteLength x.val) = x.val :=
    Bytes.ofLittle_little (Element.val_lt_capacity x)
  simp only [element, takeBytes_append (Bytes.length_little m.byteLength x.val), bind,
    Except.bind, pure, Except.pure, hv, x.isLt, dite_true]

theorem Lawful.pair {first : Layout α} {second : Layout β} {validA : α → Prop} {validB : β → Prop}
    (ha : first.Lawful validA) (hb : second.Lawful validB) :
    (first.pair second).Lawful (fun p => validA p.1 ∧ validB p.2) := by
  rintro ⟨a, b⟩ rest ⟨hva, hvb⟩
  simp only [Layout.pair, List.append_assoc, ha a _ hva, bind, Except.bind, hb b _ hvb, pure,
    Except.pure]

theorem Lawful.via {layout : Layout β} {valid : β → Prop} {into : α → β} {back : β → α}
    (h : layout.Lawful valid) (hback : ∀ a, back (into a) = a) :
    (layout.via into back).Lawful (fun a => valid (into a)) := by
  intro a rest hv
  simp only [Layout.via, h (into a) rest hv, bind, Except.bind, pure, Except.pure, hback]

theorem Lawful.decodeMany {layout : Layout α} {valid : α → Prop} (h : layout.Lawful valid)
    (xs : List α) (rest : Bytes) (hv : ∀ x ∈ xs, valid x) :
    layout.decodeMany xs.length (xs.flatMap layout.encode ++ rest) = .ok (xs, rest) := by
  induction xs with
  | nil => rfl
  | cons x xs ih =>
    simp only [List.length_cons, List.flatMap_cons, List.append_assoc, Layout.decodeMany,
      h x _ (hv x (by simp)), bind, Except.bind, ih (fun y hy => hv y (by simp [hy])), pure,
      Except.pure]

theorem Lawful.list {layout : Layout α} {valid : α → Prop} (h : layout.Lawful valid) :
    layout.list.Lawful (fun xs => xs.length < Bytes.capacity 8 ∧ ∀ x ∈ xs, valid x) := by
  rintro xs rest ⟨hl, hv⟩
  simp only [Layout.list, List.append_assoc, natural_lawful xs.length _ hl, bind, Except.bind,
    h.decodeMany xs rest hv]

end Layout

namespace DealtData

variable {m : Modulus}

/-- The bytes of a file with dealt data. -/
def toBytes (data : DealtData m) : Bytes :=
  (Layout.dealtData m).encode data

/-- The dealt data at the front of a file. -/
def ofBytes (m : Modulus) (bytes : Bytes) : Except LayoutError (DealtData m) :=
  (·.1) <$> (Layout.dealtData m).decode bytes

end DealtData

end JointCircuit
