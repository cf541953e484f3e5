/-
JointCircuit.Bytes — byte strings and fixed-width positional numbers.

`little` and `big` write a number in a given count of bytes, least or
most significant byte first; `ofLittle` and `ofBig` read one back.

Main statements: reading undoes writing for numbers that fit
(`ofLittle_little`, `ofBig_big`), and every byte string is what writing
its own value gives (`little_ofLittle`, `big_ofBig`), so a number has
exactly one encoding of each width.
-/
namespace JointCircuit

/-- A byte string. -/
abbrev Bytes := List UInt8

namespace Bytes

/-- The low `width` bytes of `n`, least significant first. -/
def little : (width : Nat) → (n : Nat) → Bytes
  | 0, _ => []
  | width + 1, n => UInt8.ofNat n :: little width (n / 256)

/-- The number whose bytes are given least significant first. -/
def ofLittle : Bytes → Nat
  | [] => 0
  | b :: rest => b.toNat + 256 * ofLittle rest

/-- The low `width` bytes of `n`, most significant first. -/
def big (width n : Nat) : Bytes :=
  (little width n).reverse

/-- The number whose bytes are given most significant first. -/
def ofBig (bytes : Bytes) : Nat :=
  ofLittle bytes.reverse

/-- How many byte strings of a width there are: the bound of the numbers that fit. -/
def capacity : (width : Nat) → Nat
  | 0 => 1
  | width + 1 => 256 * capacity width

@[simp] theorem length_little (width n : Nat) : (little width n).length = width := by
  induction width generalizing n with
  | zero => rfl
  | succ width ih => simp [little, ih]

@[simp] theorem length_big (width n : Nat) : (big width n).length = width := by
  simp [big]

/-- Reading back what was written, for a number that fits. -/
theorem ofLittle_little {width n : Nat} (h : n < capacity width) :
    ofLittle (little width n) = n := by
  induction width generalizing n with
  | zero =>
    simp only [capacity] at h
    simp only [little, ofLittle]
    omega
  | succ width ih =>
    simp only [capacity] at h
    have hq : n / 256 < capacity width := by omega
    simp only [little, ofLittle, ih hq, UInt8.toNat_ofNat']
    omega

theorem ofBig_big {width n : Nat} (h : n < capacity width) : ofBig (big width n) = n := by
  simpa [ofBig, big] using ofLittle_little h

/-- A byte string stands for a number that fits its width. -/
theorem ofLittle_lt (bytes : Bytes) : ofLittle bytes < capacity bytes.length := by
  induction bytes with
  | nil => decide
  | cons b rest ih =>
    have hb : b.toNat < 256 := b.toNat_lt
    simp only [ofLittle, List.length_cons, capacity]
    omega

theorem ofBig_lt (bytes : Bytes) : ofBig bytes < capacity bytes.length := by
  simpa [ofBig] using ofLittle_lt bytes.reverse

/-- Writing the value of a byte string gives the string back. -/
theorem little_ofLittle (bytes : Bytes) : little bytes.length (ofLittle bytes) = bytes := by
  induction bytes with
  | nil => rfl
  | cons b rest ih =>
    have hb : b.toNat < 256 := b.toNat_lt
    have hq : (b.toNat + 256 * ofLittle rest) / 256 = ofLittle rest := by omega
    simp only [ofLittle, List.length_cons, little, hq, ih, List.cons.injEq, and_true]
    apply UInt8.toNat_inj.mp
    simp only [UInt8.toNat_ofNat']
    omega

theorem big_ofBig (bytes : Bytes) : big bytes.length (ofBig bytes) = bytes := by
  have h := little_ofLittle bytes.reverse
  simpa [big, ofBig] using congrArg List.reverse h

end Bytes

end JointCircuit
