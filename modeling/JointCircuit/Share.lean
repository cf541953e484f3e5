/-
JointCircuit.Share — one party's part of an authenticated secret.

A secret is shared additively: the parties' `share`s sum to it, and
their `mac`s sum to the secret times the sum of the parties' key shares.
All operations are linear, so every party acts on its own part alone.
A public constant enters the value at party 1 only, but the MAC at every
party.
-/
import JointCircuit.Element

namespace JointCircuit

/-- A party's additive part of a value and of the value's MAC. -/
structure AuthShare (m : Modulus) where
  share : Element m
  mac : Element m
deriving DecidableEq

namespace AuthShare

variable {m : Modulus}

/-- The all-zero part, which shares the value zero. -/
def zero : AuthShare m :=
  ⟨0, 0⟩

instance : Zero (AuthShare m) := ⟨zero⟩
instance : Inhabited (AuthShare m) := ⟨zero⟩

instance : Add (AuthShare m) := ⟨fun x y => ⟨x.share + y.share, x.mac + y.mac⟩⟩
instance : Sub (AuthShare m) := ⟨fun x y => ⟨x.share - y.share, x.mac - y.mac⟩⟩
instance : Neg (AuthShare m) := ⟨fun x => ⟨-x.share, -x.mac⟩⟩

/-- Multiply the shared value by a public one. -/
def scale (x : AuthShare m) (c : Element m) : AuthShare m :=
  ⟨x.share * c, x.mac * c⟩

/-- The part that party `party` with key share `key` holds of the public constant `c`. -/
def ofPublic (c key : Element m) (party : Nat) : AuthShare m :=
  ⟨if party = 1 then c else 0, key * c⟩

/-- Add a public constant to the shared value. -/
def addPublic (x : AuthShare m) (c key : Element m) (party : Nat) : AuthShare m :=
  x + ofPublic c key party

/-- Subtract a public constant from the shared value. -/
def subPublic (x : AuthShare m) (c key : Element m) (party : Nat) : AuthShare m :=
  x - ofPublic c key party

/-! ## §1 The parts of each operation -/

@[simp] theorem share_zero : (0 : AuthShare m).share = 0 := rfl
@[simp] theorem mac_zero : (0 : AuthShare m).mac = 0 := rfl
@[simp] theorem share_add (x y : AuthShare m) : (x + y).share = x.share + y.share := rfl
@[simp] theorem mac_add (x y : AuthShare m) : (x + y).mac = x.mac + y.mac := rfl
@[simp] theorem share_sub (x y : AuthShare m) : (x - y).share = x.share - y.share := rfl
@[simp] theorem mac_sub (x y : AuthShare m) : (x - y).mac = x.mac - y.mac := rfl
@[simp] theorem share_neg (x : AuthShare m) : (-x).share = -x.share := rfl
@[simp] theorem mac_neg (x : AuthShare m) : (-x).mac = -x.mac := rfl
@[simp] theorem share_scale (x : AuthShare m) (c : Element m) :
    (x.scale c).share = x.share * c := rfl
@[simp] theorem mac_scale (x : AuthShare m) (c : Element m) : (x.scale c).mac = x.mac * c := rfl

end AuthShare

end JointCircuit
