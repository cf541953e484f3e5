/-
JointCircuit.Proofs.Sharing — what the parts of all parties add up to.

`Shared key part x` says that the parts share the value `x`: they add up
to it, and their MACs add up to the sum of the key shares times `x`. All
local operations act on the value as on its parts (§1), a triple turns
two opened differences into a product (§2), and an opening of a shared
value to that value has no defect (§3).
-/
import JointCircuit.Preprocessing.Material
import JointCircuit.Protocol.Multiply
import JointCircuit.Proofs.Verdict

namespace JointCircuit

open scoped Fin.CommRing

variable {m : Modulus} {n : Nat}

/-- The parts of `n` parties with these key shares share a value. -/
structure Shared (key : Fin n → Element m) (part : Fin n → AuthShare m) (x : Element m) : Prop where
  share : ∑ i, (part i).share = x
  mac : ∑ i, (part i).mac = (∑ i, key i) * x

namespace Shared

variable {key : Fin n → Element m} {part part' : Fin n → AuthShare m} {x y : Element m}

/-! ## §1 Local operations -/

theorem add (h : Shared key part x) (h' : Shared key part' y) :
    Shared key (fun i => part i + part' i) (x + y) := by
  constructor
  · simp only [AuthShare.share_add]
    rw [Finset.sum_add_distrib, h.share, h'.share]
  · simp only [AuthShare.mac_add]
    rw [Finset.sum_add_distrib, h.mac, h'.mac]
    ring

theorem sub (h : Shared key part x) (h' : Shared key part' y) :
    Shared key (fun i => part i - part' i) (x - y) := by
  constructor
  · simp only [AuthShare.share_sub]
    rw [Finset.sum_sub_distrib, h.share, h'.share]
  · simp only [AuthShare.mac_sub]
    rw [Finset.sum_sub_distrib, h.mac, h'.mac]
    ring

theorem neg (h : Shared key part x) : Shared key (fun i => -part i) (-x) := by
  constructor
  · simp only [AuthShare.share_neg]
    rw [Finset.sum_neg_distrib, h.share]
  · simp only [AuthShare.mac_neg]
    rw [Finset.sum_neg_distrib, h.mac]
    ring

theorem scale (h : Shared key part x) (c : Element m) :
    Shared key (fun i => (part i).scale c) (x * c) := by
  constructor
  · simp only [AuthShare.share_scale]
    rw [← Finset.sum_mul, h.share]
  · simp only [AuthShare.mac_scale]
    rw [← Finset.sum_mul, h.mac]
    ring

/-- A public constant enters at the first party only, and there is one. -/
theorem ofPublic [NeZero n] (key : Fin n → Element m) (c : Element m) :
    Shared key (fun i => AuthShare.ofPublic c (key i) (i + 1)) c := by
  constructor
  · have hfirst : ∀ i : Fin n, (if i.val + 1 = 1 then c else 0) = if i = 0 then c else 0 := by
      intro i
      by_cases hi : i = 0
      · simp [hi]
      · have : i.val ≠ 0 := fun h => hi (Fin.ext h)
        simp [hi, this]
    simp only [AuthShare.ofPublic, hfirst, Finset.sum_ite_eq', Finset.mem_univ, if_true]
  · simp only [AuthShare.ofPublic]
    rw [← Finset.sum_mul]

theorem addPublic [NeZero n] (h : Shared key part x) (c : Element m) :
    Shared key (fun i => (part i).addPublic c (key i) (i + 1)) (x + c) :=
  h.add (ofPublic key c)

theorem subPublic [NeZero n] (h : Shared key part x) (c : Element m) :
    Shared key (fun i => (part i).subPublic c (key i) (i + 1)) (x - c) :=
  h.sub (ofPublic key c)

/-! ## §2 Products -/

/-- A triple of shared values, the third of which is the product of the others. -/
def Triple (key : Fin n → Element m) (t : Fin n → JointCircuit.Triple m) : Prop :=
  ∃ a b, Shared key (fun i => (t i).a) a ∧ Shared key (fun i => (t i).b) b
    ∧ Shared key (fun i => (t i).c) (a * b)

/-- What the parties make of a triple and of two values that are open, whatever these are. -/
theorem product_opened [NeZero n] {t : Fin n → JointCircuit.Triple m} {a b : Element m}
    (ha : Shared key (fun i => (t i).a) a) (hb : Shared key (fun i => (t i).b) b)
    (hc : Shared key (fun i => (t i).c) (a * b)) (ε δ : Element m) :
    Shared key (fun i => MultiplyBatch.product (key i) (i + 1) (t i) (ε, δ))
      ((a + ε) * (b + δ)) := by
  have h := ((hc.add (hb.scale ε)).add (ha.scale δ)).addPublic (ε * δ)
  have hvalue : a * b + b * ε + a * δ + ε * δ = (a + ε) * (b + δ) := by ring
  rw [hvalue] at h
  exact h

/-- What the parties make of a triple when the two differences are open. -/
theorem product [NeZero n] {t : Fin n → JointCircuit.Triple m} {a b : Element m}
    (ha : Shared key (fun i => (t i).a) a) (hb : Shared key (fun i => (t i).b) b)
    (hc : Shared key (fun i => (t i).c) (a * b)) (x y : Element m) :
    Shared key (fun i => MultiplyBatch.product (key i) (i + 1) (t i) (x - a, y - b)) (x * y) := by
  have h := product_opened ha hb hc (x - a) (y - b)
  rw [add_sub_cancel, add_sub_cancel] at h
  exact h

/-! ## §3 Openings -/

/-- The defect of an opening is the key times what the opened value is off by. -/
theorem defect_eq (h : Shared key part x) (y : Element m) :
    defect key (fun i => (part i, y)) = (∑ i, key i) * (x - y) := by
  rw [defect, h.mac, ← Finset.sum_mul, mul_sub]

/-- A shared value that is opened to what it is has no defect. -/
theorem defect_eq_zero (h : Shared key part x) : defect key (fun i => (part i, x)) = 0 := by
  rw [h.defect_eq, sub_self, mul_zero]

end Shared

end JointCircuit
