/-
JointCircuit.Proofs.Cancelling — how often the coefficients cancel what is wrong.

The terms of a check add up to the combination of what the entries lack
to be sound, whatever was opened (§1). The coefficients for which the
combination vanishes are the kernel of a linear map, so they are counted
by its range, which is the ideal of one residue as soon as the others are
multiples of it (§2). Below a prime modulus that is the ideal of one; in
the ring it is the ideal of the least power of two among the residues
(§3).

Main statement: `cancelling_coefficients` (§4).
-/
import JointCircuit.Proofs.Supply
import Mathlib.LinearAlgebra.Finsupp.LinearCombination
import Mathlib.LinearAlgebra.Quotient.Card
import Mathlib.NumberTheory.LucasLehmer
import Mathlib.NumberTheory.Padics.PadicVal.Basic
import Mathlib.RingTheory.Ideal.Quotient.Basic

namespace JointCircuit

open scoped Fin.CommRing

variable {m : Modulus} {n k : Nat}

/-! ## §1 Batches of common values -/

/-- What one entry lacks to be sound: the MACs of all parties less the key times the value. -/
def commonDefect (key : Fin n → Element m) (part : Fin n → AuthShare m) (value : Element m) :
    Element m :=
  ∑ i, (part i).mac - (∑ i, key i) * value

/-- The openings of parts to values that all parties agree on. -/
def commonOpenings (part : Fin k → Fin n → AuthShare m) (value : Fin k → Element m) :
    List (Opening m n) :=
  List.ofFn fun j i => (part j i, value j)

theorem openedAt_commonOpenings (i : Fin n) (part : Fin k → Fin n → AuthShare m)
    (value : Fin k → Element m) : openedAt i (commonOpenings part value)
      = { shares := List.ofFn fun j => part j i, values := List.ofFn value } := by
  simp only [openedAt, commonOpenings, List.map_ofFn, Function.comp_def]

/-- The combined defect of common openings, entry by entry. -/
theorem combinedDefect_commonOpenings (key : Fin n → Element m)
    (part : Fin k → Fin n → AuthShare m) (value r : Fin k → Element m) :
    combinedDefect key (commonOpenings part value) (List.ofFn r)
      = ∑ j, r j * commonDefect key (part j) (value j) := by
  have hzip : (commonOpenings part value).zip (List.ofFn r)
      = List.ofFn fun j => ((fun i => (part j i, value j) : Opening m n), r j) :=
    List.ext_getElem (by simp [commonOpenings]) (by simp [commonOpenings])
  rw [combinedDefect, hzip, List.map_ofFn, List.sum_ofFn]
  simp only [Function.comp_apply, defect, commonDefect, Finset.sum_mul]

/-- The terms that the parties compute add up to it. -/
theorem sum_checkTerm_common (key : Fin n → Element m) (part : Fin k → Fin n → AuthShare m)
    (value r : Fin k → Element m) :
    ∑ i, checkTerm (key i) (List.ofFn fun j => part j i) (List.ofFn value) (List.ofFn r)
      = ∑ j, r j * commonDefect key (part j) (value j) := by
  rw [← combinedDefect_commonOpenings, ← sum_checkTerm]
  simp only [openedAt_commonOpenings]

/-- One wrong value in a batch that is sound without it. -/
theorem sum_commonDefect_update {key : Fin n → Element m} {part : Fin k → Fin n → AuthShare m}
    {value : Fin k → Element m} (h : ∀ j, commonDefect key (part j) (value j) = 0) (j : Fin k)
    (error : Element m) (r : Fin k → Element m) :
    ∑ l, r l * commonDefect key (part l) (Function.update value j (value j + error) l)
      = -(r j * ((∑ i, key i) * error)) := by
  have hdefect (l : Fin k) : commonDefect key (part l) (Function.update value j (value j + error) l)
      = if l = j then -((∑ i, key i) * error) else 0 := by
    by_cases hl : l = j
    · subst hl
      have hsound := h l
      rw [commonDefect] at hsound
      rw [if_pos rfl, Function.update_self, commonDefect, mul_add, ← sub_sub, hsound, zero_sub]
    · rw [if_neg hl, Function.update_of_ne hl, h l]
  simp only [hdefect, mul_ite, mul_zero, Finset.sum_ite_eq', Finset.mem_univ, if_true, mul_neg]

/-! ## §2 Counting a kernel -/

section Counting

variable {R : Type} [CommRing R] {d : Fin k → R} {g : R}

/-- The combinations of multiples of `g`, one of which is as good as `g`, are the multiples
of `g`. -/
theorem range_combination (hdvd : ∀ j, g ∣ d j) (hunit : ∃ j, d j ∣ g) :
    LinearMap.range (Fintype.linearCombination R d) = Ideal.span {g} := by
  obtain ⟨j, hj⟩ := hunit
  rw [Fintype.range_linearCombination]
  refine le_antisymm (Submodule.span_le.mpr ?_) ?_
  · rintro _ ⟨l, rfl⟩
    exact Ideal.mem_span_singleton.mpr (hdvd l)
  · refine (Ideal.span_singleton_le_span_singleton.mpr hj).trans ?_
    exact Submodule.span_mono (Set.singleton_subset_iff.mpr ⟨j, rfl⟩)

/-- As many coefficients give each combination as give zero. -/
theorem card_cancelling [Finite R] (hdvd : ∀ j, g ∣ d j) (hunit : ∃ j, d j ∣ g) :
    Nat.card {r : Fin k → R // ∑ j, r j * d j = 0} * Nat.card (Ideal.span {g})
      = Nat.card R ^ k := by
  have hkernel : Nat.card {r : Fin k → R // ∑ j, r j * d j = 0}
      = Nat.card (LinearMap.ker (Fintype.linearCombination R d)) :=
    Nat.card_congr (Equiv.subtypeEquivRight fun r => by
      rw [LinearMap.mem_ker, Fintype.linearCombination_apply]
      simp only [smul_eq_mul])
  rw [hkernel, ← range_combination hdvd hunit,
    ← Nat.card_congr (LinearMap.quotKerEquivRange (Fintype.linearCombination R d)).toEquiv,
    ← Submodule.card_eq_card_quotient_mul_card, Nat.card_fun, Nat.card_fin]

end Counting

/-! ## §3 The residues -/

/-- The moduli that are not the ring are primes. -/
theorem size_prime (hm : m ≠ .ring128) : m.size.Prime := by
  cases m with
  | mersenne61 => exact lucas_lehmer_sufficiency 61 (by norm_num) (by norm_num)
  | mersenne127 => exact lucas_lehmer_sufficiency 127 (by norm_num) (by norm_num)
  | ring128 => exact absurd rfl hm

theorem isUnit_of_coprime {x : Element m} (h : x.val.Coprime m.size) : IsUnit x := by
  have hone : 1 < m.size := by cases m <;> decide
  obtain ⟨y, -, hy⟩ := Nat.exists_mul_mod_eq_one_of_coprime h hone
  refine IsUnit.of_mul_eq_one (y : Element m) (Fin.ext ?_)
  rw [Fin.val_mul, Fin.val_natCast, Nat.mul_mod_mod, hy]
  exact (Nat.mod_eq_of_lt hone).symm

/-- Below a prime modulus only zero has no inverse. -/
theorem isUnit_of_ne_zero (hm : m ≠ .ring128) {x : Element m} (hx : x ≠ 0) : IsUnit x := by
  refine isUnit_of_coprime (Nat.Coprime.symm ((size_prime hm).coprime_iff_not_dvd.mpr fun h => ?_))
  exact hx (Fin.ext (Nat.eq_zero_of_dvd_of_lt h x.isLt))

/-- Below a prime modulus no product of others is zero. -/
theorem mul_ne_zero_of_prime (hm : m ≠ .ring128) {x y : Element m} (hx : x ≠ 0) (hy : y ≠ 0) :
    x * y ≠ 0 := by
  have : Nontrivial (Element m) := ⟨x, 0, hx⟩
  exact ((isUnit_of_ne_zero hm hx).mul (isUnit_of_ne_zero hm hy)).ne_zero

/-- Below a prime modulus all but one of the coefficients may be chosen freely. -/
theorem card_cancelling_prime (hm : m ≠ .ring128) {d : Fin k → Element m} (h : ∃ j, d j ≠ 0) :
    Nat.card {r : Fin k → Element m // ∑ j, r j * d j = 0} = m.size ^ (k - 1) := by
  obtain ⟨j, hj⟩ := h
  have hcard := card_cancelling (fun l => one_dvd (d l)) ⟨j, (isUnit_of_ne_zero hm hj).dvd⟩
  have hall : Nat.card (Ideal.span {(1 : Element m)}) = m.size := by
    rw [Ideal.span_singleton_one, Nat.card_congr (Submodule.topEquiv (R := Element m)).toEquiv,
      Nat.card_fin]
  have hpow : m.size ^ k = m.size ^ (k - 1) * m.size := by
    rw [← pow_succ]
    congr 1
    have := j.isLt
    omega
  rw [hall, Nat.card_fin, hpow] at hcard
  exact Nat.eq_of_mul_eq_mul_right m.size_pos hcard

/-- The multiples of a power of two in the ring. -/
theorem card_span_two_pow {v : Nat} (hv : v ≤ 128) :
    Nat.card (Ideal.span {((2 ^ v : Nat) : Element .ring128)}) = 2 ^ (128 - v) := by
  have hsize : Modulus.ring128.size = 2 ^ v * 2 ^ (128 - v) := by
    rw [← pow_add, Nat.add_sub_cancel' hv]
    rfl
  have hspan : Nat.card (Ideal.span {((2 ^ v : Nat) : Element .ring128)})
      = Nat.card (AddSubgroup.zmultiples ((2 ^ v : Nat) : Element .ring128)) := by
    refine Nat.card_congr (Equiv.subtypeEquivRight fun x => ?_)
    rw [Ideal.mem_span_singleton', AddSubgroup.mem_zmultiples_iff]
    constructor
    · rintro ⟨a, rfl⟩
      exact ⟨a.val, by rw [natCast_zsmul, nsmul_eq_mul, Fin.cast_val_eq_self]⟩
    · rintro ⟨z, rfl⟩
      exact ⟨z, by rw [zsmul_eq_mul]⟩
  rw [hspan, Nat.card_zmultiples]
  refine Nat.dvd_antisymm (addOrderOf_dvd_iff_nsmul_eq_zero.mpr ?_) ?_
  · rw [nsmul_eq_mul, ← Nat.cast_mul, Fin.natCast_eq_zero, hsize, Nat.mul_comm]
  · have hzero := addOrderOf_nsmul_eq_zero ((2 ^ v : Nat) : Element .ring128)
    rw [nsmul_eq_mul, ← Nat.cast_mul, Fin.natCast_eq_zero] at hzero
    refine Nat.dvd_of_mul_dvd_mul_left (Nat.two_pow_pos v) ?_
    rwa [← hsize, Nat.mul_comm]

section Ring

variable {x : Element .ring128} {v : Nat}

theorem two_pow_dvd (h : 2 ^ v ∣ x.val) : ((2 ^ v : Nat) : Element .ring128) ∣ x := by
  obtain ⟨u, hu⟩ := h
  refine ⟨(u : Element .ring128), ?_⟩
  rw [← Nat.cast_mul, ← hu, Fin.cast_val_eq_self]

/-- In the ring a residue is as good as the largest power of two that divides it. -/
theorem dvd_two_pow (h : 2 ^ v ∣ x.val) (hmax : ¬ 2 ^ (v + 1) ∣ x.val) :
    x ∣ ((2 ^ v : Nat) : Element .ring128) := by
  obtain ⟨u, hu⟩ := h
  have hodd : ¬ 2 ∣ u := by
    rintro ⟨w, rfl⟩
    exact hmax ⟨w, by rw [hu, pow_succ, Nat.mul_assoc]⟩
  have hle : u ≤ x.val := hu ▸ Nat.le_mul_of_pos_left u (Nat.two_pow_pos v)
  have hval : (u : Element .ring128).val = u :=
    (Fin.val_natCast _ _).trans (Nat.mod_eq_of_lt (Nat.lt_of_le_of_lt hle x.isLt))
  have hunit : IsUnit (u : Element .ring128) := isUnit_of_coprime <| by
    rw [hval]
    exact Nat.Coprime.pow_right 128 (Nat.prime_two.coprime_iff_not_dvd.mpr hodd).symm
  have hx : x = ((2 ^ v : Nat) : Element .ring128) * u := by
    rw [← Nat.cast_mul, ← hu, Fin.cast_val_eq_self]
  rw [hx]
  exact hunit.mul_right_dvd.mpr dvd_rfl

end Ring

/-- In the ring the least power of two among the residues is what the coefficients lose. -/
theorem card_cancelling_ring {d : Fin k → Element .ring128} (h : ∃ j, d j ≠ 0) :
    ∃ v < 128, IsLeast {v | ∃ j, d j ≠ 0 ∧ v = padicValNat 2 (d j).val} v
      ∧ Nat.card {r : Fin k → Element .ring128 // ∑ j, r j * d j = 0}
        = 2 ^ (128 * (k - 1) + v) := by
  have hval {j : Fin k} (hj : d j ≠ 0) : (d j).val ≠ 0 := fun hzero => hj (Fin.ext hzero)
  obtain ⟨j, hj⟩ := h
  have hleast : IsLeast {v | ∃ j, d j ≠ 0 ∧ v = padicValNat 2 (d j).val}
      (sInf {v | ∃ j, d j ≠ 0 ∧ v = padicValNat 2 (d j).val}) :=
    ⟨Nat.sInf_mem ⟨_, j, hj, rfl⟩, fun _ => Nat.sInf_le⟩
  generalize sInf {v | ∃ j, d j ≠ 0 ∧ v = padicValNat 2 (d j).val} = v at hleast
  obtain ⟨l, hl, hv⟩ := hleast.1
  have hdvd : 2 ^ v ∣ (d l).val := hv ▸ pow_padicValNat_dvd
  have hlt : v < 128 := by
    have hle : 2 ^ v ≤ (d l).val := Nat.le_of_dvd (Nat.pos_of_ne_zero (hval hl)) hdvd
    exact (Nat.pow_lt_pow_iff_right Nat.one_lt_two).mp (Nat.lt_of_le_of_lt hle (d l).isLt)
  have hmultiple (i : Fin k) : ((2 ^ v : Nat) : Element .ring128) ∣ d i := by
    by_cases hi : d i = 0
    · exact hi ▸ dvd_zero _
    · exact two_pow_dvd ((padicValNat_dvd_iff_le (hval hi)).mpr (hleast.2 ⟨i, hi, rfl⟩))
  have hcard := card_cancelling hmultiple
    ⟨l, dvd_two_pow hdvd (hv ▸ pow_succ_padicValNat_not_dvd (hval hl))⟩
  refine ⟨v, hlt, hleast, ?_⟩
  have hpow : Modulus.ring128.size ^ k = 2 ^ (128 * (k - 1) + v) * 2 ^ (128 - v) := by
    have hk := l.isLt
    have hexp : 128 * k = 128 * (k - 1) + v + (128 - v) := by omega
    rw [← pow_add, ← hexp, pow_mul]
    rfl
  rw [card_span_two_pow (Nat.le_of_lt hlt), Nat.card_fin, hpow] at hcard
  exact Nat.eq_of_mul_eq_mul_right (Nat.two_pow_pos _) hcard

/-! ## §4 The soundness of a check -/

/-- The coefficients of a check, entry by entry. -/
theorem coefficients_eq_ofFn (seed : Seed) (count : Nat) :
    ∃ r : Fin count → Element m, (MacCheck.coefficients m seed count).1 = List.ofFn r := by
  rw [MacCheck.coefficients, Draw.replicate_eq]
  exact ⟨fun l => (Draw.element m (Draw.skip (Draw.element m) l (.ofPartySeed seed))).1,
    List.ext_getElem (by simp) (by simp)⟩

/-- The terms of all parties add up to the combination of what the entries lack. If one of them
lacks anything, below a prime modulus all but one of the coefficients can be chosen freely and the
combination still vanishes; in the ring there are more choices, by the least power of two among the
defects. Below a prime modulus one wrong value in a batch that is otherwise sound shows whenever its
coefficient is not zero, and then a joint run of the check fails at everybody. -/
theorem cancelling_coefficients (key : Fin n → Element m) (part : Fin k → Fin n → AuthShare m)
    (value : Fin k → Element m) :
    let defect (j : Fin k) := commonDefect key (part j) (value j)
    let total (value r : Fin k → Element m) :=
      ∑ i, checkTerm (key i) (List.ofFn fun j => part j i) (List.ofFn value) (List.ofFn r)
    (∀ r, total value r = ∑ j, r j * defect j)
    ∧ ((∃ j, defect j ≠ 0) →
      (m ≠ .ring128 → Nat.card {r // total value r = 0} = m.size ^ (k - 1))
      ∧ (m = .ring128 → ∃ v < 128,
        IsLeast {v | ∃ j, defect j ≠ 0 ∧ v = padicValNat 2 (defect j).val} v
        ∧ Nat.card {r // total value r = 0} = 2 ^ (128 * (k - 1) + v)))
    ∧ (m ≠ .ring128 → (∀ j, defect j = 0) → ∑ i, key i ≠ 0 → ∀ (j : Fin k) (error : Element m),
      error ≠ 0 →
        let wrong := Function.update value j (value j + error)
        (∀ r, r j ≠ 0 → total wrong r ≠ 0)
        ∧ ∀ (pools : Fin n → Pool m) (e : Fin n → Evaluator m),
          Table key (commonOpenings part wrong) pools →
          (∀ i, (e i).At i (pools i) (fun _ => []) fun _ => []) →
          let seed := Seed.joint fun i => CoinToss.ownSeed (pools i).localGenerator
          (MacCheck.coefficients m seed k).1[j]? ≠ some 0 →
          ∃ (sent : List (Fin n → List Frame)) (e' : Fin n → Evaluator m),
            Joint (fun i => Evaluator.run ({} : MacCheck m) (e i)) sent
              fun i => (.error (.malicious .macCheckFailed), e' i)) := by
  intro defect total
  have htotal (value r : Fin k → Element m) :
      total value r = ∑ j, r j * commonDefect key (part j) (value j) :=
    sum_checkTerm_common key part value r
  refine ⟨htotal value, fun hlack => ⟨fun hm => ?_, fun hm => ?_⟩, ?_⟩
  · simp only [htotal]
    exact card_cancelling_prime hm hlack
  · simp only [htotal]
    subst hm
    exact card_cancelling_ring hlack
  · intro hm hsound hkey j error herror wrong
    have hshows (r : Fin k → Element m) (hr : r j ≠ 0) : total wrong r ≠ 0 := by
      rw [htotal, sum_commonDefect_update hsound]
      exact neg_ne_zero.mpr (mul_ne_zero_of_prime hm hr (mul_ne_zero_of_prime hm hkey herror))
    refine ⟨hshows, fun pools e table he => ?_⟩
    intro seed hcoefficient
    have hne : commonOpenings part wrong ≠ [] := by
      intro hnil
      have hlength := congrArg List.length hnil
      simp only [commonOpenings, List.length_ofFn, List.length_nil] at hlength
      exact absurd j.isLt (by omega)
    obtain ⟨sent, e', hjoint, -⟩ := MacCheck.joint_run hne table he
    refine ⟨sent, e', hjoint.congr_results fun i => ?_⟩
    obtain ⟨r, hr⟩ := coefficients_eq_ofFn (m := m) seed k
    have hlength : (commonOpenings part wrong).length = k := List.length_ofFn
    rw [hlength, hr, combinedDefect_commonOpenings, ← htotal, if_neg (hshows r ?_)]
    rw [hr] at hcoefficient
    simpa using hcoefficient

/-- Two parties in the ring and two entries that lack 4 and 6: one in half as many coefficients as
there are residues hides it. Two parties below a prime modulus that open 2 and take it for 3: the
coefficient 5 shows it. -/
theorem cancelling_coefficients_two :
    (let part (j i : Fin 2) : AuthShare .ring128 :=
        ⟨0, if i = 0 then if j = 0 then 4 else 6 else 0⟩;
      (∃ j, commonDefect (fun _ => 1) (part j) 0 ≠ 0)
      ∧ Nat.card {r : Fin 2 → Element .ring128 // ∑ i, checkTerm 1 (List.ofFn fun j => part j i)
        (List.ofFn fun _ : Fin 2 => 0) (List.ofFn r) = 0} = 2 ^ 129)
    ∧ let key (i : Fin 2) : Element .mersenne61 := if i = 0 then 3 else 4
      let part (i : Fin 2) : AuthShare .mersenne61 := ⟨1, if i = 0 then 6 else 8⟩
      commonDefect key part 2 = 0
      ∧ ∑ i, checkTerm (key i) [part i] (List.ofFn (Function.update (fun _ : Fin 1 => 2) 0 (2 + 1)))
        [5] ≠ 0 := by
  refine ⟨?_, ?_⟩
  · intro part
    have hfour : commonDefect (fun _ => 1) (part 0) 0 = 4 := by decide
    have hsix : commonDefect (fun _ => 1) (part 1) 0 = 6 := by decide
    have hlack : ∃ j, commonDefect (fun _ => 1) (part j) 0 ≠ 0 := ⟨0, by rw [hfour]; decide⟩
    refine ⟨hlack, ?_⟩
    obtain ⟨v, -, ⟨⟨j, -, hv⟩, hleast⟩, hcard⟩ :=
      ((cancelling_coefficients (fun _ => 1) part fun _ => 0).2.1 hlack).2 rfl
    have hvalFour : padicValNat 2 (commonDefect (fun _ => 1) (part 0) 0).val = 2 := by
      rw [hfour]
      decide +kernel
    have hvalSix : padicValNat 2 (commonDefect (fun _ => 1) (part 1) 0).val = 1 := by
      rw [hsix]
      decide +kernel
    have hsome : commonDefect (fun _ => 1) (part 1) 0 ≠ 0 := by
      rw [hsix]
      decide
    have hone : v = 1 := by
      refine le_antisymm (hleast ⟨1, hsome, hvalSix.symm⟩) ?_
      match j with
      | 0 => exact Nat.le_of_lt (hv.trans hvalFour).ge
      | 1 => exact (hv.trans hvalSix).ge
    rw [hone] at hcard
    exact hcard
  · intro key part
    have hsound : commonDefect key part 2 = 0 := by decide
    exact ⟨hsound, ((cancelling_coefficients key (fun _ => part) fun _ => 2).2.2 (by decide)
      (fun _ => hsound) (by decide) (0 : Fin 1) 1 (by decide)).1 (fun _ => 5) (by decide)⟩

end JointCircuit
