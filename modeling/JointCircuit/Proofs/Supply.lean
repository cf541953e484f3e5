/-
JointCircuit.Proofs.Supply — material as it lies ahead.

A supplier is read as what it is going to hand out: the triple after `k`
others (`tripleAhead`), and for every owner the mask after `k` others
(`maskAhead`). Taking material moves on in one of these sequences and
leaves the others alone (§1 for dealt data, §2 for synthetic material,
§3 for any supplier).

`Stocked` (§4) says that the suppliers of all parties have consistent
material ahead; this is what honest parties use up, step by step
(`Stocked.takeTriples`, `Stocked.takeMask`).
-/
import JointCircuit.Preprocessing.Supplier
import JointCircuit.Proofs.Sharing

namespace JointCircuit

variable {m : Modulus}

/-! ## §1 Dealt data -/

namespace DealtSupplier

/-- The triple that is handed out after `k` others. -/
def tripleAhead (s : DealtSupplier m) (k : Nat) : Option (Triple m) :=
  s.data.triples.reverse[k]?

/-- The mask of `owner` that is handed out after `k` others of the same owner. -/
def maskAhead (s : DealtSupplier m) (owner k : Nat) : Option (InputMask m) :=
  match (s.masksOf owner).reverse[k]? with
  | none => none
  | some mask =>
    if owner = s.data.party then (s.data.plaintexts.reverse[k]?).map fun x => ⟨some x, mask⟩
    else some ⟨none, mask⟩

theorem nextTriples_eq {s : DealtSupplier m} {count : Nat} {t : Nat → Triple m}
    (h : ∀ k < count, s.tripleAhead k = some (t k)) :
    ∃ s', nextTriples count s = .ok ((List.range count).map t) s'
      ∧ (∀ k, s'.tripleAhead k = s.tripleAhead (count + k))
      ∧ ∀ owner k, s'.maskAhead owner k = s.maskAhead owner k := by
  have hleft : ¬ s.triplesLeft < count := by
    intro hlt
    have hnone : s.tripleAhead s.triplesLeft = none := by
      rw [tripleAhead, List.getElem?_eq_none_iff, List.length_reverse]
      exact Nat.le_refl _
    rw [h _ hlt] at hnone
    cases hnone
  have hhanded : (s.data.triples.drop (s.triplesLeft - count)).reverse
      = (List.range count).map t := by
    rw [triplesLeft, ← List.take_reverse]
    refine List.ext_getElem? fun k => ?_
    rw [List.getElem?_take, List.getElem?_map]
    by_cases hk : k < count
    · rw [if_pos hk, List.getElem?_range hk]
      exact h k hk
    · rw [if_neg hk, List.getElem?_eq_none (by simpa using hk)]
      rfl
  refine ⟨{ data := { s.data with
    triples := s.data.triples.take (s.triplesLeft - count) } }, ?_, fun k => ?_, fun _ _ => rfl⟩
  · simp only [nextTriples, Action.bind_apply, Action.get_apply, hleft, if_false,
      Action.pure_apply, Action.set_apply, hhanded]
  · rw [tripleAhead, tripleAhead, triplesLeft, ← List.drop_reverse, List.getElem?_drop]

theorem masksOf_set {s : DealtSupplier m} {owner : Nat} (hpos : owner ≠ 0)
    (hrange : owner ≤ s.data.masks.length) (masks : List (AuthShare m))
    (plaintexts : List (Element m)) (o : Nat) :
    (⟨{ s.data with masks := s.data.masks.set (owner - 1) masks, plaintexts }⟩ :
      DealtSupplier m).masksOf o = if o = owner then masks else s.masksOf o := by
  by_cases ho : o = owner
  · subst ho
    have hlt : o - 1 < s.data.masks.length := by omega
    simp [masksOf, hpos, List.getD_eq_getElem?_getD, hlt]
  · by_cases hzero : o = 0
    · simp [masksOf, hzero, hpos.symm]
    · have hne : owner - 1 ≠ o - 1 := by omega
      simp [masksOf, ho, hzero, List.getD_eq_getElem?_getD, List.getElem?_set_ne hne]

theorem getElem?_reverse_dropLast {α : Type} (xs : List α) (k : Nat) :
    xs.dropLast.reverse[k]? = xs.reverse[k + 1]? := by
  rw [← List.tail_reverse, List.getElem?_tail]

theorem nextMask_eq {s : DealtSupplier m} {owner : Nat} {mask : InputMask m}
    (h : s.maskAhead owner 0 = some mask) :
    ∃ s', nextMask owner s = .ok mask s'
      ∧ (∀ o k, s'.maskAhead o k = s.maskAhead o (if o = owner then k + 1 else k))
      ∧ ∀ k, s'.tripleAhead k = s.tripleAhead k := by
  have hpos : owner ≠ 0 := by
    rintro rfl
    simp [maskAhead, masksOf] at h
  have hrange : owner ≤ s.data.masks.length := by
    by_contra hgt
    have hnone : s.data.masks[owner - 1]? = none := List.getElem?_eq_none (by omega)
    simp [maskAhead, masksOf, hpos, List.getD_eq_getElem?_getD, hnone] at h
  have hinside : ¬ (owner = 0 ∨ s.data.masks.length < owner) := by omega
  have hfirst {α : Type} (xs : List α) : xs.reverse[0]? = xs.getLast? := by
    rw [← List.head?_eq_getElem?, List.head?_reverse]
  rw [maskAhead, hfirst, hfirst] at h
  cases hmask : (s.masksOf owner).getLast? with
  | none => simp [hmask] at h
  | some part =>
    simp only [hmask] at h
    by_cases hown : owner = s.data.party
    · cases hplain : s.data.plaintexts.getLast? with
      | none => simp [hplain, hown] at h
      | some plaintext =>
        have hresult : (⟨some plaintext, part⟩ : InputMask m) = mask := by
          simpa [hplain, hown] using h
        refine ⟨⟨{ s.data with
          masks := s.data.masks.set (owner - 1) (s.masksOf owner).dropLast
          plaintexts := s.data.plaintexts.dropLast }⟩, ?_, fun o k => ?_, fun _ => rfl⟩
        · simp [nextMask, hinside, hmask, ← hown, hplain, hresult]
        · rw [maskAhead, maskAhead, masksOf_set hpos hrange]
          by_cases ho : o = owner
          · simp only [ho, if_true, getElem?_reverse_dropLast]
          · have hother : o ≠ s.data.party := fun hop => ho (hop.trans hown.symm)
            simp only [ho, hother, if_false]
    · have hresult : (⟨none, part⟩ : InputMask m) = mask := by
        simpa [hown] using h
      refine ⟨⟨{ s.data with
        masks := s.data.masks.set (owner - 1) (s.masksOf owner).dropLast }⟩, ?_,
        fun o k => ?_, fun _ => rfl⟩
      · simp [nextMask, hinside, hmask, hown, hresult]
      · rw [maskAhead, maskAhead, masksOf_set hpos hrange]
        by_cases ho : o = owner
        · simp only [ho, if_true, getElem?_reverse_dropLast, hown, if_false]
        · simp only [ho, if_false]

end DealtSupplier

/-! ## §2 Synthetic material -/

/-- The generator after `count` draws. -/
def Draw.skip {α : Type} (draw : Draw α) : (count : Nat) → Generator → Generator
  | 0, g => g
  | count + 1, g => skip draw count (draw g).2

/-- A repeated draw, draw by draw. -/
theorem Draw.replicate_eq {α : Type} (draw : Draw α) (count : Nat) (g : Generator) :
    Draw.replicate draw count g
      = ((List.range count).map fun k => (draw (skip draw k g)).1, skip draw count g) := by
  induction count generalizing g with
  | zero => rfl
  | succ count ih =>
    have hstep : Draw.replicate draw (count + 1) g
        = ((draw g).1 :: (Draw.replicate draw count (draw g).2).1,
          (Draw.replicate draw count (draw g).2).2) := rfl
    rw [hstep, ih, List.range_succ_eq_map, List.map_cons, List.map_map]
    rfl

theorem Draw.skip_add {α : Type} (draw : Draw α) (j k : Nat) (g : Generator) :
    skip draw k (skip draw j g) = skip draw (j + k) g := by
  induction j generalizing g with
  | zero => rw [Nat.zero_add]; rfl
  | succ j ih =>
    rw [Nat.succ_add]
    exact ih (draw g).2

namespace SyntheticSupplier

/-- The triple that is handed out after `k` others. -/
def tripleAhead (s : SyntheticSupplier m) (k : Nat) : Option (Triple m) :=
  let draw := Synthetic.triple s.place s.key
  some (draw (Draw.skip draw k s.triples)).1

/-- The mask of `owner` that is handed out after `k` others of the same owner. -/
def maskAhead (s : SyntheticSupplier m) (owner k : Nat) : Option (InputMask m) :=
  if owner = 0 then none
  else
    (s.masks[owner - 1]?).map fun generator =>
      let draw := Synthetic.randomAuthenticated s.place s.key
      let (mask, value) := (draw (Draw.skip draw k generator)).1
      ⟨if owner = s.place.party then some value else none, mask⟩

theorem nextTriples_eq {s : SyntheticSupplier m} {count : Nat} {t : Nat → Triple m}
    (h : ∀ k < count, s.tripleAhead k = some (t k)) :
    ∃ s', nextTriples count s = .ok ((List.range count).map t) s'
      ∧ (∀ k, s'.tripleAhead k = s.tripleAhead (count + k))
      ∧ ∀ owner k, s'.maskAhead owner k = s.maskAhead owner k := by
  have hhanded : ((List.range count).map fun k => (Synthetic.triple s.place s.key
      (Draw.skip (Synthetic.triple s.place s.key) k s.triples)).1) = (List.range count).map t := by
    refine List.map_congr_left fun k hk => ?_
    exact Option.some.inj (h k (List.mem_range.mp hk))
  refine ⟨{ s with triples := Draw.skip (Synthetic.triple s.place s.key) count s.triples }, ?_,
    fun k => ?_, fun _ _ => rfl⟩
  · simp only [nextTriples, Action.bind_apply, Action.get_apply, Draw.replicate_eq,
      Action.set_apply, Action.pure_apply, hhanded]
  · simp only [tripleAhead, Draw.skip_add]

theorem nextMask_eq {s : SyntheticSupplier m} {owner : Nat} {mask : InputMask m}
    (h : s.maskAhead owner 0 = some mask) :
    ∃ s', nextMask owner s = .ok mask s'
      ∧ (∀ o k, s'.maskAhead o k = s.maskAhead o (if o = owner then k + 1 else k))
      ∧ ∀ k, s'.tripleAhead k = s.tripleAhead k := by
  have hpos : owner ≠ 0 := by
    rintro rfl
    simp [maskAhead] at h
  cases hg : s.masks[owner - 1]? with
  | none => simp [maskAhead, hg] at h
  | some generator =>
    have hlt := (List.getElem?_eq_some_iff.mp hg).1
    rcases hdraw : Synthetic.randomAuthenticated s.place s.key generator with ⟨⟨part, value⟩, left⟩
    simp only [maskAhead, hg, hpos, if_false, Option.map_some, Option.some.injEq, Draw.skip,
      hdraw] at h
    refine ⟨{ s with masks := s.masks.set (owner - 1) left }, ?_, fun o k => ?_, fun _ => rfl⟩
    · simp only [nextMask, Action.bind_apply, Action.get_apply, hpos, if_false, Action.pure_apply,
        hg, hdraw, Action.set_apply, h]
    · by_cases ho : o = owner
      · subst ho
        simp only [maskAhead, hpos, if_true, if_false, List.getElem?_set_self hlt, hg,
          Option.map_some, Draw.skip, hdraw]
      · by_cases hzero : o = 0
        · simp only [maskAhead, hzero, if_true]
        · have hne : owner - 1 ≠ o - 1 := by omega
          simp only [maskAhead, ho, hzero, if_false, List.getElem?_set_ne hne]

end SyntheticSupplier

/-! ## §3 Any supplier -/

namespace Supplier

/-- The triple that is handed out after `k` others. -/
def tripleAhead (s : Supplier m) (k : Nat) : Option (Triple m) :=
  match s with
  | .synthetic s => s.tripleAhead k
  | .dealt s => s.tripleAhead k

/-- The mask of `owner` that is handed out after `k` others of the same owner. -/
def maskAhead (s : Supplier m) (owner k : Nat) : Option (InputMask m) :=
  match s with
  | .synthetic s => s.maskAhead owner k
  | .dealt s => s.maskAhead owner k

/-- Triples that lie ahead are handed out in their order. -/
theorem nextTriples_eq {s : Supplier m} {count : Nat} {t : Nat → Triple m}
    (h : ∀ k < count, s.tripleAhead k = some (t k)) :
    ∃ s', nextTriples count s = .ok ((List.range count).map t) s'
      ∧ (∀ k, s'.tripleAhead k = s.tripleAhead (count + k))
      ∧ ∀ owner k, s'.maskAhead owner k = s.maskAhead owner k := by
  cases s with
  | synthetic s =>
    obtain ⟨s', hnext, ht, hm⟩ := SyntheticSupplier.nextTriples_eq h
    refine ⟨.synthetic s', ?_, ht, hm⟩
    simp only [nextTriples, Action.within, hnext]
  | dealt s =>
    obtain ⟨s', hnext, ht, hm⟩ := DealtSupplier.nextTriples_eq h
    refine ⟨.dealt s', ?_, ht, hm⟩
    simp only [nextTriples, Action.within, hnext]

/-- Nobody gets more or fewer triples than it asks for. -/
theorem length_nextTriples {count : Nat} {s s' : Supplier m} {triples : List (Triple m)}
    (h : nextTriples count s = .ok triples s') : triples.length = count := by
  cases s with
  | synthetic s =>
    rw [nextTriples, Action.within_eq_ok] at h
    obtain ⟨t, ht, -⟩ := h
    simp only [SyntheticSupplier.nextTriples, Action.bind_apply, Action.get_apply,
      Draw.replicate_eq, Action.set_apply, Action.pure_apply] at ht
    cases ht
    simp
  | dealt s =>
    rw [nextTriples, Action.within_eq_ok] at h
    obtain ⟨t, ht, -⟩ := h
    simp only [DealtSupplier.nextTriples, Action.bind_apply, Action.get_apply] at ht
    split at ht
    · cases ht
    · rename_i hleft
      cases ht
      simp only [DealtSupplier.triplesLeft] at hleft ⊢
      rw [List.length_reverse, List.length_drop]
      omega

/-- A mask that lies ahead is handed out, and only its owner's sequence moves on. -/
theorem nextMask_eq {s : Supplier m} {owner : Nat} {mask : InputMask m}
    (h : s.maskAhead owner 0 = some mask) :
    ∃ s', nextMask owner s = .ok mask s'
      ∧ (∀ o k, s'.maskAhead o k = s.maskAhead o (if o = owner then k + 1 else k))
      ∧ ∀ k, s'.tripleAhead k = s.tripleAhead k := by
  cases s with
  | synthetic s =>
    obtain ⟨s', hnext, hm, ht⟩ := SyntheticSupplier.nextMask_eq h
    refine ⟨.synthetic s', ?_, hm, ht⟩
    simp only [nextMask, Action.within, hnext]
  | dealt s =>
    obtain ⟨s', hnext, hm, ht⟩ := DealtSupplier.nextMask_eq h
    refine ⟨.dealt s', ?_, hm, ht⟩
    simp only [nextMask, Action.within, hnext]

end Supplier

/-! ## §4 Consistent material -/

section

variable {n : Nat}

/-- A mask shares a value that its owner knows. -/
def Shared.Mask (key : Fin n → Element m) (owner : Fin n) (mask : Fin n → InputMask m) : Prop :=
  ∃ r, Shared key (fun i => (mask i).mask) r ∧ (mask owner).plaintext = some r

/-- The suppliers of `n` parties have this many consistent triples ahead, and this many
consistent masks of every owner. -/
structure Stocked (key : Fin n → Element m) (triples : Nat) (masks : Fin n → Nat)
    (suppliers : Fin n → Supplier m) : Prop where
  triple : ∀ k < triples, ∃ t : Fin n → Triple m,
    (∀ i, (suppliers i).tripleAhead k = some (t i)) ∧ Shared.Triple key t
  mask : ∀ owner, ∀ k < masks owner, ∃ mask : Fin n → InputMask m,
    (∀ i, (suppliers i).maskAhead (owner + 1) k = some (mask i)) ∧ Shared.Mask key owner mask

namespace Stocked

variable {key : Fin n → Element m} {triples : Nat} {masks : Fin n → Nat}
  {suppliers : Fin n → Supplier m}

/-- Material that is not needed may be ignored. -/
theorem mono (h : Stocked key triples masks suppliers) {triples' : Nat} {masks' : Fin n → Nat}
    (ht : triples' ≤ triples) (hm : ∀ owner, masks' owner ≤ masks owner) :
    Stocked key triples' masks' suppliers :=
  ⟨fun k hk => h.triple k (by omega), fun owner k hk => h.mask owner k (by have := hm owner; omega)⟩

/-- All parties take `count` triples: the same ones, and as many are left. -/
theorem takeTriples {left : Nat} (count : Nat) (h : Stocked key (count + left) masks suppliers) :
    ∃ (taken : List (Fin n → Triple m)) (suppliers' : Fin n → Supplier m),
      taken.length = count ∧ (∀ t ∈ taken, Shared.Triple key t)
      ∧ (∀ i, Supplier.nextTriples count (suppliers i) = .ok (taken.map (· i)) (suppliers' i))
      ∧ Stocked key left masks suppliers' := by
  have hahead : ∀ k, ∃ t : Fin n → Triple m, k < count →
      (∀ i, (suppliers i).tripleAhead k = some (t i)) ∧ Shared.Triple key t := by
    intro k
    by_cases hk : k < count
    · obtain ⟨t, ht⟩ := h.triple k (by omega)
      exact ⟨t, fun _ => ht⟩
    · exact ⟨fun _ => ⟨0, 0, 0⟩, fun hlt => absurd hlt hk⟩
  choose t ht using hahead
  choose suppliers' hnext htriple hmask using fun i =>
    Supplier.nextTriples_eq (s := suppliers i) (t := fun k => t k i) fun k hk => (ht k hk).1 i
  refine ⟨(List.range count).map t, suppliers', by simp, fun u hu => ?_, fun i => ?_, ?_, ?_⟩
  · obtain ⟨k, hk, rfl⟩ := List.mem_map.mp hu
    exact (ht k (List.mem_range.mp hk)).2
  · rw [hnext i, List.map_map]
    rfl
  · intro k hk
    obtain ⟨u, hu, hvalid⟩ := h.triple (count + k) (by omega)
    exact ⟨u, fun i => by rw [htriple i, hu i], hvalid⟩
  · intro owner k hk
    obtain ⟨mask, hu, hvalid⟩ := h.mask owner k hk
    exact ⟨mask, fun i => by rw [hmask i, hu i], hvalid⟩

/-- All parties take a mask of `owner`: the same one, and the others are left. -/
theorem takeMask {owner : Fin n} {left : Nat} (h : Stocked key triples masks suppliers)
    (hleft : masks owner = left + 1) :
    ∃ (mask : Fin n → InputMask m) (suppliers' : Fin n → Supplier m),
      Shared.Mask key owner mask
      ∧ (∀ i, Supplier.nextMask (owner + 1) (suppliers i) = .ok (mask i) (suppliers' i))
      ∧ Stocked key triples (Function.update masks owner left) suppliers' := by
  obtain ⟨mask, hahead, hvalid⟩ := h.mask owner 0 (by omega)
  choose suppliers' hnext hmask htriple using fun i => Supplier.nextMask_eq (hahead i)
  refine ⟨mask, suppliers', hvalid, hnext, fun k hk => ?_, fun o k hk => ?_⟩
  · obtain ⟨t, ht, htv⟩ := h.triple k hk
    exact ⟨t, fun i => by rw [htriple i, ht i], htv⟩
  · by_cases ho : o = owner
    · subst ho
      rw [Function.update_self] at hk
      obtain ⟨u, hu, huv⟩ := h.mask o (k + 1) (by omega)
      exact ⟨u, fun i => by rw [hmask i, if_pos rfl, hu i], huv⟩
    · rw [Function.update_of_ne ho] at hk
      obtain ⟨u, hu, huv⟩ := h.mask o k hk
      have hne : o.val + 1 ≠ owner.val + 1 := fun heq => ho (Fin.ext (Nat.succ.inj heq))
      exact ⟨u, fun i => by rw [hmask i, if_neg hne, hu i], huv⟩

end Stocked

end

end JointCircuit
