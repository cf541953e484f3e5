/-
JointCircuit.Proofs.Shifts — moving the material of one party.

Nobody but a party itself knows its parts of the material. If they change
by given amounts, and the plaintexts of its own masks with them, the
material of all parties still fits together: it shares other random
values. §2 moves dealt data in this way, §3 shows that consistent data
stays consistent and that the move can be undone.

Main statements: `shift_neg` (§2), `Consistent.shift` (§3).
-/
import JointCircuit.Proofs.Supply

namespace JointCircuit

open scoped Fin.CommRing

variable {m : Modulus} {n : Nat}

/-! ## §1 Parts -/

namespace AuthShare

/-- The part of a party that alone takes part in moving the shared value by `δ`; `key` is the sum
of all key shares. -/
def offset (x : AuthShare m) (key δ : Element m) : AuthShare m :=
  ⟨x.share + δ, x.mac + key * δ⟩

theorem ext {x y : AuthShare m} (hshare : x.share = y.share) (hmac : x.mac = y.mac) : x = y := by
  cases x
  cases y
  cases hshare
  cases hmac
  rfl

theorem offset_sub_offset (x y : AuthShare m) (key δ : Element m) :
    x.offset key δ - y.offset key δ = x - y := by
  refine ext ?_ ?_
  · simp only [offset, share_sub]
    ring
  · simp only [offset, mac_sub]
    ring

theorem offset_zero (x : AuthShare m) (key : Element m) : x.offset key 0 = x := by
  refine ext (add_zero _) ?_
  simp only [offset, mul_zero, add_zero]

theorem offset_offset (x : AuthShare m) (key δ δ' : Element m) :
    (x.offset key δ).offset key δ' = x.offset key (δ + δ') := by
  refine ext (add_assoc _ _ _) ?_
  simp only [offset, mul_add, add_assoc]

end AuthShare

namespace Shared

variable {key : Fin n → Element m} {part part' : Fin n → AuthShare m} {x x' : Element m}
  {p : Fin n}

/-- One party moves the shared value. -/
theorem offset (h : Shared key part x) (p : Fin n) (δ : Element m)
    (hpart : ∀ i, part' i = if i = p then (part i).offset (∑ i, key i) δ else part i) :
    Shared key part' (x + δ) := by
  have hshare : ∀ i, (part' i).share = (part i).share + if i = p then δ else 0 := by
    intro i
    rw [hpart i]
    split
    · rfl
    · exact (add_zero _).symm
  have hmac : ∀ i, (part' i).mac
      = (part i).mac + if i = p then (∑ i, key i) * δ else 0 := by
    intro i
    rw [hpart i]
    split
    · rfl
    · exact (add_zero _).symm
  constructor
  · simp only [hshare, Finset.sum_add_distrib, h.share, Finset.sum_ite_eq', Finset.mem_univ,
      if_true]
  · simp only [hmac, Finset.sum_add_distrib, h.mac, Finset.sum_ite_eq', Finset.mem_univ, if_true,
      mul_add]

/-- If two values are shared in the same way at all parties but one, the part of that party tells
how far apart they are. -/
theorem eq_offset (h : Shared key part x) (h' : Shared key part' x')
    (hothers : ∀ i, i ≠ p → part' i = part i) :
    part' p = (part p).offset (∑ i, key i) (x' - x) := by
  have hsum : ∀ f : AuthShare m → Element m,
      ∑ i, f (part' i) - ∑ i, f (part i) = f (part' p) - f (part p) := by
    intro f
    rw [← Finset.sum_sub_distrib]
    refine Finset.sum_eq_single p (fun i _ hi => ?_) fun hp => absurd (Finset.mem_univ p) hp
    rw [hothers i hi, sub_self]
  refine AuthShare.ext ?_ ?_
  · have hshare := hsum AuthShare.share
    rw [h.share, h'.share] at hshare
    simp only [AuthShare.offset, hshare]
    ring
  · have hmac := hsum AuthShare.mac
    rw [h.mac, h'.mac, ← mul_sub] at hmac
    simp only [AuthShare.offset, hmac]
    ring

end Shared

namespace Triple

/-- The part of the party that moves the factors of a triple, `a` and `b` by then, and the product
with them. -/
def offset (t : Triple m) (key : Element m) (factors δ : Element m × Element m) : Triple m where
  a := t.a.offset key δ.1
  b := t.b.offset key δ.2
  c := t.c.offset key (factors.1 * δ.2 + factors.2 * δ.1 + δ.1 * δ.2)

/-- A triple is moved back when its factors are those that it was moved to. -/
theorem offset_offset_neg (t : Triple m) (key : Element m) (factors δ : Element m × Element m) :
    (t.offset key factors δ).offset key (factors + δ) (-δ) = t := by
  obtain ⟨a, b, c⟩ := t
  simp only [offset, AuthShare.offset_offset, Prod.fst_add, Prod.snd_add, Prod.fst_neg,
    Prod.snd_neg, add_neg_cancel, AuthShare.offset_zero]
  have hproduct : factors.1 * δ.2 + factors.2 * δ.1 + δ.1 * δ.2
      + ((factors.1 + δ.1) * -δ.2 + (factors.2 + δ.2) * -δ.1 + -δ.1 * -δ.2) = 0 := by ring
  rw [hproduct, AuthShare.offset_zero]

end Triple

/-- A moved triple is a triple. -/
theorem Shared.Triple.offset {key : Fin n → Element m} {t t' : Fin n → JointCircuit.Triple m}
    (h : Shared.Triple key t) (p : Fin n) (δ : Element m × Element m)
    (ht : ∀ i, t' i = if i = p then
      (t i).offset (∑ i, key i) (∑ i, (t i).a.share, ∑ i, (t i).b.share) δ else t i) :
    Shared.Triple key t' := by
  obtain ⟨a, b, ha, hb, hc⟩ := h
  rw [ha.share, hb.share] at ht
  refine ⟨a + δ.1, b + δ.2, ha.offset p δ.1 fun i => ?_, hb.offset p δ.2 fun i => ?_, ?_⟩
  · rw [ht i]
    split <;> rfl
  · rw [ht i]
    split <;> rfl
  · have hproduct : (a + δ.1) * (b + δ.2) = a * b + (a * δ.2 + b * δ.1 + δ.1 * δ.2) := by ring
    rw [hproduct]
    refine hc.offset p _ fun i => ?_
    rw [ht i]
    split <;> rfl

/-! ## §2 Dealt data -/

/-- Change the members of a list that is used from the back, by the number of those used before. -/
def fromBack {α : Type} (f : Nat → α → α) (xs : List α) : List α :=
  (xs.reverse.mapIdx f).reverse

theorem getElem?_reverse_fromBack {α : Type} (f : Nat → α → α) (xs : List α) (k : Nat) :
    (fromBack f xs).reverse[k]? = xs.reverse[k]?.map (f k) := by
  rw [fromBack, List.reverse_reverse, List.getElem?_mapIdx]

theorem length_fromBack {α : Type} (f : Nat → α → α) (xs : List α) :
    (fromBack f xs).length = xs.length := by
  simp [fromBack]

/-- Changes that undo each other. -/
theorem fromBack_fromBack {α : Type} {f g : Nat → α → α} {xs : List α}
    (h : ∀ k x, xs.reverse[k]? = some x → g k (f k x) = x) : fromBack g (fromBack f xs) = xs := by
  refine List.reverse_injective (List.ext_getElem? fun k => ?_)
  rw [getElem?_reverse_fromBack, getElem?_reverse_fromBack]
  cases hx : xs.reverse[k]? with
  | none => rfl
  | some x => exact congrArg some (h k x hx)

/-- How far the material of a party is moved: the factors of each triple and each of the party's
own masks, by the number of those used before. -/
structure Offsets (m : Modulus) where
  triple : Nat → Element m × Element m
  mask : Nat → Element m

instance : Neg (Offsets m) := ⟨fun o => ⟨-o.triple, -o.mask⟩⟩

/-- The data of a party with its material moved. `key` is the sum of all key shares, and `factors`
are the factors of each triple. -/
def DealtData.moved (d : DealtData m) (key : Element m) (factors : Nat → Element m × Element m)
    (o : Offsets m) : DealtData m :=
  { d with
    triples := fromBack (fun k t => t.offset key (factors k) (o.triple k)) d.triples
    masks := d.masks.modify (d.party - 1) (fromBack fun k x => x.offset key (o.mask k))
    plaintexts := fromBack (fun k x => x + o.mask k) d.plaintexts }

/-- What the parties' data hold of the factors of each triple, together. -/
def factorsOf (data : Fin n → DealtData m) (k : Nat) : Element m × Element m :=
  (∑ i, (((data i).triples.reverse[k]?).map (·.a.share)).getD 0,
    ∑ i, (((data i).triples.reverse[k]?).map (·.b.share)).getD 0)

/-- The data of all parties with the material of one of them moved. -/
def shift (p : Fin n) (o : Offsets m) (data : Fin n → DealtData m) : Fin n → DealtData m :=
  Function.update data p ((data p).moved (∑ i, (data i).keyShare) (factorsOf data) o)

variable {p : Fin n} {o : Offsets m} {data : Fin n → DealtData m}

theorem shift_of_ne {i : Fin n} (h : i ≠ p) : shift p o data i = data i :=
  Function.update_of_ne h _ _

theorem shift_self : shift p o data p
    = (data p).moved (∑ i, (data i).keyShare) (factorsOf data) o :=
  Function.update_self _ _ _

theorem keyShare_shift (i : Fin n) : (shift p o data i).keyShare = (data i).keyShare := by
  by_cases hi : i = p
  · subst hi
    rw [shift_self]
    rfl
  · rw [shift_of_ne hi]

/-- The factors of the triples are moved. -/
theorem factorsOf_shift {k : Nat} (hk : k < (data p).triples.length) :
    factorsOf (shift p o data) k = factorsOf data k + o.triple k := by
  obtain ⟨t, ht⟩ : ∃ t, (data p).triples.reverse[k]? = some t :=
    ⟨_, List.getElem?_eq_getElem (by simpa using hk)⟩
  have hmove : ∀ (f : Triple m → Element m) (δ : Element m),
      f (t.offset (∑ i, (data i).keyShare) (factorsOf data k) (o.triple k)) = f t + δ →
      ∑ i, (((shift p o data i).triples.reverse[k]?).map f).getD 0
        = ∑ i, (((data i).triples.reverse[k]?).map f).getD 0 + δ := by
    intro f δ hf
    have hterm : ∀ i, (((shift p o data i).triples.reverse[k]?).map f).getD 0
        = (((data i).triples.reverse[k]?).map f).getD 0 + if i = p then δ else 0 := by
      intro i
      by_cases hi : i = p
      · subst hi
        rw [shift_self, DealtData.moved, getElem?_reverse_fromBack, ht, if_pos rfl]
        exact hf
      · rw [shift_of_ne hi, if_neg hi, add_zero]
    simp only [hterm, Finset.sum_add_distrib, Finset.sum_ite_eq', Finset.mem_univ, if_true]
  exact Prod.ext (hmove (·.a.share) (o.triple k).1 rfl) (hmove (·.b.share) (o.triple k).2 rfl)

/-- A move can be undone. -/
theorem shift_neg (p : Fin n) (o : Offsets m) (data : Fin n → DealtData m) :
    shift p (-o) (shift p o data) = data := by
  funext i
  by_cases hi : i = p
  · subst hi
    have hkey : ∑ j, (shift i o data j).keyShare = ∑ j, (data j).keyShare :=
      Finset.sum_congr rfl fun j _ => keyShare_shift j
    have htriples : (shift i (-o) (shift i o data) i).triples = (data i).triples := by
      rw [shift_self, hkey, shift_self]
      refine fromBack_fromBack fun k t ht => ?_
      have hk : k < (data i).triples.length := by
        simpa using (List.getElem?_eq_some_iff.mp ht).1
      rw [factorsOf_shift hk]
      exact t.offset_offset_neg _ _ _
    have hmask : ∀ k x, (x + o.mask k) + -o.mask k = x := by
      intro k x
      rw [add_assoc, add_neg_cancel, add_zero]
    have hmasks : (shift i (-o) (shift i o data) i).masks = (data i).masks := by
      rw [shift_self, hkey, shift_self]
      have hundo : (fromBack fun k x => AuthShare.offset x (∑ j, (data j).keyShare) ((-o).mask k))
          ∘ (fromBack fun k x => AuthShare.offset x (∑ j, (data j).keyShare) (o.mask k)) = id := by
        funext xs
        refine fromBack_fromBack fun k x _ => ?_
        show (x.offset _ (o.mask k)).offset _ (-o.mask k) = x
        rw [AuthShare.offset_offset, add_neg_cancel, AuthShare.offset_zero]
      simp only [DealtData.moved, List.modify_modify_eq, hundo, List.modify_id]
    have hplaintexts : (shift i (-o) (shift i o data) i).plaintexts = (data i).plaintexts := by
      rw [shift_self, hkey, shift_self]
      exact fromBack_fromBack fun k x _ => hmask k x
    have hrest : shift i (-o) (shift i o data) i
        = { data i with
            triples := (shift i (-o) (shift i o data) i).triples
            masks := (shift i (-o) (shift i o data) i).masks
            plaintexts := (shift i (-o) (shift i o data) i).plaintexts } := by
      rw [shift_self, shift_self]
      rfl
    rw [hrest, htriples, hmasks, hplaintexts]
  · rw [shift_of_ne hi, shift_of_ne hi]

/-! ## §3 Consistent data -/

/-- Data that fits together: all parties hold the same number of triples, and the same number of
masks of every owner, and what they are going to hand out is consistent. -/
structure Consistent (data : Fin n → DealtData m) (triples : Nat) (masks : Fin n → Nat) : Prop where
  party : ∀ i, (data i).party = i + 1
  parties : ∀ i, (data i).parties = n
  length_triples : ∀ i, (data i).triples.length = triples
  length_masks : ∀ i, (data i).masks.map List.length = List.ofFn masks
  length_plaintexts : ∀ i, (data i).plaintexts.length = masks i
  stocked : Stocked (fun i => (data i).keyShare) triples masks fun i => .dealt ⟨data i⟩

namespace Consistent

variable {triples : Nat} {masks : Fin n → Nat}

/-- The masks of every owner are listed. -/
theorem masksOf_eq (h : Consistent data triples masks) (i owner : Fin n) :
    (data i).masks[owner.val]? = some (DealtSupplier.masksOf ⟨data i⟩ (owner + 1))
      ∧ (DealtSupplier.masksOf ⟨data i⟩ (owner + 1)).length = masks owner := by
  have hlength := congrArg (·[owner.val]?) (h.length_masks i)
  simp only [List.getElem?_map, List.getElem?_ofFn, owner.isLt, dif_pos] at hlength
  obtain ⟨parts, hparts, hlength⟩ := Option.map_eq_some_iff.mp hlength
  have hof : DealtSupplier.masksOf ⟨data i⟩ (owner + 1) = parts := by
    simp [DealtSupplier.masksOf, List.getD_eq_getElem?_getD, hparts]
  rw [hof]
  exact ⟨hparts, hlength⟩

end Consistent

theorem tripleAhead_shift_self (k : Nat) :
    DealtSupplier.tripleAhead ⟨shift p o data p⟩ k
      = (DealtSupplier.tripleAhead ⟨data p⟩ k).map fun t =>
        t.offset (∑ i, (data i).keyShare) (factorsOf data k) (o.triple k) := by
  rw [shift_self]
  exact getElem?_reverse_fromBack _ _ _

/-- A mask of a party's own with its value moved. -/
def InputMask.offset (mask : InputMask m) (key δ : Element m) : InputMask m :=
  ⟨mask.plaintext.map (· + δ), mask.mask.offset key δ⟩

theorem maskAhead_shift_self (hparty : (data p).party = p + 1) (owner : Fin n) (k : Nat) :
    DealtSupplier.maskAhead ⟨shift p o data p⟩ (owner + 1) k
      = if owner = p then
          (DealtSupplier.maskAhead ⟨data p⟩ (owner + 1) k).map fun mask =>
            mask.offset (∑ i, (data i).keyShare) (o.mask k)
        else DealtSupplier.maskAhead ⟨data p⟩ (owner + 1) k := by
  have hmasks : (shift p o data p).masks
      = (data p).masks.modify p
          (fromBack fun k x => x.offset (∑ i, (data i).keyShare) (o.mask k)) := by
    rw [shift_self, DealtData.moved, hparty]
    rfl
  have hparty' : (shift p o data p).party = p + 1 := by
    rw [shift_self]
    exact hparty
  have hplaintexts : (shift p o data p).plaintexts
      = fromBack (fun k x => x + o.mask k) (data p).plaintexts := by
    rw [shift_self]
    rfl
  simp only [DealtSupplier.maskAhead, DealtSupplier.masksOf, hmasks, hparty, hparty', hplaintexts,
    List.getD_eq_getElem?_getD, List.getElem?_modify, Nat.succ_ne_zero, if_false,
    Nat.add_sub_cancel, Nat.add_right_cancel_iff, Fin.val_inj]
  by_cases howner : owner = p
  · subst howner
    simp only [if_true]
    cases hparts : (data owner).masks[owner.val]? with
    | none => rfl
    | some parts =>
      simp only [Option.map_eq_map, Option.map_some, Option.getD_some, getElem?_reverse_fromBack]
      cases parts.reverse[k]? with
      | none => rfl
      | some part =>
        cases (data owner).plaintexts.reverse[k]? <;> rfl
  · simp only [howner, if_false, Ne.symm howner, Option.map_eq_map, Option.map_id']

namespace Consistent

variable {triples : Nat} {masks : Fin n → Nat}

/-- The moved data holds a valid triple wherever the data holds one: only what `p` has of it has
moved. -/
theorem triple_shift (h : Consistent data triples masks) (p : Fin n) (o : Offsets m) {k : Nat}
    (hk : k < triples) :
    ∃ t : Fin n → Triple m, (∀ i, DealtSupplier.tripleAhead ⟨shift p o data i⟩ k = some (t i))
      ∧ Shared.Triple (fun i => (data i).keyShare) t := by
  obtain ⟨t, ht, hvalid⟩ := h.stocked.triple k hk
  have hahead : ∀ i, DealtSupplier.tripleAhead ⟨data i⟩ k = some (t i) := ht
  have hfactors : factorsOf data k = (∑ i, (t i).a.share, ∑ i, (t i).b.share) := by
    have hlisted : ∀ i, (data i).triples.reverse[k]? = some (t i) := ht
    simp only [factorsOf, hlisted, Option.map_some, Option.getD_some]
  obtain ⟨t', ht'⟩ : ∃ t' : Fin n → Triple m, ∀ i, t' i = if i = p then
      (t i).offset (∑ i, (data i).keyShare) (factorsOf data k) (o.triple k) else t i :=
    ⟨_, fun _ => rfl⟩
  refine ⟨t', fun i => ?_, hvalid.offset p (o.triple k) (by rwa [← hfactors])⟩
  rw [ht' i]
  by_cases hi : i = p
  · subst hi
    rw [tripleAhead_shift_self, hahead, if_pos rfl, Option.map_some]
  · rw [shift_of_ne hi, if_neg hi]
    exact hahead i

/-- A mask of `p`'s own has moved in what `p` has of it, and with it the value that `p` alone
knows. -/
theorem mask_shift_self (h : Consistent data triples masks) (p : Fin n) (o : Offsets m) {k : Nat}
    (hk : k < masks p) :
    ∃ mask : Fin n → InputMask m,
      (∀ i, DealtSupplier.maskAhead ⟨shift p o data i⟩ (p + 1) k = some (mask i))
      ∧ Shared.Mask (fun i => (data i).keyShare) p mask := by
  obtain ⟨mask, hmask, r, hr, hplain⟩ := h.stocked.mask p k hk
  have hahead : ∀ i, DealtSupplier.maskAhead ⟨data i⟩ (p + 1) k = some (mask i) := hmask
  obtain ⟨mask', hmask'⟩ : ∃ mask' : Fin n → InputMask m, ∀ i, mask' i = if i = p then
      (mask i).offset (∑ i, (data i).keyShare) (o.mask k) else mask i := ⟨_, fun _ => rfl⟩
  refine ⟨mask', fun i => ?_, r + o.mask k, hr.offset p (o.mask k) fun i => ?_, ?_⟩
  · rw [hmask' i]
    by_cases hi : i = p
    · subst hi
      rw [maskAhead_shift_self (h.party i), hahead, if_pos rfl, if_pos rfl, Option.map_some]
    · rw [shift_of_ne hi, if_neg hi]
      exact hahead i
  · rw [hmask' i]
    split <;> rfl
  · rw [hmask' p, if_pos rfl, InputMask.offset, hplain]
    rfl

/-- The masks of the others have not moved. -/
theorem maskAhead_shift_of_ne (h : Consistent data triples masks) {p owner : Fin n}
    (howner : owner ≠ p) (o : Offsets m) (k : Nat) (i : Fin n) :
    DealtSupplier.maskAhead ⟨shift p o data i⟩ (owner + 1) k
      = DealtSupplier.maskAhead ⟨data i⟩ (owner + 1) k := by
  by_cases hi : i = p
  · subst hi
    rw [maskAhead_shift_self (h.party i), if_neg howner]
  · rw [shift_of_ne hi]

theorem stocked_shift (h : Consistent data triples masks) (p : Fin n) (o : Offsets m) :
    Stocked (fun i => (data i).keyShare) triples masks fun i => .dealt ⟨shift p o data i⟩ where
  triple _ hk := h.triple_shift p o hk
  mask := by
    intro owner k hk
    by_cases howner : owner = p
    · subst howner
      exact h.mask_shift_self owner o hk
    · obtain ⟨mask, hmask, hvalid⟩ := h.stocked.mask owner k hk
      exact ⟨mask, fun i => (h.maskAhead_shift_of_ne howner o k i).trans (hmask i), hvalid⟩

/-- Moved data fits together as before. -/
theorem shift (h : Consistent data triples masks) (p : Fin n) (o : Offsets m) :
    Consistent (shift p o data) triples masks := by
  have hself : ∀ {α : Type} (f : DealtData m → α), (∀ key factors, f ((data p).moved key factors o)
      = f (data p)) → ∀ i, f (JointCircuit.shift p o data i) = f (data i) := by
    intro α f hf i
    by_cases hi : i = p
    · subst hi
      rw [shift_self]
      exact hf _ _
    · rw [shift_of_ne hi]
  refine ⟨fun i => ?_, fun i => ?_, fun i => ?_, fun i => ?_, fun i => ?_, ?_⟩
  · rw [hself (·.party) fun _ _ => rfl, h.party i]
  · rw [hself (·.parties) fun _ _ => rfl, h.parties i]
  · rw [hself (·.triples.length) fun _ _ => length_fromBack _ _, h.length_triples i]
  · rw [hself (·.masks.map List.length) fun _ _ => ?_, h.length_masks i]
    refine List.ext_getElem? fun k => ?_
    simp only [DealtData.moved, List.getElem?_map, List.getElem?_modify, Option.map_map,
      Option.map_eq_map]
    refine congrArg (Option.map · _) (funext fun xs => ?_)
    simp only [Function.comp_apply]
    split
    · exact length_fromBack _ _
    · rfl
  · rw [hself (·.plaintexts.length) fun _ _ => length_fromBack _ _, h.length_plaintexts i]
  · have hkey : (fun i => (JointCircuit.shift p o data i).keyShare) = fun i => (data i).keyShare :=
      funext keyShare_shift
    rw [hkey]
    exact h.stocked_shift p o

end Consistent

end JointCircuit
