/-
JointCircuit.Proofs.Padding — data that would have been enough.

Dealt data may run out in the middle of a circuit. Filled up with zeros
that are handed out last, it would have been enough (§1), and up to the
point where it runs out nobody can tell the difference: a supplier of the
data is a supplier of the padded data that ends early (§2). Moving the
material of one party commutes with all this (§3).

Main statements: `Consistent.padded`, `Consistent.cutOff_shift`,
`Consistent.moved_shift`.
-/
import JointCircuit.Proofs.Draws

namespace JointCircuit

open scoped Fin.CommRing

variable {m : Modulus} {n : Nat}

/-! ## §1 Padded data -/

/-- The data with this many more triples and masks of every owner, all of zeros, behind those that
it has. -/
def DealtData.padded (count : Nat) (d : DealtData m) : DealtData m :=
  { d with
    triples := List.replicate count ⟨0, 0, 0⟩ ++ d.triples
    masks := d.masks.map (List.replicate count 0 ++ ·)
    plaintexts := List.replicate count 0 ++ d.plaintexts }

/-- What is added in front is used last. -/
theorem getElem?_reverse_replicate_append {α : Type} (z : α) (count : Nat) (xs : List α) (k : Nat) :
    (List.replicate count z ++ xs).reverse[k]?
      = if k < xs.length then xs.reverse[k]?
        else if k < xs.length + count then some z else none := by
  rw [List.reverse_append, List.reverse_replicate]
  by_cases hk : k < xs.length
  · rw [if_pos hk, List.getElem?_append_left (by simpa using hk)]
  · rw [if_neg hk, List.getElem?_append_right (by simpa using hk), List.getElem?_replicate,
      List.length_reverse]
    by_cases hlt : k < xs.length + count
    · rw [if_pos hlt, if_pos (by omega)]
    · rw [if_neg hlt, if_neg (by omega)]

/-- The part of nothing. -/
theorem Shared.zero (key : Fin n → Element m) : Shared key (fun _ => (0 : AuthShare m)) 0 := by
  constructor <;> simp

namespace Consistent

variable {data : Fin n → DealtData m} {triples : Nat} {masks : Fin n → Nat}

theorem tripleAhead_padded (h : Consistent data triples masks) (count : Nat) (i : Fin n) (k : Nat) :
    DealtSupplier.tripleAhead ⟨(data i).padded count⟩ k
      = if k < triples then DealtSupplier.tripleAhead ⟨data i⟩ k
        else if k < triples + count then some ⟨0, 0, 0⟩ else none := by
  rw [← h.length_triples i]
  exact getElem?_reverse_replicate_append _ _ _ _

theorem maskAhead_padded (h : Consistent data triples masks) (count : Nat) (i owner : Fin n)
    (k : Nat) : DealtSupplier.maskAhead ⟨(data i).padded count⟩ (owner + 1) k
      = if k < masks owner then DealtSupplier.maskAhead ⟨data i⟩ (owner + 1) k
        else if k < masks owner + count then some ⟨if owner = i then some 0 else none, 0⟩
        else none := by
  obtain ⟨hparts, hlength⟩ := h.masksOf_eq i owner
  have hmasks : DealtSupplier.masksOf ⟨(data i).padded count⟩ (owner + 1)
      = List.replicate count 0 ++ DealtSupplier.masksOf ⟨data i⟩ (owner + 1) := by
    rw [DealtSupplier.masksOf, if_neg (Nat.succ_ne_zero _), List.getD_eq_getElem?_getD,
      Nat.add_sub_cancel, DealtData.padded, List.getElem?_map, hparts]
    rfl
  have hown : owner.val + 1 = (data i).party ↔ owner = i := by
    rw [h.party i, Nat.add_right_cancel_iff, Fin.val_inj]
  simp only [DealtSupplier.maskAhead, hmasks, getElem?_reverse_replicate_append, hlength]
  by_cases hk : k < masks owner
  · simp only [hk, if_true]
    cases (DealtSupplier.masksOf ⟨data i⟩ (owner + 1)).reverse[k]? with
    | none => rfl
    | some part =>
      by_cases howner : owner = i
      · subst howner
        simp only [DealtData.padded, hown, if_true, getElem?_reverse_replicate_append,
          h.length_plaintexts owner, hk]
      · simp only [DealtData.padded, hown, howner, if_false]
  · by_cases hlt : k < masks owner + count
    · by_cases howner : owner = i
      · subst howner
        simp only [DealtData.padded, hown, if_true, getElem?_reverse_replicate_append,
          h.length_plaintexts owner, hk, hlt, if_false, Option.map_some]
      · simp only [DealtData.padded, hown, howner, hk, hlt, if_false, if_true]
    · simp only [hk, hlt, if_false]

/-- Nothing lies ahead but what has been counted. -/
theorem tripleAhead_eq_none (h : Consistent data triples masks) (i : Fin n) {k : Nat}
    (hk : ¬ k < triples) : DealtSupplier.tripleAhead ⟨data i⟩ k = none := by
  rw [DealtSupplier.tripleAhead, List.getElem?_eq_none_iff, List.length_reverse, h.length_triples i]
  exact Nat.le_of_not_lt hk

theorem maskAhead_eq_none (h : Consistent data triples masks) (i owner : Fin n) {k : Nat}
    (hk : ¬ k < masks owner) : DealtSupplier.maskAhead ⟨data i⟩ (owner + 1) k = none := by
  have hnone : (DealtSupplier.masksOf ⟨data i⟩ (owner + 1)).reverse[k]? = none := by
    rw [List.getElem?_eq_none_iff, List.length_reverse, (h.masksOf_eq i owner).2]
    exact Nat.le_of_not_lt hk
  rw [DealtSupplier.maskAhead, hnone]

/-- Zeros fit together. -/
theorem padded (h : Consistent data triples masks) (count : Nat) :
    Consistent (fun i => (data i).padded count) (triples + count) fun o => masks o + count where
  party := h.party
  parties := h.parties
  length_triples i := by
    simp [DealtData.padded, h.length_triples i, Nat.add_comm]
  length_masks i := by
    have hmasks := h.length_masks i
    have hlength : List.length ∘ (List.replicate count (0 : AuthShare m) ++ ·)
        = (· + count) ∘ List.length := by
      funext xs
      simp [Nat.add_comm]
    rw [DealtData.padded, List.map_map, hlength, ← List.map_map, hmasks, List.map_ofFn]
    rfl
  length_plaintexts i := by
    simp [DealtData.padded, h.length_plaintexts i, Nat.add_comm]
  stocked := by
    constructor
    · intro k hk
      by_cases hlt : k < triples
      · obtain ⟨t, ht, hvalid⟩ := h.stocked.triple k hlt
        refine ⟨t, fun i => ?_, hvalid⟩
        exact (h.tripleAhead_padded count i k).trans ((if_pos hlt).trans (ht i))
      · refine ⟨fun _ => ⟨0, 0, 0⟩, fun i => ?_, 0, 0, Shared.zero _, Shared.zero _, ?_⟩
        · exact (h.tripleAhead_padded count i k).trans ((if_neg hlt).trans (if_pos hk))
        · rw [mul_zero]
          exact Shared.zero _
    · intro owner k hk
      by_cases hlt : k < masks owner
      · obtain ⟨mask, hmask, hvalid⟩ := h.stocked.mask owner k hlt
        refine ⟨mask, fun i => ?_, hvalid⟩
        exact (h.maskAhead_padded count i owner k).trans ((if_pos hlt).trans (hmask i))
      · refine ⟨fun i => ⟨if owner = i then some 0 else none, 0⟩, fun i => ?_, 0, Shared.zero _,
          if_pos rfl⟩
        exact (h.maskAhead_padded count i owner k).trans ((if_neg hlt).trans (if_pos hk))

/-! ## §2 Suppliers of the data -/

/-- The data ends before the padded data does. -/
theorem cutOff (h : Consistent data triples masks) (count : Nat) (i : Fin n) :
    CutOff triples masks (.dealt ⟨(data i).padded count⟩) (.dealt ⟨data i⟩) where
  triple k := by
    show DealtSupplier.tripleAhead ⟨data i⟩ k
      = if k < triples then DealtSupplier.tripleAhead ⟨(data i).padded count⟩ k else none
    rw [h.tripleAhead_padded]
    split
    · rfl
    · exact h.tripleAhead_eq_none i ‹_›
  mask owner k := by
    show DealtSupplier.maskAhead ⟨data i⟩ (owner + 1) k
      = if k < masks owner then DealtSupplier.maskAhead ⟨(data i).padded count⟩ (owner + 1) k
        else none
    rw [h.maskAhead_padded]
    split
    · rfl
    · exact h.maskAhead_eq_none i owner ‹_›

end Consistent

/-! ## §3 Moved data -/

/-- The offsets that begin with these lists. -/
def Offsets.ofLists (triples : List (Element m × Element m)) (masks : List (Element m)) :
    Offsets m :=
  ⟨fun k => triples.getD k 0, fun k => masks.getD k 0⟩

namespace Consistent

variable {data : Fin n → DealtData m} {triples : Nat} {masks : Fin n → Nat}

theorem factorsOf_padded (h : Consistent data triples masks) (count : Nat) {k : Nat}
    (hk : k < triples) : factorsOf (fun i => (data i).padded count) k = factorsOf data k := by
  have hahead : ∀ i, ((data i).padded count).triples.reverse[k]?
      = (data i).triples.reverse[k]? := fun i => (h.tripleAhead_padded count i k).trans (if_pos hk)
  simp only [factorsOf, hahead]

/-- Moved data ends before the padded data does that is moved in the same way. -/
theorem cutOff_shift (h : Consistent data triples masks) (count : Nat) (p : Fin n) (o : Offsets m)
    (i : Fin n) : CutOff triples masks
      (.dealt ⟨JointCircuit.shift p o (fun i => (data i).padded count) i⟩)
      (.dealt ⟨JointCircuit.shift p o data i⟩) := by
  by_cases hi : i = p
  · subst hi
    have hkey : ∑ j, ((data j).padded count).keyShare = ∑ j, (data j).keyShare := rfl
    have hcut := h.cutOff count i
    constructor
    · intro k
      have htriple := hcut.triple k
      simp only [Supplier.tripleAhead, tripleAhead_shift_self, hkey] at htriple ⊢
      rw [htriple]
      split
      · rw [h.factorsOf_padded count ‹_›]
      · rfl
    · intro owner k
      have hmask := hcut.mask owner k
      have hparty : ((data i).padded count).party = i + 1 := h.party i
      simp only [Supplier.maskAhead] at hmask ⊢
      rw [maskAhead_shift_self (h.party i),
        @maskAhead_shift_self m n i o (fun j => (data j).padded count) hparty, hmask, hkey]
      split <;> split <;> rfl
  · rw [shift_of_ne hi, shift_of_ne hi]
    exact h.cutOff count i

/-- Data that is moved by some offsets is handed out as such. -/
theorem moved_shift (h : Consistent data triples masks) (p : Fin n)
    (δs : List (Element m × Element m)) (μs : List (Element m)) :
    Moved (∑ i, (data i).keyShare) (p + 1) δs μs (.dealt ⟨data p⟩)
      (.dealt ⟨JointCircuit.shift p (.ofLists δs μs) data p⟩) where
  triple k δ hδ t ht := by
    refine ⟨_, (tripleAhead_shift_self k).trans (congrArg (Option.map _) ht), ?_⟩
    have hoffset : (Offsets.ofLists δs μs).triple k = δ := by
      simp [Offsets.ofLists, List.getD_eq_getElem?_getD, hδ]
    rw [hoffset]
    rfl
  mask k δ hδ mask hmask := by
    obtain ⟨r, hr⟩ : ∃ r, mask.plaintext = some r := by
      have hown : p.val + 1 = (data p).party := (h.party p).symm
      simp only [Supplier.maskAhead, DealtSupplier.maskAhead, ← hown, if_true] at hmask
      split at hmask
      · cases hmask
      · obtain ⟨r, -, rfl⟩ := Option.map_eq_some_iff.mp hmask
        exact ⟨r, rfl⟩
    refine ⟨r, mask.mask.offset (∑ i, (data i).keyShare) δ, hr,
      (maskAhead_shift_self (h.party p) p k).trans
        ((if_pos rfl).trans ((congrArg (Option.map _) hmask).trans ?_))⟩
    have hoffset : (Offsets.ofLists δs μs).mask k = δ := by
      simp [Offsets.ofLists, List.getD_eq_getElem?_getD, hδ]
    simp only [Option.map_some, InputMask.offset, hr, hoffset]

end Consistent

end JointCircuit
