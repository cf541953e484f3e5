/-
JointCircuit.Proofs.Draws — two suppliers side by side.

What the gate for a node takes from the supplier is written in its
operation (`Operation.draw`, §1), and a draw that succeeds hands out what
lies ahead (§2). So a relation between what two suppliers have ahead
carries over to what is drawn from them and to what is left: one supplier
may end before the other (`CutOff`, §3), or hand out the same material
moved by given offsets (`Moved`, §4).

Main statements: `CutOff.draw`, `CutOff.draw_error`, `Moved.nextTriples`,
`Moved.nextMask`.
-/
import JointCircuit.Proofs.Blindness
import JointCircuit.Proofs.Nodes
import JointCircuit.Proofs.Shifts

namespace JointCircuit

open scoped Fin.CommRing

variable {m : Modulus}

/-! ## §1 Draws of operations -/

/-- What the gate for an operation takes from the supplier. -/
def Operation.draw : Operation m → Action (Supplier m) (Drawn m)
  | .input owner _ => .mask <$> Supplier.nextMask owner
  | .multiply _ _ => .triples <$> Supplier.nextTriples 1
  | .multiplyBatch pairs =>
    if pairs.isEmpty then pure .nothing else .triples <$> Supplier.nextTriples pairs.length
  | _ => pure .nothing

/-- A gate draws what its operation says. -/
theorem Gate.draw_of_instantiate {values : List (Option (Value m))} {op : Operation m}
    {gate : Gate m} (h : instantiate values op = .ok gate) : gate.draw = op.draw := by
  cases op with
  | input owner value =>
    cases h
    rfl
  | macCheck after =>
    cases h
    rfl
  | multiply x y =>
    obtain ⟨_, -, h⟩ := except_bind_eq_ok.mp h
    obtain ⟨_, -, h⟩ := except_bind_eq_ok.mp h
    cases h
    rfl
  | multiplyBatch pairs =>
    obtain ⟨operands, hoperands, h⟩ := except_bind_eq_ok.mp h
    cases h
    have hlength := except_length_mapM hoperands
    have hempty : operands.isEmpty = pairs.isEmpty := by
      rw [Bool.eq_iff_iff, List.isEmpty_iff_length_eq_zero, List.isEmpty_iff_length_eq_zero,
        hlength]
    simp only [draw, MultiplyBatch.draw, Operation.draw, hlength, hempty]
  | reveal x =>
    obtain ⟨_, -, h⟩ := except_bind_eq_ok.mp h
    cases h
    rfl
  | _ =>
    obtain ⟨_, -, h⟩ := except_bind_eq_ok.mp h
    first
      | cases h
        rfl
      | obtain ⟨_, -, h⟩ := except_bind_eq_ok.mp h
        cases h
        rfl

namespace Operation

/-- An operation whose owner, if it has one, is a party. -/
theorem exists_owner {owner : Nat} {value : Option (Element m)}
    (h : (Operation.input owner value).unknownOwner? n = none) : ∃ o : Fin n, owner = o + 1 := by
  simp only [Operation.unknownOwner?, ite_eq_right_iff, reduceCtorEq, imp_false, not_or] at h
  exact ⟨⟨owner - 1, by omega⟩, by show owner = owner - 1 + 1; omega⟩

theorem masks_input (owner o : Fin n) (value : Option (Element m)) :
    Operation.masks o (.input (owner + 1) value) = if owner = o then 1 else 0 := by
  by_cases ho : owner = o
  · rw [if_pos ho, ho]
    exact if_pos rfl
  · rw [if_neg ho]
    exact if_neg fun heq => ho (Fin.ext (Nat.succ.inj heq))

/-- What is drawn for an operation: a mask of its owner, triples, or nothing. -/
inductive Taking (n : Nat) (op : Operation m) : Prop
  | mask (owner : Fin n) (draw_eq : op.draw = .mask <$> Supplier.nextMask (owner + 1))
      (triples_eq : op.triples = 0)
      (masks_eq : ∀ o : Fin n, op.masks o = if owner = o then 1 else 0)
  | triples (draw_eq : op.draw = .triples <$> Supplier.nextTriples op.triples)
      (masks_eq : ∀ o : Fin n, op.masks o = 0)
  | nothing (draw_eq : op.draw = pure .nothing) (triples_eq : op.triples = 0)
      (masks_eq : ∀ o : Fin n, op.masks o = 0)

theorem taking {op : Operation m} (h : op.unknownOwner? n = none) : op.Taking n := by
  cases op with
  | input owner value =>
    obtain ⟨owner, rfl⟩ := exists_owner h
    exact .mask owner rfl rfl fun o => masks_input owner o value
  | multiply x y => exact .triples rfl fun _ => rfl
  | multiplyBatch pairs =>
    by_cases hempty : pairs = []
    · subst hempty
      exact .nothing rfl rfl fun _ => rfl
    · refine .triples ?_ fun _ => rfl
      rw [draw, if_neg (by simpa using hempty)]
      rfl
  | _ => exact .nothing rfl rfl fun _ => rfl

end Operation

/-! ## §2 What a draw hands out -/

theorem DealtSupplier.tripleAhead_of_nextTriples {count : Nat} {s s' : DealtSupplier m}
    {triples : List (Triple m)} (h : nextTriples count s = .ok triples s') {k : Nat}
    (hk : k < count) : s.tripleAhead k ≠ none := by
  simp only [nextTriples, Action.bind_apply, Action.get_apply] at h
  split at h
  · cases h
  · rename_i hleft
    rw [tripleAhead, ne_eq, List.getElem?_eq_none_iff, List.length_reverse]
    simp only [triplesLeft] at hleft
    omega

theorem DealtSupplier.maskAhead_of_nextMask {owner : Nat} {s s' : DealtSupplier m}
    {mask : InputMask m} (h : nextMask owner s = .ok mask s') : s.maskAhead owner 0 ≠ none := by
  have hfirst {α : Type} (xs : List α) : xs.reverse[0]? = xs.getLast? := by
    rw [← List.head?_eq_getElem?, List.head?_reverse]
  simp only [nextMask, Action.bind_apply, Action.get_apply] at h
  split at h
  · cases h
  · rw [maskAhead, hfirst, hfirst]
    cases hmask : (s.masksOf owner).getLast? with
    | none =>
      simp only [hmask] at h
      cases h
    | some part =>
      simp only [hmask] at h
      dsimp only
      split
      · rename_i hown
        simp only [hown] at h
        cases hplain : s.data.plaintexts.getLast? with
        | none =>
          simp only [hplain] at h
          cases h
        | some plaintext => exact Option.some_ne_none _
      · exact Option.some_ne_none _

theorem SyntheticSupplier.maskAhead_of_nextMask {owner : Nat} {s s' : SyntheticSupplier m}
    {mask : InputMask m} (h : nextMask owner s = .ok mask s') : s.maskAhead owner 0 ≠ none := by
  simp only [nextMask, Action.bind_apply, Action.get_apply] at h
  split at h
  · cases h
  · rename_i hpos
    rw [maskAhead, if_neg hpos]
    cases hg : s.masks[owner - 1]? with
    | none =>
      simp only [hg] at h
      cases h
    | some generator => exact Option.some_ne_none _

namespace Supplier

variable {s s' : Supplier m}

/-- Triples that were handed out had been lying ahead. -/
theorem nextTriples_eq_ok {count : Nat} {triples : List (Triple m)}
    (h : nextTriples count s = .ok triples s') :
    ∃ t : Nat → Triple m, (∀ k < count, s.tripleAhead k = some (t k))
      ∧ triples = (List.range count).map t
      ∧ (∀ k, s'.tripleAhead k = s.tripleAhead (count + k))
      ∧ ∀ owner k, s'.maskAhead owner k = s.maskAhead owner k := by
  have hahead : ∀ k < count, s.tripleAhead k ≠ none := by
    intro k hk
    cases s with
    | synthetic s => exact Option.some_ne_none _
    | dealt s =>
      rw [nextTriples, Action.within_eq_ok] at h
      obtain ⟨left, hleft, -⟩ := h
      exact DealtSupplier.tripleAhead_of_nextTriples hleft hk
  have hchoice : ∀ k, ∃ t, k < count → s.tripleAhead k = some t := by
    intro k
    by_cases hk : k < count
    · obtain ⟨t, ht⟩ := Option.ne_none_iff_exists'.mp (hahead k hk)
      exact ⟨t, fun _ => ht⟩
    · exact ⟨⟨0, 0, 0⟩, fun hlt => absurd hlt hk⟩
  choose t ht using hchoice
  obtain ⟨left, hnext, htriple, hmask⟩ := nextTriples_eq ht
  rw [hnext] at h
  cases h
  exact ⟨t, ht, rfl, htriple, hmask⟩

/-- A mask that was handed out had been lying ahead. -/
theorem nextMask_eq_ok {owner : Nat} {mask : InputMask m} (h : nextMask owner s = .ok mask s') :
    s.maskAhead owner 0 = some mask
      ∧ (∀ o k, s'.maskAhead o k = s.maskAhead o (if o = owner then k + 1 else k))
      ∧ ∀ k, s'.tripleAhead k = s.tripleAhead k := by
  have hahead : s.maskAhead owner 0 ≠ none := by
    cases s with
    | synthetic s =>
      rw [nextMask, Action.within_eq_ok] at h
      obtain ⟨left, hleft, -⟩ := h
      exact SyntheticSupplier.maskAhead_of_nextMask hleft
    | dealt s =>
      rw [nextMask, Action.within_eq_ok] at h
      obtain ⟨left, hleft, -⟩ := h
      exact DealtSupplier.maskAhead_of_nextMask hleft
  obtain ⟨mask', hmask'⟩ := Option.ne_none_iff_exists'.mp hahead
  obtain ⟨left, hnext, hmask, htriple⟩ := nextMask_eq hmask'
  rw [hnext] at h
  cases h
  exact ⟨hmask', hmask, htriple⟩

/-- Without the triples there is an error. -/
theorem nextTriples_error {count k : Nat} (hk : k < count) (h : s.tripleAhead k = none) :
    ∃ fault s', nextTriples count s = .error fault s' := by
  cases hnext : nextTriples count s with
  | error fault s' => exact ⟨fault, s', rfl⟩
  | ok triples s' =>
    obtain ⟨t, ht, -⟩ := nextTriples_eq_ok hnext
    rw [ht k hk] at h
    cases h

/-- Without the mask there is an error. -/
theorem nextMask_error {owner : Nat} (h : s.maskAhead owner 0 = none) :
    ∃ fault s', nextMask owner s = .error fault s' := by
  cases hnext : nextMask owner s with
  | error fault s' => exact ⟨fault, s', rfl⟩
  | ok mask s' =>
    rw [(nextMask_eq_ok hnext).1] at h
    cases h

end Supplier

/-! ## §3 Suppliers that end early -/

variable {n : Nat}

/-- The supplier hands out what `full` does, but only this many triples, and this many masks of
every owner. -/
structure CutOff (triples : Nat) (masks : Fin n → Nat) (full s : Supplier m) : Prop where
  triple : ∀ k, s.tripleAhead k = if k < triples then full.tripleAhead k else none
  mask : ∀ (owner : Fin n) k,
    s.maskAhead (owner + 1) k = if k < masks owner then full.maskAhead (owner + 1) k else none

namespace CutOff

variable {triples : Nat} {masks : Fin n → Nat} {full full' s : Supplier m}

/-- Triples that are left are the same ones. -/
theorem nextTriples (h : CutOff triples masks full s) {count : Nat} (hcount : count ≤ triples)
    {taken : List (Triple m)} (hnext : Supplier.nextTriples count full = .ok taken full') :
    ∃ s', Supplier.nextTriples count s = .ok taken s'
      ∧ CutOff (triples - count) masks full' s' := by
  obtain ⟨t, ht, rfl, htriple, hmask⟩ := Supplier.nextTriples_eq_ok hnext
  have hahead : ∀ k < count, s.tripleAhead k = some (t k) := fun k hk => by
    rw [h.triple k, if_pos (by omega), ht k hk]
  obtain ⟨s', hnext', htriple', hmask'⟩ := Supplier.nextTriples_eq hahead
  refine ⟨s', hnext', fun k => ?_, fun owner k => ?_⟩
  · rw [htriple', htriple, h.triple]
    by_cases hk : k < triples - count
    · rw [if_pos hk, if_pos (by omega)]
    · rw [if_neg hk, if_neg (by omega)]
  · rw [hmask', hmask, h.mask]

/-- A mask that is left is the same one. -/
theorem nextMask (h : CutOff triples masks full s) {owner : Fin n} (hmore : 0 < masks owner)
    {mask : InputMask m} (hnext : Supplier.nextMask (owner + 1) full = .ok mask full') :
    ∃ s', Supplier.nextMask (owner + 1) s = .ok mask s'
      ∧ CutOff triples (fun o => masks o - if owner = o then 1 else 0) full' s' := by
  obtain ⟨hahead, hmask, htriple⟩ := Supplier.nextMask_eq_ok hnext
  have hahead' : s.maskAhead (owner + 1) 0 = some mask := by
    rw [h.mask, if_pos hmore, hahead]
  obtain ⟨s', hnext', hmask', htriple'⟩ := Supplier.nextMask_eq hahead'
  refine ⟨s', hnext', fun k => ?_, fun o k => ?_⟩
  · rw [htriple', htriple, h.triple]
  · rw [hmask', hmask, h.mask]
    by_cases ho : owner = o
    · subst ho
      simp only [if_true]
      by_cases hk : k < masks owner - 1
      · rw [if_pos hk, if_pos (by omega)]
      · rw [if_neg hk, if_neg (by omega)]
    · have hne : o.val + 1 ≠ owner.val + 1 := fun heq => ho (Fin.ext (Nat.succ.inj heq).symm)
      simp only [hne, ho, if_false, Nat.sub_zero]

/-- What an operation needs is left. -/
def Suffices (triples : Nat) (masks : Fin n → Nat) (op : Operation m) : Prop :=
  op.triples ≤ triples ∧ ∀ owner, op.masks owner ≤ masks owner

/-- If there is not enough for an operation, its owner has no mask left, or too few triples are. -/
theorem lacking {op : Operation m} (hop : op.unknownOwner? n = none)
    (hless : ¬ Suffices triples masks op) :
    (∃ owner : Fin n, op.draw = .mask <$> Supplier.nextMask (owner + 1) ∧ masks owner = 0)
      ∨ (op.draw = .triples <$> Supplier.nextTriples op.triples ∧ triples < op.triples) := by
  cases Operation.taking hop with
  | mask owner draw_eq triples_eq masks_eq =>
    refine .inl ⟨owner, draw_eq, ?_⟩
    by_contra hpos
    refine hless ⟨triples_eq ▸ Nat.zero_le _, fun o => ?_⟩
    rw [masks_eq]
    split
    · rename_i ho
      subst ho
      omega
    · exact Nat.zero_le _
  | triples draw_eq masks_eq =>
    refine .inr ⟨draw_eq, ?_⟩
    by_contra hle
    exact hless ⟨Nat.le_of_not_lt hle, fun o => masks_eq o ▸ Nat.zero_le _⟩
  | nothing draw_eq triples_eq masks_eq =>
    exact absurd ⟨triples_eq ▸ Nat.zero_le _, fun o => masks_eq o ▸ Nat.zero_le _⟩ hless

/-- An operation draws the same while there is enough. -/
theorem draw (h : CutOff triples masks full s) {op : Operation m}
    (hop : op.unknownOwner? n = none) (henough : Suffices triples masks op) {drawn : Drawn m}
    (hdraw : op.draw full = .ok drawn full') :
    ∃ s', op.draw s = .ok drawn s'
      ∧ CutOff (triples - op.triples) (fun o => masks o - op.masks o) full' s' := by
  cases Operation.taking hop with
  | mask owner draw_eq triples_eq masks_eq =>
    have hmore := henough.2 owner
    rw [masks_eq, if_pos rfl] at hmore
    rw [draw_eq] at hdraw ⊢
    obtain ⟨mask, hnext, rfl⟩ := Action.map_eq_ok.mp hdraw
    obtain ⟨s', hnext', hcut⟩ := h.nextMask hmore hnext
    simp only [triples_eq, masks_eq]
    exact ⟨s', Action.map_eq_ok.mpr ⟨mask, hnext', rfl⟩, hcut⟩
  | triples draw_eq masks_eq =>
    rw [draw_eq] at hdraw ⊢
    obtain ⟨taken, hnext, rfl⟩ := Action.map_eq_ok.mp hdraw
    obtain ⟨s', hnext', hcut⟩ := h.nextTriples henough.1 hnext
    simp only [masks_eq]
    exact ⟨s', Action.map_eq_ok.mpr ⟨taken, hnext', rfl⟩, hcut⟩
  | nothing draw_eq triples_eq masks_eq =>
    rw [draw_eq] at hdraw ⊢
    cases hdraw
    simp only [triples_eq, masks_eq]
    exact ⟨s, rfl, h⟩

/-- An operation fails to draw what is not there. -/
theorem draw_error (h : CutOff triples masks full s) {op : Operation m}
    (hop : op.unknownOwner? n = none) (hless : ¬ Suffices triples masks op) :
    ∃ fault s', op.draw s = .error fault s' := by
  obtain ⟨owner, draw_eq, hnone⟩ | ⟨draw_eq, hfew⟩ := lacking hop hless
  · have hahead : s.maskAhead (owner + 1) 0 = none := by
      rw [h.mask, hnone, if_neg (Nat.lt_irrefl _)]
    obtain ⟨fault, s', hnext⟩ := Supplier.nextMask_error hahead
    exact ⟨fault, s', draw_eq ▸ Action.map_eq_error.mpr hnext⟩
  · have hnone : s.tripleAhead triples = none := by
      rw [h.triple, if_neg (Nat.lt_irrefl _)]
    obtain ⟨fault, s', hnext⟩ := Supplier.nextTriples_error hfew hnone
    exact ⟨fault, s', draw_eq ▸ Action.map_eq_error.mpr hnext⟩

end CutOff

/-! ## §4 Suppliers that are moved -/

/-- A party's parts of the factors of a triple. -/
def Triple.factors (t : Triple m) : AuthShare m × AuthShare m := (t.a, t.b)

/-- A pair of parts moved by a pair of offsets. -/
def offsetPair (key : Element m) (x : AuthShare m × AuthShare m) (δ : Element m × Element m) :
    AuthShare m × AuthShare m :=
  (x.1.offset key δ.1, x.2.offset key δ.2)

/-- The supplier of `party` hands out what `s` does, but with the factors of the next triples and
the values of the party's next own masks moved by these offsets. -/
structure Moved (key : Element m) (party : Nat) (triples : List (Element m × Element m))
    (masks : List (Element m)) (s s' : Supplier m) : Prop where
  triple : ∀ k δ, triples[k]? = some δ → ∀ t, s.tripleAhead k = some t →
    ∃ t', s'.tripleAhead k = some t' ∧ t'.factors = offsetPair key t.factors δ
  mask : ∀ k δ, masks[k]? = some δ → ∀ mask, s.maskAhead party k = some mask →
    ∃ r part, mask.plaintext = some r ∧ s'.maskAhead party k = some ⟨some (r + δ), part⟩

namespace Moved

variable {key : Element m} {party : Nat} {triples later : List (Element m × Element m)}
  {masks : List (Element m)} {s s' left left' : Supplier m}

/-- The triples that both suppliers hand out. -/
theorem nextTriples (h : Moved key party (triples ++ later) masks s s')
    {taken taken' : List (Triple m)}
    (hnext : Supplier.nextTriples triples.length s = .ok taken left)
    (hnext' : Supplier.nextTriples triples.length s' = .ok taken' left') :
    taken'.map Triple.factors = List.zipWith (offsetPair key) (taken.map Triple.factors) triples
      ∧ Moved key party later masks left left' := by
  obtain ⟨t, ht, rfl, htriple, hmask⟩ := Supplier.nextTriples_eq_ok hnext
  obtain ⟨t', ht', rfl, htriple', hmask'⟩ := Supplier.nextTriples_eq_ok hnext'
  constructor
  · refine List.ext_getElem (by simp) fun k hk _ => ?_
    have hlt : k < triples.length := by simpa using hk
    obtain ⟨u, hu, hfactors⟩ := h.triple k triples[k]
      ((List.getElem?_append_left hlt).trans (List.getElem?_eq_getElem hlt)) (t k) (ht k hlt)
    obtain rfl := Option.some.inj ((ht' k hlt).symm.trans hu)
    simpa using hfactors
  · constructor
    · intro k δ hδ u hu
      rw [htriple] at hu
      rw [htriple']
      refine h.triple _ δ ?_ u hu
      rw [List.getElem?_append_right (Nat.le_add_right _ _), Nat.add_sub_cancel_left]
      exact hδ
    · intro k δ hδ mask hm
      rw [hmask] at hm
      rw [hmask']
      exact h.mask k δ hδ mask hm

/-- The own mask that both suppliers hand out. -/
theorem nextMask {δ : Element m} (h : Moved key party triples (δ :: masks) s s')
    {mask mask' : InputMask m} (hnext : Supplier.nextMask party s = .ok mask left)
    (hnext' : Supplier.nextMask party s' = .ok mask' left') :
    (∃ r part, mask.plaintext = some r ∧ mask' = ⟨some (r + δ), part⟩)
      ∧ Moved key party triples masks left left' := by
  obtain ⟨hahead, hmask, htriple⟩ := Supplier.nextMask_eq_ok hnext
  obtain ⟨hahead', hmask', htriple'⟩ := Supplier.nextMask_eq_ok hnext'
  constructor
  · obtain ⟨r, part, hr, hu⟩ := h.mask 0 δ rfl mask hahead
    exact ⟨r, part, hr, Option.some.inj (hahead'.symm.trans hu)⟩
  · constructor
    · intro k δ' hδ u hu
      rw [htriple] at hu
      rw [htriple']
      exact h.triple k δ' hδ u hu
    · intro k δ' hδ u hu
      rw [hmask, if_pos rfl] at hu
      rw [hmask', if_pos rfl]
      exact h.mask (k + 1) δ' hδ u hu

/-- A mask of another party makes no difference. -/
theorem nextMask_of_ne {owner : Nat} (howner : party ≠ owner)
    (h : Moved key party triples masks s s') {mask mask' : InputMask m}
    (hnext : Supplier.nextMask owner s = .ok mask left)
    (hnext' : Supplier.nextMask owner s' = .ok mask' left') :
    Moved key party triples masks left left' := by
  obtain ⟨-, hmask, htriple⟩ := Supplier.nextMask_eq_ok hnext
  obtain ⟨-, hmask', htriple'⟩ := Supplier.nextMask_eq_ok hnext'
  constructor
  · intro k δ' hδ u hu
    rw [htriple] at hu
    rw [htriple']
    exact h.triple k δ' hδ u hu
  · intro k δ' hδ u hu
    rw [hmask, if_neg howner] at hu
    rw [hmask', if_neg howner]
    exact h.mask k δ' hδ u hu

end Moved

end JointCircuit
