/-
JointCircuit.Proofs.Gaps — what makes up for other inputs.

Two evaluations in the clear are some way apart at a node (`gap`, §1),
and the parts of a party are just as far apart if nobody else's parts
have changed. Masks and triples that are moved as far (§2) keep what is
sent about an input and about the factors of a product as it was.

Main statement: `Gate.matches_of_moved` (§3) — with moved material, the
gates that a party builds for a node in the two evaluations match, and
the remaining material is moved as the nodes after it require.
-/
import JointCircuit.Proofs.Clear
import JointCircuit.Proofs.Draws
import JointCircuit.Proofs.Masking

namespace JointCircuit

open scoped Fin.CommRing

variable {m : Modulus} {n : Nat}

/-! ## §1 Gaps -/

/-- The number at a node; what is no number counts as zero. -/
def Plain.number (plains : List (PlainValue m)) (id : NodeId) : Element m :=
  match plains[id]? with
  | some (.scalar x) => x
  | _ => 0

theorem Plain.number_eq {plains : List (PlainValue m)} {id : NodeId} {x : Element m}
    (h : plains[id]? = some (.scalar x)) : number plains id = x := by
  rw [number, h]

/-- How far apart two evaluations in the clear are at a node. -/
def gap (plains plains' : List (PlainValue m)) (id : NodeId) : Element m :=
  Plain.number plains' id - Plain.number plains id

section

variable {key : Fin n → Element m} {c c' : Circuit m} {plains plains' : List (PlainValue m)}
  {values values' : List (Option (Fin n → Value m))} {p : Fin n} {x : NodeId} {a a' : AuthShare m}

/-- A share that a party holds is its part of the number at the node. -/
theorem Known.share_eq (h : Known key c plains values)
    (hshare : Gate.shareOf (valuesAt p values) x = .ok a) :
    ∃ part : Fin n → AuthShare m, Shared key part (Plain.number plains x) ∧ part p = a
      ∧ ∀ i, (valuesAt i values)[x]? = some (some (.share (part i))) := by
  obtain ⟨value, hvalue, hshare⟩ := except_bind_eq_ok.mp hshare
  have hvalues : ∀ i, (valuesAt i values)[x]? = values[x]?.map (Option.map (· i)) :=
    fun i => List.getElem?_map
  rw [Gate.operand, hvalues p] at hvalue
  rcases hv : values[x]? with _ | _ | v
  · rw [hv] at hvalue
    cases hvalue
  · rw [hv] at hvalue
    cases hvalue
  · rw [hv] at hvalue
    cases hvalue
    obtain ⟨op, plain, -, hplain, hcarries⟩ := h x v hv
    generalize op.kind = kind at hcarries
    cases hcarries with
    | share hpart =>
      rename_i part y
      cases hshare
      refine ⟨part, Plain.number_eq hplain ▸ hpart, rfl, fun i => ?_⟩
      rw [hvalues i, hv]
      rfl
    | batch => cases hshare
    | plain => cases hshare
    | check => cases hshare

/-- If nobody else's parts have changed, a party's own parts have moved by the gap. -/
theorem Known.shareOf_gap (h : Known key c plains values) (h' : Known key c' plains' values')
    (hothers : ∀ i ≠ p, valuesAt i values' = valuesAt i values)
    (hshare : Gate.shareOf (valuesAt p values) x = .ok a)
    (hshare' : Gate.shareOf (valuesAt p values') x = .ok a') :
    a' = a.offset (∑ i, key i) (gap plains plains' x) := by
  obtain ⟨part, hpart, rfl, hat⟩ := h.share_eq hshare
  obtain ⟨part', hpart', rfl, hat'⟩ := h'.share_eq hshare'
  refine hpart.eq_offset hpart' fun i hi => ?_
  have heq := (hat' i).symm.trans ((congrArg (·[x]?) (hothers i hi)).trans (hat i))
  exact Value.share.inj (Option.some.inj (Option.some.inj heq))

/-- The pairs of a batch have moved by the gaps of its operands. -/
theorem Known.pairs_gap (h : Known key c plains values) (h' : Known key c' plains' values')
    (hothers : ∀ i ≠ p, valuesAt i values' = valuesAt i values) {pairs : List (NodeId × NodeId)}
    {operands operands' : List (AuthShare m × AuthShare m)}
    (hpairs : (pairs.mapM fun (x, y) => do
        return (← Gate.shareOf (valuesAt p values) x, ← Gate.shareOf (valuesAt p values) y))
      = (.ok operands : Except CircuitError _))
    (hpairs' : (pairs.mapM fun (x, y) => do
        return (← Gate.shareOf (valuesAt p values') x, ← Gate.shareOf (valuesAt p values') y))
      = (.ok operands' : Except CircuitError _)) :
    operands' = List.zipWith (offsetPair (∑ i, key i)) operands
      (pairs.map fun pair => (gap plains plains' pair.1, gap plains plains' pair.2)) := by
  induction pairs generalizing operands operands' with
  | nil =>
    cases hpairs
    cases hpairs'
    rfl
  | cons pair pairs ih =>
    rw [List.mapM_cons] at hpairs hpairs'
    obtain ⟨first, hfirst, hpairs⟩ := except_bind_eq_ok.mp hpairs
    obtain ⟨rest, hrest, hpairs⟩ := except_bind_eq_ok.mp hpairs
    obtain ⟨first', hfirst', hpairs'⟩ := except_bind_eq_ok.mp hpairs'
    obtain ⟨rest', hrest', hpairs'⟩ := except_bind_eq_ok.mp hpairs'
    obtain ⟨u, hu, hfirst⟩ := except_bind_eq_ok.mp hfirst
    obtain ⟨v, hv, hfirst⟩ := except_bind_eq_ok.mp hfirst
    obtain ⟨u', hu', hfirst'⟩ := except_bind_eq_ok.mp hfirst'
    obtain ⟨v', hv', hfirst'⟩ := except_bind_eq_ok.mp hfirst'
    cases hfirst
    cases hfirst'
    cases hpairs
    cases hpairs'
    rw [ih hrest hrest', h.shareOf_gap h' hothers hu hu', h.shareOf_gap h' hothers hv hv']
    rfl

end

/-! ## §2 Material for a node -/

namespace Operation

variable (gap : NodeId → Element m)

/-- How far the factors of the triples of a node have to be moved. -/
def tripleGaps : Operation m → List (Element m × Element m)
  | .multiply x y => [(gap x, gap y)]
  | .multiplyBatch pairs => pairs.map fun pair => (gap pair.1, gap pair.2)
  | _ => []

/-- How far the mask of a node has to be moved, if it is an input of the party. -/
def maskGaps (party : Nat) (id : NodeId) : Operation m → List (Element m)
  | .input owner _ => if owner = party then [gap id] else []
  | _ => []

/-- The same operation, but for an input of the party. -/
inductive Reassigns (party : Nat) : Operation m → Operation m → Prop
  | same (op : Operation m) : Reassigns party op op
  | input (value value' : Option (Element m)) :
      Reassigns party (.input party value) (.input party value')

variable {op op' : Operation m} {party : Nat}

theorem Reassigns.draw_eq (h : Reassigns party op op') : op'.draw = op.draw := by
  cases h <;> rfl

theorem Reassigns.unknownOwner?_eq (h : Reassigns party op op') (parties : Nat) :
    op'.unknownOwner? parties = op.unknownOwner? parties := by
  cases h <;> rfl

/-- Only inputs are reassigned. -/
theorem Reassigns.eq (h : Reassigns party op op')
    (hop : ∀ owner value, op ≠ .input owner value) : op' = op := by
  cases h with
  | same => rfl
  | input value value' => exact absurd rfl (hop _ _)

theorem Reassigns.exists_value {owner : Nat} {value : Option (Element m)}
    (h : Reassigns party (.input owner value) op') : ∃ value', op' = .input owner value' := by
  cases h with
  | same => exact ⟨value, rfl⟩
  | input _ value' => exact ⟨value', rfl⟩

/-- A party draws what the operation says, whatever it knows of the inputs. -/
theorem Shows.draw_eq (h : Shows party op op') : op'.draw = op.draw := by
  cases h <;> rfl

end Operation

/-- Moved factors less moved triples are what they were. -/
theorem MultiplyBatch.maskedOperands_offset {key : Element m}
    {pairs : List (AuthShare m × AuthShare m)} {taken taken' : List (Triple m)}
    {δs : List (Element m × Element m)} (hpairs : pairs.length = δs.length)
    (htaken : taken'.map Triple.factors
      = List.zipWith (offsetPair key) (taken.map Triple.factors) δs) :
    MultiplyBatch.maskedOperands
        { pairs := List.zipWith (offsetPair key) pairs δs, triples := taken' }
      = MultiplyBatch.maskedOperands { pairs, triples := taken } := by
  induction δs generalizing pairs taken taken' with
  | nil =>
    obtain rfl := List.length_eq_zero_iff.mp hpairs
    rfl
  | cons δ δs ih =>
    obtain ⟨pair, pairs, rfl⟩ := List.exists_cons_of_length_eq_add_one hpairs
    cases taken with
    | nil =>
      obtain rfl := List.map_eq_nil_iff.mp htaken
      rfl
    | cons t taken =>
      obtain ⟨t', taken', rfl, ht, htaken⟩ := List.map_eq_cons_iff.mp htaken
      have hrest := ih (Nat.succ.inj hpairs) htaken
      have ha : t'.a = t.a.offset key δ.1 := congrArg Prod.fst ht
      have hb : t'.b = t.b.offset key δ.2 := congrArg Prod.snd ht
      simp only [maskedOperands, List.zipWith_cons_cons, List.zip_cons_cons, List.flatMap_cons,
        offsetPair, ha, hb, AuthShare.offset_sub_offset] at hrest ⊢
      rw [hrest]

/-! ## §3 Gates that match -/

/-- What both draws of triples hand out. -/
theorem Moved.triples_of_draw {key : Element m} {party : Nat}
    {δs later : List (Element m × Element m)} {μs : List (Element m)} {s s' left left' : Supplier m}
    {drawn drawn' : Drawn m} (h : Moved key party (δs ++ later) μs s s')
    (hdraw : (Drawn.triples <$> Supplier.nextTriples δs.length) s = .ok drawn left)
    (hdraw' : (Drawn.triples <$> Supplier.nextTriples δs.length) s' = .ok drawn' left') :
    ∃ taken taken', drawn = .triples taken ∧ drawn' = .triples taken'
      ∧ taken'.map Triple.factors = List.zipWith (offsetPair key) (taken.map Triple.factors) δs
      ∧ Moved key party later μs left left' := by
  obtain ⟨taken, hnext, rfl⟩ := Action.map_eq_ok.mp hdraw
  obtain ⟨taken', hnext', rfl⟩ := Action.map_eq_ok.mp hdraw'
  exact ⟨taken, taken', rfl, rfl, h.nextTriples hnext hnext'⟩

section

variable {key : Fin n → Element m} {c c' : Circuit m} {plains plains' : List (PlainValue m)}
  {values values' : List (Option (Fin n → Value m))} {p : Fin n} {id : NodeId}
  {op op' v v' : Operation m} {x x' : PlainValue m} {gate gate' : Gate m} {drawn drawn' : Drawn m}
  {s s' left left' : Supplier m} {δs : List (Element m × Element m)} {μs : List (Element m)}

/-- The gates for an input. -/
theorem Gate.matches_input {owner : Nat} {value value' w w' : Option (Element m)}
    (hown : owner = p + 1 → w = value) (hown' : owner = p + 1 → w' = value')
    (hx : plains[id]? = some x)
    (hvalue : Plain.value (plains.take id) id (.input owner value) = .ok x)
    (hx' : plains'[id]? = some x')
    (hvalue' : Plain.value (plains'.take id) id (.input owner value') = .ok x')
    (hdraw : (Operation.input owner w).draw s = .ok drawn left)
    (hdraw' : (Operation.input owner w').draw s' = .ok drawn' left')
    (hmoved : Moved (∑ i, key i) (p + 1) δs
      ((Operation.input owner value).maskGaps (gap plains plains') (p + 1) id ++ μs) s s') :
    Matches (p + 1) (.input (.new owner w)) drawn (.input (.new owner w')) drawn'
      ∧ Moved (∑ i, key i) (p + 1) δs μs left left' := by
  obtain ⟨mask, hnext, rfl⟩ := Action.map_eq_ok.mp hdraw
  obtain ⟨mask', hnext', rfl⟩ := Action.map_eq_ok.mp hdraw'
  by_cases howner : owner = p + 1
  · subst howner
    obtain rfl := hown rfl
    obtain rfl := hown' rfl
    cases w with
    | none => cases hvalue
    | some y =>
      obtain ⟨y', rfl⟩ : ∃ y', w' = some y' := by
        cases w' with
        | none => cases hvalue'
        | some y' => exact ⟨y', rfl⟩
      obtain rfl : .scalar y = x := Except.ok.inj hvalue
      obtain rfl : .scalar y' = x' := Except.ok.inj hvalue'
      have hgap : gap plains plains' id = y' - y := by
        rw [gap, Plain.number_eq hx, Plain.number_eq hx']
      rw [Operation.maskGaps, if_pos rfl, hgap] at hmoved
      obtain ⟨⟨r, part, hr, rfl⟩, hleft⟩ := hmoved.nextMask hnext hnext'
      obtain ⟨_, part₀⟩ := mask
      obtain rfl : _ = some r := hr
      exact ⟨.own part₀ part (by ring), hleft⟩
  · rw [Operation.maskGaps, if_neg howner] at hmoved
    exact ⟨.other (Ne.symm howner) _ _ _ _, hmoved.nextMask_of_ne (Ne.symm howner) hnext hnext'⟩

/-- The gates for a local operation, whatever the parts. -/
theorem Gate.matches_linear {l l' : LinearOp m}
    (hgate : .ok (ofLinear l) = (.ok gate : Except CircuitError (Gate m)))
    (hgate' : .ok (ofLinear l') = (.ok gate' : Except CircuitError (Gate m)))
    (hdraw : (pure .nothing : Action (Supplier m) (Drawn m)) s = .ok drawn left)
    (hdraw' : (pure .nothing : Action (Supplier m) (Drawn m)) s' = .ok drawn' left')
    (hmoved : Moved (∑ i, key i) (p + 1) δs μs s s') :
    Matches (p + 1) gate drawn gate' drawn' ∧ Moved (∑ i, key i) (p + 1) δs μs left left' := by
  cases hgate
  cases hgate'
  cases hdraw
  cases hdraw'
  exact ⟨.linear _ _, hmoved⟩

section

variable (h : Known key c plains values) (h' : Known key c' plains' values')
  (hothers : ∀ i ≠ p, valuesAt i values' = valuesAt i values)

include h h' hothers

/-- The gates for a product. -/
theorem Gate.matches_multiply {y z : NodeId}
    (hgate : Gate.instantiate (valuesAt p values) (.multiply y z) = .ok gate)
    (hgate' : Gate.instantiate (valuesAt p values') (.multiply y z) = .ok gate')
    (hdraw : (Operation.multiply y z : Operation m).draw s = .ok drawn left)
    (hdraw' : (Operation.multiply y z : Operation m).draw s' = .ok drawn' left')
    (hmoved : Moved (∑ i, key i) (p + 1) ([(gap plains plains' y, gap plains plains' z)] ++ δs) μs s
      s') :
    Matches (p + 1) gate drawn gate' drawn' ∧ Moved (∑ i, key i) (p + 1) δs μs left left' := by
  obtain ⟨u, hu, hgate⟩ := except_bind_eq_ok.mp hgate
  obtain ⟨w, hw, hgate⟩ := except_bind_eq_ok.mp hgate
  obtain ⟨u', hu', hgate'⟩ := except_bind_eq_ok.mp hgate'
  obtain ⟨w', hw', hgate'⟩ := except_bind_eq_ok.mp hgate'
  cases hgate
  cases hgate'
  obtain ⟨taken, taken', rfl, rfl, htaken, hleft⟩ := hmoved.triples_of_draw hdraw hdraw'
  refine ⟨.multiply rfl ?_, hleft⟩
  rw [h.shareOf_gap h' hothers hu hu', h.shareOf_gap h' hothers hw hw']
  exact @MultiplyBatch.maskedOperands_offset m _ [(u, w)] taken taken' _ rfl htaken

/-- The gates for a batch of products. -/
theorem Gate.matches_multiplyBatch {pairs : List (NodeId × NodeId)}
    (hgate : Gate.instantiate (valuesAt p values) (.multiplyBatch pairs) = .ok gate)
    (hgate' : Gate.instantiate (valuesAt p values') (.multiplyBatch pairs) = .ok gate')
    (hdraw : (Operation.multiplyBatch pairs : Operation m).draw s = .ok drawn left)
    (hdraw' : (Operation.multiplyBatch pairs : Operation m).draw s' = .ok drawn' left')
    (hmoved : Moved (∑ i, key i) (p + 1)
      ((pairs.map fun pair => (gap plains plains' pair.1, gap plains plains' pair.2)) ++ δs) μs s
      s') :
    Matches (p + 1) gate drawn gate' drawn' ∧ Moved (∑ i, key i) (p + 1) δs μs left left' := by
  obtain ⟨operands, hoperands, hgate⟩ := except_bind_eq_ok.mp hgate
  obtain ⟨operands', hoperands', hgate'⟩ := except_bind_eq_ok.mp hgate'
  cases hgate
  cases hgate'
  obtain rfl := h.pairs_gap h' hothers hoperands hoperands'
  simp only [Operation.draw] at hdraw hdraw'
  split at hdraw
  · rename_i hempty
    obtain rfl := List.isEmpty_iff.mp hempty
    cases hoperands
    cases hdraw
    cases hdraw'
    exact ⟨.same _ _, hmoved⟩
  · rename_i hpairs
    rw [if_neg hpairs] at hdraw'
    have hlength := except_length_mapM hoperands
    rw [← List.length_map (fun pair : NodeId × NodeId =>
      (gap plains plains' pair.1, gap plains plains' pair.2))] at hdraw hdraw'
    obtain ⟨taken, taken', rfl, rfl, htaken, hleft⟩ := hmoved.triples_of_draw hdraw hdraw'
    refine ⟨.multiplyBatch ?_ ?_, hleft⟩
    · simp [hlength]
    · exact MultiplyBatch.maskedOperands_offset (by simp [hlength]) htaken

/-- The gates for an opening, whose operand is the same number in both evaluations. -/
theorem Gate.matches_reveal {y : NodeId} (hgap : gap plains plains' y = 0)
    (hgate : Gate.instantiate (valuesAt p values) (.reveal y) = .ok gate)
    (hgate' : Gate.instantiate (valuesAt p values') (.reveal y) = .ok gate')
    (hdraw : (Operation.reveal y : Operation m).draw s = .ok drawn left)
    (hdraw' : (Operation.reveal y : Operation m).draw s' = .ok drawn' left')
    (hmoved : Moved (∑ i, key i) (p + 1) δs μs s s') :
    Matches (p + 1) gate drawn gate' drawn' ∧ Moved (∑ i, key i) (p + 1) δs μs left left' := by
  obtain ⟨u, hu, hgate⟩ := except_bind_eq_ok.mp hgate
  obtain ⟨u', hu', hgate'⟩ := except_bind_eq_ok.mp hgate'
  cases hgate
  cases hgate'
  cases hdraw
  cases hdraw'
  rw [h.shareOf_gap h' hothers hu hu', hgap, AuthShare.offset_zero]
  exact ⟨.same _ _, hmoved⟩

end

/-- The gates that a party builds for a node in the two evaluations. -/
theorem Gate.matches_of_moved (hre : Operation.Reassigns (p + 1) op op')
    (hv : Operation.Shows (p + 1) op v) (hv' : Operation.Shows (p + 1) op' v')
    (hx : plains[id]? = some x) (hvalue : Plain.value (plains.take id) id op = .ok x)
    (hx' : plains'[id]? = some x') (hvalue' : Plain.value (plains'.take id) id op' = .ok x')
    (h : Known key c plains values) (h' : Known key c' plains' values')
    (hothers : ∀ i ≠ p, valuesAt i values' = valuesAt i values)
    (hreveal : ∀ y, op = .reveal y → gap plains plains' y = 0)
    (hgate : Gate.instantiate (valuesAt p values) v = .ok gate)
    (hgate' : Gate.instantiate (valuesAt p values') v' = .ok gate')
    (hdraw : gate.draw s = .ok drawn left) (hdraw' : gate'.draw s' = .ok drawn' left')
    (hmoved : Moved (∑ i, key i) (p + 1) (op.tripleGaps (gap plains plains') ++ δs)
      (op.maskGaps (gap plains plains') (p + 1) id ++ μs) s s') :
    Matches (p + 1) gate drawn gate' drawn' ∧ Moved (∑ i, key i) (p + 1) δs μs left left' := by
  rw [Gate.draw_of_instantiate hgate] at hdraw
  rw [Gate.draw_of_instantiate hgate'] at hdraw'
  by_cases hinput : ∃ owner value, op = .input owner value
  · obtain ⟨owner, value, rfl⟩ := hinput
    obtain ⟨value', rfl⟩ := hre.exists_value
    obtain ⟨w, rfl, hown⟩ := hv.exists_value
    obtain ⟨w', rfl, hown'⟩ := hv'.exists_value
    cases hgate
    cases hgate'
    exact matches_input hown hown' hx hvalue hx' hvalue' hdraw hdraw' hmoved
  -- At all other nodes the party holds the same operation in both evaluations.
  have hne : ∀ owner value, op ≠ .input owner value :=
    fun owner value heq => hinput ⟨owner, value, heq⟩
  obtain rfl := hre.eq hne
  obtain rfl := hv.eq hne
  obtain rfl := hv'.eq hne
  cases v' with
  | input owner value => exact absurd rfl (hne owner value)
  | multiply y z => exact matches_multiply h h' hothers hgate hgate' hdraw hdraw' hmoved
  | multiplyBatch pairs => exact matches_multiplyBatch h h' hothers hgate hgate' hdraw hdraw' hmoved
  | reveal y =>
    exact matches_reveal h h' hothers (hreveal y rfl) hgate hgate' hdraw hdraw' hmoved
  | macCheck after =>
    cases hgate
    cases hgate'
    cases hdraw
    cases hdraw'
    exact ⟨.same _ _, hmoved⟩
  | add y z | sub y z =>
    obtain ⟨_, -, hgate⟩ := except_bind_eq_ok.mp hgate
    obtain ⟨_, -, hgate⟩ := except_bind_eq_ok.mp hgate
    obtain ⟨_, -, hgate'⟩ := except_bind_eq_ok.mp hgate'
    obtain ⟨_, -, hgate'⟩ := except_bind_eq_ok.mp hgate'
    exact matches_linear hgate hgate' hdraw hdraw' hmoved
  | neg y | addPublic y k | subPublic y k | mulPublic y k | select y index =>
    obtain ⟨_, -, hgate⟩ := except_bind_eq_ok.mp hgate
    obtain ⟨_, -, hgate'⟩ := except_bind_eq_ok.mp hgate'
    exact matches_linear hgate hgate' hdraw hdraw' hmoved

end

end JointCircuit
