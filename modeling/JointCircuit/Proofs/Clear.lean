/-
JointCircuit.Proofs.Clear — circuits that can be evaluated in the clear.

A valid circuit whose operands have the kinds that their users take, and
whose inputs are all there, has a value at every node: a batch has as
many members as its node has pairs (`Fits`), so a selection inside the
batch finds one.

Main statement: `Plain.evaluate_eq_ok`.
-/
import JointCircuit.Proofs.Nodes
import JointCircuit.Proofs.Scheduling

namespace JointCircuit

open scoped Fin.CommRing

variable {m : Modulus}

/-- Every input has its value. -/
def Circuit.HasInputs (c : Circuit m) : Prop :=
  ∀ owner value, .input owner value ∈ c.nodes → value ≠ none

namespace Plain

/-- A value in the clear is of the form that the operation produces. -/
inductive Fits : Operation m → PlainValue m → Prop
  | scalar {op : Operation m} (x : Element m) (h : op.kind = .share ∨ op.kind = .plain) :
      Fits op (.scalar x)
  | batch {pairs : List (NodeId × NodeId)} (xs : List (Element m))
      (length : xs.length = pairs.length) : Fits (.multiplyBatch pairs) (.batch xs)
  | checked (after : List NodeId) : Fits (.macCheck after) .checked

/-- The nodes of a circuit have these values in the clear. -/
structure Computes (c : Circuit m) (plains : List (PlainValue m)) : Prop where
  length : plains.length = c.size
  value : ∀ id op, c.operation? id = some op →
    ∃ x, plains[id]? = some x ∧ Plain.value (plains.take id) id op = .ok x

/-- The first nodes of a circuit have values of the right form. -/
def Filled (c : Circuit m) (values : List (PlainValue m)) : Prop :=
  ∀ id x, values[id]? = some x → ∃ op, c.operation? id = some op ∧ Fits op x

/-- An operand that has to be a share has a number as its value. -/
theorem scalar_eq_ok {c : Circuit m} {values : List (PlainValue m)} (h : Filled c values)
    {y : NodeId} (hy : y < values.length)
    (hkind : ∃ operand, c.operation? y = some operand ∧ operand.kind = .share) :
    ∃ x, scalar values y = .ok x := by
  obtain ⟨operand, hoperand, hshare⟩ := hkind
  obtain ⟨v, hvalue⟩ : ∃ v, values[y]? = some v := ⟨_, List.getElem?_eq_getElem hy⟩
  obtain ⟨op, hop, hfits⟩ := h y v hvalue
  obtain rfl : op = operand := Option.some.inj (hop.symm.trans hoperand)
  rw [scalar, hvalue]
  cases hfits with
  | scalar x => exact ⟨x, rfl⟩
  | batch => cases hshare
  | checked => cases hshare

/-- All products of a batch have values. -/
theorem products_eq_ok {values : List (PlainValue m)} {pairs : List (NodeId × NodeId)}
    (h : ∀ p ∈ pairs, (∃ x, scalar values p.1 = .ok x) ∧ ∃ y, scalar values p.2 = .ok y) :
    ∃ products, (pairs.mapM fun (x, y) => do return (← scalar values x) * (← scalar values y))
        = (.ok products : Except CircuitError _) ∧ products.length = pairs.length := by
  induction pairs with
  | nil => exact ⟨[], rfl, rfl⟩
  | cons p pairs ih =>
    obtain ⟨⟨a, ha⟩, ⟨b, hb⟩⟩ := h p List.mem_cons_self
    obtain ⟨products, hproducts, hlength⟩ := ih fun q hq => h q (List.mem_cons_of_mem _ hq)
    refine ⟨a * b :: products, ?_, by simp [hlength]⟩
    rw [List.mapM_cons, hproducts]
    simp only [ha, hb]
    rfl

/-- A selection inside a batch finds a product. -/
theorem select_eq_ok {c : Circuit m} {values : List (PlainValue m)} (h : Filled c values)
    {batch index : Nat} (hkinded : (Operation.select batch index : Operation m).WellKinded c)
    (hlt : batch < values.length) (id : NodeId) :
    ∃ x, value values id (.select batch index) = .ok (.scalar x) := by
  obtain ⟨pairs, hbatch, hindex⟩ := hkinded
  obtain ⟨v, hget⟩ : ∃ v, values[batch]? = some v := ⟨_, List.getElem?_eq_getElem hlt⟩
  obtain ⟨op, hop, hfits⟩ := h batch v hget
  obtain rfl : op = .multiplyBatch pairs := Option.some.inj (hop.symm.trans hbatch)
  cases hfits with
  | scalar x hkind => rcases hkind with hkind | hkind <;> cases hkind
  | batch xs hlength =>
    have hx : xs[index]? = some xs[index] := List.getElem?_eq_getElem (hlength ▸ hindex)
    refine ⟨xs[index], ?_⟩
    simp only [value, hget, hx]

/-- An operation on one share has a value once its operand has one. -/
theorem unary_eq_ok {values : List (PlainValue m)} {op : Operation m} {a : NodeId}
    {g : Element m → Element m} (ha : ∃ x, scalar values a = .ok x)
    (hkind : op.kind = .share ∨ op.kind = .plain)
    (heq : value values values.length op = (do let s ← scalar values a; return .scalar (g s))) :
    ∃ x, value values values.length op = .ok x ∧ Fits op x := by
  obtain ⟨x, hx⟩ := ha
  rw [hx] at heq
  exact ⟨.scalar (g x), heq, .scalar _ hkind⟩

/-- An operation on two shares has a value once its operands have theirs. -/
theorem binary_eq_ok {values : List (PlainValue m)} {op : Operation m}
    {a b : NodeId} {g : Element m → Element m → Element m} (ha : ∃ x, scalar values a = .ok x)
    (hb : ∃ y, scalar values b = .ok y) (hkind : op.kind = .share)
    (heq : value values values.length op
      = (do let s ← scalar values a; let t ← scalar values b; return .scalar (g s t))) :
    ∃ x, value values values.length op = .ok x ∧ Fits op x := by
  obtain ⟨x, hx⟩ := ha
  obtain ⟨y, hy⟩ := hb
  rw [hx, hy] at heq
  exact ⟨.scalar (g x y), heq, .scalar _ (.inl hkind)⟩

/-- A node has a value once the nodes before it have theirs. -/
theorem value_eq_ok {c : Circuit m} {values : List (PlainValue m)} (h : Filled c values)
    {op : Operation m} (hkinded : op.WellKinded c) (hlt : ∀ y ∈ op.operands, y < values.length)
    (hinput : ∀ owner, op ≠ .input owner none) :
    ∃ x, value values values.length op = .ok x ∧ Fits op x := by
  have hscalar : ∀ y ∈ op.operands, (∃ o, c.operation? y = some o ∧ o.kind = .share) →
      ∃ x, scalar values y = .ok x := fun y hy hkind => scalar_eq_ok h (hlt y hy) hkind
  cases op with
  | input owner input =>
    cases input with
    | none => exact absurd rfl (hinput owner)
    | some x => exact ⟨_, rfl, .scalar x (.inl rfl)⟩
  | neg a | addPublic a k | subPublic a k | mulPublic a k =>
    have ha := List.mem_singleton_self a
    exact unary_eq_ok (hscalar a ha (hkinded a ha)) (.inl rfl) rfl
  | add a b | sub a b | multiply a b =>
    have ha : a ∈ [a, b] := List.mem_cons_self
    have hb : b ∈ [a, b] := List.mem_cons_of_mem _ (List.mem_singleton_self b)
    exact binary_eq_ok (hscalar a ha (hkinded a ha)) (hscalar b hb (hkinded b hb)) rfl rfl
  | multiplyBatch pairs =>
    have hmem : ∀ p ∈ pairs, ∀ y ∈ [p.1, p.2],
        y ∈ (Operation.multiplyBatch pairs : Operation m).operands :=
      fun p hp y hy => List.mem_flatMap.mpr ⟨p, hp, hy⟩
    have hpair : ∀ p ∈ pairs, ∀ y ∈ [p.1, p.2], ∃ x, scalar values y = .ok x :=
      fun p hp y hy => hscalar y (hmem p hp y hy) (hkinded y (hmem p hp y hy))
    obtain ⟨products, hproducts, hlength⟩ := products_eq_ok fun p hp =>
      ⟨hpair p hp p.1 (by simp), hpair p hp p.2 (by simp)⟩
    refine ⟨.batch products, ?_, .batch products hlength⟩
    rw [value, hproducts]
    rfl
  | select batch index =>
    obtain ⟨x, hx⟩ :=
      select_eq_ok h hkinded (hlt batch (List.mem_singleton_self batch)) values.length
    exact ⟨.scalar x, hx, .scalar x (.inl rfl)⟩
  | reveal a =>
    have ha := List.mem_singleton_self a
    exact unary_eq_ok (hscalar a ha (hkinded a ha)) (.inr rfl) rfl
  | macCheck after => exact ⟨.checked, rfl, .checked after⟩

/-- The values so far are those of the first nodes. -/
structure Prefix (c : Circuit m) (values : List (PlainValue m)) : Prop where
  filled : Filled c values
  value : ∀ id op, id < values.length → c.operation? id = some op →
    ∃ x, values[id]? = some x ∧ Plain.value (values.take id) id op = .ok x

theorem Prefix.snoc {c : Circuit m} {values : List (PlainValue m)} (h : Prefix c values)
    {op : Operation m} (hop : c.operation? values.length = some op) {x : PlainValue m}
    (hx : Plain.value values values.length op = .ok x) (hfits : Fits op x) :
    Prefix c (values ++ [x]) := by
  constructor
  · intro id y hy
    rcases Nat.lt_trichotomy id values.length with hlt | rfl | hgt
    · rw [List.getElem?_append_left hlt] at hy
      exact h.filled id y hy
    · rw [List.getElem?_append_right (Nat.le_refl _), Nat.sub_self] at hy
      exact ⟨op, hop, Option.some.inj hy ▸ hfits⟩
    · rw [List.getElem?_eq_none (by simp; omega)] at hy
      cases hy
  · intro id op' hlt hop'
    rw [List.length_append, List.length_singleton] at hlt
    rcases Nat.lt_succ_iff_lt_or_eq.mp hlt with hlt | rfl
    · obtain ⟨y, hy, hvalue⟩ := h.value id op' hlt hop'
      rw [List.getElem?_append_left hlt, List.take_append_of_le_length (Nat.le_of_lt hlt)]
      exact ⟨y, hy, hvalue⟩
    · obtain rfl := Option.some.inj (hop.symm.trans hop')
      refine ⟨x, by simp, ?_⟩
      rw [List.take_append_of_le_length (Nat.le_refl _), List.take_length]
      exact hx

/-- The remaining nodes can be evaluated one after another. -/
theorem evaluateFrom_eq_ok {c : Circuit m} {parties : Nat} (valid : c.validate parties = .ok ())
    (kinded : c.WellKinded) (inputs : c.HasInputs) {before rest : List (Operation m)}
    (hnodes : c.nodes = before ++ rest) {values : List (PlainValue m)}
    (hlength : values.length = before.length) (h : Prefix c values) :
    ∃ plains, (∀ counts, ∃ counts', evaluateFrom values rest counts = .ok plains counts')
      ∧ plains.length = c.size ∧ Prefix c plains := by
  induction rest generalizing before values with
  | nil =>
    rw [List.append_nil] at hnodes
    exact ⟨values, fun counts => ⟨counts, rfl⟩, by rw [Circuit.size, hnodes, hlength], h⟩
  | cons op rest ih =>
    have hop : c.operation? values.length = some op := by
      rw [Circuit.operation?, hnodes, hlength]
      simp
    have hmem : op ∈ c.nodes := by rw [hnodes]; simp
    obtain ⟨x, hx, hfits⟩ := value_eq_ok h.filled (kinded op hmem)
      (fun y hy => Circuit.operand_lt valid hop hy)
      (fun owner heq => inputs owner none (heq ▸ hmem) rfl)
    have hnodes' : c.nodes = (before ++ [op]) ++ rest := by simpa using hnodes
    obtain ⟨plains, heval, hsize, hprefix⟩ :=
      ih hnodes' (by simp [hlength]) (h.snoc hop hx hfits)
    refine ⟨plains, fun counts => ?_, hsize, hprefix⟩
    obtain ⟨counts', hcounts⟩ := heval (count counts op)
    refine ⟨counts', ?_⟩
    simp only [evaluateFrom, Action.bind_apply, Action.modify_apply, hx]
    exact hcounts

/-- The values that an evaluation adds are those of its operations, in order, each over the values
of the nodes before it. -/
theorem values_of_evaluateFrom {ops : List (Operation m)} {values plains : List (PlainValue m)}
    {counts counts' : PlainCounts} (h : evaluateFrom values ops counts = .ok plains counts') :
    values <+: plains ∧ plains.length = values.length + ops.length
      ∧ ∀ i op, ops[i]? = some op → ∃ x, plains[values.length + i]? = some x
        ∧ Plain.value (plains.take (values.length + i)) (values.length + i) op = .ok x := by
  induction ops generalizing values counts with
  | nil =>
    cases h
    exact ⟨List.prefix_rfl, rfl, fun _ _ hop => nomatch hop⟩
  | cons op rest ih =>
    obtain ⟨_, _, hcount, h⟩ := Action.bind_eq_ok.mp h
    cases hcount
    obtain ⟨x, _, hfirst, h⟩ := Action.bind_eq_ok.mp h
    obtain ⟨hvalue, rfl⟩ := Action.ofExcept_eq_ok.mp hfirst
    obtain ⟨hextends, hlength, hrest⟩ := ih h
    rw [List.length_append, List.length_singleton] at hlength hrest
    refine ⟨(List.prefix_append _ _).trans hextends, by rw [hlength, List.length_cons]; omega,
      fun i op' hop => ?_⟩
    cases i with
    | zero =>
      cases hop
      obtain ⟨later, rfl⟩ := hextends
      exact ⟨x, by simp, by simpa using hvalue⟩
    | succ i =>
      rw [show values.length + (i + 1) = values.length + 1 + i by omega]
      exact hrest i op' hop

/-- The values that an evaluation ends with are those of the circuit. -/
theorem computes_of_evaluate {c : Circuit m} {plains : List (PlainValue m)}
    {counts counts' : PlainCounts} (h : evaluate c counts = .ok plains counts') :
    Computes c plains := by
  obtain ⟨-, hlength, hvalues⟩ := values_of_evaluateFrom h
  rw [List.length_nil, Nat.zero_add] at hlength
  exact ⟨hlength, fun id op hop => by simpa using hvalues id op hop⟩

/-- A valid circuit with well-kinded operands and all inputs has a value at every node, whatever
has been counted before. -/
theorem evaluate_eq_ok {c : Circuit m} {parties : Nat} (valid : c.validate parties = .ok ())
    (kinded : c.WellKinded) (inputs : c.HasInputs) :
    ∃ plains, (∀ counts, ∃ counts', evaluate c counts = .ok plains counts')
      ∧ Computes c plains := by
  have hempty : Prefix c [] := by
    constructor
    · intro id x hx
      cases hx
    · intro id op hlt
      exact absurd hlt (Nat.not_lt_zero id)
  obtain ⟨plains, heval, hsize, hprefix⟩ :=
    evaluateFrom_eq_ok valid kinded inputs (List.nil_append _).symm rfl hempty
  refine ⟨plains, heval, hsize, fun id op hop => ?_⟩
  have hlt : id < c.size := (List.getElem?_eq_some_iff.mp hop).1
  exact hprefix.value id op (hsize ▸ hlt) hop

end Plain

end JointCircuit
