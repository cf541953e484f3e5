/-
JointCircuit.Proofs.Nodes — nodes of a circuit, jointly and in the clear.

§1 fixes which operands a node may have (`WellKinded`), which circuits
the parties hold when they evaluate the same circuit, each with its own
inputs (`Shows`), and what material a node uses up. §2 relates what the
parties hold at a node to the value of the node in the clear (`Carries`).

Main statement (§3): `Operation.begins` — once its operands are known,
every party builds its gate for a node, and the gates deliver the value
that the node has in the clear.
-/
import JointCircuit.Circuit.Plain
import JointCircuit.Proofs.Gates

namespace JointCircuit

open scoped Fin.CommRing

variable {m : Modulus} {n : Nat} {key : Fin n → Element m}

/-! ## §1 Circuits of several parties -/

namespace Operation

/-- The kind of value that an operation produces. -/
def kind : Operation m → ValueKind
  | .multiplyBatch _ => .batch
  | .reveal _ => .plain
  | .macCheck _ => .check
  | _ => .share

/-- Whether the operands have the kind that the operation takes: a selection is from a batch, at
a position inside it, and all other operands are shares. -/
def WellKinded (c : Circuit m) : Operation m → Prop
  | .select batch index =>
    ∃ pairs, c.operation? batch = some (.multiplyBatch pairs) ∧ index < pairs.length
  | .macCheck _ => True
  | op => ∀ x ∈ op.operands, ∃ operand, c.operation? x = some operand ∧ operand.kind = .share

/-- What a party holds in place of an operation: its own inputs are there, whatever is in the
place of the others'. -/
inductive Shows (party : Nat) : Operation m → Operation m → Prop
  | same (op : Operation m) : Shows party op op
  | input (owner : Nat) (value value' : Option (Element m)) (own : owner = party → value' = value) :
      Shows party (.input owner value) (.input owner value')

/-- Number of triples that an operation uses up. -/
def triples : Operation m → Nat
  | .multiply _ _ => 1
  | .multiplyBatch pairs => pairs.length
  | _ => 0

/-- Number of masks of an owner that an operation uses up. -/
def masks (owner : Fin n) : Operation m → Nat
  | .input o _ => if o = owner + 1 then 1 else 0
  | _ => 0

theorem Shows.operands_eq {party : Nat} {op op' : Operation m} (h : Shows party op op') :
    op'.operands = op.operands := by
  cases h <;> rfl

/-- Only inputs may look different. -/
theorem Shows.eq {party : Nat} {op op' : Operation m} (h : Shows party op op')
    (hop : ∀ owner value, op ≠ .input owner value) : op' = op := by
  cases h with
  | same => rfl
  | input owner value value' own => exact absurd rfl (hop owner value)

theorem Shows.unknownOwner?_eq {party : Nat} {op op' : Operation m} (h : Shows party op op')
    (parties : Nat) : op'.unknownOwner? parties = op.unknownOwner? parties := by
  cases h <;> rfl

end Operation

namespace Circuit

/-- Every operand has the kind that its user takes. -/
def WellKinded (c : Circuit m) : Prop :=
  ∀ op ∈ c.nodes, op.WellKinded c

/-- A party's version of a circuit. -/
def Shows (party : Nat) (c c' : Circuit m) : Prop :=
  List.Forall₂ (Operation.Shows party) c.nodes c'.nodes

end Circuit

/-! ## §2 Values -/

/-- What the parties hold at a node of some kind, and the value of the node in the clear. -/
inductive Carries (key : Fin n → Element m) : ValueKind → (Fin n → Value m) → PlainValue m → Prop
  | share {part : Fin n → AuthShare m} {x : Element m} (h : Shared key part x) :
      Carries key .share (fun i => .share (part i)) (.scalar x)
  | batch {parts : List (Fin n → AuthShare m)} {xs : List (Element m)}
      (h : List.Forall₂ (Shared key) parts xs) :
      Carries key .batch (fun i => .shares (parts.map (· i))) (.batch xs)
  | plain (x : Element m) : Carries key .plain (fun _ => .plain x) (.scalar x)
  | check : Carries key .check (fun _ => .checked) .checked

/-- Finished gates that deliver the value of a node. -/
def Delivers (key : Fin n → Element m) (kind : ValueKind) (x : PlainValue m)
    (gates : Fin n → Gate m) : Prop :=
  ∃ v : Fin n → Value m, (∀ i, (gates i).out.1 = some (v i)) ∧ Carries key kind v x

/-- The values that one party holds. -/
def valuesAt (i : Fin n) (values : List (Option (Fin n → Value m))) : List (Option (Value m)) :=
  values.map (Option.map (· i))

/-- The nodes computed so far carry their values in the clear. -/
def Known (key : Fin n → Element m) (c : Circuit m) (plains : List (PlainValue m))
    (values : List (Option (Fin n → Value m))) : Prop :=
  ∀ id v, values[id]? = some (some v) →
    ∃ op x, c.operation? id = some op ∧ plains[id]? = some x ∧ Carries key op.kind v x

namespace Known

variable {c : Circuit m} {plains : List (PlainValue m)} {values : List (Option (Fin n → Value m))}
  {id x : NodeId}

theorem operand_eq (i : Fin n) {v : Fin n → Value m} (h : values[x]? = some (some v)) :
    Gate.operand (valuesAt i values) x = .ok (v i) := by
  simp [Gate.operand, valuesAt, h]

/-- A known share, at every party and in the clear. -/
theorem share (h : Known key c plains values) (hx : x < id)
    (hknown : ∃ v, values[x]? = some (some v))
    (hkind : ∃ operand, c.operation? x = some operand ∧ operand.kind = .share) :
    ∃ part a, (∀ i, Gate.shareOf (valuesAt i values) x = .ok (part i))
      ∧ Plain.scalar (plains.take id) x = .ok a ∧ Shared key part a := by
  obtain ⟨v, hv⟩ := hknown
  obtain ⟨op, plain, hop, hplain, hcarries⟩ := h x v hv
  obtain ⟨operand, hoperand, hshare⟩ := hkind
  obtain rfl : op = operand := Option.some.inj (hop.symm.trans hoperand)
  rw [hshare] at hcarries
  cases hcarries with
  | share hpart =>
    rename_i part a
    refine ⟨part, a, fun i => ?_, ?_, hpart⟩
    · rw [Gate.shareOf, operand_eq i hv]
      rfl
    · rw [Plain.scalar, List.getElem?_take, if_pos hx, hplain]

/-- A known share of a batch, at every party and in the clear. -/
theorem select {index : Nat} (h : Known key c plains values)
    (hknown : ∃ v, values[x]? = some (some v)) {pairs : List (NodeId × NodeId)}
    (hbatch : c.operation? x = some (.multiplyBatch pairs)) {xs : List (Element m)}
    (hplain : plains[x]? = some (.batch xs)) {a : Element m} (hindex : xs[index]? = some a) :
    ∃ part : Fin n → AuthShare m,
      (∀ i, Gate.selectFrom (valuesAt i values) x index = .ok (part i)) ∧ Shared key part a := by
  obtain ⟨v, hv⟩ := hknown
  obtain ⟨op, plain, hop, hplain', hcarries⟩ := h x v hv
  obtain rfl : op = .multiplyBatch pairs := Option.some.inj (hop.symm.trans hbatch)
  obtain rfl : plain = .batch xs := Option.some.inj (hplain'.symm.trans hplain)
  cases hcarries with
  | batch hparts =>
    rename_i parts
    obtain ⟨hlt, rfl⟩ := List.getElem?_eq_some_iff.mp hindex
    have hlt' : index < parts.length := hparts.length_eq ▸ hlt
    refine ⟨parts[index], fun i => ?_, hparts.get hlt' hlt⟩
    rw [Gate.selectFrom, operand_eq i hv]
    simp [hlt', bind, Except.bind, pure, Except.pure]

end Known

/-! ## §3 Beginning a node -/

/-- The pools of honest parties that have agreed on a seed: no opening in their stores has a
defect, and consistent material lies ahead. -/
structure Honest (key : Fin n → Element m) (triples : Nat) (masks : Fin n → Nat)
    (pools : Fin n → Pool m) : Prop where
  table : ∃ openings, Table key openings pools ∧ ∀ o ∈ openings, Sound key o
  stock : Stocked key triples masks fun i => (pools i).supplier
  seeded : ∀ i, (pools i).hasJointRandomness = true

/-- The gates begin, deliver `x`, and leave this much material. -/
def Starts (key : Fin n → Element m) (kind : ValueKind) (x : PlainValue m) (triples : Nat)
    (masks : Fin n → Nat) (gates : Fin n → Gate m) (pools : Fin n → Pool m) : Prop :=
  ∃ pools', Begins (Sound key) key (Delivers key kind x) gates pools pools'
    ∧ Honest key triples masks pools'

/-- A gate begins as the protocol in it does. -/
theorem Begins.gate {π ρ : Type} [Protocol m π ρ] {post : (Fin n → π) → Prop}
    {post' : (Fin n → Gate m) → Prop} {p : Fin n → π} {pools pools' : Fin n → Pool m}
    (h : Begins (Sound key) key post p pools pools') (wrap : π → Gate m)
    (hwrap : ∀ round p w, Gate.evaluate round (wrap p, w)
      = Round.within p (fun q _ => wrap q) (Protocol.evaluate round) (wrap p, w))
    (hpost : ∀ p, post p → post' fun i => wrap (p i)) :
    Begins (Sound key) key post' (fun i => wrap (p i)) pools pools' :=
  h.lift wrap (fun round _ _ _ _ _ _ _ turn => turn_of_within (hwrap round) turn) hpost

namespace Starts

variable {triples : Nat} {masks : Fin n → Nat} {pools : Fin n → Pool m}

/-- A local operation, from what it does to the parts. -/
theorem linear {op : Fin n → LinearOp m} {a : Element m}
    (h : Shared key (fun i => (op i).apply (key i) (i + 1)) a)
    (honest : Honest key triples masks pools) :
    Starts key .share (.scalar a) triples masks (fun i => Gate.ofLinear (op i)) pools := by
  obtain ⟨openings, table, -⟩ := honest.table
  refine ⟨pools, (Linear.begins op table).gate Gate.linear (fun _ _ _ => rfl) ?_, honest⟩
  intro p hout
  exact ⟨_, fun i => by simp [Gate.out, Linear.out, hout i], .share h⟩

theorem input {owner : Fin n} {value : Fin n → Option (Element m)} {x : Element m}
    (hvalue : value owner = some x) {left : Nat} (hleft : masks owner = left + 1)
    (honest : Honest key triples masks pools) :
    Starts key .share (.scalar x) triples (Function.update masks owner left)
      (fun i => .input (.new (owner + 1) (value i))) pools := by
  obtain ⟨openings, table, hsound⟩ := honest.table
  obtain ⟨mask, suppliers, hmask, hnext, hstock⟩ := honest.stock.takeMask hleft
  refine ⟨_, (Input.begins table hvalue hmask hnext).gate Gate.input (fun _ _ _ => rfl) ?_,
    ⟨openings, ⟨table.party, table.parties, table.keyShare, table.opened⟩, hsound⟩, hstock,
      honest.seeded⟩
  rintro p ⟨parts, hparts, hout⟩
  exact ⟨_, fun i => by simp [Gate.out, Input.out, hout i], .share hparts⟩

theorem multiply [NeZero n] {x y : Fin n → AuthShare m} {u v : Element m} (hx : Shared key x u)
    (hy : Shared key y v) (honest : Honest key (1 + triples) masks pools) :
    Starts key .share (.scalar (u * v)) triples masks (fun i => .multiply (.new (x i) (y i)))
      pools := by
  obtain ⟨openings, table, hsound⟩ := honest.table
  obtain ⟨taken, suppliers, hlength, hvalid, hnext, hstock⟩ := honest.stock.takeTriples 1
  obtain ⟨t, rfl⟩ := List.length_eq_one_iff.mp hlength
  have hbegins := Multiply.begins hx hy (hvalid t List.mem_cons_self) hnext
  refine ⟨_, hbegins.gate Gate.multiply (fun _ _ _ => rfl) ?_,
    ⟨openings, ⟨table.party, table.parties, table.keyShare, table.opened⟩, hsound⟩, hstock,
      honest.seeded⟩
  rintro p ⟨parts, hparts, hout⟩
  exact ⟨_, fun i => by simp [Gate.out, hout i], .share hparts⟩

theorem multiplyBatch [NeZero n] {pairs : List (Fin n → AuthShare m × AuthShare m)}
    {values : List (Element m × Element m)} (hpairs : MultiplyBatch.SharedPairs key pairs values)
    (honest : Honest key (pairs.length + triples) masks pools) :
    Starts key .batch (.batch (values.map fun v => v.1 * v.2)) triples masks
      (fun i => .multiplyBatch { pairs := pairs.map (· i) }) pools := by
  by_cases hempty : pairs = []
  · subst hempty
    cases hpairs
    rw [List.length_nil, Nat.zero_add] at honest
    refine ⟨pools, (MultiplyBatch.begins_empty pools).gate Gate.multiplyBatch (fun _ _ _ => rfl) ?_,
      honest⟩
    intro p hout
    exact ⟨_, fun i => by simp [Gate.out, MultiplyBatch.out, hout i],
      @Carries.batch m n key [] [] .nil⟩
  · obtain ⟨openings, table, hsound⟩ := honest.table
    obtain ⟨taken, suppliers, hlength, hvalid, hnext, hstock⟩ :=
      honest.stock.takeTriples pairs.length
    have hbegins := MultiplyBatch.begins hempty hpairs hvalid hlength hnext
    refine ⟨_, hbegins.gate Gate.multiplyBatch (fun _ _ _ => rfl) ?_,
      ⟨openings, ⟨table.party, table.parties, table.keyShare, table.opened⟩, hsound⟩, hstock,
      honest.seeded⟩
    rintro p ⟨parts, hparts, hout⟩
    exact ⟨_, fun i => by simp [Gate.out, MultiplyBatch.out, hout i], .batch hparts⟩

theorem reveal {part : Fin n → AuthShare m} {x : Element m} (h : Shared key part x)
    (honest : Honest key triples masks pools) :
    Starts key .plain (.scalar x.effective) triples masks
      (fun i => .reveal { share := part i }) pools := by
  refine ⟨pools, (Reveal.begins h pools).gate Gate.reveal (fun _ _ _ => rfl) ?_, honest⟩
  intro p hout
  exact ⟨_, fun i => by simp [Gate.out, Reveal.out, hout i], .plain x.effective⟩

theorem macCheck (honest : Honest key triples masks pools) :
    Starts key .check .checked triples masks (fun _ => .macCheck {}) pools := by
  obtain ⟨openings, table, hsound⟩ := honest.table
  obtain ⟨generators, hbegins⟩ := MacCheck.begins hsound table
  refine ⟨_, hbegins.gate Gate.macCheck (fun _ _ _ => rfl) ?_,
    ⟨[], MacCheck.table_drained table generators, by simp⟩, honest.stock, honest.seeded⟩
  intro p hout
  exact ⟨_, fun i => by simp [Gate.out, MacCheck.out, hout i], .check⟩

end Starts

/-- Every party holds the same input in place of an input, and the owner holds its value. -/
theorem Operation.Shows.exists_value {party owner : Nat} {value : Option (Element m)}
    {op' : Operation m} (h : Operation.Shows party (.input owner value) op') :
    ∃ value', op' = .input owner value' ∧ (owner = party → value' = value) := by
  cases h with
  | same => exact ⟨value, rfl, fun _ => rfl⟩
  | input _ _ value' own => exact ⟨value', rfl, own⟩

/-- A selection has a value in the clear only if its operand is a batch that is long enough. -/
theorem Plain.value_select {plains : List (PlainValue m)} {id batch index : Nat} {x : PlainValue m}
    (h : Plain.value plains id (.select batch index) = .ok x) :
    ∃ xs a, plains[batch]? = some (.batch xs) ∧ xs[index]? = some a ∧ x = .scalar a := by
  simp only [Plain.value] at h
  split at h
  · rename_i products hproducts
    split at h
    · rename_i a ha
      exact ⟨products, a, hproducts, ha, (Except.ok.inj h).symm⟩
    · cases h
  · cases h

/-- The pairs of a batch of products, at every party and in the clear. -/
theorem Known.pairs {c : Circuit m} {plains : List (PlainValue m)}
    {values : List (Option (Fin n → Value m))} {id : NodeId} (h : Known key c plains values)
    {pairs : List (NodeId × NodeId)}
    (hknown : ∀ p ∈ pairs, ∀ x ∈ [p.1, p.2], x < id ∧ ∃ v, values[x]? = some (some v))
    (hkind : ∀ p ∈ pairs, ∀ x ∈ [p.1, p.2],
      ∃ operand, c.operation? x = some operand ∧ operand.kind = .share) :
    ∃ (parts : List (Fin n → AuthShare m × AuthShare m)) (factors : List (Element m × Element m)),
      parts.length = pairs.length ∧ MultiplyBatch.SharedPairs key parts factors
      ∧ (∀ i, (pairs.mapM fun (x, y) => do
            return (← Gate.shareOf (valuesAt i values) x, ← Gate.shareOf (valuesAt i values) y))
          = (.ok (parts.map (· i)) : Except CircuitError _))
      ∧ (pairs.mapM fun (x, y) => do
            return (← Plain.scalar (plains.take id) x) * (← Plain.scalar (plains.take id) y))
          = (.ok (factors.map fun v => v.1 * v.2) : Except CircuitError _) := by
  induction pairs with
  | nil => exact ⟨[], [], rfl, .nil, fun i => rfl, rfl⟩
  | cons p pairs ih =>
    obtain ⟨parts, factors, hlength, hshared, hparts, hfactors⟩ :=
      ih (fun q hq => hknown q (List.mem_cons_of_mem _ hq))
        (fun q hq => hkind q (List.mem_cons_of_mem _ hq))
    have hx := hknown p List.mem_cons_self p.1 (by simp)
    have hy := hknown p List.mem_cons_self p.2 (by simp)
    obtain ⟨u, a, hu, ha, hua⟩ := h.share hx.1 hx.2 (hkind p List.mem_cons_self p.1 (by simp))
    obtain ⟨v, b, hv, hb, hvb⟩ := h.share hy.1 hy.2 (hkind p List.mem_cons_self p.2 (by simp))
    refine ⟨(fun i => (u i, v i)) :: parts, (a, b) :: factors, by simp [hlength],
      .cons ⟨hua, hvb⟩ hshared, fun i => ?_, ?_⟩
    · rw [List.mapM_cons, hparts i]
      simp only [hu i, hv i]
      rfl
    · rw [List.mapM_cons, hfactors]
      simp only [ha, hb]
      rfl

/-! ### One kind of node after the other -/

namespace Operation

/-- A local operation on one share: what a party does to its part, and what becomes of the
value. -/
inductive Unary : Operation m → NodeId → (AuthShare m → LinearOp m) → (Element m → Element m) → Prop
  | neg (a : NodeId) : Unary (.neg a) a .neg (- ·)
  | addPublic (a : NodeId) (k : Element m) : Unary (.addPublic a k) a (.addPublic · k) (· + k)
  | subPublic (a : NodeId) (k : Element m) : Unary (.subPublic a k) a (.subPublic · k) (· - k)
  | mulPublic (a : NodeId) (k : Element m) : Unary (.mulPublic a k) a (.mulPublic · k) (· * k)

/-- A local operation on two shares. -/
inductive Binary : Operation m → NodeId → NodeId → (AuthShare m → AuthShare m → LinearOp m) →
    (Element m → Element m → Element m) → Prop
  | add (a b : NodeId) : Binary (.add a b) a b .add (· + ·)
  | sub (a b : NodeId) : Binary (.sub a b) a b .sub (· - ·)

variable {op : Operation m} {a b : NodeId}

/-- Sharing is linear. -/
theorem Unary.shared [NeZero n] {f : AuthShare m → LinearOp m} {g : Element m → Element m}
    (hop : op.Unary a f g) {part : Fin n → AuthShare m} {s : Element m} (h : Shared key part s) :
    Shared key (fun i => (f (part i)).apply (key i) (i + 1)) (g s) := by
  cases hop with
  | neg => exact h.neg
  | addPublic _ k => exact h.addPublic k
  | subPublic _ k => exact h.subPublic k
  | mulPublic _ k => exact h.scale k

theorem Binary.shared {f : AuthShare m → AuthShare m → LinearOp m}
    {g : Element m → Element m → Element m} (hop : op.Binary a b f g)
    {part part' : Fin n → AuthShare m} {s t : Element m} (h : Shared key part s)
    (h' : Shared key part' t) :
    Shared key (fun i => (f (part i) (part' i)).apply (key i) (i + 1)) (g s t) := by
  cases hop with
  | add => exact h.add h'
  | sub => exact h.sub h'

/-- All parties build their gates for the operation, and these begin. -/
def Begun (op : Operation m) (key : Fin n → Element m)
    (values : List (Option (Fin n → Value m))) (x : PlainValue m) (triples : Nat)
    (masks : Fin n → Nat) (pools : Fin n → Pool m) : Prop :=
  ∃ gates : Fin n → Gate m, (∀ i, Gate.instantiate (valuesAt i values) op = .ok (gates i))
    ∧ Starts key op.kind x triples masks gates pools

variable {c : Circuit m} {id : NodeId} {plains : List (PlainValue m)}
  {values : List (Option (Fin n → Value m))} {x : PlainValue m} {triples : Nat}
  {masks : Fin n → Nat} {pools : Fin n → Pool m}

/-- The masks of the owner are one less after its input. -/
theorem update_masks_input (o : Fin n) (value : Option (Element m)) (masks : Fin n → Nat) :
    Function.update (fun j => Operation.masks j (.input (o.val + 1) value) + masks j) o (masks o)
      = masks := by
  funext j
  by_cases hj : j = o
  · rw [hj, Function.update_self]
  · have hne : o.val ≠ j.val := fun h => hj (Fin.ext h.symm)
    simp [Function.update_of_ne hj, Operation.masks, hne]

/-- At an input the parties need not hold the same operation. -/
theorem begins_input {owner : Nat} {value : Option (Element m)}
    (howner : (Operation.input owner value).unknownOwner? n = none)
    (hvalue : Plain.value (plains.take id) id (.input owner value) = .ok x)
    {ops : Fin n → Operation m}
    (hshows : ∀ i : Fin n, Operation.Shows (i + 1) (.input owner value) (ops i))
    (honest : Honest key (Operation.triples (.input owner value : Operation m) + triples)
      (fun o => Operation.masks o (.input owner value : Operation m) + masks o) pools) :
    ∃ gates : Fin n → Gate m, (∀ i, Gate.instantiate (valuesAt i values) (ops i) = .ok (gates i))
      ∧ Starts key .share x triples masks gates pools := by
  cases value with
  | none => cases hvalue
  | some y =>
    obtain rfl := Except.ok.inj hvalue
    obtain ⟨o, rfl⟩ : ∃ o : Fin n, owner = o + 1 := by
      simp only [unknownOwner?, ite_eq_right_iff, reduceCtorEq, imp_false, not_or] at howner
      exact ⟨⟨owner - 1, by omega⟩, by show owner = owner - 1 + 1; omega⟩
    choose value hops hown using fun i => (hshows i).exists_value
    refine ⟨fun i => .input (.new (o + 1) (value i)), fun i => ?_, ?_⟩
    · rw [hops i, Gate.instantiate]
    · have hleft : Operation.masks o (.input (o + 1) (some y)) + masks o = masks o + 1 := by
        simp [Operation.masks, Nat.add_comm]
      simp only [Operation.triples, Nat.zero_add] at honest
      have hstarts := Starts.input (hown o rfl) hleft honest
      rw [update_masks_input] at hstarts
      exact hstarts

section

variable (hkinded : op.WellKinded c) (known : Known key c plains values)
  (hdeps : ∀ y ∈ op.operands, y < id ∧ ∃ v, values[y]? = some (some v))
  (hvalue : Plain.value (plains.take id) id op = .ok x)
  (honest : Honest key (op.triples + triples) (fun o => op.masks o + masks o) pools)

include known hdeps

/-- An operand that has to be a share, at every party and in the clear. -/
theorem share_operand (ha : a ∈ op.operands)
    (hkind : ∃ operand, c.operation? a = some operand ∧ operand.kind = .share) :
    ∃ part s, (∀ i, Gate.shareOf (valuesAt i values) a = .ok (part i))
      ∧ Plain.scalar (plains.take id) a = .ok s ∧ Shared key part s :=
  known.share (hdeps a ha).1 (hdeps a ha).2 hkind

include hkinded hvalue honest

theorem Unary.begins [NeZero n] {f : AuthShare m → LinearOp m} {g : Element m → Element m}
    (hop : op.Unary a f g) : op.Begun key values x triples masks pools := by
  have hmem : a ∈ op.operands := by cases hop <;> exact List.mem_singleton_self a
  have hshare : ∃ operand, c.operation? a = some operand ∧ operand.kind = .share := by
    cases hop <;> exact hkinded a hmem
  obtain ⟨u, s, hu, hs, hus⟩ := share_operand known hdeps hmem hshare
  have hclear : Plain.value (plains.take id) id op
      = (do let s ← Plain.scalar (plains.take id) a; return .scalar (g s)) := by cases hop <;> rfl
  have hbuilds : ∀ i, Gate.instantiate (valuesAt i values) op
      = (do let u ← Gate.shareOf (valuesAt i values) a; return Gate.ofLinear (f u)) := fun i => by
    cases hop <;> rfl
  have hkind : op.kind = .share := by cases hop <;> rfl
  have hleft : Honest key triples masks pools := by
    cases hop <;> simpa only [Operation.triples, Operation.masks, Nat.zero_add] using honest
  rw [hclear, hs] at hvalue
  obtain rfl : .scalar (g s) = x := Except.ok.inj hvalue
  refine ⟨fun i => Gate.ofLinear (f (u i)), fun i => ?_, ?_⟩
  · rw [hbuilds i, hu i]
    rfl
  · rw [hkind]
    exact .linear (hop.shared hus) hleft

theorem Binary.begins {f : AuthShare m → AuthShare m → LinearOp m}
    {g : Element m → Element m → Element m} (hop : op.Binary a b f g) :
    op.Begun key values x triples masks pools := by
  have hmem : a ∈ op.operands ∧ b ∈ op.operands := by cases hop <;> simp [operands]
  have hshare : ∀ y ∈ op.operands, ∃ operand, c.operation? y = some operand
      ∧ operand.kind = .share := by cases hop <;> exact hkinded
  obtain ⟨u, s, hu, hs, hus⟩ := share_operand known hdeps hmem.1 (hshare a hmem.1)
  obtain ⟨v, t, hv, ht, hvt⟩ := share_operand known hdeps hmem.2 (hshare b hmem.2)
  have hclear : Plain.value (plains.take id) id op
      = (do let s ← Plain.scalar (plains.take id) a
            let t ← Plain.scalar (plains.take id) b
            return .scalar (g s t)) := by cases hop <;> rfl
  have hbuilds : ∀ i, Gate.instantiate (valuesAt i values) op
      = (do let u ← Gate.shareOf (valuesAt i values) a
            let v ← Gate.shareOf (valuesAt i values) b
            return Gate.ofLinear (f u v)) := fun i => by cases hop <;> rfl
  have hkind : op.kind = .share := by cases hop <;> rfl
  have hleft : Honest key triples masks pools := by
    cases hop <;> simpa only [Operation.triples, Operation.masks, Nat.zero_add] using honest
  rw [hclear, hs] at hvalue
  obtain rfl : .scalar (g s t) = x := by
    rw [ht] at hvalue
    exact Except.ok.inj hvalue
  refine ⟨fun i => Gate.ofLinear (f (u i) (v i)), fun i => ?_, ?_⟩
  · rw [hbuilds i, hu i, hv i]
    rfl
  · rw [hkind]
    exact .linear (hop.shared hus hvt) hleft

end

section

variable (known : Known key c plains values)

include known

theorem begins_multiply [NeZero n] (hkinded : (Operation.multiply a b : Operation m).WellKinded c)
    (hdeps : ∀ y ∈ (Operation.multiply a b : Operation m).operands,
      y < id ∧ ∃ v, values[y]? = some (some v))
    (hvalue : Plain.value (plains.take id) id (.multiply a b) = .ok x)
    (honest : Honest key (1 + triples) masks pools) :
    (Operation.multiply a b).Begun key values x triples masks pools := by
  have ha : a ∈ (Operation.multiply a b : Operation m).operands := by simp [operands]
  have hb : b ∈ (Operation.multiply a b : Operation m).operands := by simp [operands]
  obtain ⟨u, s, hu, hs, hus⟩ := share_operand known hdeps ha (hkinded a ha)
  obtain ⟨v, t, hv, ht, hvt⟩ := share_operand known hdeps hb (hkinded b hb)
  obtain rfl : .scalar (s * t) = x := by
    rw [Plain.value, hs, ht] at hvalue
    exact Except.ok.inj hvalue
  refine ⟨fun i => .multiply (.new (u i) (v i)), fun i => ?_, .multiply hus hvt honest⟩
  rw [Gate.instantiate, hu i, hv i]
  rfl

theorem begins_multiplyBatch [NeZero n] {pairs : List (NodeId × NodeId)}
    (hkinded : (Operation.multiplyBatch pairs : Operation m).WellKinded c)
    (hdeps : ∀ y ∈ (Operation.multiplyBatch pairs : Operation m).operands,
      y < id ∧ ∃ v, values[y]? = some (some v))
    (hvalue : Plain.value (plains.take id) id (.multiplyBatch pairs) = .ok x)
    (honest : Honest key (pairs.length + triples) masks pools) :
    (Operation.multiplyBatch pairs).Begun key values x triples masks pools := by
  have hmem : ∀ p ∈ pairs, ∀ y ∈ [p.1, p.2],
      y ∈ (Operation.multiplyBatch pairs : Operation m).operands :=
    fun p hp y hy => List.mem_flatMap.mpr ⟨p, hp, hy⟩
  obtain ⟨parts, factors, hlength, hshared, hparts, hfactors⟩ :=
    known.pairs (fun p hp y hy => hdeps y (hmem p hp y hy))
      (fun p hp y hy => hkinded y (hmem p hp y hy))
  obtain rfl : .batch (factors.map fun v => v.1 * v.2) = x := by
    rw [Plain.value, hfactors] at hvalue
    exact Except.ok.inj hvalue
  rw [← hlength] at honest
  refine ⟨fun i => .multiplyBatch { pairs := parts.map (· i) }, fun i => ?_,
    .multiplyBatch hshared honest⟩
  rw [Gate.instantiate, hparts i]
  rfl

theorem begins_select {index : Nat}
    (hkinded : (Operation.select a index : Operation m).WellKinded c)
    (hdeps : a < id ∧ ∃ v, values[a]? = some (some v))
    (hvalue : Plain.value (plains.take id) id (.select a index) = .ok x)
    (honest : Honest key triples masks pools) :
    (Operation.select a index).Begun key values x triples masks pools := by
  obtain ⟨pairs, hbatch, -⟩ := hkinded
  obtain ⟨xs, s, hxs, hs, rfl⟩ := Plain.value_select hvalue
  rw [List.getElem?_take, if_pos hdeps.1] at hxs
  obtain ⟨part, hpart, hshared⟩ := known.select hdeps.2 hbatch hxs hs
  refine ⟨fun i => Gate.ofLinear (.identity (part i)), fun i => ?_, .linear hshared honest⟩
  rw [Gate.instantiate, hpart i]
  rfl

theorem begins_reveal (hkinded : (Operation.reveal a : Operation m).WellKinded c)
    (hdeps : ∀ y ∈ (Operation.reveal a : Operation m).operands,
      y < id ∧ ∃ v, values[y]? = some (some v))
    (hvalue : Plain.value (plains.take id) id (.reveal a) = .ok x)
    (honest : Honest key triples masks pools) :
    (Operation.reveal a).Begun key values x triples masks pools := by
  have ha : a ∈ (Operation.reveal a : Operation m).operands := List.mem_singleton_self a
  obtain ⟨u, s, hu, hs, hus⟩ := share_operand known hdeps ha (hkinded a ha)
  obtain rfl : .scalar s.effective = x := by
    rw [Plain.value, hs] at hvalue
    exact Except.ok.inj hvalue
  refine ⟨fun i => .reveal { share := u i }, fun i => ?_, .reveal hus honest⟩
  rw [Gate.instantiate, hu i]
  rfl

end

/-- Once the operands of a node are known, all parties build their gates for it, and the gates
deliver the value that the node has in the clear. -/
theorem begins [NeZero n] (hkinded : op.WellKinded c) (howner : op.unknownOwner? n = none)
    (known : Known key c plains values)
    (hdeps : ∀ y ∈ op.operands, y < id ∧ ∃ v, values[y]? = some (some v))
    (hvalue : Plain.value (plains.take id) id op = .ok x) {ops : Fin n → Operation m}
    (hshows : ∀ i : Fin n, Operation.Shows (i + 1) op (ops i))
    (honest : Honest key (op.triples + triples) (fun o => op.masks o + masks o) pools) :
    ∃ gates : Fin n → Gate m, (∀ i, Gate.instantiate (valuesAt i values) (ops i) = .ok (gates i))
      ∧ Starts key op.kind x triples masks gates pools := by
  by_cases hinput : ∃ owner value, op = .input owner value
  · obtain ⟨owner, value, rfl⟩ := hinput
    exact begins_input howner hvalue hshows honest
  have hops : ∀ i, ops i = op := fun i =>
    (hshows i).eq fun owner value heq => hinput ⟨owner, value, heq⟩
  simp only [hops]
  cases op with
  | input owner value => exact absurd ⟨owner, value, rfl⟩ hinput
  | neg a | addPublic a k | subPublic a k | mulPublic a k =>
    exact Unary.begins hkinded known hdeps hvalue honest (by constructor)
  | add a b | sub a b => exact Binary.begins hkinded known hdeps hvalue honest (by constructor)
  | multiply a b =>
    simp only [Operation.triples, Operation.masks, Nat.zero_add] at honest
    exact begins_multiply known hkinded hdeps hvalue honest
  | multiplyBatch pairs =>
    simp only [Operation.triples, Operation.masks, Nat.zero_add] at honest
    exact begins_multiplyBatch known hkinded hdeps hvalue honest
  | select batch index =>
    simp only [Operation.triples, Operation.masks, Nat.zero_add] at honest
    exact begins_select known hkinded (hdeps batch (List.mem_singleton_self batch)) hvalue honest
  | reveal a =>
    simp only [Operation.triples, Operation.masks, Nat.zero_add] at honest
    exact begins_reveal known hkinded hdeps hvalue honest
  | macCheck after =>
    simp only [Operation.triples, Operation.masks, Nat.zero_add] at honest
    obtain rfl : .checked = x := Except.ok.inj hvalue
    exact ⟨fun _ => .macCheck {}, fun _ => rfl, .macCheck honest⟩

end Operation

end JointCircuit
