/-
JointCircuit.Proofs.Rations — what a circuit takes from dealt material.

Dealt material is handed out from the back of its lists, so what is left
of it after so many triples and masks is the front of every list
(`DealtData.spent`, §1). A node takes what its operation says, or finds
that there is not enough: at all parties in the same way, for consistent
data leaves them with equal counts (§2). Over a whole circuit this comes
to what the evaluation in the clear counts as products, and to the
entries that the products and openings record (§3).

Main statements: `Consistent.draw_spent`, `Consistent.draw_exhausted`,
`Plain.multiplications_of_evaluate`.
-/
import JointCircuit.Proofs.Ledger
import JointCircuit.Proofs.Padding
import Mathlib.Data.List.DropRight

namespace JointCircuit

variable {m : Modulus} {n : Nat}

/-! ## §1 What is left -/

/-- What is left of the data of party `i + 1` after this many triples and masks of every owner. -/
def DealtData.spent (i : Fin n) (triples : Nat) (masks : Fin n → Nat) (d : DealtData m) :
    DealtData m :=
  { d with
    triples := d.triples.rdrop triples
    masks := List.zipWith List.rdrop d.masks (List.ofFn masks)
    plaintexts := d.plaintexts.rdrop (masks i) }

theorem length_rdrop {α : Type} (xs : List α) (k : Nat) : (xs.rdrop k).length = xs.length - k := by
  simp [List.rdrop]

theorem take_rdrop {α : Type} (xs : List α) (k count : Nat) :
    (xs.rdrop k).take (xs.length - k - count) = xs.rdrop (k + count) := by
  rw [List.rdrop, List.rdrop, List.take_take, Nat.sub_sub, Nat.min_eq_left (by omega)]

theorem dropLast_rdrop {α : Type} (xs : List α) (k : Nat) :
    (xs.rdrop k).dropLast = xs.rdrop (k + 1) := by
  rw [List.dropLast_eq_take, length_rdrop, ← take_rdrop, Nat.sub_sub]

theorem getLast?_rdrop_eq_none {α : Type} {xs : List α} {k : Nat} :
    (xs.rdrop k).getLast? = none ↔ xs.length ≤ k := by
  rw [List.getLast?_eq_none_iff, ← List.length_eq_zero_iff, length_rdrop]
  omega

namespace DealtData

variable (i : Fin n) (d : DealtData m)

/-- Nothing has been spent at the start. -/
theorem spent_zero (hlength : d.masks.length = n) : d.spent i 0 (fun _ => 0) = d := by
  have hmasks : List.zipWith List.rdrop d.masks (List.ofFn fun _ : Fin n => 0) = d.masks := by
    refine List.ext_getElem (by simp [hlength]) fun k _ _ => ?_
    simp
  rw [spent, hmasks, List.rdrop_zero, List.rdrop_zero]

theorem masksOf_spent (triples : Nat) (masks : Fin n → Nat) (owner : Fin n) :
    DealtSupplier.masksOf ⟨d.spent i triples masks⟩ (owner + 1)
      = (DealtSupplier.masksOf ⟨d⟩ (owner + 1)).rdrop (masks owner) := by
  simp only [DealtSupplier.masksOf, Nat.add_one_ne_zero, if_false, Nat.add_sub_cancel, spent,
    List.getD_eq_getElem?_getD, List.getElem?_zipWith, List.getElem?_ofFn, owner.isLt, dif_pos]
  cases d.masks[owner.val]? <;> simp

/-- Spending one more mask of an owner. -/
theorem set_masks_spent (triples : Nat) (masks : Fin n → Nat) (owner : Fin n)
    (hlength : d.masks.length = n) :
    (d.spent i triples masks).masks.set owner
        ((DealtSupplier.masksOf ⟨d⟩ (owner + 1)).rdrop (masks owner + 1))
      = (d.spent i triples fun o => masks o + if owner = o then 1 else 0).masks := by
  have howner : owner.val < d.masks.length := hlength ▸ owner.isLt
  have hof : DealtSupplier.masksOf ⟨d⟩ (owner + 1) = d.masks[owner.val] := by
    simp [DealtSupplier.masksOf, List.getD_eq_getElem?_getD, hlength]
  rw [hof]
  refine List.ext_getElem (by simp [spent]) fun k hk _ => ?_
  have hlt : k < n := by simpa [spent, hlength] using hk
  rw [List.getElem_set]
  by_cases hkey : owner.val = k
  · subst hkey
    simp [spent]
  · have hne : owner ≠ ⟨k, hlt⟩ := fun heq => hkey (congrArg Fin.val heq)
    simp [spent, hkey, hne]

end DealtData

/-! ## §2 Draws -/

namespace DealtSupplier

variable {i : Fin n} {d : DealtData m} {triples count : Nat} {masks : Fin n → Nat} {owner : Fin n}

/-- Triples are handed out while there are as many. -/
theorem nextTriples_spent (hcount : count ≤ d.triples.length - triples) :
    ∃ taken, nextTriples count ⟨d.spent i triples masks⟩
      = .ok taken ⟨d.spent i (triples + count) masks⟩ := by
  have hleft : triplesLeft ⟨d.spent i triples masks⟩ = d.triples.length - triples :=
    length_rdrop _ _
  refine ⟨((d.triples.rdrop triples).drop (d.triples.length - triples - count)).reverse, ?_⟩
  simp only [nextTriples, Action.bind_apply, Action.get_apply, hleft, Nat.not_lt.mpr hcount,
    if_false, Action.pure_apply, Action.set_apply]
  simp only [DealtData.spent, take_rdrop]

/-- Otherwise the supplier says what is left. -/
theorem nextTriples_spent_error (hcount : d.triples.length - triples < count) :
    nextTriples count ⟨d.spent i triples masks⟩
      = .error (.exhausted (.triples count (d.triples.length - triples)))
        ⟨d.spent i triples masks⟩ := by
  have hleft : triplesLeft ⟨d.spent i triples masks⟩ = d.triples.length - triples :=
    length_rdrop _ _
  simp only [nextTriples, Action.bind_apply, Action.get_apply, hleft, hcount, if_true,
    Action.throw_apply]

/-- The owner is one of the parties. -/
theorem owner_within (hlength : d.masks.length = n) :
    ¬ (owner.val + 1 = 0 ∨ (d.spent i triples masks).masks.length < owner.val + 1) := by
  have hspent : (d.spent i triples masks).masks.length = n := by
    simp [DealtData.spent, hlength]
  have := owner.isLt
  omega

/-- A mask is handed out while there is one. -/
theorem nextMask_spent (hparty : d.party = i + 1) (hlength : d.masks.length = n)
    (hmore : masks owner < (masksOf ⟨d⟩ (owner + 1)).length)
    (hplain : (masksOf ⟨d⟩ (i + 1)).length = d.plaintexts.length) :
    ∃ mask, nextMask (owner + 1) ⟨d.spent i triples masks⟩
      = .ok mask ⟨d.spent i triples fun o => masks o + if owner = o then 1 else 0⟩ := by
  obtain ⟨part, hpart⟩ := Option.ne_none_iff_exists'.mp
    (mt getLast?_rdrop_eq_none.mp (Nat.not_le.mpr hmore))
  have hset := d.set_masks_spent i triples masks owner hlength
  have hown : owner.val + 1 = (d.spent i triples masks).party ↔ owner = i := by
    rw [DealtData.spent, hparty, Nat.add_right_cancel_iff, Fin.val_inj]
  simp only [nextMask, Action.bind_apply, Action.get_apply, owner_within hlength, if_false,
    DealtData.masksOf_spent, hpart, Action.set_apply, hown, dropLast_rdrop,
    Nat.add_sub_cancel, hset]
  by_cases howner : owner = i
  · subst howner
    obtain ⟨plaintext, hplaintext⟩ := Option.ne_none_iff_exists'.mp
      (mt getLast?_rdrop_eq_none.mp (Nat.not_le.mpr (hplain ▸ hmore)))
    refine ⟨⟨some plaintext, part⟩, ?_⟩
    simp only [DealtData.spent, if_true, hplaintext, Action.bind_apply, Action.set_apply,
      Action.pure_apply, dropLast_rdrop]
  · refine ⟨⟨none, part⟩, ?_⟩
    simp only [DealtData.spent, howner, if_false, Action.pure_apply, Nat.add_zero]

/-- Otherwise the supplier says whose masks are lacking. -/
theorem nextMask_spent_error (hlength : d.masks.length = n)
    (hless : (masksOf ⟨d⟩ (owner + 1)).length ≤ masks owner) :
    nextMask (owner + 1) ⟨d.spent i triples masks⟩
      = .error (.exhausted (.masks (owner + 1))) ⟨d.spent i triples masks⟩ := by
  have hnone := getLast?_rdrop_eq_none.mpr hless
  simp only [nextMask, Action.bind_apply, Action.get_apply, owner_within hlength, if_false,
    DealtData.masksOf_spent, hnone, Action.throw_apply]

end DealtSupplier

namespace Consistent

variable {data : Fin n → DealtData m} {triples : Nat} {masks : Fin n → Nat} {spentTriples : Nat}
  {spentMasks : Fin n → Nat} {op : Operation m}

theorem length_masksLists (h : Consistent data triples masks) (i : Fin n) :
    (data i).masks.length = n := by
  rw [← List.length_map List.length, h.length_masks i, List.length_ofFn]

/-- What is left after so much has been spent. -/
def left (data : Fin n → DealtData m) (triples : Nat) (masks : Fin n → Nat) (i : Fin n) :
    Supplier m :=
  .dealt ⟨(data i).spent i triples masks⟩

/-- An operation takes what it needs, at every party. -/
theorem draw_spent (h : Consistent data triples masks) (hop : op.unknownOwner? n = none)
    (henough : CutOff.Suffices (triples - spentTriples) (fun o => masks o - spentMasks o) op)
    (i : Fin n) : ∃ drawn, op.draw (left data spentTriples spentMasks i)
      = .ok drawn
        (left data (spentTriples + op.triples) (fun o => spentMasks o + op.masks o) i) := by
  cases Operation.taking hop with
  | mask owner draw_eq triples_eq masks_eq =>
    have hmore := henough.2 owner
    rw [masks_eq, if_pos rfl] at hmore
    dsimp only at hmore
    obtain ⟨mask, hmask⟩ : ∃ mask,
        DealtSupplier.nextMask (owner + 1) ⟨(data i).spent i spentTriples spentMasks⟩
          = .ok mask ⟨(data i).spent i spentTriples
              fun o => spentMasks o + if owner = o then 1 else 0⟩ :=
      DealtSupplier.nextMask_spent (h.party i) (h.length_masksLists i)
        (by rw [(h.masksOf_eq i owner).2]; omega)
        (by rw [(h.masksOf_eq i i).2, h.length_plaintexts i])
    refine ⟨.mask mask, ?_⟩
    simp only [draw_eq, triples_eq, masks_eq, Action.map_apply, left, Supplier.nextMask,
      Action.within, hmask]
    rfl
  | triples draw_eq masks_eq =>
    have hcount := henough.1
    rw [← h.length_triples i] at hcount
    obtain ⟨taken, htaken⟩ : ∃ taken,
        DealtSupplier.nextTriples op.triples ⟨(data i).spent i spentTriples spentMasks⟩
          = .ok taken ⟨(data i).spent i (spentTriples + op.triples) spentMasks⟩ :=
      DealtSupplier.nextTriples_spent hcount
    refine ⟨.triples taken, ?_⟩
    simp only [draw_eq, masks_eq, Nat.add_zero, Action.map_apply, left, Supplier.nextTriples,
      Action.within, htaken]
  | nothing draw_eq triples_eq masks_eq =>
    refine ⟨.nothing, ?_⟩
    simp only [draw_eq, triples_eq, masks_eq, Nat.add_zero]
    rfl

/-- Or it is told what is lacking: the same at every party. -/
theorem draw_exhausted (h : Consistent data triples masks) (hop : op.unknownOwner? n = none)
    (hless : ¬ CutOff.Suffices (triples - spentTriples) (fun o => masks o - spentMasks o) op) :
    ∃ cause, ∀ i, ∃ s, op.draw (left data spentTriples spentMasks i)
      = .error (.exhausted cause) s := by
  obtain ⟨owner, draw_eq, hnone⟩ | ⟨draw_eq, hfew⟩ := CutOff.lacking hop hless
  · refine ⟨.masks (owner + 1), fun i => ⟨left data spentTriples spentMasks i, ?_⟩⟩
    have herror : DealtSupplier.nextMask (owner + 1) ⟨(data i).spent i spentTriples spentMasks⟩
        = .error (.exhausted (.masks (owner + 1))) ⟨(data i).spent i spentTriples spentMasks⟩ :=
      DealtSupplier.nextMask_spent_error (h.length_masksLists i)
        ((h.masksOf_eq i owner).2.trans_le (Nat.le_of_sub_eq_zero hnone))
    simp only [draw_eq, Action.map_apply, left, Supplier.nextMask, Action.within, herror]
  · refine ⟨.triples op.triples (triples - spentTriples), fun i => ?_⟩
    rw [← h.length_triples i] at hfew ⊢
    refine ⟨left data spentTriples spentMasks i, ?_⟩
    simp only [draw_eq, Action.map_apply, left, Supplier.nextTriples, Action.within,
      DealtSupplier.nextTriples_spent_error hfew]

end Consistent

/-! ## §3 Whole circuits -/

/-- Number of values that an operation makes known. -/
def Operation.reveals : Operation m → Nat
  | .reveal _ => 1
  | _ => 0

/-- A product opens its two factors, masked. -/
theorem Operation.openings_eq (op : Operation m) : op.openings = 2 * op.triples + op.reveals := by
  cases op <;> rfl

theorem Circuit.uses_openings (c : Circuit m) :
    c.uses (·.openings) = 2 * c.uses (·.triples) + c.uses (·.reveals) := by
  simp only [uses, Operation.openings_eq, List.sum_map_add, List.sum_map_mul_left]

/-- The material suffices for every node. -/
structure Circuit.Fits (c : Circuit m) (triples : Nat) (masks : Fin n → Nat) : Prop where
  triples : c.uses (·.triples) ≤ triples
  masks : ∀ o, c.uses (·.masks o) ≤ masks o

namespace Plain

theorem multiplications_count (counts : PlainCounts) (op : Operation m) :
    (count counts op).multiplications = counts.multiplications + op.triples := by
  cases op <;> rfl

theorem multiplications_of_evaluateFrom {ops : List (Operation m)}
    {values plains : List (PlainValue m)} {counts counts' : PlainCounts}
    (h : evaluateFrom values ops counts = .ok plains counts') :
    counts'.multiplications = counts.multiplications + (ops.map (·.triples)).sum := by
  induction ops generalizing values counts with
  | nil =>
    cases h
    rfl
  | cons op rest ih =>
    obtain ⟨_, counts₁, hcount, h⟩ := Action.bind_eq_ok.mp h
    cases hcount
    obtain ⟨x, counts₂, hvalue, h⟩ := Action.bind_eq_ok.mp h
    obtain ⟨-, rfl⟩ := Action.ofExcept_eq_ok.mp hvalue
    rw [ih h, multiplications_count, List.map_cons, List.sum_cons, Nat.add_assoc]

/-- The evaluation in the clear counts the triples that a joint one takes. -/
theorem multiplications_of_evaluate {c : Circuit m} {plains : List (PlainValue m)}
    {counts counts' : PlainCounts} (h : evaluate c counts = .ok plains counts') :
    counts'.multiplications = counts.multiplications + c.uses (·.triples) :=
  multiplications_of_evaluateFrom h

end Plain

namespace History

/-- Number of entries that the rounds have added to the store. -/
def pushes (history : History m) : Nat :=
  (history.flatMap Record.pushed).length

theorem pushes_cons (r : Record m) (history : History m) :
    pushes (r :: history) = r.pushed.length + pushes history := by
  simp [pushes]

theorem pushes_of_cons (r : Record m) (history : History m) (node : Option NodeId) :
    pushes (of (r :: history) node)
      = (if r.node = node then r.pushed.length else 0) + pushes (history.of node) := by
  by_cases hnode : r.node = node
  · rw [if_pos hnode, ← pushes_cons, of, of, List.filter_cons_of_pos (by simpa using hnode)]
  · rw [if_neg hnode, Nat.zero_add, of, of, List.filter_cons_of_neg (by simpa using hnode)]

/-- What is added is added for some node, or outside all of them. -/
theorem pushes_eq_sum {history : History m} {size : Nat}
    (h : ∀ r ∈ history, ∀ id, r.node = some id → id < size) :
    history.pushes
      = pushes (history.of none) + ∑ id ∈ Finset.range size, pushes (history.of id) := by
  induction history with
  | nil => simp [pushes, of]
  | cons r history ih =>
    rw [pushes_cons, ih fun q hq => h q (List.mem_cons_of_mem _ hq), pushes_of_cons]
    simp only [pushes_of_cons, Finset.sum_add_distrib]
    cases hnode : r.node with
    | none => simp [Nat.add_assoc]
    | some id =>
      have hid : id ∈ Finset.range size :=
        Finset.mem_range.mpr (h r List.mem_cons_self id hnode)
      simp only [Option.some.injEq, reduceCtorEq, if_false, Finset.sum_ite_eq, hid, if_true]
      omega

end History

/-- When an evaluation is over, everything that its nodes open has been added to the store, and
nothing else has. -/
theorem Concluded.pushes_eq {initial : List (Entry m)} {c : Circuit m} {history : History m}
    {opened : OpenedValues m} (h : Concluded initial c history opened) :
    history.pushes = c.uses (·.openings) := by
  obtain ⟨s, gates, held, h, hvalues, -, hover, hsame, -⟩ := h
  have hsize : s.values.length = c.size := by rw [h.sound.length_values, h.circuit]
  have hnodes : ∀ r ∈ history, ∀ id, r.node = some id → id < c.size := by
    intro r hr id hnode
    by_contra hge
    have hnone : s.value? id = none := by
      rw [Schedule.value?, List.getElem?_eq_none (hsize ▸ Nat.le_of_not_lt hge)]
      rfl
    have hmem : r ∈ history.of id := List.mem_filter.mpr ⟨hr, by simpa using hnode⟩
    rw [hsame, h.unstarted id hnone List.not_mem_nil] at hmem
    exact List.not_mem_nil hmem
  rw [History.pushes_eq_sum hnodes, History.pushes, hover.length_pushed, Nat.zero_add,
    Circuit.uses, ← Circuit.demand_range, Circuit.demand]
  refine Finset.sum_congr rfl fun id hid => ?_
  have hlt := Finset.mem_range.mp hid
  have hop : c.operation? id = some c.nodes[id] := List.getElem?_eq_getElem hlt
  rw [hsame, hop, History.pushes, (h.ended id _ hop (hvalues id (hsize ▸ hlt))).length_pushed]
  rfl

/-- An evaluation that succeeds adds to the store what its nodes open. -/
theorem Evaluator.pushes_of_evaluate {c : Circuit m} {e e' : Evaluator m} {outputs : Outputs m}
    {history : History m} {initial : List (Entry m)}
    {replies : List (Except TransportError Delivery)}
    (hinitial : e.participant.pool.opened = .ofEntries initial)
    (hrun : Session.Run (Traced.evaluate c (e, [])) replies (.ok outputs, (e', history))) :
    history.pushes = c.uses (·.openings) := by
  obtain ⟨-, hended, -⟩ := Ledger.keeps_evaluate initial c _ _ _ _ _ _ ⟨hinitial, rfl⟩ hrun
  exact (hended outputs rfl).pushes_eq

end JointCircuit
