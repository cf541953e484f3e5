/-
JointCircuit.Proofs.Kinds — which circuits honest parties can evaluate.

What an operation takes is checked in two places. In the clear an operand
only has to be a number, so an opened value will do (§1). A party checks
when it builds its gate for a node, and then an opened value is no share.
All that a gate delivers is of the kind of its operation (§2), and so a
party that succeeds, whatever its peers send, has found every operand to
be of the kind that its user takes (§3).

Main statement: `evaluate_all_ok_iff` (§4) — honest parties with enough
material all succeed exactly when the circuit is valid, can be evaluated
in the clear, and takes no opened value as an operand.
-/
import JointCircuit.Proofs.Clock
import JointCircuit.Proofs.Ledger
import JointCircuit.Proofs.Trace

namespace JointCircuit

open scoped Fin.CommRing

variable {m : Modulus} {n : Nat} {c : Circuit m}

/-! ## §1 In the clear -/

/-- Opened values are operands of checks only. -/
def Circuit.KeepsOpened (c : Circuit m) : Prop :=
  ∀ op ∈ c.nodes, op.isCheck = false → ∀ x ∈ op.operands, ∀ y, c.operation? x ≠ some (.reveal y)

/-- A well-kinded circuit has shares and batches where an opened value would be out of place. -/
theorem Circuit.WellKinded.keepsOpened (h : c.WellKinded) : c.KeepsOpened := by
  intro op hmem hcheck x hx y hy
  have hkinded := h op hmem
  have hshare : ¬ ∃ operand, c.operation? x = some operand ∧ operand.kind = .share := by
    rintro ⟨operand, hop, hkind⟩
    obtain rfl := Option.some.inj (hy.symm.trans hop)
    cases hkind
  cases op with
  | select batch index =>
    obtain ⟨pairs, hbatch, -⟩ := hkinded
    rw [List.mem_singleton.mp hx, hbatch] at hy
    cases hy
  | macCheck after => cases hcheck
  | _ => exact hshare (hkinded x hx)

namespace Plain

variable {values : List (PlainValue m)}

/-- An operand that is a number, and was not opened, is a share. -/
theorem share_of_scalar (h : Filled c values) {y : NodeId} {a : Element m}
    (hscalar : scalar values y = .ok a) (hopened : ∀ z, c.operation? y ≠ some (.reveal z)) :
    ∃ operand, c.operation? y = some operand ∧ operand.kind = .share := by
  unfold scalar at hscalar
  split at hscalar
  · rename_i x hx
    obtain ⟨op, hop, hfits⟩ := h y _ hx
    refine ⟨op, hop, ?_⟩
    cases hfits with
    | scalar _ hkind =>
      rcases hkind with hkind | hkind
      · exact hkind
      · cases op with
        | reveal z => exact absurd hop (hopened z)
        | _ => cases hkind
  · cases hscalar

/-- A node with a value in the clear, whose operands were not opened, is well-kinded. -/
theorem wellKinded_of_value (h : Filled c values) {op : Operation m} {id : NodeId}
    {x : PlainValue m} (hvalue : value values id op = .ok x)
    (hopened : op.isCheck = false → ∀ y ∈ op.operands, ∀ z, c.operation? y ≠ some (.reveal z)) :
    op.WellKinded c ∧ Fits op x := by
  have hshare : op.isCheck = false → ∀ y ∈ op.operands, ∀ {a : Element m},
      scalar values y = .ok a → ∃ operand, c.operation? y = some operand ∧ operand.kind = .share :=
    fun hcheck y hy _ hscalar => share_of_scalar h hscalar (hopened hcheck y hy)
  cases op with
  | input owner input =>
    cases input with
    | none => cases hvalue
    | some x =>
      cases hvalue
      exact ⟨fun y hy => absurd hy List.not_mem_nil, .scalar x (.inl rfl)⟩
  | macCheck after =>
    cases hvalue
    exact ⟨trivial, .checked after⟩
  | select batch index =>
    obtain ⟨xs, a, hxs, ha, rfl⟩ := value_select hvalue
    obtain ⟨op, hop, hfits⟩ := h batch _ hxs
    cases hfits with
    | batch _ hlength =>
      have hlt : index < xs.length := (List.getElem?_eq_some_iff.mp ha).1
      exact ⟨⟨_, hop, hlength ▸ hlt⟩, .scalar a (.inl rfl)⟩
  | multiplyBatch pairs =>
    obtain ⟨products, hproducts, hvalue⟩ := except_bind_eq_ok.mp hvalue
    cases hvalue
    refine ⟨fun y hy => ?_, .batch products (except_length_mapM hproducts)⟩
    obtain ⟨p, hp, hmem⟩ := List.mem_flatMap.mp hy
    obtain ⟨z, hz⟩ := except_mapM_eq_ok hproducts hp
    obtain ⟨a, ha, hz⟩ := except_bind_eq_ok.mp hz
    obtain ⟨b, hb, -⟩ := except_bind_eq_ok.mp hz
    rcases List.mem_pair.mp hmem with rfl | rfl
    · exact hshare rfl _ hy ha
    · exact hshare rfl _ hy hb
  | add a b | sub a b | multiply a b =>
    obtain ⟨s, hs, hvalue⟩ := except_bind_eq_ok.mp hvalue
    obtain ⟨t, ht, hvalue⟩ := except_bind_eq_ok.mp hvalue
    cases hvalue
    refine ⟨fun y hy => ?_, .scalar _ (.inl rfl)⟩
    rcases List.mem_pair.mp hy with rfl | rfl
    · exact hshare rfl _ hy hs
    · exact hshare rfl _ hy ht
  | neg a | addPublic a k | subPublic a k | mulPublic a k =>
    obtain ⟨s, hs, hvalue⟩ := except_bind_eq_ok.mp hvalue
    cases hvalue
    refine ⟨fun y hy => ?_, .scalar _ (.inl rfl)⟩
    obtain rfl := List.mem_singleton.mp hy
    exact hshare rfl _ hy hs
  | reveal a =>
    obtain ⟨s, hs, hvalue⟩ := except_bind_eq_ok.mp hvalue
    cases hvalue
    refine ⟨fun y hy => ?_, .scalar _ (.inr rfl)⟩
    obtain rfl := List.mem_singleton.mp hy
    exact hshare rfl _ hy hs

/-- The nodes that are left are well-kinded if they all have values. -/
theorem wellKinded_of_evaluateFrom (keeps : c.KeepsOpened) {before rest : List (Operation m)}
    (hnodes : c.nodes = before ++ rest) (hlength : values.length = before.length)
    (h : Prefix c values) {plains : List (PlainValue m)} {counts counts' : PlainCounts}
    (heval : evaluateFrom values rest counts = .ok plains counts') :
    ∀ op ∈ rest, op.WellKinded c := by
  induction rest generalizing before values counts with
  | nil => exact fun op hop => absurd hop List.not_mem_nil
  | cons op rest ih =>
    obtain ⟨_, _, hcount, heval⟩ := Action.bind_eq_ok.mp heval
    cases hcount
    obtain ⟨x, _, hfirst, heval⟩ := Action.bind_eq_ok.mp heval
    obtain ⟨hvalue, rfl⟩ := Action.ofExcept_eq_ok.mp hfirst
    have hmem : op ∈ c.nodes := by
      rw [hnodes]
      exact List.mem_append_right _ List.mem_cons_self
    have hop : c.operation? values.length = some op := by
      rw [Circuit.operation?, hnodes, hlength]
      simp
    obtain ⟨hkinded, hfits⟩ := wellKinded_of_value h.filled hvalue (keeps op hmem)
    have hsplit : c.nodes = (before ++ [op]) ++ rest := by rw [hnodes, List.append_assoc]; rfl
    have hrest := ih hsplit (by simp [hlength]) (h.snoc hop hvalue hfits) heval
    exact List.forall_mem_cons.mpr ⟨hkinded, hrest⟩

/-- A circuit that can be evaluated in the clear is well-kinded if it keeps opened values out. -/
theorem wellKinded_of_evaluate (keeps : c.KeepsOpened) {plains : List (PlainValue m)}
    {counts counts' : PlainCounts} (heval : evaluate c counts = .ok plains counts') :
    c.WellKinded := by
  refine wellKinded_of_evaluateFrom keeps (List.nil_append _).symm rfl ⟨?_, ?_⟩ heval
  · exact fun id x hx => nomatch hx
  · exact fun id op hlt => absurd hlt (Nat.not_lt_zero id)

end Plain

/-! ## §2 What gates deliver -/

/-- A value is of the form that the operation produces. A batch may be short, but not long. -/
inductive Value.Fits : Operation m → Value m → Prop
  | share {op : Operation m} (x : AuthShare m) (h : op.kind = .share) : Fits op (.share x)
  | batch {pairs : List (NodeId × NodeId)} (xs : List (AuthShare m))
      (length : xs.length ≤ pairs.length) : Fits (.multiplyBatch pairs) (.shares xs)
  | plain {op : Operation m} (x : Element m) (h : op.kind = .plain) : Fits op (.plain x)
  | checked {op : Operation m} (h : op.kind = .check) : Fits op .checked

/-- The gate computes the operation, and this is the round it is evaluated in next. -/
def Gate.Serves (op : Operation m) (round : Nat) : Gate m → Prop
  | .input _ => op.kind = .share
  | .linear _ => op.kind = .share
  | .multiply _ => op.kind = .share
  | .multiplyBatch p => ∃ pairs, op = .multiplyBatch pairs ∧ p.pairs.length = pairs.length
      ∧ p.Supplied round
  | .reveal _ => op.kind = .plain
  | .macCheck _ => op.kind = .check

/-- A round of a batch keeps its pairs and draws a triple for each; in the end it has at most as
many products. -/
theorem MultiplyBatch.length_of_evaluate {round : Nat} {p p' : MultiplyBatch m}
    {w w' : Participant m} {status : Status} (h : evaluate round (p, w) = .ok status (p', w'))
    (hsupplied : p.Supplied round) :
    p'.pairs = p.pairs ∧ (status = .more → p'.Supplied (round + 1))
      ∧ (status = .done → ∀ xs, p'.output = some xs → xs.length ≤ p.pairs.length) := by
  cases branch h with
  | empty =>
    refine ⟨rfl, nofun, fun _ xs hxs => ?_⟩
    cases hxs
    exact Nat.zero_le _
  | send has_pairs draws => exact ⟨rfl, fun _ _ => Supplier.length_nextTriples draws, nofun⟩
  | finish =>
    refine ⟨rfl, nofun, fun _ xs hxs => ?_⟩
    cases hxs
    rw [List.length_zipWith, hsupplied (Nat.succ_ne_zero _)]
    exact Nat.min_le_left _ _

namespace Gate

variable {op : Operation m} {g g' : Gate m} {round : Nat} {w w' : Participant m}
  {status : Status}

/-- A gate that has been built computes the operation. -/
theorem serves_of_instantiate {values : List (Option (Value m))}
    (h : instantiate values op = .ok g) : g.Serves op 0 := by
  cases op with
  | input owner value =>
    cases h
    rfl
  | macCheck after =>
    cases h
    rfl
  | multiplyBatch pairs =>
    obtain ⟨operands, hoperands, h⟩ := except_bind_eq_ok.mp h
    cases h
    exact ⟨pairs, rfl, except_length_mapM hoperands, fun h => absurd rfl h⟩
  | add x y | sub x y | multiply x y =>
    obtain ⟨_, -, h⟩ := except_bind_eq_ok.mp h
    obtain ⟨_, -, h⟩ := except_bind_eq_ok.mp h
    cases h
    rfl
  | neg x | addPublic x k | subPublic x k | mulPublic x k | reveal x =>
    obtain ⟨_, -, h⟩ := except_bind_eq_ok.mp h
    cases h
    rfl
  | select batch index =>
    obtain ⟨_, -, h⟩ := except_bind_eq_ok.mp h
    cases h
    rfl

/-- In every round the gate computes the same operation, and what it delivers in the last one is
of the form that the operation produces. -/
theorem Serves.evaluate (h : g.Serves op round)
    (hround : Gate.evaluate round (g, w) = .ok status (g', w')) :
    (status = .more → g'.Serves op (round + 1))
      ∧ (status = .done → ∀ value, g'.out.1 = some value → value.Fits op) := by
  cases branch hround with
  | input | linear | multiply =>
    refine ⟨fun _ => h, fun _ value hvalue => ?_⟩
    obtain ⟨x, -, rfl⟩ := Option.map_eq_some_iff.mp hvalue
    exact .share x h
  | multiplyBatch act =>
    obtain ⟨pairs, rfl, hlength, hsupplied⟩ := h
    obtain ⟨hpairs, hmore, hdone⟩ := MultiplyBatch.length_of_evaluate act hsupplied
    refine ⟨fun hstatus => ⟨pairs, rfl, by rw [hpairs, hlength], hmore hstatus⟩,
      fun hstatus value hvalue => ?_⟩
    obtain ⟨xs, hxs, rfl⟩ := Option.map_eq_some_iff.mp hvalue
    exact .batch xs (hlength ▸ hdone hstatus xs hxs)
  | reveal =>
    refine ⟨fun _ => h, fun _ value hvalue => ?_⟩
    obtain ⟨x, -, rfl⟩ := Option.map_eq_some_iff.mp hvalue
    exact .plain x h
  | macCheck =>
    refine ⟨fun _ => h, fun _ value hvalue => ?_⟩
    obtain ⟨x, -, rfl⟩ := Option.map_eq_some_iff.mp hvalue
    exact .checked h

end Gate

/-! ## §3 A party that succeeds -/

/-- The nodes with values have values of the right form. -/
def Schedule.Filled (s : Schedule m) : Prop :=
  ∀ id value, s.value? id = some value → ∃ op, s.circuit.operation? id = some op ∧ value.Fits op

namespace Schedule

variable {s : Schedule m} {id : NodeId} {op : Operation m} {gate : Gate m}

/-- An operand that was found to be a share is the node of an operation that produces one. -/
theorem Filled.share (h : s.Filled) {y : NodeId} {x : AuthShare m}
    (hx : Gate.shareOf s.values y = .ok x) :
    ∃ operand, s.circuit.operation? y = some operand ∧ operand.kind = .share := by
  obtain ⟨value, hvalue, hshare⟩ := except_bind_eq_ok.mp hx
  unfold Gate.operand at hvalue
  split at hvalue
  · rename_i found hfound
    cases hvalue
    obtain ⟨op, hop, hfits⟩ := h y value (by rw [value?, hfound]; rfl)
    cases hfits with
    | share _ hkind => exact ⟨op, hop, hkind⟩
    | _ => cases hshare
  · cases hvalue

/-- A batch that was selected from is the node of a batch, and is long enough. -/
theorem Filled.select (h : s.Filled) {batch index : Nat} {x : AuthShare m}
    (hx : Gate.selectFrom s.values batch index = .ok x) :
    ∃ pairs, s.circuit.operation? batch = some (.multiplyBatch pairs) ∧ index < pairs.length := by
  obtain ⟨value, hvalue, hselect⟩ := except_bind_eq_ok.mp hx
  unfold Gate.operand at hvalue
  split at hvalue
  · rename_i found hfound
    cases hvalue
    obtain ⟨op, hop, hfits⟩ := h batch value (by rw [value?, hfound]; rfl)
    cases hfits with
    | batch xs hlength =>
      dsimp only at hselect
      split at hselect
      · rename_i hindex
        exact ⟨_, hop, (List.getElem?_eq_some_iff.mp hindex).1.trans_le hlength⟩
      · cases hselect
    | _ => cases hselect
  · cases hvalue

/-- An operation for which a gate could be built is well-kinded. -/
theorem Filled.wellKinded (h : s.Filled) (hgate : Gate.instantiate s.values op = .ok gate) :
    op.WellKinded s.circuit := by
  cases op with
  | input owner value => exact fun y hy => absurd hy List.not_mem_nil
  | macCheck after => trivial
  | select batch index =>
    obtain ⟨x, hx, -⟩ := except_bind_eq_ok.mp hgate
    exact h.select hx
  | multiplyBatch pairs =>
    obtain ⟨operands, hoperands, -⟩ := except_bind_eq_ok.mp hgate
    intro y hy
    obtain ⟨p, hp, hmem⟩ := List.mem_flatMap.mp hy
    obtain ⟨z, hz⟩ := except_mapM_eq_ok hoperands hp
    obtain ⟨a, ha, hz⟩ := except_bind_eq_ok.mp hz
    obtain ⟨b, hb, -⟩ := except_bind_eq_ok.mp hz
    rcases List.mem_pair.mp hmem with rfl | rfl
    · exact h.share ha
    · exact h.share hb
  | add a b | sub a b | multiply a b =>
    obtain ⟨x, hx, hgate⟩ := except_bind_eq_ok.mp hgate
    obtain ⟨z, hz, -⟩ := except_bind_eq_ok.mp hgate
    intro y hy
    rcases List.mem_pair.mp hy with rfl | rfl
    · exact h.share hx
    · exact h.share hz
  | neg a | addPublic a k | subPublic a k | mulPublic a k | reveal a =>
    obtain ⟨x, hx, -⟩ := except_bind_eq_ok.mp hgate
    intro y hy
    obtain rfl := List.mem_singleton.mp hy
    exact h.share hx

end Schedule

namespace Evaluator

/-- Everything that has been started was well-kinded, and the gates in flight compute their
operations. -/
structure Orders (s : Schedule m) (flights : List (InFlight m)) : Prop where
  filled : s.Filled
  serves : ∀ f ∈ flights, ∃ op, s.circuit.operation? f.id = some op ∧ f.gate.Serves op f.round
  kinded : ∀ id op, s.circuit.operation? id = some op →
    s.value? id ≠ none ∨ id ∈ flights.map (·.id) → op.WellKinded s.circuit

namespace Orders

variable {s : Schedule m} {still rest : List (InFlight m)} {f : InFlight m} {gate : Gate m}

/-- The gate goes on to its next round. -/
theorem more (h : Orders s (still ++ f :: rest)) {w w' : Participant m}
    (hround : Gate.evaluate f.round (f.gate, w) = .ok .more (gate, w')) :
    Orders s (still ++ { f with gate, round := f.round + 1 } :: rest) := by
  refine ⟨h.filled, fun g hg => ?_, fun id op hop hid => h.kinded id op hop ?_⟩
  · rcases List.mem_append.mp hg with hg | hg
    · exact h.serves g (List.mem_append_left _ hg)
    · rcases List.mem_cons.mp hg with rfl | hg
      · obtain ⟨op, hop, hserves⟩ := h.serves f (List.mem_append_right _ List.mem_cons_self)
        exact ⟨op, hop, (hserves.evaluate hround).1 rfl⟩
      · exact h.serves g (List.mem_append_right _ (List.mem_cons_of_mem _ hg))
  · simpa using hid

/-- The gate delivers the value of its node. -/
theorem done (h : Orders s (still ++ f :: rest)) (sound : s.Sound ((still ++ f :: rest).map (·.id)))
    {w w' : Participant m} (hround : Gate.evaluate f.round (f.gate, w) = .ok .done (gate, w'))
    {value : Value m} (hout : gate.out.1 = some value) :
    Orders (s.complete f.id value) (still ++ rest) := by
  have hperm : ((still ++ f :: rest).map (·.id)).Perm (f.id :: (still ++ rest).map (·.id)) :=
    List.perm_middle.map _
  have hvalue := (sound.perm hperm.symm).value?_complete value
  obtain ⟨op, hop, hserves⟩ := h.serves f (List.mem_append_right _ List.mem_cons_self)
  refine ⟨fun id v hv => ?_, fun g hg => ?_, fun id op hop hid => ?_⟩
  · rw [hvalue] at hv
    rw [Schedule.circuit_complete]
    split at hv
    · rename_i hid
      cases hv
      exact ⟨op, hid ▸ hop, (hserves.evaluate hround).2 rfl value hout⟩
    · exact h.filled id v hv
  · rw [Schedule.circuit_complete]
    refine h.serves g ?_
    rcases List.mem_append.mp hg with hg | hg
    · exact List.mem_append_left _ hg
    · exact List.mem_append_right _ (List.mem_cons_of_mem _ hg)
  · rw [Schedule.circuit_complete] at hop ⊢
    refine h.kinded id op hop ?_
    rw [hvalue, hperm.mem_iff, List.mem_cons] at *
    split at hid
    · rename_i heq
      exact .inr (.inl heq)
    · exact hid.imp_right .inr

/-- The lowest ready node is given its gate. -/
theorem start (h : Orders s still) {id : NodeId} {ready : List NodeId}
    (hgate : s.gate id = .ok gate) :
    Orders { s with ready } (still ++ [⟨id, gate, 0⟩]) := by
  obtain ⟨op, hop, hbuilt⟩ : ∃ op, s.circuit.operation? id = some op
      ∧ Gate.instantiate s.values op = .ok gate := by
    unfold Schedule.gate at hgate
    split at hgate
    · cases hgate
    · rename_i op hop
      exact ⟨op, hop, hgate⟩
  refine ⟨h.filled, fun g hg => ?_, fun id' op' hop' hid => ?_⟩
  · rcases List.mem_append.mp hg with hg | hg
    · exact h.serves g hg
    · obtain rfl := List.mem_singleton.mp hg
      exact ⟨op, hop, Gate.serves_of_instantiate hbuilt⟩
  · by_cases heq : id' = id
    · subst heq
      obtain rfl := Option.some.inj (hop.symm.trans hop')
      exact h.filled.wellKinded hbuilt
    · refine h.kinded id' op' hop' (hid.imp_right fun hmem => ?_)
      simpa [heq] using hmem

end Orders

open Traced in
/-- Every step of the loop over the gates keeps its orders. -/
theorem upkeep_orders (c : Circuit m) (limit : Nat) :
    Upkeep c limit (fun _ _ _ => True) fun s still todo _ _ => Orders s (still ++ todo) where
  more h _ hround := by
    rw [List.append_assoc]
    exact h.more hround
  done h underway hround hout := h.done underway.sound hround hout
  silent _ _ _ _ := trivial
  failed _ _ _ := trivial
  start h _ _ hgate := by
    rw [List.append_nil] at h
    exact h.start hgate
  misfit _ _ _ _ := trivial
  flush s flights _ _ _ :=
    keeps_flush (fun _ _ _ _ _ _ => trivial) (fun _ _ _ _ _ _ _ => trivial)
      (fun _ _ _ _ _ _ _ _ _ _ => trivial)
      fun _ _ _ _ _ _ h _ _ => by rwa [List.append_nil] at h
  endless _ _ := trivial

/-- A party that succeeds, whatever its peers send, has evaluated a valid circuit in which every
operand has the kind that its user takes. -/
theorem wellKinded_of_evaluate {e e' : Evaluator m} {outputs : Outputs m}
    (h : Returns (evaluate c) e outputs e') :
    c.validate e.participant.pool.parties = .ok () ∧ c.WellKinded := by
  rw [evaluate_eq] at h
  obtain ⟨pool, e₁, hget, h⟩ := returns_bind.mp h
  obtain ⟨rfl, rfl⟩ := returns_onPool_get hget
  obtain ⟨_, e₂, hcheck, h⟩ := returns_bind.mp h
  obtain ⟨hvalid, rfl⟩ := returns_ofExcept.mp hcheck
  refine ⟨hvalid, ?_⟩
  obtain ⟨pool, e₃, hget, h⟩ := returns_bind.mp h
  obtain ⟨rfl, rfl⟩ := returns_onPool_get hget
  obtain ⟨_, e₄, -, h⟩ := returns_bind.mp h
  obtain ⟨s, e₅, ⟨replies, hgates⟩, h⟩ := returns_bind.mp h
  obtain ⟨_, e₆, -, h⟩ := returns_bind.mp h
  obtain ⟨values, e₇, hreturns, -⟩ := returns_bind.mp h
  obtain ⟨houtputs, rfl⟩ := returns_ofExcept.mp hreturns
  obtain ⟨t, hrun⟩ := (Traced.erases_runGates Traced.erases_gateRound _ _ _).exists_notes
    ({} : Trace m) hgates
  have hnew : Orders (.new c) [] := by
    refine ⟨fun id value hvalue => ?_, fun f hf => absurd hf List.not_mem_nil,
      fun id op hop hid => ?_⟩
    · rw [Schedule.value?_new] at hvalue
      cases hvalue
    · rcases hid with hid | hid
      · exact absurd (Schedule.value?_new c id) hid
      · exact absurd hid List.not_mem_nil
  obtain ⟨-, hok, -⟩ :=
    Traced.Upkeep.keeps_runGates_forall (upkeep_orders c) (.new c) _ _ _ _ _ _ hnew hrun
  obtain ⟨⟨underway, -⟩, orders⟩ := hok s rfl
  intro op hmem
  obtain ⟨id, hop⟩ := List.mem_iff_getElem?.mp hmem
  have hcircuit : s.circuit = c := underway.circuit
  have hlt : id < s.values.length := by
    rw [underway.sound.length_values, hcircuit]
    exact (List.getElem?_eq_some_iff.mp hop).1
  have hkinded := orders.kinded id op (hcircuit ▸ hop)
    (.inl (Schedule.value?_ne_none_of_outputs houtputs hlt))
  rwa [hcircuit] at hkinded

end Evaluator

/-! ## §4 Honest parties -/

namespace Circuit.Shows

variable {c' : Circuit m} {party : Nat}

/-- Every operation of a party's version stands for one of the circuit. -/
theorem exists_original (h : c.Shows party c') {id : NodeId} {op' : Operation m}
    (hop' : c'.operation? id = some op') :
    ∃ op, c.operation? id = some op ∧ Operation.Shows party op op' := by
  have hrel := h.operation? id
  rw [hop'] at hrel
  generalize c.operation? id = o at hrel
  cases hrel with
  | some hshows => exact ⟨_, rfl, hshows⟩

/-- Every operation of the circuit stands in a party's version of it. -/
theorem exists_version (h : c.Shows party c') {id : NodeId} {op : Operation m}
    (hop : c.operation? id = some op) :
    ∃ op', c'.operation? id = some op' ∧ Operation.Shows party op op' := by
  have hrel := h.operation? id
  rw [hop] at hrel
  generalize c'.operation? id = o at hrel
  cases hrel with
  | some hshows => exact ⟨_, rfl, hshows⟩

/-- A circuit is valid if a party's version of it is. -/
theorem valid {parties : Nat} (h : c.Shows party c') (valid : c'.validate parties = .ok ()) :
    c.validate parties = .ok () := by
  refine validate_eq_ok_iff.mpr fun op id hmem => ?_
  obtain ⟨op', hop', hshows⟩ := h.exists_version (List.mem_zipIdx_iff_getElem?.mp hmem)
  refine ⟨fun y hy => operand_lt valid hop' (hshows.operands_eq ▸ hy), ?_⟩
  rw [← hshows.unknownOwner?_eq]
  exact unknownOwner?_eq_none valid hop'

/-- A circuit is well-kinded if a party's version of it is. -/
theorem wellKinded (h : c.Shows party c') (kinded : c'.WellKinded) : c.WellKinded := by
  have hshare : ∀ x, (∃ o, c'.operation? x = some o ∧ o.kind = .share) →
      ∃ o, c.operation? x = some o ∧ o.kind = .share := by
    rintro x ⟨o', ho', hkind⟩
    obtain ⟨o, ho, hshows⟩ := h.exists_original ho'
    cases hshows with
    | same => exact ⟨_, ho, hkind⟩
    | input owner value value' own => exact ⟨_, ho, rfl⟩
  intro op hmem
  obtain ⟨id, hop⟩ := List.mem_iff_getElem?.mp hmem
  obtain ⟨op', hop', hshows⟩ := h.exists_version hop
  have hkinded := kinded op' (List.mem_of_getElem? hop')
  cases hshows with
  | input owner value value' own => exact fun x hx => absurd hx List.not_mem_nil
  | same =>
    cases op with
    | select batch index =>
      obtain ⟨pairs, hbatch, hindex⟩ := hkinded
      obtain ⟨o, ho, hshows⟩ := h.exists_original hbatch
      cases hshows with
      | same => exact ⟨pairs, ho, hindex⟩
    | macCheck after => trivial
    | _ => exact fun x hx => hshare x (hkinded x hx)

end Circuit.Shows

/-- Honest parties with enough material all succeed exactly when the circuit is valid, can be
evaluated in the clear, and takes no opened value as an operand of anything but a check. So a
circuit of that kind is never refused once messages have been exchanged. -/
theorem evaluate_all_ok_iff [NeZero n] {key : Fin n → Element m} (inputs : c.HasInputs)
    {views : Fin n → Circuit m} (shows : ∀ i : Fin n, c.Shows (i + 1) (views i)) {triples : Nat}
    {masks : Fin n → Nat} {pools : Fin n → Pool m} {e : Fin n → Evaluator m}
    (idle : Idle key triples masks pools e) (htriples : c.uses (·.triples) ≤ triples)
    (hmasks : ∀ o, c.uses (·.masks o) ≤ masks o) :
    (c.validate n = .ok () ∧ (∃ plains counts, Plain.evaluate c {} = .ok plains counts)
        ∧ c.KeepsOpened)
      ↔ ∃ (sent : List (Fin n → List Frame)) (outputs : Fin n → Outputs m)
          (e' : Fin n → Evaluator m),
        Joint (fun i => Evaluator.evaluate (views i) (e i)) sent
          fun i => (.ok (outputs i), e' i) := by
  constructor
  · rintro ⟨valid, ⟨plains, counts, heval⟩, keeps⟩
    have kinded := Plain.wellKinded_of_evaluate keeps heval
    have hidle : Idle key (c.uses (·.triples) + 0) (fun o => c.uses (·.masks o) + 0) pools e :=
      idle.mono htriples hmasks
    obtain ⟨_, sent, outputs, _, e', -, hjoint, -⟩ :=
      evaluate_circuit_joint valid kinded inputs shows hidle
    exact ⟨sent, outputs, e', hjoint⟩
  · rintro ⟨sent, outputs, e', hjoint⟩
    obtain ⟨replies, hrun⟩ := hjoint.run 0
    obtain ⟨hvalid, hkinded⟩ := Evaluator.wellKinded_of_evaluate ⟨replies, hrun⟩
    obtain ⟨openings, table, -⟩ := idle.table
    rw [(idle.seats 0).pool_eq, table.parties 0] at hvalid
    have valid := (shows 0).valid hvalid
    have kinded := (shows 0).wellKinded hkinded
    obtain ⟨plains, heval, -⟩ := Plain.evaluate_eq_ok valid kinded inputs
    obtain ⟨counts, hcounts⟩ := heval {}
    exact ⟨valid, ⟨plains, counts, hcounts⟩, kinded.keepsOpened⟩

/-- Two parties with two triples and two masks for each can evaluate the product of their
inputs, so it is valid, has a value in the clear, and keeps what it opens. -/
theorem evaluate_all_ok_iff_product :
    ((productCircuit (some 5) (some 7)).validate 2 = .ok ()
        ∧ (∃ plains counts,
          Plain.evaluate (productCircuit (some 5) (some 7)) {} = .ok plains counts)
        ∧ (productCircuit (some 5) (some 7)).KeepsOpened)
      ∧ ∃ (sent : List (Fin 2 → List Frame)) (outputs : Fin 2 → Outputs .mersenne61)
          (e' : Fin 2 → Evaluator .mersenne61),
        Joint (fun i => Evaluator.evaluate
            (if i = 0 then productCircuit (some 5) none else productCircuit none (some 7))
            { participant := .new (stockedPool i) }) sent
          fun i => (.ok (outputs i), e' i) := by
  have shows : ∀ i : Fin 2, (productCircuit (some 5) (some 7)).Shows (i + 1)
      (if i = 0 then productCircuit (some 5) none else productCircuit none (some 7)) := by
    intro i
    fin_cases i
    · exact (productCircuit_shows 5 7).1
    · exact (productCircuit_shows 5 7).2
  have hiff := evaluate_all_ok_iff (hasInputs_productCircuit 5 7) shows idle_stockedPool
    (by decide) (by decide)
  have hleft : (productCircuit (some 5) (some 7)).validate 2 = .ok ()
      ∧ (∃ plains counts, Plain.evaluate (productCircuit (some 5) (some 7)) {} = .ok plains counts)
      ∧ (productCircuit (some 5) (some 7)).KeepsOpened :=
    ⟨by decide, ⟨_, _, rfl⟩, (wellKinded_productCircuit _ _).keepsOpened⟩
  exact ⟨hleft, hiff.mp hleft⟩

/-- An opened value with a constant added. -/
def reopenedCircuit : Circuit .mersenne61 :=
  ⟨[.input 1 (some 5), .reveal 0, .addPublic 1 3]⟩

/-- A valid circuit that can be evaluated in the clear, and that honest parties with enough
material cannot evaluate: an opened value is a number, but no share. -/
theorem reopenedCircuit_refused :
    reopenedCircuit.validate 2 = .ok () ∧ reopenedCircuit.HasInputs
      ∧ Plain.evaluate reopenedCircuit {} = .ok [.scalar 5, .scalar 5, .scalar 8] ⟨1, 0⟩
      ∧ (reopenedCircuit.uses (·.triples) ≤ 2 ∧ ∀ o : Fin 2, reopenedCircuit.uses (·.masks o) ≤ 2)
      ∧ Idle (fun i => (stockedPool i).keyShare) 2 (fun _ => 2) stockedPool
        (fun i => { participant := .new (stockedPool i) })
      ∧ ¬ ∃ (sent : List (Fin 2 → List Frame)) (outputs : Fin 2 → Outputs .mersenne61)
          (e' : Fin 2 → Evaluator .mersenne61),
        Joint (fun i => Evaluator.evaluate reopenedCircuit { participant := .new (stockedPool i) })
          sent fun i => (.ok (outputs i), e' i) := by
  refine ⟨by decide, ?_, by rfl, ⟨by decide, by decide⟩, idle_stockedPool, ?_⟩
  · intro owner value hvalue
    simp [reopenedCircuit] at hvalue
    simp [hvalue.2]
  · rintro ⟨sent, outputs, e', hjoint⟩
    obtain ⟨replies, hrun⟩ := hjoint.run 0
    obtain ⟨-, hkinded⟩ := Evaluator.wellKinded_of_evaluate ⟨replies, hrun⟩
    exact hkinded.keepsOpened (.addPublic 1 3) (by simp [reopenedCircuit]) rfl 1
      (by simp [Operation.operands]) 0 rfl

end JointCircuit
