/-
JointCircuit.Proofs.Privacy — what is sent does not depend on secret inputs.

Consistent material of one party can be moved so that it makes up for any
change of the party's inputs that nothing opened shows (§2). Then all
parties exchange the same frames: while they agree on a seed, while they
evaluate the gates, and while they check what they have opened (§3).

Main statement: `evaluate_hides_inputs` (§4) — over a prime modulus, for
every reassignment of a party's inputs there is a bijection on consistent
material after which every message of every round is the same.
-/
import JointCircuit.Proofs.Padding
import JointCircuit.Proofs.Refinement
import JointCircuit.Proofs.Twins

namespace JointCircuit

open scoped Fin.CommRing

variable {m : Modulus} {n : Nat}

/-! ## §1 Circuits with other inputs -/

namespace Operation.Reassigns

variable {party : Nat} {op op' : Operation m}

theorem symm (h : Reassigns party op op') : Reassigns party op' op := by
  cases h with
  | same => exact .same _
  | input value value' => exact .input _ _

theorem operands_eq (h : Reassigns party op op') : op'.operands = op.operands := by
  cases h <;> rfl

theorem kind_eq (h : Reassigns party op op') : op'.kind = op.kind := by
  cases h <;> rfl

end Operation.Reassigns

namespace Circuit

variable {c c' : Circuit m} {party : Nat}

theorem Reassigns.symm (h : c.Reassigns party c') : c'.Reassigns party c :=
  h.flip.imp fun _ _ => Operation.Reassigns.symm

/-- A valid circuit stays valid. -/
theorem Reassigns.validate {parties : Nat} (h : c.Reassigns party c')
    (valid : c.validate parties = .ok ()) : c'.validate parties = .ok () := by
  refine validate_eq_ok_iff.mpr fun op' id hmem => ?_
  obtain ⟨op, hop, hre⟩ := h.symm.exists_operation (List.mem_zipIdx_iff_getElem?.mp hmem)
  refine ⟨fun y hy => operand_lt valid hop (hre.operands_eq ▸ hy), ?_⟩
  rw [← hre.unknownOwner?_eq]
  exact unknownOwner?_eq_none valid hop

/-- The operands keep their kinds. -/
theorem Reassigns.wellKinded (h : c.Reassigns party c') (kinded : c.WellKinded) :
    c'.WellKinded := by
  have hshare : ∀ x, (∃ o, c.operation? x = some o ∧ o.kind = .share) →
      ∃ o, c'.operation? x = some o ∧ o.kind = .share := by
    rintro x ⟨o, ho, hkind⟩
    obtain ⟨o', ho', hre⟩ := h.exists_operation ho
    exact ⟨o', ho', hre.kind_eq.trans hkind⟩
  intro op' hmem
  obtain ⟨id, hop'⟩ := List.mem_iff_getElem?.mp hmem
  obtain ⟨op, hop, hre⟩ := h.symm.exists_operation hop'
  have hkinded := kinded op (List.mem_of_getElem? hop)
  cases hre with
  | input value value' => exact fun x hx => absurd hx List.not_mem_nil
  | same =>
    cases op' with
    | select batch index =>
      obtain ⟨pairs, hbatch, hindex⟩ := hkinded
      obtain ⟨o', ho', hre⟩ := h.exists_operation hbatch
      obtain rfl := hre.eq (by simp)
      exact ⟨pairs, ho', hindex⟩
    | macCheck after => trivial
    | _ => exact fun x hx => hshare x (hkinded x hx)

/-- An opening node has this value in the clear. -/
def Opens (c : Circuit m) (id : NodeId) (x : Element m) : Prop :=
  ∃ operand plains counts, c.operation? id = some (.reveal operand)
    ∧ Plain.evaluate c {} = .ok plains counts ∧ plains[id]? = some (.scalar x)

end Circuit

/-- Over a prime modulus the value at an opening node is the number at its operand. -/
theorem Plain.Computes.reveal (prime : m ≠ .ring128) {c : Circuit m} {parties : Nat}
    (valid : c.validate parties = .ok ()) {plains : List (PlainValue m)} (h : Computes c plains)
    {id x : NodeId} (hop : c.operation? id = some (.reveal x)) :
    plains[id]? = some (.scalar (number plains x)) := by
  obtain ⟨v, hv, hvalue⟩ := h.value id _ hop
  have hlt : x < id := Circuit.operand_lt valid hop (List.mem_singleton.mpr rfl)
  obtain ⟨a, ha, hvalue⟩ := except_bind_eq_ok.mp hvalue
  cases hvalue
  rw [scalar, List.getElem?_take, if_pos hlt] at ha
  split at ha
  · rename_i hx
    cases ha
    rw [hv, number_eq hx, Element.effective_eq_self prime]
  · cases ha

/-! ## §2 Material -/

theorem Offsets.neg_neg_eq (o : Offsets m) : - -o = o := by
  show (⟨- -o.triple, - -o.mask⟩ : Offsets m) = o
  rw [neg_neg, neg_neg]

/-- Data of all parties that fits together. -/
def Material (m : Modulus) (n : Nat) : Type :=
  { data : Fin n → DealtData m // ∃ triples masks, Consistent data triples masks }

/-- Move the material of one party. -/
def Material.shift (p : Fin n) (o : Offsets m) : Material m n ≃ Material m n where
  toFun D := ⟨JointCircuit.shift p o D.1, D.2.imp fun _ => .imp fun _ h => h.shift p o⟩
  invFun D := ⟨JointCircuit.shift p (-o) D.1, D.2.imp fun _ => .imp fun _ h => h.shift p (-o)⟩
  left_inv D := Subtype.ext (shift_neg p o D.1)
  right_inv D := Subtype.ext (by
    have h := shift_neg p (-o) D.1
    rwa [o.neg_neg_eq] at h)

/-- The evaluator of a party with dealt data and with a seed of its own, before its first round. -/
def Evaluator.dealt (data : DealtData m) (seed : Seed) : Evaluator m :=
  { participant := .new {
      party := data.party
      parties := data.parties
      keyShare := data.keyShare
      supplier := .dealt ⟨data⟩
      localGenerator := .ofPartySeed seed } }

/-- This is what comes of the data when a party is set up with it. -/
structure Evaluator.SetUp (data : DealtData m) (seed entropy : Seed) : Prop where
  supplier : DealtSupplier.new data = .ok ⟨data⟩
  pool : Pool.new { PoolConfig.ofModulus m data.party data.parties with localSeed := some seed }
    (.dealt ⟨data⟩) entropy = .ok (Evaluator.dealt data seed).participant.pool
  evaluator : Evaluator.new (Evaluator.dealt data seed).participant.pool data.party data.parties
    = .ok (.dealt data seed)

namespace Consistent

variable {data : Fin n → DealtData m} {triples : Nat} {masks : Fin n → Nat}

/-- Data that fits together is accepted wherever it is checked. -/
theorem setUp (h : Consistent data triples masks) (hn : 2 ≤ n) (i : Fin n) (seed entropy : Seed) :
    Evaluator.SetUp (data i) seed entropy where
  supplier := by
    have hmasks : (data i).masks.length = (data i).parties := by
      have hlength := congrArg List.length (h.length_masks i)
      rwa [List.length_map, List.length_ofFn, ← h.parties i] at hlength
    have hplaintexts :
        (DealtSupplier.masksOf ⟨data i⟩ (data i).party).length = (data i).plaintexts.length := by
      rw [h.party i, (h.masksOf_eq i i).2, h.length_plaintexts i]
    rw [DealtSupplier.new, if_neg (by rw [h.parties i]; omega),
      if_neg (by rw [h.party i, h.parties i]; omega), if_neg (not_not_intro hmasks),
      if_neg (not_not_intro hplaintexts)]
  pool := by
    have htwo : ¬ n < 2 := Nat.not_lt.mpr hn
    have hrange : ¬ (i.val + 1 = 0 ∨ n < i + 1) := by omega
    have hvalid : PoolConfig.validate
        { PoolConfig.ofModulus m (i + 1) n with localSeed := some seed } m = .ok () := by
      simp only [PoolConfig.validate, PoolConfig.ofModulus, if_neg htwo, if_neg hrange, ne_eq,
        not_true_eq_false, or_self, if_false]
    rw [h.party i, h.parties i, Pool.new, hvalid]
    simp only [Evaluator.dealt, Participant.new, h.party i, h.parties i]
    rfl
  evaluator := by
    simp [Evaluator.new, Evaluator.dealt, Participant.new]

/-- Nothing has happened yet. -/
theorem idle (h : Consistent data triples masks) (seeds : Fin n → Seed) :
    Idle (fun i => (data i).keyShare) triples masks
      (fun i => (Evaluator.dealt (data i) (seeds i)).participant.pool)
      fun i => .dealt (data i) (seeds i) where
  table := ⟨[], ⟨h.party, h.parties, fun _ => rfl, fun _ => rfl⟩, by simp⟩
  stock := h.stocked
  alike _ _ := rfl
  seats i := by
    refine ⟨rfl, 0, ?_⟩
    show Mailbox.new (data i).party (data i).parties = _
    rw [h.party i, h.parties i]
    exact Mailbox.new_eq_ofPeers (i + 1) n

end Consistent

/-- Data that differs only in what is handed out. -/
theorem Evaluator.dealt_supplied {d d' : DealtData m} (hparty : d.party = d'.party)
    (hparties : d.parties = d'.parties) (hkey : d.keyShare = d'.keyShare) (seed : Seed) :
    (Evaluator.dealt d seed).supplied (.dealt ⟨d'⟩) = Evaluator.dealt d' seed := by
  simp only [dealt, Participant.new, supplied, Participant.supplied, Pool.supplied, hparty,
    hparties, hkey]

/-- Dealings of the same keys differ only in what is handed out. -/
theorem Consistent.dealt_supplied {data data' : Fin n → DealtData m} {triples triples' : Nat}
    {masks masks' : Fin n → Nat} (h : Consistent data triples masks)
    (h' : Consistent data' triples' masks') (hkey : ∀ i, (data i).keyShare = (data' i).keyShare)
    (seeds : Fin n → Seed) (i : Fin n) :
    (Evaluator.dealt (data i) (seeds i)).supplied (.dealt ⟨data' i⟩) = .dealt (data' i) (seeds i) :=
  Evaluator.dealt_supplied ((h.party i).trans (h'.party i).symm)
    ((h.parties i).trans (h'.parties i).symm) (hkey i) (seeds i)

/-- Parties with consistent data accept what they see of a valid circuit. -/
theorem Consistent.validate {c : Circuit m} {views : Fin n → Circuit m} {data : Fin n → DealtData m}
    {triples : Nat} {masks : Fin n → Nat} (h : Consistent data triples masks)
    (valid : c.validate n = .ok ()) (shows : ∀ i : Fin n, c.Shows (i + 1) (views i))
    (seeds : Fin n → Seed) (i : Fin n) :
    (views i).validate (Evaluator.dealt (data i) (seeds i)).participant.pool.parties = .ok () := by
  have hparties : (Evaluator.dealt (data i) (seeds i)).participant.pool.parties = n := h.parties i
  rw [hparties]
  exact (shows i).validate valid

/-! ## §3 Around the gates -/

namespace Evaluator

/-- What is left of an evaluation when every node has its value. -/
def deliver (s : Schedule m) : Eval m (Outputs m) := do
  checkQuiescent
  let values ← ofExcept .circuit s.outputs
  let pool ← onPool get
  (if pool.opened.hasPending then run ({} : MacCheck m) else pure () : Eval m Unit)
  return ⟨values⟩

/-- Parties that have not agreed on a seed do so, and evaluate their gates. -/
theorem joint_evaluate {views : Fin n → Circuit m} {e e₁ : Fin n → Evaluator m}
    (hvalid : ∀ i, (views i).validate (e i).participant.pool.parties = .ok ())
    (hfresh : ∀ i, (e i).participant.pool.hasJointRandomness = false)
    {sent sent' : List (Fin n → List Frame)}
    (hseed : Joint (fun i => initializeJointRandomness (e i)) sent fun i => (.ok (), e₁ i))
    {results : Fin n → Except Fault (Outputs m) × Evaluator m}
    (hrest : Joint (fun i => (runGates (roundBudget (views i).size) (.new (views i)) [] >>= deliver
      : Eval m _) (e₁ i)) sent' results) :
    Joint (fun i => evaluate (views i) (e i)) (sent ++ sent') results := by
  refine Joint.congr ?_ fun i => congrFun (evaluate_eq (views i)) (e i)
  refine joint_step (fun i => onPool_get (e i)) ?_
  refine joint_step (fun i => by rw [hvalid i]; rfl) ?_
  refine joint_step (fun i => onPool_get (e i)) ?_
  exact joint_bind (hseed.congr fun i => by rw [hfresh i]; rfl) hrest

/-- Parties with their values check what they have opened. What they send then does not depend on
what is left of the material. -/
theorem joint_deliver [NeZero n] {σ : Setting m n} {y : Scene m n} (h : y.Complete σ) :
    ∃ sent : List (Fin n → List Frame),
      ∀ (s : Fin n → Schedule m) (values : Fin n → List (Value m)),
      (∀ i, (s i).outputs = .ok (values i)) → ∀ suppliers : Fin n → Supplier m, ∃ results,
        Joint (fun i => deliver (s i) ((y.evaluators i).supplied (suppliers i))) sent results := by
  obtain ⟨⟨waiting, midway⟩, -⟩ := h
  obtain ⟨pools, provided, seats⟩ := midway.seats
  obtain ⟨sent, -, e, hclose, -⟩ := close_joint provided seats
  have hblind : ∀ i, Blind (if (pools i).opened.hasPending then run ({} : MacCheck m) else pure ()
      : Eval m Unit) := by
    intro i
    split
    · exact blind_run MacCheck.blind _
    · exact .pure ()
  refine ⟨sent ++ [], fun s values hvalues suppliers =>
    ⟨fun i => (.ok ⟨values i⟩, (e i).supplied (suppliers i)), ?_⟩⟩
  refine joint_step (fun i => blind_checkQuiescent.finished (seats i).checkQuiescent _) ?_
  refine joint_step (fun i => by rw [hvalues i]; rfl) ?_
  refine joint_step (fun i => onPool_get _) ?_
  refine joint_bind ((Joint.supplied hblind hclose suppliers).congr fun i => ?_) (.finished _)
  have hopened : (y.evaluators i).participant.pool.opened = (pools i).opened :=
    congrArg Pool.opened (seats i).pool_eq
  rw [← hopened]
  rfl

end Evaluator

/-- Parties with consistent data agree on a seed, and are ready for the first round. -/
theorem Consistent.seeded [NeZero n] {σ : Setting m n} {data : Fin n → DealtData m}
    {triples : Nat} {masks : Fin n → Nat} (h : Consistent data triples masks)
    (hkey : ∀ i, (data i).keyShare = σ.key i)
    (htriples : σ.circuit.demand (·.triples) (Finset.range σ.circuit.size) + σ.triples ≤ triples)
    (hmasks : ∀ o, σ.circuit.demand (·.masks o) (Finset.range σ.circuit.size) + σ.masks o ≤ masks o)
    {views : Fin n → Circuit m} (shows : ∀ i : Fin n, σ.circuit.Shows (i + 1) (views i))
    (seeds : Fin n → Seed) :
    ∃ (sent : List (Fin n → List Frame)) (e : Fin n → Evaluator m),
      Joint (fun i => Evaluator.initializeJointRandomness (.dealt (data i) (seeds i))) sent
        (fun i => (.ok (), e i))
      ∧ σ.Midway (Finset.range σ.circuit.size) [] [] (fun i => .new (views i)) e
      ∧ ∀ i, (e i).participant.pool.opened = {} := by
  have hkeys : (fun i => (data i).keyShare) = σ.key := funext hkey
  have hidle := h.idle seeds
  have htable : Table σ.key [] fun i => (Evaluator.dealt (data i) (seeds i)).participant.pool :=
    ⟨h.party, h.parties, hkey, fun _ => rfl⟩
  obtain ⟨sent, g, joint, e, hjoint, hseat⟩ := Evaluator.initialize_joint htable hidle.seats
  have hstock := hidle.stock.mono htriples hmasks
  rw [hkeys] at hstock
  refine ⟨sent, e, hjoint, Setting.midway_new shows ?_ hseat, fun i => ?_⟩
  · exact ⟨⟨[], ⟨htable.party, htable.parties, htable.keyShare, htable.opened⟩, by simp⟩, hstock,
      fun i => rfl⟩
  · rw [(hseat i).pool_eq]
    rfl

/-- Two dealings of the same keys let the parties agree on a seed alike: the material has no part
in that. -/
theorem Consistent.seeding_supplied [NeZero n] {data data' : Fin n → DealtData m}
    {triples triples' : Nat} {masks masks' : Fin n → Nat} (h : Consistent data triples masks)
    (h' : Consistent data' triples' masks') (hkey : ∀ i, (data i).keyShare = (data' i).keyShare)
    {seeds : Fin n → Seed} {seeding : List (Fin n → List Frame)} {e : Fin n → Evaluator m}
    (joint : Joint (fun i => Evaluator.initializeJointRandomness (.dealt (data i) (seeds i)))
      seeding fun i => (.ok (), e i)) :
    Joint (fun i => Evaluator.initializeJointRandomness (.dealt (data' i) (seeds i))) seeding
      fun i => (.ok (), (e i).supplied (.dealt ⟨data' i⟩)) :=
  (Joint.supplied (fun _ => Evaluator.blind_initializeJointRandomness) joint _).congr fun i =>
    congrArg Evaluator.initializeJointRandomness (h.dealt_supplied h' hkey seeds i).symm

/-- What all nodes of a circuit need, of everything together. -/
def Circuit.allNeeds (n : Nat) (c : Circuit m) : Nat :=
  c.uses (·.triples) + ∑ o : Fin n, c.uses (·.masks o)

theorem Circuit.demand_triples_le {c : Circuit m} {spare count triples : Nat} (hspare : spare = 0)
    (hcount : c.allNeeds n ≤ count) :
    c.demand (·.triples) (Finset.range c.size) + spare ≤ triples + count := by
  rw [Circuit.demand_range, hspare]
  exact ((Nat.le_add_right _ _).trans hcount).trans (Nat.le_add_left _ _)

theorem Circuit.demand_masks_le {c : Circuit m} {spare masks : Fin n → Nat} {count : Nat}
    (hspare : ∀ o, spare o = 0) (hcount : c.allNeeds n ≤ count) (o : Fin n) :
    c.demand (·.masks o) (Finset.range c.size) + spare o ≤ masks o + count := by
  have hone : c.uses (·.masks o) ≤ ∑ o : Fin n, c.uses (·.masks o) := by
    rw [← Finset.add_sum_erase Finset.univ _ (Finset.mem_univ o)]
    exact Nat.le_add_right _ _
  rw [Circuit.demand_range, hspare o]
  exact ((hone.trans (Nat.le_add_left _ _)).trans hcount).trans (Nat.le_add_left _ _)

section

variable {σ σ' : Setting m n} {p j : Fin n} {data : Fin n → DealtData m} {triples : Nat}
  {masks : Fin n → Nat} {views views' : Fin n → Circuit m}

/-- The offsets that make up for the other inputs. -/
def Setting.offsets (σ σ' : Setting m n) (p : Fin n) (todo : List NodeId) : Offsets m :=
  .ofLists (σ.circuit.tripleGaps (gap σ.plains σ'.plains) todo)
    (σ.circuit.maskGaps (gap σ.plains σ'.plains) (p + 1) todo)

/-- With moved material the two evaluations begin as twins. -/
theorem Twins.begin [NeZero n] (twin : σ.Twin p σ') (h : Consistent data triples masks)
    (hkey : ∀ i, (data i).keyShare = σ.key i) (hzero : σ.triples = 0 ∧ ∀ o, σ.masks o = 0)
    (hzero' : σ'.triples = 0 ∧ ∀ o, σ'.masks o = 0)
    (shows : ∀ i : Fin n, σ.circuit.Shows (i + 1) (views i))
    (shows' : ∀ i : Fin n, σ'.circuit.Shows (i + 1) (views' i))
    (others : ∀ i ≠ p, views' i = views i) (seeds : Fin n → Seed) (todo : List NodeId) :
    ∃ (sent : List (Fin n → List Frame)) (x x' : Scene m n),
      Joint (fun i => Evaluator.initializeJointRandomness (.dealt (data i) (seeds i))) sent
        (fun i => (.ok (), x.actual i))
      ∧ Joint (fun i => Evaluator.initializeJointRandomness
          (.dealt (shift p (σ.offsets σ' p todo) data i) (seeds i))) sent
        (fun i => (.ok (), x'.actual i))
      ∧ (x.flights = [] ∧ ∀ i, x.schedules i = .new (views i))
      ∧ (x'.flights = [] ∧ ∀ i, x'.schedules i = .new (views' i))
      ∧ Twins σ σ' p todo x x' ∧ x.Due σ ∧ x'.Due σ'
      ∧ x.Timed { schedule := .new (views j) } [] j := by
  -- With this much more of everything, nothing runs out.
  let count := σ.circuit.allNeeds n + σ'.circuit.allNeeds n
  let full i := (data i).padded count
  let o := σ.offsets σ' p todo
  have hfull : Consistent full (triples + count) fun owner => masks owner + count := h.padded count
  have hmoved := hfull.shift p o
  have hkey' : ∀ i, (shift p o full i).keyShare = σ'.key i := fun i =>
    (keyShare_shift i).trans ((hkey i).trans (congrFun twin.key i).symm)
  have hcount : σ.circuit.allNeeds n ≤ count := Nat.le_add_right _ _
  have hcount' : σ'.circuit.allNeeds n ≤ count := Nat.le_add_left _ _
  obtain ⟨sent, e, hseed, midway, hopened⟩ := hfull.seeded hkey
    (Circuit.demand_triples_le hzero.1 hcount) (Circuit.demand_masks_le hzero.2 hcount) shows seeds
  obtain ⟨sent', e', hseed', midway', -⟩ := hmoved.seeded hkey'
    (Circuit.demand_triples_le hzero'.1 hcount') (Circuit.demand_masks_le hzero'.2 hcount')
    shows' seeds
  have hsupplier : ∀ i, (e i).supplier = .dealt ⟨full i⟩ :=
    Joint.supplier_eq (fun _ => Evaluator.blind_initializeJointRandomness) hseed
  -- The second evaluation is the first one with other suppliers.
  obtain ⟨rfl, hresults⟩ :=
    (hfull.seeding_supplied hmoved (fun i => (keyShare_shift i).symm) hseed).unique hseed'
  have he : ∀ i, e' i = (e i).supplied (.dealt ⟨shift p o full i⟩) :=
    fun i => congrArg Prod.snd (congrFun hresults i)
  have hsupplier' : ∀ i, (e' i).supplier = .dealt ⟨shift p o full i⟩ := fun i => by
    rw [he i]
    rfl
  refine ⟨sent', ⟨[], fun i => .new (views i), e, fun i => .dealt ⟨data i⟩⟩,
    ⟨[], fun i => .new (views' i), e', fun i => .dealt ⟨shift p o data i⟩⟩, ?_, ?_,
    ⟨rfl, fun _ => rfl⟩, ⟨rfl, fun _ => rfl⟩, ⟨fun _ _ => rfl, .nil, fun i hi => ?_, fun i hi => ?_,
      ?_, ?_, triples, masks, fun i => ?_, fun i => ?_⟩, ⟨_, midway⟩, ⟨_, midway'⟩,
    ⟨⟨rfl, rfl, rfl⟩, ⟨[], hopened j⟩, ?_⟩, .nil⟩
  · exact hfull.seeding_supplied h (fun _ => rfl) hseed
  · exact hmoved.seeding_supplied (h.shift p o)
      (fun i => (keyShare_shift i).trans (@keyShare_shift m n p o data i).symm) hseed'
  · dsimp only
    rw [others i hi]
  · dsimp only
    rw [he i, shift_of_ne hi, ← hsupplier i]
    rfl
  · dsimp only
    rw [hsupplier' p]
    exact he p
  · dsimp only
    rw [hsupplier p, hsupplier' p, ← funext hkey]
    exact hfull.moved_shift p _ _
  · dsimp only
    rw [hsupplier i]
    exact h.cutOff count i
  · dsimp only
    rw [hsupplier' i]
    exact h.cutOff_shift count p o i
  · dsimp only
    rw [hopened j]
    rfl

/-- Twins that have all values check what they have opened alike. -/
theorem Twins.deliver [NeZero n] {y y' : Scene m n} (h : Twins σ σ' p [] y y')
    (hdone : y.Complete σ) (hdone' : y'.Complete σ') :
    ∃ (sent : List (Fin n → List Frame))
        (results results' : Fin n → Except Fault (Outputs m) × Evaluator m),
      Joint (fun i => Evaluator.deliver (y.schedules i) (y.actual i)) sent results
      ∧ Joint (fun i => Evaluator.deliver (y'.schedules i) (y'.actual i)) sent results' := by
  obtain ⟨sent, hdeliver⟩ := Evaluator.joint_deliver hdone
  obtain ⟨⟨_, midway⟩, hready⟩ := hdone
  obtain ⟨⟨_, midway'⟩, hready'⟩ := hdone'
  obtain ⟨-, values, houtputs, -⟩ := midway.outputs hready
  obtain ⟨-, values', houtputs', -⟩ := midway'.outputs hready'
  obtain ⟨results, hjoint⟩ := hdeliver _ _ houtputs y.suppliers
  obtain ⟨results', hjoint'⟩ := hdeliver _ _ houtputs' y'.suppliers
  have hactual : ∀ i, y'.actual i = (y.evaluators i).supplied (y'.suppliers i) := fun i => by
    rw [Scene.actual, h.supplied_eq i]
    rfl
  exact ⟨sent, results, results', hjoint, hjoint'.congr fun i => congrArg _ (hactual i)⟩

/-- Twins exchange the same frames from the first round of gates to the end. -/
theorem Twins.runGates_deliver [NeZero n] (twin : σ.Twin p σ') (hj : j ≠ p) {budget : Nat}
    {t : Timetable m} {slots : List Slot} {x x' : Scene m n}
    (h : Twins σ σ' p (t.starts n budget slots) x x') (hdue : x.Due σ) (hdue' : x'.Due σ')
    (timed : x.Timed t slots j) :
    ∃ (sent : List (Fin n → List Frame))
        (results results' : Fin n → Except Fault (Outputs m) × Evaluator m),
      Joint (fun i => (Evaluator.runGates budget (x.schedules i) (x.flights.map (·.at i))
        >>= Evaluator.deliver : Eval m _) (x.actual i)) sent results
      ∧ Joint (fun i => (Evaluator.runGates budget (x'.schedules i) (x'.flights.map (·.at i))
        >>= Evaluator.deliver : Eval m _) (x'.actual i)) sent results' := by
  obtain ⟨sent, ⟨y, y', hjoint, hjoint', h₁, hdone, hdone'⟩
      | ⟨⟨fault, y, hjoint⟩, fault', y', hjoint'⟩⟩ := h.runGates twin hj hdue hdue' timed
  · obtain ⟨later, results, results', hrest, hrest'⟩ := h₁.deliver hdone hdone'
    exact ⟨sent ++ later, results, results', Evaluator.joint_bind hjoint hrest,
      Evaluator.joint_bind hjoint' hrest'⟩
  · exact ⟨sent, _, _, Evaluator.joint_bind_error hjoint, Evaluator.joint_bind_error hjoint'⟩

end

/-! ## §4 Two evaluations -/

/-- The same material, but for what one party holds of it. -/
def Material.SameBut (p : Fin n) (D D' : Material m n) : Prop :=
  (∀ i ≠ p, D'.1 i = D.1 i)
    ∧ ∃ triples masks plaintexts, D'.1 p = { D.1 p with triples, masks, plaintexts }

theorem Material.setUp (D : Material m n) (hn : 2 ≤ n) (i : Fin n) (seed entropy : Seed) :
    Evaluator.SetUp (D.1 i) seed entropy := by
  obtain ⟨triples, masks, h⟩ := D.2
  exact h.setUp hn i seed entropy

theorem Material.sameBut_shift (p : Fin n) (o : Offsets m) (D : Material m n) :
    D.SameBut p (Material.shift p o D) :=
  ⟨fun _ hi => shift_of_ne hi, _, _, _, shift_self⟩

/-- With this material of the one and that material of the other, the parties exchange the same
frames in the evaluations of both circuits, whatever seeds they begin with. -/
def SameFrames (views views' : Fin n → Circuit m) (D D' : Material m n) : Prop :=
  ∀ seeds : Fin n → Seed, ∃ (sent : List (Fin n → List Frame))
    (results results' : Fin n → Except Fault (Outputs m) × Evaluator m),
    Joint (fun i => Evaluator.evaluate (views i) (.dealt (D.1 i) (seeds i))) sent results
    ∧ Joint (fun i => Evaluator.evaluate (views' i) (.dealt (D'.1 i) (seeds i))) sent results'

/-- A party's own material can make up for a reassignment: what the parties send is the same. -/
def Hidden (p : Fin n) (views views' : Fin n → Circuit m) : Prop :=
  ∃ φ : Material m n ≃ Material m n, (∀ D : Material m n, D.SameBut p (φ D))
    ∧ ∀ D, SameFrames views views' D (φ D)

section

variable {p : Fin n} {c c' : Circuit m} {plains plains' : List (PlainValue m)}
  {views views' : Fin n → Circuit m} (hn : 2 ≤ n) (valid : c.validate n = .ok ())
  (valid' : c'.validate n = .ok ()) (kinded : c.WellKinded) (kinded' : c'.WellKinded)
  (computes : Plain.Computes c plains) (computes' : Plain.Computes c' plains')
  (shows : ∀ i : Fin n, c.Shows (i + 1) (views i))
  (shows' : ∀ i : Fin n, c'.Shows (i + 1) (views' i)) (others : ∀ i ≠ p, views' i = views i)

include hn valid valid' kinded kinded' computes computes' shows shows' others

/-- If every opening has the same number at its operand, moved material hides the rest. -/
theorem hidden_of_number_eq (reassigns : c.Reassigns (p + 1) c')
    (hgap : ∀ id x, c.operation? id = some (.reveal x) →
      Plain.number plains x = Plain.number plains' x) : Hidden p views views' := by
  have hnonzero : NeZero n := ⟨by omega⟩
  have hnontrivial : Nontrivial (Fin n) := Fin.nontrivial_iff_two_le.mpr hn
  obtain ⟨j, hj⟩ := exists_ne p
  let σ (key : Fin n → Element m) : Setting m n :=
    { key, circuit := c, plains, triples := 0, masks := fun _ => 0, valid, kinded, computes }
  let σ' (key : Fin n → Element m) : Setting m n :=
    { key, circuit := c', plains := plains', triples := 0, masks := fun _ => 0, valid := valid'
      kinded := kinded', computes := computes' }
  have twin : ∀ key, (σ key).Twin p (σ' key) := fun _ =>
    ⟨rfl, reassigns, fun id x hop => sub_eq_zero.mpr (hgap id x hop).symm⟩
  let todo := (views j).startOrder n
  refine ⟨Material.shift p ((σ 0).offsets (σ' 0) p todo), Material.sameBut_shift p _, ?_⟩
  rintro ⟨data, triples, masks, h⟩ seeds
  let key i := (data i).keyShare
  obtain ⟨seeding, x, x', hseed, hseed', hx, hx', h₁, hdue, hdue', timed⟩ :=
    Twins.begin (j := j) (twin key) h (fun _ => rfl) ⟨rfl, fun _ => rfl⟩ ⟨rfl, fun _ => rfl⟩ shows
      shows' others seeds todo
  obtain ⟨sent, results, results', hjoint, hjoint'⟩ := h₁.runGates_deliver (twin key) hj hdue hdue'
    timed
  have hsize : ∀ i, (views i).size = (views j).size := fun i =>
    (shows i).size_eq.trans (shows j).size_eq.symm
  have hsize' : ∀ i, (views' i).size = (views j).size := fun i =>
    (shows' i).size_eq.trans (reassigns.size_eq.trans (shows j).size_eq.symm)
  refine ⟨seeding ++ sent, results, results', ?_, ?_⟩
  · refine Evaluator.joint_evaluate (h.validate valid shows seeds) (fun _ => rfl) hseed
      (hjoint.congr fun i => ?_)
    rw [hx.1, hx.2 i, hsize i, List.map_nil]
  · refine Evaluator.joint_evaluate ((h.shift p _).validate valid' shows' seeds) (fun _ => rfl)
      hseed' (hjoint'.congr fun i => ?_)
    rw [hx'.1, hx'.2 i, hsize' i, List.map_nil]

end

/-- Reassigned inputs of a party do not show: if every opening node has the same value in the clear,
there is a bijection on consistent material that changes nothing but what the party itself holds
of it, and with material that corresponds the parties exchange the same frames in both
evaluations. The material need not suffice. -/
theorem evaluate_hides_inputs (prime : m ≠ .ring128) (hn : 2 ≤ n) (p : Fin n) {c c' : Circuit m}
    (valid : c.validate n = .ok ()) (kinded : c.WellKinded) (inputs : c.HasInputs)
    (inputs' : c'.HasInputs) (reassigns : c.Reassigns (p + 1) c')
    (opened : ∀ id x, c.Opens id x → c'.Opens id x) {views views' : Fin n → Circuit m}
    (shows : ∀ i : Fin n, c.Shows (i + 1) (views i))
    (shows' : ∀ i : Fin n, c'.Shows (i + 1) (views' i)) (others : ∀ i ≠ p, views' i = views i) :
    ∃ φ : Material m n ≃ Material m n, (∀ D : Material m n, D.SameBut p (φ D))
      ∧ ∀ (D : Material m n) (seeds : Fin n → Seed),
        ∃ (sent : List (Fin n → List Frame))
            (results results' : Fin n → Except Fault (Outputs m) × Evaluator m),
          Joint (fun i => Evaluator.evaluate (views i) (.dealt (D.1 i) (seeds i))) sent results
          ∧ Joint (fun i => Evaluator.evaluate (views' i) (.dealt ((φ D).1 i) (seeds i))) sent
            results' := by
  have valid' := reassigns.validate valid
  have kinded' := reassigns.wellKinded kinded
  obtain ⟨plains, heval, computes⟩ := Plain.evaluate_eq_ok valid kinded inputs
  obtain ⟨plains', heval', computes'⟩ := Plain.evaluate_eq_ok valid' kinded' inputs'
  obtain ⟨counts, hcounts⟩ := heval {}
  obtain ⟨counts', hcounts'⟩ := heval' {}
  refine hidden_of_number_eq hn valid valid' kinded kinded' computes computes' shows shows' others
    reassigns fun id x hop => ?_
  -- Over a prime modulus the value of an opening is the number at its operand.
  obtain ⟨op', hop', hre⟩ := reassigns.exists_operation hop
  obtain rfl := hre.eq (by simp)
  obtain ⟨_, plains₁, counts₁, -, heval₁, hplain⟩ :=
    opened id _ ⟨x, plains, counts, hop, hcounts, computes.reveal prime valid hop⟩
  rw [hcounts'] at heval₁
  cases heval₁
  rw [computes'.reveal prime valid' hop'] at hplain
  exact (PlainValue.scalar.inj (Option.some.inj hplain)).symm

/-- Nothing of a product with zero is opened but the zero. -/
theorem Circuit.opens_productCircuit {x z : Element .mersenne61} {id : NodeId} :
    (productCircuit (some x) (some 0)).Opens id z ↔ id = 3 ∧ z = 0 := by
  have heval : Plain.evaluate (productCircuit (some x) (some 0)) {}
      = .ok [.scalar x, .scalar 0, .scalar (x * 0), .scalar (x * 0).effective, .checked] ⟨1, 1⟩ :=
    rfl
  rw [mul_zero, Element.effective_eq_self (by decide)] at heval
  constructor
  · rintro ⟨operand, plains, counts, hop, hplains, hid⟩
    rw [heval] at hplains
    cases hplains
    have hid' : id = 3 := by
      match id with
      | 0 | 1 | 2 | 4 => simp [productCircuit, operation?] at hop
      | 3 => rfl
      | _ + 5 => simp [productCircuit, operation?] at hop
    subst hid'
    simpa using hid.symm
  · rintro ⟨rfl, rfl⟩
    exact ⟨2, _, _, rfl, heval, rfl⟩

/-- The material that the stocked pools were dealt. -/
def stockedMaterial : Material .mersenne61 2 :=
  ⟨fun i => ⟨2, i + 1, (stockedPool i).keyShare,
      [⟨wholeAtFirst i 2, wholeAtFirst i 3, wholeAtFirst i 6⟩,
        ⟨wholeAtFirst i 2, wholeAtFirst i 3, wholeAtFirst i 6⟩],
      [[wholeAtFirst i 10, wholeAtFirst i 11], [wholeAtFirst i 10, wholeAtFirst i 11]], [10, 11]⟩,
    2, fun _ => 2, fun _ => rfl, fun _ => rfl, fun _ => rfl, fun _ => rfl, fun _ => rfl,
    idle_stockedPool.stock⟩

/-- The product with zero, as a party sees it. -/
def productWithZero (x : Element .mersenne61) (i : Fin 2) : Circuit .mersenne61 :=
  if i.val = 0 then productCircuit (some x) none else productCircuit none (some 0)

/-- Two parties multiply with zero: nobody learns whether the other factor was 5 or 9. They can be
set up with the material in either case. -/
theorem evaluate_hides_inputs_product :
    ∃ D : Material .mersenne61 2, stockedMaterial.SameBut 0 D
      ∧ (∀ (i : Fin 2) (seed entropy : Seed), Evaluator.SetUp (stockedMaterial.1 i) seed entropy
        ∧ Evaluator.SetUp (D.1 i) seed entropy)
      ∧ ∀ seeds : Fin 2 → Seed, ∃ (sent : List (Fin 2 → List Frame))
          (results results' : Fin 2 → Except Fault (Outputs .mersenne61) × Evaluator .mersenne61),
        Joint (fun i => Evaluator.evaluate (productWithZero 5 i)
            (.dealt (stockedMaterial.1 i) (seeds i))) sent results
          ∧ Joint (fun i => Evaluator.evaluate (productWithZero 9 i) (.dealt (D.1 i) (seeds i)))
            sent results' := by
  have shows : ∀ (x : Element .mersenne61) (i : Fin 2),
      (productCircuit (some x) (some 0)).Shows (i + 1) (productWithZero x i) := by
    intro x i
    fin_cases i
    · exact (productCircuit_shows x 0).1
    · exact (productCircuit_shows x 0).2
  have reassigns :
      (productCircuit (some 5) (some 0)).Reassigns 1 (productCircuit (some 9) (some 0)) :=
    .cons (.input _ _) (.cons (.same _) (.cons (.same _) (.cons (.same _) (.cons (.same _) .nil))))
  obtain ⟨φ, hsame, hsent⟩ := evaluate_hides_inputs (by decide) (by decide) 0 (by decide)
    (wellKinded_productCircuit _ _) (hasInputs_productCircuit 5 0) (hasInputs_productCircuit 9 0)
    reassigns (fun id x h => Circuit.opens_productCircuit.mpr (Circuit.opens_productCircuit.mp h))
    (shows 5) (shows 9) fun i hi => by
      have hval : i.val ≠ 0 := Fin.val_ne_of_ne hi
      rw [productWithZero, productWithZero, if_neg hval, if_neg hval]
  exact ⟨φ stockedMaterial, hsame _, fun i seed entropy =>
    ⟨stockedMaterial.setUp (by decide) i seed entropy,
      (φ stockedMaterial).setUp (by decide) i seed entropy⟩, hsent stockedMaterial⟩

end JointCircuit
