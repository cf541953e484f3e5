/-
JointCircuit.Proofs.Gates — what honest parties compute at a node.

For every protocol that computes a node, §1 to §4 say what one party does
in its rounds, and that all parties begin it and end with parts of the
right value (`begins`). An opening that they record on the way has no
defect, so it does not disturb a later check.
-/
import JointCircuit.Protocol.Gate
import JointCircuit.Proofs.Supply

namespace JointCircuit

open scoped Fin.CommRing

variable {m : Modulus} {n : Nat} {key : Fin n → Element m}

/-- An opening without defect. -/
def Sound (key : Fin n → Element m) (o : Opening m n) : Prop :=
  defect key o = 0

theorem nextMask_apply {owner : Nat} {pool : Pool m} {mask : InputMask m} {supplier : Supplier m}
    (h : Supplier.nextMask owner pool.supplier = .ok mask supplier) :
    Pool.nextMask owner pool = .ok mask { pool with supplier } :=
  Action.within_ok h

theorem nextTriples_apply {count : Nat} {pool : Pool m} {triples : List (Triple m)}
    {supplier : Supplier m} (h : Supplier.nextTriples count pool.supplier = .ok triples supplier) :
    Pool.nextTriples count pool = .ok triples { pool with supplier } :=
  Action.within_ok h

/-! ## §1 Local operations -/

namespace Linear

/-- A local operation is over at once. -/
theorem begins {sound : Opening m n → Prop} (op : Fin n → LinearOp m) {pools : Fin n → Pool m}
    {openings : List (Opening m n)} (table : Table key openings pools) :
    Begins sound key (fun p : Fin n → Linear m =>
        ∀ i, (p i).output = some ((op i).apply (key i) (i + 1)))
      (fun i => { op := op i }) pools pools := by
  refine .done (fun i => { op := op i, output := some ((op i).apply (key i) (i + 1)) })
    (fun i => ?_) fun i => rfl
  intro party outgoing rest bytes
  show Linear.evaluate 0 _ = _
  simp [evaluate, table.keyShare i, table.party i]

end Linear

/-! ## §2 Inputs -/

namespace Input

variable {round : Nat} {p : Input m} {pool : Pool m} {mask : InputMask m} {supplier : Supplier m}

/-- The owner sends its value less the mask. -/
theorem turn_own (hown : pool.party = p.owner) {x r : Element m} (hvalue : p.value = some x)
    (hplain : mask.plaintext = some r)
    (hnext : Supplier.nextMask p.owner pool.supplier = .ok mask supplier) :
    Turn (n := n) (evaluate 0) p pool (fun _ => []) (.ok .more)
      { p with value := none, mask := some mask } { pool with supplier }
      fun _ => [Element.toBytes (x - r)] := by
  intro party outgoing rest bytes
  simp [evaluate, sendMasked, nextMask_apply hnext, hown, hvalue, hplain]

/-- The others only take their part of the mask. -/
theorem turn_other (hother : pool.party ≠ p.owner)
    (hnext : Supplier.nextMask p.owner pool.supplier = .ok mask supplier) :
    Turn (n := n) (evaluate 0) p pool (fun _ => []) (.ok .more)
      { p with mask := some mask } { pool with supplier } fun _ => [] := by
  intro party outgoing rest bytes
  simp [evaluate, sendMasked, nextMask_apply hnext, hother]

/-- Only the owner has sent something. -/
def fromOwner (owner : Fin n) (message : Bytes) : Fin n → Frame :=
  fun j => if j = owner then [message] else []

theorem receive_fromOwner (owner : Fin n) (message : Bytes) {party bytes : Nat}
    {outgoing rest : Fin n → Frame} :
    Mailbox.receive (owner + 1)
        (.ofPeers party outgoing (fun j => fromOwner owner message j ++ rest j) bytes)
      = .ok message (.ofPeers party outgoing rest bytes) := by
  have hqueue : fromOwner owner message owner ++ rest owner = message :: rest owner := by
    simp [fromOwner]
  have hrest : Function.update (fun j => fromOwner owner message j ++ rest j) owner (rest owner)
      = rest := by
    funext j
    by_cases hj : j = owner
    · subst hj
      rw [Function.update_self]
    · rw [Function.update_of_ne hj, fromOwner, if_neg hj, List.nil_append]
  have h := @Mailbox.receive_ofPeers n party bytes outgoing
    (fun j => fromOwner owner message j ++ rest j) owner message (rest owner) hqueue
  rw [h, hrest]

/-- The share that a masked value completes. -/
def complete (mask : InputMask m) (masked : Element m) (pool : Pool m) : AuthShare m :=
  mask.mask.addPublic masked pool.keyShare pool.party

/-- With two parties the masked value is not compared. -/
theorem turn_receive (h : needsValidation pool.parties = false) {owner : Fin n}
    (howner : p.owner = owner + 1) (hmask : p.mask = some mask) (masked : Element m) :
    Turn (evaluate 1) p pool (fromOwner owner masked.toBytes) (.ok .done)
      { p with mask := none, masked := none, output := some (complete mask masked pool) }
      pool fun _ => [] := by
  intro party outgoing rest bytes
  have hbytes : Element.ofBytes m masked.toBytes = .ok masked := Element.ofBytes_eq_ok_iff.mpr rfl
  simp [evaluate, howner, receive_fromOwner, hbytes, h, finish, hmask, complete]

theorem turn_digest (h : needsValidation pool.parties = true) {owner : Fin n}
    (howner : p.owner = owner + 1) (masked : Element m) :
    Turn (evaluate 1) p pool (fromOwner owner masked.toBytes) (.ok .more)
      { p with masked := some masked, digest := Digest.ofMessages [masked.toBytes] } pool
      fun _ => [Digest.ofMessages [masked.toBytes]] := by
  intro party outgoing rest bytes
  have hbytes : Element.ofBytes m masked.toBytes = .ok masked := Element.ofBytes_eq_ok_iff.mpr rfl
  simp [evaluate, howner, receive_fromOwner, hbytes, h, Round.sendDigest]

theorem turn_compare (round : Nat) (hmask : p.mask = some mask) {masked : Element m}
    (hmasked : p.masked = some masked) :
    Turn (n := n) (evaluate (round + 2)) p pool (fun _ => [p.digest]) (.ok .done)
      { p with mask := none, masked := none, output := some (complete mask masked pool) }
      pool fun _ => [] := by
  intro party outgoing rest bytes
  simp [evaluate, Round.compareDigests, finish, hmask, hmasked, complete]

/-- Once the masked value is on its way, everybody ends with a share. -/
theorem unison (owner : Fin n) (value : Fin n → Option (Element m)) (mask : Fin n → InputMask m)
    (masked : Element m) :
    Unison key (Finish fun p : Fin n → Input m => ∀ i, (p i).output
        = some ((mask i).mask.addPublic masked (key i) (i + 1)))
      (List.replicate (confirmations n + 1) .none) 1
      (fun i => { owner := owner + 1, value := value i, mask := some (mask i) })
      fun i _ => if i = owner then [masked.toBytes] else [] := by
  let done (i : Fin n) : Input m :=
    { owner := owner + 1
      value := value i
      output := some ((mask i).mask.addPublic masked (key i) (i + 1)) }
  let digest := Digest.ofMessages [masked.toBytes]
  have hcomplete : ∀ {openings : List (Opening m n)} {pools : Fin n → Pool m},
      Table key openings pools → ∀ i, complete (mask i) masked (pools i)
        = (mask i).mask.addPublic masked (key i) (i + 1) := by
    intro openings pools table i
    rw [complete, table.keyShare i, table.party i]
  cases hv : needsValidation n with
  | false =>
    have hcount : confirmations n = 0 := by simp [confirmations, hv]
    rw [hcount]
    refine Unison.of_done done (fun openings pools table i => ?_) fun i => rfl
    rw [← table.parties i] at hv
    have hturn := turn_receive
      (p := { owner := owner + 1, value := value i, mask := some (mask i) }) hv rfl rfl masked
    rw [hcomplete table i] at hturn
    exact hturn
  | true =>
    have hcount : confirmations n = 1 := by simp [confirmations, hv]
    rw [hcount]
    refine Unison.of_more
      (fun i => { owner := owner + 1, value := value i, mask := some (mask i),
                  masked := some masked, digest })
      (fun _ _ => [digest]) (fun openings pools table i => ?_)
      (Unison.of_done (fun i => { done i with digest }) (fun openings pools table i => ?_)
        fun i => rfl)
    · rw [← table.parties i] at hv
      exact turn_digest hv rfl masked
    · have hturn := @turn_compare m n
        ⟨owner + 1, value i, some (mask i), some masked, digest, none⟩ (pools i) (mask i) 0 rfl
        masked rfl
      rw [hcomplete table i] at hturn
      exact hturn

/-- All parties begin an input with the mask that lies ahead. -/
theorem begins {openings : List (Opening m n)} {pools : Fin n → Pool m}
    (table : Table key openings pools) {owner : Fin n} {value : Fin n → Option (Element m)}
    {x : Element m} (hvalue : value owner = some x) {mask : Fin n → InputMask m}
    (hmask : Shared.Mask key owner mask) {suppliers : Fin n → Supplier m}
    (hnext : ∀ i, Supplier.nextMask (owner + 1) (pools i).supplier = .ok (mask i) (suppliers i)) :
    Begins (Sound key) key (fun p : Fin n → Input m => ∃ parts, Shared key parts x
        ∧ ∀ i, (p i).output = some (parts i))
      (fun i => .new (owner + 1) (value i)) pools
      (fun i => { pools i with supplier := suppliers i }) := by
  have : NeZero n := ⟨fun h => (h ▸ owner).elim0⟩
  obtain ⟨r, hr, hplain⟩ := hmask
  let left (i : Fin n) : Option (Element m) := if i = owner then none else value i
  have hparts : Shared key (fun i => (mask i).mask.addPublic (x - r) (key i) (i + 1)) x := by
    have h := hr.addPublic (x - r)
    rw [add_sub_cancel] at h
    exact h
  refine .more (fun i => { owner := owner + 1, value := left i, mask := some (mask i) })
    (fun i _ => if i = owner then [(x - r).toBytes] else [])
    (List.replicate (confirmations n + 1) .none) (fun i => ?_)
    ((unison owner left mask (x - r)).mono fun answer p h => ⟨h.1, _, hparts, h.2⟩) ?_ ?_
  · by_cases hi : i = owner
    · subst hi
      have hturn := turn_own (n := n) (p := .new (i + 1) (value i)) (table.party i) hvalue hplain
        (hnext i)
      simp only [left, if_true]
      exact hturn
    · have hother : (pools i).party ≠ owner + 1 := by
        rw [table.party i]
        exact fun h => hi (Fin.ext (Nat.succ.inj h))
      have hturn := turn_other (n := n) (p := .new (owner + 1) (value i)) hother (hnext i)
      simp only [left, hi, if_false]
      exact hturn
  · have hle := confirmations_le n
    rw [List.length_replicate, lastRound]
    omega
  · intro effect heffect
    rw [List.eq_of_mem_replicate heffect]
    exact fun o ho => absurd ho List.not_mem_nil

end Input

/-! ## §3 Openings -/

namespace Reveal

variable {p : Reveal m} {pool : Pool m}

theorem turn_send (p : Reveal m) (pool : Pool m) :
    Turn (n := n) (evaluate 0) p pool (fun _ => []) (.ok .more) p pool
      fun _ => [p.share.share.toBytes] := by
  intro party outgoing rest bytes
  simp [evaluate]

/-- The parts of all parties add up to the value, which is recorded. -/
theorem turn_open (round : Nat) (hstep : pool.opened.shares.length = pool.opened.values.length)
    (parts : Fin n → Element m) :
    Turn (evaluate (round + 1)) p pool (fun j => [(parts j).toBytes]) (.ok .done)
      { p with output := some (∑ i, parts i).effective }
      { pool with
        opened :=
          { shares := pool.opened.shares ++ [p.share]
            values := pool.opened.values ++ [∑ i, parts i] } }
      fun _ => [] := by
  intro party outgoing rest bytes
  have hpush : Pool.pushOpened [p.share] [∑ i, parts i] pool = _ :=
    Pool.pushOpened_apply hstep rfl
  simp [evaluate, sumEncoded_ofFn, hpush]

/-- All parties open a shared value. -/
theorem begins {part : Fin n → AuthShare m} {x : Element m} (h : Shared key part x)
    (pools : Fin n → Pool m) :
    Begins (Sound key) key (fun p : Fin n → Reveal m => ∀ i, (p i).output = some x.effective)
      (fun i => { share := part i }) pools pools := by
  refine .more (fun i => { share := part i }) (fun i _ => [(part i).share.toBytes])
    [.push [fun i => (part i, x)]] (fun i => turn_send _ _)
    (Unison.of_done (fun i => { share := part i, output := some x.effective })
      (fun openings pools table i => ?_) fun i => rfl) (by simp [lastRound]) ?_
  · have hstep : (pools i).opened.shares.length = (pools i).opened.values.length := by
      rw [table.opened i]
      simp [openedAt]
    have hturn := turn_open (p := { share := part i }) 0 hstep fun j => (part j).share
    rw [h.share] at hturn
    exact hturn
  · intro effect heffect
    rw [List.mem_singleton.mp heffect]
    intro o ho
    rw [List.mem_singleton.mp ho]
    exact h.defect_eq_zero

end Reveal

/-! ## §4 Products -/

namespace MultiplyBatch

variable {pool : Pool m}

/-- The payloads of all parties open position by position. -/
theorem openPayloads_encodeAll (xs : List (Fin n → Element m)) :
    openPayloads m xs.length (List.ofFn fun i => Element.encodeAll (xs.map (· i)))
      = .ok (xs.map fun x => ∑ i, x i) := by
  have hfold : ∀ (parties : List (Fin n)) (sums : (Fin n → Element m) → Element m),
      (parties.map fun i => Element.encodeAll (xs.map (· i))).foldlM
        (fun sums payload => (List.zipWith (· + ·) sums ·)
          <$> Element.decodeAll m xs.length payload) (xs.map sums)
        = (.ok (xs.map fun x => sums x + (parties.map x).sum) : Except WireError _) := by
    intro parties
    induction parties with
    | nil => intro sums; simp [pure, Except.pure]
    | cons i parties ih =>
      intro sums
      have hdecode : Element.decodeAll m xs.length (Element.encodeAll (xs.map (· i)))
          = .ok (xs.map (· i)) := by
        have h := Element.decodeAll_encodeAll (xs.map (· i))
        rw [List.length_map] at h
        exact h
      have hzip : List.zipWith (· + ·) (xs.map sums) (xs.map (· i))
          = xs.map fun x => sums x + x i := by
        rw [List.zipWith_map, List.zipWith_self]
      rw [List.map_cons, List.foldlM_cons, hdecode]
      show (parties.map _).foldlM _ (List.zipWith (· + ·) (xs.map sums) (xs.map (· i))) = _
      rw [hzip, ih]
      simp only [List.map_cons, List.sum_cons, add_assoc]
  have hzero : List.replicate xs.length (0 : Element m) = xs.map fun _ => 0 := by
    rw [List.map_const']
  rw [openPayloads, hzero, List.ofFn_eq_map, hfold]
  simp only [zero_add, ← List.ofFn_eq_map, List.sum_ofFn]

/-- The masked operands of all parties, in pair order. -/
def masked (pairs : List (Fin n → AuthShare m × AuthShare m)) (triples : List (Fin n → Triple m)) :
    List (Fin n → AuthShare m) :=
  (pairs.zip triples).flatMap fun e =>
    [fun i => (e.1 i).1 - (e.2 i).a, fun i => (e.1 i).2 - (e.2 i).b]

/-- What the masked operands are opened to. -/
def openingsOf (masked : List (Fin n → AuthShare m)) : List (Opening m n) :=
  masked.map fun part i => (part i, ∑ j, (part j).share)

/-- The products of all parties, in pair order. -/
def products (key : Fin n → Element m) (pairs : List (Fin n → AuthShare m × AuthShare m))
    (triples : List (Fin n → Triple m)) : List (Fin n → AuthShare m) :=
  (pairs.zip triples).map fun e i => product (key i) (i + 1) (e.2 i)
    (∑ j, ((e.1 j).1 - (e.2 j).a).share, ∑ j, ((e.1 j).2 - (e.2 j).b).share)

variable {pairs : List (Fin n → AuthShare m × AuthShare m)} {triples : List (Fin n → Triple m)}

theorem maskedOperands_at (i : Fin n) :
    ({ pairs := pairs.map (· i), triples := triples.map (· i) } : MultiplyBatch m).maskedOperands
      = (masked pairs triples).map (· i) := by
  rw [maskedOperands, masked, List.zip_map, List.flatMap_map, List.map_flatMap]
  rfl

theorem length_masked (h : triples.length = pairs.length) :
    (masked pairs triples).length = 2 * pairs.length := by
  rw [masked, List.length_flatMap]
  simp [h, Nat.mul_comm]

theorem pairUp_flatMap {α β : Type} (f g : α → β) (xs : List α) :
    pairUp (xs.flatMap fun x => [f x, g x]) = xs.map fun x => (f x, g x) := by
  induction xs with
  | nil => rfl
  | cons x xs ih => simp [pairUp, ih]

theorem zipWith_product (i : Fin n) (h : triples.length = pairs.length) :
    List.zipWith (product (key i) (i + 1)) (triples.map (· i))
        (pairUp ((masked pairs triples).map fun part => ∑ j, (part j).share))
      = (products key pairs triples).map (· i) := by
  rw [masked, List.map_flatMap]
  simp only [List.map_cons, List.map_nil]
  rw [pairUp_flatMap, products, List.map_map]
  refine List.ext_getElem ?_ fun k _ _ => ?_
  · simp [h]
  · simp

/-- The masked operands are sent as one payload. -/
theorem turn_send {pairs : List (AuthShare m × AuthShare m)} (hne : pairs ≠ [])
    {triples : List (Triple m)} {supplier : Supplier m}
    (hnext : Supplier.nextTriples pairs.length pool.supplier = .ok triples supplier) :
    Turn (n := n) (evaluate 0) { pairs } pool (fun _ => []) (.ok .more) { pairs, triples }
      { pool with supplier }
      fun _ => [Element.encodeAll (({ pairs, triples } : MultiplyBatch m).maskedOperands.map
        (·.share))] := by
  intro party outgoing rest bytes
  simp [evaluate, hne, nextTriples_apply hnext]

/-- Whatever was received, if it opens, the masked operands are recorded with the values that it
opens to, and the products are made of them. -/
theorem turn_received (round : Nat) {p : MultiplyBatch m} (hne : p.pairs ≠ [])
    (hlength : p.triples.length = p.pairs.length)
    (hstep : pool.opened.shares.length = pool.opened.values.length) {payload : Fin n → Bytes}
    {sums : List (Element m)}
    (hopen : openPayloads m (2 * p.pairs.length) (List.ofFn payload) = .ok sums)
    (hsums : sums.length = 2 * p.pairs.length) :
    Turn (evaluate (round + 1)) p pool (fun j => [payload j]) (.ok .done)
      { p with
        output := some (List.zipWith (product pool.keyShare pool.party) p.triples (pairUp sums)) }
      { pool with opened := { shares := pool.opened.shares ++ p.maskedOperands
                              values := pool.opened.values ++ sums } } fun _ => [] := by
  intro party outgoing rest bytes
  have hempty : p.pairs.isEmpty = false := by simpa using hne
  have hpush := Pool.pushOpened_apply hstep ((length_maskedOperands hlength).trans hsums.symm)
  simp only [evaluate, Action.bind_apply, Round.protocol_apply, hempty, Bool.false_eq_true,
    if_false, Round.mailbox_apply, List.singleton_append, Mailbox.receiveFromAll_ofPeers, hopen,
    Action.ofExcept_ok, Round.pool_apply, hpush, Action.get_apply, Round.update_apply,
    Action.pure_apply, Action.outcome_ok, List.append_nil]

/-- The payloads of all parties open the masked operands, which are recorded. -/
theorem turn_open (round : Nat) (i : Fin n) (hne : pairs ≠ [])
    (hlength : triples.length = pairs.length) (hkey : pool.keyShare = key i)
    (hparty : pool.party = i + 1)
    (hstep : pool.opened.shares.length = pool.opened.values.length) :
    Turn (evaluate (round + 1)) { pairs := pairs.map (· i), triples := triples.map (· i) } pool
      (fun j => [Element.encodeAll ((masked pairs triples).map fun part => (part j).share)])
      (.ok .done)
      { pairs := pairs.map (· i)
        triples := triples.map (· i)
        output := some ((products key pairs triples).map (· i)) }
      ((Effect.push (openingsOf (masked pairs triples))).apply i pool) fun _ => [] := by
  have hopen := openPayloads_encodeAll ((masked pairs triples).map fun part j => (part j).share)
  simp only [List.length_map, length_masked hlength, List.map_map, Function.comp_def] at hopen
  have hopened : openedAt i (openingsOf (masked pairs triples))
      = { shares := (masked pairs triples).map (· i)
          values := (masked pairs triples).map fun part => ∑ j, (part j).share } := by
    simp [openedAt, openingsOf, Function.comp_def]
  have hproducts : List.zipWith (product (key i) (i + 1)) (triples.map (· i))
        (pairUp ((masked pairs triples).map fun part => ∑ j, (part j).share))
      = (products key pairs triples).map (· i) := zipWith_product i hlength
  rw [← hkey, ← hparty] at hproducts
  have h := turn_received (p := { pairs := pairs.map (· i), triples := triples.map (· i) }) round
    (by simpa using hne) (by simpa using hlength) hstep
    (by rw [List.length_map]; exact hopen) (by simp [length_masked hlength])
  rw [hproducts, maskedOperands_at] at h
  simp only [Effect.apply, hopened]
  exact h

/-- Pairs of shared values. -/
def SharedPairs (key : Fin n → Element m) (pairs : List (Fin n → AuthShare m × AuthShare m))
    (values : List (Element m × Element m)) : Prop :=
  List.Forall₂ (fun pair v =>
    Shared key (fun i => (pair i).1) v.1 ∧ Shared key (fun i => (pair i).2) v.2) pairs values

variable {values : List (Element m × Element m)}

/-- Masked operands are shared values. -/
theorem masked_shared (hpairs : SharedPairs key pairs values)
    (htriples : ∀ t ∈ triples, Shared.Triple key t) :
    ∀ part ∈ masked pairs triples, Shared key part (∑ j, (part j).share) := by
  intro part hpart
  obtain ⟨⟨pair, t⟩, hmem, hcases⟩ := List.mem_flatMap.mp hpart
  obtain ⟨hpair, ht⟩ := List.of_mem_zip hmem
  obtain ⟨a, b, ha, hb, -⟩ := htriples t ht
  obtain ⟨v, hv⟩ : ∃ v : Element m × Element m,
      Shared key (fun i => (pair i).1) v.1 ∧ Shared key (fun i => (pair i).2) v.2 := by
    obtain ⟨k, hk, rfl⟩ := List.mem_iff_getElem.mp hpair
    have hk' : k < values.length := hpairs.length_eq ▸ hk
    exact ⟨values[k], hpairs.get hk hk'⟩
  rcases List.mem_cons.mp hcases with rfl | hcases
  · have h := hv.1.sub ha
    exact ⟨rfl, by rw [h.mac, h.share]⟩
  · obtain rfl := List.mem_singleton.mp hcases
    have h := hv.2.sub hb
    exact ⟨rfl, by rw [h.mac, h.share]⟩

/-- The products are shared in pair order. -/
theorem products_shared [NeZero n] (hpairs : SharedPairs key pairs values)
    (htriples : ∀ t ∈ triples, Shared.Triple key t) (hlength : triples.length = pairs.length) :
    List.Forall₂ (Shared key) (products key pairs triples) (values.map fun v => v.1 * v.2) := by
  induction hpairs generalizing triples with
  | nil => exact .nil
  | @cons pair v pairs values hpair _ ih =>
    obtain ⟨t, triples, rfl⟩ : ∃ t ts, triples = t :: ts :=
      List.exists_cons_of_length_eq_add_one hlength
    obtain ⟨a, b, ha, hb, hc⟩ := htriples t List.mem_cons_self
    have hε := (hpair.1.sub ha).share
    have hδ := (hpair.2.sub hb).share
    refine .cons ?_
      (ih (fun t ht => htriples t (List.mem_cons_of_mem _ ht)) (by simpa using hlength))
    simp only [hε, hδ]
    exact Shared.product ha hb hc v.1 v.2

/-- An empty batch is over at once. -/
theorem begins_empty (pools : Fin n → Pool m) :
    Begins (Sound key) key (fun p : Fin n → MultiplyBatch m => ∀ i, (p i).output = some [])
      (fun _ => { pairs := [] }) pools pools := by
  refine .done (fun _ => { pairs := [], output := some [] }) (fun i => ?_) fun _ => rfl
  intro party outgoing rest bytes
  show MultiplyBatch.evaluate 0 _ = _
  simp [evaluate]

/-- All parties begin a batch of products with the triples that lie ahead. -/
theorem begins [NeZero n] (hne : pairs ≠ []) (hpairs : SharedPairs key pairs values)
    (htriples : ∀ t ∈ triples, Shared.Triple key t) (hlength : triples.length = pairs.length)
    {pools : Fin n → Pool m} {suppliers : Fin n → Supplier m}
    (hnext : ∀ i, Supplier.nextTriples pairs.length (pools i).supplier
      = .ok (triples.map (· i)) (suppliers i)) :
    Begins (Sound key) key (fun p : Fin n → MultiplyBatch m => ∃ parts,
        List.Forall₂ (Shared key) parts (values.map fun v => v.1 * v.2)
        ∧ ∀ i, (p i).output = some (parts.map (· i)))
      (fun i => { pairs := pairs.map (· i) }) pools
      (fun i => { pools i with supplier := suppliers i }) := by
  have hproducts := products_shared hpairs htriples hlength
  let sent (i : Fin n) : MultiplyBatch m :=
    { pairs := pairs.map (· i), triples := triples.map (· i) }
  refine .more sent
    (fun i _ => [Element.encodeAll ((masked pairs triples).map fun part => (part i).share)])
    [.push (openingsOf (masked pairs triples))] (fun i => ?_)
    (Unison.of_done
      (fun i => { sent i with output := some ((products key pairs triples).map (· i)) })
      (fun openings pools table i => ?_) ⟨_, hproducts, fun i => rfl⟩) (by simp [lastRound]) ?_
  · have hpairs_ne : pairs.map (· i) ≠ [] := by simpa using hne
    have hcount : (pairs.map (· i)).length = pairs.length := List.length_map _
    have hturn := turn_send (n := n) hpairs_ne (by rw [hcount]; exact hnext i)
    rw [maskedOperands_at, List.map_map] at hturn
    exact hturn
  · have hstep : (pools i).opened.shares.length = (pools i).opened.values.length := by
      rw [table.opened i]
      simp [openedAt]
    exact turn_open 0 i hne hlength (table.keyShare i) (table.party i) hstep
  · intro effect heffect
    rw [List.mem_singleton.mp heffect]
    intro o ho
    obtain ⟨part, hpart, rfl⟩ := List.mem_map.mp ho
    exact (masked_shared hpairs htriples part hpart).defect_eq_zero

end MultiplyBatch

/-- A protocol that evaluates another one and wraps what is left of it. -/
theorem turn_of_within {π τ α : Type} {act : Round m π α} {outer : Round m τ α} {wrap : π → τ}
    (h : ∀ p w, outer (wrap p, w) = Round.within p (fun q _ => wrap q) act (wrap p, w))
    {p p' : π} {pool pool' : Pool m} {takes gives : Fin n → Frame} {answer : Except Fault α}
    (turn : Turn act p pool takes answer p' pool' gives) :
    Turn outer (wrap p) pool takes answer (wrap p') pool' gives := by
  intro party outgoing rest bytes
  rw [h, Round.within_apply, turn party outgoing rest bytes]
  cases answer <;> rfl

namespace Multiply

/-- A single product is a batch of one. -/
theorem begins [NeZero n] {x y : Fin n → AuthShare m} {u v : Element m} (hx : Shared key x u)
    (hy : Shared key y v) {t : Fin n → Triple m} (ht : Shared.Triple key t)
    {pools : Fin n → Pool m} {suppliers : Fin n → Supplier m}
    (hnext : ∀ i, Supplier.nextTriples 1 (pools i).supplier = .ok [t i] (suppliers i)) :
    Begins (Sound key) key (fun p : Fin n → Multiply m => ∃ parts, Shared key parts (u * v)
        ∧ ∀ i, (p i).out.1 = some (parts i))
      (fun i => .new (x i) (y i)) pools (fun i => { pools i with supplier := suppliers i }) := by
  have hpairs : MultiplyBatch.SharedPairs key [fun i => (x i, y i)] [(u, v)] :=
    .cons ⟨hx, hy⟩ .nil
  have htriples : ∀ u ∈ [t], Shared.Triple key u := by simpa using ht
  have hbatch := MultiplyBatch.begins (List.cons_ne_nil _ _) hpairs htriples rfl hnext
  refine hbatch.lift Multiply.mk
    (fun round p pool takes answer p' pool' gives => turn_of_within fun p w => rfl) ?_
  rintro p ⟨parts, hparts, hout⟩
  cases hparts with
  | cons hpart hnil =>
    cases hnil
    exact ⟨_, hpart, fun i => by simp [out, MultiplyBatch.out, hout i]⟩

end Multiply

/-! ## §5 Checks -/

namespace MacCheck

/-- What a check drains is gone from the store. -/
theorem table_drained {openings : List (Opening m n)} {pools : Fin n → Pool m}
    (table : Table key openings pools) (generators : Fin n → Generator) :
    Table key [] fun i =>
      { pools i with opened := {}, localGenerator := generators i } :=
  ⟨table.party, table.parties, table.keyShare, fun _ => rfl⟩

/-- All parties begin a check of consistent openings, which they will accept. -/
theorem begins {openings : List (Opening m n)} (hsound : ∀ o ∈ openings, Sound key o)
    {pools : Fin n → Pool m} (table : Table key openings pools) :
    ∃ generators : Fin n → Generator,
      Begins (Sound key) key (fun p : Fin n → MacCheck m => ∀ i, (p i).output = some ())
        (fun _ => {}) pools
        fun i => { pools i with opened := {}, localGenerator := generators i } := by
  by_cases hempty : openings = []
  · have hopened : ∀ i, (pools i).opened = {} := fun i => by
      rw [table.opened i, hempty]
      rfl
    refine ⟨fun i => (pools i).localGenerator, .done
      (fun _ => { phase := .finished, output := some () }) (fun i => ?_) fun i => rfl⟩
    rw [← hopened i]
    exact turn_empty 0 (hopened i)
  · refine ⟨fun i => CoinToss.afterDraws (pools i).localGenerator, ?_⟩
    refine .more (fun i => begun (openedAt i openings) (CoinToss.ownSeed (pools i).localGenerator)
        (CoinToss.ownRandomness (pools i).localGenerator) 0)
      (fun i _ => [Digest.commitment ((CoinToss.ownSeed (pools i).localGenerator).toList
        ++ CoinToss.ownRandomness (pools i).localGenerator)])
      _ (fun i => ?_)
      ((unison key openings _ _ (fun i => length_bytes _ _) 0).mono fun answer p hlast => ?_)
      (length_effects _) ?_
    · have hshares : (pools i).opened.shares ≠ [] := by
        rw [table.opened i]
        simpa [openedAt] using hempty
      rw [← table.opened i]
      exact turn_begin 0 hshares
    · rw [Decides, if_pos (combinedDefect_eq_zero hsound _)] at hlast
      exact hlast
    · intro effect heffect o ho
      simp only [effects, List.mem_append, List.mem_replicate, List.mem_cons, List.not_mem_nil,
        or_false] at heffect
      rcases heffect with ⟨-, rfl⟩ | rfl | ⟨-, rfl⟩ | rfl <;> exact absurd ho List.not_mem_nil

end MacCheck

end JointCircuit
