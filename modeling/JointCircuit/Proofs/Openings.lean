/-
JointCircuit.Proofs.Openings — products whose openings are not what was sent.

A batch of products believes the payloads that it receives. Whatever they
are, as long as they are well-formed and all parties receive the same,
each pair ends as a sharing of the product of its triple's operands, each
shifted by what the payloads add up to; and the store of opened values
gains two entries for each pair, whose defects are the key times what the
opened values are off by. §1 deals with lists that hold two members for
each pair (`byPair`). Main statement: `MultiplyBatch.turns_of_received`.
-/
import JointCircuit.Proofs.Gates

namespace JointCircuit

open scoped Fin.CommRing

variable {m : Modulus} {n k : Nat}

/-! ## §1 Two members for each pair -/

section ByPair

variable {α β : Type}

/-- The members of `f` and `g` in turn: those of pair 0, then those of pair 1. -/
def byPair (f g : Fin k → α) : List α :=
  (List.finRange k).flatMap fun j => [f j, g j]

theorem byPair_succ (f g : Fin (k + 1) → α) :
    byPair f g = f 0 :: g 0 :: byPair (fun j => f j.succ) fun j => g j.succ := by
  rw [byPair, List.finRange_succ, List.flatMap_cons, List.flatMap_map]
  rfl

@[simp] theorem length_byPair (f g : Fin k → α) : (byPair f g).length = 2 * k := by
  simp [byPair, List.length_flatMap, List.map_const', Nat.mul_comm]

@[simp] theorem map_byPair (h : α → β) (f g : Fin k → α) :
    (byPair f g).map h = byPair (fun j => h (f j)) fun j => h (g j) := by
  rw [byPair, List.map_flatMap]
  rfl

theorem pairUp_byPair (f g : Fin k → α) : pairUp (byPair f g) = List.ofFn fun j => (f j, g j) := by
  rw [byPair, MultiplyBatch.pairUp_flatMap, List.ofFn_eq_map]

/-- Every list of even length holds two members for each pair. -/
theorem eq_byPair (d : α) {xs : List α} (h : xs.length = 2 * k) :
    xs = byPair (fun j : Fin k => xs.getD (2 * j) d) fun j => xs.getD (2 * j + 1) d := by
  induction k generalizing xs with
  | zero => exact List.length_eq_zero_iff.mp h
  | succ k ih =>
    match xs, h with
    | u :: v :: xs, h =>
      have hxs : xs.length = 2 * k := by simp only [List.length_cons] at h; omega
      rw [byPair_succ]
      exact congrArg (fun l => u :: v :: l) (ih hxs)

end ByPair

namespace MultiplyBatch

/-! ## §2 What the payloads open to -/

/-- What the payloads of all parties add up to at one position. -/
def openedTo (elements : Fin n → List (Element m)) (position : Nat) : Element m :=
  ∑ i, (elements i).getD position 0

/-- Well-formed payloads open position by position, whatever they hold. -/
theorem openPayloads_eq {elements : Fin n → List (Element m)}
    (h : ∀ i, (elements i).length = 2 * k) :
    openPayloads m (2 * k) (List.ofFn fun i => Element.encodeAll (elements i))
      = .ok (byPair (fun j : Fin k => openedTo elements (2 * j))
          fun j => openedTo elements (2 * j + 1)) := by
  let xs : List (Fin n → Element m) :=
    byPair (fun (j : Fin k) i => (elements i).getD (2 * j) 0)
      fun j i => (elements i).getD (2 * j + 1) 0
  have hxs : ∀ i, elements i = xs.map (· i) := by
    intro i
    rw [map_byPair]
    exact eq_byPair 0 (h i)
  have hopen := openPayloads_encodeAll xs
  simp only [← hxs] at hopen
  rw [length_byPair, map_byPair] at hopen
  exact hopen

/-- The masked operands of a party that holds these pairs and triples. -/
theorem maskedOperands_ofFn (x y : Fin k → AuthShare m) (t : Fin k → Triple m) :
    ({ pairs := List.ofFn fun j => (x j, y j), triples := List.ofFn t } :
        MultiplyBatch m).maskedOperands
      = byPair (fun j => x j - (t j).a) fun j => y j - (t j).b := by
  rw [maskedOperands, List.ofFn_eq_map, List.ofFn_eq_map, List.zip_map', List.flatMap_map]
  rfl

/-! ## §3 The two rounds of a batch -/

variable {x y : Fin k → AuthShare m} {t : Fin k → Triple m} {pool : Pool m}

/-- Round 0 takes a triple for each pair and sends the masked operands to everybody. -/
theorem turn_send_ofFn (hk : 0 < k) {supplier : Supplier m}
    (hnext : Supplier.nextTriples k pool.supplier = .ok (List.ofFn t) supplier) :
    Turn (n := n) (evaluate 0) { pairs := List.ofFn fun j => (x j, y j) } pool (fun _ => [])
      (.ok .more) { pairs := List.ofFn fun j => (x j, y j), triples := List.ofFn t }
      { pool with supplier }
      fun _ => [Element.encodeAll
        (byPair (fun j => (x j - (t j).a).share) fun j => (y j - (t j).b).share)] := by
  have hne : (List.ofFn fun j => (x j, y j)) ≠ [] := by simpa using hk.ne'
  have hturn := turn_send (n := n) hne (by rw [List.length_ofFn]; exact hnext)
  rw [maskedOperands_ofFn, map_byPair] at hturn
  exact hturn

/-- Round 1 makes the products of what was received, and records it. -/
theorem turn_received_ofFn (hk : 0 < k)
    (hpaired : pool.opened.shares.length = pool.opened.values.length)
    {elements : Fin n → List (Element m)} (h : ∀ i, (elements i).length = 2 * k) :
    let ε' (j : Fin k) := openedTo elements (2 * j)
    let δ' (j : Fin k) := openedTo elements (2 * j + 1)
    Turn (evaluate 1) { pairs := List.ofFn fun j => (x j, y j), triples := List.ofFn t } pool
      (fun j => [Element.encodeAll (elements j)]) (.ok .done)
      { pairs := List.ofFn fun j => (x j, y j)
        triples := List.ofFn t
        output := some (List.ofFn fun j => product pool.keyShare pool.party (t j) (ε' j, δ' j)) }
      { pool with opened :=
        { shares := pool.opened.shares ++ byPair (fun j => x j - (t j).a) fun j => y j - (t j).b
          values := pool.opened.values ++ byPair ε' δ' } }
      fun _ => [] := by
  intro ε' δ'
  have hne : (List.ofFn fun j => (x j, y j)) ≠ [] := by simpa using hk.ne'
  have hturn := turn_received (n := n)
    (p := { pairs := List.ofFn fun j => (x j, y j), triples := List.ofFn t }) 0 hne (by simp)
    hpaired (by rw [List.length_ofFn]; exact openPayloads_eq h) (by simp)
  have hproducts : List.zipWith (product pool.keyShare pool.party) (List.ofFn t)
      (pairUp (byPair ε' δ'))
      = List.ofFn fun j => product pool.keyShare pool.party (t j) (ε' j, δ' j) := by
    rw [pairUp_byPair, List.ofFn_eq_map, List.ofFn_eq_map, List.ofFn_eq_map, List.zipWith_map,
      List.zipWith_self]
  rw [maskedOperands_ofFn, hproducts] at hturn
  exact hturn

/-! ## §4 All parties -/

/-- **A batch computes what its openings say.** `n` parties multiply `k` pairs of shared values
with as many triples. Round 0 sends the masked operands. In round 1 all parties receive the same
well-formed payloads, whoever made them and whatever happened to the pools in between; they add up
to `ε' j` and `δ' j` for pair `j`. Then every party is done, and

* the products of pair `j` share the value `(a j + ε' j) * (b j + δ' j)`, so they share the product
  of the pair if both are opened to the masked operands;
* the store gains two entries for each pair, in pair order, with the own masked operands as shares
  and `ε' j`, `δ' j` as values; their defects are the key times what these values are off by. -/
theorem turns_of_received [NeZero n] {key : Fin n → Element m} (hk : 0 < k)
    {x y : Fin k → Fin n → AuthShare m} {X Y : Fin k → Element m}
    (hx : ∀ j, Shared key (x j) (X j)) (hy : ∀ j, Shared key (y j) (Y j))
    {t : Fin k → Fin n → Triple m} {a b : Fin k → Element m}
    (ha : ∀ j, Shared key (fun i => (t j i).a) (a j))
    (hb : ∀ j, Shared key (fun i => (t j i).b) (b j))
    (hc : ∀ j, Shared key (fun i => (t j i).c) (a j * b j))
    {pool pool' : Fin n → Pool m} {supplier : Fin n → Supplier m}
    (hnext : ∀ i, Supplier.nextTriples k (pool i).supplier
      = .ok (List.ofFn fun j => t j i) (supplier i))
    (hkey : ∀ i, (pool' i).keyShare = key i) (hparty : ∀ i, (pool' i).party = i + 1)
    (hpaired : ∀ i, (pool' i).opened.shares.length = (pool' i).opened.values.length)
    {elements : Fin n → List (Element m)} (helements : ∀ i, (elements i).length = 2 * k) :
    let ε' (j : Fin k) := openedTo elements (2 * j)
    let δ' (j : Fin k) := openedTo elements (2 * j + 1)
    let begun (i : Fin n) : MultiplyBatch m := { pairs := List.ofFn fun j => (x j i, y j i) }
    let sent (i : Fin n) : MultiplyBatch m := { begun i with triples := List.ofFn fun j => t j i }
    ∃ z : Fin k → Fin n → AuthShare m,
      (∀ i, Turn (n := n) (evaluate 0) (begun i) (pool i) (fun _ => []) (.ok .more) (sent i)
          { pool i with supplier := supplier i }
          fun _ => [Element.encodeAll
            (byPair (fun j => (x j i - (t j i).a).share) fun j => (y j i - (t j i).b).share)])
      ∧ (∀ i, Turn (evaluate 1) (sent i) (pool' i) (fun j => [Element.encodeAll (elements j)])
          (.ok .done) { sent i with output := some (List.ofFn fun j => z j i) }
          { pool' i with opened :=
            { shares := (pool' i).opened.shares
                ++ byPair (fun j => x j i - (t j i).a) fun j => y j i - (t j i).b
              values := (pool' i).opened.values ++ byPair ε' δ' } }
          fun _ => [])
      ∧ (∀ j, Shared key (z j) ((a j + ε' j) * (b j + δ' j)))
      ∧ (∀ j, ε' j = X j - a j → δ' j = Y j - b j → Shared key (z j) (X j * Y j))
      ∧ ∀ j, defect key (fun i => (x j i - (t j i).a, ε' j)) = (∑ i, key i) * (X j - a j - ε' j)
        ∧ defect key (fun i => (y j i - (t j i).b, δ' j)) = (∑ i, key i) * (Y j - b j - δ' j) := by
  intro ε' δ' begun sent
  let z (j : Fin k) (i : Fin n) : AuthShare m := product (key i) (i + 1) (t j i) (ε' j, δ' j)
  have hz : ∀ j, Shared key (z j) ((a j + ε' j) * (b j + δ' j)) :=
    fun j => Shared.product_opened (ha j) (hb j) (hc j) (ε' j) (δ' j)
  refine ⟨z, fun i => turn_send_ofFn hk (hnext i), fun i => ?_, hz, fun j hε hδ => ?_,
    fun j => ⟨((hx j).sub (ha j)).defect_eq (ε' j), ((hy j).sub (hb j)).defect_eq (δ' j)⟩⟩
  · have hproducts : (fun j => z j i)
        = fun j => product (pool' i).keyShare (pool' i).party (t j i) (ε' j, δ' j) := by
      rw [hkey i, hparty i]
    rw [hproducts]
    exact turn_received_ofFn hk (hpaired i) helements
  · have h := hz j
    rw [hε, hδ, add_sub_cancel, add_sub_cancel] at h
    exact h

/-- Parts of `v` for two parties with the key shares 3 and 4, of which the second holds `s` and the
MAC `c`. -/
def sampleParts (v s c : Element .mersenne61) : Fin 2 → AuthShare .mersenne61 :=
  ![⟨v - s, 7 * v - c⟩, ⟨s, c⟩]

theorem sampleParts_shared (v s c : Element .mersenne61) :
    Shared (fun i => (samplePool i).keyShare) (sampleParts v s c) v := by
  have hkey : ∑ i, (samplePool i).keyShare = 7 := by decide +kernel
  constructor
  · simp [sampleParts, Fin.sum_univ_two]
  · simp [sampleParts, Fin.sum_univ_two, hkey]

/-- Triples of 2 times 3 and of 10 times 4. -/
def sampleTriples (j i : Fin 2) : Triple .mersenne61 :=
  let a := ![2, 10] j
  let b := ![3, 4] j
  ⟨sampleParts a 1 9 i, sampleParts b 8 2 i, sampleParts (a * b) 5 6 i⟩

/-- The sample pools with the sample triples. -/
def stockedPool (i : Fin 2) : Pool .mersenne61 :=
  { samplePool i with
    supplier := .dealt ⟨⟨2, i + 1, (samplePool i).keyShare,
      (List.ofFn fun j => sampleTriples j i).reverse, [[], []], []⟩⟩ }

/-- Two parties multiply 5 by 6 and 7 by 8. Of the four values that they open the third is off by
one, so the second product is 64, and the key times -1 is the defect of its first entry. -/
theorem turns_of_received_off_by_one :
    let key (i : Fin 2) := (samplePool i).keyShare
    let x (j : Fin 2) := sampleParts (![5, 7] j) 1 1
    let y (j : Fin 2) := sampleParts (![6, 8] j) 2 2
    let sent (i : Fin 2) : MultiplyBatch .mersenne61 :=
      { pairs := List.ofFn fun j => (x j i, y j i),
        triples := List.ofFn fun j => sampleTriples j i }
    let elements : Fin 2 → List (Element .mersenne61) := ![[1, 1, 1, 1], [2, 2, -3, 3]]
    ∃ z : Fin 2 → Fin 2 → AuthShare .mersenne61,
      (∀ i, Turn (evaluate 1) (sent i) (samplePool i) (fun j => [Element.encodeAll (elements j)])
        (.ok .done) { sent i with output := some [z 0 i, z 1 i] }
        { samplePool i with opened :=
          { shares := (samplePool i).opened.shares ++ [x 0 i - (sampleTriples 0 i).a,
              y 0 i - (sampleTriples 0 i).b, x 1 i - (sampleTriples 1 i).a,
              y 1 i - (sampleTriples 1 i).b]
            values := (samplePool i).opened.values ++ [3, 3, -2, 4] } }
        fun _ => [])
      ∧ Shared key (z 0) (5 * 6) ∧ Shared key (z 1) 64
      ∧ defect key (fun i => (x 1 i - (sampleTriples 1 i).a, -2)) = (∑ i, key i) * -1 := by
  intro key x y sent elements
  have hx : ∀ j, Shared key (x j) (![5, 7] j) := fun j => sampleParts_shared _ 1 1
  have hy : ∀ j, Shared key (y j) (![6, 8] j) := fun j => sampleParts_shared _ 2 2
  have hnext : ∀ i, Supplier.nextTriples 2 (stockedPool i).supplier
      = .ok (List.ofFn fun j => sampleTriples j i)
        (.dealt ⟨⟨2, i + 1, (samplePool i).keyShare, [], [[], []], []⟩⟩) := fun i => rfl
  have hkey : ∀ i, (samplePool i).keyShare = key i := fun i => rfl
  have helements : ∀ i, (elements i).length = 2 * 2 := by decide
  obtain ⟨z, -, hturn, hz, hcorrect, hdefect⟩ := turns_of_received (by decide) hx hy
    (fun j => sampleParts_shared (![2, 10] j) 1 9) (fun j => sampleParts_shared (![3, 4] j) 8 2)
    (fun j => sampleParts_shared (![2, 10] j * ![3, 4] j) 5 6) hnext hkey (fun i => rfl)
    (fun i => rfl) helements
  have hproduct :
      (![2, 10] 1 + openedTo elements (2 * 1)) * (![3, 4] 1 + openedTo elements (2 * 1 + 1))
      = 64 := by decide +kernel
  have hvalue : openedTo elements (2 * 1) = -2 := by decide +kernel
  have hoff : (![5, 7] 1 - ![2, 10] 1 - openedTo elements (2 * 1) : Element .mersenne61) = -1 := by
    decide +kernel
  have hthird : defect key (fun i => (x 1 i - (sampleTriples 1 i).a, openedTo elements (2 * 1)))
      = (∑ i, key i) * (![5, 7] 1 - ![2, 10] 1 - openedTo elements (2 * 1)) := (hdefect 1).1
  rw [hoff, hvalue] at hthird
  exact ⟨z, hturn, hcorrect 0 (by decide +kernel) (by decide +kernel), hproduct ▸ hz 1, hthird⟩

end MultiplyBatch

end JointCircuit
