/-
JointCircuit.Proofs.Dealing — dealt material fits together however it is used up.

The dealer is done once more over any source of elements instead of a
generator (`Dealer.generateFrom`, §1), since nothing it promises rests on
what is drawn: the last part of every sharing makes the sums come out. A
`Dealing` (§2) is a table of such rows, one column for each party; a
party reads its column from the back, so its `k`-th triple and its `k`-th
mask of an owner stand in the same row as everybody else's (§3). `Served`
(§4) follows one party through any sequence of demands, those that fail
among them.

Main statement: `dealt_material` (§5).
-/
import JointCircuit.Preprocessing.Dealer
import JointCircuit.Proofs.Draws
import Mathlib.Data.List.GetD

namespace JointCircuit

open scoped Fin.CommRing

variable {m : Modulus} {n : Nat} {σ α β : Type}

/-! ## §1 Dealing from any source -/

/-- The same step `count` times, in order. -/
def times (step : StateM σ α) : (count : Nat) → StateM σ (List α)
  | 0 => return []
  | count + 1 => do
    let first ← step
    let rest ← times step count
    return first :: rest

theorem replicate_eq_times (draw : Draw α) : Draw.replicate draw = times draw := by
  funext count
  induction count with
  | zero => rfl
  | succ count ih => rw [Draw.replicate, times, ih]

namespace Dealer

section Source

-- where the elements come from
variable (draw : StateM σ (Element m))

/-- One party's random part of a value and of its MAC. -/
def partFrom : StateM σ (AuthShare m) := do
  return ⟨← draw, ← draw⟩

/-- Share a value among the parties under the whole MAC key. -/
def shareFrom (parties : Nat) (key value : Element m) : StateM σ (List (AuthShare m)) := do
  let drawn ← times (partFrom draw) (parties - 1)
  let sum : AuthShare m := drawn.foldl (· + ·) 0
  return drawn ++ [⟨value - sum.share, value * key - sum.mac⟩]

/-- Share a random value. -/
def shareRandomFrom (parties : Nat) (key : Element m) :
    StateM σ (List (AuthShare m) × Element m) := do
  let value ← draw
  let shares ← shareFrom draw parties key value
  return (shares, value)

/-- The parts of all parties of one triple. -/
def tripleFrom (parties : Nat) (key : Element m) : StateM σ (List (Triple m)) := do
  let (sharesA, a) ← shareRandomFrom draw parties key
  let (sharesB, b) ← shareRandomFrom draw parties key
  let sharesC ← shareFrom draw parties key (a * b)
  return List.zipWith (fun a (b, c) => ⟨a, b, c⟩) sharesA (sharesB.zip sharesC)

/-- Material for every party: `triples` triples and, for each owner, `masks` masks. -/
def generateFrom (parties triples masks : Nat) : StateM σ (List (DealtData m)) := do
  let keyShares ← times draw parties
  let key := keyShares.foldl (· + ·) 0
  let tripleRows ← times (tripleFrom draw parties key) triples
  let maskRows ← times (times (shareRandomFrom draw parties key) masks) parties
  return keyShares.zipIdx.map fun (keyShare, i) =>
    { parties
      party := i + 1
      keyShare
      triples := column tripleRows i
      masks := maskRows.map fun rows => column (rows.map (·.1)) i
      plaintexts := (maskRows.getD i []).map (·.2) }

end Source

/-- The dealer is the one whose source is a generator. -/
theorem generate_eq_generateFrom (m : Modulus) : generate m = generateFrom (Draw.element m) := by
  funext parties triples masks
  simp only [generate, generateFrom, triple, tripleFrom, shareRandom, shareRandomFrom, share,
    shareFrom, partFrom, replicate_eq_times]

end Dealer

/-! ## §2 Rows -/

/-- Whatever the source gives, the result satisfies `P`. -/
def Always (P : α → Prop) (step : StateM σ α) : Prop :=
  ∀ s, P (step s).1

section Always

variable {P : α → Prop} {Q : β → Prop}

theorem always_pure {a : α} (h : P a) : Always P (pure a : StateM σ α) :=
  fun _ => h

theorem always_bind {step : StateM σ α} {next : α → StateM σ β} (h : Always P step)
    (hnext : ∀ a, P a → Always Q (next a)) : Always Q (step >>= next) :=
  fun s => hnext _ (h s) _

theorem always_times {step : StateM σ α} (h : Always P step) (count : Nat) :
    Always (fun xs => xs.length = count ∧ ∀ x ∈ xs, P x) (times step count) := by
  induction count with
  | zero => exact always_pure ⟨rfl, nofun⟩
  | succ count ih =>
    refine always_bind h fun first hfirst => always_bind ih fun rest hrest => always_pure ⟨?_, ?_⟩
    · rw [List.length_cons, hrest.1]
    · exact List.forall_mem_cons.mpr ⟨hfirst, hrest.2⟩

end Always

/-- The parts of `n` parties of a value under the whole key, in party order. -/
structure Row (n : Nat) (key value : Element m) (row : List (AuthShare m)) : Prop where
  length : row.length = n
  share : (row.map (·.share)).sum = value
  mac : (row.map (·.mac)).sum = key * value

/-- The parts of `n` parties of a triple under the whole key. -/
structure TripleRow (n : Nat) (key : Element m) (row : List (Triple m)) : Prop where
  length : row.length = n
  factors : ∃ a b, Row n key a (row.map (·.a)) ∧ Row n key b (row.map (·.b))
    ∧ Row n key (a * b) (row.map (·.c))

theorem sum_getD {row : List α} (h : row.length = n) (f : α → Element m) (d : α) :
    ∑ i : Fin n, f (row.getD i d) = (row.map f).sum := by
  subst h
  calc ∑ i : Fin row.length, f (row.getD i d) = ∑ i : Fin row.length, f (row.get i) := by simp
    _ = ((List.ofFn row.get).map f).sum := by rw [List.map_ofFn, List.sum_ofFn]; rfl
    _ = (row.map f).sum := by rw [List.ofFn_get]

/-- A row shares its value under key shares that add up to the key. -/
theorem Row.shared {key : Fin n → Element m} {value : Element m} {row : List (AuthShare m)}
    (h : Row n (∑ i, key i) value row) : Shared key (fun i => row.getD i 0) value :=
  ⟨by rw [sum_getD h.length, h.share], by rw [sum_getD h.length, h.mac]⟩

/-- A row of triples shares two values and their product. -/
theorem TripleRow.shared {key : Fin n → Element m} {row : List (Triple m)}
    (h : TripleRow n (∑ i, key i) row) : Shared.Triple key fun i => row.getD i ⟨0, 0, 0⟩ := by
  obtain ⟨a, b, ha, hb, hc⟩ := h.factors
  have hpart : ∀ (f : Triple m → AuthShare m) (i : Nat), f ⟨0, 0, 0⟩ = 0 →
      (row.map f).getD i 0 = f (row.getD i ⟨0, 0, 0⟩) := by
    intro f i hf
    rw [List.getD_eq_getElem?_getD, List.getD_eq_getElem?_getD, List.getElem?_map]
    cases row[i]? with
    | none => exact hf.symm
    | some t => rfl
  refine ⟨a, b, ?_, ?_, ?_⟩
  · simpa only [hpart (·.a) _ rfl] using ha.shared
  · simpa only [hpart (·.b) _ rfl] using hb.shared
  · simpa only [hpart (·.c) _ rfl] using hc.shared

namespace Dealer

variable (draw : StateM σ (Element m))

/-- Whatever the first parts are, the last one makes the sums come out. -/
theorem always_shareFrom (hn : 0 < n) (key value : Element m) :
    Always (Row n key value) (shareFrom draw n key value) := by
  have hdrawn : Always (fun xs => xs.length = n - 1 ∧ ∀ x ∈ xs, True)
      (times (partFrom draw) (n - 1)) :=
    always_times (P := fun _ => True) (fun _ => trivial) (n - 1)
  have hsum : ∀ (xs : List (AuthShare m)) (z : AuthShare m),
      (xs.foldl (· + ·) z).share = z.share + (xs.map (·.share)).sum
        ∧ (xs.foldl (· + ·) z).mac = z.mac + (xs.map (·.mac)).sum := by
    intro xs
    induction xs with
    | nil => simp
    | cons x xs ih =>
      intro z
      rw [List.foldl_cons, (ih _).1, (ih _).2]
      simp [add_assoc]
  refine always_bind hdrawn fun drawn ⟨hlength, _⟩ => always_pure ⟨?_, ?_, ?_⟩
  · rw [List.length_append, hlength, List.length_singleton]
    omega
  · simp [(hsum drawn 0).1]
  · simp [(hsum drawn 0).2, mul_comm]

theorem always_shareRandomFrom (hn : 0 < n) (key : Element m) :
    Always (fun r => Row n key r.2 r.1) (shareRandomFrom draw n key) :=
  always_bind (P := fun _ => True) (fun _ => trivial) fun value _ =>
    always_bind (always_shareFrom draw hn key value) fun _ hrow => always_pure hrow

theorem always_tripleFrom (hn : 0 < n) (key : Element m) :
    Always (TripleRow n key) (tripleFrom draw n key) := by
  refine always_bind (always_shareRandomFrom draw hn key) fun ⟨rowA, a⟩ ha =>
    always_bind (always_shareRandomFrom draw hn key) fun ⟨rowB, b⟩ hb =>
    always_bind (always_shareFrom draw hn key (a * b)) fun rowC hc => always_pure ?_
  have hzip : List.zipWith (fun a (b, c) => (⟨a, b, c⟩ : Triple m)) rowA (rowB.zip rowC)
      = (rowA.zip (rowB.zip rowC)).map fun e => ⟨e.1, e.2.1, e.2.2⟩ := by
    rw [← List.map_uncurry_zip_eq_zipWith]
    rfl
  have hBC : (rowB.zip rowC).length = n := by
    rw [List.length_zip, hb.length, hc.length, Nat.min_self]
  have hA : (rowA.zip (rowB.zip rowC)).map (·.1) = rowA :=
    List.map_fst_zip (by rw [ha.length, hBC])
  have hrest : (rowA.zip (rowB.zip rowC)).map (·.2) = rowB.zip rowC :=
    List.map_snd_zip (by rw [ha.length, hBC])
  have hB : (rowA.zip (rowB.zip rowC)).map (·.2.1) = rowB :=
    calc (rowA.zip (rowB.zip rowC)).map (·.2.1)
      _ = ((rowA.zip (rowB.zip rowC)).map (·.2)).map (·.1) := List.map_map.symm
      _ = rowB := by rw [hrest, List.map_fst_zip (by rw [hb.length, hc.length])]
  have hC : (rowA.zip (rowB.zip rowC)).map (·.2.2) = rowC :=
    calc (rowA.zip (rowB.zip rowC)).map (·.2.2)
      _ = ((rowA.zip (rowB.zip rowC)).map (·.2)).map (·.2) := List.map_map.symm
      _ = rowC := by rw [hrest, List.map_snd_zip (by rw [hb.length, hc.length])]
  refine ⟨?_, a, b, ?_, ?_, ?_⟩
  · rw [hzip, List.length_map, List.length_zip, ha.length, hBC, Nat.min_self]
  · simpa only [hzip, List.map_map, Function.comp_def, hA] using ha
  · simpa only [hzip, List.map_map, Function.comp_def, hB] using hb
  · simpa only [hzip, List.map_map, Function.comp_def, hC] using hc

end Dealer

/-! ## §3 Columns -/

/-- What a dealer dealt, row by row: a key share of every party, triples, and for every owner masks
with their plaintexts. -/
structure Dealing (m : Modulus) (n triples masks : Nat) where
  keyShares : List (Element m)
  tripleRows : List (List (Triple m))
  maskRows : List (List (List (AuthShare m) × Element m))
  length_keyShares : keyShares.length = n
  length_tripleRows : tripleRows.length = triples
  length_maskRows : maskRows.length = n
  tripleRow : ∀ row ∈ tripleRows, TripleRow n keyShares.sum row
  maskRow : ∀ rows ∈ maskRows, rows.length = masks ∧ ∀ row ∈ rows, Row n keyShares.sum row.2 row.1

namespace Dealing

variable {triples masks : Nat} (d : Dealing m n triples masks)

/-- The party's part of the MAC key. -/
def key (i : Fin n) : Element m :=
  d.keyShares.getD i 0

/-- Everything that is dealt to one party: its column. -/
def data (i : Fin n) : DealtData m where
  parties := n
  party := i + 1
  keyShare := d.key i
  triples := Dealer.column d.tripleRows i
  masks := d.maskRows.map fun rows => Dealer.column (rows.map (·.1)) i
  plaintexts := (d.maskRows.getD i []).map (·.2)

/-- The parts of the triple that everybody hands out after `k` others. -/
def triple (k : Nat) (i : Fin n) : Triple m :=
  (d.tripleRows.reverse.getD k []).getD i ⟨0, 0, 0⟩

/-- The row of the mask of `owner` that everybody hands out after `k` others of the same owner. -/
def row (owner : Fin n) (k : Nat) : List (AuthShare m) × Element m :=
  (d.maskRows.getD owner []).reverse.getD k ([], 0)

/-- The parts of that mask. -/
def mask (owner : Fin n) (k : Nat) (i : Fin n) : InputMask m :=
  ⟨if i = owner then some (d.row owner k).2 else none, (d.row owner k).1.getD i 0⟩

theorem sum_key : ∑ i, d.key i = d.keyShares.sum :=
  (sum_getD d.length_keyShares id 0).trans (by rw [List.map_id])

theorem shared_triple {k : Nat} (hk : k < triples) : Shared.Triple d.key (d.triple k) := by
  have hlt : k < d.tripleRows.reverse.length := by rwa [List.length_reverse, d.length_tripleRows]
  refine TripleRow.shared ?_
  rw [sum_key, List.getD_eq_getElem _ _ hlt]
  exact d.tripleRow _ (List.mem_reverse.mp (List.getElem_mem hlt))

/-- The masks of an owner. -/
theorem maskRow_getD (owner : Fin n) : (d.maskRows.getD owner []).length = masks
    ∧ ∀ row ∈ d.maskRows.getD owner [], Row n d.keyShares.sum row.2 row.1 := by
  have hlt : owner.val < d.maskRows.length := by
    rw [d.length_maskRows]
    exact owner.isLt
  rw [List.getD_eq_getElem _ _ hlt]
  exact d.maskRow _ (List.getElem_mem hlt)

theorem shared_mask (owner : Fin n) {k : Nat} (hk : k < masks) :
    Shared.Mask d.key owner (d.mask owner k) := by
  obtain ⟨hlength, hrow⟩ := d.maskRow_getD owner
  have hlt : k < (d.maskRows.getD owner []).reverse.length := by
    rwa [List.length_reverse, hlength]
  refine ⟨(d.row owner k).2, Row.shared ?_, if_pos rfl⟩
  rw [sum_key, row, List.getD_eq_getElem _ _ hlt]
  exact hrow _ (List.mem_reverse.mp (List.getElem_mem hlt))

end Dealing

/-- The column of a table whose rows are long enough. -/
theorem Dealer.column_eq_map {rows : List (List α)} {i : Nat} (h : ∀ row ∈ rows, i < row.length)
    (d : α) : column rows i = rows.map (·.getD i d) := by
  induction rows with
  | nil => rfl
  | cons row rows ih =>
    have hi := h row List.mem_cons_self
    have hrest := ih fun row hrow => h row (List.mem_cons_of_mem _ hrow)
    simp only [column, List.filterMap_cons, List.getElem?_eq_getElem hi, List.map_cons,
      List.getD_eq_getElem _ _ hi] at hrest ⊢
    rw [hrest]

namespace Dealing

variable {triples masks : Nat} (d : Dealing m n triples masks)

theorem triples_data (i : Fin n) :
    (d.data i).triples = d.tripleRows.map (·.getD i ⟨0, 0, 0⟩) :=
  Dealer.column_eq_map (fun row hrow => (d.tripleRow row hrow).length ▸ i.isLt) _

/-- A party reads its column of the triples from the back. -/
theorem tripleAhead_data (i : Fin n) (k : Nat) :
    (⟨d.data i⟩ : DealtSupplier m).tripleAhead k
      = if k < triples then some (d.triple k i) else none := by
  rw [DealtSupplier.tripleAhead, triples_data, ← List.map_reverse, List.getElem?_map]
  have hlength : d.tripleRows.reverse.length = triples := by
    rw [List.length_reverse, d.length_tripleRows]
  split
  · rename_i hk
    rw [← hlength] at hk
    rw [triple, List.getElem?_eq_getElem hk, List.getD_eq_getElem _ _ hk]
    rfl
  · rename_i hk
    rw [List.getElem?_eq_none (by omega)]
    rfl

theorem masksOf_data (i owner : Fin n) : (⟨d.data i⟩ : DealtSupplier m).masksOf (owner + 1)
    = (d.maskRows.getD owner []).map fun row => row.1.getD i 0 := by
  have hlt : owner.val < d.maskRows.length := by
    rw [d.length_maskRows]
    exact owner.isLt
  obtain ⟨-, hrow⟩ := d.maskRow_getD owner
  rw [List.getD_eq_getElem _ _ hlt] at hrow ⊢
  have hcolumn : ∀ row ∈ (d.maskRows[owner.val]).map (·.1), i.val < row.length := by
    intro row hmem
    obtain ⟨r, hr, rfl⟩ := List.mem_map.mp hmem
    exact (hrow r hr).length ▸ i.isLt
  have hmasks : (d.data i).masks.getD owner []
      = Dealer.column (d.maskRows[owner.val].map (·.1)) i := by
    simp only [data, List.getD_eq_getElem?_getD, List.getElem?_map, List.getElem?_eq_getElem hlt,
      Option.map_some, Option.getD_some]
  rw [DealtSupplier.masksOf, if_neg (Nat.succ_ne_zero _), Nat.add_sub_cancel, hmasks,
    Dealer.column_eq_map hcolumn 0, List.map_map]
  rfl

/-- And so it does with the masks of every owner. -/
theorem maskAhead_data (i owner : Fin n) (k : Nat) :
    (⟨d.data i⟩ : DealtSupplier m).maskAhead (owner + 1) k
      = if k < masks then some (d.mask owner k i) else none := by
  have hlength : (d.maskRows.getD owner []).reverse.length = masks := by
    rw [List.length_reverse, (d.maskRow_getD owner).1]
  have howner : owner.val + 1 = i.val + 1 ↔ i = owner := by
    rw [Fin.ext_iff]
    omega
  rw [DealtSupplier.maskAhead, masksOf_data, ← List.map_reverse, List.getElem?_map]
  by_cases hk : k < (d.maskRows.getD owner []).reverse.length
  · have hrow := List.getElem?_eq_getElem hk
    have hd : d.row owner k = (d.maskRows.getD owner []).reverse[k] :=
      List.getD_eq_getElem _ _ hk
    rw [if_pos (hlength ▸ hk), mask, hd, hrow]
    simp only [Option.map_some]
    by_cases ho : i = owner
    · subst ho
      simp only [data, ← List.map_reverse, List.getElem?_map, hrow, if_true, Option.map_some]
    · have hparty : ¬ owner.val + 1 = (d.data i).party := fun h => ho (howner.mp h)
      simp only [hparty, ho, if_false]
  · rw [List.getElem?_eq_none (Nat.le_of_not_lt hk), if_neg (hlength ▸ hk)]
    rfl

/-- A party has a plaintext for every own mask. -/
theorem paired_data (i : Fin n) : ((⟨d.data i⟩ : DealtSupplier m).masksOf (d.data i).party).length
    = (d.data i).plaintexts.length := by
  show ((⟨d.data i⟩ : DealtSupplier m).masksOf (i + 1)).length = _
  rw [masksOf_data, List.length_map, data, List.length_map]

/-- The supplier of every party accepts its data. -/
theorem new_data (hn : 2 ≤ n) (i : Fin n) : DealtSupplier.new (d.data i) = .ok ⟨d.data i⟩ := by
  have hmasks : (d.data i).masks.length = (d.data i).parties := by
    rw [data, List.length_map, d.length_maskRows]
  have hparties : ¬ (d.data i).parties < 2 := Nat.not_lt.mpr hn
  have hparty : ¬ ((d.data i).party = 0 ∨ (d.data i).parties < (d.data i).party) := by
    simp only [data]
    omega
  rw [DealtSupplier.new, if_neg hparties, if_neg hparty, if_neg (not_not.mpr hmasks),
    if_neg (not_not.mpr (d.paired_data i))]

end Dealing

namespace Dealer

/-- Whatever the source gives, what is dealt is the columns of a table of consistent rows. -/
theorem always_generateFrom (draw : StateM σ (Element m)) (hn : 0 < n) (triples masks : Nat) :
    Always (fun data => ∃ d : Dealing m n triples masks, data = List.ofFn d.data)
      (generateFrom draw n triples masks) := by
  refine always_bind (always_times (P := fun _ => True) (fun _ => trivial) n)
    fun keyShares ⟨hkeys, _⟩ => ?_
  have hsum : keyShares.foldl (· + ·) 0 = keyShares.sum := by
    rw [List.sum_eq_foldl]
  refine always_bind (always_times (always_tripleFrom draw hn _) triples)
    fun tripleRows ⟨htriples, htriple⟩ =>
    always_bind (always_times (always_times (always_shareRandomFrom draw hn _) masks) n)
      fun maskRows ⟨hmasks, hmask⟩ => always_pure ?_
  rw [hsum] at htriple hmask
  refine ⟨⟨keyShares, tripleRows, maskRows, hkeys, htriples, hmasks, htriple, hmask⟩, ?_⟩
  refine List.ext_getElem (by simp [hkeys]) fun i hi _ => ?_
  have hlt : i < keyShares.length := by simpa using hi
  simp [Dealing.data, Dealing.key, hlt]

end Dealer

/-! ## §4 Using material up -/

/-- What a party asks its supplier for. -/
inductive Demand where
  | mask (owner : Nat)
  | triples (count : Nat)
deriving DecidableEq, Repr

/-- Something that a party asks for material. -/
class Provider (σ : Type) (m : outParam Modulus) where
  nextMask : Nat → Action σ (InputMask m)
  nextTriples : Nat → Action σ (List (Triple m))

instance : Provider (DealtSupplier m) m :=
  ⟨DealtSupplier.nextMask, DealtSupplier.nextTriples⟩

instance : Provider (SyntheticSupplier m) m :=
  ⟨SyntheticSupplier.nextMask, SyntheticSupplier.nextTriples⟩

/-- A supplier in use, with everything it has handed out so far: triples, and masks of each owner
number. -/
structure Served (σ : Type) (m : Modulus) where
  supplier : σ
  triples : List (Triple m)
  masks : Nat → List (InputMask m)

namespace Served

variable [Provider σ m]

/-- A supplier that nobody has asked yet. -/
def start (supplier : σ) : Served σ m :=
  ⟨supplier, [], fun _ => []⟩

/-- Ask once. When the call fails nothing is handed out, and the supplier stays as the failing call
leaves it. -/
def serve (s : Served σ m) : Demand → Served σ m
  | .mask owner =>
    match Provider.nextMask owner s.supplier with
    | .ok mask left =>
      { s with supplier := left, masks := Function.update s.masks owner (s.masks owner ++ [mask]) }
    | .error _ left => { s with supplier := left }
  | .triples count =>
    match Provider.nextTriples count s.supplier with
    | .ok handed left => { s with supplier := left, triples := s.triples ++ handed }
    | .error _ left => { s with supplier := left }

/-- Ask for one thing after another. -/
def serveAll (s : Served σ m) (demands : List Demand) : Served σ m :=
  demands.foldl serve s

end Served

/-- There is a list for every party, and a plaintext for every own mask. -/
structure DealtSupplier.Fits (n : Nat) (s : DealtSupplier m) : Prop where
  length : s.data.masks.length = n
  paired : (s.masksOf s.data.party).length = s.data.plaintexts.length

namespace DealtSupplier

variable {s s' : DealtSupplier m}

/-- Too many triples are refused, and none is lost. -/
theorem nextTriples_refused {count k : Nat} (hk : k < count) (h : s.tripleAhead k = none) :
    ∃ fault, nextTriples count s = .error fault s := by
  have hleft : s.triplesLeft < count := by
    rw [tripleAhead, List.getElem?_eq_none_iff, List.length_reverse] at h
    exact Nat.lt_of_le_of_lt h hk
  simp only [nextTriples, Action.bind_apply, Action.get_apply, hleft, if_true]
  exact ⟨_, rfl⟩

theorem data_of_nextTriples {count : Nat} {handed : List (Triple m)}
    (h : nextTriples count s = .ok handed s') : ∃ triples, s'.data = { s.data with triples } := by
  simp only [nextTriples, Action.bind_apply, Action.get_apply] at h
  split at h
  · cases h
  · cases h
    exact ⟨_, rfl⟩

/-- Handing triples out leaves the masks alone. -/
theorem Fits.of_nextTriples (hfits : s.Fits n) {count : Nat} {handed : List (Triple m)}
    (h : nextTriples count s = .ok handed s') : s'.Fits n := by
  obtain ⟨data'⟩ := s'
  obtain ⟨triples, rfl⟩ := data_of_nextTriples h
  exact ⟨hfits.length, hfits.paired⟩

/-- Only parties have masks. -/
theorem masksOf_eq_nil {owner : Nat} (h : owner = 0 ∨ s.data.masks.length < owner) :
    s.masksOf owner = [] := by
  rw [masksOf]
  split
  · rfl
  · rw [List.getD_eq_getElem?_getD, List.getElem?_eq_none (by omega)]
    rfl

/-- A mask that is not there is refused and none is lost; if it is there, what is left still
fits. -/
theorem Fits.nextMask (hfits : s.Fits n) (owner : Nat) :
    (∃ fault, nextMask owner s = .error fault s)
      ∨ ∃ (o : Fin n) (mask : InputMask m) (s' : DealtSupplier m),
        owner = o + 1 ∧ nextMask owner s = .ok mask s' ∧ s'.Fits n := by
  by_cases hout : owner = 0 ∨ s.data.masks.length < owner
  · exact .inl ⟨_, by
      simp only [DealtSupplier.nextMask, Action.bind_apply, Action.get_apply, hout, if_true]; rfl⟩
  obtain ⟨hpos, hrange⟩ := not_or.mp hout
  have howner : ∃ o : Fin n, owner = o + 1 :=
    ⟨⟨owner - 1, by have := hfits.length; omega⟩, by simp only; omega⟩
  obtain ⟨o, ho⟩ := howner
  -- what is left fits when the own plaintexts shrink together with the own masks
  have hleft (plaintexts : List (Element m)) (hpaired : plaintexts.length
      = if owner = s.data.party then s.data.plaintexts.length - 1 else s.data.plaintexts.length) :
      Fits n (⟨{ s.data with
        masks := s.data.masks.set (owner - 1) (s.masksOf owner).dropLast, plaintexts }⟩ :
          DealtSupplier m) := by
    refine ⟨by rw [List.length_set, hfits.length], ?_⟩
    rw [masksOf_set hpos (Nat.le_of_not_lt hrange)]
    by_cases hown : owner = s.data.party
    · rw [if_pos hown.symm, hpaired, if_pos hown, List.length_dropLast, hown, hfits.paired]
    · rw [if_neg (Ne.symm hown), hpaired, if_neg hown, hfits.paired]
  cases hmask : (s.masksOf owner).getLast? with
  | none =>
    refine .inl ⟨.exhausted (.masks owner), ?_⟩
    simp only [DealtSupplier.nextMask, Action.bind_apply, Action.get_apply, hout, if_false,
      hmask, Action.throw_apply]
  | some part =>
    by_cases hown : owner = s.data.party
    · cases hplain : s.data.plaintexts.getLast? with
      | none =>
        have hnil : s.masksOf owner = [] := by
          rw [← List.length_eq_zero_iff, hown, hfits.paired, List.getLast?_eq_none_iff.mp hplain]
          rfl
        rw [hnil] at hmask
        cases hmask
      | some plaintext =>
        refine .inr ⟨o, ⟨some plaintext, part⟩, _, ho, ?_,
          hleft s.data.plaintexts.dropLast (by rw [if_pos hown, List.length_dropLast])⟩
        simp [DealtSupplier.nextMask, hout, hmask, ← hown, hplain]
    · refine .inr ⟨o, ⟨none, part⟩, _, ho, ?_, hleft s.data.plaintexts (by rw [if_neg hown])⟩
      simp [DealtSupplier.nextMask, hout, hmask, hown]

end DealtSupplier

/-- Of a sequence of this many items a beginning is handed out, and the rest lies ahead. -/
structure HandedOut (total : Nat) (item : Nat → α) (handed : List α) (ahead : Nat → Option α) :
    Prop where
  length_le : handed.length ≤ total
  eq_map : handed = (List.range handed.length).map item
  ahead : ∀ k, ahead k
    = if handed.length + k < total then some (item (handed.length + k)) else none

namespace HandedOut

variable {total : Nat} {item : Nat → α} {handed : List α} {ahead ahead' : Nat → Option α}

theorem nil (h : ∀ k, ahead k = if k < total then some (item k) else none) :
    HandedOut total item [] ahead :=
  ⟨Nat.zero_le _, rfl, fun k => by rw [h, List.length_nil, Nat.zero_add]⟩

/-- The next items are handed out. -/
theorem next (h : HandedOut total item handed ahead) (count : Nat)
    (henough : handed.length + count ≤ total) (hahead : ∀ k, ahead' k = ahead (count + k)) :
    HandedOut total item
      (handed ++ (List.range count).map fun k => item (handed.length + k)) ahead' := by
  have hlength : (handed ++ (List.range count).map fun k => item (handed.length + k)).length
      = handed.length + count := by
    rw [List.length_append, List.length_map, List.length_range]
  refine ⟨by rwa [hlength], ?_, fun k => ?_⟩
  · rw [hlength, List.range_add, List.map_append, ← h.eq_map, List.map_map]
    rfl
  · rw [hahead, h.ahead, hlength, Nat.add_assoc]

theorem prefix_ofFn (h : HandedOut total item handed ahead) :
    handed <+: List.ofFn fun k : Fin total => item k := by
  have hall : (List.ofFn fun k : Fin total => item k) = (List.range total).map item :=
    List.ext_getElem (by simp) (by simp)
  obtain ⟨rest, hrest⟩ := Nat.exists_eq_add_of_le h.length_le
  rw [hall, hrest, List.range_add, List.map_append, ← h.eq_map]
  exact List.prefix_append _ _

end HandedOut

/-- Of the sequences `triple` and `mask owner` the supplier has handed out a beginning, and has the
rest ahead. -/
structure Accounts (n triples masks : Nat) (triple : Nat → Triple m)
    (mask : Fin n → Nat → InputMask m) (s : Served (DealtSupplier m) m) : Prop where
  fits : s.supplier.Fits n
  triples : HandedOut triples triple s.triples s.supplier.tripleAhead
  masks : ∀ owner : Fin n,
    HandedOut masks (mask owner) (s.masks (owner + 1)) (s.supplier.maskAhead (owner + 1))

namespace Accounts

variable {triples masks : Nat} {triple : Nat → Triple m} {mask : Fin n → Nat → InputMask m}
  {s : Served (DealtSupplier m) m}

/-- Triples are handed out as long as there are enough. -/
theorem nextTriples (h : Accounts n triples masks triple mask s) (count : Nat) :
    (s.triples.length + count ≤ triples ∧ ∃ left, DealtSupplier.nextTriples count s.supplier
      = .ok ((List.range count).map fun k => triple (s.triples.length + k)) left
      ∧ (∀ k, left.tripleAhead k = s.supplier.tripleAhead (count + k))
      ∧ ∀ owner k, left.maskAhead owner k = s.supplier.maskAhead owner k)
    ∨ (triples < s.triples.length + count
      ∧ ∃ fault, DealtSupplier.nextTriples count s.supplier = .error fault s.supplier) := by
  rcases Nat.lt_or_ge triples (s.triples.length + count) with hfew | henough
  · have hle := h.triples.length_le
    refine .inr ⟨hfew, DealtSupplier.nextTriples_refused (k := triples - s.triples.length) ?_ ?_⟩
    · omega
    · rw [h.triples.ahead, if_neg (by omega)]
  · refine .inl ⟨henough, DealtSupplier.nextTriples_eq fun k hk => ?_⟩
    rw [h.triples.ahead, if_pos (by omega)]

/-- A mask of a party is handed out as long as there is one. -/
theorem nextMask (h : Accounts n triples masks triple mask s) (owner : Nat) :
    (∃ o : Fin n, owner = o + 1 ∧ (s.masks (o + 1)).length < masks
      ∧ ∃ left, DealtSupplier.nextMask owner s.supplier
          = .ok (mask o (s.masks (o + 1)).length) left
        ∧ left.Fits n
        ∧ (∀ p k, left.maskAhead p k = s.supplier.maskAhead p (if p = owner then k + 1 else k))
        ∧ ∀ k, left.tripleAhead k = s.supplier.tripleAhead k)
    ∨ ((∀ o : Fin n, owner = o + 1 → masks ≤ (s.masks (o + 1)).length)
      ∧ ∃ fault, DealtSupplier.nextMask owner s.supplier = .error fault s.supplier) := by
  have hnext (o : Fin n) (hmore : (s.masks (o + 1)).length < masks) :
      s.supplier.maskAhead (o + 1) 0 = some (mask o (s.masks (o + 1)).length) := by
    rw [(h.masks o).ahead, Nat.add_zero, if_pos hmore]
  rcases h.fits.nextMask owner with ⟨fault, herror⟩ | ⟨o, handed, left, rfl, hok, hfits⟩
  · refine .inr ⟨fun o ho => ?_, fault, herror⟩
    subst ho
    by_contra hmore
    obtain ⟨left, hok, -⟩ := DealtSupplier.nextMask_eq (hnext o (Nat.lt_of_not_le hmore))
    rw [herror] at hok
    cases hok
  · have hmore : (s.masks (o + 1)).length < masks := by
      by_contra hnone
      refine DealtSupplier.maskAhead_of_nextMask hok ?_
      rw [(h.masks o).ahead, Nat.add_zero, if_neg hnone]
    obtain ⟨left', hok', hmasks, htriples⟩ := DealtSupplier.nextMask_eq (hnext o hmore)
    rw [hok] at hok'
    cases hok'
    exact .inl ⟨o, rfl, hmore, left, hok, hfits, hmasks, htriples⟩

/-- One call keeps the accounts. -/
theorem serve (h : Accounts n triples masks triple mask s) (demand : Demand) :
    Accounts n triples masks triple mask (s.serve demand) := by
  cases demand with
  | triples count =>
    rcases h.nextTriples count with ⟨henough, left, hok, htriples, hmasks⟩ | ⟨-, fault, herror⟩
    · simp only [Served.serve, Provider.nextTriples, hok]
      refine ⟨h.fits.of_nextTriples hok, h.triples.next count henough htriples, fun owner => ?_⟩
      have hsame : left.maskAhead (owner + 1) = s.supplier.maskAhead (owner + 1) :=
        funext (hmasks _)
      exact hsame ▸ h.masks owner
    · simp only [Served.serve, Provider.nextTriples, herror]
      exact h
  | mask owner =>
    rcases h.nextMask owner with
      ⟨o, rfl, hmore, left, hok, hfits, hmasks, htriples⟩ | ⟨-, fault, herror⟩
    · simp only [Served.serve, Provider.nextMask, hok]
      refine ⟨hfits, by rw [funext htriples]; exact h.triples, fun p => ?_⟩
      by_cases hp : p = o
      · subst hp
        simp only [Function.update_self]
        refine (h.masks p).next 1 hmore fun k => ?_
        rw [hmasks, if_pos rfl, Nat.add_comm k]
      · have hne : p.val + 1 ≠ o.val + 1 := fun heq => hp (Fin.ext (Nat.succ.inj heq))
        have hsame : left.maskAhead (p + 1) = s.supplier.maskAhead (p + 1) :=
          funext fun k => by rw [hmasks, if_neg hne]
        simp only [Function.update_of_ne hne, hsame]
        exact h.masks p
    · simp only [Served.serve, Provider.nextMask, herror]
      exact h

/-- Any sequence of calls keeps the accounts. -/
theorem serveAll (h : Accounts n triples masks triple mask s) (demands : List Demand) :
    Accounts n triples masks triple mask (s.serveAll demands) := by
  induction demands generalizing s with
  | nil => exact h
  | cons demand demands ih => exact ih (h.serve demand)

end Accounts

/-- A party that starts to use its column up. -/
theorem Dealing.accounts_start {triples masks : Nat} (d : Dealing m n triples masks) (i : Fin n) :
    Accounts n triples masks (d.triple · i) (d.mask · · i)
      (.start (⟨d.data i⟩ : DealtSupplier m)) :=
  { fits := ⟨(List.length_map _).trans d.length_maskRows, d.paired_data i⟩
    triples := .nil (d.tripleAhead_data i)
    masks := fun owner => .nil (d.maskAhead_data i owner) }

/-! ## §5 The contract -/

/-- What is dealt is accepted by the supplier of every party, and however each of them is used, in
whatever order and in whatever batches, it hands out a beginning of the same sequences: triples
that share a product, and for every owner masks that share a value only the owner is told. A call
succeeds as long as what it asks for is left, and hands out as many triples as it was asked for. -/
theorem dealt_material (draw : StateM σ (Element m)) (s : σ) (hn : 2 ≤ n) (triples masks : Nat) :
    Dealer.generate m = Dealer.generateFrom (Draw.element m)
    ∧ ∃ data : Fin n → DealtData m,
      (Dealer.generateFrom draw n triples masks s).1 = List.ofFn data
      ∧ (∀ i, DealtSupplier.new (data i) = .ok ⟨data i⟩)
      ∧ ∃ (triple : Fin triples → Fin n → Triple m)
          (mask : Fin n → Fin masks → Fin n → InputMask m),
        (∀ k, Shared.Triple (fun i => (data i).keyShare) (triple k))
        ∧ (∀ owner k, Shared.Mask (fun i => (data i).keyShare) owner (mask owner k)
            ∧ ∀ i ≠ owner, (mask owner k i).plaintext = none)
        ∧ ∀ (i : Fin n) (demands : List Demand),
          let served := (Served.start (⟨data i⟩ : DealtSupplier m)).serveAll demands
          (served.triples <+: List.ofFn (triple · i)
            ∧ ∀ count,
              ((∃ handed left, DealtSupplier.nextTriples count served.supplier = .ok handed left)
                ↔ served.triples.length + count ≤ triples)
              ∧ ∀ handed left, DealtSupplier.nextTriples count served.supplier = .ok handed left →
                handed.length = count)
          ∧ (∀ owner : Fin n, served.masks (owner + 1) <+: List.ofFn (mask owner · i))
          ∧ ∀ number,
              (∃ handed left, DealtSupplier.nextMask number served.supplier = .ok handed left)
                ↔ ∃ owner : Fin n, number = owner + 1 ∧ (served.masks number).length < masks := by
  refine ⟨Dealer.generate_eq_generateFrom m, ?_⟩
  obtain ⟨d, hd⟩ := Dealer.always_generateFrom draw (Nat.zero_lt_of_lt hn) triples masks s
  refine ⟨d.data, hd, d.new_data hn, fun k => d.triple k, fun owner k => d.mask owner k,
    fun k => d.shared_triple k.isLt,
    fun owner k => ⟨d.shared_mask owner k.isLt, fun i hi => if_neg hi⟩, fun i demands => ?_⟩
  have h := (d.accounts_start i).serveAll demands
  refine ⟨⟨h.triples.prefix_ofFn, fun count => ?_⟩, fun owner => (h.masks owner).prefix_ofFn,
    fun number => ?_⟩
  · rcases h.nextTriples count with ⟨henough, left, hok, -⟩ | ⟨hfew, fault, herror⟩
    · refine ⟨iff_of_true ⟨_, left, hok⟩ henough, fun handed left' hok' => ?_⟩
      rw [hok] at hok'
      cases hok'
      rw [List.length_map, List.length_range]
    · have hrefused : ∀ handed left,
          DealtSupplier.nextTriples count _ ≠ .ok handed left := fun handed left hok => by
        rw [herror] at hok
        cases hok
      exact ⟨iff_of_false (fun ⟨handed, left, hok⟩ => hrefused handed left hok)
        (Nat.not_le.mpr hfew), fun handed left hok => absurd hok (hrefused handed left)⟩
  · rcases h.nextMask number with ⟨o, rfl, hmore, left, hok, -⟩ | ⟨hnone, fault, herror⟩
    · exact iff_of_true ⟨_, left, hok⟩ ⟨o, rfl, hmore⟩
    · refine iff_of_false ?_ ?_
      · rintro ⟨handed, left, hok⟩
        rw [herror] at hok
        cases hok
      · rintro ⟨o, rfl, hmore⟩
        exact Nat.not_lt.mpr (hnone o rfl) hmore

/-- The numbers from the state on, as a source. -/
def countUp (m : Modulus) : StateM Nat (Element m) :=
  fun k => (.ofNat m k, k + 1)

/-- Two parties are dealt a triple and masks from the numbers; their suppliers accept the data and
have the triple and the masks to give. -/
theorem dealt_material_countUp : 2 ≤ 2 ∧ ∃ data : Fin 2 → DealtData .mersenne61,
    (Dealer.generateFrom (countUp .mersenne61) 2 1 1 0).1 = List.ofFn data
    ∧ ∀ i, DealtSupplier.new (data i) = .ok ⟨data i⟩
      ∧ (∃ handed left, DealtSupplier.nextTriples 1 ⟨data i⟩ = .ok handed left
        ∧ handed.length = 1)
      ∧ ∃ handed left, DealtSupplier.nextMask 2 ⟨data i⟩ = .ok handed left := by
  refine ⟨Nat.le_refl 2, ?_⟩
  obtain ⟨-, data, hdata, hnew, triple, mask, -, -, hserved⟩ :=
    dealt_material (countUp .mersenne61) 0 (Nat.le_refl 2) 1 1
  refine ⟨data, hdata, fun i => ⟨hnew i, ?_, ?_⟩⟩
  · obtain ⟨hsuffices, hlength⟩ := (hserved i []).1.2 1
    obtain ⟨handed, left, hok⟩ := hsuffices.mpr (Nat.le_refl 1)
    exact ⟨handed, left, hok, hlength handed left hok⟩
  · exact ((hserved i []).2.2 2).mpr ⟨1, rfl, Nat.zero_lt_one⟩

end JointCircuit
