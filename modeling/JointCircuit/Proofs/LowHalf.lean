/-
JointCircuit.Proofs.LowHalf — 128-bit integers compute with 64-bit words.

Cutting to the low word commutes with the arithmetic (§1), so it
commutes with every operation of a circuit (§2): a circuit has values
over 128-bit integers exactly if it has values over words, and these are
the low words of those. An opened value is reduced to its low word and
goes on as that, in the circuit as over words. Neither evaluation can
tell inputs or constants apart that have the same low word (§3).

Main statement: `Plain.evaluate_in_words`.
-/
import JointCircuit.Circuit.Words
import JointCircuit.Proofs.Clear

namespace JointCircuit

open JointCircuit.Action

/-! ## §1 Words -/

namespace Element

variable (x y : Element .ring128)

theorem size_ring128 : Modulus.ring128.size = 2 ^ 128 := rfl

theorem toNat_word : x.word.toNat = x.val % 2 ^ 64 := by
  rw [word, UInt64.toNat_ofNat']

theorem word_add : (x + y).word = x.word + y.word := by
  apply UInt64.toNat_inj.mp
  rw [UInt64.toNat_add, toNat_word, toNat_word, toNat_word, Fin.val_add,
    Nat.mod_mod_of_dvd _ (by decide), Nat.add_mod]

theorem word_mul : (x * y).word = x.word * y.word := by
  apply UInt64.toNat_inj.mp
  rw [UInt64.toNat_mul, toNat_word, toNat_word, toNat_word, Fin.val_mul,
    Nat.mod_mod_of_dvd _ (by decide), Nat.mul_mod]

theorem word_sub : (x - y).word = x.word - y.word := by
  have hy := y.isLt
  apply UInt64.toNat_inj.mp
  rw [UInt64.toNat_sub, toNat_word, toNat_word, toNat_word, Fin.sub_def]
  simp only [size_ring128] at hy ⊢
  omega

theorem word_neg : (-x).word = -x.word := by
  have hx := x.isLt
  apply UInt64.toNat_inj.mp
  rw [UInt64.toNat_neg, toNat_word, toNat_word, Fin.neg_def]
  simp only [size_ring128, UInt64.size] at hx ⊢
  omega

/-- What an opened value is worth is its low word. -/
theorem ofWord_word : ofWord x.word = x.effective :=
  Fin.ext (toNat_word x)

/-- Opening a value does not change its low word. -/
theorem word_effective : x.effective.word = x.word := by
  apply UInt64.toNat_inj.mp
  rw [toNat_word, toNat_word]
  exact Nat.mod_mod x.val (2 ^ 64)

end Element

/-- The low words of a value. -/
def PlainValue.low : PlainValue .ring128 → WordValue
  | .scalar x => .scalar x.word
  | .batch xs => .batch (xs.map Element.word)
  | .checked => .checked

/-- The effective value of a number, or of every member of a batch. -/
def PlainValue.effective {m : Modulus} : PlainValue m → PlainValue m
  | .scalar x => .scalar x.effective
  | .batch xs => .batch (xs.map Element.effective)
  | .checked => .checked

/-- Words as 128-bit integers. -/
def WordValue.toPlain : WordValue → PlainValue .ring128
  | .scalar w => .scalar (.ofWord w)
  | .batch ws => .batch (ws.map Element.ofWord)
  | .checked => .checked

theorem PlainValue.toPlain_low (v : PlainValue .ring128) : v.low.toPlain = v.effective := by
  cases v with
  | scalar x => rw [low, WordValue.toPlain, Element.ofWord_word, effective]
  | batch xs =>
    rw [low, WordValue.toPlain, effective, List.map_map]
    exact congrArg _ (List.map_congr_left fun x _ => Element.ofWord_word x)
  | checked => rfl

/-! ## §2 Operations -/

namespace Words

open PlainValue

variable {values : List (PlainValue .ring128)}

theorem scalar_low (id : NodeId) :
    scalar (values.map low) id = (Plain.scalar values id).toOption.map Element.word := by
  rw [scalar, Plain.scalar, List.getElem?_map]
  cases values[id]? with
  | none => rfl
  | some v => cases v <;> rfl

/-- An operation on one operand whose low word it takes from the low word of the operand. -/
theorem unary_low {f : Element .ring128 → Element .ring128} {g : UInt64 → UInt64}
    (hfg : ∀ x, (f x).word = g x.word) (x : NodeId) :
    (do return WordValue.scalar (g (← scalar (values.map low) x)))
      = (do return PlainValue.scalar (f (← Plain.scalar values x))
          : Except CircuitError _).toOption.map low := by
  rw [scalar_low]
  cases Plain.scalar values x with
  | error e => rfl
  | ok a => exact congrArg (fun w => some (WordValue.scalar w)) (hfg a).symm

/-- An operation on two operands whose low word it takes from their low words. -/
theorem binary_low {f : Element .ring128 → Element .ring128 → Element .ring128}
    {g : UInt64 → UInt64 → UInt64} (hfg : ∀ x y, (f x y).word = g x.word y.word) (x y : NodeId) :
    (do return WordValue.scalar (g (← scalar (values.map low) x) (← scalar (values.map low) y)))
      = (do return PlainValue.scalar (f (← Plain.scalar values x) (← Plain.scalar values y))
          : Except CircuitError _).toOption.map low := by
  rw [scalar_low, scalar_low]
  cases Plain.scalar values x with
  | error e => rfl
  | ok a =>
    cases Plain.scalar values y with
    | error e => rfl
    | ok b => exact congrArg (fun w => some (WordValue.scalar w)) (hfg a b).symm

theorem products_low (pairs : List (NodeId × NodeId)) :
    (pairs.mapM fun (x, y) =>
        return (← scalar (values.map low) x) * (← scalar (values.map low) y))
      = (pairs.mapM fun (x, y) => do return (← Plain.scalar values x) * (← Plain.scalar values y)
          : Except CircuitError _).toOption.map (List.map Element.word) := by
  induction pairs with
  | nil => rfl
  | cons pair pairs ih =>
    rw [List.mapM_cons, List.mapM_cons, ih]
    simp only [scalar_low]
    cases Plain.scalar values pair.1 with
    | error e => rfl
    | ok a =>
      cases Plain.scalar values pair.2 with
      | error e => rfl
      | ok b =>
        cases pairs.mapM fun (x, y) => (do
            return (← Plain.scalar values x) * (← Plain.scalar values y)
              : Except CircuitError _) with
        | error e => rfl
        | ok products =>
          exact congrArg (fun w => some (w :: products.map Element.word))
            (Element.word_mul a b).symm

/-- The value of an operation over words is the low word of its value over 128-bit integers. -/
theorem value_low (id : NodeId) (op : Operation .ring128) :
    value (values.map low) op = (Plain.value values id op).toOption.map low := by
  cases op with
  | input owner x => cases x <;> rfl
  | add x y => exact binary_low (f := (· + ·)) (g := (· + ·)) Element.word_add x y
  | sub x y => exact binary_low (f := (· - ·)) (g := (· - ·)) Element.word_sub x y
  | neg x => exact unary_low (f := (-·)) (g := (-·)) Element.word_neg x
  | addPublic x c =>
    exact unary_low (f := (· + c)) (g := (· + c.word)) (fun a => Element.word_add a c) x
  | subPublic x c =>
    exact unary_low (f := (· - c)) (g := (· - c.word)) (fun a => Element.word_sub a c) x
  | mulPublic x c =>
    exact unary_low (f := (· * c)) (g := (· * c.word)) (fun a => Element.word_mul a c) x
  | multiply x y => exact binary_low (f := (· * ·)) (g := (· * ·)) Element.word_mul x y
  | multiplyBatch pairs =>
    rw [value, Plain.value, products_low]
    cases pairs.mapM fun (x, y) => (do
        return (← Plain.scalar values x) * (← Plain.scalar values y)
          : Except CircuitError _) <;> rfl
  | select batch index =>
    rw [value, Plain.value, List.getElem?_map]
    cases values[batch]? with
    | none => rfl
    | some v =>
      cases v with
      | scalar x => rfl
      | batch products =>
        simp only [Option.map_some, low, List.getElem?_map]
        cases products[index]? <;> rfl
      | checked => rfl
  | reveal x => exact unary_low (f := Element.effective) (g := (·)) Element.word_effective x
  | macCheck after => rfl

end Words

/-! ## §3 Circuits -/

/-- The operation with its secret and its public constant reduced to their effective values. -/
def Operation.effective {m : Modulus} : Operation m → Operation m
  | .input owner x => .input owner (x.map Element.effective)
  | .addPublic x c => .addPublic x c.effective
  | .subPublic x c => .subPublic x c.effective
  | .mulPublic x c => .mulPublic x c.effective
  | op => op

/-- The circuit with all secrets and public constants reduced to their effective values. -/
def Circuit.effective {m : Modulus} (c : Circuit m) : Circuit m :=
  ⟨c.nodes.map Operation.effective⟩

theorem Operation.eq_reveal_of_effective {m : Modulus} {op : Operation m} {x : NodeId}
    (h : op.effective = .reveal x) : op = .reveal x := by
  cases op with
  | reveal y => exact h
  | _ => cases h

/-- Circuits that reduce to the same one open the same nodes. -/
theorem Circuit.reveal_of_effective_eq {m : Modulus} {c c' : Circuit m}
    (h : c'.effective = c.effective) {id x : NodeId} (hop : c.operation? id = some (.reveal x)) :
    c'.operation? id = some (.reveal x) := by
  have hnode := congrArg (·[id]?) (congrArg nodes h)
  simp only [effective, List.getElem?_map] at hnode
  rw [operation?] at hop ⊢
  rw [hop, Option.map_some, Option.map_eq_some_iff] at hnode
  obtain ⟨op, hop', heq⟩ := hnode
  rw [hop', Operation.eq_reveal_of_effective heq]

namespace Words

variable {values : List (PlainValue .ring128)} {counts after : PlainCounts}

/-- There are values over words exactly if there are values over 128-bit integers, and they are the
low words of these. -/
theorem evaluateFrom_low {ops : List (Operation .ring128)} {words : List WordValue} :
    evaluateFrom (values.map PlainValue.low) ops = some words
      ↔ ∃ plains after, Plain.evaluateFrom values ops counts = .ok plains after
        ∧ plains.map PlainValue.low = words := by
  induction ops generalizing values counts with
  | nil =>
    constructor
    · rintro ⟨⟩
      exact ⟨values, counts, rfl, rfl⟩
    · rintro ⟨plains, after, heval, rfl⟩
      cases heval
      rfl
  | cons op rest ih =>
    rw [evaluateFrom, value_low values.length op]
    simp only [Plain.evaluateFrom, bind_apply, modify_apply]
    cases hvalue : Plain.value values values.length op with
    | error e =>
      refine iff_of_false ?_ ?_
      · rintro ⟨⟩
      · rintro ⟨plains, after, heval, -⟩
        cases heval
    | ok x =>
      have hsnoc : values.map PlainValue.low ++ [x.low] = (values ++ [x]).map PlainValue.low := by
        rw [List.map_append, List.map_singleton]
      show evaluateFrom (values.map PlainValue.low ++ [x.low]) rest = some words ↔ _
      rw [hsnoc]
      exact ih

theorem evaluate_low {c : Circuit .ring128} {words : List WordValue} :
    evaluate c = some words ↔ ∃ plains after, Plain.evaluate c counts = .ok plains after
      ∧ plains.map PlainValue.low = words :=
  @evaluateFrom_low [] counts c.nodes words

/-- Words see nothing of a constant but its low word. -/
theorem value_effective (values : List WordValue) (op : Operation .ring128) :
    value values op.effective = value values op := by
  cases op with
  | input owner x =>
    cases x with
    | none => rfl
    | some x => exact congrArg (fun w => some (WordValue.scalar w)) (Element.word_effective x)
  | addPublic x c => simp only [Operation.effective, value, Element.word_effective]
  | subPublic x c => simp only [Operation.effective, value, Element.word_effective]
  | mulPublic x c => simp only [Operation.effective, value, Element.word_effective]
  | _ => rfl

theorem evaluateFrom_effective (values : List WordValue) (ops : List (Operation .ring128)) :
    evaluateFrom values (ops.map Operation.effective) = evaluateFrom values ops := by
  induction ops generalizing values with
  | nil => rfl
  | cons op rest ih =>
    rw [List.map_cons, evaluateFrom, evaluateFrom, value_effective]
    simp only [ih]

theorem evaluate_effective (c : Circuit .ring128) : evaluate c.effective = evaluate c :=
  evaluateFrom_effective [] c.nodes

end Words

namespace Plain

variable {c : Circuit .ring128} {counts after : PlainCounts} {values : List (PlainValue .ring128)}

/-- An opened node has the value that it has over words. -/
theorem revealed_eq_word (h : evaluate c counts = .ok values after) {id x : NodeId}
    (hop : c.operation? id = some (.reveal x)) :
    ∃ w, (values.map PlainValue.low)[id]? = some (.scalar w)
      ∧ values[id]? = some (.scalar (.ofWord w)) := by
  obtain ⟨v, hv, hvalue⟩ := (computes_of_evaluate h).value id _ hop
  obtain ⟨y, -, hvalue⟩ := except_bind_eq_ok.mp hvalue
  cases hvalue
  refine ⟨y.word, ?_, ?_⟩
  · rw [List.getElem?_map, hv, Option.map_some, PlainValue.low, Element.word_effective]
  · rw [hv, Element.ofWord_word]

/-- A circuit that can be evaluated over 128-bit integers can be evaluated over words, and every
node, every member of a batch included, has there the effective value of what it has here. At an
opened node that is the very same number. So a circuit with other inputs and constants of the same
effective values can be evaluated as well, and opens the same. -/
theorem evaluate_in_words (h : evaluate c counts = .ok values after) :
    ∃ words, Words.evaluate c = some words
      ∧ words.map WordValue.toPlain = values.map PlainValue.effective
      ∧ (∀ id x, c.operation? id = some (.reveal x) →
        ∃ w, words[id]? = some (.scalar w) ∧ values[id]? = some (.scalar (.ofWord w)))
      ∧ ∀ c' : Circuit .ring128, c'.effective = c.effective →
        ∃ values' after', evaluate c' counts = .ok values' after'
          ∧ ∀ id x, c.operation? id = some (.reveal x) → values'[id]? = values[id]? := by
  have hwords : Words.evaluate c = some (values.map PlainValue.low) :=
    Words.evaluate_low.mpr ⟨values, after, h, rfl⟩
  refine ⟨values.map PlainValue.low, hwords, ?_, fun id x hop => revealed_eq_word h hop,
    fun c' heffective => ?_⟩
  · rw [List.map_map]
    exact List.map_congr_left fun v _ => v.toPlain_low
  · have hsame : Words.evaluate c' = some (values.map PlainValue.low) := by
      rw [← Words.evaluate_effective, heffective, Words.evaluate_effective, hwords]
    obtain ⟨values', after', h', hlow⟩ := Words.evaluate_low.mp hsame
    refine ⟨values', after', h', fun id x hop => ?_⟩
    obtain ⟨w, hw, hvalue⟩ := revealed_eq_word h hop
    obtain ⟨w', hw', hvalue'⟩ :=
      revealed_eq_word h' (Circuit.reveal_of_effective_eq heffective hop)
    rw [hlow, hw] at hw'
    cases hw'
    rw [hvalue, hvalue']

/-- Products are subtracted from each other until the difference wraps around. It is opened, and the
opened value is squared, negated and opened again. -/
def wrappingCircuit (x : Element .ring128) : Circuit .ring128 where
  nodes := [.input 1 (some x), .input 2 (some 7), .multiplyBatch [(0, 1), (0, 0)], .select 2 0,
    .select 2 1, .sub 3 4, .subPublic 5 10, .reveal 6, .multiply 7 7, .neg 8, .reveal 9]

/-- The values of the nodes. -/
def wrappingValues (x : Element .ring128) : List (PlainValue .ring128) :=
  let opened := (x * 7 - x * x - 10).effective
  [.scalar x, .scalar 7, .batch [x * 7, x * x], .scalar (x * 7), .scalar (x * x),
    .scalar (x * 7 - x * x), .scalar (x * 7 - x * x - 10), .scalar opened,
    .scalar (opened * opened), .scalar (-(opened * opened)), .scalar (-(opened * opened)).effective]

/-- From 6 the circuit opens the words `-4` and `-16`. From `6 + 2 ^ 64` it opens the same,
although the numbers under the first opening differ. -/
theorem evaluate_in_words_wrapping :
    let x := Element.ofNat .ring128 (6 + 2 ^ 64)
    evaluate (wrappingCircuit 6) {} = .ok (wrappingValues 6) ⟨2, 3⟩
      ∧ (wrappingValues 6)[7]? = some (.scalar (.ofWord (-4)))
      ∧ (wrappingValues 6)[10]? = some (.scalar (.ofWord (-16)))
      ∧ (∃ words, Words.evaluate (wrappingCircuit 6) = some words
        ∧ words.map WordValue.toPlain = (wrappingValues 6).map PlainValue.effective)
      ∧ (wrappingValues x)[6]? ≠ (wrappingValues 6)[6]?
      ∧ ∃ values' after', evaluate (wrappingCircuit x) {} = .ok values' after'
        ∧ values'[7]? = (wrappingValues 6)[7]? ∧ values'[10]? = (wrappingValues 6)[10]? := by
  intro x
  have heval : evaluate (wrappingCircuit 6) {} = .ok (wrappingValues 6) ⟨2, 3⟩ := rfl
  obtain ⟨words, hwords, heffective, -, hchanged⟩ := evaluate_in_words heval
  obtain ⟨values', after', heval', hsame⟩ := hchanged (wrappingCircuit x) (by decide +kernel)
  exact ⟨heval, by decide +kernel, by decide +kernel, ⟨words, hwords, heffective⟩,
    by decide +kernel, values', after', heval', hsame 7 6 rfl, hsame 10 9 rfl⟩

end Plain

end JointCircuit
