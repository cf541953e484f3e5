/-
JointCircuit.Proofs.Expansion — equal seeds expand to material that fits together.

No draw of the synthetic supplier depends on who draws: from one generator
the parties get different parts, but leave it alike. `InStep` (§1) says so
of the draws of all parties at once, together with what their results add
up to. A part of a value is a term of an arithmetic progression, and the
first party makes up for the sum of all terms (§2, `inStep_part`), which
needs no division by two in the residues. Triples and the masks of each
owner have generators of their own, so the suppliers of all parties have
the same sequences ahead (§3), and the order of the calls does not matter
(§4).

Main statement: `synthetic_material` (§5).
-/
import JointCircuit.Proofs.Dealing
import Mathlib.Algebra.BigOperators.Intervals

namespace JointCircuit

open scoped Fin.CommRing

variable {m : Modulus} {n : Nat} {α β : Type}

/-! ## §1 Draws in step -/

/-- From a common generator the parties draw what satisfies `P`, and all leave the generator
alike. -/
def InStep (draw : Fin n → Draw α) (P : (Fin n → α) → Prop) : Prop :=
  ∀ g, (∃ g', ∀ i, (draw i g).2 = g') ∧ P fun i => (draw i g).1

namespace InStep

variable {P P' : (Fin n → α) → Prop} {Q : (Fin n → β) → Prop}

theorem pure {a : Fin n → α} (h : P a) : InStep (fun i => (Pure.pure (a i) : Draw α)) P :=
  fun g => ⟨⟨g, fun _ => rfl⟩, h⟩

/-- All parties draw the same. -/
theorem same {draw : Draw α} {R : α → Prop} (h : Always R draw) :
    InStep (fun _ : Fin n => draw) fun a => ∃ x, R x ∧ a = fun _ => x :=
  fun g => ⟨⟨_, fun _ => rfl⟩, _, h g, rfl⟩

theorem bind {draw : Fin n → Draw α} {next : Fin n → α → Draw β} (h : InStep draw P)
    (hnext : ∀ a, P a → InStep (fun i => next i (a i)) Q) :
    InStep (fun i => draw i >>= next i) Q := by
  intro g
  obtain ⟨⟨g', hg⟩, hP⟩ := h g
  have hstep (i : Fin n) : (draw i >>= next i) g = next i (draw i g).1 g' := by
    rw [← hg i]
    rfl
  simpa only [hstep] using hnext _ hP g'

/-- However often the parties have drawn before, they draw in step. -/
theorem skip {draw : Fin n → Draw α} (h : InStep draw P) (count : Nat) (g : Generator) :
    P fun i => (draw i (Draw.skip (draw i) count g)).1 := by
  induction count generalizing g with
  | zero => exact (h g).2
  | succ count ih =>
    obtain ⟨⟨g', hg⟩, -⟩ := h g
    simpa only [Draw.skip, hg] using ih g'

end InStep

/-! ## §2 Parts -/

/-- The numbers of the parties add up to half a product. -/
theorem sum_numbers (n : Nat) : ∑ i : Fin n, (i.val + 1) = n * (n + 1) / 2 := by
  rw [Fin.sum_univ_eq_sum_range (· + 1) n, ← Nat.add_zero (∑ i ∈ Finset.range n, (i + 1)),
    ← Finset.sum_range_succ' (fun i => i), Finset.sum_range_id, Nat.add_sub_cancel, Nat.mul_comm]

/-- The terms of an arithmetic progression over the parties, summed up. -/
theorem sum_progression (hfit : n * (n + 1) < Bytes.capacity 8) (start step : Element m) :
    ∑ i : Fin n, (start + step * Element.ofNat m (i + 1))
      = start * Element.ofNat m n + step * Element.ofNat m (Synthetic.numberSum n) := by
  have hcast (k : Nat) : Element.ofNat m k = (k : Element m) := rfl
  have hnumbers : ∑ i : Fin n, ((i.val + 1 : Nat) : Element m)
      = (Synthetic.numberSum n : Nat) := by
    rw [← Nat.cast_sum, sum_numbers, Synthetic.numberSum, Nat.mod_eq_of_lt hfit]
  simp only [hcast]
  rw [Finset.sum_add_distrib, ← Finset.mul_sum, hnumbers, Finset.sum_const, Finset.card_univ,
    Fintype.card_fin, nsmul_eq_mul, mul_comm (n : Element m)]

/-- The parts of a value add up to it. -/
theorem inStep_part (hn : 0 < n) (hfit : n * (n + 1) < Bytes.capacity 8) (value : Element m) :
    InStep (fun i : Fin n => Synthetic.part ⟨n, i + 1⟩ value) fun a => ∑ i, a i = value := by
  have hany : Always (fun _ => True) (Draw.element m) := fun _ => trivial
  refine (InStep.same hany).bind ?_
  rintro _ ⟨start, -, rfl⟩
  refine (InStep.same hany).bind ?_
  rintro _ ⟨step, -, rfl⟩
  -- the first party makes up for the sum of all terms
  have hmake (i : Fin n) (x : Element m) : (if i.val + 1 = 1 then
      (Pure.pure (start + step * Element.ofNat m (i + 1) + value - x) : Draw (Element m))
      else Pure.pure (start + step * Element.ofNat m (i + 1)))
      = Pure.pure (start + step * Element.ofNat m (i + 1)
        + if i = ⟨0, hn⟩ then value - x else 0) := by
    by_cases hi : i = ⟨0, hn⟩
    · subst hi
      simp only [if_true, Nat.zero_add]
      rw [add_sub_assoc]
    · have hpos : ¬ i.val + 1 = 1 := fun h => hi (Fin.ext (Nat.succ.inj h))
      rw [if_neg hpos, if_neg hi, add_zero]
  simp only [hmake]
  refine InStep.pure ?_
  rw [Finset.sum_add_distrib, sum_progression hfit, Finset.sum_ite_eq', if_pos (Finset.mem_univ _)]
  ring

section

variable {keyShare : Fin n → Element m}

/-- What the parties hold of a value shares it. -/
theorem inStep_authenticated (hn : 0 < n) (hfit : n * (n + 1) < Bytes.capacity 8)
    (value : Element m) :
    InStep (fun i : Fin n => Synthetic.authenticated ⟨n, i + 1⟩ (∑ i, keyShare i) value)
      fun a => Shared keyShare a value := by
  refine (inStep_part hn hfit value).bind fun share hshare =>
    (inStep_part hn hfit (value * ∑ i, keyShare i)).bind fun mac hmac => InStep.pure ⟨hshare, ?_⟩
  rw [hmac, mul_comm]

/-- A random value is the same everywhere. -/
theorem inStep_randomAuthenticated (hn : 0 < n) (hfit : n * (n + 1) < Bytes.capacity 8) :
    InStep (fun i : Fin n => Synthetic.randomAuthenticated ⟨n, i + 1⟩ (∑ i, keyShare i))
      fun a => ∃ value, (∀ i, (a i).2 = value) ∧ Shared keyShare (fun i => (a i).1) value := by
  have hany : Always (fun _ => True) (Draw.element m) := fun _ => trivial
  refine (InStep.same hany).bind ?_
  rintro _ ⟨value, -, rfl⟩
  exact (inStep_authenticated hn hfit value).bind fun part hpart =>
    InStep.pure ⟨value, fun _ => rfl, hpart⟩

theorem inStep_triple (hn : 0 < n) (hfit : n * (n + 1) < Bytes.capacity 8) :
    InStep (fun i : Fin n => Synthetic.triple ⟨n, i + 1⟩ (∑ i, keyShare i))
      fun t => Shared.Triple keyShare t := by
  refine (inStep_randomAuthenticated hn hfit).bind fun a ha =>
    (inStep_randomAuthenticated hn hfit).bind fun b hb => ?_
  obtain ⟨x, hx, ha⟩ := ha
  obtain ⟨y, hy, hb⟩ := hb
  simp only [hx, hy]
  exact (inStep_authenticated hn hfit (x * y)).bind fun c hc =>
    InStep.pure (a := fun i => (⟨(a i).1, (b i).1, c i⟩ : Triple m)) ⟨x, y, ha, hb, hc⟩

end

/-! ## §3 The suppliers of all parties -/

/-- The suppliers of `n` parties that expand the same seed. -/
structure Matching (s : Fin n → SyntheticSupplier m) : Prop where
  place : ∀ i, (s i).place = ⟨n, i + 1⟩
  key : ∀ i, (s i).key = ∑ j, (s j).keyShare
  triples : ∃ g, ∀ i, (s i).triples = g
  masks : ∃ gs, gs.length = n ∧ ∀ i, (s i).masks = gs

/-- Setting up from the same seed makes the suppliers match. -/
theorem inStep_setup (hn : 0 < n) (hfit : n * (n + 1) < Bytes.capacity 8) :
    InStep (fun i : Fin n => SyntheticSupplier.setup m ⟨n, i + 1⟩) Matching := by
  have hany {α : Type} (draw : Draw α) : Always (fun _ => True) draw := fun _ => trivial
  have hlength : Always (fun seeds => seeds.length = n) (Draw.replicate Draw.seed n) := by
    intro g
    rw [Draw.replicate_eq, List.length_map, List.length_range]
  refine (InStep.same (hany _)).bind ?_
  rintro _ ⟨key, -, rfl⟩
  refine (inStep_part hn hfit key).bind fun keyShare hkey => (InStep.same (hany _)).bind ?_
  rintro _ ⟨triples, -, rfl⟩
  refine (InStep.same hlength).bind ?_
  rintro _ ⟨masks, hmasks, rfl⟩
  exact InStep.pure
    { place := fun _ => rfl
      key := fun _ => hkey.symm
      triples := ⟨.ofPartySeed triples, fun _ => rfl⟩
      masks := ⟨masks.map .ofPartySeed, by rw [List.length_map, hmasks], fun _ => rfl⟩ }

/-- Parties that start from the same byte have matching suppliers. -/
theorem matching_new (m : Modulus) (hn : 0 < n) (hfit : n * (n + 1) < Bytes.capacity 8)
    (seed : UInt8) : Matching fun i : Fin n => SyntheticSupplier.new m n (i + 1) seed :=
  (inStep_setup hn hfit _).2

namespace Matching

variable {s : Fin n → SyntheticSupplier m}

/-- The parties have the same triples ahead. -/
theorem triple_ahead (h : Matching s) (hn : 0 < n) (hfit : n * (n + 1) < Bytes.capacity 8)
    (k : Nat) : ∃ t : Fin n → Triple m, (∀ i, (s i).tripleAhead k = some (t i))
      ∧ Shared.Triple (fun i => (s i).keyShare) t := by
  obtain ⟨g, hg⟩ := h.triples
  refine ⟨_, fun i => ?_, (inStep_triple hn hfit).skip k g⟩
  simp only [SyntheticSupplier.tripleAhead, hg, h.place, h.key]

/-- The parties have the same masks of every owner ahead, and only the owner sees what is
masked. -/
theorem mask_ahead (h : Matching s) (hn : 0 < n) (hfit : n * (n + 1) < Bytes.capacity 8)
    (owner : Fin n) (k : Nat) : ∃ mask : Fin n → InputMask m,
      (∀ i, (s i).maskAhead (owner + 1) k = some (mask i))
      ∧ Shared.Mask (fun i => (s i).keyShare) owner mask
      ∧ ∀ i ≠ owner, (mask i).plaintext = none := by
  obtain ⟨gs, hlength, hgs⟩ := h.masks
  have hlt : owner.val < gs.length := hlength ▸ owner.isLt
  let keyShare (i : Fin n) := (s i).keyShare
  have hrandom : InStep
      (fun i : Fin n => Synthetic.randomAuthenticated ⟨n, i + 1⟩ (∑ i, keyShare i))
      fun a => ∃ value, (∀ i, (a i).2 = value) ∧ Shared keyShare (fun i => (a i).1) value :=
    inStep_randomAuthenticated hn hfit
  have hstep := hrandom.skip k gs[owner.val]
  generalize hdrawn : (fun i : Fin n => (Synthetic.randomAuthenticated ⟨n, i + 1⟩
    (∑ i, (s i).keyShare) (Draw.skip (Synthetic.randomAuthenticated ⟨n, i + 1⟩
      (∑ i, (s i).keyShare)) k gs[owner.val])).1) = drawn at hstep
  obtain ⟨value, hvalue, hshared⟩ := hstep
  refine ⟨fun i => ⟨if i = owner then some value else none, (drawn i).1⟩, fun i => ?_,
    ⟨value, hshared, if_pos rfl⟩, fun i hi => if_neg hi⟩
  have howner : owner.val + 1 = i.val + 1 ↔ i = owner := by
    rw [Fin.ext_iff]
    omega
  have hi := congrFun hdrawn i
  simp only [SyntheticSupplier.maskAhead, Nat.succ_ne_zero, if_false, Nat.add_sub_cancel, hgs,
    List.getElem?_eq_getElem hlt, Option.map_some, h.place, h.key, howner, hi, hvalue]

/-- There is always more. -/
theorem stocked (h : Matching s) (hn : 0 < n) (hfit : n * (n + 1) < Bytes.capacity 8)
    (triples : Nat) (masks : Fin n → Nat) :
    Stocked (fun i => (s i).keyShare) triples masks fun i => .synthetic (s i) where
  triple k _ := h.triple_ahead hn hfit k
  mask owner k _ := by
    obtain ⟨mask, hahead, hshared, -⟩ := h.mask_ahead hn hfit owner k
    exact ⟨mask, hahead, hshared⟩

end Matching

/-! ## §4 Using a supplier -/

namespace Demand

/-- The number of triples that are asked for. -/
def triplesAsked : Demand → Nat
  | .mask _ => 0
  | .triples count => count

end Demand

namespace SyntheticSupplier

variable {s s' : SyntheticSupplier m}

/-- The supplier is one of `n` parties and has a generator for each of them. -/
structure Seated (n : Nat) (s : SyntheticSupplier m) : Prop where
  parties : s.place.parties = n
  masks : s.masks.length = n

theorem Seated.of_nextTriples (h : s.Seated n) {count : Nat} {handed : List (Triple m)}
    (hok : nextTriples count s = .ok handed s') : s'.Seated n := by
  simp only [nextTriples, Action.bind_apply, Action.get_apply] at hok
  cases hok
  exact ⟨h.parties, h.masks⟩

theorem Seated.of_nextMask (h : s.Seated n) {owner : Nat} {mask : InputMask m}
    (hok : nextMask owner s = .ok mask s') : s'.Seated n := by
  simp only [nextMask, Action.bind_apply, Action.get_apply] at hok
  split at hok
  · cases hok
  · cases hg : s.masks[owner - 1]? with
    | none =>
      rw [hg] at hok
      cases hok
    | some generator =>
      rw [hg] at hok
      cases hok
      exact ⟨h.parties, List.length_set.trans h.masks⟩

/-- An owner that is no party is refused by name, and nothing is lost. -/
theorem Seated.nextMask_refused (h : s.Seated n) {number : Nat}
    (hnumber : ∀ owner : Fin n, number ≠ owner + 1) :
    nextMask number s = .error (.config (.partyOutOfRange number n)) s := by
  simp only [nextMask, Action.bind_apply, Action.get_apply, h.parties]
  by_cases hzero : number = 0
  · simp only [hzero, if_true, Action.bind_apply, Action.throw_apply]
  · have hout : s.masks.length ≤ number - 1 := by
      by_contra hlt
      refine hnumber ⟨number - 1, by rw [← h.masks]; omega⟩ ?_
      simp only
      omega
    simp only [hzero, if_false, List.getElem?_eq_none hout, Action.throw_apply]

/-- Of the sequences `triple` and `mask owner` the supplier has handed out the first ones, and has
all others ahead. -/
structure Handed (triple : Nat → Triple m) (mask : Fin n → Nat → InputMask m) (t : Nat)
    (c : Fin n → Nat) (u : Served (SyntheticSupplier m) m) : Prop where
  seated : u.supplier.Seated n
  triples : u.triples = (List.range t).map triple
  masks : ∀ owner : Fin n, u.masks (owner + 1) = (List.range (c owner)).map (mask owner)
  triplesAhead : ∀ k, u.supplier.tripleAhead k = some (triple (t + k))
  masksAhead : ∀ (owner : Fin n) k,
    u.supplier.maskAhead (owner + 1) k = some (mask owner (c owner + k))

namespace Handed

variable {triple : Nat → Triple m} {mask : Fin n → Nat → InputMask m} {t : Nat} {c : Fin n → Nat}
  {u : Served (SyntheticSupplier m) m}

/-- One call hands out what it asks for, or asks for masks of nobody. -/
theorem serve (h : Handed triple mask t c u) (demand : Demand) :
    Handed triple mask (t + demand.triplesAsked)
      (fun owner => c owner + [demand].count (.mask (owner + 1))) (u.serve demand) := by
  cases demand with
  | triples count =>
    have hahead : ∀ k < count, u.supplier.tripleAhead k = some (triple (t + k)) :=
      fun k _ => h.triplesAhead k
    obtain ⟨left, hok, htriples, hmasks⟩ := nextTriples_eq hahead
    have hnone (owner : Fin n) : [Demand.triples count].count (.mask (owner + 1)) = 0 :=
      List.count_eq_zero_of_not_mem (by simp)
    simp only [Served.serve, Provider.nextTriples, hok, Demand.triplesAsked, hnone, Nat.add_zero]
    refine ⟨h.seated.of_nextTriples hok, ?_, h.masks, fun k => ?_, fun owner k => ?_⟩
    · rw [h.triples, List.range_add, List.map_append, List.map_map]
      rfl
    · rw [htriples, h.triplesAhead, Nat.add_assoc]
    · rw [hmasks, h.masksAhead]
  | mask number =>
    by_cases hnumber : ∃ o : Fin n, number = o + 1
    · obtain ⟨o, rfl⟩ := hnumber
      obtain ⟨left, hok, hmasks, htriples⟩ := nextMask_eq (h.masksAhead o 0)
      simp only [Served.serve, Provider.nextMask, hok, Demand.triplesAsked, Nat.add_zero]
      refine ⟨h.seated.of_nextMask hok, h.triples, fun p => ?_, fun k => ?_, fun p k => ?_⟩
      · by_cases hp : p = o
        · subst hp
          simp [h.masks, List.range_succ]
        · have hne : p.val + 1 ≠ o.val + 1 := fun heq => hp (Fin.ext (Nat.succ.inj heq))
          have hother : Demand.mask (o + 1) ≠ .mask (p + 1) := by simpa using hne.symm
          simp only [Function.update_of_ne hne, List.count_singleton,
            beq_eq_false_iff_ne.mpr hother, Bool.false_eq_true, if_false, Nat.add_zero, h.masks]
      · rw [htriples, h.triplesAhead]
      · by_cases hp : p = o
        · subst hp
          rw [hmasks, if_pos rfl, h.masksAhead, List.count_singleton_self]
          congr 2
          omega
        · have hne : p.val + 1 ≠ o.val + 1 := fun heq => hp (Fin.ext (Nat.succ.inj heq))
          have hother : Demand.mask (o + 1) ≠ .mask (p + 1) := by simpa using hne.symm
          rw [hmasks, if_neg hne, h.masksAhead, List.count_singleton,
            beq_eq_false_iff_ne.mpr hother]
          rfl
    · have hnobody (owner : Fin n) : number ≠ owner + 1 := fun heq => hnumber ⟨owner, heq⟩
      have hnone (owner : Fin n) : [Demand.mask number].count (.mask (owner + 1)) = 0 :=
        List.count_eq_zero_of_not_mem (by simpa using (hnobody owner).symm)
      simp only [Served.serve, Provider.nextMask, h.seated.nextMask_refused hnobody,
        Demand.triplesAsked, hnone, Nat.add_zero]
      exact h

/-- Any sequence of calls hands out exactly what the calls ask for. -/
theorem serveAll (h : Handed triple mask t c u) (demands : List Demand) :
    Handed triple mask (t + (demands.map Demand.triplesAsked).sum)
      (fun owner => c owner + demands.count (.mask (owner + 1))) (u.serveAll demands) := by
  induction demands generalizing t c u with
  | nil =>
    simp only [List.map_nil, List.sum_nil, List.count_nil, Nat.add_zero]
    exact h
  | cons demand demands ih =>
    have hrest := ih (h.serve demand)
    have hcount (owner : Fin n) : (demand :: demands).count (.mask (owner + 1))
        = [demand].count (.mask (owner + 1)) + demands.count (.mask (owner + 1)) := by
      rw [← List.singleton_append, List.count_append]
    simpa only [Served.serveAll, List.foldl_cons, List.map_cons, List.sum_cons, hcount,
      Nat.add_assoc] using hrest

end Handed

end SyntheticSupplier

/-! ## §5 The contract -/

/-- Parties that start from the same seed hold parts of one MAC key. However each of them is asked,
in whatever order and in whatever batches, it hands out exactly what it is asked for, from the same
sequences: triples that share a product, and for every owner masks that share a value only the owner
is told. Masks of nobody are refused, and that changes nothing. -/
theorem synthetic_material (m : Modulus) (seed : UInt8) (hn : 0 < n)
    (hfit : n * (n + 1) < Bytes.capacity 8) :
    let supplier (i : Fin n) := SyntheticSupplier.new m n (i + 1) seed
    let keyShare (i : Fin n) := (supplier i).keyShare
    (∀ i, (supplier i).key = ∑ j, keyShare j)
    ∧ ∃ (triple : Nat → Fin n → Triple m) (mask : Fin n → Nat → Fin n → InputMask m),
      (∀ k, Shared.Triple keyShare (triple k))
      ∧ (∀ owner k, Shared.Mask keyShare owner (mask owner k)
          ∧ ∀ i ≠ owner, (mask owner k i).plaintext = none)
      ∧ ∀ (i : Fin n) (demands : List Demand),
        let used := (Served.start (supplier i)).serveAll demands
        used.triples = (List.range (demands.map Demand.triplesAsked).sum).map (triple · i)
        ∧ (∀ owner : Fin n, used.masks (owner + 1)
            = (List.range (demands.count (Demand.mask (owner + 1)))).map (mask owner · i))
        ∧ ∀ number : Nat, (∀ owner : Fin n, number ≠ owner + 1) →
            SyntheticSupplier.nextMask number used.supplier
              = .error (.config (.partyOutOfRange number n)) used.supplier := by
  intro supplier keyShare
  have hmatch : Matching supplier := matching_new m hn hfit seed
  choose triple htriple hproduct using hmatch.triple_ahead hn hfit
  choose mask hmask hvalue hhidden using hmatch.mask_ahead hn hfit
  refine ⟨hmatch.key, triple, mask, hproduct, fun owner k => ⟨hvalue owner k, hhidden owner k⟩,
    fun i demands => ?_⟩
  obtain ⟨gs, hlength, hgs⟩ := hmatch.masks
  have hstart : SyntheticSupplier.Handed (triple · i) (mask · · i) 0 (fun _ => 0)
      (.start (supplier i)) :=
    { seated := ⟨by rw [Served.start, hmatch.place],
        by rw [Served.start, hgs, hlength]⟩
      triples := rfl
      masks := fun _ => rfl
      triplesAhead := fun k => by rw [Nat.zero_add]; exact htriple k i
      masksAhead := fun owner k => by rw [Nat.zero_add]; exact hmask owner k i }
  have h := hstart.serveAll demands
  simp only [Nat.zero_add] at h
  exact ⟨h.triples, h.masks, fun number hnumber => h.seated.nextMask_refused hnumber⟩

/-- Two parties in the ring: the first asks for a mask of nobody in between, the second for single
triples, and the two triples and the mask they get are the same. -/
theorem synthetic_material_pair : 0 < 2 ∧ 2 * (2 + 1) < Bytes.capacity 8
    ∧ ∃ (triple : Nat → Fin 2 → Triple .ring128) (mask : Nat → Fin 2 → InputMask .ring128),
      let supplier (i : Fin 2) := SyntheticSupplier.new .ring128 2 (i + 1) 7
      let first := (Served.start (supplier 0)).serveAll
        [.triples 2, .mask 9, .mask 2]
      let second := (Served.start (supplier 1)).serveAll
        [.mask 2, .triples 1, .triples 1]
      first.triples = [triple 0 0, triple 1 0] ∧ second.triples = [triple 0 1, triple 1 1]
      ∧ first.masks 2 = [mask 0 0] ∧ second.masks 2 = [mask 0 1]
      ∧ (mask 0 0).plaintext = none ∧ (mask 0 1).plaintext ≠ none := by
  refine ⟨by decide, by decide, ?_⟩
  obtain ⟨-, triple, mask, -, hmask, hused⟩ :=
    synthetic_material .ring128 7 (n := 2) (by decide) (by decide)
  obtain ⟨hfirst, hfirstMasks, -⟩ := hused 0 [.triples 2, .mask 9, .mask 2]
  obtain ⟨hsecond, hsecondMasks, -⟩ := hused 1 [.mask 2, .triples 1, .triples 1]
  have hone : ((1 : Fin 2) : Nat) + 1 = 2 := rfl
  have hfirstMask := hfirstMasks 1
  have hsecondMask := hsecondMasks 1
  rw [hone] at hfirstMask hsecondMask
  obtain ⟨⟨value, -, hvalue⟩, hhidden⟩ := hmask 1 0
  refine ⟨triple, mask 1, hfirst.trans rfl, hsecond.trans rfl, hfirstMask.trans rfl,
    hsecondMask.trans rfl, hhidden 0 (by decide), ?_⟩
  rw [hvalue]
  exact Option.some_ne_none value

end JointCircuit
