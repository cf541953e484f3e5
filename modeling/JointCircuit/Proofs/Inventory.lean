/-
JointCircuit.Proofs.Inventory — dealt material is handed out once, in one order.

Everything is taken from the back of a list, so what a supplier has
handed out of a list, followed by what is left of it back to front, is
the list it was dealt, back to front. The books of a supplier in use
balance in this way (`Balanced`) for the triples, for the masks of every
owner and for the plaintexts of the own masks. As own masks and
plaintexts start with equal numbers, a mask is never without its
plaintext; what can fail is a call for nobody's mask or for more than is
left, and it fails before it takes anything (§1).

Main statement: `DealtSupplier.served_once`.
-/
import JointCircuit.Proofs.Dealing

namespace JointCircuit

variable {m : Modulus} {n : Nat}

/-! ## §1 One call -/

namespace DealtSupplier

variable {s : DealtSupplier m} {owner count : Nat}

/-- What is asked of data before it is accepted. -/
theorem new_eq_ok {data : DealtData m} (h : new data = .ok s) :
    s = ⟨data⟩ ∧ data.masks.length = data.parties
      ∧ (masksOf ⟨data⟩ data.party).length = data.plaintexts.length := by
  simp only [new] at h
  split at h
  · cases h
  · split at h
    · cases h
    · split at h
      · cases h
      · rename_i hlength
        split at h
        · cases h
        · rename_i hpaired
          cases h
          exact ⟨rfl, not_not.mp hlength, not_not.mp hpaired⟩

theorem nextTriples_of_lt (h : s.triplesLeft < count) :
    nextTriples count s = .error (.exhausted (.triples count s.triplesLeft)) s := by
  simp only [nextTriples, Action.bind_apply, Action.get_apply, h, if_true, Action.throw_apply]

theorem nextTriples_of_le (h : count ≤ s.triplesLeft) :
    nextTriples count s = .ok (s.data.triples.drop (s.triplesLeft - count)).reverse
      ⟨{ s.data with triples := s.data.triples.take (s.triplesLeft - count) }⟩ := by
  simp only [nextTriples, Action.bind_apply, Action.get_apply, Nat.not_lt.mpr h, if_false,
    Action.pure_apply, Action.set_apply]

/-- Without a mask to give, a call says whether the owner exists. -/
theorem nextMask_of_nil (h : s.masksOf owner = []) :
    nextMask owner s
      = .error (if owner = 0 ∨ s.data.masks.length < owner
          then .config (.partyOutOfRange owner s.data.parties)
          else .exhausted (.masks owner)) s := by
  simp only [nextMask, Action.bind_apply, Action.get_apply]
  split
  · rfl
  · simp only [h, List.getLast?_nil, Action.throw_apply]

theorem owner_of_masksOf {masks : List (AuthShare m)} {part : AuthShare m}
    (h : s.masksOf owner = masks ++ [part]) : ¬ (owner = 0 ∨ s.data.masks.length < owner) := by
  intro hout
  rw [masksOf_eq_nil hout] at h
  exact List.append_ne_nil_of_right_ne_nil masks (List.cons_ne_nil part []) h.symm

/-- The last own mask goes with the last plaintext. -/
theorem nextMask_own {masks : List (AuthShare m)} {part : AuthShare m}
    {plaintexts : List (Element m)} {x : Element m} (hown : owner = s.data.party)
    (hmasks : s.masksOf owner = masks ++ [part]) (hplain : s.data.plaintexts = plaintexts ++ [x]) :
    nextMask owner s = .ok ⟨some x, part⟩
      ⟨{ s.data with masks := s.data.masks.set (owner - 1) masks, plaintexts }⟩ := by
  have hin := owner_of_masksOf hmasks
  simp only [nextMask, Action.bind_apply, Action.get_apply, hin, if_false, hmasks, hplain,
    List.getLast?_concat, List.dropLast_concat, Action.pure_apply, Action.set_apply, ← hown,
    if_true]

/-- The last mask of another owner comes without a plaintext. -/
theorem nextMask_other {masks : List (AuthShare m)} {part : AuthShare m}
    (hother : owner ≠ s.data.party) (hmasks : s.masksOf owner = masks ++ [part]) :
    nextMask owner s = .ok ⟨none, part⟩
      ⟨{ s.data with masks := s.data.masks.set (owner - 1) masks }⟩ := by
  have hin := owner_of_masksOf hmasks
  simp only [nextMask, Action.bind_apply, Action.get_apply, hin, if_false, hmasks,
    List.getLast?_concat, List.dropLast_concat, Action.pure_apply, Action.set_apply, hother]

/-- Only a call for too many triples fails. -/
theorem nextTriples_eq_error {fault : Fault} {after : DealtSupplier m} :
    nextTriples count s = .error fault after
      ↔ s.triplesLeft < count ∧ fault = .exhausted (.triples count s.triplesLeft) ∧ after = s := by
  rcases Nat.lt_or_ge s.triplesLeft count with hfew | henough
  · rw [nextTriples_of_lt hfew]
    constructor
    · rintro ⟨⟩
      exact ⟨hfew, rfl, rfl⟩
    · rintro ⟨-, rfl, rfl⟩
      rfl
  · rw [nextTriples_of_le henough]
    exact iff_of_false nofun fun h => Nat.not_lt.mpr henough h.1

/-- Where own masks and plaintexts are equal in number, a call fails for want of a mask or takes the
last one; from the own list it takes the last plaintext with it. -/
theorem Fits.nextMask_cases (hfits : s.Fits n) (owner : Nat) :
    (s.masksOf owner = [] ∧ DealtSupplier.nextMask owner s
      = .error (if owner = 0 ∨ n < owner then .config (.partyOutOfRange owner s.data.parties)
          else .exhausted (.masks owner)) s)
    ∨ ∃ masks part plaintexts plaintext, s.masksOf owner = masks ++ [part]
      ∧ DealtSupplier.nextMask owner s = .ok ⟨plaintext, part⟩
          ⟨{ s.data with masks := s.data.masks.set (owner - 1) masks, plaintexts }⟩
      ∧ (owner = s.data.party → s.data.plaintexts.map some = plaintexts.map some ++ [plaintext])
      ∧ (owner ≠ s.data.party → plaintexts = s.data.plaintexts ∧ plaintext = none) := by
  rcases List.eq_nil_or_concat' (s.masksOf owner) with hnil | ⟨masks, part, hmasks⟩
  · exact .inl ⟨hnil, hfits.length ▸ nextMask_of_nil hnil⟩
  · refine .inr ?_
    by_cases hown : owner = s.data.party
    · -- This is where the branch without a plaintext is ruled out.
      have hsome : s.data.plaintexts ≠ [] := by
        intro hnil
        have hpaired := hfits.paired
        rw [← hown, hmasks, hnil] at hpaired
        simp at hpaired
      obtain ⟨plaintexts, x, hplain⟩ := (List.eq_nil_or_concat' _).resolve_left hsome
      exact ⟨masks, part, plaintexts, some x, hmasks, nextMask_own hown hmasks hplain,
        fun _ => by simp [hplain], fun hne => absurd hown hne⟩
    · exact ⟨masks, part, s.data.plaintexts, none, hmasks, nextMask_other hown hmasks,
        fun heq => absurd heq hown, fun _ => ⟨rfl, rfl⟩⟩

/-- Only a call for a mask that is not there fails. -/
theorem Fits.nextMask_eq_error (hfits : s.Fits n) {fault : Fault} {after : DealtSupplier m} :
    DealtSupplier.nextMask owner s = .error fault after
      ↔ s.masksOf owner = []
        ∧ fault = (if owner = 0 ∨ n < owner then .config (.partyOutOfRange owner s.data.parties)
          else .exhausted (.masks owner))
        ∧ after = s := by
  rcases hfits.nextMask_cases owner with
    ⟨hnil, herror⟩ | ⟨masks, part, plaintexts, plaintext, hmasks, hok, -⟩
  · rw [herror]
    constructor
    · rintro ⟨⟩
      exact ⟨hnil, rfl, rfl⟩
    · rintro ⟨-, rfl, rfl⟩
      rfl
  · rw [hok, hmasks]
    exact iff_of_false nofun fun h => List.append_ne_nil_of_right_ne_nil _ (by simp) h.1

end DealtSupplier

/-! ## §2 The books -/

/-- What a supplier in use has handed out and what it has left add up to what it was dealt. -/
structure Balanced (data : DealtData m) (u : Served (DealtSupplier m) m) : Prop where
  party : u.supplier.data.party = data.party
  parties : u.supplier.data.parties = data.parties
  length : u.supplier.data.masks.length = data.masks.length
  triples : u.triples ++ u.supplier.data.triples.reverse = data.triples.reverse
  masks : ∀ owner, (u.masks owner).map InputMask.mask ++ (u.supplier.masksOf owner).reverse
    = (DealtSupplier.masksOf ⟨data⟩ owner).reverse
  plaintexts : (u.masks data.party).map InputMask.plaintext
      ++ u.supplier.data.plaintexts.reverse.map some
    = data.plaintexts.reverse.map some
  hidden : ∀ owner ≠ data.party, ∀ mask ∈ u.masks owner, mask.plaintext = none

namespace Balanced

variable {data : DealtData m} {u : Served (DealtSupplier m) m}

/-- The books are opened. -/
theorem start (data : DealtData m) : Balanced data (.start ⟨data⟩) where
  party := rfl
  parties := rfl
  length := rfl
  triples := rfl
  masks := fun _ => rfl
  plaintexts := rfl
  hidden := fun _ _ _ hmem => absurd hmem List.not_mem_nil

/-- There is a plaintext for every own mask: as many of both have been handed out. -/
theorem paired (h : Balanced data u)
    (hdealt : (DealtSupplier.masksOf ⟨data⟩ data.party).length = data.plaintexts.length) :
    (u.supplier.masksOf data.party).length = u.supplier.data.plaintexts.length := by
  have hmasks := congrArg List.length (h.masks data.party)
  have hplaintexts := congrArg List.length h.plaintexts
  simp only [List.length_append, List.length_map, List.length_reverse] at hmasks hplaintexts
  omega

/-- The own masks and their plaintexts stand at the same places. -/
theorem plaintext_eq (h : Balanced data u) {i : Nat} {mask : InputMask m}
    (hmask : (u.masks data.party)[i]? = some mask) :
    ∃ x, mask.plaintext = some x ∧ data.plaintexts.reverse[i]? = some x
      ∧ (DealtSupplier.masksOf ⟨data⟩ data.party).reverse[i]? = some mask.mask := by
  have hlt := (List.getElem?_eq_some_iff.mp hmask).1
  have hplain := congrArg (·[i]?) h.plaintexts
  have hpart := congrArg (·[i]?) (h.masks data.party)
  simp only [List.getElem?_append, List.length_map, hlt, if_true, List.getElem?_map, hmask,
    Option.map_some] at hplain hpart
  cases hx : data.plaintexts.reverse[i]? with
  | none =>
    rw [hx] at hplain
    cases hplain
  | some x =>
    rw [hx] at hplain
    exact ⟨x, Option.some.inj hplain, rfl, hpart.symm⟩

/-- Triples are handed out from the back, or there are too few and nothing happens. -/
theorem serve_triples (h : Balanced data u) (count : Nat) :
    Balanced data (u.serve (.triples count)) := by
  rcases Nat.lt_or_ge u.supplier.triplesLeft count with hfew | henough
  · simp only [Served.serve, Provider.nextTriples, DealtSupplier.nextTriples_of_lt hfew]
    exact h
  · simp only [Served.serve, Provider.nextTriples, DealtSupplier.nextTriples_of_le henough]
    refine { h with triples := ?_ }
    rw [List.append_assoc, ← List.reverse_append, List.take_append_drop]
    exact h.triples

/-- The books after a mask of `owner` has left, alone or with the last plaintext. -/
theorem handOver (h : Balanced data u) {owner : Nat} {masks : List (AuthShare m)}
    {part : AuthShare m} {plaintexts : List (Element m)} {plaintext : Option (Element m)}
    (hmasks : u.supplier.masksOf owner = masks ++ [part])
    (hown : owner = data.party → u.supplier.data.plaintexts.map some
      = plaintexts.map some ++ [plaintext])
    (hother : owner ≠ data.party → plaintexts = u.supplier.data.plaintexts ∧ plaintext = none) :
    Balanced data
      { u with
        supplier := ⟨{ u.supplier.data with
          masks := u.supplier.data.masks.set (owner - 1) masks, plaintexts }⟩
        masks := Function.update u.masks owner (u.masks owner ++ [⟨plaintext, part⟩]) } := by
  obtain ⟨hpos, hrange⟩ := not_or.mp (DealtSupplier.owner_of_masksOf hmasks)
  have hleft (o : Nat) :=
    DealtSupplier.masksOf_set hpos (Nat.le_of_not_lt hrange) masks plaintexts o
  refine ⟨h.party, h.parties, ?_, h.triples, fun o => ?_, ?_, fun o ho mask hmem => ?_⟩
  · rw [List.length_set]
    exact h.length
  · rw [hleft, ← h.masks o]
    dsimp only
    by_cases hkey : o = owner
    · subst hkey
      rw [if_pos rfl, Function.update_self, hmasks]
      simp
    · rw [if_neg hkey, Function.update_of_ne hkey]
  · rw [← h.plaintexts]
    dsimp only
    by_cases hkey : owner = data.party
    · subst hkey
      rw [Function.update_self, List.map_reverse, List.map_reverse, hown rfl]
      simp
    · rw [Function.update_of_ne (Ne.symm hkey), (hother hkey).1]
  · dsimp only at hmem
    by_cases hkey : o = owner
    · subst hkey
      rw [Function.update_self, List.mem_append, List.mem_singleton] at hmem
      rcases hmem with hmem | rfl
      · exact h.hidden o ho mask hmem
      · exact (hother ho).2
    · rw [Function.update_of_ne hkey] at hmem
      exact h.hidden o ho mask hmem

/-- There is a mask list for every party and a plaintext for every own mask. -/
theorem fits (h : Balanced data u) (hlength : data.masks.length = n)
    (hdealt : (DealtSupplier.masksOf ⟨data⟩ data.party).length = data.plaintexts.length) :
    u.supplier.Fits n :=
  ⟨h.length.trans hlength, by rw [h.party]; exact h.paired hdealt⟩

/-- A mask is handed out from the back, or there is none and nothing happens. -/
theorem serve_mask (h : Balanced data u)
    (hdealt : (DealtSupplier.masksOf ⟨data⟩ data.party).length = data.plaintexts.length)
    (owner : Nat) : Balanced data (u.serve (.mask owner)) := by
  rcases (h.fits rfl hdealt).nextMask_cases owner with
    ⟨-, herror⟩ | ⟨masks, part, plaintexts, plaintext, hmasks, hok, hown, hother⟩
  · simp only [Served.serve, Provider.nextMask, herror]
    exact h
  · simp only [Served.serve, Provider.nextMask, hok]
    rw [h.party] at hown hother
    exact h.handOver hmasks hown hother

/-- Whatever calls are made, the books stay balanced. -/
theorem serveAll (h : Balanced data u)
    (hdealt : (DealtSupplier.masksOf ⟨data⟩ data.party).length = data.plaintexts.length)
    (demands : List Demand) : Balanced data (u.serveAll demands) := by
  induction demands generalizing u with
  | nil => exact h
  | cons demand demands ih =>
    cases demand with
    | mask owner => exact ih (h.serve_mask hdealt owner)
    | triples count => exact ih (h.serve_triples count)

end Balanced

/-! ## §3 The contract -/

namespace DealtSupplier

variable {data : DealtData m} {s : DealtSupplier m}

/-- Of data that is accepted everything is handed out once, in the opposite order of dealing,
whatever calls are made. An own mask comes with the plaintext dealt at its place, a mask of another
owner with none. A call fails exactly if it names an owner that is no party or asks for more than
is left, never for want of a plaintext, and then it takes nothing. -/
theorem served_once (hnew : new data = .ok s) (demands : List Demand) :
    let served := (Served.start s).serveAll demands
    let left := served.supplier
    served.triples ++ left.data.triples.reverse = data.triples.reverse
    ∧ (∀ owner, (served.masks owner).map InputMask.mask ++ (left.masksOf owner).reverse
        = (masksOf ⟨data⟩ owner).reverse)
    ∧ (∀ (i : Nat) (mask : InputMask m), (served.masks data.party)[i]? = some mask →
        ∃ x, mask.plaintext = some x ∧ data.plaintexts.reverse[i]? = some x
          ∧ (masksOf ⟨data⟩ data.party).reverse[i]? = some mask.mask)
    ∧ (∀ owner ≠ data.party, ∀ mask ∈ served.masks owner, mask.plaintext = none)
    ∧ (left.masksOf data.party).length = left.data.plaintexts.length
    ∧ (∀ count, (∃ fault after, nextTriples count left = .error fault after)
        ↔ left.triplesLeft < count)
    ∧ (∀ owner, (∃ fault after, nextMask owner left = .error fault after)
        ↔ ¬ (1 ≤ owner ∧ owner ≤ data.parties) ∨ left.masksLeft owner < 1)
    ∧ (∀ count fault after, nextTriples count left = .error fault after → after = left)
    ∧ ∀ owner fault after, nextMask owner left = .error fault after →
        after = left ∧ fault ≠ .exhausted .maskPlaintexts := by
  obtain ⟨rfl, hlength, hdealt⟩ := new_eq_ok hnew
  intro served left
  have h : Balanced data served := (Balanced.start data).serveAll hdealt demands
  have hfits : left.Fits data.parties := h.fits hlength hdealt
  refine ⟨h.triples, h.masks, fun i mask hmask => h.plaintext_eq hmask, h.hidden,
    h.paired hdealt, fun count => ?_, fun owner => ?_, fun count fault after hfails => ?_,
    fun owner fault after hfails => ?_⟩
  · simp only [nextTriples_eq_error]
    exact ⟨fun ⟨_, _, hfew, _⟩ => hfew, fun hfew => ⟨_, _, hfew, rfl, rfl⟩⟩
  · have hnil : left.masksOf owner = []
        ↔ ¬ (1 ≤ owner ∧ owner ≤ data.parties) ∨ left.masksLeft owner < 1 := by
      rw [masksLeft, Nat.lt_one_iff, List.length_eq_zero_iff]
      refine ⟨.inr, fun h => h.elim (fun hout => masksOf_eq_nil ?_) id⟩
      rw [hfits.length]
      omega
    simp only [hfits.nextMask_eq_error, ← hnil]
    exact ⟨fun ⟨_, _, h, _⟩ => h, fun h => ⟨_, _, h, rfl, rfl⟩⟩
  · exact (nextTriples_eq_error.mp hfails).2.2
  · obtain ⟨-, rfl, rfl⟩ := hfits.nextMask_eq_error.mp hfails
    refine ⟨rfl, ?_⟩
    split <;> nofun

/-- What the second of three parties was dealt: three triples, and masks of the first two. -/
def samplePile : DealtData .mersenne61 where
  parties := 3
  party := 2
  keyShare := 5
  triples := [⟨⟨1, 2⟩, ⟨3, 4⟩, ⟨5, 6⟩⟩, ⟨⟨7, 8⟩, ⟨9, 10⟩, ⟨11, 12⟩⟩, ⟨⟨13, 14⟩, ⟨15, 16⟩, ⟨17, 18⟩⟩]
  masks := [[⟨21, 22⟩], [⟨31, 32⟩, ⟨33, 34⟩], []]
  plaintexts := [41, 43]

/-- Two of the triples and one own mask are served between calls that ask for too much, for masks
of nobody, and for a third party's masks of which there are none. -/
theorem served_once_samplePile : new samplePile = .ok ⟨samplePile⟩
    ∧ let served := (Served.start ⟨samplePile⟩).serveAll
        [.triples 4, .mask 2, .mask 4, .triples 2, .mask 0, .mask 3, .triples 2]
      served.triples = [⟨⟨13, 14⟩, ⟨15, 16⟩, ⟨17, 18⟩⟩, ⟨⟨7, 8⟩, ⟨9, 10⟩, ⟨11, 12⟩⟩]
      ∧ served.masks 2 = [⟨some 43, ⟨33, 34⟩⟩]
      ∧ served.triples ++ served.supplier.data.triples.reverse = samplePile.triples.reverse
      ∧ (served.supplier.masksOf 2).length = served.supplier.data.plaintexts.length
      ∧ ∃ fault, nextMask 3 served.supplier = .error fault served.supplier
        ∧ fault ≠ .exhausted .maskPlaintexts := by
  have haccepted : new samplePile = .ok ⟨samplePile⟩ := rfl
  have h := served_once haccepted
    [.triples 4, .mask 2, .mask 4, .triples 2, .mask 0, .mask 3, .triples 2]
  obtain ⟨htriples, -, -, -, hpaired, -, hfails, -, htakes⟩ := h
  refine ⟨haccepted, by decide, by decide, htriples, hpaired, ?_⟩
  obtain ⟨fault, after, herror⟩ := (hfails 3).mpr (.inr (by decide))
  obtain ⟨rfl, hcause⟩ := htakes 3 fault after herror
  exact ⟨fault, herror, hcause⟩

end DealtSupplier

end JointCircuit
