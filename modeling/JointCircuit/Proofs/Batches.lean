/-
JointCircuit.Proofs.Batches — a batch of products and its products one by one.

A party can multiply pairs in one batch, or by a protocol for each pair
that it evaluates in turn in the same rounds (`Round.inTurn`). Both take
the same triples for the same pairs (§4) and send the same bytes, in one
payload or in several (§5). Payloads that are cut at the same places
decode and open alike (§1), so both are done on the same received bytes,
with the same products and the same entries in the store (§2 and §6);
what they do with bytes that do not decode may differ. Main statement:
`MultiplyBatch.same_as_singles`.
-/
import JointCircuit.Proofs.Branches
import JointCircuit.Proofs.Openings

namespace JointCircuit

variable {m : Modulus} {n : Nat}

/-! ## §1 Payloads in pieces -/

namespace Element

theorem encodeAll_append (xs ys : List (Element m)) :
    encodeAll (xs ++ ys) = encodeAll xs ++ encodeAll ys :=
  List.flatMap_append

/-- A payload of the right length decodes exactly if it encodes what it decodes to. -/
theorem decodeAll_eq_ok_iff {count : Nat} {bytes : Bytes} {xs : List (Element m)}
    (h : bytes.length = count * m.byteLength) :
    decodeAll m count bytes = .ok xs ↔ bytes = encodeAll xs := by
  have hcount : bytes.length / m.byteLength = count := by
    rw [h, Nat.mul_div_cancel _ m.byteLength_pos]
  rw [decodeAll, if_pos (.inl h), hcount]
  induction count generalizing bytes xs with
  | zero =>
    have hbytes : bytes = [] := List.length_eq_zero_iff.mp (by simpa using h)
    constructor
    · rintro ⟨⟩
      exact hbytes
    · intro hxs
      have hlength := congrArg List.length hxs
      rw [h, length_encodeAll, Nat.mul_right_cancel_iff m.byteLength_pos] at hlength
      rw [List.length_eq_zero_iff.mp hlength.symm]
      rfl
  | succ count ih =>
    have hdrop : (bytes.drop m.byteLength).length = count * m.byteLength := by
      rw [List.length_drop, h, Nat.succ_mul, Nat.add_sub_cancel]
    have hrest := fun xs => @ih (bytes.drop m.byteLength) xs hdrop
      (by rw [hdrop, Nat.mul_div_cancel _ m.byteLength_pos])
    constructor
    · intro hdecode
      obtain ⟨x, hx, hdecode⟩ := except_bind_eq_ok.mp hdecode
      obtain ⟨ys, hys, hdecode⟩ := except_bind_eq_ok.mp hdecode
      cases hdecode
      calc bytes = bytes.take m.byteLength ++ bytes.drop m.byteLength :=
            (List.take_append_drop _ _).symm
        _ = encodeAll (x :: ys) := by
            rw [ofBytes_eq_ok_iff.mp hx, (hrest ys).mp hys]
            rfl
    · rintro rfl
      have hlength : xs.length = count + 1 := by
        rw [length_encodeAll] at h
        exact Nat.mul_right_cancel m.byteLength_pos h
      rw [← hlength]
      exact decodePieces_encodeAll xs

/-- A payload of two parts decodes exactly if both parts do. -/
theorem decodeAll_append {c d : Nat} {p q : Bytes} (hp : p.length = c * m.byteLength)
    (hq : q.length = d * m.byteLength) {xs : List (Element m)} :
    decodeAll m (c + d) (p ++ q) = .ok xs
      ↔ ∃ ys zs, decodeAll m c p = .ok ys ∧ decodeAll m d q = .ok zs ∧ xs = ys ++ zs := by
  have hpq : (p ++ q).length = (c + d) * m.byteLength := by
    rw [List.length_append, hp, hq, Nat.add_mul]
  simp only [decodeAll_eq_ok_iff hp, decodeAll_eq_ok_iff hq, decodeAll_eq_ok_iff hpq]
  constructor
  · intro h
    have hsplit : encodeAll xs = encodeAll (xs.take c) ++ encodeAll (xs.drop c) := by
      rw [← encodeAll_append, List.take_append_drop]
    have hlength : xs.length = c + d := by
      rw [h, length_encodeAll] at hpq
      exact Nat.mul_right_cancel m.byteLength_pos hpq
    have htake : p.length = (encodeAll (xs.take c)).length := by
      rw [hp, length_encodeAll, List.length_take, hlength, Nat.min_eq_left (Nat.le_add_right c d)]
    obtain ⟨hp', hq'⟩ := List.append_inj (h.trans hsplit) htake
    exact ⟨_, _, hp', hq', (List.take_append_drop c xs).symm⟩
  · rintro ⟨ys, zs, rfl, rfl, rfl⟩
    exact (encodeAll_append ys zs).symm

end Element

namespace MultiplyBatch

/-- Add the elements of one more payload to the sums so far. -/
def addPayload (m : Modulus) (count : Nat) (sums : List (Element m)) (payload : Bytes) :
    Except WireError (List (Element m)) :=
  (List.zipWith (· + ·) sums ·) <$> Element.decodeAll m count payload

theorem addPayload_eq_ok {count : Nat} {sums sums' : List (Element m)} {payload : Bytes} :
    addPayload m count sums payload = .ok sums'
      ↔ ∃ xs, Element.decodeAll m count payload = .ok xs
        ∧ List.zipWith (· + ·) sums xs = sums' := by
  rw [addPayload, map_eq_pure_bind, except_bind_eq_ok]
  simp [pure, Except.pure]

theorem length_addPayload {count : Nat} {sums sums' : List (Element m)} {payload : Bytes}
    (hpayload : payload.length = count * m.byteLength) (hsums : sums.length = count)
    (h : addPayload m count sums payload = .ok sums') : sums'.length = count := by
  obtain ⟨xs, hxs, rfl⟩ := addPayload_eq_ok.mp h
  have hlength := congrArg List.length ((Element.decodeAll_eq_ok_iff hpayload).mp hxs)
  rw [hpayload, Element.length_encodeAll] at hlength
  rw [List.length_zipWith, hsums, ← Nat.mul_right_cancel m.byteLength_pos hlength, Nat.min_self]

theorem addPayload_append {c d : Nat} {p q : Bytes} (hp : p.length = c * m.byteLength)
    (hq : q.length = d * m.byteLength) {s t u : List (Element m)} (hs : s.length = c) :
    addPayload m (c + d) (s ++ t) (p ++ q) = .ok u
      ↔ ∃ s' t', addPayload m c s p = .ok s' ∧ addPayload m d t q = .ok t' ∧ u = s' ++ t' := by
  have hzip : ∀ ys zs : List (Element m), Element.decodeAll m c p = .ok ys →
      List.zipWith (· + ·) (s ++ t) (ys ++ zs)
        = List.zipWith (· + ·) s ys ++ List.zipWith (· + ·) t zs := by
    intro ys zs hys
    have hlength := congrArg List.length ((Element.decodeAll_eq_ok_iff hp).mp hys)
    rw [hp, Element.length_encodeAll] at hlength
    exact List.zipWith_append (hs.trans (Nat.mul_right_cancel m.byteLength_pos hlength))
  simp only [addPayload_eq_ok, Element.decodeAll_append hp hq]
  constructor
  · rintro ⟨_, ⟨ys, zs, hys, hzs, rfl⟩, rfl⟩
    exact ⟨_, _, ⟨ys, hys, rfl⟩, ⟨zs, hzs, rfl⟩, hzip ys zs hys⟩
  · rintro ⟨_, _, ⟨ys, hys, rfl⟩, ⟨zs, hzs, rfl⟩, rfl⟩
    exact ⟨_, ⟨ys, zs, hys, hzs, rfl⟩, hzip ys zs hys⟩

/-- Payloads of two parts open exactly if both parts do, and then part by part. -/
theorem openPayloads_append {c d : Nat} {p q : Fin n → Bytes}
    (hp : ∀ j, (p j).length = c * m.byteLength) (hq : ∀ j, (q j).length = d * m.byteLength)
    {sums : List (Element m)} :
    openPayloads m (c + d) (List.ofFn fun j => p j ++ q j) = .ok sums
      ↔ ∃ s t, openPayloads m c (List.ofFn p) = .ok s ∧ openPayloads m d (List.ofFn q) = .ok t
        ∧ sums = s ++ t := by
  have hfold : ∀ (parties : List (Fin n)) (s t : List (Element m)), s.length = c →
      ((parties.map fun j => p j ++ q j).foldlM (addPayload m (c + d)) (s ++ t) = .ok sums
        ↔ ∃ s' t', (parties.map p).foldlM (addPayload m c) s = .ok s'
          ∧ (parties.map q).foldlM (addPayload m d) t = .ok t' ∧ sums = s' ++ t') := by
    intro parties
    induction parties with
    | nil =>
      intro s t _
      simp [pure, Except.pure, eq_comm]
    | cons j parties ih =>
      intro s t hs
      simp only [List.map_cons, List.foldlM_cons, except_bind_eq_ok]
      constructor
      · rintro ⟨_, hadd, hrest⟩
        obtain ⟨s', t', hs', ht', rfl⟩ := (addPayload_append (hp j) (hq j) hs).mp hadd
        obtain ⟨s'', t'', hs'', ht'', rfl⟩ :=
          (ih s' t' (length_addPayload (hp j) hs hs')).mp hrest
        exact ⟨s'', t'', ⟨s', hs', hs''⟩, ⟨t', ht', ht''⟩, rfl⟩
      · rintro ⟨s'', t'', ⟨s', hs', hs''⟩, ⟨t', ht', ht''⟩, rfl⟩
        exact ⟨s' ++ t', (addPayload_append (hp j) (hq j) hs).mpr ⟨s', t', hs', ht', rfl⟩,
          (ih s' t' (length_addPayload (hp j) hs hs')).mpr ⟨s'', t'', hs'', ht'', rfl⟩⟩
  have h := hfold (List.finRange n) (List.replicate c 0) (List.replicate d 0) List.length_replicate
  rw [List.replicate_append_replicate, ← List.ofFn_eq_map, ← List.ofFn_eq_map,
    ← List.ofFn_eq_map] at h
  exact h

/-- Payloads of the right length open to as many values. -/
theorem length_openPayloads_of_length {count : Nat} {payload : Fin n → Bytes}
    (hpayload : ∀ j, (payload j).length = count * m.byteLength) {sums : List (Element m)}
    (h : openPayloads m count (List.ofFn payload) = .ok sums) : sums.length = count := by
  have hfold : ∀ (parties : List (Fin n)) (s : List (Element m)), s.length = count →
      (parties.map payload).foldlM (addPayload m count) s = .ok sums → sums.length = count := by
    intro parties
    induction parties with
    | nil =>
      rintro s hs ⟨⟩
      exact hs
    | cons j parties ih =>
      intro s hs h
      obtain ⟨s', hadd, h⟩ := except_bind_eq_ok.mp (by rwa [List.map_cons, List.foldlM_cons] at h)
      exact ih s' (length_addPayload (hpayload j) hs hadd) h
  rw [openPayloads, List.ofFn_eq_map] at h
  exact hfold _ _ List.length_replicate h

end MultiplyBatch

/-! ## §2 The last round, read backwards -/

/-- The pool after these shares were opened to these values. -/
def Pool.opening (shares : List (AuthShare m)) (values : List (Element m)) (pool : Pool m) :
    Pool m :=
  { pool with opened :=
    { shares := pool.opened.shares ++ shares, values := pool.opened.values ++ values } }

theorem Pool.opening_opening (shares shares' : List (AuthShare m))
    (values values' : List (Element m)) (pool : Pool m) :
    (pool.opening shares values).opening shares' values'
      = pool.opening (shares ++ shares') (values ++ values') := by
  simp [opening]

/-- As many values as shares leave a store in step. -/
theorem Pool.paired_opening {shares : List (AuthShare m)} {values : List (Element m)}
    {pool : Pool m} (hcount : shares.length = values.length)
    (hpaired : pool.opened.shares.length = pool.opened.values.length) :
    (pool.opening shares values).opened.shares.length
      = (pool.opening shares values).opened.values.length := by
  rw [opening, List.length_append, List.length_append, hcount, hpaired]

/-- Only a store that is in step takes as many shares as values. -/
theorem Pool.paired_of_pushOpened {shares : List (AuthShare m)} {values : List (Element m)}
    {pool pool' : Pool m} {u : Unit} (hcount : shares.length = values.length)
    (h : pushOpened shares values pool = .ok u pool') :
    pool.opened.shares.length = pool.opened.values.length := by
  rw [pushOpened, Action.within_eq_ok] at h
  obtain ⟨opened, hpush, -⟩ := h
  have hlength := (OpenedValues.push_eq_ok.mp hpush).1
  rw [List.length_append, List.length_append, hcount] at hlength
  exact Nat.add_right_cancel hlength

namespace MultiplyBatch

variable {pool : Pool m} {party bytes : Nat} {outgoing rest : Fin n → Frame}
  {payload : Fin n → Bytes}

/-- A batch is done exactly if the payloads open and the store is in step. -/
theorem evaluate_eq_done_iff (round : Nat) {p : MultiplyBatch m} (hne : p.pairs ≠ [])
    (hlength : p.triples.length = p.pairs.length)
    (hpayload : ∀ j, (payload j).length = 2 * p.pairs.length * m.byteLength)
    {s : MultiplyBatch m × Participant m} :
    evaluate (round + 1)
        (p, ⟨pool, .ofPeers party outgoing (fun j => payload j :: rest j) bytes⟩) = .ok .done s
      ↔ ∃ sums, openPayloads m (2 * p.pairs.length) (List.ofFn payload) = .ok sums
        ∧ pool.opened.shares.length = pool.opened.values.length
        ∧ s = ({ p with
              output := some
                (List.zipWith (product pool.keyShare pool.party) p.triples (pairUp sums)) },
            ⟨pool.opening p.maskedOperands sums, .ofPeers party outgoing rest bytes⟩) := by
  -- what the round ends in is known once it is known to succeed
  have hforward : ∀ sums, openPayloads m (2 * p.pairs.length) (List.ofFn payload) = .ok sums →
      pool.opened.shares.length = pool.opened.values.length →
      evaluate (round + 1)
          (p, ⟨pool, .ofPeers party outgoing (fun j => payload j :: rest j) bytes⟩)
        = .ok .done ({ p with
              output := some
                (List.zipWith (product pool.keyShare pool.party) p.triples (pairUp sums)) },
            ⟨pool.opening p.maskedOperands sums, .ofPeers party outgoing rest bytes⟩) := by
    intro sums hopen hpaired
    have hturn := turn_received round hne hlength hpaired hopen
      (length_openPayloads_of_length hpayload hopen) party outgoing rest bytes
    simp only [List.append_nil] at hturn
    exact hturn
  constructor
  · intro h
    obtain ⟨q, w⟩ := s
    obtain ⟨sums, _, hopen, hpool⟩ : ∃ sums pool', openPayloads m (2 * p.pairs.length)
          (List.ofFn payload) = .ok sums
        ∧ Pool.pushOpened p.maskedOperands sums pool = .ok () pool' := by
      cases branch h with
      | empty no_pairs => exact absurd no_pairs hne
      | finish has_pairs receives opens records =>
        rw [Mailbox.receiveFromAll_ofPeers] at receives
        cases receives
        exact ⟨_, _, opens, records⟩
    have hcount : p.maskedOperands.length = sums.length :=
      (length_maskedOperands hlength).trans (length_openPayloads_of_length hpayload hopen).symm
    have hpaired := Pool.paired_of_pushOpened hcount hpool
    rw [hforward sums hopen hpaired] at h
    cases h
    exact ⟨sums, hopen, hpaired, rfl⟩
  · rintro ⟨sums, hopen, hpaired, rfl⟩
    exact hforward sums hopen hpaired

end MultiplyBatch

/-! ## §3 Several protocols in one round -/

namespace Round

variable {π α : Type}

/-- A round of several protocols, one after another in the order of the list. The first failure
ends it. -/
def inTurn (act : Round m π α) : Round m (List π) (List α) :=
  fun s => go s.1 s.2
where
  go : List π → Participant m → EStateM.Result Fault (List π × Participant m) (List α)
    | [], w => .ok [] ([], w)
    | p :: ps, w =>
      match act (p, w) with
      | .error fault (p, w) => .error fault (p :: ps, w)
      | .ok a (p, w) =>
        match go ps w with
        | .error fault (ps, w) => .error fault (p :: ps, w)
        | .ok as (ps, w) => .ok (a :: as) (p :: ps, w)

theorem inTurn_nil (act : Round m π α) (w : Participant m) : inTurn act ([], w) = .ok [] ([], w) :=
  rfl

theorem inTurn_cons (act : Round m π α) (p : π) (ps : List π) (w : Participant m) :
    inTurn act (p :: ps, w) = match act (p, w) with
      | .error fault (p, w) => .error fault (p :: ps, w)
      | .ok a (p, w) => match inTurn act (ps, w) with
        | .error fault (ps, w) => .error fault (p :: ps, w)
        | .ok as (ps, w) => .ok (a :: as) (p :: ps, w) :=
  rfl

/-- All of them succeed exactly if the first does, and then the others. -/
theorem inTurn_cons_eq_ok {act : Round m π α} {p : π} {ps : List π} {w : Participant m}
    {as : List α} {s : List π × Participant m} :
    inTurn act (p :: ps, w) = .ok as s
      ↔ ∃ a p' w' as' ps' w'', act (p, w) = .ok a (p', w')
        ∧ inTurn act (ps, w') = .ok as' (ps', w'') ∧ as = a :: as' ∧ s = (p' :: ps', w'') := by
  rw [inTurn_cons]
  cases hfirst : act (p, w) with
  | error fault s' => simp
  | ok a s' =>
    obtain ⟨p', w'⟩ := s'
    cases hothers : inTurn act (ps, w') with
    | error fault s'' =>
      simp only [hothers, reduceCtorEq, false_iff]
      rintro ⟨_, _, _, _, _, _, ⟨⟩, hok, -⟩
      rw [hothers] at hok
      cases hok
    | ok as' s'' =>
      obtain ⟨ps', w''⟩ := s''
      simp only [hothers, EStateM.Result.ok.injEq]
      constructor
      · rintro ⟨rfl, rfl⟩
        exact ⟨a, p', w', as', ps', w'', ⟨rfl, rfl⟩, hothers, rfl, rfl⟩
      · rintro ⟨_, _, _, _, _, _, ⟨rfl, ⟨⟩⟩, hok, rfl, rfl⟩
        rw [hothers] at hok
        cases hok
        exact ⟨rfl, rfl⟩

/-- What several protocols take and give in a round is what they take and give in turn. -/
theorem turn_nil (act : Round m π α) (pool : Pool m) :
    Turn (n := n) (inTurn act) [] pool (fun _ => []) (.ok []) [] pool fun _ => [] := by
  intro party outgoing rest bytes
  simp only [inTurn_nil, List.nil_append, List.append_nil, Action.outcome_ok]

theorem turn_cons {act : Round m π α} {p p' : π} {ps ps' : List π} {pool pool' pool'' : Pool m}
    {takes takes' gives gives' : Fin n → Frame} {a : α} {as : List α}
    (first : Turn act p pool takes (.ok a) p' pool' gives)
    (others : Turn (inTurn act) ps pool' takes' (.ok as) ps' pool'' gives') :
    Turn (inTurn act) (p :: ps) pool (fun j => takes j ++ takes' j) (.ok (a :: as)) (p' :: ps')
      pool'' fun j => gives j ++ gives' j := by
  intro party outgoing rest bytes
  have hfirst :
      act (p, ⟨pool, .ofPeers party outgoing (fun j => takes j ++ takes' j ++ rest j) bytes⟩)
      = .ok a (p', ⟨pool', .ofPeers party (fun j => outgoing j ++ gives j)
          (fun j => takes' j ++ rest j) bytes⟩) := by
    simp only [List.append_assoc]
    exact first party outgoing (fun j => takes' j ++ rest j) bytes
  rw [inTurn_cons, hfirst]
  simp only [others party (fun j => outgoing j ++ gives j) rest bytes, Action.outcome_ok,
    List.append_assoc]

end Round

/-! ## §4 Triples, many at once or one by one -/

theorem Draw.replicate_succ {α : Type} (draw : Draw α) (count : Nat) (g : Generator) :
    Draw.replicate draw (count + 1) g
      = ((draw g).1 :: (Draw.replicate draw count (draw g).2).1,
        (Draw.replicate draw count (draw g).2).2) :=
  rfl

namespace Supplier

/-- The supplier has this many triples left; synthetic ones never run out. -/
def HasTriples (count : Nat) : Supplier m → Prop
  | .synthetic _ => True
  | .dealt s => count ≤ s.triplesLeft

/-- Synthetic triples are drawn. -/
theorem nextTriples_synthetic (count : Nat) (s : SyntheticSupplier m) :
    nextTriples count (.synthetic s)
      = .ok (Draw.replicate (Synthetic.triple s.place s.key) count s.triples).1
        (.synthetic { s with
          triples := (Draw.replicate (Synthetic.triple s.place s.key) count s.triples).2 }) := by
  rcases hdraw : Draw.replicate (Synthetic.triple s.place s.key) count s.triples with ⟨ts, g⟩
  simp only [nextTriples, Action.within, SyntheticSupplier.nextTriples, Action.bind_apply,
    Action.get_apply, hdraw, Action.set_apply, Action.pure_apply]

/-- Dealt triples come from the back. -/
theorem nextTriples_dealt {count : Nat} {s : DealtSupplier m} (h : count ≤ s.triplesLeft) :
    nextTriples count (.dealt s)
      = .ok (s.data.triples.drop (s.triplesLeft - count)).reverse
        (.dealt ⟨{ s.data with triples := s.data.triples.take (s.triplesLeft - count) }⟩) := by
  have hleft : ¬ s.triplesLeft < count := Nat.not_lt.mpr h
  simp only [nextTriples, Action.within, DealtSupplier.nextTriples, Action.bind_apply,
    Action.get_apply, hleft, if_false, Action.set_apply, Action.pure_apply]

/-- The first of several triples is the one that is handed out alone, and the others are those
that are handed out after it. -/
theorem nextTriples_succ {count : Nat} {s : Supplier m} (h : s.HasTriples (count + 1)) :
    ∃ t s', nextTriples 1 s = .ok [t] s' ∧ s'.HasTriples count
      ∧ ∀ {ts s''}, nextTriples count s' = .ok ts s'' →
        nextTriples (count + 1) s = .ok (t :: ts) s'' := by
  cases s with
  | synthetic s =>
    refine ⟨(Synthetic.triple s.place s.key s.triples).1,
      .synthetic { s with triples := (Synthetic.triple s.place s.key s.triples).2 }, ?_, trivial,
      ?_⟩
    · rw [nextTriples_synthetic, Draw.replicate_succ]
      rfl
    · intro ts s'' hrest
      rw [nextTriples_synthetic] at hrest
      cases hrest
      rw [nextTriples_synthetic, Draw.replicate_succ]
  | dealt s =>
    obtain ⟨front, t, hdata⟩ : ∃ front t, s.data.triples = front ++ [t] := by
      rcases List.eq_nil_or_concat s.data.triples with hnil | ⟨front, t, hconcat⟩
      · have hleft : count + 1 ≤ s.data.triples.length := h
        rw [hnil] at hleft
        cases hleft
      · exact ⟨front, t, by rw [hconcat, List.concat_eq_append]⟩
    have hleft : s.triplesLeft = front.length + 1 := by
      rw [DealtSupplier.triplesLeft, hdata, List.length_append, List.length_singleton]
    have hcount : count ≤ front.length := by
      have hall : count + 1 ≤ s.triplesLeft := h
      omega
    refine ⟨t, .dealt ⟨{ s.data with triples := front }⟩, ?_, hcount, ?_⟩
    · rw [nextTriples_dealt (hleft ▸ Nat.le_add_left 1 front.length), hleft, hdata,
        Nat.add_sub_cancel, List.drop_left, List.take_left]
      rfl
    · intro ts s'' hrest
      have hdrop : (front ++ [t]).drop (front.length - count)
          = front.drop (front.length - count) ++ [t] :=
        List.drop_append_of_le_length (Nat.sub_le _ _)
      have htake : (front ++ [t]).take (front.length - count) = front.take (front.length - count) :=
        List.take_append_of_le_length (Nat.sub_le _ _)
      rw [nextTriples_dealt hcount] at hrest
      cases hrest
      rw [nextTriples_dealt h, hleft, hdata, Nat.add_sub_add_right, hdrop, htake,
        List.reverse_append]
      rfl

theorem nextTriples_zero (s : Supplier m) : nextTriples 0 s = .ok [] s := by
  cases s with
  | synthetic s =>
    rw [nextTriples_synthetic]
    rfl
  | dealt s =>
    rw [nextTriples_dealt (Nat.zero_le _), Nat.sub_zero, DealtSupplier.triplesLeft,
      List.drop_length, List.take_length]
    rfl

end Supplier

/-! ## §5 The first round -/

namespace Multiply

/-- A single product that has its triple. -/
def sent (pair : AuthShare m × AuthShare m) (t : Triple m) : Multiply m :=
  ⟨{ pairs := [pair], triples := [t] }⟩

/-- The payload of a single product. -/
def payload (pair : AuthShare m × AuthShare m) (t : Triple m) : Bytes :=
  Element.encodeAll ((sent pair t).batch.maskedOperands.map (·.share))

theorem turn_send {pair : AuthShare m × AuthShare m} {pool : Pool m} {t : Triple m}
    {supplier : Supplier m} (hnext : Supplier.nextTriples 1 pool.supplier = .ok [t] supplier) :
    Turn (n := n) (evaluate 0) (.new pair.1 pair.2) pool (fun _ => []) (.ok .more) (sent pair t)
      { pool with supplier } fun _ => [payload pair t] :=
  have hbatch : Turn (n := n) (MultiplyBatch.evaluate 0) { pairs := [pair] } pool (fun _ => [])
      (.ok .more) (sent pair t).batch { pool with supplier } fun _ => [payload pair t] :=
    MultiplyBatch.turn_send (List.cons_ne_nil _ _) hnext
  turn_of_within (fun _ _ => rfl) hbatch

/-- Products one by one take the triples that they would take together. -/
theorem turn_sendAll (pairs : List (AuthShare m × AuthShare m)) (pool : Pool m)
    (h : pool.supplier.HasTriples pairs.length) :
    ∃ triples supplier, triples.length = pairs.length
      ∧ Supplier.nextTriples pairs.length pool.supplier = .ok triples supplier
      ∧ ∀ n, Turn (n := n) (Round.inTurn (evaluate 0)) (pairs.map fun pair => .new pair.1 pair.2)
          pool (fun _ => []) (.ok (pairs.map fun _ => .more)) (List.zipWith sent pairs triples)
          { pool with supplier } fun _ => List.zipWith payload pairs triples := by
  induction pairs generalizing pool with
  | nil => exact ⟨[], pool.supplier, rfl, Supplier.nextTriples_zero _, fun n => Round.turn_nil _ _⟩
  | cons pair pairs ih =>
    obtain ⟨t, supplier, hfirst, hleft, hnext⟩ := Supplier.nextTriples_succ h
    obtain ⟨triples, supplier', hcount, htriples, hturn⟩ := ih { pool with supplier } hleft
    refine ⟨t :: triples, supplier', by rw [List.length_cons, List.length_cons, hcount],
      hnext htriples, fun n => ?_⟩
    exact Round.turn_cons (turn_send hfirst) (hturn n)

end Multiply

/-- The payload of a batch is made of the payloads of its products. -/
theorem MultiplyBatch.payload_eq (pairs : List (AuthShare m × AuthShare m))
    (triples : List (Triple m)) :
    Element.encodeAll (({ pairs, triples } : MultiplyBatch m).maskedOperands.map (·.share))
      = (List.zipWith Multiply.payload pairs triples).flatten := by
  induction pairs generalizing triples with
  | nil => rfl
  | cons pair pairs ih =>
    cases triples with
    | nil => rfl
    | cons t triples =>
      rw [List.zipWith_cons_cons, List.flatten_cons, ← ih]
      exact Element.encodeAll_append [(pair.1 - t.a).share, (pair.2 - t.b).share] _

/-! ## §6 The last round -/

section LastRound

variable {pool : Pool m} {party bytes : Nat} {outgoing rest : Fin n → Frame}

/-- A single product is done exactly if its payloads open and the store is in step. -/
theorem Multiply.evaluate_eq_done_iff (round : Nat) {pair : AuthShare m × AuthShare m}
    {t : Triple m} {q : Fin n → Bytes} (hq : ∀ j, (q j).length = 2 * m.byteLength)
    {s : Multiply m × Participant m} :
    evaluate (round + 1)
        (sent pair t, ⟨pool, .ofPeers party outgoing (fun j => q j :: rest j) bytes⟩) = .ok .done s
      ↔ ∃ sums, MultiplyBatch.openPayloads m 2 (List.ofFn q) = .ok sums
        ∧ pool.opened.shares.length = pool.opened.values.length
        ∧ s = (⟨{ (sent pair t).batch with
              output := some (List.zipWith (MultiplyBatch.product pool.keyShare pool.party) [t]
                (pairUp sums)) }⟩,
            ⟨pool.opening (sent pair t).batch.maskedOperands sums,
              .ofPeers party outgoing rest bytes⟩) := by
  have hwithin : evaluate (round + 1)
        (sent pair t, ⟨pool, .ofPeers party outgoing (fun j => q j :: rest j) bytes⟩)
      = Round.within (sent pair t).batch (fun batch _ => ⟨batch⟩)
        (MultiplyBatch.evaluate (round + 1))
        (sent pair t, ⟨pool, .ofPeers party outgoing (fun j => q j :: rest j) bytes⟩) := rfl
  have hbatch := @MultiplyBatch.evaluate_eq_done_iff m n pool party bytes outgoing rest q round
    (sent pair t).batch (List.cons_ne_nil _ _) rfl hq
  rw [hwithin, Round.within_eq_ok]
  constructor
  · rintro ⟨b, w, hb, rfl⟩
    obtain ⟨sums, hopen, hpaired, heq⟩ := hbatch.mp hb
    cases heq
    exact ⟨sums, hopen, hpaired, rfl⟩
  · rintro ⟨sums, hopen, hpaired, rfl⟩
    exact ⟨_, _, hbatch.mpr ⟨sums, hopen, hpaired, rfl⟩, rfl⟩

theorem length_payloads {payloads : List (Fin n → Bytes)} {c : Nat}
    (h : ∀ q ∈ payloads, ∀ j, (q j).length = c) (j : Fin n) :
    (payloads.flatMap (· j)).length = payloads.length * c := by
  induction payloads with
  | nil => simp
  | cons q payloads ih =>
    have hrest := ih fun q' hq' => h q' (List.mem_cons_of_mem q hq')
    rw [List.flatMap_cons, List.length_append, hrest, h q List.mem_cons_self j, List.length_cons,
      Nat.succ_mul, Nat.add_comm]

theorem MultiplyBatch.openPayloads_nil :
    openPayloads m (2 * 0) (List.ofFn fun _ : Fin n => []) = .ok [] :=
  @openPayloads_eq m n 0 (fun _ => []) fun _ => rfl

/-- Together the payloads open exactly if the first one does and then the others. -/
theorem MultiplyBatch.openPayloads_cons {q : Fin n → Bytes} {payloads : List (Fin n → Bytes)}
    {count : Nat} (hcount : payloads.length = count)
    (hpayloads : ∀ p ∈ q :: payloads, ∀ j, (p j).length = 2 * m.byteLength)
    {sums : List (Element m)} :
    openPayloads m (2 * (count + 1)) (List.ofFn fun j => (q :: payloads).flatMap (· j)) = .ok sums
      ↔ ∃ ε δ others, openPayloads m 2 (List.ofFn q) = .ok [ε, δ]
        ∧ openPayloads m (2 * count) (List.ofFn fun j => payloads.flatMap (· j)) = .ok others
        ∧ sums = [ε, δ] ++ others := by
  have hq := hpayloads q List.mem_cons_self
  have hlength : ∀ j, (payloads.flatMap (· j)).length = 2 * count * m.byteLength := by
    intro j
    rw [length_payloads (fun p hp => hpayloads p (List.mem_cons_of_mem q hp)) j, hcount]
    ring
  rw [Nat.mul_succ, Nat.add_comm]
  refine (openPayloads_append hq hlength).trans ⟨?_, ?_⟩
  · rintro ⟨first, others, hfirst, hothers, rfl⟩
    obtain ⟨ε, δ, rfl⟩ := List.length_eq_two.mp (length_openPayloads_of_length hq hfirst)
    exact ⟨ε, δ, others, hfirst, hothers, rfl⟩
  · rintro ⟨ε, δ, others, hfirst, hothers, rfl⟩
    exact ⟨[ε, δ], others, hfirst, hothers, rfl⟩

/-- A batch without products records no openings. -/
theorem MultiplyBatch.opening_nil (pool : Pool m) :
    pool.opening ({ pairs := [], triples := [] } : MultiplyBatch m).maskedOperands [] = pool := by
  show ({ pool with opened := ⟨pool.opened.shares ++ [], pool.opened.values ++ []⟩ } : Pool m)
    = pool
  rw [List.append_nil, List.append_nil]

/-- The openings of a batch are those of its first product and then those of the others. -/
theorem MultiplyBatch.opening_cons (pool : Pool m) (pair : AuthShare m × AuthShare m)
    (pairs : List (AuthShare m × AuthShare m)) (t : Triple m) (triples : List (Triple m))
    (ε δ : Element m) (others : List (Element m)) :
    (pool.opening (Multiply.sent pair t).batch.maskedOperands [ε, δ]).opening
        ({ pairs, triples } : MultiplyBatch m).maskedOperands others
      = pool.opening ({ pairs := pair :: pairs, triples := t :: triples } :
          MultiplyBatch m).maskedOperands ([ε, δ] ++ others) :=
  Pool.opening_opening _ _ _ _ _

/-- Products one by one are done exactly if their payloads open together and the store is in
step, and then they are the products of the batch and leave what the batch leaves. -/
theorem Multiply.inTurn_eq_done_iff (round : Nat) {pairs : List (AuthShare m × AuthShare m)}
    {triples : List (Triple m)} {payloads : List (Fin n → Bytes)}
    (htriples : triples.length = pairs.length) (hcount : payloads.length = pairs.length)
    (hpayloads : ∀ q ∈ payloads, ∀ j, (q j).length = 2 * m.byteLength)
    {products : List (AuthShare m)} {w : Participant m} :
    (∃ ps, Round.inTurn (evaluate (round + 1)) (List.zipWith sent pairs triples,
          ⟨pool, .ofPeers party outgoing (fun j => payloads.map (· j) ++ rest j) bytes⟩)
        = .ok (pairs.map fun _ => .done) (ps, w) ∧ ps.map (·.out.1) = products.map some)
      ↔ ∃ sums, MultiplyBatch.openPayloads m (2 * pairs.length)
            (List.ofFn fun j => payloads.flatMap (· j)) = .ok sums
        ∧ (pairs ≠ [] → pool.opened.shares.length = pool.opened.values.length)
        ∧ products = List.zipWith (MultiplyBatch.product pool.keyShare pool.party) triples
            (pairUp sums)
        ∧ w = ⟨pool.opening ({ pairs, triples } : MultiplyBatch m).maskedOperands sums,
            .ofPeers party outgoing rest bytes⟩ := by
  induction pairs generalizing triples payloads pool products with
  | nil =>
    obtain rfl := List.length_eq_zero_iff.mp htriples
    obtain rfl := List.length_eq_zero_iff.mp hcount
    constructor
    · rintro ⟨ps, hrun, hout⟩
      cases hrun
      have hnil : products = [] := by simpa using hout.symm
      refine ⟨[], MultiplyBatch.openPayloads_nil, fun h => absurd rfl h, hnil, ?_⟩
      rw [MultiplyBatch.opening_nil]
      rfl
    · rintro ⟨sums, hsums, -, rfl, rfl⟩
      cases MultiplyBatch.openPayloads_nil.symm.trans hsums
      refine ⟨[], ?_, rfl⟩
      rw [MultiplyBatch.opening_nil]
      rfl
  | cons pair pairs ih =>
    obtain ⟨t, triples, rfl⟩ := List.exists_cons_of_length_eq_add_one htriples
    obtain ⟨q, payloads, rfl⟩ := List.exists_cons_of_length_eq_add_one hcount
    have hq := hpayloads q List.mem_cons_self
    have hcount' : payloads.length = pairs.length := Nat.succ.inj hcount
    have htriples' : triples.length = pairs.length := Nat.succ.inj htriples
    have hothers : ∀ q' ∈ payloads, ∀ j, (q' j).length = 2 * m.byteLength :=
      fun q' hq' => hpayloads q' (List.mem_cons_of_mem q hq')
    constructor
    · rintro ⟨ps, hrun, hout⟩
      obtain ⟨_, p', w', _, ps', w'', hone, hrest, ⟨⟩, ⟨⟩⟩ := Round.inTurn_cons_eq_ok.mp hrun
      obtain ⟨_, hfirst, hpaired, ⟨⟩⟩ := (evaluate_eq_done_iff round hq).mp hone
      obtain ⟨z, products, rfl, hz, hout⟩ := List.map_eq_cons_iff.mp hout.symm
      obtain ⟨others, hopen, -, rfl, rfl⟩ :=
        (ih htriples' hcount' hothers).mp ⟨ps', hrest, hout.symm⟩
      obtain ⟨ε, δ, rfl⟩ :=
        List.length_eq_two.mp (MultiplyBatch.length_openPayloads_of_length hq hfirst)
      refine ⟨[ε, δ] ++ others, (MultiplyBatch.openPayloads_cons hcount' hpayloads).mpr
        ⟨ε, δ, others, hfirst, hopen, rfl⟩, fun _ => hpaired, ?_,
        by rw [MultiplyBatch.opening_cons]⟩
      exact congrArg (· :: _) (Option.some.inj hz)
    · rintro ⟨sums, hsums, hpaired, rfl, rfl⟩
      obtain ⟨ε, δ, others, hfirst, hopen, rfl⟩ :=
        (MultiplyBatch.openPayloads_cons hcount' hpayloads).mp hsums
      have hpaired := hpaired (List.cons_ne_nil _ _)
      obtain ⟨ps', hrest, hout⟩ := (ih htriples' hcount' hothers).mpr
        ⟨others, hopen, fun _ => Pool.paired_opening rfl hpaired, rfl,
          by rw [MultiplyBatch.opening_cons]⟩
      refine ⟨_ :: ps', Round.inTurn_cons_eq_ok.mpr ⟨_, _, _, _, _, _,
        (evaluate_eq_done_iff round hq).mpr ⟨[ε, δ], hfirst, hpaired, rfl⟩, hrest, rfl, rfl⟩, ?_⟩
      rw [List.map_cons, hout]
      rfl

end LastRound

/-! ## §7 Both rounds -/

namespace MultiplyBatch

/-- **A batch is its products one by one.** Let the supplier have a triple for each pair. In
round 0 the batch and the single products, which are evaluated in the order of the pairs, draw the
same triples for the same pairs and leave the same supplier; the payload of the batch is made of
the single payloads. In the last round let the bytes that the batch received of each party be those
that the single products received of it, two elements' worth each, whatever they are, and let the
pools be the same. Then the batch is done with certain products exactly if all single products are
done with them, and the participant, with its store of opened values, is left the same. -/
theorem same_as_singles {pairs : List (AuthShare m × AuthShare m)} (hne : pairs ≠ [])
    {pool : Pool m} (h : pool.supplier.HasTriples pairs.length) :
    ∃ triples supplier, triples.length = pairs.length
      ∧ (∀ n, Turn (n := n) (evaluate 0) { pairs } pool (fun _ => []) (.ok .more)
          { pairs, triples } { pool with supplier }
          fun _ => [(List.zipWith Multiply.payload pairs triples).flatten])
      ∧ (∀ n, Turn (n := n) (Round.inTurn (Multiply.evaluate 0))
          (pairs.map fun pair => .new pair.1 pair.2) pool (fun _ => [])
          (.ok (pairs.map fun _ => .more)) (List.zipWith Multiply.sent pairs triples)
          { pool with supplier } fun _ => List.zipWith Multiply.payload pairs triples)
      ∧ ∀ {n : Nat} {payloads : List (Fin n → Bytes)}, payloads.length = pairs.length →
          (∀ q ∈ payloads, ∀ j, (q j).length = 2 * m.byteLength) →
          ∀ (round : Nat) (pool' : Pool m) (party : Nat) (outgoing rest : Fin n → Frame)
            (bytes : Nat) (products : List (AuthShare m)) (w : Participant m),
          (∃ p, evaluate (round + 1) ({ pairs, triples }, ⟨pool', .ofPeers party outgoing
                (fun j => payloads.flatMap (· j) :: rest j) bytes⟩) = .ok .done (p, w)
              ∧ p.out.1 = some products)
            ↔ ∃ ps, Round.inTurn (Multiply.evaluate (round + 1))
                (List.zipWith Multiply.sent pairs triples, ⟨pool', .ofPeers party outgoing
                  (fun j => payloads.map (· j) ++ rest j) bytes⟩)
                = .ok (pairs.map fun _ => .done) (ps, w)
              ∧ ps.map (·.out.1) = products.map some := by
  obtain ⟨triples, supplier, hlength, hnext, hturn⟩ := Multiply.turn_sendAll pairs pool h
  refine ⟨triples, supplier, hlength, fun n => ?_, hturn, ?_⟩
  · have hbatch := turn_send (n := n) hne hnext
    rw [payload_eq] at hbatch
    exact hbatch
  · intro n payloads hcount hpayloads round pool' party outgoing rest bytes products w
    have hone : ∀ j, (payloads.flatMap (· j)).length = 2 * pairs.length * m.byteLength := by
      intro j
      rw [length_payloads hpayloads j, hcount]
      ring
    have hbatch := fun s => @evaluate_eq_done_iff m n pool' party bytes outgoing rest
      (fun j => payloads.flatMap (· j)) round { pairs, triples } hne hlength hone s
    rw [Multiply.inTurn_eq_done_iff round hlength hcount hpayloads]
    constructor
    · rintro ⟨p, hdone, hout⟩
      obtain ⟨sums, hopen, hpaired, ⟨⟩⟩ := (hbatch _).mp hdone
      exact ⟨sums, hopen, fun _ => hpaired, (Option.some.inj hout).symm, rfl⟩
    · rintro ⟨sums, hopen, hpaired, rfl, rfl⟩
      exact ⟨_, (hbatch _).mpr ⟨sums, hopen, hpaired hne, rfl⟩, rfl⟩

/-- A party that was dealt two triples multiplies two pairs, in one batch and one by one, and is
done with the same products. -/
theorem same_as_singles_stocked :
    let pairs :=
      [(sampleParts 5 1 1 0, sampleParts 6 2 2 0), (sampleParts 7 1 1 0, sampleParts 8 2 2 0)]
    let elements : Fin 2 → Fin 2 → List (Element .mersenne61) :=
      ![![[1, 1], [2, 2]], ![[1, 1], [-3, 3]]]
    let payload (k j : Fin 2) : Bytes := Element.encodeAll (elements k j)
    (stockedPool 0).supplier.HasTriples pairs.length
      ∧ (∀ q ∈ [payload 0, payload 1], ∀ j, (q j).length = 2 * Modulus.mersenne61.byteLength)
      ∧ ∃ triples products w, triples.length = 2
        ∧ (∃ p, evaluate 1 ({ pairs, triples }, ⟨samplePool 0, .ofPeers 1 (fun _ => [])
              (fun j => [payload 0 j ++ payload 1 j]) 0⟩) = .ok .done (p, w)
            ∧ p.out.1 = some products)
        ∧ ∃ ps, Round.inTurn (Multiply.evaluate 1)
              (List.zipWith Multiply.sent pairs triples, ⟨samplePool 0, .ofPeers 1
                (fun _ => []) (fun j => [payload 0 j, payload 1 j]) 0⟩) = .ok [.done, .done] (ps, w)
            ∧ ps.map (·.out.1) = products.map some := by
  intro pairs elements payload
  have hne : pairs ≠ [] := List.cons_ne_nil _ _
  have hstock : (stockedPool 0).supplier.HasTriples pairs.length := Nat.le_refl 2
  have hpayloads : ∀ q ∈ [payload 0, payload 1], ∀ j,
      (q j).length = 2 * Modulus.mersenne61.byteLength := by
    decide
  obtain ⟨triples, _, hlength, -, -, hlast⟩ := same_as_singles hne hstock
  have hsame := @hlast 2 [payload 0, payload 1] rfl hpayloads 0 (samplePool 0) 1 (fun _ => [])
    (fun _ => []) 0
  have hlengths : ∀ j, ([payload 0, payload 1].flatMap (· j)).length
      = 2 * 2 * Modulus.mersenne61.byteLength := by decide
  have hopen : openPayloads .mersenne61 (2 * 2)
      (List.ofFn fun j => [payload 0, payload 1].flatMap (· j)) = .ok [3, 3, -2, 4] := by
    decide +kernel
  have hdone := (@evaluate_eq_done_iff .mersenne61 2 (samplePool 0) 1 0 (fun _ => []) (fun _ => [])
    (fun j => [payload 0, payload 1].flatMap (· j)) 0 { pairs, triples } hne hlength
    hlengths _).mpr ⟨_, hopen, rfl, rfl⟩
  exact ⟨hstock, hpayloads, triples, _, _, hlength, ⟨_, hdone, rfl⟩, (hsame _ _).mp ⟨_, hdone, rfl⟩⟩

end MultiplyBatch

end JointCircuit
