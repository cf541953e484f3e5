/-
JointCircuit.Proofs.Release — when a protocol hands its result out.

A result is to be had once, and only when the protocol is done: before
that, what was received may still have to be compared, and a round that
fails must not leave anything behind. `Task.Unfinished` are the states
of a protocol on its way there, over all contents of the mailbox before
each round and with rounds that failed among them.

Main statements: `Task.released` (§3) — the law for every protocol but a
broadcast among three or more parties; `Broadcast.released_early` and
`broadcast_released_unvalidated` (§4) — such a broadcast hands its
messages out while their digests are still to be compared, and also
after the comparison has failed.
-/
import JointCircuit.Proofs.Conduct
import JointCircuit.Proofs.Clock
import JointCircuit.Proofs.Agreement
import JointCircuit.Proofs.Refinement

namespace JointCircuit

variable {m : Modulus} {n : Nat} {π ρ α β : Type}

open JointCircuit.Action Round

/-! ## §1 Results that wait for the end -/

namespace Round

/-- Started without a result, which `has` tells, the round has one exactly if it succeeds with an
answer that ends the protocol. -/
structure Ends (ended : α → Bool) (has : π → Bool) (act : Round m π α) : Prop where
  of_ok : ∀ {p w a s}, has p = false → act (p, w) = .ok a s → has s.1 = ended a
  of_error : ∀ {p w fault s}, has p = false → act (p, w) = .error fault s → has s.1 = false

/-- The answer that ends a protocol. -/
def isDone (status : Status) : Bool :=
  status = .done

namespace Ends

variable {ended : α → Bool} {has : π → Bool}

theorem pure {a : α} (h : ended a = false) : Ends ended has (Pure.pure a : Round m π α) where
  of_ok hp hact := by
    cases hact
    rw [hp, h]
  of_error _ hact := nomatch hact

theorem throw (fault : Fault) : Ends ended has (MonadExcept.throw fault : Round m π α) where
  of_ok _ hact := nomatch hact
  of_error hp hact := by
    cases hact
    exact hp

/-- Nothing happens to the result before the last part. -/
theorem bind {x : Round m π β} {f : β → Round m π α} (hx : Respects (Same has) x)
    (hf : ∀ b, Ends ended has (f b)) : Ends ended has (x >>= f) where
  of_ok hp hact := by
    obtain ⟨b, t, hfirst, hact⟩ := bind_eq_ok.mp hact
    exact (hf b).of_ok ((hx.of_ok hfirst).trans hp) hact
  of_error hp hact := by
    rcases bind_eq_error.mp hact with hfirst | ⟨b, t, hfirst, hact⟩
    · exact (hx.of_error hfirst).trans hp
    · exact (hf b).of_error ((hx.of_ok hfirst).trans hp) hact

theorem update {f : π → π} (h : ∀ p, has (f p) = true) :
    Ends (fun _ => true) has (Round.update f : Round m π Unit) where
  of_ok _ hact := by
    cases hact
    exact h _
  of_error _ hact := nomatch hact

/-- What sets the result is followed by the answer that the protocol is done. -/
theorem done {x : Round m π Unit} (h : Ends (fun _ => true) has x) :
    Ends isDone has (x >>= fun _ => Pure.pure Status.done) where
  of_ok hp hact := by
    obtain ⟨u, t, hfirst, hact⟩ := bind_eq_ok.mp hact
    cases hact
    exact h.of_ok hp hfirst
  of_error hp hact := by
    rcases bind_eq_error.mp hact with hfirst | ⟨u, t, -, hact⟩
    · exact h.of_error hp hfirst
    · cases hact

/-- A part may end the protocol early. -/
theorem unless_done {x rest : Round m π Status} (hx : Ends isDone has x)
    (hrest : Ends isDone has rest) :
    Ends isDone has (x >>= fun status =>
      if status = .done then Pure.pure Status.done else rest) where
  of_ok hp hact := by
    obtain ⟨status, t, hfirst, hact⟩ := bind_eq_ok.mp hact
    cases status with
    | more => exact hrest.of_ok (hx.of_ok hp hfirst) hact
    | done =>
      cases hact
      exact hx.of_ok hp hfirst
  of_error hp hact := by
    rcases bind_eq_error.mp hact with hfirst | ⟨status, t, hfirst, hact⟩
    · exact hx.of_error hp hfirst
    · cases status with
      | more => exact hrest.of_error (hx.of_ok hp hfirst) hact
      | done => cases hact

/-- What may be preceded by something else. -/
theorem preceded {c : Prop} [Decidable c] {first rest : Round m π α} (hrest : Ends ended has rest)
    (hfirst : Ends ended has rest → Ends ended has first) :
    Ends ended has (if c then first else rest) := by
  split
  · exact hfirst hrest
  · exact hrest

/-- The round of a part that has the result. -/
theorem part_ok {inner : ρ} {put : ρ → π → π} {part : Round m ρ α} {has' : ρ → Bool}
    (h : Ends ended has' part) (hinner : has' inner = false) {p : π} {w : Participant m} {a : α}
    {s : π × Participant m} (hact : Round.within inner put part (p, w) = .ok a s) :
    ∃ t, has' t = ended a ∧ s.1 = put t p := by
  obtain ⟨t, w', ht, rfl⟩ := within_eq_ok.mp hact
  exact ⟨t, h.of_ok hinner ht, rfl⟩

theorem part_error {inner : ρ} {put : ρ → π → π} {part : Round m ρ α} {has' : ρ → Bool}
    (h : Ends ended has' part) (hinner : has' inner = false) {p : π} {w : Participant m}
    {fault : Fault} {s : π × Participant m}
    (hact : Round.within inner put part (p, w) = .error fault s) :
    ∃ t, has' t = false ∧ s.1 = put t p := by
  rw [within_apply] at hact
  cases ht : part (inner, w) with
  | ok a t =>
    rw [ht] at hact
    cases hact
  | error fault t =>
    rw [ht] at hact
    cases hact
    exact ⟨t.1, h.of_error hinner ht, rfl⟩

/-- A round that is, from every state, the round of a part that has the result. -/
theorem of_each {act : Round m π α}
    (h : ∀ p, ∃ (ρ : Type) (inner : ρ) (put : ρ → π → π) (part : Round m ρ α) (has' : ρ → Bool),
      Ends ended has' part ∧ has' inner = has p ∧ (∀ t, has (put t p) = has' t)
        ∧ ∀ w, act (p, w) = Round.within inner put part (p, w)) : Ends ended has act where
  of_ok := by
    intro p w a s hp hact
    obtain ⟨ρ, inner, put, part, has', hpart, hinner, hput, hwithin⟩ := h p
    obtain ⟨t, ht, hs⟩ := hpart.part_ok (hinner.trans hp) ((hwithin w).symm.trans hact)
    rw [hs, hput, ht]
  of_error := by
    intro p w fault s hp hact
    obtain ⟨ρ, inner, put, part, has', hpart, hinner, hput, hwithin⟩ := h p
    obtain ⟨t, ht, hs⟩ := hpart.part_error (hinner.trans hp) ((hwithin w).symm.trans hact)
    rw [hs, hput, ht]

end Ends

end Round

/-! ## §2 One protocol after another -/

/-- A commitment has its values when all openings fit. -/
theorem Commit.ends (round : Nat) :
    Ends isDone (·.output.isSome) (evaluate round : Round m Commit Status) := by
  have hreceived : ∀ (b : Broadcast) (put : Broadcast → Phase),
      Respects (Same (·.output.isSome)) (takeReceived b put : Round m Commit (List Bytes)) :=
    fun b put => .bind (same_update fun _ => rfl) fun _ => .pure _
  have hcommitments : ∀ (elapsed : Nat) (b : Broadcast),
      Ends isDone (·.output.isSome)
        (evaluateCommitments round elapsed b : Round m Commit Status) := by
    intro elapsed b
    refine .bind (same_within _ fun _ _ => rfl) ?_
    rintro ⟨status, b'⟩
    cases status with
    | more => exact .pure rfl
    | done =>
      refine .bind (hreceived _ _) fun commitments => ?_
      dsimp only
      split
      · exact .throw _
      · exact .bind (same_protocol _) fun _ => .bind (same_update fun _ => rfl) fun _ =>
          .bind (same_within _ fun _ _ => rfl) fun _ => .pure rfl
  have hopenings : ∀ (elapsed : Nat) (b : Broadcast),
      Ends isDone (·.output.isSome) (evaluateOpenings elapsed b : Round m Commit Status) := by
    intro elapsed b
    refine .bind (same_within _ fun _ _ => rfl) ?_
    rintro ⟨status, b'⟩
    cases status with
    | more => exact .pure rfl
    | done =>
      exact .bind (hreceived _ _) fun _ => .bind (same_protocol _) fun _ =>
        .bind (.ofExcept _ _) fun _ => (Ends.update fun _ => rfl).done
  unfold evaluate
  refine .bind (same_protocol _) fun p => .preceded ?_ fun hphases => ?_
  · refine .bind (same_protocol _) fun p => ?_
    dsimp only
    split
    · exact hcommitments _ _
    · exact hopenings _ _
    · exact .throw _
    · exact .throw _
  · exact .bind (.bind (same_pool _ _) fun _ => same_update fun _ => rfl) fun _ => hphases

theorem CoinToss.ends (round : Nat) :
    Ends isDone (·.output.isSome) (evaluate round : Round m CoinToss Status) := by
  refine .bind ?_ fun commit => .bind (same_within _ fun _ _ => rfl) ?_
  · refine .bind (same_protocol _) fun p => ?_
    split
    · exact .pure _
    · exact .bind (same_pool _ _) fun _ => .bind (same_update fun _ => rfl) fun _ => .pure _
  · rintro ⟨status, commit⟩
    cases status with
    | more => exact .pure rfl
    | done =>
      exact .bind (same_update fun _ => rfl) fun _ => .bind (.ofExcept _ _) fun _ =>
        (Ends.update fun _ => rfl).done

/-- A check is passed when the terms add up to zero, or when there is nothing to check. -/
theorem MacCheck.ends (round : Nat) :
    Ends isDone (·.output.isSome) (evaluate round : Round m (MacCheck m) Status) := by
  have hbegin : Ends isDone (·.output.isSome) (begin round : Round m (MacCheck m) Status) := by
    refine .bind (same_pool _ _) fun drained => ?_
    dsimp only
    split
    · exact (Ends.update fun _ => rfl).done
    · exact .bind (same_update fun _ => rfl) fun _ => .pure rfl
  have hseeding : ∀ elapsed shares values toss,
      Ends isDone (·.output.isSome)
        (evaluateSeeding (m := m) round elapsed shares values toss) := by
    intro elapsed shares values toss
    refine .bind (same_within _ fun _ _ => rfl) ?_
    rintro ⟨status, toss⟩
    cases status with
    | more => exact .pure rfl
    | done =>
      refine .bind (same_update fun _ => rfl) fun _ => ?_
      dsimp only
      split
      · exact .throw _
      · exact .bind (same_pool _ _) fun _ => .bind (same_within _ fun _ _ => rfl) fun _ => .pure rfl
  have hchecking : ∀ elapsed commit,
      Ends isDone (·.output.isSome) (evaluateChecking (m := m) elapsed commit) := by
    intro elapsed commit
    refine .bind (same_within _ fun _ _ => rfl) ?_
    rintro ⟨status, commit⟩
    cases status with
    | more => exact .pure rfl
    | done =>
      refine .bind (same_update fun _ => rfl) fun _ => .bind (.ofExcept _ _) fun sum => ?_
      split
      · exact (Ends.update fun _ => rfl).done
      · exact .throw _
  unfold evaluate
  refine .bind (same_protocol _) fun p => .preceded ?_ fun hphases => hbegin.unless_done hphases
  refine .bind (same_protocol _) fun p => ?_
  dsimp only
  split
  · exact hseeding _ _ _ _
  · exact hchecking _ _
  · exact .throw _
  · exact .throw _

/-- An input has its share when the masked value was received and, if need be, compared. -/
theorem Input.ends (round : Nat) :
    Ends isDone (·.output.isSome) (evaluate round : Round m (Input m) Status) := by
  have hsend : Respects (Same (·.output.isSome)) (sendMasked : Round m (Input m) Unit) := by
    refine .bind (same_protocol _) fun p => .bind (same_pool _ _) fun mask =>
      .bind (same_pool _ _) fun pool => ?_
    dsimp only
    split
    · refine .bind (same_update fun _ => rfl) fun _ => ?_
      split
      · exact .bind (.throw _) fun _ => same_update fun _ => rfl
      · split
        · exact .bind (.throw _) fun _ => same_update fun _ => rfl
        · exact .bind (same_mailbox _ _) fun _ => same_update fun _ => rfl
    · exact same_update fun _ => rfl
  have hfinish : Ends (fun _ => true) (·.output.isSome) (finish : Round m (Input m) Unit) := by
    refine .bind (same_protocol _) fun p => .bind (same_update fun _ => rfl) fun _ => ?_
    split
    · exact .throw _
    · refine .bind (same_update fun _ => rfl) fun _ => ?_
      split
      · exact .throw _
      · exact .bind (same_pool _ _) fun _ => .update fun _ => rfl
  have hcompare : ∀ digest, Respects (Same (·.output.isSome))
      (compareDigests digest : Round m (Input m) Unit) := by
    refine fun digest => .bind (same_mailbox _ _) fun digests => ?_
    split
    · exact .pure _
    · exact .throw _
  match round with
  | 0 => exact .bind hsend fun _ => .pure rfl
  | 1 =>
    refine .bind (same_protocol _) fun p => .bind (same_mailbox _ _) fun bytes =>
      .bind (.ofExcept _ _) fun masked => .bind (same_update fun _ => rfl) fun _ =>
      .bind (same_pool _ _) fun pool => ?_
    split
    · exact .bind (.bind (same_mailbox _ _) fun _ => .pure _) fun _ =>
        .bind (same_update fun _ => rfl) fun _ => .pure rfl
    · exact hfinish.done
  | round + 2 =>
    exact .bind (same_protocol _) fun p => .bind (hcompare _) fun _ => hfinish.done

theorem Linear.ends (round : Nat) :
    Ends isDone (·.output.isSome) (evaluate round : Round m (Linear m) Status) :=
  .bind (same_pool _ _) fun _ => (Ends.update fun _ => rfl).done

theorem MultiplyBatch.ends (round : Nat) :
    Ends isDone (·.output.isSome) (evaluate round : Round m (MultiplyBatch m) Status) := by
  refine .bind (same_protocol _) fun p => ?_
  dsimp only
  split
  · exact (Ends.update fun _ => rfl).done
  match round with
  | 0 =>
    exact .bind (same_pool _ _) fun _ => .bind (same_update fun _ => rfl) fun _ =>
      .bind (same_mailbox _ _) fun _ => .pure rfl
  | round + 1 =>
    exact .bind (same_mailbox _ _) fun _ => .bind (.ofExcept _ _) fun _ =>
      .bind (same_pool _ _) fun _ => .bind (same_pool _ _) fun _ =>
      (Ends.update fun _ => rfl).done

theorem Reveal.ends (round : Nat) :
    Ends isDone (·.output.isSome) (evaluate round : Round m (Reveal m) Status) := by
  refine .bind (same_protocol _) fun p => ?_
  match round with
  | 0 => exact .bind (same_mailbox _ _) fun _ => .pure rfl
  | round + 1 =>
    exact .bind (same_mailbox _ _) fun _ => .bind (.ofExcept _ _) fun _ =>
      .bind (same_pool _ _) fun _ => (Ends.update fun _ => rfl).done

namespace Broadcast

variable {round : Nat} {b b' : Broadcast} {w w' : Participant m}

theorem same_received (h : round ≠ 1) :
    Respects (Same received) (evaluate round : Round m Broadcast Status) := by
  match round with
  | 0 =>
    exact .bind (same_protocol _) fun _ => .bind (same_update fun _ => rfl) fun _ =>
      .bind (same_mailbox _ _) fun _ => .pure _
  | 1 => exact absurd rfl h
  | round + 2 =>
    refine .bind (same_protocol _) fun b => .bind (.bind (same_mailbox _ _) fun digests => ?_)
      fun _ => .pure _
    split
    · exact .pure _
    · exact .throw _

/-- Round 1 has the messages as soon as it has received them. -/
theorem received_of_evaluate_one {status : Status}
    (h : evaluate 1 (b, w) = .ok status (b', w')) : ∃ messages, b'.received = some messages := by
  cases branch h with
  | digest => exact ⟨_, rfl⟩
  | receive => exact ⟨_, rfl⟩

/-- A round that fails has not changed the messages. -/
theorem received_of_error {fault : Fault} (h : evaluate round (b, w) = .error fault (b', w')) :
    b'.received = b.received := by
  by_cases hround : round = 1
  · subst hround
    rcases bind_eq_error.mp h with hreceive | ⟨messages, t, -, h⟩
    · exact (same_mailbox received Mailbox.receiveFromAll).of_error hreceive
    · rcases bind_eq_error.mp h with hget | ⟨pool, t', -, h⟩
      · cases hget
      · split at h <;> cases h
  · exact (same_received hround).of_error h

/-- Among two parties only the first round goes on. -/
theorem received_of_more (hparties : w.pool.parties < 3)
    (h : evaluate round (b, w) = .ok .more (b', w')) : round = 0 ∧ b'.received = b.received := by
  have hexchanges : exchanges w.pool.parties = 1 := by
    rw [exchanges_eq, if_neg (by simpa [needsValidation] using hparties)]
  have hround : round = 0 := by
    have hstatus := status_eq h
    rw [hexchanges] at hstatus
    exact Nat.lt_one_iff.mp (Status.before_eq_more.mp hstatus.symm)
  exact ⟨hround, (same_received (by omega)).of_ok h⟩

/-- No broadcast is over in its first round. -/
theorem evaluate_zero_ne_done : evaluate 0 (b, w) ≠ .ok .done (b', w') := by
  intro h
  have hstatus := status_eq h
  rw [exchanges, Status.before_of_lt (Nat.succ_pos _)] at hstatus
  cases hstatus

end Broadcast

theorem Multiply.ends (round : Nat) :
    Ends isDone (·.batch.output.isSome) (evaluate round : Round m (Multiply m) Status) :=
  .of_each fun p => ⟨_, p.batch, fun batch _ => ⟨batch⟩, _, _, MultiplyBatch.ends round, rfl,
    fun _ => rfl, fun _ => rfl⟩

namespace Gate

/-- Whether the gate has a result. -/
def hasResult : Gate m → Bool
  | .input p => p.output.isSome
  | .linear p => p.output.isSome
  | .multiply p => p.batch.output.isSome
  | .multiplyBatch p => p.output.isSome
  | .reveal p => p.output.isSome
  | .macCheck p => p.output.isSome

theorem ends (round : Nat) : Ends isDone hasResult (evaluate round : Round m (Gate m) Status) := by
  refine .of_each fun g => ?_
  cases g with
  | input p =>
    exact ⟨_, p, fun q _ => .input q, _, _, Input.ends round, rfl, fun _ => rfl, fun _ => rfl⟩
  | linear p =>
    exact ⟨_, p, fun q _ => .linear q, _, _, Linear.ends round, rfl, fun _ => rfl, fun _ => rfl⟩
  | multiply p =>
    exact ⟨_, p, fun q _ => .multiply q, _, _, Multiply.ends round, rfl, fun _ => rfl,
      fun _ => rfl⟩
  | multiplyBatch p =>
    exact ⟨_, p, fun q _ => .multiplyBatch q, _, _, MultiplyBatch.ends round, rfl, fun _ => rfl,
      fun _ => rfl⟩
  | reveal p =>
    exact ⟨_, p, fun q _ => .reveal q, _, _, Reveal.ends round, rfl, fun _ => rfl, fun _ => rfl⟩
  | macCheck p =>
    exact ⟨_, p, fun q _ => .macCheck q, _, _, MacCheck.ends round, rfl, fun _ => rfl,
      fun _ => rfl⟩

/-- A gate without a result is as it was after it has been asked for one. -/
theorem out_of_hasResult {g : Gate m} (h : g.hasResult = false) : g.out = (none, g) := by
  cases g with
  | input p =>
    obtain ⟨owner, value, mask, masked, digest, output⟩ := p
    cases Option.not_isSome_iff_eq_none.mp (ne_true_of_eq_false h)
    rfl
  | linear p =>
    obtain ⟨op, output⟩ := p
    cases Option.not_isSome_iff_eq_none.mp (ne_true_of_eq_false h)
    rfl
  | multiply p =>
    obtain ⟨⟨pairs, triples, output⟩⟩ := p
    cases Option.not_isSome_iff_eq_none.mp (ne_true_of_eq_false h)
    rfl
  | multiplyBatch p =>
    obtain ⟨pairs, triples, output⟩ := p
    cases Option.not_isSome_iff_eq_none.mp (ne_true_of_eq_false h)
    rfl
  | reveal p =>
    obtain ⟨share, output⟩ := p
    cases Option.not_isSome_iff_eq_none.mp (ne_true_of_eq_false h)
    rfl
  | macCheck p =>
    obtain ⟨phase, phaseStart, output⟩ := p
    cases Option.not_isSome_iff_eq_none.mp (ne_true_of_eq_false h)
    rfl

theorem hasResult_out (g : Gate m) : g.out.2.hasResult = false := by
  cases g <;> rfl

end Gate

/-! ## §3 A product has a first member -/

theorem Element.length_decodePieces {count : Nat} {bytes : Bytes} {xs : List (Element m)}
    (h : decodePieces m count bytes = .ok xs) : xs.length = count := by
  induction count generalizing bytes xs with
  | zero =>
    cases h
    rfl
  | succ count ih =>
    obtain ⟨x, -, h⟩ := except_bind_eq_ok.mp h
    obtain ⟨rest, hrest, h⟩ := except_bind_eq_ok.mp h
    cases h
    rw [List.length_cons, ih hrest]

/-- As many elements are decoded as are announced, unless their length wraps around. -/
theorem Element.length_decodeAll {count : Nat} {bytes : Bytes} {xs : List (Element m)}
    (hfits : count * m.byteLength < Bytes.capacity 8) (h : decodeAll m count bytes = .ok xs) :
    xs.length = count := by
  unfold decodeAll at h
  split at h
  · rename_i hlength
    rw [announcedLength, Nat.mod_eq_of_lt hfits, or_self] at hlength
    rw [length_decodePieces h, hlength, Nat.mul_div_cancel _ m.byteLength_pos]
  · cases h

theorem MultiplyBatch.length_openPayloads {count : Nat} {payloads : List Bytes}
    {opened : List (Element m)} (hfits : count * m.byteLength < Bytes.capacity 8)
    (h : openPayloads m count payloads = .ok opened) : opened.length = count := by
  have hfold : ∀ sums : List (Element m), sums.length = count →
      payloads.foldlM (fun sums payload =>
        (List.zipWith (· + ·) sums ·) <$> Element.decodeAll m count payload) sums = .ok opened →
      opened.length = count := by
    clear h
    induction payloads with
    | nil =>
      intro sums hsums h
      cases h
      exact hsums
    | cons payload rest ih =>
      intro sums hsums h
      rw [List.foldlM_cons] at h
      obtain ⟨sums', hadd, h⟩ := except_bind_eq_ok.mp h
      obtain ⟨xs, hxs, hadd⟩ := except_bind_eq_ok.mp ((map_eq_pure_bind _ _).symm.trans hadd)
      cases hadd
      refine ih _ ?_ h
      rw [List.length_zipWith, hsums, Element.length_decodeAll hfits hxs, Nat.min_self]
  exact hfold _ List.length_replicate h

/-- A store that is in step takes only as many shares as values. -/
theorem Pool.length_of_pushOpened {shares : List (AuthShare m)} {values : List (Element m)}
    {pool pool' : Pool m} {u : Unit}
    (hpaired : pool.opened.shares.length = pool.opened.values.length)
    (h : pushOpened shares values pool = .ok u pool') : shares.length = values.length := by
  rw [pushOpened, Action.within_eq_ok] at h
  obtain ⟨opened, hpush, -⟩ := h
  have hlength := (OpenedValues.push_eq_ok.mp hpush).1
  rw [List.length_append, List.length_append, hpaired] at hlength
  exact Nat.add_left_cancel hlength

/-- A single pair has its product when the batch is done: a store that is in step takes the
opened values only together with as many masked operands. -/
theorem MultiplyBatch.product_of_done {round : Nat} {p p' : MultiplyBatch m}
    {w w' : Participant m} {pair : AuthShare m × AuthShare m} (hpairs : p.pairs = [pair])
    (hpaired : w.pool.opened.shares.length = w.pool.opened.values.length)
    (h : evaluate round (p, w) = .ok .done (p', w')) :
    ∃ products, p'.output = some products ∧ products ≠ [] := by
  cases branch h with
  | empty no_pairs => cases hpairs.symm.trans no_pairs
  | @finish _ _ _ sums _ has_pairs receives opens records =>
    have hlength : sums.length = 2 := by
      refine length_openPayloads ?_ (hpairs ▸ opens)
      cases m <;> decide
    have hmasked : p.maskedOperands.length = 2 :=
      (Pool.length_of_pushOpened hpaired records).trans hlength
    obtain ⟨x, y, rfl⟩ := List.length_eq_two.mp hlength
    cases htriples : p.triples with
    | nil => simp [maskedOperands, hpairs, htriples] at hmasked
    | cons t triples =>
      refine ⟨_, rfl, ?_⟩
      simp [pairUp]

theorem MultiplyBatch.same_pairs (round : Nat) :
    Respects (Same pairs) (evaluate round : Round m (MultiplyBatch m) Status) := by
  refine .bind (same_protocol _) fun p => ?_
  dsimp only
  split
  · exact .bind (same_update fun _ => rfl) fun _ => .pure _
  match round with
  | 0 =>
    exact .bind (same_pool _ _) fun _ => .bind (same_update fun _ => rfl) fun _ =>
      .bind (same_mailbox _ _) fun _ => .pure _
  | round + 1 =>
    exact .bind (same_mailbox _ _) fun _ => .bind (.ofExcept _ _) fun _ =>
      .bind (same_pool _ _) fun _ => .bind (same_pool _ _) fun _ =>
      .bind (same_update fun _ => rfl) fun _ => .pure _

/-- A single product is of one pair. -/
def Gate.Single : Gate m → Prop
  | .multiply p => ∃ pair, p.batch.pairs = [pair]
  | _ => True

/-- However a round ends, a product is still of its pair. -/
theorem Gate.single_evaluate (round : Nat) : Respects (fun s t => s.1.Single → t.1.Single)
    (evaluate round : Round m (Gate m) Status) := by
  rintro ⟨g, w⟩ hsingle
  cases g with
  | multiply p =>
    obtain ⟨pair, hpairs⟩ := hsingle
    have hbatch : Multiply.evaluate round (p, w) = Round.within p.batch (fun batch _ => ⟨batch⟩)
      (MultiplyBatch.evaluate round) (p, w) := rfl
    rw [evaluate_multiply, endState_round_within, hbatch, endState_round_within]
    exact ⟨pair, (MultiplyBatch.same_pairs round (p.batch, w)).trans hpairs⟩
  | input p => rw [evaluate_input, endState_round_within]; trivial
  | linear p => rw [evaluate_linear, endState_round_within]; trivial
  | multiplyBatch p => rw [evaluate_multiplyBatch, endState_round_within]; trivial
  | reveal p => rw [evaluate_reveal, endState_round_within]; trivial
  | macCheck p => rw [evaluate_macCheck, endState_round_within]; trivial

/-- A gate that is done has the value of its node. -/
theorem Gate.out_of_done {round : Nat} {g g' : Gate m} {w w' : Participant m}
    (hresult : g.hasResult = false) (hsingle : g.Single)
    (hpaired : w.pool.opened.shares.length = w.pool.opened.values.length)
    (h : evaluate round (g, w) = .ok .done (g', w')) : ∃ value, g'.out.1 = some value := by
  have hdone : g'.hasResult = true := (Gate.ends round).of_ok hresult h
  cases branch h with
  | input | linear =>
    obtain ⟨x, hx⟩ := Option.isSome_iff_exists.mp hdone
    exact ⟨_, congrArg (Option.map Value.share) hx⟩
  | multiplyBatch =>
    obtain ⟨x, hx⟩ := Option.isSome_iff_exists.mp hdone
    exact ⟨_, congrArg (Option.map Value.shares) hx⟩
  | reveal =>
    obtain ⟨x, hx⟩ := Option.isSome_iff_exists.mp hdone
    exact ⟨_, congrArg (Option.map Value.plain) hx⟩
  | macCheck =>
    obtain ⟨x, hx⟩ := Option.isSome_iff_exists.mp hdone
    exact ⟨_, congrArg (Option.map fun _ => Value.checked) hx⟩
  | multiply act =>
    obtain ⟨pair, hpairs⟩ := hsingle
    obtain ⟨products, hproducts, hne⟩ :=
      MultiplyBatch.product_of_done hpairs hpaired (Multiply.evaluate_eq_ok.mp act)
    obtain ⟨x, rest, rfl⟩ := List.exists_cons_of_ne_nil hne
    exact ⟨.share x, by simp [out, Multiply.out, MultiplyBatch.out, hproducts]⟩

/-! ## §4 Every protocol -/

/-- A gate as it is set up, before any round. -/
inductive Gate.Fresh : Gate m → Prop
  | input (owner : Nat) (value : Option (Element m)) : Fresh (.input (.new owner value))
  | linear (op : LinearOp m) : Fresh (.linear { op })
  | multiply (x y : AuthShare m) : Fresh (.multiply (.new x y))
  | multiplyBatch (pairs : List (AuthShare m × AuthShare m)) : Fresh (.multiplyBatch { pairs })
  | reveal (share : AuthShare m) : Fresh (.reveal { share })
  | macCheck : Fresh (.macCheck {})

/-- One of `n` parties. Its store has as many shares as values, which every push sees to. -/
structure Participant.OneOf (n : Nat) (w : Participant m) : Prop where
  parties : w.pool.parties = n
  paired : w.pool.opened.shares.length = w.pool.opened.values.length

namespace Task

/-- A protocol as it is set up, before any round. -/
inductive Fresh : Task m → Prop
  | gate {g : Gate m} (h : g.Fresh) : Fresh (.gate g)
  | broadcast (message : Bytes) : Fresh (.broadcast (.new message))
  | commit (value : Bytes) : Fresh (.commit (.new value))
  | coinToss : Fresh (.coinToss {})

/-- A protocol of one of `n` parties that is not done: `t` is left of it, and the next round has
this number. Before every round the mailbox may hold anything. A round that fails may be followed
by others; `failed` tells whether one has. -/
inductive Unfinished (n : Nat) (start : Task m) : (failed : Bool) → (round : Nat) → Task m → Prop
  | start : Unfinished n start false 0 start
  | more {failed : Bool} {round : Nat} {t t' : Task m} {w w' : Participant m}
      (before : Unfinished n start failed round t) (seat : w.OneOf n)
      (h : evaluate round (t, w) = .ok .more (t', w')) : Unfinished n start failed (round + 1) t'
  | failed {failed : Bool} {round : Nat} {t t' : Task m} {w w' : Participant m} {fault : Fault}
      (before : Unfinished n start failed round t) (seat : w.OneOf n)
      (h : evaluate round (t, w) = .error fault (t', w')) : Unfinished n start true (round + 1) t'

/-- Whether the protocol has a result. -/
def hasResult : Task m → Bool
  | .gate p => p.hasResult
  | .broadcast p => p.received.isSome
  | .commit p => p.output.isSome
  | .coinToss p => p.output.isSome

/-- Whether the protocol is a broadcast. -/
def isBroadcast : Task m → Bool
  | .broadcast _ => true
  | _ => false

/-- A single product is of one pair. -/
def Single : Task m → Prop
  | .gate g => g.Single
  | _ => True

theorem out_of_hasResult {t : Task m} (h : t.hasResult = false) : t.out = (none, t) := by
  cases t with
  | gate p => rw [out, Gate.out_of_hasResult h]; rfl
  | broadcast p =>
    obtain ⟨message, received, digest⟩ := p
    cases Option.not_isSome_iff_eq_none.mp (ne_true_of_eq_false h)
    rfl
  | commit p =>
    obtain ⟨value, opening, phase, phaseStart, commitments, output⟩ := p
    cases Option.not_isSome_iff_eq_none.mp (ne_true_of_eq_false h)
    rfl
  | coinToss p =>
    obtain ⟨commit, output⟩ := p
    cases Option.not_isSome_iff_eq_none.mp (ne_true_of_eq_false h)
    rfl

theorem hasResult_out (t : Task m) : t.out.2.hasResult = false := by
  cases t with
  | gate p => exact Gate.hasResult_out p
  | _ => rfl

theorem same_isBroadcast (round : Nat) :
    Respects (Same isBroadcast) (evaluate round : Round m (Task m) Status) := by
  rintro ⟨t, w⟩
  cases t with
  | gate p => rw [evaluate_gate, endState_round_within]; rfl
  | broadcast p => rw [evaluate_broadcast, endState_round_within]; rfl
  | commit p => rw [evaluate_commit, endState_round_within]; rfl
  | coinToss p => rw [evaluate_coinToss, endState_round_within]; rfl

theorem single_evaluate (round : Nat) : Respects (fun s t => s.1.Single → t.1.Single)
    (evaluate round : Round m (Task m) Status) := by
  rintro ⟨t, w⟩ hsingle
  cases t with
  | gate p =>
    rw [evaluate_gate, endState_round_within]
    exact Gate.single_evaluate round (p, w) hsingle
  | broadcast p => rw [evaluate_broadcast, endState_round_within]; trivial
  | commit p => rw [evaluate_commit, endState_round_within]; trivial
  | coinToss p => rw [evaluate_coinToss, endState_round_within]; trivial

variable {round : Nat} {t t' : Task m} {w w' : Participant m}

theorem hasResult_of_ok (hb : t.isBroadcast = false) (hr : t.hasResult = false) {status : Status}
    (h : evaluate round (t, w) = .ok status (t', w')) : t'.hasResult = isDone status := by
  cases t with
  | gate p =>
    obtain ⟨q, hq, rfl⟩ := (Gate.ends round).part_ok hr ((evaluate_gate round p w).symm.trans h)
    exact hq
  | broadcast p => cases hb
  | commit p =>
    obtain ⟨q, hq, rfl⟩ := (Commit.ends round).part_ok hr ((evaluate_commit round p w).symm.trans h)
    exact hq
  | coinToss p =>
    obtain ⟨q, hq, rfl⟩ :=
      (CoinToss.ends round).part_ok hr ((evaluate_coinToss round p w).symm.trans h)
    exact hq

theorem hasResult_of_error (hr : t.hasResult = false) {fault : Fault}
    (h : evaluate round (t, w) = .error fault (t', w')) : t'.hasResult = false := by
  cases t with
  | gate p =>
    obtain ⟨q, hq, rfl⟩ := (Gate.ends round).part_error hr ((evaluate_gate round p w).symm.trans h)
    exact hq
  | broadcast p =>
    rw [evaluate_broadcast, within_apply] at h
    cases hround : Broadcast.evaluate round (p, w) with
    | ok status s =>
      rw [hround] at h
      cases h
    | error fault s =>
      rw [hround] at h
      cases h
      exact (congrArg Option.isSome (Broadcast.received_of_error hround)).trans hr
  | commit p =>
    obtain ⟨q, hq, rfl⟩ :=
      (Commit.ends round).part_error hr ((evaluate_commit round p w).symm.trans h)
    exact hq
  | coinToss p =>
    obtain ⟨q, hq, rfl⟩ :=
      (CoinToss.ends round).part_error hr ((evaluate_coinToss round p w).symm.trans h)
    exact hq

theorem exists_of_isBroadcast (h : t.isBroadcast = true) : ∃ b, t = .broadcast b := by
  cases t with
  | broadcast b => exact ⟨b, rfl⟩
  | _ => cases h

theorem evaluate_broadcast_eq_ok {b : Broadcast} {status : Status}
    (h : evaluate round (.broadcast b, w) = .ok status (t', w')) :
    ∃ b', t' = .broadcast b' ∧ Broadcast.evaluate round (b, w) = .ok status (b', w') := by
  cases branch h with
  | broadcast act => exact ⟨_, rfl, act⟩

/-- What is known of a protocol that is not done. -/
structure Waiting (start : Task m) (failed : Bool) (round : Nat) (t : Task m) : Prop where
  noResult : t.hasResult = false
  single : t.Single
  broadcast : t.isBroadcast = start.isBroadcast
  /-- A broadcast that has not failed is over after round 1. -/
  early : start.isBroadcast = true → failed = false → round ≤ 1

theorem Unfinished.waiting {start : Task m} {failed : Bool} (fresh : start.Fresh)
    (hb : start.isBroadcast = true → n < 3) (h : Unfinished n start failed round t) :
    Waiting start failed round t := by
  induction h with
  | start =>
    refine ⟨?_, ?_, rfl, fun _ _ => Nat.zero_le 1⟩
    · cases fresh with
      | gate hg => cases hg <;> rfl
      | _ => rfl
    · cases fresh with
      | gate hg => cases hg <;> first | trivial | exact ⟨_, rfl⟩
      | _ => trivial
  | more before seat h ih =>
    have hkind := ((same_isBroadcast _).of_ok h).trans ih.broadcast
    have hsingle := (single_evaluate _).of_ok h ih.single
    cases hbroadcast : start.isBroadcast with
    | false =>
      refine ⟨?_, hsingle, hkind, ?_⟩
      · exact hasResult_of_ok (ih.broadcast.trans hbroadcast) ih.noResult h
      · rw [hbroadcast]
        nofun
    | true =>
      obtain ⟨b, rfl⟩ := exists_of_isBroadcast (ih.broadcast.trans hbroadcast)
      obtain ⟨b', rfl, hround⟩ := evaluate_broadcast_eq_ok h
      obtain ⟨rfl, hreceived⟩ := Broadcast.received_of_more (seat.parties ▸ hb hbroadcast) hround
      exact ⟨(congrArg Option.isSome hreceived).trans ih.noResult, trivial, hkind,
        fun _ _ => Nat.le_refl 1⟩
  | failed before seat h ih =>
    exact ⟨hasResult_of_error ih.noResult h, (single_evaluate _).of_error h ih.single,
      ((same_isBroadcast _).of_error h).trans ih.broadcast, nofun⟩

/-- A round that ends the protocol leaves a result to be taken. -/
theorem Waiting.out_of_done {start : Task m} {failed : Bool} (h : Waiting start failed round t)
    (hb : start.isBroadcast = true → failed = false) (seat : w.OneOf n)
    (hdone : evaluate round (t, w) = .ok .done (t', w')) : ∃ result, t'.out.1 = some result := by
  cases branch hdone with
  | gate act =>
    obtain ⟨value, hvalue⟩ := Gate.out_of_done h.noResult h.single seat.paired act
    exact ⟨_, congrArg (Option.map TaskResult.value) hvalue⟩
  | broadcast act =>
    have hlast : round = 1 := by
      have hle := h.early h.broadcast.symm (hb h.broadcast.symm)
      have hne : round ≠ 0 := by
        rintro rfl
        exact Broadcast.evaluate_zero_ne_done act
      omega
    subst hlast
    obtain ⟨messages, hmessages⟩ := Broadcast.received_of_evaluate_one act
    exact ⟨_, congrArg (Option.map TaskResult.messages) hmessages⟩
  | commit act =>
    obtain ⟨values, hvalues⟩ := Commit.output_of_done act
    exact ⟨_, congrArg (Option.map TaskResult.messages) hvalues⟩
  | coinToss act =>
    obtain ⟨seed, hseed⟩ := Option.isSome_iff_exists.mp ((CoinToss.ends round).of_ok h.noResult act)
    exact ⟨_, congrArg (Option.map TaskResult.seed) hseed⟩

end Task

/-- Whatever is received and whatever fails, a protocol other than a broadcast among three or more
parties has nothing to hand out before it is done, and asking it changes nothing; when it is done
it hands its result out once. With two parties this holds of a broadcast as well, unless it is
carried on after a round that failed. -/
theorem Task.released {start t : Task m} {failed : Bool} {round : Nat} (fresh : start.Fresh)
    (hb : start.isBroadcast = true → n < 3) (h : Unfinished n start failed round t) :
    t.out = (none, t)
    ∧ ((start.isBroadcast = true → failed = false) → ∀ w t' w', w.OneOf n →
        evaluate round (t, w) = .ok .done (t', w') →
          ∃ result left, t'.out = (some result, left) ∧ left.out = (none, left)) := by
  have hwaiting := h.waiting fresh hb
  refine ⟨out_of_hasResult hwaiting.noResult, fun hfailed w t' w' seat hdone => ?_⟩
  obtain ⟨result, hresult⟩ := hwaiting.out_of_done hfailed seat hdone
  exact ⟨result, t'.out.2, Prod.ext hresult rfl, out_of_hasResult (hasResult_out t')⟩

/-- A product of party 1, the shares being its own parts of nothing in particular. -/
def productTask : Task .mersenne61 :=
  .gate (.multiply (.new ⟨5, 35⟩ ⟨6, 42⟩))

/-- Party 1 of two, with these messages in its mailbox. -/
def pairParty (incoming : List Frame) : Participant .mersenne61 :=
  ⟨stockedPool ⟨0, Nat.two_pos⟩, ⟨1, [[], []], incoming, 0⟩⟩

/-- Two masked operands of a peer. -/
def peerPayload : Bytes :=
  Element.encodeAll ([3, 4] : List (Element .mersenne61))

/-- A product finds no messages in its second round, and another time it finds them and is
done. -/
theorem released_product : ∃ t t' done w',
    Task.Unfinished 2 productTask false 1 t ∧ t.out = (none, t)
    ∧ Task.Unfinished 2 productTask true 2 t' ∧ t'.out = (none, t')
    ∧ Task.evaluate 1 (t, pairParty [[peerPayload], [peerPayload]]) = .ok .done (done, w')
    ∧ ∃ result left, done.out = (some result, left) ∧ left.out = (none, left) := by
  have fresh : productTask.Fresh := .gate (.multiply _ _)
  have hb : productTask.isBroadcast = true → 2 < 3 := nofun
  have hseat : ∀ incoming, (pairParty incoming).OneOf 2 := fun _ => ⟨rfl, rfl⟩
  let first := endState (Task.evaluate 0 (productTask, pairParty [[], []]))
  let failed := endState (Task.evaluate 1 (first.1, pairParty [[], []]))
  let last := endState (Task.evaluate 1 (first.1, pairParty [[peerPayload], [peerPayload]]))
  have hmore : Task.Unfinished 2 productTask false 1 first.1 := .more .start (hseat [[], []]) rfl
  have hfailed : Task.Unfinished 2 productTask true 2 failed.1 := .failed hmore (hseat [[], []]) rfl
  have hdone : Task.evaluate 1 (first.1, pairParty [[peerPayload], [peerPayload]])
      = .ok .done (last.1, last.2) := rfl
  exact ⟨first.1, failed.1, last.1, last.2, hmore, (Task.released fresh hb hmore).1, hfailed,
    (Task.released fresh hb hfailed).1, hdone,
    (Task.released fresh hb hmore).2 nofun _ _ _ (hseat _) hdone⟩

/-! ## §5 Broadcasts among three or more parties -/

/-- As long as no round has failed, a broadcast that is not done has its messages to hand out from
round 1 on, when their digests are still to be compared. A round that fails leaves them there. -/
theorem Broadcast.released_early {message : Bytes} {round : Nat} {t : Task m}
    (h : Task.Unfinished n (.broadcast (.new message)) false round t) :
    t.out.1.isSome = decide (2 ≤ round)
    ∧ ∀ w fault t' w', Task.evaluate round (t, w) = .error fault (t', w') →
      t'.out.1 = t.out.1 := by
  have hstate : ∃ b : Broadcast, t = .broadcast b ∧ b.received.isSome = decide (2 ≤ round) := by
    generalize hfailed : false = failed at h
    induction h with
    | start => exact ⟨_, rfl, rfl⟩
    | @more failed round t t' w w' before seat hmore ih =>
      obtain ⟨b, rfl, hreceived⟩ := ih hfailed
      obtain ⟨b', rfl, hround⟩ := Task.evaluate_broadcast_eq_ok hmore
      refine ⟨b', rfl, ?_⟩
      by_cases hone : round = 1
      · subst hone
        obtain ⟨messages, hmessages⟩ := received_of_evaluate_one hround
        rw [hmessages]
        rfl
      · rw [show b'.received = b.received from (same_received hone).of_ok hround, hreceived]
        exact decide_eq_decide.mpr (by omega)
    | failed => cases hfailed
  obtain ⟨b, rfl, hreceived⟩ := hstate
  have hout : ∀ b : Broadcast, (Task.out (.broadcast b : Task m)).1 = b.received.map .messages :=
    fun _ => rfl
  refine ⟨by rw [hout, Option.isSome_map, hreceived], fun w fault t' w' herror => ?_⟩
  rw [Task.evaluate_broadcast, within_apply] at herror
  cases hround : evaluate round (b, w) with
  | ok status s =>
    rw [hround] at herror
    cases herror
  | error fault s =>
    rw [hround] at herror
    cases herror
    rw [hout, hout, received_of_error hround]

/-- A comparison that finds another digest fails, and leaves the broadcast as it was. -/
theorem Broadcast.evaluate_mismatch {round i : Nat} {b : Broadcast} {w : Participant m}
    {digests : List Bytes} {box : Mailbox}
    (hdigests : Mailbox.receiveFromAll w.mailbox = .ok digests box)
    (hother : digests.findIdx? (· != b.digest) = some i) :
    Task.evaluate (round + 2) (.broadcast b, w) = .error (.malicious (.digestMismatch (i + 1)))
      (.broadcast b, { w with mailbox := box }) := by
  rw [Task.evaluate_broadcast]
  simp [evaluate, compareDigests, hdigests, hother]

/-- Party 1 of three, with these messages in its mailbox. -/
def trioParty (incoming : List Frame) : Participant .mersenne61 :=
  ⟨trioPool ⟨0, Nat.succ_pos 2⟩, ⟨1, [[], [], []], incoming, 0⟩⟩

/-- Party 1 broadcasts to two others. It hands out what it received before the digests are
compared, and also after the digest of party 2 turned out to be another one. -/
theorem broadcast_released_unvalidated : ∃ t t' w',
    Task.Unfinished 3 (.broadcast (.new [7]) : Task .mersenne61) false 2 t
    ∧ t.out.1 = some (.messages [[7], [8], [9]])
    ∧ Task.evaluate 2 (t, trioParty [[Digest.ofMessages [[7], [8], [9]]], [[]], [[]]])
        = .error (.malicious (.digestMismatch 2)) (t', w')
    ∧ t'.out.1 = some (.messages [[7], [8], [9]]) := by
  have hseat : ∀ incoming, (trioParty incoming).OneOf 3 := fun _ => ⟨rfl, rfl⟩
  have hsend : Task.Unfinished 3 (.broadcast (.new [7])) false 1
      (.broadcast ⟨none, none, []⟩ : Task .mersenne61) := .more .start (hseat [[], [], []]) rfl
  have hmessages : Mailbox.receiveFromAll (trioParty [[[7]], [[8]], [[9]]]).mailbox
      = .ok [[7], [8], [9]] (trioParty [[], [], []]).mailbox := rfl
  have hround : ∃ w', Task.evaluate 1
      (.broadcast ⟨none, none, []⟩, trioParty [[[7]], [[8]], [[9]]])
        = .ok .more
            (.broadcast ⟨none, some [[7], [8], [9]], Digest.ofMessages [[7], [8], [9]]⟩, w') := by
    rw [Task.evaluate_broadcast]
    simp only [within_apply, Broadcast.evaluate, bind_apply, mailbox_apply, hmessages]
    exact ⟨_, rfl⟩
  -- nothing but its length is used of the digest
  obtain ⟨digest, hdigest⟩ : ∃ digest, digest = Digest.ofMessages [[7], [8], [9]] := ⟨_, rfl⟩
  rw [← hdigest] at hround ⊢
  have hlength : digest ≠ [] := by
    intro h
    have := Digest.length_ofMessages [[7], [8], [9]]
    rw [← hdigest, h] at this
    cases this
  have hother : [digest, [], []].findIdx? (· != digest) = some 1 := by
    simp [List.findIdx?_cons, hlength.symm]
  have htake : Mailbox.receiveFromAll (trioParty [[digest], [[]], [[]]]).mailbox
      = .ok [digest, [], []] (trioParty [[], [], []]).mailbox := rfl
  obtain ⟨w', hround⟩ := hround
  exact ⟨_, _, _, .more hsend (hseat _) hround, rfl, Broadcast.evaluate_mismatch htake hother, rfl⟩

end JointCircuit
