/-
JointCircuit.Proofs.Entries — what a round does to the opened values.

The store of opened values is read as a list of entries (§1). Most rounds
leave it alone, whatever the party has received (`Round.Quiet`, §2 and
§3). A product and an opening record entries in their last round, a
check takes all entries in its first one (§4 and §5).

Main statements: `Gate.evaluate_eq_ok` and the inversions of the rounds
of a check in §5, which hold for all peers.
-/
import JointCircuit.Proofs.Branches
import JointCircuit.Proofs.Supply

namespace JointCircuit

variable {m : Modulus} {π ρ α β γ δ : Type}

/-! ## §1 Entries -/

/-- An opened share with the value that it was opened to. -/
abbrev Entry (m : Modulus) := AuthShare m × Element m

namespace OpenedValues

/-- The store with these entries. -/
def ofEntries (entries : List (Entry m)) : OpenedValues m :=
  { shares := entries.map (·.1), values := entries.map (·.2) }

/-- The entries of a store. -/
def entries (o : OpenedValues m) : List (Entry m) :=
  o.shares.zip o.values

@[simp] theorem entries_ofEntries (es : List (Entry m)) : (ofEntries es).entries = es := by
  rw [entries, ofEntries, List.zip_map', List.map_id']

/-- A store with as many shares as values, which is what a push insists on. -/
theorem eq_ofEntries {o : OpenedValues m} (h : o.shares.length = o.values.length) :
    o = ofEntries o.entries := by
  rw [ofEntries, entries, List.map_fst_zip (Nat.le_of_eq h), List.map_snd_zip (Nat.le_of_eq h.symm)]

@[simp] theorem entries_empty : ({} : OpenedValues m).entries = [] := rfl

/-- As many shares as values join a store in pairs. -/
theorem extend_ofEntries {shares : List (AuthShare m)} {values : List (Element m)}
    (h : shares.length = values.length) (old : List (Entry m)) :
    (ofEntries old).extend shares values = ofEntries (old ++ shares.zip values) := by
  rw [ofEntries, ofEntries, extend, List.map_append, List.map_append,
    List.map_fst_zip (Nat.le_of_eq h), List.map_snd_zip (Nat.le_of_eq h.symm)]

end OpenedValues

/-- What a successful push has added to the store. -/
theorem Pool.pushOpened_eq_ok {shares : List (AuthShare m)} {values : List (Element m)}
    {pool pool' : Pool m} {u : Unit} {old : List (Entry m)}
    (hold : pool.opened = .ofEntries old) (h : pushOpened shares values pool = .ok u pool') :
    ∃ new : List (Entry m), new.length = shares.length
      ∧ pool' = { pool with opened := .ofEntries (old ++ new) } := by
  rw [pushOpened, Action.within_eq_ok] at h
  obtain ⟨opened, hopened, rfl⟩ := h
  rw [hold, OpenedValues.push_eq_ok] at hopened
  obtain ⟨hlength, rfl⟩ := hopened
  have hlength' : shares.length = values.length := by
    simpa [OpenedValues.ofEntries] using hlength
  exact ⟨shares.zip values, by simp [hlength'], by rw [OpenedValues.extend_ofEntries hlength']⟩

/-! ## §2 Rounds that leave the store alone -/

namespace Round

/-- The round changes neither the store nor the key share, and it keeps a part of the state of
its protocol. -/
def Quiet (keep : π → γ) (act : Round m π α) : Prop :=
  ∀ p w a p' w', act (p, w) = .ok a (p', w') →
    w'.pool.opened = w.pool.opened ∧ w'.pool.keyShare = w.pool.keyShare ∧ keep p' = keep p

namespace Quiet

variable {keep : π → γ}

theorem pure (a : α) : Quiet keep (Pure.pure a : Round m π α) := by
  intro p w b p' w' h
  cases h
  exact ⟨rfl, rfl, rfl⟩

theorem throw (fault : Fault) : Quiet keep (MonadExcept.throw fault : Round m π α) := by
  intro p w b p' w' h
  cases h

theorem bind {x : Round m π α} {f : α → Round m π β} (hx : Quiet keep x)
    (hf : ∀ a, Quiet keep (f a)) : Quiet keep (x >>= f) := by
  intro p w b p' w' h
  obtain ⟨a, ⟨p₁, w₁⟩, h₁, h₂⟩ := Action.bind_eq_ok.mp h
  obtain ⟨hopened, hkey, hkeep⟩ := hx p w a p₁ w₁ h₁
  obtain ⟨hopened', hkey', hkeep'⟩ := hf a p₁ w₁ b p' w' h₂
  exact ⟨hopened'.trans hopened, hkey'.trans hkey, hkeep'.trans hkeep⟩

theorem protocol : Quiet keep (Round.protocol : Round m π π) := by
  intro p w b p' w' h
  cases h
  exact ⟨rfl, rfl, rfl⟩

theorem update {f : π → π} (hf : ∀ p, keep (f p) = keep p) :
    Quiet keep (Round.update f : Round m π Unit) := by
  intro p w b p' w' h
  cases h
  exact ⟨rfl, rfl, hf p⟩

theorem mailbox (act : Action Mailbox α) : Quiet keep (Round.mailbox act : Round m π α) := by
  intro p w b p' w' h
  obtain ⟨box, -, heq⟩ := mailbox_eq_ok.mp h
  cases heq
  exact ⟨rfl, rfl, rfl⟩

theorem pool {act : Action (Pool m) α} (hact : ∀ pool a pool', act pool = .ok a pool' →
    pool'.opened = pool.opened ∧ pool'.keyShare = pool.keyShare) :
    Quiet keep (Round.pool act : Round m π α) := by
  intro p w b p' w' h
  obtain ⟨pool', hpool, heq⟩ := pool_eq_ok.mp h
  cases heq
  exact ⟨(hact _ _ _ hpool).1, (hact _ _ _ hpool).2, rfl⟩

theorem pool_get : Quiet keep (Round.pool get : Round m π (Pool m)) :=
  pool fun _ _ _ h => by cases h; exact ⟨rfl, rfl⟩

theorem drawLocal (draw : Draw α) : Quiet keep (Round.pool (Pool.drawLocal draw) : Round m π α) :=
  pool fun _ _ _ h => by cases h; exact ⟨rfl, rfl⟩

theorem nextMask (owner : Nat) :
    Quiet keep (Round.pool (Pool.nextMask owner) : Round m π (InputMask m)) :=
  pool fun pool _ _ h => by
    obtain ⟨supplier, -, rfl⟩ := Action.within_eq_ok.mp h
    exact ⟨rfl, rfl⟩

theorem ofExcept {ε : Type} (fault : ε → Fault) (x : Except ε α) :
    Quiet keep (Action.ofExcept fault x : Round m π α) := by
  intro p w b p' w' h
  obtain ⟨-, heq⟩ := Action.ofExcept_eq_ok.mp h
  cases heq
  exact ⟨rfl, rfl, rfl⟩

theorem within {keep' : ρ → δ} {inner : ρ} {put : ρ → π → π} {act : Round m ρ α}
    (hput : ∀ t p, keep (put t p) = keep p) (hact : Quiet keep' act) :
    Quiet keep (Round.within inner put act) := by
  intro p w b p' w' h
  obtain ⟨t, w₁, h₁, heq⟩ := within_eq_ok.mp h
  cases heq
  obtain ⟨hopened, hkey, -⟩ := hact _ _ _ _ _ h₁
  exact ⟨hopened, hkey, hput t p⟩

/-- What may be preceded by something else. -/
theorem preceded {c : Prop} [Decidable c] {first rest : Round m π α} (hrest : Quiet keep rest)
    (hfirst : Quiet keep rest → Quiet keep first) : Quiet keep (if c then first else rest) := by
  split
  · exact hfirst hrest
  · exact hrest

/-- The state of a part is kept with its answer. -/
theorem with_protocol {act : Round m π α} (hact : Quiet keep act) :
    Quiet keep (do return (← act, ← Round.protocol) : Round m π (α × π)) :=
  hact.bind fun _ => protocol.bind fun _ => pure _

end Quiet

end Round

open Round

/-! ## §3 Broadcasts, commitments and tosses -/

namespace Broadcast

theorem quiet (round : Nat) :
    Quiet (fun _ => ()) (evaluate round : Round m Broadcast Status) := by
  match round with
  | 0 =>
    exact .bind .protocol fun _ => .bind (.update fun _ => rfl) fun _ =>
      .bind (.mailbox _) fun _ => .pure _
  | 1 =>
    refine .bind (.mailbox _) fun received => .bind .pool_get fun pool => ?_
    split
    · exact .bind (.bind (.mailbox _) fun _ => .pure _) fun _ =>
        .bind (.update fun _ => rfl) fun _ => .pure _
    · exact .bind (.update fun _ => rfl) fun _ => .pure _
  | round + 2 =>
    refine .bind .protocol fun b => .bind (.bind (.mailbox _) fun digests => ?_) fun _ => .pure _
    split
    · exact .pure _
    · exact .throw _

end Broadcast

namespace Commit

theorem quiet_takeReceived (b : Broadcast) (put : Broadcast → Phase) :
    Quiet Commit.value (takeReceived b put : Round m Commit (List Bytes)) :=
  .bind (.update fun _ => rfl) fun _ => .pure _

/-- A commitment keeps the value that it was made to. -/
theorem quiet (round : Nat) : Quiet Commit.value (evaluate round : Round m Commit Status) := by
  have hrest : ∀ (round elapsed : Nat) (b : Broadcast),
      Quiet Commit.value (evaluateCommitments round elapsed b : Round m Commit Status) := by
    intro round elapsed b
    refine .bind (.within (fun _ _ => rfl) (Broadcast.quiet elapsed).with_protocol) ?_
    rintro ⟨status, b'⟩
    cases status with
    | more => exact .pure _
    | done =>
      refine .bind (quiet_takeReceived _ _) fun commitments => ?_
      dsimp only
      split
      · exact .throw _
      · exact .bind .protocol fun _ => .bind (.update fun _ => rfl) fun _ =>
          .bind (.within (fun _ _ => rfl) (Broadcast.quiet 0)) fun _ => .pure _
  have hopenings : ∀ (elapsed : Nat) (b : Broadcast),
      Quiet Commit.value (evaluateOpenings elapsed b : Round m Commit Status) := by
    intro elapsed b
    refine .bind (.within (fun _ _ => rfl) (Broadcast.quiet elapsed).with_protocol) ?_
    rintro ⟨status, b'⟩
    cases status with
    | more => exact .pure _
    | done =>
      exact .bind (quiet_takeReceived _ _) fun _ => .bind .protocol fun _ =>
        .bind (.ofExcept _ _) fun _ => .bind (.update fun _ => rfl) fun _ => .pure _
  unfold evaluate
  refine .bind .protocol fun p => .preceded ?_ fun hphases => ?_
  · refine .bind .protocol fun p => ?_
    dsimp only
    split
    · exact hrest _ _ _
    · exact hopenings _ _
    · exact .throw _
    · exact .throw _
  · exact .bind (.bind (.drawLocal _) fun _ => .update fun _ => rfl) fun _ => hphases

end Commit

namespace CoinToss

theorem quiet (round : Nat) : Quiet (fun _ => ()) (evaluate round : Round m CoinToss Status) := by
  refine .bind ?_ fun commit =>
    .bind (.within (fun _ _ => rfl) (Commit.quiet round).with_protocol) ?_
  · refine .bind .protocol fun p => ?_
    split
    · exact .pure _
    · exact .bind (.drawLocal _) fun _ => .bind (.update fun _ => rfl) fun _ => .pure _
  · rintro ⟨status, commit⟩
    cases status with
    | more => exact .pure _
    | done =>
      exact .bind (.update fun _ => rfl) fun _ => .bind (.ofExcept _ _) fun _ =>
        .bind (.update fun _ => rfl) fun _ => .pure _

end CoinToss

/-! ## §4 Gates that are no checks -/

namespace Input

theorem quiet (round : Nat) : Quiet (fun _ => ()) (evaluate round : Round m (Input m) Status) := by
  have hfinish : Quiet (fun _ => ()) (finish : Round m (Input m) Unit) := by
    refine .bind .protocol fun p => .bind (.update fun _ => rfl) fun _ => ?_
    split
    · exact .throw _
    · refine .bind (.update fun _ => rfl) fun _ => ?_
      split
      · exact .throw _
      · exact .bind .pool_get fun _ => .update fun _ => rfl
  have hsend : Quiet (fun _ => ()) (sendMasked : Round m (Input m) Unit) := by
    refine .bind .protocol fun p => .bind (.nextMask _) fun mask => .bind .pool_get fun pool => ?_
    dsimp only
    split
    · refine .bind (.update fun _ => rfl) fun _ => ?_
      split
      · exact .bind (.throw _) fun _ => .update fun _ => rfl
      · split
        · exact .bind (.throw _) fun _ => .update fun _ => rfl
        · exact .bind (.mailbox _) fun _ => .update fun _ => rfl
    · exact .update fun _ => rfl
  match round with
  | 0 => exact .bind hsend fun _ => .pure _
  | 1 =>
    refine .bind .protocol fun p => .bind (.mailbox _) fun bytes => .bind (.ofExcept _ _)
      fun masked => .bind (.update fun _ => rfl) fun _ => .bind .pool_get fun pool => ?_
    split
    · exact .bind (.bind (.mailbox _) fun _ => .pure _) fun _ =>
        .bind (.update fun _ => rfl) fun _ => .pure _
    · exact .bind hfinish fun _ => .pure _
  | round + 2 =>
    refine .bind .protocol fun p => .bind (.bind (.mailbox _) fun digests => ?_) fun _ =>
      .bind hfinish fun _ => .pure _
    split
    · exact .pure _
    · exact .throw _

end Input

theorem Linear.quiet (round : Nat) :
    Quiet (fun _ => ()) (Linear.evaluate round : Round m (Linear m) Status) :=
  .bind .pool_get fun _ => .bind (.update fun _ => rfl) fun _ => .pure _

/-- The entries that a batch has recorded when it is done. -/
def MultiplyBatch.openings (p : MultiplyBatch m) : Nat :=
  2 * p.pairs.length

/-- After the first round a batch has its triples. -/
def MultiplyBatch.Supplied (round : Nat) (p : MultiplyBatch m) : Prop :=
  round ≠ 0 → p.triples.length = p.pairs.length

/-- The entries that a round has recorded by its end, out of `all`. -/
def Status.recorded (all : Nat) : Status → Nat
  | .more => 0
  | .done => all

/-- A round of a batch: the entries are recorded in the last one. -/
theorem MultiplyBatch.evaluate_eq_ok {round : Nat} {p p' : MultiplyBatch m} {w w' : Participant m}
    {status : Status} (h : evaluate round (p, w) = .ok status (p', w'))
    (hsupplied : p.Supplied round) {old : List (Entry m)} (hold : w.pool.opened = .ofEntries old) :
    (status = .more → p'.openings = p.openings ∧ p'.Supplied (round + 1))
      ∧ ∃ new : List (Entry m), w'.pool.opened = .ofEntries (old ++ new)
        ∧ new.length = status.recorded p.openings := by
  cases branch h with
  | empty no_pairs =>
    refine ⟨nofun, [], by simpa using hold, ?_⟩
    simp [Status.recorded, openings, no_pairs]
  | send has_pairs draws =>
    exact ⟨fun _ => ⟨rfl, fun _ => Supplier.length_nextTriples draws⟩, [], by simpa using hold, rfl⟩
  | finish has_pairs receives opens records =>
    obtain ⟨new, hnew, rfl⟩ := Pool.pushOpened_eq_ok hold records
    refine ⟨nofun, new, rfl, ?_⟩
    rw [hnew, length_maskedOperands (hsupplied (Nat.succ_ne_zero _))]
    rfl

theorem Reveal.evaluate_eq_ok {round : Nat} {p p' : Reveal m} {w w' : Participant m}
    {status : Status} (h : evaluate round (p, w) = .ok status (p', w')) {old : List (Entry m)}
    (hold : w.pool.opened = .ofEntries old) :
    ∃ new : List (Entry m), w'.pool.opened = .ofEntries (old ++ new)
      ∧ new.length = status.recorded 1 := by
  cases branch h with
  | send => exact ⟨[], by simpa using hold, rfl⟩
  | finish receives adds records =>
    obtain ⟨new, hnew, rfl⟩ := Pool.pushOpened_eq_ok hold records
    exact ⟨new, rfl, hnew⟩

namespace Gate

/-- Whether the gate is a check. -/
def isCheck : Gate m → Bool
  | .macCheck _ => true
  | _ => false

/-- The entries that a gate has recorded when it is done: two for every product, one for an
opening. -/
def openings : Gate m → Nat
  | .multiply p => p.batch.openings
  | .multiplyBatch p => p.openings
  | .reveal _ => 1
  | _ => 0

/-- After the first round a product has its triples. -/
def Supplied (round : Nat) : Gate m → Prop
  | .multiply p => p.batch.Supplied round
  | .multiplyBatch p => p.Supplied round
  | _ => True

/-- A round of a protocol that does not touch the store. -/
theorem recorded_of_quiet {act : Round m π Status} (hquiet : Quiet (fun _ => ()) act) {p p' : π}
    {w w' : Participant m} {status : Status} (h : act (p, w) = .ok status (p', w'))
    {old : List (Entry m)} (hold : w.pool.opened = .ofEntries old) :
    ∃ new : List (Entry m), w'.pool.opened = .ofEntries (old ++ new)
      ∧ new.length = status.recorded 0 := by
  obtain ⟨hopened, -, -⟩ := hquiet _ _ _ _ _ h
  refine ⟨[], ?_, ?_⟩
  · rw [hopened, hold, List.append_nil]
  · cases status <;> rfl

/-- A round of a gate that is no check: the entries are recorded in the last one. -/
theorem evaluate_eq_ok {round : Nat} {g g' : Gate m} {w w' : Participant m} {status : Status}
    (h : evaluate round (g, w) = .ok status (g', w')) (hcheck : g.isCheck = false)
    (hsupplied : g.Supplied round) {old : List (Entry m)} (hold : w.pool.opened = .ofEntries old) :
    g'.isCheck = false
      ∧ (status = .more → g'.openings = g.openings ∧ g'.Supplied (round + 1))
      ∧ ∃ new : List (Entry m), w'.pool.opened = .ofEntries (old ++ new)
        ∧ new.length = status.recorded g.openings := by
  cases branch h with
  | input act =>
    exact ⟨rfl, fun _ => ⟨rfl, trivial⟩, recorded_of_quiet (Input.quiet round) act hold⟩
  | linear act =>
    exact ⟨rfl, fun _ => ⟨rfl, trivial⟩, recorded_of_quiet (Linear.quiet round) act hold⟩
  | multiply act =>
    exact ⟨rfl, MultiplyBatch.evaluate_eq_ok (Multiply.evaluate_eq_ok.mp act) hsupplied hold⟩
  | multiplyBatch act => exact ⟨rfl, MultiplyBatch.evaluate_eq_ok act hsupplied hold⟩
  | reveal act => exact ⟨rfl, fun _ => ⟨rfl, trivial⟩, Reveal.evaluate_eq_ok act hold⟩
  | macCheck => cases hcheck

end Gate

/-- The entries that an operation records: two for every product, one for an opening. -/
def Operation.openings : Operation m → Nat
  | .multiply _ _ => 2
  | .multiplyBatch pairs => 2 * pairs.length
  | .reveal _ => 1
  | _ => 0

/-- A gate that has been built records what its operation does, and a check is a new one. -/
theorem Gate.instantiate_eq_ok {values : List (Option (Value m))} {op : Operation m} {g : Gate m}
    (h : instantiate values op = .ok g) :
    g.openings = op.openings ∧ g.Supplied 0 ∧ (g.isCheck = true → g = .macCheck {}) := by
  have hlinear : ∀ {l : LinearOp m}, (.ok (ofLinear l) : Except CircuitError (Gate m)) = .ok g →
      g.openings = 0 ∧ g.Supplied 0 ∧ (g.isCheck = true → g = .macCheck {}) := by
    intro l hl
    cases hl
    exact ⟨rfl, trivial, nofun⟩
  cases op with
  | input owner value =>
    cases h
    exact ⟨rfl, trivial, nofun⟩
  | add x y | sub x y =>
    obtain ⟨_, -, h⟩ := except_bind_eq_ok.mp h
    obtain ⟨_, -, h⟩ := except_bind_eq_ok.mp h
    exact hlinear h
  | neg x | addPublic x c | subPublic x c | mulPublic x c | select x index =>
    obtain ⟨_, -, h⟩ := except_bind_eq_ok.mp h
    exact hlinear h
  | multiply x y =>
    obtain ⟨_, -, h⟩ := except_bind_eq_ok.mp h
    obtain ⟨_, -, h⟩ := except_bind_eq_ok.mp h
    cases h
    exact ⟨rfl, fun h => absurd rfl h, nofun⟩
  | multiplyBatch pairs =>
    obtain ⟨operands, hoperands, h⟩ := except_bind_eq_ok.mp h
    cases h
    refine ⟨?_, fun h => absurd rfl h, nofun⟩
    rw [openings, MultiplyBatch.openings, except_length_mapM hoperands]
    rfl
  | reveal x =>
    obtain ⟨_, -, h⟩ := except_bind_eq_ok.mp h
    cases h
    exact ⟨rfl, trivial, nofun⟩
  | macCheck after =>
    cases h
    exact ⟨rfl, trivial, fun _ => rfl⟩

/-! ## §5 Checks -/

/-- The first round of a commitment draws its randomness and always goes on. -/
theorem Commit.evaluate_new (value : Bytes) (start : Nat) (w : Participant m) :
    ∃ box, Commit.evaluate start (Commit.new value, w)
      = .ok .more (Commit.begun value (Draw.bytes randomnessLength w.pool.localGenerator).1 start,
        { pool := { w.pool with
            localGenerator := (Draw.bytes randomnessLength w.pool.localGenerator).2 }
          mailbox := box }) := by
  have hround : roundsSince start start = 0 := Commit.roundsSince_add start 0
  let message := Digest.commitment (value ++ (Draw.bytes randomnessLength w.pool.localGenerator).1)
  refine ⟨{ w.mailbox with outgoing := w.mailbox.outgoing.map (· ++ [message]) }, ?_⟩
  simp [evaluate, begin, new, hround, evaluateCommitments, Broadcast.evaluate, Broadcast.new,
    begun, Mailbox.sendToAll, message]

/-- The first round of a toss draws the own seed and always goes on. -/
theorem CoinToss.evaluate_new (start : Nat) (w : Participant m) :
    ∃ box, CoinToss.evaluate start ({}, w)
      = .ok .more (CoinToss.begun (CoinToss.ownSeed w.pool.localGenerator)
          (CoinToss.ownRandomness w.pool.localGenerator) start,
        { pool := { w.pool with localGenerator := CoinToss.afterDraws w.pool.localGenerator }
          mailbox := box }) := by
  obtain ⟨box, hcommit⟩ := Commit.evaluate_new (ownSeed w.pool.localGenerator).toList start
    { w with pool := { w.pool with localGenerator := (Draw.seed w.pool.localGenerator).2 } }
  simp only [ownSeed] at hcommit
  refine ⟨box, ?_⟩
  simp [evaluate, commitment, hcommit, begun, ownSeed, ownRandomness, afterDraws]

/-- A commitment that is done has values. -/
theorem Commit.output_of_done {round : Nat} {c c' : Commit} {w w' : Participant m}
    (h : evaluate round (c, w) = .ok .done (c', w')) : ∃ values, c'.output = some values := by
  cases branch h with
  | opened => exact ⟨_, rfl⟩

namespace MacCheck

variable {round : Nat} {p p' : MacCheck m} {w w' : Participant m} {status : Status}

/-- The first round of a check takes everything out of the store. If there was something, a toss
begins after that. -/
theorem evaluate_start (h : evaluate round ({}, w) = .ok status (p', w')) :
    w'.pool.opened = {} ∧ if w.pool.opened.shares = [] then status = .done else
      status = .more ∧ p' = begun w.pool.opened (CoinToss.ownSeed w.pool.localGenerator)
        (CoinToss.ownRandomness w.pool.localGenerator) round := by
  by_cases hempty : w.pool.opened.shares = []
  · simp [evaluate, begin, hempty] at h
    obtain ⟨rfl, rfl, rfl⟩ := h
    simp [hempty]
  · obtain ⟨box, htoss⟩ := CoinToss.evaluate_new 0
      ({ w with pool := { w.pool with opened := {} } } : Participant m)
    have helapsed : roundsSince round round = 0 := Commit.roundsSince_add round 0
    simp [evaluate, begin, hempty, helapsed, evaluateSeeding, htoss] at h
    obtain ⟨rfl, rfl, rfl⟩ := h
    simp [hempty, begun]

/-- A round of the toss. When it is done, the own term is fixed with one coefficient for every
entry, and the party commits to it. -/
theorem evaluate_of_seeding {shares : List (AuthShare m)} {values : List (Element m)} {t : CoinToss}
    (hphase : p.phase = .seeding shares values t)
    (h : evaluate round (p, w) = .ok status (p', w')) :
    status = .more ∧ w'.pool.opened = w.pool.opened
      ∧ ((∃ t', p'.phase = .seeding shares values t')
        ∨ ∃ t' w₁ seed c,
          CoinToss.evaluate (roundsSince p.phaseStart round) (t, w) = .ok .done (t', w₁)
          ∧ t'.output = some seed ∧ p'.phase = .checking c
          ∧ c.value = (checkTerm w.pool.keyShare shares values
              (coefficients m seed shares.length).1).toBytes) := by
  cases branch (by rw [hphase]; nofun) h with
  | seeding phase part =>
    obtain ⟨rfl, rfl, rfl⟩ := Phase.seeding.inj (hphase.symm.trans phase)
    exact ⟨rfl, (CoinToss.quiet _ _ _ _ _ _ part).1, .inl ⟨_, rfl⟩⟩
  | seeded phase part tossed term commits =>
    obtain ⟨rfl, rfl, rfl⟩ := Phase.seeding.inj (hphase.symm.trans phase)
    obtain ⟨hopened, hkey, -⟩ := CoinToss.quiet _ _ _ _ _ _ part
    obtain ⟨hopened', -, hvalue⟩ := Commit.quiet _ _ _ _ _ _ commits
    cases term
    refine ⟨rfl, hopened'.trans hopened, .inr ⟨_, _, _, _, part, tossed, rfl, ?_⟩⟩
    rw [hvalue, ← hkey]
    rfl
  | checking phase => cases hphase.symm.trans phase
  | checked phase => cases hphase.symm.trans phase

/-- A round of the commitment to the terms. When it is done, the terms add up to zero. -/
theorem evaluate_of_checking {c : Commit} (hphase : p.phase = .checking c)
    (h : evaluate round (p, w) = .ok status (p', w')) :
    w'.pool.opened = w.pool.opened
      ∧ ((status = .more ∧ ∃ c', p'.phase = .checking c' ∧ c'.value = c.value)
        ∨ status = .done ∧ ∃ c' w₁ terms,
          Commit.evaluate (roundsSince p.phaseStart round) (c, w) = .ok .done (c', w₁)
          ∧ c'.output = some terms ∧ sumEncoded m terms = .ok 0) := by
  cases branch (by rw [hphase]; nofun) h with
  | seeding phase => cases hphase.symm.trans phase
  | seeded phase => cases hphase.symm.trans phase
  | checking phase part =>
    obtain rfl := Phase.checking.inj (hphase.symm.trans phase)
    obtain ⟨hopened, -, hvalue⟩ := Commit.quiet _ _ _ _ _ _ part
    exact ⟨hopened, .inl ⟨rfl, _, rfl, hvalue⟩⟩
  | checked phase part cancels =>
    obtain rfl := Phase.checking.inj (hphase.symm.trans phase)
    obtain ⟨terms, hterms⟩ := Commit.output_of_done part
    rw [hterms, Option.getD_some] at cancels
    exact ⟨(Commit.quiet _ _ _ _ _ _ part).1, .inr ⟨rfl, _, _, terms, part, hterms, cancels⟩⟩

end MacCheck

/-- A round of a check as that of a gate. -/
theorem Gate.evaluate_macCheck_eq_ok {round : Nat} {p : MacCheck m} {w w' : Participant m}
    {status : Status} {g' : Gate m} :
    evaluate round (.macCheck p, w) = .ok status (g', w')
      ↔ ∃ p', g' = .macCheck p' ∧ MacCheck.evaluate round (p, w) = .ok status (p', w') := by
  constructor
  · intro h
    cases branch h with
    | macCheck act => exact ⟨_, rfl, act⟩
  · rintro ⟨p', rfl, hround⟩
    exact Action.bind_eq_ok.mpr ⟨_, _, rfl, within_eq_ok.mpr ⟨p', w', hround, rfl⟩⟩

end JointCircuit
