/-
JointCircuit.Proofs.Symmetry — what one party queues, the other one takes.

Two parties that run a protocol in step do not see each other's state.
Still each of them takes from the other in the next round what the other
has queued in this one, because how many messages a round queues (§2)
and how many it takes (JointCircuit.Proofs.Appetite) both follow from
the kind of the protocol and the number of the round, whatever has
arrived, and so does its answer (§3).

Main statements: `Played.outgoing_of_done` (§2) — a round that ends a
protocol has queued nothing; `Played.Counterparts.status_eq` and
`Played.Counterparts.length_taken` (§4) — the rounds of two parties have
the same answer, and what one queues is as much as the other one takes.
-/
import JointCircuit.Proofs.Postage
import JointCircuit.Proofs.Receipts
import JointCircuit.Proofs.Release

namespace JointCircuit

open JointCircuit.Action Round

variable {m : Modulus} {n : Nat} {π ρ : Type}

/-! ## §1 Queued messages -/

namespace Mailbox

/-- The messages queued for party `j + 1`. -/
def outbox (box : Mailbox) (j : Nat) : Frame :=
  box.outgoing.getD j []

theorem outbox_of_lt {box : Mailbox} {j : Nat} (hj : j < box.outgoing.length) :
    box.outbox j = box.outgoing[j] := by
  rw [outbox, List.getD_eq_getElem?_getD, List.getElem?_eq_getElem hj, Option.getD_some]

theorem outbox_of_le {box : Mailbox} {j : Nat} (hj : box.outgoing.length ≤ j) :
    box.outbox j = [] := by
  rw [outbox, List.getD_eq_getElem?_getD, List.getElem?_eq_none hj, Option.getD_none]

theorem hasOutgoing_eq_false {box : Mailbox} :
    box.hasOutgoing = false ↔ ∀ j, box.outbox j = [] := by
  simp only [hasOutgoing, List.any_eq_false, Bool.not_eq_true, Bool.not_eq_false', List.isEmpty_iff]
  constructor
  · intro h j
    rcases Nat.lt_or_ge j box.outgoing.length with hj | hj
    · rw [outbox_of_lt hj]
      exact h _ (List.getElem_mem hj)
    · exact outbox_of_le hj
  · intro h frame hframe
    obtain ⟨j, hj, rfl⟩ := List.getElem_of_mem hframe
    rw [← outbox_of_lt hj]
    exact h j

/-- Messages of these lengths are that many. -/
theorem Queued.length_outbox {lengths : List Nat} {box box' : Mailbox} (h : Queued lengths box box')
    {j : Nat} (hj : j < box.outgoing.length) :
    (box'.outbox j).length = (box.outbox j).length + lengths.length := by
  have hlength : box'.outgoing.length = box.outgoing.length := by
    have hall := congrArg List.length h
    simpa [letters, lengthsOf] using hall
  have hj' : j < box'.outgoing.length := hlength ▸ hj
  have hframe := congrArg (fun all : List (List Nat) => all[j]?) h
  simp only [letters, lengthsOf, List.getElem?_map, List.getElem?_eq_getElem hj,
    List.getElem?_eq_getElem hj', Option.map_some, Option.some.injEq] at hframe
  rw [outbox_of_lt hj, outbox_of_lt hj']
  have hcount := congrArg List.length hframe
  rwa [List.length_map, List.length_append, List.length_map] at hcount

end Mailbox

/-- What any round leaves as it is: messages that are queued stay queued. -/
structure Grows (w w' : Participant m) : Prop where
  outbox : ∀ j, w.mailbox.outbox j <+: w'.mailbox.outbox j

namespace Grows

instance : Std.Refl (Grows : Participant m → _ → Prop) :=
  ⟨fun _ => ⟨fun _ => List.prefix_refl _⟩⟩

instance : IsTrans (Participant m) Grows :=
  ⟨fun _ _ _ h h' => ⟨fun j => (h.outbox j).trans (h'.outbox j)⟩⟩

theorem of_outgoing {w w' : Participant m} (h : w'.mailbox.outgoing = w.mailbox.outgoing) :
    Grows w w' :=
  ⟨fun j => by rw [Mailbox.outbox, Mailbox.outbox, h]⟩

instance : Manners (Grows : Participant m → _ → Prop) where
  nextMask _ _ := of_outgoing rfl
  nextTriples _ _ := of_outgoing rfl
  drawLocal _ _ := of_outgoing rfl
  installJointSeed _ _ := of_outgoing rfl
  drawJoint _ _ := of_outgoing rfl
  pushOpened _ _ _ := of_outgoing rfl
  drainOpened _ := of_outgoing rfl
  sendToAll message w := by
    refine ⟨fun j => ?_⟩
    show w.mailbox.outbox j <+: (w.mailbox.outgoing.map (· ++ [message])).getD j []
    rw [Mailbox.outbox, List.getD_eq_getElem?_getD, List.getD_eq_getElem?_getD, List.getElem?_map]
    cases w.mailbox.outgoing[j]? with
    | none => exact List.nil_prefix
    | some frame => exact List.prefix_append frame [message]
  receive party w := by
    refine of_outgoing ?_
    rcases Mailbox.receive_cases party w.mailbox with ⟨fault, herror, -⟩ | ⟨_, _, -, -, hok⟩
    · rw [herror]
      rfl
    · rw [hok]
      rfl

end Grows

/-- Messages queued before a round of any protocol are still there after it. -/
theorem Task.grows {round : Nat} {t : Task m} {w : Participant m} :
    Grows w (endState (Task.evaluate round (t, w))).2 :=
  Task.respects (R := Grows) round (t, w)

/-! ## §2 How many messages a round queues -/

/-- The messages of a round that queues so many if it goes on; one that ends queues none. -/
def Status.copies (count : Nat) : Status → Nat
  | .more => count
  | .done => 0

theorem Status.length_letters (lengths : List Nat) (status : Status) :
    (status.letters lengths).length = status.copies lengths.length := by
  cases status <;> rfl

/-- The step succeeds only with one message for everybody, or none if it ends the protocol. -/
abbrev Round.PostsOne (s : π × Participant m) (act : Round m π Status) : Prop :=
  Posts s (fun status _ lengths => lengths.length = status.copies 1) act

/-- A part of the protocol, and what follows when it ends. -/
theorem Round.postsOne_of_part {inner : ρ} {put : ρ → π → π} {act : Round m ρ Status}
    {f : Status × ρ → Round m π Status} {s : π × Participant m} (h : PostsOne (inner, s.2) act)
    (hmore : ∀ q, f (.more, q) = pure .more) (hdone : ∀ q s', PostsOne s' (f (.done, q))) :
    PostsOne s (Round.within inner put (do return (← act, ← Round.protocol)) >>= f) := by
  refine (Posts.within_protocol h).bind ?_
  rintro ⟨status, q⟩ s' lengths - ⟨hlengths, -⟩
  cases status with
  | more =>
    rw [hmore]
    exact Posts.pure (by rw [List.append_nil, hlengths])
  | done =>
    obtain rfl := List.eq_nil_of_length_eq_zero hlengths
    exact hdone q s'

theorem Broadcast.posts_one (round : Nat) (b : Broadcast) (w : Participant m) :
    PostsOne (b, w) (evaluate round) :=
  (Broadcast.posts round b w).mono fun status _ _ h => by rw [h, Status.length_letters]; rfl

namespace Commit

theorem postsOne_evaluateCommitments (round elapsed : Nat) (b : Broadcast) (c : Commit)
    (w : Participant m) : PostsOne (c, w) (evaluateCommitments round elapsed b) := by
  refine postsOne_of_part (Broadcast.posts_one elapsed b w) (fun _ => rfl) fun _ _ => ?_
  refine Posts.after ((Silent.update _).bind fun _ _ _ => .pure _) fun commitments s _ => ?_
  dsimp only
  split
  · exact Posts.throw _
  · refine Posts.after .protocol fun _ _ _ => Posts.after (.update _) fun _ s _ => ?_
    refine (Posts.within (Broadcast.posts_one 0 _ s.2)).bind ?_
    rintro status ⟨_, w₂⟩ lengths hok ⟨b₁, hlengths, -⟩
    -- The openings have just begun, so their broadcast goes on.
    obtain ⟨_, _, hbroadcast, -⟩ := Round.within_eq_ok.mp hok
    have hmore : status = .more :=
      (Broadcast.status_eq hbroadcast).trans (Status.before_of_lt (Nat.succ_pos _))
    subst hmore
    exact Posts.pure (by rw [List.append_nil]; exact hlengths)

theorem postsOne_evaluateOpenings (elapsed : Nat) (b : Broadcast) (c : Commit)
    (w : Participant m) : PostsOne (c, w) (evaluateOpenings elapsed b) := by
  refine postsOne_of_part (Broadcast.posts_one elapsed b w) (fun _ => rfl) fun _ _ => ?_
  exact Posts.after ((Silent.update _).bind fun _ _ _ => .pure _) fun _ _ _ =>
    Posts.after .protocol fun _ _ _ => Posts.after (.ofExcept _ _) fun _ _ _ =>
    Posts.after (.update _) fun _ _ _ => Posts.pure rfl

/-- The rounds after the first one. -/
theorem postsOne_phases (round : Nat) (c : Commit) (w : Participant m) :
    PostsOne (c, w) (do
      let p ← Round.protocol
      let elapsed := roundsSince p.phaseStart round
      match p.phase with
      | .commitments broadcast => evaluateCommitments round elapsed broadcast
      | .openings broadcast => evaluateOpenings elapsed broadcast
      | .start => throw (.protocol .commitmentFinished)
      | .finished => throw (.protocol .commitmentFinished)) := by
  refine Posts.after .protocol ?_
  rintro _ _ ⟨⟩
  dsimp only
  cases c.phase with
  | commitments b => exact postsOne_evaluateCommitments _ _ b c w
  | openings b => exact postsOne_evaluateOpenings _ b c w
  | start => exact Posts.throw _
  | finished => exact Posts.throw _

theorem posts_one (round : Nat) (c : Commit) (w : Participant m) :
    PostsOne (c, w) (evaluate round) := by
  unfold evaluate
  refine Posts.after .protocol fun p s _ => ?_
  split
  · exact Posts.after ((Silent.pool _).bind fun _ _ _ => .update _) fun _ s _ =>
      postsOne_phases round s.1 s.2
  · exact postsOne_phases round s.1 s.2

end Commit

theorem CoinToss.posts_one (round : Nat) (t : CoinToss) (w : Participant m) :
    PostsOne (t, w) (evaluate round) := by
  have hcommitment : Silent (t, w) commitment := by
    refine Silent.protocol.bind fun p _ _ => ?_
    split
    · exact .pure _
    · exact (Silent.pool _).bind fun _ _ _ => (Silent.update _).bind fun _ _ _ => .pure _
  refine Posts.after hcommitment fun c s _ => ?_
  exact postsOne_of_part (Commit.posts_one round c s.2) (fun _ => rfl) fun _ _ =>
    Posts.after (.update _) fun _ _ _ => Posts.after (.ofExcept _ _) fun _ _ _ =>
    Posts.after (.update _) fun _ _ _ => Posts.pure rfl

namespace MacCheck

theorem postsOne_evaluateSeeding (round elapsed : Nat) (shares : List (AuthShare m))
    (values : List (Element m)) (t : CoinToss) (p : MacCheck m) (w : Participant m) :
    PostsOne (p, w) (evaluateSeeding round elapsed shares values t) := by
  refine postsOne_of_part (CoinToss.posts_one elapsed t w) (fun _ => rfl) fun _ _ => ?_
  refine Posts.after (.update _) fun _ _ _ => ?_
  dsimp only
  split
  · exact Posts.throw _
  · refine Posts.after (.pool _) fun own s _ => ?_
    refine (Posts.within (Commit.posts_new own.toBytes s.2)).bind ?_
    rintro status ⟨_, w₁⟩ lengths - ⟨c, ⟨rfl, -, rfl⟩, -⟩
    exact Posts.pure rfl

theorem postsOne_evaluateChecking (elapsed : Nat) (c : Commit) (p : MacCheck m)
    (w : Participant m) : PostsOne (p, w) (evaluateChecking elapsed c) := by
  refine postsOne_of_part (Commit.posts_one elapsed c w) (fun _ => rfl) fun _ _ => ?_
  refine Posts.after (.update _) fun _ _ _ => Posts.after (.ofExcept _ _) fun _ _ _ => ?_
  split
  · exact Posts.after (.update _) fun _ _ _ => Posts.pure rfl
  · exact Posts.throw _

/-- The rounds after the first one. -/
theorem postsOne_phases (round : Nat) (p : MacCheck m) (w : Participant m) :
    PostsOne (p, w) (do
      let p ← Round.protocol
      let elapsed := roundsSince p.phaseStart round
      match p.phase with
      | .seeding shares values toss => evaluateSeeding round elapsed shares values toss
      | .checking commit => evaluateChecking elapsed commit
      | .start => throw (.protocol .checkFinished)
      | .finished => throw (.protocol .checkFinished)) := by
  refine Posts.after .protocol ?_
  rintro _ _ ⟨⟩
  dsimp only
  cases p.phase with
  | seeding shares values t => exact postsOne_evaluateSeeding _ _ _ _ t p w
  | checking c => exact postsOne_evaluateChecking _ c p w
  | start => exact Posts.throw _
  | finished => exact Posts.throw _

theorem posts_one (round : Nat) (p : MacCheck m) (w : Participant m) :
    PostsOne (p, w) (evaluate round) := by
  unfold evaluate
  refine Posts.after .protocol fun p s _ => ?_
  split
  · have hbegin : Silent s (begin round : Round m (MacCheck m) Status) := by
      refine (Silent.pool _).bind fun drained _ _ => ?_
      dsimp only
      split
      · exact (Silent.update _).bind fun _ _ _ => .pure _
      · exact (Silent.update _).bind fun _ _ _ => .pure _
    refine Posts.after hbegin fun status s _ => ?_
    split
    · exact Posts.pure rfl
    · exact postsOne_phases round s.1 s.2
  · exact postsOne_phases round s.1 s.2

end MacCheck

/-- How many messages a round queues for each party if it goes on: one, but in the first round of
an input only its owner has something to send. -/
def Task.copies (party round : Nat) : Task m → Nat
  | .gate (.input p) => if round = 0 ∧ party ≠ p.owner then 0 else 1
  | _ => 1

theorem Input.length_postage (party owner round : Nat) :
    (postage m party owner round).length = if round = 0 ∧ party ≠ owner then 0 else 1 := by
  unfold postage
  by_cases hround : round = 0
  · by_cases hparty : party = owner <;> simp [hround, hparty]
  · simp [hround]

/-- In any state, a gate queues one message for everybody in a round that goes on, unless it is an
input. -/
theorem Gate.posts_copies (round : Nat) (g : Gate m) (w : Participant m) :
    Posts (g, w) (fun status _ lengths =>
      lengths.length = status.copies ((Task.gate g).copies w.pool.party round))
      (evaluate round) := by
  refine Posts.after .protocol ?_
  rintro _ _ ⟨⟩
  cases g with
  | input p =>
    refine (Posts.within (Input.posts round p w)).mono ?_
    rintro status _ _ ⟨q, ⟨-, rfl⟩, -⟩
    rw [Status.length_letters, Input.length_postage]
    rfl
  | linear p =>
    refine (Posts.within (Linear.posts round p w)).mono ?_
    rintro status _ _ ⟨q, ⟨rfl, rfl⟩, -⟩
    rfl
  | multiply p =>
    refine (Posts.within (Multiply.posts round p w)).mono ?_
    rintro status _ _ ⟨q, ⟨-, rfl⟩, -⟩
    exact Status.length_letters _ status
  | multiplyBatch p =>
    refine (Posts.within (MultiplyBatch.posts round p w)).mono ?_
    rintro status _ _ ⟨q, ⟨-, rfl⟩, -⟩
    exact Status.length_letters _ status
  | reveal p =>
    refine (Posts.within (Reveal.posts round p w)).mono ?_
    rintro status _ _ ⟨q, rfl, -⟩
    exact Status.length_letters _ status
  | macCheck p =>
    exact (Posts.within (MacCheck.posts_one round p w)).mono fun _ _ _ h => h.choose_spec.1

/-- In any state, a round queues this many messages for everybody, or none if it ends the
protocol. -/
theorem Task.posts_copies (round : Nat) (t : Task m) (w : Participant m) :
    Posts (t, w) (fun status _ lengths =>
      lengths.length = status.copies (t.copies w.pool.party round)) (evaluate round) := by
  refine Posts.after .protocol ?_
  rintro _ _ ⟨⟩
  cases t with
  | gate g => exact (Posts.within (Gate.posts_copies round g w)).mono fun _ _ _ h => h.choose_spec.1
  | broadcast b =>
    exact (Posts.within (Broadcast.posts_one round b w)).mono fun _ _ _ h => h.choose_spec.1
  | commit c =>
    exact (Posts.within (Commit.posts_one round c w)).mono fun _ _ _ h => h.choose_spec.1
  | coinToss t =>
    exact (Posts.within (CoinToss.posts_one round t w)).mono fun _ _ _ h => h.choose_spec.1

namespace Played

/-- The round succeeds with this answer. -/
def Answers (r : Played m) (status : Status) : Prop :=
  Task.evaluate r.number r.before = .ok status r.after

/-- The messages that a round queues for party `j + 1`: what joins those queued before. -/
def sent (r : Played m) (j : Nat) : Frame :=
  (r.after.2.mailbox.outbox j).drop (r.before.2.mailbox.outbox j).length

variable {r : Played m} {status : Status}

theorem Answers.evaluated (h : r.Answers status) :
    r.after = endState (Task.evaluate r.number r.before) := by
  rw [h, endState_ok]

theorem outbox_eq (h : r.after = endState (Task.evaluate r.number r.before)) (j : Nat) :
    r.after.2.mailbox.outbox j = r.before.2.mailbox.outbox j ++ r.sent j := by
  have hgrows : Grows r.before.2 r.after.2 := by
    rw [h]
    exact Task.grows
  obtain ⟨added, hadded⟩ := hgrows.outbox j
  rw [sent, ← hadded, List.drop_left]

/-- A round that goes on queues as many messages as its protocol says, one that ends queues none. -/
theorem Answers.length_sent (h : r.Answers status) {j : Nat}
    (hj : j < r.before.2.mailbox.outgoing.length) :
    (r.sent j).length = status.copies (r.before.1.copies r.before.2.pool.party r.number) := by
  obtain ⟨lengths, hcount, hqueued⟩ :=
    Task.posts_copies r.number r.before.1 r.before.2 status r.after h
  have hlength := hqueued.length_outbox hj
  rw [outbox_eq h.evaluated, List.length_append] at hlength
  rw [Nat.add_left_cancel hlength, hcount]

/-- Whatever the state and whatever has arrived, a round that ends its protocol has queued
nothing. -/
theorem outgoing_of_done (h : r.Answers .done) :
    r.after.2.mailbox.outgoing = r.before.2.mailbox.outgoing := by
  have hserves : Serves r.before.2 r.after.2 := by
    rw [h.evaluated]
    exact Task.serves
  refine List.ext_getElem hserves.outgoing fun j hj' hj => ?_
  rw [← Mailbox.outbox_of_lt hj, ← Mailbox.outbox_of_lt hj', outbox_eq h.evaluated,
    List.eq_nil_of_length_eq_zero (h.length_sent hj), List.append_nil]

end Played

/-! ## §3 The clock -/

theorem Commit.Due.appetite {c : Commit} {wait round : Nat} (due : c.Due wait round) (j : Nat) :
    c.appetite round j = 1 := by
  obtain ⟨b, hphase, hstart, hround, -⟩ | ⟨b, hphase, hstart, hround, -⟩ := due
  · simp only [Commit.appetite, hphase, hstart, roundsSince_of_le (Nat.zero_le round), fromAll,
      Nat.sub_zero, if_neg (Nat.ne_of_gt hround), Pi.one_apply]
  · simp only [Commit.appetite, hphase, hstart, roundsSince_of_le hround.le, fromAll,
      if_neg (Nat.sub_ne_zero_of_lt hround), Pi.one_apply]

theorem CoinToss.Due.appetite {t : CoinToss} {wait round : Nat} (due : t.Due wait round) (j : Nat) :
    t.appetite round j = 1 := by
  obtain ⟨c, hcommit, due⟩ := due
  rw [CoinToss.appetite, hcommit]
  exact due.appetite j

theorem MacCheck.Due.appetite {p : MacCheck m} {wait round : Nat} (due : p.Due wait round)
    (j : Nat) : p.appetite round j = 1 := by
  obtain ⟨_, _, t, hphase, hstart, -, due⟩ | ⟨c, hphase, hstart, hround, due⟩ := due
  · simp only [MacCheck.appetite, hphase, hstart, roundsSince_of_le (Nat.zero_le round),
      Nat.sub_zero, due.appetite j]
  · simp only [MacCheck.appetite, hphase, hstart, roundsSince_of_le hround.le, due.appetite j]

namespace Task

/-- The last round of a protocol among `n` parties; that of a check, if there is something to
check. -/
def last (n : Nat) : Task m → Nat
  | .gate g => g.last n
  | .broadcast _ => exchanges n
  | .commit _ => 2 * exchanges n
  | .coinToss _ => 2 * exchanges n

/-- A protocol that is evaluated next in this round. -/
structure Due (n round : Nat) (t : Task m) : Prop where
  commit : ∀ c, t = .commit c → (round = 0 ∧ ∃ value, c = .new value) ∨ c.Due (exchanges n) round
  coinToss : ∀ p, t = .coinToss p → (round = 0 ∧ p = {}) ∨ p.Due (exchanges n) round
  check : ∀ p, t = .gate (.macCheck p) → (round = 0 ∧ p = {}) ∨ p.Due (exchanges n) round

/-- What a round that goes on leaves: the same protocol, one round later, that takes of every party
what such a round of its queues. -/
structure Proceeds (n round : Nat) (t t' : Task m) : Prop where
  due : t'.Due n (round + 1)
  last : t'.last n = t.last n
  copies : ∀ party later, t'.copies party later = t.copies party later
  appetite : ∀ j, t'.appetite (round + 1) j = t.copies (j + 1) round

variable {round : Nat} {t t' : Task m} {w w' : Participant m} {status : Status}

/-- A new protocol is evaluated next in round 0. -/
theorem Fresh.due (h : t.Fresh) : t.Due n 0 := by
  refine ⟨?_, ?_, ?_⟩
  · rintro _ rfl
    cases h
    exact .inl ⟨rfl, _, rfl⟩
  · rintro _ rfl
    cases h
    exact .inl ⟨rfl, rfl⟩
  · rintro _ rfl
    cases h with
    | gate hg =>
      cases hg
      exact .inl ⟨rfl, rfl⟩

/-- A gate other than a check may be evaluated next in any round. -/
theorem due_gate {g : Gate m} (h : g.isCheck = false) (round : Nat) :
    (Task.gate g).Due n round where
  commit _ hc := by cases hc
  coinToss _ ht := by cases ht
  check p hp := by
    cases hp
    cases h

/-- A new protocol takes nothing. -/
theorem Fresh.appetite (h : t.Fresh) : t.appetite 0 = 0 := by
  cases h with
  | gate h =>
    cases h with
    | multiply x y => exact MultiplyBatch.appetite_zero (Multiply.new x y).batch
    | multiplyBatch pairs => exact MultiplyBatch.appetite_zero { pairs }
    | _ => rfl
  | _ => rfl

/-- The answer of a round that succeeds. A new check that finds nothing to check is over at once. -/
def answer (n round : Nat) (t : Task m) (opened : OpenedValues m) : Status :=
  if t = .gate (.macCheck {}) ∧ opened.shares = [] then .done else .before (t.last n) round

theorem answer_of_ne (t : Task m) (h : t ≠ .gate (.macCheck {})) (opened : OpenedValues m) :
    t.answer n round opened = .before (t.last n) round :=
  if_neg fun hnew => h hnew.1

end Task

variable {round : Nat} {w w' : Participant m} {status : Status}

theorem Broadcast.proceeds {b b' : Broadcast}
    (hparties : w.pool.parties = n) (h : evaluate round (b, w) = .ok status (b', w')) :
    status = .before (exchanges n) round
      ∧ (status = .more → Task.Proceeds n round (.broadcast b : Task m) (.broadcast b')) :=
  ⟨hparties ▸ Broadcast.status_eq h,
    fun _ => ⟨⟨nofun, nofun, nofun⟩, rfl, fun _ _ => rfl, fun _ => rfl⟩⟩

theorem Commit.proceeds {c c' : Commit} (due : (Task.commit c : Task m).Due n round)
    (hparties : w.pool.parties = n) (h : evaluate round (c, w) = .ok status (c', w')) :
    status = .before (2 * exchanges n) round
      ∧ (status = .more → Task.Proceeds n round (.commit c : Task m) (.commit c')) := by
  have hpositive : 0 < exchanges n := Nat.succ_pos _
  have hnext : status = .before (2 * exchanges n) round
      ∧ (status = .more → c'.Due (exchanges n) (round + 1)) := by
    obtain ⟨rfl, value, rfl⟩ | due := due.commit c rfl
    · obtain ⟨box, hnew⟩ := Commit.evaluate_new value 0 w
      obtain ⟨⟩ := hnew.symm.trans h
      exact ⟨(Status.before_of_lt (by omega)).symm, fun _ => Commit.due_begun _ _ hpositive⟩
    · obtain ⟨rfl, hdue⟩ := due.step (congrArg exchanges hparties) h
      exact ⟨rfl, fun hmore => hdue (Status.before_eq_more.mp hmore)⟩
  refine ⟨hnext.1, fun hmore => ⟨⟨?_, nofun, nofun⟩, rfl, fun _ _ => rfl, fun j => ?_⟩⟩
  · rintro _ ⟨⟩
    exact .inr (hnext.2 hmore)
  · exact (hnext.2 hmore).appetite j

theorem CoinToss.proceeds {t t' : CoinToss} (due : (Task.coinToss t : Task m).Due n round)
    (hparties : w.pool.parties = n) (h : evaluate round (t, w) = .ok status (t', w')) :
    status = .before (2 * exchanges n) round
      ∧ (status = .more → Task.Proceeds n round (.coinToss t : Task m) (.coinToss t')) := by
  have hpositive : 0 < exchanges n := Nat.succ_pos _
  have hnext : status = .before (2 * exchanges n) round
      ∧ (status = .more → t'.Due (exchanges n) (round + 1)) := by
    obtain ⟨rfl, rfl⟩ | due := due.coinToss t rfl
    · obtain ⟨box, hnew⟩ := CoinToss.evaluate_new 0 w
      obtain ⟨⟩ := hnew.symm.trans h
      exact ⟨(Status.before_of_lt (by omega)).symm,
        fun _ => ⟨_, rfl, Commit.due_begun _ _ hpositive⟩⟩
    · obtain ⟨rfl, hdue⟩ := due.step (congrArg exchanges hparties) h
      exact ⟨rfl, fun hmore => hdue (Status.before_eq_more.mp hmore)⟩
  refine ⟨hnext.1, fun hmore => ⟨⟨nofun, ?_, nofun⟩, rfl, fun _ _ => rfl, fun j => ?_⟩⟩
  · rintro _ ⟨⟩
    exact .inr (hnext.2 hmore)
  · exact (hnext.2 hmore).appetite j

theorem MacCheck.proceeds {p p' : MacCheck m} (due : (Task.gate (.macCheck p)).Due n round)
    (hparties : w.pool.parties = n) (h : evaluate round (p, w) = .ok status (p', w')) :
    status = (Task.gate (.macCheck p)).answer n round w.pool.opened
      ∧ (status = .more → Task.Proceeds n round (.gate (.macCheck p)) (.gate (.macCheck p'))) := by
  have hpositive : 0 < exchanges n := Nat.succ_pos _
  have hnext : status = (Task.gate (.macCheck p)).answer n round w.pool.opened
      ∧ (status = .more → p'.Due (exchanges n) (round + 1)) := by
    obtain ⟨rfl, rfl⟩ | due := due.check p rfl
    · obtain ⟨-, hstatus⟩ := MacCheck.evaluate_start h
      by_cases hempty : w.pool.opened.shares = []
      · rw [if_pos hempty] at hstatus
        rw [hstatus, Task.answer, if_pos ⟨rfl, hempty⟩]
        exact ⟨rfl, nofun⟩
      · rw [if_neg hempty] at hstatus
        obtain ⟨rfl, rfl⟩ := hstatus
        rw [Task.answer, if_neg (fun hnew => hempty hnew.2)]
        exact ⟨(Status.before_of_lt (show 0 < 4 * exchanges n by omega)).symm,
          fun _ => MacCheck.due_begun _ _ _ hpositive⟩
    · obtain ⟨rfl, hdue, -⟩ := due.step (congrArg exchanges hparties) h
      rw [Task.answer_of_ne _ ?_]
      · exact ⟨rfl, fun hmore => hdue (Status.before_eq_more.mp hmore)⟩
      · rintro ⟨⟩
        obtain ⟨_, _, _, ⟨⟩, -⟩ | ⟨_, ⟨⟩, -⟩ := due
  refine ⟨hnext.1, fun hmore => ⟨⟨nofun, nofun, ?_⟩, rfl, fun _ _ => rfl, fun j => ?_⟩⟩
  · rintro _ ⟨⟩
    exact .inr (hnext.2 hmore)
  · exact (hnext.2 hmore).appetite j

/-- After the first round of an input its owner's message is taken, later a digest of everybody. -/
theorem Input.appetite_succ (p : Input m) (round j : Nat) :
    p.appetite (round + 1) j = (Task.gate (.input p)).copies (j + 1) round := by
  cases round with
  | zero =>
    show onlyOf p.owner j = if 0 = 0 ∧ j + 1 ≠ p.owner then 0 else 1
    by_cases howner : j + 1 = p.owner <;> simp [onlyOf, howner]
  | succ round =>
    show 1 = if round + 1 = 0 ∧ j + 1 ≠ p.owner then 0 else 1
    rw [if_neg (fun h => Nat.succ_ne_zero _ h.1)]

theorem MultiplyBatch.appetite_succ {p p' : MultiplyBatch m}
    (h : evaluate round (p, w) = .ok .more (p', w')) (j : Nat) :
    p'.openings = p.openings ∧ p'.appetite (round + 1) j = 1 := by
  obtain ⟨_, ⟨hopenings, -⟩, -⟩ := MultiplyBatch.posts round p w _ _ h
  have hstatus := MultiplyBatch.status_eq h
  refine ⟨hopenings, ?_⟩
  have hpairs : ¬ p'.pairs.isEmpty = true := by
    intro hempty
    have hzero : p.openings = 0 := by
      rw [← hopenings]
      simpa [openings, List.isEmpty_iff] using hempty
    rw [if_pos hzero, Status.before_of_le (Nat.zero_le round)] at hstatus
    cases hstatus
  rw [MultiplyBatch.appetite, if_neg hpairs]
  rfl

theorem Input.proceeds {p p' : Input m} (h : evaluate round (p, w) = .ok .more (p', w')) :
    Task.Proceeds n round (.gate (.input p)) (.gate (.input p')) := by
  obtain ⟨_, ⟨howner, -⟩, -⟩ := Input.posts round p w _ _ h
  have howner : p'.owner = p.owner := howner rfl
  have hcopies (party later : Nat) : (Task.gate (.input p')).copies party later
      = (Task.gate (.input p)).copies party later := by
    simp only [Task.copies, howner]
  refine ⟨Task.due_gate rfl _, rfl, hcopies, fun j => ?_⟩
  rw [← hcopies]
  exact Input.appetite_succ p' round j

theorem MultiplyBatch.proceeds {p p' : MultiplyBatch m}
    (h : evaluate round (p, w) = .ok .more (p', w')) :
    Task.Proceeds n round (.gate (.multiplyBatch p)) (.gate (.multiplyBatch p'))
      ∧ Task.Proceeds n round (.gate (.multiply ⟨p⟩)) (.gate (.multiply ⟨p'⟩)) := by
  have hnext := appetite_succ h
  have hlast : (if p'.openings = 0 then 0 else 1) = if p.openings = 0 then 0 else 1 := by
    rw [(hnext 0).1]
  exact ⟨⟨Task.due_gate rfl _, hlast, fun _ _ => rfl, fun j => (hnext j).2⟩,
    ⟨Task.due_gate rfl _, hlast, fun _ _ => rfl, fun j => (hnext j).2⟩⟩

theorem Multiply.proceeds {p p' : Multiply m} (h : evaluate round (p, w) = .ok .more (p', w')) :
    Task.Proceeds n round (.gate (.multiply p)) (.gate (.multiply p')) :=
  (MultiplyBatch.proceeds (Multiply.evaluate_eq_ok.mp h)).2

/-- A gate other than a check that goes on. -/
theorem Gate.proceeds_unchecked {g g' : Gate m} (hcheck : g.isCheck = false)
    (h : evaluate round (g, w) = .ok .more (g', w')) :
    Task.Proceeds n round (.gate g) (.gate g') := by
  cases branch h with
  | input act => exact Input.proceeds act
  | linear act => cases (Linear.evaluate_eq_ok act).1
  | multiply act => exact Multiply.proceeds act
  | multiplyBatch act => exact (MultiplyBatch.proceeds act).1
  | reveal act => exact ⟨Task.due_gate rfl _, rfl, fun _ _ => rfl, fun _ => rfl⟩
  | macCheck => cases hcheck

theorem Gate.proceeds {g g' : Gate m} (due : (Task.gate g).Due n round)
    (hparties : w.pool.parties = n) (h : evaluate round (g, w) = .ok status (g', w')) :
    status = (Task.gate g).answer n round w.pool.opened
      ∧ (status = .more → Task.Proceeds n round (.gate g) (.gate g')) := by
  cases hcheck : g.isCheck with
  | true =>
    cases g with
    | macCheck p =>
      obtain ⟨p', rfl, hround⟩ := evaluate_macCheck_eq_ok.mp h
      exact MacCheck.proceeds due hparties hround
    | _ => cases hcheck
  | false =>
    obtain ⟨hstatus, -⟩ := status_eq h hcheck hparties
    rw [Task.answer_of_ne _ (by rintro ⟨⟩; cases hcheck)]
    refine ⟨hstatus, ?_⟩
    rintro rfl
    exact Gate.proceeds_unchecked hcheck h

/-- Whatever has arrived, a round that succeeds answers by the clock. -/
theorem Task.proceeds {t t' : Task m} (due : t.Due n round) (hparties : w.pool.parties = n)
    (h : evaluate round (t, w) = .ok status (t', w')) :
    status = t.answer n round w.pool.opened ∧ (status = .more → Proceeds n round t t') := by
  cases branch h with
  | gate act => exact Gate.proceeds due hparties act
  | @broadcast p _ act =>
    rw [answer_of_ne (.broadcast p) nofun]
    exact Broadcast.proceeds hparties act
  | @commit p _ act =>
    rw [answer_of_ne (.commit p) nofun]
    exact Commit.proceeds due hparties act
  | @coinToss p _ act =>
    rw [answer_of_ne (.coinToss p) nofun]
    exact CoinToss.proceeds due hparties act

/-! ## §4 Counterparts -/

/-- The same gate at two parties: of one kind, with operands of their own. -/
inductive Gate.SameKind : Gate m → Gate m → Prop
  | input (owner : Nat) (value value' : Option (Element m)) :
      SameKind (.input (.new owner value)) (.input (.new owner value'))
  | linear (op op' : LinearOp m) : SameKind (.linear { op }) (.linear { op := op' })
  | multiply (x y x' y' : AuthShare m) : SameKind (.multiply (.new x y)) (.multiply (.new x' y'))
  | multiplyBatch (pairs pairs' : List (AuthShare m × AuthShare m))
      (h : pairs'.length = pairs.length) : SameKind (.multiplyBatch { pairs })
        (.multiplyBatch { pairs := pairs' })
  | reveal (share share' : AuthShare m) : SameKind (.reveal { share }) (.reveal { share := share' })
  | macCheck : SameKind (.macCheck {}) (.macCheck {})

namespace Task

/-- The same protocol as two parties set it up. -/
inductive SameKind : Task m → Task m → Prop
  | gate {g g' : Gate m} (h : g.SameKind g') : SameKind (.gate g) (.gate g')
  | broadcast (message message' : Bytes) : SameKind (.broadcast (.new message))
      (.broadcast (.new message'))
  | commit (value value' : Bytes) : SameKind (.commit (.new value)) (.commit (.new value'))
  | coinToss : SameKind (.coinToss {}) (.coinToss {})

namespace SameKind

variable {start start' : Task m}

theorem symm (h : start.SameKind start') : start'.SameKind start := by
  cases h with
  | gate h =>
    cases h with
    | input owner value value' => exact .gate (.input owner value' value)
    | linear op op' => exact .gate (.linear op' op)
    | multiply x y x' y' => exact .gate (.multiply x' y' x y)
    | multiplyBatch pairs pairs' h => exact .gate (.multiplyBatch pairs' pairs h.symm)
    | reveal share share' => exact .gate (.reveal share' share)
    | macCheck => exact .gate .macCheck
  | broadcast message message' => exact .broadcast message' message
  | commit value value' => exact .commit value' value
  | coinToss => exact .coinToss

theorem fresh (h : start.SameKind start') : start.Fresh := by
  cases h with
  | gate h =>
    cases h with
    | input owner value => exact .gate (.input owner value)
    | linear op => exact .gate (.linear op)
    | multiply x y => exact .gate (.multiply x y)
    | multiplyBatch pairs => exact .gate (.multiplyBatch pairs)
    | reveal share => exact .gate (.reveal share)
    | macCheck => exact .gate .macCheck
  | broadcast message => exact .broadcast message
  | commit value => exact .commit value
  | coinToss => exact .coinToss

/-- They take as many rounds, queue as many messages, and are checks together. -/
theorem same (h : start.SameKind start') (n : Nat) : start'.last n = start.last n
    ∧ (∀ party round, start'.copies party round = start.copies party round)
    ∧ (start = .gate (.macCheck {}) → start' = .gate (.macCheck {})) := by
  cases h with
  | gate h =>
    cases h with
    | multiplyBatch pairs pairs' h =>
      refine ⟨?_, fun _ _ => rfl, nofun⟩
      show (if 2 * pairs'.length = 0 then 0 else 1) = _
      rw [h]
      rfl
    | macCheck => exact ⟨rfl, fun _ _ => rfl, fun _ => rfl⟩
    | _ => exact ⟨rfl, fun _ _ => rfl, nofun⟩
  | _ => exact ⟨rfl, fun _ _ => rfl, nofun⟩

end SameKind

/-- What is left of a protocol after rounds that went on is due, and of the same kind. -/
theorem Unfinished.due {start t : Task m} {failed : Bool} (fresh : start.Fresh)
    (h : Unfinished n start failed round t) (hgood : failed = false) :
    t.Due n round ∧ t.last n = start.last n
      ∧ ∀ party later, t.copies party later = start.copies party later := by
  induction h with
  | start => exact ⟨fresh.due, rfl, fun _ _ => rfl⟩
  | more before seat h ih =>
    obtain ⟨due, hlast, hcopies⟩ := ih hgood
    obtain ⟨-, hnext⟩ := Task.proceeds due seat.parties h
    have next := hnext rfl
    exact ⟨next.due, next.last.trans hlast,
      fun party later => (next.copies party later).trans (hcopies party later)⟩
  | failed => cases hgood

/-- A check that has not begun is in its first round. -/
theorem Due.eq_zero (due : (Task.gate (.macCheck {}) : Task m).Due n round) : round = 0 := by
  obtain ⟨hzero, -⟩ | ⟨_, _, _, ⟨⟩, -⟩ | ⟨_, ⟨⟩, -⟩ := due.check {} rfl
  exact hzero

theorem Unfinished.eq_start {start t : Task m} {failed : Bool}
    (h : Unfinished n start failed 0 t) : t = start := by
  cases h
  rfl

end Task

namespace Played

/-- A round of the protocol set up as `start`, at one of `n` parties. The rounds before it went on;
before every round the mailbox may hold anything. -/
structure RoundOf (n : Nat) (start : Task m) (r : Played m) : Prop where
  unfinished : Task.Unfinished n start false r.number r.before.1
  seat : r.before.2.OneOf n
  genuine : r.Genuine n

/-- The next round of the protocol, whatever has arrived meanwhile. -/
structure Follows (n : Nat) (r next : Played m) : Prop where
  number : next.number = r.number + 1
  before : next.before.1 = r.after.1
  genuine : next.Genuine n

/-- The rounds of two parties that run a protocol in step. When they start a check, as much has
been opened at both. -/
structure Counterparts (n : Nat) (r r' : Played m) : Prop where
  number : r'.number = r.number
  kinds : ∃ start start', Task.SameKind start start' ∧ r.RoundOf n start ∧ r'.RoundOf n start'
  stores : r.number = 0 → r.before.1 = .gate (.macCheck {}) →
    r'.before.2.pool.opened.shares.length = r.before.2.pool.opened.shares.length

/-- A new protocol takes nothing in its first round, even if it fails. -/
theorem taken_of_fresh {r : Played m} (genuine : r.Genuine n) (fresh : r.before.1.Fresh)
    (hround : r.number = 0) (j : Nat) : r.taken j = [] := by
  have happetite : r.before.1.appetite r.number = 0 := by rw [hround, fresh.appetite]
  obtain htaken | ⟨_, -, _, -, hlacking, -⟩ := genuine.length_taken_or_lacking
  · rcases Nat.lt_or_ge j n with hj | hj
    · have hlength := htaken j hj
      rw [happetite] at hlength
      exact List.eq_nil_of_length_eq_zero hlength
    · have hnone : r.before.2.mailbox.queue j = [] := by
        rw [Mailbox.queue, List.getD_eq_getElem?_getD,
          List.getElem?_eq_none (genuine.shaped.incoming ▸ hj), Option.getD_none]
      rw [taken, hnone, List.take_nil]
  · rw [happetite] at hlacking
    exact absurd hlacking (Nat.not_lt_zero _)

namespace Counterparts

variable {r r' later : Played m} {status status' : Status}

/-- The kinds of the protocols agree, and whether they are checks yet to begin. -/
theorem same (h : Counterparts n r r') : r.before.1.Due n r.number ∧ r'.before.1.Due n r.number
    ∧ r'.before.1.last n = r.before.1.last n
    ∧ (∀ party round, r'.before.1.copies party round = r.before.1.copies party round)
    ∧ (r.before.1 = .gate (.macCheck {}) ↔ r'.before.1 = .gate (.macCheck {})) := by
  obtain ⟨start, start', kinds, hr, hr'⟩ := h.kinds
  obtain ⟨due, hlast, hcopies⟩ := hr.unfinished.due kinds.fresh rfl
  obtain ⟨due', hlast', hcopies'⟩ := hr'.unfinished.due kinds.symm.fresh rfl
  obtain ⟨hlast₀, hcopies₀, hcheck₀⟩ := kinds.same n
  rw [h.number] at due'
  -- A check that has not begun is as it was set up.
  have hnew {s s' : Played m} {t t' : Task m} (hs : s.RoundOf n t) (hs' : s'.RoundOf n t')
      (hkind : t.SameKind t') (hnumber : s'.number = s.number) (hdue : s.before.1.Due n s.number)
      (hbefore : s.before.1 = .gate (.macCheck {})) : s'.before.1 = .gate (.macCheck {}) := by
    have hzero : s.number = 0 := Task.Due.eq_zero (hbefore ▸ hdue)
    have hstart : s.before.1 = t := Task.Unfinished.eq_start (hzero ▸ hs.unfinished)
    have hstart' : s'.before.1 = t' :=
      Task.Unfinished.eq_start ((hnumber.trans hzero) ▸ hs'.unfinished)
    rw [hstart', (hkind.same n).2.2 (hstart.symm.trans hbefore)]
  refine ⟨due, due', hlast'.trans (hlast₀.trans hlast.symm), fun party round => ?_, ?_⟩
  · rw [hcopies', hcopies₀, hcopies]
  · exact ⟨hnew hr hr' kinds h.number due,
      hnew hr' hr kinds.symm h.number.symm (h.number.symm ▸ due')⟩

/-- Both go on, or both are done. -/
theorem status_eq (h : Counterparts n r r') (hr : r.Answers status) (hr' : r'.Answers status') :
    status' = status := by
  obtain ⟨due, due', hlast, -, hnew⟩ := h.same
  obtain ⟨start, start', -, hround, hround'⟩ := h.kinds
  obtain ⟨rfl, -⟩ := Task.proceeds due hround.seat.parties hr
  rw [Answers, h.number] at hr'
  obtain ⟨rfl, -⟩ := Task.proceeds due' hround'.seat.parties hr'
  have hidle : (r'.before.1 = .gate (.macCheck {}) ∧ r'.before.2.pool.opened.shares = [])
      ↔ (r.before.1 = .gate (.macCheck {}) ∧ r.before.2.pool.opened.shares = []) := by
    rw [← hnew]
    refine and_congr_right fun hcheck => ?_
    have hzero : r.number = 0 := Task.Due.eq_zero (hcheck ▸ due)
    rw [← List.length_eq_zero_iff, ← List.length_eq_zero_iff, h.stores hzero hcheck]
  simp only [Task.answer, hidle, hlast]

/-- What a round of party `i + 1` queues for any party is as much as its counterpart wants of it in
the next round. -/
theorem appetite_eq (h : Counterparts n r r') (hr : r.Answers .more) (hr' : r'.Answers .more)
    (follows : r'.Follows n later) {i j : Nat} (hi : r.before.2.pool.party = i + 1) (hj : j < n) :
    later.before.1.appetite later.number i = (r.sent j).length := by
  obtain ⟨-, due', -, hcopies, -⟩ := h.same
  obtain ⟨start, start', -, hround, hround'⟩ := h.kinds
  have hlength := hr.length_sent (hround.genuine.shaped.outgoing.symm ▸ hj)
  rw [Answers, h.number] at hr'
  have next := (Task.proceeds due' hround'.seat.parties hr').2 rfl
  calc later.before.1.appetite later.number i
      = r'.after.1.appetite (r.number + 1) i := by rw [follows.before, follows.number, h.number]
    _ = r.before.1.copies (i + 1) r.number := by rw [next.appetite i, hcopies]
    _ = (r.sent j).length := by rw [hlength, hi]; rfl

/-- What one party queues for the other one in a round is as much as that one takes from its queue
in the next round, or fails to take because a message of some party is missing. -/
theorem length_taken (h : Counterparts n r r') (hr : r.Answers .more) (hr' : r'.Answers .more)
    (follows : r'.Follows n later) {i j : Nat} (hi : r.before.2.pool.party = i + 1) (hin : i < n)
    (hj : j < n) :
    (later.taken i).length = (r.sent j).length
      ∨ ∃ party, Task.evaluate later.number later.before
        = .error (.protocol (.noMessage party)) later.after := by
  obtain htaken | ⟨_, herror, party, -, -, rfl⟩ := follows.genuine.length_taken_or_lacking
  · exact .inl ((htaken i hin).trans (h.appetite_eq hr hr' follows hi hj))
  · exact .inr ⟨party + 1, herror⟩

end Counterparts

end Played

end JointCircuit
