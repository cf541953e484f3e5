/-
JointCircuit.Proofs.Postage — what the messages of a round weigh.

A round queues the same messages for every party. How many they are and
how long follows from the kind of its protocol and the number of the
round: whatever the messages of the peers say, a round that goes on has
queued what its postage says, and one that ends has queued nothing
(`Round.Posts`, §1). A broadcast sends its message and then a digest
(§2); a commitment is a digest and then a value with its randomness, so
toss and check cost the same wherever they run (§3).

Main statement: `Gate.posts` (§4).
-/
import JointCircuit.Proofs.Appetite

namespace JointCircuit

open JointCircuit.Action Round

variable {m : Modulus} {n : Nat} {π ρ α β : Type}

/-! ## §1 Queued messages -/

/-- The lengths of the messages in each frame. -/
def lengthsOf (frames : List Frame) : List (List Nat) :=
  frames.map (·.map List.length)

/-- The lengths of the messages queued, by party. -/
def Mailbox.letters (box : Mailbox) : List (List Nat) :=
  lengthsOf box.outgoing

/-- Messages of these lengths have been queued for every party. -/
def Mailbox.Queued (lengths : List Nat) (box box' : Mailbox) : Prop :=
  box'.letters = box.letters.map (· ++ lengths)

namespace Mailbox

theorem queued_nil {box box' : Mailbox} (h : box'.outgoing = box.outgoing) :
    Queued [] box box' := by
  simp [Queued, letters, h]

theorem Queued.trans {first second : List Nat} {box box' box'' : Mailbox}
    (h : Queued first box box') (h' : Queued second box' box'') :
    Queued (first ++ second) box box'' := by
  rw [Queued, h', h, List.map_map]
  exact List.map_congr_left fun lengths _ => List.append_assoc ..

theorem queued_sendToAll (message : Bytes) (box : Mailbox) :
    Queued [message.length] box { box with outgoing := box.outgoing.map (· ++ [message]) } := by
  simp [Queued, letters, lengthsOf, Function.comp_def]

end Mailbox

/-- Whose pool it is and what has left the mailbox does not change in a round. -/
structure Stays (w w' : Participant m) : Prop where
  party : w'.pool.party = w.pool.party
  bytesSent : w'.mailbox.bytesSent = w.mailbox.bytesSent

namespace Stays

instance : Std.Refl (Stays : Participant m → _ → Prop) :=
  ⟨fun _ => ⟨rfl, rfl⟩⟩

instance : IsTrans (Participant m) Stays :=
  ⟨fun _ _ _ h h' => ⟨h'.party.trans h.party, h'.bytesSent.trans h.bytesSent⟩⟩

instance : Manners (Stays : Participant m → _ → Prop) where
  nextMask owner w := ⟨by rw [Pool.nextMask, endState_within], rfl⟩
  nextTriples count w := ⟨by rw [Pool.nextTriples, endState_within], rfl⟩
  drawLocal draw w := ⟨rfl, rfl⟩
  installJointSeed seed w := ⟨rfl, rfl⟩
  drawJoint draw w := by
    refine ⟨?_, rfl⟩
    simp only [Pool.drawJoint, Action.bind_apply, Action.get_apply]
    cases w.pool.jointGenerator <;> rfl
  pushOpened shares values w := ⟨by rw [Pool.pushOpened, endState_within], rfl⟩
  drainOpened w := ⟨rfl, rfl⟩
  sendToAll message w := ⟨rfl, rfl⟩
  receive party w := by
    refine ⟨rfl, ?_⟩
    rcases Mailbox.receive_cases party w.mailbox with
      ⟨fault, herror, -⟩ | ⟨message, rest, -, -, hok⟩
    · rw [herror]
      rfl
    · rw [hok]
      rfl

end Stays

/-- What a round queues when it goes on; one that ends queues nothing. -/
def Status.letters (lengths : List Nat) : Status → List Nat
  | .more => lengths
  | .done => []

namespace Round

/-- From this state, the step succeeds only without queueing anything. -/
def Silent (s : π × Participant m) (act : Round m π α) : Prop :=
  ∀ a s', act s = .ok a s' → s'.2.mailbox.outgoing = s.2.mailbox.outgoing

/-- From this state, the step succeeds only with a result, a state of its protocol and messages for
everybody, of such lengths, as `Q` says. -/
def Posts (s : π × Participant m) (Q : α → π → List Nat → Prop) (act : Round m π α) : Prop :=
  ∀ a s', act s = .ok a s' →
    ∃ lengths, Q a s'.1 lengths ∧ Mailbox.Queued lengths s.2.mailbox s'.2.mailbox

namespace Silent

variable {s : π × Participant m}

theorem pure (a : α) : Silent s (Pure.pure a : Round m π α) := by
  rintro _ _ ⟨⟩
  rfl

theorem throw (fault : Fault) : Silent s (MonadExcept.throw fault : Round m π α) := nofun

theorem ofExcept {ε : Type} (fault : ε → Fault) (x : Except ε α) :
    Silent s (Action.ofExcept fault x : Round m π α) := by
  intro _ _ h
  obtain ⟨-, rfl⟩ := ofExcept_eq_ok.mp h
  rfl

theorem protocol : Silent s (Round.protocol : Round m π π) := by
  rintro _ _ ⟨⟩
  rfl

theorem update (f : π → π) : Silent s (Round.update f : Round m π Unit) := by
  rintro _ _ ⟨⟩
  rfl

theorem pool (act : Action (Pool m) α) : Silent s (Round.pool act : Round m π α) := by
  intro _ _ h
  obtain ⟨_, -, rfl⟩ := pool_eq_ok.mp h
  rfl

theorem bind {x : Round m π α} {f : α → Round m π β} (hx : Silent s x)
    (hf : ∀ a s', x s = .ok a s' → Silent s' (f a)) : Silent s (x >>= f) := by
  intro b u h
  obtain ⟨a, t, hfirst, hrest⟩ := bind_eq_ok.mp h
  exact (hf a t hfirst b u hrest).trans (hx a t hfirst)

theorem receive (party : Nat) :
    Silent s (Round.mailbox (Mailbox.receive party) : Round m π Bytes) := by
  intro _ _ h
  obtain ⟨box, hbox, rfl⟩ := mailbox_eq_ok.mp h
  exact (Mailbox.taken_receive hbox).1

theorem receiveFromAll :
    Silent s (Round.mailbox Mailbox.receiveFromAll : Round m π (List Bytes)) := by
  intro _ _ h
  obtain ⟨box, hbox, rfl⟩ := mailbox_eq_ok.mp h
  obtain ⟨_, _, hget, hbox⟩ := bind_eq_ok.mp hbox
  cases hget
  exact (Mailbox.taken_receiveFrom hbox).1

theorem compareDigests (digest : Bytes) :
    Silent s (Round.compareDigests digest : Round m π Unit) := by
  refine receiveFromAll.bind fun digests _ _ => ?_
  split
  · exact pure _
  · exact throw _

end Silent

namespace Posts

variable {s : π × Participant m} {Q : α → π → List Nat → Prop} {R : β → π → List Nat → Prop}

theorem mono {Q' : α → π → List Nat → Prop} {act : Round m π α} (h : Posts s Q act)
    (hQ : ∀ a p lengths, Q a p lengths → Q' a p lengths) : Posts s Q' act := by
  intro a s' hok
  obtain ⟨lengths, hq, hqueued⟩ := h a s' hok
  exact ⟨lengths, hQ _ _ _ hq, hqueued⟩

theorem pure {a : α} (h : Q a s.1 []) : Posts s Q (Pure.pure a : Round m π α) := by
  rintro _ _ ⟨⟩
  exact ⟨[], h, Mailbox.queued_nil rfl⟩

theorem throw (fault : Fault) : Posts s Q (MonadExcept.throw fault : Round m π α) := nofun

theorem throw_bind (fault : Fault) (f : α → Round m π β) :
    Posts s R ((MonadExcept.throw fault : Round m π α) >>= f) := by
  intro _ _ h
  obtain ⟨_, _, hthrow, -⟩ := bind_eq_ok.mp h
  cases hthrow

/-- Part by part. -/
theorem bind {x : Round m π α} {f : α → Round m π β} (hx : Posts s Q x)
    (hf : ∀ a s' lengths, x s = .ok a s' → Q a s'.1 lengths →
      Posts s' (fun b p more => R b p (lengths ++ more)) (f a)) : Posts s R (x >>= f) := by
  intro b u h
  obtain ⟨a, t, hfirst, hrest⟩ := bind_eq_ok.mp h
  obtain ⟨lengths, hq, hqueued⟩ := hx a t hfirst
  obtain ⟨more, hr, hqueued'⟩ := hf a t lengths hfirst hq b u hrest
  exact ⟨lengths ++ more, hr, hqueued.trans hqueued'⟩

/-- A step that queues nothing, and then another one. -/
theorem after {x : Round m π α} {f : α → Round m π β} (hx : Silent s x)
    (hf : ∀ a s', x s = .ok a s' → Posts s' R (f a)) : Posts s R (x >>= f) := by
  intro b u h
  obtain ⟨a, t, hfirst, hrest⟩ := bind_eq_ok.mp h
  obtain ⟨lengths, hr, hqueued⟩ := hf a t hfirst b u hrest
  exact ⟨lengths, hr, (Mailbox.queued_nil (hx a t hfirst)).trans hqueued⟩

/-- A message for everybody. -/
theorem sendToAll (message : Bytes) :
    Posts s (fun _ p lengths => p = s.1 ∧ lengths = [message.length])
      (Round.mailbox (Mailbox.sendToAll message) : Round m π Unit) := by
  intro _ _ h
  obtain ⟨box, hbox, rfl⟩ := mailbox_eq_ok.mp h
  cases hbox
  exact ⟨_, ⟨rfl, rfl⟩, Mailbox.queued_sendToAll message s.2.mailbox⟩

theorem sendDigest (messages : List Bytes) :
    Posts s (fun _ p lengths => p = s.1 ∧ lengths = [digestLength])
      (Round.sendDigest messages : Round m π Bytes) := by
  refine (sendToAll _).bind fun _ s' lengths _ h => pure ?_
  rw [List.append_nil, h.2, Digest.length_ofMessages]
  exact ⟨h.1, rfl⟩

/-- A part of a protocol. -/
theorem within {inner : ρ} {put : ρ → π → π} {Q : α → ρ → List Nat → Prop} {act : Round m ρ α}
    (h : Posts (inner, s.2) Q act) :
    Posts s (fun a p lengths => ∃ t, Q a t lengths ∧ p = put t s.1)
      (Round.within inner put act) := by
  intro a s' hok
  obtain ⟨t, w', hact, rfl⟩ := within_eq_ok.mp hok
  obtain ⟨lengths, hq, hqueued⟩ := h a (t, w') hact
  exact ⟨lengths, ⟨t, hq, rfl⟩, hqueued⟩

/-- A part of a protocol that answers with what is left of it. -/
theorem within_protocol {inner : ρ} {put : ρ → π → π} {Q : α → ρ → List Nat → Prop}
    {act : Round m ρ α} (h : Posts (inner, s.2) Q act) :
    Posts s (fun r p lengths => Q r.1 r.2 lengths ∧ p = put r.2 s.1)
      (Round.within inner put (do return (← act, ← Round.protocol))) := by
  rintro ⟨a, t⟩ ⟨p', w'⟩ hok
  obtain ⟨hact, rfl⟩ := within_protocol_eq_ok hok
  obtain ⟨lengths, hq, hqueued⟩ := h a (t, w') hact
  exact ⟨lengths, ⟨hq, rfl⟩, hqueued⟩

end Posts

end Round

/-! ## §2 Broadcasts -/

/-- The message goes out in the first round, a digest later. -/
theorem Broadcast.posts (round : Nat) (b : Broadcast) (w : Participant m) :
    Posts (b, w) (fun status _ lengths => lengths
        = status.letters [if round = 0 then (b.message.getD []).length else digestLength])
      (evaluate round) := by
  match round with
  | 0 =>
    refine Posts.after .protocol ?_
    rintro _ _ ⟨⟩
    refine Posts.after (.update _) fun _ _ _ => (Posts.sendToAll _).bind ?_
    rintro _ _ _ - ⟨-, rfl⟩
    exact Posts.pure rfl
  | 1 =>
    refine Posts.after .receiveFromAll fun received _ _ => Posts.after (.pool _) fun pool _ _ => ?_
    by_cases hneeds : needsValidation pool.parties = true
    · rw [if_pos hneeds]
      refine (Posts.sendDigest _).bind ?_
      rintro _ _ _ - ⟨-, rfl⟩
      exact Posts.after (.update _) fun _ _ _ => Posts.pure rfl
    · rw [if_neg hneeds]
      exact Posts.after (.update _) fun _ _ _ => Posts.pure rfl
  | round + 2 =>
    exact Posts.after .protocol fun _ _ _ => Posts.after (.compareDigests _) fun _ _ _ =>
      Posts.pure rfl

/-! ## §3 Commitments, tosses and checks -/

namespace Commit

/-- What a round of a commitment to `length` bytes queues when its broadcasts take `wait` exchanges
each: digests, but the opening in the round in which the commitments are complete. -/
def postage (wait length round : Nat) : List Nat :=
  [if round = wait then length + randomnessLength else digestLength]

/-- A commitment to `length` bytes. -/
structure Measured (length : Nat) (c : Commit) : Prop where
  value : c.phase = .start → c.value.length = length
  opening : ∀ b, c.phase = .commitments b → c.opening.length = length + randomnessLength

variable {round wait length elapsed : Nat} {b : Broadcast} {c : Commit} {w : Participant m}

/-- The opening goes out with the last commitments. -/
theorem posts_evaluateCommitments
    (hstatus : Status.before (exchanges w.pool.parties) elapsed = .before wait elapsed)
    (hle : elapsed ≤ wait) (hopening : c.opening.length = length + randomnessLength)
    (hmessage : elapsed = 0 → (b.message.getD []).length = digestLength) :
    Posts (c, w) (fun status c' lengths => status = .more ∧ c'.Measured length
        ∧ lengths = postage wait length elapsed)
      (evaluateCommitments round elapsed b) := by
  have hletter : (if elapsed = 0 then (b.message.getD []).length else digestLength)
      = digestLength := by
    split
    · rename_i hzero
      exact hmessage hzero
    · rfl
  refine (Posts.within_protocol (Broadcast.posts elapsed b w)).bind ?_
  rintro ⟨status, b'⟩ ⟨_, w'⟩ lengths hok ⟨rfl, rfl⟩
  rw [hletter]
  obtain ⟨hbroadcast, -⟩ := within_protocol_eq_ok hok
  have hanswer := Broadcast.status_eq hbroadcast
  rw [hstatus] at hanswer
  cases status with
  | more =>
    have hlt : elapsed ≠ wait := Nat.ne_of_lt (Status.before_eq_more.mp hanswer.symm)
    refine Posts.pure ⟨rfl, ⟨nofun, ?_⟩, ?_⟩
    · exact fun _ _ => hopening
    · rw [postage, if_neg hlt]
      rfl
  | done =>
    have hlast : elapsed = wait := Nat.le_antisymm hle (Status.before_eq_done.mp hanswer.symm)
    refine Posts.after ((Silent.update _).bind fun _ _ _ => .pure _) ?_
    rintro commitments ⟨c₁, w₁⟩ htake
    obtain ⟨_, _, hupdate, htake⟩ := Action.bind_eq_ok.mp htake
    cases hupdate
    cases htake
    dsimp only
    split
    · exact Posts.throw _
    · refine Posts.after .protocol ?_
      rintro _ _ ⟨⟩
      refine Posts.after (.update _) ?_
      rintro _ _ ⟨⟩
      refine (Posts.within (Broadcast.posts 0 _ _)).bind ?_
      rintro status ⟨_, w₂⟩ _ hok' ⟨b₁, rfl, rfl⟩
      have hanswer' : status = .more := by
        obtain ⟨b₂, w₃, hbroadcast', -⟩ := Round.within_eq_ok.mp hok'
        exact (Broadcast.status_eq hbroadcast').trans (Status.before_of_lt (Nat.succ_pos _))
      subst hanswer'
      refine Posts.pure ⟨rfl, ⟨nofun, nofun⟩, ?_⟩
      rw [postage, if_pos hlast]
      exact congrArg (fun k => [k]) hopening

/-- Openings are compared by digests. -/
theorem posts_evaluateOpenings (hpos : 0 < elapsed) :
    Posts (c, w) (fun status c' lengths => c'.Measured length
        ∧ lengths = status.letters [digestLength])
      (evaluateOpenings elapsed b) := by
  refine (Posts.within_protocol (Broadcast.posts elapsed b w)).bind ?_
  rintro ⟨status, b'⟩ ⟨_, w'⟩ lengths - ⟨rfl, rfl⟩
  rw [if_neg (Nat.ne_of_gt hpos)]
  cases status with
  | more => exact Posts.pure ⟨⟨nofun, nofun⟩, rfl⟩
  | done =>
    exact Posts.after ((Silent.update _).bind fun _ _ _ => .pure _) fun _ _ _ =>
      Posts.after .protocol fun _ _ _ => Posts.after (.ofExcept _ _) fun _ _ _ =>
      Posts.after (.update _) fun _ _ h => by
        cases h
        exact Posts.pure ⟨⟨nofun, nofun⟩, rfl⟩

/-- The first round of a commitment sends the digest. -/
theorem posts_new (value : Bytes) (w : Participant m) :
    Posts (new value, w) (fun status c' lengths => status = .more ∧ c'.Measured value.length
        ∧ lengths = [digestLength])
      (evaluate 0) := by
  refine Posts.after .protocol ?_
  rintro _ _ ⟨⟩
  have hstart : (new value).phase = .start := rfl
  rw [if_pos hstart]
  refine Posts.after ((Silent.pool _).bind fun _ _ _ => .update _) ?_
  rintro _ ⟨c', w'⟩ hbegin
  obtain ⟨randomness, _, hdraw, hupdate⟩ := bind_eq_ok.mp hbegin
  obtain ⟨pool, hbytes, rfl⟩ := pool_eq_ok.mp hdraw
  rw [Pool.drawLocal_apply] at hbytes
  obtain ⟨hrandomness, -⟩ := EStateM.Result.ok.inj hbytes
  cases hupdate
  refine Posts.after .protocol ?_
  rintro _ _ ⟨⟩
  have hstatus : Status.before (exchanges pool.parties) 0 = .before 1 0 :=
    Status.before_of_lt (Nat.succ_pos _)
  refine posts_evaluateCommitments hstatus (Nat.zero_le 1) ?_ fun _ => Digest.length_commitment _
  rw [List.length_append, ← hrandomness, length_bytes]
  rfl

/-- A commitment on the way queues what its postage says. -/
theorem posts (measured : c.Measured length) (due : c.Due wait round)
    (hwait : exchanges w.pool.parties = wait) :
    Posts (c, w) (fun status c' lengths => c'.Measured length
        ∧ lengths = status.letters (postage wait length round))
      (evaluate round) := by
  refine Posts.after .protocol ?_
  rintro _ _ ⟨⟩
  obtain ⟨b, hphase, hstart, hround, hle⟩ | ⟨b, hphase, hstart, hround, hle⟩ := due
  · rw [if_neg (by rw [hphase]; nofun)]
    refine Posts.after .protocol ?_
    rintro _ _ ⟨⟩
    simp only [hphase, hstart, roundsSince_of_le (Nat.zero_le round), Nat.sub_zero]
    refine (posts_evaluateCommitments (by rw [hwait]) hle (measured.opening b hphase)
      fun hzero => absurd hzero (Nat.ne_of_gt hround)).mono ?_
    rintro _ c' _ ⟨rfl, hmeasured, rfl⟩
    exact ⟨hmeasured, rfl⟩
  · rw [if_neg (by rw [hphase]; nofun)]
    refine Posts.after .protocol ?_
    rintro _ _ ⟨⟩
    simp only [hphase, hstart, roundsSince_of_le hround.le]
    rw [postage, if_neg (Nat.ne_of_gt hround)]
    exact posts_evaluateOpenings (by omega)

end Commit

namespace CoinToss

/-- The length of the seed that a party commits to. -/
def seedLength : Nat := 32

/-- A toss in which a seed is committed to. -/
def Measured (t : CoinToss) : Prop :=
  ∀ c, t.commit = some c → c.Measured seedLength

variable {round wait : Nat} {t : CoinToss} {w : Participant m}

/-- A new toss sends the digest of its seed. -/
theorem posts_new (w : Participant m) :
    Posts ({}, w) (fun status t' lengths => status = .more ∧ t'.Measured
        ∧ lengths = [digestLength])
      (evaluate 0 : Round m CoinToss Status) := by
  refine Posts.after ?_ ?_
  · exact Silent.protocol.bind fun _ _ h => by
      cases h
      exact (Silent.pool _).bind fun _ _ _ => (Silent.update _).bind fun _ _ _ => .pure _
  rintro c ⟨t', w'⟩ hdraw
  obtain ⟨_, _, hread, hdraw⟩ := bind_eq_ok.mp hdraw
  cases hread
  obtain ⟨seed, _, -, hdraw⟩ := bind_eq_ok.mp hdraw
  obtain ⟨_, _, -, hdraw⟩ := bind_eq_ok.mp hdraw
  cases hdraw
  refine (Posts.within_protocol (Commit.posts_new seed.toList _)).bind ?_
  rintro ⟨status, c'⟩ ⟨_, w''⟩ lengths - ⟨⟨rfl, hmeasured, rfl⟩, rfl⟩
  refine Posts.pure ⟨rfl, ?_, rfl⟩
  rintro _ ⟨⟩
  rwa [Vector.length_toList] at hmeasured

/-- A toss on the way queues what its commitment does. -/
theorem posts (measured : t.Measured) (due : t.Due wait round)
    (hwait : exchanges w.pool.parties = wait) :
    Posts (t, w) (fun status t' lengths => t'.Measured
        ∧ lengths = status.letters (Commit.postage wait seedLength round))
      (evaluate round) := by
  obtain ⟨c, hcommit, due⟩ := due
  have hcommitment : (commitment : Round m CoinToss Commit) (t, w) = .ok c (t, w) := by
    simp [commitment, hcommit]
  refine Posts.after (fun _ _ h => ?_) ?_
  · rw [hcommitment] at h
    cases h
    rfl
  intro c₁ s₁ h
  rw [hcommitment] at h
  cases h
  refine (Posts.within_protocol (Commit.posts (measured c hcommit) due hwait)).bind ?_
  rintro ⟨status, c'⟩ ⟨_, w'⟩ lengths - ⟨⟨hmeasured, rfl⟩, rfl⟩
  cases status with
  | more =>
    refine Posts.pure ⟨?_, List.append_nil _⟩
    rintro _ ⟨⟩
    exact hmeasured
  | done =>
    refine Posts.after (.update _) ?_
    rintro _ _ ⟨⟩
    refine Posts.after (.ofExcept _ _) fun _ _ h => ?_
    obtain ⟨-, rfl⟩ := ofExcept_eq_ok.mp h
    refine Posts.after (.update _) ?_
    rintro _ _ ⟨⟩
    refine Posts.pure ⟨?_, rfl⟩
    rintro _ ⟨⟩
    exact ⟨hmeasured.value, hmeasured.opening⟩

end CoinToss

namespace MacCheck

/-- What a round of a check queues: its toss, then the commitment to its term. -/
def postage (m : Modulus) (wait round : Nat) : List Nat :=
  if round < 2 * wait then Commit.postage wait CoinToss.seedLength round
  else Commit.postage wait m.byteLength (round - 2 * wait)

/-- A check in which a seed and then an element are committed to. -/
structure Measured (p : MacCheck m) : Prop where
  seeding : ∀ shares values t, p.phase = .seeding shares values t → t.Measured
  checking : ∀ c, p.phase = .checking c → c.Measured m.byteLength

theorem measured_new : Measured ({} : MacCheck m) := ⟨nofun, nofun⟩

variable {round wait elapsed : Nat} {p : MacCheck m} {w : Participant m}

/-- A new check sends the digest of its seed, if there is something to check. -/
theorem posts_new (w : Participant m) :
    Posts ({}, w) (fun status p' lengths => p'.Measured ∧ lengths = status.letters [digestLength])
      (evaluate 0 : Round m (MacCheck m) Status) := by
  refine Posts.after .protocol ?_
  rintro _ _ ⟨⟩
  rw [if_pos rfl]
  have hbegin : Silent (({}, w) : MacCheck m × Participant m) (begin 0) := by
    refine (Silent.pool _).bind fun drained _ _ => ?_
    dsimp only
    split
    · exact (Silent.update _).bind fun _ _ _ => .pure _
    · exact (Silent.update _).bind fun _ _ _ => .pure _
  refine Posts.after hbegin ?_
  rintro status ⟨p', w'⟩ hbegun
  obtain ⟨⟨shares, values⟩, _, hdrain, hbegun⟩ := bind_eq_ok.mp hbegun
  obtain ⟨pool, -, rfl⟩ := pool_eq_ok.mp hdrain
  dsimp only at hbegun
  split at hbegun
  · obtain ⟨_, _, hupdate, hbegun⟩ := bind_eq_ok.mp hbegun
    cases hupdate
    cases hbegun
    rw [if_pos rfl]
    exact Posts.pure ⟨⟨nofun, nofun⟩, rfl⟩
  · obtain ⟨_, _, hupdate, hbegun⟩ := bind_eq_ok.mp hbegun
    cases hupdate
    cases hbegun
    rw [if_neg nofun]
    refine Posts.after .protocol ?_
    rintro _ _ ⟨⟩
    dsimp only
    refine (Posts.within_protocol (CoinToss.posts_new _)).bind ?_
    rintro ⟨status, t'⟩ ⟨_, w''⟩ lengths - ⟨⟨rfl, hmeasured, rfl⟩, rfl⟩
    refine Posts.pure ⟨⟨?_, nofun⟩, rfl⟩
    rintro _ _ _ ⟨⟩
    exact hmeasured

theorem posts_evaluateSeeding {shares : List (AuthShare m)} {values : List (Element m)}
    {t : CoinToss} (measured : t.Measured) (due : t.Due wait round) (hle : round ≤ 2 * wait)
    (hwait : exchanges w.pool.parties = wait) :
    Posts (p, w) (fun status p' lengths => p'.Measured
        ∧ lengths = status.letters (postage m wait round))
      (evaluateSeeding round round shares values t) := by
  refine (Posts.within_protocol (CoinToss.posts measured due hwait)).bind ?_
  rintro ⟨status, t'⟩ ⟨_, w'⟩ lengths hok ⟨⟨hmeasured, rfl⟩, rfl⟩
  obtain ⟨htoss, -⟩ := within_protocol_eq_ok hok
  have hanswer := (due.step hwait htoss).1
  cases status with
  | more =>
    have hlt : round < 2 * wait := Status.before_eq_more.mp hanswer.symm
    refine Posts.pure ⟨⟨?_, nofun⟩, ?_⟩
    · rintro _ _ _ ⟨⟩
      exact hmeasured
    · rw [postage, if_pos hlt]
      exact List.append_nil _
  | done =>
    have hlast : round = 2 * wait :=
      Nat.le_antisymm hle (Status.before_eq_done.mp hanswer.symm)
    have hpositive : 0 < wait := hwait ▸ Nat.succ_pos _
    refine Posts.after (.update _) fun _ _ _ => ?_
    dsimp only
    split
    · exact Posts.throw _
    · refine Posts.after (.pool _) fun own s _ => ?_
      refine (Posts.within (Commit.posts_new own.toBytes _)).bind ?_
      rintro _ ⟨_, w₁⟩ _ - ⟨c, ⟨rfl, hcommit, rfl⟩, rfl⟩
      refine Posts.pure ⟨⟨nofun, ?_⟩, ?_⟩
      · rintro _ ⟨⟩
        rwa [Element.length_toBytes] at hcommit
      · show [digestLength] = postage m wait round
        rw [postage, if_neg (by omega), Commit.postage, if_neg (by omega)]

theorem posts_evaluateChecking {c : Commit} (measured : c.Measured m.byteLength)
    (due : c.Due wait elapsed) (hwait : exchanges w.pool.parties = wait) :
    Posts (p, w) (fun status p' lengths => p'.Measured
        ∧ lengths = status.letters (Commit.postage wait m.byteLength elapsed))
      (evaluateChecking elapsed c) := by
  refine (Posts.within_protocol (Commit.posts measured due hwait)).bind ?_
  rintro ⟨status, c'⟩ ⟨_, w'⟩ lengths - ⟨⟨hmeasured, rfl⟩, rfl⟩
  cases status with
  | more =>
    refine Posts.pure ⟨⟨nofun, ?_⟩, List.append_nil _⟩
    rintro _ ⟨⟩
    exact hmeasured
  | done =>
    refine Posts.after (.update _) fun _ _ _ => Posts.after (.ofExcept _ _) fun _ _ _ => ?_
    split
    · refine Posts.after (.update _) ?_
      rintro _ _ ⟨⟩
      exact Posts.pure ⟨⟨nofun, nofun⟩, rfl⟩
    · exact Posts.throw _

/-- A check on the way queues what its toss and its commitment do. -/
theorem posts (measured : p.Measured) (due : p.Due wait round)
    (hwait : exchanges w.pool.parties = wait) :
    Posts (p, w) (fun status p' lengths => p'.Measured
        ∧ lengths = status.letters (postage m wait round))
      (evaluate round) := by
  refine Posts.after .protocol ?_
  rintro _ _ ⟨⟩
  obtain ⟨shares, values, t, hphase, hstart, hle, due⟩ | ⟨c, hphase, hstart, hround, due⟩ := due
  · rw [if_neg (by rw [hphase]; nofun)]
    refine Posts.after .protocol ?_
    rintro _ _ ⟨⟩
    simp only [hphase, hstart, roundsSince_of_le (Nat.zero_le round), Nat.sub_zero]
    exact posts_evaluateSeeding (measured.seeding _ _ _ hphase) due hle hwait
  · rw [if_neg (by rw [hphase]; nofun)]
    refine Posts.after .protocol ?_
    rintro _ _ ⟨⟩
    simp only [hphase, hstart, roundsSince_of_le hround.le]
    rw [postage, if_neg (Nat.not_lt.mpr hround.le)]
    exact posts_evaluateChecking (measured.checking _ hphase) due hwait

end MacCheck

/-! ## §4 Gates -/

namespace Input

/-- What a round of an input queues: the owner sends the masked value, later everybody a digest. -/
def postage (m : Modulus) (party owner round : Nat) : List Nat :=
  if round = 0 then if party = owner then [m.byteLength] else [] else [digestLength]

variable {p : Input m} {w : Participant m}

/-- Only the owner sends. -/
theorem posts_sendMasked : Posts (p, w) (fun _ p' lengths => p'.owner = p.owner
      ∧ lengths = postage m w.pool.party p.owner 0)
    (sendMasked : Round m (Input m) Unit) := by
  refine Posts.after .protocol ?_
  rintro _ _ ⟨⟩
  refine Posts.after (.pool _) fun mask _ hmask => ?_
  obtain ⟨pool, hpool, rfl⟩ := pool_eq_ok.mp hmask
  have hparty : pool.party = w.pool.party := by
    obtain ⟨supplier, -, rfl⟩ := Action.within_eq_ok.mp hpool
    rfl
  refine Posts.after (.pool _) fun _ _ hread => ?_
  cases hread
  rw [postage, if_pos rfl, ← hparty]
  by_cases hown : pool.party = p.owner
  · simp only [if_pos hown]
    refine Posts.after (.update _) ?_
    rintro _ _ ⟨⟩
    cases p.value with
    | none => exact Posts.throw_bind _ _
    | some value =>
      cases mask.plaintext with
      | none => exact Posts.throw_bind _ _
      | some plaintext =>
        refine (Posts.sendToAll _).bind ?_
        rintro _ ⟨_, _⟩ _ - ⟨rfl, rfl⟩
        intro _ _ h
        cases h
        rw [Element.length_toBytes]
        exact ⟨[], ⟨rfl, rfl⟩, Mailbox.queued_nil rfl⟩
  · simp only [if_neg hown]
    intro _ _ h
    cases h
    exact ⟨[], ⟨rfl, rfl⟩, Mailbox.queued_nil rfl⟩

theorem silent_finish (s : Input m × Participant m) : Silent s finish := by
  refine Silent.protocol.bind fun p _ _ => (Silent.update _).bind fun _ _ _ => ?_
  split
  · exact .throw _
  · refine (Silent.update _).bind fun _ _ _ => ?_
    split
    · exact .throw _
    · exact (Silent.pool _).bind fun _ _ _ => .update _

theorem posts (round : Nat) (p : Input m) (w : Participant m) :
    Posts (p, w) (fun status p' lengths => (status = .more → p'.owner = p.owner)
        ∧ lengths = status.letters (postage m w.pool.party p.owner round))
      (evaluate round) := by
  match round with
  | 0 =>
    refine posts_sendMasked.bind ?_
    rintro _ _ _ - ⟨howner, rfl⟩
    exact Posts.pure ⟨fun _ => howner, List.append_nil _⟩
  | 1 =>
    refine Posts.after .protocol ?_
    rintro _ _ ⟨⟩
    refine Posts.after (.receive p.owner) fun bytes _ hreceive => ?_
    obtain ⟨box, -, rfl⟩ := mailbox_eq_ok.mp hreceive
    refine Posts.after (.ofExcept _ _) fun masked _ hmasked => ?_
    obtain ⟨-, rfl⟩ := ofExcept_eq_ok.mp hmasked
    refine Posts.after (.update _) ?_
    rintro _ _ ⟨⟩
    refine Posts.after (.pool _) fun _ _ hread => ?_
    cases hread
    by_cases hneeds : needsValidation w.pool.parties = true
    · simp only [if_pos hneeds]
      refine (Posts.sendDigest _).bind ?_
      rintro _ ⟨_, w'⟩ _ - ⟨rfl, rfl⟩
      refine Posts.after (.update _) ?_
      rintro _ _ ⟨⟩
      exact Posts.pure ⟨fun _ => rfl, rfl⟩
    · simp only [if_neg hneeds]
      exact Posts.after (silent_finish _) fun _ _ _ => Posts.pure ⟨nofun, rfl⟩
  | round + 2 =>
    exact Posts.after .protocol fun _ _ _ => Posts.after (.compareDigests _) fun _ _ _ =>
      Posts.after (silent_finish _) fun _ _ _ => Posts.pure ⟨nofun, rfl⟩

end Input

theorem Linear.posts (round : Nat) (p : Linear m) (w : Participant m) :
    Posts (p, w) (fun status _ lengths => status = .done ∧ lengths = []) (evaluate round) :=
  Posts.after (.pool _) fun _ _ _ => Posts.after (.update _) fun _ _ _ => Posts.pure ⟨rfl, rfl⟩

/-- All masked operands go out in one message. -/
theorem MultiplyBatch.posts (round : Nat) (p : MultiplyBatch m) (w : Participant m) :
    Posts (p, w) (fun status p' lengths => p'.openings = p.openings
        ∧ lengths = status.letters [p.openings * m.byteLength])
      (evaluate round) := by
  refine Posts.after .protocol ?_
  rintro _ _ ⟨⟩
  by_cases hempty : p.pairs.isEmpty = true
  · simp only [if_pos hempty]
    refine Posts.after (.update _) ?_
    rintro _ _ ⟨⟩
    exact Posts.pure ⟨rfl, rfl⟩
  · simp only [if_neg hempty]
    match round with
    | 0 =>
      refine Posts.after (.pool _) fun triples _ htriples => ?_
      obtain ⟨pool, hpool, rfl⟩ := pool_eq_ok.mp htriples
      obtain ⟨supplier, hnext, rfl⟩ := Action.within_eq_ok.mp hpool
      refine Posts.after (.update _) ?_
      rintro _ _ ⟨⟩
      refine (Posts.sendToAll _).bind ?_
      rintro _ ⟨_, _⟩ _ - ⟨rfl, rfl⟩
      refine Posts.pure ⟨rfl, ?_⟩
      rw [Element.length_encodeAll, List.length_map,
        length_maskedOperands (p := { p with triples }) (Supplier.length_nextTriples hnext)]
      rfl
    | round + 1 =>
      refine Posts.after .receiveFromAll fun _ _ hreceive => ?_
      obtain ⟨box, -, rfl⟩ := mailbox_eq_ok.mp hreceive
      refine Posts.after (.ofExcept _ _) fun _ _ hsum => ?_
      obtain ⟨-, rfl⟩ := ofExcept_eq_ok.mp hsum
      refine Posts.after (.pool _) fun _ _ hpush => ?_
      obtain ⟨pool, -, rfl⟩ := pool_eq_ok.mp hpush
      refine Posts.after (.pool _) fun _ _ hread => ?_
      cases hread
      refine Posts.after (.update _) ?_
      rintro _ _ ⟨⟩
      exact Posts.pure ⟨rfl, rfl⟩

theorem Multiply.posts (round : Nat) (p : Multiply m) (w : Participant m) :
    Posts (p, w) (fun status p' lengths => p'.batch.openings = p.batch.openings
        ∧ lengths = status.letters [p.batch.openings * m.byteLength])
      (evaluate round) := by
  refine Posts.after .protocol ?_
  rintro _ _ ⟨⟩
  refine (Posts.within (MultiplyBatch.posts round p.batch w)).mono ?_
  rintro _ _ _ ⟨batch, h, rfl⟩
  exact h

theorem Reveal.posts (round : Nat) (p : Reveal m) (w : Participant m) :
    Posts (p, w) (fun status _ lengths => lengths = status.letters [m.byteLength])
      (evaluate round) := by
  refine Posts.after .protocol ?_
  rintro _ _ ⟨⟩
  match round with
  | 0 =>
    refine (Posts.sendToAll _).bind ?_
    rintro _ _ _ - ⟨-, rfl⟩
    exact Posts.pure (by rw [Element.length_toBytes]; rfl)
  | round + 1 =>
    exact Posts.after .receiveFromAll fun _ _ _ => Posts.after (.ofExcept _ _) fun _ _ _ =>
      Posts.after (.pool _) fun _ _ _ => Posts.after (.update _) fun _ _ _ => Posts.pure rfl

namespace Gate

/-- What a round of a gate queues at a party among `n`. -/
def postage (n party round : Nat) : Gate m → List Nat
  | .input p => Input.postage m party p.owner round
  | .macCheck _ => MacCheck.postage m (exchanges n) round
  | g => [g.openings * m.byteLength]

/-- A gate whose messages are as long as its postage says. -/
def Measured : Gate m → Prop
  | .macCheck p => p.Measured
  | _ => True

variable {round : Nat} {g : Gate m} {w : Participant m}

/-- A gate that goes on has queued what its postage says, and its later rounds will too. -/
theorem posts (measured : g.Measured) (due : g.Due n round ∨ round = 0 ∧ g = .macCheck {})
    (hparties : w.pool.parties = n) :
    Posts (g, w) (fun status g' lengths => g'.Measured
        ∧ (status = .more → ∀ party later, g'.postage n party later = g.postage n party later)
        ∧ lengths = status.letters (g.postage n w.pool.party round))
      (evaluate round) := by
  refine Posts.after .protocol ?_
  rintro _ _ ⟨⟩
  cases g with
  | input p =>
    refine (Posts.within (Input.posts round p w)).mono ?_
    rintro status _ _ ⟨q, ⟨howner, rfl⟩, rfl⟩
    refine ⟨trivial, fun hmore party later => ?_, rfl⟩
    simp only [postage, howner hmore]
  | linear p =>
    refine (Posts.within (Linear.posts round p w)).mono ?_
    rintro status _ _ ⟨q, ⟨rfl, rfl⟩, rfl⟩
    exact ⟨trivial, fun _ _ _ => rfl, rfl⟩
  | multiply p =>
    refine (Posts.within (Multiply.posts round p w)).mono ?_
    rintro status _ _ ⟨q, ⟨hopenings, rfl⟩, rfl⟩
    refine ⟨trivial, fun _ party later => ?_, rfl⟩
    simp only [postage, openings, hopenings]
  | multiplyBatch p =>
    refine (Posts.within (MultiplyBatch.posts round p w)).mono ?_
    rintro status _ _ ⟨q, ⟨hopenings, rfl⟩, rfl⟩
    refine ⟨trivial, fun _ party later => ?_, rfl⟩
    simp only [postage, openings, hopenings]
  | reveal p =>
    refine (Posts.within (Reveal.posts round p w)).mono ?_
    rintro status _ _ ⟨q, rfl, rfl⟩
    refine ⟨trivial, fun _ _ _ => rfl, ?_⟩
    simp only [postage, openings, Nat.one_mul]
  | macCheck p =>
    have hposts : Posts (p, w) (fun status p' lengths => p'.Measured
        ∧ lengths = status.letters (MacCheck.postage m (exchanges n) round))
        (MacCheck.evaluate round) := by
      obtain due | ⟨rfl, hnew⟩ := due
      · exact MacCheck.posts measured (due.check p rfl) (congrArg exchanges hparties)
      · cases hnew
        have hpositive : 0 < exchanges n := Nat.succ_pos _
        rw [MacCheck.postage, if_pos (by omega), Commit.postage, if_neg (by omega)]
        exact MacCheck.posts_new w
    refine (Posts.within hposts).mono ?_
    rintro status _ _ ⟨q, ⟨hmeasured, rfl⟩, rfl⟩
    exact ⟨hmeasured, fun _ _ _ => rfl, rfl⟩

end Gate

namespace Operation

/-- What a round of a node queues at a party among `n`. -/
def postage (n party round : Nat) : Operation m → List Nat
  | .input owner _ => Input.postage m party owner round
  | .macCheck _ => MacCheck.postage m (exchanges n) round
  | op => [op.openings * m.byteLength]

end Operation

/-- A gate that has been built costs what its operation does. -/
theorem Gate.postage_of_instantiate {values : List (Option (Value m))} {op : Operation m}
    {g : Gate m} (h : instantiate values op = .ok g) :
    g.Measured ∧ ∀ party round, g.postage n party round = op.postage n party round := by
  obtain ⟨hopenings, -, hnew⟩ := instantiate_eq_ok h
  refine ⟨?_, fun party round => ?_⟩
  · cases g with
    | macCheck p =>
      cases hnew rfl
      exact MacCheck.measured_new
    | _ => trivial
  cases op with
  | input owner value =>
    cases h
    rfl
  | macCheck after =>
    cases h
    rfl
  | multiplyBatch pairs =>
    obtain ⟨_, -, h⟩ := except_bind_eq_ok.mp h
    cases h
    simp only [postage, Operation.postage, hopenings]
  | _ =>
    obtain ⟨_, -, h⟩ := except_bind_eq_ok.mp h
    first
      | cases h
        rfl
      | obtain ⟨_, -, h⟩ := except_bind_eq_ok.mp h
        cases h
        rfl

end JointCircuit
