/-
JointCircuit.Proofs.Branches — what a round that succeeds has done.

A round of a protocol may fail at each of its steps: a message does not
arrive or cannot be read, there is no material left, a digest differs.
Where it succeeds, none of this has happened. The branch that it took,
with what was received and what is left, is one case of an inductive
relation for each protocol (`Broadcast.Branch`, `MultiplyBatch.Branch`,
…), and later proofs take these cases apart and not the code.

The protocols inside a commitment, a toss and a check are not opened
here: a branch has the round of the part as a premise (§3). A gate is
its protocol, and so is a task (§4).
-/
import JointCircuit.Protocol.Task
import JointCircuit.Proofs.Peers

namespace JointCircuit

open Round

variable {m : Modulus} {π ρ α : Type} {round : Nat} {w w' : Participant m} {status : Status}

/-! ## §1 Parts of rounds -/

/-- A mailbox after one message has been queued for every party. -/
def Mailbox.withForAll (box : Mailbox) (message : Bytes) : Mailbox :=
  { box with outgoing := box.outgoing.map (· ++ [message]) }

theorem Mailbox.sendToAll_eq_ok {box box' : Mailbox} {message : Bytes} {u : Unit} :
    sendToAll message box = .ok u box' ↔ box' = box.withForAll message := by
  show EStateM.Result.ok () (box.withForAll message) = .ok u box' ↔ _
  simp only [EStateM.Result.ok.injEq, true_and, eq_comm]

theorem Mailbox.withForAll_ofPeers {n party bytes : Nat} {outgoing incoming : Fin n → Frame}
    (message : Bytes) :
    (ofPeers party outgoing incoming bytes).withForAll message
      = ofPeers party (fun j => outgoing j ++ [message]) incoming bytes :=
  (sendToAll_eq_ok.mp (sendToAll_ofPeers message)).symm

/-- A round of a part that answers with what is left of the part. -/
theorem Round.within_protocol_eq_ok {inner t : ρ} {put : ρ → π → π} {act : Round m ρ α} {p p' : π}
    {a : α} (h : Round.within inner put (do return (← act, ← Round.protocol)) (p, w)
      = .ok (a, t) (p', w')) :
    act (inner, w) = .ok a (t, w') ∧ p' = put t p := by
  obtain ⟨t₁, w₁, hpart, heq⟩ := within_eq_ok.mp h
  cases heq
  obtain ⟨_, ⟨t₂, w₂⟩, hact, hpart⟩ := Action.bind_eq_ok.mp hpart
  cases hpart
  exact ⟨hact, rfl⟩

/-- Digests are compared: none of them differs from the own one. -/
theorem Round.agree_of_compareDigests {digest : Bytes} {p p' : π} {u : Unit}
    (h : compareDigests digest (p, w) = .ok u (p', w')) :
    p' = p ∧ ∃ digests box, Mailbox.receiveFromAll w.mailbox = .ok digests box
      ∧ digests.findIdx? (· != digest) = none ∧ w' = { w with mailbox := box } := by
  obtain ⟨digests, _, hreceive, h⟩ := Action.bind_eq_ok.mp h
  obtain ⟨box, hbox, rfl⟩ := mailbox_eq_ok.mp hreceive
  cases hfind : digests.findIdx? (· != digest) with
  | some i =>
    simp only [hfind] at h
    cases h
  | none =>
    simp only [hfind] at h
    cases h
    exact ⟨rfl, digests, box, hbox, hfind, rfl⟩

/-! ## §2 Broadcasts, inputs, products and openings -/

/-- A round of a broadcast. -/
inductive Broadcast.Branch (b : Broadcast) (w : Participant m) :
    (round : Nat) → Status → Broadcast → Participant m → Prop
  | send : Branch b w 0 .more { b with message := none }
      { w with mailbox := w.mailbox.withForAll (b.message.getD []) }
  | digest {received : List Bytes} {box : Mailbox}
      (receives : Mailbox.receiveFromAll w.mailbox = .ok received box)
      (needs : needsValidation w.pool.parties = true) :
      Branch b w 1 .more { b with digest := Digest.ofMessages received, received := some received }
        { w with mailbox := box.withForAll (Digest.ofMessages received) }
  | receive {received : List Bytes} {box : Mailbox}
      (receives : Mailbox.receiveFromAll w.mailbox = .ok received box)
      (needs : needsValidation w.pool.parties = false) :
      Branch b w 1 .done { b with received := some received } { w with mailbox := box }
  | compare {round : Nat} {digests : List Bytes} {box : Mailbox}
      (receives : Mailbox.receiveFromAll w.mailbox = .ok digests box)
      (agree : digests.findIdx? (· != b.digest) = none) :
      Branch b w (round + 2) .done b { w with mailbox := box }

theorem Broadcast.branch {b b' : Broadcast} (h : evaluate round (b, w) = .ok status (b', w')) :
    b.Branch w round status b' w' := by
  match round with
  | 0 =>
    cases h
    exact .send
  | 1 =>
    obtain ⟨received, _, hreceive, h⟩ := Action.bind_eq_ok.mp h
    obtain ⟨box, hbox, rfl⟩ := mailbox_eq_ok.mp hreceive
    obtain ⟨_, _, hread, h⟩ := Action.bind_eq_ok.mp h
    cases hread
    cases hneeds : needsValidation w.pool.parties with
    | true =>
      simp only [hneeds, if_true] at h
      cases h
      exact .digest hbox hneeds
    | false =>
      simp only [hneeds] at h
      cases h
      exact .receive hbox hneeds
  | round + 2 =>
    obtain ⟨_, _, hread, h⟩ := Action.bind_eq_ok.mp h
    cases hread
    obtain ⟨_, ⟨b₁, w₁⟩, hcompare, h⟩ := Action.bind_eq_ok.mp h
    cases h
    obtain ⟨rfl, digests, box, hbox, hfind, rfl⟩ := agree_of_compareDigests hcompare
    exact .compare hbox hfind

namespace Input

/-- An input that has added the masked value to its mask. -/
def unmasked (p : Input m) (mask : InputMask m) (masked : Element m) (pool : Pool m) : Input m :=
  { p with
    mask := none
    masked := none
    output := some (mask.mask.addPublic masked pool.keyShare pool.party) }

theorem finish_eq_ok {p p' : Input m} {u : Unit} (h : finish (p, w) = .ok u (p', w')) :
    ∃ mask masked, p.mask = some mask ∧ p.masked = some masked
      ∧ p' = p.unmasked mask masked w.pool ∧ w' = w := by
  cases hmask : p.mask with
  | none => simp [finish, hmask] at h
  | some mask =>
    cases hmasked : p.masked with
    | none => simp [finish, hmask, hmasked] at h
    | some masked =>
      simp [finish, hmask, hmasked] at h
      obtain ⟨rfl, rfl⟩ := h
      exact ⟨mask, masked, rfl, rfl, rfl, rfl⟩

/-- A round of an input. -/
inductive Branch (p : Input m) (w : Participant m) :
    (round : Nat) → Status → Input m → Participant m → Prop
  | own {mask : InputMask m} {pool : Pool m} {value plaintext : Element m}
      (draws : Pool.nextMask p.owner w.pool = .ok mask pool) (owner : pool.party = p.owner)
      (known : p.value = some value) (opens : mask.plaintext = some plaintext) :
      Branch p w 0 .more { p with value := none, mask := some mask }
        ⟨pool, w.mailbox.withForAll (Element.toBytes (value - plaintext))⟩
  | other {mask : InputMask m} {pool : Pool m}
      (draws : Pool.nextMask p.owner w.pool = .ok mask pool) (owner : pool.party ≠ p.owner) :
      Branch p w 0 .more { p with mask := some mask } { w with pool }
  | digest {bytes : Bytes} {box : Mailbox} {masked : Element m}
      (receives : Mailbox.receive p.owner w.mailbox = .ok bytes box)
      (decodes : Element.ofBytes m bytes = .ok masked)
      (needs : needsValidation w.pool.parties = true) :
      Branch p w 1 .more { p with masked := some masked, digest := Digest.ofMessages [bytes] }
        { w with mailbox := box.withForAll (Digest.ofMessages [bytes]) }
  | receive {bytes : Bytes} {box : Mailbox} {mask : InputMask m} {masked : Element m}
      (receives : Mailbox.receive p.owner w.mailbox = .ok bytes box)
      (decodes : Element.ofBytes m bytes = .ok masked)
      (needs : needsValidation w.pool.parties = false) (drawn : p.mask = some mask) :
      Branch p w 1 .done (p.unmasked mask masked w.pool) { w with mailbox := box }
  | compare {round : Nat} {digests : List Bytes} {box : Mailbox} {mask : InputMask m}
      {masked : Element m} (receives : Mailbox.receiveFromAll w.mailbox = .ok digests box)
      (agree : digests.findIdx? (· != p.digest) = none) (drawn : p.mask = some mask)
      (received : p.masked = some masked) :
      Branch p w (round + 2) .done (p.unmasked mask masked w.pool) { w with mailbox := box }

theorem branch_zero {p p' : Input m} (h : evaluate 0 (p, w) = .ok status (p', w')) :
    p.Branch w 0 status p' w' := by
  obtain ⟨_, ⟨p₁, w₁⟩, hsend, h⟩ := Action.bind_eq_ok.mp h
  cases h
  obtain ⟨_, _, hread, hsend⟩ := Action.bind_eq_ok.mp hsend
  cases hread
  obtain ⟨mask, _, hmask, hsend⟩ := Action.bind_eq_ok.mp hsend
  obtain ⟨pool, hdraw, rfl⟩ := pool_eq_ok.mp hmask
  obtain ⟨_, _, hread, hsend⟩ := Action.bind_eq_ok.mp hsend
  cases hread
  by_cases howner : pool.party = p.owner
  · simp only [howner, if_true] at hsend
    obtain ⟨_, _, hclear, hsend⟩ := Action.bind_eq_ok.mp hsend
    cases hclear
    cases hvalue : p.value with
    | none =>
      simp only [hvalue] at hsend
      cases hsend
    | some value =>
      simp only [hvalue] at hsend
      cases hplain : mask.plaintext with
      | none =>
        simp only [hplain] at hsend
        cases hsend
      | some plaintext =>
        simp only [hplain] at hsend
        cases hsend
        exact .own hdraw howner hvalue hplain
  · simp only [howner, if_false] at hsend
    cases hsend
    exact .other hdraw howner

theorem branch {p p' : Input m} (h : evaluate round (p, w) = .ok status (p', w')) :
    p.Branch w round status p' w' := by
  match round with
  | 0 => exact branch_zero h
  | 1 =>
    obtain ⟨_, _, hread, h⟩ := Action.bind_eq_ok.mp h
    cases hread
    obtain ⟨bytes, _, hreceive, h⟩ := Action.bind_eq_ok.mp h
    obtain ⟨box, hbox, rfl⟩ := mailbox_eq_ok.mp hreceive
    obtain ⟨masked, _, hmasked, h⟩ := Action.bind_eq_ok.mp h
    obtain ⟨hdecode, rfl⟩ := Action.ofExcept_eq_ok.mp hmasked
    obtain ⟨_, _, hupdate, h⟩ := Action.bind_eq_ok.mp h
    cases hupdate
    obtain ⟨_, _, hread, h⟩ := Action.bind_eq_ok.mp h
    cases hread
    cases hneeds : needsValidation w.pool.parties with
    | true =>
      simp only [hneeds, if_true] at h
      cases h
      exact .digest hbox hdecode hneeds
    | false =>
      simp only [hneeds] at h
      obtain ⟨_, ⟨p₁, w₁⟩, hfinish, h⟩ := Action.bind_eq_ok.mp h
      cases h
      obtain ⟨mask, _, hmask, ⟨⟩, rfl, rfl⟩ := finish_eq_ok hfinish
      exact .receive hbox hdecode hneeds hmask
  | round + 2 =>
    obtain ⟨_, _, hread, h⟩ := Action.bind_eq_ok.mp h
    cases hread
    obtain ⟨_, ⟨p₁, w₁⟩, hcompare, h⟩ := Action.bind_eq_ok.mp h
    obtain ⟨rfl, digests, box, hbox, hfind, rfl⟩ := agree_of_compareDigests hcompare
    obtain ⟨_, ⟨p₂, w₂⟩, hfinish, h⟩ := Action.bind_eq_ok.mp h
    cases h
    obtain ⟨mask, masked, hmask, hmasked, rfl, rfl⟩ := finish_eq_ok hfinish
    exact .compare hbox hfind hmask hmasked

end Input

/-- A round of a batch of products. -/
inductive MultiplyBatch.Branch (p : MultiplyBatch m) (w : Participant m) :
    (round : Nat) → Status → MultiplyBatch m → Participant m → Prop
  | empty {round : Nat} (no_pairs : p.pairs = []) :
      Branch p w round .done { p with output := some [] } w
  | send {triples : List (Triple m)} {supplier : Supplier m} (has_pairs : p.pairs ≠ [])
      (draws : Supplier.nextTriples p.pairs.length w.pool.supplier = .ok triples supplier) :
      Branch p w 0 .more { p with triples }
        ⟨{ w.pool with supplier }, w.mailbox.withForAll (Element.encodeAll
          (({ p with triples } : MultiplyBatch m).maskedOperands.map (·.share)))⟩
  | finish {round : Nat} {payloads : List Bytes} {box : Mailbox} {sums : List (Element m)}
      {pool : Pool m} (has_pairs : p.pairs ≠ [])
      (receives : Mailbox.receiveFromAll w.mailbox = .ok payloads box)
      (opens : openPayloads m (2 * p.pairs.length) payloads = .ok sums)
      (records : Pool.pushOpened p.maskedOperands sums w.pool = .ok () pool) :
      Branch p w (round + 1) .done
        { p with
          output := some (List.zipWith (product pool.keyShare pool.party) p.triples (pairUp sums)) }
        ⟨pool, box⟩

theorem MultiplyBatch.branch {p p' : MultiplyBatch m}
    (h : evaluate round (p, w) = .ok status (p', w')) : p.Branch w round status p' w' := by
  obtain ⟨_, _, hread, h⟩ := Action.bind_eq_ok.mp h
  cases hread
  by_cases hpairs : p.pairs = []
  · rw [if_pos (List.isEmpty_iff.mpr hpairs)] at h
    cases h
    exact .empty hpairs
  · rw [if_neg (by simpa using hpairs)] at h
    match round with
    | 0 =>
      obtain ⟨triples, _, hdraw, h⟩ := Action.bind_eq_ok.mp h
      obtain ⟨_, hpool, rfl⟩ := pool_eq_ok.mp hdraw
      obtain ⟨supplier, hnext, rfl⟩ := Action.within_eq_ok.mp hpool
      cases h
      exact .send hpairs hnext
    | round + 1 =>
      obtain ⟨payloads, _, hreceive, h⟩ := Action.bind_eq_ok.mp h
      obtain ⟨box, hbox, rfl⟩ := mailbox_eq_ok.mp hreceive
      obtain ⟨sums, _, hopen, h⟩ := Action.bind_eq_ok.mp h
      obtain ⟨hsums, rfl⟩ := Action.ofExcept_eq_ok.mp hopen
      obtain ⟨_, _, hpush, h⟩ := Action.bind_eq_ok.mp h
      obtain ⟨pool, hpool, rfl⟩ := pool_eq_ok.mp hpush
      cases h
      exact .finish hpairs hbox hsums hpool

/-- A local operation ends at once. -/
theorem Linear.evaluate_eq_ok {p p' : Linear m} (h : evaluate round (p, w) = .ok status (p', w')) :
    status = .done ∧ w' = w := by
  cases h
  exact ⟨rfl, rfl⟩

/-- A round of a single product is one of the batch in it. -/
theorem Multiply.evaluate_eq_ok {p p' : Multiply m} :
    evaluate round (p, w) = .ok status (p', w')
      ↔ MultiplyBatch.evaluate round (p.batch, w) = .ok status (p'.batch, w') := by
  constructor
  · intro h
    obtain ⟨_, _, hread, h⟩ := Action.bind_eq_ok.mp h
    cases hread
    obtain ⟨batch, w₁, hbatch, heq⟩ := within_eq_ok.mp h
    cases heq
    exact hbatch
  · intro h
    exact Action.bind_eq_ok.mpr ⟨_, _, rfl, within_eq_ok.mpr ⟨p'.batch, w', h, rfl⟩⟩

/-- A round of an opening. -/
inductive Reveal.Branch (p : Reveal m) (w : Participant m) :
    (round : Nat) → Status → Reveal m → Participant m → Prop
  | send : Branch p w 0 .more p { w with mailbox := w.mailbox.withForAll p.share.share.toBytes }
  | finish {round : Nat} {parts : List Bytes} {box : Mailbox} {value : Element m} {pool : Pool m}
      (receives : Mailbox.receiveFromAll w.mailbox = .ok parts box)
      (adds : sumEncoded m parts = .ok value)
      (records : Pool.pushOpened [p.share] [value] w.pool = .ok () pool) :
      Branch p w (round + 1) .done { p with output := some value.effective } ⟨pool, box⟩

theorem Reveal.branch {p p' : Reveal m} (h : evaluate round (p, w) = .ok status (p', w')) :
    p.Branch w round status p' w' := by
  obtain ⟨_, _, hread, h⟩ := Action.bind_eq_ok.mp h
  cases hread
  match round with
  | 0 =>
    cases h
    exact .send
  | round + 1 =>
    obtain ⟨parts, _, hreceive, h⟩ := Action.bind_eq_ok.mp h
    obtain ⟨box, hbox, rfl⟩ := mailbox_eq_ok.mp hreceive
    obtain ⟨value, _, hsum, h⟩ := Action.bind_eq_ok.mp h
    obtain ⟨hvalue, rfl⟩ := Action.ofExcept_eq_ok.mp hsum
    obtain ⟨_, _, hpush, h⟩ := Action.bind_eq_ok.mp h
    obtain ⟨pool, hpool, rfl⟩ := pool_eq_ok.mp hpush
    cases h
    exact .finish hbox hvalue hpool

/-! ## §3 Commitments, tosses and checks -/

/-- A round of a commitment: the broadcasts of the commitments and of the openings. -/
inductive Commit.Branch (c : Commit) (w : Participant m) (round : Nat) :
    Status → Commit → Participant m → Prop
  | begin {randomness : Bytes} {later : Generator} (phase : c.phase = .start)
      (draws : Draw.bytes randomnessLength w.pool.localGenerator = (randomness, later)) :
      Branch c w round .more
        { c with
          opening := c.value ++ randomness
          phase := .commitments
            { Broadcast.new (Digest.commitment (c.value ++ randomness)) with message := none }
          phaseStart := round }
        ⟨{ w.pool with localGenerator := later },
          w.mailbox.withForAll (Digest.commitment (c.value ++ randomness))⟩
  | commitments {b b' : Broadcast} {w' : Participant m} (phase : c.phase = .commitments b)
      (part : Broadcast.evaluate (roundsSince c.phaseStart round) (b, w) = .ok .more (b', w')) :
      Branch c w round .more { c with phase := .commitments b' } w'
  | committed {b b' : Broadcast} {w' : Participant m} (phase : c.phase = .commitments b)
      (part : Broadcast.evaluate (roundsSince c.phaseStart round) (b, w) = .ok .done (b', w'))
      (lengths : ∀ x ∈ b'.received.getD [], x.length = digestLength) :
      Branch c w round .more
        { c with
          commitments := b'.received.getD []
          opening := []
          phase := .openings { Broadcast.new c.opening with message := none }
          phaseStart := round }
        { w' with mailbox := w'.mailbox.withForAll c.opening }
  | openings {b b' : Broadcast} {w' : Participant m} (phase : c.phase = .openings b)
      (part : Broadcast.evaluate (roundsSince c.phaseStart round) (b, w) = .ok .more (b', w')) :
      Branch c w round .more { c with phase := .openings b' } w'
  | opened {b b' : Broadcast} {w' : Participant m} {values : List Bytes}
      (phase : c.phase = .openings b)
      (part : Broadcast.evaluate (roundsSince c.phaseStart round) (b, w) = .ok .done (b', w'))
      (verifies : verifyFrom 1 ((b'.received.getD []).zip c.commitments) = .ok values) :
      Branch c w round .done { c with output := some values, phase := .finished } w'

namespace Commit

variable {c c' : Commit} {b : Broadcast}

theorem branch_commitments (hphase : c.phase = .commitments b)
    (h : evaluateCommitments round (roundsSince c.phaseStart round) b (c, w)
      = .ok status (c', w')) : c.Branch w round status c' w' := by
  obtain ⟨⟨answer, b'⟩, ⟨c₁, w₁⟩, hpart, h⟩ := Action.bind_eq_ok.mp h
  obtain ⟨hbroadcast, rfl⟩ := within_protocol_eq_ok hpart
  cases answer with
  | more =>
    cases h
    exact .commitments hphase hbroadcast
  | done =>
    obtain ⟨commitments, _, htake, h⟩ := Action.bind_eq_ok.mp h
    cases htake
    cases hlength : (b'.received.getD []).findIdx? (·.length ≠ digestLength) with
    | some i =>
      simp only [hlength] at h
      cases h
    | none =>
      simp only [hlength] at h
      cases h
      exact .committed hphase hbroadcast (by simpa [List.findIdx?_eq_none_iff] using hlength)

theorem branch_openings (hphase : c.phase = .openings b)
    (h : evaluateOpenings (roundsSince c.phaseStart round) b (c, w) = .ok status (c', w')) :
    c.Branch w round status c' w' := by
  obtain ⟨⟨answer, b'⟩, ⟨c₁, w₁⟩, hpart, h⟩ := Action.bind_eq_ok.mp h
  obtain ⟨hbroadcast, rfl⟩ := within_protocol_eq_ok hpart
  cases answer with
  | more =>
    cases h
    exact .openings hphase hbroadcast
  | done =>
    obtain ⟨openings, _, htake, h⟩ := Action.bind_eq_ok.mp h
    cases htake
    obtain ⟨_, _, hread, h⟩ := Action.bind_eq_ok.mp h
    cases hread
    obtain ⟨values, _, hlift, h⟩ := Action.bind_eq_ok.mp h
    obtain ⟨hverify, rfl⟩ := Action.ofExcept_eq_ok.mp hlift
    cases h
    exact .opened hphase hbroadcast hverify

theorem branch_start (hstart : c.phase = .start)
    (h : evaluate round (c, w) = .ok status (c', w')) : c.Branch w round status c' w' := by
  obtain ⟨⟨randomness, later⟩, hdraw⟩ :
      ∃ drawn, Draw.bytes randomnessLength w.pool.localGenerator = drawn := ⟨_, rfl⟩
  have hround : roundsSince round round = 0 := by
    rw [roundsSince_of_le (Nat.le_refl round), Nat.sub_self]
  simp [evaluate, begin, hstart, hround, hdraw, evaluateCommitments, Broadcast.evaluate,
    Broadcast.new, Mailbox.sendToAll] at h
  obtain ⟨rfl, rfl, rfl⟩ := h
  exact .begin hstart hdraw

theorem branch (h : evaluate round (c, w) = .ok status (c', w')) :
    c.Branch w round status c' w' := by
  by_cases hstart : c.phase = .start
  · exact branch_start hstart h
  · obtain ⟨_, _, hread, h⟩ := Action.bind_eq_ok.mp h
    cases hread
    rw [if_neg hstart] at h
    obtain ⟨_, _, hread, h⟩ := Action.bind_eq_ok.mp h
    cases hread
    cases hphase : c.phase with
    | commitments b =>
      simp only [hphase] at h
      exact branch_commitments hphase h
    | openings b =>
      simp only [hphase] at h
      exact branch_openings hphase h
    | start => exact absurd hphase hstart
    | finished =>
      simp only [hphase] at h
      cases h

end Commit

/-- A round of a toss whose commitment is `c`. -/
inductive CoinToss.Branch (t : CoinToss) (c : Commit) (w : Participant m) (round : Nat) :
    Status → CoinToss → Participant m → Prop
  | commit {c' : Commit} {w' : Participant m}
      (part : Commit.evaluate round (c, w) = .ok .more (c', w')) :
      Branch t c w round .more { t with commit := some c' } w'
  | combine {c' : Commit} {w' : Participant m} {seed : Seed}
      (part : Commit.evaluate round (c, w) = .ok .done (c', w'))
      (combines : combine (c'.output.getD []) = .ok seed) :
      Branch t c w round .done { t with commit := some c'.out.2, output := some seed } w'

theorem CoinToss.branch {t t' : CoinToss} {c : Commit} (hcommit : t.commit = some c)
    (h : evaluate round (t, w) = .ok status (t', w')) : t.Branch c w round status t' w' := by
  obtain ⟨c₁, _, hcommitment, h⟩ := Action.bind_eq_ok.mp h
  obtain ⟨_, _, hread, hcommitment⟩ := Action.bind_eq_ok.mp hcommitment
  cases hread
  simp only [hcommit] at hcommitment
  cases hcommitment
  obtain ⟨⟨answer, c'⟩, ⟨t₁, w₁⟩, hpart, h⟩ := Action.bind_eq_ok.mp h
  obtain ⟨hround, rfl⟩ := within_protocol_eq_ok hpart
  cases answer with
  | more =>
    cases h
    exact .commit hround
  | done =>
    obtain ⟨_, _, hupdate, h⟩ := Action.bind_eq_ok.mp h
    cases hupdate
    obtain ⟨seed, _, hlift, h⟩ := Action.bind_eq_ok.mp h
    obtain ⟨hseed, rfl⟩ := Action.ofExcept_eq_ok.mp hlift
    cases h
    exact .combine hround hseed

/-- A round of a check that has taken out what it checks: the toss, and the commitment to the own
term. -/
inductive MacCheck.Branch (p : MacCheck m) (w : Participant m) (round : Nat) :
    Status → MacCheck m → Participant m → Prop
  | seeding {shares : List (AuthShare m)} {values : List (Element m)} {t t' : CoinToss}
      {w' : Participant m} (phase : p.phase = .seeding shares values t)
      (part : CoinToss.evaluate (roundsSince p.phaseStart round) (t, w) = .ok .more (t', w')) :
      Branch p w round .more { p with phase := .seeding shares values t' } w'
  | seeded {shares : List (AuthShare m)} {values : List (Element m)} {t t' : CoinToss}
      {w₁ w' : Participant m} {seed : Seed} {own : Element m} {pool : Pool m} {c : Commit}
      {answer : Status} (phase : p.phase = .seeding shares values t)
      (part : CoinToss.evaluate (roundsSince p.phaseStart round) (t, w) = .ok .done (t', w₁))
      (tossed : t'.output = some seed) (term : term shares values seed w₁.pool = .ok own pool)
      (commits : Commit.evaluate 0 (.new own.toBytes, { w₁ with pool }) = .ok answer (c, w')) :
      Branch p w round .more { p with phase := .checking c, phaseStart := round } w'
  | checking {c c' : Commit} {w' : Participant m} (phase : p.phase = .checking c)
      (part : Commit.evaluate (roundsSince p.phaseStart round) (c, w) = .ok .more (c', w')) :
      Branch p w round .more { p with phase := .checking c' } w'
  | checked {c c' : Commit} {w' : Participant m} (phase : p.phase = .checking c)
      (part : Commit.evaluate (roundsSince p.phaseStart round) (c, w) = .ok .done (c', w'))
      (cancels : sumEncoded m (c'.output.getD []) = .ok 0) :
      Branch p w round .done { p with phase := .finished, output := some () } w'

namespace MacCheck

variable {p p' : MacCheck m}

theorem branch_seeding {shares : List (AuthShare m)} {values : List (Element m)} {t : CoinToss}
    (hphase : p.phase = .seeding shares values t)
    (h : evaluateSeeding round (roundsSince p.phaseStart round) shares values t (p, w)
      = .ok status (p', w')) : p.Branch w round status p' w' := by
  obtain ⟨⟨answer, t'⟩, ⟨p₁, w₁⟩, hpart, h⟩ := Action.bind_eq_ok.mp h
  obtain ⟨htoss, rfl⟩ := within_protocol_eq_ok hpart
  cases answer with
  | more =>
    cases h
    exact .seeding hphase htoss
  | done =>
    obtain ⟨_, _, hupdate, h⟩ := Action.bind_eq_ok.mp h
    cases hupdate
    cases hseed : t'.output with
    | none =>
      simp only [hseed] at h
      cases h
    | some seed =>
      simp only [hseed] at h
      obtain ⟨own, _, hown, h⟩ := Action.bind_eq_ok.mp h
      obtain ⟨pool, hterm, rfl⟩ := pool_eq_ok.mp hown
      obtain ⟨_, _, hcommit, h⟩ := Action.bind_eq_ok.mp h
      obtain ⟨c, w₂, hnew, rfl⟩ := within_eq_ok.mp hcommit
      cases h
      exact .seeded hphase htoss hseed hterm hnew

theorem branch_checking {c : Commit} (hphase : p.phase = .checking c)
    (h : evaluateChecking (roundsSince p.phaseStart round) c (p, w) = .ok status (p', w')) :
    p.Branch w round status p' w' := by
  obtain ⟨⟨answer, c'⟩, ⟨p₁, w₁⟩, hpart, h⟩ := Action.bind_eq_ok.mp h
  obtain ⟨hcommit, rfl⟩ := within_protocol_eq_ok hpart
  cases answer with
  | more =>
    cases h
    exact .checking hphase hcommit
  | done =>
    obtain ⟨_, _, hupdate, h⟩ := Action.bind_eq_ok.mp h
    cases hupdate
    obtain ⟨sum, _, hadd, h⟩ := Action.bind_eq_ok.mp h
    obtain ⟨hsum, rfl⟩ := Action.ofExcept_eq_ok.mp hadd
    split at h
    · rename_i hzero
      subst hzero
      cases h
      exact .checked hphase hcommit hsum
    · cases h

/-- A round of a check that has begun. -/
theorem branch (hstart : p.phase ≠ .start) (h : evaluate round (p, w) = .ok status (p', w')) :
    p.Branch w round status p' w' := by
  obtain ⟨_, _, hread, h⟩ := Action.bind_eq_ok.mp h
  cases hread
  rw [if_neg hstart] at h
  obtain ⟨_, _, hread, h⟩ := Action.bind_eq_ok.mp h
  cases hread
  cases hphase : p.phase with
  | seeding shares values t =>
    simp only [hphase] at h
    exact branch_seeding hphase h
  | checking c =>
    simp only [hphase] at h
    exact branch_checking hphase h
  | start => exact absurd hphase hstart
  | finished =>
    simp only [hphase] at h
    cases h

end MacCheck

/-! ## §4 Gates and tasks -/

/-- A round of a gate is one of its protocol. -/
inductive Gate.Branch (w : Participant m) (round : Nat) (status : Status) (w' : Participant m) :
    Gate m → Gate m → Prop
  | input {p p' : Input m} (act : Input.evaluate round (p, w) = .ok status (p', w')) :
      Branch w round status w' (.input p) (.input p')
  | linear {p p' : Linear m} (act : Linear.evaluate round (p, w) = .ok status (p', w')) :
      Branch w round status w' (.linear p) (.linear p')
  | multiply {p p' : Multiply m} (act : Multiply.evaluate round (p, w) = .ok status (p', w')) :
      Branch w round status w' (.multiply p) (.multiply p')
  | multiplyBatch {p p' : MultiplyBatch m}
      (act : MultiplyBatch.evaluate round (p, w) = .ok status (p', w')) :
      Branch w round status w' (.multiplyBatch p) (.multiplyBatch p')
  | reveal {p p' : Reveal m} (act : Reveal.evaluate round (p, w) = .ok status (p', w')) :
      Branch w round status w' (.reveal p) (.reveal p')
  | macCheck {p p' : MacCheck m} (act : MacCheck.evaluate round (p, w) = .ok status (p', w')) :
      Branch w round status w' (.macCheck p) (.macCheck p')

theorem Gate.branch {g g' : Gate m} (h : evaluate round (g, w) = .ok status (g', w')) :
    Branch w round status w' g g' := by
  obtain ⟨_, _, hread, h⟩ := Action.bind_eq_ok.mp h
  cases hread
  cases g with
  | input p =>
    obtain ⟨q, w₁, hact, ⟨⟩⟩ := within_eq_ok.mp h
    exact .input hact
  | linear p =>
    obtain ⟨q, w₁, hact, ⟨⟩⟩ := within_eq_ok.mp h
    exact .linear hact
  | multiply p =>
    obtain ⟨q, w₁, hact, ⟨⟩⟩ := within_eq_ok.mp h
    exact .multiply hact
  | multiplyBatch p =>
    obtain ⟨q, w₁, hact, ⟨⟩⟩ := within_eq_ok.mp h
    exact .multiplyBatch hact
  | reveal p =>
    obtain ⟨q, w₁, hact, ⟨⟩⟩ := within_eq_ok.mp h
    exact .reveal hact
  | macCheck p =>
    obtain ⟨q, w₁, hact, ⟨⟩⟩ := within_eq_ok.mp h
    exact .macCheck hact

/-- A round of a task is one of its protocol. -/
inductive Task.Branch (w : Participant m) (round : Nat) (status : Status) (w' : Participant m) :
    Task m → Task m → Prop
  | gate {p p' : Gate m} (act : Gate.evaluate round (p, w) = .ok status (p', w')) :
      Branch w round status w' (.gate p) (.gate p')
  | broadcast {p p' : Broadcast} (act : Broadcast.evaluate round (p, w) = .ok status (p', w')) :
      Branch w round status w' (.broadcast p) (.broadcast p')
  | commit {p p' : Commit} (act : Commit.evaluate round (p, w) = .ok status (p', w')) :
      Branch w round status w' (.commit p) (.commit p')
  | coinToss {p p' : CoinToss} (act : CoinToss.evaluate round (p, w) = .ok status (p', w')) :
      Branch w round status w' (.coinToss p) (.coinToss p')

theorem Task.branch {t t' : Task m} (h : evaluate round (t, w) = .ok status (t', w')) :
    Branch w round status w' t t' := by
  obtain ⟨_, _, hread, h⟩ := Action.bind_eq_ok.mp h
  cases hread
  cases t with
  | gate p =>
    obtain ⟨q, w₁, hact, ⟨⟩⟩ := within_eq_ok.mp h
    exact .gate hact
  | broadcast p =>
    obtain ⟨q, w₁, hact, ⟨⟩⟩ := within_eq_ok.mp h
    exact .broadcast hact
  | commit p =>
    obtain ⟨q, w₁, hact, ⟨⟩⟩ := within_eq_ok.mp h
    exact .commit hact
  | coinToss p =>
    obtain ⟨q, w₁, hact, ⟨⟩⟩ := within_eq_ok.mp h
    exact .coinToss hact

end JointCircuit
