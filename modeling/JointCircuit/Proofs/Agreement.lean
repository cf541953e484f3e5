/-
JointCircuit.Proofs.Agreement — honest parties end with the same messages.

§1 is the course of a broadcast at one party: what it has heard when it
sends its digest, and what it needs to hear to end. Every pair of honest
parties compares digests, so that no two of them end with different
messages, and none ends when two of them have been told different ones
(§2). The masked value of an input is confirmed in the same way (§3).

Main statement: `broadcast_agrees`.
-/
import JointCircuit.Proofs.Attendance
import JointCircuit.Proofs.Rushing
import JointCircuit.Proofs.Gates
import Mathlib.Tactic.FinCases

namespace JointCircuit

open Evaluator

variable {m : Modulus} {n : Nat} {i j : Fin n}

/-! ## §1 The course of a broadcast -/

/-- The digest of the messages of all parties. -/
def Digest.ofAll (messages : Fin n → Bytes) : Bytes :=
  Digest.ofMessages (List.ofFn messages)

/-- Digests that are not all equal to the own one are evidence against somebody. -/
theorem Round.compareDigests_of_mismatch {π : Type} {digest : Bytes} {digests : Fin n → Bytes}
    (hne : digests ≠ fun _ => digest) :
    ∃ s, ∀ (p : π) (pool : Pool m) party outgoing (rest : Fin n → Frame) bytes, ∃ t,
      compareDigests digest
          (p, ⟨pool, .ofPeers party outgoing (fun j => digests j :: rest j) bytes⟩)
        = .error (.malicious (.digestMismatch s)) t := by
  cases hfind : (List.ofFn digests).findIdx? (· != digest) with
  | none =>
    rw [List.findIdx?_eq_none_iff] at hfind
    refine absurd (funext fun j => ?_) hne
    simpa using hfind (digests j) (List.mem_ofFn.mpr ⟨j, rfl⟩)
  | some s =>
    refine ⟨s + 1, fun p pool party outgoing rest bytes =>
      ⟨(p, ⟨pool, .ofPeers party outgoing rest bytes⟩), ?_⟩⟩
    simp [compareDigests, hfind]

namespace Broadcast

variable {message : Bytes} {a : Attendance m n Broadcast}

/-- What a party does in a broadcast whose messages are compared. -/
structure Course (message : Bytes) (a : Attendance m n Broadcast) : Prop where
  sends : ∀ gives, a.said[0]? = some gives → gives = fun _ => [message]
  confirms : ∀ gives, a.said[1]? = some gives →
    ∃ x, a.HearsAll 1 x ∧ gives = fun _ => [Digest.ofAll x]
  ends : ∀ b, a.ending = .done b →
    ∃ x, a.HearsAll 1 x ∧ a.HearsAll 2 (fun _ => Digest.ofAll x)
      ∧ b.received = some (List.ofFn x)
  compares : ∀ digests, a.HearsAll 2 digests → ∃ x, a.HearsAll 1 x
    ∧ (digests ≠ (fun _ => Digest.ofAll x) →
      ∃ s, a.ending = .failed (.malicious (.digestMismatch s)))

/-- The round in which digests are compared. -/
theorem attends_compare {b : Broadcast} (h : Attends i 2 b a) :
    (∀ b', a.ending = .done b' → b' = b ∧ a.HearsAll 0 fun _ => b.digest)
      ∧ ∀ digests, a.HearsAll 0 digests → digests ≠ (fun _ => b.digest) →
        ∃ s, a.ending = .failed (.malicious (.digestMismatch s)) := by
  obtain ⟨visits, said, ending⟩ := a
  cases visits with
  | nil =>
    obtain ⟨rfl, rfl⟩ := h.of_nil
    exact ⟨nofun, fun digests hall => absurd (hall i).lt (by simp)⟩
  | cons visit visits =>
    constructor
    · rintro b' rfl
      rcases h.of_hearing (hearing_compare 0 b) with ⟨-, -, _, hfailed⟩ | hheard
      · cases hfailed
      · obtain ⟨digests, rest, status, p, gives, hqueues, hanswer, hproceeds⟩ := hheard
        split at hanswer
        · rename_i hall
          cases hanswer
          obtain ⟨-, -, hdone⟩ := hproceeds
          cases hdone
          exact ⟨rfl, hall ▸ Attendance.hearsAll_of_queues rfl hqueues⟩
        · cases hanswer
    · intro digests hall hne
      obtain ⟨rest, hqueues⟩ := Attendance.queues_of_hearsAll hall
      obtain ⟨s, hs⟩ := Round.compareDigests_of_mismatch hne
      refine ⟨s, h.of_error fun outgoing bytes => ?_⟩
      rw [Visit.participant, hqueues]
      obtain ⟨t, ht⟩ := hs b visit.pool (i + 1) outgoing rest bytes
      refine ⟨t, ?_⟩
      show evaluate 2 _ = _
      simp only [evaluate, Action.bind_apply, Round.protocol_apply, ht]

/-- The rounds after the own message is out. -/
theorem attends_receive (hv : needsValidation n = true) {b : Broadcast} (h : Attends i 1 b a) :
    (∀ gives, a.said[0]? = some gives →
        ∃ x, a.HearsAll 0 x ∧ gives = fun _ => [Digest.ofAll x])
      ∧ (∀ b', a.ending = .done b' → ∃ x, a.HearsAll 0 x
        ∧ a.HearsAll 1 (fun _ => Digest.ofAll x) ∧ b'.received = some (List.ofFn x))
      ∧ ∀ digests, a.HearsAll 1 digests → ∃ x, a.HearsAll 0 x
        ∧ (digests ≠ (fun _ => Digest.ofAll x) →
          ∃ s, a.ending = .failed (.malicious (.digestMismatch s))) := by
  obtain ⟨visits, said, ending⟩ := a
  cases visits with
  | nil =>
    obtain ⟨rfl, rfl⟩ := h.of_nil
    exact ⟨nofun, nofun, fun digests hall => absurd (hall i).lt (by simp)⟩
  | cons visit visits =>
    have hparties : needsValidation visit.pool.parties = true := by rw [h.at_visit.2, hv]
    rcases h.of_hearing (hearing_digest hparties b) with ⟨rfl, rfl, fault, rfl⟩ | hheard
    · exact ⟨nofun, nofun, fun digests hall => absurd (hall i).lt (by simp)⟩
    · obtain ⟨x, rest, status, p, gives, hqueues, hanswer, hproceeds⟩ := hheard
      cases hanswer
      obtain ⟨later, rfl, hlater⟩ := hproceeds
      have hx : Attendance.HearsAll
          ⟨visit :: visits, (fun _ => [Digest.ofAll x]) :: later, ending⟩ 0 x :=
        Attendance.hearsAll_of_queues rfl hqueues
      obtain ⟨hdone, hcompare⟩ := attends_compare hlater
      refine ⟨?_, ?_, ?_⟩
      · rintro gives ⟨⟩
        exact ⟨x, hx, rfl⟩
      · intro b' hb'
        obtain ⟨rfl, hdigests⟩ := hdone b' hb'
        exact ⟨x, hx, hdigests, rfl⟩
      · exact fun digests hall => ⟨x, hx, hcompare digests hall⟩

/-- A party that takes part in a broadcast follows its course. -/
theorem course (hv : needsValidation n = true) (h : Attends i 0 (new message) a) :
    Course message a := by
  obtain ⟨visits, said, ending⟩ := a
  cases visits with
  | nil =>
    obtain ⟨rfl, rfl⟩ := h.of_nil
    exact ⟨nofun, nofun, nofun, fun digests hall => absurd (hall i).lt (by simp)⟩
  | cons visit visits =>
    obtain ⟨later, rfl, hlater⟩ := h.of_turn (turn_send (new message) visit.pool) rfl
    obtain ⟨hconfirms, hends, hcompares⟩ := attends_receive hv hlater
    refine ⟨?_, hconfirms, hends, hcompares⟩
    rintro gives ⟨⟩
    rfl

end Broadcast

/-! ## §2 Agreement -/

namespace Digest

/-- Two different byte strings with one digest. -/
def Collide (x y : Bytes) : Prop :=
  x ≠ y ∧ sha3 x = sha3 y

/-- Two lists of messages with lengths below `2 ^ 64` for whose digests different bytes are
hashed, unless they are equal. -/
structure TellsApart (messages messages' : List Bytes) : Prop where
  fits : ∀ x ∈ messages, x.length < Bytes.capacity 8
  fits' : ∀ x ∈ messages', x.length < Bytes.capacity 8
  distinct : ¬ Collide (framed messages) (framed messages')

theorem TellsApart.eq {messages messages' : List Bytes} (h : TellsApart messages messages')
    (hdigest : ofMessages messages = ofMessages messages') : messages = messages' := by
  by_contra hne
  refine h.distinct ⟨fun hframed => hne ?_, hdigest⟩
  exact framedFrom_inj h.fits h.fits' hframed

theorem TellsApart.eq_of_ofAll {messages messages' : Fin n → Bytes}
    (h : TellsApart (List.ofFn messages) (List.ofFn messages'))
    (hdigest : ofAll messages = ofAll messages') : messages = messages' :=
  List.ofFn_inj.mp (h.eq hdigest)

end Digest

/-- No two honest parties hash different messages of the given round to one digest. -/
def NoCollision {π : Type} (honest : Fin n → Prop) (a : Fin n → Attendance m n π) (k : Nat) :
    Prop :=
  ∀ i j x y, honest i → honest j → (a i).HearsAll k x → (a j).HearsAll k y →
    Digest.TellsApart (List.ofFn x) (List.ofFn y)

section
variable {honest : Fin n → Prop} {messages : Fin n → Bytes} {a : Fin n → Attendance m n Broadcast}
  {x y : Fin n → Bytes} {b b' : Broadcast}

/-- An honest party hears the messages of the honest parties. -/
theorem Company.hears_message (hv : needsValidation n = true)
    (company : Company honest 0 (fun i => Broadcast.new (messages i)) a) (hi : honest i)
    (hj : honest j) (hx : (a i).HearsAll 1 x) : x j = messages j := by
  obtain ⟨gives, hsaid, hequal⟩ := company.hears hi hj (hx j)
  exact hequal _ ((Broadcast.course hv (company.attends j hj)).sends gives hsaid)

/-- The digest heard from an honest party is that of what it has heard. -/
theorem Company.hears_digest (hv : needsValidation n = true)
    (company : Company honest 0 (fun i => Broadcast.new (messages i)) a) (hi : honest i)
    (hj : honest j) {digest : Bytes} (hdigest : (a i).Hears 2 j digest) :
    ∃ y, (a j).HearsAll 1 y ∧ digest = Digest.ofAll y := by
  obtain ⟨gives, hsaid, hequal⟩ := company.hears hi hj hdigest
  obtain ⟨y, hy, hgives⟩ := (Broadcast.course hv (company.attends j hj)).confirms gives hsaid
  exact ⟨y, hy, hequal _ hgives⟩

/-- Honest parties that end have heard the same. -/
theorem Company.received_eq (hv : needsValidation n = true)
    (company : Company honest 0 (fun i => Broadcast.new (messages i)) a)
    (hdigests : NoCollision honest a 1) (hi : honest i) (hj : honest j)
    (hb : (a i).ending = .done b) (hb' : (a j).ending = .done b') :
    b.received = b'.received := by
  obtain ⟨x, hx, hall, hreceived⟩ := (Broadcast.course hv (company.attends i hi)).ends b hb
  obtain ⟨y, hy, -, hreceived'⟩ := (Broadcast.course hv (company.attends j hj)).ends b' hb'
  obtain ⟨y', hy', hdigest⟩ := company.hears_digest hv hi hj (hall j)
  rw [hy'.unique hy] at hdigest
  rw [hreceived, hreceived', (hdigests i j x y hi hj hx hy).eq_of_ofAll hdigest]

/-- If two honest parties have been told different messages, no digest round of an honest party
succeeds. -/
theorem Company.fails_of_ne (hv : needsValidation n = true)
    (company : Company honest 0 (fun i => Broadcast.new (messages i)) a)
    (hdigests : NoCollision honest a 1) (hi : honest i) (hj : honest j) {s : Fin n}
    {told told' : Bytes} (htold : (a i).Hears 1 s told) (htold' : (a j).Hears 1 s told')
    (hne : told ≠ told') {k : Fin n} (hk : honest k) {digests : Fin n → Bytes}
    (hall : (a k).HearsAll 2 digests) :
    ∃ s, (a k).ending = .failed (.malicious (.digestMismatch s)) := by
  obtain ⟨z, -, hfails⟩ := (Broadcast.course hv (company.attends k hk)).compares digests hall
  refine hfails fun hequal => hne ?_
  obtain ⟨x, hx, hdigest⟩ := company.hears_digest hv hk hi (hall i)
  obtain ⟨y, hy, hdigest'⟩ := company.hears_digest hv hk hj (hall j)
  have hsame : Digest.ofAll x = Digest.ofAll y := by
    rw [← hdigest, ← hdigest', hequal]
  have hxy : x = y := (hdigests i j x y hi hj hx hy).eq_of_ofAll hsame
  rw [htold.unique (hx s), htold'.unique (hy s), hxy]

end

/-! ## §3 Inputs -/

namespace Input

variable {owner : Fin n} {p : Input m} {status : Status} {s : Input m × Participant m}
  {pool : Pool m} {party bytes : Nat} {outgoing queues : Fin n → Frame}
  {a : Attendance m n (Input m)}

/-- The mask is drawn, and the owner sends everybody the same message. -/
theorem evaluate_zero_eq_ok
    (h : evaluate 0 (p, ⟨pool, .ofPeers party outgoing queues bytes⟩) = .ok status s) :
    status = .more ∧ s.1.owner = p.owner
      ∧ (∃ mask pool', Pool.nextMask p.owner pool = .ok mask pool' ∧ s.1.mask = some mask)
      ∧ ∃ frame, s.2.mailbox = .ofPeers party (fun j => outgoing j ++ frame) queues bytes
        ∧ (pool.party = p.owner → ∃ y, frame = [y]) := by
  obtain ⟨q, w'⟩ := s
  cases branch h with
  | own draws =>
    exact ⟨rfl, rfl, ⟨_, _, draws, rfl⟩, _, Mailbox.withForAll_ofPeers _, fun _ => ⟨_, rfl⟩⟩
  | other draws owner =>
    refine ⟨rfl, rfl, ⟨_, _, draws, rfl⟩, [], by simp only [List.append_nil], fun hown => ?_⟩
    obtain ⟨_, -, rfl⟩ := Action.within_eq_ok.mp draws
    exact absurd hown owner

/-- The masked value is the owner's message, and its digest goes out. -/
theorem evaluate_one_eq_ok (hv : needsValidation pool.parties = true) (howner : p.owner = owner + 1)
    (h : evaluate 1 (p, ⟨pool, .ofPeers party outgoing queues bytes⟩) = .ok status s) :
    ∃ x rest masked, queues owner = x :: rest ∧ Element.ofBytes m x = .ok masked ∧ status = .more
      ∧ s = ({ p with masked := some masked, digest := Digest.ofMessages [x] },
        ⟨pool, .ofPeers party (fun j => outgoing j ++ [Digest.ofMessages [x]])
          (Function.update queues owner rest) bytes⟩) := by
  obtain ⟨q, w'⟩ := s
  cases branch h with
  | digest receives decodes =>
    rw [howner] at receives
    obtain ⟨rest, hqueue, rfl⟩ := Mailbox.receive_eq_ok receives
    exact ⟨_, rest, _, hqueue, decodes, rfl, by rw [Mailbox.withForAll_ofPeers]⟩
  | receive _ _ needs => cases hv.symm.trans needs

/-- An input ends when everybody has the same digest, by adding the masked value. -/
theorem evaluate_two_eq_ok
    (h : evaluate 2 (p, ⟨pool, .ofPeers party outgoing queues bytes⟩) = .ok status s) :
    ∃ (rest : Fin n → Frame) (mask : InputMask m) (masked : Element m),
      queues = (fun j => p.digest :: rest j) ∧ p.mask = some mask ∧ p.masked = some masked
      ∧ status = .done
      ∧ s.1.output = some (mask.mask.addPublic masked pool.keyShare pool.party) := by
  obtain ⟨_, _, hread, h'⟩ := Action.bind_eq_ok.mp h
  cases hread
  obtain ⟨_, _, hcompare, -⟩ := Action.bind_eq_ok.mp h'
  obtain ⟨rest, hqueues, -⟩ := Round.compareDigests_eq_ok hcompare
  obtain ⟨q, w'⟩ := s
  cases branch h with
  | compare receives agree drawn received =>
    exact ⟨rest, _, _, hqueues, drawn, received, rfl, rfl⟩

/-- The share in `p` is the mask that was drawn for party `owner` in the first round, with the
masked value added in the last one. -/
def Adds (owner : Nat) (a : Attendance m n (Input m)) (masked : Element m) (p : Input m) : Prop :=
  ∃ first last mask pool, a.visits.head? = some first ∧ a.visits.getLast? = some last
    ∧ Pool.nextMask owner first.pool = .ok mask pool
    ∧ p.output = some (mask.mask.addPublic masked last.pool.keyShare last.pool.party)

/-- What party `i + 1` does in an input whose masked value is compared. -/
structure Course (owner i : Fin n) (a : Attendance m n (Input m)) : Prop where
  sends : i = owner → ∀ gives, a.said[0]? = some gives → ∃ y, gives = fun _ => [y]
  confirms : ∀ gives, a.said[1]? = some gives →
    ∃ x, a.Hears 1 owner x ∧ gives = fun _ => [Digest.ofMessages [x]]
  ends : ∀ p, a.ending = .done p → ∃ x masked, a.Hears 1 owner x
    ∧ a.HearsAll 2 (fun _ => Digest.ofMessages [x]) ∧ Element.ofBytes m x = .ok masked
    ∧ Adds (owner + 1) a masked p
  compares : ∀ digests, a.HearsAll 2 digests → ∃ x, a.Hears 1 owner x
    ∧ (digests ≠ (fun _ => Digest.ofMessages [x]) →
      ∃ s, a.ending = .failed (.malicious (.digestMismatch s)))

/-- The round in which digests are compared. -/
theorem attends_compare (h : Attends i 2 p a) :
    (∀ p', a.ending = .done p' → (a.HearsAll 0 fun _ => p.digest)
        ∧ ∃ visit mask masked, a.visits = [visit] ∧ p.mask = some mask ∧ p.masked = some masked
          ∧ p'.output = some (mask.mask.addPublic masked visit.pool.keyShare visit.pool.party))
      ∧ ∀ digests, a.HearsAll 0 digests → digests ≠ (fun _ => p.digest) →
        ∃ s, a.ending = .failed (.malicious (.digestMismatch s)) := by
  constructor
  · intro p' hp'
    cases h with
    | pending => cases hp'
    | more at_ evaluates later =>
      obtain ⟨_, _, _, _, _, _, ⟨⟩, _⟩ := evaluate_two_eq_ok evaluates
    | failed at_ evaluates => cases hp'
    | @done _ _ _ visit outgoing bytes w at_ evaluates =>
      cases hp'
      obtain ⟨rest, mask, masked, hqueues, hmask, hmasked, -, hout⟩ := evaluate_two_eq_ok evaluates
      exact ⟨Attendance.hearsAll_of_queues rfl hqueues, visit, mask, masked, rfl, hmask, hmasked,
        hout⟩
  · intro digests hall hne
    obtain ⟨visits, said, ending⟩ := a
    cases visits with
    | nil => exact absurd (hall i).lt (by simp)
    | cons visit visits =>
      obtain ⟨rest, hqueues⟩ := Attendance.queues_of_hearsAll hall
      obtain ⟨s, hs⟩ := Round.compareDigests_of_mismatch hne
      refine ⟨s, h.of_error fun outgoing bytes => ?_⟩
      rw [Visit.participant, hqueues]
      obtain ⟨t, ht⟩ := hs p visit.pool (i + 1) outgoing rest bytes
      refine ⟨t, ?_⟩
      show evaluate 2 _ = _
      simp only [evaluate, Action.bind_apply, Round.protocol_apply, ht]

/-- The rounds after the mask is drawn. -/
theorem attends_receive (hv : needsValidation n = true) (howner : p.owner = owner + 1)
    (h : Attends i 1 p a) :
    (∀ gives, a.said[0]? = some gives →
        ∃ x, a.Hears 0 owner x ∧ gives = fun _ => [Digest.ofMessages [x]])
      ∧ (∀ p', a.ending = .done p' → ∃ x mask masked first last, a.Hears 0 owner x
        ∧ a.HearsAll 1 (fun _ => Digest.ofMessages [x]) ∧ Element.ofBytes m x = .ok masked
        ∧ a.visits = [first, last] ∧ p.mask = some mask
        ∧ p'.output = some (mask.mask.addPublic masked last.pool.keyShare last.pool.party))
      ∧ ∀ digests, a.HearsAll 1 digests → ∃ x, a.Hears 0 owner x
        ∧ (digests ≠ (fun _ => Digest.ofMessages [x]) →
          ∃ s, a.ending = .failed (.malicious (.digestMismatch s))) := by
  cases h with
  | pending => exact ⟨nofun, nofun, fun digests hall => absurd (hall i).lt (by simp)⟩
  | failed at_ evaluates =>
    exact ⟨nofun, nofun, fun digests hall => absurd (hall i).lt (by simp)⟩
  | @done _ _ _ visit outgoing bytes w at_ evaluates =>
    have hparties : needsValidation visit.pool.parties = true := by rw [at_.2, hv]
    obtain ⟨_, _, _, _, _, ⟨⟩, _⟩ := evaluate_one_eq_ok hparties howner evaluates
  | @more _ _ p₁ visit outgoing gives rest bytes _ _ visits said ending at_ evaluates later =>
    have hparties : needsValidation visit.pool.parties = true := by rw [at_.2, hv]
    obtain ⟨x, rest, masked, hqueue, hdecode, -, hstate⟩ :=
      evaluate_one_eq_ok hparties howner evaluates
    simp only [Prod.mk.injEq, Participant.mk.injEq, Mailbox.ofPeers, Mailbox.mk.injEq,
      List.ofFn_inj, true_and] at hstate
    obtain ⟨rfl, -, hgives, -⟩ := hstate
    have hsaid : gives = fun _ => [Digest.ofMessages [x]] :=
      funext fun j => List.append_cancel_left (congrFun hgives j)
    have hx : Attendance.Hears ⟨visit :: visits, gives :: said, ending⟩ 0 owner x :=
      ⟨visit, rest, rfl, hqueue⟩
    obtain ⟨hdone, hcompare⟩ := attends_compare later
    refine ⟨?_, ?_, fun digests hall => ⟨x, hx, hcompare digests hall⟩⟩
    · rintro _ ⟨⟩
      exact ⟨x, hx, hsaid⟩
    · intro p' hp'
      obtain ⟨hdigests, last, mask, masked', hvisits, hmask, hmasked, hout⟩ := hdone p' hp'
      cases hmasked
      exact ⟨x, mask, masked, visit, last, hx, hdigests, hdecode, by rw [← hvisits], hmask, hout⟩

/-- A party that takes part in an input follows its course. -/
theorem course (hv : needsValidation n = true) {value : Option (Element m)}
    (h : Attends i 0 (new (owner + 1) value) a) : Course owner i a := by
  cases h with
  | pending => exact ⟨nofun, nofun, nofun, fun digests hall => absurd (hall i).lt (by simp)⟩
  | failed at_ evaluates =>
    exact ⟨nofun, nofun, nofun, fun digests hall => absurd (hall i).lt (by simp)⟩
  | done at_ evaluates =>
    obtain ⟨⟨⟩, _⟩ := evaluate_zero_eq_ok evaluates
  | @more _ _ p₁ visit outgoing gives rest bytes _ _ visits said ending at_ evaluates later =>
    obtain ⟨-, howner, ⟨mask, pool, hdrawn, hmask⟩, frame, hbox, hown⟩ :=
      evaluate_zero_eq_ok evaluates
    simp only [Mailbox.ofPeers, Mailbox.mk.injEq, List.ofFn_inj, true_and] at hbox
    have hframe : gives = fun _ => frame :=
      funext fun j => List.append_cancel_left (congrFun hbox.1 j)
    obtain ⟨hconfirms, hends, hcompares⟩ := attends_receive hv howner later
    refine ⟨?_, hconfirms, fun p' hp' => ?_, hcompares⟩
    · rintro rfl _ ⟨⟩
      obtain ⟨y, rfl⟩ := hown at_.1
      exact ⟨y, hframe⟩
    · obtain ⟨x, mask', masked, first, last, hx, hdigests, hdecode, hvisits, hmask', hout⟩ :=
        hends p' hp'
      cases hmask.symm.trans hmask'
      refine ⟨x, masked, hx, hdigests, hdecode, visit, last, mask, pool, rfl, ?_, hdrawn, hout⟩
      rw [show visits = [first, last] from hvisits]
      rfl

end Input

/-- No two honest parties hash different messages of the owner to one digest. -/
def NoMaskCollision (honest : Fin n → Prop) (owner : Fin n) (a : Fin n → Attendance m n (Input m)) :
    Prop :=
  ∀ i j x y, honest i → honest j → (a i).Hears 1 owner x → (a j).Hears 1 owner y →
    Digest.TellsApart [x] [y]

section
variable {honest : Fin n → Prop} {owner : Fin n} {values : Fin n → Option (Element m)}
  {a : Fin n → Attendance m n (Input m)} {p p' : Input m} {x y : Bytes}

/-- An honest owner tells all honest parties the same. -/
theorem Company.mask_eq_of_owner (hv : needsValidation n = true)
    (company : Company honest 0 (fun i => Input.new (owner + 1) (values i)) a)
    (howner : honest owner) (hi : honest i) (hj : honest j) (hx : (a i).Hears 1 owner x)
    (hy : (a j).Hears 1 owner y) : x = y := by
  obtain ⟨gives, hsaid, hequal⟩ := company.hears hi howner hx
  obtain ⟨gives', hsaid', hequal'⟩ := company.hears hj howner hy
  cases hsaid.symm.trans hsaid'
  obtain ⟨z, hz⟩ := (Input.course hv (company.attends owner howner)).sends rfl gives hsaid
  rw [hequal z hz, hequal' z hz]

/-- The digest heard from an honest party is that of the message it has heard from the owner. -/
theorem Company.hears_mask_digest (hv : needsValidation n = true)
    (company : Company honest 0 (fun i => Input.new (owner + 1) (values i)) a) (hi : honest i)
    (hj : honest j) {digest : Bytes} (hdigest : (a i).Hears 2 j digest) :
    ∃ y, (a j).Hears 1 owner y ∧ digest = Digest.ofMessages [y] := by
  obtain ⟨gives, hsaid, hequal⟩ := company.hears hi hj hdigest
  obtain ⟨y, hy, hgives⟩ := (Input.course hv (company.attends j hj)).confirms gives hsaid
  exact ⟨y, hy, hequal _ hgives⟩

/-- Honest parties that end add the same masked value. -/
theorem Company.adds_eq (hv : needsValidation n = true)
    (company : Company honest 0 (fun i => Input.new (owner + 1) (values i)) a)
    (hdigests : NoMaskCollision honest owner a) (hi : honest i) (hj : honest j)
    (hp : (a i).ending = .done p) (hp' : (a j).ending = .done p') :
    ∃ x masked, (a i).Hears 1 owner x ∧ (a j).Hears 1 owner x ∧ Element.ofBytes m x = .ok masked
      ∧ Input.Adds (owner + 1) (a i) masked p ∧ Input.Adds (owner + 1) (a j) masked p' := by
  obtain ⟨x, masked, hx, hall, hdecode, hadds⟩ :=
    (Input.course hv (company.attends i hi)).ends p hp
  obtain ⟨y, masked', hy, -, hdecode', hadds'⟩ :=
    (Input.course hv (company.attends j hj)).ends p' hp'
  obtain ⟨y', hy', hdigest⟩ := company.hears_mask_digest hv hi hj (hall j)
  rw [hy'.unique hy] at hdigest
  have hxy : x = y := List.head_eq_of_cons_eq ((hdigests i j x y hi hj hx hy).eq hdigest)
  rw [← hxy, hdecode] at hdecode'
  cases hdecode'
  exact ⟨x, masked, hx, hxy ▸ hy, hdecode, hadds, hadds'⟩

/-- If two honest parties have been told different masked values, no digest round of an honest
party succeeds. -/
theorem Company.mask_fails_of_ne (hv : needsValidation n = true)
    (company : Company honest 0 (fun i => Input.new (owner + 1) (values i)) a)
    (hdigests : NoMaskCollision honest owner a) (hi : honest i) (hj : honest j)
    (htold : (a i).Hears 1 owner x) (htold' : (a j).Hears 1 owner y) (hne : x ≠ y) {k : Fin n}
    (hk : honest k) {digests : Fin n → Bytes} (hall : (a k).HearsAll 2 digests) :
    ∃ s, (a k).ending = .failed (.malicious (.digestMismatch s)) := by
  obtain ⟨z, -, hfails⟩ := (Input.course hv (company.attends k hk)).compares digests hall
  refine hfails fun hequal => hne ?_
  obtain ⟨x', hx, hdigest⟩ := company.hears_mask_digest hv hk hi (hall i)
  obtain ⟨y', hy, hdigest'⟩ := company.hears_mask_digest hv hk hj (hall j)
  have hsame : Digest.ofMessages [x'] = Digest.ofMessages [y'] := by
    rw [← hdigest, ← hdigest', hequal]
  have hxy := (hdigests i j x' y' hi hj hx hy).eq hsame
  rw [htold.unique hx, htold'.unique hy]
  exact List.head_eq_of_cons_eq hxy

end

/-! ## §4 Broadcasts and inputs -/

/-- Among three or more parties, whatever the others send: honest parties that end a broadcast
have the same messages, among them those of all honest parties, and honest parties that end an
input have added the same masked value. Once two honest parties have been told different things,
every honest party that gets everybody's digest finds out. -/
theorem broadcast_agrees (hn : 3 ≤ n) {honest : Fin n → Prop} {messages : Fin n → Bytes}
    {a : Fin n → Attendance m n Broadcast}
    (broadcasting : Company honest 0 (fun i => Broadcast.new (messages i)) a)
    (hdigests : NoCollision honest a 1) {owner : Fin n} {values : Fin n → Option (Element m)}
    {b : Fin n → Attendance m n (Input m)}
    (sharing : Company honest 0 (fun i => Input.new (owner + 1) (values i)) b)
    (hmasks : NoMaskCollision honest owner b) :
    (∃ received : Fin n → Bytes, (∀ j, honest j → received j = messages j)
      ∧ ∀ i p, honest i → (a i).ending = .done p →
        (Protocol.out m p).1 = some (List.ofFn received))
    ∧ (∀ i j k s told told' digests, honest i → honest j → honest k → (a i).Hears 1 s told →
      (a j).Hears 1 s told' → told ≠ told' → (a k).HearsAll 2 digests →
      ∃ s, (a k).ending = .failed (.malicious (.digestMismatch s)))
    ∧ (∀ i j p p', honest i → honest j → (b i).ending = .done p → (b j).ending = .done p' →
      ∃ x masked, (b i).Hears 1 owner x ∧ (b j).Hears 1 owner x ∧ Element.ofBytes m x = .ok masked
        ∧ Input.Adds (owner + 1) (b i) masked p ∧ Input.Adds (owner + 1) (b j) masked p')
    ∧ ∀ i j k told told' digests, honest i → honest j → honest k → (b i).Hears 1 owner told →
      (b j).Hears 1 owner told' → told ≠ told' → (b k).HearsAll 2 digests →
      ∃ s, (b k).ending = .failed (.malicious (.digestMismatch s)) := by
  have hv : needsValidation n = true := decide_eq_true hn
  refine ⟨?_, ?_, ?_, ?_⟩
  · by_cases hended : ∃ i p, honest i ∧ (a i).ending = .done p
    · obtain ⟨i, p, hi, hp⟩ := hended
      obtain ⟨x, hx, -, hreceived⟩ := (Broadcast.course hv (broadcasting.attends i hi)).ends p hp
      refine ⟨x, fun j hj => broadcasting.hears_message hv hi hj hx, fun j p' hj hp' => ?_⟩
      rw [← hreceived, broadcasting.received_eq hv hdigests hi hj hp hp']
      rfl
    · exact ⟨messages, fun j _ => rfl, fun i p hi hp => absurd ⟨i, p, hi, hp⟩ hended⟩
  · intro i j k s told told' digests hi hj hk htold htold' hne hall
    exact broadcasting.fails_of_ne hv hdigests hi hj htold htold' hne hk hall
  · intro i j p p' hi hj hp hp'
    exact sharing.adds_eq hv hmasks hi hj hp hp'
  · intro i j k told told' digests hi hj hk htold htold' hne hall
    exact sharing.mask_fails_of_ne hv hmasks hi hj htold htold' hne hk hall

/-- Every party takes part in a broadcast. -/
theorem Broadcast.begins {sound : Opening m n → Prop} {key : Fin n → Element m}
    {pools : Fin n → Pool m} (messages : Fin n → Bytes) :
    Begins sound key (fun b => ∀ i, (b i).received = some (List.ofFn messages))
      (fun i => Broadcast.new (messages i)) pools pools := by
  refine .more (fun _ => { message := none }) (fun i _ => [messages i])
    (List.replicate (confirmations n + 1) .none) (fun i => Broadcast.turn_send _ _)
    (Broadcast.unison messages _) ?_ ?_
  · rw [List.length_replicate, lastRound]
    have := confirmations_le n
    omega
  · intro effect heffect o ho
    obtain ⟨-, rfl⟩ := List.mem_replicate.mp heffect
    cases ho

/-- The pools of three parties with a mask of the first one. -/
def trioPool (i : Fin 3) : Pool .mersenne61 :=
  let key : Element .mersenne61 := 4
  let mask : AuthShare .mersenne61 := if i = 0 then ⟨2, 24⟩ else ⟨0, 0⟩
  { party := i + 1
    parties := 3
    keyShare := key
    supplier := .dealt ⟨⟨3, i + 1, key, [], [[mask], [], []], if i = 0 then [2] else []⟩⟩
    localGenerator := .ofPartySeed (Vector.replicate 32 (UInt8.ofNat i)) }

theorem table_trioPool : Table (fun _ => 4) [] trioPool :=
  ⟨fun _ => rfl, fun _ => rfl, fun _ => rfl, fun _ => rfl⟩

/-- Three parties begin an input of the first one. -/
theorem begins_trioPool :
    ∃ pools, Table (fun _ => 4) [] pools
      ∧ Begins (Sound fun _ => 4) (fun _ => 4)
        (fun p : Fin 3 → Input .mersenne61 => ∃ parts, Shared (fun _ => 4) parts 5
          ∧ ∀ i, (p i).output = some (parts i))
        (fun _ => .new ((0 : Fin 3) + 1) (some 5)) trioPool pools := by
  let mask (i : Fin 3) : InputMask .mersenne61 :=
    if i = 0 then ⟨some 2, ⟨2, 24⟩⟩ else ⟨none, ⟨0, 0⟩⟩
  let left (i : Fin 3) : Supplier .mersenne61 :=
    .dealt ⟨⟨3, i + 1, 4, [], [[], [], []], []⟩⟩
  have hnext : ∀ i, Supplier.nextMask 1 (trioPool i).supplier = .ok (mask i) (left i) := by
    intro i
    fin_cases i <;> rfl
  have hmask : Shared.Mask (fun _ => 4) 0 mask := by
    refine ⟨2, ⟨?_, ?_⟩, rfl⟩ <;> decide
  refine ⟨fun i => { trioPool i with supplier := left i },
    ⟨fun _ => rfl, fun _ => rfl, fun _ => rfl, fun _ => rfl⟩, ?_⟩
  exact @Input.begins _ 3 _ [] trioPool table_trioPool 0 _ 5 rfl mask hmask left hnext

/-- Among three parties of which two are honest. -/
theorem broadcast_agrees_trio :
    ∃ (a : Fin 3 → Attendance .mersenne61 3 Broadcast)
        (b : Fin 3 → Attendance .mersenne61 3 (Input _)) (received : Fin 3 → Bytes),
      Company (· ≠ 2) 0 (fun i => Broadcast.new [UInt8.ofNat i]) a
      ∧ Company (· ≠ 2) 0 (fun _ => Input.new ((0 : Fin 3) + 1) (some 5)) b
      ∧ received 0 = [0] ∧ received 1 = [1]
      ∧ ∃ p p', (a 0).ending = .done p ∧ (a 1).ending = .done p'
        ∧ (Protocol.out Modulus.mersenne61 p).1 = some (List.ofFn received)
        ∧ (Protocol.out Modulus.mersenne61 p').1 = some (List.ofFn received)
        ∧ ∃ q q' masked, (b 0).ending = .done q ∧ (b 1).ending = .done q'
          ∧ Input.Adds 1 (b 0) masked q ∧ Input.Adds 1 (b 1) masked q' := by
  let messages (i : Fin 3) : Bytes := [UInt8.ofNat i]
  have hbegins : Begins (Sound fun _ => 4) (fun _ => 4)
      (fun b : Fin 3 → Broadcast => ∀ i, (b i).received = some (List.ofFn messages))
      (fun i => Broadcast.new (messages i)) trioPool trioPool := Broadcast.begins messages
  obtain ⟨a, p, ha, hp, -⟩ := hbegins.company table_trioPool table_trioPool
  obtain ⟨pools, table, hinput⟩ := begins_trioPool
  obtain ⟨b, q, hb, hq, -⟩ := hinput.company table_trioPool table
  have hdigests : NoCollision (· ≠ 2) a 1 := by
    intro i j x y _ _ hx hy
    have hxm : x = messages := funext fun k => ha.hears_message rfl trivial trivial hx
    have hym : y = messages := funext fun k => ha.hears_message rfl trivial trivial hy
    have hfits : ∀ x ∈ List.ofFn messages, x.length < Bytes.capacity 8 := by decide
    rw [hxm, hym]
    exact ⟨hfits, hfits, fun hcollide => hcollide.1 rfl⟩
  have hmasks : NoMaskCollision (· ≠ 2) 0 b := by
    intro i j x y _ _ hx hy
    obtain ⟨x', masked, hx', -, hdecode, -⟩ :=
      (Input.course rfl (hb.attends i trivial)).ends _ (hq i)
    have hlength : x.length < Bytes.capacity 8 := by
      rw [hx.unique hx', Element.ofBytes_eq_ok_iff.mp hdecode]
      simp
      decide
    have hfits : ∀ z ∈ [x], z.length < Bytes.capacity 8 := by simpa using hlength
    rw [hb.mask_eq_of_owner rfl trivial trivial trivial hy hx]
    exact ⟨hfits, hfits, fun hcollide => hcollide.1 rfl⟩
  have hsome : ∀ i : Fin 3, i ≠ 2 → True := fun _ _ => trivial
  obtain ⟨⟨received, hhonest, hreceived⟩, -, hadds, -⟩ :=
    broadcast_agrees (by decide) (ha.mono hsome) hdigests (hb.mono hsome) hmasks
  obtain ⟨x, masked, -, -, -, hadds, hadds'⟩ :=
    hadds 0 1 (q 0) (q 1) (by decide) (by decide) (hq 0) (hq 1)
  exact ⟨a, b, received, ha.mono hsome, hb.mono hsome, hhonest 0 (by decide), hhonest 1 (by decide),
    p 0, p 1, hp 0, hp 1, hreceived 0 (p 0) (by decide) (hp 0),
    hreceived 1 (p 1) (by decide) (hp 1), q 0, q 1, masked, hq 0, hq 1, hadds, hadds'⟩

end JointCircuit
