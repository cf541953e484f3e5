/-
JointCircuit.Proofs.Rushing — a coin toss against rushing peers.

A party tosses a coin against a strategy of its peers. §1 and §2 say what
its rounds make of the messages that it hears, §3 puts them together. By
§4 the toss ends with a seed exactly when every peer has opened what it had
committed to, and the seed is the exclusive or of what was opened.

Main statement: `yields_toss`.
-/
import JointCircuit.Proofs.Against
import JointCircuit.Proofs.Entries

namespace JointCircuit

open Evaluator Round

variable {m : Modulus} {n : Nat} {π ρ : Type} {σ : Strategy n} {h : Fin n}
  {sent sent' : List (List Frame)} {e : Evaluator m} {pool : Pool m}

/-! ## §1 Broadcasts -/

/-- Digests are compared successfully only if everybody has sent the own one. -/
theorem Round.compareDigests_eq_ok {digest : Bytes} {p : π} {party bytes : Nat}
    {outgoing incoming : Fin n → Frame} {u : Unit} {s : π × Participant m}
    (h : compareDigests digest (p, ⟨pool, .ofPeers party outgoing incoming bytes⟩) = .ok u s) :
    ∃ rest : Fin n → Frame, incoming = (fun j => digest :: rest j)
      ∧ s = (p, ⟨pool, .ofPeers party outgoing rest bytes⟩) := by
  obtain ⟨p', w'⟩ := s
  obtain ⟨rfl, digests, box, hbox, hfind, rfl⟩ := agree_of_compareDigests h
  obtain ⟨messages, rest, hincoming, rfl, rfl⟩ := Mailbox.receiveFromAll_eq_ok hbox
  rw [List.findIdx?_eq_none_iff] at hfind
  have hall : ∀ j, messages j = digest := by
    intro j
    simpa using hfind (messages j) (List.mem_ofFn.mpr ⟨j, rfl⟩)
  refine ⟨rest, funext fun j => ?_, rfl⟩
  rw [hincoming j, hall j]

/-- What a party hands out in an exchange in which it sends one message to everybody. -/
def announce (h : Fin n) (message : Bytes) : List Frame :=
  framesOf h fun _ => [message]

/-- Party `h + 1` has broadcast a message, the last one in `sent`, and has heard these messages.
With three or more parties they have confirmed them. -/
def Strategy.Broadcasts (σ : Strategy n) (h : Fin n) (sent : List (List Frame)) (message : Bytes)
    (messages : Fin n → Bytes) (sent' : List (List Frame)) : Prop :=
  σ.heard h sent [message] = (fun j => [messages j])
    ∧ if needsValidation n then
        sent' = sent ++ [announce h (Digest.ofMessages (List.ofFn messages))]
        ∧ σ.heard h sent' [Digest.ofMessages (List.ofFn messages)]
          = fun _ => [Digest.ofMessages (List.ofFn messages)]
      else sent' = sent

namespace Broadcast

theorem hearing_receive (hv : needsValidation pool.parties = false) (b : Broadcast) :
    Hearing (n := n) (evaluate 1) b pool fun messages =>
      some (.done, { b with received := some (List.ofFn messages) }, []) where
  needs party outgoing incoming bytes status s hround := by
    obtain ⟨received, _, hreceive, -⟩ := Action.bind_eq_ok.mp hround
    obtain ⟨box, hbox, -⟩ := mailbox_eq_ok.mp hreceive
    obtain ⟨messages, rest, hincoming, -⟩ := Mailbox.receiveFromAll_eq_ok hbox
    exact ⟨messages, rest, funext hincoming, nofun⟩
  turn messages status p' gives hanswer := by
    cases hanswer
    exact turn_receive hv b messages

theorem hearing_digest (hv : needsValidation pool.parties = true) (b : Broadcast) :
    Hearing (n := n) (evaluate 1) b pool fun messages =>
      let digest := Digest.ofMessages (List.ofFn messages)
      some (.more, { b with digest, received := some (List.ofFn messages) }, [digest]) where
  needs party outgoing incoming bytes status s hround := by
    obtain ⟨received, _, hreceive, -⟩ := Action.bind_eq_ok.mp hround
    obtain ⟨box, hbox, -⟩ := mailbox_eq_ok.mp hreceive
    obtain ⟨messages, rest, hincoming, -⟩ := Mailbox.receiveFromAll_eq_ok hbox
    exact ⟨messages, rest, funext hincoming, nofun⟩
  turn messages status p' gives hanswer := by
    cases hanswer
    exact turn_digest hv b messages

/-- All digests have to be the own one. -/
theorem hearing_compare (round : Nat) (b : Broadcast) :
    Hearing (n := n) (evaluate (round + 2)) b pool fun messages =>
      if messages = (fun _ => b.digest) then some (.done, b, []) else none where
  needs party outgoing incoming bytes status s hround := by
    obtain ⟨_, _, hread, hround⟩ := Action.bind_eq_ok.mp hround
    cases hread
    obtain ⟨_, _, hcompare, -⟩ := Action.bind_eq_ok.mp hround
    obtain ⟨rest, hincoming, -⟩ := compareDigests_eq_ok hcompare
    refine ⟨fun _ => b.digest, rest, hincoming, ?_⟩
    rw [if_pos rfl]
    nofun
  turn messages status p' gives hanswer := by
    split at hanswer
    · rename_i hall
      cases hanswer
      subst hall
      exact turn_compare round b pool
    · cases hanswer

end Broadcast

/-! ## §2 Rounds of a toss -/

variable {round elapsed : Nat} {c c' : Commit} {b : Broadcast} {w : Participant m} {status : Status}

/-- A round in which commitments are broadcast, if it does not fail. -/
theorem Commit.evaluate_of_commitments {s : Commit × Participant m}
    (hphase : c.phase = .commitments b) (hround : evaluate round (c, w) = .ok status s) :
    ∃ st b' w', Broadcast.evaluate (roundsSince c.phaseStart round) (b, w) = .ok st (b', w')
      ∧ (st = .done → ∀ x ∈ b'.received.getD [], x.length = digestLength) := by
  obtain ⟨c', w'⟩ := s
  cases branch hround with
  | commitments phase part =>
    obtain rfl := Phase.commitments.inj (hphase.symm.trans phase)
    exact ⟨_, _, _, part, nofun⟩
  | committed phase part lengths =>
    obtain rfl := Phase.commitments.inj (hphase.symm.trans phase)
    exact ⟨_, _, _, part, fun _ => lengths⟩
  | begin phase | openings phase | opened phase => cases hphase.symm.trans phase

/-- A round in which openings are broadcast, if it does not fail. -/
theorem Commit.evaluate_of_openings {s : Commit × Participant m}
    (hphase : c.phase = .openings b) (hround : evaluate round (c, w) = .ok status s) :
    ∃ st b' w', Broadcast.evaluate (roundsSince c.phaseStart round) (b, w) = .ok st (b', w')
      ∧ (st = .done → ∃ values, verifyFrom 1 ((b'.received.getD []).zip c.commitments) = .ok values
        ∧ status = .done ∧ s.1.output = some values) := by
  obtain ⟨c', w'⟩ := s
  cases branch hround with
  | openings phase part =>
    obtain rfl := Phase.openings.inj (hphase.symm.trans phase)
    exact ⟨_, _, _, part, nofun⟩
  | opened phase part verifies =>
    obtain rfl := Phase.openings.inj (hphase.symm.trans phase)
    exact ⟨_, _, _, part, fun _ => ⟨_, verifies, rfl, rfl⟩⟩
  | begin phase | commitments phase | committed phase => cases hphase.symm.trans phase

/-- A round of a toss that has begun, if it does not fail. -/
theorem CoinToss.evaluate_of_commit {s : CoinToss × Participant m}
    (hround : evaluate round ({ commit := some c }, w) = .ok status s) :
    ∃ st c' w', Commit.evaluate round (c, w) = .ok st (c', w')
      ∧ (st = .done → ∃ joint, combine (c'.output.getD []) = .ok joint) := by
  obtain ⟨t', w'⟩ := s
  cases branch rfl hround with
  | commit part => exact ⟨_, _, _, part, nofun⟩
  | combine part combines => exact ⟨_, _, _, part, fun _ => ⟨_, combines⟩⟩

/-- What a protocol makes of a round of a broadcast that is part of it: `place` puts the broadcast
back, `finish` goes on with the messages. -/
def wrapAnswer (place : Broadcast → π) (finish : List Bytes → Option (Status × π × Frame)) :
    Option (Status × Broadcast × Frame) → Option (Status × π × Frame)
  | none => none
  | some (.more, b, gives) => some (.more, place b, gives)
  | some (.done, b, _) => finish (b.received.getD [])

/-- A round of a broadcast that is done gives nothing and has the messages. -/
def Settles (answer : (Fin n → Bytes) → Option (Status × Broadcast × Frame)) : Prop :=
  ∀ messages b gives, answer messages = some (.done, b, gives) → gives = [] ∧ b.received ≠ none

namespace Commit

/-- When the commitments are in, the own opening goes out. -/
def finishCommitments (c : Commit) (round : Nat) (received : List Bytes) :
    Option (Status × Commit × Frame) :=
  if ∀ x ∈ received, x.length = digestLength then
    some (.more, { c with
      opening := []
      phase := .openings { message := none }
      phaseStart := round
      commitments := received }, [c.opening])
  else none

/-- When the openings are in, they have to fit the commitments. -/
def finishOpenings (c : Commit) (received : List Bytes) : Option (Status × Commit × Frame) :=
  match verifyFrom 1 (received.zip c.commitments) with
  | .error _ => none
  | .ok values => some (.done, { c with phase := .finished, output := some values }, [])

theorem hearing_commitments {answer : (Fin n → Bytes) → Option (Status × Broadcast × Frame)}
    (hphase : c.phase = .commitments b) (helapsed : roundsSince c.phaseStart round = elapsed)
    (hearing : Hearing (Broadcast.evaluate elapsed) b pool answer)
    (settles : Settles answer) :
    Hearing (evaluate round) c pool fun messages =>
      wrapAnswer (fun b => { c with phase := .commitments b }) (finishCommitments c round)
        (answer messages) where
  needs party outgoing incoming bytes status s hround := by
    obtain ⟨st', b', w'', hbroadcast, hdone⟩ := evaluate_of_commitments hphase hround
    rw [helapsed] at hbroadcast
    obtain ⟨messages, rest, rfl, hsome⟩ := hearing.needs _ _ _ _ _ _ hbroadcast
    obtain ⟨⟨st₁, b₁, gives⟩, hanswer⟩ := Option.ne_none_iff_exists'.mp hsome
    cases hbroadcast.symm.trans (hearing.turn _ _ _ _ hanswer party outgoing rest bytes)
    refine ⟨messages, rest, rfl, ?_⟩
    rw [hanswer]
    cases st' with
    | more => nofun
    | done =>
      rw [wrapAnswer, finishCommitments, if_pos (hdone rfl)]
      nofun
  turn messages status p' gives hanswer := by
    cases hbroadcast : answer messages with
    | none =>
      rw [hbroadcast] at hanswer
      cases hanswer
    | some triple =>
      obtain ⟨st, b', gives'⟩ := triple
      have hturn := hearing.turn _ _ _ _ hbroadcast
      rw [hbroadcast] at hanswer
      cases st with
      | more =>
        cases hanswer
        exact turn_commitments hphase helapsed hturn
      | done =>
        obtain ⟨rfl, hreceived⟩ := settles _ _ _ hbroadcast
        obtain ⟨received, hreceived⟩ := Option.ne_none_iff_exists'.mp hreceived
        rw [wrapAnswer, finishCommitments, hreceived, Option.getD_some] at hanswer
        split at hanswer
        · rename_i hlength
          cases hanswer
          exact turn_open hphase helapsed hlength hreceived hturn
        · cases hanswer

theorem hearing_openings {answer : (Fin n → Bytes) → Option (Status × Broadcast × Frame)}
    (hphase : c.phase = .openings b) (helapsed : roundsSince c.phaseStart round = elapsed)
    (hearing : Hearing (Broadcast.evaluate elapsed) b pool answer)
    (settles : Settles answer) :
    Hearing (evaluate round) c pool fun messages =>
      wrapAnswer (fun b => { c with phase := .openings b }) (finishOpenings c)
        (answer messages) where
  needs party outgoing incoming bytes status s hround := by
    obtain ⟨st', b', w'', hbroadcast, hdone⟩ := evaluate_of_openings hphase hround
    rw [helapsed] at hbroadcast
    obtain ⟨messages, rest, rfl, hsome⟩ := hearing.needs _ _ _ _ _ _ hbroadcast
    obtain ⟨⟨st₁, b₁, gives⟩, hanswer⟩ := Option.ne_none_iff_exists'.mp hsome
    cases hbroadcast.symm.trans (hearing.turn _ _ _ _ hanswer party outgoing rest bytes)
    refine ⟨messages, rest, rfl, ?_⟩
    rw [hanswer]
    cases st' with
    | more => nofun
    | done =>
      obtain ⟨values, hverify, -, -⟩ := hdone rfl
      simp only [wrapAnswer, finishOpenings, hverify]
      nofun
  turn messages status p' gives hanswer := by
    cases hbroadcast : answer messages with
    | none =>
      rw [hbroadcast] at hanswer
      cases hanswer
    | some triple =>
      obtain ⟨st, b', gives'⟩ := triple
      have hturn := hearing.turn _ _ _ _ hbroadcast
      rw [hbroadcast] at hanswer
      cases st with
      | more =>
        cases hanswer
        exact turn_openings hphase helapsed hturn
      | done =>
        obtain ⟨rfl, hreceived⟩ := settles _ _ _ hbroadcast
        obtain ⟨received, hreceived⟩ := Option.ne_none_iff_exists'.mp hreceived
        rw [wrapAnswer, finishOpenings, hreceived, Option.getD_some] at hanswer
        split at hanswer
        · cases hanswer
        · rename_i values hverify
          cases hanswer
          exact turn_verify hphase helapsed hreceived hverify hturn

end Commit

namespace CoinToss

/-- What a toss makes of a round of its commitment. -/
def wrapCommit : Option (Status × Commit × Frame) → Option (Status × CoinToss × Frame)
  | none => none
  | some (.more, c, gives) => some (.more, { commit := some c }, gives)
  | some (.done, c, gives) =>
    match combine (c.output.getD []) with
    | .error _ => none
    | .ok joint =>
      some (.done, { commit := some { c with output := none }, output := some joint }, gives)

/-- A round of a toss is one of its commitment, if that sends nothing when it has its values. -/
theorem hearing_of_commit {answer : (Fin n → Bytes) → Option (Status × Commit × Frame)}
    (hearing : Hearing (Commit.evaluate round) c pool answer)
    (settles : ∀ messages c' gives, answer messages = some (.done, c', gives) →
      gives = [] ∧ c'.output ≠ none) :
    Hearing (evaluate round) { commit := some c } pool fun messages =>
      wrapCommit (answer messages) where
  needs party outgoing incoming bytes status s hround := by
    obtain ⟨st, c', w', hcommit, hcombine⟩ := evaluate_of_commit hround
    obtain ⟨messages, rest, rfl, hsome⟩ := hearing.needs _ _ _ _ _ _ hcommit
    obtain ⟨⟨st₁, c₁, gives⟩, hanswer⟩ := Option.ne_none_iff_exists'.mp hsome
    cases hcommit.symm.trans (hearing.turn _ _ _ _ hanswer party outgoing rest bytes)
    refine ⟨messages, rest, rfl, ?_⟩
    rw [hanswer]
    cases st with
    | more => nofun
    | done =>
      obtain ⟨joint, hjoint⟩ := hcombine rfl
      simp only [wrapCommit, hjoint]
      nofun
  turn messages status p' gives hanswer := by
    cases hcommit : answer messages with
    | none =>
      rw [hcommit] at hanswer
      cases hanswer
    | some triple =>
      obtain ⟨st, c', gives'⟩ := triple
      have hturn := hearing.turn _ _ _ _ hcommit
      rw [hcommit] at hanswer
      cases st with
      | more =>
        cases hanswer
        exact turn_commit rfl hturn
      | done =>
        obtain ⟨rfl, houtput⟩ := settles _ _ _ hcommit
        obtain ⟨values, houtput⟩ := Option.ne_none_iff_exists'.mp houtput
        rw [wrapCommit, houtput, Option.getD_some] at hanswer
        split at hanswer
        · cases hanswer
        · rename_i joint hjoint
          cases hanswer
          exact turn_combine rfl houtput hjoint hturn

/-- When the commitments are in, the own opening goes out. -/
def finishCommitments (c : Commit) (round : Nat) (received : List Bytes) :
    Option (Status × CoinToss × Frame) :=
  if ∀ x ∈ received, x.length = digestLength then
    some (.more, { commit := some { c with
      opening := []
      phase := .openings { message := none }
      phaseStart := round
      commitments := received } }, [c.opening])
  else none

/-- When the openings are in, they have to fit the commitments and to be openings of seeds. -/
def finishOpenings (c : Commit) (received : List Bytes) : Option (Status × CoinToss × Frame) :=
  match Commit.verifyFrom 1 (received.zip c.commitments) with
  | .error _ => none
  | .ok values =>
    match combine values with
    | .error _ => none
    | .ok joint =>
      some (.done,
        { commit := some { c with phase := .finished, output := none }
          output := some joint }, [])

theorem hearing_commitments {answer : (Fin n → Bytes) → Option (Status × Broadcast × Frame)}
    (hphase : c.phase = .commitments b) (helapsed : roundsSince c.phaseStart round = elapsed)
    (hearing : Hearing (Broadcast.evaluate elapsed) b pool answer)
    (settles : Settles answer) :
    Hearing (evaluate round) { commit := some c } pool fun messages =>
      wrapAnswer (fun b => { commit := some { c with phase := .commitments b } })
        (finishCommitments c round) (answer messages) := by
  have hanswer : ∀ x : Option (Status × Broadcast × Frame),
      wrapCommit (wrapAnswer (fun b => { c with phase := .commitments b })
          (c.finishCommitments round) x)
        = wrapAnswer (fun b => { commit := some { c with phase := .commitments b } })
          (finishCommitments c round) x := by
    rintro (_ | ⟨_ | _, b', gives⟩)
    · rfl
    · rfl
    · simp only [wrapAnswer, Commit.finishCommitments, finishCommitments]
      split <;> rfl
  have hcommit := Commit.hearing_commitments hphase helapsed hearing settles
  have htoss := hearing_of_commit hcommit fun messages c' gives hdone => by
    rcases h : answer messages with _ | ⟨_ | _, b', gives'⟩ <;> rw [h] at hdone
    · cases hdone
    · cases hdone
    · simp only [wrapAnswer, Commit.finishCommitments] at hdone
      split at hdone <;> cases hdone
  simpa only [hanswer] using htoss

theorem hearing_openings {answer : (Fin n → Bytes) → Option (Status × Broadcast × Frame)}
    (hphase : c.phase = .openings b) (helapsed : roundsSince c.phaseStart round = elapsed)
    (hearing : Hearing (Broadcast.evaluate elapsed) b pool answer)
    (settles : Settles answer) :
    Hearing (evaluate round) { commit := some c } pool fun messages =>
      wrapAnswer (fun b => { commit := some { c with phase := .openings b } })
        (finishOpenings c) (answer messages) := by
  have hanswer : ∀ x : Option (Status × Broadcast × Frame),
      wrapCommit (wrapAnswer (fun b => { c with phase := .openings b }) c.finishOpenings x)
        = wrapAnswer (fun b => { commit := some { c with phase := .openings b } })
          (finishOpenings c) x := by
    rintro (_ | ⟨_ | _, b', gives⟩)
    · rfl
    · rfl
    · simp only [wrapAnswer, Commit.finishOpenings, finishOpenings]
      split <;> rfl
  have hcommit := Commit.hearing_openings hphase helapsed hearing settles
  have htoss := hearing_of_commit hcommit fun messages c' gives hdone => by
    rcases h : answer messages with _ | ⟨_ | _, b', gives'⟩ <;> rw [h] at hdone
    · cases hdone
    · cases hdone
    · simp only [wrapAnswer, Commit.finishOpenings] at hdone
      split at hdone
      · cases hdone
      · cases hdone
        exact ⟨rfl, nofun⟩
  simpa only [hanswer] using htoss

end CoinToss

/-! ## §3 A whole toss -/

section

variable [Protocol m π ρ] {place : Broadcast → π}
  {finish : Nat → List Bytes → Option (Status × π × Frame)} {start budget : Nat} {v : ρ}
  (hplace : ∀ elapsed b (answer : (Fin n → Bytes) → Option (Status × Broadcast × Frame)),
    Hearing (Broadcast.evaluate elapsed) b pool answer → Settles answer →
    Hearing (Protocol.evaluate (start + elapsed)) (place b) pool fun messages =>
      wrapAnswer place (finish (start + elapsed)) (answer messages))

include hplace

/-- The round in which the digests are compared: all of them have to be the own one, and the run
goes on with the messages. -/
theorem yields_compare {digest : Bytes} {messages : Fin n → Bytes}
    (seat : e.At h pool (fun _ => []) (σ.heard h sent [digest])) {next : π → Frame → Prop}
    (hnext : ∀ p' gives, finish (start + 2) (List.ofFn messages) = some (.more, p', gives) →
      ∀ e' : Evaluator m, e'.At h pool (fun _ => [])
        (σ.heard h (sent ++ [framesOf h fun _ => gives]) gives) →
      (Yields σ h (sent ++ [framesOf h fun _ => gives]) (remaining budget (start + 2 + 1) p') e' v
        ↔ next p' gives)) :
    Yields σ h sent (remaining (budget + 1) (start + 2)
        (place { message := none, digest, received := some (List.ofFn messages) })) e v
      ↔ σ.heard h sent [digest] = (fun _ => [digest])
        ∧ Leading m v next (finish (start + 2) (List.ofFn messages)) := by
  let b : Broadcast := { message := none, digest, received := some (List.ofFn messages) }
  have hearing := hplace 2 b _ (Broadcast.hearing_compare 0 b) (by
    intro digests b' gives hanswer
    dsimp only at hanswer
    split at hanswer
    · cases hanswer
      exact ⟨rfl, Option.some_ne_none _⟩
    · cases hanswer)
  refine Iff.trans (@yields_round m n π ρ σ h sent e pool _ v _ budget (start + 2) _ _ hearing seat
    (fun _ => next) fun digests p' gives hanswer e' seat' => ?_) ?_
  · by_cases hall : digests = fun _ => digest
    · simp only [b, hall, if_true, wrapAnswer] at hanswer
      exact hnext p' gives hanswer e' seat'
    · simp only [b, hall, if_false, wrapAnswer] at hanswer
      cases hanswer
  constructor
  · rintro ⟨digests, hheard, hleading⟩
    by_cases hall : digests = fun _ => digest
    · subst hall
      simp only [b, if_true, wrapAnswer] at hleading
      exact ⟨hheard, hleading⟩
    · simp only [b, hall, if_false, wrapAnswer] at hleading
      exact hleading.elim
  · rintro ⟨hheard, hleading⟩
    refine ⟨fun _ => digest, hheard, ?_⟩
    simp only [b, if_true, wrapAnswer]
    exact hleading

/-- What a run yields while a broadcast is part of it: the messages heard have to be confirmed, and
the run goes on with them. -/
theorem yields_broadcast (hparties : pool.parties = n) {message : Bytes}
    (seat : e.At h pool (fun _ => []) (σ.heard h sent [message]))
    {next : List (List Frame) → (Fin n → Bytes) → π → Frame → Prop}
    (hnext : ∀ sent' (messages : Fin n → Bytes) p' gives,
      finish (start + (1 + confirmations n)) (List.ofFn messages) = some (.more, p', gives) →
      ∀ e' : Evaluator m, e'.At h pool (fun _ => [])
        (σ.heard h (sent' ++ [framesOf h fun _ => gives]) gives) →
      (Yields σ h (sent' ++ [framesOf h fun _ => gives])
        (remaining budget (start + (1 + confirmations n) + 1) p') e' v
        ↔ next sent' messages p' gives)) :
    Yields σ h sent (remaining (budget + (1 + confirmations n)) (start + 1)
        (place { message := none })) e v
      ↔ ∃ messages sent', σ.Broadcasts h sent message messages sent'
        ∧ Leading m v (next sent' messages)
          (finish (start + (1 + confirmations n)) (List.ofFn messages)) := by
  cases hv : needsValidation n with
  | false =>
    have hcount : confirmations n = 0 := by simp [confirmations, hv]
    simp only [hcount, Nat.add_zero] at hnext ⊢
    have hearing := hplace 1 { message := none } _
      (Broadcast.hearing_receive (by rw [hparties, hv]) _)
      (by intro messages b gives hanswer; cases hanswer; exact ⟨rfl, Option.some_ne_none _⟩)
    rw [yields_round hearing seat fun messages p' gives => hnext sent messages p' gives]
    simp only [Strategy.Broadcasts, hv, Bool.false_eq_true, if_false]
    constructor
    · rintro ⟨messages, hheard, hleading⟩
      exact ⟨messages, sent, ⟨hheard, rfl⟩, hleading⟩
    · rintro ⟨messages, sent', ⟨hheard, rfl⟩, hleading⟩
      exact ⟨messages, hheard, hleading⟩
  | true =>
    have hcount : confirmations n = 1 := by simp [confirmations, hv]
    simp only [hcount] at hnext ⊢
    have hearing := hplace 1 { message := none } _
      (Broadcast.hearing_digest (by rw [hparties, hv]) _)
      (by intro messages b gives hanswer; cases hanswer)
    let digest (messages : Fin n → Bytes) := Digest.ofMessages (List.ofFn messages)
    rw [← Nat.add_assoc budget 1 1,
      @yields_round m n π ρ σ h sent e pool _ v _ _ _ _ _ hearing seat fun messages _ _ =>
        σ.heard h (sent ++ [announce h (digest messages)]) [digest messages]
            = (fun _ => [digest messages])
          ∧ Leading m v (next (sent ++ [announce h (digest messages)]) messages)
            (finish (start + (1 + 1)) (List.ofFn messages))]
    · simp only [wrapAnswer, Leading, Strategy.Broadcasts, hv, if_true]
      constructor
      · rintro ⟨messages, hheard, hconfirmed, hleading⟩
        exact ⟨messages, _, ⟨hheard, rfl, hconfirmed⟩, hleading⟩
      · rintro ⟨messages, sent', ⟨hheard, rfl, hconfirmed⟩, hleading⟩
        exact ⟨messages, hheard, hconfirmed, hleading⟩
    · intro messages p' gives hanswer e' seat'
      cases hanswer
      exact yields_compare hplace seat' (hnext (sent ++ [announce h (digest messages)]) messages)

end

namespace CoinToss

theorem leading_finishCommitments {v : Seed} {next : CoinToss → Frame → Prop}
    {received : List Bytes} :
    Leading m v next (finishCommitments c round received)
      ↔ (∀ x ∈ received, x.length = digestLength)
        ∧ next { commit := some { c with
            opening := []
            phase := .openings { message := none }
            phaseStart := round
            commitments := received } } [c.opening] := by
  unfold finishCommitments
  split
  · rename_i hlength
    exact (and_iff_right hlength).symm
  · rename_i hlength
    exact iff_of_false id fun hboth => hlength hboth.1

theorem leading_finishOpenings {v : Seed} {next : CoinToss → Frame → Prop} {received : List Bytes} :
    Leading m v next (finishOpenings c received)
      ↔ ∃ values, Commit.verifyFrom 1 (received.zip c.commitments) = .ok values
        ∧ combine values = .ok v := by
  unfold finishOpenings
  split
  · rename_i hverify
    rw [hverify]
    exact iff_of_false id fun ⟨_, hvalues, _⟩ => by cases hvalues
  · rename_i values hverify
    rw [hverify]
    split
    · rename_i hjoint
      refine iff_of_false id fun ⟨_, hvalues, hcombine⟩ => ?_
      cases hvalues
      cases hjoint.symm.trans hcombine
    · rename_i joint hjoint
      constructor
      · rintro ⟨-, hout⟩
        cases hout
        exact ⟨values, rfl, hjoint⟩
      · rintro ⟨_, hvalues, hcombine⟩
        cases hvalues
        cases hjoint.symm.trans hcombine
        exact ⟨rfl, rfl⟩

end CoinToss

/-! ## §4 What a toss ends with -/

theorem Commit.openingValue?_eq_some {opening commitment value : Bytes}
    (h : openingValue? opening commitment = some value) :
    ∃ randomness, randomness.length = randomnessLength ∧ opening = value ++ randomness
      ∧ commitment = Digest.commitment (value ++ randomness) := by
  unfold openingValue? at h
  split at h
  · rename_i hfits
    obtain ⟨hlength, rfl⟩ := hfits
    cases h
    refine ⟨opening.drop (opening.length - randomnessLength), ?_, ?_, ?_⟩
    · rw [List.length_drop]
      omega
    · rw [List.take_append_drop]
    · rw [List.take_append_drop]
  · cases h

/-- Values are made out only of openings that fit their commitments. -/
theorem Commit.verifyFrom_eq_ok {party : Nat} {pairs : List (Bytes × Bytes)} {values : List Bytes}
    (h : verifyFrom party pairs = .ok values) :
    ∃ openings : List (Bytes × Bytes), (∀ o ∈ openings, o.2.length = randomnessLength)
      ∧ pairs = openings.map (fun o => (o.1 ++ o.2, Digest.commitment (o.1 ++ o.2)))
      ∧ values = openings.map (·.1) := by
  induction pairs generalizing party values with
  | nil =>
    cases h
    exact ⟨[], by simp, rfl, rfl⟩
  | cons pair pairs ih =>
    obtain ⟨opening, commitment⟩ := pair
    rw [verifyFrom] at h
    cases hvalue : openingValue? opening commitment with
    | none =>
      simp only [hvalue] at h
      cases h
    | some value =>
      simp only [hvalue] at h
      cases hrest : verifyFrom (party + 1) pairs with
      | error misbehaviour =>
        rw [hrest] at h
        cases h
      | ok rest =>
        rw [hrest] at h
        cases h
        obtain ⟨randomness, hlength, rfl, rfl⟩ := openingValue?_eq_some hvalue
        obtain ⟨openings, hlengths, rfl, rfl⟩ := ih hrest
        refine ⟨(value, randomness) :: openings, ?_, rfl, rfl⟩
        intro o ho
        rcases List.mem_cons.mp ho with rfl | ho
        · exact hlength
        · exact hlengths o ho

theorem CoinToss.combineFrom_eq_ok {party : Nat} {joint v : Seed} {values : List Bytes}
    (h : combineFrom party joint values = .ok v) :
    ∃ seeds : List Seed, values = seeds.map (·.toList) ∧ v = seeds.foldl Seed.xor joint := by
  induction values generalizing party joint with
  | nil =>
    cases h
    exact ⟨[], rfl, rfl⟩
  | cons bytes values ih =>
    rw [combineFrom] at h
    cases hseed : Seed.ofBytes? bytes with
    | none =>
      simp only [hseed] at h
      cases h
    | some seed =>
      simp only [hseed] at h
      obtain ⟨seeds, rfl, rfl⟩ := ih h
      have hbytes : bytes = seed.toList := by
        unfold Seed.ofBytes? at hseed
        split at hseed
        · cases hseed
          rfl
        · cases hseed
      exact ⟨seed :: seeds, by rw [hbytes, List.map_cons], rfl⟩

theorem exists_eq_ofFn {α : Type} (l : List α) (hlength : l.length = n) :
    ∃ f : Fin n → α, l = List.ofFn f := by
  subst hlength
  exact ⟨l.get, (List.ofFn_get l).symm⟩

/-- A seed is made out of commitments and openings exactly if these are openings of seeds that fit
the commitments. -/
theorem CoinToss.combines_iff {commitments openings : Fin n → Bytes} {v : Seed} :
    (∃ values, Commit.verifyFrom 1 ((List.ofFn openings).zip (List.ofFn commitments)) = .ok values
        ∧ combine values = .ok v)
      ↔ ∃ (seeds : Fin n → Seed) (randomness : Fin n → Bytes),
        (∀ j, (randomness j).length = Commit.randomnessLength)
        ∧ openings = (fun j => (seeds j).toList ++ randomness j)
        ∧ commitments = (fun j => Digest.commitment ((seeds j).toList ++ randomness j))
        ∧ v = Seed.joint seeds := by
  rw [Commit.zip_ofFn]
  constructor
  · rintro ⟨values, hverify, hcombine⟩
    obtain ⟨pairs, hlengths, hpairs, rfl⟩ := Commit.verifyFrom_eq_ok hverify
    obtain ⟨seeds, hvalues, hv⟩ := combineFrom_eq_ok hcombine
    have hcount : pairs.length = n := by simpa using (congrArg List.length hpairs).symm
    have hseeds : seeds.length = n := by
      rw [← hcount]
      simpa using (congrArg List.length hvalues).symm
    obtain ⟨pair, rfl⟩ := exists_eq_ofFn pairs hcount
    obtain ⟨seed, rfl⟩ := exists_eq_ofFn seeds hseeds
    rw [List.map_ofFn] at hpairs
    rw [List.map_ofFn, List.map_ofFn] at hvalues
    have hpair := congrFun (List.ofFn_injective hpairs)
    have hvalue := congrFun (List.ofFn_injective hvalues)
    simp only [Function.comp_apply, Prod.mk.injEq] at hpair hvalue
    refine ⟨seed, fun j => (pair j).2, fun j => hlengths _ (List.mem_ofFn.mpr ⟨j, rfl⟩), ?_, ?_, hv⟩
    · funext j
      rw [(hpair j).1, hvalue j]
    · funext j
      rw [(hpair j).2, hvalue j]
  · rintro ⟨seeds, randomness, hlength, rfl, rfl, rfl⟩
    refine ⟨_, ?_, combine_ofFn seeds⟩
    have hverify := Commit.verifyFrom_commitment 1
      (List.ofFn fun j => ((seeds j).toList, randomness j)) fun o ho => by
        obtain ⟨j, rfl⟩ := List.mem_ofFn.mp ho
        exact hlength j
    simpa only [List.map_ofFn, Function.comp_def] using hverify

/-- The opening that a party with this generator sends out. -/
def CoinToss.ownOpening (g : Generator) : Bytes :=
  (ownSeed g).toList ++ ownRandomness g

/-- Party `h + 1` with this generator hears commitments, and then openings that fit them; `v` is
the exclusive or of the opened seeds. -/
def Strategy.Opens (σ : Strategy n) (h : Fin n) (g : Generator) (v : Seed) : Prop :=
  ∃ (seeds : Fin n → Seed) (randomness : Fin n → Bytes) (sent sent' : List (List Frame)),
    (∀ j, (randomness j).length = Commit.randomnessLength)
    ∧ σ.Broadcasts h [announce h (Digest.commitment (CoinToss.ownOpening g))]
      (Digest.commitment (CoinToss.ownOpening g))
      (fun j => Digest.commitment ((seeds j).toList ++ randomness j)) sent
    ∧ σ.Broadcasts h (sent ++ [announce h (CoinToss.ownOpening g)]) (CoinToss.ownOpening g)
      (fun j => (seeds j).toList ++ randomness j) sent'
    ∧ v = Seed.joint seeds

variable {g : Generator} {v : Seed}

/-- The commitments are in and the own opening is out: what is left of a toss. -/
theorem yields_openings (hparties : pool.parties = n) {commitments : Fin n → Bytes}
    (hcommitments : c.commitments = List.ofFn commitments) {message : Bytes} {budget : Nat}
    (seat : e.At h pool (fun _ => []) (σ.heard h sent [message])) :
    Yields σ h sent (remaining (budget + (1 + confirmations n)) (c.phaseStart + 1)
        ({ commit := some { c with phase := .openings { message := none } } } : CoinToss)) e v
      ↔ ∃ openings sent', σ.Broadcasts h sent message openings sent'
        ∧ ∃ values, Commit.verifyFrom 1 ((List.ofFn openings).zip (List.ofFn commitments))
            = .ok values ∧ CoinToss.combine values = .ok v := by
  let place (b : Broadcast) : CoinToss := { commit := some { c with phase := .openings b } }
  have hplace : ∀ elapsed b (answer : (Fin n → Bytes) → Option (Status × Broadcast × Frame)),
      Hearing (Broadcast.evaluate elapsed) b pool answer → Settles answer →
      Hearing (Protocol.evaluate (c.phaseStart + elapsed)) (place b) pool fun messages =>
        wrapAnswer place (CoinToss.finishOpenings c) (answer messages) := by
    intro elapsed b answer hearing settles
    exact CoinToss.hearing_openings (c := { c with phase := .openings b }) rfl
      (Commit.roundsSince_add c.phaseStart elapsed) hearing settles
  have hyields := @yields_broadcast m n CoinToss Seed σ h sent e pool _ place
    (fun _ => CoinToss.finishOpenings c) c.phaseStart budget v hplace hparties message seat
    (fun _ _ _ _ => False) (by
      intro sent' messages p' gives hfinish
      unfold CoinToss.finishOpenings at hfinish
      split at hfinish
      · cases hfinish
      · split at hfinish
        · cases hfinish
        · cases hfinish)
  simp only [CoinToss.leading_finishOpenings, hcommitments] at hyields
  exact hyields

/-- The own commitment is out: what is left of a toss. -/
theorem yields_begun (hparties : pool.parties = n) (seed : Seed) (randomness : Bytes) (start : Nat)
    {message : Bytes} {budget : Nat}
    (seat : e.At h pool (fun _ => []) (σ.heard h sent [message])) :
    Yields σ h sent
        (remaining (budget + (1 + confirmations n) + (1 + confirmations n)) (start + 1)
          (CoinToss.begun seed randomness start)) e v
      ↔ ∃ commitments sent', σ.Broadcasts h sent message commitments sent'
        ∧ (∀ j, (commitments j).length = digestLength)
        ∧ ∃ openings sent'', σ.Broadcasts h (sent' ++ [announce h (seed.toList ++ randomness)])
            (seed.toList ++ randomness) openings sent''
          ∧ ∃ values, Commit.verifyFrom 1 ((List.ofFn openings).zip (List.ofFn commitments))
              = .ok values ∧ CoinToss.combine values = .ok v := by
  let first : Commit := .begun seed.toList randomness start
  let place (b : Broadcast) : CoinToss := { commit := some { first with phase := .commitments b } }
  have hplace : ∀ elapsed b (answer : (Fin n → Bytes) → Option (Status × Broadcast × Frame)),
      Hearing (Broadcast.evaluate elapsed) b pool answer → Settles answer →
      Hearing (Protocol.evaluate (start + elapsed)) (place b) pool fun messages =>
        wrapAnswer place (CoinToss.finishCommitments first (start + elapsed))
          (answer messages) := by
    intro elapsed b answer hearing settles
    exact CoinToss.hearing_commitments (c := { first with phase := .commitments b }) rfl
      (Commit.roundsSince_add start elapsed) hearing settles
  have hyields := @yields_broadcast m n CoinToss Seed σ h sent e pool _ place
    (CoinToss.finishCommitments first) start (budget + (1 + confirmations n)) v hplace hparties
    message seat
    (fun sent' commitments _ _ =>
      ∃ openings sent'', σ.Broadcasts h (sent' ++ [announce h (seed.toList ++ randomness)])
          (seed.toList ++ randomness) openings sent''
        ∧ ∃ values, Commit.verifyFrom 1 ((List.ofFn openings).zip (List.ofFn commitments))
            = .ok values ∧ CoinToss.combine values = .ok v) (by
      intro sent' commitments p' gives hfinish e' seat'
      unfold CoinToss.finishCommitments at hfinish
      split at hfinish
      · cases hfinish
        exact @yields_openings m n σ h _ e' pool
          { first with
            opening := []
            phaseStart := start + (1 + confirmations n)
            commitments := List.ofFn commitments }
          v hparties commitments rfl (seed.toList ++ randomness) budget seat'
      · cases hfinish)
  simp only [CoinToss.leading_finishCommitments, List.mem_ofFn, forall_exists_index,
    forall_apply_eq_imp_iff] at hyields
  exact hyields

/-- The first round of a toss. -/
theorem yields_begin (seat : e.At h { pool with localGenerator := g } (fun _ => []) fun _ => []) :
    ∃ e', (Yields σ h [] (run ({} : CoinToss)) e v
        ↔ Yields σ h [announce h (Digest.commitment (CoinToss.ownOpening g))]
          (remaining lastRound 1
            (CoinToss.begun (CoinToss.ownSeed g) (CoinToss.ownRandomness g) 0)) e' v)
      ∧ e'.At h { pool with localGenerator := CoinToss.afterDraws g } (fun _ => [])
        (σ.heard h [announce h (Digest.commitment (CoinToss.ownOpening g))]
          [Digest.commitment (CoinToss.ownOpening g)]) := by
  have hturn : Turn (n := n) (CoinToss.evaluate 0) {} { pool with localGenerator := g }
      (fun _ => []) (.ok .more)
      (CoinToss.begun (CoinToss.ownSeed g) (CoinToss.ownRandomness g) 0)
      { pool with localGenerator := CoinToss.afterDraws g }
      (fun _ => [Digest.commitment (CoinToss.ownOpening g)]) :=
    CoinToss.turn_begin 0 { pool with localGenerator := g }
  obtain ⟨e₁, hact, hseat⟩ := actOn_of_turn hturn seat
  obtain ⟨e₂, hflush, hseat'⟩ := @yields_flush m n Seed σ h [] e₁ _ _ v hseat fun _ =>
    remaining lastRound 1 (CoinToss.begun (CoinToss.ownSeed g) (CoinToss.ownRandomness g) 0)
  refine ⟨e₂, ?_, hseat'⟩
  rw [run_eq_remaining, remaining_of_more hact]
  exact hflush

/-- What a toss ends with against a strategy. -/
theorem yields_toss (hparties : pool.parties = n)
    (seat : e.At h { pool with localGenerator := g } (fun _ => []) fun _ => []) :
    Yields σ h [] (run ({} : CoinToss)) e v ↔ σ.Opens h g v := by
  have hbudget : lastRound = 6 - 2 * confirmations n + (1 + confirmations n)
      + (1 + confirmations n) := by
    have := confirmations_le n
    unfold lastRound
    omega
  obtain ⟨e', hbegin, hseat⟩ := yields_begin seat
  rw [hbegin, hbudget]
  have hparties' : ({ pool with localGenerator := CoinToss.afterDraws g } : Pool m).parties = n :=
    hparties
  refine Iff.trans (yields_begun hparties' _ _ 0 hseat) ?_
  constructor
  · rintro ⟨commitments, sent, hcommitments, -, openings, sent', hopenings, hcombines⟩
    obtain ⟨seeds, randomness, hlength, rfl, rfl, rfl⟩ := CoinToss.combines_iff.mp hcombines
    exact ⟨seeds, randomness, sent, sent', hlength, hcommitments, hopenings, rfl⟩
  · rintro ⟨seeds, randomness, sent, sent', hlength, hcommitments, hopenings, hv⟩
    exact ⟨_, sent, hcommitments, fun j => Digest.length_commitment _, _, sent', hopenings,
      CoinToss.combines_iff.mpr ⟨seeds, randomness, hlength, rfl, rfl, hv⟩⟩

end JointCircuit
