/-
JointCircuit.Proofs.Against — one party against a strategy of its peers.

The peers of a party act as one: what they send to it in an exchange may
be any function of everything that the party has sent so far, its frames
of that exchange included (`Strategy`). Against a strategy a session has
a definite result (`Session.against`, §1).

A round that takes one message from every peer is described by what it
makes of these messages (`Hearing`, §3); such rounds need exactly one
message from everybody.

Main statement: `Evaluator.yields_round` — what a run yields against a
strategy, from what its next round makes of the messages heard.
-/
import JointCircuit.Proofs.Unison

namespace JointCircuit

variable {m : Modulus} {n : Nat} {π ρ α β : Type}

/-! ## §1 Strategies -/

/-- What the peers of a party send to it in an exchange, given all that the party has sent up to
and in this exchange: for each exchange one frame for every party. -/
abbrev Strategy (n : Nat) := List (List Frame) → Fin n → Frame

/-- What a party is delivered. -/
def Strategy.delivery (σ : Strategy n) (h : Fin n) (sent : List (List Frame)) : Delivery :=
  ((List.finRange n).filter (· ≠ h)).map fun j => (j.val + 1, σ sent j)

namespace Session

/-- The result of a session of party `h + 1` against a strategy, with all that the party has
sent. -/
def against (σ : Strategy n) (h : Fin n) :
    (sent : List (List Frame)) → Session α → α × List (List Frame)
  | sent, .finished a => (a, sent)
  | sent, .exchange frames resume =>
    against σ h (sent ++ [frames]) (resume (.ok (σ.delivery h (sent ++ [frames]))))

theorem against_bind (σ : Strategy n) (h : Fin n) (sent : List (List Frame))
    (session : Session α) (next : α → Session β) :
    (session >>= next).against σ h sent
      = (next (session.against σ h sent).1).against σ h (session.against σ h sent).2 := by
  induction session generalizing sent with
  | finished a => rfl
  | exchange frames resume ih => exact ih _ _

end Session

/-- What lies in the queues of party `h + 1` after an exchange in which it has sent `frame` to
everybody. -/
def Strategy.heard (σ : Strategy n) (h : Fin n) (sent : List (List Frame)) (frame : Frame) :
    Fin n → Frame :=
  fun j => if j = h then frame else σ sent j

namespace Evaluator

variable {σ : Strategy n} {h : Fin n} {sent : List (List Frame)} {e e' : Evaluator m}
  {pool : Pool m} {outgoing incoming : Fin n → Frame} {v : ρ}

/-! ## §2 Yields -/

/-- Against the strategy the computation ends with `v`. -/
def Yields (σ : Strategy n) (h : Fin n) (sent : List (List Frame)) (x : Eval m ρ) (e : Evaluator m)
    (v : ρ) : Prop :=
  ((x e).against σ h sent).1.1 = .ok v

theorem yields_of_ok {x : Eval m α} {f : α → Eval m ρ} {a : α} (hx : x e = .finished (.ok a, e')) :
    Yields σ h sent (x >>= f) e v ↔ Yields σ h sent (f a) e' v := by
  rw [Yields, bind_of_ok hx, Yields]

theorem not_yields_of_error {x : Eval m α} {f : α → Eval m ρ} {fault : Fault}
    (hx : x e = .finished (.error fault, e')) : ¬ Yields σ h sent (x >>= f) e v := by
  rw [Yields, bind_of_error hx]
  nofun

/-- An exchange against the strategy. -/
theorem yields_flush (seat : e.At h pool outgoing fun _ => []) (f : Unit → Eval m ρ) :
    ∃ e', (Yields σ h sent (flush >>= f) e v
        ↔ Yields σ h (sent ++ [framesOf h outgoing]) (f ()) e' v)
      ∧ e'.At h pool (fun _ => [])
        (σ.heard h (sent ++ [framesOf h outgoing]) (outgoing h)) := by
  obtain ⟨resume, hflush, hresume⟩ := flush_at seat
  obtain ⟨e', he', hseat⟩ := hresume (σ (sent ++ [framesOf h outgoing]))
  refine ⟨e', ?_, hseat⟩
  have hdelivered : resume (.ok (σ.delivery h (sent ++ [framesOf h outgoing])))
      = .finished (.ok (), e') := he'
  rw [Yields, bind_apply, hflush, Session.against_bind, Session.against, hdelivered,
    Session.against]
  rfl

/-- Nothing is exchanged while a message has not been taken. -/
theorem not_yields_flush (seat : e.At h pool outgoing incoming) (hleft : incoming ≠ fun _ => [])
    (f : Unit → Eval m ρ) : ¬ Yields σ h sent (flush >>= f) e v := by
  obtain ⟨bytes, hbox⟩ := seat.mailbox_eq
  have htake : ∃ fault box, Mailbox.takeOutgoing e.participant.mailbox = .error fault box := by
    rw [hbox, Mailbox.takeOutgoing]
    cases hdrained : Mailbox.ensureDrained (.ofPeers (h + 1) outgoing incoming bytes) with
    | ok u box => exact absurd (Mailbox.ensureDrained_eq_ok hdrained).1 hleft
    | error fault box => exact ⟨fault, box, by simp only [Action.bind_apply, hdrained]⟩
  obtain ⟨fault, box, htake⟩ := htake
  have hfault : flush e = .finished (.error fault,
      { e with participant := { e.participant with mailbox := box } }) := by
    unfold flush
    refine bind_of_error ?_
    simp only [onMailbox, act, Action.within_error htake]
    rfl
  exact not_yields_of_error hfault

/-- An exchange against the strategy after which the run is known to yield `v` exactly if `P`. -/
theorem yields_flush_iff {P : Prop} (seat : e.At h pool outgoing incoming) (f : Unit → Eval m ρ)
    (hnext : ∀ e' : Evaluator m, e'.At h pool (fun _ => [])
        (σ.heard h (sent ++ [framesOf h outgoing]) (outgoing h)) →
      (Yields σ h (sent ++ [framesOf h outgoing]) (f ()) e' v ↔ P)) :
    Yields σ h sent (flush >>= f) e v ↔ incoming = (fun _ => []) ∧ P := by
  by_cases hleft : incoming = fun _ => []
  · subst hleft
    obtain ⟨e', hflush, hseat⟩ :=
      @yields_flush m n ρ σ h sent e pool outgoing v seat f
    rw [hflush, hnext e' hseat]
    exact ⟨fun hp => ⟨rfl, hp⟩, And.right⟩
  · exact iff_of_false (not_yields_flush seat hleft f) fun hboth => hleft hboth.1

theorem hasOutgoing_ofPeers {party bytes : Nat} (hne : outgoing ≠ fun _ => []) :
    (Mailbox.ofPeers party outgoing incoming bytes).hasOutgoing = true := by
  obtain ⟨j, hj⟩ := Function.ne_iff.mp hne
  refine List.any_eq_true.mpr ⟨outgoing j, List.mem_ofFn.mpr ⟨j, rfl⟩, ?_⟩
  simpa using hj

/-- The end of a run needs empty queues. -/
theorem not_yields_checkQuiescent (seat : e.At h pool outgoing incoming)
    (hleft : ¬ (outgoing = (fun _ => []) ∧ incoming = fun _ => [])) (f : Unit → Eval m ρ) :
    ¬ Yields σ h sent (checkQuiescent >>= f) e v := by
  obtain ⟨bytes, hbox⟩ := seat.mailbox_eq
  have hfault : ∃ fault e', checkQuiescent e = .finished (.error fault, e') := by
    unfold checkQuiescent
    rw [bind_of_ok (onMailbox_get e)]
    by_cases hout : outgoing = fun _ => []
    · have hquiet : e.participant.mailbox.hasOutgoing = false := by
        rw [hbox, hout, Mailbox.hasOutgoing_ofPeers_nil]
      have hdrained : ∃ fault box, Mailbox.ensureDrained e.participant.mailbox
          = .error fault box := by
        rw [hbox]
        cases hd : Mailbox.ensureDrained (.ofPeers (h + 1) outgoing incoming bytes) with
        | ok u box => exact absurd ⟨hout, (Mailbox.ensureDrained_eq_ok hd).1⟩ hleft
        | error fault box => exact ⟨fault, box, rfl⟩
      obtain ⟨fault, box, hdrained⟩ := hdrained
      refine ⟨fault, { e with participant := { e.participant with mailbox := box } }, ?_⟩
      simp only [hquiet, Bool.false_eq_true, if_false]
      simp only [onMailbox, act, Action.within_error hdrained]
      rfl
    · have hbusy : e.participant.mailbox.hasOutgoing = true := by
        rw [hbox, hasOutgoing_ofPeers hout]
      exact ⟨.protocol .sentInFinalRound, e, by simp only [hbusy, if_true]; rfl⟩
  obtain ⟨fault, e', hfault⟩ := hfault
  exact not_yields_of_error hfault

/-! ## §3 Hearing -/

/-- The evaluation takes one message from every party. `answer` says what it makes of them: how
the round ends, the state it leaves and what it sends to everybody; or that it fails. -/
structure Hearing (act : Round m π Status) (p : π) (pool : Pool m)
    (answer : (Fin n → Bytes) → Option (Status × π × Frame)) : Prop where
  needs : ∀ party outgoing (incoming : Fin n → Frame) bytes status s,
    act (p, ⟨pool, .ofPeers party outgoing incoming bytes⟩) = .ok status s →
    ∃ (messages : Fin n → Bytes) (rest : Fin n → Frame),
      incoming = (fun j => messages j :: rest j) ∧ answer messages ≠ none
  turn : ∀ messages status p' gives, answer messages = some (status, p', gives) →
    Turn act p pool (fun j => [messages j]) (.ok status) p' pool fun _ => gives

/-- The end of a run, once no round is left. -/
def ending [Protocol m π ρ] (p : π) : Eval m ρ := do
  checkQuiescent
  countProtocol
  match (Protocol.out m p).1 with
  | some result => return result
  | none => throw (.protocol .noOutput)

/-- The rounds of a protocol from this one on, and the end of its run. -/
def remaining [Protocol m π ρ] (budget round : Nat) (p : π) : Eval m ρ :=
  runRounds budget round p >>= ending

theorem run_eq_remaining [Protocol m π ρ] (p : π) :
    (run p : Eval m ρ) = remaining (lastRound + 1) 0 p := rfl

theorem yields_ending [Protocol m π ρ] {p : π} (seat : e.At h pool outgoing incoming) :
    Yields σ h sent (ending p) e v ↔ (outgoing = (fun _ => []) ∧ incoming = fun _ => [])
      ∧ (Protocol.out m p).1 = some v := by
  by_cases hempty : outgoing = (fun _ => []) ∧ incoming = fun _ => []
  · obtain ⟨rfl, rfl⟩ := hempty
    obtain ⟨e', hrun, -⟩ := run_ending p seat
    have hending : (ending p : Eval m ρ) e = .finished (conclude (m := m) (.ok .done) p, e') := hrun
    rw [Yields, hending, Session.against, conclude]
    cases hout : (Protocol.out m p).1 with
    | none => simp
    | some result => simp
  · simp only [hempty, false_and, iff_false]
    exact not_yields_checkQuiescent seat hempty _

/-- A round that goes on. -/
theorem remaining_of_more [Protocol m π ρ] {budget round : Nat} {p p' : π}
    (hact : actOn p (Protocol.evaluate round : Round m π Status) e
      = .finished (.ok (.more, p'), e')) :
    Yields σ h sent (remaining (budget + 1) round p) e v
      ↔ Yields σ h sent (flush >>= fun _ => remaining budget (round + 1) p') e' v := by
  rw [remaining, runRounds, bind_assoc, yields_of_ok hact]
  simp only [bind_assoc]
  rfl

/-- A round that is the last one. -/
theorem remaining_of_done [Protocol m π ρ] {budget round : Nat} {p p' : π}
    (hact : actOn p (Protocol.evaluate round : Round m π Status) e
      = .finished (.ok (.done, p'), e')) :
    Yields σ h sent (remaining (budget + 1) round p) e v ↔ Yields σ h sent (ending p') e' v := by
  rw [remaining, runRounds, bind_assoc, yields_of_ok hact]
  simp only [pure_bind]

/-- What a round has to come to if the run is to yield `v`: it goes on as `next` demands, or it is
the last one and leaves the result. -/
def Leading (m : Modulus) [Protocol m π ρ] (v : ρ) (next : π → Frame → Prop) :
    Option (Status × π × Frame) → Prop
  | none => False
  | some (.more, p, gives) => next p gives
  | some (.done, p, gives) => gives = [] ∧ (Protocol.out m p).1 = some v

/-- A round that has not heard from everybody, or that fails on what it has heard. -/
theorem not_yields_unheard [Protocol m π ρ] {budget round : Nat} {p : π}
    {answer : (Fin n → Bytes) → Option (Status × π × Frame)}
    (hearing : Hearing (Protocol.evaluate round) p pool answer)
    (seat : e.At h pool (fun _ => []) incoming)
    (hunheard : ∀ (messages : Fin n → Bytes) (rest : Fin n → Frame),
      incoming = (fun j => messages j :: rest j) → answer messages = none) :
    ¬ Yields σ h sent (remaining (budget + 1) round p) e v := by
  obtain ⟨bytes, hbox⟩ := seat.mailbox_eq
  have hstate : e.participant = ⟨pool, .ofPeers (h + 1) (fun _ => []) incoming bytes⟩ := by
    rw [← seat.pool_eq, ← hbox]
  cases hround : (Protocol.evaluate round : Round m π Status) (p, e.participant) with
  | ok status s =>
    rw [hstate] at hround
    obtain ⟨messages, rest, hheard, hsome⟩ := hearing.needs _ _ _ _ _ _ hround
    exact absurd (hunheard messages rest hheard) hsome
  | error fault s =>
    have hact : actOn p (Protocol.evaluate round : Round m π Status) e
        = .finished (.error fault, { e with participant := s.2 }) := by
      simp only [actOn, hround]
      rfl
    rw [remaining, runRounds, bind_assoc]
    exact not_yields_of_error hact

/-- Queues hold one message each if nothing is behind their first ones. -/
theorem cons_eq_singleton_iff {messages other : Fin n → Bytes} {rest : Fin n → Frame} :
    (fun j => messages j :: rest j) = (fun j => [other j])
      ↔ messages = other ∧ rest = fun _ => [] := by
  simp only [funext_iff, List.cons.injEq, forall_and]

/-- What a run yields from a round on that takes one message from every party. -/
theorem yields_round [Protocol m π ρ] {budget round : Nat} {p : π}
    {answer : (Fin n → Bytes) → Option (Status × π × Frame)}
    (hearing : Hearing (Protocol.evaluate round) p pool answer)
    (seat : e.At h pool (fun _ => []) incoming)
    {next : (Fin n → Bytes) → π → Frame → Prop}
    (hnext : ∀ messages p' gives, answer messages = some (.more, p', gives) →
      ∀ e' : Evaluator m, e'.At h pool (fun _ => [])
        (σ.heard h (sent ++ [framesOf h fun _ => gives]) gives) →
      (Yields σ h (sent ++ [framesOf h fun _ => gives]) (remaining budget (round + 1) p') e' v
        ↔ next messages p' gives)) :
    Yields σ h sent (remaining (budget + 1) round p) e v
      ↔ ∃ messages, incoming = (fun j => [messages j])
        ∧ Leading m v (next messages) (answer messages) := by
  by_cases hheard : ∃ (messages : Fin n → Bytes) (rest : Fin n → Frame),
      incoming = (fun j => messages j :: rest j) ∧ answer messages ≠ none
  · obtain ⟨messages, rest, rfl, hsome⟩ := hheard
    obtain ⟨⟨status, p', gives⟩, hanswer⟩ := Option.ne_none_iff_exists'.mp hsome
    obtain ⟨e', hact, hseat⟩ := actOn_of_turn (hearing.turn messages status p' gives hanswer) seat
    have honly : (∃ other, (fun j => messages j :: rest j) = (fun j => [other j])
          ∧ Leading m v (next other) (answer other))
        ↔ rest = (fun _ => []) ∧ Leading m v (next messages) (some (status, p', gives)) := by
      simp only [cons_eq_singleton_iff, and_assoc, exists_eq_left', hanswer]
    rw [honly]
    cases status with
    | more =>
      rw [remaining_of_more hact]
      exact yields_flush_iff hseat _ (hnext messages p' gives hanswer)
    | done =>
      have hgives : (fun _ : Fin n => [] ++ gives) = (fun _ => []) ↔ gives = [] :=
        ⟨fun heq => congrFun heq h, fun heq => funext fun _ => heq⟩
      rw [remaining_of_done hact, yields_ending hseat, hgives, @and_comm (gives = []), and_assoc]
      rfl
  · refine iff_of_false (not_yields_unheard hearing seat fun messages rest heq => ?_) ?_
    · by_contra hsome
      exact hheard ⟨messages, rest, heq, hsome⟩
    · rintro ⟨messages, rfl, hleading⟩
      refine hheard ⟨messages, fun _ => [], rfl, fun hnone => ?_⟩
      rw [hnone] at hleading
      exact hleading

end Evaluator

end JointCircuit
