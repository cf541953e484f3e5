/-
JointCircuit.Proofs.Attendance — a protocol at honest parties, whatever the others send.

A party attends the rounds of a protocol: in each it finds a pool and
queues of messages, and a round that goes on queues messages that leave
in the exchange after it (`Attends`). Between two rounds anything may
happen to the pool and to the queues, since other protocols of the party
use them too.

Among the parties of a `Company` some are honest. An honest party begins
a round only when every honest party has sent its messages of the round
before, and finds these at the front of its queues. Nothing is assumed
about the messages of the others, which may differ from one receiver to
the next.

Main statement: `Attends.of_hearing` — what an attendance goes on with
after a round that takes one message from everybody.
-/
import JointCircuit.Proofs.Against

namespace JointCircuit

open Evaluator

variable {m : Modulus} {n : Nat} {π ρ : Type}

/-! ## §1 Attendances -/

/-- What a party finds when it evaluates a round. -/
structure Visit (m : Modulus) (n : Nat) where
  pool : Pool m
  /-- Messages received and not yet taken, by sender. -/
  queues : Fin n → Frame

/-- Where a protocol stands after the rounds attended. -/
inductive Ending (π : Type) where
  | pending (p : π)
  | done (p : π)
  | failed (fault : Fault)

/-- The rounds of a protocol that a party has evaluated. -/
structure Attendance (m : Modulus) (n : Nat) (π : Type) where
  /-- What it has found, round by round. -/
  visits : List (Visit m n)
  /-- What it has sent to each party, for every round that goes on. -/
  said : List (Fin n → Frame)
  ending : Ending π

/-- Party `i + 1` at work in a round, with what other protocols have queued. -/
def Visit.participant (visit : Visit m n) (i : Fin n) (outgoing : Fin n → Frame) (bytes : Nat) :
    Participant m :=
  ⟨visit.pool, .ofPeers (i + 1) outgoing visit.queues bytes⟩

/-- The pool belongs to party `i + 1` of `n`. -/
def Visit.At (visit : Visit m n) (i : Fin n) : Prop :=
  visit.pool.party = i + 1 ∧ visit.pool.parties = n

/-- Party `i + 1` evaluates the rounds of a protocol from `round` on. -/
inductive Attends [Protocol m π ρ] (i : Fin n) : (round : Nat) → π → Attendance m n π → Prop
  | pending {round : Nat} {p : π} : Attends i round p ⟨[], [], .pending p⟩
  | more {round : Nat} {p p' : π} {visit : Visit m n} {outgoing gives rest : Fin n → Frame}
      {bytes bytes' : Nat} {pool' : Pool m} {visits : List (Visit m n)}
      {said : List (Fin n → Frame)} {ending : Ending π} (at_ : visit.At i)
      (evaluates : Protocol.evaluate round (p, visit.participant i outgoing bytes) = .ok .more
        (p', ⟨pool', .ofPeers (i + 1) (fun j => outgoing j ++ gives j) rest bytes'⟩))
      (later : Attends i (round + 1) p' ⟨visits, said, ending⟩) :
      Attends i round p ⟨visit :: visits, gives :: said, ending⟩
  | done {round : Nat} {p p' : π} {visit : Visit m n} {outgoing : Fin n → Frame} {bytes : Nat}
      {w : Participant m} (at_ : visit.At i)
      (evaluates : Protocol.evaluate round (p, visit.participant i outgoing bytes)
        = .ok .done (p', w)) :
      Attends i round p ⟨[visit], [], .done p'⟩
  | failed {round : Nat} {p : π} {visit : Visit m n} {outgoing : Fin n → Frame} {bytes : Nat}
      {fault : Fault} {s : π × Participant m} (at_ : visit.At i)
      (evaluates : Protocol.evaluate round (p, visit.participant i outgoing bytes)
        = .error fault s) :
      Attends i round p ⟨[visit], [], .failed fault⟩

namespace Attendance

variable {a : Attendance m n π} {k : Nat} {j : Fin n} {x y : Bytes}

/-- In round `k` the first message in the queue of party `j + 1` is `x`. -/
def Hears (a : Attendance m n π) (k : Nat) (j : Fin n) (x : Bytes) : Prop :=
  ∃ visit rest, a.visits[k]? = some visit ∧ visit.queues j = x :: rest

/-- In round `k` there is a message from everybody, and these are the first ones. -/
def HearsAll (a : Attendance m n π) (k : Nat) (messages : Fin n → Bytes) : Prop :=
  ∀ j, a.Hears k j (messages j)

theorem Hears.unique (hx : a.Hears k j x) (hy : a.Hears k j y) : x = y := by
  obtain ⟨visit, rest, hvisit, hqueue⟩ := hx
  obtain ⟨visit', rest', hvisit', hqueue'⟩ := hy
  rw [hvisit] at hvisit'
  cases hvisit'
  exact (List.cons.inj (hqueue.symm.trans hqueue')).1

theorem HearsAll.unique {messages messages' : Fin n → Bytes} (h : a.HearsAll k messages)
    (h' : a.HearsAll k messages') : messages = messages' :=
  funext fun j => (h j).unique (h' j)

theorem hearsAll_of_queues {visit : Visit m n} {messages : Fin n → Bytes} {rest : Fin n → Frame}
    (hvisit : a.visits[k]? = some visit) (hqueues : visit.queues = fun j => messages j :: rest j) :
    a.HearsAll k messages :=
  fun j => ⟨visit, rest j, hvisit, congrFun hqueues j⟩

theorem queues_of_hearsAll {visit : Visit m n} {visits : List (Visit m n)}
    {said : List (Fin n → Frame)} {ending : Ending π} {messages : Fin n → Bytes}
    (h : HearsAll (⟨visit :: visits, said, ending⟩ : Attendance m n π) 0 messages) :
    ∃ rest : Fin n → Frame, visit.queues = fun j => messages j :: rest j := by
  have hqueue : ∀ j, ∃ rest, visit.queues j = messages j :: rest := by
    intro j
    obtain ⟨_, rest, ⟨⟩, hqueue⟩ := h j
    exact ⟨rest, hqueue⟩
  choose rest hrest using hqueue
  exact ⟨rest, funext hrest⟩

/-- Something is heard only in a round that was evaluated. -/
theorem Hears.lt (h : a.Hears k j x) : k < a.visits.length := by
  obtain ⟨visit, rest, hvisit, -⟩ := h
  exact (List.getElem?_eq_some_iff.mp hvisit).1

end Attendance

/-! ## §2 Rounds -/

section
variable [Protocol m π ρ] {i : Fin n} {round : Nat} {p p' : π} {visit : Visit m n}
  {visits : List (Visit m n)} {said : List (Fin n → Frame)} {ending : Ending π}

/-- How an attendance goes on after a round that ends with this status and state and gives these
messages. -/
def Proceeds (i : Fin n) (round : Nat) (visits : List (Visit m n)) (said : List (Fin n → Frame))
    (ending : Ending π) : Status → π → (Fin n → Frame) → Prop
  | .more, p, gives =>
    ∃ later, said = gives :: later ∧ Attends i (round + 1) p ⟨visits, later, ending⟩
  | .done, p, _ => visits = [] ∧ said = [] ∧ ending = .done p

theorem Attends.of_nil (h : Attends i round p (⟨[], said, ending⟩ : Attendance m n π)) :
    said = [] ∧ ending = .pending p := by
  cases h
  exact ⟨rfl, rfl⟩

theorem Attends.at_visit (h : Attends i round p ⟨visit :: visits, said, ending⟩) :
    visit.At i := by
  cases h <;> assumption

/-- A round that finds what it takes ends in the only way it can. -/
theorem Attends.of_turn {status : Status} {takes rest gives : Fin n → Frame} {pool' : Pool m}
    (h : Attends i round p ⟨visit :: visits, said, ending⟩)
    (turn : Turn (Protocol.evaluate round) p visit.pool takes (.ok status) p' pool' gives)
    (hqueues : visit.queues = fun j => takes j ++ rest j) :
    Proceeds i round visits said ending status p' gives := by
  have hround : ∀ outgoing bytes, Protocol.evaluate round (p, visit.participant i outgoing bytes)
      = .ok status (p', ⟨pool', .ofPeers (i + 1) (fun j => outgoing j ++ gives j) rest bytes⟩) := by
    intro outgoing bytes
    rw [Visit.participant, hqueues]
    exact turn _ _ _ _
  cases h with
  | more at_ evaluates later =>
    rw [hround] at evaluates
    cases status with
    | done => cases evaluates
    | more =>
      simp only [EStateM.Result.ok.injEq, Prod.mk.injEq, Participant.mk.injEq, Mailbox.ofPeers,
        Mailbox.mk.injEq, List.ofFn_inj, true_and] at evaluates
      obtain ⟨rfl, -, hgives, -⟩ := evaluates
      have heq : gives = _ := funext fun j => List.append_cancel_left (congrFun hgives j)
      exact ⟨_, by rw [heq], later⟩
  | done at_ evaluates =>
    rw [hround] at evaluates
    cases status with
    | more => cases evaluates
    | done =>
      cases evaluates
      exact ⟨rfl, rfl, rfl⟩
  | failed at_ evaluates =>
    rw [hround] at evaluates
    cases evaluates

/-- A party that finds what a round takes attends it, and goes on. -/
theorem Attends.more_of_turn {takes rest gives : Fin n → Frame} {pool' : Pool m}
    (turn : Turn (Protocol.evaluate round) p visit.pool takes (.ok .more) p' pool' gives)
    (at_ : visit.At i) (hqueues : visit.queues = fun j => takes j ++ rest j)
    (later : Attends i (round + 1) p' ⟨visits, said, ending⟩) :
    Attends i round p ⟨visit :: visits, gives :: said, ending⟩ := by
  have hround := turn (i + 1) (fun _ => []) rest 0
  rw [← hqueues] at hround
  exact .more at_ hround later

/-- A party that finds what the last round takes is done with it. -/
theorem Attends.done_of_turn {takes rest gives : Fin n → Frame} {pool' : Pool m}
    (turn : Turn (Protocol.evaluate round) p visit.pool takes (.ok .done) p' pool' gives)
    (at_ : visit.At i) (hqueues : visit.queues = fun j => takes j ++ rest j) :
    Attends i round p ⟨[visit], [], .done p'⟩ := by
  have hround := turn (i + 1) (fun _ => []) rest 0
  rw [← hqueues] at hround
  exact .done at_ hround

/-- After a round that takes one message from everybody an attendance goes on with the answer to
the messages heard, unless the round has failed. -/
theorem Attends.of_hearing {answer : (Fin n → Bytes) → Option (Status × π × Frame)}
    (h : Attends i round p ⟨visit :: visits, said, ending⟩)
    (hearing : Hearing (Protocol.evaluate round) p visit.pool answer) :
    (visits = [] ∧ said = [] ∧ ∃ fault, ending = .failed fault)
      ∨ ∃ (messages : Fin n → Bytes) (rest : Fin n → Frame) (status : Status) (p' : π)
          (gives : Frame),
        visit.queues = (fun j => messages j :: rest j)
        ∧ answer messages = some (status, p', gives)
        ∧ Proceeds i round visits said ending status p' fun _ => gives := by
  have hneeds : ∀ {outgoing bytes status s},
      Protocol.evaluate round (p, visit.participant i outgoing bytes) = .ok status s →
      ∃ (messages : Fin n → Bytes) (rest : Fin n → Frame) (status : Status) (p' : π)
          (gives : Frame),
        visit.queues = (fun j => messages j :: rest j)
        ∧ answer messages = some (status, p', gives)
        ∧ Proceeds i round visits said ending status p' fun _ => gives := by
    intro outgoing bytes status s hround
    obtain ⟨messages, rest, hqueues, hsome⟩ := hearing.needs _ _ _ _ _ _ hround
    obtain ⟨⟨status, p', gives⟩, hanswer⟩ := Option.ne_none_iff_exists'.mp hsome
    exact ⟨messages, rest, status, p', gives, hqueues, hanswer,
      h.of_turn (hearing.turn _ _ _ _ hanswer) hqueues⟩
  cases h with
  | more at_ evaluates later => exact .inr (hneeds evaluates)
  | done at_ evaluates => exact .inr (hneeds evaluates)
  | failed at_ evaluates => exact .inl ⟨rfl, rfl, _, rfl⟩

/-- The party stops before or in a round that takes one message from everybody, or it has heard
these messages and goes on with the answer to them. -/
theorem Attends.stopped_or_heard {a : Attendance m n π}
    {answer : (Fin n → Bytes) → Option (Status × π × Frame)} (h : Attends i round p a)
    (hearing : ∀ pool : Pool m, pool.parties = n →
      Hearing (Protocol.evaluate round) p pool answer) :
    (a.said = [] ∧ ∀ p, a.ending ≠ .done p)
      ∨ ∃ messages status p' gives, a.HearsAll 0 messages
        ∧ answer messages = some (status, p', gives)
        ∧ Proceeds i round (a.visits.drop 1) a.said a.ending status p' fun _ => gives := by
  obtain ⟨visits, said, ending⟩ := a
  cases visits with
  | nil =>
    obtain ⟨rfl, rfl⟩ := h.of_nil
    exact .inl ⟨rfl, nofun⟩
  | cons visit visits =>
    rcases h.of_hearing (hearing visit.pool h.at_visit.2) with ⟨-, rfl, fault, rfl⟩ | hheard
    · exact .inl ⟨rfl, nofun⟩
    · obtain ⟨messages, rest, status, p', gives, hqueues, hanswer, hproceeds⟩ := hheard
      exact .inr ⟨messages, status, p', gives, Attendance.hearsAll_of_queues rfl hqueues, hanswer,
        hproceeds⟩

/-- A round that cannot but fail. -/
theorem Attends.of_error {fault : Fault} (h : Attends i round p ⟨visit :: visits, said, ending⟩)
    (herror : ∀ outgoing bytes, ∃ s,
      Protocol.evaluate round (p, visit.participant i outgoing bytes) = .error fault s) :
    ending = .failed fault := by
  cases h with
  | more at_ evaluates later =>
    obtain ⟨s, hs⟩ := herror _ _
    cases hs.symm.trans evaluates
  | done at_ evaluates =>
    obtain ⟨s, hs⟩ := herror _ _
    cases hs.symm.trans evaluates
  | failed at_ evaluates =>
    obtain ⟨s, hs⟩ := herror _ _
    cases hs.symm.trans evaluates
    rfl

end

/-! ## §3 Companies -/

/-- The honest parties evaluate a protocol from `start` on, each from its own state, and their
messages to each other arrive. -/
structure Company [Protocol m π ρ] (honest : Fin n → Prop) (start : Nat) (p : Fin n → π)
    (a : Fin n → Attendance m n π) : Prop where
  attends : ∀ i, honest i → Attends i start (p i) (a i)
  connected : ∀ i j k visit, honest i → honest j → (a i).visits[k + 1]? = some visit →
    ∃ gives rest, (a j).said[k]? = some gives ∧ visit.queues j = gives i ++ rest

namespace Company

variable [Protocol m π ρ] {honest : Fin n → Prop} {start : Nat} {p : Fin n → π}
  {a : Fin n → Attendance m n π} {i j : Fin n} {k : Nat} {x : Bytes}

/-- What an honest party hears from another one is what that one has said, if it has said one
message to everybody. -/
theorem hears (company : Company honest start p a) (hi : honest i) (hj : honest j)
    (hx : (a i).Hears (k + 1) j x) :
    ∃ gives, (a j).said[k]? = some gives ∧ ∀ y, gives = (fun _ => [y]) → x = y := by
  obtain ⟨visit, rest, hvisit, hqueue⟩ := hx
  obtain ⟨gives, rest', hsaid, hfront⟩ := company.connected i j k visit hi hj hvisit
  refine ⟨gives, hsaid, fun y hy => ?_⟩
  rw [hy] at hfront
  exact (List.cons.inj (hqueue.symm.trans hfront)).1

/-- Fewer parties may be honest. -/
theorem mono {honest' : Fin n → Prop} (company : Company honest start p a)
    (h : ∀ i, honest' i → honest i) : Company honest' start p a where
  attends i hi := company.attends i (h i hi)
  connected i j k visit hi hj := company.connected i j k visit (h i hi) (h j hj)

/-- A round in front of those of a company, whose messages are found when they begin. -/
theorem cons (cue : Traffic n) {cue' : Traffic n} {p' : Fin n → π} {pools pools' : Fin n → Pool m}
    (company : Company honest (start + 1) p' a)
    (turns : ∀ i, Turn (Protocol.evaluate start) (p i) (pools i) (fun j => cue j i) (.ok .more)
      (p' i) (pools' i) (cue' i))
    (at_ : ∀ i, Visit.At ⟨pools i, fun j => cue j i⟩ i)
    (heads : ∀ i visit, (a i).visits[0]? = some visit → visit.queues = fun j => cue' j i) :
    Company honest start p fun i =>
      ⟨⟨pools i, fun j => cue j i⟩ :: (a i).visits, cue' i :: (a i).said, (a i).ending⟩ where
  attends i hi := by
    have hqueues : (fun j => cue j i) = fun j => cue j i ++ [] :=
      funext fun j => (List.append_nil _).symm
    exact .more_of_turn (turns i) (at_ i) hqueues (company.attends i hi)
  connected i j k visit hi hj hvisit := by
    cases k with
    | zero =>
      refine ⟨cue' j, [], rfl, ?_⟩
      rw [heads i visit hvisit, List.append_nil]
    | succ k => exact company.connected i j k visit hi hj hvisit

end Company

/-- Parties that go on in unison form a company in which everybody is done at the end. -/
theorem Unison.company [Protocol m π ρ] {key : Fin n → Element m} {post : (Fin n → π) → Prop}
    {effects : List (Effect m n)} {round : Nat} {p : Fin n → π} {cue : Traffic n}
    (h : Unison key (Finish post) effects round p cue) {openings : List (Opening m n)}
    {pools : Fin n → Pool m} (table : Table key openings pools) :
    ∃ (a : Fin n → Attendance m n π) (p' : Fin n → π), Company (fun _ => True) round p a
      ∧ (∀ i, (a i).ending = .done (p' i)) ∧ post p'
      ∧ ∀ i visit, (a i).visits[0]? = some visit → visit.queues = fun j => cue j i := by
  induction effects generalizing round p cue openings pools with
  | nil => exact h.elim
  | cons effect effects ih =>
    obtain ⟨answer, p₁, pools₁, cue₁, turns, acts, honward⟩ := h openings pools table
    have hat : ∀ i, Visit.At ⟨pools i, fun j => cue j i⟩ i :=
      fun i => ⟨table.party i, table.parties i⟩
    match answer, honward with
    | .ok .done, ⟨_, _, _, hpost⟩ =>
      refine ⟨fun i => ⟨[⟨pools i, fun j => cue j i⟩], [], .done (p₁ i)⟩, p₁,
        ⟨fun i _ => ?_, nofun⟩, fun i => rfl, hpost, ?_⟩
      · exact .done_of_turn (turns i) (hat i) (funext fun j => (List.append_nil _).symm)
      · rintro i visit ⟨⟩
        rfl
    | .ok .more, honward =>
      obtain ⟨a, p', company, hends, hpost, heads⟩ := ih honward (table.acts acts)
      refine ⟨_, p', company.cons cue turns hat heads, hends, hpost, ?_⟩
      rintro i visit ⟨⟩
      rfl
    | .error _, ⟨_, _, hdone, _⟩ => cases hdone

/-- Parties that all begin a protocol form a company in which everybody is done at the end. -/
theorem Begins.company [Protocol m π ρ] {sound : Opening m n → Prop} {key : Fin n → Element m}
    {post : (Fin n → π) → Prop} {p : Fin n → π} {pools pools' : Fin n → Pool m}
    (h : Begins sound key post p pools pools') {openings openings' : List (Opening m n)}
    (table : Table key openings pools) (table' : Table key openings' pools') :
    ∃ (a : Fin n → Attendance m n π) (p' : Fin n → π), Company (fun _ => True) 0 p a
      ∧ (∀ i, (a i).ending = .done (p' i)) ∧ post p' := by
  have hat : ∀ i, Visit.At ⟨pools i, fun _ => []⟩ i := fun i => ⟨table.party i, table.parties i⟩
  cases h with
  | done p' turns ends =>
    refine ⟨fun i => ⟨[⟨pools i, fun _ => []⟩], [], .done (p' i)⟩, p', ⟨fun i _ => ?_, nofun⟩,
      fun i => rfl, ends⟩
    exact .done_of_turn (turns i) (hat i) rfl
  | more p₁ cue effects turns others length sound =>
    obtain ⟨a, p', company, hends, hpost, heads⟩ := others.company table'
    exact ⟨_, p', company.cons Traffic.silent turns hat heads, hends, hpost⟩

end JointCircuit
