/-
JointCircuit.Proofs.Correspondence — what the parties write to each other arrives.

Between two exchanges a party runs errands: it queues messages for single
parties or for all of them, and takes messages that have arrived, in any
order. `converse` alternates errands and exchanges, by a plan that says
what each party does in each round. A plan is `Drained` if what was sent
in a round is taken in the next.

Under such a plan the parties move together, and a round is one line of
arithmetic on queues: after an exchange every queue holds what its sender
queued (`joint_converse`). The rest follows from what is known of joint
executions: they are what the lockstep transport does, and what parties
on channels settle on, whatever their pace.

Main statement: `correspondence` — if every frame fits a record, the
messages that a party takes from another in a round are those sent to it
in the round before, in order. Frames that fit no record are not covered:
`dictation_fails` is the smallest plan that shows it.
-/
import JointCircuit.Proofs.Interleaving
import JointCircuit.Proofs.Wiring
import Mathlib.Algebra.BigOperators.Fin
import Mathlib.Tactic.FinCases

namespace JointCircuit

open Evaluator

variable {m : Modulus} {n : Nat}

/-! ## §1 Errands -/

/-- What a party may do with its mailbox between two exchanges. -/
inductive Errand (n : Nat) where
  | send (peer : Fin n) (message : Bytes)
  | sendToAll (message : Bytes)
  | receive (peer : Fin n)
deriving DecidableEq

namespace Errand

/-- What an errand queues for a party. -/
def messagesFor (j : Fin n) : Errand n → Frame
  | .send peer message => if peer = j then [message] else []
  | .sendToAll message => [message]
  | .receive _ => []

/-- What errands queue for a party, in order. -/
def sentTo (j : Fin n) (errands : List (Errand n)) : Frame :=
  errands.flatMap (messagesFor j)

/-- How many messages of a party errands take. -/
def receipts (j : Fin n) (errands : List (Errand n)) : Nat :=
  errands.count (.receive j)

/-- Run errands, and return the messages taken, each with its sender. -/
def perform : List (Errand n) → Action Mailbox (List (Fin n × Bytes))
  | [] => return []
  | .send j message :: rest => do
    Mailbox.send (j.val + 1) message
    perform rest
  | .sendToAll message :: rest => do
    Mailbox.sendToAll message
    perform rest
  | .receive j :: rest => do
    let message ← Mailbox.receive (j.val + 1)
    let later ← perform rest
    return (j, message) :: later

/-- The messages among these that are from a party. -/
def heardFrom (j : Fin n) (heard : List (Fin n × Bytes)) : Frame :=
  heard.filterMap fun (i, message) => if i = j then some message else none

/-- What errands take from these queues, as long as they hold enough. -/
def hear : (Fin n → Frame) → List (Errand n) → List (Fin n × Bytes)
  | _, [] => []
  | incoming, .send _ _ :: rest => hear incoming rest
  | incoming, .sendToAll _ :: rest => hear incoming rest
  | incoming, .receive j :: rest =>
    (j, (incoming j).headD []) :: hear (Function.update incoming j (incoming j).tail) rest

variable {incoming outgoing : Fin n → Frame} {errands : List (Errand n)}

theorem receipts_cons (j : Fin n) (errand : Errand n) :
    receipts j (errand :: errands) = receipts j errands + if errand = .receive j then 1 else 0 := by
  rw [receipts, receipts, List.count_cons]
  simp only [beq_iff_eq]

theorem sentTo_cons (j : Fin n) (errand : Errand n) :
    sentTo j (errand :: errands) = errand.messagesFor j ++ sentTo j errands := by
  rw [sentTo, sentTo, List.flatMap_cons]

/-- Errands that take from a queue first find a message there. -/
theorem exists_head {i : Fin n} (h : receipts i (.receive i :: errands) ≤ (incoming i).length) :
    ∃ message rest, incoming i = message :: rest := by
  rw [receipts_cons, if_pos rfl] at h
  exact List.exists_cons_of_length_pos (by omega)

/-- What is left suffices for the rest. -/
theorem receipts_le_update {i : Fin n} {message : Bytes} {rest : Frame}
    (hi : incoming i = message :: rest)
    (h : ∀ j, receipts j (.receive i :: errands) ≤ (incoming j).length) (j : Fin n) :
    receipts j errands ≤ (Function.update incoming i rest j).length := by
  have hj := h j
  rw [receipts_cons] at hj
  by_cases hij : i = j
  · subst hij
    rw [if_pos rfl, hi, List.length_cons] at hj
    rw [Function.update_self]
    omega
  · rw [Function.update_of_ne (Ne.symm hij)]
    omega

/-- Errands take from the front of the queues and queue behind what is queued already. -/
theorem perform_ofPeers {party bytes : Nat} (h : ∀ j, receipts j errands ≤ (incoming j).length) :
    perform errands (.ofPeers party outgoing incoming bytes)
      = .ok (hear incoming errands) (.ofPeers party (fun j => outgoing j ++ sentTo j errands)
          (fun j => (incoming j).drop (receipts j errands)) bytes) := by
  induction errands generalizing incoming outgoing with
  | nil => simp [perform, hear, sentTo, receipts]
  | cons errand errands ih =>
    cases errand with
    | send i message =>
      have hout : (fun j => Function.update outgoing i (outgoing i ++ [message]) j
          ++ sentTo j errands) = fun j => outgoing j ++ sentTo j (.send i message :: errands) := by
        funext j
        by_cases hj : i = j
        · subst hj
          simp [sentTo_cons, messagesFor]
        · simp [sentTo_cons, messagesFor, hj, Function.update_of_ne (Ne.symm hj)]
      simp only [receipts_cons, reduceCtorEq, if_false, Nat.add_zero] at h ⊢
      simp only [perform, hear, Action.bind_apply, Mailbox.send_ofPeers, ih h, hout]
    | sendToAll message =>
      have hout : (fun j => outgoing j ++ [message] ++ sentTo j errands)
          = fun j => outgoing j ++ sentTo j (.sendToAll message :: errands) := by
        funext j
        simp [sentTo_cons, messagesFor]
      simp only [receipts_cons, reduceCtorEq, if_false, Nat.add_zero] at h ⊢
      simp only [perform, hear, Action.bind_apply, Mailbox.sendToAll_ofPeers, ih h, hout]
    | receive i =>
      obtain ⟨message, rest, hi⟩ := exists_head (h i)
      have hin : (fun j => (Function.update incoming i rest j).drop (receipts j errands))
          = fun j => (incoming j).drop (receipts j (.receive i :: errands)) := by
        funext j
        by_cases hj : i = j
        · subst hj
          simp [receipts_cons, hi]
        · simp [receipts_cons, hj, Function.update_of_ne (Ne.symm hj)]
      have hout : (fun j => outgoing j ++ sentTo j errands)
          = fun j => outgoing j ++ sentTo j (.receive i :: errands) := by
        funext j
        simp [sentTo_cons, messagesFor]
      simp only [perform, hear, Action.bind_apply, Mailbox.receive_ofPeers i hi,
        ih (receipts_le_update hi h), Action.pure_apply, hi, List.headD_cons, List.tail_cons, hin,
        hout]

/-- What errands take from a party is the front of its queue, in order. -/
theorem heardFrom_hear (h : ∀ j, receipts j errands ≤ (incoming j).length) (j : Fin n) :
    heardFrom j (hear incoming errands) = (incoming j).take (receipts j errands) := by
  induction errands generalizing incoming with
  | nil => simp [hear, heardFrom, receipts]
  | cons errand errands ih =>
    cases errand with
    | send i message =>
      simp only [receipts_cons, reduceCtorEq, if_false, Nat.add_zero] at h ⊢
      exact ih h
    | sendToAll message =>
      simp only [receipts_cons, reduceCtorEq, if_false, Nat.add_zero] at h ⊢
      exact ih h
    | receive i =>
      obtain ⟨message, rest, hi⟩ := exists_head (h i)
      have hrest := ih (receipts_le_update hi h)
      rw [hear, hi, List.headD_cons, List.tail_cons]
      by_cases hj : i = j
      · subst hj
        rw [Function.update_self] at hrest
        rw [receipts_cons, if_pos rfl, hi, List.take_succ_cons, ← hrest]
        simp [heardFrom]
      · rw [Function.update_of_ne (Ne.symm hj)] at hrest
        rw [receipts_cons, if_neg (by simpa using hj), Nat.add_zero, ← hrest]
        simp [heardFrom, hj]

end Errand

open Errand

/-! ## §2 Conversations -/

/-- What every party does in each round. -/
abbrev Plan (n : Nat) := Nat → Fin n → List (Errand n)

namespace Plan

/-- What the parties have sent to a party when it runs the errands of a round. -/
def inbox (plan : Plan n) : (round : Nat) → Fin n → Fin n → Frame
  | 0, _, _ => []
  | k + 1, j, i => sentTo j (plan k i)

/-- The frames that the parties hand to the transport after a round. -/
def framesAt (plan : Plan n) (k : Nat) (i : Fin n) : List Frame :=
  framesOf i fun j => sentTo j (plan k i)

/-- Every message is taken in the round after the one in which it was sent. -/
structure Drained (plan : Plan n) (flushes : Nat) : Prop where
  first : ∀ i j, receipts i (plan 0 j) = 0
  later : ∀ k < flushes, ∀ i j, receipts i (plan (k + 1) j) = (sentTo j (plan k i)).length

/-- What a party sends to another in one round fits a record. -/
def Fits (plan : Plan n) (flushes : Nat) : Prop :=
  ∀ k < flushes, ∀ i j, i ≠ j → (Frame.put? (sentTo j (plan k i))).isSome

theorem Drained.receipts_eq {plan : Plan n} {flushes : Nat} (h : plan.Drained flushes) :
    ∀ k ≤ flushes, ∀ i j, receipts i (plan k j) = (plan.inbox k j i).length
  | 0, _, i, j => h.first i j
  | k + 1, hk, i, j => h.later k hk i j

end Plan

/-- One party runs the errands of the rounds from `k` on, with an exchange after each round but the
last. It returns what it took, round by round. -/
def converse (errands : Nat → List (Errand n)) :
    (flushes k : Nat) → Eval m (List (List (Fin n × Bytes)))
  | 0, k => do
    let heard ← onMailbox (perform (errands k))
    return [heard]
  | flushes + 1, k => do
    let heard ← onMailbox (perform (errands k))
    flush
    let later ← converse errands flushes (k + 1)
    return heard :: later

/-- A party with these queues. -/
def Evaluator.withMailbox (e : Evaluator m) (mailbox : Mailbox) : Evaluator m :=
  { e with participant := { e.participant with mailbox } }

/-- A party that runs errands takes its whole inbox. -/
theorem perform_inbox {plan : Plan n} {k : Nat} {i : Fin n} {e : Evaluator m} {bytes : Nat}
    (hreceipts : ∀ j, receipts j (plan k i) = (plan.inbox k i j).length)
    (hbox : e.participant.mailbox = .ofPeers (i + 1) (fun _ => []) (plan.inbox k i) bytes) :
    (onMailbox (perform (plan k i)) : Eval m _) e
      = .finished (.ok (hear (plan.inbox k i) (plan k i)),
          e.withMailbox (.ofPeers (i + 1) (fun j => sentTo j (plan k i)) (fun _ => []) bytes)) := by
  have htaken : (fun j => (plan.inbox k i j).drop (receipts j (plan k i))) = fun _ => [] := by
    funext j
    rw [hreceipts j, List.drop_length]
  have hperform : perform (plan k i) e.participant.mailbox
      = .ok (hear (plan.inbox k i) (plan k i))
          (.ofPeers (i + 1) (fun j => sentTo j (plan k i)) (fun _ => []) bytes) := by
    rw [hbox, perform_ofPeers fun j => Nat.le_of_eq (hreceipts j), htaken]
    rfl
  exact onMailbox_of_ok hperform

/-- The parties converse together. -/
theorem joint_converse {plan : Plan n} {flushes k : Nat}
    (hreceipts : ∀ k' ≤ k + flushes, ∀ i j, receipts i (plan k' j) = (plan.inbox k' j i).length)
    {e : Fin n → Evaluator m} {bytes : Fin n → Nat}
    (hbox : ∀ i, (e i).participant.mailbox
      = .ofPeers (i + 1) (fun _ => []) (plan.inbox k i) (bytes i)) :
    ∃ e' : Fin n → Evaluator m,
      Joint (fun i => converse (plan · i) flushes k (e i))
        ((List.range' k flushes).map plan.framesAt)
        (fun i =>
          (.ok ((List.range' k (flushes + 1)).map fun k => hear (plan.inbox k i) (plan k i)),
            e' i))
      ∧ ∀ i, (e' i).bytesSent = bytes i
          + ((List.range' k flushes).map fun k =>
              (plan.framesAt k i).flatten.flatten.length).sum := by
  induction flushes generalizing k e bytes with
  | zero =>
    have hperform := fun i => perform_inbox (fun j => hreceipts k (Nat.le_refl _) j i) (hbox i)
    refine ⟨_, joint_step hperform (.finished _), fun i => rfl⟩
  | succ flushes ih =>
    have hperform := fun i => perform_inbox (fun j => hreceipts k (Nat.le_add_right _ _) j i)
      (hbox i)
    let outbox (i : Fin n) : Mailbox :=
      .ofPeers (i + 1) (fun j => sentTo j (plan k i)) (fun _ => []) (bytes i)
    have houtbox : ∀ i, ((e i).withMailbox (outbox i)).participant.mailbox = outbox i :=
      fun i => rfl
    have hflush := joint_flush_counted houtbox
    let inbox (i : Fin n) : Mailbox := .ofPeers (i + 1) (fun _ => []) (plan.inbox (k + 1) i)
      (bytes i + (plan.framesAt k i).flatten.flatten.length)
    let flushed (i : Fin n) : Evaluator m :=
      ⟨⟨(e i).participant.pool, inbox i⟩, (e i).rounds + 1, (e i).protocols⟩
    have hinbox : ∀ i, (flushed i).participant.mailbox = inbox i := fun i => rfl
    obtain ⟨e', hlater, hbytes⟩ := ih (fun k' hk' => hreceipts k' (by omega)) hinbox
    have hrest := joint_bind (f := fun i later => pure (hear (plan.inbox k i) (plan k i) :: later))
      hlater (.finished _)
    rw [List.append_nil] at hrest
    refine ⟨e', joint_step hperform (joint_bind hflush hrest), fun i => ?_⟩
    rw [hbytes i, List.range'_succ, List.map_cons, List.sum_cons, Nat.add_assoc]

/-! ## §3 What is on the way -/

/-- Handing out frames counts the messages for the peers, and not the own ones. -/
theorem length_framesOf (i : Fin n) (outgoing : Fin n → Frame) :
    (framesOf i outgoing).flatten.flatten.length
      = ∑ j ∈ Finset.univ.erase i, (outgoing j).flatten.length := by
  have hall : (framesOf i outgoing).flatten.flatten.length
      = ∑ j, (Function.update outgoing i [] j).flatten.length := by
    rw [framesOf, List.flatten_flatten, List.length_flatten, List.map_map, List.map_ofFn,
      List.sum_ofFn]
    rfl
  rw [hall, ← Finset.add_sum_erase _ _ (Finset.mem_univ i), Function.update_self]
  simp only [List.flatten_nil, List.length_nil, Nat.zero_add]
  refine Finset.sum_congr rfl fun j hj => ?_
  rw [Function.update_of_ne (Finset.ne_of_mem_erase hj)]

namespace Plan

variable {plan : Plan n} {flushes : Nat}

theorem Fits.fitting (h : plan.Fits flushes) :
    Fitting ((List.range flushes).map plan.framesAt) := by
  intro frames hframes i frame hframe
  obtain ⟨k, hk, rfl⟩ := List.mem_map.mp hframes
  obtain ⟨j, rfl⟩ := List.mem_ofFn.mp hframe
  by_cases hj : j = i
  · subst hj
    rw [Function.update_self]
    decide
  · rw [Function.update_of_ne hj]
    exact h k (List.mem_range.mp hk) i j (Ne.symm hj)

/-- What is delivered to a party after a round: one frame from each peer, lowest peer first. -/
theorem deliveryTo_framesAt (plan : Plan n) (k : Nat) (i : Fin n) :
    Lockstep.deliveryTo (i + 1) (List.ofFn (plan.framesAt k))
      = ((List.finRange n).filter (· ≠ i)).map fun j => (j.val + 1, sentTo i (plan k j)) := by
  rw [Lockstep.deliveryTo_ofFn]
  refine List.map_congr_left fun j hj => ?_
  have hne : j ≠ i := by simpa using (List.mem_filter.mp hj).2
  rw [framesAt, getD_framesOf hne]

end Plan

/-! ## §4 Correspondence -/

/-- The conversation that follows a plan delivers everything to everyone: `heard` is what the
parties took, by round and party, and `e'` is what they are left with. -/
structure Plan.Delivers (plan : Plan n) (flushes : Nat) (e : Fin n → Evaluator m)
    (heard : Nat → Fin n → List (Fin n × Bytes)) (e' : Fin n → Evaluator m) : Prop where
  /-- Nothing arrives before it was sent. -/
  heard_first : ∀ i j, heardFrom i (heard 0 j) = []
  /-- What was sent in a round arrives in the next, from whom it was sent and in its order. -/
  heard_next : ∀ k < flushes, ∀ i j, heardFrom i (heard (k + 1) j) = sentTo j (plan k i)
  /-- Every exchange brings one frame from each peer, lowest peer first. -/
  replies : ∀ i, Session.Run (converse (plan · i) flushes 0 (e i))
    ((List.range flushes).map fun k =>
      .ok (((List.finRange n).filter (· ≠ i)).map fun j => (j.val + 1, sentTo i (plan k j))))
    (.ok ((List.range (flushes + 1)).map (heard · i)), e' i)
  /-- The lockstep transport leads to this, and every party hands out what its plan says. -/
  lockstep : Lockstep.runHonest (List.ofFn fun i => converse (plan · i) flushes 0 (e i))
    = List.ofFn fun i => ⟨(.ok ((List.range (flushes + 1)).map (heard · i)), e' i),
        (List.range flushes).map fun k => plan.framesAt k i⟩
  /-- Parties on channels settle on this, in whatever order things happen. -/
  settles : Concourse.Settles (fun i => converse (plan · i) flushes 0 (e i))
    ((List.range flushes).map plan.framesAt)
    fun i => (.ok ((List.range (flushes + 1)).map (heard · i)), e' i)
  /-- A party counts what it sent to others. -/
  bytesSent : ∀ i, (e' i).bytesSent
    = ∑ k ∈ Finset.range flushes, ∑ j ∈ Finset.univ.erase i, (sentTo j (plan k i)).flatten.length

/-- If every message is taken in the round after it was sent and every frame fits a record, the
conversation delivers everything. -/
theorem Plan.Drained.delivers {plan : Plan n} {flushes : Nat} (hdrained : plan.Drained flushes)
    (hfits : plan.Fits flushes) {e : Fin n → Evaluator m}
    (hnew : ∀ i, (e i).participant.mailbox = .new (i + 1) n) :
    ∃ heard e', plan.Delivers flushes e heard e' := by
  have hbox : ∀ i, (e i).participant.mailbox
      = .ofPeers (i + 1) (fun _ => []) (plan.inbox 0 i) 0 := fun i => by
    rw [hnew i, Mailbox.new_eq_ofPeers]
    rfl
  have hreceipts : ∀ k ≤ 0 + flushes, ∀ i j, receipts i (plan k j) = (plan.inbox k j i).length :=
    fun k hk => hdrained.receipts_eq k (by omega)
  obtain ⟨e', hjoint, hbytes⟩ := joint_converse hreceipts hbox
  rw [← List.range_eq_range', ← List.range_eq_range'] at hjoint
  have hheard : ∀ k ≤ flushes, ∀ i j,
      heardFrom i (hear (plan.inbox k j) (plan k j)) = plan.inbox k j i := fun k hk i j => by
    have hcount := hdrained.receipts_eq k hk
    rw [heardFrom_hear fun i => Nat.le_of_eq (hcount i j), hcount, List.take_length]
  refine ⟨fun k i => hear (plan.inbox k i) (plan k i), e',
    { heard_first := hheard 0 (Nat.zero_le _)
      heard_next := fun k hk => hheard (k + 1) hk
      replies := fun i => ?_
      lockstep := ?_
      settles := hjoint.settles hfits.fitting
      bytesSent := fun i => ?_ }⟩
  · have hrun := hjoint.run_repliesTo i
    simp only [repliesTo, List.map_map, Function.comp_def, plan.deliveryTo_framesAt] at hrun
    exact hrun
  · rw [Lockstep.runHonest_eq_of_joint hjoint hfits.fitting]
    simp only [List.map_map, Function.comp_def]
  · rw [hbytes i, Nat.zero_add, ← List.range_eq_range']
    simp only [Plan.framesAt, length_framesOf]
    rfl

/-- A mailbox that holds a message nobody took hands out nothing and stays as it is. -/
theorem Mailbox.takeOutgoing_of_leftover {box : Mailbox}
    (h : ∃ frame ∈ box.incoming, frame ≠ []) :
    ∃ count party, box.takeOutgoing = .error (.protocol (.unconsumed count party)) box := by
  obtain ⟨frame, hmem, hframe⟩ := h
  cases hindex : box.incoming.findIdx? (!·.isEmpty) with
  | none =>
    rw [List.findIdx?_eq_none_iff] at hindex
    have := hindex frame hmem
    simp [hframe] at this
  | some i =>
    refine ⟨(box.incoming.getD i []).length, i + 1, ?_⟩
    simp only [takeOutgoing, ensureDrained, leftover?, hindex, Action.bind_apply, Action.get_apply,
      Action.throw_apply]

/-- Reliable messaging. A conversation whose frames fit their records delivers every message in the
next round, in order, to whom it was sent, and nothing else. The ends that two parties hold for
each other belong to one duplex, nobody else holds them, and what is written to one is read from
the other; nobody holds an end for itself. An exchange on channels that ends brings one record from
each peer, lowest peer first, and each is the one that waited first. A mailbox with a message that
nobody took refuses to hand out frames and stays as it is. -/
theorem correspondence {plan : Plan n} {flushes : Nat} (hdrained : plan.Drained flushes)
    (hfits : plan.Fits flushes) {e : Fin n → Evaluator m}
    (hnew : ∀ i, (e i).participant.mailbox = .new (i + 1) n) :
    (∃ heard e', plan.Delivers flushes e heard e')
    ∧ (∀ i j : Fin n, i ≠ j → ∃ plug, Board.Connects n i j plug)
    ∧ (∀ i : Fin n, Board.wired n i i = none)
    ∧ (∀ (c c' : Channels) (party : Nat) (messages : List Bytes) (received : List (Nat × Bytes)),
        messages.length = c.parties →
        Channels.exchange party messages c = .ok (some received) c' →
        received.map (·.1) = (List.range' 1 c.parties).filter (· ≠ party)
        ∧ ∀ entry ∈ received, (c.queue entry.1 party).head? = some entry.2)
    ∧ ∀ box : Mailbox, (∃ frame ∈ box.incoming, frame ≠ []) →
        ∃ count party, box.takeOutgoing = .error (.protocol (.unconsumed count party)) box := by
  exact ⟨hdrained.delivers hfits hnew, fun _ _ => Board.exists_connects,
    fun i => Board.wired_self n i, fun _ _ _ _ _ => Channels.exchange_eq_ok,
    fun _ => Mailbox.takeOutgoing_of_leftover⟩

/-- A party that only takes part in conversations. -/
def bystander (n : Nat) (i : Fin n) : Evaluator .mersenne61 where
  participant := .new
    { party := i + 1
      parties := n
      keyShare := 0
      supplier := .dealt ⟨⟨n, i + 1, 0, [], [], []⟩⟩
      localGenerator := .ofPartySeed (Vector.replicate 32 0) }

/-- Three of the parties. The first writes to all and once more to the second; the third answers
both, and writes to itself. The first takes its two messages in the other order. -/
def chatter (first second third : Fin n) : Plan n
  | 0, i =>
    if i = first then [.sendToAll [1], .send second [2]]
    else if i = third then [.send third [3]]
    else []
  | 1, i =>
    if i = first then [.receive first]
    else if i = second then [.receive first, .send first [4], .receive first]
    else if i = third then [.receive third, .send first [5], .receive first, .send first []]
    else []
  | 2, i => if i = first then [.receive third, .receive second, .receive third] else []
  | _, _ => []

/-- Their conversation. -/
theorem correspondence_chatter :
    (chatter (0 : Fin 3) 1 2).Drained 2 ∧ (chatter (0 : Fin 3) 1 2).Fits 2
    ∧ ∃ heard e', (chatter (0 : Fin 3) 1 2).Delivers 2 (bystander 3) heard e'
      ∧ heardFrom 2 (heard 2 0) = [[5], []] ∧ ∀ i, (e' i).bytesSent = if i = 0 then 3 else 1 := by
  have hdrained : (chatter (0 : Fin 3) 1 2).Drained 2 := ⟨by decide, by decide⟩
  have hfits : (chatter (0 : Fin 3) 1 2).Fits 2 := by
    unfold Plan.Fits
    decide
  obtain ⟨⟨heard, e', hdelivers⟩, -⟩ :=
    correspondence hdrained hfits (e := bystander 3) fun i => rfl
  refine ⟨hdrained, hfits, heard, e', hdelivers, ?_, fun i => ?_⟩
  · rw [hdelivers.heard_next 1 (by decide)]
    decide
  · rw [hdelivers.bytesSent i]
    revert i
    decide

/-! ## §5 Frames that are too long -/

/-- One party sends another one message. -/
def dictation (sender receiver : Fin n) (message : Bytes) : Plan n
  | 0, i => if i = sender then [.send receiver message] else []
  | 1, i => if i = receiver then [.receive sender] else []
  | _, _ => []

theorem drained_dictation (message : Bytes) : (dictation (0 : Fin 2) 1 message).Drained 1 where
  first := by
    intro i j
    fin_cases j <;> rfl
  later := by
    intro k hk i j
    obtain rfl : k = 0 := by omega
    fin_cases i <;> fin_cases j <;> rfl

/-- A party whose exchange fails gives up the conversation. -/
theorem converse_exchange {plan : Plan n} {flushes k : Nat} {i : Fin n} {e : Evaluator m}
    {bytes : Nat} (hreceipts : ∀ j, receipts j (plan k i) = (plan.inbox k i j).length)
    (hbox : e.participant.mailbox = .ofPeers (i + 1) (fun _ => []) (plan.inbox k i) bytes) :
    ∃ resume, converse (plan · i) (flushes + 1) k e = .exchange (plan.framesAt k i) resume
      ∧ ∀ cause, ∃ e', resume (.error cause) = .finished (.error (.transport cause), e') := by
  rw [converse, bind_of_ok (perform_inbox hreceipts hbox), bind_apply]
  unfold flush
  rw [bind_of_ok (onMailbox_of_ok (Mailbox.takeOutgoing_ofPeers i)), bind_apply, lift_apply]
  exact ⟨_, rfl, fun cause => ⟨_, rfl⟩⟩

/-- A message that is as long as a record may be reaches nobody: the exchange fails for both. -/
theorem dictation_fails {message : Bytes} (hlong : Frame.recordLimit ≤ message.length) :
    (Lockstep.runHonest (List.ofFn fun i =>
        converse (dictation (0 : Fin 2) 1 message · i) 1 0 (bystander 2 i))).map (·.result.1)
      = [.error (.transport (.send 2)), .error (.transport (.receive 1))] := by
  have hexchange : ∀ i : Fin 2, ∃ resume,
      converse (dictation (0 : Fin 2) 1 message · i) 1 0 (bystander 2 i)
        = .exchange ((dictation (0 : Fin 2) 1 message).framesAt 0 i) resume
      ∧ ∀ cause, ∃ e', resume (.error cause) = .finished (.error (.transport cause), e') :=
    fun i => converse_exchange
      (fun j => (drained_dictation message).receipts_eq 0 (Nat.zero_le _) j i)
      (Mailbox.new_eq_ofPeers (i + 1) 2)
  choose resume hconverse hresume using hexchange
  obtain ⟨e₀, hfirst⟩ := hresume 0 (.send 2)
  obtain ⟨e₁, hsecond⟩ := hresume 1 (.receive 1)
  have hput : Frame.put? [message] = none :=
    Frame.put?_eq_none (List.mem_singleton_self message) hlong
  have hreceptions : Lockstep.receptions [[[], [message]], [[], []]]
      = [.error (.send 2), .error (.receive 1)] := by
    simp [Lockstep.receptions, Lockstep.oversized?, hput, List.range_succ]
  have hsessions :
      (List.ofFn fun i =>
          Session.exchange ((dictation (0 : Fin 2) 1 message).framesAt 0 i) (resume i))
        = [.exchange [[], [message]] (resume 0), .exchange [[], []] (resume 1)] := rfl
  rw [funext hconverse, hsessions]
  simp [Lockstep.runHonest, Lockstep.run, Lockstep.runFrom, Lockstep.waiting?, hreceptions, hfirst,
    hsecond, Lockstep.record, Lockstep.abandonAll, Lockstep.abandon]

/-- The smallest plan that is drained and yet not delivered: its one message does not fit. -/
theorem dictation_not_delivered :
    (dictation (0 : Fin 2) 1 (List.replicate Frame.recordLimit 0)).Drained 1
    ∧ ¬ ∃ heard e', (dictation (0 : Fin 2) 1 (List.replicate Frame.recordLimit 0)).Delivers 1
      (bystander 2) heard e' := by
  refine ⟨drained_dictation _, ?_⟩
  rintro ⟨heard, e', hdelivers⟩
  have hfails := dictation_fails (Nat.le_of_eq
    (List.length_replicate (n := Frame.recordLimit) (a := (0 : UInt8))).symm)
  rw [hdelivers.lockstep] at hfails
  simp at hfails

end JointCircuit
