/-
JointCircuit.Proofs.Handover — from one round of a batch to the next.

Several protocols that run at the same time share one queue for each
pair of parties, and nothing in a queue says which protocol a message
belongs to. What keeps them apart is the order: all parties evaluate
their protocols in the same order, each of them queues as much as its
counterpart takes after the exchange (JointCircuit.Proofs.Symmetry), so
the queue is cut at the same places where it was put together (§2).

A protocol that ends queues nothing. So an evaluator that had nothing
queued has nothing queued when its protocols are over, and never has to
complain about it (§3); one with messages left from a call that failed
has (`sentInFinalRound_reached`, §4).

Main statement: `rounds_match` (§4).
-/
import JointCircuit.Proofs.Lockstep
import JointCircuit.Proofs.Symmetry
import JointCircuit.Proofs.Traffic

namespace JointCircuit

open JointCircuit.Action Evaluator

variable {m : Modulus} {n : Nat} {π ρ α β : Type}

/-! ## §1 Exchanges between honest parties -/

namespace Delivery

theorem sentBy_cons (party : Nat) (frame : Frame) (rest : Delivery) (j : Nat) :
    sentBy ((party, frame) :: rest) j = (if party = j + 1 then frame else []) ++ sentBy rest j := by
  by_cases hparty : party = j + 1 <;> simp [sentBy, hparty]

/-- Of every peer there is one frame, and the own one is missing. -/
theorem sentBy_deliveryTo (i j : Fin n) (frames : Fin n → List Frame) :
    sentBy (Lockstep.deliveryTo (j + 1) (List.ofFn frames)) i
      = if i = j then [] else (frames i).getD j [] := by
  have hpeers : ∀ peers : List (Fin n), peers.Nodup →
      sentBy (peers.map fun k => (k.val + 1, (frames k).getD j [])) i
        = if i ∈ peers then (frames i).getD j [] else [] := by
    intro peers hnodup
    induction peers with
    | nil => rfl
    | cons k rest ih =>
      obtain ⟨hk, hrest⟩ := List.nodup_cons.mp hnodup
      rw [List.map_cons, sentBy_cons, ih hrest]
      by_cases hik : i = k
      · subst hik
        rw [if_pos rfl, if_neg hk, if_pos List.mem_cons_self, List.append_nil]
      · have hval : k.val + 1 ≠ i.val + 1 := fun h => hik (Fin.ext (Nat.succ.inj h).symm)
        rw [if_neg hval, List.nil_append]
        simp only [List.mem_cons, hik, false_or]
  rw [Lockstep.deliveryTo_ofFn, hpeers _ ((List.nodup_finRange n).filter _)]
  by_cases hij : i = j <;> simp [hij]

end Delivery

namespace Mailbox

/-- After frames have left nothing is queued, whatever is delivered. -/
theorem hasOutgoing_of_exchange {box box' box'' : Mailbox} {frames : List Frame}
    {delivery : Delivery} (htake : takeOutgoing box = .ok frames box')
    (hdeliver : deliver delivery box' = .ok () box'') : box''.hasOutgoing = false := by
  have hletters : box''.letters = box.letters.map fun _ => [] := by
    have houtgoing := (deliver_outgoing delivery box').1
    rw [hdeliver, endState_ok] at houtgoing
    rw [letters, houtgoing]
    exact (takeOutgoing_letters htake).2.1
  rw [hasOutgoing, List.any_eq_false]
  intro frame hframe
  have hmem : frame.map List.length ∈ box''.letters := List.mem_map_of_mem hframe
  rw [hletters] at hmem
  obtain ⟨_, -, hempty⟩ := List.mem_map.mp hmem
  simp [List.map_eq_nil_iff.mp hempty.symm]

/-- Between honest parties every message queued arrives in the queue of its sender. -/
theorem queue_of_exchange {boxes left arrived : Fin n → Mailbox} {frames : Fin n → List Frame}
    (seat : ∀ i, (boxes i).party = i + 1) (shaped : ∀ i, (boxes i).Shaped n)
    (htake : ∀ i, takeOutgoing (boxes i) = .ok (frames i) (left i))
    (hdeliver : ∀ i : Fin n,
      deliver (Lockstep.deliveryTo (i + 1) (List.ofFn frames)) (left i) = .ok () (arrived i))
    (i j : Fin n) : (arrived j).queue i = (boxes i).outbox j := by
  obtain ⟨-, hshaped, hlooped⟩ := takeOutgoing_eq_ok (shaped j) (htake j)
  obtain ⟨-, -, hqueue⟩ := deliver_eq_ok hshaped (hdeliver j)
  rw [hqueue i, hlooped i, Delivery.sentBy_deliveryTo, looped, seat j]
  by_cases hij : i = j
  · subst hij
    rw [if_pos rfl, if_pos rfl, List.append_nil]
    rfl
  · have hval : j.val ≠ i.val := fun h => hij (Fin.ext h.symm)
    rw [if_neg hij, if_neg (fun h => hval (Nat.succ.inj h).symm), List.nil_append,
      (takeOutgoing_letters (htake i)).1, seat i, Nat.add_sub_cancel, outbox,
      List.getD_eq_getElem?_getD, List.getD_eq_getElem?_getD, List.getElem?_set_ne hval.symm]

end Mailbox

/-! ## §2 Batches -/

namespace Played

/-- Rounds that a participant evaluates one after another. -/
inductive Chain : Participant m → List (Played m) → Participant m → Prop
  | nil (w : Participant m) : Chain w [] w
  | cons {w' : Participant m} {r : Played m} {rest : List (Played m)}
      (h : Chain r.after.2 rest w') : Chain r.before.2 (r :: rest) w'

variable {w w' : Participant m} {rounds : List (Played m)}

theorem Chain.cons_iff {r : Played m} :
    Chain w (r :: rounds) w' ↔ r.before.2 = w ∧ Chain r.after.2 rounds w' := by
  constructor
  · rintro ⟨⟩
    exact ⟨rfl, ‹_›⟩
  · rintro ⟨rfl, h⟩
    exact .cons h

/-- What every single step respects is respected up to every round. -/
theorem Chain.respects {R : Participant m → Participant m → Prop} [hR : Manners R]
    (h : Chain w rounds w') (genuine : ∀ r ∈ rounds, r.Genuine n) :
    R w w' ∧ ∀ r ∈ rounds, R w r.before.2 := by
  induction h with
  | nil w => exact ⟨hR.refl w, fun _ hr => absurd hr List.not_mem_nil⟩
  | @cons w' r rest h ih =>
    obtain ⟨hlast, hrest⟩ := ih fun s hs => genuine s (List.mem_cons_of_mem _ hs)
    have hround : R r.before.2 r.after.2 := by
      rw [(genuine r List.mem_cons_self).evaluated]
      exact Task.respects (R := R) r.number r.before
    refine ⟨hR.trans _ _ _ hround hlast, fun s hs => ?_⟩
    obtain rfl | hs := List.mem_cons.mp hs
    · exact hR.refl _
    · exact hR.trans _ _ _ hround (hrest s hs)

/-- What is queued in the end is what was queued before, and then what every round has queued. -/
theorem Chain.outbox_eq (h : Chain w rounds w') (genuine : ∀ r ∈ rounds, r.Genuine n) (j : Nat) :
    w'.mailbox.outbox j = w.mailbox.outbox j ++ rounds.flatMap (·.sent j) := by
  induction h with
  | nil w => exact (List.append_nil _).symm
  | @cons w' r rest h ih =>
    rw [ih fun s hs => genuine s (List.mem_cons_of_mem _ hs),
      Played.outbox_eq (genuine r List.mem_cons_self).evaluated, List.flatMap_cons,
      List.append_assoc]

/-- Whether the protocol goes on after the round. -/
def goesOn (r : Played m) : Bool :=
  match Task.evaluate r.number r.before with
  | .ok .more _ => true
  | _ => false

theorem Answers.goesOn_eq {r : Played m} {status : Status} (h : r.Answers status) :
    r.goesOn = decide (status = .more) := by
  rw [goesOn, h]
  cases status <;> rfl

end Played

/-- The rounds of a batch between two exchanges, listed by protocol: all parties evaluate the same
protocols in the same order, and honest parties exchange what they have queued. -/
structure Batch (n : Nat) (rounds : List (Fin n → Played m))
    (before after arrived : Fin n → Participant m) : Prop where
  seat : ∀ i, (before i).pool.party = i + 1 ∧ (before i).mailbox.party = i + 1
  shaped : ∀ i, (before i).mailbox.Shaped n
  quiet : ∀ i, (before i).mailbox.hasOutgoing = false
  chain : ∀ i, Played.Chain (before i) (rounds.map (· i)) (after i)
  counterparts : ∀ r ∈ rounds, ∀ i j, Played.Counterparts n (r i) (r j)
  succeeded : ∀ r ∈ rounds, ∀ i, ∃ status, (r i).Answers status
  exchanged : ∃ (frames : Fin n → List Frame) (left : Fin n → Mailbox),
    (∀ i, Mailbox.takeOutgoing (after i).mailbox = .ok (frames i) (left i))
    ∧ ∀ i : Fin n, Mailbox.deliver (Lockstep.deliveryTo (i + 1) (List.ofFn frames)) (left i)
      = .ok () (arrived i).mailbox

/-- What adds nothing may be left out. -/
theorem flatMap_filter {xs : List α} {p : α → Bool} {f : α → List β}
    (h : ∀ x ∈ xs, p x = false → f x = []) : (xs.filter p).flatMap f = xs.flatMap f := by
  induction xs with
  | nil => rfl
  | cons x xs ih =>
    have ih := ih fun y hy => h y (List.mem_cons_of_mem x hy)
    cases hx : p x with
    | true => rw [List.filter_cons_of_pos hx, List.flatMap_cons, List.flatMap_cons, ih]
    | false =>
      rw [List.filter_cons_of_neg (by rw [hx]; nofun), ih, List.flatMap_cons,
        h x List.mem_cons_self hx, List.nil_append]

namespace Batch

variable {rounds : List (Fin n → Played m)} {before after arrived : Fin n → Participant m}

theorem genuine (h : Batch n rounds before after arrived) (i : Fin n) :
    ∀ r ∈ rounds.map (· i), r.Genuine n := by
  refine List.forall_mem_map.mpr fun r hr => ?_
  obtain ⟨_, _, -, hround, -⟩ := (h.counterparts r hr i i).kinds
  exact hround.genuine

theorem party (h : Batch n rounds before after arrived) {r : Fin n → Played m} (hr : r ∈ rounds)
    (i : Fin n) : (r i).before.2.pool.party = i + 1 := by
  have hstays := ((h.chain i).respects (R := Stays) (h.genuine i)).2 (r i)
    (List.mem_map_of_mem hr)
  exact hstays.party.trans (h.seat i).1

/-- After the exchange the queue of a party holds what its rounds have queued, in order. -/
theorem queue_eq (h : Batch n rounds before after arrived) (i j : Fin n) :
    (arrived j).mailbox.queue i = rounds.flatMap fun r => (r i).sent j := by
  have hserves (k : Fin n) : Serves (before k) (after k) :=
    ((h.chain k).respects (h.genuine k)).1
  have hshaped (k : Fin n) : (after k).mailbox.Shaped n :=
    ⟨(hserves k).party ▸ (h.shaped k).party_pos, (hserves k).party ▸ (h.shaped k).party_le,
      (hserves k).outgoing.trans (h.shaped k).outgoing,
      (hserves k).incoming.trans (h.shaped k).incoming⟩
  obtain ⟨frames, left, htake, hdeliver⟩ := h.exchanged
  rw [Mailbox.queue_of_exchange (fun k => (hserves k).party.trans (h.seat k).2) hshaped htake
      hdeliver i j, (h.chain i).outbox_eq (h.genuine i),
    Mailbox.hasOutgoing_eq_false.mp (h.quiet i), List.nil_append, List.flatMap_map]

/-- A protocol that goes on at one party goes on at all of them; one that ends queues nothing. -/
theorem answers (h : Batch n rounds before after arrived) {r : Fin n → Played m} (hr : r ∈ rounds)
    (j : Fin n) : ((r j).goesOn = true → ∀ i, (r i).Answers .more)
      ∧ ((r j).goesOn = false → ∀ i, (r i).sent j = []) := by
  obtain ⟨status, hstatus⟩ := h.succeeded r hr j
  have hall (i : Fin n) : (r i).Answers status := by
    obtain ⟨status', hstatus'⟩ := h.succeeded r hr i
    rwa [(h.counterparts r hr i j).status_eq hstatus' hstatus]
  rw [hstatus.goesOn_eq]
  cases status with
  | more => exact ⟨fun _ => hall, nofun⟩
  | done =>
    refine ⟨nofun, fun _ i => List.eq_nil_of_length_eq_zero ((hall i).length_sent ?_)⟩
    rw [(h.genuine i (r i) (List.mem_map_of_mem hr)).shaped.outgoing]
    exact j.isLt

/-- Rounds that are evaluated from queues which begin with the messages for them, in order, take
each its own messages. -/
theorem taken_eq {j : Fin n} {due : List (Fin n → Played m)}
    (counterparts : ∀ r ∈ due, ∀ i j, Played.Counterparts n (r i) (r j))
    (goOn : ∀ r ∈ due, ∀ i, (r i).Answers .more)
    (seat : ∀ r ∈ due, ∀ i, (r i).before.2.pool.party = i.val + 1)
    {later : List ((Fin n → Played m) × Played m)} {w w' : Participant m}
    (chain : Played.Chain w (later.map (·.2)) w') (order : later.map (·.1) <+: due)
    (follows : ∀ p ∈ later, (p.1 j).Follows n p.2)
    (hqueue : ∀ i : Fin n, w.mailbox.queue i = due.flatMap fun r => (r i).sent j) :
    ∀ p ∈ later, ∀ i : Fin n, p.2.taken i = (p.1 i).sent j := by
  induction later generalizing due w with
  | nil => exact fun p hp => absurd hp List.not_mem_nil
  | cons p rest ih =>
    obtain ⟨others, rfl⟩ := order
    obtain ⟨rfl, hchain⟩ := Played.Chain.cons_iff.mp chain
    have hfollows := follows p List.mem_cons_self
    have hmem : p.1 ∈ (p :: rest).map (·.1) ++ others := List.mem_cons_self
    have happetite (i : Fin n) : p.2.before.1.appetite p.2.number i = ((p.1 i).sent j).length :=
      (counterparts p.1 hmem i j).appetite_eq (goOn p.1 hmem i) (goOn p.1 hmem j) hfollows
        (seat p.1 hmem i) j.isLt
    have hsplit (i : Fin n) : p.2.taken i ++ p.2.after.2.mailbox.queue i
        = (p.1 i).sent j ++ (rest.map (·.1) ++ others).flatMap fun r => (r i).sent j := by
      rw [← hfollows.genuine.queue_eq i, hqueue i]
      rfl
    -- No queue is too short, so the round takes as much as was queued for it.
    have hlength (i : Fin n) : (p.2.taken i).length = ((p.1 i).sent j).length := by
      obtain htaken | ⟨_, -, k, hk, hshort, -⟩ := hfollows.genuine.length_taken_or_lacking
      · exact (htaken i i.isLt).trans (happetite i)
      · rw [hfollows.genuine.shaped.incoming] at hk
        have hlong := congrArg List.length (hqueue ⟨k, hk⟩)
        rw [List.map_cons, List.cons_append, List.flatMap_cons, List.length_append,
          ← happetite ⟨k, hk⟩] at hlong
        dsimp only at hlong
        omega
    have hboth (i : Fin n) := List.append_inj (hsplit i) (hlength i)
    intro q hq
    obtain rfl | hq := List.mem_cons.mp hq
    · exact fun i => (hboth i).1
    · exact ih (fun r hr => counterparts r (List.mem_cons_of_mem _ hr))
        (fun r hr => goOn r (List.mem_cons_of_mem _ hr))
        (fun r hr => seat r (List.mem_cons_of_mem _ hr)) hchain (List.prefix_append _ _)
        (fun q hq => follows q (List.mem_cons_of_mem _ hq)) (fun i => (hboth i).2) q hq

/-- After the exchange, the protocols that go on take exactly the messages of their counterparts,
also the one in which the party fails. -/
theorem handed_over (h : Batch n rounds before after arrived) {j : Fin n}
    {later : List ((Fin n → Played m) × Played m)} {w : Participant m}
    (chain : Played.Chain (arrived j) (later.map (·.2)) w)
    (order : later.map (·.1) <+: rounds.filter fun r => (r j).goesOn)
    (follows : ∀ p ∈ later, (p.1 j).Follows n p.2) :
    ∀ p ∈ later, ∀ i : Fin n, p.2.taken i = (p.1 i).sent j := by
  have hdue : ∀ r ∈ rounds.filter (fun r => (r j).goesOn), r ∈ rounds ∧ (r j).goesOn = true :=
    fun r hr => List.mem_filter.mp hr
  refine taken_eq (fun r hr => h.counterparts r (hdue r hr).1)
    (fun r hr => (h.answers (hdue r hr).1 j).1 (hdue r hr).2)
    (fun r hr i => h.party (hdue r hr).1 i) chain order follows fun i => ?_
  rw [h.queue_eq i j]
  exact (flatMap_filter fun r hr hover => (h.answers hr j).2 hover i).symm

end Batch

/-! ## §3 Final rounds -/

theorem Fault.OfRound.ne_sentInFinalRound {fault : Fault} (h : fault.OfRound) :
    fault ≠ .protocol .sentInFinalRound := by
  rintro rfl
  exact h

namespace Evaluator

/-- Whatever a computation has answered, it has not found messages queued after a final round; and
if it succeeded, none are. -/
structure Quiet (answer : Except Fault α) (e : Evaluator m) : Prop where
  fault : ∀ fault, answer = .error fault → fault ≠ .protocol .sentInFinalRound
  success : ∀ a, answer = .ok a → e.participant.mailbox.hasOutgoing = false

/-- Nothing is queued when a party has been set up. -/
theorem hasOutgoing_of_new {pool : Pool m} {party parties : Nat} {e : Evaluator m}
    (h : Evaluator.new pool party parties = .ok e) :
    e.participant.mailbox.hasOutgoing = false := by
  unfold Evaluator.new at h
  split at h
  · cases h
    simp [Participant.new, Mailbox.new, Mailbox.hasOutgoing]
  · cases h

namespace Traced

/-- Not the failure of an evaluator that found messages queued after a final round. -/
def Unblamed (fault : Fault) (_ : Evaluator m) (_ : Trace m) : Prop :=
  fault ≠ .protocol .sentInFinalRound

/-- Nothing is queued. -/
def Silent (e : Evaluator m) (_ : Trace m) : Prop :=
  e.participant.mailbox.hasOutgoing = false

theorem Silent.unblamed {e : Evaluator m} {t : Trace m} {violation : Violation}
    (h : Silent e t) (hrestless : Restless e.participant.mailbox violation) :
    Unblamed (.protocol violation) e t := by
  obtain ⟨-, hsent⟩ | ⟨count, party, rfl⟩ := hrestless
  · rw [h] at hsent
    cases hsent
  · nofun

/-- After an exchange nothing is queued. -/
theorem keeps_silent_flush {pre : Evaluator m → Trace m → Prop} (due : List (Task m × Nat)) :
    Keeps Unblamed pre (flush due) fun _ => Silent := by
  refine keeps_flush (fun e t fault box _ htake => ?_) (fun _ _ _ _ _ _ _ => nofun)
    (fun e t frames box delivery fault box' _ _ hdeliver => ?_)
    fun e t frames box delivery box' _ htake hdeliver =>
      Mailbox.hasOutgoing_of_exchange htake hdeliver
  · obtain ⟨-, count, party, rfl⟩ := takeOutgoing_eq_error htake
    nofun
  · exact (Mailbox.fails_deliver delivery _ _ _ hdeliver).ne_sentInFinalRound

/-- A protocol that ends queues nothing. -/
theorem silent_of_done [Protocol m π ρ] {wrap : π → Task m} (faithful : Faithful wrap)
    {round : Nat} {p p' : π} {w w' : Participant m}
    (h : Protocol.evaluate round (p, w) = .ok .done (p', w'))
    (hsilent : w.mailbox.hasOutgoing = false) : w'.mailbox.hasOutgoing = false := by
  have houtgoing := Played.outgoing_of_done
    (r := ⟨none, round, (wrap p, w), (wrap p', w')⟩) (faithful.of_ok h)
  rw [Mailbox.hasOutgoing] at hsilent ⊢
  rwa [houtgoing]

theorem unblamed_of_error [Protocol m π ρ] {wrap : π → Task m} (faithful : Faithful wrap)
    {round : Nat} {p p' : π} {w w' : Participant m} {fault : Fault}
    (h : Protocol.evaluate round (p, w) = .error fault (p', w')) :
    fault ≠ .protocol .sentInFinalRound := by
  have hfails : fault.OfRound := Task.fails round (wrap p, w) fault (wrap p', w')
    (by rw [faithful, Round.within_apply, h])
  exact hfails.ne_sentInFinalRound

theorem keeps_silent_run [Protocol m π ρ] {wrap : π → Task m} (faithful : Faithful wrap) (p : π) :
    Keeps Unblamed Silent (run wrap p) fun _ => Silent := by
  have hflush (round : Nat) (p : π) : Keeps Unblamed (fun _ _ => True)
      (flush [(wrap p, round)]) fun _ => (Silent : Evaluator m → Trace m → Prop) :=
    keeps_silent_flush _
  have hrounds : Keeps Unblamed Silent (runRounds wrap (lastRound + 1) 0 p)
      fun _ => (Silent : Evaluator m → Trace m → Prop) := by
    refine keeps_runRounds (fun _ _ _ _ _ _ _ _ => trivial) ?_ ?_ hflush ?_ (Nat.zero_add _) p
    · exact fun _ _ _ _ _ _ hsilent hround => silent_of_done faithful hround hsilent
    · exact fun _ _ _ _ _ _ _ _ hround => unblamed_of_error faithful hround
    · exact fun _ _ _ _ => nofun
  exact keeps_run hrounds (fun _ _ _ hsilent _ _ => hsilent)
    (fun _ _ _ _ hsilent hrestless => hsilent.unblamed hrestless) (fun _ _ _ _ => nofun)
    fun _ _ _ _ hsilent _ => hsilent

/-- As long as no gate goes on, nothing is queued. -/
theorem upkeep_silent (c : Circuit m) (limit : Nat) :
    Upkeep c limit Unblamed fun _ still _ e t => still = [] → Silent e t where
  more _ _ _ hstill := absurd hstill (List.append_ne_nil_of_right_ne_nil _ (List.cons_ne_nil _ _))
  done h _ hround _ hstill := silent_of_done .gate hround (h hstill)
  silent _ _ _ _ := nofun
  failed _ _ hround := unblamed_of_error .gate hround
  start h _ _ _ := h
  misfit _ _ _ _ := nofun
  flush _ _ _ _ _ := (keeps_silent_flush _).mono fun _ _ _ h _ => h
  endless _ _ := nofun

theorem keeps_silent_initialize :
    Keeps Unblamed Silent (initializeJointRandomness : Traced m (Trace m) Unit) fun _ => Silent :=
  keeps_initializeJointRandomness (keeps_silent_run .coinToss {}) fun _ _ _ h => h

theorem keeps_silent_evaluate (c : Circuit m) :
    Keeps Unblamed Silent (evaluate c) fun _ => Silent := by
  refine keeps_evaluateWith Silent (fun _ => Silent) (fun _ => Silent) (fun _ _ _ _ _ => nofun)
    ?seed ?gates (fun _ _ _ _ h hrestless => h.unblamed hrestless) (fun _ _ _ _ _ _ => nofun)
    (fun _ _ _ _ h _ _ _ => h) ?check
  case seed =>
    intro e₀ t₀ h _
    split
    · exact keeps_pure_from h
    · exact keeps_silent_initialize.from_state h
  case gates =>
    exact ((Upkeep.keeps_runGates_forall (upkeep_silent c) (.new c)).of_pre fun _ _ h _ => h).mono
      fun _ _ _ h => h.2 rfl
  case check =>
    intro values e₀ t₀ h
    split
    · exact (keeps_silent_run .macCheck {}).from_state h
    · exact keeps_pure_from h

theorem quiet_of_keeps {x : Traced m (Trace m) α} {y : Eval m α}
    (h : Keeps Unblamed Silent x fun _ => Silent) (herases : Erases x y) {e e' : Evaluator m}
    {replies : List (Except TransportError Delivery)}
    {answer : Except Fault α} (hsilent : e.participant.mailbox.hasOutgoing = false)
    (hrun : Session.Run (y e) replies (answer, e')) : Quiet answer e' := by
  obtain ⟨t, htrace⟩ := herases.exists_notes ({} : Trace m) hrun
  obtain ⟨-, hok, herror⟩ := h e {} _ _ _ _ hsilent htrace
  exact ⟨herror, hok⟩

end Traced

end Evaluator

/-! ## §4 The contract -/

/-- What every protocol can rely on. A round that ends a protocol has queued nothing, and the first
round of a new one takes nothing, whatever has arrived. Two parties in step give the same answer,
and what one of them queues for the other is as much as that one takes from it in the next round;
between honest parties that evaluate a batch in one order it is the very messages, protocol by
protocol. And an evaluator that has nothing queued, as a new one and one whose last call succeeded,
never finds that messages were sent in a final round. -/
theorem rounds_match (n : Nat) :
    (∀ r : Played m, r.Answers .done →
      r.after.2.mailbox.outgoing = r.before.2.mailbox.outgoing)
    ∧ (∀ r : Played m, r.Genuine n → r.before.1.Fresh → r.number = 0 → ∀ j, r.taken j = [])
    ∧ (∀ (r r' : Played m) (status status' : Status), Played.Counterparts n r r' →
      r.Answers status → r'.Answers status' →
      status' = status ∧ (status = .more → ∀ (later : Played m) (i j : Nat), r'.Follows n later →
        r.before.2.pool.party = i + 1 → i < n → j < n →
        (later.taken i).length = (r.sent j).length
          ∨ ∃ party, Task.evaluate later.number later.before
            = .error (.protocol (.noMessage party)) later.after))
    ∧ (∀ (rounds : List (Fin n → Played m)) (before after arrived : Fin n → Participant m),
      Batch n rounds before after arrived →
      ∀ (j : Fin n) (later : List ((Fin n → Played m) × Played m)) (w : Participant m),
        Played.Chain (arrived j) (later.map (·.2)) w →
        later.map (·.1) <+: rounds.filter (fun r => (r j).goesOn) →
        (∀ p ∈ later, (p.1 j).Follows n p.2) →
        ∀ p ∈ later, ∀ i : Fin n, p.2.taken i = (p.1 i).sent j)
    ∧ (∀ (pool : Pool m) (party parties : Nat) (e : Evaluator m),
      Evaluator.new pool party parties = .ok e → e.participant.mailbox.hasOutgoing = false)
    ∧ ∀ (e e' : Evaluator m) (replies : List (Except TransportError Delivery)),
      e.participant.mailbox.hasOutgoing = false →
      (∀ (task : Task m) (answer : Except Fault (TaskResult m)),
        Session.Run (run task e) replies (answer, e') → Quiet answer e')
      ∧ (∀ answer : Except Fault Unit,
        Session.Run (initializeJointRandomness e) replies (answer, e') → Quiet answer e')
      ∧ ∀ (c : Circuit m) (answer : Except Fault (Outputs m)),
        Session.Run (evaluate c e) replies (answer, e') → Quiet answer e' := by
  refine ⟨fun r => Played.outgoing_of_done,
    fun r genuine fresh => Played.taken_of_fresh genuine fresh, ?_, ?_,
    fun _ _ _ _ => hasOutgoing_of_new, ?_⟩
  · intro r r' status status' h hr hr'
    obtain rfl := h.status_eq hr hr'
    refine ⟨rfl, ?_⟩
    rintro rfl later i j follows hi hin hj
    exact h.length_taken hr hr' follows hi hin hj
  · intro rounds before after arrived h j later w chain order follows
    exact h.handed_over chain order follows
  · intro e e' replies hsilent
    refine ⟨fun task answer hrun => ?_, fun answer hrun => ?_, fun c answer hrun => ?_⟩
    · exact Traced.quiet_of_keeps (Traced.keeps_silent_run .task task) (Traced.erases_run id task)
        hsilent hrun
    · exact Traced.quiet_of_keeps Traced.keeps_silent_initialize
        Traced.erases_initializeJointRandomness hsilent hrun
    · exact Traced.quiet_of_keeps (Traced.keeps_silent_evaluate c) (Traced.erases_evaluate c)
        hsilent hrun

namespace Played

/-- The round of a protocol that is evaluated in this state. -/
def ofState (number : Nat) (before : Task m × Participant m) : Played m :=
  ⟨none, number, before, endState (Task.evaluate number before)⟩

/-- The first round of a new protocol. -/
theorem roundOf_start {t : Task m} {w : Participant m} (seat : w.OneOf n)
    (shaped : w.mailbox.Shaped n) : (ofState 0 (t, w)).RoundOf n t :=
  ⟨.start, seat, rfl, shaped⟩

end Played

section Sample

/-- Each of two parties broadcasts a message, -/
def sampleBroadcast (i : Fin 2) : Played .mersenne61 :=
  .ofState 0 (.broadcast (.new [UInt8.ofNat i]), .new (samplePool i))

/-- negates a share, -/
def sampleNegation (i : Fin 2) : Played .mersenne61 :=
  .ofState 0 (.gate (.linear { op := .neg ⟨5, 2⟩ }), (sampleBroadcast i).after.2)

/-- and opens it. -/
def sampleReveal (i : Fin 2) : Played .mersenne61 :=
  .ofState 0 (.gate (.reveal { share := ⟨5, 2⟩ }), (sampleNegation i).after.2)

/-- The frames that leave. -/
def sampleFrames (i : Fin 2) : List Frame :=
  (sampleReveal i).after.2.mailbox.outgoing.set i []

/-- What stays. -/
def sampleLeft (i : Fin 2) : Mailbox :=
  endState (Mailbox.takeOutgoing (sampleReveal i).after.2.mailbox)

/-- The parties after the exchange. -/
def sampleArrived (i : Fin 2) : Participant .mersenne61 :=
  { (sampleReveal i).after.2 with
    mailbox := endState
      (Mailbox.deliver (Lockstep.deliveryTo (i + 1) (List.ofFn sampleFrames)) (sampleLeft i)) }

/-- The broadcast goes on, -/
def sampleReceipt (i : Fin 2) : Played .mersenne61 :=
  .ofState 1 ((sampleBroadcast i).after.1, sampleArrived i)

/-- and then the opening. -/
def sampleOpened (i : Fin 2) : Played .mersenne61 :=
  .ofState 1 ((sampleReveal i).after.1, (sampleReceipt i).after.2)

theorem sampleBatch : Batch 2 [sampleBroadcast, sampleNegation, sampleReveal]
    (fun i => .new (samplePool i)) (fun i => (sampleReveal i).after.2) sampleArrived where
  seat _ := ⟨rfl, rfl⟩
  shaped i := ⟨Nat.succ_pos i, i.isLt, rfl, rfl⟩
  quiet _ := rfl
  chain _ := Played.Chain.cons_iff.mpr ⟨rfl, Played.Chain.cons_iff.mpr ⟨rfl,
    Played.Chain.cons_iff.mpr ⟨rfl, .nil _⟩⟩⟩
  counterparts := by
    have hbroadcast (i : Fin 2) :
        (sampleBroadcast i).RoundOf 2 (.broadcast (.new [UInt8.ofNat i])) :=
      Played.roundOf_start ⟨rfl, rfl⟩ ⟨Nat.succ_pos i, i.isLt, rfl, rfl⟩
    have hnegation (i : Fin 2) :
        (sampleNegation i).RoundOf 2 (.gate (.linear { op := .neg ⟨5, 2⟩ })) :=
      Played.roundOf_start ⟨rfl, rfl⟩ ⟨Nat.succ_pos i, i.isLt, rfl, rfl⟩
    have hreveal (i : Fin 2) : (sampleReveal i).RoundOf 2 (.gate (.reveal { share := ⟨5, 2⟩ })) :=
      Played.roundOf_start ⟨rfl, rfl⟩ ⟨Nat.succ_pos i, i.isLt, rfl, rfl⟩
    intro r hr i j
    simp only [List.mem_cons, List.not_mem_nil, or_false] at hr
    obtain rfl | rfl | rfl := hr
    · exact ⟨rfl, ⟨_, _, .broadcast _ _, hbroadcast i, hbroadcast j⟩, nofun⟩
    · exact ⟨rfl, ⟨_, _, .gate (.linear _ _), hnegation i, hnegation j⟩, nofun⟩
    · exact ⟨rfl, ⟨_, _, .gate (.reveal _ _), hreveal i, hreveal j⟩, nofun⟩
  succeeded := by
    intro r hr i
    simp only [List.mem_cons, List.not_mem_nil, or_false] at hr
    obtain rfl | rfl | rfl := hr
    · exact ⟨.more, rfl⟩
    · exact ⟨.done, rfl⟩
    · exact ⟨.more, rfl⟩
  exchanged := ⟨sampleFrames, sampleLeft, Fin.forall_fin_two.mpr ⟨rfl, rfl⟩,
    Fin.forall_fin_two.mpr ⟨rfl, rfl⟩⟩

/-- The negation queues nothing, nothing is taken before the exchange, and after it the broadcast
and the opening take the messages of their counterparts; and an evaluator runs such a broadcast. -/
theorem rounds_match_sampleBatch :
    (sampleNegation 0).after.2.mailbox.outgoing = (sampleNegation 0).before.2.mailbox.outgoing
    ∧ (∀ j, (sampleReveal 0).taken j = [])
    ∧ (((sampleReceipt 0).taken 1).length = ((sampleBroadcast 1).sent 0).length
      ∨ ∃ party, Task.evaluate (sampleReceipt 0).number (sampleReceipt 0).before
        = .error (.protocol (.noMessage party)) (sampleReceipt 0).after)
    ∧ (∀ i : Fin 2, (sampleReceipt 0).taken i = (sampleBroadcast i).sent 0
      ∧ (sampleOpened 0).taken i = (sampleReveal i).sent 0)
    ∧ ∃ e' : Evaluator .mersenne61, Session.Run (run (.broadcast (.new [7]) : Task .mersenne61)
        { participant := .new (samplePool 0) }) [.ok [(2, [[9]])]] (.ok (.messages [[7], [9]]), e')
      ∧ Quiet (.ok (TaskResult.messages (m := .mersenne61) [[7], [9]])) e' := by
  obtain ⟨hdone, hfirst, hpair, hbatch, hnew, hquiet⟩ := rounds_match (m := .mersenne61) 2
  have hreceipt : (sampleBroadcast 0).Follows 2 (sampleReceipt 0) :=
    ⟨rfl, rfl, rfl, ⟨by decide, by decide, rfl, rfl⟩⟩
  have hopened : (sampleReveal 0).Follows 2 (sampleOpened 0) :=
    ⟨rfl, rfl, rfl, ⟨by decide, by decide, rfl, rfl⟩⟩
  have hreveal : (sampleReveal 0).Genuine 2 := ⟨rfl, ⟨by decide, by decide, rfl, rfl⟩⟩
  have hcounterparts : Played.Counterparts 2 (sampleBroadcast 1) (sampleBroadcast 0) :=
    sampleBatch.counterparts sampleBroadcast List.mem_cons_self 1 0
  have hmore (i : Fin 2) : (sampleBroadcast i).Answers .more := rfl
  have htaken := hbatch _ _ _ _ sampleBatch 0
    [(sampleBroadcast, sampleReceipt 0), (sampleReveal, sampleOpened 0)] _
    (Played.Chain.cons_iff.mpr ⟨rfl, Played.Chain.cons_iff.mpr ⟨rfl, .nil _⟩⟩)
    (List.prefix_refl _)
    (List.forall_mem_cons.mpr ⟨hreceipt, List.forall_mem_singleton.mpr hopened⟩)
  have hrun : ∃ e', Session.Run (run (.broadcast (.new [7]) : Task .mersenne61)
      { participant := .new (samplePool 0) }) [.ok [(2, [[9]])]] (.ok (.messages [[7], [9]]), e') :=
    ⟨_, Session.run_of_answered rfl⟩
  obtain ⟨e', hrun⟩ := hrun
  refine ⟨hdone _ rfl, hfirst _ hreveal (.gate (.reveal _)) rfl, ?_, fun i => ⟨?_, ?_⟩, e', hrun,
    ?_⟩
  · exact (hpair _ _ _ _ hcounterparts (hmore 1) (hmore 0)).2 rfl _ 1 0 hreceipt rfl
      Nat.one_lt_two Nat.two_pos
  · exact htaken _ List.mem_cons_self i
  · exact htaken _ (List.mem_cons_of_mem _ List.mem_cons_self) i
  · exact (hquiet _ e' _ (hnew (samplePool 0) 1 2 _ rfl)).1 _ _ hrun

end Sample

/-- An evaluator whose last evaluation failed once it had queued a message is blamed for it by the
next protocol that ends, although that one sends nothing. -/
theorem sentInFinalRound_reached : ∃ fault e e',
    seededParty.participant.mailbox.hasOutgoing = false
    ∧ Session.Run (evaluate abandoned seededParty) [] (.error fault, e)
    ∧ Session.Run (run (.gate (.linear { op := .identity ⟨9, 4⟩ }) : Task .mersenne61) e) []
      (.error (.protocol .sentInFinalRound), e') := by
  have hfailed : ((evaluate abandoned seededParty).answered []).map (fun r =>
      (r.1.isOk, ((run (.gate (.linear { op := .identity ⟨9, 4⟩ }) : Task .mersenne61) r.2).answered
        []).map fun r => match r.1 with
          | .error fault => decide (fault = .protocol .sentInFinalRound)
          | .ok _ => false)) = some (false, some true) := by
    decide +kernel
  obtain ⟨⟨answer, e⟩, hrun, hnext⟩ := Option.map_eq_some_iff.mp hfailed
  obtain ⟨hok, hnext⟩ := Prod.mk.inj hnext
  obtain ⟨⟨answer', e'⟩, hrun', hblamed⟩ := Option.map_eq_some_iff.mp hnext
  cases answer with
  | ok outputs => cases hok
  | error fault =>
    cases answer' with
    | ok result => cases hblamed
    | error fault' =>
      obtain rfl := of_decide_eq_true hblamed
      exact ⟨fault, e, e', rfl, Session.run_of_answered hrun, Session.run_of_answered hrun'⟩

end JointCircuit
