/-
JointCircuit.Proofs.Receipts — every message is taken, by one protocol, in order.

All protocols of a party take from one queue for each sender. Frames
leave only when these queues are empty, and a round takes from the front
only; so what arrives in an exchange is cut, in its order, into the parts
that the rounds after this exchange take, and nothing is left for the
rounds after the next one. How long these parts are is known before a
message arrives (`Leg.demand`): any other number of messages ends the
evaluation, and no frame leaves any more.

Main statement: `messages_received` (§4).
-/
import JointCircuit.Proofs.Appetite
import JointCircuit.Proofs.Trace

namespace JointCircuit

open JointCircuit.Action

variable {m : Modulus} {n : Nat} {π ρ α : Type}

/-! ## §1 What arrives -/

/-- The messages that party `j + 1` sent in a delivery. -/
def Delivery.sentBy (delivery : Delivery) (j : Nat) : Frame :=
  (delivery.filter (·.1 = j + 1)).flatMap (·.2)

namespace Mailbox

/-- The mailbox of a party among `n`. -/
structure Shaped (n : Nat) (box : Mailbox) : Prop where
  party_pos : 0 < box.party
  party_le : box.party ≤ n
  outgoing : box.outgoing.length = n
  incoming : box.incoming.length = n

/-- A mailbox with nothing to send and nothing to take. -/
structure Quiescent (n : Nat) (box : Mailbox) : Prop where
  shaped : box.Shaped n
  outgoing : box.hasOutgoing = false
  incoming : ∀ j, box.queue j = []

/-- The own messages queued for the party itself. -/
def looped (box : Mailbox) (j : Nat) : Frame :=
  if j + 1 = box.party then box.outgoing.getD j [] else []

theorem Shaped.even {box : Mailbox} (h : box.Shaped n) : box.Even :=
  h.outgoing.trans h.incoming.symm

/-- The mailbox of a party that has not exchanged anything. -/
theorem quiescent_new {party : Nat} (hpos : 0 < party) (hle : party ≤ n) :
    (Mailbox.new party n).Quiescent n where
  shaped := ⟨hpos, hle, List.length_replicate, List.length_replicate⟩
  outgoing := by simp [hasOutgoing, new]
  incoming j := by
    simp only [queue, new, List.getD_eq_getElem?_getD, List.getElem?_replicate]
    split <;> rfl

theorem leftover?_eq_none {box : Mailbox} (h : box.leftover? = none) (j : Nat) :
    box.queue j = [] := by
  unfold leftover? at h
  split at h
  · rename_i hnone
    rw [queue, List.getD_eq_getElem?_getD]
    cases hj : box.incoming[j]? with
    | none => rfl
    | some frame =>
      have hempty := List.findIdx?_eq_none_iff.mp hnone frame (List.mem_of_getElem? hj)
      simpa using hempty
  · cases h

theorem queue_modify (box : Mailbox) {k : Nat} (hk : k < box.incoming.length) (j : Nat)
    (frame : Frame) : queue { box with incoming := box.incoming.modify k (· ++ frame) } j
      = box.queue j ++ if j = k then frame else [] := by
  simp only [queue, List.getD_eq_getElem?_getD, List.getElem?_modify]
  by_cases hj : j = k
  · subst hj
    simp [hk]
  · simp [hj, Ne.symm hj]

/-- Frames leave only when nothing is left to take; then only the own ones have arrived. -/
theorem takeOutgoing_eq_ok {box box' : Mailbox} {frames : List Frame} (shaped : box.Shaped n)
    (h : takeOutgoing box = .ok frames box') :
    (∀ j, box.queue j = []) ∧ box'.Shaped n ∧ ∀ j, box'.queue j = box.looped j := by
  obtain ⟨_, box₁, hdrained, h⟩ := bind_eq_ok.mp h
  simp only [ensureDrained, bind_apply, get_apply] at hdrained
  cases hleft : box.leftover? with
  | some violation =>
    rw [hleft] at hdrained
    cases hdrained
  | none =>
    rw [hleft] at hdrained
    cases hdrained
    cases h
    have hempty := leftover?_eq_none hleft
    have hpos := shaped.party_pos
    have hparty : box.party - 1 < box.incoming.length := by
      rw [shaped.incoming]
      exact Nat.lt_of_lt_of_le (Nat.sub_one_lt (Nat.ne_of_gt hpos)) shaped.party_le
    refine ⟨hempty, ⟨shaped.party_pos, shaped.party_le, ?_, ?_⟩, fun j => ?_⟩
    · exact List.length_replicate.trans shaped.outgoing
    · exact (List.length_modify _ _ _).trans shaped.incoming
    · refine (queue_modify box hparty j _).trans ?_
      have hj : j = box.party - 1 ↔ j + 1 = box.party := by omega
      rw [hempty j, List.nil_append, looped]
      by_cases hown : j + 1 = box.party
      · rw [if_pos hown, if_pos (hj.mpr hown), hj.mpr hown]
      · rw [if_neg hown, if_neg (mt hj.mp hown)]

/-- Messages that arrive do not change the number of queues. -/
theorem Shaped.append {box : Mailbox} (h : box.Shaped n) (k : Nat) (frame : Frame) :
    Shaped n { box with incoming := box.incoming.modify k (· ++ frame) } :=
  ⟨h.party_pos, h.party_le, h.outgoing, (List.length_modify _ _ _).trans h.incoming⟩

/-- What is delivered joins the queues of its senders, all of which are known. -/
theorem deliver_eq_ok {delivery : Delivery} {box box' : Mailbox} (shaped : box.Shaped n)
    (h : deliver delivery box = .ok () box') :
    (∀ sent ∈ delivery, 0 < sent.1 ∧ sent.1 ≤ n) ∧ box'.Shaped n
      ∧ ∀ j, box'.queue j = box.queue j ++ Delivery.sentBy delivery j := by
  induction delivery generalizing box with
  | nil =>
    cases h
    exact ⟨nofun, shaped, fun j => (List.append_nil _).symm⟩
  | cons sent rest ih =>
    obtain ⟨party, frame⟩ := sent
    simp only [deliver, bind_apply, get_apply] at h
    by_cases hout : party = 0 ∨ box.incoming.length < party
    · rw [if_pos hout] at h
      cases h
    · rw [if_neg hout] at h
      have hparty : 0 < party ∧ party ≤ n := by
        have hlength := shaped.incoming
        omega
      have hlt : party - 1 < box.incoming.length := by
        have hlength := shaped.incoming
        omega
      obtain ⟨hrest, hshaped, hqueue⟩ := ih (shaped.append (party - 1) frame) h
      refine ⟨List.forall_mem_cons.mpr ⟨hparty, hrest⟩, hshaped, fun j => ?_⟩
      rw [hqueue j, queue_modify box hlt j frame, List.append_assoc]
      congr 1
      have hj : j = party - 1 ↔ party = j + 1 := by omega
      by_cases hown : party = j + 1
      · simp [Delivery.sentBy, hown]
      · simp [Delivery.sentBy, hown, hj]

/-- A delivery that fails leaves as many queues as there were. -/
theorem shaped_of_deliver {delivery : Delivery} {box box' : Mailbox} {fault : Fault}
    (shaped : box.Shaped n) (h : deliver delivery box = .error fault box') : box'.Shaped n := by
  induction delivery generalizing box with
  | nil => cases h
  | cons sent rest ih =>
    obtain ⟨party, frame⟩ := sent
    simp only [deliver, bind_apply, get_apply] at h
    by_cases hout : party = 0 ∨ box.incoming.length < party
    · rw [if_pos hout] at h
      cases h
      exact shaped
    · rw [if_neg hout] at h
      exact ih (shaped.append (party - 1) frame) h

end Mailbox

/-- The messages of party `j + 1` that arrive in an exchange; the own ones are looped back. -/
def Exchanged.arrivals (x : Exchanged m) (j : Nat) : Frame :=
  x.mailbox.looped j ++ match x.reply with
    | .ok delivery => Delivery.sentBy delivery j
    | .error _ => []

/-- The messages of party `j + 1` that a round takes: what the front of the queue has lost. -/
def Played.taken (r : Played m) (j : Nat) : Frame :=
  (r.before.2.mailbox.queue j).take
    ((r.before.2.mailbox.queue j).length - (r.after.2.mailbox.queue j).length)

namespace Leg

/-- The messages of party `j + 1` that arrived before the rounds. -/
def arrivals (leg : Leg m) (j : Nat) : Frame :=
  match leg.opening with
  | none => []
  | some x => x.arrivals j

/-- The messages of party `j + 1` that the rounds take, one round after another. -/
def taken (leg : Leg m) (j : Nat) : Frame :=
  leg.rounds.flatMap (·.taken j)

/-- The protocols that go on after the exchange. -/
def due (leg : Leg m) : List (Task m × Nat) :=
  match leg.opening with
  | none => []
  | some x => x.due

/-- The number of messages of party `j + 1` that these protocols take. -/
def demand (leg : Leg m) (j : Nat) : Nat :=
  (leg.due.map fun next => next.1.appetite next.2 j).sum

/-- The books of a leg while `todo` is yet to be evaluated and `left` is yet to be taken: the
protocols that were due are evaluated in order, before any that start; and what has arrived of a
party is what the rounds took, and then what is left. -/
structure Account (n : Nat) (todo : List (Task m × Nat)) (left : Nat → Frame) (leg : Leg m) :
    Prop where
  senders : ∀ x, leg.opening = some x →
    ∃ delivery, x.reply = .ok delivery ∧ ∀ sent ∈ delivery, 0 < sent.1 ∧ sent.1 ≤ n
  succeeded : ∀ r ∈ leg.rounds, ∃ status, Task.evaluate r.number r.before = .ok status r.after
  course : ∃ started, leg.rounds.map (fun r => (r.before.1, r.number)) ++ todo = leg.due ++ started
    ∧ ∀ s ∈ started, s.2 = 0 ∧ (leg.opening = none ∨ s.1.appetite 0 = 0)
  arrivals : ∀ j < n, leg.arrivals j = leg.taken j ++ left j

/-- The books of a leg that has just been opened. -/
theorem Account.opened {leg : Leg m} {todo : List (Task m × Nat)} {left : Nat → Frame}
    (hrounds : leg.rounds = []) (hdue : leg.due = todo)
    (senders : ∀ x, leg.opening = some x →
      ∃ delivery, x.reply = .ok delivery ∧ ∀ sent ∈ delivery, 0 < sent.1 ∧ sent.1 ≤ n)
    (arrivals : ∀ j, leg.arrivals j = left j) : leg.Account n todo left where
  senders := senders
  succeeded := by simp [hrounds]
  course := ⟨[], by simp [hrounds, hdue], fun _ h => absurd h List.not_mem_nil⟩
  arrivals j _ := by simp [taken, hrounds, arrivals j]

/-- Every round has been evaluated, and every message taken. -/
def Settled (n : Nat) (leg : Leg m) : Prop :=
  leg.Account n [] fun _ => []

end Leg

/-! ## §2 Rounds -/

namespace Played

/-- A round is evaluated at a party among `n`. -/
structure Genuine (n : Nat) (r : Played m) : Prop where
  evaluated : r.after = endState (Task.evaluate r.number r.before)
  shaped : r.before.2.mailbox.Shaped n

namespace Genuine

variable {r : Played m}

theorem serves (h : r.Genuine n) : Serves r.before.2 r.after.2 := by
  rw [h.evaluated]
  exact Task.serves

/-- What a round takes of a queue comes first in it. -/
theorem queue_eq (h : r.Genuine n) (j : Nat) :
    r.before.2.mailbox.queue j = r.taken j ++ r.after.2.mailbox.queue j := by
  obtain ⟨front, hfront⟩ := h.serves.queue j
  rw [taken, ← hfront]
  simp

theorem shaped_after (h : r.Genuine n) : r.after.2.mailbox.Shaped n :=
  ⟨h.serves.party ▸ h.shaped.party_pos, h.serves.party ▸ h.shaped.party_le,
    h.serves.outgoing.trans h.shaped.outgoing, h.serves.incoming.trans h.shaped.incoming⟩

theorem length_taken_of_taken (h : r.Genuine n) {want : Nat → Nat}
    (htaken : Mailbox.Taken want r.before.2.mailbox r.after.2.mailbox) {j : Nat} (hj : j < n) :
    (r.taken j).length = want j := by
  have hqueue := congrArg List.length (h.queue_eq j)
  rw [List.length_append, htaken j (h.shaped.incoming.symm ▸ hj)] at hqueue
  exact (Nat.add_right_cancel hqueue).symm

/-- A successful round takes what its appetite says. -/
theorem length_taken (h : r.Genuine n) {status : Status}
    (hok : Task.evaluate r.number r.before = .ok status r.after) {j : Nat} (hj : j < n) :
    (r.taken j).length = r.before.1.appetite r.number j := by
  obtain ⟨-, -, htaken⟩ := (Task.takes r.number r.before.1 r.before.2).of_ok status r.after
    h.shaped.even hok
  exact h.length_taken_of_taken htaken hj

/-- So does one that fails, unless a message is missing. -/
theorem length_taken_or_lacking (h : r.Genuine n) :
    (∀ j < n, (r.taken j).length = r.before.1.appetite r.number j)
      ∨ ∃ fault, Task.evaluate r.number r.before = .error fault r.after
        ∧ Mailbox.Lacking (r.before.1.appetite r.number) r.before.2.mailbox fault := by
  have hevaluated := h.evaluated
  cases hround : Task.evaluate r.number r.before with
  | ok status s =>
    rw [hround, endState_ok] at hevaluated
    exact .inl fun j hj => h.length_taken (by rw [hround, hevaluated]) hj
  | error fault s =>
    rw [hround, endState_error] at hevaluated
    obtain htaken | hlacking := (Task.takes r.number r.before.1 r.before.2).of_error fault s
      h.shaped.even hround
    · exact .inl fun j hj => h.length_taken_of_taken (hevaluated ▸ htaken) hj
    · exact .inr ⟨fault, by rw [hevaluated], hlacking⟩

end Genuine

end Played

/-- The messages that arrived are as many as the protocols due take. -/
theorem Leg.Settled.demand_eq {leg : Leg m} (h : leg.Settled n)
    (genuine : ∀ r ∈ leg.rounds, r.Genuine n) {j : Nat} (hj : j < n) :
    (leg.arrivals j).length = leg.demand j := by
  obtain ⟨started, hcourse, hstarted⟩ := h.course
  cases hopening : leg.opening with
  | none =>
    simp [arrivals, demand, due, hopening]
  | some x =>
    have hlengths : leg.rounds.map (fun r => (r.taken j).length)
        = (leg.rounds.map fun r => (r.before.1, r.number)).map
          fun next => next.1.appetite next.2 j := by
      rw [List.map_map]
      refine List.map_congr_left fun r hr => ?_
      obtain ⟨status, hok⟩ := h.succeeded r hr
      exact (genuine r hr).length_taken hok hj
    have hnone : (started.map fun next => next.1.appetite next.2 j).sum = 0 := by
      refine List.sum_eq_zero (List.forall_mem_map.mpr fun s hs => ?_)
      obtain ⟨hzero, hclosed | happetite⟩ := hstarted s hs
      · rw [hopening] at hclosed
        cases hclosed
      · rw [hzero, happetite]
        rfl
    rw [List.append_nil] at hcourse
    rw [h.arrivals j hj, List.append_nil, taken, List.length_flatMap, hlengths, hcourse,
      List.map_append, List.sum_append, hnone, Nat.add_zero, demand]

namespace Trace

/-- Every leg that ended with an exchange is settled, and every round is genuine. -/
structure Settled (n : Nat) (t : Trace m) : Prop where
  past : ∀ leg ∈ t.past, leg.Settled n
  genuine : ∀ r ∈ t.played, r.Genuine n

/-- The books are kept: what is left in the mailbox belongs to the rounds that are yet to be
evaluated in this leg. -/
structure Booked (n : Nat) (todo : List (Task m × Nat)) (box : Mailbox) (t : Trace m) : Prop where
  before : t.Settled n
  shaped : box.Shaped n
  account : t.now.Account n todo box.queue

namespace Booked

variable {t : Trace m} {box : Mailbox} {todo : List (Task m × Nat)}

theorem new (h : box.Quiescent n) : ({} : Trace m).Booked n [] box where
  before := ⟨fun _ h => absurd h List.not_mem_nil, by simp [played, legs]⟩
  shaped := h.shaped
  account := .opened rfl rfl (fun _ h => nomatch h) fun j => (h.incoming j).symm

/-- A protocol starts. -/
theorem start (h : t.Booked n [] box) {task : Task m}
    (hfresh : t.now.opening = none ∨ task.appetite 0 = 0) : t.Booked n [(task, 0)] box where
  before := h.before
  shaped := h.shaped
  account := by
    obtain ⟨started, hcourse, hstarted⟩ := h.account.course
    refine ⟨h.account.senders, h.account.succeeded, ⟨started ++ [(task, 0)], ?_, ?_⟩,
      h.account.arrivals⟩
    · rw [List.append_nil] at hcourse
      rw [hcourse, List.append_assoc]
    · intro s hs
      obtain hs | hs := List.mem_append.mp hs
      · exact hstarted s hs
      · obtain rfl := List.mem_singleton.mp hs
        exact ⟨rfl, hfresh⟩

variable {node : Option NodeId} {number : Nat} {task task' : Task m} {w w' : Participant m}

/-- A round is evaluated, and may fail. -/
theorem play (h : t.Booked n todo w.mailbox)
    (hround : (task', w') = endState (Task.evaluate number (task, w))) :
    (t.play ⟨node, number, (task, w), (task', w')⟩).Settled n where
  past := h.before.past
  genuine := by
    rw [Trace.played_play]
    exact List.forall_mem_append.mpr
      ⟨h.before.genuine, List.forall_mem_singleton.mpr ⟨hround, h.shaped⟩⟩

/-- A round succeeds. -/
theorem play_ok (h : t.Booked n ((task, number) :: todo) w.mailbox) {status : Status}
    (hround : Task.evaluate number (task, w) = .ok status (task', w')) :
    (t.play ⟨node, number, (task, w), (task', w')⟩).Booked n todo w'.mailbox := by
  let r : Played m := ⟨node, number, (task, w), (task', w')⟩
  have hsettled : (t.play r).Settled n := h.play (by rw [hround, endState_ok])
  have hgenuine : r.Genuine n := hsettled.genuine r (by rw [Trace.played_play]; simp)
  refine ⟨hsettled, hgenuine.shaped_after, ⟨h.account.senders, ?_, ?_, fun j hj => ?_⟩⟩
  · exact List.forall_mem_append.mpr
      ⟨h.account.succeeded, List.forall_mem_singleton.mpr ⟨status, hround⟩⟩
  · obtain ⟨started, hcourse, hstarted⟩ := h.account.course
    refine ⟨started, ?_, hstarted⟩
    show (t.now.rounds ++ [r]).map _ ++ todo = t.now.due ++ started
    rw [← hcourse, List.map_append, List.append_assoc]
    rfl
  · have hqueue : t.now.arrivals j = (t.now.taken j ++ r.taken j) ++ w'.mailbox.queue j := by
      rw [h.account.arrivals j hj, List.append_assoc]
      exact congrArg _ (hgenuine.queue_eq j)
    refine hqueue.trans ?_
    simp [Trace.play, Leg.taken, r]

/-- When nothing is left, the leg is settled. -/
theorem settled (h : t.Booked n [] box) (hempty : ∀ j, box.queue j = []) : t.now.Settled n :=
  ⟨h.account.senders, h.account.succeeded, h.account.course,
    fun j hj => hempty j ▸ h.account.arrivals j hj⟩

/-- Frames leave. -/
theorem exchange (h : t.Booked n [] box) (hempty : ∀ j, box.queue j = []) (x : Exchanged m) :
    (t.exchange x).Settled n where
  past := List.forall_mem_append.mpr
    ⟨h.before.past, List.forall_mem_singleton.mpr (h.settled hempty)⟩
  genuine := by
    rw [Trace.played_exchange]
    exact h.before.genuine

end Booked

end Trace

/-- A gate that starts takes nothing. -/
theorem Schedule.appetite_of_gate {s : Schedule m} {id : NodeId} {g : Gate m}
    (h : s.gate id = .ok g) : g.appetite 0 = 0 := by
  unfold Schedule.gate at h
  split at h
  · cases h
  · exact Gate.appetite_of_instantiate h

/-! ## §3 A whole trace -/

/-- The rounds of a protocol are those of a task. -/
def Faithful [Protocol m π ρ] (wrap : π → Task m) : Prop :=
  ∀ round p w, Task.evaluate round (wrap p, w)
    = Round.within p (fun q _ => wrap q) (Protocol.evaluate round) (wrap p, w)

namespace Faithful

theorem task : Faithful (id : Task m → Task m) := by
  intro round t w
  rw [Round.within_apply]
  cases h : Task.evaluate round (t, w) with
  | ok status s => simp [Protocol.evaluate, h]
  | error fault s => simp [Protocol.evaluate, h]

theorem gate : Faithful (.gate : Gate m → Task m) :=
  fun round p w => Task.evaluate_gate round p w

theorem coinToss : Faithful (.coinToss : CoinToss → Task m) :=
  fun round p w => Task.evaluate_coinToss round p w

theorem macCheck : Faithful (fun p : MacCheck m => (.gate (.macCheck p) : Task m)) := by
  intro round p w
  rw [Task.evaluate_gate, Round.within_apply, Gate.evaluate_macCheck, Round.within_apply,
    Round.within_apply]
  cases h : MacCheck.evaluate round (p, w) with
  | ok status s => simp [Protocol.evaluate, h]
  | error fault s => simp [Protocol.evaluate, h]

variable [Protocol m π ρ] {wrap : π → Task m} {round : Nat} {p p' : π} {w w' : Participant m}

theorem of_ok (h : Faithful wrap) {status : Status}
    (hround : Protocol.evaluate round (p, w) = .ok status (p', w')) :
    Task.evaluate round (wrap p, w) = .ok status (wrap p', w') := by
  rw [h, Round.within_apply, hround]

theorem of_error (h : Faithful wrap) {fault : Fault}
    (hround : Protocol.evaluate round (p, w) = .error fault (p', w')) :
    (wrap p', w') = endState (Task.evaluate round (wrap p, w)) := by
  rw [h, Round.within_apply, hround, endState_error]

end Faithful

namespace Evaluator

namespace Traced

/-- At any failure the books are kept up to there. -/
def Settles (n : Nat) (_ : Fault) (_ : Evaluator m) (t : Trace m) : Prop :=
  t.Settled n

/-- The books are kept, and these protocols are yet to be evaluated. -/
def Booked (n : Nat) (todo : List (Task m × Nat)) (e : Evaluator m) (t : Trace m) : Prop :=
  t.Booked n todo e.participant.mailbox

/-- An exchange closes the books of a leg and opens those of the next one. -/
theorem keeps_books_flush (due : List (Task m × Nat)) :
    Keeps (Settles n) (Booked n []) (flush due) fun _ => Booked n due := by
  refine keeps_flush (fun e t fault box h htake => h.before)
    (fun e t frames box error h htake => ?_)
    (fun e t frames box delivery fault box' h htake _ => ?_)
    fun e t frames box delivery box' h htake hdeliver => ?_
  · exact h.exchange (Mailbox.takeOutgoing_eq_ok h.shaped htake).1 _
  · exact h.exchange (Mailbox.takeOutgoing_eq_ok h.shaped htake).1 _
  · obtain ⟨hempty, hshaped, hlooped⟩ := Mailbox.takeOutgoing_eq_ok h.shaped htake
    obtain ⟨hsenders, hshaped', hqueue⟩ := Mailbox.deliver_eq_ok hshaped hdeliver
    refine ⟨h.exchange hempty _, hshaped', .opened rfl rfl (fun x hx => ?_) fun j => ?_⟩
    · cases hx
      exact ⟨delivery, rfl, hsenders⟩
    · show _ = box'.queue j
      rw [hqueue j, hlooped j]
      rfl

/-- A single protocol takes everything that arrives. -/
theorem keeps_books_run [Protocol m π ρ] {wrap : π → Task m} (faithful : Faithful wrap) (p : π) :
    Keeps (Settles n)
      (fun e t => Booked n [] e t ∧ (t.now.opening = none ∨ (wrap p).appetite 0 = 0)) (run wrap p)
      fun _ e t => Booked n [] e t ∧ e.participant.mailbox.Quiescent n := by
  have hrounds : Keeps (Settles n) (Booked n [(wrap p, 0)]) (runRounds wrap (lastRound + 1) 0 p)
      fun _ => Booked n [] :=
    keeps_runRounds (fun round p p' w e t (h : Booked n [(wrap p, round)] e t) hround =>
        (h.play_ok (faithful.of_ok hround) : Trace.Booked n [] w.mailbox _))
      (fun round p p' w e t h hround => h.play_ok (faithful.of_ok hround))
      (fun round p fault p' w e t h hround => h.play (faithful.of_error hround))
      (fun round p => keeps_books_flush _) (fun p e t h => h.before) rfl p
  exact keeps_run (hrounds.of_pre fun e t h => h.1.start h.2)
    (fun p e t h hsent hleft =>
      (⟨h, h.shaped, hsent, Mailbox.leftover?_eq_none hleft⟩ :
        Booked n [] e t ∧ e.participant.mailbox.Quiescent n))
    (fun p e t violation h _ => h.before) (fun p e t h => h.1.before) fun p result e t h _ => h

/-- The gates of a circuit keep the books. -/
theorem upkeep_books (c : Circuit m) (limit : Nat) :
    Upkeep c limit (Settles n) fun _ _ todo => Booked n (dueNext todo) where
  more h _ hround := h.play_ok (Faithful.gate.of_ok hround)
  done h _ hround _ :=
    have hplayed := h.play_ok (Faithful.gate.of_ok hround)
    ⟨⟨hplayed.before.past, hplayed.before.genuine⟩, hplayed.shaped, hplayed.account⟩
  silent h _ hround _ := (h.play_ok (Faithful.gate.of_ok hround)).before
  failed h _ hround := h.play (Faithful.gate.of_error hround)
  start h _ _ hgate := h.start (.inr (Schedule.appetite_of_gate hgate))
  misfit h _ _ _ := h.before
  flush _ _ _ _ _ := keeps_books_flush _
  endless h _ := h.before

/-- What is there to be taken is taken by the end of a circuit, and of the check after it. -/
theorem keeps_books_evaluate (c : Circuit m) :
    Keeps (Settles n) (fun e t => Booked n [] e t ∧ e.participant.mailbox.Quiescent n)
      (evaluate c) fun _ e t => Booked n [] e t ∧ e.participant.mailbox.Quiescent n := by
  refine keeps_evaluateWith (fun e t => Booked n [] e t ∧ e.participant.mailbox.Quiescent n)
    (fun _ => Booked n [])
    (fun _ e t => Booked n [] e t ∧ e.participant.mailbox.Quiescent n)
    (fun _ _ _ h _ => h.1.before) ?seed ?gates (fun _ _ _ _ h _ => h.before)
    (fun _ _ _ _ h _ => h.before) ?finished ?check
  case seed =>
    intro e₀ t₀ h _
    split
    · exact keeps_pure_from h
    · have htoss := (keeps_books_run .coinToss ({} : CoinToss)).from_state ⟨h.1, .inr rfl⟩
      exact keeps_initializeJointRandomness htoss fun _ _ _ h => h
  case gates =>
    exact ((Upkeep.keeps_runGates_forall (upkeep_books c) (.new c)).of_pre fun _ _ h => h.1).mono
      fun _ _ _ h => h.2
  case finished =>
    exact fun _ _ _ _ h hsent hleft _ => ⟨⟨⟨h.before.past, h.before.genuine⟩, h.shaped, h.account⟩,
      h.shaped, hsent, Mailbox.leftover?_eq_none hleft⟩
  case check =>
    intro values e₀ t₀ h
    split
    · exact (keeps_books_run .macCheck {}).from_state ⟨h.1, .inr rfl⟩
    · exact keeps_pure_from h

end Traced

end Evaluator

/-! ## §4 Every message -/

/-- What became of every message of a computation whose exchanges were answered by `replies`. -/
structure Accounted (n : Nat) (replies : List (Except TransportError Delivery))
    (answer : Except Fault α) (e : Evaluator m) (t : Trace m) : Prop where
  /-- The legs of the trace are cut at the exchanges. -/
  replies_eq : t.replies = replies
  exchanges : t.past.length = replies.length
  /-- Every round is one of a protocol. -/
  genuine : ∀ r ∈ t.played, r.after = endState (Task.evaluate r.number r.before)
  /-- It takes its messages from the front of the queues. -/
  front : ∀ r ∈ t.played, ∀ j,
    r.before.2.mailbox.queue j = r.taken j ++ r.after.2.mailbox.queue j
  /-- Before the next exchange every message is taken. -/
  past : ∀ leg ∈ t.past, leg.Settled n
  /-- So it is before a success. -/
  last : ∀ a, answer = .ok a → t.now.Settled n ∧ e.participant.mailbox.Quiescent n
  /-- When the messages that arrived of some party are not as many as the protocols due take,
  there is no further exchange, and no success. -/
  mismatch : ∀ leg ∈ t.legs, ∀ j < n, (leg.arrivals j).length ≠ leg.demand j →
    leg ∉ t.past ∧ ∃ fault, answer = .error fault

namespace Evaluator

open Traced

/-- Where the books are kept, every message is accounted for. -/
theorem accounted_of_keeps {x : Traced m (Trace m) α} {e e' : Evaluator m} {t : Trace m}
    {replies : List (Except TransportError Delivery)} {answer : Except Fault α}
    (h : Keeps (Settles n) (fun e t =>
        (Booked n [] e t ∧ e.participant.mailbox.Quiescent n) ∧ t.now.opening = none) x
      fun _ e t => Booked n [] e t ∧ e.participant.mailbox.Quiescent n)
    (quiet : e.participant.mailbox.Quiescent n)
    (hrun : Session.Run (x (e, {})) replies (answer, (e', t))) :
    Accounted n replies answer e' t := by
  obtain ⟨hext, hok, herror⟩ := h e {} _ _ _ _ ⟨⟨.new quiet, quiet⟩, rfl⟩ hrun
  have hsettled : t.Settled n := by
    cases answer with
    | ok a => exact (hok a rfl).1.before
    | error fault => exact herror fault rfl
  have hlast : ∀ a, answer = .ok a → t.now.Settled n ∧ e'.participant.mailbox.Quiescent n :=
    fun a ha => ⟨(hok a ha).1.settled (hok a ha).2.incoming, (hok a ha).2⟩
  have hdemand : ∀ leg ∈ t.legs, leg.Settled n → ∀ j < n, (leg.arrivals j).length = leg.demand j :=
    fun leg hleg hdone j hj => hdone.demand_eq
      (fun r hr => hsettled.genuine r (List.mem_flatMap.mpr ⟨leg, hleg, hr⟩)) hj
  refine ⟨hext.replies_eq, by simpa using hext.exchanges_eq,
    fun r hr => (hsettled.genuine r hr).evaluated, fun r hr => (hsettled.genuine r hr).queue_eq,
    hsettled.past, hlast, fun leg hleg j hj hne => ⟨fun hpast => ?_, ?_⟩⟩
  · exact hne (hdemand leg hleg (hsettled.past leg hpast) j hj)
  · cases answer with
    | error fault => exact ⟨fault, rfl⟩
    | ok a =>
      refine absurd (hdemand leg hleg ?_ j hj) hne
      obtain hpast | hnow := List.mem_append.mp hleg
      · exact hsettled.past leg hpast
      · obtain rfl := List.mem_singleton.mp hnow
        exact (hlast a rfl).1

/-- Every message that arrives at a party is taken by one protocol, in the round after its arrival
and in the order of its frame, or the party fails before it sends anything more. -/
theorem messages_received {e e' : Evaluator m} (quiet : e.participant.mailbox.Quiescent n)
    {replies : List (Except TransportError Delivery)} :
    (∀ (c : Circuit m) (answer : Except Fault (Outputs m)),
      Session.Run (evaluate c e) replies (answer, e') →
        ∃ t : Trace m, Session.Run (Traced.evaluate c (e, {})) replies (answer, (e', t))
          ∧ Accounted n replies answer e' t)
    ∧ ∀ (task : Task m) (answer : Except Fault (TaskResult m)),
      Session.Run (run task e) replies (answer, e') →
        ∃ t : Trace m, Session.Run (Traced.run id task (e, {})) replies (answer, (e', t))
          ∧ Accounted n replies answer e' t := by
  constructor
  · intro c answer hrun
    obtain ⟨t, htrace⟩ := (erases_evaluate c).exists_notes ({} : Trace m) hrun
    exact ⟨t, htrace,
      accounted_of_keeps ((keeps_books_evaluate c).of_pre fun _ _ h => h.1) quiet htrace⟩
  · intro task answer hrun
    obtain ⟨t, htrace⟩ := (erases_run id task).exists_notes ({} : Trace m) hrun
    exact ⟨t, htrace, accounted_of_keeps
      ((keeps_books_run .task task).of_pre fun _ _ h => ⟨h.1.1, .inl h.2⟩) quiet htrace⟩

/-- Two parties broadcast: the peer's message and the own one are taken in the leg after the only
exchange. -/
theorem messages_received_samplePool :
    ∃ (e' : Evaluator .mersenne61) (t : Trace .mersenne61),
      Session.Run
        (Traced.run id (.broadcast (.new [7])) ({ participant := .new (samplePool 0) }, {}))
        [.ok [(2, [[9]])]] (.ok (.messages [[7], [9]]), (e', t))
      ∧ Accounted 2 [.ok [(2, [[9]])]] (.ok (TaskResult.messages (m := .mersenne61) [[7], [9]]))
        e' t := by
  have hrun : ∃ e', Session.Run (run (.broadcast (.new [7]) : Task .mersenne61)
      { participant := .new (samplePool 0) }) [.ok [(2, [[9]])]] (.ok (.messages [[7], [9]]), e') :=
    ⟨_, Session.run_of_answered rfl⟩
  obtain ⟨e', hrun⟩ := hrun
  have quiet : (Participant.new (samplePool 0)).mailbox.Quiescent 2 :=
    Mailbox.quiescent_new (by decide) (by decide)
  obtain ⟨t, htrace, haccounted⟩ := (messages_received quiet).2 _ _ hrun
  exact ⟨e', t, htrace, haccounted⟩

end Evaluator

end JointCircuit
