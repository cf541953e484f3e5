/-
JointCircuit.Proofs.Passage — an evaluation follows its itinerary.

Nothing that a party holds or receives can lead it off the itinerary of
its circuit (JointCircuit.Proofs.Itinerary): as long as it does not fail,
it evaluates the rounds listed there and queues messages of the lengths
listed there (§1). This is kept by every step in the circuit (§2) and by
every round of the toss before and of the check after it (§3).

Main statement: `keeps_itinerary` (§4).
-/
import JointCircuit.Proofs.Duration
import JointCircuit.Proofs.Itinerary
import JointCircuit.Proofs.Timetable

namespace JointCircuit

open JointCircuit.Action Round

variable {m : Modulus} {n : Nat} {π ρ α : Type}

/-! ## §1 Following -/

namespace Trace

/-- What can be seen of a trace. -/
def sights (t : Trace m) : List Sight :=
  t.legs.flatMap fun leg => (leg.opening.map fun _ => Sight.exchange).toList
    ++ leg.rounds.map fun r => .round r.node r.number

/-- The frames handed out in each exchange. The own one stays, and an empty one goes out in its
place. -/
def sent (t : Trace m) : List (List Frame) :=
  t.legs.flatMap fun leg =>
    (leg.opening.map fun x => x.mailbox.outgoing.set (x.mailbox.party - 1) []).toList

variable (t : Trace m) (r : Played m) (x : Exchanged m)

@[simp] theorem sights_play : (t.play r).sights = t.sights ++ [.round r.node r.number] := by
  simp [sights, legs, play]

@[simp] theorem sights_exchange : (t.exchange x).sights = t.sights ++ [.exchange] := by
  simp [sights, legs, exchange]

@[simp] theorem sent_play : (t.play r).sent = t.sent := by
  simp [sent, legs, play]

@[simp] theorem sent_exchange : (t.exchange x).sent
    = t.sent ++ [x.mailbox.outgoing.set (x.mailbox.party - 1) []] := by
  simp [sent, legs, exchange]

end Trace

namespace Mailbox

/-- The frames that leave are those queued, and nothing is queued any more. -/
theorem takeOutgoing_letters {box box' : Mailbox} {frames : List Frame}
    (h : takeOutgoing box = .ok frames box') :
    frames = box.outgoing.set (box.party - 1) [] ∧ box'.letters = box.letters.map (fun _ => [])
      ∧ box'.party = box.party
      ∧ box'.bytesSent = box.bytesSent + frames.flatten.flatten.length := by
  obtain ⟨_, box₁, hdrained, h⟩ := bind_eq_ok.mp h
  simp only [ensureDrained, Action.bind_apply, Action.get_apply] at hdrained
  cases hleft : box.leftover? with
  | some violation =>
    rw [hleft] at hdrained
    cases hdrained
  | none =>
    rw [hleft] at hdrained
    cases hdrained
    cases h
    refine ⟨rfl, ?_, rfl, rfl⟩
    simp [letters, lengthsOf, parties, Function.comp_def]

/-- What arrives is not queued. -/
theorem deliver_outgoing (delivery : Delivery) (box : Mailbox) :
    (endState (deliver delivery box)).outgoing = box.outgoing
      ∧ (endState (deliver delivery box)).party = box.party
      ∧ (endState (deliver delivery box)).bytesSent = box.bytesSent := by
  induction delivery generalizing box with
  | nil => exact ⟨rfl, rfl, rfl⟩
  | cons sent rest ih =>
    obtain ⟨party, frame⟩ := sent
    simp only [deliver, Action.bind_apply, Action.get_apply]
    split
    · exact ⟨rfl, rfl, rfl⟩
    · exact ih { box with incoming := box.incoming.modify (party - 1) (· ++ frame) }

end Mailbox

theorem length_flatten_lengthsOf (frames : List Frame) :
    frames.flatten.flatten.length = (lengthsOf frames).flatten.sum := by
  induction frames with
  | nil => rfl
  | cons frame frames ih =>
    have hfirst : frame.flatten.length = (frame.map List.length).sum := List.length_flatten
    simp only [lengthsOf, List.map_cons, List.flatten_cons, List.flatten_append, List.length_append,
      List.sum_append, hfirst, ih]

namespace Evaluator

/-- What a party has queued before it starts. -/
def bag (e : Evaluator m) : Bag :=
  { party := e.participant.pool.party
    seat := e.participant.mailbox.party
    queue := e.participant.mailbox.letters }

/-- The party has done what these marks say since it was in the state `first`. -/
structure Follows (first : Evaluator m) (marks : List Mark) (e : Evaluator m) (t : Trace m) :
    Prop where
  sights : t.sights = marks.map Mark.sight
  sent : t.sent.map lengthsOf = (first.bag.addAll marks).sent
  queue : e.participant.mailbox.letters = (first.bag.addAll marks).queue
  party : e.participant.pool.party = first.participant.pool.party
  seat : e.participant.mailbox.party = first.participant.mailbox.party
  rounds : e.rounds = first.rounds + t.sent.length
  bytesSent : e.bytesSent = first.bytesSent + (t.sent.map lengthsOf).flatten.flatten.sum

/-- The trace is on the way to one of the plans. -/
def OnTheWay (first : Evaluator m) (plan : Nat → List Mark) (t : Trace m) : Prop :=
  ∃ k, ∃ marks, marks <+: plan k ∧ t.sights = marks.map Mark.sight
    ∧ t.sent.map lengthsOf = (first.bag.addAll marks).sent

namespace Follows

variable {first e : Evaluator m} {marks : List Mark} {t : Trace m} {plan : Nat → List Mark}
variable {k : Nat}

theorem new (e : Evaluator m) : Follows e [] e {} :=
  ⟨rfl, rfl, rfl, rfl, rfl, rfl, rfl⟩

/-- The protocols are not counted, nor does the joint generator matter. -/
theorem of_same {e' : Evaluator m} {t' : Trace m} (h : Follows first marks e t)
    (hmailbox : e'.participant.mailbox = e.participant.mailbox)
    (hparty : e'.participant.pool.party = e.participant.pool.party)
    (hrounds : e'.rounds = e.rounds) (hsights : t'.sights = t.sights) (hsent : t'.sent = t.sent) :
    Follows first marks e' t' where
  sights := hsights.trans h.sights
  sent := hsent ▸ h.sent
  queue := hmailbox ▸ h.queue
  party := hparty.trans h.party
  seat := hmailbox ▸ h.seat
  rounds := by rw [hrounds, hsent, h.rounds]
  bytesSent := by
    rw [hsent, ← h.bytesSent]
    exact congrArg Mailbox.bytesSent hmailbox

theorem onTheWay (h : Follows first marks e t) (hplan : marks <+: plan k) :
    OnTheWay first plan t :=
  ⟨k, marks, hplan, h.sights, h.sent⟩

/-- A round is evaluated, and may fail. -/
theorem onTheWay_play (h : Follows first marks e t) (r : Played m) (post : Nat → List Nat)
    (hplan : marks ++ [.round r.node r.number post] <+: plan k) :
    OnTheWay first plan (t.play r) := by
  refine ⟨k, _, hplan, ?_, ?_⟩
  · rw [Trace.sights_play, h.sights, List.map_append]
    rfl
  · rw [Trace.sent_play, h.sent, Bag.addAll_concat]
    rfl

/-- An exchange has taken place. -/
theorem sent_exchange (h : Follows first marks e t) {x : Exchanged m}
    (hmailbox : x.mailbox = e.participant.mailbox) : (t.exchange x).sent.map lengthsOf
      = (first.bag.addAll (marks ++ [.exchange])).sent := by
  obtain ⟨-, hseat⟩ := first.bag.party_addAll marks
  have hown : lengthsOf (e.participant.mailbox.outgoing.set (e.participant.mailbox.party - 1) [])
      = (first.bag.addAll marks).queue.set ((first.bag.addAll marks).seat - 1) [] := by
    rw [hseat, ← h.queue, bag, ← h.seat, Mailbox.letters, lengthsOf, List.map_set]
    rfl
  rw [Trace.sent_exchange, hmailbox, List.map_append, h.sent, Bag.addAll_concat, List.map_singleton,
    hown]
  rfl

theorem sights_exchange (h : Follows first marks e t) (x : Exchanged m) :
    (t.exchange x).sights = (marks ++ [Mark.exchange]).map Mark.sight := by
  rw [Trace.sights_exchange, h.sights, List.map_append]
  rfl

/-- An exchange that may not succeed. -/
theorem onTheWay_exchange (h : Follows first marks e t) {x : Exchanged m}
    (hmailbox : x.mailbox = e.participant.mailbox) (hplan : marks ++ [.exchange] <+: plan k) :
    OnTheWay first plan (t.exchange x) :=
  ⟨k, _, hplan, h.sights_exchange x, h.sent_exchange hmailbox⟩

/-- A round is evaluated and has queued what its mark says. -/
theorem play (h : Follows first marks e t) {r : Played m} {w : Participant m}
    {post : Nat → List Nat}
    (hqueued : Mailbox.Queued (post e.participant.pool.party) e.participant.mailbox w.mailbox)
    (serves : Serves e.participant w) (stays : Stays e.participant w) :
    Follows first (marks ++ [.round r.node r.number post]) { e with participant := w }
      (t.play r) where
  sights := by
    rw [Trace.sights_play, h.sights, List.map_append]
    rfl
  sent := by
    rw [Trace.sent_play, h.sent, Bag.addAll_concat]
    rfl
  queue := by
    obtain ⟨hparty, -⟩ := first.bag.party_addAll marks
    rw [Bag.addAll_concat, Bag.add, hparty, ← h.queue, bag, ← h.party]
    exact hqueued
  party := stays.party.trans h.party
  seat := serves.party.trans h.seat
  rounds := by rw [Trace.sent_play, ← h.rounds]
  bytesSent := by
    rw [Trace.sent_play, ← h.bytesSent]
    exact stays.bytesSent

/-- Frames leave, and the reply is delivered. -/
theorem exchange (h : Follows first marks e t) {frames : List Frame} {box box' : Mailbox}
    {delivery : Delivery} (htake : Mailbox.takeOutgoing e.participant.mailbox = .ok frames box)
    (hdeliver : Mailbox.deliver delivery box = .ok () box') (due : List (Task m × Nat)) :
    Follows first (marks ++ [.exchange])
      { e with participant.mailbox := box', rounds := e.rounds + 1 }
      (t.exchange ⟨due, e.participant.mailbox, .ok delivery⟩) := by
  obtain ⟨hframes, hletters, hseat, hbytes⟩ := Mailbox.takeOutgoing_letters htake
  have hbox : endState (Mailbox.deliver delivery box) = box' := by rw [hdeliver, endState_ok]
  obtain ⟨houtgoing, hseat', hbytes'⟩ := hbox ▸ Mailbox.deliver_outgoing delivery box
  refine ⟨h.sights_exchange _, h.sent_exchange rfl, ?_, h.party, hseat'.trans (hseat.trans h.seat),
    ?_, ?_⟩
  · rw [Bag.addAll_concat, Bag.add, ← h.queue, ← hletters, Mailbox.letters, Mailbox.letters]
    exact congrArg lengthsOf houtgoing
  · rw [Trace.sent_exchange, List.length_append, ← Nat.add_assoc, ← h.rounds]
    rfl
  · rw [Trace.sent_exchange, List.map_append, List.flatten_append, List.flatten_append,
      List.sum_append, ← Nat.add_assoc, ← h.bytesSent, ← hframes]
    simp only [List.map_singleton, List.flatten_singleton, ← length_flatten_lengthsOf]
    exact hbytes'.trans hbytes

end Follows

/-! ## §2 Gates on the way -/

namespace InFlight

variable {c : Circuit m} {f : InFlight m} {op : Operation m} {w w' : Participant m}
variable {gate : Gate m} {status : Status}

/-- What is known of a gate in advance. -/
def slot (f : InFlight m) : Waypoint.Slot :=
  ⟨f.id, f.round⟩

/-- The gate records, lasts and costs what its operation does. -/
structure Known (n : Nat) (op : Operation m) (f : InFlight m) : Prop where
  openings : f.gate.openings = op.openings
  last : 0 < f.round → f.gate.last n = op.last n true
  measured : f.gate.Measured
  postage : ∀ party round, f.gate.postage n party round = op.postage n party round

theorem known_new {values : List (Option (Value m))} (hgate : Gate.instantiate values op = .ok gate)
    (id : NodeId) : Known n op { id, gate, round := 0 } := by
  obtain ⟨hmeasured, hpostage⟩ := Gate.postage_of_instantiate (n := n) hgate
  exact ⟨(Gate.instantiate_eq_ok hgate).1, nofun, hmeasured, hpostage⟩

/-- A gate that goes on is due, if it is not a new check. -/
theorem Going.due_or_new (going : f.Going c n) (hop : c.operation? f.id = some op) :
    (f.gate.Due n f.round ∧ ¬ (op.isCheck = true ∧ f.round = 0))
      ∨ (f.round = 0 ∧ f.gate = .macCheck {} ∧ op.isCheck = true) := by
  cases going with
  | due hpos hle due => exact .inl ⟨due, fun h => Nat.ne_of_gt hpos h.2⟩
  | built hop' hzero hgate =>
    obtain rfl := Option.some.inj (hop.symm.trans hop')
    obtain ⟨-, hsupplied, -⟩ := Gate.instantiate_eq_ok hgate
    obtain ⟨hother, hcheck⟩ := Gate.kind_of_instantiate (n := n) hgate true
    cases hkind : op.isCheck with
    | true => exact .inr ⟨hzero, hcheck hkind, rfl⟩
    | false =>
      refine .inl ⟨⟨hzero ▸ hsupplied, fun p hp => ?_⟩, nofun⟩
      have hnone := (hother hkind).1
      rw [hp] at hnone
      cases hnone

namespace Known

/-- What there is to check after a round of a gate. -/
theorem leaves (known : f.Known n op) (going : f.Going c n) (hop : c.operation? f.id = some op)
    (fit : w.Fit n) (hround : Gate.evaluate f.round (f.gate, w) = .ok status (gate, w')) :
    w'.pool.opened.hasPending = op.leaves f.round status w.pool.opened.hasPending := by
  obtain ⟨due, hold⟩ | ⟨hzero, hnew, hcheck⟩ := going.due_or_new hop
  · obtain ⟨old, hopened⟩ : ∃ old, w.pool.opened = .ofEntries old :=
      ⟨_, OpenedValues.eq_ofEntries fit.opened⟩
    obtain ⟨-, -, new, hopened', hlength⟩ := due.step fit.parties hround hopened
    rw [Operation.leaves, if_neg hold, hopened', hopened, Timetable.hasPending_append hlength,
      known.openings, Bool.decide_and]
  · rw [hzero, hnew] at hround
    rw [(Gate.evaluate_new_check n hround).1, Operation.leaves, if_pos ⟨hcheck, hzero⟩]
    rfl

/-- A round of a gate queues what its operation says. -/
theorem posts (known : f.Known n op) (going : f.Going c n) (hop : c.operation? f.id = some op)
    (fit : w.Fit n) (hround : Gate.evaluate f.round (f.gate, w) = .ok status (gate, w')) :
    Mailbox.Queued (status.letters (op.postage n w.pool.party f.round)) w.mailbox w'.mailbox
      ∧ gate.Measured
      ∧ (status = .more →
        ∀ party round, gate.postage n party round = op.postage n party round) := by
  have hdue : f.gate.Due n f.round ∨ f.round = 0 ∧ f.gate = .macCheck {} :=
    (going.due_or_new hop).imp And.left fun h => ⟨h.1, h.2.1⟩
  obtain ⟨_, ⟨hmeasured, hpostage, rfl⟩, hqueued⟩ :=
    Gate.posts known.measured hdue fit.parties status (gate, w') hround
  rw [known.postage] at hqueued
  exact ⟨hqueued, hmeasured, fun hmore party round =>
    (hpostage hmore party round).trans (known.postage party round)⟩

/-- A gate that goes on is known as before. -/
theorem next (known : f.Known n op) (going : f.Going c n) (hop : c.operation? f.id = some op)
    (fit : w.Fit n) (hround : Gate.evaluate f.round (f.gate, w) = .ok .more (gate, w')) :
    (f.next gate).Known n op where
  openings := by
    obtain ⟨due, -⟩ | ⟨hzero, hnew, -⟩ := going.due_or_new hop
    · obtain ⟨-, hmore, -⟩ :=
        due.step fit.parties hround (OpenedValues.eq_ofEntries fit.opened)
      exact (hmore rfl).2.2.trans known.openings
    · have hopenings := known.openings
      rw [hzero, hnew] at hround
      rw [hnew] at hopenings
      exact ((Gate.evaluate_new_check n hround).2.2 rfl).2.2.trans hopenings
  last _ := by
    obtain ⟨hlt, hlast, -⟩ := (going.step hop fit hround).more rfl
    refine hlast.trans ?_
    unfold InFlight.last at hlt ⊢
    split
    · rename_i hzero
      rw [if_pos hzero] at hlt
      exact Operation.last_of_pos (Nat.zero_lt_of_lt hlt)
    · rename_i hpos
      exact known.last (Nat.pos_of_ne_zero hpos)
  measured := (known.posts going hop fit hround).2.1
  postage := (known.posts going hop fit hround).2.2 rfl

/-- The round in which a gate ends is known. -/
theorem last_eq (known : f.Known n op) (pending : Bool) :
    f.last n op pending = op.last n (pending || f.round != 0) := by
  unfold InFlight.last
  split
  · rename_i hzero
    simp [hzero]
  · rename_i hpos
    rw [known.last (Nat.pos_of_ne_zero hpos), bne_iff_ne.mpr hpos, Bool.or_true]

end Known

end InFlight

/-- This is the point that the evaluation has reached, with `earlier` protocols counted before. -/
structure Stands (σ : Waypoint m) (earlier : Nat) (s : Schedule m) (still todo : List (InFlight m))
    (e : Evaluator m) : Prop where
  schedule : σ.schedule = s.outline
  still : σ.still = still.map InFlight.slot
  todo : σ.todo = todo.map InFlight.slot
  pending : σ.pending = e.participant.pool.opened.hasPending
  completed : e.protocols = earlier + σ.completed

namespace Stands

variable {c : Circuit m} {σ : Waypoint m} {earlier : Nat} {s : Schedule m}
variable {still rest : List (InFlight m)} {f : InFlight m} {e : Evaluator m} {op : Operation m}
variable {status : Status} {gate : Gate m} {w : Participant m}

theorem new (c : Circuit m) (e : Evaluator m) :
    Stands (.start c e.participant.pool.opened.hasPending) e.protocols (.new c) [] [] e :=
  ⟨rfl, rfl, rfl, rfl, rfl⟩

/-- The next point when a gate is evaluated. -/
theorem next_eq (h : Stands σ earlier s still (f :: rest) e)
    (hop : s.circuit.operation? f.id = some op) :
    σ.next n = σ.evaluate n f.slot (rest.map InFlight.slot) op.shape := by
  have hop' : σ.schedule.circuit.operation? f.slot.id = some op.shape := by
    rw [h.schedule]
    exact (s.circuit.operation?_shape f.id).trans (congrArg (Option.map _) hop)
  rw [Waypoint.next, h.todo, List.map_cons]
  simp only [hop']

/-- A round of a gate ends as it is known to. -/
theorem status_eq (h : Stands σ earlier s still (f :: rest) e) (known : f.Known n op)
    (advances : f.Advances c n (f.last n op e.participant.pool.opened.hasPending) status gate) :
    Status.before (op.shape.last n (σ.pending || f.slot.round != 0)) f.slot.round = status := by
  have hlast : op.shape.last n (σ.pending || f.slot.round != 0)
      = f.last n op e.participant.pool.opened.hasPending := by
    rw [Operation.last_shape, h.pending, known.last_eq]
    rfl
  rw [hlast]
  cases status with
  | more => exact Status.before_of_lt (advances.more rfl).1
  | done => exact Status.before_of_le (advances.done rfl).ge

end Stands

/-- An evaluation by one of `n` parties on its way through a circuit, with `base` behind it and
`earlier` protocols counted when it entered. -/
structure EnRoute (c : Circuit m) (n : Nat) (first : Evaluator m) (base : List Mark)
    (entry : Waypoint m) (earlier : Nat) (s : Schedule m) (still todo : List (InFlight m))
    (e : Evaluator m) (t : Trace m) : Prop where
  fit : e.participant.Fit n
  flights : ∀ f ∈ still ++ todo, f.Going c n ∧ ∀ op, c.operation? f.id = some op → f.Known n op
  reached : ∃ k, Stands (entry.after n k) earlier s still todo e
    ∧ Follows first (base ++ (entry.after n k).marks) e t

/-- A successful round leaves things in order. -/
theorem conduct_of_round [Protocol m π ρ] {wrap : π → Task m} (faithful : Faithful wrap)
    {round : Nat} {p p' : π} {w w' : Participant m} {status : Status}
    (hround : Protocol.evaluate round (p, w) = .ok status (p', w')) : Serves w w' ∧ Stays w w' :=
  ⟨(Task.respects (R := Serves) round).of_ok (faithful.of_ok hround),
    (Task.respects (R := Stays) round).of_ok (faithful.of_ok hround)⟩

namespace EnRoute

variable {c : Circuit m} {first : Evaluator m} {base : List Mark} {entry : Waypoint m}
variable {earlier : Nat}
variable {s : Schedule m} {still rest : List (InFlight m)} {f : InFlight m} {e : Evaluator m}
variable {t : Trace m} {gate : Gate m} {w : Participant m}

theorem new (c : Circuit m) (fit : e.participant.Fit n) (h : Follows first base e t) :
    EnRoute c n first base (.start c e.participant.pool.opened.hasPending) e.protocols (.new c)
      [] [] e t where
  fit := fit
  flights _ hf := absurd hf List.not_mem_nil
  reached := ⟨0, .new c e, (List.append_nil base).symm ▸ h⟩

theorem onTheWay (h : EnRoute c n first base entry earlier s still rest e t)
    {plan : Nat → List Mark} (hplan : ∀ k, base ++ (entry.after n k).marks <+: plan k) :
    OnTheWay first plan t := by
  obtain ⟨k, -, hfollows⟩ := h.reached
  exact hfollows.onTheWay (hplan k)

/-- The gate that is evaluated next, and its operation. -/
theorem exists_known (h : EnRoute c n first base entry earlier s still (f :: rest) e t)
    (underway : Traced.Underway c s (still ++ f :: rest)) :
    ∃ op, c.operation? f.id = some op ∧ f.Going c n ∧ f.Known n op := by
  have hmem : f ∈ still ++ f :: rest := List.mem_append_right _ List.mem_cons_self
  obtain ⟨op, hop⟩ := underway.exists_operation hmem
  exact ⟨op, hop, (h.flights f hmem).1, (h.flights f hmem).2 op hop⟩

/-- A round of a gate, which may fail. -/
theorem onTheWay_play (h : EnRoute c n first base entry earlier s still (f :: rest) e t)
    (underway : Traced.Underway c s (still ++ f :: rest)) {plan : Nat → List Mark}
    (hplan : ∀ k, base ++ (entry.after n k).marks <+: plan k) (after : Gate m × Participant m) :
    OnTheWay first plan (t.play (f.played e.participant after)) := by
  obtain ⟨op, hop, -, -⟩ := h.exists_known underway
  obtain ⟨k, stands, hfollows⟩ := h.reached
  have hnext : ∃ post, ((entry.after n (k + 1)).marks : List Mark)
      = (entry.after n k).marks ++ [.round f.id f.round post] := by
    rw [Waypoint.after_succ, stands.next_eq (underway.circuit ▸ hop)]
    unfold Waypoint.evaluate
    dsimp only
    split <;> exact ⟨_, rfl⟩
  obtain ⟨post, hmarks⟩ := hnext
  refine hfollows.onTheWay_play (f.played e.participant after) post ?_ (k := k + 1)
  rw [List.append_assoc]
  exact hmarks ▸ hplan (k + 1)

/-- A gate goes on. -/
theorem more (h : EnRoute c n first base entry earlier s still (f :: rest) e t)
    (underway : Traced.Underway c s (still ++ f :: rest))
    (hround : Gate.evaluate f.round (f.gate, e.participant) = .ok .more (gate, w)) :
    EnRoute c n first base entry earlier s (still ++ [f.next gate]) rest { e with participant := w }
      (t.play (f.played e.participant (gate, w))) := by
  obtain ⟨op, hop, going, known⟩ := h.exists_known underway
  obtain ⟨k, stands, hfollows⟩ := h.reached
  obtain ⟨serves, stays⟩ := conduct_of_round .gate hround
  have advances := going.step hop h.fit hround
  have hpending := known.leaves going hop h.fit hround
  obtain ⟨hqueued, -, -⟩ := known.posts going hop h.fit hround
  refine ⟨h.fit.serves serves, fun g hg => ?_, k + 1, ?_⟩
  · simp only [List.mem_append, List.mem_singleton] at hg
    obtain (hg | rfl) | hg := hg
    · exact h.flights g (List.mem_append_left _ hg)
    · refine ⟨(advances.more rfl).2.2, fun op' hop' => ?_⟩
      obtain rfl := Option.some.inj (hop.symm.trans hop')
      exact known.next going hop h.fit hround
    · exact h.flights g (List.mem_append_right _ (List.mem_cons_of_mem _ hg))
  · rw [Waypoint.after_succ, stands.next_eq (underway.circuit ▸ hop), Waypoint.evaluate,
      stands.status_eq known advances]
    refine ⟨⟨stands.schedule, ?_, rfl, ?_, stands.completed⟩, ?_⟩
    · simp only [stands.still, List.map_append, List.map_singleton]
      rfl
    · rw [Operation.leaves_shape, hpending, stands.pending]
      rfl
    · rw [← List.append_assoc]
      exact hfollows.play (r := f.played e.participant (gate, w))
        (by simpa only [Operation.postage_shape, InFlight.slot] using hqueued) serves stays

/-- A node is completed. -/
theorem done (h : EnRoute c n first base entry earlier s still (f :: rest) e t)
    (underway : Traced.Underway c s (still ++ f :: rest))
    (hround : Gate.evaluate f.round (f.gate, e.participant) = .ok .done (gate, w))
    (value : Value m) :
    EnRoute c n first base entry earlier (s.complete f.id value) still rest
      { e with participant := w, protocols := e.protocols + 1 }
      ((t.play (f.played e.participant (gate, w))).complete f.id s) := by
  obtain ⟨op, hop, going, known⟩ := h.exists_known underway
  obtain ⟨k, stands, hfollows⟩ := h.reached
  obtain ⟨serves, stays⟩ := conduct_of_round .gate hround
  have advances := going.step hop h.fit hround
  have hpending := known.leaves going hop h.fit hround
  obtain ⟨hqueued, -, -⟩ := known.posts going hop h.fit hround
  refine ⟨h.fit.serves serves, fun g hg => h.flights g ?_, k + 1, ?_⟩
  · exact (List.mem_append.mp hg).elim (List.mem_append_left _)
      fun hg => List.mem_append_right _ (List.mem_cons_of_mem _ hg)
  · rw [Waypoint.after_succ, stands.next_eq (underway.circuit ▸ hop), Waypoint.evaluate,
      stands.status_eq known advances]
    refine ⟨⟨?_, stands.still, rfl, ?_, ?_⟩, ?_⟩
    · rw [Schedule.outline_complete, ← stands.schedule]
      rfl
    · rw [Operation.leaves_shape, hpending, stands.pending]
      rfl
    · simp only [stands.completed, Nat.add_assoc]
    · rw [← List.append_assoc]
      have hplayed : Follows first (base ++ (entry.after n k).marks ++ [.round f.id f.round
          fun party => Status.done.letters (op.shape.postage n party f.round)])
          { e with participant := w } (t.play (f.played e.participant (gate, w))) :=
        hfollows.play (r := f.played e.participant (gate, w))
          (by simpa only [Operation.postage_shape] using hqueued) serves stays
      exact Follows.of_same hplayed rfl rfl rfl rfl rfl

/-- A ready node is started. -/
theorem start (h : EnRoute c n first base entry earlier s still [] e t)
    (underway : Traced.Underway c s still) {id : NodeId} {ids : List NodeId}
    (hready : s.ready = id :: ids) (hgate : s.gate id = .ok gate) :
    EnRoute c n first base entry earlier { s with ready := ids } still [{ id, gate, round := 0 }]
      e t := by
  obtain ⟨k, stands, hfollows⟩ := h.reached
  refine ⟨h.fit, fun g hg => ?_, k + 1, ?_⟩
  · obtain hg | hg := List.mem_append.mp hg
    · exact h.flights g (List.mem_append_left _ hg)
    · obtain rfl := List.mem_singleton.mp hg
      unfold Schedule.gate at hgate
      split at hgate
      · cases hgate
      · rename_i op hop
        have hop : c.operation? id = some op := underway.circuit ▸ hop
        refine ⟨.built hop rfl hgate, fun op' hop' => ?_⟩
        obtain rfl := Option.some.inj (hop.symm.trans hop')
        exact InFlight.known_new hgate id
  · have hready' : (entry.after n k).schedule.ready = id :: ids := by
      rw [stands.schedule]
      exact hready
    have hnext : entry.after n (k + 1) = { entry.after n k with
        schedule := { (entry.after n k).schedule with ready := ids }, todo := [⟨id, 0⟩] } := by
      rw [Waypoint.after_succ, Waypoint.next, stands.todo, List.map_nil]
      simp only [hready']
    rw [hnext]
    refine ⟨⟨?_, stands.still, rfl, stands.pending, stands.completed⟩, hfollows⟩
    rw [stands.schedule]
    rfl

/-- Notes of other kinds do not matter. -/
theorem finish (h : EnRoute c n first base entry earlier s still rest e t) (w : Participant m) :
    EnRoute c n first base entry earlier s still rest e (t.finish w) := by
  obtain ⟨k, stands, hfollows⟩ := h.reached
  exact ⟨h.fit, h.flights, k, stands, hfollows.of_same rfl rfl rfl rfl rfl⟩

/-- When nothing is left to do, the point reached is the last one. -/
theorem ends (h : EnRoute c n first base entry earlier s [] [] e t) (hready : s.ready = []) :
    ∃ k, (entry.after n k).Over ∧ Stands (entry.after n k) earlier s [] [] e
      ∧ Follows first (base ++ (entry.after n k).marks) e t := by
  obtain ⟨k, stands, hfollows⟩ := h.reached
  exact ⟨k, ⟨stands.todo, by rw [stands.schedule]; exact hready, stands.still⟩, stands, hfollows⟩

end EnRoute

namespace Traced

variable {c : Circuit m} {first : Evaluator m} {base : List Mark} {plan : Nat → List Mark}

/-- An exchange on the way. -/
theorem keeps_follows_flush (due : List (Task m × Nat)) {k : Nat}
    (hplan : base ++ [.exchange] <+: plan k) {e₀ : Evaluator m} {t₀ : Trace m}
    (fit : e₀.participant.Fit n) (h : Follows first base e₀ t₀) :
    Keeps (fun _ _ t => OnTheWay first plan t) (fun e t => e = e₀ ∧ t = t₀) (flush due)
      fun _ e t => Follows first (base ++ [.exchange]) e t ∧ e.participant.Fit n
        ∧ e.participant.pool = e₀.participant.pool ∧ e.protocols = e₀.protocols := by
  refine keeps_flush ?_ ?_ ?_ ?_
  · rintro e t fault box ⟨rfl, rfl⟩ -
    exact h.onTheWay ((List.prefix_append _ _).trans hplan)
  · rintro e t frames box error ⟨rfl, rfl⟩ -
    exact h.onTheWay_exchange rfl hplan
  · rintro e t frames box delivery fault box' ⟨rfl, rfl⟩ - -
    exact h.onTheWay_exchange rfl hplan
  · rintro e t frames box delivery box' ⟨rfl, rfl⟩ htake hdeliver
    obtain ⟨-, hshaped, -⟩ := Mailbox.takeOutgoing_eq_ok fit.mailbox htake
    obtain ⟨-, hshaped', -⟩ := Mailbox.deliver_eq_ok hshaped hdeliver
    exact ⟨h.exchange htake hdeliver due, ⟨hshaped', fit.parties, fit.opened⟩, rfl, rfl⟩

/-- The gates of a circuit stay on the way, whatever arrives. -/
theorem upkeep_itinerary {limit earlier : Nat} {entry : Waypoint m}
    (hplan : ∀ k, base ++ (entry.after n k).marks <+: plan k) :
    Upkeep c limit (fun _ _ t => OnTheWay first plan t) (EnRoute c n first base entry earlier) where
  more h underway hround := h.more underway hround
  done h underway hround _ := h.done underway hround _
  silent h underway _ _ := h.onTheWay_play underway hplan _
  failed h underway _ := h.onTheWay_play underway hplan _
  start h underway hready hgate := h.start underway hready hgate
  misfit h _ _ _ := h.onTheWay hplan
  flush s flights underway hready hflights := by
    refine keeps_at fun e₀ t₀ h => ?_
    obtain ⟨k, stands, hfollows⟩ := h.reached
    obtain ⟨f, rest, rfl⟩ := List.exists_cons_of_ne_nil hflights
    have hready' : (entry.after n k).schedule.ready = [] := by
      rw [stands.schedule]
      exact hready
    have hnext : entry.after n (k + 1) = { entry.after n k with
        still := [], todo := (f :: rest).map InFlight.slot
        marks := (entry.after n k).marks ++ [.exchange] } := by
      rw [Waypoint.after_succ, Waypoint.next, stands.todo, List.map_nil]
      simp only [hready', stands.still, List.map_cons]
    have hmarks : base ++ (entry.after n k).marks ++ [.exchange]
        = base ++ (entry.after n (k + 1)).marks := by
      rw [hnext, List.append_assoc]
    refine (keeps_follows_flush _ (hmarks ▸ hplan (k + 1)) h.fit hfollows).mono ?_
    rintro _ e t ⟨hfollows', fit, hpool, hprotocols⟩
    refine ⟨fit, fun g hg => h.flights g (List.mem_append_left _ hg), k + 1, ?_, hmarks ▸ hfollows'⟩
    rw [hnext]
    exact ⟨stands.schedule, rfl, rfl, hpool ▸ stands.pending, hprotocols.trans stands.completed⟩
  endless h _ := h.onTheWay hplan

end Traced

/-! ## §3 Protocols by themselves -/

end Evaluator

/-- A protocol with a clock whose rounds queue `post`, and which keeps what is so of the pool. -/
structure Mailed [Protocol m π ρ] (wrap : π → Task m) (n last : Nat) (post : Nat → List Nat)
    (due : Nat → π → Pool m → Prop) (kept : Pool m → Prop) : Prop where
  faithful : Faithful wrap
  step : ∀ {round p p' w w' status}, due round p w.pool → kept w.pool → w.Fit n →
    Protocol.evaluate round (p, w) = .ok status (p', w') →
    status = .before last round ∧ (round < last → due (round + 1) p' w'.pool) ∧ kept w'.pool
      ∧ Mailbox.Queued (status.letters (post round)) w.mailbox w'.mailbox

/-- The coin toss leaves the store alone. -/
theorem CoinToss.mailed (pending : Bool) : Mailed (.coinToss : CoinToss → Task m) n
    (2 * exchanges n) (Commit.postage (exchanges n) seedLength)
    (fun round p _ => ((round = 0 ∧ p = {}) ∨ p.Due (exchanges n) round) ∧ p.Measured)
    fun pool => pool.opened.hasPending = pending where
  faithful := .coinToss
  step := by
    rintro round p p' w w' status ⟨hdue, measured⟩ hkept fit hround
    have hpositive : 0 < exchanges n := Nat.succ_pos _
    obtain ⟨hstatus, hnext⟩ := CoinToss.clocked.step hdue fit hround
    have hopened : w'.pool.opened = w.pool.opened := (CoinToss.quiet _ _ _ _ _ _ hround).1
    have hposts : p'.Measured ∧ Mailbox.Queued
        (status.letters (Commit.postage (exchanges n) seedLength round)) w.mailbox w'.mailbox := by
      obtain ⟨rfl, rfl⟩ | due := hdue
      · obtain ⟨_, ⟨rfl, hmeasured, rfl⟩, hqueued⟩ := CoinToss.posts_new w status (p', w') hround
        rw [Commit.postage, if_neg (Nat.ne_of_lt hpositive)]
        exact ⟨hmeasured, hqueued⟩
      · obtain ⟨_, ⟨hmeasured, rfl⟩, hqueued⟩ :=
          CoinToss.posts measured due (congrArg exchanges fit.parties) status (p', w') hround
        exact ⟨hmeasured, hqueued⟩
    exact ⟨hstatus, fun hlt => ⟨hnext hlt, hposts.1⟩, by rw [hopened, hkept], hposts.2⟩

/-- A check of something. -/
theorem MacCheck.mailed : Mailed (fun p : MacCheck m => (.gate (.macCheck p) : Task m)) n
    (4 * exchanges n) (postage m (exchanges n))
    (fun round p pool => ((round = 0 ∧ p = {} ∧ pool.opened.hasPending = true)
      ∨ p.Due (exchanges n) round) ∧ p.Measured)
    fun _ => True where
  faithful := .macCheck
  step := by
    rintro round p p' w w' status ⟨hdue, measured⟩ - fit hround
    have hpositive : 0 < exchanges n := Nat.succ_pos _
    obtain ⟨hstatus, hnext⟩ := MacCheck.clocked.step hdue fit hround
    have hposts : p'.Measured ∧ Mailbox.Queued
        (status.letters (postage m (exchanges n) round)) w.mailbox w'.mailbox := by
      obtain ⟨rfl, rfl, -⟩ | due := hdue
      · obtain ⟨_, ⟨hmeasured, rfl⟩, hqueued⟩ := MacCheck.posts_new w status (p', w') hround
        rw [postage, if_pos (by omega), Commit.postage, if_neg (Nat.ne_of_lt hpositive)]
        exact ⟨hmeasured, hqueued⟩
      · obtain ⟨_, ⟨hmeasured, rfl⟩, hqueued⟩ :=
          MacCheck.posts measured due (congrArg exchanges fit.parties) status (p', w') hround
        exact ⟨hmeasured, hqueued⟩
    exact ⟨hstatus, fun hlt => ⟨hnext hlt, hposts.1⟩, trivial, hposts.2⟩

namespace Evaluator

/-- A protocol by itself on its way, with `behind` behind it, before this round of its. -/
structure Alone (n last : Nat) (due : Nat → π → Pool m → Prop) (kept : Pool m → Prop)
    (first : Evaluator m) (earlier : Nat) (behind : List Mark) (round : Nat) (p : π)
    (e : Evaluator m) (t : Trace m) : Prop where
  fit : e.participant.Fit n
  follows : Follows first behind e t
  due : due round p e.participant.pool
  kept : kept e.participant.pool
  le : round ≤ last
  counted : e.protocols = earlier

/-- A protocol by itself at its end. -/
structure Ended (n : Nat) (kept : Pool m → Prop) (first : Evaluator m) (protocols : Nat)
    (behind : List Mark) (e : Evaluator m) (t : Trace m) : Prop where
  fit : e.participant.Fit n
  follows : Follows first behind e t
  kept : kept e.participant.pool
  counted : e.protocols = protocols

namespace Alone

variable [Protocol m π ρ] {wrap : π → Task m} {last earlier round : Nat} {post : Nat → List Nat}
variable {due : Nat → π → Pool m → Prop} {kept : Pool m → Prop} {first e : Evaluator m}
variable {behind : List Mark} {p p' : π} {t : Trace m} {w : Participant m}

/-- A round that succeeds queues what its mark says. -/
theorem play (h : Alone n last due kept first earlier behind round p e t)
    (mailed : Mailed wrap n last post due kept) {status : Status}
    (hround : Protocol.evaluate round (p, e.participant) = .ok status (p', w)) :
    w.Fit n ∧ Follows first (behind ++ [.round none round fun _ => status.letters (post round)])
      { e with participant := w }
      (t.play ⟨none, round, (wrap p, e.participant), (wrap p', w)⟩) := by
  obtain ⟨-, -, -, hqueued⟩ := mailed.step h.due h.kept h.fit hround
  obtain ⟨serves, stays⟩ := conduct_of_round mailed.faithful hround
  exact ⟨h.fit.serves serves,
    h.follows.play (r := ⟨none, round, (wrap p, e.participant), (wrap p', w)⟩) hqueued serves stays⟩

theorem more (h : Alone n last due kept first earlier behind round p e t)
    (mailed : Mailed wrap n last post due kept)
    (hround : Protocol.evaluate round (p, e.participant) = .ok .more (p', w)) :
    Alone n last due kept first earlier (behind ++ [.round none round fun _ => post round])
      (round + 1) p' { e with participant := w }
      (t.play ⟨none, round, (wrap p, e.participant), (wrap p', w)⟩) := by
  obtain ⟨fit, hfollows⟩ := h.play mailed hround
  obtain ⟨hstatus, hnext, hkept, -⟩ := mailed.step h.due h.kept h.fit hround
  have hlt : round < last := Status.before_eq_more.mp hstatus.symm
  exact ⟨fit, hfollows, hnext hlt, hkept, hlt, h.counted⟩

theorem done (h : Alone n last due kept first earlier behind round p e t)
    (mailed : Mailed wrap n last post due kept)
    (hround : Protocol.evaluate round (p, e.participant) = .ok .done (p', w)) :
    round = last ∧ Ended n kept first earlier (behind ++ [.round none round fun _ => []])
      { e with participant := w }
      (t.play ⟨none, round, (wrap p, e.participant), (wrap p', w)⟩) := by
  obtain ⟨fit, hfollows⟩ := h.play mailed hround
  obtain ⟨hstatus, -, hkept, -⟩ := mailed.step h.due h.kept h.fit hround
  exact ⟨Nat.le_antisymm h.le (Status.before_eq_done.mp hstatus.symm), fit, hfollows, hkept,
    h.counted⟩

end Alone

/-- Up to its last round a protocol by itself is on its way. -/
theorem exists_solo_append (post : Nat → List Nat) {round last : Nat} (h : round ≤ last) :
    ∃ post', Mark.solo post round ++ [.round none round post'] <+: Mark.alone post last := by
  rcases Nat.lt_or_ge round last with hlt | hge
  · refine ⟨fun _ => post round, ?_⟩
    have hnext : Mark.solo post (round + 1) <+: Mark.alone post last :=
      (Mark.solo_mono hlt).trans (List.prefix_append _ _)
    refine List.IsPrefix.trans ?_ hnext
    exact ⟨[.exchange], by rw [List.append_assoc]; rfl⟩
  · obtain rfl := Nat.le_antisymm h hge
    exact ⟨fun _ => [], List.prefix_refl _⟩

namespace Traced

section

variable [Protocol m π ρ] {wrap : π → Task m} {last : Nat} {post : Nat → List Nat}
variable {due : Nat → π → Pool m → Prop} {kept : Pool m → Prop} {first : Evaluator m}
variable {base : List Mark} {plan : Nat → List Mark} {earlier k : Nat}

/-- The exchange after a round. -/
theorem keeps_alone_flush (hplan : base ++ Mark.alone post last <+: plan k) (round : Nat) (p : π) :
    Keeps (fun _ _ t => OnTheWay first plan t)
      (fun e t => ∃ r, round = r + 1 ∧ Alone n last due kept first earlier
        (base ++ Mark.solo post r ++ [.round none r fun _ => post r]) round p e t)
      (flush [(wrap p, round)])
      fun _ => Alone n last due kept first earlier (base ++ Mark.solo post round) round p := by
  refine keeps_at fun e t ⟨r, hr, h⟩ => ?_
  subst hr
  have hmarks : base ++ Mark.solo post r ++ [.round none r fun _ => post r] ++ [.exchange]
      = base ++ Mark.solo post (r + 1) := by
    simp only [Mark.solo, List.append_assoc, List.cons_append, List.nil_append]
  have hsolo : base ++ Mark.solo post (r + 1) <+: plan k := by
    refine List.IsPrefix.trans ?_ hplan
    exact (List.prefix_append_right_inj _).mpr
      ((Mark.solo_mono h.le).trans (List.prefix_append _ _))
  refine (keeps_follows_flush _ (hmarks ▸ hsolo) h.fit h.follows).mono ?_
  rintro _ e' t' ⟨hfollows, fit, hpool, hprotocols⟩
  exact ⟨fit, hmarks ▸ hfollows, hpool ▸ h.due, hpool ▸ h.kept, h.le, hprotocols.trans h.counted⟩

/-- All its rounds. -/
theorem keeps_alone_rounds (mailed : Mailed wrap n last post due kept) (hlast : last ≤ lastRound)
    (hplan : base ++ Mark.alone post last <+: plan k) (p : π) :
    Keeps (fun _ _ t => OnTheWay first plan t)
      (Alone n last due kept first earlier (base ++ Mark.solo post 0) 0 p)
      (runRounds wrap (lastRound + 1) 0 p)
      fun _ => Ended n kept first earlier (base ++ Mark.alone post last) := by
  let before (round : Nat) : π → Evaluator m → Trace m → Prop :=
    Alone n last due kept first earlier (base ++ Mark.solo post round) round
  have hdone (round : Nat) (p p' : π) (w : Participant m) (e : Evaluator m) (t : Trace m)
      (h : before round p e t)
      (hround : Protocol.evaluate round (p, e.participant) = .ok .done (p', w)) :
      Ended n kept first earlier (base ++ Mark.alone post last) { e with participant := w }
        (t.play ⟨none, round, (wrap p, e.participant), (wrap p', w)⟩) := by
    obtain ⟨rfl, hended⟩ := Alone.done h mailed hround
    rwa [List.append_assoc] at hended
  have hfailed (round : Nat) (p : π) (fault : Fault) (p' : π) (w : Participant m) (e : Evaluator m)
      (t : Trace m) (h : before round p e t)
      (_ : Protocol.evaluate round (p, e.participant) = .error fault (p', w)) :
      OnTheWay first plan (t.play ⟨none, round, (wrap p, e.participant), (wrap p', w)⟩) := by
    obtain ⟨post', hbefore⟩ := exists_solo_append post h.le
    refine h.follows.onTheWay_play _ post' (k := k) ?_
    rw [List.append_assoc]
    exact ((List.prefix_append_right_inj _).mpr hbefore).trans hplan
  exact keeps_runRounds (fun round p p' w e t h hround => ⟨round, rfl, Alone.more h mailed hround⟩)
    hdone hfailed (keeps_alone_flush hplan)
    (fun p e t h => absurd (h.le.trans hlast) (Nat.not_succ_le_self _)) (Nat.zero_add _) p

/-- A protocol by itself keeps to its way. -/
theorem keeps_alone (mailed : Mailed wrap n last post due kept) (hlast : last ≤ lastRound)
    (hplan : base ++ Mark.alone post last <+: plan k) {e₀ : Evaluator m} {t₀ : Trace m}
    (fit : e₀.participant.Fit n) {p : π} (h : Follows first base e₀ t₀)
    (hdue : due 0 p e₀.participant.pool) (hkept : kept e₀.participant.pool) :
    Keeps (fun _ _ t => OnTheWay first plan t) (fun e t => e = e₀ ∧ t = t₀) (run wrap p)
      fun _ => Ended n kept first (e₀.protocols + 1) (base ++ Mark.alone post last) := by
  have hbegin : Alone n last due kept first e₀.protocols (base ++ Mark.solo post 0) 0 p e₀ t₀ :=
    ⟨fit, (List.append_nil base).symm ▸ h, hdue, hkept, Nat.zero_le _, rfl⟩
  refine keeps_run ((keeps_alone_rounds mailed hlast hplan p).from_state hbegin) ?_
    (fun _ _ _ _ h _ => h.follows.onTheWay hplan) ?_
    fun _ _ e t (h : Ended n kept first (e₀.protocols + 1) (base ++ Mark.alone post last) e t) _ =>
      h
  · exact fun _ e t h _ _ => ⟨h.fit, h.follows.of_same rfl rfl rfl rfl rfl, h.kept,
      congrArg Nat.succ h.counted⟩
  · exact fun _ e t h => h.follows.onTheWay hplan

end

/-! ## §4 An evaluation on its way -/

variable {c : Circuit m} {e₀ : Evaluator m} {t₀ : Trace m} {plan : Nat → List Mark} {k : Nat}

/-- Joint randomness, if there is none yet. -/
theorem keeps_toss_mailed (fit : e₀.participant.Fit n)
    (hplan : tossMarks n e₀.participant.pool.hasJointRandomness <+: plan k) :
    Keeps (fun _ _ t => OnTheWay e₀ plan t) (fun e t => e = e₀ ∧ t = {})
      (if e₀.participant.pool.hasJointRandomness then pure () else initializeJointRandomness)
      fun _ => Ended n
        (fun pool => pool.opened.hasPending = e₀.participant.pool.opened.hasPending) e₀
        (e₀.protocols + if e₀.participant.pool.hasJointRandomness then 0 else 1)
        (tossMarks n e₀.participant.pool.hasJointRandomness) := by
  unfold tossMarks at hplan ⊢
  split
  · exact keeps_pure_from ⟨fit, .new e₀, rfl, rfl⟩
  · rename_i hnone
    rw [if_neg hnone] at hplan
    have hlast : 2 * exchanges n ≤ lastRound := by
      have hexchanges := exchanges_le_two n
      unfold lastRound
      omega
    have hmeasured : ({} : CoinToss).Measured := nofun
    refine keeps_initializeJointRandomness (keeps_alone (CoinToss.mailed _) hlast hplan fit
      (.new e₀) ⟨.inl ⟨rfl, rfl⟩, hmeasured⟩ rfl) fun seed e t h => ?_
    exact ⟨⟨h.fit.mailbox, h.fit.parties, h.fit.opened⟩,
      h.follows.of_same rfl rfl rfl rfl rfl, h.kept, h.counted⟩

/-- The check of what is left in the store. -/
theorem keeps_close_mailed {base : List Mark} {first : Evaluator m} (fit : e₀.participant.Fit n)
    (h : Follows first base e₀ t₀)
    (hplan : base ++ checkMarks m n e₀.participant.pool.opened.hasPending <+: plan k) :
    Keeps (fun _ _ t => OnTheWay first plan t) (fun e t => e = e₀ ∧ t = t₀)
      (if e₀.participant.pool.opened.hasPending then
        run (fun p => .gate (.macCheck p)) ({} : MacCheck m) else pure () : Traced m (Trace m) Unit)
      fun _ => Ended n (fun _ => True) first
        (e₀.protocols + if e₀.participant.pool.opened.hasPending then 1 else 0)
        (base ++ checkMarks m n e₀.participant.pool.opened.hasPending) := by
  unfold checkMarks at hplan ⊢
  split
  · rename_i hpending
    rw [if_pos hpending] at hplan
    have hlast : 4 * exchanges n ≤ lastRound := by
      have hexchanges := exchanges_le_two n
      unfold lastRound
      omega
    exact keeps_alone MacCheck.mailed hlast hplan fit h
      ⟨.inl ⟨rfl, rfl, hpending⟩, MacCheck.measured_new⟩ trivial
  · exact keeps_pure_from ⟨fit, (List.append_nil base).symm ▸ h, trivial, rfl⟩

/-- An evaluation among `n` parties has come to the end of its way. -/
structure Arrived (n : Nat) (c : Circuit m) (first : Evaluator m) (joint pending : Bool) (k : Nat)
    (e : Evaluator m) (t : Trace m) : Prop where
  ended : ((Waypoint.start c pending).after n k).Over
  follows : Follows first (itinerary n c joint pending k) e t
  counted : e.protocols = first.protocols + (if joint then 0 else 1)
    + ((Waypoint.start c pending).after n k).completed
    + if ((Waypoint.start c pending).after n k).pending then 1 else 0

/-- Only the shape of the circuit matters. -/
theorem Arrived.shape {first e : Evaluator m} {joint pending : Bool} {t : Trace m}
    (h : Arrived n c first joint pending k e t) : Arrived n c.shape first joint pending k e t where
  ended := (Waypoint.start_shape c pending).symm ▸ h.ended
  follows := (itinerary_shape c joint pending).symm ▸ h.follows
  counted := (Waypoint.start_shape c pending).symm ▸ h.counted

/-- A party follows the itinerary of its circuit to its end, or until it fails. -/
theorem keeps_itinerary (fit : e₀.participant.Fit n) (c : Circuit m) {joint pending : Bool}
    (hjoint : e₀.participant.pool.hasJointRandomness = joint)
    (hpending : e₀.participant.pool.opened.hasPending = pending) :
    Keeps (fun _ _ t => OnTheWay e₀ (itinerary n c joint pending) t) (fun e t => e = e₀ ∧ t = {})
      (evaluate c) fun _ e t => ∃ k, Arrived n c e₀ joint pending k e t := by
  subst hjoint hpending
  let joint := e₀.participant.pool.hasJointRandomness
  let pending := e₀.participant.pool.opened.hasPending
  let enRoute := EnRoute c n e₀ (tossMarks n joint) (.start c pending)
    (e₀.protocols + if joint then 0 else 1)
  have hplan (k : Nat) : tossMarks n joint ++ ((Waypoint.start c pending).after n k).marks
      <+: itinerary n c joint pending k := List.prefix_append _ _
  have hstopped {s : Schedule m} {e : Evaluator m} {t : Trace m} (h : enRoute s [] [] e t) :
      OnTheWay e₀ (itinerary n c joint pending) t :=
    h.onTheWay hplan
  refine keeps_evaluateWith
    (Ended n (fun pool => pool.opened.hasPending = pending) e₀
      (e₀.protocols + if joint then 0 else 1) (tossMarks n joint))
    (fun s e t => s.ready = [] ∧ enRoute s [] [] e t)
    (fun _ e t => ∃ s, s.ready = [] ∧ enRoute s [] [] e t)
    ?refused ?seed ?gates (fun _ _ _ _ h _ => hstopped h.2) (fun _ _ _ _ h _ => hstopped h.2)
    (fun s _ _ _ h _ _ _ => ⟨s, h.1, h.2.finish _⟩) ?check
  case refused =>
    -- a circuit that is not valid is refused before anything can be seen
    rintro e t error ⟨rfl, rfl⟩ -
    exact (Follows.new e).onTheWay (List.nil_prefix (l := itinerary n c joint pending 0))
  case seed =>
    rintro e t ⟨rfl, rfl⟩ -
    exact keeps_toss_mailed fit ((List.prefix_append _ _).trans (hplan 0))
  case gates =>
    refine ((Upkeep.keeps_runGates_forall (fun _ => upkeep_itinerary hplan) (.new c)).of_pre
      fun e t h => ?_).mono fun s e t h => ⟨h.1.2, h.2⟩
    have hkept : e.participant.pool.opened.hasPending = pending := h.kept
    have henter := EnRoute.new c h.fit h.follows
    rw [hkept, h.counted] at henter
    exact henter
  case check =>
    rintro values e t ⟨s, hready, h⟩
    obtain ⟨k, ended, stands, hfollows⟩ := h.ends hready
    have hwhole : tossMarks n joint ++ ((Waypoint.start c pending).after n k).marks
        ++ checkMarks m n e.participant.pool.opened.hasPending = itinerary n c joint pending k := by
      rw [itinerary, if_pos ended, stands.pending]
    have hclose : tossMarks n joint ++ ((Waypoint.start c pending).after n k).marks
        ++ checkMarks m n e.participant.pool.opened.hasPending <+: itinerary n c joint pending k :=
      hwhole ▸ List.prefix_refl _
    refine (keeps_close_mailed h.fit hfollows hclose).mono
      fun _ e' t' h' => ⟨k, ended, hwhole ▸ h'.follows, ?_⟩
    rw [h'.counted, stands.completed, stands.pending]

end Traced

end Evaluator

end JointCircuit
