/-
JointCircuit.Proofs.Carriage — what a circuit asks of the channels.

A channel carries a frame unless its record is too long. How long the
record is depends on the number and the lengths of the messages alone
(§1), and these are fixed by the circuit: honest parties send the mail
that the itinerary of the circuit lists (§3). So whether an evaluation
ever comes to a frame that no channel carries can be read off its
circuit. If it does, the exchange fails for everybody, and every party
gives up (§2).

Main statement: `evaluate_carried` (§4). A circuit that is valid and yet
too wide is `wideCircuit` (§5).
-/
import JointCircuit.Proofs.Correspondence
import JointCircuit.Proofs.Expansion
import JointCircuit.Proofs.Traffic

namespace JointCircuit

open Lockstep

variable {m : Modulus} {n : Nat} {α β σ τ : Type}

/-! ## §1 The length of a record -/

/-- The number of bytes in which a count is written. -/
def countLength (count : Nat) : Nat :=
  if count < 251 then 1
  else if count < Bytes.capacity 2 then 3
  else if count < Bytes.capacity 4 then 5
  else 9

/-- The length of the record of a frame with messages of these lengths. -/
def recordLength (lengths : List Nat) : Nat :=
  countLength lengths.length + (lengths.map fun length => countLength length + length).sum

namespace Frame

theorem length_encodeCount (count : Nat) : (encodeCount count).length = countLength count := by
  unfold encodeCount countLength
  split_ifs <;> simp

theorem length_encode (frame : Frame) :
    (encode frame).length = recordLength (frame.map List.length) := by
  have hmessages : (frame.flatMap encodeMessage).length
      = ((frame.map List.length).map fun length => countLength length + length).sum := by
    rw [List.length_flatMap, List.map_map]
    congr 1
    refine List.map_congr_left fun message _ => ?_
    rw [encodeMessage, List.length_append, length_encodeCount]
    rfl
  rw [encode, List.length_append, hmessages, length_encodeCount, recordLength, List.length_map]

/-- Whether a channel carries a frame depends on the lengths of its messages. -/
theorem put?_isSome_iff {frame : Frame} :
    (put? frame).isSome ↔ recordLength (frame.map List.length) ≤ recordLimit := by
  rw [put?_isSome, length_encode]

end Frame

/-! ## §2 Exchanges that fail -/

namespace Session

/-- An exchange that fails is the end of the session. -/
def GivesUp : Session (Except Fault α × σ) → Prop
  | .finished _ => True
  | .exchange _ resume =>
    (∀ cause, ∃ s, resume (.error cause) = .finished (.error (.transport cause), s))
      ∧ ∀ delivery, (resume (.ok delivery)).GivesUp

theorem GivesUp.bind {session : Session (Except Fault α × σ)}
    {next : Except Fault α × σ → Session (Except Fault β × τ)} (h : session.GivesUp)
    (hok : ∀ a s, (next (.ok a, s)).GivesUp)
    (herror : ∀ fault s, ∃ s', next (.error fault, s) = .finished (.error fault, s')) :
    (session >>= next).GivesUp := by
  induction session with
  | finished result =>
    obtain ⟨answer, s⟩ := result
    cases answer with
    | ok a => exact hok a s
    | error fault =>
      obtain ⟨s', hnext⟩ := herror fault s
      rw [finished_bind, hnext]
      exact trivial
  | exchange frames resume ih =>
    refine ⟨fun cause => ?_, fun delivery => ih _ (h.2 delivery)⟩
    obtain ⟨s, hresume⟩ := h.1 cause
    obtain ⟨s', hnext⟩ := herror (.transport cause) s
    refine ⟨s', ?_⟩
    show (resume (.error cause)).bind next = _
    rw [hresume]
    exact hnext

theorem GivesUp.map {session : Session (Except Fault α × σ)} (h : session.GivesUp) (g : σ → τ) :
    ((fun r => (r.1, g r.2)) <$> session : Session (Except Fault α × τ)).GivesUp := by
  rw [← bind_pure_comp]
  exact h.bind (fun _ _ => trivial) fun _ _ => ⟨_, rfl⟩

end Session

/-- In a joint execution a session hands out what it is said to send. -/
theorem Joint.sent_eq {sessions : Fin n → Session α} {sent : List (Fin n → List Frame)}
    {results : Fin n → α} (h : Joint sessions sent results) (i : Fin n) :
    (sessions i).sent (repliesTo (i + 1) sent) = sent.map (· i) := by
  induction h with
  | finished results => rfl
  | exchange frames resume rest ih => exact congrArg (frames i :: ·) ih

namespace Evaluator

/-- An evaluation whose exchange fails is given up. -/
theorem evaluate_givesUp (c : Circuit m) (e : Evaluator m) : (evaluate c e).GivesUp := by
  have hcompositional : Traced.Compositional (m := m)
      fun x => ∀ e t, (x (e, t)).GivesUp := by
    refine ⟨fun h e t => ?_, fun hx hf e t => ?_, fun due e t => ?_⟩
    · obtain ⟨answer, e', t', hx, -⟩ := h e t
      rw [hx]
      exact trivial
    · rw [Traced.bind_apply]
      exact (hx e t).bind (fun a s => hf a s.1 s.2) fun fault s => ⟨s, rfl⟩
    · rw [Traced.flush_apply]
      cases Mailbox.takeOutgoing e.participant.mailbox with
      | error fault box => exact trivial
      | ok frames box =>
        refine ⟨fun cause => ⟨_, rfl⟩, fun delivery => ?_⟩
        dsimp only
        cases Mailbox.deliver delivery box <;> exact trivial
  rw [← Traced.erases_evaluate c e ({} : Trace m)]
  exact (hcompositional.evaluate c e {}).map Prod.fst

end Evaluator

namespace Lockstep

/-- One of the frames from one party to another is carried by no channel. -/
def Oversized (frames : Fin n → List Frame) : Prop :=
  ∃ i j : Fin n, j ≠ i ∧ Frame.put? ((frames i).getD j []) = none

/-- Such a frame fails the exchange. -/
theorem receptions_of_oversized {frames : Fin n → List Frame} (h : Oversized frames) :
    ∃ cause : Fin n → TransportError,
      receptions (List.ofFn frames) = List.ofFn fun i => .error (cause i) := by
  obtain ⟨i, j, hne, hput⟩ := h
  have hval : j.val ≠ i.val := fun h => hne (Fin.ext h)
  have hhit : oversized? (i + 1) (frames i) ≠ none := by
    intro hnone
    rw [oversized?, Option.map_eq_none_iff, List.find?_eq_none] at hnone
    cases hframe : (frames i)[j.val]? with
    | none =>
      rw [List.getD_eq_getElem?_getD, hframe] at hput
      cases hput
    | some frame =>
      rw [List.getD_eq_getElem?_getD, hframe, Option.getD_some] at hput
      have hmem : (frame, j.val + 1) ∈ (frames i).zipIdx 1 :=
        List.mk_mem_zipIdx_iff_le_and_getElem?_sub.mpr ⟨Nat.le_add_left 1 j, hframe⟩
      have hnot := hnone _ hmem
      simp [hput, hval] at hnot
  have hmem : (frames i, i.val + 1) ∈ (List.ofFn frames).zipIdx 1 :=
    List.mk_mem_zipIdx_iff_le_and_getElem?_sub.mpr ⟨Nat.le_add_left 1 i, by simp⟩
  rw [receptions]
  dsimp only
  generalize hfailure : List.findSome? _ ((List.ofFn frames).zipIdx 1) = failure
  cases failure with
  | none =>
    have hmiss := List.findSome?_eq_none_iff.mp hfailure _ hmem
    exact absurd (Option.map_eq_none_iff.mp hmiss) hhit
  | some hit =>
    refine ⟨fun k => if hit.1 = k.val + 1 then .send hit.2 else .receive hit.1, ?_⟩
    refine List.ext_getElem (by simp) fun k _ _ => ?_
    simp only [List.getElem_map, List.getElem_range, List.getElem_ofFn]

/-- What became of a party that received everything in the exchanges `before` and gave up in the
exchange of `frames`. -/
def BrokenOff (session : Session (Except Fault α × σ)) (before : List (Fin n → List Frame))
    (frames : Fin n → List Frame) (i : Fin n) (outcome : Outcome (Except Fault α × σ)) : Prop :=
  ∃ cause s, outcome = ⟨(.error (.transport cause), s), (before ++ [frames]).map (· i)⟩
    ∧ Session.Run session (repliesTo (i + 1) before ++ [.error cause])
      (.error (.transport cause), s)

/-- The lockstep transport runs sessions up to the first exchange that fails. -/
theorem runFrom_of_oversized {n : Nat} {before after : List (Fin (n + 1) → List Frame)}
    {frames : Fin (n + 1) → List Frame} {sessions : Fin (n + 1) → Session (Except Fault α × σ)}
    {results : Fin (n + 1) → Except Fault α × σ}
    (h : Joint sessions (before ++ frames :: after) results)
    (hgivesUp : ∀ i, (sessions i).GivesUp) (hfit : Fitting before) (hlong : Oversized frames)
    (k : Nat) :
    ∃ outcomes, runFrom (fun _ _ frames => frames) k (sessions 0)
        (List.ofFn fun i : Fin n => sessions i.succ) = List.ofFn outcomes
      ∧ ∀ i, BrokenOff (sessions i) before frames i (outcomes i) := by
  induction before generalizing sessions k with
  | nil =>
    cases h with
    | exchange _ resume rest =>
      obtain ⟨cause, hround⟩ := receptions_of_oversized hlong
      choose s hs using fun i => (hgivesUp i).1 (cause i)
      have hended := runFrom_eq_of_joint
        (.finished fun i => ((.error (.transport (cause i)), s i) : Except Fault α × σ))
        (fun _ hmem => absurd hmem List.not_mem_nil) (k + 1)
      refine ⟨fun i => ⟨(.error (.transport (cause i)), s i), [frames i]⟩, ?_, fun i =>
        ⟨cause i, s i, rfl, .exchange _ _ ?_⟩⟩
      · rw [runFrom_exchange frames resume hround]
        simp only [hs]
        rw [hended, record, zipWith_ofFn]
        rfl
      · rw [hs]
        exact .finished _
  | cons first before ih =>
    cases h with
    | exchange _ resume rest =>
      have hround := receptions_ofFn (hfit first List.mem_cons_self)
      obtain ⟨outcomes, hrest, hbroken⟩ := ih rest (fun i => (hgivesUp i).2 _)
        (fun fs hfs => hfit fs (List.mem_cons_of_mem _ hfs)) (k + 1)
      refine ⟨fun i => ⟨(outcomes i).result, first i :: (outcomes i).sent⟩, ?_, fun i => ?_⟩
      · rw [runFrom_exchange first resume hround, hrest, record, zipWith_ofFn]
      · obtain ⟨cause, s, houtcome, hrun⟩ := hbroken i
        refine ⟨cause, s, ?_, .exchange _ _ hrun⟩
        simp only [houtcome, List.cons_append, List.map_cons]

theorem runHonest_of_oversized [NeZero n] {before after : List (Fin n → List Frame)}
    {frames : Fin n → List Frame} {sessions : Fin n → Session (Except Fault α × σ)}
    {results : Fin n → Except Fault α × σ}
    (h : Joint sessions (before ++ frames :: after) results)
    (hgivesUp : ∀ i, (sessions i).GivesUp) (hfit : Fitting before) (hlong : Oversized frames) :
    ∃ outcomes, runHonest (List.ofFn sessions) = List.ofFn outcomes
      ∧ ∀ i, BrokenOff (sessions i) before frames i (outcomes i) := by
  cases n with
  | zero => exact (NeZero.ne 0 rfl).elim
  | succ n =>
    rw [List.ofFn_succ]
    exact runFrom_of_oversized h hgivesUp hfit hlong 0

end Lockstep

/-! ## §3 The mail of a circuit -/

namespace Bag

/-- Of a party that has not queued anything. -/
def new (n party : Nat) : Bag where
  party := party
  seat := party
  queue := List.replicate n []

/-- There is a frame for everyone in each exchange, and the own one is empty. -/
theorem frames_of_new (n party : Nat) (marks : List Mark) :
    ((new n party).addAll marks).queue.length = n
    ∧ ∀ frames ∈ ((new n party).addAll marks).sent,
      frames.length = n ∧ frames.getD (party - 1) [] = [] := by
  induction marks using List.reverseRecOn with
  | nil => exact ⟨List.length_replicate, fun _ hmem => absurd hmem List.not_mem_nil⟩
  | append_singleton marks mark ih =>
    obtain ⟨hqueue, hframes⟩ := ih
    have hseat : ((new n party).addAll marks).seat = party := ((new n party).party_addAll marks).2
    rw [addAll_concat]
    cases mark with
    | round node number post => exact ⟨(List.length_map _).trans hqueue, hframes⟩
    | exchange =>
      refine ⟨(List.length_map _).trans hqueue, fun frames hmem => ?_⟩
      rcases List.mem_append.mp hmem with hmem | hmem
      · exact hframes frames hmem
      · rw [List.mem_singleton.mp hmem, hseat, List.length_set, List.getD_eq_getElem?_getD,
          List.getElem?_set_self']
        refine ⟨hqueue, ?_⟩
        cases ((new n party).addAll marks).queue[party - 1]? <;> rfl

end Bag

namespace Circuit

/-- The lengths of the messages that a party sends in an evaluation that gets as far as `k` steps in
the circuit, exchange by exchange and recipient by recipient. -/
def mail (n : Nat) (c : Circuit m) (joint pending : Bool) (party k : Nat) :
    List (List (List Nat)) :=
  ((Bag.new n party).addAll (itinerary n c joint pending k)).sent

/-- Everything that a party sends fits on the channels. -/
def Carriable (n : Nat) (c : Circuit m) (joint pending : Bool) (party : Nat) : Prop :=
  ∀ k, ∀ frames ∈ c.mail n joint pending party k, ∀ lengths ∈ frames,
    recordLength lengths ≤ Frame.recordLimit

/-- Whether it does can be found out at the end of the way. -/
theorem carriable_iff_of_over {c : Circuit m} {joint pending : Bool} {party k : Nat}
    (hover : ((Waypoint.start c pending).after n k).Over) :
    c.Carriable n joint pending party ↔ ∀ frames ∈ c.mail n joint pending party k,
      ∀ lengths ∈ frames, recordLength lengths ≤ Frame.recordLimit :=
  ⟨fun h => h k, fun h k' frames hmem =>
    h frames ((Bag.sent_mono _ (itinerary_le_of_over hover k')).subset hmem)⟩

/-- A party's version of a circuit has the shape of the circuit. -/
theorem Shows.shape_eq {party : Nat} {c c' : Circuit m} (h : c.Shows party c') :
    c'.shape = c.shape := by
  have hnodes : List.Forall₂ Eq (c.nodes.map Operation.shape) (c'.nodes.map Operation.shape) :=
    List.forall₂_map_left_iff.mpr (List.forall₂_map_right_iff.mpr
      (h.imp fun _ _ hop => by cases hop <;> rfl))
  rw [List.forall₂_eq_eq_eq] at hnodes
  rw [shape, shape, hnodes]

end Circuit

namespace Idle

variable {key : Fin n → Element m} {triples : Nat} {masks : Fin n → Nat} {pools : Fin n → Pool m}
variable {e : Fin n → Evaluator m}

theorem fit (h : Idle key triples masks pools e) (i : Fin n) : (e i).participant.Fit n := by
  obtain ⟨openings, table, -⟩ := h.table
  obtain ⟨bytes, hbox⟩ := (h.seats i).mailbox_eq
  refine ⟨?_, ?_, ?_⟩
  · rw [hbox]
    exact ⟨Nat.succ_pos i, i.isLt, List.length_ofFn, List.length_ofFn⟩
  · rw [(h.seats i).pool_eq, table.parties i]
  · rw [(h.seats i).pool_eq, table.opened i, OpenedValues.Paired, openedAt, List.length_map,
      List.length_map]

theorem bag_eq (h : Idle key triples masks pools e) (i : Fin n) :
    (e i).bag = .new n (i + 1) := by
  obtain ⟨openings, table, -⟩ := h.table
  obtain ⟨bytes, hbox⟩ := (h.seats i).mailbox_eq
  have hletters : (Mailbox.ofPeers (i + 1) (fun _ : Fin n => []) (fun _ => []) bytes).letters
      = List.replicate n [] := by
    simp [Mailbox.letters, lengthsOf, Mailbox.ofPeers]
  rw [Evaluator.bag, (h.seats i).pool_eq, table.party i, hbox, hletters]
  rfl

/-- What an idle party sends in an evaluation that succeeds is all of its mail. -/
theorem exists_mail (h : Idle key triples masks pools e) {i : Fin n} {c view : Circuit m}
    (shows : c.Shows (i + 1) view) {replies : List (Except TransportError Delivery)}
    {outputs : Outputs m} {e' : Evaluator m}
    (hrun : Session.Run (Evaluator.evaluate view (e i)) replies (.ok outputs, e')) :
    ∃ k, ((Waypoint.start c (pools i).opened.hasPending).after n k).Over
      ∧ ((Evaluator.evaluate view (e i)).sent replies).map lengthsOf
        = c.mail n (pools i).hasJointRandomness (pools i).opened.hasPending (i + 1) k := by
  obtain ⟨t, htrace⟩ := (Evaluator.Traced.erases_evaluate view).exists_notes ({} : Trace m) hrun
  obtain ⟨marks, hwent⟩ := Evaluator.exists_went (h.fit i) htrace
  obtain ⟨k, harrived, rfl⟩ := hwent.arrived rfl
  have hended := harrived.shape.ended
  have hsent := hwent.sent
  rw [shows.shape_eq, (h.seats i).pool_eq, Waypoint.start_shape] at hended
  rw [Evaluator.Traced.sent_eq_of_run htrace, h.bag_eq i, (h.seats i).pool_eq,
    ← itinerary_shape, shows.shape_eq, itinerary_shape] at hsent
  exact ⟨k, hended, hsent⟩

end Idle

/-! ## §4 Evaluations on channels -/

/-- A frame that no channel carries has an addressee. -/
theorem exists_addressee {i : Fin n} {frames : List Frame} (hlength : (lengthsOf frames).length = n)
    (hown : (lengthsOf frames).getD i [] = []) {frame : Frame} (hmem : frame ∈ frames)
    (hput : Frame.put? frame = none) : ∃ j : Fin n, j ≠ i ∧ frames.getD j [] = frame := by
  rw [lengthsOf, List.length_map] at hlength
  obtain ⟨k, hk, rfl⟩ := List.getElem_of_mem hmem
  refine ⟨⟨k, hlength ▸ hk⟩, ?_, List.getD_eq_getElem _ _ hk⟩
  rintro rfl
  rw [lengthsOf, List.getD_eq_getElem _ _ (by simpa using hk), List.getElem_map,
    List.map_eq_nil_iff] at hown
  rw [hown] at hput
  cases hput

/-- The first exchange with a frame that no channel carries. -/
theorem exists_first_of_not_fitting {sent : List (Fin n → List Frame)} (h : ¬ Fitting sent) :
    ∃ before frames after, sent = before ++ frames :: after ∧ Fitting before
      ∧ ∃ i, ∃ frame ∈ frames i, Frame.put? frame = none := by
  classical
  let long (frames : Fin n → List Frame) : Prop := ∃ i, ∃ frame ∈ frames i, Frame.put? frame = none
  have hfits {frames : Fin n → List Frame} (hnot : ¬ long frames) (i : Fin n) :
      ∀ frame ∈ frames i, (Frame.put? frame).isSome := fun frame hframe => by
    by_contra hnone
    exact hnot ⟨i, frame, hframe, Option.not_isSome_iff_eq_none.mp hnone⟩
  cases hfirst : sent.find? (decide <| long ·) with
  | none =>
    rw [List.find?_eq_none] at hfirst
    exact absurd (fun frames hmem => hfits (by simpa using hfirst frames hmem)) h
  | some frames =>
    obtain ⟨hlong, before, after, hsent, hbefore⟩ := List.find?_eq_some_iff_append.mp hfirst
    exact ⟨before, frames, after, hsent, fun fs hmem => hfits (by simpa using hbefore fs hmem),
      by simpa using hlong⟩

section

variable {key : Fin n → Element m} {c : Circuit m} {views : Fin n → Circuit m}
variable {triples : Nat} {masks : Fin n → Nat} {pools : Fin n → Pool m} {e e' : Fin n → Evaluator m}
variable {sent : List (Fin n → List Frame)} {outputs : Fin n → Outputs m}

/-- What honest parties send in a joint evaluation is all of their mail. -/
theorem Joint.exists_mail (idle : Idle key triples masks pools e)
    (shows : ∀ i : Fin n, c.Shows (i + 1) (views i))
    (h : Joint (fun i => Evaluator.evaluate (views i) (e i)) sent fun i => (.ok (outputs i), e' i))
    (i : Fin n) : ∃ k, ((Waypoint.start c (pools i).opened.hasPending).after n k).Over
      ∧ sent.map (fun frames => lengthsOf (frames i))
        = c.mail n (pools i).hasJointRandomness (pools i).opened.hasPending (i + 1) k := by
  obtain ⟨k, hover, hsent⟩ := idle.exists_mail (shows i) (h.run_repliesTo i)
  rw [h.sent_eq i, List.map_map] at hsent
  exact ⟨k, hover, hsent⟩

/-- Whether it fits on the channels is known in advance. -/
theorem Joint.fitting_iff (idle : Idle key triples masks pools e)
    (shows : ∀ i : Fin n, c.Shows (i + 1) (views i))
    (h : Joint (fun i => Evaluator.evaluate (views i) (e i)) sent
      fun i => (.ok (outputs i), e' i)) :
    Fitting sent ↔
      ∀ i, c.Carriable n (pools i).hasJointRandomness (pools i).opened.hasPending (i + 1) := by
  have hone (i : Fin n) :
      c.Carriable n (pools i).hasJointRandomness (pools i).opened.hasPending (i + 1)
        ↔ ∀ frames ∈ sent, ∀ frame ∈ frames i, (Frame.put? frame).isSome := by
    obtain ⟨k, hover, hsent⟩ := h.exists_mail idle shows i
    rw [Circuit.carriable_iff_of_over hover, ← hsent]
    simp only [List.forall_mem_map, lengthsOf, Frame.put?_isSome_iff]
  simp only [hone]
  exact ⟨fun hfit i frames hmem => hfit frames hmem i, fun hall frames hmem i => hall i frames hmem⟩

/-- If it does not, the first exchange with a frame that is too long fails. -/
theorem Joint.breaksOff [NeZero n] (idle : Idle key triples masks pools e)
    (shows : ∀ i : Fin n, c.Shows (i + 1) (views i))
    (h : Joint (fun i => Evaluator.evaluate (views i) (e i)) sent fun i => (.ok (outputs i), e' i))
    (hlong : ¬ Fitting sent) :
    ∃ before frames after, sent = before ++ frames :: after ∧ Fitting before
      ∧ ∃ i j, j ≠ i ∧ Frame.put? ((frames i).getD j []) = none
      ∧ ∃ outcomes, runHonest (List.ofFn fun i => Evaluator.evaluate (views i) (e i))
          = List.ofFn outcomes
        ∧ ∀ k, BrokenOff (Evaluator.evaluate (views k) (e k)) before frames k (outcomes k) := by
  obtain ⟨before, frames, after, rfl, hfit, i, frame, hframe, hput⟩ :=
    exists_first_of_not_fitting hlong
  obtain ⟨k, -, hsent⟩ := h.exists_mail idle shows i
  have hmem : lengthsOf (frames i)
      ∈ c.mail n (pools i).hasJointRandomness (pools i).opened.hasPending (i + 1) k := by
    rw [← hsent]
    exact List.mem_map_of_mem (List.mem_append_right _ List.mem_cons_self)
  obtain ⟨hlength, hown⟩ := (Bag.frames_of_new _ _ _).2 _ hmem
  obtain ⟨j, hne, rfl⟩ := exists_addressee hlength hown hframe hput
  exact ⟨before, frames, after, rfl, hfit, i, j, hne, hput, runHonest_of_oversized h
    (fun i => Evaluator.evaluate_givesUp (views i) (e i)) hfit ⟨i, j, hne, hput⟩⟩

end

/-- If all frames fit, every frame from one party to another has its record. -/
theorem Fitting.exists_records {sent : List (Fin n → List Frame)} (h : Fitting sent)
    (i j : Fin n) : ∃ records : List Bytes,
    (sent.map fun frames => Frame.put? ((frames i).getD j [])) = records.map some := by
  have hput : ∀ frames ∈ sent, (Frame.put? ((frames i).getD j [])).isSome := fun frames hmem =>
    getD_of_forall_mem (P := fun frame => (Frame.put? frame).isSome) (by decide)
      (fun frame hframe => h frames hmem i frame hframe) j
  refine ⟨sent.map fun frames => (Frame.put? ((frames i).getD j [])).getD [], ?_⟩
  rw [List.map_map]
  refine List.map_congr_left fun frames hmem => ?_
  obtain ⟨record, hrecord⟩ := Option.isSome_iff_exists.mp (hput frames hmem)
  rw [Function.comp_apply, hrecord, Option.getD_some]

/-- What becomes of the frames `sent` on channels, when sessions would end with these results if
every frame arrived. -/
structure Carried (c : Circuit m) (pools : Fin n → Pool m)
    (sessions : Fin n → Session (Except Fault α × σ)) (sent : List (Fin n → List Frame))
    (results : Fin n → Except Fault α × σ) : Prop where
  /-- How many messages of which lengths leave is known in advance. -/
  mail : ∀ i, ∃ k, ((Waypoint.start c (pools i).opened.hasPending).after n k).Over
    ∧ sent.map (fun frames => lengthsOf (frames i))
      = c.mail n (pools i).hasJointRandomness (pools i).opened.hasPending (i + 1) k
  /-- A frame whose record is not too long is read as it was written, whatever follows. -/
  carries : ∀ frames ∈ sent, ∀ i, ∀ frame ∈ frames i,
    recordLength (frame.map List.length) ≤ Frame.recordLimit →
    ∃ bytes, Frame.put? frame = some bytes
      ∧ ∀ rest, Frame.readFirst (bytes ++ rest) = .frame frame rest
  /-- If all frames are such, what a channel carries is read to the end as the frames that were
  written, in order. -/
  channels : Fitting sent → ∀ i j : Fin n, ∃ records : List Bytes,
    (sent.map fun frames => Frame.put? ((frames i).getD j [])) = records.map some
      ∧ Frame.readAll records.flatten = (sent.map fun frames => (frames i).getD j [], true)
  /-- Whether all frames are such is known in advance. -/
  fitting_iff : Fitting sent ↔
    ∀ i, c.Carriable n (pools i).hasJointRandomness (pools i).opened.hasPending (i + 1)
  /-- The results are those of exchanges that bring one frame from each peer, lowest peer first, as
  it was sent. -/
  replies : ∀ i, Session.Run (sessions i)
    (sent.map fun frames =>
      .ok (((List.finRange n).filter (· ≠ i)).map fun j => (j.val + 1, (frames j).getD i [])))
    (results i)
  /-- The lockstep transport leads to this if all frames fit, -/
  lockstep : Fitting sent →
    runHonest (List.ofFn sessions) = List.ofFn fun i => ⟨results i, sent.map (· i)⟩
  /-- and so do channels, at whatever pace the parties go. -/
  settles : Fitting sent → Concourse.Settles sessions sent results
  /-- If not, all parties receive what is sent before the first exchange with another frame. That
  one fails, for the party that sends the frame and for the one that should receive it. -/
  breaksOff : ¬ Fitting sent → ∃ before frames after, sent = before ++ frames :: after
    ∧ Fitting before ∧ ∃ i j, j ≠ i ∧ Frame.put? ((frames i).getD j []) = none
    ∧ ∃ outcomes, runHonest (List.ofFn sessions) = List.ofFn outcomes
      ∧ (∀ k, ∃ later,
          Session.Run (sessions k) (repliesTo (k + 1) before ++ later) (outcomes k).result)
      ∧ BrokenOff (sessions i) before frames i (outcomes i)
      ∧ BrokenOff (sessions j) before frames j (outcomes j)

/-- What becomes of an evaluation of honest parties is known in advance. If all of their mail fits
on the channels it succeeds, whatever their pace. If not, it breaks off. -/
theorem evaluate_carried [NeZero n] {key : Fin n → Element m} {c : Circuit m}
    {views : Fin n → Circuit m} (valid : c.validate n = .ok ()) (kinded : c.WellKinded)
    (inputs : c.HasInputs) (shows : ∀ i : Fin n, c.Shows (i + 1) (views i))
    {pools : Fin n → Pool m} {e : Fin n → Evaluator m}
    (idle : Idle key (c.uses (·.triples)) (fun o => c.uses (·.masks o)) pools e) :
    ∃ (sent : List (Fin n → List Frame)) (outputs : Fin n → Outputs m) (e' : Fin n → Evaluator m),
      Carried c pools (fun i => Evaluator.evaluate (views i) (e i)) sent
        fun i => (.ok (outputs i), e' i) := by
  have idle' : Idle key (c.uses (·.triples) + 0) (fun o => c.uses (·.masks o) + 0) pools e := idle
  obtain ⟨-, sent, outputs, -, e', -, hjoint, -⟩ :=
    evaluate_circuit_joint valid kinded inputs shows idle'
  refine ⟨sent, outputs, e',
    { mail := hjoint.exists_mail idle shows
      carries := fun frames _ i frame _ hfits => ?_
      channels := fun hfit i j => ?_
      fitting_iff := hjoint.fitting_iff idle shows
      replies := fun i => ?_
      lockstep := runHonest_eq_of_joint hjoint
      settles := hjoint.settles
      breaksOff := fun hlong => ?_ }⟩
  · obtain ⟨bytes, hbytes⟩ := Option.isSome_iff_exists.mp (Frame.put?_isSome_iff.mpr hfits)
    exact ⟨bytes, hbytes, Frame.readFirst_put? hbytes⟩
  · obtain ⟨records, hrecords⟩ := hfit.exists_records i j
    exact ⟨records, hrecords, Frame.readAll_put? (by rw [List.map_map]; exact hrecords)⟩
  · have hrun := hjoint.run_repliesTo i
    simp only [repliesTo, deliveryTo_ofFn] at hrun
    exact hrun
  · obtain ⟨before, frames, after, hsent, hfit, i, j, hne, hput, outcomes, hrun, hbroken⟩ :=
      hjoint.breaksOff idle shows hlong
    refine ⟨before, frames, after, hsent, hfit, i, j, hne, hput, outcomes, hrun, fun k => ?_,
      hbroken i, hbroken j⟩
    obtain ⟨cause, s, houtcome, hanswered⟩ := hbroken k
    exact ⟨[.error cause], by rw [houtcome]; exact hanswered⟩

/-- The product as a party sees it, the first one with input 5 and the second one with 7. -/
def productView (i : Fin 2) : Circuit .mersenne61 :=
  if i.val = 0 then productCircuit (some 5) none else productCircuit none (some 7)

/-- The mail of the product fits. -/
theorem evaluate_carried_productView :
    ∃ (sent : List (Fin 2 → List Frame)) (outputs : Fin 2 → Outputs .mersenne61)
        (e' : Fin 2 → Evaluator .mersenne61),
      Carried (productCircuit (some 5) (some 7)) stockedPool
        (fun i => Evaluator.evaluate (productView i) { participant := .new (stockedPool i) }) sent
        (fun i => (.ok (outputs i), e' i))
      ∧ Fitting sent := by
  have shows : ∀ i : Fin 2, (productCircuit (some 5) (some 7)).Shows (i + 1) (productView i) := by
    intro i
    fin_cases i
    · exact (productCircuit_shows 5 7).1
    · exact (productCircuit_shows 5 7).2
  obtain ⟨sent, outputs, e', hcarried⟩ := evaluate_carried (by decide)
    (wellKinded_productCircuit _ _) (hasInputs_productCircuit 5 7) shows
    (idle_stockedPool.mono (by decide) (by decide))
  refine ⟨sent, outputs, e', hcarried, hcarried.fitting_iff.mpr fun i => ?_⟩
  have hover : ((Waypoint.start (productCircuit (some 5) (some 7)) false).after 2 27).Over := by
    decide +kernel
  refine (Circuit.carriable_iff_of_over hover).mpr ?_
  fin_cases i <;> decide +kernel

/-! ## §5 A circuit that is too wide -/

/-- An input and a batch of its squares. -/
def squares (m : Modulus) (count : Nat) (x : Option (Element m)) : Circuit m :=
  ⟨[.input 1 x, .multiplyBatch (List.replicate count (0, 0))]⟩

theorem dependencies_replicate (count : Nat) :
    (Operation.multiplyBatch (List.replicate (count + 1) (0, 0)) : Operation m).dependencies
      = [0] := by
  induction count with
  | zero => rfl
  | succ count ih =>
    have hcons : (Operation.multiplyBatch (List.replicate (count + 2) (0, 0)) :
        Operation m).dependencies = insertDistinct 0 (insertDistinct 0
          (Operation.multiplyBatch (List.replicate (count + 1) (0, 0)) :
            Operation m).dependencies) := rfl
    rw [hcons, ih]
    rfl

section

variable (m) (count : Nat) (x : Option (Element m))

/-- The way to the exchange after the first round of the batch. -/
theorem marks_squares :
    ((Waypoint.start (squares m (count + 1) x) false).after 2 7).marks
      = [.round (some 0) 0 fun party => if party = 1 then [m.byteLength] else [], .exchange,
        .round (some 0) 1 fun _ => [], .round (some 1) 0 fun _ => [2 * (count + 1) * m.byteLength],
        .exchange] := by
  let shape := (squares m (count + 1) x).shape
  let input : Mark := .round (some 0) 0 fun party => if party = 1 then [m.byteLength] else []
  have hdeps := dependencies_replicate (m := m) count
  have hinput : (Operation.input 1 none : Operation m).dependencies = [] := rfl
  have hmissing : (squares m (count + 1) x).nodes.map (·.dependencies.length) = [0, 1] := by
    simp only [squares, List.map_cons, List.map_nil, hdeps]
    rfl
  have hdependents : shape.dependents 0 = [1] := by
    simp only [shape, squares, Circuit.shape, Circuit.dependents, List.map_cons, List.map_nil,
      Operation.shape, List.zipIdx_cons, List.zipIdx_nil, List.filter_cons, hinput, hdeps]
    rfl
  have hstart : Waypoint.start (squares m (count + 1) x) false
      = { schedule := ⟨shape, [0, 1], [0], []⟩, pending := false } := by
    simp only [Waypoint.start, Schedule.outline, Schedule.new, hmissing]
    rfl
  have hcomplete : (⟨shape, [0, 1], [], []⟩ : Schedule m).complete 0 .checked
      = ⟨shape, [0, 0], [1], []⟩ := by
    rw [Schedule.complete, hdependents]
    rfl
  have hmasked : (Waypoint.start (squares m (count + 1) x) false).after 2 3
      = { schedule := ⟨shape, [0, 1], [], []⟩, todo := [⟨0, 1⟩], pending := false,
          marks := [input, .exchange] } := by
    rw [hstart]
    rfl
  have hshared : (Waypoint.start (squares m (count + 1) x) false).after 2 4
      = { schedule := ⟨shape, [0, 0], [1], []⟩, pending := false, completed := 1,
          marks := [input, .exchange, .round (some 0) 1 fun _ => []] } := by
    rw [Waypoint.after_succ, hmasked, ← hcomplete]
    rfl
  have hopenings : (Operation.multiplyBatch (List.replicate (count + 1) (0, 0)) :
      Operation m).openings = 2 * (count + 1) := by
    simp [Operation.openings]
  have hlater : (Waypoint.start (squares m (count + 1) x) false).after 2 7
      = ((Waypoint.start (squares m (count + 1) x) false).after 2 4).after 2 3 :=
    Waypoint.after_add 2 _ 3 4
  rw [hlater, hshared, ← hopenings]
  rfl

/-- Everything that is opened for the batch leaves in one message. -/
theorem mem_mail_squares (joint : Bool) :
    [[], [2 * (count + 1) * m.byteLength]] ∈ (squares m (count + 1) x).mail 2 joint false 1 7 := by
  have hbefore : tossMarks 2 joint
      ++ ((Waypoint.start (squares m (count + 1) x) false).after 2 7).marks
      <+: itinerary 2 (squares m (count + 1) x) joint false 7 := List.prefix_append _ _
  refine (Bag.sent_mono (.new 2 1) hbefore).subset ?_
  rw [marks_squares]
  cases joint <;> exact List.mem_append_right _ (List.mem_singleton_self _)

/-- A batch that is wide enough does not fit on any channel. -/
theorem not_carriable_squares (joint : Bool)
    (hlong : Frame.recordLimit ≤ 2 * (count + 1) * m.byteLength) :
    ¬ (squares m (count + 1) x).Carriable 2 joint false 1 := by
  intro hcarriable
  have hrecord := hcarriable 7 _ (mem_mail_squares m count x joint) _
    (List.mem_cons_of_mem _ (List.mem_singleton_self _))
  have hone : recordLength [2 * (count + 1) * m.byteLength]
      = 1 + (countLength (2 * (count + 1) * m.byteLength) + 2 * (count + 1) * m.byteLength) := rfl
  omega

theorem validate_squares : (squares m (count + 1) x).validate 2 = .ok () := by
  have hinput : (Operation.input 1 x : Operation m).dependencies = [] := rfl
  simp only [Circuit.validate, squares, List.zipIdx_cons, List.zipIdx_nil,
    List.findSome?_cons, List.findSome?_nil, Circuit.nodeError?, Operation.forwardOperand?,
    hinput, dependencies_replicate]
  rfl

theorem wellKinded_squares : (squares m count x).WellKinded := by
  intro op hop
  rcases List.mem_pair.mp hop with rfl | rfl
  · exact fun operand hoperand => absurd hoperand List.not_mem_nil
  · intro operand hoperand
    obtain ⟨pair, hpair, hmem⟩ := List.mem_flatMap.mp hoperand
    rw [List.eq_of_mem_replicate hpair] at hmem
    obtain rfl : operand = 0 := by simpa using hmem
    exact ⟨.input 1 x, rfl, rfl⟩

/-- The first of two parties knows the input. -/
theorem shows_squares (i : Fin 2) :
    (squares m count x).Shows (i + 1) (squares m count (if i.val = 0 then x else none)) := by
  refine .cons (.input 1 _ _ fun hown => ?_) (.cons (.same _) .nil)
  rw [if_pos (Nat.succ.inj hown).symm]

end

theorem hasInputs_squares (count : Nat) (x : Element m) :
    (squares m count (some x)).HasInputs := by
  intro owner value hvalue
  rcases List.mem_pair.mp hvalue with heq | heq
  · cases heq
    exact Option.some_ne_none x
  · cases heq

/-- A party that has just been set up, with a supplier that expands a seed. -/
def newcomer (m : Modulus) (n : Nat) (i : Fin n) : Evaluator m :=
  let supplier := SyntheticSupplier.new m n (i + 1) 7
  { participant := .new
      { party := i + 1
        parties := n
        keyShare := supplier.keyShare
        supplier := .synthetic supplier
        localGenerator := .ofPartySeed (Vector.replicate 32 (UInt8.ofNat i)) } }

/-- Newcomers never run out of material. -/
theorem idle_newcomer (m : Modulus) (hn : 0 < n) (hfit : n * (n + 1) < Bytes.capacity 8)
    (triples : Nat) (masks : Fin n → Nat) :
    Idle (fun i => (newcomer m n i).participant.pool.keyShare) triples masks
      (fun i => (newcomer m n i).participant.pool) (newcomer m n) where
  table := ⟨[], ⟨fun i => rfl, fun i => rfl, fun i => rfl, fun i => rfl⟩, by simp⟩
  stock := (matching_new m hn hfit 7).stocked hn hfit triples masks
  alike i j := rfl
  seats i := ⟨rfl, 0, Mailbox.new_eq_ofPeers (i + 1) n⟩

/-- A batch that takes a party to the limit. -/
def wideView (i : Fin 2) : Circuit .mersenne127 :=
  squares .mersenne127 (262143 + 1) (if i.val = 0 then some 3 else none)

/-- The circuit is valid, and the parties are honest and never run out of material. And yet one of
them has a frame to send that no channel carries, and both fail in the transport. -/
theorem squares_breakOff :
    (squares .mersenne127 (262143 + 1) (some 3)).validate 2 = .ok ()
    ∧ (squares .mersenne127 (262143 + 1) (some 3)).WellKinded
    ∧ (squares .mersenne127 (262143 + 1) (some 3)).HasInputs
    ∧ (∀ i : Fin 2, (squares .mersenne127 (262143 + 1) (some 3)).Shows (i + 1) (wideView i))
    ∧ (∀ triples masks, Idle (fun i => (newcomer .mersenne127 2 i).participant.pool.keyShare)
      triples masks (fun i => (newcomer .mersenne127 2 i).participant.pool)
      (newcomer .mersenne127 2))
    ∧ ∃ (sent : List (Fin 2 → List Frame)) (outputs : Fin 2 → Outputs .mersenne127)
        (e' : Fin 2 → Evaluator .mersenne127),
      Joint (fun i => Evaluator.evaluate (wideView i) (newcomer .mersenne127 2 i)) sent
        (fun i => (.ok (outputs i), e' i))
      ∧ (∃ frames ∈ sent, ∃ i j, j ≠ i ∧ Frame.put? ((frames i).getD j []) = none)
      ∧ ∃ outcomes : Fin 2 → Outcome (Except Fault (Outputs .mersenne127) × Evaluator .mersenne127),
        runHonest (List.ofFn fun i =>
          Evaluator.evaluate (wideView i) (newcomer .mersenne127 2 i)) = List.ofFn outcomes
        ∧ ∀ i, ∃ cause, (outcomes i).result.1 = .error (.transport cause) := by
  have valid := validate_squares .mersenne127 262143 (some 3)
  have kinded := wellKinded_squares .mersenne127 (262143 + 1) (some 3)
  have inputs := hasInputs_squares (m := .mersenne127) (262143 + 1) 3
  have shows (i : Fin 2) :
      (squares .mersenne127 (262143 + 1) (some 3)).Shows (i + 1) (wideView i) :=
    shows_squares .mersenne127 (262143 + 1) (some 3) i
  have idle := idle_newcomer .mersenne127 (n := 2) (by decide) (by decide)
  refine ⟨valid, kinded, inputs, shows, idle, ?_⟩
  obtain ⟨-, sent, outputs, -, e', -, hjoint, -⟩ :=
    evaluate_circuit_joint valid kinded inputs shows (idle (_ + 0) fun o => _ + 0)
  have hlong : ¬ Fitting sent := by
    rw [hjoint.fitting_iff (idle 0 fun _ => 0) shows]
    exact fun hcarriable => not_carriable_squares .mersenne127 262143 (some 3) _ (by decide)
      (hcarriable 0)
  obtain ⟨before, frames, after, rfl, -, i, j, hne, hput, outcomes, hrun, hbroken⟩ :=
    hjoint.breaksOff (idle 0 fun _ => 0) shows hlong
  refine ⟨_, outputs, e', hjoint, ⟨frames, List.mem_append_right _ List.mem_cons_self, i, j, hne,
    hput⟩, outcomes, hrun, fun i => ?_⟩
  obtain ⟨cause, s, houtcome, -⟩ := hbroken i
  exact ⟨cause, by rw [houtcome]⟩

end JointCircuit
