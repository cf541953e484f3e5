/-
JointCircuit.Proofs.Appetite — how many messages a round takes.

A round takes messages from the front of the queues of a mailbox and
from nowhere else, also when it fails (`Serves`, §1). How many it takes
from each party follows from the state of its protocol and the number of
the round, whatever the messages say: its appetite (§2).

Main statements: `Task.serves`, `Task.takes` — a round takes what its
appetite says, unless it fails because there is not as much.
-/
import JointCircuit.Proofs.Clock
import JointCircuit.Proofs.Conduct
import Mathlib.Algebra.Group.Pi.Basic

namespace JointCircuit

open JointCircuit.Action Round

variable {m : Modulus} {π ρ α β : Type}

/-- The messages received from party `j + 1` and not yet taken. -/
def Mailbox.queue (box : Mailbox) (j : Nat) : Frame :=
  box.incoming.getD j []

namespace Mailbox

theorem queue_set (box : Mailbox) (k j : Nat) (rest : Frame) :
    queue { box with incoming := box.incoming.set k rest } j
      = if j = k ∧ k < box.incoming.length then rest else box.queue j := by
  simp only [queue, List.getD_eq_getElem?_getD, List.getElem?_set]
  by_cases hk : k = j
  · subst hk
    by_cases hlt : k < box.incoming.length
    · simp [hlt]
    · simp [hlt]
  · simp [hk, Ne.symm hk]

/-- A receive fails and takes nothing, or takes the first message of the party. -/
theorem receive_cases (party : Nat) (box : Mailbox) :
    (∃ fault, receive party box = .error fault box
        ∧ ((party = 0 ∨ box.incoming.length < party)
          ∨ (party ≠ 0 ∧ party ≤ box.incoming.length) ∧ box.queue (party - 1) = []
            ∧ fault = .protocol (.noMessage party)))
      ∨ ∃ message rest, (party ≠ 0 ∧ party ≤ box.incoming.length)
        ∧ box.queue (party - 1) = message :: rest
        ∧ receive party box
          = .ok message { box with incoming := box.incoming.set (party - 1) rest } := by
  by_cases hout : party = 0 ∨ box.incoming.length < party
  · refine .inl ⟨.config (.partyOutOfRange party box.incoming.length), ?_, .inl hout⟩
    simp only [receive, Action.bind_apply, Action.get_apply, hout, if_true]
    rfl
  · cases hqueue : box.queue (party - 1) with
    | nil =>
      refine .inl ⟨.protocol (.noMessage party), ?_, .inr ⟨by omega, rfl, rfl⟩⟩
      rw [queue] at hqueue
      simp only [receive, Action.bind_apply, Action.get_apply, hout, if_false, hqueue,
        Action.throw_apply]
    | cons message rest =>
      refine .inr ⟨message, rest, by omega, rfl, ?_⟩
      rw [queue] at hqueue
      simp only [receive, Action.bind_apply, Action.get_apply, hout, if_false, hqueue,
        Action.pure_apply, Action.set_apply]

end Mailbox

/-! ## §1 The front of the queues -/

/-- A store with as many shares as values. -/
def OpenedValues.Paired (o : OpenedValues m) : Prop :=
  o.shares.length = o.values.length

/-- What any round leaves as it is: whose mailbox it is and how many queues it has, and what stands
behind the front of a queue; and the store of opened values stays paired. -/
structure Serves (w w' : Participant m) : Prop where
  party : w'.mailbox.party = w.mailbox.party
  outgoing : w'.mailbox.outgoing.length = w.mailbox.outgoing.length
  incoming : w'.mailbox.incoming.length = w.mailbox.incoming.length
  queue : ∀ j, w'.mailbox.queue j <:+ w.mailbox.queue j
  parties : w'.pool.parties = w.pool.parties
  paired : w.pool.opened.Paired → w'.pool.opened.Paired

namespace Serves

instance : Std.Refl (Serves : Participant m → _ → Prop) :=
  ⟨fun _ => ⟨rfl, rfl, rfl, fun _ => List.suffix_refl _, rfl, id⟩⟩

instance : IsTrans (Participant m) Serves :=
  ⟨fun _ _ _ h h' => ⟨h'.party.trans h.party, h'.outgoing.trans h.outgoing,
    h'.incoming.trans h.incoming, fun j => (h'.queue j).trans (h.queue j),
    h'.parties.trans h.parties, fun hp => h'.paired (h.paired hp)⟩⟩

/-- A step on the pool that does not touch the store. -/
theorem of_pool {w : Participant m} {pool : Pool m} (hparties : pool.parties = w.pool.parties)
    (hopened : pool.opened = w.pool.opened) : Serves w { w with pool } :=
  ⟨rfl, rfl, rfl, fun _ => List.suffix_refl _, hparties, fun h => by rwa [hopened]⟩

theorem paired_push {shares : List (AuthShare m)} {values : List (Element m)} {o : OpenedValues m}
    (h : o.Paired) : (endState (OpenedValues.push shares values o)).Paired := by
  cases hpush : OpenedValues.push shares values o with
  | ok u after =>
    obtain ⟨hlength, rfl⟩ := OpenedValues.push_eq_ok.mp hpush
    exact hlength
  | error fault after =>
    rw [OpenedValues.push_of_paired h] at hpush
    split at hpush
    · cases hpush
    · cases hpush
      exact h

theorem receive (party : Nat) (w : Participant m) :
    Serves w { w with mailbox := endState (Mailbox.receive party w.mailbox) } := by
  rcases Mailbox.receive_cases party w.mailbox with ⟨fault, herror, -⟩ | ⟨message, rest, -, hq, hok⟩
  · rw [herror]
    exact Std.Refl.refl w
  · rw [hok]
    refine ⟨rfl, rfl, List.length_set, fun j => ?_, rfl, id⟩
    show Mailbox.queue { w.mailbox with incoming := _ } j <:+ _
    rw [Mailbox.queue_set]
    split
    · rename_i hj
      rw [hj.1, hq]
      exact List.suffix_cons _ _
    · exact List.suffix_refl _

instance : Manners (Serves : Participant m → _ → Prop) where
  nextMask owner w := by
    refine of_pool ?_ ?_ <;> rw [Pool.nextMask, endState_within]
  nextTriples count w := by
    refine of_pool ?_ ?_ <;> rw [Pool.nextTriples, endState_within]
  drawLocal draw w := of_pool rfl rfl
  installJointSeed seed w := of_pool rfl rfl
  drawJoint draw w := by
    simp only [Pool.drawJoint, Action.bind_apply, Action.get_apply]
    cases w.pool.jointGenerator with
    | none => exact Std.Refl.refl w
    | some generator => exact of_pool rfl rfl
  pushOpened shares values w := by
    rw [Pool.pushOpened, endState_within]
    exact ⟨rfl, rfl, rfl, fun _ => List.suffix_refl _, rfl, paired_push⟩
  drainOpened w := ⟨rfl, rfl, rfl, fun _ => List.suffix_refl _, rfl, fun _ => rfl⟩
  sendToAll message w :=
    ⟨rfl, List.length_map _, rfl, fun _ => List.suffix_refl _, rfl, id⟩
  receive := receive

end Serves

/-- A round of any protocol takes messages from the front of the queues only. -/
theorem Task.serves {round : Nat} {t : Task m} {w : Participant m} :
    Serves w (endState (Task.evaluate round (t, w))).2 :=
  Task.respects (R := Serves) round (t, w)

/-! ## §2 Appetites -/

/-- A mailbox with as many queues in one direction as in the other. -/
def Mailbox.Even (box : Mailbox) : Prop :=
  box.outgoing.length = box.incoming.length

/-- This many messages of each party have been taken. -/
def Mailbox.Taken (want : Nat → Nat) (box box' : Mailbox) : Prop :=
  ∀ j < box.incoming.length, (box.queue j).length = want j + (box'.queue j).length

/-- The fault names a party that has sent fewer messages than these. -/
def Mailbox.Lacking (want : Nat → Nat) (box : Mailbox) (fault : Fault) : Prop :=
  ∃ j < box.incoming.length, (box.queue j).length < want j
    ∧ fault = .protocol (.noMessage (j + 1))

/-- Nothing is taken. -/
theorem Mailbox.Taken.refl (box : Mailbox) : Taken 0 box box :=
  fun _ _ => (Nat.zero_add _).symm

namespace Round

/-- From this state, the round takes this many messages of each party, even if it fails; unless it
fails because there are not as many. -/
structure Takes (s : π × Participant m) (want : Nat → Nat) (act : Round m π α) : Prop where
  of_ok : ∀ a s', s.2.mailbox.Even → act s = .ok a s' →
    s'.2.mailbox.Even ∧ s'.2.mailbox.incoming.length = s.2.mailbox.incoming.length
      ∧ Mailbox.Taken want s.2.mailbox s'.2.mailbox
  of_error : ∀ fault s', s.2.mailbox.Even → act s = .error fault s' →
    Mailbox.Taken want s.2.mailbox s'.2.mailbox ∨ Mailbox.Lacking want s.2.mailbox fault

namespace Takes

variable {s t : π × Participant m} {want : Nat → Nat}

/-- A step that leaves the mailbox alone. -/
theorem of_still {act : Round m π α} (h : (endState (act s)).2.mailbox = s.2.mailbox) :
    Takes s 0 act := by
  constructor
  · intro a s' heven hok
    rw [hok, endState_ok] at h
    rw [h]
    exact ⟨heven, rfl, .refl _⟩
  · intro fault s' _ herror
    rw [herror, endState_error] at h
    rw [h]
    exact .inl (.refl _)

theorem pure (a : α) : Takes s 0 (Pure.pure a : Round m π α) :=
  of_still rfl

theorem throw (fault : Fault) : Takes s 0 (MonadExcept.throw fault : Round m π α) :=
  of_still rfl

theorem ofExcept {ε : Type} (fault : ε → Fault) (x : Except ε α) :
    Takes s 0 (Action.ofExcept fault x : Round m π α) := by
  cases x <;> exact of_still rfl

theorem protocol : Takes s 0 (Round.protocol : Round m π π) :=
  of_still rfl

theorem update (f : π → π) : Takes s 0 (Round.update f : Round m π Unit) :=
  of_still rfl

theorem pool (act : Action (Pool m) α) : Takes s 0 (Round.pool act : Round m π α) :=
  of_still (by rw [Round.pool, endState_within])

/-- After a step that succeeds and leaves the mailbox alone. -/
theorem after {x : Round m π α} {f : α → Round m π β} {a : α} (hx : x s = .ok a t)
    (hmailbox : t.2.mailbox = s.2.mailbox) (hf : Takes t want (f a)) :
    Takes s want (x >>= f) := by
  constructor
  · intro b u heven hok
    rw [bind_apply, hx] at hok
    rw [← hmailbox] at heven ⊢
    exact hf.of_ok b u heven hok
  · intro fault u heven herror
    rw [bind_apply, hx] at herror
    rw [← hmailbox] at heven ⊢
    exact hf.of_error fault u heven herror

/-- The state is read first. -/
theorem reading {p : π} {w : Participant m} {f : π → Round m π β} (hf : Takes (p, w) want (f p)) :
    Takes (p, w) want (Round.protocol >>= f) :=
  after (Round.protocol_apply p w) rfl hf

/-- A step after which nothing more is taken. -/
theorem last {x : Round m π α} {f : α → Round m π β} (hx : Takes s want x)
    (hf : ∀ a s', x s = .ok a s' → Takes s' 0 (f a)) : Takes s want (x >>= f) := by
  have hadd {box box' box'' : Mailbox} (h : Mailbox.Taken want box box')
      (hlength : box'.incoming.length = box.incoming.length) (h' : Mailbox.Taken 0 box' box'') :
      Mailbox.Taken want box box'' := by
    intro j hj
    rw [h j hj, h' j (hlength ▸ hj)]
    exact congrArg _ (Nat.zero_add _)
  constructor
  · intro b u heven hok
    obtain ⟨a, t, hfirst, hrest⟩ := bind_eq_ok.mp hok
    obtain ⟨heven', hlength, htaken⟩ := hx.of_ok a t heven hfirst
    obtain ⟨heven'', hlength', htaken'⟩ := (hf a t hfirst).of_ok b u heven' hrest
    exact ⟨heven'', hlength'.trans hlength, hadd htaken hlength htaken'⟩
  · intro fault u heven herror
    obtain herror | ⟨a, t, hfirst, hrest⟩ := bind_eq_error.mp herror
    · exact hx.of_error fault u heven herror
    · obtain ⟨heven', hlength, htaken⟩ := hx.of_ok a t heven hfirst
      obtain htaken' | ⟨j, -, hshort, -⟩ := (hf a t hfirst).of_error fault u heven' hrest
      · exact .inl (hadd htaken hlength htaken')
      · exact absurd hshort (Nat.not_lt_zero _)

theorem within {inner : ρ} {put : ρ → π → π} {act : Round m ρ α} (h : Takes (inner, s.2) want act) :
    Takes s want (Round.within inner put act) := by
  constructor
  · intro a s' heven hok
    obtain ⟨t, w', hact, rfl⟩ := within_eq_ok.mp hok
    exact h.of_ok a (t, w') heven hact
  · intro fault s' heven herror
    obtain ⟨t, hact, rfl⟩ := within_eq_error.mp herror
    exact h.of_error fault t heven hact

/-- What is left of a part is returned with its answer. -/
theorem with_protocol {act : Round m π α} (h : Takes s want act) :
    Takes s want (do return (← act, ← Round.protocol) : Round m π (α × π)) :=
  h.last fun _ _ _ => protocol.last fun _ _ _ => pure _

theorem sendToAll (message : Bytes) :
    Takes s 0 (Round.mailbox (Mailbox.sendToAll message) : Round m π Unit) := by
  constructor
  · intro a s' heven hok
    obtain ⟨box, hbox, rfl⟩ := mailbox_eq_ok.mp hok
    cases hbox
    exact ⟨(List.length_map _).trans heven, rfl, .refl _⟩
  · intro fault s' heven herror
    obtain ⟨box, hbox, -⟩ := mailbox_eq_error.mp herror
    cases hbox

end Takes

end Round

/-- One message of this party, and none of any other. -/
def onlyOf (party : Nat) (j : Nat) : Nat :=
  if j + 1 = party then 1 else 0

namespace Mailbox

theorem taken_receive {party : Nat} {box box' : Mailbox} {message : Bytes}
    (h : receive party box = .ok message box') :
    box'.outgoing = box.outgoing ∧ box'.incoming.length = box.incoming.length
      ∧ Taken (onlyOf party) box box' := by
  rcases receive_cases party box with ⟨fault, herror, -⟩ | ⟨message', rest, hparty, hq, hok⟩
  · rw [herror] at h
    cases h
  · rw [hok] at h
    cases h
    refine ⟨rfl, List.length_set, fun j hj => ?_⟩
    rw [queue_set, onlyOf]
    have hparty : j + 1 = party ↔ j = party - 1 := by omega
    by_cases hj' : j = party - 1
    · rw [if_pos (hparty.mpr hj'), if_pos ⟨hj', by omega⟩, hj', hq, List.length_cons, Nat.add_comm]
    · rw [if_neg (mt hparty.mp hj'), if_neg (fun h => hj' h.1), Nat.zero_add]

/-- A receive that fails has found the queue empty, or there is no such party. -/
theorem receive_eq_error {party : Nat} {box box' : Mailbox} {fault : Fault}
    (h : receive party box = .error fault box') :
    box' = box ∧ (Taken (onlyOf party) box box ∨ Lacking (onlyOf party) box fault) := by
  rcases receive_cases party box with ⟨fault', herror, hcause⟩ | ⟨message', rest, -, -, hok⟩
  · rw [herror] at h
    cases h
    refine ⟨rfl, ?_⟩
    obtain hout | ⟨hparty, hempty, rfl⟩ := hcause
    · refine .inl fun j hj => ?_
      rw [onlyOf, if_neg (by omega), Nat.zero_add]
    · have hparty : party - 1 + 1 = party := Nat.sub_add_cancel (Nat.pos_of_ne_zero hparty.1)
      refine .inr ⟨party - 1, by omega, ?_, by rw [hparty]⟩
      rw [hempty, onlyOf, if_pos hparty]
      exact Nat.one_pos
  · rw [hok] at h
    cases h

/-- How often the next message of party `j + 1` is taken. -/
theorem count_cons_eq (party : Nat) (rest : List Nat) (j : Nat) :
    (party :: rest).count (j + 1) = onlyOf party j + rest.count (j + 1) := by
  rw [List.count_cons, Nat.add_comm, onlyOf]
  simp only [beq_iff_eq, @eq_comm _ party]

/-- One message of each party listed. -/
theorem taken_receiveFrom {parties : List Nat} {box box' : Mailbox}
    {messages : List Bytes} (h : receiveFrom parties box = .ok messages box') :
    box'.outgoing = box.outgoing ∧ box'.incoming.length = box.incoming.length
      ∧ Taken (fun j => parties.count (j + 1)) box box' := by
  induction parties generalizing box messages with
  | nil =>
    cases h
    exact ⟨rfl, rfl, fun j _ => by simp⟩
  | cons party rest ih =>
    obtain ⟨message, box₁, hfirst, h⟩ := bind_eq_ok.mp h
    obtain ⟨others, box₂, hrest, h⟩ := bind_eq_ok.mp h
    cases h
    obtain ⟨hout, hlength, htaken⟩ := taken_receive hfirst
    obtain ⟨hout', hlength', htaken'⟩ := ih hrest
    refine ⟨hout'.trans hout, hlength'.trans hlength, fun j hj => ?_⟩
    have hothers := htaken' j (hlength ▸ hj)
    simp only [count_cons_eq, hothers, htaken j hj, Nat.add_assoc]

/-- Taking from known parties fails only for lack of a message. -/
theorem lacking_of_receiveFrom {parties : List Nat} {box box' : Mailbox} {fault : Fault}
    (known : ∀ party ∈ parties, 0 < party ∧ party ≤ box.incoming.length)
    (h : receiveFrom parties box = .error fault box') :
    Lacking (fun j => parties.count (j + 1)) box fault := by
  induction parties generalizing box with
  | nil => cases h
  | cons party rest ih =>
    have hparty := known party List.mem_cons_self
    obtain hfirst | ⟨message, box₁, hfirst, h⟩ := bind_eq_error.mp h
    · obtain ⟨rfl, htaken | ⟨j, hj, hshort, rfl⟩⟩ := receive_eq_error hfirst
      · -- A known party is not without a queue.
        have hown := htaken (party - 1) (by omega)
        rw [onlyOf, if_pos (by omega)] at hown
        omega
      · refine ⟨j, hj, ?_, rfl⟩
        simp only [count_cons_eq]
        exact Nat.lt_of_lt_of_le hshort (Nat.le_add_right _ _)
    · obtain ⟨-, hlength, htaken⟩ := taken_receive hfirst
      obtain herror | ⟨_, _, -, h⟩ := bind_eq_error.mp h
      · obtain ⟨j, hj, hshort, rfl⟩ :=
          ih (fun p hp => hlength ▸ known p (List.mem_cons_of_mem _ hp)) herror
        refine ⟨j, hlength ▸ hj, ?_, rfl⟩
        simp only [count_cons_eq, htaken j (hlength ▸ hj)]
        exact Nat.add_lt_add_left hshort _
      · cases h

/-- Every party has one place in the list of all parties. -/
theorem count_parties {box : Mailbox} (heven : box.Even) {j : Nat} (hj : j < box.incoming.length) :
    ((List.range box.parties).map (· + 1)).count (j + 1) = 1 := by
  rw [List.count_map_of_injective _ _ (fun _ _ h => Nat.succ.inj h)]
  refine List.count_eq_one_of_mem List.nodup_range (List.mem_range.mpr ?_)
  rw [parties, heven]
  exact hj

end Mailbox

namespace Round.Takes

variable {s : π × Participant m}

theorem receive (party : Nat) :
    Takes s (onlyOf party) (Round.mailbox (Mailbox.receive party) : Round m π Bytes) := by
  constructor
  · intro a s' heven hok
    obtain ⟨box, hbox, rfl⟩ := mailbox_eq_ok.mp hok
    obtain ⟨hout, hlength, htaken⟩ := Mailbox.taken_receive hbox
    exact ⟨by rw [Mailbox.Even, hout, hlength]; exact heven, hlength, htaken⟩
  · intro fault s' _ herror
    obtain ⟨box, hbox, rfl⟩ := mailbox_eq_error.mp herror
    obtain ⟨rfl, htaken⟩ := Mailbox.receive_eq_error hbox
    exact htaken

/-- Taking from everybody takes one message of each. -/
theorem receiveFromAll :
    Takes s 1 (Round.mailbox Mailbox.receiveFromAll : Round m π (List Bytes)) := by
  constructor
  · intro a s' heven hok
    obtain ⟨box, hbox, rfl⟩ := mailbox_eq_ok.mp hok
    obtain ⟨_, _, hget, hbox⟩ := bind_eq_ok.mp hbox
    cases hget
    obtain ⟨hout, hlength, htaken⟩ := Mailbox.taken_receiveFrom hbox
    refine ⟨by rw [Mailbox.Even, hout, hlength]; exact heven, hlength, fun j hj => ?_⟩
    have hj' := htaken j hj
    dsimp only at hj'
    rw [hj', Mailbox.count_parties heven hj]
    rfl
  · intro fault s' heven herror
    obtain ⟨box, hbox, rfl⟩ := mailbox_eq_error.mp herror
    obtain hget | ⟨_, _, hget, hbox⟩ := bind_eq_error.mp hbox
    · cases hget
    · cases hget
      have hknown : ∀ party ∈ (List.range s.2.mailbox.parties).map (· + 1),
          0 < party ∧ party ≤ s.2.mailbox.incoming.length := by
        refine List.forall_mem_map.mpr fun j hj => ⟨Nat.succ_pos j, ?_⟩
        rw [← heven]
        exact List.mem_range.mp hj
      obtain ⟨j, hj, hshort, rfl⟩ := Mailbox.lacking_of_receiveFrom hknown hbox
      refine .inr ⟨j, hj, ?_, rfl⟩
      dsimp only at hshort
      rwa [Mailbox.count_parties heven hj] at hshort

theorem sendDigest (messages : List Bytes) :
    Takes s 0 (Round.sendDigest messages : Round m π Bytes) :=
  (sendToAll _).last fun _ _ _ => pure _

theorem compareDigests (digest : Bytes) :
    Takes s 1 (Round.compareDigests digest : Round m π Unit) := by
  refine receiveFromAll.last fun digests _ _ => ?_
  split
  · exact pure _
  · exact throw _

end Round.Takes

/-- One message of each party, but none in the first round. -/
def fromAll (round : Nat) : Nat → Nat :=
  if round = 0 then 0 else 1

theorem Broadcast.takes (round : Nat) (b : Broadcast) (w : Participant m) :
    Takes (b, w) (fromAll round) (evaluate round) := by
  match round with
  | 0 =>
    exact Takes.protocol.last fun _ _ _ => (Takes.update _).last fun _ _ _ =>
      (Takes.sendToAll _).last fun _ _ _ => .pure _
  | 1 =>
    refine Takes.receiveFromAll.last fun received _ _ => (Takes.pool _).last fun pool _ _ => ?_
    split
    · exact (Takes.sendDigest _).last fun _ _ _ => (Takes.update _).last fun _ _ _ => .pure _
    · exact (Takes.update _).last fun _ _ _ => .pure _
  | round + 2 =>
    exact Takes.reading ((Takes.compareDigests _).last fun _ _ _ => .pure _)

namespace Commit

/-- The messages of each party that a round of a commitment takes. -/
def appetite (round : Nat) (c : Commit) : Nat → Nat :=
  match c.phase with
  | .commitments _ => fromAll (roundsSince c.phaseStart round)
  | .openings _ => fromAll (roundsSince c.phaseStart round)
  | .start => 0
  | .finished => 0

theorem takes_evaluateCommitments (round elapsed : Nat) (b : Broadcast) (c : Commit)
    (w : Participant m) :
    Takes (c, w) (fromAll elapsed) (evaluateCommitments round elapsed b) := by
  refine (Takes.within (Broadcast.takes elapsed b w).with_protocol).last ?_
  rintro ⟨status, b'⟩ s' -
  cases status with
  | more => exact .pure _
  | done =>
    refine ((Takes.update _).last fun _ _ _ => .pure _).last fun commitments _ _ => ?_
    dsimp only
    split
    · exact .throw _
    · exact Takes.protocol.last fun _ _ _ => (Takes.update _).last fun _ _ _ =>
        (Takes.within (Broadcast.takes 0 _ _)).last fun _ _ _ => .pure _

theorem takes_evaluateOpenings (elapsed : Nat) (b : Broadcast) (c : Commit) (w : Participant m) :
    Takes (c, w) (fromAll elapsed) (evaluateOpenings elapsed b) := by
  refine (Takes.within (Broadcast.takes elapsed b w).with_protocol).last ?_
  rintro ⟨status, b'⟩ s' -
  cases status with
  | more => exact .pure _
  | done =>
    exact ((Takes.update _).last fun _ _ _ => .pure _).last fun _ _ _ =>
      Takes.protocol.last fun _ _ _ => (Takes.ofExcept _ _).last fun _ _ _ =>
      (Takes.update _).last fun _ _ _ => .pure _

/-- The rounds after the first one. -/
theorem takes_phases (round : Nat) (c : Commit) (w : Participant m) :
    Takes (c, w) (appetite round c) (do
      let p ← Round.protocol
      let elapsed := roundsSince p.phaseStart round
      match p.phase with
      | .commitments broadcast => evaluateCommitments round elapsed broadcast
      | .openings broadcast => evaluateOpenings elapsed broadcast
      | .start => throw (.protocol .commitmentFinished)
      | .finished => throw (.protocol .commitmentFinished)) := by
  refine Takes.reading ?_
  rw [appetite]
  cases c.phase with
  | commitments b => exact takes_evaluateCommitments _ _ b c w
  | openings b => exact takes_evaluateOpenings _ b c w
  | start => exact .throw _
  | finished => exact .throw _

theorem takes (round : Nat) (c : Commit) (w : Participant m) :
    Takes (c, w) (appetite round c) (evaluate round) := by
  unfold evaluate
  refine Takes.reading ?_
  split
  · rename_i hstart
    have hnone : appetite round c = 0 := by rw [appetite, hstart]
    rw [hnone]
    refine ((Takes.pool _).last fun randomness _ _ => Takes.update _).last ?_
    rintro _ ⟨c', w'⟩ hbegin
    obtain ⟨randomness, _, hdraw, hupdate⟩ := bind_eq_ok.mp hbegin
    obtain ⟨pool, -, rfl⟩ := pool_eq_ok.mp hdraw
    rw [update_apply] at hupdate
    cases hupdate
    have hfresh := takes_phases round
      { c with opening := c.value ++ randomness
               phase := .commitments (.new (Digest.commitment (c.value ++ randomness)))
               phaseStart := round } { w with pool }
    rwa [appetite, roundsSince_of_le (Nat.le_refl round), Nat.sub_self] at hfresh
  · exact takes_phases round c w

end Commit

/-- The messages of each party that a round of a coin toss takes. -/
def CoinToss.appetite (round : Nat) (t : CoinToss) : Nat → Nat :=
  match t.commit with
  | none => 0
  | some c => c.appetite round

/-- The commitment is there or begins now, and takes as much as the toss. -/
theorem CoinToss.commitment_apply (round : Nat) (t : CoinToss) (w : Participant m) :
    ∃ c s, commitment (t, w) = .ok c s ∧ s.2.mailbox = w.mailbox
      ∧ appetite round t = c.appetite round := by
  cases hcommit : t.commit with
  | some c =>
    refine ⟨c, (t, w), ?_, rfl, by rw [appetite, hcommit]⟩
    simp only [commitment, bind_apply, Round.protocol_apply, hcommit, pure_apply]
  | none =>
    let seed := (Draw.seed w.pool.localGenerator).1
    let pool := { w.pool with localGenerator := (Draw.seed w.pool.localGenerator).2 }
    refine ⟨.new seed.toList, ({ t with commit := some (.new seed.toList) }, { w with pool }), ?_,
      rfl, by rw [appetite, hcommit]; rfl⟩
    simp only [commitment, bind_apply, Round.protocol_apply, hcommit, Round.pool_apply,
      Pool.drawLocal_apply, Round.update_apply, pure_apply]
    rfl

theorem CoinToss.takes (round : Nat) (t : CoinToss) (w : Participant m) :
    Takes (t, w) (appetite round t) (evaluate round) := by
  obtain ⟨c, s, hcommitment, hmailbox, happetite⟩ := commitment_apply round t w
  rw [happetite]
  refine Takes.after hcommitment hmailbox ?_
  refine (Takes.within (Commit.takes round c s.2).with_protocol).last ?_
  rintro ⟨status, c'⟩ s' -
  cases status with
  | more => exact .pure _
  | done =>
    exact (Takes.update _).last fun _ _ _ => (Takes.ofExcept _ _).last fun _ _ _ =>
      (Takes.update _).last fun _ _ _ => .pure _

namespace MacCheck

/-- The messages of each party that a round of a check takes. -/
def appetite (round : Nat) (p : MacCheck m) : Nat → Nat :=
  match p.phase with
  | .seeding _ _ t => t.appetite (roundsSince p.phaseStart round)
  | .checking c => c.appetite (roundsSince p.phaseStart round)
  | .start => 0
  | .finished => 0

theorem takes_evaluateSeeding (round elapsed : Nat) (shares : List (AuthShare m))
    (values : List (Element m)) (t : CoinToss) (p : MacCheck m) (w : Participant m) :
    Takes (p, w) (t.appetite elapsed) (evaluateSeeding round elapsed shares values t) := by
  refine (Takes.within (CoinToss.takes elapsed t w).with_protocol).last ?_
  rintro ⟨status, t'⟩ s' -
  cases status with
  | more => exact .pure _
  | done =>
    refine (Takes.update _).last fun _ _ _ => ?_
    dsimp only
    split
    · exact .throw _
    · refine (Takes.pool _).last fun own s _ => ?_
      have hnew : Takes (.new own.toBytes, s.2) 0 (Commit.evaluate 0 : Round m Commit Status) :=
        Commit.takes 0 (.new own.toBytes) s.2
      exact (Takes.within hnew).last fun _ _ _ => .pure _

theorem takes_evaluateChecking (elapsed : Nat) (c : Commit) (p : MacCheck m) (w : Participant m) :
    Takes (p, w) (c.appetite elapsed) (evaluateChecking elapsed c) := by
  refine (Takes.within (Commit.takes elapsed c w).with_protocol).last ?_
  rintro ⟨status, c'⟩ s' -
  cases status with
  | more => exact .pure _
  | done =>
    refine (Takes.update _).last fun _ _ _ => (Takes.ofExcept _ _).last fun _ _ _ => ?_
    split
    · exact (Takes.update _).last fun _ _ _ => .pure _
    · exact .throw _

/-- The rounds after the first one. -/
theorem takes_phases (round : Nat) (p : MacCheck m) (w : Participant m) :
    Takes (p, w) (appetite round p) (do
      let p ← Round.protocol
      let elapsed := roundsSince p.phaseStart round
      match p.phase with
      | .seeding shares values toss => evaluateSeeding round elapsed shares values toss
      | .checking commit => evaluateChecking elapsed commit
      | .start => throw (.protocol .checkFinished)
      | .finished => throw (.protocol .checkFinished)) := by
  refine Takes.reading ?_
  rw [appetite]
  cases p.phase with
  | seeding shares values t => exact takes_evaluateSeeding _ _ _ _ t p w
  | checking c => exact takes_evaluateChecking _ c p w
  | start => exact .throw _
  | finished => exact .throw _

theorem takes (round : Nat) (p : MacCheck m) (w : Participant m) :
    Takes (p, w) (appetite round p) (evaluate round) := by
  unfold evaluate
  refine Takes.reading ?_
  split
  · rename_i hstart
    have hnone : appetite round p = 0 := by rw [appetite, hstart]
    rw [hnone]
    have hbegin : Takes (p, w) 0 (begin round : Round m (MacCheck m) Status) := by
      refine (Takes.pool _).last fun drained _ _ => ?_
      dsimp only
      split
      · exact (Takes.update _).last fun _ _ _ => .pure _
      · exact (Takes.update _).last fun _ _ _ => .pure _
    refine hbegin.last ?_
    rintro status ⟨p', w'⟩ hbegun
    split
    · exact .pure _
    · rename_i hmore
      obtain ⟨⟨shares, values⟩, _, hdrain, hbegun⟩ := bind_eq_ok.mp hbegun
      obtain ⟨pool, -, rfl⟩ := pool_eq_ok.mp hdrain
      dsimp only at hbegun
      split at hbegun
      · obtain ⟨_, _, -, hbegun⟩ := bind_eq_ok.mp hbegun
        cases hbegun
        exact absurd rfl hmore
      · obtain ⟨_, _, hupdate, hbegun⟩ := bind_eq_ok.mp hbegun
        rw [update_apply] at hupdate
        cases hupdate
        cases hbegun
        exact takes_phases round
          { p with phase := .seeding shares values {}, phaseStart := round } { w with pool }
  · exact takes_phases round p w

end MacCheck

namespace Input

/-- The messages of each party that a round of an input takes. -/
def appetite (round : Nat) (p : Input m) : Nat → Nat :=
  match round with
  | 0 => 0
  | 1 => onlyOf p.owner
  | _ + 2 => 1

theorem takes_sendMasked (p : Input m) (w : Participant m) :
    Takes (p, w) 0 (sendMasked : Round m (Input m) Unit) := by
  refine Takes.protocol.last fun p _ _ => (Takes.pool _).last fun mask _ _ =>
    (Takes.pool _).last fun pool _ _ => ?_
  dsimp only
  split
  · refine (Takes.update _).last fun _ _ _ => ?_
    split
    · exact (Takes.throw _).last fun _ _ _ => Takes.update _
    · split
      · exact (Takes.throw _).last fun _ _ _ => Takes.update _
      · exact (Takes.sendToAll _).last fun _ _ _ => Takes.update _
  · exact Takes.update _

theorem takes_finish (s : Input m × Participant m) :
    Takes s 0 (finish : Round m (Input m) Unit) := by
  refine Takes.protocol.last fun p _ _ => (Takes.update _).last fun _ _ _ => ?_
  split
  · exact .throw _
  · refine (Takes.update _).last fun _ _ _ => ?_
    split
    · exact .throw _
    · exact (Takes.pool _).last fun _ _ _ => Takes.update _

theorem takes (round : Nat) (p : Input m) (w : Participant m) :
    Takes (p, w) (appetite round p) (evaluate round) := by
  match round with
  | 0 => exact (takes_sendMasked p w).last fun _ _ _ => .pure _
  | 1 =>
    refine Takes.reading ?_
    refine (Takes.receive p.owner).last fun bytes _ _ => (Takes.ofExcept _ _).last fun _ _ _ =>
      (Takes.update _).last fun _ _ _ => (Takes.pool _).last fun _ _ _ => ?_
    split
    · exact (Takes.sendDigest _).last fun _ _ _ => (Takes.update _).last fun _ _ _ => .pure _
    · exact (takes_finish _).last fun _ _ _ => .pure _
  | round + 2 =>
    exact Takes.reading ((Takes.compareDigests _).last fun _ _ _ =>
      (takes_finish _).last fun _ _ _ => .pure _)

end Input

theorem Linear.takes (round : Nat) (p : Linear m) (w : Participant m) :
    Takes (p, w) 0 (evaluate round) :=
  (Takes.pool _).last fun _ _ _ => (Takes.update _).last fun _ _ _ => .pure _

/-- The messages of each party that a round of a batch of products takes. -/
def MultiplyBatch.appetite (round : Nat) (p : MultiplyBatch m) : Nat → Nat :=
  if p.pairs.isEmpty then 0 else fromAll round

theorem MultiplyBatch.takes (round : Nat) (p : MultiplyBatch m) (w : Participant m) :
    Takes (p, w) (appetite round p) (evaluate round) := by
  refine Takes.reading ?_
  dsimp only
  rw [appetite]
  split
  · exact (Takes.update _).last fun _ _ _ => .pure _
  match round with
  | 0 =>
    exact (Takes.pool _).last fun _ _ _ => (Takes.update _).last fun _ _ _ =>
      (Takes.sendToAll _).last fun _ _ _ => .pure _
  | round + 1 =>
    exact Takes.receiveFromAll.last fun _ _ _ => (Takes.ofExcept _ _).last fun _ _ _ =>
      (Takes.pool _).last fun _ _ _ => (Takes.pool _).last fun _ _ _ =>
      (Takes.update _).last fun _ _ _ => .pure _

theorem Multiply.takes (round : Nat) (p : Multiply m) (w : Participant m) :
    Takes (p, w) (p.batch.appetite round) (evaluate round) := by
  refine Takes.reading ?_
  exact Takes.within (MultiplyBatch.takes round p.batch w)

theorem Reveal.takes (round : Nat) (p : Reveal m) (w : Participant m) :
    Takes (p, w) (fromAll round) (evaluate round) := by
  refine Takes.reading ?_
  match round with
  | 0 => exact (Takes.sendToAll _).last fun _ _ _ => .pure _
  | round + 1 =>
    exact Takes.receiveFromAll.last fun _ _ _ => (Takes.ofExcept _ _).last fun _ _ _ =>
      (Takes.pool _).last fun _ _ _ => (Takes.update _).last fun _ _ _ => .pure _

/-- The messages of each party that a round of a gate takes. -/
def Gate.appetite (round : Nat) : Gate m → Nat → Nat
  | .input p => p.appetite round
  | .linear _ => 0
  | .multiply p => p.batch.appetite round
  | .multiplyBatch p => p.appetite round
  | .reveal _ => fromAll round
  | .macCheck p => p.appetite round

theorem Gate.takes (round : Nat) (g : Gate m) (w : Participant m) :
    Takes (g, w) (g.appetite round) (evaluate round) := by
  refine Takes.reading ?_
  cases g with
  | input p => exact Takes.within (Input.takes round p w)
  | linear p => exact Takes.within (Linear.takes round p w)
  | multiply p => exact Takes.within (Multiply.takes round p w)
  | multiplyBatch p => exact Takes.within (MultiplyBatch.takes round p w)
  | reveal p => exact Takes.within (Reveal.takes round p w)
  | macCheck p => exact Takes.within (MacCheck.takes round p w)

/-- The messages of each party that a round of a protocol takes. -/
def Task.appetite (round : Nat) : Task m → Nat → Nat
  | .gate p => p.appetite round
  | .broadcast _ => fromAll round
  | .commit p => p.appetite round
  | .coinToss p => p.appetite round

/-- A round of any protocol takes what its appetite says. -/
theorem Task.takes (round : Nat) (t : Task m) (w : Participant m) :
    Takes (t, w) (t.appetite round) (evaluate round) := by
  refine Takes.reading ?_
  cases t with
  | gate p => exact Takes.within (Gate.takes round p w)
  | broadcast p => exact Takes.within (Broadcast.takes round p w)
  | commit p => exact Takes.within (Commit.takes round p w)
  | coinToss p => exact Takes.within (CoinToss.takes round p w)

/-! ### The first round -/

theorem MultiplyBatch.appetite_zero (p : MultiplyBatch m) : p.appetite 0 = 0 := by
  rw [appetite]
  split <;> rfl

/-- A new gate takes nothing in its first round. -/
theorem Gate.appetite_of_instantiate {values : List (Option (Value m))} {op : Operation m}
    {g : Gate m} (h : instantiate values op = .ok g) : g.appetite 0 = 0 := by
  cases op with
  | input owner value =>
    cases h
    rfl
  | macCheck after =>
    cases h
    rfl
  | multiplyBatch pairs =>
    obtain ⟨_, -, h⟩ := except_bind_eq_ok.mp h
    cases h
    exact MultiplyBatch.appetite_zero _
  | _ =>
    obtain ⟨_, -, h⟩ := except_bind_eq_ok.mp h
    first
      | cases h
        rfl
      | obtain ⟨_, -, h⟩ := except_bind_eq_ok.mp h
        cases h
        rfl

end JointCircuit
