/-
JointCircuit.Proofs.Interleaving — parties that keep no common time.

The lockstep transport moves all parties at once. On channels every
party goes at its own pace: it puts its frames on the channels and takes
those of its peers one by one, in any order, goes on as soon as its own
exchange is complete, and leaves when it has its result, while others
may be exchanges behind. `Concourse` is the state of such parties and
`step` what one event does to it, failures included.

`OnCourse` relates a state to a joint execution of the sessions. A party
has received exactly what it receives there in the exchanges that it has
completed, and between two parties lie the records of the exchanges that
one has put there and the other has not yet taken: frames are numbered
by position alone, and nothing else keeps the exchanges apart.

Main statements: `OnCourse.step` — every event keeps the parties on
course; `OnCourse.exists_step` — unless all have left, the slowest party
or a peer it waits for can act; `Joint.settles` — so every order of
events is finite and ends with the results of the joint execution and
with nothing left on the channels.
-/
import JointCircuit.Proofs.Queues
import JointCircuit.Proofs.Records
import JointCircuit.Proofs.Runs
import Mathlib.Algebra.BigOperators.Group.Finset.Basic
import Mathlib.Algebra.Order.BigOperators.Group.Finset
import Mathlib.Data.Finset.Max
import Mathlib.Data.List.GetD

namespace JointCircuit

open Lockstep

variable {n : Nat} {α : Type}

/-! ## §1 What is left of a session -/

namespace Session

/-- What is left of a session after these replies. -/
def after : Session α → List (Except TransportError Delivery) → Session α
  | session, [] => session
  | .finished a, _ :: _ => .finished a
  | .exchange _ resume, received :: replies => (resume received).after replies

@[simp] theorem after_nil (session : Session α) : session.after [] = session := by
  cases session <;> rfl

@[simp] theorem exchange_after (frames : List Frame)
    (resume : Except TransportError Delivery → Session α)
    (received : Except TransportError Delivery) (replies : List (Except TransportError Delivery)) :
    (Session.exchange frames resume).after (received :: replies)
      = (resume received).after replies := rfl

end Session

/-- What a party receives when the parties send these frames, exchange by exchange. -/
def repliesTo (receiver : Nat) (sent : List (Fin n → List Frame)) :
    List (Except TransportError Delivery) :=
  sent.map fun frames => .ok (deliveryTo receiver (List.ofFn frames))

namespace Joint

variable {sessions : Fin n → Session α} {sent : List (Fin n → List Frame)} {results : Fin n → α}

/-- The replies of a joint execution answer every exchange of every party. -/
theorem run_repliesTo (h : Joint sessions sent results) (i : Fin n) :
    Session.Run (sessions i) (repliesTo (i + 1) sent) (results i) := by
  induction h with
  | finished results => exact .finished _
  | exchange frames resume rest ih => exact .exchange _ _ ih

/-- After fewer replies than there are exchanges a party waits for the next one. -/
theorem after_exchange (h : Joint sessions sent results) {k : Nat} (hk : k < sent.length)
    (i : Fin n) :
    ∃ resume, (sessions i).after (repliesTo (i + 1) (sent.take k)) = .exchange (sent[k] i) resume
      ∧ (sessions i).after (repliesTo (i + 1) (sent.take (k + 1)))
        = resume (.ok (deliveryTo (i + 1) (List.ofFn sent[k]))) := by
  induction h generalizing k with
  | finished results => cases hk
  | exchange frames resume rest ih =>
    cases k with
    | zero => exact ⟨resume i, rfl, by simp [repliesTo]⟩
    | succ k => exact ih (Nat.lt_of_succ_lt_succ hk)

/-- After all replies a party has its result. -/
theorem after_all (h : Joint sessions sent results) (i : Fin n) :
    (sessions i).after (repliesTo (i + 1) sent) = .finished (results i) := by
  induction h with
  | finished results => rfl
  | exchange frames resume rest ih => exact ih

end Joint

/-! ## §2 Parties on channels -/

namespace Concourse

/-- A party at work on its session. -/
structure Post (n : Nat) (α : Type) where
  session : Session α
  /-- Exchanges completed. -/
  rounds : Nat := 0
  /-- The peers whose frames of the exchange under way are on their channels. -/
  put : Finset (Fin n) := ∅
  /-- The frames of the exchange under way that were taken from the channels. -/
  taken : Fin n → Option Frame := fun _ => none
  /-- The party has its result and has closed its ends. -/
  left : Bool := false

/-- What may happen next. -/
inductive Event (n : Nat) where
  /-- A party puts its frame for a peer on the channel. -/
  | put (party peer : Fin n)
  /-- A party takes the frame of a peer from the channel. -/
  | take (party peer : Fin n)
  /-- A party that has put and taken all frames of its exchange goes on. -/
  | resume (party : Fin n)
  /-- A party that has its result closes its ends. -/
  | leave (party : Fin n)

/-- The frame for a peer is on its channel. -/
def Post.puts (post : Post n α) (peer : Fin n) : Post n α :=
  { post with put := insert peer post.put }

/-- The frame of a peer was taken from its channel. -/
def Post.takes (post : Post n α) (peer : Fin n) (frame : Frame) : Post n α :=
  { post with taken := Function.update post.taken peer (some frame) }

/-- The party has closed its ends. -/
def Post.leaves (post : Post n α) : Post n α :=
  { post with left := true }

/-- The exchange under way is over, and this is what is left of the session. -/
def Post.answered (post : Post n α) (session : Session α) : Post n α :=
  { session, rounds := post.rounds + 1, left := post.left }

/-- The frames that were taken, lowest peer first. -/
def Post.received (post : Post n α) : Delivery :=
  (List.finRange n).filterMap fun j => (post.taken j).map fun frame => (j.val + 1, frame)

/-- Nothing of the exchange is outstanding. -/
def Post.Complete (post : Post n α) (i : Fin n) : Prop :=
  ∀ j, j ≠ i → j ∈ post.put ∧ (post.taken j).isSome

instance (post : Post n α) (i : Fin n) : Decidable (post.Complete i) :=
  inferInstanceAs (Decidable (∀ j, j ≠ i → j ∈ post.put ∧ (post.taken j).isSome))

end Concourse

/-- All parties at work, and the channels between them. -/
structure Concourse (n : Nat) (α : Type) where
  channels : Channels
  posts : Fin n → Concourse.Post n α

namespace Concourse

/-- The parties before their first exchange. -/
def start (sessions : Fin n → Session α) : Concourse n α where
  channels := { parties := n }
  posts i := { session := sessions i }

/-- A party moves on, and the channels are left like this. -/
def move (s : Concourse n α) (i : Fin n) (post : Post n α) (channels : Channels) :
    Concourse n α :=
  ⟨channels, Function.update s.posts i post⟩

/-- A frame is put on a channel, if it has a record and the peer still takes it. -/
def carry? (i j : Fin n) (frame : Frame) (c : Channels) : Option Channels :=
  match Frame.put? frame with
  | none => none
  | some bytes =>
    match Channels.send (i + 1) (j + 1) bytes c with
    | .ok _ c => some c
    | .error _ _ => none

/-- What one event does; nothing, if it is not due. -/
def step (s : Concourse n α) : Event n → Option (Concourse n α)
  | .put i j =>
    let post := s.posts i
    match post.session with
    | .finished _ => none
    | .exchange frames resume =>
      if j = i ∨ j ∈ post.put then none
      else
        match carry? i j (frames.getD j []) s.channels with
        | some channels => s.move i (post.puts j) channels
        | none => s.move i (post.answered (resume (.error (.send (j + 1))))) s.channels
  | .take i j =>
    let post := s.posts i
    match post.session with
    | .finished _ => none
    | .exchange _ resume =>
      let failed := post.answered (resume (.error (.receive (j + 1))))
      if j = i ∨ (post.taken j).isSome then none
      else
        match Channels.receive? (i + 1) (j + 1) s.channels with
        | .error _ channels => s.move i failed channels
        | .ok none _ => none
        | .ok (some bytes) channels =>
          match Frame.readFirst bytes with
          | .frame frame [] => s.move i (post.takes j frame) channels
          | _ => s.move i failed channels
  | .resume i =>
    let post := s.posts i
    match post.session with
    | .finished _ => none
    | .exchange _ resume =>
      if post.Complete i then s.move i (post.answered (resume (.ok post.received))) s.channels
      else none
  | .leave i =>
    let post := s.posts i
    match post.session with
    | .exchange _ _ => none
    | .finished _ =>
      if post.left then none
      else
        match Channels.close (i + 1) s.channels with
        | .ok _ channels => s.move i post.leaves channels
        | .error _ _ => none

/-- What events do one after another; nothing, if one of them is not due. -/
def run (s : Concourse n α) : List (Event n) → Option (Concourse n α)
  | [] => some s
  | e :: events => (s.step e).bind (·.run events)

/-! ## §3 On course -/

end Concourse

/-- The frame from a party to another in an exchange. -/
def frameAt (sent : List (Fin n → List Frame)) (k : Nat) (i j : Fin n) : Frame :=
  (sent.getD k (fun _ => []) i).getD j []

/-- The record of that frame. -/
def recordAt (sent : List (Fin n → List Frame)) (k : Nat) (i j : Fin n) : Bytes :=
  (Frame.put? (frameAt sent k i j)).getD []

/-- Every frame fits a record. -/
def Fitting (sent : List (Fin n → List Frame)) : Prop :=
  ∀ frames ∈ sent, ∀ i, ∀ frame ∈ frames i, (Frame.put? frame).isSome

/-- What holds of every entry and of the default holds of what is read anywhere. -/
theorem getD_of_forall_mem {γ : Type} {P : γ → Prop} {xs : List γ} {d : γ} (hd : P d)
    (h : ∀ x ∈ xs, P x) (k : Nat) : P (xs.getD k d) := by
  by_cases hk : k < xs.length
  · rw [List.getD_eq_getElem _ _ hk]
    exact h _ (List.getElem_mem hk)
  · rw [List.getD_eq_default _ _ (Nat.not_lt.mp hk)]
    exact hd

theorem Fitting.put?_frameAt {sent : List (Fin n → List Frame)} (h : Fitting sent) (k : Nat)
    (i j : Fin n) : Frame.put? (frameAt sent k i j) = some (recordAt sent k i j) := by
  have hempty : (Frame.put? []).isSome := by decide
  have hframes : ∀ i, ∀ frame ∈ sent.getD k (fun _ => []) i, (Frame.put? frame).isSome :=
    getD_of_forall_mem (P := fun (frames : Fin n → List Frame) => ∀ i, ∀ frame ∈ frames i,
      (Frame.put? frame).isSome) (by simp) h k
  have hsome : (Frame.put? (frameAt sent k i j)).isSome :=
    getD_of_forall_mem (P := fun frame => (Frame.put? frame).isSome) hempty (hframes i) j
  obtain ⟨bytes, hbytes⟩ := Option.isSome_iff_exists.mp hsome
  rw [recordAt, hbytes, Option.getD_some]

namespace Concourse

/-- How many frames a party has put on the channel to a peer. -/
def Post.outbound (post : Post n α) (peer : Fin n) : Nat :=
  post.rounds + if peer ∈ post.put then 1 else 0

/-- How many frames a party has taken from the channel of a peer. -/
def Post.inbound (post : Post n α) (peer : Fin n) : Nat :=
  post.rounds + if (post.taken peer).isSome then 1 else 0

/-- A party is somewhere in its part of a joint execution. -/
structure Post.OnCourse (post : Post n α) (i : Fin n) (session : Session α)
    (sent : List (Fin n → List Frame)) : Prop where
  rounds_le : post.rounds ≤ sent.length
  session_eq : post.session = session.after (repliesTo (i + 1) (sent.take post.rounds))
  own_put : i ∉ post.put
  own_taken : post.taken i = none
  /-- After the last exchange nothing is outstanding. -/
  idle : post.rounds = sent.length → post.put = ∅ ∧ post.taken = fun _ => none
  taken_eq : ∀ j frame, post.taken j = some frame → frame = frameAt sent post.rounds j i

/-- Of the frames from a party to another so many were put on the channel and so many taken from
it; the records of the others lie there, in order. -/
structure Flow (c : Channels) (sent : List (Fin n → List Frame)) (i j : Fin n)
    (outbound inbound : Nat) : Prop where
  inbound_le : inbound ≤ outbound
  queue_eq : c.queue (i + 1) (j + 1)
    = (List.range' inbound (outbound - inbound)).map fun k => recordAt sent k i j

/-- All parties are somewhere in a joint execution. -/
structure OnCourse (s : Concourse n α) (sessions : Fin n → Session α)
    (sent : List (Fin n → List Frame)) : Prop where
  parties_eq : s.channels.parties = n
  post : ∀ i, (s.posts i).OnCourse i (sessions i) sent
  flow : ∀ i j, i ≠ j →
    Flow s.channels sent i j ((s.posts i).outbound j) ((s.posts j).inbound i)
  letters : ∀ letter ∈ s.channels.waiting, ∃ i j : Fin n, i ≠ j
    ∧ letter.sender = i + 1 ∧ letter.receiver = j + 1
  /-- Only who is done has closed its ends. -/
  closed : ∀ party ∈ s.channels.closed, ∃ i : Fin n, party = i + 1
    ∧ (s.posts i).rounds = sent.length

variable {s s' : Concourse n α} {sessions : Fin n → Session α}
  {sent : List (Fin n → List Frame)} {results : Fin n → α}

theorem onCourse_start : (start sessions).OnCourse sessions sent where
  parties_eq := rfl
  post i :=
    { rounds_le := Nat.zero_le _
      session_eq := by simp [start, repliesTo]
      own_put := by simp [start]
      own_taken := rfl
      idle := fun _ => ⟨rfl, rfl⟩
      taken_eq := fun j frame h => by cases h }
  flow i j _ := ⟨by simp [start, Post.outbound, Post.inbound], by
    simp [start, Post.outbound, Post.inbound, Channels.queue]⟩
  letters letter h := by cases h
  closed party h := by cases h

namespace Post.OnCourse

variable {post : Post n α} {i j : Fin n} {session : Session α}

theorem lt_of_mem_put (h : post.OnCourse i session sent) (hj : j ∈ post.put) :
    post.rounds < sent.length := by
  refine Nat.lt_of_le_of_ne h.rounds_le fun hdone => ?_
  rw [(h.idle hdone).1] at hj
  exact absurd hj (Finset.notMem_empty j)

theorem outbound_le (h : post.OnCourse i session sent) (j : Fin n) :
    post.outbound j ≤ sent.length := by
  have := h.rounds_le
  unfold Post.outbound
  split
  · exact h.lt_of_mem_put ‹_›
  · exact h.rounds_le

/-- A party that is done has put and taken every frame. -/
theorem bounds_of_done (h : post.OnCourse i session sent) (hdone : post.rounds = sent.length)
    (j : Fin n) : post.outbound j = sent.length ∧ post.inbound j = sent.length := by
  obtain ⟨hput, htaken⟩ := h.idle hdone
  simp [Post.outbound, Post.inbound, hput, htaken, hdone]

end Post.OnCourse

namespace OnCourse

/-- There is a channel between any two parties. -/
theorem linked (h : s.OnCourse sessions sent) {i j : Fin n} (hne : j ≠ i) :
    s.channels.Linked (i + 1) (j + 1) := by
  refine ⟨Nat.succ_ne_zero _, ?_, fun heq => hne (Fin.ext (Nat.succ_injective heq))⟩
  rw [h.parties_eq]
  exact j.isLt

/-- Whoever has not taken all frames of a party has not been left by it, and whoever has not been
given all frames has not left. -/
theorem not_closed_of_put (h : s.OnCourse sessions sent) {i j : Fin n} (hne : i ≠ j)
    (hlt : (s.posts i).outbound j < sent.length) : j.val + 1 ∉ s.channels.closed := by
  intro hmem
  obtain ⟨j', hj', hdone⟩ := h.closed _ hmem
  obtain rfl : j = j' := Fin.ext (Nat.succ_injective hj')
  have := (h.flow i j hne).inbound_le
  rw [((h.post j).bounds_of_done hdone i).2] at this
  omega

theorem not_closed_of_take (h : s.OnCourse sessions sent) {i j : Fin n}
    (hlt : (s.posts j).outbound i < sent.length) : j.val + 1 ∉ s.channels.closed := by
  intro hmem
  obtain ⟨j', hj', hdone⟩ := h.closed _ hmem
  obtain rfl : j = j' := Fin.ext (Nat.succ_injective hj')
  have := ((h.post j).bounds_of_done hdone i).1
  omega

/-- One party moves on: what concerns it and its channels has to be shown, the others stay. -/
theorem move (h : s.OnCourse sessions sent) {i : Fin n} {post : Post n α} {c : Channels}
    (hparties : c.parties = n) (hpost : post.OnCourse i (sessions i) sent)
    (hout : ∀ j, i ≠ j → Flow c sent i j (post.outbound j) ((s.posts j).inbound i))
    (hin : ∀ j, j ≠ i → Flow c sent j i ((s.posts j).outbound i) (post.inbound j))
    (hother : ∀ j k : Fin n, j ≠ i → k ≠ i →
      c.queue (j + 1) (k + 1) = s.channels.queue (j + 1) (k + 1))
    (hletters : ∀ letter ∈ c.waiting, ∃ i j : Fin n, i ≠ j
      ∧ letter.sender = i + 1 ∧ letter.receiver = j + 1)
    (hclosed : ∀ party ∈ c.closed, party ∈ s.channels.closed
      ∨ party = i.val + 1 ∧ post.rounds = sent.length)
    (hrounds : (s.posts i).rounds ≤ post.rounds) : (s.move i post c).OnCourse sessions sent where
  parties_eq := hparties
  post j := by
    by_cases hj : j = i
    · subst hj
      simpa [Concourse.move] using hpost
    · simpa [Concourse.move, hj] using h.post j
  flow j k hjk := by
    by_cases hj : j = i
    · subst hj
      simpa [Concourse.move, Ne.symm hjk] using hout k hjk
    · by_cases hk : k = i
      · subst hk
        simpa [Concourse.move, hj] using hin j hj
      · have hflow := h.flow j k hjk
        simp only [Concourse.move, Function.update_of_ne hj, Function.update_of_ne hk]
        exact ⟨hflow.inbound_le, (hother j k hj hk).trans hflow.queue_eq⟩
  letters := hletters
  closed party hmem := by
    obtain hmem | ⟨rfl, hdone⟩ := hclosed party hmem
    · obtain ⟨j, rfl, hdone⟩ := h.closed party hmem
      refine ⟨j, rfl, ?_⟩
      by_cases hj : j = i
      · subst hj
        have := hpost.rounds_le
        simp only [Concourse.move, Function.update_self]
        omega
      · simpa [Concourse.move, hj] using hdone
    · exact ⟨i, rfl, by simpa [Concourse.move] using hdone⟩

/-- A party that is not done waits for its next exchange. -/
theorem waiting (h : s.OnCourse sessions sent) (hjoint : Joint sessions sent results) {i : Fin n}
    (hlt : (s.posts i).rounds < sent.length) :
    ∃ resume, (s.posts i).session = .exchange (sent[(s.posts i).rounds] i) resume
      ∧ (sessions i).after (repliesTo (i + 1) (sent.take ((s.posts i).rounds + 1)))
        = resume (.ok (deliveryTo (i + 1) (List.ofFn sent[(s.posts i).rounds]))) := by
  obtain ⟨resume, hsession, hnext⟩ := hjoint.after_exchange hlt i
  exact ⟨resume, (h.post i).session_eq.trans hsession, hnext⟩

/-- A party that has completed every exchange has its result. -/
theorem done (h : s.OnCourse sessions sent) (hjoint : Joint sessions sent results) {i : Fin n}
    (hdone : (s.posts i).rounds = sent.length) : (s.posts i).session = .finished (results i) := by
  rw [(h.post i).session_eq, hdone, List.take_length]
  exact hjoint.after_all i

theorem frameAt_of_lt {k : Nat} (hk : k < sent.length) (i j : Fin n) :
    frameAt sent k i j = (sent[k] i).getD j [] := by
  rw [frameAt, List.getD_eq_getElem _ _ hk]

/-! ## §4 Putting a frame -/

/-- A frame that was not put yet is put, and nothing fails. -/
theorem step_put (h : s.OnCourse sessions sent) (hjoint : Joint sessions sent results)
    (hfit : Fitting sent) {i j : Fin n} (hlt : (s.posts i).rounds < sent.length) (hne : j ≠ i)
    (hput : j ∉ (s.posts i).put) :
    s.step (.put i j) = some (s.move i ((s.posts i).puts j)
      (s.channels.sent (i + 1) (j + 1) (recordAt sent (s.posts i).rounds i j))) := by
  obtain ⟨resume, hsession, -⟩ := h.waiting hjoint hlt
  have hdue : ¬ (j = i ∨ j ∈ (s.posts i).put) := not_or.mpr ⟨hne, hput⟩
  have hopen : j.val + 1 ∉ s.channels.closed :=
    h.not_closed_of_put (Ne.symm hne) (by simpa [Post.outbound, hput] using hlt)
  have hcarry : carry? i j ((sent[(s.posts i).rounds] i).getD j []) s.channels
      = some (s.channels.sent (i + 1) (j + 1) (recordAt sent (s.posts i).rounds i j)) := by
    rw [← frameAt_of_lt hlt i j]
    simp only [carry?, hfit.put?_frameAt, Channels.send_of_open (h.linked hne) hopen]
  simp only [step, hsession, if_neg hdue, hcarry]

theorem step_put_of_not (h : s.OnCourse sessions sent) (hjoint : Joint sessions sent results)
    {i j : Fin n}
    (hnot : ¬ ((s.posts i).rounds < sent.length ∧ j ≠ i ∧ j ∉ (s.posts i).put)) :
    s.step (.put i j) = none := by
  obtain hlt | hdone := Nat.lt_or_eq_of_le (h.post i).rounds_le
  · obtain ⟨resume, hsession, -⟩ := h.waiting hjoint hlt
    have hdue : j = i ∨ j ∈ (s.posts i).put := by
      by_contra hdue
      exact hnot ⟨hlt, (not_or.mp hdue).1, (not_or.mp hdue).2⟩
    simp only [step, hsession, if_pos hdue]
  · simp only [step, h.done hjoint hdone]

/-- The frame lies behind those put before. -/
theorem put (h : s.OnCourse sessions sent) {i j : Fin n}
    (hlt : (s.posts i).rounds < sent.length) (hne : j ≠ i) (hput : j ∉ (s.posts i).put) :
    (s.move i ((s.posts i).puts j) (s.channels.sent (i + 1) (j + 1)
      (recordAt sent (s.posts i).rounds i j))).OnCourse sessions sent := by
  have hpost := h.post i
  refine h.move h.parties_eq ?_ (fun k hk => ?_) (fun k hk => ?_) (fun k l hk hl => ?_)
    (fun letter hletter => ?_) (fun party hparty => .inl hparty) (Nat.le_refl _)
  · exact
      { hpost with
        own_put := by simpa [Post.puts, Ne.symm hne] using hpost.own_put
        idle := fun hdone => absurd hdone (Nat.ne_of_lt hlt) }
  · have hflow := h.flow i k hk
    by_cases hkj : k = j
    · subst hkj
      have hold : (s.posts i).outbound k = (s.posts i).rounds := by simp [Post.outbound, hput]
      have hnew : ((s.posts i).puts k).outbound k = (s.posts i).rounds + 1 := by
        simp [Post.outbound, Post.puts]
      obtain ⟨hle, hqueue⟩ := hold ▸ hflow
      rw [hnew]
      refine ⟨Nat.le_succ_of_le hle, ?_⟩
      rw [Channels.queue_sent_self, hqueue, Nat.succ_sub hle, List.range'_concat, List.map_append,
        List.map_singleton, Nat.one_mul, Nat.add_sub_cancel' hle]
    · have hnew : ((s.posts i).puts j).outbound k = (s.posts i).outbound k := by
        simp [Post.outbound, Post.puts, hkj]
      have hval : k.val ≠ j.val := fun hval => hkj (Fin.ext hval)
      rw [hnew]
      exact ⟨hflow.inbound_le, by
        rw [Channels.queue_sent_of_ne (by omega)]
        exact hflow.queue_eq⟩
  · have hflow := h.flow k i hk
    have hval : k.val ≠ i.val := fun hval => hk (Fin.ext hval)
    exact ⟨hflow.inbound_le, by
      rw [Channels.queue_sent_of_ne (by omega)]
      exact hflow.queue_eq⟩
  · have hval : k.val ≠ i.val := fun hval => hk (Fin.ext hval)
    exact Channels.queue_sent_of_ne (by omega)
  · obtain hold | hnew := List.mem_append.mp hletter
    · exact h.letters letter hold
    · rw [List.mem_singleton.mp hnew]
      exact ⟨i, j, Ne.symm hne, rfl, rfl⟩

/-! ## §5 Taking a frame -/

/-- A frame that waits is the one of the exchange under way, and is taken. -/
theorem step_take (h : s.OnCourse sessions sent) (hjoint : Joint sessions sent results)
    (hfit : Fitting sent) {i j : Fin n} (hlt : (s.posts i).rounds < sent.length) (hne : j ≠ i)
    (htaken : (s.posts i).taken j = none) (hwaits : (s.posts i).rounds < (s.posts j).outbound i) :
    ∃ c, s.step (.take i j)
        = some (s.move i ((s.posts i).takes j (frameAt sent (s.posts i).rounds j i)) c)
      ∧ Channels.Took s.channels c (j + 1) (i + 1) (recordAt sent (s.posts i).rounds j i) := by
  obtain ⟨resume, hsession, -⟩ := h.waiting hjoint hlt
  have hdue : ¬ (j = i ∨ ((s.posts i).taken j).isSome) := by simp [hne, htaken]
  have hqueue := (h.flow j i hne).queue_eq
  have hinbound : (s.posts i).inbound j = (s.posts i).rounds := by simp [Post.inbound, htaken]
  obtain ⟨more, hmore⟩ := Nat.exists_eq_add_of_lt hwaits
  have hcount : (s.posts j).outbound i - (s.posts i).rounds = more + 1 := by omega
  rw [hinbound, hcount, List.range'_succ, List.map_cons] at hqueue
  obtain ⟨c, hreceive, htook⟩ := Channels.receive?_of_cons (h.linked hne) hqueue
  have hread := Frame.readFirst_put? (hfit.put?_frameAt (s.posts i).rounds j i) []
  rw [List.append_nil] at hread
  refine ⟨c, ?_, htook⟩
  simp only [step, hsession, if_neg hdue, hreceive, hread]

theorem step_take_of_not (h : s.OnCourse sessions sent) (hjoint : Joint sessions sent results)
    {i j : Fin n}
    (hnot : ¬ ((s.posts i).rounds < sent.length ∧ j ≠ i ∧ (s.posts i).taken j = none
      ∧ (s.posts i).rounds < (s.posts j).outbound i)) :
    s.step (.take i j) = none := by
  obtain hlt | hdone := Nat.lt_or_eq_of_le (h.post i).rounds_le
  · obtain ⟨resume, hsession, -⟩ := h.waiting hjoint hlt
    by_cases hdue : j = i ∨ ((s.posts i).taken j).isSome
    · simp only [step, hsession, if_pos hdue]
    · obtain ⟨hne, htaken⟩ := not_or.mp hdue
      have htaken : (s.posts i).taken j = none := by simpa using htaken
      have hle : (s.posts j).outbound i ≤ (s.posts i).rounds :=
        Nat.not_lt.mp fun hwaits => hnot ⟨hlt, hne, htaken, hwaits⟩
      have hempty : s.channels.queue (j + 1) (i + 1) = [] := by
        have hinbound : (s.posts i).inbound j = (s.posts i).rounds := by
          simp [Post.inbound, htaken]
        rw [(h.flow j i hne).queue_eq, hinbound, Nat.sub_eq_zero_of_le hle, List.range'_zero,
          List.map_nil]
      have hreceive := Channels.receive?_of_nil (h.linked hne) hempty
        (h.not_closed_of_take (Nat.lt_of_le_of_lt hle hlt))
      simp only [step, hsession, if_neg hdue, hreceive]
  · simp only [step, h.done hjoint hdone]

/-- The records behind it move up. -/
theorem take (h : s.OnCourse sessions sent) {i j : Fin n} {c : Channels}
    (hlt : (s.posts i).rounds < sent.length) (hne : j ≠ i) (htaken : (s.posts i).taken j = none)
    (hwaits : (s.posts i).rounds < (s.posts j).outbound i)
    (htook : Channels.Took s.channels c (j + 1) (i + 1) (recordAt sent (s.posts i).rounds j i)) :
    (s.move i ((s.posts i).takes j (frameAt sent (s.posts i).rounds j i)) c).OnCourse
      sessions sent := by
  have hpost := h.post i
  have hval : j.val ≠ i.val := fun hval => hne (Fin.ext hval)
  refine h.move (htook.parties_eq.trans h.parties_eq) ?_ (fun k hk => ?_) (fun k hk => ?_)
    (fun k l hk hl => ?_) (fun letter hletter => h.letters letter (htook.mem_of_mem letter hletter))
    (fun party hparty => .inl (htook.closed_eq ▸ hparty)) (Nat.le_refl _)
  · exact
      { hpost with
        own_taken := by simpa [Post.takes, Ne.symm hne] using hpost.own_taken
        idle := fun hdone => absurd hdone (Nat.ne_of_lt hlt)
        taken_eq := fun k frame hframe => by
          by_cases hkj : k = j
          · subst hkj
            simpa [Post.takes] using hframe.symm
          · exact hpost.taken_eq k frame (by simpa [Post.takes, hkj] using hframe) }
  · have hflow := h.flow i k hk
    exact ⟨hflow.inbound_le, by
      rw [htook.other_eq _ _ (by omega)]
      exact hflow.queue_eq⟩
  · have hflow := h.flow k i hk
    by_cases hkj : k = j
    · subst hkj
      have hold : (s.posts i).inbound k = (s.posts i).rounds := by simp [Post.inbound, htaken]
      have hnew : ((s.posts i).takes k (frameAt sent (s.posts i).rounds k i)).inbound k
          = (s.posts i).rounds + 1 := by simp [Post.inbound, Post.takes]
      have hqueue := htook.queue_eq.symm.trans hflow.queue_eq
      obtain ⟨more, hmore⟩ := Nat.exists_eq_add_of_lt hwaits
      have hcount : (s.posts k).outbound i - (s.posts i).rounds = more + 1 := by omega
      have hrest : (s.posts k).outbound i - ((s.posts i).rounds + 1) = more := by omega
      rw [hold, hcount, List.range'_succ, List.map_cons] at hqueue
      rw [hnew]
      refine ⟨hwaits, ?_⟩
      rw [hrest]
      exact (List.cons.inj hqueue).2
    · have hnew : ((s.posts i).takes j (frameAt sent (s.posts i).rounds j i)).inbound k
          = (s.posts i).inbound k := by simp [Post.inbound, Post.takes, hkj]
      have hvalk : k.val ≠ j.val := fun hval => hkj (Fin.ext hval)
      rw [hnew]
      exact ⟨hflow.inbound_le, by
        rw [htook.other_eq _ _ (by omega)]
        exact hflow.queue_eq⟩
  · have hvall : l.val ≠ i.val := fun hval => hl (Fin.ext hval)
    exact htook.other_eq _ _ (by omega)

/-! ## §6 Going on -/

/-- What was taken from all peers is what the joint execution delivers. -/
theorem received_eq (h : s.OnCourse sessions sent) {i : Fin n}
    (hlt : (s.posts i).rounds < sent.length) (hcomplete : (s.posts i).Complete i) :
    (s.posts i).received = deliveryTo (i + 1) (List.ofFn sent[(s.posts i).rounds]) := by
  have hpost := h.post i
  rw [deliveryTo_ofFn, Post.received, ← List.filterMap_eq_map, List.filterMap_filter]
  refine List.filterMap_congr fun j _ => ?_
  by_cases hj : j = i
  · subst hj
    simp [hpost.own_taken]
  · obtain ⟨frame, hframe⟩ := Option.isSome_iff_exists.mp (hcomplete j hj).2
    rw [hframe, hpost.taken_eq j frame hframe, frameAt_of_lt hlt]
    simp [hj]

/-- A party whose exchange is complete goes on with what the joint execution delivers to it. -/
theorem step_resume (h : s.OnCourse sessions sent) (hjoint : Joint sessions sent results)
    {i : Fin n} (hlt : (s.posts i).rounds < sent.length) (hcomplete : (s.posts i).Complete i) :
    s.step (.resume i) = some (s.move i ((s.posts i).answered
      ((sessions i).after (repliesTo (i + 1) (sent.take ((s.posts i).rounds + 1)))))
      s.channels) := by
  obtain ⟨resume, hsession, hnext⟩ := h.waiting hjoint hlt
  simp only [step, hsession, if_pos hcomplete, h.received_eq hlt hcomplete, hnext]

theorem step_resume_of_not (h : s.OnCourse sessions sent) (hjoint : Joint sessions sent results)
    {i : Fin n} (hnot : ¬ ((s.posts i).rounds < sent.length ∧ (s.posts i).Complete i)) :
    s.step (.resume i) = none := by
  obtain hlt | hdone := Nat.lt_or_eq_of_le (h.post i).rounds_le
  · obtain ⟨resume, hsession, -⟩ := h.waiting hjoint hlt
    simp only [step, hsession, if_neg fun hcomplete => hnot ⟨hlt, hcomplete⟩]
  · simp only [step, h.done hjoint hdone]

/-- The frames of a complete exchange count for the exchange when it is over. -/
theorem resume (h : s.OnCourse sessions sent) {i : Fin n}
    (hlt : (s.posts i).rounds < sent.length) (hcomplete : (s.posts i).Complete i) :
    (s.move i ((s.posts i).answered
      ((sessions i).after (repliesTo (i + 1) (sent.take ((s.posts i).rounds + 1)))))
      s.channels).OnCourse sessions sent := by
  refine h.move h.parties_eq ?_ (fun k hk => ?_) (fun k hk => ?_) (fun _ _ _ _ => rfl) h.letters
    (fun party hparty => .inl hparty) (Nat.le_succ _)
  · exact
      { rounds_le := hlt
        session_eq := rfl
        own_put := Finset.notMem_empty i
        own_taken := rfl
        idle := fun _ => ⟨rfl, rfl⟩
        taken_eq := fun j frame hframe => by cases hframe }
  · have hsame : ((s.posts i).answered ((sessions i).after
        (repliesTo (i + 1) (sent.take ((s.posts i).rounds + 1))))).outbound k
        = (s.posts i).outbound k := by
      simp [Post.outbound, Post.answered, (hcomplete k (Ne.symm hk)).1]
    rw [hsame]
    exact h.flow i k hk
  · have hsame : ((s.posts i).answered ((sessions i).after
        (repliesTo (i + 1) (sent.take ((s.posts i).rounds + 1))))).inbound k
        = (s.posts i).inbound k := by
      simp [Post.inbound, Post.answered, (hcomplete k hk).2]
    rw [hsame]
    exact h.flow k i hk

/-! ## §7 Leaving -/

theorem step_leave (h : s.OnCourse sessions sent) (hjoint : Joint sessions sent results)
    {i : Fin n} (hdone : (s.posts i).rounds = sent.length) (hstays : (s.posts i).left = false) :
    s.step (.leave i)
      = some (s.move i (s.posts i).leaves (s.channels.shut (i + 1))) := by
  simp only [step, h.done hjoint hdone, hstays, Bool.false_eq_true, if_false, Channels.close_apply]

theorem step_leave_of_not (h : s.OnCourse sessions sent) (hjoint : Joint sessions sent results)
    {i : Fin n} (hnot : ¬ ((s.posts i).rounds = sent.length ∧ (s.posts i).left = false)) :
    s.step (.leave i) = none := by
  obtain hlt | hdone := Nat.lt_or_eq_of_le (h.post i).rounds_le
  · obtain ⟨resume, hsession, -⟩ := h.waiting hjoint hlt
    simp only [step, hsession]
  · have hleft : (s.posts i).left = true := by
      simpa using fun hstays => hnot ⟨hdone, hstays⟩
    simp only [step, h.done hjoint hdone, hleft, if_true]

/-- Nothing lies on the channels to a party that is done, so nothing is lost when it leaves. -/
theorem queue_to_done (h : s.OnCourse sessions sent) {i : Fin n}
    (hdone : (s.posts i).rounds = sent.length) {j : Fin n} (hne : j ≠ i) :
    s.channels.queue (j + 1) (i + 1) = [] := by
  have hinbound := ((h.post i).bounds_of_done hdone j).2
  have houtbound := (h.post j).outbound_le i
  rw [(h.flow j i hne).queue_eq, hinbound, Nat.sub_eq_zero_of_le houtbound, List.range'_zero,
    List.map_nil]

theorem leave (h : s.OnCourse sessions sent) {i : Fin n}
    (hdone : (s.posts i).rounds = sent.length) :
    (s.move i (s.posts i).leaves (s.channels.shut (i + 1))).OnCourse
      sessions sent := by
  refine h.move h.parties_eq ?_ (fun k hk => ?_) (fun k hk => ?_) (fun k l _ hl => ?_)
    (fun letter hletter => h.letters letter (List.mem_of_mem_filter hletter))
    (fun party hparty => ?_) (Nat.le_refl _)
  · obtain ⟨hrounds, hsession, hput, htaken, hidle, heq⟩ := h.post i
    exact ⟨hrounds, hsession, hput, htaken, hidle, heq⟩
  · have hval : k.val ≠ i.val := fun hval => hk (Fin.ext hval.symm)
    have hflow := h.flow i k hk
    exact ⟨hflow.inbound_le, by
      rw [Channels.queue_shut_of_ne (by omega)]
      exact hflow.queue_eq⟩
  · have hflow := h.flow k i hk
    exact ⟨hflow.inbound_le, by
      rw [Channels.queue_shut_self, ← h.queue_to_done hdone hk]
      exact hflow.queue_eq⟩
  · have hval : l.val ≠ i.val := fun hval => hl (Fin.ext hval)
    exact Channels.queue_shut_of_ne (by omega)
  · obtain rfl | hold := List.mem_cons.mp hparty
    · exact .inr ⟨rfl, hdone⟩
    · exact .inl hold

end OnCourse

/-! ## §8 Counting events -/

/-- The peers whose frames of the exchange under way were taken. -/
def Post.sources (post : Post n α) : Finset (Fin n) :=
  Finset.univ.filter fun j => (post.taken j).isSome

/-- The events that a party has taken part in. An exchange takes one for every frame that is put,
one for every frame that is taken, and one to go on. -/
def Post.tally (post : Post n α) : Nat :=
  (2 * (n - 1) + 1) * post.rounds + post.put.card + post.sources.card + post.left.toNat

/-- The events so far. -/
def tally (s : Concourse n α) : Nat :=
  ∑ i, (s.posts i).tally

/-- The number of peers. -/
theorem card_erase (i : Fin n) : (Finset.univ.erase i).card = n - 1 := by
  rw [Finset.card_erase_of_mem (Finset.mem_univ i), Finset.card_univ, Fintype.card_fin]

namespace Post

variable {post : Post n α} {i j : Fin n}

theorem mem_sources : j ∈ post.sources ↔ (post.taken j).isSome := by
  rw [sources, Finset.mem_filter, and_iff_right (Finset.mem_univ j)]

theorem sources_of_none (h : post.taken = fun _ => none) : post.sources = ∅ := by
  refine Finset.eq_empty_of_forall_notMem fun j hj => ?_
  rw [mem_sources, h] at hj
  cases hj

theorem tally_puts (h : j ∉ post.put) : (post.puts j).tally = post.tally + 1 := by
  have hcard : (post.puts j).put.card = post.put.card + 1 := Finset.card_insert_of_notMem h
  have hsame : (post.puts j).tally = (2 * (n - 1) + 1) * post.rounds + (post.puts j).put.card
      + post.sources.card + post.left.toNat := rfl
  rw [hsame, hcard, tally]
  omega

theorem tally_takes (h : post.taken j = none) (frame : Frame) :
    (post.takes j frame).tally = post.tally + 1 := by
  have hsources : (post.takes j frame).sources = insert j post.sources := by
    ext k
    rw [Finset.mem_insert, mem_sources, mem_sources]
    by_cases hk : k = j
    · simp [takes, hk]
    · simp [takes, hk]
  have hnew : j ∉ post.sources := by simp [mem_sources, h]
  have hcard : (post.takes j frame).sources.card = post.sources.card + 1 := by
    rw [hsources, Finset.card_insert_of_notMem hnew]
  have hsame : (post.takes j frame).tally = (2 * (n - 1) + 1) * post.rounds + post.put.card
      + (post.takes j frame).sources.card + post.left.toNat := rfl
  rw [hsame, hcard, tally]
  omega

theorem tally_leaves (h : post.left = false) : post.leaves.tally = post.tally + 1 := by
  have hsame : post.leaves.tally = (2 * (n - 1) + 1) * post.rounds + post.put.card
      + post.sources.card + 1 := rfl
  rw [hsame, tally, h]
  rfl

/-- A complete exchange has taken all its events but the last. -/
theorem tally_answered (hput : i ∉ post.put) (htaken : post.taken i = none)
    (h : post.Complete i) (session : Session α) :
    (post.answered session).tally = post.tally + 1 := by
  have hputs : post.put = Finset.univ.erase i := by
    ext j
    by_cases hj : j = i
    · simp [hj, hput]
    · simp [hj, (h j hj).1]
  have htakes : post.sources = Finset.univ.erase i := by
    ext j
    rw [mem_sources]
    by_cases hj : j = i
    · simp [hj, htaken]
    · simp [hj, (h j hj).2]
  have hsame : (post.answered session).tally = (2 * (n - 1) + 1) * (post.rounds + 1)
      + (post.answered session).sources.card + post.left.toNat := rfl
  rw [hsame, sources_of_none rfl, tally, hputs, htakes, card_erase, Finset.card_empty]
  simp only [Nat.mul_add]
  omega

/-- No party takes part in more events than its exchanges and its leaving ask for. -/
theorem OnCourse.tally_le {session : Session α} {sent : List (Fin n → List Frame)}
    (h : post.OnCourse i session sent) : post.tally ≤ (2 * (n - 1) + 1) * sent.length + 1 := by
  have hleft := Bool.toNat_le post.left
  obtain hlt | hdone := Nat.lt_or_eq_of_le h.rounds_le
  · have hputs : post.put.card ≤ n - 1 := by
      rw [← card_erase i]
      refine Finset.card_le_card fun j hj => Finset.mem_erase.mpr ⟨?_, Finset.mem_univ j⟩
      rintro rfl
      exact h.own_put hj
    have htakes : post.sources.card ≤ n - 1 := by
      rw [← card_erase i]
      refine Finset.card_le_card fun j hj => Finset.mem_erase.mpr ⟨?_, Finset.mem_univ j⟩
      rintro rfl
      simp [mem_sources, h.own_taken] at hj
    have hrounds := Nat.mul_le_mul_left (2 * (n - 1) + 1) (Nat.succ_le_of_lt hlt)
    rw [Nat.mul_succ] at hrounds
    unfold tally
    omega
  · obtain ⟨hput, htaken⟩ := h.idle hdone
    rw [tally, hput, sources_of_none htaken, hdone, Finset.card_empty]
    omega

end Post

theorem tally_start : (start sessions).tally = 0 := by
  have hpost : ∀ i, ((start sessions).posts i).tally = 0 := fun i => by
    have hsame : ((start sessions).posts i).tally
        = 0 + 0 + ((start sessions).posts i).sources.card + 0 := rfl
    rw [hsame, Post.sources_of_none rfl, Finset.card_empty]
  simp only [tally, hpost, Finset.sum_const_zero]

theorem tally_move {i : Fin n} {post : Post n α} {c : Channels}
    (h : post.tally = (s.posts i).tally + 1) : (s.move i post c).tally = s.tally + 1 := by
  have hrest : ∀ j ∈ Finset.univ.erase i,
      ((s.move i post c).posts j).tally = (s.posts j).tally := fun j hj => by
    simp [move, Finset.ne_of_mem_erase hj]
  have hself : ((s.move i post c).posts i).tally = (s.posts i).tally + 1 := by
    simp [move, h]
  unfold tally
  rw [← Finset.add_sum_erase _ _ (Finset.mem_univ i), hself, Finset.sum_congr rfl hrest,
    ← Finset.add_sum_erase _ (fun j => (s.posts j).tally) (Finset.mem_univ i)]
  omega

/-! ## §9 Every order of events -/

namespace OnCourse

/-- Every event that is due keeps the parties on course, and is counted. -/
theorem step (h : s.OnCourse sessions sent) (hjoint : Joint sessions sent results)
    (hfit : Fitting sent) {e : Event n} (hs : s.step e = some s') :
    s'.OnCourse sessions sent ∧ s'.tally = s.tally + 1 := by
  cases e with
  | put i j =>
    by_cases hdue : (s.posts i).rounds < sent.length ∧ j ≠ i ∧ j ∉ (s.posts i).put
    · obtain ⟨hlt, hne, hput⟩ := hdue
      rw [h.step_put hjoint hfit hlt hne hput] at hs
      cases hs
      exact ⟨h.put hlt hne hput, tally_move (Post.tally_puts hput)⟩
    · rw [h.step_put_of_not hjoint hdue] at hs
      cases hs
  | take i j =>
    by_cases hdue : (s.posts i).rounds < sent.length ∧ j ≠ i ∧ (s.posts i).taken j = none
        ∧ (s.posts i).rounds < (s.posts j).outbound i
    · obtain ⟨hlt, hne, htaken, hwaits⟩ := hdue
      obtain ⟨c, hstep, htook⟩ := h.step_take hjoint hfit hlt hne htaken hwaits
      rw [hstep] at hs
      cases hs
      exact ⟨h.take hlt hne htaken hwaits htook, tally_move (Post.tally_takes htaken _)⟩
    · rw [h.step_take_of_not hjoint hdue] at hs
      cases hs
  | resume i =>
    by_cases hdue : (s.posts i).rounds < sent.length ∧ (s.posts i).Complete i
    · obtain ⟨hlt, hcomplete⟩ := hdue
      rw [h.step_resume hjoint hlt hcomplete] at hs
      cases hs
      exact ⟨h.resume hlt hcomplete, tally_move
        (Post.tally_answered (h.post i).own_put (h.post i).own_taken hcomplete _)⟩
    · rw [h.step_resume_of_not hjoint hdue] at hs
      cases hs
  | leave i =>
    by_cases hdue : (s.posts i).rounds = sent.length ∧ (s.posts i).left = false
    · obtain ⟨hdone, hstays⟩ := hdue
      rw [h.step_leave hjoint hdone hstays] at hs
      cases hs
      exact ⟨h.leave hdone, tally_move (Post.tally_leaves hstays)⟩
    · rw [h.step_leave_of_not hjoint hdue] at hs
      cases hs

theorem run (h : s.OnCourse sessions sent) (hjoint : Joint sessions sent results)
    (hfit : Fitting sent) {events : List (Event n)} (hs : s.run events = some s') :
    s'.OnCourse sessions sent ∧ s'.tally = s.tally + events.length := by
  induction events generalizing s with
  | nil =>
    cases hs
    exact ⟨h, rfl⟩
  | cons e events ih =>
    obtain ⟨s₁, hstep, hrest⟩ := Option.bind_eq_some_iff.mp hs
    obtain ⟨h₁, htally⟩ := h.step hjoint hfit hstep
    obtain ⟨h', htally'⟩ := ih h₁ hrest
    refine ⟨h', ?_⟩
    rw [htally', htally, List.length_cons]
    omega

/-- A party that nobody is behind can act, or a peer can whose frame it lacks. -/
theorem exists_step_of_slowest (h : s.OnCourse sessions sent) (hjoint : Joint sessions sent results)
    (hfit : Fitting sent) {i : Fin n} (hlt : (s.posts i).rounds < sent.length)
    (hslowest : ∀ j, (s.posts i).rounds ≤ (s.posts j).rounds) : ∃ e, s.step e ≠ none := by
  by_contra hstuck
  have hnone : ∀ e, s.step e = none := fun e => by
    by_contra he
    exact hstuck ⟨e, he⟩
  have hput : ∀ j, j ≠ i → j ∈ (s.posts i).put := fun j hj => by
    by_contra hmem
    have hstep := h.step_put hjoint hfit hlt hj hmem
    rw [hnone] at hstep
    cases hstep
  have htaken : ∀ j, j ≠ i → ((s.posts i).taken j).isSome := fun j hj => by
    by_contra hmissing
    have hmissing : (s.posts i).taken j = none := by simpa using hmissing
    by_cases hwaits : (s.posts i).rounds < (s.posts j).outbound i
    · obtain ⟨c, hstep, -⟩ := h.step_take hjoint hfit hlt hj hmissing hwaits
      rw [hnone] at hstep
      cases hstep
    · -- The peer is in the same exchange and has not put its frame yet.
      have hle := hslowest j
      have hjput : i ∉ (s.posts j).put := fun hmem => by
        simp only [Post.outbound, hmem, if_true] at hwaits
        omega
      have hjlt : (s.posts j).rounds < sent.length := by
        simp only [Post.outbound, hjput, if_false] at hwaits
        omega
      have hstep := h.step_put hjoint hfit hjlt (Ne.symm hj) hjput
      rw [hnone] at hstep
      cases hstep
  have hstep := h.step_resume hjoint hlt fun j hj => ⟨hput j hj, htaken j hj⟩
  rw [hnone] at hstep
  cases hstep

/-- Unless all parties have left with their results, there is something that can happen. -/
theorem exists_step (h : s.OnCourse sessions sent) (hjoint : Joint sessions sent results)
    (hfit : Fitting sent)
    (hgoing : ∃ i, (s.posts i).rounds < sent.length ∨ (s.posts i).left = false) :
    ∃ e, s.step e ≠ none := by
  obtain ⟨i, hi⟩ := hgoing
  obtain ⟨slowest, -, hslowest⟩ := Finset.exists_min_image Finset.univ
    (fun j => (s.posts j).rounds) ⟨i, Finset.mem_univ i⟩
  by_cases hlt : (s.posts slowest).rounds < sent.length
  · exact h.exists_step_of_slowest hjoint hfit hlt fun j => hslowest j (Finset.mem_univ j)
  · have hdone : (s.posts i).rounds = sent.length := by
      have hle := (h.post i).rounds_le
      have := hslowest i (Finset.mem_univ i)
      omega
    have hstays := hi.resolve_left (by omega)
    refine ⟨.leave i, ?_⟩
    rw [h.step_leave hjoint hdone hstays]
    exact Option.some_ne_none _

/-- When all parties are done, nothing lies on the channels. -/
theorem waiting_eq_nil (h : s.OnCourse sessions sent)
    (hdone : ∀ i, (s.posts i).rounds = sent.length) : s.channels.waiting = [] := by
  rw [List.eq_nil_iff_forall_not_mem]
  intro letter hletter
  obtain ⟨i, j, hne, hsender, hreceiver⟩ := h.letters letter hletter
  have hqueue := h.queue_to_done (hdone j) hne
  rw [Channels.queue, List.map_eq_nil_iff, List.filter_eq_nil_iff] at hqueue
  exact hqueue letter hletter (by simp [hsender, hreceiver])

end OnCourse

/-- In whatever order things happen, every party receives in its exchanges what it receives in the
joint execution; there are only so many events; and when nothing more can happen, all parties have
these results and nothing lies on the channels. -/
def Settles (sessions : Fin n → Session α) (sent : List (Fin n → List Frame))
    (results : Fin n → α) : Prop :=
  ∀ events s, (start sessions).run events = some s →
    (∀ i, (s.posts i).rounds ≤ sent.length ∧ (s.posts i).session
      = (sessions i).after (repliesTo (i + 1) (sent.take (s.posts i).rounds)))
    ∧ events.length ≤ n * ((2 * (n - 1) + 1) * sent.length + 1)
    ∧ ((∀ e, s.step e = none) →
      (∀ i, (s.posts i).session = .finished (results i)) ∧ s.channels.waiting = [])

end Concourse

/-- Parties that would end together in lockstep settle, at whatever pace each of them goes. -/
theorem Joint.settles {sessions : Fin n → Session α} {sent : List (Fin n → List Frame)}
    {results : Fin n → α} (h : Joint sessions sent results) (hfit : Fitting sent) :
    Concourse.Settles sessions sent results := by
  intro events s hrun
  obtain ⟨hcourse, htally⟩ := Concourse.onCourse_start.run h hfit hrun
  rw [Concourse.tally_start, Nat.zero_add] at htally
  refine ⟨fun i => ⟨(hcourse.post i).rounds_le, (hcourse.post i).session_eq⟩, ?_, fun hstuck => ?_⟩
  · have hbound := Finset.sum_le_card_nsmul Finset.univ (fun i => (s.posts i).tally) _
      fun i _ => (hcourse.post i).tally_le
    rw [Finset.card_univ, Fintype.card_fin] at hbound
    rw [← htally]
    exact hbound
  · have hdone : ∀ i, (s.posts i).rounds = sent.length := fun i => by
      by_contra hne
      have hlt := Nat.lt_of_le_of_ne (hcourse.post i).rounds_le hne
      obtain ⟨e, he⟩ := hcourse.exists_step h hfit ⟨i, .inl hlt⟩
      exact he (hstuck e)
    exact ⟨fun i => hcourse.done h (hdone i), hcourse.waiting_eq_nil hdone⟩

end JointCircuit
