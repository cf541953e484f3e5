/-
JointCircuit.Proofs.Peers — mailboxes and turns, peer by peer.

A mailbox among `n` parties holds one queue in each direction for every
party, so it is a pair of functions on `Fin n` (`ofPeers`); peer `j`
stands for the party with id `j + 1`. §1 says what every mailbox
operation does to these functions.

`Turn` (§2) is what one party does in a round of a protocol: it takes
certain messages from the front of the queues and gives certain messages
to its peers, whatever else is queued. The remaining queues are a frame
that no turn depends on; this is why protocols that are evaluated one
after another in a round do not see each other's messages.
-/
import JointCircuit.Proofs.Steps
import Mathlib.Data.List.OfFn
import Mathlib.Logic.Function.Basic

namespace JointCircuit

namespace Mailbox

variable {n : Nat}

/-! ## §1 Mailboxes by peer -/

theorem set_ofFn {α : Type} (f : Fin n → α) (j : Fin n) (a : α) :
    (List.ofFn f).set j a = List.ofFn (Function.update f j a) := by
  refine List.ext_getElem (by simp) fun k h₁ h₂ => ?_
  have hk : k < n := by simpa using h₂
  rw [List.getElem_set, List.getElem_ofFn, List.getElem_ofFn]
  by_cases hjk : j.val = k
  · have : j = ⟨k, hk⟩ := Fin.ext hjk
    rw [if_pos hjk, ← this, Function.update_self]
  · have : (⟨k, hk⟩ : Fin n) ≠ j := fun h => hjk (by rw [← h])
    rw [if_neg hjk, Function.update_of_ne this]

theorem modify_ofFn {α : Type} (f : Fin n → α) (j : Fin n) (g : α → α) :
    (List.ofFn f).modify j g = List.ofFn (Function.update f j (g (f j))) := by
  refine List.ext_getElem (by simp) fun k h₁ h₂ => ?_
  have hk : k < n := by simpa using h₂
  rw [List.getElem_modify, List.getElem_ofFn, List.getElem_ofFn]
  by_cases hjk : j.val = k
  · have : j = ⟨k, hk⟩ := Fin.ext hjk
    rw [if_pos hjk, ← this, Function.update_self]
  · have : (⟨k, hk⟩ : Fin n) ≠ j := fun h => hjk (by rw [← h])
    rw [if_neg hjk, Function.update_of_ne this]

theorem getD_ofFn {α : Type} (f : Fin n → α) (j : Fin n) (d : α) :
    (List.ofFn f).getD j d = f j := by
  simp [List.getD_eq_getElem?_getD]

/-- The mailbox of a party with these queues, by peer. -/
def ofPeers (party : Nat) (outgoing incoming : Fin n → Frame) (bytesSent : Nat) : Mailbox :=
  { party, outgoing := List.ofFn outgoing, incoming := List.ofFn incoming, bytesSent }

variable {party bytes : Nat} {outgoing incoming : Fin n → Frame}

/-- The queues of a mailbox, by peer, are determined. -/
theorem ofPeers_inj {party' bytes' : Nat} {outgoing' incoming' : Fin n → Frame}
    (h : ofPeers party outgoing incoming bytes = ofPeers party' outgoing' incoming' bytes') :
    outgoing = outgoing' ∧ incoming = incoming' := by
  obtain ⟨-, hout, hin, -⟩ := Mailbox.mk.inj h
  exact ⟨List.ofFn_injective hout, List.ofFn_injective hin⟩

theorem parties_ofPeers : (ofPeers party outgoing incoming bytes).parties = n := by
  simp [ofPeers, parties]

theorem new_eq_ofPeers (party n : Nat) :
    new party n = ofPeers (n := n) party (fun _ => []) (fun _ => []) 0 := by
  simp [new, ofPeers]

@[simp] theorem sendToAll_ofPeers (message : Bytes) :
    sendToAll message (ofPeers party outgoing incoming bytes)
      = .ok () (ofPeers party (fun j => outgoing j ++ [message]) incoming bytes) := by
  simp [sendToAll, ofPeers, List.map_ofFn, Function.comp_def]

/-- Every peer has its queue. -/
theorem known_peer (queues : Fin n → Frame) (j : Fin n) :
    ¬ (j.val + 1 = 0 ∨ (List.ofFn queues).length < j.val + 1) := by
  rw [List.length_ofFn]
  omega

/-- Queueing a message for one peer. -/
theorem send_ofPeers (j : Fin n) (message : Bytes) :
    send (j + 1) message (ofPeers party outgoing incoming bytes)
      = .ok () (ofPeers party (Function.update outgoing j (outgoing j ++ [message])) incoming
          bytes) := by
  simp only [send, ofPeers, Action.bind_apply, Action.get_apply, if_neg (known_peer outgoing j),
    Action.set_apply, Nat.add_sub_cancel, modify_ofFn]

/-- Taking a message from a peer that has one. -/
theorem receive_ofPeers (j : Fin n) {message : Bytes} {rest : Frame}
    (h : incoming j = message :: rest) :
    receive (j + 1) (ofPeers party outgoing incoming bytes)
      = .ok message
        (ofPeers party outgoing (Function.update incoming j rest) bytes) := by
  simp only [receive, ofPeers, Action.bind_apply, Action.get_apply, if_neg (known_peer incoming j),
    Nat.add_sub_cancel, getD_ofFn, h, Action.set_apply, Action.pure_apply, set_ofFn]

/-- A message can only be taken from a queue that has one. -/
theorem receive_eq_ok {j : Fin n} {message : Bytes} {box : Mailbox}
    (h : receive (j + 1) (ofPeers party outgoing incoming bytes) = .ok message box) :
    ∃ rest, incoming j = message :: rest
      ∧ box = ofPeers party outgoing (Function.update incoming j rest) bytes := by
  cases hq : incoming j with
  | nil =>
    simp only [receive, ofPeers, Action.bind_apply, Action.get_apply,
      if_neg (known_peer incoming j), Nat.add_sub_cancel, getD_ofFn, hq, Action.throw_apply] at h
    cases h
  | cons head rest =>
    rw [receive_ofPeers j hq] at h
    cases h
    exact ⟨rest, rfl, rfl⟩

/-- The queues after one message was taken from each of the listed peers. -/
def takeEach (incoming : Fin n → Frame) (peers : List (Fin n)) : Fin n → Frame :=
  fun j => if j ∈ peers then (incoming j).tail else incoming j

theorem receiveFrom_ofPeers (messages : Fin n → Bytes) (peers : List (Fin n)) (hp : peers.Nodup)
    (h : ∀ j ∈ peers, ∃ rest, incoming j = messages j :: rest) :
    receiveFrom (peers.map (·.val + 1)) (ofPeers party outgoing incoming bytes)
      = .ok (peers.map messages) (ofPeers party outgoing (takeEach incoming peers) bytes) := by
  induction peers generalizing incoming with
  | nil =>
    have htake : takeEach incoming [] = incoming := by
      funext j
      simp [takeEach]
    simp [receiveFrom, htake]
  | cons j peers ih =>
    obtain ⟨hj, hp⟩ := List.nodup_cons.mp hp
    obtain ⟨rest, hrest⟩ := h j List.mem_cons_self
    have hqueues : ∀ k ∈ peers, Function.update incoming j rest k = incoming k :=
      fun k hk => Function.update_of_ne (ne_of_mem_of_not_mem hk hj) _ _
    have hnext := @ih (Function.update incoming j rest) hp fun k hk => by
      rw [hqueues k hk]
      exact h k (List.mem_cons_of_mem j hk)
    have htake : takeEach (Function.update incoming j rest) peers
        = takeEach incoming (j :: peers) := by
      funext k
      by_cases hk : k ∈ peers
      · simp [takeEach, hk, hqueues k hk]
      · by_cases hkj : k = j
        · subst hkj
          simp [takeEach, hk, hrest]
        · simp [takeEach, hk, hkj]
    simp [receiveFrom, receive_ofPeers j hrest, hnext, htake]

/-- What a successful take from several peers found in their queues. -/
theorem receiveFrom_eq_ok {peers : List (Fin n)} (hp : peers.Nodup) {messages : List Bytes}
    {box : Mailbox}
    (h : receiveFrom (peers.map (·.val + 1)) (ofPeers party outgoing incoming bytes)
      = .ok messages box) :
    ∃ heads : Fin n → Bytes, ∀ j ∈ peers, ∃ rest, incoming j = heads j :: rest := by
  induction peers generalizing incoming messages box with
  | nil => exact ⟨fun _ => [], fun j hj => absurd hj (List.not_mem_nil)⟩
  | cons j peers ih =>
    obtain ⟨hj, hp⟩ := List.nodup_cons.mp hp
    simp only [List.map_cons, receiveFrom, Action.bind_eq_ok] at h
    obtain ⟨head, _, hhead, others, _, hothers, -⟩ := h
    obtain ⟨rest, hrest, rfl⟩ := receive_eq_ok hhead
    obtain ⟨heads, hheads⟩ := ih hp hothers
    refine ⟨Function.update heads j head, fun k hk => ?_⟩
    by_cases hkj : k = j
    · subst hkj
      exact ⟨rest, by rw [hrest, Function.update_self]⟩
    · have hk' : k ∈ peers := (List.mem_cons.mp hk).resolve_left hkj
      obtain ⟨rest', hrest'⟩ := hheads k hk'
      rw [Function.update_of_ne hkj] at hrest'
      exact ⟨rest', by rw [hrest', Function.update_of_ne hkj]⟩

theorem map_succ_finRange (n : Nat) :
    (List.finRange n).map (·.val + 1) = (List.range n).map (· + 1) := by
  refine List.ext_getElem (by simp) fun k _ _ => ?_
  simp

/-- Taking one message from every peer. -/
@[simp] theorem receiveFromAll_ofPeers (messages : Fin n → Bytes) (rest : Fin n → Frame) :
    receiveFromAll (ofPeers party outgoing (fun j => messages j :: rest j) bytes)
      = .ok (List.ofFn messages) (ofPeers party outgoing rest bytes) := by
  have h := @receiveFrom_ofPeers n party bytes outgoing (fun j => messages j :: rest j) messages
    (List.finRange n) (List.nodup_finRange n) fun j _ => ⟨rest j, rfl⟩
  have htake : takeEach (fun j => messages j :: rest j) (List.finRange n) = rest := by
    funext j
    simp [takeEach]
  have hmessages : (List.finRange n).map messages = List.ofFn messages := by
    refine List.ext_getElem (by simp) fun k _ _ => ?_
    simp
  rw [map_succ_finRange, htake, hmessages] at h
  simp only [receiveFromAll, Action.bind_apply, Action.get_apply, parties_ofPeers]
  exact h

/-- A message was taken from every peer only if every queue had one. -/
theorem receiveFromAll_eq_ok {messages : List Bytes} {box : Mailbox}
    (h : receiveFromAll (ofPeers party outgoing incoming bytes) = .ok messages box) :
    ∃ heads : Fin n → Bytes, ∃ rest : Fin n → Frame, (∀ j, incoming j = heads j :: rest j)
      ∧ messages = List.ofFn heads ∧ box = ofPeers party outgoing rest bytes := by
  have h' := h
  simp only [receiveFromAll, Action.bind_apply, Action.get_apply, parties_ofPeers] at h'
  rw [← map_succ_finRange] at h'
  obtain ⟨heads, hheads⟩ := receiveFrom_eq_ok (List.nodup_finRange n) h'
  have hsplit : incoming = fun j => heads j :: (incoming j).tail := by
    funext j
    obtain ⟨rest, hrest⟩ := hheads j (List.mem_finRange j)
    rw [hrest, List.tail_cons]
  rw [hsplit, receiveFromAll_ofPeers] at h
  cases h
  exact ⟨heads, fun j => (incoming j).tail, fun j => congrFun hsplit j, rfl, rfl⟩

theorem leftover?_ofPeers_nil :
    (ofPeers party outgoing (fun _ : Fin n => []) bytes).leftover? = none := by
  simp [leftover?, ofPeers]

theorem ensureDrained_ofPeers_nil :
    ensureDrained (ofPeers party outgoing (fun _ : Fin n => []) bytes)
      = .ok () (ofPeers party outgoing (fun _ => []) bytes) := by
  simp [ensureDrained, leftover?_ofPeers_nil]

/-- Only a mailbox without received messages counts as drained. -/
theorem ensureDrained_eq_ok {box : Mailbox}
    (h : ensureDrained (ofPeers party outgoing incoming bytes) = .ok () box) :
    incoming = (fun _ => []) ∧ box = ofPeers party outgoing incoming bytes := by
  simp only [ensureDrained, Action.bind_apply, Action.get_apply] at h
  cases hl : (ofPeers party outgoing incoming bytes).leftover? with
  | some violation => simp [hl] at h
  | none =>
    simp only [hl, Action.pure_apply, EStateM.Result.ok.injEq, true_and] at h
    refine ⟨?_, h.symm⟩
    unfold leftover? at hl
    cases hi : (ofPeers party outgoing incoming bytes).incoming.findIdx? (!·.isEmpty) with
    | some i => simp [hi] at hl
    | none =>
      rw [List.findIdx?_eq_none_iff] at hi
      funext j
      have := hi (incoming j) (by simp [ofPeers])
      simpa using this

theorem hasOutgoing_ofPeers_nil :
    (ofPeers party (fun _ : Fin n => []) incoming bytes).hasOutgoing = false := by
  simp [hasOutgoing, ofPeers]

/-- Handing out the queued frames: the own one is looped back, the others are counted. -/
theorem takeOutgoing_ofPeers (i : Fin n) :
    takeOutgoing (ofPeers (i + 1) outgoing (fun _ => []) bytes)
      = .ok (List.ofFn (Function.update outgoing i []))
        (ofPeers (i + 1) (fun _ => []) (Function.update (fun _ => []) i (outgoing i))
          (bytes + (List.ofFn (Function.update outgoing i [])).flatten.flatten.length)) := by
  have hget : (List.ofFn outgoing).getD i.val [] = outgoing i := by
    simp [List.getD_eq_getElem?_getD]
  have hset : (List.ofFn outgoing).set i.val [] = List.ofFn (Function.update outgoing i []) :=
    set_ofFn outgoing i []
  have hloop : (List.ofFn fun _ : Fin n => ([] : Frame)).modify i.val (· ++ outgoing i)
      = List.ofFn (Function.update (fun _ => []) i (outgoing i)) :=
    modify_ofFn _ i _
  simp only [takeOutgoing, Action.bind_apply, ensureDrained_ofPeers_nil, Action.get_apply,
    Action.set_apply, Action.pure_apply, parties_ofPeers]
  simp only [ofPeers, Nat.add_sub_cancel, hget, hset, hloop]
  rw [List.ofFn_const]

/-- Frames of distinct peers join their queues. -/
theorem deliver_ofPeers (frames : Fin n → Frame) (peers : List (Fin n)) (hp : peers.Nodup) :
    deliver (peers.map fun j => (j.val + 1, frames j)) (ofPeers party outgoing incoming bytes)
      = .ok () (ofPeers party outgoing
        (fun j => if j ∈ peers then incoming j ++ frames j else incoming j) bytes) := by
  induction peers generalizing incoming with
  | nil => simp [deliver]
  | cons j peers ih =>
    obtain ⟨hj, hp⟩ := List.nodup_cons.mp hp
    have hrange : ¬ n < j.val + 1 := by have := j.isLt; omega
    have hmodify : (List.ofFn incoming).modify j.val (· ++ frames j)
        = List.ofFn (Function.update incoming j (incoming j ++ frames j)) :=
      modify_ofFn _ j _
    have hnext := @ih (Function.update incoming j (incoming j ++ frames j)) hp
    have hqueues : (fun k => if k ∈ peers
          then Function.update incoming j (incoming j ++ frames j) k ++ frames k
          else Function.update incoming j (incoming j ++ frames j) k)
        = fun k => if k ∈ j :: peers then incoming k ++ frames k else incoming k := by
      funext k
      by_cases hkj : k = j
      · subst hkj
        simp [hj]
      · simp [hkj]
    rw [hqueues] at hnext
    simp only [List.map_cons, deliver, Action.bind_apply, Action.get_apply]
    simp only [ofPeers, List.length_ofFn, Nat.add_eq_zero_iff, Nat.one_ne_zero, and_false,
      false_or, hrange, if_false, Nat.add_sub_cancel, hmodify]
    exact hnext

end Mailbox

/-! ## §2 Turns -/

/-- Evaluating `act` in the state `p` with `pool` takes exactly `takes` from the front of the
queues, gives exactly `gives` to the peers, and ends as the answer says, whoever else has
messages queued. -/
def Turn {m : Modulus} {π α : Type} {n : Nat} (act : Round m π α) (p : π) (pool : Pool m)
    (takes : Fin n → Frame) (answer : Except Fault α) (p' : π) (pool' : Pool m)
    (gives : Fin n → Frame) : Prop :=
  ∀ party outgoing rest bytes,
    act (p, ⟨pool, .ofPeers party outgoing (fun j => takes j ++ rest j) bytes⟩)
      = Action.outcome answer
        (p', ⟨pool', .ofPeers party (fun j => outgoing j ++ gives j) rest bytes⟩)

end JointCircuit
