/-
JointCircuit.Proofs.Queues — channels as one queue for every pair of parties.

All letters that nobody has taken lie in one list. What the channels do
is better said pair by pair: `queue` is what a party has sent to another
and that one has not taken. §1 says what each operation does to the
queues and to nothing else.

Main statement (§2): `exchange_eq_ok` — an exchange that ends has taken
one message from every peer, in ascending order of the peers, and each
is the one that waited first.
-/
import JointCircuit.Transport.Channels
import JointCircuit.Proofs.Steps

namespace JointCircuit

/-! Erasing the first element that a search finds. -/

theorem filter_erase_of_find? {α : Type} [DecidableEq α] {xs : List α} {p : α → Bool} {a : α}
    (h : xs.find? p = some a) : (xs.erase a).filter p = (xs.filter p).tail := by
  induction xs with
  | nil => cases h
  | cons x xs ih =>
    by_cases hx : p x
    · rw [List.find?_cons_of_pos hx] at h
      cases h
      rw [List.erase_cons_head, List.filter_cons_of_pos hx, List.tail_cons]
    · rw [List.find?_cons_of_neg hx] at h
      have hne : x ≠ a := fun heq => hx (heq ▸ List.find?_some h)
      rw [List.erase_cons_tail (by simpa using hne), List.filter_cons_of_neg hx,
        List.filter_cons_of_neg hx, ih h]

theorem filter_erase_of_not {α : Type} [DecidableEq α] (xs : List α) {p : α → Bool} {a : α}
    (h : ¬ p a) : (xs.erase a).filter p = xs.filter p := by
  induction xs with
  | nil => rfl
  | cons x xs ih =>
    by_cases hxa : x = a
    · subst hxa
      rw [List.erase_cons_head, List.filter_cons_of_neg h]
    · rw [List.erase_cons_tail (by simpa using hxa), List.filter_cons, List.filter_cons, ih]

namespace Channels

/-! ## §1 Queues -/

/-- What a party has sent to another and that one has not taken, in the order of sending. -/
def queue (c : Channels) (sender receiver : Nat) : List Bytes :=
  (c.waiting.filter fun l => l.sender = sender ∧ l.receiver = receiver).map (·.message)

/-- There is a channel from a party to another. -/
def Linked (c : Channels) (party peer : Nat) : Prop :=
  peer ≠ 0 ∧ peer ≤ c.parties ∧ peer ≠ party

variable {c c' : Channels} {party peer sender receiver : Nat} {message : Bytes}

theorem ensureChannel_of_linked (h : c.Linked party peer) :
    ensureChannel party peer c = .ok () c := by
  obtain ⟨hzero, hparties, hne⟩ := h
  simp [ensureChannel, hzero, hne, Nat.not_lt.mpr hparties]

theorem ensureChannel_eq_ok {u : Unit} (h : ensureChannel party peer c = .ok u c') :
    c.Linked party peer ∧ c' = c := by
  unfold ensureChannel at h
  simp only [Action.bind_apply, Action.get_apply] at h
  split at h
  · cases h
  · rename_i hlink
    cases h
    exact ⟨⟨fun hz => hlink (.inl hz), Nat.not_lt.mp fun hp => hlink (.inr (.inl hp)),
      fun he => hlink (.inr (.inr he))⟩, rfl⟩

/-- The channels after a message was sent. -/
def sent (c : Channels) (sender receiver : Nat) (message : Bytes) : Channels :=
  { c with waiting := c.waiting ++ [⟨sender, receiver, message⟩] }

theorem queue_sent_self : (c.sent sender receiver message).queue sender receiver
    = c.queue sender receiver ++ [message] := by
  simp [queue, sent]

theorem queue_sent_of_ne {sender' receiver' : Nat}
    (h : ¬ (sender' = sender ∧ receiver' = receiver)) :
    (c.sent sender receiver message).queue sender' receiver' = c.queue sender' receiver' := by
  have hletter : ¬ (sender = sender' ∧ receiver = receiver') := fun ⟨hs, hr⟩ =>
    h ⟨hs.symm, hr.symm⟩
  simp [queue, sent, hletter]

theorem send_of_open (hlink : c.Linked party peer) (hopen : peer ∉ c.closed) :
    send party peer message c = .ok () (c.sent party peer message) := by
  simp [send, ensureChannel_of_linked hlink, hopen, sent]

theorem send_eq_ok {u : Unit} (h : send party peer message c = .ok u c') :
    c' = c.sent party peer message := by
  unfold send at h
  obtain ⟨_, c₁, hlink, h⟩ := Action.bind_eq_ok.mp h
  obtain ⟨-, hc₁⟩ := ensureChannel_eq_ok hlink
  rw [hc₁] at h
  by_cases hclosed : peer ∈ c.closed
  · simp [hclosed] at h
  · simp only [Action.bind_apply, Action.get_apply, if_neg hclosed, Action.set_apply,
      EStateM.Result.ok.injEq, true_and] at h
    exact h.symm

/-- Taking the first message of one queue is all that happened. -/
structure Took (c c' : Channels) (sender receiver : Nat) (message : Bytes) : Prop where
  parties_eq : c'.parties = c.parties
  closed_eq : c'.closed = c.closed
  queue_eq : c.queue sender receiver = message :: c'.queue sender receiver
  other_eq : ∀ sender' receiver', ¬ (sender' = sender ∧ receiver' = receiver) →
    c'.queue sender' receiver' = c.queue sender' receiver'
  mem_of_mem : ∀ letter ∈ c'.waiting, letter ∈ c.waiting

/-- Erasing the first letter of a queue takes its message. -/
theorem took_of_find? {letter : Letter}
    (h : (c.waiting.find? fun l => l.sender = sender ∧ l.receiver = receiver) = some letter) :
    Took c { c with waiting := c.waiting.erase letter } sender receiver letter.message := by
  have hpair : letter.sender = sender ∧ letter.receiver = receiver := by
    simpa using List.find?_some h
  refine ⟨rfl, rfl, ?_, fun sender' receiver' hne => ?_, fun l => List.mem_of_mem_erase⟩
  · have hhead : (c.waiting.filter fun l => l.sender = sender ∧ l.receiver = receiver).head?
        = some letter := by
      rw [List.head?_filter]
      exact h
    simp only [queue, filter_erase_of_find? h]
    obtain ⟨rest, hrest⟩ := List.head?_eq_some_iff.mp hhead
    rw [hrest, List.map_cons, List.tail_cons]
  · have hother : ¬ (letter.sender = sender' ∧ letter.receiver = receiver') := fun ⟨hs, hr⟩ =>
      hne ⟨hs.symm.trans hpair.1, hr.symm.trans hpair.2⟩
    simp only [queue]
    rw [filter_erase_of_not _ (by simpa using hother)]

theorem find?_eq_none_iff :
    (c.waiting.find? fun l => l.sender = sender ∧ l.receiver = receiver) = none
      ↔ c.queue sender receiver = [] := by
  rw [queue, List.map_eq_nil_iff, ← List.head?_eq_none_iff, List.head?_filter]

/-- A message that waits is taken. -/
theorem receive?_of_cons {rest : List Bytes} (hlink : c.Linked party peer)
    (h : c.queue peer party = message :: rest) :
    ∃ c', receive? party peer c = .ok (some message) c' ∧ Took c c' peer party message := by
  cases hfind : c.waiting.find? fun l => l.sender = peer ∧ l.receiver = party with
  | none =>
    rw [find?_eq_none_iff.mp hfind] at h
    cases h
  | some letter =>
    have htook := took_of_find? hfind
    obtain rfl : letter.message = message := (List.cons.inj (htook.queue_eq.symm.trans h)).1
    refine ⟨_, ?_, htook⟩
    simp only [receive?, Action.bind_apply, ensureChannel_of_linked hlink, Action.get_apply, hfind,
      Action.set_apply, Action.pure_apply]

/-- As long as the peer may still send, an empty queue is no failure. -/
theorem receive?_of_nil (hlink : c.Linked party peer) (h : c.queue peer party = [])
    (hopen : peer ∉ c.closed) : receive? party peer c = .ok none c := by
  simp only [receive?, Action.bind_apply, ensureChannel_of_linked hlink, Action.get_apply,
    find?_eq_none_iff.mpr h, if_neg hopen, Action.pure_apply]

theorem receive?_eq_ok (h : receive? party peer c = .ok (some message) c') :
    Took c c' peer party message := by
  unfold receive? at h
  obtain ⟨_, c₁, hlink, h⟩ := Action.bind_eq_ok.mp h
  obtain ⟨-, hc₁⟩ := ensureChannel_eq_ok hlink
  rw [hc₁] at h
  simp only [Action.bind_apply, Action.get_apply] at h
  cases hfind : c.waiting.find? fun l => l.sender = peer ∧ l.receiver = party with
  | none =>
    rw [hfind] at h
    by_cases hclosed : peer ∈ c.closed <;> simp [hclosed] at h
  | some letter =>
    rw [hfind] at h
    cases h
    exact took_of_find? hfind

/-- The channels after a party has closed its ends. -/
def shut (c : Channels) (party : Nat) : Channels :=
  { c with
    closed := party :: c.closed
    waiting := c.waiting.filter (·.receiver ≠ party) }

theorem close_apply (c : Channels) (party : Nat) : close party c = .ok () (c.shut party) := rfl

theorem queue_shut_self : (c.shut party).queue sender party = [] := by
  simp only [queue, shut, List.filter_filter, List.map_eq_nil_iff, List.filter_eq_nil_iff]
  simp

theorem queue_shut_of_ne (h : receiver ≠ party) :
    (c.shut party).queue sender receiver = c.queue sender receiver := by
  simp only [queue, shut, List.filter_filter]
  congr 1
  refine List.filter_congr fun l _ => ?_
  by_cases hl : l.receiver = receiver
  · simp [hl, h]
  · simp [hl]

/-! ## §2 Exchanges -/

/-- An exchange passes over the party that makes it. -/
theorem exchangeFrom_cons_self {messages : List Bytes} (hreach : ¬ c.parties < party) :
    exchangeFrom party party (message :: messages) c
      = exchangeFrom party (party + 1) messages c := by
  rw [exchangeFrom]
  simp only [Action.bind_apply, Action.get_apply, if_neg hreach, if_true]

/-- With a peer it sends, takes the message that waits first, and goes on to the next peer. -/
theorem exchangeFrom_cons_eq_ok {messages : List Bytes} {received : List (Nat × Bytes)}
    (hreach : ¬ c.parties < peer) (hown : peer ≠ party)
    (h : exchangeFrom party peer (message :: messages) c = .ok (some received) c') :
    ∃ (first : Bytes) (others : List (Nat × Bytes)) (c₁ : Channels),
      Took (c.sent party peer message) c₁ peer party first
      ∧ exchangeFrom party (peer + 1) messages c₁ = .ok (some others) c'
      ∧ received = (peer, first) :: others := by
  rw [exchangeFrom] at h
  simp only [Action.bind_apply, Action.get_apply, if_neg hreach] at h
  rw [if_neg hown] at h
  obtain ⟨_, _, hsend, h⟩ := Action.bind_eq_ok.mp h
  obtain rfl := send_eq_ok hsend
  obtain ⟨first, c₁, hreceive, h⟩ := Action.bind_eq_ok.mp h
  obtain ⟨others, c₂, hothers, h⟩ := Action.bind_eq_ok.mp h
  obtain ⟨hreceived, rfl⟩ := Action.pure_eq_ok.mp h
  cases first with
  | none => cases hreceived
  | some first =>
    cases others with
    | none => cases hreceived
    | some others =>
      cases hreceived
      exact ⟨first, others, c₁, receive?_eq_ok hreceive, hothers, rfl⟩

/-- An exchange with the peers from `peer` on. The message from each was first in its queue. -/
theorem exchangeFrom_eq_ok {messages : List Bytes} {received : List (Nat × Bytes)}
    (hlength : messages.length + peer = c.parties + 1)
    (h : exchangeFrom party peer messages c = .ok (some received) c') :
    received.map (·.1) = (List.range' peer messages.length).filter (· ≠ party)
      ∧ ∀ entry ∈ received, (c.queue entry.1 party).head? = some entry.2 := by
  induction messages generalizing peer received c with
  | nil =>
    cases h
    simp
  | cons message messages ih =>
    rw [List.length_cons] at hlength
    have hreach : ¬ c.parties < peer := by omega
    have hlater : messages.length + (peer + 1) = c.parties + 1 := by omega
    rw [List.length_cons, List.range'_succ]
    by_cases hown : peer = party
    · subst hown
      rw [exchangeFrom_cons_self hreach] at h
      rw [List.filter_cons_of_neg (by simp)]
      exact ih hlater h
    · rw [List.filter_cons_of_pos (by simpa using hown)]
      obtain ⟨first, others, c₁, htook, hothers, rfl⟩ := exchangeFrom_cons_eq_ok hreach hown h
      obtain ⟨hpeers, hheads⟩ := ih (by rw [htook.parties_eq]; exact hlater) hothers
      refine ⟨congrArg (peer :: ·) hpeers, fun entry hentry => ?_⟩
      obtain rfl | hentry := List.mem_cons.mp hentry
      · have hqueue := htook.queue_eq
        rw [queue_sent_of_ne fun hpair => hown hpair.1] at hqueue
        rw [hqueue, List.head?_cons]
      · -- The queues of later peers are as they were before this one.
        have hbehind : peer + 1 ≤ entry.1 ∧ entry.1 ≠ party := by
          have hmem : entry.1 ∈ others.map (·.1) := List.mem_map_of_mem hentry
          rw [hpeers, List.mem_filter, List.mem_range'_1] at hmem
          exact ⟨hmem.1.1, by simpa using hmem.2⟩
        have hhead := hheads entry hentry
        rw [htook.other_eq _ _ fun hpair => by omega,
          queue_sent_of_ne fun hpair => hbehind.2 hpair.1] at hhead
        exact hhead

/-- An exchange that ends has one message from every peer, lowest party first, and each is the
one that waited first on its channel. -/
theorem exchange_eq_ok {messages : List Bytes} {received : List (Nat × Bytes)}
    (hlength : messages.length = c.parties)
    (h : exchange party messages c = .ok (some received) c') :
    received.map (·.1) = (List.range' 1 c.parties).filter (· ≠ party)
      ∧ ∀ entry ∈ received, (c.queue entry.1 party).head? = some entry.2 := by
  rw [← hlength]
  exact exchangeFrom_eq_ok (by omega) h

end Channels

end JointCircuit
