/-
JointCircuit.Proofs.Wiring — whose channels lead to whom.

The channels in one process are made in pairs of ends: for every party
and every lower one a duplex is made, and each of the two gets an end, in
the place of the other. Places count from 0 here, as the loops do. The
table that comes of it is symmetric except for the ends, and its diagonal
stays empty.

Main statements: `wired_apply` — the table, place by place (§1);
`exists_connects` — the places of two parties for each other hold the two
ends of one duplex, no other place holds either, what one of the parties
writes to its end waits at the other, and `Channels` keeps exactly these
queues (§2).
-/
import JointCircuit.Proofs.Queues

namespace JointCircuit

/-! ## §1 The table -/

/-- An end of a duplex. The duplex is named by the parties that it was made for. -/
structure Plug where
  high : Nat
  low : Nat
  /-- Whether it is the end of the higher party. -/
  upper : Bool
deriving DecidableEq, Repr

/-- The other end of the duplex. -/
def Plug.other (plug : Plug) : Plug :=
  { plug with upper := !plug.upper }

/-- The ends that the parties hold, by party and peer. -/
abbrev Board := Nat → Nat → Option Plug

namespace Board

/-- Fill a place. -/
def insert (board : Board) (i j : Nat) (plug : Plug) : Board := fun i' j' =>
  if i' = i ∧ j' = j then some plug else board i' j'

/-- Make a duplex for a party and a lower one. -/
def connect (board : Board) (i j : Nat) : Board :=
  (board.insert i j ⟨i, j, true⟩).insert j i ⟨i, j, false⟩

/-- Connect a party with the first `count` parties. -/
def connectLower (board : Board) (i : Nat) : (count : Nat) → Board
  | 0 => board
  | j + 1 => (board.connectLower i j).connect i j

/-- The table of `n` parties. -/
def wired : (n : Nat) → Board
  | 0 => fun _ _ => none
  | i + 1 => (wired i).connectLower i i

theorem connectLower_apply (board : Board) {i count : Nat} (h : count ≤ i) (a b : Nat) :
    board.connectLower i count a b =
      if a = i ∧ b < count then some ⟨i, b, true⟩
      else if b = i ∧ a < count then some ⟨i, a, false⟩
      else board a b := by
  induction count with
  | zero => simp [connectLower]
  | succ j ih =>
    rw [connectLower, connect, insert, insert, ih (by omega)]
    by_cases hlower : a = j ∧ b = i
    · obtain ⟨rfl, rfl⟩ := hlower
      rw [if_pos ⟨rfl, rfl⟩, if_neg (by omega), if_pos ⟨rfl, by omega⟩]
    · rw [if_neg hlower]
      by_cases hupper : a = i ∧ b = j
      · obtain ⟨rfl, rfl⟩ := hupper
        rw [if_pos ⟨rfl, rfl⟩, if_pos ⟨rfl, by omega⟩]
      · have ha : (a = i ∧ b < j + 1) ↔ (a = i ∧ b < j) := by omega
        have hb : (b = i ∧ a < j + 1) ↔ (b = i ∧ a < j) := by omega
        simp only [if_neg hupper, ha, hb]

/-- The higher of two parties holds the upper end, and the lower one the other. -/
theorem wired_apply (n i j : Nat) :
    wired n i j =
      if j < i ∧ i < n then some ⟨i, j, true⟩
      else if i < j ∧ j < n then some ⟨j, i, false⟩
      else none := by
  induction n with
  | zero => simp [wired]
  | succ n ih =>
    rw [wired, connectLower_apply _ (Nat.le_refl n), ih]
    by_cases hi : i = n
    · subst hi
      by_cases hj : j < i
      · rw [if_pos ⟨rfl, hj⟩, if_pos ⟨hj, by omega⟩]
      · rw [if_neg (by omega), if_neg (by omega), if_neg (by omega), if_neg (by omega),
          if_neg (by omega), if_neg (by omega)]
    · by_cases hj : j = n
      · subst hj
        by_cases hij : i < j
        · rw [if_neg (by omega), if_pos ⟨rfl, hij⟩, if_neg (by omega), if_pos ⟨hij, by omega⟩]
        · rw [if_neg (by omega), if_neg (by omega), if_neg (by omega), if_neg (by omega),
            if_neg (by omega), if_neg (by omega)]
      · have hupper : (j < i ∧ i < n + 1) ↔ (j < i ∧ i < n) := by omega
        have hlower : (i < j ∧ j < n + 1) ↔ (i < j ∧ j < n) := by omega
        rw [if_neg (by omega), if_neg (by omega)]
        simp only [hupper, hlower]

variable {n : Nat}

/-- No party has a channel to itself. -/
theorem wired_self (n i : Nat) : wired n i i = none := by
  rw [wired_apply, if_neg (by omega), if_neg (by omega)]

/-- Two parties hold the two ends of one duplex for each other. -/
theorem wired_other {i j : Fin n} (h : i ≠ j) :
    ∃ plug, wired n i j = some plug ∧ wired n j i = some plug.other := by
  have hi := i.isLt
  have hj := j.isLt
  have hval : i.val ≠ j.val := fun hval => h (Fin.ext hval)
  obtain hlt | hlt := Nat.lt_or_gt_of_ne hval
  · refine ⟨⟨j, i, false⟩, ?_, ?_⟩
    · rw [wired_apply, if_neg (by omega), if_pos ⟨hlt, hj⟩]
    · rw [wired_apply, if_pos ⟨hlt, hj⟩]
      rfl
  · refine ⟨⟨i, j, true⟩, ?_, ?_⟩
    · rw [wired_apply, if_pos ⟨hlt, hi⟩]
    · rw [wired_apply, if_neg (by omega), if_pos ⟨hlt, hi⟩]
      rfl

theorem eq_of_wired {i j : Nat} {plug : Plug} (h : wired n i j = some plug) :
    plug = ⟨i, j, true⟩ ∨ plug = ⟨j, i, false⟩ := by
  rw [wired_apply] at h
  split_ifs at h
  · exact .inl (Option.some.inj h).symm
  · exact .inr (Option.some.inj h).symm

/-- Every end is held by one party, for one peer. -/
theorem wired_injective {i j i' j' : Nat} {plug : Plug} (h : wired n i j = some plug)
    (h' : wired n i' j' = some plug) : i' = i ∧ j' = j := by
  obtain rfl | rfl := eq_of_wired h <;> obtain heq | heq := eq_of_wired h' <;> cases heq <;>
    exact ⟨rfl, rfl⟩

end Board

/-! ## §2 Queues at the ends -/

namespace Channels

variable {n i j : Nat} {plug : Plug} {c c' : Channels} {message : Bytes}

/-- What waits at an end: it was written to the other one. -/
def arriving (c : Channels) (plug : Plug) : List Bytes :=
  if plug.upper then c.queue (plug.low + 1) (plug.high + 1)
  else c.queue (plug.high + 1) (plug.low + 1)

/-- At the end that a party holds for a peer waits what the peer sent to it. -/
theorem arriving_of_wired (h : Board.wired n i j = some plug) :
    c.arriving plug = c.queue (j + 1) (i + 1) := by
  obtain rfl | rfl := Board.eq_of_wired h <;> rfl

/-- At the other end waits what it sent to the peer. -/
theorem arriving_other_of_wired (h : Board.wired n i j = some plug) :
    c.arriving plug.other = c.queue (i + 1) (j + 1) := by
  obtain rfl | rfl := Board.eq_of_wired h <;> rfl

/-- Sending to a peer is writing to the end that is held for it: the message comes last at the
other end, and nothing changes at any other. -/
theorem arriving_of_send (h : Board.wired n i j = some plug)
    (hsend : send (i + 1) (j + 1) message c = .ok () c') :
    c'.arriving plug.other = c.arriving plug.other ++ [message]
    ∧ ∀ i' j' plug', Board.wired n i' j' = some plug' → ¬ (i' = j ∧ j' = i) →
      c'.arriving plug' = c.arriving plug' := by
  obtain rfl := send_eq_ok hsend
  refine ⟨?_, fun i' j' plug' h' hne => ?_⟩
  · rw [arriving_other_of_wired h, arriving_other_of_wired h, queue_sent_self]
  · rw [arriving_of_wired h', arriving_of_wired h', queue_sent_of_ne (by omega)]

/-- Taking from a peer is reading from the end that is held for it. -/
theorem arriving_of_receive (h : Board.wired n i j = some plug)
    (hreceive : receive? (i + 1) (j + 1) c = .ok (some message) c') :
    c.arriving plug = message :: c'.arriving plug
    ∧ ∀ i' j' plug', Board.wired n i' j' = some plug' → ¬ (i' = i ∧ j' = j) →
      c'.arriving plug' = c.arriving plug' := by
  have htook : Took c c' (j + 1) (i + 1) message := receive?_eq_ok hreceive
  refine ⟨?_, fun i' j' plug' h' hne => ?_⟩
  · rw [arriving_of_wired h, arriving_of_wired h, htook.queue_eq]
  · rw [arriving_of_wired h', arriving_of_wired h', htook.other_eq _ _ (by omega)]

end Channels

namespace Board

/-- What is true of the ends that two of `n` parties hold for each other. -/
structure Connects (n i j : Nat) (plug : Plug) : Prop where
  held : wired n i j = some plug
  /-- The peer holds the other end of the duplex, -/
  other : wired n j i = some plug.other
  /-- and nobody else holds this one. -/
  only : ∀ i' j', wired n i' j' = some plug → i' = i ∧ j' = j
  /-- What the party sends to the peer comes last at the other end, and at no other. -/
  sends : ∀ c c' message, Channels.send (i + 1) (j + 1) message c = .ok () c' →
    c'.arriving plug.other = c.arriving plug.other ++ [message]
    ∧ ∀ i' j' plug', wired n i' j' = some plug' → ¬ (i' = j ∧ j' = i) →
      c'.arriving plug' = c.arriving plug'
  /-- What it receives from the peer stood first at its own end, and the others stay as they are. -/
  receives : ∀ c c' message, Channels.receive? (i + 1) (j + 1) c = .ok (some message) c' →
    c.arriving plug = message :: c'.arriving plug
    ∧ ∀ i' j' plug', wired n i' j' = some plug' → ¬ (i' = i ∧ j' = j) →
      c'.arriving plug' = c.arriving plug'

/-- Any two parties are connected by a duplex of their own. -/
theorem exists_connects {n : Nat} {i j : Fin n} (h : i ≠ j) : ∃ plug, Connects n i j plug := by
  obtain ⟨plug, hplug, hother⟩ := wired_other h
  exact ⟨plug, hplug, hother, fun _ _ => wired_injective hplug,
    fun _ _ _ => Channels.arriving_of_send hplug, fun _ _ _ => Channels.arriving_of_receive hplug⟩

end Board

end JointCircuit
