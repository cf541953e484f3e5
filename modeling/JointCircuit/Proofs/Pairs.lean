/-
JointCircuit.Proofs.Pairs — the store of opened values is one list of pairs.

The store keeps shares and values in two lists. A push appends to both
before it looks at their lengths, and one that is refused is taken back
by cutting both lists to the length that one of them had. That undoes it
only if the other had the same length, so what carries the proof is that
every store that began empty holds the two halves of one list of pairs
(`StoreCall.perform_ofEntries` for one call, `StoreCall.foldl_perform`
for any number of them).

Main statement: `OpenedValues.one_list`.
-/
import JointCircuit.Proofs.Entries
import JointCircuit.Proofs.Conduct

namespace JointCircuit

open JointCircuit.Action

variable {m : Modulus}

/-! ## §1 One call -/

namespace OpenedValues

variable {entries : List (Entry m)} {shares : List (AuthShare m)} {values : List (Element m)}

/-- The two halves of a list of pairs take as many shares as values, in pairs. Any other push is
refused and leaves them as they were. -/
theorem push_ofEntries :
    push shares values (ofEntries entries)
      = if shares.length = values.length then .ok () (ofEntries (entries ++ shares.zip values))
        else .error (.protocol (.openingCounts shares.length values.length))
          (ofEntries entries) := by
  have hstep : (ofEntries entries).shares.length = (ofEntries entries).values.length := by
    rw [ofEntries, List.length_map, List.length_map]
  rw [push_of_paired hstep]
  split
  · rename_i h
    rw [extend_ofEntries h]
  · rfl

/-- Draining gives the two halves and leaves nothing. -/
theorem drain_ofEntries :
    drain (ofEntries entries) = .ok (entries.map (·.1), entries.map (·.2)) {} :=
  rfl

end OpenedValues

/-! ## §2 Any number of calls -/

/-- A call that changes a store. -/
inductive StoreCall (m : Modulus) where
  | push (shares : List (AuthShare m)) (values : List (Element m))
  | drain
deriving DecidableEq

namespace StoreCall

/-- The store after a call, whether or not the call succeeds. -/
def perform (s : OpenedValues m) : StoreCall m → OpenedValues m
  | .push shares values => endState (OpenedValues.push shares values s)
  | .drain => endState (OpenedValues.drain s)

/-- What the call does to a list of pairs. -/
def record (entries : List (Entry m)) : StoreCall m → List (Entry m)
  | .push shares values =>
    if shares.length = values.length then entries ++ shares.zip values else entries
  | .drain => []

theorem perform_ofEntries (entries : List (Entry m)) (call : StoreCall m) :
    perform (.ofEntries entries) call = .ofEntries (record entries call) := by
  cases call with
  | push shares values =>
    rw [perform, record, OpenedValues.push_ofEntries]
    split
    · rw [endState_ok]
    · rw [endState_error]
  | drain => rfl

theorem foldl_perform (entries : List (Entry m)) (calls : List (StoreCall m)) :
    calls.foldl perform (.ofEntries entries) = .ofEntries (calls.foldl record entries) := by
  induction calls generalizing entries with
  | nil => rfl
  | cons call calls ih => rw [List.foldl_cons, List.foldl_cons, perform_ofEntries, ih]

end StoreCall

/-! ## §3 The contract -/

namespace OpenedValues

/-- After any calls, successful or refused, a store that began empty is one list of pairs: its
shares and its values are the halves of the list, and what is asked of the store is answered as of
the list. Of the next call, a push of as many shares as values appends them in pairs, any other push
is a violation of the round contract and changes nothing, and a drain gives all pairs in the order
in which they were pushed and leaves nothing. -/
theorem one_list (calls : List (StoreCall m)) :
    let store := calls.foldl StoreCall.perform ({} : OpenedValues m)
    let entries := calls.foldl StoreCall.record []
    (store.shares = entries.map (·.1) ∧ store.values = entries.map (·.2))
      ∧ store.length = entries.length
      ∧ store.isEmpty = entries.isEmpty
      ∧ store.hasPending = !entries.isEmpty
      ∧ (∀ shares values, shares.length = values.length →
        push shares values store = .ok () (ofEntries (entries ++ shares.zip values)))
      ∧ (∀ shares values, shares.length ≠ values.length →
        push shares values store
          = .error (.protocol (.openingCounts shares.length values.length)) store)
      ∧ drain store = .ok (entries.map (·.1), entries.map (·.2)) {} := by
  intro store entries
  have hstore : store = ofEntries entries := StoreCall.foldl_perform [] calls
  rw [hstore]
  refine ⟨⟨rfl, rfl⟩, List.length_map _, ?_, ?_, fun shares values h => ?_,
    fun shares values h => ?_, drain_ofEntries⟩
  · rw [isEmpty, ofEntries, List.isEmpty_map]
  · rw [hasPending, ofEntries, List.isEmpty_map]
  · rw [push_ofEntries, if_pos h]
  · rw [push_ofEntries, if_neg h]

/-- Two shares with one value are refused between two pushes that are taken, and the drain pairs
every share with the value it came with. -/
example (a b c d : AuthShare .mersenne61) :
    let calls : List (StoreCall .mersenne61) := [.push [a] [1], .push [b, c] [2], .push [d] [4]]
    drain (calls.foldl StoreCall.perform {}) = .ok ([a, d], [1, 4]) {} :=
  rfl

end OpenedValues

end JointCircuit
