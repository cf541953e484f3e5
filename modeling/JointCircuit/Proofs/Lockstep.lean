/-
JointCircuit.Proofs.Lockstep — sessions over a transport that delivers.

`Joint sessions sent results` says that the sessions of `n` parties,
run against each other, exchange the frames `sent`, lose none of them,
and end together with these results. It is stated for any number of
parties at once, so that a claim about all of them is proved by one
symbolic execution; `Joint.bind` composes two such executions.

Main statement: `runHonest_eq_of_joint` — the lockstep transport does
exactly this whenever every frame fits a record.
-/
import JointCircuit.Lockstep
import JointCircuit.Proofs.Peers
import Mathlib.Algebra.GroupWithZero.Nat
import Mathlib.Data.List.Basic

namespace JointCircuit

open Lockstep

variable {α β : Type} {n : Nat}

/-- The sessions end together with these results, after exchanges in which every party received
every frame that its peers sent to it. -/
inductive Joint : (Fin n → Session α) → (sent : List (Fin n → List Frame)) → (Fin n → α) → Prop
  | finished (results : Fin n → α) : Joint (fun i => .finished (results i)) [] results
  | exchange (frames : Fin n → List Frame)
      (resume : Fin n → Except TransportError Delivery → Session α)
      {sent : List (Fin n → List Frame)} {results : Fin n → α}
      (rest :
        Joint (fun i => resume i (.ok (deliveryTo (i + 1) (List.ofFn frames)))) sent results) :
      Joint (fun i => .exchange (frames i) (resume i)) (frames :: sent) results

namespace Joint

/-- One joint execution after another. -/
theorem bind {sessions : Fin n → Session α} {sent : List (Fin n → List Frame)} {results : Fin n → α}
    (h : Joint sessions sent results) {next : Fin n → α → Session β}
    {sent' : List (Fin n → List Frame)} {results' : Fin n → β}
    (h' : Joint (fun i => next i (results i)) sent' results') :
    Joint (fun i => sessions i >>= next i) (sent ++ sent') results' := by
  induction h with
  | finished results => exact h'
  | exchange frames resume rest ih => exact .exchange frames _ (ih h')

/-- Ended sessions stay as they are. -/
theorem of_finished {sessions : Fin n → Session α} {results : Fin n → α}
    (h : ∀ i, sessions i = .finished (results i)) : Joint sessions [] results := by
  rw [funext h]
  exact .finished results

theorem congr {sessions sessions' : Fin n → Session α} {sent : List (Fin n → List Frame)}
    {results : Fin n → α} (h : Joint sessions sent results)
    (hs : ∀ i, sessions' i = sessions i) : Joint sessions' sent results := by
  rw [funext hs]
  exact h

theorem congr_results {sessions : Fin n → Session α} {sent : List (Fin n → List Frame)}
    {results results' : Fin n → α} (h : Joint sessions sent results)
    (hr : ∀ i, results i = results' i) : Joint sessions sent results' := by
  rw [← funext hr]
  exact h

/-- Sessions that end together do so in one way, if there are any. -/
theorem unique [NeZero n] {sessions : Fin n → Session α} {sent sent' : List (Fin n → List Frame)}
    {results results' : Fin n → α} (h : Joint sessions sent results)
    (h' : Joint sessions sent' results') : sent' = sent ∧ results' = results := by
  induction h generalizing sent' with
  | finished results =>
    generalize hs : (fun i => Session.finished (results i)) = sessions at h'
    cases h' with
    | finished results' =>
      refine ⟨rfl, funext fun i => ?_⟩
      exact (Session.finished.inj (congrFun hs i)).symm
    | exchange frames resume rest => cases congrFun hs 0
  | exchange frames resume rest ih =>
    generalize hs : (fun i => Session.exchange (frames i) (resume i)) = sessions at h'
    cases h' with
    | finished results' => cases congrFun hs 0
    | exchange frames' resume' rest' =>
      obtain rfl : frames' = frames :=
        funext fun i => (Session.exchange.inj (congrFun hs i)).1.symm
      obtain rfl : resume' = resume :=
        funext fun i => (Session.exchange.inj (congrFun hs i)).2.symm
      obtain ⟨rfl, rfl⟩ := ih rest'
      exact ⟨rfl, rfl⟩

/-- How a session ends depends on what is sent, but on no other session. -/
theorem result_eq {sessions sessions' : Fin n → Session α} {sent : List (Fin n → List Frame)}
    {results results' : Fin n → α} (h : Joint sessions sent results)
    (h' : Joint sessions' sent results') {j : Fin n} (hj : sessions' j = sessions j) :
    results' j = results j := by
  induction h generalizing sessions' with
  | finished results =>
    cases h'
    exact Session.finished.inj hj
  | exchange frames resume rest ih =>
    cases h' with
    | exchange _ resume' rest' =>
      refine ih rest' ?_
      rw [(Session.exchange.inj hj).2]

/-- A joint execution of sequences begins with one of their first parts. -/
theorem split [NeZero n] {sessions : Fin n → Session α} {next : Fin n → α → Session β}
    {sent sent' : List (Fin n → List Frame)} {results : Fin n → α} {results' : Fin n → β}
    (h : Joint sessions sent results) (h' : Joint (fun i => sessions i >>= next i) sent' results') :
    ∃ rest, sent' = sent ++ rest ∧ Joint (fun i => next i (results i)) rest results' := by
  induction h generalizing sent' with
  | finished results => exact ⟨sent', rfl, h'⟩
  | exchange frames resume rest ih =>
    generalize hs : (fun i => (.exchange (frames i) (resume i) : Session α) >>= next i)
      = sessions at h'
    cases h' with
    | finished results' => cases congrFun hs 0
    | exchange frames' resume' rest' =>
      obtain rfl : frames' = frames :=
        funext fun i => (Session.exchange.inj (congrFun hs i)).1.symm
      obtain rfl : resume' = fun i received => resume i received >>= next i :=
        funext fun i => (Session.exchange.inj (congrFun hs i)).2.symm
      obtain ⟨later, rfl, hlater⟩ := ih rest'
      exact ⟨later, rfl, hlater⟩

/-- What is made of the results of a joint execution. -/
theorem map {sessions : Fin n → Session α} {sent : List (Fin n → List Frame)} {results : Fin n → α}
    (h : Joint sessions sent results) (f : Fin n → α → β) :
    Joint (fun i => f i <$> sessions i) sent fun i => f i (results i) := by
  induction h with
  | finished results => exact .finished _
  | exchange frames resume rest ih => exact .exchange frames _ ih

/-- Sessions of whose results something is made are executed together by themselves. -/
theorem of_map {sessions : Fin n → Session α} {f : Fin n → α → β}
    {sent : List (Fin n → List Frame)} {results : Fin n → β}
    (h : Joint (fun i => f i <$> sessions i) sent results) :
    ∃ results', Joint sessions sent results' ∧ ∀ i, results i = f i (results' i) := by
  generalize hs : (fun i => f i <$> sessions i) = mapped at h
  induction h generalizing sessions with
  | finished results =>
    have hone : ∀ i, ∃ a, sessions i = .finished a ∧ results i = f i a := by
      intro i
      have hi := congrFun hs i
      cases hsession : sessions i with
      | finished a =>
        rw [hsession] at hi
        exact ⟨a, rfl, (Session.finished.inj hi).symm⟩
      | exchange frames resume =>
        rw [hsession] at hi
        cases hi
    choose results' hsessions hresults using hone
    exact ⟨results', .of_finished hsessions, hresults⟩
  | exchange frames resume rest ih =>
    have hone : ∀ i, ∃ resume', sessions i = .exchange (frames i) resume'
        ∧ resume i = fun received => f i <$> resume' received := by
      intro i
      have hi := congrFun hs i
      cases hsession : sessions i with
      | finished a =>
        rw [hsession] at hi
        cases hi
      | exchange frames' resume' =>
        rw [hsession] at hi
        obtain ⟨hframes, hresume⟩ := Session.exchange.inj hi
        exact ⟨resume', by rw [hframes], hresume.symm⟩
    choose resume' hsessions hresume using hone
    obtain ⟨results', hjoint, hresults⟩ := @ih (fun i => resume' i _)
      (funext fun i => (congrFun (hresume i) _).symm)
    exact ⟨results', (Joint.exchange frames resume' hjoint).congr hsessions, hresults⟩

end Joint

namespace Lockstep

/-! ## §1 A round of the transport -/

theorem oversized?_eq_none {sender : Nat} {frames : List Frame}
    (h : ∀ frame ∈ frames, (Frame.put? frame).isSome) : oversized? sender frames = none := by
  rw [oversized?, Option.map_eq_none_iff, List.find?_eq_none]
  rintro ⟨frame, receiver⟩ hmem
  have hframe := h frame (List.fst_mem_of_mem_zipIdx hmem)
  simp only [Bool.and_eq_true, not_and]
  intro _
  cases hput : Frame.put? frame with
  | none => simp [hput] at hframe
  | some bytes => simp

/-- Frames that fit their records reach their receivers. -/
theorem receptions_ofFn {frames : Fin n → List Frame}
    (h : ∀ i, ∀ frame ∈ frames i, (Frame.put? frame).isSome) :
    receptions (List.ofFn frames)
      = List.ofFn fun i : Fin n => .ok (deliveryTo (i + 1) (List.ofFn frames)) := by
  rw [receptions, List.findSome?_eq_none_iff.mpr]
  · refine List.ext_getElem (by simp) fun k _ _ => ?_
    simp only [List.getElem_map, List.getElem_range, List.getElem_ofFn]
  · rintro ⟨fs, sender⟩ hmem
    obtain ⟨i, rfl⟩ := List.mem_ofFn.mp (List.fst_mem_of_mem_zipIdx hmem)
    simp only [oversized?_eq_none (h i), Option.map_none]

/-- What a party receives from its peers, lowest party first. -/
theorem deliveryTo_ofFn (i : Fin n) (frames : Fin n → List Frame) :
    deliveryTo (i + 1) (List.ofFn frames)
      = ((List.finRange n).filter (· ≠ i)).map fun j => (j.val + 1, (frames j).getD i []) := by
  have hzip : (List.ofFn frames).zipIdx 1
      = (List.finRange n).map fun j => (frames j, j.val + 1) := by
    refine List.ext_getElem (by simp) fun k _ _ => ?_
    simp [Nat.add_comm]
  unfold deliveryTo
  rw [hzip, List.filterMap_map, ← List.filterMap_eq_map, List.filterMap_filter]
  refine List.filterMap_congr fun j _ => ?_
  by_cases hj : j = i
  · simp [hj]
  · have : j.val ≠ i.val := fun h => hj (Fin.ext h)
    simp [hj, this]

/-! ## §2 Whole runs -/

theorem mapM_waiting_ofFn (frames : Fin n → List Frame)
    (resume : Fin n → Except TransportError Delivery → Session α) :
    (List.ofFn fun i => Session.exchange (frames i) (resume i)).mapM waiting?
      = some (List.ofFn fun i => (frames i, resume i)) := by
  induction n with
  | zero => rfl
  | succ n ih =>
    rw [List.ofFn_succ, List.ofFn_succ, List.mapM_cons, ih (fun i => frames i.succ)]
    rfl

theorem zipWith_ofFn {γ δ ε : Type} (f : γ → δ → ε) (g : Fin n → γ) (h : Fin n → δ) :
    List.zipWith f (List.ofFn g) (List.ofFn h) = List.ofFn fun i => f (g i) (h i) := by
  refine List.ext_getElem (by simp) fun k _ _ => ?_
  simp

theorem map_zipIdx_fst {γ : Type} (xs : List γ) (k : Nat) :
    (xs.zipIdx k).map (fun (x, _) => x) = xs := by
  simp

/-- An exchange of all parties, and what comes after it. -/
theorem runFrom_exchange {n : Nat} (frames : Fin (n + 1) → List Frame)
    (resume : Fin (n + 1) → Except TransportError Delivery → Session α)
    {received : Fin (n + 1) → Except TransportError Delivery}
    (hround : receptions (List.ofFn frames) = List.ofFn received) (k : Nat) :
    runFrom (fun _ _ frames => frames) k (.exchange (frames 0) (resume 0))
        (List.ofFn fun i : Fin n => .exchange (frames i.succ) (resume i.succ))
      = record (List.ofFn frames) (runFrom (fun _ _ frames => frames) (k + 1)
          (resume 0 (received 0))
          (List.ofFn fun i : Fin n => resume i.succ (received i.succ))) := by
  have hsent : frames 0 :: (List.ofFn fun i : Fin n =>
      (frames i.succ, resume i.succ)).map (·.1) = List.ofFn frames := by
    rw [List.map_ofFn, List.ofFn_succ]
    rfl
  rw [runFrom, mapM_waiting_ofFn]
  simp only
  rw [map_zipIdx_fst, hsent, hround, List.ofFn_succ]
  simp only
  rw [zipWith_ofFn]

/-- The transport of unaltered frames runs sessions as `Joint` says. -/
theorem runFrom_eq_of_joint {n : Nat} {sessions : Fin (n + 1) → Session α}
    {sent : List (Fin (n + 1) → List Frame)} {results : Fin (n + 1) → α}
    (h : Joint sessions sent results)
    (hfit : ∀ frames ∈ sent, ∀ i, ∀ frame ∈ frames i, (Frame.put? frame).isSome) (k : Nat) :
    runFrom (fun _ _ frames => frames) k (sessions 0) (List.ofFn fun i : Fin n => sessions i.succ)
      = List.ofFn fun i => ⟨results i, sent.map (· i)⟩ := by
  induction h generalizing k with
  | finished results =>
    have hall : Session.finished (results 0)
          :: List.ofFn (fun i : Fin n => Session.finished (results i.succ))
        = List.ofFn fun i => Session.finished (results i) := by
      rw [List.ofFn_succ]
    unfold runFrom abandonAll
    rw [hall]
    refine List.ext_getElem (by simp) fun j _ _ => ?_
    simp only [List.getElem_map, List.getElem_zipIdx, List.getElem_ofFn, abandon, List.map_nil]
  | exchange frames resume rest ih =>
    rename_i sent results
    have hround := receptions_ofFn (hfit frames List.mem_cons_self)
    have hrest := ih (fun fs hfs => hfit fs (List.mem_cons_of_mem _ hfs)) (k + 1)
    rw [runFrom_exchange frames resume hround, hrest, record, zipWith_ofFn]
    rfl

/-- Parties whose frames all fit a record run over the lockstep transport as they would over
one that delivers every frame. -/
theorem runHonest_eq_of_joint {sessions : Fin n → Session α} {sent : List (Fin n → List Frame)}
    {results : Fin n → α} (h : Joint sessions sent results)
    (hfit : ∀ frames ∈ sent, ∀ i, ∀ frame ∈ frames i, (Frame.put? frame).isSome) :
    runHonest (List.ofFn sessions) = List.ofFn fun i => ⟨results i, sent.map (· i)⟩ := by
  cases n with
  | zero => simp [runHonest, run]
  | succ n =>
    rw [List.ofFn_succ]
    exact runFrom_eq_of_joint h hfit 0

end Lockstep

end JointCircuit
