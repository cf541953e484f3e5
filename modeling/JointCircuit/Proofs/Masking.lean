/-
JointCircuit.Proofs.Masking — gates that look alike from outside.

An input is sent less a mask and a factor less a part of a triple, so two
gates with different values send the same messages when their material
makes up for the difference. `Gate.Matches` says so of two new gates with
what they draw (§2), and `Gate.Alike` of two gates in flight (§1), which
may still differ in what nobody else sees: the share of a mask, and the
products that a triple is going to give.

Main statements: `Gate.Matches.step`, `Gate.Alike.step` — a round of two
such gates has the same outcome, does the same to the mailbox and to
everything in the pool but the supplier, and leaves gates that are alike.
-/
import JointCircuit.Proofs.Blindness
import JointCircuit.Proofs.Clock

namespace JointCircuit

variable {m : Modulus}

/-! ## §1 Gates in flight -/

/-- The gates send the same messages in later rounds, whatever they receive. -/
inductive Gate.Alike : Gate m → Gate m → Prop
  | same (g : Gate m) : Alike g g
  | input {p p' : Input m} (owner : p'.owner = p.owner) (digest : p'.digest = p.digest) :
      Alike (.input p) (.input p')
  | multiply {p p' : Multiply m} (count : p'.batch.pairs.length = p.batch.pairs.length)
      (masked : p'.batch.maskedOperands = p.batch.maskedOperands) :
      Alike (.multiply p) (.multiply p')
  | multiplyBatch {p p' : MultiplyBatch m} (count : p'.pairs.length = p.pairs.length)
      (masked : p'.maskedOperands = p.maskedOperands) :
      Alike (.multiplyBatch p) (.multiplyBatch p')

section

variable {round : Nat} {w w₁ w₂ : Participant m} {status status' : Status}

namespace Input

variable {p p' q q' : Input m}

/-- After its first round an input does not show its mask. -/
theorem alike_step (owner : p'.owner = p.owner) (digest : p'.digest = p.digest)
    (h : evaluate (round + 1) (p, w) = .ok status (q, w₁))
    (h' : evaluate (round + 1) (p', w) = .ok status' (q', w₂)) :
    status' = status ∧ w₂ = w₁ ∧ q'.owner = q.owner ∧ q'.digest = q.digest := by
  cases branch h with
  | digest receives decodes needs =>
    cases branch h' with
    | digest receives' =>
      rw [owner] at receives'
      cases receives.symm.trans receives'
      exact ⟨rfl, rfl, owner, rfl⟩
    | receive _ _ needs' => cases needs.symm.trans needs'
  | receive receives decodes needs =>
    cases branch h' with
    | digest _ _ needs' => cases needs.symm.trans needs'
    | receive receives' =>
      rw [owner] at receives'
      cases receives.symm.trans receives'
      exact ⟨rfl, rfl, owner, digest⟩
  | compare receives =>
    cases branch h' with
    | compare receives' =>
      cases receives.symm.trans receives'
      exact ⟨rfl, rfl, owner, digest⟩

end Input

namespace MultiplyBatch

variable {p p' q q' : MultiplyBatch m}

theorem status_of_succ (h : evaluate (round + 1) (p, w) = .ok status (q, w₁)) : status = .done := by
  rw [status_eq h]
  exact Status.before_of_le (by split <;> omega)

/-- After its first round a batch shows nothing of its pairs but the masked operands. -/
theorem alike_step (count : p'.pairs.length = p.pairs.length)
    (masked : p'.maskedOperands = p.maskedOperands)
    (h : evaluate (round + 1) (p, w) = .ok status (q, w₁))
    (h' : evaluate (round + 1) (p', w) = .ok status' (q', w₂)) : status' = status ∧ w₂ = w₁ := by
  have hempty : p'.pairs = [] ↔ p.pairs = [] := by
    rw [← List.length_eq_zero_iff, count, List.length_eq_zero_iff]
  cases branch h with
  | empty no_pairs =>
    cases branch h' with
    | empty => exact ⟨rfl, rfl⟩
    | finish has_pairs => exact absurd (hempty.mpr no_pairs) has_pairs
  | finish has_pairs receives opens records =>
    cases branch h' with
    | empty no_pairs => exact absurd (hempty.mp no_pairs) has_pairs
    | finish has_pairs' receives' opens' records' =>
      cases receives.symm.trans receives'
      rw [count] at opens'
      cases opens.symm.trans opens'
      rw [masked] at records'
      cases records.symm.trans records'
      exact ⟨rfl, rfl⟩

end MultiplyBatch

namespace Gate

/-- A round of two gates that are alike. -/
theorem Alike.step {g g' q q' : Gate m} (alike : g.Alike g') {supplier : Supplier m}
    (h : evaluate (round + 1) (g, w) = .ok status (q, w₁))
    (h' : evaluate (round + 1) (g', w.supplied supplier) = .ok status' (q', w₂)) :
    status' = status ∧ w₂ = w₁.supplied supplier ∧ (status = .more → q.Alike q') := by
  rw [Gate.blind round supplier (g', w)] at h'
  cases hround : evaluate (round + 1) (g', w) with
  | error fault s =>
    rw [hround] at h'
    cases h'
  | ok answer s =>
    obtain ⟨q₁, w₃⟩ := s
    rw [hround] at h'
    cases h'
    cases alike with
    | same =>
      rw [h] at hround
      cases hround
      exact ⟨rfl, rfl, fun _ => .same _⟩
    | input owner digest =>
      cases branch h with
      | input act =>
        cases branch hround with
        | input act' =>
          obtain ⟨rfl, rfl, howner, hdigest⟩ := Input.alike_step owner digest act act'
          exact ⟨rfl, rfl, fun _ => .input howner hdigest⟩
    | multiply count masked =>
      cases branch h with
      | multiply act =>
        cases branch hround with
        | multiply act' =>
          have hbatch := Multiply.evaluate_eq_ok.mp act
          obtain ⟨rfl, rfl⟩ :=
            MultiplyBatch.alike_step count masked hbatch (Multiply.evaluate_eq_ok.mp act')
          have hdone := MultiplyBatch.status_of_succ hbatch
          exact ⟨rfl, rfl, fun hmore => nomatch hdone.symm.trans hmore⟩
    | multiplyBatch count masked =>
      cases branch h with
      | multiplyBatch act =>
        cases branch hround with
        | multiplyBatch act' =>
          obtain ⟨rfl, rfl⟩ := MultiplyBatch.alike_step count masked act act'
          have hdone := MultiplyBatch.status_of_succ act
          exact ⟨rfl, rfl, fun hmore => nomatch hdone.symm.trans hmore⟩

end Gate

/-! ## §2 New gates -/

/-- The mailbox with this message queued for everyone. -/
def Participant.announcing (w : Participant m) (message : Bytes) : Participant m :=
  { w with mailbox := { w.mailbox with outgoing := w.mailbox.outgoing.map (· ++ [message]) } }

variable {left : Supplier m}

theorem Input.evaluate_own {x r : Element m} {part : AuthShare m}
    (h : Supplier.nextMask w.pool.party w.pool.supplier = .ok ⟨some r, part⟩ left) :
    evaluate 0 (.new w.pool.party (some x), w)
      = .ok .more ({ owner := w.pool.party, value := none, mask := some ⟨some r, part⟩ },
        (w.announcing (x - r).toBytes).supplied left) := by
  simp [evaluate, sendMasked, new, Pool.nextMask, Action.within, h, Mailbox.sendToAll,
    Participant.announcing, Participant.supplied, Pool.supplied]

theorem Input.evaluate_other {owner : Nat} {value : Option (Element m)} {mask : InputMask m}
    (hother : w.pool.party ≠ owner)
    (h : Supplier.nextMask owner w.pool.supplier = .ok mask left) :
    evaluate 0 (.new owner value, w)
      = .ok .more ({ owner, value, mask := some mask }, w.supplied left) := by
  simp [evaluate, sendMasked, new, Pool.nextMask, Action.within, h, hother, Participant.supplied,
    Pool.supplied]

theorem MultiplyBatch.evaluate_pairs {p : MultiplyBatch m} {triples : List (Triple m)}
    (hpairs : p.pairs ≠ [])
    (h : Supplier.nextTriples p.pairs.length w.pool.supplier = .ok triples left) :
    evaluate 0 (p, w)
      = .ok .more ({ p with triples },
        (w.announcing (Element.encodeAll (({ p with triples } : MultiplyBatch m).maskedOperands.map
          (·.share)))).supplied left) := by
  simp [evaluate, hpairs, Pool.nextTriples, Action.within, h, Mailbox.sendToAll,
    Participant.announcing, Participant.supplied, Pool.supplied]

/-- Two new gates of the party with what they draw: their first messages are the same. -/
inductive Gate.Matches (party : Nat) : Gate m → Drawn m → Gate m → Drawn m → Prop
  | same (g : Gate m) (drawn : Drawn m) : Matches party g drawn g drawn
  | linear (p p' : Linear m) : Matches party (.linear p) .nothing (.linear p') .nothing
  | own {x x' r r' : Element m} (part part' : AuthShare m) (h : x' - r' = x - r) :
      Matches party (.input (.new party (some x))) (.mask ⟨some r, part⟩)
        (.input (.new party (some x'))) (.mask ⟨some r', part'⟩)
  | other {owner : Nat} (h : party ≠ owner) (value value' : Option (Element m))
      (mask mask' : InputMask m) :
      Matches party (.input (.new owner value)) (.mask mask) (.input (.new owner value'))
        (.mask mask')
  | multiply {p p' : Multiply m} {triples triples' : List (Triple m)}
      (count : p'.batch.pairs.length = p.batch.pairs.length)
      (masked : ({ p'.batch with triples := triples' } : MultiplyBatch m).maskedOperands
        = ({ p.batch with triples } : MultiplyBatch m).maskedOperands) :
      Matches party (.multiply p) (.triples triples) (.multiply p') (.triples triples')
  | multiplyBatch {p p' : MultiplyBatch m} {triples triples' : List (Triple m)}
      (count : p'.pairs.length = p.pairs.length)
      (masked : ({ p' with triples := triples' } : MultiplyBatch m).maskedOperands
        = ({ p with triples } : MultiplyBatch m).maskedOperands) :
      Matches party (.multiplyBatch p) (.triples triples) (.multiplyBatch p') (.triples triples')

theorem Drawn.mask_eq_ok {owner : Nat} {supplier : Supplier m} {mask : InputMask m}
    (h : (Drawn.mask <$> Supplier.nextMask owner) supplier = .ok (.mask mask) left) :
    Supplier.nextMask owner supplier = .ok mask left := by
  obtain ⟨_, hnext, ⟨⟩⟩ := Action.map_eq_ok.mp h
  exact hnext

theorem MultiplyBatch.draw_eq_ok {p : MultiplyBatch m} {supplier : Supplier m}
    {triples : List (Triple m)} (h : p.draw supplier = .ok (.triples triples) left) :
    p.pairs ≠ [] ∧ Supplier.nextTriples p.pairs.length supplier = .ok triples left := by
  unfold draw at h
  split at h
  · cases h
  · rename_i hpairs
    obtain ⟨_, hnext, ⟨⟩⟩ := Action.map_eq_ok.mp h
    exact ⟨fun hnil => hpairs (List.isEmpty_iff.mpr hnil), hnext⟩

/-- The first round of two batches whose masked operands are the same. -/
theorem MultiplyBatch.matches_step {p p' q q' : MultiplyBatch m}
    {triples triples' : List (Triple m)} {supplier left' : Supplier m}
    (count : p'.pairs.length = p.pairs.length)
    (masked : ({ p' with triples := triples' } : MultiplyBatch m).maskedOperands
      = ({ p with triples } : MultiplyBatch m).maskedOperands)
    (hdraw : p.draw w.pool.supplier = .ok (.triples triples) left)
    (hdraw' : p'.draw supplier = .ok (.triples triples') left')
    (h : evaluate 0 (p, w) = .ok status (q, w₁))
    (h' : evaluate 0 (p', w.supplied supplier) = .ok status' (q', w₂)) :
    status' = status ∧ w₂ = w₁.supplied left' ∧ q'.pairs.length = q.pairs.length
      ∧ q'.maskedOperands = q.maskedOperands := by
  obtain ⟨hpairs, hnext⟩ := draw_eq_ok hdraw
  obtain ⟨hpairs', hnext'⟩ := draw_eq_ok hdraw'
  rw [evaluate_pairs hpairs hnext] at h
  have h' := (evaluate_pairs (w := w.supplied supplier) hpairs' hnext').symm.trans h'
  rw [masked] at h'
  cases h
  cases h'
  exact ⟨rfl, rfl, count, masked⟩

/-- The first round of two gates that match. -/
theorem Gate.Matches.step {g g' q q' : Gate m} {drawn drawn' : Drawn m}
    {supplier left' : Supplier m} (hmatches : Matches w.pool.party g drawn g' drawn')
    (hdraw : g.draw w.pool.supplier = .ok drawn left) (hdraw' : g'.draw supplier = .ok drawn' left')
    (h : evaluate 0 (g, w) = .ok status (q, w₁))
    (h' : evaluate 0 (g', w.supplied supplier) = .ok status' (q', w₂)) :
    status' = status ∧ w₂ = w₁.supplied left' ∧ (status = .more → q.Alike q') := by
  cases hmatches with
  | same =>
    have hself : w.supplied w.pool.supplier = w := rfl
    have hround := (Gate.draws g).same w hdraw hdraw'
    rw [hself, h, h'] at hround
    cases hround
    exact ⟨rfl, rfl, fun _ => .same _⟩
  | linear p p' =>
    cases hdraw'
    cases h
    cases h'
    exact ⟨rfl, rfl, nofun⟩
  | own part part' hmasked =>
    cases branch h with
    | input act =>
      cases branch h' with
      | input act' =>
        rw [Input.evaluate_own (Drawn.mask_eq_ok hdraw)] at act
        have act' := (Input.evaluate_own (w := w.supplied supplier)
          (Drawn.mask_eq_ok hdraw')).symm.trans act'
        cases act
        cases act'
        rw [hmasked]
        exact ⟨rfl, rfl, fun _ => .input rfl rfl⟩
  | other hother value value' mask mask' =>
    cases branch h with
    | input act =>
      cases branch h' with
      | input act' =>
        rw [Input.evaluate_other hother (Drawn.mask_eq_ok hdraw)] at act
        have act' := (Input.evaluate_other (w := w.supplied supplier) hother
          (Drawn.mask_eq_ok hdraw')).symm.trans act'
        cases act
        cases act'
        exact ⟨rfl, rfl, fun _ => .input rfl rfl⟩
  | multiply count masked =>
    cases branch h with
    | multiply act =>
      cases branch h' with
      | multiply act' =>
        obtain ⟨rfl, rfl, count', masked'⟩ := MultiplyBatch.matches_step count masked hdraw hdraw'
          (Multiply.evaluate_eq_ok.mp act) (Multiply.evaluate_eq_ok.mp act')
        exact ⟨rfl, rfl, fun _ => .multiply count' masked'⟩
  | multiplyBatch count masked =>
    cases branch h with
    | multiplyBatch act =>
      cases branch h' with
      | multiplyBatch act' =>
        obtain ⟨rfl, rfl, count', masked'⟩ :=
          MultiplyBatch.matches_step count masked hdraw hdraw' act act'
        exact ⟨rfl, rfl, fun _ => .multiplyBatch count' masked'⟩

end

/-! ## §3 Evaluators -/

namespace Evaluator

/-- The same node in flight in two runs. -/
structure InFlight.Alike (f f' : InFlight m) : Prop where
  id : f'.id = f.id
  round : f'.round = f.round
  started : f.round ≠ 0
  gate : f.gate.Alike f'.gate

variable {s s₁ s' s₂ : Schedule m} {e e₁ e₂ : Evaluator m} {still still' : List (InFlight m)}
  {supplier left left' : Supplier m}

/-- Rounds with the same outcome lead to evaluators that differ in their suppliers alone. -/
theorem settled_alike {f f' : InFlight m} (hid : f'.id = f.id) (hround : f'.round = f.round)
    (hparticipant : ∀ {status status' : Status} {gate gate' : Gate m} {w w' : Participant m},
      Gate.evaluate f.round (f.gate, e.participant) = .ok status (gate, w) →
      Gate.evaluate f'.round (f'.gate, e.participant.supplied supplier) = .ok status' (gate', w') →
      status' = status ∧ w' = w.supplied left' ∧ (status = .more → gate.Alike gate'))
    (h : advance s f e = .finished (.ok (s₁, still), e₁))
    (h' : advance s' f' (e.supplied supplier) = .finished (.ok (s₂, still'), e₂)) :
    e₂ = e₁.supplied left' ∧ List.Forall₂ InFlight.Alike still still' := by
  obtain ⟨status, gate, hgate, hsettled⟩ := advance_eq_ok h
  obtain ⟨status', gate', hgate', hsettled'⟩ := advance_eq_ok h'
  obtain ⟨rfl, hw, halike⟩ := hparticipant hgate hgate'
  rcases hsettled with ⟨rfl, -, rfl, he⟩ | ⟨rfl, rfl, _, -, -, he⟩
  · rcases hsettled' with ⟨-, -, rfl, he'⟩ | ⟨hdone, -⟩
    · refine ⟨?_, .cons ⟨hid, congrArg (· + 1) hround, Nat.succ_ne_zero _, halike rfl⟩ .nil⟩
      rw [he', hw, he]
      rfl
    · cases hdone
  · rcases hsettled' with ⟨hmore, -⟩ | ⟨-, rfl, _, -, -, he'⟩
    · cases hmore
    · refine ⟨?_, .nil⟩
      rw [he', hw, he]
      rfl

/-- A round of two gates that are alike. -/
theorem advance_alike {f f' : InFlight m} (halike : f.Alike f')
    (h : advance s f e = .finished (.ok (s₁, still), e₁))
    (h' : advance s' f' (e.supplied supplier) = .finished (.ok (s₂, still'), e₂)) :
    e₂ = e₁.supplied supplier ∧ List.Forall₂ InFlight.Alike still still' := by
  obtain ⟨round, hround⟩ := Nat.exists_eq_succ_of_ne_zero halike.started
  refine settled_alike halike.id halike.round (fun hgate hgate' => ?_) h h'
  rw [hround] at hgate
  rw [halike.round, hround] at hgate'
  exact halike.gate.step hgate hgate'

/-- A round of gates that are alike. -/
theorem advanceAll_alike {flights flights' : List (InFlight m)}
    (halike : List.Forall₂ InFlight.Alike flights flights')
    (h : advanceAll s flights e = .finished (.ok (s₁, still), e₁))
    (h' : advanceAll s' flights' (e.supplied supplier) = .finished (.ok (s₂, still'), e₂)) :
    e₂ = e₁.supplied supplier ∧ List.Forall₂ InFlight.Alike still still' := by
  induction halike generalizing s s' e still still' with
  | nil =>
    cases h
    cases h'
    exact ⟨rfl, .nil⟩
  | cons hfirst _ ih =>
    obtain ⟨_, first, e₃, others, hadvance, hrest, rfl⟩ := advanceAll_cons_eq_ok h
    obtain ⟨_, first', e₄, others', hadvance', hrest', rfl⟩ := advanceAll_cons_eq_ok h'
    obtain ⟨rfl, halike₁⟩ := advance_alike hfirst hadvance hadvance'
    obtain ⟨rfl, halike₂⟩ := ih hrest hrest'
    exact ⟨rfl, List.rel_append halike₁ halike₂⟩

/-- The first round of two gates that match. -/
theorem advance_matches {id : NodeId} {gate gate' : Gate m} {drawn drawn' : Drawn m}
    (hmatches : Gate.Matches e.participant.pool.party gate drawn gate' drawn')
    (hdraw : gate.draw e.participant.pool.supplier = .ok drawn left)
    (hdraw' : gate'.draw supplier = .ok drawn' left')
    (h : advance s ⟨id, gate, 0⟩ e = .finished (.ok (s₁, still), e₁))
    (h' : advance s' ⟨id, gate', 0⟩ (e.supplied supplier) = .finished (.ok (s₂, still'), e₂)) :
    e₂ = e₁.supplied left' ∧ List.Forall₂ InFlight.Alike still still' :=
  @settled_alike m s s₁ s' s₂ e e₁ e₂ still still' supplier left' ⟨id, gate, 0⟩ ⟨id, gate', 0⟩ rfl
    rfl (fun hgate hgate' => hmatches.step hdraw hdraw' hgate hgate') h h'

end Evaluator

end JointCircuit
