/-
JointCircuit.Proofs.Watched — the schedule at every point of an evaluation.

An evaluation is done once more with a log: whenever a node starts or
finishes, and after every exchange, the event and the schedule at that
point are written down. The log survives a failure, so every point that
an evaluation reaches is in it. How long a gate takes is left open: a
round of a gate is whatever `conduct` makes of it, so every assignment
of completion rounds to nodes is covered, and so are gates that fail.
With the gates' own rounds the computation is, the log forgotten, the
evaluation (`erases_evaluate`).

`Orderly` says what is true of the schedule at one point. Main
statement: `schedule_orderly` — in a valid circuit every point of every
evaluation is orderly, and when an evaluation ends well every node has
started exactly once.
-/
import JointCircuit.Proofs.Refinement
import JointCircuit.Proofs.Tracing

namespace JointCircuit

variable {m : Modulus}

/-! ## §1 Logs -/

/-- What happens to a schedule. -/
inductive Event (m : Modulus) where
  | start (id : NodeId)
  | finish (id : NodeId) (value : Value m)
  /-- The round ends with an exchange. -/
  | flush
  /-- The round ends with nothing in flight. -/
  | rest
deriving DecidableEq

/-- An event, and the schedule after it. -/
structure Moment (m : Modulus) where
  event : Event m
  schedule : Schedule m
deriving DecidableEq

/-- The events so far, in order. -/
abbrev Log (m : Modulus) := List (Moment m)

namespace Log

/-- The schedule of a circuit after the events of a log. -/
def schedule (c : Circuit m) (log : Log m) : Schedule m :=
  match log.getLast? with
  | some moment => moment.schedule
  | none => .new c

/-- The nodes started so far, in order. -/
def started (log : Log m) : List NodeId :=
  log.filterMap fun moment => match moment.event with
    | .start id => some id
    | _ => none

/-- The nodes started since the last exchange, in order. -/
def startedInRound (log : Log m) : List NodeId :=
  log.foldl (fun ids moment => match moment.event with
    | .flush => []
    | .start id => ids ++ [id]
    | _ => ids) []

variable {c : Circuit m} {log : Log m} {s : Schedule m} {id : NodeId} {value : Value m}

@[simp] theorem schedule_nil : schedule c [] = .new c := rfl

@[simp] theorem schedule_concat (moment : Moment m) :
    schedule c (log ++ [moment]) = moment.schedule := by
  rw [schedule, List.getLast?_concat]

@[simp] theorem started_start : started (log ++ [⟨.start id, s⟩]) = log.started ++ [id] := by
  simp [started]

@[simp] theorem started_finish : started (log ++ [⟨.finish id value, s⟩]) = log.started := by
  simp [started]

@[simp] theorem started_flush : started (log ++ [⟨.flush, s⟩]) = log.started := by
  simp [started]

@[simp] theorem started_rest : started (log ++ [⟨.rest, s⟩]) = log.started := by
  simp [started]

@[simp] theorem startedInRound_start :
    startedInRound (log ++ [⟨.start id, s⟩]) = log.startedInRound ++ [id] := by
  simp [startedInRound]

@[simp] theorem startedInRound_finish :
    startedInRound (log ++ [⟨.finish id value, s⟩]) = log.startedInRound := by
  simp [startedInRound]

@[simp] theorem startedInRound_flush : startedInRound (log ++ [⟨.flush, s⟩]) = [] := by
  simp [startedInRound]

@[simp] theorem startedInRound_rest :
    startedInRound (log ++ [⟨.rest, s⟩]) = log.startedInRound := by
  simp [startedInRound]

end Log

/-! ## §2 Orderly points -/

/-- The kind of value that an operation takes as an operand, if it reads it at all. -/
def Operation.takes : Operation m → ValueKind
  | .select _ _ => .batch
  | _ => .share

/-- Why an operation does not fit the values of its operands: one has another kind than the
operation takes, or a selection is past the end of its batch. -/
inductive Schedule.Misfit (s : Schedule m) (op : Operation m) : CircuitError → Prop
  | kind {y : NodeId} {v : Value m} (operand : y ∈ op.operands) (value : s.value? y = some v)
      (other : v.kind ≠ op.takes) : Misfit s op (.kindMismatch y v.kind op.takes)
  | selection {batch : NodeId} {index : Nat} {xs : List (AuthShare m)}
      (select : op = .select batch index) (value : s.value? batch = some (.shares xs))
      (outside : xs.length ≤ index) : Misfit s op (.selectionOutside index xs.length batch)

/-- What an event does to the schedule, and why it may happen. -/
def Event.Justified (c : Circuit m) (before : Log m) (s : Schedule m) : Event m → Prop
  | .start id =>
    -- the lowest ready node, and all its dependencies have values
    ∃ op rest, c.operation? id = some op ∧ (before.schedule c).ready = id :: rest
      ∧ s = { before.schedule c with ready := rest }
      ∧ ∀ y ∈ op.dependencies, s.value? y ≠ none
  | .finish id value =>
    -- no counter of a dependent is at zero when it is decremented
    id ∈ before.started ∧ (before.schedule c).value? id = none
      ∧ s = (before.schedule c).complete id value
      ∧ ∀ k ∈ c.dependents id, ∃ count, (before.schedule c).missing[k]? = some (count + 1)
  | .flush => s = before.schedule c ∧ s.ready = []
  | .rest =>
    -- every node was started, once, and has its value
    s = before.schedule c ∧ before.started.Perm (List.range c.size)
      ∧ (∀ id < c.size, s.value? id ≠ none) ∧ ∃ values, s.outputs = .ok values

/-- What is true of a schedule at a point of an evaluation. -/
structure Orderly (c : Circuit m) (log : Log m) : Prop where
  /-- A node misses its distinct dependencies without a value. -/
  missing : ∀ id op, c.operation? id = some op → (log.schedule c).missing[id]?
    = some (op.dependencies.countP fun y => ((log.schedule c).value? y).isNone)
  /-- The ready nodes are those that miss nothing and have not started. -/
  ready : ∀ id, id ∈ (log.schedule c).ready
    ↔ id ∉ log.started ∧ (log.schedule c).missing[id]? = some 0
  /-- The lowest ready node comes first. -/
  sorted : (log.schedule c).ready.Pairwise (· < ·)
  /-- Starting a ready node fails only if the node does not fit the values it takes. -/
  startable : ∀ id rest error, (log.schedule c).ready = id :: rest →
    (log.schedule c).gate id = .error error →
      ∃ op, c.operation? id = some op ∧ (log.schedule c).Misfit op error
  once : log.started.Nodup
  ascending : log.startedInRound.Pairwise (· < ·)
  justified : ∀ before moment, log = before ++ [moment] →
    moment.event.Justified c before moment.schedule

/-- Every point up to the last one is orderly. -/
def Throughout (c : Circuit m) (log : Log m) : Prop :=
  ∀ earlier, earlier <+: log → Orderly c earlier

theorem throughout_nil {c : Circuit m} (h : Orderly c []) : Throughout c [] := by
  intro earlier hearlier
  rw [List.prefix_nil] at hearlier
  rwa [hearlier]

theorem Throughout.concat {c : Circuit m} {log : Log m} {moment : Moment m}
    (h : Throughout c log) (hlast : Orderly c (log ++ [moment])) :
    Throughout c (log ++ [moment]) := by
  intro earlier hearlier
  rcases List.prefix_concat_iff.mp hearlier with rfl | hprefix
  · exact hlast
  · exact h earlier hprefix

/-! ## §3 Gates over the values in place -/

section Blame

variable {ε α β : Type} {P : ε → Prop}

/-- The computation fails only with errors of this sort. -/
def FailsOnly (P : ε → Prop) (x : Except ε α) : Prop :=
  ∀ error, x = .error error → P error

theorem failsOnly_ok (a : α) : FailsOnly P (.ok a) :=
  fun _ h => nomatch h

theorem failsOnly_error {error : ε} (h : P error) : FailsOnly P (.error error : Except ε α) := by
  intro error' heq
  cases heq
  exact h

theorem failsOnly_bind {x : Except ε α} {f : α → Except ε β} (hx : FailsOnly P x)
    (hf : ∀ a, FailsOnly P (f a)) : FailsOnly P (x >>= f) := by
  cases x with
  | ok a => exact hf a
  | error error => exact failsOnly_error (hx error rfl)

theorem failsOnly_mapM {f : α → Except ε β} {xs : List α} (hf : ∀ a ∈ xs, FailsOnly P (f a)) :
    FailsOnly P (xs.mapM f) := by
  induction xs with
  | nil => exact failsOnly_ok _
  | cons a xs ih =>
    rw [List.mapM_cons]
    exact failsOnly_bind (hf a List.mem_cons_self) fun b =>
      failsOnly_bind (ih fun a ha => hf a (List.mem_cons_of_mem _ ha)) fun bs => failsOnly_ok _

end Blame

namespace Schedule

variable {s : Schedule m} {op : Operation m}

theorem operand_of_value {y : NodeId} {v : Value m} (h : s.value? y = some v) :
    Gate.operand s.values y = .ok v := by
  unfold value? at h
  unfold Gate.operand
  cases hy : s.values[y]? with
  | none => rw [hy] at h; cases h
  | some slot =>
    rw [hy] at h
    obtain rfl : slot = some v := h
    rfl

/-- Reading a share fails only on a value of another kind. -/
theorem failsOnly_shareOf {y : NodeId} (hy : y ∈ op.operands) (htakes : op.takes = .share)
    (hvalue : s.value? y ≠ none) : FailsOnly (s.Misfit op) (Gate.shareOf s.values y) := by
  obtain ⟨v, hv⟩ := Option.ne_none_iff_exists'.mp hvalue
  unfold Gate.shareOf
  rw [operand_of_value hv]
  cases v with
  | share x => exact failsOnly_ok x
  | shares xs => exact failsOnly_error (htakes ▸ .kind hy hv (by rw [htakes]; nofun))
  | plain x => exact failsOnly_error (htakes ▸ .kind hy hv (by rw [htakes]; nofun))
  | checked => exact failsOnly_error (htakes ▸ .kind hy hv (by rw [htakes]; nofun))

/-- Selecting fails only on a value of another kind and past the end. -/
theorem failsOnly_selectFrom {batch : NodeId} {index : Nat} (hvalue : s.value? batch ≠ none) :
    FailsOnly (s.Misfit (.select batch index)) (Gate.selectFrom s.values batch index) := by
  obtain ⟨v, hv⟩ := Option.ne_none_iff_exists'.mp hvalue
  have hmem : batch ∈ (Operation.select batch index : Operation m).operands := List.mem_cons_self
  unfold Gate.selectFrom
  rw [operand_of_value hv]
  cases v with
  | share x => exact failsOnly_error (.kind hmem hv nofun)
  | plain x => exact failsOnly_error (.kind hmem hv nofun)
  | checked => exact failsOnly_error (.kind hmem hv nofun)
  | shares xs =>
    simp only [bind, Except.bind]
    cases hx : xs[index]? with
    | some x => exact failsOnly_ok x
    | none => exact failsOnly_error (.selection rfl hv (List.getElem?_eq_none_iff.mp hx))

/-- Once all operands have values, a gate cannot be built only if the operation does not fit
them. -/
theorem failsOnly_instantiate (h : ∀ y ∈ op.operands, s.value? y ≠ none) :
    FailsOnly (s.Misfit op) (Gate.instantiate s.values op) := by
  have hshare : op.takes = .share → ∀ y ∈ op.operands,
      FailsOnly (s.Misfit op) (Gate.shareOf s.values y) :=
    fun htakes y hy => failsOnly_shareOf hy htakes (h y hy)
  cases op with
  | input owner value => exact failsOnly_ok _
  | macCheck after => exact failsOnly_ok _
  | select batch index =>
    exact failsOnly_bind (failsOnly_selectFrom (h batch List.mem_cons_self)) fun _ =>
      failsOnly_ok _
  | neg x | addPublic x _ | subPublic x _ | mulPublic x _ | reveal x =>
    exact failsOnly_bind (hshare rfl x List.mem_cons_self) fun _ => failsOnly_ok _
  | add x y | sub x y | multiply x y =>
    exact failsOnly_bind (hshare rfl x List.mem_cons_self) fun _ =>
      failsOnly_bind (hshare rfl y (List.mem_cons_of_mem _ List.mem_cons_self)) fun _ =>
        failsOnly_ok _
  | multiplyBatch pairs =>
    refine failsOnly_bind (failsOnly_mapM fun p hp => ?_) fun _ => failsOnly_ok _
    have hoperands : ∀ y ∈ [p.1, p.2], y ∈ (Operation.multiplyBatch pairs : Operation m).operands :=
      fun y hy => List.mem_flatMap.mpr ⟨p, hp, hy⟩
    exact failsOnly_bind (hshare rfl p.1 (hoperands _ List.mem_cons_self)) fun _ =>
      failsOnly_bind (hshare rfl p.2 (hoperands _ (List.mem_cons_of_mem _ List.mem_cons_self)))
        fun _ => failsOnly_ok _

end Schedule

/-! ## §4 One event after another -/

/-- The schedule with the nodes in flight, and the log that led to it. -/
structure Progress (c : Circuit m) (s : Schedule m) (flying : List NodeId) (log : Log m) :
    Prop where
  schedule : log.schedule c = s
  circuit : s.circuit = c
  sound : s.Sound flying
  mem_started : ∀ id, id ∈ log.started ↔ id ∈ flying ∨ s.value? id ≠ none
  once : log.started.Nodup
  ascending : log.startedInRound.Pairwise (· < ·)
  /-- What becomes ready in a round lies above what was started in it. -/
  above : ∀ id ∈ log.startedInRound, ∀ k ∈ s.ready, id < k

/-- Every operand comes before its user. -/
def Circuit.Ordered (c : Circuit m) : Prop :=
  ∀ id op, c.operation? id = some op → ∀ y ∈ op.operands, y < id

namespace Progress

variable {c : Circuit m} {s : Schedule m} {flying : List NodeId} {log : Log m} {id : NodeId}

theorem new (c : Circuit m) : Progress c (.new c) [] [] where
  schedule := rfl
  circuit := rfl
  sound := Schedule.sound_new c
  mem_started id := by simp [Log.started, Schedule.value?_new]
  once := List.nodup_nil
  ascending := List.Pairwise.nil
  above := nofun

theorem perm (h : Progress c s flying log) {flying' : List NodeId} (hperm : flying'.Perm flying) :
    Progress c s flying' log :=
  { h with
    sound := h.sound.perm hperm
    mem_started := fun id => by rw [h.mem_started, hperm.mem_iff] }

/-- The ready nodes in terms of the counters and of what was started. -/
theorem mem_ready_iff (h : Progress c s flying log) (id : NodeId) :
    id ∈ s.ready ↔ id ∉ log.started ∧ s.missing[id]? = some 0 := by
  rw [h.sound.mem_ready, h.mem_started]
  constructor
  · rintro ⟨hnot, op, hop, hnone, hall⟩
    refine ⟨fun hor => hor.elim hnot (absurd hnone), ?_⟩
    rw [h.sound.missing id op hop, Schedule.unmet_eq_zero.mpr hall]
  · rintro ⟨hnot, hzero⟩
    rw [not_or, not_not] at hnot
    have hlt : id < s.circuit.size := by
      rw [← h.sound.length_missing]
      exact (List.getElem?_eq_some_iff.mp hzero).1
    have hop : s.circuit.operation? id = some s.circuit.nodes[id] := List.getElem?_eq_getElem hlt
    refine ⟨hnot.1, _, hop, hnot.2, Schedule.unmet_eq_zero.mp ?_⟩
    rw [h.sound.missing id _ hop] at hzero
    exact Option.some.inj hzero

/-- A ready node fails to start only if it does not fit its operands. -/
theorem startable (h : Progress c s flying log) {rest : List NodeId}
    (hready : s.ready = id :: rest) :
    ∃ op, c.operation? id = some op ∧ FailsOnly (s.Misfit op) (s.gate id) := by
  obtain ⟨-, op, hop, -, hall⟩ := (h.sound.mem_ready id).mp (hready ▸ List.mem_cons_self)
  refine ⟨op, h.circuit ▸ hop, ?_⟩
  have hgate : s.gate id = Gate.instantiate s.values op := by
    rw [Schedule.gate, hop]
  rw [hgate]
  exact Schedule.failsOnly_instantiate hall

theorem values_of_all (values : List (Option (Value m))) (h : ∀ v ∈ values, v ≠ none) :
    ∃ vs : List (Value m), values = vs.map some := by
  induction values with
  | nil => exact ⟨[], rfl⟩
  | cons v values ih =>
    obtain ⟨x, rfl⟩ := Option.ne_none_iff_exists'.mp (h v List.mem_cons_self)
    obtain ⟨vs, rfl⟩ := ih fun v hv => h v (List.mem_cons_of_mem _ hv)
    exact ⟨x :: vs, rfl⟩

/-- With nothing ready and nothing in flight, every node has a value. -/
theorem settled (h : Progress c s [] log) (ordered : c.Ordered) (hready : s.ready = []) :
    (∀ id < c.size, s.value? id ≠ none) ∧ ∃ values, s.outputs = .ok values := by
  have hall : ∀ id < c.size, s.value? id ≠ none := by
    intro id hid
    refine h.sound.all_settled hready ?_ id (h.circuit ▸ hid)
    intro k op hop
    exact ordered k op (h.circuit ▸ hop)
  refine ⟨hall, ?_⟩
  obtain ⟨values, hvalues⟩ := values_of_all s.values fun v hv => by
    obtain ⟨k, hk⟩ := List.mem_iff_getElem?.mp hv
    have hlt : k < c.size := by
      rw [← h.circuit, ← h.sound.length_values]
      exact (List.getElem?_eq_some_iff.mp hk).1
    have hvalue := hall k hlt
    rwa [Schedule.value?, hk] at hvalue
  exact ⟨values, Schedule.outputs_eq_ok hvalues⟩

/-- A point is orderly when its last event was justified. -/
theorem orderly (h : Progress c s flying log)
    (hlast : ∀ before moment, log = before ++ [moment] →
      moment.event.Justified c before moment.schedule) : Orderly c log := by
  obtain rfl := h.schedule
  refine ⟨fun id op hop => h.sound.missing id op (by rwa [h.circuit]), h.mem_ready_iff,
    h.sound.sorted, fun id rest error hready hgate => ?_, h.once, h.ascending, hlast⟩
  obtain ⟨op, hop, hfails⟩ := h.startable hready
  exact ⟨op, hop, hfails error hgate⟩

theorem orderly_concat {moment : Moment m} (h : Progress c s flying (log ++ [moment]))
    (hlast : moment.event.Justified c log moment.schedule) : Orderly c (log ++ [moment]) :=
  h.orderly fun before moment' heq => by
    obtain ⟨rfl, hmoment⟩ := List.append_inj' heq rfl
    obtain rfl := List.singleton_inj.mp hmoment
    exact hlast

/-- The lowest ready node starts. -/
theorem start (h : Progress c s flying log) {rest : List NodeId} (hready : s.ready = id :: rest) :
    Progress c { s with ready := rest } (id :: flying)
        (log ++ [⟨.start id, { s with ready := rest }⟩])
      ∧ (Event.start id).Justified c log { s with ready := rest } := by
  have hmem : id ∈ s.ready := hready ▸ List.mem_cons_self
  obtain ⟨hnot, op, hop, hnone, hall⟩ := (h.sound.mem_ready id).mp hmem
  have hsorted := List.pairwise_cons.mp (hready ▸ h.sound.sorted)
  constructor
  · exact
      { schedule := Log.schedule_concat _
        circuit := h.circuit
        sound := h.sound.start hready
        mem_started := fun k => by
          rw [Log.started_start, List.mem_append, h.mem_started, List.mem_singleton, List.mem_cons]
          show (k ∈ flying ∨ s.value? k ≠ none) ∨ k = id ↔ (k = id ∨ k ∈ flying) ∨ s.value? k ≠ none
          tauto
        once := by
          rw [Log.started_start, List.nodup_append]
          refine ⟨h.once, List.nodup_singleton id, fun k hk k' hk' heq => ?_⟩
          rw [heq, List.mem_singleton.mp hk'] at hk
          exact ((h.mem_ready_iff id).mp hmem).1 hk
        ascending := by
          rw [Log.startedInRound_start, List.pairwise_append]
          refine ⟨h.ascending, List.pairwise_singleton _ _, fun k hk k' hk' => ?_⟩
          rw [List.mem_singleton.mp hk']
          exact h.above k hk id hmem
        above := fun k hk k' hk' => by
          rw [Log.startedInRound_start, List.mem_append, List.mem_singleton] at hk
          rcases hk with hk | rfl
          · exact h.above k hk k' (hready ▸ List.mem_cons_of_mem _ hk')
          · exact hsorted.1 k' hk' }
  · refine ⟨op, rest, h.circuit ▸ hop, h.schedule ▸ hready, by rw [h.schedule], fun y hy => ?_⟩
    exact hall y (Operation.mem_dependencies.mp hy)

/-- A node in flight finishes, none above it was started in the round. -/
theorem finish (h : Progress c s (id :: flying) log) (ordered : c.Ordered)
    (hlowest : ∀ k ∈ log.startedInRound, k ≤ id) (value : Value m) :
    Progress c (s.complete id value) flying (log ++ [⟨.finish id value, s.complete id value⟩])
      ∧ (Event.finish id value).Justified c log (s.complete id value) := by
  have hcomplete := h.sound.complete value
  have hcircuit := s.circuit_complete id value
  have hvalue := h.sound.value?_complete value
  obtain ⟨op, hop, hnone, hall⟩ := h.sound.running_open id List.mem_cons_self
  constructor
  · exact
      { schedule := Log.schedule_concat _
        circuit := hcircuit.trans h.circuit
        sound := hcomplete
        mem_started := fun k => by
          rw [Log.started_finish, h.mem_started, List.mem_cons, hvalue]
          by_cases hk : k = id
          · simp [hk]
          · simp [hk]
        once := by rw [Log.started_finish]; exact h.once
        ascending := by rw [Log.startedInRound_finish]; exact h.ascending
        above := fun k hk k' hk' => by
          rw [Log.startedInRound_finish] at hk
          obtain ⟨hrunning, hopen⟩ := (hcomplete.mem_ready k').mp hk'
          obtain ⟨hne, hbefore | ⟨op', hop', hmem, -⟩⟩ := (h.sound.open_complete value k').mp hopen
          · refine h.above k hk k' ((h.sound.mem_ready k').mpr ⟨fun hor => ?_, hbefore⟩)
            rcases List.mem_cons.mp hor with rfl | hor
            · exact hne rfl
            · exact hrunning hor
          · have hlt := ordered k' op' (h.circuit ▸ hop') id (Operation.mem_dependencies.mp hmem)
            exact Nat.lt_of_le_of_lt (hlowest k hk) hlt }
  · refine ⟨(h.mem_started id).mpr (.inl List.mem_cons_self), h.schedule ▸ hnone,
      by rw [h.schedule], fun k hk => ?_⟩
    rw [h.schedule]
    obtain ⟨op', hop', hmem⟩ := Circuit.mem_dependents.mp hk
    rw [← h.circuit] at hop'
    have hpos : 0 < s.unmet op' := List.countP_pos_iff.mpr ⟨id, hmem, by rw [hnone]; rfl⟩
    exact ⟨s.unmet op' - 1, by rw [h.sound.missing k op' hop', Nat.sub_add_cancel hpos]⟩

/-- An exchange ends the round; nothing is left ready. -/
theorem flush (h : Progress c s flying log) (hready : s.ready = []) :
    Progress c s flying (log ++ [⟨.flush, s⟩]) ∧ Event.flush.Justified c log s :=
  ⟨{ schedule := Log.schedule_concat _
     circuit := h.circuit
     sound := h.sound
     mem_started := fun k => by rw [Log.started_flush]; exact h.mem_started k
     once := by rw [Log.started_flush]; exact h.once
     ascending := by rw [Log.startedInRound_flush]; exact List.Pairwise.nil
     above := fun k hk => by rw [Log.startedInRound_flush] at hk; exact nomatch hk },
   h.schedule.symm, hready⟩

theorem lt_of_mem_started (h : Progress c s flying log) (hid : id ∈ log.started) : id < c.size := by
  rw [← h.circuit, ← h.sound.length_values]
  rcases (h.mem_started id).mp hid with hrunning | hvalue
  · exact h.sound.open_lt (h.sound.running_open id hrunning)
  · by_contra hge
    rw [Schedule.value?, List.getElem?_eq_none (Nat.not_lt.mp hge)] at hvalue
    exact hvalue rfl

/-- With nothing ready and nothing in flight, every node was started, once. -/
theorem started_perm (h : Progress c s [] log) (ordered : c.Ordered) (hready : s.ready = []) :
    log.started.Perm (List.range c.size) := by
  refine (List.perm_ext_iff_of_nodup h.once List.nodup_range).mpr fun id => ?_
  rw [List.mem_range]
  refine ⟨h.lt_of_mem_started, fun hid => ?_⟩
  exact (h.mem_started id).mpr (.inr ((h.settled ordered hready).1 id hid))

/-- A round ends with nothing in flight and nothing ready. -/
theorem rest (h : Progress c s [] log) (ordered : c.Ordered) (hready : s.ready = []) :
    Progress c s [] (log ++ [⟨.rest, s⟩]) ∧ Event.rest.Justified c log s :=
  ⟨{ schedule := Log.schedule_concat _
     circuit := h.circuit
     sound := h.sound
     mem_started := fun k => by rw [Log.started_rest]; exact h.mem_started k
     once := by rw [Log.started_rest]; exact h.once
     ascending := by rw [Log.startedInRound_rest]; exact h.ascending
     above := fun k hk => by rw [Log.startedInRound_rest] at hk; exact h.above k hk },
   h.schedule.symm, h.started_perm ordered hready, h.settled ordered hready⟩

end Progress

/-! ## §5 Evaluation with a log -/

/-- What happens to the schedule is noted, with the schedule after it. -/
instance : Scribe m (Log m) where
  started id s log := log ++ [⟨.start id, s⟩]
  completed id value s log := log ++ [⟨.finish id value, s.complete id value⟩]
  paused s flights log := log ++ [⟨if flights.isEmpty then .rest else .flush, s⟩]
  Extends _ log log' := log <+: log'
  refl := List.prefix_refl
  trans := List.IsPrefix.trans
  extends_played _ _ := List.prefix_refl
  extends_exchanged _ := List.prefix_refl
  extends_started _ _ _ := List.prefix_append _ _
  extends_completed _ _ _ _ := List.prefix_append _ _
  extends_paused _ _ _ := List.prefix_append _ _
  extends_finished _ := List.prefix_refl

namespace Evaluator

/-- A computation of one party that keeps a log, also when it fails. -/
abbrev Watched (m : Modulus) := Traced m (Log m)

namespace Watched

open Traced (Keeps Invariant AfterRound keeps_evaluateWith keeps_flush_pool
  keeps_initializeJointRandomness keeps_pure_from keeps_run_pool)

variable {α : Type}

/-- Evaluate every node of a circuit, where `conduct` is what a round of a gate in flight does. -/
def evaluate (conduct : InFlight m → Eval m (Status × Gate m)) (budget : Nat) (c : Circuit m) :
    Watched m (Outputs m) :=
  Traced.evaluateWith (fun flight => Traced.lift (conduct flight)) budget c

/-- The gates' own rounds. -/
def gateRound (flight : InFlight m) : Eval m (Status × Gate m) :=
  actOn flight.gate (Gate.evaluate flight.round)

/-- With the gates' own rounds an evaluation with a log is the evaluation, the log forgotten. -/
theorem erases_evaluate (c : Circuit m) :
    Traced.Erases (evaluate gateRound (roundBudget c.size) c) (Evaluator.evaluate c) :=
  Traced.erases_evaluateWith (fun _ => Traced.erases_lift _) c

section Keeps

variable {c : Circuit m} {conduct : InFlight m → Eval m (Status × Gate m)}

/-- However a computation fails, every point that it has reached is orderly. -/
def Unbroken (c : Circuit m) (_ : Fault) (_ : Evaluator m) (log : Log m) : Prop :=
  Throughout c log

/-- A step that is not logged, whatever it does. -/
theorem keeps_lift {y : Eval m α} {pre : Log m → Prop} {post : α → Log m → Prop}
    (hpre : ∀ log, pre log → Throughout c log)
    (hpost : ∀ e a e' log, Returns y e a e' → pre log → post a log) :
    Keeps (Unbroken c) (fun _ => pre) (Traced.lift y) fun a _ => post a := by
  intro e log replies answer e' log' h hrun
  obtain ⟨⟨answer₁, e₁⟩, hy, heq⟩ := Session.run_map.mp hrun
  cases heq
  refine ⟨List.prefix_refl _, fun a ha => ?_, fun fault _ => hpre log h⟩
  subst ha
  exact hpost e a e' log ⟨replies, hy⟩ h

/-- A point of a round that is orderly like those before it; nothing that was started in the round
lies above a gate that is yet to be evaluated in it. -/
structure During (c : Circuit m) (s : Schedule m) (still todo : List (InFlight m)) (log : Log m) :
    Prop where
  throughout : Throughout c log
  progress : Progress c s ((still ++ todo).map (·.id)) log
  lowest : ∀ f ∈ todo, ∀ id ∈ log.startedInRound, id ≤ f.id

namespace During

variable {s : Schedule m} {still todo : List (InFlight m)} {flight : InFlight m} {log : Log m}

theorem new (c : Circuit m) : During c (.new c) [] [] [] where
  throughout := throughout_nil ((Progress.new c).orderly fun before moment heq => by simp at heq)
  progress := Progress.new c
  lowest := nofun

/-- An event that is justified. -/
theorem concat (h : Throughout c log) {event : Event m}
    (hnext : Progress c s ((still ++ todo).map (·.id)) (log ++ [⟨event, s⟩])
      ∧ event.Justified c log s)
    (hlowest : ∀ f ∈ todo, ∀ id ∈ Log.startedInRound (log ++ [⟨event, s⟩]), id ≤ f.id) :
    During c s still todo (log ++ [⟨event, s⟩]) :=
  ⟨h.concat (hnext.1.orderly_concat hnext.2), hnext.1, hlowest⟩

/-- A gate goes on. -/
theorem more (h : During c s still (flight :: todo) log) (gate : Gate m) :
    During c s (still ++ [{ flight with gate, round := flight.round + 1 }]) todo log where
  throughout := h.throughout
  progress := by simpa using h.progress
  lowest f hf := h.lowest f (List.mem_cons_of_mem _ hf)

/-- A node gets its value. -/
theorem done (h : During c s still (flight :: todo) log) (ordered : c.Ordered)
    (value : Value m) : During c (s.complete flight.id value) still todo
      (log ++ [⟨.finish flight.id value, s.complete flight.id value⟩]) := by
  have hperm : (flight.id :: (still ++ todo).map (·.id)).Perm
      ((still ++ flight :: todo).map (·.id)) :=
    (List.perm_middle.map InFlight.id).symm
  refine concat h.throughout ((h.progress.perm hperm).finish ordered
    (h.lowest flight List.mem_cons_self) value) fun f hf id hid => ?_
  rw [Log.startedInRound_finish] at hid
  exact h.lowest f (List.mem_cons_of_mem _ hf) id hid

/-- The lowest ready node starts. -/
theorem start (h : During c s still [] log) {id : NodeId} {ready : List NodeId}
    (hready : s.ready = id :: ready) (gate : Gate m) :
    During c { s with ready } still [{ id, gate, round := 0 }]
      (log ++ [⟨.start id, { s with ready }⟩]) := by
  have hprogress := h.progress
  rw [List.append_nil] at hprogress
  obtain ⟨hnext, hjustified⟩ := hprogress.start hready
  have hperm : ((still ++ [({ id, gate, round := 0 } : InFlight m)]).map (·.id)).Perm
      (id :: still.map (·.id)) := (List.perm_append_singleton _ still).map (·.id)
  refine concat h.throughout ⟨hnext.perm hperm, hjustified⟩ fun f hf k hk => ?_
  obtain rfl := List.mem_singleton.mp hf
  rw [Log.startedInRound_start] at hk
  rcases List.mem_append.mp hk with hk | hk
  · exact Nat.le_of_lt (hprogress.above k hk id (hready ▸ List.mem_cons_self))
  · exact Nat.le_of_eq (List.mem_singleton.mp hk)

/-- The round ends with an exchange. -/
theorem flush (h : During c s still [] log) (hready : s.ready = []) :
    During c s [] still (log ++ [⟨.flush, s⟩]) := by
  have hprogress := h.progress
  rw [List.append_nil] at hprogress
  refine concat h.throughout (hprogress.flush hready) fun f hf id hid => ?_
  rw [Log.startedInRound_flush] at hid
  exact absurd hid List.not_mem_nil

/-- The round ends with nothing in flight. -/
theorem rest (h : During c s [] [] log) (ordered : c.Ordered) (hready : s.ready = []) :
    During c s [] [] (log ++ [⟨.rest, s⟩]) :=
  concat h.throughout (h.progress.rest ordered hready) nofun

end During

/-- Whatever the rounds of the gates do, the loop over them goes from orderly points to orderly
points. -/
theorem invariant (ordered : c.Ordered) :
    Invariant (fun flight => Traced.lift (conduct flight)) c (Unbroken c)
      fun _ s still todo _ log => During c s still todo log where
  round {_ s still rest flight} _ := by
    have hround : Keeps (Unbroken c) (fun _ => During c s still (flight :: rest))
        (Traced.lift (conduct flight)) fun _ _ => During c s still (flight :: rest) :=
      keeps_lift (fun _ h => h.throughout) fun _ _ _ _ _ h => h
    refine hround.mono ?_
    rintro ⟨status, gate⟩ e log h
    cases status with
    | more => exact h.more gate
    | done =>
      unfold AfterRound
      cases gate.out.1 with
      | none => exact h.throughout
      | some value => exact h.done ordered value
  start h _ hready _ := h.start hready _
  misfit h _ _ _ := h.throughout
  flush {_ s flights} _ hready hflights := by
    have hmarked : ∀ log : Log m, During c s flights [] log →
        During c s [] flights (Scribe.paused s flights log) := by
      intro log h
      obtain ⟨f, rest, rfl⟩ := List.exists_cons_of_ne_nil hflights
      exact h.flush hready
    refine (keeps_flush_pool (Q := fun _ => During c s [] flights) (fun _ _ _ h => h.throughout)
      (fun _ _ _ h => h) _).of_pre ?_
    rintro e log ⟨log₀, h, rfl⟩
    exact hmarked log₀ h
  rest h _ hready := h.rest ordered hready
  endless h := h.throughout

/-- Every node has started, once, and these are the values of the nodes. -/
structure Ended (c : Circuit m) (values : List (Value m)) (log : Log m) : Prop where
  throughout : Throughout c log
  started : log.started.Perm (List.range c.size)
  outputs : (log.schedule c).outputs = .ok values

/-- From an empty log on, every point of an evaluation is orderly, and at its end every node has
started, once, and has a value. -/
theorem keeps_evaluate (ordered : c.Ordered) (budget : Nat) :
    Keeps (Unbroken c) (fun _ log => log = []) (evaluate conduct budget c)
      fun outputs _ => Ended c outputs.values := by
  have hnew := (During.new c).throughout
  refine keeps_evaluateWith (fun _ log => log = [])
    (fun s _ log => s.ready = [] ∧ During c s [] [] log) (fun values _ => Ended c values)
    (fun _ _ _ h _ => h ▸ hnew) ?seed ?gates (fun _ _ _ _ h _ => h.2.throughout)
    (fun _ _ _ _ h _ => h.2.throughout) ?finished ?check
  case seed =>
    intro e₀ log₀ h _
    split
    · exact keeps_pure_from h
    · have htoss : Keeps (Unbroken c) (fun _ log => log = [])
          (Traced.run .coinToss ({} : CoinToss)) fun _ _ log => log = [] :=
        keeps_run_pool (Q := fun _ log => log = []) (fun _ _ _ h => h ▸ hnew) (fun _ _ _ h => h)
          (fun _ _ _ _ _ _ _ h _ => h) (fun _ _ _ _ _ _ _ h _ => h ▸ hnew) _
      exact keeps_initializeJointRandomness (htoss.from_state h) fun _ _ _ h => h
  case gates =>
    refine (((invariant ordered).keeps_runGates (.new c)).of_pre ?_).mono ?_
    · rintro _ _ rfl
      exact During.new c
    · rintro s _ log ⟨⟨-, hready⟩, -, h⟩
      exact ⟨hready, h⟩
  case finished =>
    intro s values _ log ⟨hready, h⟩ _ _ houtputs
    have hprogress : Progress c s [] log := h.progress
    exact ⟨h.throughout, hprogress.started_perm ordered hready,
      (congrArg Schedule.outputs hprogress.schedule).trans houtputs⟩
  case check =>
    intro values e₀ log₀ h
    split
    · exact (keeps_run_pool (Q := fun _ => Ended c values) (fun _ _ _ h => h.throughout)
        (fun _ _ _ h => h) (fun _ _ _ _ _ _ _ h _ => h)
        (fun _ _ _ _ _ _ _ h _ => h.throughout) _).from_state h
    · exact keeps_pure_from h

end Keeps

end Watched

end Evaluator

/-! ## §6 Every point of every evaluation -/

open Evaluator Watched

theorem Circuit.ordered_of_validate {c : Circuit m} {parties : Nat}
    (h : c.validate parties = .ok ()) : c.Ordered :=
  fun _ _ hop _ hy => Circuit.operand_lt h hop hy

/-- In a valid circuit, whatever the rounds of its gates do and whatever is received, every point
that an evaluation reaches is orderly; where it succeeds, every node was started exactly once and
the outputs are the values of the nodes. The evaluation of a party is the case of the gates' own
rounds. -/
theorem schedule_orderly {c : Circuit m} {parties : Nat} (h : c.validate parties = .ok ()) :
    Traced.Erases (Watched.evaluate gateRound (roundBudget c.size) c) (Evaluator.evaluate c)
    ∧ ∀ conduct budget e replies answer e' log,
      Session.Run (Watched.evaluate conduct budget c (e, [])) replies (answer, (e', log)) →
        (∀ point, point <+: log → Orderly c point)
        ∧ ∀ outputs, answer = .ok outputs → log.started.Perm (List.range c.size)
          ∧ (log.schedule c).outputs = .ok outputs.values := by
  refine ⟨erases_evaluate c, fun conduct budget e replies answer e' log hrun => ?_⟩
  obtain ⟨-, hended, hfailed⟩ :=
    keeps_evaluate (Circuit.ordered_of_validate h) budget e [] replies answer e' log rfl hrun
  cases answer with
  | ok outputs =>
    have hall := hended outputs rfl
    refine ⟨hall.throughout, fun outputs' heq => ?_⟩
    cases heq
    exact ⟨hall.started, hall.outputs⟩
  | error fault => exact ⟨hfailed fault rfl, nofun⟩

/-- The gate with a result of its kind in place. -/
def filled : Gate m → Gate m
  | .input p => .input { p with output := some 0 }
  | .linear p => .linear { p with output := some 0 }
  | .multiply p => .multiply { p with batch := { p.batch with output := some [0] } }
  | .multiplyBatch p => .multiplyBatch { p with output := some (p.pairs.map fun _ => 0) }
  | .reveal p => .reveal { p with output := some 0 }
  | .macCheck p => .macCheck { p with output := some () }

/-- Gates that finish in the round of theirs that is assigned to their node. -/
def timed (completion : NodeId → Nat) (flight : InFlight m) : Eval m (Status × Gate m) :=
  if flight.round < completion flight.id then pure (.more, flight.gate)
  else pure (.done, filled flight.gate)

/-- Operands are repeated, and nodes are listed twice. -/
def repeatingCircuit : Circuit .mersenne61 :=
  ⟨[.input 1 none, .input 2 none, .add 0 0, .multiplyBatch [(1, 1), (2, 1)], .select 3 1,
    .macCheck [4, 4, 0]]⟩

/-- A party with a seeded joint generator. -/
def seededParty : Evaluator .mersenne61 :=
  { participant := .new
      { stockedPool ⟨0, Nat.two_pos⟩ with
        jointGenerator := some (.ofPartySeed (Vector.replicate 32 0)) } }

/-- Node 0 finishes after node 1, and the nodes that wait for both start last. -/
theorem schedule_orderly_repeating : ∃ replies outputs e' log,
    Session.Run (Watched.evaluate (timed ([2, 1, 0, 2, 0, 1].getD · 0)) 10 repeatingCircuit
      (seededParty, [])) replies (.ok outputs, (e', log))
    ∧ (∀ point, point <+: log → Orderly repeatingCircuit point)
    ∧ log.started.Perm [0, 1, 2, 3, 4, 5] := by
  have hanswered : ((Watched.evaluate (timed ([2, 1, 0, 2, 0, 1].getD · 0)) 10 repeatingCircuit
      (seededParty, [])).answered (List.replicate 5 (.ok []))).map (·.1.isOk) = some true := by
    decide +kernel
  obtain ⟨⟨answer, e', log⟩, hrun, hok⟩ := Option.map_eq_some_iff.mp hanswered
  cases answer with
  | error fault => cases hok
  | ok outputs =>
    have hrun := Session.run_of_answered hrun
    have valid : repeatingCircuit.validate 2 = .ok () := by decide
    obtain ⟨hall, hended⟩ := (schedule_orderly valid).2 _ _ _ _ _ _ _ hrun
    exact ⟨_, outputs, e', log, hrun, hall, (hended outputs rfl).1⟩

/-- The sign of an opened value. -/
def misfitCircuit : Circuit .mersenne61 :=
  ⟨[.input 1 (some 5), .reveal 0, .neg 1]⟩

/-- A valid circuit may contain an operation that does not fit its operands: starting it fails. -/
theorem misfit_refused : misfitCircuit.validate 2 = .ok ()
    ∧ ∃ replies e', Session.Run (Evaluator.evaluate misfitCircuit seededParty) replies
      (.error (.circuit (.kindMismatch 1 .plain .share)), e') := by
  have hanswered : ((Evaluator.evaluate misfitCircuit seededParty).answered
      [.ok [(2, [])], .ok [(2, [(0 : Element .mersenne61).toBytes])]]).map (·.1)
        = some (.error (.circuit (.kindMismatch 1 .plain .share))) := by
    decide +kernel
  obtain ⟨⟨answer, e'⟩, hrun, rfl⟩ := Option.map_eq_some_iff.mp hanswered
  exact ⟨by decide, _, e', Session.run_of_answered hrun⟩

end JointCircuit
