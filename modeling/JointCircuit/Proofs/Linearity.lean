/-
JointCircuit.Proofs.Linearity — what local operations do to arbitrary parts.

Any parts of the parties add up to something (`opened`), and their MACs
miss the key times that sum by something (`macError`); only parts whose
error is zero share a value (`shared_iff`). Sums, differences and public
factors act on both alike, and a public constant counts once in the sum
and not at all in the error (§1). So an expression of local operations,
which every party evaluates on its own parts (§2), acts on the sums as
the expression reads, and on the errors as the expression without its
constants. Main statement: `opened_and_macError_eq`.
-/
import JointCircuit.Proofs.Sharing

namespace JointCircuit

open scoped Fin.CommRing

variable {m : Modulus} {n : Nat}

/-- What the parts add up to. -/
def opened (part : Fin n → AuthShare m) : Element m :=
  ∑ i, (part i).share

/-- By how much the MACs of the parts miss the key times what the parts add up to. -/
def macError (key : Fin n → Element m) (part : Fin n → AuthShare m) : Element m :=
  ∑ i, (part i).mac - (∑ i, key i) * opened part

/-! ## §1 One operation -/

section Operations

variable {key : Fin n → Element m} {part part' : Fin n → AuthShare m}

/-- Parts share a value exactly if they add up to it and their MACs have no error. -/
theorem shared_iff {x : Element m} :
    Shared key part x ↔ opened part = x ∧ macError key part = 0 := by
  constructor
  · rintro ⟨rfl, hmac⟩
    exact ⟨rfl, sub_eq_zero_of_eq hmac⟩
  · rintro ⟨rfl, herror⟩
    exact ⟨rfl, sub_eq_zero.mp herror⟩

theorem opened_add : opened (fun i => part i + part' i) = opened part + opened part' :=
  Finset.sum_add_distrib

theorem opened_sub : opened (fun i => part i - part' i) = opened part - opened part' :=
  Finset.sum_sub_distrib _ _

theorem opened_neg : opened (fun i => -part i) = -opened part :=
  Finset.sum_neg_distrib _

theorem opened_scale (c : Element m) : opened (fun i => (part i).scale c) = opened part * c :=
  (Finset.sum_mul _ _ _).symm

theorem opened_ofPublic [NeZero n] (c : Element m) :
    opened (fun i : Fin n => AuthShare.ofPublic c (key i) (i + 1)) = c :=
  (Shared.ofPublic key c).share

theorem macError_add :
    macError key (fun i => part i + part' i) = macError key part + macError key part' := by
  simp only [macError, opened_add, AuthShare.mac_add, Finset.sum_add_distrib]
  ring

theorem macError_sub :
    macError key (fun i => part i - part' i) = macError key part - macError key part' := by
  simp only [macError, opened_sub, AuthShare.mac_sub, Finset.sum_sub_distrib]
  ring

theorem macError_neg : macError key (fun i => -part i) = -macError key part := by
  simp only [macError, opened_neg, AuthShare.mac_neg, Finset.sum_neg_distrib]
  ring

theorem macError_scale (c : Element m) :
    macError key (fun i => (part i).scale c) = macError key part * c := by
  simp only [macError, opened_scale, AuthShare.mac_scale, ← Finset.sum_mul]
  ring

theorem macError_ofPublic [NeZero n] (c : Element m) :
    macError key (fun i : Fin n => AuthShare.ofPublic c (key i) (i + 1)) = 0 :=
  (shared_iff.mp (Shared.ofPublic key c)).2

end Operations

/-! ## §2 Expressions -/

/-- An expression of local operations over the named parts that a party holds. -/
inductive LinearExpr (m : Modulus) (ι : Type) where
  | held (v : ι)
  | ofPublic (c : Element m)
  | add (x y : LinearExpr m ι)
  | sub (x y : LinearExpr m ι)
  | neg (x : LinearExpr m ι)
  | scale (x : LinearExpr m ι) (c : Element m)
  | addPublic (x : LinearExpr m ι) (c : Element m)
  | subPublic (x : LinearExpr m ι) (c : Element m)

namespace Linear

/-- What one local operation yields that a participant evaluates in round `round`. -/
def yield (round : Nat) (w : Participant m) (op : LinearOp m) : Option (AuthShare m) :=
  match evaluate round ({ op }, w) with
  | .ok .done s => (out s.1).1
  | _ => none

theorem yield_eq (round : Nat) (w : Participant m) (op : LinearOp m) :
    yield round w op = some (op.apply w.pool.keyShare w.pool.party) := by
  simp [yield, evaluate, out]

end Linear

namespace LinearExpr

variable {ι : Type}

/-- The part of the result at party `party` with key share `key`, which holds `parts`. -/
def part (key : Element m) (party : Nat) (parts : ι → AuthShare m) : LinearExpr m ι → AuthShare m
  | held v => parts v
  | ofPublic c => .ofPublic c key party
  | add x y => x.part key party parts + y.part key party parts
  | sub x y => x.part key party parts - y.part key party parts
  | neg x => -x.part key party parts
  | scale x c => (x.part key party parts).scale c
  | addPublic x c => (x.part key party parts).addPublic c key party
  | subPublic x c => (x.part key party parts).subPublic c key party

/-- The expression read as arithmetic. -/
def value (x : ι → Element m) : LinearExpr m ι → Element m
  | held v => x v
  | ofPublic c => c
  | add e f => e.value x + f.value x
  | sub e f => e.value x - f.value x
  | neg e => -e.value x
  | scale e c => e.value x * c
  | addPublic e c => e.value x + c
  | subPublic e c => e.value x - c

/-- The expression with zero for every public constant that it adds; factors stay. -/
def homogeneous : LinearExpr m ι → LinearExpr m ι
  | held v => held v
  | ofPublic _ => ofPublic 0
  | add x y => add x.homogeneous y.homogeneous
  | sub x y => sub x.homogeneous y.homogeneous
  | neg x => neg x.homogeneous
  | scale x c => scale x.homogeneous c
  | addPublic x _ => addPublic x.homogeneous 0
  | subPublic x _ => subPublic x.homogeneous 0

/-- The result of evaluating every operation as a protocol of its own, each in round `round`. -/
def compute (round : Nat) (w : Participant m) (parts : ι → AuthShare m) :
    LinearExpr m ι → Option (AuthShare m)
  | held v => some (parts v)
  | ofPublic c => some (.ofPublic c w.pool.keyShare w.pool.party)
  | add x y => do
    Linear.yield round w (.add (← x.compute round w parts) (← y.compute round w parts))
  | sub x y => do
    Linear.yield round w (.sub (← x.compute round w parts) (← y.compute round w parts))
  | neg x => do Linear.yield round w (.neg (← x.compute round w parts))
  | scale x c => do Linear.yield round w (.mulPublic (← x.compute round w parts) c)
  | addPublic x c => do Linear.yield round w (.addPublic (← x.compute round w parts) c)
  | subPublic x c => do Linear.yield round w (.subPublic (← x.compute round w parts) c)

/-- The protocols compute a party's own part, whatever round it is. -/
theorem compute_eq (round : Nat) (w : Participant m) (parts : ι → AuthShare m)
    (e : LinearExpr m ι) :
    e.compute round w parts = some (e.part w.pool.keyShare w.pool.party parts) := by
  induction e with
  | held v => rfl
  | ofPublic c => rfl
  | add x y ihx ihy => simp [compute, part, ihx, ihy, Linear.yield_eq, LinearOp.apply]
  | sub x y ihx ihy => simp [compute, part, ihx, ihy, Linear.yield_eq, LinearOp.apply]
  | neg x ih => simp [compute, part, ih, Linear.yield_eq, LinearOp.apply]
  | scale x c ih => simp [compute, part, ih, Linear.yield_eq, LinearOp.apply]
  | addPublic x c ih => simp [compute, part, ih, Linear.yield_eq, LinearOp.apply]
  | subPublic x c ih => simp [compute, part, ih, Linear.yield_eq, LinearOp.apply]

/-- The parts of the result, one for every party. -/
def parts (key : Fin n → Element m) (held : ι → Fin n → AuthShare m) (e : LinearExpr m ι) :
    Fin n → AuthShare m :=
  fun i => e.part (key i) (i + 1) fun v => held v i

theorem opened_parts [NeZero n] (key : Fin n → Element m) (held : ι → Fin n → AuthShare m)
    (e : LinearExpr m ι) : opened (e.parts key held) = e.value fun v => opened (held v) := by
  induction e with
  | held v => rfl
  | ofPublic c => exact opened_ofPublic c
  | add x y ihx ihy => rw [value, ← ihx, ← ihy]; exact opened_add
  | sub x y ihx ihy => rw [value, ← ihx, ← ihy]; exact opened_sub
  | neg x ih => rw [value, ← ih]; exact opened_neg
  | scale x c ih => rw [value, ← ih]; exact opened_scale c
  | addPublic x c ih =>
    calc opened (parts key held (addPublic x c))
        = opened (x.parts key held) + opened fun i : Fin n => .ofPublic c (key i) (i + 1) :=
          opened_add
      _ = value (fun v => opened (held v)) (addPublic x c) := by rw [opened_ofPublic, ih, value]
  | subPublic x c ih =>
    calc opened (parts key held (subPublic x c))
        = opened (x.parts key held) - opened fun i : Fin n => .ofPublic c (key i) (i + 1) :=
          opened_sub
      _ = value (fun v => opened (held v)) (subPublic x c) := by rw [opened_ofPublic, ih, value]

theorem macError_parts [NeZero n] (key : Fin n → Element m) (held : ι → Fin n → AuthShare m)
    (e : LinearExpr m ι) :
    macError key (e.parts key held) = e.homogeneous.value fun v => macError key (held v) := by
  induction e with
  | held v => rfl
  | ofPublic c => exact macError_ofPublic c
  | add x y ihx ihy => rw [homogeneous, value, ← ihx, ← ihy]; exact macError_add
  | sub x y ihx ihy => rw [homogeneous, value, ← ihx, ← ihy]; exact macError_sub
  | neg x ih => rw [homogeneous, value, ← ih]; exact macError_neg
  | scale x c ih => rw [homogeneous, value, ← ih]; exact macError_scale c
  | addPublic x c ih =>
    calc macError key (parts key held (addPublic x c))
        = macError key (x.parts key held)
            + macError key fun i : Fin n => .ofPublic c (key i) (i + 1) := macError_add
      _ = value (fun v => macError key (held v)) (homogeneous (addPublic x c)) := by
          rw [macError_ofPublic, ih, homogeneous, value]
  | subPublic x c ih =>
    calc macError key (parts key held (subPublic x c))
        = macError key (x.parts key held)
            - macError key fun i : Fin n => .ofPublic c (key i) (i + 1) := macError_sub
      _ = value (fun v => macError key (held v)) (homogeneous (subPublic x c)) := by
          rw [macError_ofPublic, ih, homogeneous, value]

/-- An expression without added constants is zero if all that it is about is. -/
theorem homogeneous_value_zero (e : LinearExpr m ι) : (e.homogeneous.value fun _ => 0) = 0 := by
  induction e with
  | held v => rfl
  | ofPublic c => rfl
  | add x y ihx ihy => rw [homogeneous, value, ihx, ihy, add_zero]
  | sub x y ihx ihy => rw [homogeneous, value, ihx, ihy, sub_zero]
  | neg x ih => rw [homogeneous, value, ih, neg_zero]
  | scale x c ih => rw [homogeneous, value, ih, zero_mul]
  | addPublic x c ih => rw [homogeneous, value, ih, add_zero]
  | subPublic x c ih => rw [homogeneous, value, ih, sub_zero]

/-- Without error in what is held there is none in the result, and it shares the value of the
expression. -/
theorem shared_parts [NeZero n] {key : Fin n → Element m} {held : ι → Fin n → AuthShare m}
    {x : ι → Element m} (h : ∀ v, Shared key (held v) (x v)) (e : LinearExpr m ι) :
    Shared key (e.parts key held) (e.value x) := by
  have hopened : (fun v => opened (held v)) = x := funext fun v => (shared_iff.mp (h v)).1
  have herror : (fun v => macError key (held v)) = fun _ => 0 :=
    funext fun v => (shared_iff.mp (h v)).2
  rw [shared_iff, opened_parts, macError_parts, hopened, herror, homogeneous_value_zero]
  exact ⟨rfl, rfl⟩

/-- **Local operations act on the value and on the error apart.** For any number of parties and
any parts that they hold, also tampered ones, and any expression that every party evaluates with
its own key share, operation by operation: the protocols compute the party's part of the result,
the parts of the result add up to the expression of what the held parts add up to, and their error
is the expression without its added constants of the errors of the held parts. -/
theorem opened_and_macError_eq [NeZero n] (key : Fin n → Element m)
    (held : ι → Fin n → AuthShare m) (e : LinearExpr m ι) :
    opened (e.parts key held) = e.value (fun v => opened (held v))
      ∧ macError key (e.parts key held) = e.homogeneous.value (fun v => macError key (held v))
      ∧ ∀ (i : Fin n) (w : Participant m), w.pool.keyShare = key i → w.pool.party = i + 1 →
          ∀ round, e.compute round w (fun v => held v i) = some (e.parts key held i) := by
  refine ⟨opened_parts key held e, macError_parts key held e, ?_⟩
  intro i w hkey hparty round
  rw [compute_eq, hkey, hparty, parts]

/-- Two parties with the key shares 3 and 4 hold parts that miss a sharing of 5 by 6 and of 9 by
-13. Of five times the first less the second plus 7, the error does not know the 7. -/
theorem opened_and_macError_eq_tampered :
    let key : Fin 2 → Element .mersenne61 := fun i => (samplePool i).keyShare
    let held : Bool → Fin 2 → AuthShare .mersenne61 := fun v => if v then ![⟨2, 40⟩, ⟨3, 1⟩]
      else ![⟨4, 0⟩, ⟨5, 50⟩]
    let e : LinearExpr .mersenne61 Bool := .sub (.scale (.held true) 5) (.addPublic (.held false) 7)
    (opened (held true), opened (held false), opened (e.parts key held)) = (5, 9, 5 * 5 - (9 + 7))
      ∧ (macError key (held true), macError key (held false), macError key (e.parts key held))
        = (6, -13, 6 * 5 - -13)
      ∧ e.compute 0 (.new (samplePool 0)) (fun v => held v 0) = some (e.parts key held 0) := by
  intro key held e
  obtain ⟨hopened, herror, hcompute⟩ := opened_and_macError_eq key held e
  refine ⟨?_, ?_, hcompute 0 (.new (samplePool 0)) (by decide) (by decide) 0⟩
  · rw [hopened]
    decide +kernel
  · rw [herror]
    decide +kernel

end LinearExpr

end JointCircuit
