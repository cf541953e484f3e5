/-
JointCircuit.Protocol.Linear — operations that need no exchange.

Sharing is linear, so sums, differences and public factors act on every
party's own part. The protocol finishes in whatever round it is first
evaluated.
-/
import JointCircuit.Protocol.Basic

namespace JointCircuit

/-- A local operation on shares. -/
inductive LinearOp (m : Modulus) where
  | add (x y : AuthShare m)
  | sub (x y : AuthShare m)
  | neg (x : AuthShare m)
  | addPublic (x : AuthShare m) (c : Element m)
  | subPublic (x : AuthShare m) (c : Element m)
  | mulPublic (x : AuthShare m) (c : Element m)
  | identity (x : AuthShare m)
deriving DecidableEq

/-- The result of a local operation at party `party` with key share `key`. -/
def LinearOp.apply {m : Modulus} (key : Element m) (party : Nat) : LinearOp m → AuthShare m
  | .add x y => x + y
  | .sub x y => x - y
  | .neg x => -x
  | .addPublic x c => x.addPublic c key party
  | .subPublic x c => x.subPublic c key party
  | .mulPublic x c => x.scale c
  | .identity x => x

/-- The state of a local operation. -/
structure Linear (m : Modulus) where
  op : LinearOp m
  output : Option (AuthShare m) := none
deriving DecidableEq

namespace Linear

variable {m : Modulus}

/-- Every round computes the result anew. -/
def evaluate (_round : Nat) : Round m (Linear m) Status := do
  let pool ← Round.pool get
  Round.update fun p => { p with output := some (p.op.apply pool.keyShare pool.party) }
  return .done

/-- Take the result. -/
def out (p : Linear m) : Option (AuthShare m) × Linear m :=
  (p.output, { p with output := none })

instance : Protocol m (Linear m) (AuthShare m) := ⟨evaluate, out⟩

end Linear

end JointCircuit
