/-
JointCircuit.Preprocessing.Material — what a computation uses up.

An input mask is a shared random value that its owner knows; a triple
shares two random values and their product. Both are used once.
-/
import JointCircuit.Share

namespace JointCircuit

/-- A shared random value; its plaintext is known to the party it belongs to. -/
structure InputMask (m : Modulus) where
  plaintext : Option (Element m)
  mask : AuthShare m
deriving DecidableEq

/-- A party's parts of two random values and of their product. -/
structure Triple (m : Modulus) where
  a : AuthShare m
  b : AuthShare m
  c : AuthShare m
deriving DecidableEq

end JointCircuit
