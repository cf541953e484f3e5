/-
JointCircuit.Action — steps that may fail and keep what they did.

A failing step leaves its state as it was at the moment of failure, and
later steps see that state. Main statements: `within` runs a step on a
part of the state, and neither the outcome nor the rest of the state
depends on the nesting (`within_ok`, `within_error`).
-/
import JointCircuit.Fault

namespace JointCircuit

/-- A step on a state of type `σ` that may fail. -/
abbrev Action (σ : Type) := EStateM Fault σ

namespace Action

/-- Act on a part of the state. -/
def within {σ τ α : Type} (part : σ → τ) (put : τ → σ → σ) (act : Action τ α) : Action σ α :=
  fun s =>
    match act (part s) with
    | .ok a t => .ok a (put t s)
    | .error fault t => .error fault (put t s)

/-- Turn an error of a narrower kind into a fault. -/
def ofExcept {σ ε α : Type} (fault : ε → Fault) : Except ε α → Action σ α
  | .ok a => pure a
  | .error e => throw (fault e)

theorem within_ok {σ τ α : Type} {part : σ → τ} {put : τ → σ → σ} {act : Action τ α} {s : σ}
    {a : α} {t : τ} (h : act (part s) = .ok a t) : within part put act s = .ok a (put t s) := by
  simp [within, h]

theorem within_error {σ τ α : Type} {part : σ → τ} {put : τ → σ → σ} {act : Action τ α} {s : σ}
    {fault : Fault} {t : τ} (h : act (part s) = .error fault t) :
    within part put act s = .error fault (put t s) := by
  simp [within, h]

end Action

end JointCircuit
