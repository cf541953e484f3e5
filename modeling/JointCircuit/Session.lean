/-
JointCircuit.Session — what one party does, exchange by exchange.

A session either has its result or hands out a frame for every party and
waits for the frames of its peers, or for the news that the exchange
failed. It is a tree that branches on what is received, so nothing about
the peers is assumed; running several sessions against each other is the
business of a transport.

Main statements: sessions form a lawful monad, in which the exchanges of
a sequence are those of its parts, one after another.
-/
import JointCircuit.Mailbox

namespace JointCircuit

/-- Frames received in one exchange, each with the party that sent it. -/
abbrev Delivery := List (Nat × Frame)

/-- The remaining behaviour of a party. -/
inductive Session (α : Type) where
  | finished (result : α)
  | exchange (frames : List Frame) (resume : Except TransportError Delivery → Session α)

namespace Session

variable {α β γ : Type}

/-- Continue with the result of a session. -/
def bind (session : Session α) (next : α → Session β) : Session β :=
  match session with
  | .finished a => next a
  | .exchange frames resume => .exchange frames fun received => (resume received).bind next

instance : Monad Session where
  pure := .finished
  bind := bind

/-- Exchange one frame with every party. -/
def exchangeFrames (frames : List Frame) : Session (Except TransportError Delivery) :=
  .exchange frames .finished

@[simp] theorem pure_eq (a : α) : (pure a : Session α) = .finished a := rfl

@[simp] theorem finished_bind (a : α) (next : α → Session β) :
    (.finished a : Session α) >>= next = next a := rfl

@[simp] theorem exchange_bind (frames : List Frame)
    (resume : Except TransportError Delivery → Session α) (next : α → Session β) :
    (.exchange frames resume : Session α) >>= next
      = .exchange frames fun received => resume received >>= next := rfl

theorem bind_finished (session : Session α) : session >>= .finished = session := by
  induction session with
  | finished a => rfl
  | exchange frames resume ih =>
    simp only [exchange_bind, exchange.injEq, true_and]
    exact funext ih

theorem bind_assoc (session : Session α) (f : α → Session β) (g : β → Session γ) :
    session >>= f >>= g = session >>= fun a => f a >>= g := by
  induction session with
  | finished a => rfl
  | exchange frames resume ih =>
    simp only [exchange_bind, exchange.injEq, true_and]
    exact funext ih

instance : LawfulMonad Session := LawfulMonad.mk'
  (m := Session) (fun s => bind_finished s) (fun _ _ => rfl) (fun s f g => bind_assoc s f g)

end Session

end JointCircuit
