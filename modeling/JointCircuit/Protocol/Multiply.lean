/-
JointCircuit.Protocol.Multiply — products of shared values.

Each pair `(x, y)` uses up a triple `(a, b, c)` with `c = a b`. The
parties open `ε = x - a` and `δ = y - b` for the whole batch in a single
payload; then `x y = c + b ε + a δ + ε δ` is linear in what is shared.
The openings are recorded for the next check.
-/
import JointCircuit.Protocol.Basic

namespace JointCircuit

/-- The state of a batch of products. -/
structure MultiplyBatch (m : Modulus) where
  pairs : List (AuthShare m × AuthShare m)
  /-- A triple for each pair, once drawn. -/
  triples : List (Triple m) := []
  output : Option (List (AuthShare m)) := none
deriving DecidableEq

/-- Consecutive members of a list, two by two; a last odd one is dropped. -/
def pairUp {α : Type} : List α → List (α × α)
  | x :: y :: rest => (x, y) :: pairUp rest
  | _ => []

namespace MultiplyBatch

variable {m : Modulus}

/-- The masked operands in pair order: `ε` and `δ` of the first pair, then of the second. -/
def maskedOperands (p : MultiplyBatch m) : List (AuthShare m) :=
  (p.pairs.zip p.triples).flatMap fun ((x, y), t) => [x - t.a, y - t.b]

/-- Two operands for every pair that has its triple. -/
theorem length_maskedOperands {p : MultiplyBatch m} (h : p.triples.length = p.pairs.length) :
    p.maskedOperands.length = 2 * p.pairs.length := by
  simp [maskedOperands, List.length_flatMap, List.map_const', h, Nat.mul_comm]

/-- The product of one pair from its triple and its two opened values. -/
def product (key : Element m) (party : Nat) (t : Triple m) (opened : Element m × Element m) :
    AuthShare m :=
  let (ε, δ) := opened
  (t.c + t.b.scale ε + t.a.scale δ).addPublic (ε * δ) key party

/-- Add up the payloads of all parties position by position. -/
def openPayloads (m : Modulus) (count : Nat) (payloads : List Bytes) :
    Except WireError (List (Element m)) :=
  payloads.foldlM
    (fun sums payload => (List.zipWith (· + ·) sums ·) <$> Element.decodeAll m count payload)
    (List.replicate count 0)

/-- Round 0 sends the masked operands; later rounds open them. An empty batch needs no exchange. -/
def evaluate (round : Nat) : Round m (MultiplyBatch m) Status := do
  let p ← Round.protocol
  if p.pairs.isEmpty then
    Round.update ({ · with output := some [] })
    return .done
  match round with
  | 0 =>
    let triples ← Round.pool (Pool.nextTriples p.pairs.length)
    Round.update ({ · with triples })
    let masked := ({ p with triples } : MultiplyBatch m).maskedOperands
    Round.mailbox (Mailbox.sendToAll (Element.encodeAll (masked.map (·.share))))
    return .more
  | _ =>
    let payloads ← Round.mailbox Mailbox.receiveFromAll
    let opened ← Action.ofExcept .wire (openPayloads m (2 * p.pairs.length) payloads)
    Round.pool (Pool.pushOpened p.maskedOperands opened)
    let pool ← Round.pool get
    let products := List.zipWith (product pool.keyShare pool.party) p.triples (pairUp opened)
    Round.update ({ · with output := some products })
    return .done

/-- Take the products, in pair order. -/
def out (p : MultiplyBatch m) : Option (List (AuthShare m)) × MultiplyBatch m :=
  (p.output, { p with output := none })

instance : Protocol m (MultiplyBatch m) (List (AuthShare m)) := ⟨evaluate, out⟩

end MultiplyBatch

/-- A single product: a batch of one. -/
structure Multiply (m : Modulus) where
  batch : MultiplyBatch m
deriving DecidableEq

namespace Multiply

variable {m : Modulus}

/-- The product of two shared values. -/
def new (x y : AuthShare m) : Multiply m :=
  ⟨{ pairs := [(x, y)] }⟩

/-- The rounds of the batch. -/
def evaluate (round : Nat) : Round m (Multiply m) Status := do
  Round.within (← Round.protocol).batch (fun batch _ => ⟨batch⟩) (MultiplyBatch.evaluate round)

/-- Take the product. -/
def out (p : Multiply m) : Option (AuthShare m) × Multiply m :=
  let (products, batch) := p.batch.out
  (products.bind (·.head?), ⟨batch⟩)

instance : Protocol m (Multiply m) (AuthShare m) := ⟨evaluate, out⟩

end Multiply

end JointCircuit
