/-
JointCircuit.Digest.Framing — digests of message lists and commitments.

A list of messages is hashed with each message preceded by its position
and its length, both as eight bytes. The framing makes the hashed bytes
determine the list (`framedFrom_inj`), so two lists share a digest only
if the hash function collides. A commitment is the plain digest of an
opening.
-/
import JointCircuit.Digest.Sha3

namespace JointCircuit

namespace Digest

/-- The bytes hashed for messages that stand at positions from `position` on. -/
def framedFrom : (position : Nat) → List Bytes → Bytes
  | _, [] => []
  | position, message :: rest =>
    Bytes.big 8 position ++ Bytes.big 8 message.length ++ message ++ framedFrom (position + 1) rest

/-- The bytes hashed for a list of messages. -/
def framed (messages : List Bytes) : Bytes :=
  framedFrom 0 messages

/-- Messages whose lengths fit their eight bytes are determined by the bytes hashed for them. -/
theorem framedFrom_inj {position : Nat} {messages messages' : List Bytes}
    (hfits : ∀ x ∈ messages, x.length < Bytes.capacity 8)
    (hfits' : ∀ x ∈ messages', x.length < Bytes.capacity 8)
    (h : framedFrom position messages = framedFrom position messages') : messages = messages' := by
  induction messages generalizing position messages' with
  | nil =>
    cases messages' with
    | nil => rfl
    | cons x' rest' =>
      have hlength := congrArg List.length h
      simp only [framedFrom, List.length_append, List.length_nil, Bytes.length_big] at hlength
      omega
  | cons x rest ih =>
    cases messages' with
    | nil =>
      have hlength := congrArg List.length h
      simp only [framedFrom, List.length_append, List.length_nil, Bytes.length_big] at hlength
      omega
    | cons x' rest' =>
      simp only [framedFrom, List.append_assoc] at h
      obtain ⟨-, h⟩ := List.append_inj h rfl
      obtain ⟨hlengths, h⟩ := List.append_inj h (by simp only [Bytes.length_big])
      have hlength : x.length = x'.length := by
        rw [← Bytes.ofBig_big (hfits x List.mem_cons_self), hlengths,
          Bytes.ofBig_big (hfits' x' List.mem_cons_self)]
      obtain ⟨rfl, h⟩ := List.append_inj h hlength
      have hrest := ih (fun y hy => hfits y (List.mem_cons_of_mem _ hy))
        (fun y hy => hfits' y (List.mem_cons_of_mem _ hy)) (List.append_cancel_left h)
      rw [hrest]

/-- The digest of a list of messages. -/
def ofMessages (messages : List Bytes) : Bytes :=
  sha3 (framed messages)

/-- The commitment to an opening. -/
def commitment (opening : Bytes) : Bytes :=
  sha3 opening

@[simp] theorem length_ofMessages (messages : List Bytes) :
    (ofMessages messages).length = digestLength := by
  simp [ofMessages]

@[simp] theorem length_commitment (opening : Bytes) :
    (commitment opening).length = digestLength := by
  simp [commitment]

end Digest

end JointCircuit
