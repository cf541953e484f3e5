/-
JointCircuit.Proofs.Payloads — byte strings that stand for one list only.

The bytes hashed for a list of messages carry the position and the length
of every message before it, so they can be cut in one way (§1). A payload
of elements has no marks at all: it is cut into pieces of one width, and
is accepted exactly if every piece is a number below the modulus. Nothing
but the encoding of a list is accepted as that list (§2).

Main statements: `Digest.framing_injective`, `Element.payload_exact`.
-/
import JointCircuit.Proofs.Batches

namespace JointCircuit

/-! ## §1 Lists of messages -/

namespace Digest

/-- The bytes hashed for a list, message by message. -/
theorem framedFrom_eq_flatMap (position : Nat) (messages : List Bytes) :
    framedFrom position messages = (messages.zipIdx position).flatMap fun (message, i) =>
      Bytes.big 8 i ++ Bytes.big 8 message.length ++ message := by
  induction messages generalizing position with
  | nil => rfl
  | cons message rest ih => rw [framedFrom, List.zipIdx_cons, List.flatMap_cons, ih]

/-- A digest hashes every message after its position and its length, both most significant byte
first, and no two lists are hashed as the same bytes. -/
theorem framing_injective {messages messages' : List Bytes}
    (hfits : ∀ x ∈ messages, x.length < Bytes.capacity 8)
    (hfits' : ∀ x ∈ messages', x.length < Bytes.capacity 8) :
    ofMessages messages = sha3 (framed messages)
      ∧ (framed messages = messages.zipIdx.flatMap fun (message, i) =>
          Bytes.big 8 i ++ Bytes.big 8 message.length ++ message)
      ∧ (framed messages = framed messages' ↔ messages = messages') :=
  ⟨rfl, framedFrom_eq_flatMap 0 messages, framedFrom_inj hfits hfits', congrArg framed⟩

/-- Two empty messages, and one message that looks like the position and length of a second one:
as many bytes are hashed for both, and different ones. -/
theorem framing_injective_nested :
    let two : List Bytes := [[], []]
    let one : List Bytes := [Bytes.big 8 1 ++ Bytes.big 8 0]
    (∀ x ∈ two, x.length < Bytes.capacity 8) ∧ (∀ x ∈ one, x.length < Bytes.capacity 8)
      ∧ (framed two).length = (framed one).length ∧ framed two ≠ framed one := by
  intro two one
  have hfits : ∀ x ∈ two, x.length < Bytes.capacity 8 := by decide
  have hfits' : ∀ x ∈ one, x.length < Bytes.capacity 8 := by decide
  refine ⟨hfits, hfits', by decide, fun h => ?_⟩
  have hlists := (framing_injective hfits hfits').2.2.mp h
  exact absurd hlists (by decide)

end Digest

/-! ## §2 Payloads of elements -/

namespace Element

variable {m : Modulus} {count : Nat} {bytes : Bytes}

/-- The piece of a payload at an index. -/
def piece (m : Modulus) (bytes : Bytes) (i : Nat) : Bytes :=
  (bytes.drop (i * m.byteLength)).take m.byteLength

theorem piece_zero : piece m bytes 0 = bytes.take m.byteLength := by
  rw [piece, Nat.zero_mul, List.drop_zero]

theorem piece_succ (i : Nat) : piece m bytes (i + 1) = piece m (bytes.drop m.byteLength) i := by
  rw [piece, piece, List.drop_drop, Nat.succ_mul, Nat.add_comm]

/-- Of the right length only a number that is not below the modulus is refused. -/
theorem ofBytes_eq_error (h : bytes.length = m.byteLength) {e : WireError} :
    ofBytes m bytes = .error e ↔ m.size ≤ Bytes.ofBig bytes ∧ e = .nonCanonical := by
  rw [ofBytes, if_pos h]
  split
  · rename_i hlt
    refine iff_of_false (fun hfails => ?_) fun hge => Nat.not_le.mpr hlt hge.1
    cases hfails
  · rename_i hge
    constructor
    · rintro ⟨⟩
      exact ⟨Nat.le_of_not_lt hge, rfl⟩
    · rintro ⟨-, rfl⟩
      rfl

/-- Pieces fail to decode exactly if one of them is no element. -/
theorem decodePieces_eq_error (h : bytes.length = count * m.byteLength) {e : WireError} :
    decodePieces m count bytes = .error e
      ↔ (∃ i < count, m.size ≤ Bytes.ofBig (piece m bytes i)) ∧ e = .nonCanonical := by
  induction count generalizing bytes with
  | zero => exact iff_of_false nofun fun ⟨⟨_, hi, _⟩, _⟩ => absurd hi (Nat.not_lt_zero _)
  | succ count ih =>
    have htake : (bytes.take m.byteLength).length = m.byteLength := by
      rw [List.length_take, h, Nat.succ_mul]
      omega
    have hdrop : (bytes.drop m.byteLength).length = count * m.byteLength := by
      rw [List.length_drop, h, Nat.succ_mul, Nat.add_sub_cancel]
    rw [Nat.exists_lt_succ_left, piece_zero]
    simp only [piece_succ]
    cases hfirst : ofBytes m (bytes.take m.byteLength) with
    | error e' =>
      obtain ⟨hge, rfl⟩ := (ofBytes_eq_error htake).mp hfirst
      simp only [decodePieces, hfirst, hge, true_or, true_and]
      exact ⟨fun herror => by cases herror; rfl, fun he => by rw [he]; rfl⟩
    | ok x =>
      have hlt : ¬ m.size ≤ Bytes.ofBig (bytes.take m.byteLength) := fun hge => by
        rw [(ofBytes_eq_error htake).mpr ⟨hge, rfl⟩] at hfirst
        cases hfirst
      simp only [hlt, false_or, ← ih hdrop]
      cases hrest : decodePieces m count (bytes.drop m.byteLength) with
      | error e' => simp [decodePieces, hfirst, hrest, bind, Except.bind]
      | ok xs => simp [decodePieces, hfirst, hrest, bind, Except.bind, pure, Except.pure]

/-- Where the announced length does not wrap around, a payload is refused for its length if that is
wrong, and otherwise for a piece that is no element. -/
theorem decodeAll_eq_error (hfits : count * m.byteLength < Bytes.capacity 8) {e : WireError} :
    decodeAll m count bytes = .error e
      ↔ (bytes.length ≠ count * m.byteLength
          ∧ e = .length (count * m.byteLength) bytes.length)
        ∨ (bytes.length = count * m.byteLength
          ∧ (∃ i < count, m.size ≤ Bytes.ofBig (piece m bytes i)) ∧ e = .nonCanonical) := by
  rw [decodeAll, announcedLength, Nat.mod_eq_of_lt hfits]
  by_cases hlength : bytes.length = count * m.byteLength
  · have hcount : bytes.length / m.byteLength = count := by
      rw [hlength, Nat.mul_div_cancel _ m.byteLength_pos]
    rw [if_pos (.inl hlength), hcount, decodePieces_eq_error hlength]
    simp only [hlength, ne_eq, not_true_eq_false, false_and, true_and, false_or]
  · rw [if_neg (or_self_iff.not.mpr hlength)]
    simp only [hlength, ne_eq, not_false_eq_true, true_and, false_and, or_false]
    exact ⟨fun h => by cases h; rfl, fun h => by rw [h]⟩

/-- All other payloads are accepted. -/
theorem exists_decodeAll_eq_ok (hfits : count * m.byteLength < Bytes.capacity 8) :
    (∃ xs, decodeAll m count bytes = .ok xs) ↔ bytes.length = count * m.byteLength
      ∧ ∀ i < count, Bytes.ofBig (piece m bytes i) < m.size := by
  constructor
  · rintro ⟨xs, hxs⟩
    have hnever (e : WireError) : decodeAll m count bytes ≠ .error e := by
      rw [hxs]
      nofun
    have hlength : bytes.length = count * m.byteLength := by
      by_contra hne
      exact hnever _ ((decodeAll_eq_error hfits).mpr (.inl ⟨hne, rfl⟩))
    refine ⟨hlength, fun i hi => ?_⟩
    by_contra hge
    exact hnever _
      ((decodeAll_eq_error hfits).mpr (.inr ⟨hlength, ⟨i, hi, Nat.le_of_not_lt hge⟩, rfl⟩))
  · rintro ⟨hlength, hpieces⟩
    cases hdecode : decodeAll m count bytes with
    | ok xs => exact ⟨xs, rfl⟩
    | error e =>
      rcases (decodeAll_eq_error hfits).mp hdecode with ⟨hne, -⟩ | ⟨-, ⟨i, hi, hge⟩, -⟩
      · exact absurd hlength hne
      · exact absurd (hpieces i hi) (Nat.not_lt.mpr hge)

/-- What is accepted is the encoding of what it is read as. -/
theorem encodeAll_of_decodeAll (hfits : count * m.byteLength < Bytes.capacity 8)
    {xs : List (Element m)} (h : decodeAll m count bytes = .ok xs) :
    xs.length = count ∧ encodeAll xs = bytes := by
  obtain ⟨hlength, -⟩ := (exists_decodeAll_eq_ok hfits).mp ⟨xs, h⟩
  have hbytes := (decodeAll_eq_ok_iff hlength).mp h
  rw [hbytes, length_encodeAll] at hlength
  exact ⟨Nat.mul_right_cancel m.byteLength_pos hlength, hbytes.symm⟩

/-- The encoding of a list has the length of its elements and is read back as the list. A payload is
accepted for a count exactly if it has that many pieces and each of them, read most significant
byte first, is below the modulus; then it is the encoding of what it was read as. It is refused for
its length exactly if that is wrong, and otherwise for a number that is not below the modulus. -/
theorem payload_exact (m : Modulus) :
    (∀ xs : List (Element m), (encodeAll xs).length = xs.length * m.byteLength
      ∧ decodeAll m xs.length (encodeAll xs) = .ok xs)
    ∧ ∀ (bytes : Bytes) (count : Nat), count * m.byteLength < Bytes.capacity 8 →
      ((∃ xs, decodeAll m count bytes = .ok xs) ↔ bytes.length = count * m.byteLength
        ∧ ∀ i < count, Bytes.ofBig (piece m bytes i) < m.size)
      ∧ (∀ xs, decodeAll m count bytes = .ok xs → xs.length = count ∧ encodeAll xs = bytes)
      ∧ (∀ expected actual, decodeAll m count bytes = .error (.length expected actual)
        ↔ bytes.length ≠ count * m.byteLength
          ∧ expected = count * m.byteLength ∧ actual = bytes.length)
      ∧ (decodeAll m count bytes = .error .nonCanonical ↔ bytes.length = count * m.byteLength
        ∧ ∃ i < count, m.size ≤ Bytes.ofBig (piece m bytes i)) := by
  refine ⟨fun xs => ⟨length_encodeAll xs, decodeAll_encodeAll xs⟩, fun bytes count hfits => ?_⟩
  refine ⟨exists_decodeAll_eq_ok hfits, fun xs => encodeAll_of_decodeAll hfits,
    fun expected actual => ?_, ?_⟩
  · rw [decodeAll_eq_error hfits]
    simp
  · rw [decodeAll_eq_error hfits]
    simp

/-- Two elements below the prime `2 ^ 61 - 1` are accepted; the prime itself in the second place is
refused, and so is a payload of one byte less. -/
theorem payload_exact_pair : 2 * Modulus.mersenne61.byteLength < Bytes.capacity 8
    ∧ (∃ xs, decodeAll .mersenne61 2 (Bytes.big 8 5 ++ Bytes.big 8 (2 ^ 61 - 2)) = .ok xs)
    ∧ decodeAll .mersenne61 2 (Bytes.big 8 5 ++ Bytes.big 8 (2 ^ 61 - 1)) = .error .nonCanonical
    ∧ decodeAll .mersenne61 2 (Bytes.big 8 5 ++ Bytes.big 7 9) = .error (.length 16 15) := by
  have hfits : 2 * Modulus.mersenne61.byteLength < Bytes.capacity 8 := by decide
  have h := fun bytes => (payload_exact .mersenne61).2 bytes 2 hfits
  exact ⟨hfits, (h _).1.mpr (by decide), (h _).2.2.2.mpr (by decide),
    ((h _).2.2.1 16 15).mpr (by decide)⟩

end Element

end JointCircuit
