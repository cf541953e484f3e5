/-
JointCircuit.Proofs.Records — frames survive their channel.

Counts, messages and frames are written one behind the other without
separators, so each reader has to stop exactly where its writer did,
whatever follows. The statements therefore carry the bytes that follow.
Every number written for a frame is at most the length of its record,
and the limit of a record is far below the largest count.

Main statements: `readFirst_put?` — a record on a channel is read as the
frame it was written for, and nothing behind it is touched; `readAll_put?`
— the records of a channel are read as their frames, in order, to the
end. `put?_isSome` says which frames have a record.
-/
import JointCircuit.Transport.Frame
import Mathlib.Tactic.SplitIfs

namespace JointCircuit

namespace Frame

/-! ## §1 Counts -/

/-- The first bytes of a string, when the string is known to begin with them. -/
theorem splitBytes?_append (front rest : Bytes) :
    splitBytes? front.length (front ++ rest) = some (front, rest) := by
  simp [splitBytes?]

theorem decodeLittle?_little {width n : Nat} (h : n < Bytes.capacity width) (rest : Bytes) :
    decodeLittle? width (Bytes.little width n ++ rest) = some (n, rest) := by
  have hsplit := splitBytes?_append (Bytes.little width n) rest
  rw [Bytes.length_little] at hsplit
  rw [decodeLittle?, hsplit, Option.map_some]
  simp only [Bytes.ofLittle_little h]

theorem length_encodeCount_pos (n : Nat) : 0 < (encodeCount n).length := by
  unfold encodeCount
  split_ifs <;> simp

/-- A count is read back, whatever follows. -/
theorem decodeCount?_encodeCount {n : Nat} (h : n < Bytes.capacity 8) (rest : Bytes) :
    decodeCount? (encodeCount n ++ rest) = some (n, rest) := by
  unfold encodeCount
  split_ifs with h₁ h₂ h₄
  · have hbyte : (UInt8.ofNat n).toNat = n := UInt8.toNat_ofNat_of_lt' (Nat.lt_trans h₁ (by decide))
    have hmark : UInt8.ofNat n < 251 := by
      rw [UInt8.lt_iff_toNat_lt, hbyte]
      exact h₁
    rw [List.singleton_append, decodeCount?, if_pos hmark, hbyte]
  · exact decodeLittle?_little h₂ rest
  · exact decodeLittle?_little h₄ rest
  · exact decodeLittle?_little h rest

/-! ## §2 Messages -/

theorem decodeMessage?_encodeMessage {message : Bytes} (h : message.length < Bytes.capacity 8)
    (rest : Bytes) : decodeMessage? (encodeMessage message ++ rest) = some (message, rest) := by
  rw [encodeMessage, List.append_assoc, decodeMessage?, decodeCount?_encodeCount h]
  exact splitBytes?_append message rest

/-- Messages are read back in order, whatever follows. -/
theorem decodeMessages?_flatMap {frame : Frame}
    (h : ∀ message ∈ frame, message.length < Bytes.capacity 8) (rest : Bytes) :
    decodeMessages? frame.length (frame.flatMap encodeMessage ++ rest) = some (frame, rest) := by
  induction frame with
  | nil => rfl
  | cons message frame ih =>
    have hmessage := h message List.mem_cons_self
    have hframe := ih fun other hother => h other (List.mem_cons_of_mem message hother)
    rw [List.flatMap_cons, List.append_assoc, List.length_cons, decodeMessages?,
      decodeMessage?_encodeMessage hmessage]
    simp only [Option.bind_eq_bind, Option.bind_some, hframe]
    rfl

/-! ## §3 Records -/

/-- A record is longer than each of its messages: their counts come before them. -/
theorem length_lt_encode {frame : Frame} {message : Bytes} (h : message ∈ frame) :
    message.length + 1 < (encode frame).length := by
  obtain ⟨front, rear, rfl⟩ := List.append_of_mem h
  have hcount := length_encodeCount_pos (front ++ message :: rear).length
  have hlength := length_encodeCount_pos message.length
  simp only [encode, encodeMessage, List.length_append, List.flatMap_append, List.flatMap_cons]
    at hcount ⊢
  omega

theorem length_le_flatMap (frame : Frame) :
    frame.length ≤ (frame.flatMap encodeMessage).length := by
  induction frame with
  | nil => exact Nat.le_refl 0
  | cons message frame ih =>
    have hpos := length_encodeCount_pos message.length
    simp only [List.flatMap_cons, encodeMessage, List.length_append, List.length_cons] at ih ⊢
    omega

theorem decode?_encode {frame : Frame} (h : (encode frame).length ≤ recordLimit) :
    decode? (encode frame) = some frame := by
  have hlimit : recordLimit < Bytes.capacity 8 := by decide
  have hcount : frame.length < Bytes.capacity 8 := by
    have := length_le_flatMap frame
    simp only [encode, List.length_append] at h
    omega
  have hmessages : ∀ message ∈ frame, message.length < Bytes.capacity 8 := fun message hmem => by
    have := length_lt_encode hmem
    omega
  have hframe := decodeMessages?_flatMap hmessages []
  rw [List.append_nil] at hframe
  rw [encode, decode?, decodeCount?_encodeCount hcount]
  simp only [Option.bind_eq_bind, Option.bind_some, hframe]
  rfl

theorem put?_eq_some {frame : Frame} {bytes : Bytes} (h : put? frame = some bytes) :
    (encode frame).length ≤ recordLimit
      ∧ bytes = Bytes.big 4 (encode frame).length ++ encode frame := by
  simp only [put?] at h
  split_ifs at h with hfits
  exact ⟨hfits, (Option.some.inj h).symm⟩

/-- The frames that a channel carries are those whose record is not too long. -/
theorem put?_isSome {frame : Frame} :
    (put? frame).isSome ↔ (encode frame).length ≤ recordLimit := by
  simp only [put?]
  split_ifs with hfits <;> simpa using hfits

/-- No channel carries a message as long as a record may be. -/
theorem put?_eq_none {frame : Frame} {message : Bytes} (h : message ∈ frame)
    (hlong : recordLimit ≤ message.length) : put? frame = none := by
  have := length_lt_encode h
  rw [← Option.not_isSome_iff_eq_none, put?_isSome]
  omega

/-- What was put on a channel first is read first, and what follows stays. -/
theorem readFirst_put? {frame : Frame} {bytes : Bytes} (h : put? frame = some bytes)
    (rest : Bytes) : readFirst (bytes ++ rest) = .frame frame rest := by
  obtain ⟨hfits, rfl⟩ := put?_eq_some h
  have hheader : splitBytes? 4 (Bytes.big 4 (encode frame).length ++ (encode frame ++ rest))
      = some (Bytes.big 4 (encode frame).length, encode frame ++ rest) := by
    have := splitBytes?_append (Bytes.big 4 (encode frame).length) (encode frame ++ rest)
    rwa [Bytes.length_big] at this
  have hlength : Bytes.ofBig (Bytes.big 4 (encode frame).length) = (encode frame).length :=
    Bytes.ofBig_big (Nat.lt_of_le_of_lt hfits (by decide))
  have hcount := length_encodeCount_pos frame.length
  have hbytes : (Bytes.big 4 (encode frame).length ++ (encode frame ++ rest)).isEmpty = false := by
    simp [List.isEmpty_eq_false_iff, encode, List.ne_nil_of_length_pos hcount]
  have hrecord : (encode frame ++ rest).isEmpty = false := by
    simp [List.isEmpty_eq_false_iff, encode, List.ne_nil_of_length_pos hcount]
  rw [List.append_assoc, readFirst, hbytes, hheader]
  simp only [Bool.false_eq_true, if_false, hlength, Nat.not_lt.mpr hfits, hrecord, Bool.false_and,
    splitBytes?_append, decode?_encode hfits]

/-- The records on a channel are read as the frames they were written for. -/
theorem readAll_put? {frames : List Frame} {records : List Bytes}
    (h : frames.map put? = records.map some) : readAll records.flatten = (frames, true) := by
  have hread : ∀ budget, records.flatten.length ≤ budget →
      readUpTo budget records.flatten = (frames, true) := by
    induction frames generalizing records with
    | nil =>
      obtain rfl : records = [] := by simpa using h.symm
      rintro (_ | budget) - <;> rfl
    | cons frame frames ih =>
      obtain _ | ⟨record, records⟩ := records
      · cases h
      obtain ⟨hframe, hframes⟩ := List.cons.inj h
      have hrecord : 0 < record.length := by
        obtain ⟨-, rfl⟩ := put?_eq_some hframe
        simp only [List.length_append, Bytes.length_big]
        omega
      rintro (_ | budget) hbudget
      · simp only [List.flatten_cons, List.length_append] at hbudget
        omega
      · have hrest := ih hframes budget (by
          simp only [List.flatten_cons, List.length_append] at hbudget
          omega)
        rw [List.flatten_cons, readUpTo, readFirst_put? hframe]
        simp only [hrest]
  exact hread _ (Nat.le_refl _)

end Frame

end JointCircuit
