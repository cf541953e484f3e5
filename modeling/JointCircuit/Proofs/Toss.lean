/-
JointCircuit.Proofs.Toss — honest broadcasts, commitments and coin tosses.

§1 to §3 say what one party does in a round of a broadcast, of a
commitment and of a coin toss, for whatever it receives; from this the
rounds of all parties are put together.

Main statement: `CoinToss.unison` — parties that toss a coin honestly
all end with the exclusive or of their seeds.
-/
import JointCircuit.Protocol.CoinToss
import JointCircuit.Proofs.Unison

namespace JointCircuit

variable {m : Modulus} {n : Nat}

/-! ## §1 Broadcasts -/

/-- Number of rounds in which digests are compared after a broadcast. -/
def confirmations (n : Nat) : Nat :=
  if needsValidation n then 1 else 0

theorem confirmations_le (n : Nat) : confirmations n ≤ 1 := by
  unfold confirmations
  split <;> decide

namespace Broadcast

theorem turn_send (b : Broadcast) (pool : Pool m) :
    Turn (n := n) (evaluate 0) b pool (fun _ => []) (.ok .more) { b with message := none } pool
      fun _ => [b.message.getD []] := by
  intro party outgoing rest bytes
  simp [evaluate]

/-- With two parties the received messages are not compared. -/
theorem turn_receive {pool : Pool m} (h : needsValidation pool.parties = false) (b : Broadcast)
    (messages : Fin n → Bytes) :
    Turn (evaluate 1) b pool (fun j => [messages j]) (.ok .done)
      { b with received := some (List.ofFn messages) } pool fun _ => [] := by
  intro party outgoing rest bytes
  simp [evaluate, h]

theorem turn_digest {pool : Pool m} (h : needsValidation pool.parties = true) (b : Broadcast)
    (messages : Fin n → Bytes) :
    Turn (evaluate 1) b pool (fun j => [messages j]) (.ok .more)
      { b with
        digest := Digest.ofMessages (List.ofFn messages)
        received := some (List.ofFn messages) }
      pool fun _ => [Digest.ofMessages (List.ofFn messages)] := by
  intro party outgoing rest bytes
  simp [evaluate, h, Round.sendDigest]

theorem turn_compare (round : Nat) (b : Broadcast) (pool : Pool m) :
    Turn (n := n) (evaluate (round + 2)) b pool (fun _ => [b.digest]) (.ok .done) b pool
      fun _ => [] := by
  intro party outgoing rest bytes
  simp [evaluate, Round.compareDigests]

/-- Once everybody has sent, everybody ends with the messages of all parties. -/
theorem unison {key : Fin n → Element m} (messages : Fin n → Bytes) (b : Fin n → Broadcast) :
    Unison key (Finish fun b' => ∀ i, (b' i).received = some (List.ofFn messages))
      (List.replicate (confirmations n + 1) .none) 1 b fun i _ => [messages i] := by
  let received (i : Fin n) : Broadcast := { b i with received := some (List.ofFn messages) }
  let digest := Digest.ofMessages (List.ofFn messages)
  cases hv : needsValidation n with
  | false =>
    have hcount : confirmations n = 0 := by simp [confirmations, hv]
    rw [hcount]
    refine Unison.of_done received (fun openings pools table i => ?_) fun i => rfl
    rw [← table.parties i] at hv
    exact turn_receive hv (b i) messages
  | true =>
    have hcount : confirmations n = 1 := by simp [confirmations, hv]
    rw [hcount]
    refine Unison.of_more (fun i => { received i with digest }) (fun _ _ => [digest])
      (fun openings pools table i => ?_)
      (Unison.of_done (fun i => { received i with digest }) (fun openings pools table i => ?_)
        fun i => rfl)
    · rw [← table.parties i] at hv
      exact turn_digest hv (b i) messages
    · exact turn_compare 0 _ (pools i)

end Broadcast

/-! ## §2 Commitments -/

namespace Commit

/-- A commitment that has begun in round `start`, with this randomness. -/
def begun (value randomness : Bytes) (start : Nat) : Commit :=
  { value
    opening := value ++ randomness
    phase := .commitments { message := none }
    phaseStart := start }

theorem turn_begin (value : Bytes) (start : Nat) (pool : Pool m) :
    Turn (n := n) (evaluate start) (new value) pool (fun _ => []) (.ok .more)
      (begun value (Draw.bytes randomnessLength pool.localGenerator).1 start)
      { pool with localGenerator := (Draw.bytes randomnessLength pool.localGenerator).2 }
      fun _ => [Digest.commitment
        (value ++ (Draw.bytes randomnessLength pool.localGenerator).1)] := by
  intro party outgoing rest bytes
  have hround : roundsSince start start = 0 := by simp [roundsSince]
  simp [evaluate, begin, new, hround, evaluateCommitments, Broadcast.evaluate,
    Broadcast.new, begun]

variable {round elapsed : Nat} {p : Commit} {b b' : Broadcast} {pool pool' : Pool m}
  {takes gives : Fin n → Frame}

/-- While the commitments are broadcast, a commitment proceeds with that broadcast. -/
theorem turn_commitments (hphase : p.phase = .commitments b)
    (helapsed : roundsSince p.phaseStart round = elapsed)
    (turn : Turn (Broadcast.evaluate elapsed) b pool takes (.ok .more) b' pool' gives) :
    Turn (evaluate round) p pool takes (.ok .more) { p with phase := .commitments b' } pool'
      gives := by
  intro party outgoing rest bytes
  simp [evaluate, hphase, helapsed, evaluateCommitments, turn party outgoing rest bytes]

/-- When the commitments are in, the openings go out in the same round. -/
theorem turn_open (hphase : p.phase = .commitments b)
    (helapsed : roundsSince p.phaseStart round = elapsed) {commitments : List Bytes}
    (hlength : ∀ c ∈ commitments, c.length = digestLength)
    (hreceived : b'.received = some commitments)
    (turn : Turn (Broadcast.evaluate elapsed) b pool takes (.ok .done) b' pool' fun _ => []) :
    Turn (evaluate round) p pool takes (.ok .more)
      { p with
        opening := []
        phase := .openings { message := none }
        phaseStart := round
        commitments }
      pool' fun _ => [p.opening] := by
  intro party outgoing rest bytes
  have hall : commitments.findIdx? (·.length ≠ digestLength) = none := by
    rw [List.findIdx?_eq_none_iff]
    intro c hc
    simpa using hlength c hc
  simp only [decide_not] at hall
  have hsend := Broadcast.turn_send (.new p.opening) pool' party outgoing rest bytes
  simp only [List.nil_append, Action.outcome_ok, Broadcast.new, Option.getD_some] at hsend
  simp [evaluate, hphase, helapsed, evaluateCommitments, turn party outgoing rest bytes,
    takeReceived, Broadcast.out, hreceived, hall, Broadcast.new, hsend]

/-- While the openings are broadcast, a commitment proceeds with that broadcast. -/
theorem turn_openings (hphase : p.phase = .openings b)
    (helapsed : roundsSince p.phaseStart round = elapsed)
    (turn : Turn (Broadcast.evaluate elapsed) b pool takes (.ok .more) b' pool' gives) :
    Turn (evaluate round) p pool takes (.ok .more) { p with phase := .openings b' } pool'
      gives := by
  intro party outgoing rest bytes
  simp [evaluate, hphase, helapsed, evaluateOpenings, turn party outgoing rest bytes]

/-- When the openings are in and fit their commitments, the values are known. -/
theorem turn_verify (hphase : p.phase = .openings b)
    (helapsed : roundsSince p.phaseStart round = elapsed) {openings values : List Bytes}
    (hreceived : b'.received = some openings)
    (hverify : verifyFrom 1 (openings.zip p.commitments) = .ok values)
    (turn : Turn (Broadcast.evaluate elapsed) b pool takes (.ok .done) b' pool' fun _ => []) :
    Turn (evaluate round) p pool takes (.ok .done)
      { p with phase := .finished, output := some values } pool' fun _ => [] := by
  intro party outgoing rest bytes
  simp [evaluate, hphase, helapsed, evaluateOpenings, turn party outgoing rest bytes,
    takeReceived, Broadcast.out, hreceived, hverify]

/-- Openings fit the commitments that were made to them. -/
theorem verifyFrom_commitment (party : Nat) (openings : List (Bytes × Bytes))
    (h : ∀ o ∈ openings, o.2.length = randomnessLength) :
    verifyFrom party (openings.map fun o => (o.1 ++ o.2, Digest.commitment (o.1 ++ o.2)))
      = .ok (openings.map (·.1)) := by
  induction openings generalizing party with
  | nil => rfl
  | cons o openings ih =>
    have hvalue : openingValue? (o.1 ++ o.2) (Digest.commitment (o.1 ++ o.2)) = some o.1 := by
      have hlength := h o List.mem_cons_self
      simp [openingValue?, hlength]
    have hrest := ih (party + 1) fun o ho => h o (List.mem_cons_of_mem _ ho)
    simp only [List.map_cons, verifyFrom, hvalue, hrest]
    rfl

theorem roundsSince_add (start elapsed : Nat) : roundsSince start (start + elapsed) = elapsed := by
  rw [roundsSince_of_le (by omega)]
  omega

theorem zip_ofFn {α β : Type} (f : Fin n → α) (g : Fin n → β) :
    (List.ofFn f).zip (List.ofFn g) = List.ofFn fun i => (f i, g i) := by
  refine List.ext_getElem (by simp) fun k _ _ => ?_
  simp

/-- Once everybody has sent its opening, everybody ends with the values of all parties. -/
theorem unison_openings {key : Fin n → Element m} (values randomness : Fin n → Bytes)
    (hlength : ∀ i, (randomness i).length = randomnessLength) (p : Fin n → Commit)
    (hcommitments : ∀ i, (p i).commitments
      = List.ofFn fun j => Digest.commitment (values j ++ randomness j))
    {start : Nat} (hstart : ∀ i, (p i).phaseStart = start) :
    Unison key (Finish fun p => ∀ i, (p i).output = some (List.ofFn values))
      (List.replicate (confirmations n) .none ++ [.none]) (start + 1)
      (fun i => { p i with phase := .openings { message := none } })
      fun i _ => [values i ++ randomness i] := by
  refine Unison.embed start (fun i b => { p i with phase := .openings b })
    (Broadcast.unison (fun i => values i ++ randomness i) fun _ => { message := none })
    (fun round i b pool takes b' pool' gives turn => ?_) ?_
  · have helapsed : roundsSince (p i).phaseStart (start + round) = round := by
      rw [hstart i, roundsSince_add]
    exact turn_openings rfl helapsed turn
  intro b cue b' openings pools pools' table hreceived turns
  refine ⟨.ok .done, fun i => { p i with phase := .finished, output := some (List.ofFn values) },
    pools', Traffic.silent, fun i => ?_, fun i => ⟨_, rfl⟩, rfl, rfl, rfl, fun i => rfl⟩
  have helapsed : roundsSince (p i).phaseStart (start + (1 + confirmations n))
      = 1 + confirmations n := by
    rw [hstart i, roundsSince_add]
  have hlengths : ∀ o ∈ List.ofFn fun i => (values i, randomness i),
      o.2.length = randomnessLength := fun o ho => by
    obtain ⟨j, rfl⟩ := List.mem_ofFn.mp ho
    exact hlength j
  have hverify := verifyFrom_commitment 1 (List.ofFn fun i => (values i, randomness i)) hlengths
  simp only [List.map_ofFn, Function.comp_def] at hverify
  refine turn_verify (p := { p i with phase := .openings (b i) }) rfl helapsed (hreceived i) ?_
    (turns i)
  rw [hcommitments i, zip_ofFn]
  exact hverify

/-- Once everybody has begun, everybody ends with the values of all parties. -/
theorem unison {key : Fin n → Element m} (values randomness : Fin n → Bytes)
    (hlength : ∀ i, (randomness i).length = randomnessLength) (start : Nat) :
    Unison key (Finish fun p => ∀ i, (p i).output = some (List.ofFn values))
      (List.replicate (2 * confirmations n + 1 + 1) .none)
      (start + 1) (fun i => begun (values i) (randomness i) start)
      fun i _ => [Digest.commitment (values i ++ randomness i)] := by
  have hrounds : List.replicate (2 * confirmations n + 1 + 1) (.none : Effect m n)
      = List.replicate (confirmations n) .none
        ++ .none :: (List.replicate (confirmations n) .none ++ [.none]) := by
    refine (List.eq_replicate_iff.mpr ⟨?_, ?_⟩).symm
    · simp only [List.length_append, List.length_replicate, List.length_cons, List.length_nil]
      omega
    · intro effect h
      simp only [List.mem_append, List.mem_cons, List.mem_replicate, List.not_mem_nil, or_false]
        at h
      tauto
  rw [hrounds]
  refine Unison.embed start
    (fun i b => { begun (values i) (randomness i) start with phase := .commitments b })
    (Broadcast.unison (fun i => Digest.commitment (values i ++ randomness i))
      fun _ => { message := none })
    (fun round i b pool takes b' pool' gives turn =>
      turn_commitments rfl (roundsSince_add start round) turn) ?_
  intro b cue b' openings pools pools' table hreceived turns
  let opened (i : Fin n) : Commit :=
    { begun (values i) (randomness i) start with
      opening := []
      phaseStart := start + (1 + confirmations n)
      commitments := List.ofFn fun j => Digest.commitment (values j ++ randomness j) }
  refine ⟨.ok .more, fun i => { opened i with phase := .openings { message := none } }, pools',
    fun i _ => [values i ++ randomness i], fun i => ?_, fun i => ⟨_, rfl⟩,
    unison_openings values randomness hlength opened (fun i => rfl) (fun i => rfl)⟩
  refine turn_open rfl (roundsSince_add start _) ?_ (hreceived i) (turns i)
  intro c hc
  obtain ⟨j, rfl⟩ := List.mem_ofFn.mp hc
  exact Digest.length_commitment _

end Commit

/-! ## §3 Coin tosses -/

theorem length_wordBytes (count : Nat) (g : Generator) :
    (Draw.wordBytes count g).1.length = 4 * count := by
  induction count generalizing g with
  | zero => rfl
  | succ count ih =>
    show (Bytes.little 4 _ ++ (Draw.wordBytes count _).1).length = _
    rw [List.length_append, Bytes.length_little, ih]
    omega

theorem length_bytes (length : Nat) (g : Generator) : (Draw.bytes length g).1.length = length := by
  show ((Draw.wordBytes ((length + 3) / 4) g).1.take length).length = length
  rw [List.length_take, length_wordBytes]
  omega

theorem Seed.ofBytes?_toList (seed : Seed) : Seed.ofBytes? seed.toList = some seed := by
  have hlength : seed.toList.length = 32 := by simp
  rw [Seed.ofBytes?, dif_pos hlength]
  rfl

/-- The exclusive or of the seeds of all parties. -/
def Seed.joint (seeds : Fin n → Seed) : Seed :=
  (List.ofFn seeds).foldl Seed.xor (Vector.replicate 32 0)

namespace CoinToss

theorem combineFrom_toList (party : Nat) (joint : Seed) (seeds : List Seed) :
    combineFrom party joint (seeds.map (·.toList)) = .ok (seeds.foldl Seed.xor joint) := by
  induction seeds generalizing party joint with
  | nil => rfl
  | cons seed seeds ih => simp [combineFrom, Seed.ofBytes?_toList, ih]

theorem combine_ofFn (seeds : Fin n → Seed) :
    combine (List.ofFn fun i => (seeds i).toList) = .ok (Seed.joint seeds) := by
  have h := combineFrom_toList 1 (Vector.replicate 32 0) (List.ofFn seeds)
  rw [List.map_ofFn] at h
  exact h

/-- The seed that a party with this generator contributes. -/
def ownSeed (g : Generator) : Seed :=
  (Draw.seed g).1

/-- The randomness of the commitment to that seed. -/
def ownRandomness (g : Generator) : Bytes :=
  (Draw.bytes Commit.randomnessLength (Draw.seed g).2).1

/-- The generator after both are drawn. -/
def afterDraws (g : Generator) : Generator :=
  (Draw.bytes Commit.randomnessLength (Draw.seed g).2).2

/-- A coin toss that has begun in round `start` with this seed and randomness. -/
def begun (seed : Seed) (randomness : Bytes) (start : Nat) : CoinToss :=
  { commit := some (.begun seed.toList randomness start) }

variable {round : Nat} {p : CoinToss} {c c' : Commit} {pool pool' : Pool m}
  {takes gives : Fin n → Frame}

/-- A coin toss proceeds with its commitment. -/
theorem turn_commit (hcommit : p.commit = some c)
    (turn : Turn (Commit.evaluate round) c pool takes (.ok .more) c' pool' gives) :
    Turn (evaluate round) p pool takes (.ok .more) { p with commit := some c' } pool' gives := by
  intro party outgoing rest bytes
  simp [evaluate, commitment, hcommit, turn party outgoing rest bytes]

/-- When the seeds are open, their exclusive or is the result. -/
theorem turn_combine (hcommit : p.commit = some c) {values : List Bytes} {joint : Seed}
    (houtput : c'.output = some values) (hcombine : combine values = .ok joint)
    (turn : Turn (Commit.evaluate round) c pool takes (.ok .done) c' pool' fun _ => []) :
    Turn (evaluate round) p pool takes (.ok .done)
      { commit := some { c' with output := none }, output := some joint } pool' fun _ => [] := by
  intro party outgoing rest bytes
  simp [evaluate, commitment, hcommit, turn party outgoing rest bytes, Commit.out, houtput,
    hcombine]

/-- The first round draws the own seed and begins the commitment to it. -/
theorem turn_begin (start : Nat) (pool : Pool m) :
    Turn (n := n) (evaluate start) {} pool (fun _ => []) (.ok .more)
      (begun (ownSeed pool.localGenerator) (ownRandomness pool.localGenerator) start)
      { pool with localGenerator := afterDraws pool.localGenerator }
      fun _ => [Digest.commitment ((ownSeed pool.localGenerator).toList
        ++ ownRandomness pool.localGenerator)] := by
  intro party outgoing rest bytes
  have hbegin := Commit.turn_begin (ownSeed pool.localGenerator).toList start
    { pool with localGenerator := (Draw.seed pool.localGenerator).2 } party outgoing rest bytes
  simp only [List.nil_append, Action.outcome_ok, ownSeed] at hbegin
  simp [evaluate, commitment, hbegin, begun, ownSeed, ownRandomness, afterDraws]

/-- Once everybody has begun, everybody ends with the exclusive or of all seeds. -/
theorem unison {key : Fin n → Element m} (seeds : Fin n → Seed) (randomness : Fin n → Bytes)
    (hlength : ∀ i, (randomness i).length = Commit.randomnessLength) (start : Nat) :
    Unison key (Finish fun p => ∀ i, (p i).output = some (Seed.joint seeds))
      (List.replicate (2 * confirmations n + 1 + 1) .none)
      (start + 1) (fun i => begun (seeds i) (randomness i) start)
      fun i _ => [Digest.commitment ((seeds i).toList ++ randomness i)] := by
  rw [List.replicate_succ', ← Nat.zero_add (start + 1)]
  refine Unison.embed 0 (fun _ c => ({ commit := some c } : CoinToss))
    (Commit.unison (fun i => (seeds i).toList) randomness hlength start)
    (fun round i c pool takes c' pool' gives turn => ?_) ?_
  · rw [Nat.zero_add]
    exact turn_commit rfl turn
  intro c cue c' openings pools pools' table houtput turns
  refine ⟨.ok .done, fun i =>
      { commit := some { c' i with output := none }, output := some (Seed.joint seeds) },
    pools', Traffic.silent, fun i => ?_, fun i => ⟨_, rfl⟩, rfl, rfl, rfl, fun i => rfl⟩
  rw [Nat.zero_add]
  exact turn_combine rfl (houtput i) (combine_ofFn seeds) (turns i)

end CoinToss

end JointCircuit
