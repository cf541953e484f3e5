/-
JointCircuit.Proofs.Verdict — what an honest check decides.

Every party checks with its own key share, its own MACs and the values it
holds itself. Added up over all parties, an entry contributes its defect:
the sum of its MACs less the sum of key share times value (§1). §2 says
what a party does in a round of a check, and §3 puts the rounds of all
parties together.

Main statement: `macCheck_verdict` — honest parties all accept exactly
if the defects, combined with the coefficients that the tossed seed
yields, vanish.
-/
import JointCircuit.Protocol.MacCheck
import JointCircuit.Proofs.Toss
import Mathlib.Algebra.BigOperators.Fin
import Mathlib.Data.ZMod.Defs
import Mathlib.Tactic.Ring

namespace JointCircuit

open scoped Fin.CommRing

variable {m : Modulus} {n : Nat}

/-! ## §1 Defects -/

/-- What the parts of an opening are apart from being consistent under the key. -/
def defect (key : Fin n → Element m) (o : Opening m n) : Element m :=
  ∑ i, (o i).1.mac - ∑ i, key i * (o i).2

/-- The combination of the defects with these coefficients. -/
def combinedDefect (key : Fin n → Element m) (openings : List (Opening m n))
    (coefficients : List (Element m)) : Element m :=
  ((openings.zip coefficients).map fun e => e.2 * defect key e.1).sum

theorem foldl_add_eq_sum {α : Type} (f : α → Element m) (xs : List α) (start : Element m) :
    xs.foldl (fun acc x => acc + f x) start = start + (xs.map f).sum := by
  induction xs generalizing start with
  | nil => simp
  | cons x xs ih => rw [List.foldl_cons, ih, List.map_cons, List.sum_cons, add_assoc]

/-- The term of one party, entry by entry. -/
theorem checkTerm_openedAt (i : Fin n) (key : Element m) (openings : List (Opening m n))
    (coefficients : List (Element m)) :
    checkTerm key (openedAt i openings).shares (openedAt i openings).values coefficients
      = ((openings.zip coefficients).map fun e => e.2 * ((e.1 i).1.mac - key * (e.1 i).2)).sum := by
  have hzip : ((openedAt i openings).shares.zip (openedAt i openings).values).zip coefficients
      = (openings.zip coefficients).map fun e => (((e.1 i).1, (e.1 i).2), e.2) := by
    rw [openedAt, List.zip_map', List.zip_map_left]
    rfl
  rw [checkTerm, hzip]
  generalize openings.zip coefficients = entries
  simp only [foldl_add_eq_sum, zero_add, List.map_map]
  induction entries with
  | nil => simp
  | cons e entries ih =>
    simp only [List.map_cons, List.sum_cons, Function.comp_apply] at ih ⊢
    rw [← ih]
    ring

/-- The terms of all parties add up to the combined defect. -/
theorem sum_checkTerm (key : Fin n → Element m) (openings : List (Opening m n))
    (coefficients : List (Element m)) :
    ∑ i, checkTerm (key i) (openedAt i openings).shares (openedAt i openings).values coefficients
      = combinedDefect key openings coefficients := by
  simp only [checkTerm_openedAt, combinedDefect]
  generalize openings.zip coefficients = entries
  induction entries with
  | nil => simp
  | cons e entries ih =>
    simp only [List.map_cons, List.sum_cons]
    rw [Finset.sum_add_distrib, ih, ← Finset.mul_sum, Finset.sum_sub_distrib, defect]

/-- Consistent openings are accepted under any coefficients. -/
theorem combinedDefect_eq_zero {key : Fin n → Element m} {openings : List (Opening m n)}
    (h : ∀ o ∈ openings, defect key o = 0) (coefficients : List (Element m)) :
    combinedDefect key openings coefficients = 0 := by
  refine List.sum_eq_zero fun x hx => ?_
  obtain ⟨e, he, rfl⟩ := List.mem_map.mp hx
  rw [h e.1 (List.of_mem_zip he).1, mul_zero]

/-- Messages that encode elements add up to the sum of the elements. -/
theorem sumEncoded_ofFn (terms : Fin n → Element m) :
    sumEncoded m (List.ofFn fun i => (terms i).toBytes) = .ok (∑ i, terms i) := by
  have hfold : ∀ (xs : List (Element m)) (start : Element m),
      (xs.map Element.toBytes).foldlM
        (fun acc bytes => (acc + ·) <$> Element.ofBytes m bytes) start
        = (.ok (start + xs.sum) : Except WireError (Element m)) := by
    intro xs
    induction xs with
    | nil => intro start; simp [pure, Except.pure]
    | cons x xs ih =>
      intro start
      have hx : Element.ofBytes m x.toBytes = .ok x := Element.ofBytes_eq_ok_iff.mpr rfl
      rw [List.map_cons, List.foldlM_cons, hx]
      show (xs.map Element.toBytes).foldlM _ (start + x) = _
      rw [ih, List.sum_cons, add_assoc]
  have h := hfold (List.ofFn terms) 0
  rw [List.map_ofFn, zero_add, List.sum_ofFn] at h
  exact h

/-! ## §2 Rounds of a check -/

namespace MacCheck

variable {round elapsed : Nat} {p : MacCheck m} {pool pool' : Pool m} {takes gives : Fin n → Frame}
  {shares : List (AuthShare m)} {values : List (Element m)} {t t' : CoinToss} {c c' : Commit}

/-- A check that has begun in round `start`, with these entries and the draws for its toss. -/
def begun (opened : OpenedValues m) (seed : Seed) (randomness : Bytes) (start : Nat) : MacCheck m :=
  { phase := .seeding opened.shares opened.values (.begun seed randomness 0), phaseStart := start }

/-- Without entries a check is over at once. -/
theorem turn_empty (start : Nat) (h : pool.opened = {}) :
    Turn (n := n) (evaluate start) {} pool (fun _ => []) (.ok .done)
      { phase := .finished, output := some () } pool fun _ => [] := by
  intro party outgoing rest bytes
  have hpool : { pool with opened := {} } = pool := by rw [← h]
  simp [evaluate, begin, h, hpool]

/-- The first round drains the store and begins the toss. -/
theorem turn_begin (start : Nat) (h : pool.opened.shares ≠ []) :
    Turn (n := n) (evaluate start) {} pool (fun _ => []) (.ok .more)
      (begun pool.opened (CoinToss.ownSeed pool.localGenerator)
        (CoinToss.ownRandomness pool.localGenerator) start)
      { pool with opened := {}, localGenerator := CoinToss.afterDraws pool.localGenerator }
      fun _ => [Digest.commitment ((CoinToss.ownSeed pool.localGenerator).toList
        ++ CoinToss.ownRandomness pool.localGenerator)] := by
  intro party outgoing rest bytes
  have htoss := CoinToss.turn_begin 0 { pool with opened := {} } party outgoing rest bytes
  have helapsed : roundsSince start start = 0 := Commit.roundsSince_add start 0
  simp only [List.nil_append, Action.outcome_ok] at htoss
  simp [evaluate, begin, h, helapsed, evaluateSeeding, htoss, begun]

/-- A check proceeds with its toss. -/
theorem turn_toss (hphase : p.phase = .seeding shares values t)
    (helapsed : roundsSince p.phaseStart round = elapsed)
    (turn : Turn (CoinToss.evaluate elapsed) t pool takes (.ok .more) t' pool' gives) :
    Turn (evaluate round) p pool takes (.ok .more) { p with phase := .seeding shares values t' }
      pool' gives := by
  intro party outgoing rest bytes
  simp [evaluate, hphase, helapsed, evaluateSeeding, turn party outgoing rest bytes]

/-- The coefficients that a seed yields, and the joint generator after they are drawn. -/
def coefficients (m : Modulus) (seed : Seed) (count : Nat) : List (Element m) × Generator :=
  Draw.replicate (Draw.element m) count (.ofPartySeed seed)

/-- When the seed is known, the own term is fixed and the commitment to it goes out in the same
round. -/
theorem turn_term (hphase : p.phase = .seeding shares values t)
    (helapsed : roundsSince p.phaseStart round = elapsed) {seed : Seed}
    (houtput : t'.output = some seed) {key : Element m} (hkey : pool'.keyShare = key)
    (turn : Turn (CoinToss.evaluate elapsed) t pool takes (.ok .done) t' pool' fun _ => []) :
    let drawn := coefficients m seed shares.length
    let term := (checkTerm key shares values drawn.1).toBytes
    let randomness := Draw.bytes Commit.randomnessLength pool'.localGenerator
    Turn (evaluate round) p pool takes (.ok .more)
      { p with phase := .checking (.begun term randomness.1 0), phaseStart := round }
      { pool' with jointGenerator := some drawn.2, localGenerator := randomness.2 }
      fun _ => [Digest.commitment (term ++ randomness.1)] := by
  subst hkey
  intro drawn term randomness party outgoing rest bytes
  have hterm : MacCheck.term shares values seed pool'
      = .ok (checkTerm pool'.keyShare shares values drawn.1)
        { pool' with jointGenerator := some drawn.2 } := rfl
  have hbegin := Commit.turn_begin term 0 { pool' with jointGenerator := some drawn.2 }
    party outgoing rest bytes
  simp only [List.nil_append, Action.outcome_ok] at hbegin
  simp [evaluate, hphase, helapsed, evaluateSeeding, turn party outgoing rest bytes, CoinToss.out,
    houtput, hterm, hbegin, term, randomness]

/-- A check proceeds with the commitment to the terms. -/
theorem turn_checking (hphase : p.phase = .checking c)
    (helapsed : roundsSince p.phaseStart round = elapsed)
    (turn : Turn (Commit.evaluate elapsed) c pool takes (.ok .more) c' pool' gives) :
    Turn (evaluate round) p pool takes (.ok .more) { p with phase := .checking c' } pool'
      gives := by
  intro party outgoing rest bytes
  simp [evaluate, hphase, helapsed, evaluateChecking, turn party outgoing rest bytes]

/-- Open terms that add up to zero are accepted. -/
theorem turn_accept (hphase : p.phase = .checking c)
    (helapsed : roundsSince p.phaseStart round = elapsed) {terms : List Bytes}
    (houtput : c'.output = some terms) (hsum : sumEncoded m terms = .ok 0)
    (turn : Turn (Commit.evaluate elapsed) c pool takes (.ok .done) c' pool' fun _ => []) :
    Turn (evaluate round) p pool takes (.ok .done)
      { p with phase := .finished, output := some () } pool' fun _ => [] := by
  intro party outgoing rest bytes
  simp [evaluate, hphase, helapsed, evaluateChecking, turn party outgoing rest bytes, Commit.out,
    houtput, hsum]

/-- Open terms that add up to anything else are evidence of a deviation. -/
theorem turn_reject (hphase : p.phase = .checking c)
    (helapsed : roundsSince p.phaseStart round = elapsed) {terms : List Bytes}
    (houtput : c'.output = some terms) {sum : Element m} (hsum : sumEncoded m terms = .ok sum)
    (hne : sum ≠ 0)
    (turn : Turn (Commit.evaluate elapsed) c pool takes (.ok .done) c' pool' fun _ => []) :
    Turn (evaluate round) p pool takes (.error (.malicious .macCheckFailed))
      { p with phase := .checking { c' with output := none } } pool' fun _ => [] := by
  intro party outgoing rest bytes
  simp [evaluate, hphase, helapsed, evaluateChecking, turn party outgoing rest bytes, Commit.out,
    houtput, hsum, hne]

/-! ## §3 Whole checks -/

/-- How a check of these openings ends under these coefficients. -/
def Decides (key : Fin n → Element m) (openings : List (Opening m n))
    (coefficients : List (Element m)) (answer : Except Fault Status) (p : Fin n → MacCheck m) :
    Prop :=
  if combinedDefect key openings coefficients = 0 then
    Finish (fun p => ∀ i, (p i).output = some ()) answer p
  else answer = .error (.malicious .macCheckFailed)

/-- Once everybody has committed to its term, the verdict is the same for everybody. -/
theorem unison_checking (key : Fin n → Element m) (openings : List (Opening m n))
    (coefficients : List (Element m)) (randomness : Fin n → Bytes)
    (hlength : ∀ i, (randomness i).length = Commit.randomnessLength) (start : Nat) :
    let term (i : Fin n) : Bytes := (checkTerm (key i) (openedAt i openings).shares
      (openedAt i openings).values coefficients).toBytes
    Unison key (Decides key openings coefficients)
      (List.replicate (2 * confirmations n + 1) .none ++ [.none]) (start + 1)
      (fun i => { phase := .checking (.begun (term i) (randomness i) 0), phaseStart := start })
      fun i _ => [Digest.commitment (term i ++ randomness i)] := by
  intro term
  refine Unison.embed start
    (fun _ c => ({ phase := .checking c, phaseStart := start } : MacCheck m))
    (Commit.unison term randomness hlength 0)
    (fun round i c pool takes c' pool' gives turn =>
      turn_checking rfl (Commit.roundsSince_add start round) turn) ?_
  intro c cue c' _ pools pools' table houtput turns
  have hsum : sumEncoded m (List.ofFn term) = .ok (combinedDefect key openings coefficients) := by
    rw [sumEncoded_ofFn, sum_checkTerm]
  by_cases hzero : combinedDefect key openings coefficients = 0
  · rw [hzero] at hsum
    refine ⟨.ok .done, fun _ => { phase := .finished, phaseStart := start, output := some () },
      pools', Traffic.silent, fun i => ?_, fun i => ⟨_, rfl⟩, rfl, rfl, ?_⟩
    · exact turn_accept rfl (Commit.roundsSince_add start _) (houtput i) hsum (turns i)
    · rw [Decides, if_pos hzero]
      exact ⟨rfl, fun i => rfl⟩
  · refine ⟨.error (.malicious .macCheckFailed),
      fun i => { phase := .checking { c' i with output := none }, phaseStart := start },
      pools', Traffic.silent, fun i => ?_, fun i => ⟨_, rfl⟩, rfl, rfl, ?_⟩
    · exact turn_reject rfl (Commit.roundsSince_add start _) (houtput i) hsum hzero (turns i)
    · rw [Decides, if_neg hzero]

/-- What the rounds of a check do to the pools once it has begun: when the seed is known, the
coefficients are drawn. -/
def effects (n : Nat) (generator : Generator) : List (Effect m n) :=
  List.replicate (2 * confirmations n + 1) .none
    ++ .seed generator :: (List.replicate (2 * confirmations n + 1) .none ++ [.none])

theorem length_effects (generator : Generator) :
    (effects (m := m) n generator).length ≤ lastRound := by
  have hle := confirmations_le n
  simp only [effects, List.length_append, List.length_replicate, List.length_cons,
    List.length_nil, lastRound]
  omega

/-- The effects of a whole check leave the joint generator where the coefficients were drawn. -/
theorem applyAll_effects (i : Fin n) (pool : Pool m) (generator : Generator) :
    Effect.applyAll i pool (effects n generator)
      = { pool with jointGenerator := some generator } := by
  rw [effects, Effect.applyAll_append, Effect.applyAll_replicate_none, Effect.applyAll_cons,
    Effect.applyAll_append, Effect.applyAll_replicate_none]
  rfl

/-- Once everybody has begun, the tossed seed decides. -/
theorem unison (key : Fin n → Element m) (openings : List (Opening m n)) (seeds : Fin n → Seed)
    (randomness : Fin n → Bytes)
    (hlength : ∀ i, (randomness i).length = Commit.randomnessLength) (start : Nat) :
    let drawn := coefficients m (Seed.joint seeds) openings.length
    Unison key (Decides key openings drawn.1) (effects n drawn.2) (start + 1)
      (fun i => begun (openedAt i openings) (seeds i) (randomness i) start)
      fun i _ => [Digest.commitment ((seeds i).toList ++ randomness i)] := by
  intro drawn
  refine Unison.embed start
    (fun i t => { begun (openedAt i openings) (seeds i) (randomness i) start with
      phase := .seeding (openedAt i openings).shares (openedAt i openings).values t })
    (CoinToss.unison seeds randomness hlength 0)
    (fun round i t pool takes t' pool' gives turn =>
      turn_toss rfl (Commit.roundsSince_add start round) turn) ?_
  intro t cue t' _ pools pools' table houtput turns
  let own (i : Fin n) : Bytes × Generator :=
    Draw.bytes Commit.randomnessLength (pools' i).localGenerator
  let term (i : Fin n) : Bytes := (checkTerm (key i) (openedAt i openings).shares
    (openedAt i openings).values drawn.1).toBytes
  refine ⟨.ok .more, fun i =>
      { phase := .checking (.begun (term i) (own i).1 0)
        phaseStart := start + (0 + 1 + (2 * confirmations n + 1)) },
    fun i => { pools' i with jointGenerator := some drawn.2, localGenerator := (own i).2 },
    fun i _ => [Digest.commitment (term i ++ (own i).1)], fun i => ?_, fun i => ⟨_, rfl⟩,
    unison_checking key openings drawn.1 _ (fun i => length_bytes _ _) _⟩
  have hshares : (openedAt i openings).shares.length = openings.length := by simp [openedAt]
  have hturn := turn_term
    (p := ⟨.seeding (openedAt i openings).shares (openedAt i openings).values (t i), start, none⟩)
    rfl (Commit.roundsSince_add start _) (houtput i) (table.keyShare i) (turns i)
  rw [hshares] at hturn
  exact hturn

/-- All parties run a check of the openings in their stores. -/
theorem joint_run {key : Fin n → Element m} {openings : List (Opening m n)} (hne : openings ≠ [])
    {pools : Fin n → Pool m} (table : Table key openings pools) {e : Fin n → Evaluator m}
    (he : ∀ i, (e i).At i (pools i) (fun _ => []) fun _ => []) :
    let drawn := coefficients m
      (Seed.joint fun i => CoinToss.ownSeed (pools i).localGenerator) openings.length
    ∃ (sent : List (Fin n → List Frame)) (e' : Fin n → Evaluator m),
      Joint (fun i => Evaluator.run ({} : MacCheck m) (e i)) sent
        (fun i => (if combinedDefect key openings drawn.1 = 0 then .ok ()
          else .error (.malicious .macCheckFailed), e' i))
      ∧ ∀ i, ∃ g, (e' i).At i { pools i with
          opened := {}
          jointGenerator := some drawn.2
          localGenerator := g } (fun _ => []) fun _ => [] := by
  intro drawn
  let pools' (i : Fin n) : Pool m :=
    { pools i with
      opened := {}
      localGenerator := CoinToss.afterDraws (pools i).localGenerator }
  have table' : Table key [] pools' := ⟨table.party, table.parties, table.keyShare, fun i => rfl⟩
  have first : ∀ i, Turn (n := n) (evaluate 0) {} (pools i) (fun _ => []) (.ok .more)
      (begun (openedAt i openings) (CoinToss.ownSeed (pools i).localGenerator)
        (CoinToss.ownRandomness (pools i).localGenerator) 0) (pools' i)
      fun _ => [Digest.commitment ((CoinToss.ownSeed (pools i).localGenerator).toList
        ++ CoinToss.ownRandomness (pools i).localGenerator)] := by
    intro i
    have hshares : (pools i).opened.shares ≠ [] := by
      rw [table.opened i]
      simpa [openedAt] using hne
    rw [← table.opened i]
    exact turn_begin 0 hshares
  have hrounds := unison key openings (fun i => CoinToss.ownSeed (pools i).localGenerator)
    (fun i => CoinToss.ownRandomness (pools i).localGenerator) (fun i => length_bytes _ _) 0
  obtain ⟨sent, answer, p, pools'', e', hjoint, hseat, acts, hlast⟩ :=
    Evaluator.run_of_unison first table' hrounds (length_effects _) he
  refine ⟨sent, e', ?_, fun i => ?_⟩
  · have hanswer : ∀ i, Evaluator.conclude (m := m) answer (p i)
        = if combinedDefect key openings drawn.1 = 0 then .ok ()
          else .error (.malicious .macCheckFailed) := by
      intro i
      by_cases hzero : combinedDefect key openings drawn.1 = 0
      · rw [Decides, if_pos hzero] at hlast
        obtain ⟨rfl, hout⟩ := hlast
        have hout' : (Protocol.out m (p i)).1 = some () := hout i
        rw [if_pos hzero, Evaluator.conclude, hout']
      · rw [Decides, if_neg hzero] at hlast
        rw [if_neg hzero, hlast]
        rfl
    exact hjoint.congr_results fun i => by rw [hanswer i]
  · obtain ⟨g, hg⟩ := acts i
    have hseat' := hseat i
    rw [hg, applyAll_effects] at hseat'
    exact ⟨g, hseat'⟩

/-- A check of an empty store is over at once. -/
theorem run_empty {e : Evaluator m} (hopened : e.participant.pool.opened = {})
    (hquiet : Evaluator.checkQuiescent e = .finished (.ok (), e)) :
    Evaluator.run ({} : MacCheck m) e
      = .finished (.ok (), { e with protocols := e.protocols + 1 }) := by
  have hpool : { e.participant.pool with opened := {} } = e.participant.pool := by
    rw [← hopened]
  have hact : Evaluator.actOn ({} : MacCheck m) (Protocol.evaluate 0) e
      = .finished (.ok (.done, { phase := .finished, output := some () }), e) := by
    show Evaluator.actOn ({} : MacCheck m) (MacCheck.evaluate 0) e = _
    simp [Evaluator.actOn, evaluate, begin, hopened, hpool]
  rw [Evaluator.run, Evaluator.bind_of_ok (Evaluator.bind_of_ok hact),
    Evaluator.bind_of_ok hquiet]
  rfl

end MacCheck

/-- The verdict of an honest check. If nothing was opened, every party finishes in the first
round and changes nothing but the count of its protocols. -/
theorem macCheck_verdict {key : Fin n → Element m} {openings : List (Opening m n)}
    {pools : Fin n → Pool m} (table : Table key openings pools) {e : Fin n → Evaluator m}
    (he : ∀ i, (e i).At i (pools i) (fun _ => []) fun _ => []) :
    let seed := Seed.joint fun i => CoinToss.ownSeed (pools i).localGenerator
    let drawn := MacCheck.coefficients m seed openings.length
    (openings ≠ [] → ∃ (sent : List (Fin n → List Frame)) (e' : Fin n → Evaluator m),
      Joint (fun i => Evaluator.run ({} : MacCheck m) (e i)) sent
        (fun i => (if combinedDefect key openings drawn.1 = 0 then .ok ()
          else .error (.malicious .macCheckFailed), e' i))
      ∧ ∀ i, ∃ pool, (e' i).At i pool (fun _ => []) (fun _ => []) ∧ pool.opened = {}
        ∧ pool.jointGenerator = some drawn.2)
    ∧ (openings = [] → ∀ i, Evaluator.run ({} : MacCheck m) (e i)
        = .finished (.ok (), { e i with protocols := (e i).protocols + 1 })) := by
  intro seed drawn
  refine ⟨fun hne => ?_, fun hempty i => ?_⟩
  · obtain ⟨sent, e', hjoint, hend⟩ := MacCheck.joint_run hne table he
    refine ⟨sent, e', hjoint, fun i => ?_⟩
    obtain ⟨g, hseat⟩ := hend i
    exact ⟨_, hseat, rfl, rfl⟩
  · refine MacCheck.run_empty ?_ (he i).checkQuiescent
    rw [(he i).pool_eq, table.opened i, hempty]
    rfl

/-- An opening of the value 2 under the key shares 3 and 4. -/
def sampleOpening : Opening .mersenne61 2 :=
  fun i => (⟨1, if i = 0 then 6 else 8⟩, 2)

/-- The pools of two parties that hold this opening and no material. -/
def samplePool (i : Fin 2) : Pool .mersenne61 :=
  let key : Element .mersenne61 := if i = 0 then 3 else 4
  { party := i + 1
    parties := 2
    keyShare := key
    supplier := .dealt ⟨⟨2, i + 1, key, [], [[], []], []⟩⟩
    opened := openedAt i [sampleOpening]
    localGenerator := .ofPartySeed (Vector.replicate 32 (UInt8.ofNat i)) }

/-- Two parties accept one consistent opening. -/
theorem macCheck_verdict_sampleOpening :
    ∃ (sent : List (Fin 2 → List Frame)) (e' : Fin 2 → Evaluator .mersenne61),
      Joint
        (fun i => Evaluator.run ({} : MacCheck .mersenne61) { participant := .new (samplePool i) })
        sent (fun i => (.ok (), e' i))
      ∧ ∀ i, (e' i).participant.pool.opened = {} := by
  have table : Table (fun i => (samplePool i).keyShare) [sampleOpening] samplePool :=
    ⟨fun i => rfl, fun i => rfl, fun i => rfl, fun i => rfl⟩
  have hseats : ∀ i, ({ participant := .new (samplePool i) } : Evaluator .mersenne61).At i
      (samplePool i) (fun _ => []) fun _ => [] :=
    fun i => ⟨rfl, 0, Mailbox.new_eq_ofPeers (i + 1) 2⟩
  obtain ⟨sent, e', hjoint, hend⟩ := (macCheck_verdict table hseats).1 (by simp)
  have hzero : ∀ coefficients,
      combinedDefect (fun i => (samplePool i).keyShare) [sampleOpening] coefficients = 0 :=
    combinedDefect_eq_zero (by decide)
  refine ⟨sent, e', hjoint.congr_results fun i => by rw [if_pos (hzero _)], fun i => ?_⟩
  obtain ⟨pool, hseat, hopened, -⟩ := hend i
  rw [hseat.pool_eq, hopened]

end JointCircuit
