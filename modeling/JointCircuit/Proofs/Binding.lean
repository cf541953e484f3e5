/-
JointCircuit.Proofs.Binding — commitments bind, and everybody sees the same ones opened.

A commitment broadcasts twice, first the digest of its opening and then
the opening. §1 follows a protocol through a broadcast that is part of
it, §2 through both. So an opening leaves a party only after it has all
commitments, confirmed by everybody if there are three or more parties,
and what it then accepts is determined by these (§3).

Main statement: `commitments_bind`.
-/
import JointCircuit.Proofs.Agreement

namespace JointCircuit

open Evaluator

variable {m : Modulus} {n : Nat} {π ρ : Type} {i j : Fin n}

/-! ## §1 A broadcast as a part -/

namespace Attendance

variable {a : Attendance m n π} {k r : Nat} {x : Bytes} {said : List (Fin n → Frame)}
  {ending : Ending π}

/-- From round `k` on a party has heard these messages of a broadcast, and with three or more
parties everybody has confirmed them. -/
structure Confirmed (a : Attendance m n π) (k : Nat) (messages : Fin n → Bytes) : Prop where
  heard : a.HearsAll k messages
  said : needsValidation n = true → a.said[k]? = some fun _ => [Digest.ofAll messages]
  digests : needsValidation n = true → a.HearsAll (k + 1) fun _ => Digest.ofAll messages

theorem hears_drop :
    Hears (⟨a.visits.drop k, said, ending⟩ : Attendance m n π) r j x ↔ a.Hears (k + r) j x := by
  simp only [Hears, List.getElem?_drop]

end Attendance

section
variable [Protocol m π ρ] {place : Broadcast → π} {start : Nat} {a : Attendance m n π}
  {finish : Nat → List Bytes → Option (Status × π × Frame)}

/-- From round `start + 1` on a protocol is in a broadcast, and goes on by `finish` in the round
in which the messages are in. -/
def Broadcasting (m : Modulus) (n : Nat) [Protocol m π ρ] (start : Nat) (place : Broadcast → π)
    (finish : Nat → List Bytes → Option (Status × π × Frame)) : Prop :=
  ∀ (pool : Pool m) elapsed b (answer : (Fin n → Bytes) → Option (Status × Broadcast × Frame)),
    Hearing (Broadcast.evaluate elapsed) b pool answer → Settles answer →
    Hearing (Protocol.evaluate (start + elapsed)) (place b) pool fun messages =>
      wrapAnswer place (finish (start + elapsed)) (answer messages)

/-- A protocol gets past a broadcast only with messages that are confirmed. -/
theorem Attends.of_broadcasting (hplace : Broadcasting m n start place finish) {b : Broadcast}
    (h : Attends i (start + 1) (place b) a) :
    (a.said.length ≤ confirmations n ∧ ∀ p, a.ending ≠ .done p)
      ∨ ∃ x : Fin n → Bytes, a.Confirmed 0 x ∧ ∃ status p gives,
        finish (start + (1 + confirmations n)) (List.ofFn x) = some (status, p, gives)
        ∧ Proceeds i (start + (1 + confirmations n)) (a.visits.drop (1 + confirmations n))
          (a.said.drop (confirmations n)) a.ending status p fun _ => gives := by
  cases hv : needsValidation n with
  | false =>
    have hcount : confirmations n = 0 := by simp [confirmations, hv]
    have hunvalidated : ¬ needsValidation n = true := by simp [hv]
    rw [hcount]
    obtain ⟨hsaid, hending⟩ | ⟨x, status, p, gives, hheard, hanswer, hproceeds⟩ :=
      h.stopped_or_heard fun pool hparties =>
        hplace pool 1 b _ (Broadcast.hearing_receive (by rw [hparties, hv]) b) (by
          intro messages b gives hanswer
          cases hanswer
          exact ⟨rfl, Option.some_ne_none _⟩)
    · exact .inl ⟨Nat.le_of_eq (congrArg List.length hsaid), hending⟩
    · exact .inr ⟨x, ⟨hheard, fun h => absurd h hunvalidated, fun h => absurd h hunvalidated⟩,
        status, p, gives, hanswer, hproceeds⟩
  | true =>
    have hcount : confirmations n = 1 := by simp [confirmations, hv]
    rw [hcount]
    obtain ⟨hsaid, hending⟩ | ⟨x, _, _, _, hheard, ⟨⟩, later, hsaid, hlater⟩ :=
      h.stopped_or_heard fun pool hparties =>
        hplace pool 1 b _ (Broadcast.hearing_digest (by rw [hparties, hv]) b) (by
          intro messages b gives hanswer
          cases hanswer)
    · exact .inl ⟨by rw [hsaid]; exact Nat.zero_le 1, hending⟩
    let b' : Broadcast := { b with digest := Digest.ofAll x, received := some (List.ofFn x) }
    obtain ⟨rfl, hending⟩ | ⟨digests, status, p, gives, hdigests, hanswer, hproceeds⟩ :=
      hlater.stopped_or_heard fun pool _ => hplace pool 2 b' _ (Broadcast.hearing_compare 0 b') (by
        intro digests b'' gives hanswer
        dsimp only at hanswer
        split at hanswer
        · cases hanswer
          exact ⟨rfl, Option.some_ne_none _⟩
        · cases hanswer)
    · exact .inl ⟨Nat.le_of_eq (congrArg List.length hsaid), hending⟩
    · split at hanswer
      · rename_i hall
        refine .inr ⟨x, ⟨hheard, fun _ => by rw [hsaid]; rfl, fun _ j => ?_⟩, status, p, gives,
          hanswer, ?_⟩
        · exact (Attendance.hears_drop (k := 1) (r := 0)).mp (hall ▸ hdigests j)
        · rw [hsaid]
          rw [List.drop_drop] at hproceeds
          exact hproceeds
      · cases hanswer

end

/-! ## §2 Commitments and openings -/

/-- The round in which openings go out, counted from the one in which a commitment begins. -/
def openingRound (n : Nat) : Nat :=
  1 + confirmations n

theorem Attendance.Confirmed.of_drop {a : Attendance m n π} {gives : Fin n → Frame}
    {later : List (Fin n → Frame)} {y : Fin n → Bytes}
    (hy : Confirmed (⟨a.visits.drop (openingRound n), later, a.ending⟩ : Attendance m n π) 0 y)
    (hsaid : a.said.drop (confirmations n) = gives :: later) : a.Confirmed (openingRound n) y where
  heard j := (hears_drop (k := openingRound n)).mp (hy.heard j)
  said hv := by
    rw [openingRound, Nat.add_comm, ← List.getElem?_drop, hsaid]
    exact hy.said hv
  digests hv j := hears_drop.mp (hy.digests hv j)

/-- A protocol that has committed in round `start`: its state while the commitments are broadcast,
its state while the openings are broadcast since some round, and how it ends with these. -/
structure Committing (m : Modulus) (n : Nat) [Protocol m π ρ] (start : Nat) (opening : Bytes)
    (first : Broadcast → π) (second : Nat → List Bytes → Broadcast → π)
    (finish : Nat → (commitments openings : List Bytes) → Option (Status × π × Frame)) : Prop where
  commits : Broadcasting m n start first fun round received =>
    if ∀ x ∈ received, x.length = digestLength then
      some (.more, second round received { message := none }, [opening])
    else none
  opens : ∀ round commitments,
    Broadcasting m n round (second round commitments) fun _ => finish round commitments
  ends : ∀ round commitments openings status p gives,
    finish round commitments openings = some (status, p, gives) → status = .done

/-- An opening goes out only when all commitments are in, and the end is made of them and of the
openings that are confirmed then. -/
theorem Attends.of_committing [Protocol m π ρ] {start : Nat} {opening : Bytes}
    {first : Broadcast → π} {second : Nat → List Bytes → Broadcast → π}
    {finish : Nat → (commitments openings : List Bytes) → Option (Status × π × Frame)}
    (hcommitting : Committing m n start opening first second finish) {b : Broadcast}
    {a : Attendance m n π} (h : Attends i (start + 1) (first b) a) :
    (∀ gives, a.said[confirmations n]? = some gives → gives = (fun _ => [opening])
        ∧ ∃ x, a.Confirmed 0 x ∧ ∀ j, (x j).length = digestLength)
      ∧ ∀ p, a.ending = .done p → a.said[confirmations n]? = some (fun _ => [opening])
        ∧ ∃ x y gives, a.Confirmed 0 x ∧ a.Confirmed (openingRound n) y
          ∧ finish (start + openingRound n) (List.ofFn x) (List.ofFn y)
            = some (.done, p, gives) := by
  rcases h.of_broadcasting hcommitting.commits with ⟨hshort, hnot⟩ | hpast
  · refine ⟨fun gives hgives => ?_, fun p hp => absurd hp (hnot p)⟩
    have := (List.getElem?_eq_some_iff.mp hgives).1
    omega
  · obtain ⟨x, hx, status, p₁, gives₁, hfinish, hproceeds⟩ := hpast
    split at hfinish
    · rename_i hlength
      cases hfinish
      obtain ⟨later, hsaid, hlater⟩ := hproceeds
      have hopening : a.said[confirmations n]? = some fun _ => [opening] := by
        rw [← Nat.add_zero (confirmations n), ← List.getElem?_drop, hsaid]
        rfl
      refine ⟨fun gives hgives => ?_, fun p hp => ⟨hopening, ?_⟩⟩
      · rw [hopening] at hgives
        cases hgives
        exact ⟨rfl, x, hx, fun j => hlength _ (List.mem_ofFn.mpr ⟨j, rfl⟩)⟩
      · rcases hlater.of_broadcasting (hcommitting.opens _ _) with ⟨-, hnot⟩ | hpast
        · exact absurd hp (hnot p)
        · obtain ⟨y, hy, status, p₂, gives₂, hfinish, hproceeds⟩ := hpast
          cases hcommitting.ends _ _ _ _ _ _ hfinish
          obtain ⟨-, -, hdone⟩ := hproceeds
          cases hp.symm.trans hdone
          exact ⟨x, y, gives₂, hx, hy.of_drop hsaid, hfinish⟩
    · cases hfinish

/-- What a party does that commits to a value. `accepts` says which final states belong to the
values of all parties. -/
structure CommitCourse (value : Bytes) (accepts : (Fin n → Bytes) → π → Prop)
    (a : Attendance m n π) : Prop where
  opens : ∀ gives, a.said[openingRound n]? = some gives → ∃ randomness commitments,
    gives = (fun _ => [value ++ randomness])
    ∧ a.said[0]? = some (fun _ => [Digest.commitment (value ++ randomness)])
    ∧ a.Confirmed 1 commitments ∧ ∀ j, (commitments j).length = digestLength
  ends : ∀ p, a.ending = .done p → ∃ values randomness : Fin n → Bytes,
    (∀ j, (randomness j).length = Commit.randomnessLength)
    ∧ a.Confirmed 1 (fun j => Digest.commitment (values j ++ randomness j))
    ∧ a.Confirmed (openingRound n + 1) (fun j => values j ++ randomness j)
    ∧ (∃ r, r.length = Commit.randomnessLength
      ∧ a.said[openingRound n]? = some fun _ => [value ++ r])
    ∧ accepts values p

/-- Openings that fit commitments. -/
theorem Commit.verified {commitments openings : Fin n → Bytes} {values : List Bytes}
    (h : verifyFrom 1 ((List.ofFn openings).zip (List.ofFn commitments)) = .ok values) :
    ∃ value randomness : Fin n → Bytes, (∀ j, (randomness j).length = randomnessLength)
      ∧ openings = (fun j => value j ++ randomness j)
      ∧ commitments = (fun j => Digest.commitment (value j ++ randomness j))
      ∧ values = List.ofFn value := by
  rw [zip_ofFn] at h
  obtain ⟨pairs, hlengths, hpairs, rfl⟩ := verifyFrom_eq_ok h
  obtain ⟨pair, rfl⟩ := exists_eq_ofFn pairs (by simpa using (congrArg List.length hpairs).symm)
  rw [List.map_ofFn] at hpairs ⊢
  have hpair := congrFun (List.ofFn_injective hpairs)
  simp only [Function.comp_apply, Prod.mk.injEq] at hpair
  exact ⟨fun j => (pair j).1, fun j => (pair j).2, fun j => hlengths _ (List.mem_ofFn.mpr ⟨j, rfl⟩),
    funext fun j => (hpair j).1, funext fun j => (hpair j).2, rfl⟩

namespace Commit

variable {start : Nat} {value randomness : Bytes}

theorem committing (value randomness : Bytes) (start : Nat) :
    Committing m n start (value ++ randomness)
      (fun b => { begun value randomness start with phase := .commitments b })
      (fun round commitments b => { begun value randomness start with
        opening := []
        phase := .openings b
        phaseStart := round
        commitments })
      fun round commitments openings => finishOpenings
        { begun value randomness start with opening := [], phaseStart := round, commitments }
        openings where
  commits pool elapsed b answer hearing settles :=
    hearing_commitments (c := { begun value randomness start with phase := .commitments b }) rfl
      (roundsSince_add start elapsed) hearing settles
  opens round commitments pool elapsed b answer hearing settles :=
    hearing_openings
      (c := { begun value randomness start with
        opening := [], phase := .openings b, phaseStart := round, commitments }) rfl
      (roundsSince_add round elapsed) hearing settles
  ends round commitments openings status p gives hfinish := by
    unfold finishOpenings at hfinish
    split at hfinish <;> cases hfinish
    rfl

end Commit

namespace CoinToss

theorem committing (seed : Seed) (randomness : Bytes) (start : Nat) :
    Committing m n start (seed.toList ++ randomness)
      (fun b => { commit := some { Commit.begun seed.toList randomness start with
        phase := .commitments b } })
      (fun round commitments b => { commit := some { Commit.begun seed.toList randomness start with
        opening := []
        phase := .openings b
        phaseStart := round
        commitments } })
      fun round commitments openings => finishOpenings
        { Commit.begun seed.toList randomness start with
          opening := [], phaseStart := round, commitments }
        openings where
  commits pool elapsed b answer hearing settles :=
    hearing_commitments
      (c := { Commit.begun seed.toList randomness start with phase := .commitments b }) rfl
      (Commit.roundsSince_add start elapsed) hearing settles
  opens round commitments pool elapsed b answer hearing settles :=
    hearing_openings
      (c := { Commit.begun seed.toList randomness start with
        opening := [], phase := .openings b, phaseStart := round, commitments }) rfl
      (Commit.roundsSince_add round elapsed) hearing settles
  ends round commitments openings status p gives hfinish := by
    unfold finishOpenings at hfinish
    split at hfinish
    · cases hfinish
    · split at hfinish <;> cases hfinish
      rfl

end CoinToss

/-- Where no round was evaluated, nothing is to be said about it. -/
theorem CommitCourse.of_nil [Protocol m π ρ] {start : Nat} {p : π} {value : Bytes}
    {accepts : (Fin n → Bytes) → π → Prop} {said : List (Fin n → Frame)} {ending : Ending π}
    (h : Attends i start p (⟨[], said, ending⟩ : Attendance m n π)) :
    CommitCourse value accepts (⟨[], said, ending⟩ : Attendance m n π) := by
  obtain ⟨rfl, rfl⟩ := h.of_nil
  exact ⟨nofun, nofun⟩

/-- A protocol that commits in the first round that it is evaluated. -/
theorem CommitCourse.of_committing [Protocol m π ρ] {start : Nat} {value randomness : Bytes}
    {accepts : (Fin n → Bytes) → π → Prop} {first : Broadcast → π}
    {second : Nat → List Bytes → Broadcast → π}
    {finish : Nat → (commitments openings : List Bytes) → Option (Status × π × Frame)}
    (hcommitting : Committing m n start (value ++ randomness) first second finish)
    (hlength : randomness.length = Commit.randomnessLength)
    (haccepts : ∀ round (commitments openings : Fin n → Bytes) p gives,
      finish round (List.ofFn commitments) (List.ofFn openings) = some (.done, p, gives) →
      ∃ values randomness : Fin n → Bytes,
        (∀ j, (randomness j).length = Commit.randomnessLength)
        ∧ openings = (fun j => values j ++ randomness j)
        ∧ commitments = (fun j => Digest.commitment (values j ++ randomness j))
        ∧ accepts values p)
    {visit : Visit m n} {visits : List (Visit m n)} {said : List (Fin n → Frame)}
    {ending : Ending π} {p : π} {pool' : Pool m} {b : Broadcast}
    (h : Attends i start p ⟨visit :: visits, said, ending⟩)
    (turn : Turn (n := n) (Protocol.evaluate start) p visit.pool (fun _ => []) (.ok .more) (first b)
      pool' fun _ => [Digest.commitment (value ++ randomness)]) :
    CommitCourse value accepts ⟨visit :: visits, said, ending⟩ := by
  obtain ⟨later, rfl, hlater⟩ := h.of_turn turn rfl
  obtain ⟨hopens, hends⟩ := hlater.of_committing hcommitting
  have hindex : openingRound n = confirmations n + 1 := Nat.add_comm 1 _
  constructor
  · intro gives hgives
    rw [hindex] at hgives
    obtain ⟨rfl, commitments, hconfirmed, hlengths⟩ := hopens gives hgives
    exact ⟨randomness, commitments, rfl, rfl,
      ⟨hconfirmed.heard, hconfirmed.said, hconfirmed.digests⟩, hlengths⟩
  · intro p' hp'
    obtain ⟨hsaid, commitments, openings, gives, hcommitments, hopenings, hfinish⟩ := hends p' hp'
    obtain ⟨values, randomness', hlength', rfl, rfl, haccepted⟩ := haccepts _ _ _ _ _ hfinish
    refine ⟨values, randomness', hlength',
      ⟨hcommitments.heard, hcommitments.said, hcommitments.digests⟩,
      ⟨hopenings.heard, hopenings.said, hopenings.digests⟩, ⟨randomness, hlength, ?_⟩, haccepted⟩
    rw [hindex]
    exact hsaid

/-- A party that commits follows the course of a commitment. -/
theorem Commit.course {start : Nat} {value : Bytes} {a : Attendance m n Commit}
    (h : Attends i start (Commit.new value) a) :
    CommitCourse value (fun values p => p.output = some (List.ofFn values)) a := by
  obtain ⟨visits, said, ending⟩ := a
  cases visits with
  | nil => exact .of_nil h
  | cons visit visits =>
    refine .of_committing (Commit.committing value _ start) (length_bytes _ _)
      (fun round commitments openings p gives hfinish => ?_) h
      (Commit.turn_begin value start visit.pool)
    unfold Commit.finishOpenings at hfinish
    split at hfinish
    · cases hfinish
    · rename_i values hverify
      cases hfinish
      obtain ⟨value, randomness, hlength, hopenings, hcommitments, rfl⟩ := Commit.verified hverify
      exact ⟨value, randomness, hlength, hopenings, hcommitments, rfl⟩

/-- A party that tosses a coin follows the course of a commitment to a seed. -/
theorem CoinToss.course {start : Nat} {a : Attendance m n CoinToss}
    (h : Attends i start {} a) :
    ∃ seed : Seed, CommitCourse seed.toList
      (fun values p => ∃ seeds : Fin n → Seed, values = (fun j => (seeds j).toList)
        ∧ p.output = some (Seed.joint seeds)) a := by
  obtain ⟨visits, said, ending⟩ := a
  cases visits with
  | nil => exact ⟨Vector.replicate 32 0, .of_nil h⟩
  | cons visit visits =>
    have hlength : (CoinToss.ownRandomness visit.pool.localGenerator).length
        = Commit.randomnessLength := length_bytes _ _
    have hturn := @CoinToss.turn_begin m n start visit.pool
    generalize CoinToss.ownSeed visit.pool.localGenerator = seed at hturn
    generalize CoinToss.ownRandomness visit.pool.localGenerator = randomness at hturn hlength
    refine ⟨seed, .of_committing (CoinToss.committing seed randomness start) hlength
      (fun round commitments openings p gives hfinish => ?_) h hturn⟩
    unfold CoinToss.finishOpenings at hfinish
    split at hfinish
    · cases hfinish
    · rename_i values hverify
      split at hfinish
      · cases hfinish
      · rename_i joint hjoint
        cases hfinish
        obtain ⟨seeds, randomness, hlength, hopenings, hcommitments, rfl⟩ :=
          CoinToss.combines_iff.mp ⟨values, hverify, hjoint⟩
        exact ⟨_, randomness, hlength, hopenings, hcommitments, seeds, rfl, rfl⟩

/-! ## §3 Binding and agreement -/

/-- No two openings of one party that were heard in these attendances have the same digest. -/
def NoOpeningCollision (a a' : Attendance m n π) : Prop :=
  ∀ k x y, a.Hears (openingRound n + 1) k x → a'.Hears (openingRound n + 1) k y →
    ¬ Digest.Collide x y

section
variable {value value' : Bytes} {accepts accepts' : (Fin n → Bytes) → π → Prop}
  {a a' : Attendance m n π} {p p' : π}

/-- Whoever has got the same commitments accepts the same values. -/
theorem CommitCourse.values_eq (course : CommitCourse value accepts a)
    (course' : CommitCourse value' accepts' a') (hcollision : NoOpeningCollision a a')
    (hsame : ∀ commitments commitments', a.Confirmed 1 commitments → a'.Confirmed 1 commitments' →
      commitments = commitments')
    (hp : a.ending = .done p) (hp' : a'.ending = .done p') :
    ∃ values, accepts values p ∧ accepts' values p' := by
  obtain ⟨values, randomness, hlength, hcommitments, hopenings, -, haccepts⟩ := course.ends p hp
  obtain ⟨values', randomness', hlength', hcommitments', hopenings', -, haccepts'⟩ :=
    course'.ends p' hp'
  have hvalues : values = values' := by
    funext k
    have hdigest := congrFun (hsame _ _ hcommitments hcommitments') k
    have hopening : values k ++ randomness k = values' k ++ randomness' k := by
      by_contra hne
      exact hcollision k _ _ (hopenings.heard k) (hopenings'.heard k) ⟨hne, hdigest⟩
    exact (List.append_inj' hopening ((hlength k).trans (hlength' k).symm)).1
  exact ⟨values, haccepts, hvalues ▸ haccepts'⟩

/-- A party that hears itself accepts its own value. -/
theorem CommitCourse.own_value [Protocol m π ρ] {honest : Fin n → Prop} {start : Nat}
    {q : Fin n → π} {a : Fin n → Attendance m n π} (company : Company honest start q a)
    (hi : honest i) (course : CommitCourse value accepts (a i)) (hp : (a i).ending = .done p) :
    ∃ values, values i = value ∧ accepts values p := by
  obtain ⟨values, randomness, hlength, -, hopenings, ⟨r, hr, hsaid⟩, haccepts⟩ := course.ends p hp
  obtain ⟨gives, hgives, hequal⟩ := company.hears hi hi (hopenings.heard i)
  rw [hsaid] at hgives
  cases hgives
  have hopening : values i ++ randomness i = value ++ r := hequal _ rfl
  exact ⟨values, (List.append_inj' hopening ((hlength i).trans hr.symm)).1, haccepts⟩

/-- Honest parties that have their commitments confirmed have the same ones. -/
theorem Company.commitments_eq [Protocol m π ρ] (hv : needsValidation n = true)
    {honest : Fin n → Prop} {start : Nat} {q : Fin n → π} {a : Fin n → Attendance m n π}
    (company : Company honest start q a) (hdigests : NoCollision honest a 1) (hi : honest i)
    (hj : honest j) {x y : Fin n → Bytes} (hx : (a i).Confirmed 1 x) (hy : (a j).Confirmed 1 y) :
    x = y := by
  obtain ⟨gives, hgives, hequal⟩ := company.hears hi hj (hx.digests hv j)
  rw [hy.said hv] at hgives
  cases hgives
  exact (hdigests i j x y hi hj hx.heard hy.heard).eq_of_ofAll (hequal _ rfl)

end

/-- In the first `k` rounds of both attendances the same was found in the queues and the same was
sent. -/
def Attendance.Coincide (a a' : Attendance m n π) (k : Nat) : Prop :=
  (a.visits.map (·.queues)).take k = (a'.visits.map (·.queues)).take k
    ∧ a.said.take k = a'.said.take k

theorem Attendance.Coincide.hears {a a' : Attendance m n π} {k r : Nat} {x : Bytes}
    (h : a.Coincide a' k) (hr : r < k) (hx : a.Hears r j x) : a'.Hears r j x := by
  obtain ⟨visit, rest, hvisit, hqueue⟩ := hx
  have hqueues : (a'.visits.map (·.queues))[r]? = some visit.queues := by
    rw [← List.getElem?_take_of_lt hr, ← h.1, List.getElem?_take_of_lt hr, List.getElem?_map,
      hvisit]
    rfl
  rw [List.getElem?_map, Option.map_eq_some_iff] at hqueues
  obtain ⟨visit', hvisit', hsame⟩ := hqueues
  exact ⟨visit', rest, hvisit', hsame ▸ hqueue⟩

/-- Whatever the others send, at every honest party: the opening leaves only after a commitment of
32 bytes has come from everybody, and with three or more parties everybody has confirmed these.
Runs that are the same until the own opening is sent end with the same values, one for each party,
the own one among them. Among three or more parties all honest ones that end have the same values,
and hence toss the same seed. -/
theorem commitments_bind {honest : Fin n → Prop} {start : Nat}
    {values : Fin n → Bytes} {a : Fin n → Attendance m n Commit}
    (committing : Company honest start (fun i => Commit.new (values i)) a)
    {b : Fin n → Attendance m n CoinToss} (tossing : Company honest start (fun _ => {}) b) :
    (∀ i gives, honest i → (a i).said[openingRound n]? = some gives →
      ∃ randomness commitments, gives = (fun _ => [values i ++ randomness])
        ∧ (a i).said[0]? = some (fun _ => [Digest.commitment (values i ++ randomness)])
        ∧ (a i).HearsAll 1 commitments ∧ (∀ j, (commitments j).length = 32)
        ∧ (3 ≤ n → (a i).said[1]? = some (fun _ => [Digest.ofAll commitments])
          ∧ (a i).HearsAll 2 fun _ => Digest.ofAll commitments))
    ∧ (∀ i p p' value' a', honest i → Attends i start (Commit.new value') a' →
      (a i).Coincide a' (openingRound n + 1) → NoOpeningCollision (a i) a' →
      (a i).ending = .done p → a'.ending = .done p' →
      (Protocol.out m p).1 = (Protocol.out m p').1)
    ∧ (∀ i p, honest i → (a i).ending = .done p → ∃ outputs : Fin n → Bytes,
      (Protocol.out m p).1 = some (List.ofFn outputs) ∧ outputs i = values i)
    ∧ (3 ≤ n → NoCollision honest a 1 →
      (∀ i j, honest i → honest j → NoOpeningCollision (a i) (a j)) →
      ∀ i j p p', honest i → honest j → (a i).ending = .done p → (a j).ending = .done p' →
        (Protocol.out m p).1 = (Protocol.out m p').1)
    ∧ (3 ≤ n → NoCollision honest b 1 →
      (∀ i j, honest i → honest j → NoOpeningCollision (b i) (b j)) →
      ∀ i j p p', honest i → honest j → (b i).ending = .done p → (b j).ending = .done p' →
        ∃ seed, (Protocol.out m p).1 = some seed ∧ (Protocol.out m p').1 = some seed) := by
  refine ⟨?_, ?_, ?_, ?_, ?_⟩
  · intro i gives hi hgives
    obtain ⟨randomness, commitments, rfl, hcommitted, hconfirmed, hlengths⟩ :=
      (Commit.course (committing.attends i hi)).opens gives hgives
    refine ⟨randomness, commitments, rfl, hcommitted, hconfirmed.heard, hlengths, fun hthree => ?_⟩
    have hv : needsValidation n = true := decide_eq_true hthree
    exact ⟨hconfirmed.said hv, hconfirmed.digests hv⟩
  · intro i p p' value' a' hi hattends hcoincide hcollision hp hp'
    obtain ⟨outputs, hout, hout'⟩ := (Commit.course (committing.attends i hi)).values_eq
      (Commit.course hattends) hcollision (fun x y hx hy => by
        have hround : 1 < openingRound n + 1 := by
          unfold openingRound
          omega
        exact Attendance.HearsAll.unique (fun j => hcoincide.hears hround (hx.heard j)) hy.heard)
      hp hp'
    exact hout.trans hout'.symm
  · intro i p hi hp
    obtain ⟨outputs, hown, hout⟩ :=
      CommitCourse.own_value committing hi (Commit.course (committing.attends i hi)) hp
    exact ⟨outputs, hout, hown⟩
  · intro hthree hdigests hcollision i j p p' hi hj hp hp'
    have hv : needsValidation n = true := decide_eq_true hthree
    obtain ⟨outputs, hout, hout'⟩ := (Commit.course (committing.attends i hi)).values_eq
      (Commit.course (committing.attends j hj)) (hcollision i j hi hj)
      (fun x y hx hy => committing.commitments_eq hv hdigests hi hj hx hy) hp hp'
    exact hout.trans hout'.symm
  · intro hthree hdigests hcollision i j p p' hi hj hp hp'
    have hv : needsValidation n = true := decide_eq_true hthree
    obtain ⟨seed, hcourse⟩ := CoinToss.course (tossing.attends i hi)
    obtain ⟨seed', hcourse'⟩ := CoinToss.course (tossing.attends j hj)
    obtain ⟨outputs, ⟨seeds, rfl, hout⟩, seeds', hseeds, hout'⟩ := hcourse.values_eq hcourse'
      (hcollision i j hi hj)
      (fun x y hx hy => tossing.commitments_eq hv hdigests hi hj hx hy) hp hp'
    have heq : seeds = seeds' := funext fun k => Vector.toList_inj.mp (congrFun hseeds k)
    exact ⟨Seed.joint seeds, hout, heq ▸ hout'⟩

/-- Every party commits. -/
theorem Commit.begins {sound : Opening m n → Prop} {key : Fin n → Element m}
    {pools : Fin n → Pool m} (values : Fin n → Bytes) :
    Begins sound key (fun p : Fin n → Commit => ∀ i, (p i).output = some (List.ofFn values))
      (fun i => Commit.new (values i)) pools fun i => { pools i with
        localGenerator := (Draw.bytes randomnessLength (pools i).localGenerator).2 } := by
  refine .more _ _ _ (fun i => turn_begin (values i) 0 (pools i))
    (unison values _ (fun i => length_bytes _ _) 0) ?_ ?_
  · rw [List.length_replicate, lastRound]
    have := confirmations_le n
    omega
  · intro effect heffect o ho
    obtain ⟨-, rfl⟩ := List.mem_replicate.mp heffect
    cases ho

/-- Every party tosses a coin. -/
theorem CoinToss.begins {sound : Opening m n → Prop} {key : Fin n → Element m}
    {pools : Fin n → Pool m} :
    Begins sound key (fun p : Fin n → CoinToss => ∀ i, (p i).output
        = some (Seed.joint fun i => ownSeed (pools i).localGenerator))
      (fun _ => {}) pools fun i => { pools i with
        localGenerator := afterDraws (pools i).localGenerator } := by
  refine .more _ _ _ (fun i => turn_begin 0 (pools i))
    (unison _ _ (fun i => length_bytes _ _) 0) ?_ ?_
  · rw [List.length_replicate, lastRound]
    have := confirmations_le n
    omega
  · intro effect heffect o ho
    obtain ⟨-, rfl⟩ := List.mem_replicate.mp heffect
    cases ho

/-- Where everybody is honest and ends, everybody hears the same, so nothing collides. -/
theorem Company.no_collision [Protocol m π ρ] {start : Nat} {q : Fin n → π}
    {a : Fin n → Attendance m n π} (company : Company (fun _ => True) start q a)
    (course : ∀ i, ∃ value accepts, CommitCourse value accepts (a i))
    (ends : ∀ i, ∃ p, (a i).ending = .done p) :
    NoCollision (fun _ => True) a 1 ∧ ∀ i j, NoOpeningCollision (a i) (a j) := by
  have hopened : ∀ k, ∃ y, (a k).said[openingRound n]? = some (fun _ => [y])
      ∧ (a k).said[0]? = some fun _ => [Digest.commitment y] := by
    intro k
    obtain ⟨value, accepts, hcourse⟩ := course k
    obtain ⟨p, hp⟩ := ends k
    obtain ⟨_, _, _, _, _, ⟨r, _, hsaid⟩, _⟩ := hcourse.ends p hp
    obtain ⟨randomness, commitments, hgives, hcommitted, -⟩ := hcourse.opens _ hsaid
    have hopening : value ++ r = value ++ randomness := by simpa using congrFun hgives k
    exact ⟨value ++ r, hsaid, hopening ▸ hcommitted⟩
  choose opening hopening hcommitted using hopened
  have hheard : ∀ {i r k x y}, (a k).said[r]? = some (fun _ => [y]) → (a i).Hears (r + 1) k x →
      x = y := by
    intro i r k x y hsaid hx
    obtain ⟨gives, hgives, hequal⟩ := company.hears trivial trivial hx
    rw [hsaid] at hgives
    cases hgives
    exact hequal y rfl
  constructor
  · intro i j x y _ _ hx hy
    have hxs : x = fun k => Digest.commitment (opening k) :=
      funext fun k => hheard (hcommitted k) (hx k)
    have hys : y = fun k => Digest.commitment (opening k) :=
      funext fun k => hheard (hcommitted k) (hy k)
    have hfits : ∀ z ∈ List.ofFn fun k => Digest.commitment (opening k),
        z.length < Bytes.capacity 8 := by
      intro z hz
      obtain ⟨k, rfl⟩ := List.mem_ofFn.mp hz
      rw [Digest.length_commitment]
      decide
    rw [hxs, hys]
    exact ⟨hfits, hfits, fun hcollide => hcollide.1 rfl⟩
  · intro i j k x y hx hy hcollide
    exact hcollide.1 ((hheard (hopening k) hx).trans (hheard (hopening k) hy).symm)

/-- Three parties of which two are honest commit to values, and toss a coin. -/
theorem commitments_bind_trio :
    ∃ (a : Fin 3 → Attendance .mersenne61 3 Commit) (b : Fin 3 → Attendance .mersenne61 3 CoinToss)
        (p p' : Commit) (q q' : CoinToss) (outputs : Fin 3 → Bytes) (seed : Seed),
      Company (· ≠ 2) 0 (fun i => Commit.new [UInt8.ofNat i]) a
      ∧ Company (· ≠ 2) 0 (fun _ => {}) b
      ∧ (a 0).ending = .done p ∧ (a 1).ending = .done p' ∧ p.output = some (List.ofFn outputs)
      ∧ p'.output = some (List.ofFn outputs) ∧ outputs 0 = [0]
      ∧ (b 0).ending = .done q ∧ (b 1).ending = .done q' ∧ q.output = some seed
      ∧ q'.output = some seed := by
  let values (i : Fin 3) : Bytes := [UInt8.ofNat i]
  have hcommit := @Commit.begins .mersenne61 3 (Sound fun _ => 4) (fun _ => 4) trioPool values
  have htoss := @CoinToss.begins .mersenne61 3 (Sound fun _ => 4) (fun _ => 4) trioPool
  have htable := table_trioPool
  obtain ⟨a, p, ha, hp, -⟩ := hcommit.company htable
    ⟨htable.party, htable.parties, htable.keyShare, htable.opened⟩
  obtain ⟨b, q, hb, hq, -⟩ := htoss.company htable
    ⟨htable.party, htable.parties, htable.keyShare, htable.opened⟩
  obtain ⟨hadigests, haopenings⟩ := ha.no_collision
    (fun i => ⟨_, _, Commit.course (ha.attends i trivial)⟩) fun i => ⟨_, hp i⟩
  obtain ⟨hbdigests, hbopenings⟩ := hb.no_collision
    (fun i => ⟨_, _, (CoinToss.course (hb.attends i trivial)).choose_spec⟩) fun i => ⟨_, hq i⟩
  have hsome : ∀ i : Fin 3, i ≠ 2 → True := fun _ _ => trivial
  have hfirst : (0 : Fin 3) ≠ 2 := by decide
  have hsecond : (1 : Fin 3) ≠ 2 := by decide
  obtain ⟨-, -, hown, hsame, hseed⟩ := commitments_bind (ha.mono hsome) (hb.mono hsome)
  obtain ⟨outputs, hout, houtput⟩ := hown 0 (p 0) hfirst (hp 0)
  have hout' := hsame (by decide) (fun i j x y _ _ => hadigests i j x y trivial trivial)
    (fun i j _ _ => haopenings i j) 0 1 (p 0) (p 1) hfirst hsecond (hp 0) (hp 1)
  obtain ⟨seed, hq₀, hq₁⟩ :=
    hseed (by decide) (fun i j x y _ _ => hbdigests i j x y trivial trivial)
      (fun i j _ _ => hbopenings i j) 0 1 (q 0) (q 1) hfirst hsecond (hq 0) (hq 1)
  exact ⟨a, b, p 0, p 1, q 0, q 1, outputs, seed, ha.mono hsome, hb.mono hsome, hp 0, hp 1, hout,
    hout'.symm.trans hout, houtput, hq 0, hq 1, hq₀, hq₁⟩

end JointCircuit
