/-
JointCircuit.Proofs.Control — who controls the joint seed.

A commitment does not tell whose it is. A peer may send back the
commitment that it has been sent and later the opening: both are
accepted, the own seed cancels out against its copy, and the seed is the
one that the other peers have chosen (§2).

Otherwise a seed is as good as the own one: unless two openings fit the
same commitment, peers whose commitments do not depend on the one they
have been sent all contribute the same to every seed (§3).

Main statement: `forces_seed`.
-/
import JointCircuit.Proofs.Rushing
import JointCircuit.Proofs.Refinement

namespace JointCircuit

open Evaluator CoinToss

variable {m : Modulus} {n : Nat} {σ : Strategy n} {h : Fin n} {pool : Pool m} {g g' : Generator}
  {v v' : Seed}

/-! ## §1 Sums of seeds -/

/-- The seed that adds nothing. -/
def Seed.zero : Seed :=
  Vector.replicate 32 0

namespace Seed

theorem xor_comm (s t : Seed) : s.xor t = t.xor s := by
  refine Vector.ext fun k hk => ?_
  simp [xor, UInt8.xor_comm]

theorem xor_assoc (s t u : Seed) : (s.xor t).xor u = s.xor (t.xor u) := by
  refine Vector.ext fun k hk => ?_
  simp [xor, UInt8.xor_assoc]

@[simp] theorem xor_self (s : Seed) : s.xor s = zero := by
  refine Vector.ext fun k hk => ?_
  simp [xor, zero]

@[simp] theorem zero_xor (s : Seed) : zero.xor s = s := by
  refine Vector.ext fun k hk => ?_
  simp [xor, zero]

theorem xor_xor_self (s t : Seed) : s.xor (s.xor t) = t := by
  rw [← xor_assoc, xor_self, zero_xor]

theorem xor_xor_xor_right (s t u : Seed) : (s.xor u).xor (t.xor u) = s.xor t := by
  rw [xor_comm t u, xor_assoc, xor_xor_self]

instance : Std.Associative xor := ⟨xor_assoc⟩

instance : Std.Commutative xor := ⟨xor_comm⟩

/-- The part of one party in the joint seed. -/
theorem joint_eq_xor (seeds : Fin n → Seed) (h : Fin n) :
    joint seeds = (seeds h).xor (joint (Function.update seeds h zero)) := by
  have hperm : (List.finRange n).Perm (h :: (List.finRange n).erase h) :=
    List.perm_cons_erase (List.mem_finRange h)
  have hfold (seeds : Fin n → Seed) : joint seeds
      = (((List.finRange n).erase h).map seeds).foldl xor (seeds h) := by
    rw [joint, List.ofFn_eq_map, (hperm.map seeds).foldl_op_eq, List.map_cons, List.foldl_cons]
    exact congrArg (List.foldl xor · _) (zero_xor (seeds h))
  have hothers : ((List.finRange n).erase h).map (Function.update seeds h zero)
      = ((List.finRange n).erase h).map seeds := by
    refine List.map_congr_left fun k hk => Function.update_of_ne ?_ _ _
    exact ((List.nodup_finRange n).mem_erase_iff.mp hk).1
  rw [hfold, hfold (Function.update seeds h zero), hothers, Function.update_self,
    ← @List.foldl_assoc Seed xor _ _ (seeds h) zero, xor_comm (seeds h) zero, zero_xor]

theorem joint_zero : joint (fun _ : Fin n => zero) = zero := by
  have hfold (count : Nat) : (List.replicate count zero).foldl xor zero = zero := by
    induction count with
    | zero => rfl
    | succ count ih =>
      rw [List.replicate_succ, List.foldl_cons, zero_xor]
      exact ih
  rw [joint, List.ofFn_const]
  exact hfold n

/-- The same seed cancels out against itself. -/
theorem joint_cancel {h j : Fin n} (hne : j ≠ h) (s : Seed) (seeds : Fin n → Seed) :
    joint (fun k => if k = h ∨ k = j then s else seeds k)
      = joint fun k => if k = h ∨ k = j then zero else seeds k := by
  rw [joint_eq_xor _ h, joint_eq_xor _ j, Function.update_of_ne hne, if_pos (.inl rfl),
    if_pos (.inr rfl), xor_xor_self]
  congr 1
  funext k
  by_cases hj : k = j
  · rw [hj, Function.update_self, if_pos (.inr rfl)]
  · rw [Function.update_of_ne hj]
    by_cases hh : k = h
    · rw [hh, Function.update_self, if_pos (.inl rfl)]
    · rw [Function.update_of_ne hh, if_neg (by simp [hj, hh]), if_neg (by simp [hj, hh])]

end Seed

/-! ## §2 Scripted peers -/

/-- Party `h + 1` has this pool with the generator `g`. Its queues are empty, it tosses a coin
against the strategy, and the toss ends with `v`. -/
def Strategy.Ends (σ : Strategy n) (h : Fin n) (pool : Pool m) (g : Generator) (v : Seed) : Prop :=
  ∀ e : Evaluator m, e.At h { pool with localGenerator := g } (fun _ => []) (fun _ => []) →
    Yields σ h [] (run ({} : CoinToss)) e v

/-- The strategy leads to this seed whatever the generator is. -/
def Strategy.Forces (σ : Strategy n) (h : Fin n) (pool : Pool m) (v : Seed) : Prop :=
  ∀ g, σ.Ends h pool g v

theorem ends_iff_opens (hparties : pool.parties = n) : σ.Ends h pool g v ↔ σ.Opens h g v := by
  constructor
  · intro hends
    let e : Evaluator m :=
      { participant := ⟨{ pool with localGenerator := g },
          .ofPeers (h + 1) (fun _ : Fin n => []) (fun _ => []) 0⟩ }
    have seat : e.At h { pool with localGenerator := g } (fun _ => []) (fun _ => []) :=
      ⟨rfl, 0, rfl⟩
    exact (yields_toss hparties seat).mp (hends e seat)
  · intro hopens e seat
    exact (yields_toss hparties seat).mpr hopens

/-- Number of exchanges of a toss up to the one of the openings. -/
def openingExchange (n : Nat) : Nat :=
  2 + confirmations n

/-- The opening of a seed by a peer that uses no randomness. -/
def plainOpening (seed : Seed) : Bytes :=
  seed.toList ++ List.replicate Commit.randomnessLength 0

/-- Peers that follow a script. Some of them always send back what they have just been sent. The
others commit to the seeds of the script and open them, and else they do the same. -/
def scripted (echoes : Fin n → Bool) (seeds : Fin n → Seed) : Strategy n := fun sent k =>
  if echoes k = false ∧ sent.length = 1 then [Digest.commitment (plainOpening (seeds k))]
  else if echoes k = false ∧ sent.length = openingExchange n then [plainOpening (seeds k)]
  else (sent.getLastD []).getD k []

variable {echoes : Fin n → Bool} {seeds : Fin n → Seed} {before : List (List Frame)}
  {message : Bytes} {messages : Fin n → Bytes}

/-- What is committed to does not depend on what was sent. -/
theorem scripted_commitment {k : Fin n} (hecho : echoes k = false) (frames : List Frame) :
    scripted echoes seeds [frames] k = [Digest.commitment (plainOpening (seeds k))] := by
  unfold scripted
  exact if_pos ⟨hecho, rfl⟩

theorem scripted_echo {k : Fin n} (hk : h ≠ k)
    (hecho : echoes k = true ∨ before.length ≠ 0 ∧ before.length + 1 ≠ openingExchange n) :
    scripted echoes seeds (before ++ [announce h message]) k = [message] := by
  have hback : ((before ++ [announce h message]).getLastD []).getD k [] = [message] := by
    rw [List.getLastD_concat]
    exact getD_framesOf hk _
  have hlength : (before ++ [announce h message]).length = before.length + 1 := by simp
  unfold scripted
  rw [hlength, hback]
  rcases hecho with htrue | ⟨hfirst, hopening⟩
  · rw [if_neg (by simp [htrue]), if_neg (by simp [htrue])]
  · rw [if_neg (by omega), if_neg (by omega)]

/-- Peers that follow a script confirm everything. -/
theorem broadcasts_scripted
    (hheard : (scripted echoes seeds).heard h (before ++ [announce h message]) [message]
      = fun k => [messages k])
    (hconfirm : needsValidation n = true → before.length ≠ 1) :
    ∃ sent,
      (scripted echoes seeds).Broadcasts h (before ++ [announce h message]) message messages sent
      ∧ sent.length = before.length + 1 + confirmations n := by
  unfold Strategy.Broadcasts confirmations
  cases hv : needsValidation n with
  | false =>
    refine ⟨before ++ [announce h message], ⟨hheard, ?_⟩, by simp⟩
    simp
  | true =>
    refine ⟨before ++ [announce h message] ++ [announce h (Digest.ofMessages (List.ofFn messages))],
      ⟨hheard, ?_⟩, by simp⟩
    rw [if_pos rfl]
    refine ⟨rfl, funext fun k => ?_⟩
    have hlength : openingExchange n = 3 := by simp [openingExchange, confirmations, hv]
    unfold Strategy.heard
    split
    · rfl
    · rename_i hk
      refine scripted_echo (Ne.symm hk) (.inr ?_)
      have := hconfirm hv
      rw [hlength, List.length_append, List.length_singleton]
      omega

/-- What is heard in an exchange in which the script gives the others something to send. -/
theorem heard_scripted (hscript : ∀ k, echoes k = false →
      scripted echoes seeds (before ++ [announce h message]) k = [messages k]) :
    (scripted echoes seeds).heard h (before ++ [announce h message]) [message]
      = fun k => [if k = h ∨ echoes k = true then message else messages k] := by
  funext k
  unfold Strategy.heard
  by_cases hk : k = h
  · rw [if_pos hk, if_pos (.inl hk)]
  · rw [if_neg hk]
    cases hecho : echoes k with
    | true =>
      rw [if_pos (.inr rfl)]
      exact scripted_echo (Ne.symm hk) (.inl hecho)
    | false =>
      rw [if_neg (by simp [hk])]
      exact hscript k hecho

/-- A party ends with the seeds of the script and with its own seed for itself and once more for
everybody that sends back what it has sent. -/
theorem opens_scripted :
    (scripted echoes seeds).Opens h g
      (Seed.joint fun k => if k = h ∨ echoes k = true then ownSeed g else seeds k) := by
  have hopening (k : Fin n) :
      (if k = h ∨ echoes k = true then ownSeed g else seeds k).toList
          ++ (if k = h ∨ echoes k = true then ownRandomness g
            else List.replicate Commit.randomnessLength 0)
        = if k = h ∨ echoes k = true then ownOpening g else plainOpening (seeds k) := by
    split
    · rfl
    · rfl
  have hcommitments := @heard_scripted n h echoes seeds []
    (Digest.commitment (ownOpening g)) (fun k => Digest.commitment (plainOpening (seeds k)))
    fun k hecho => scripted_commitment hecho _
  obtain ⟨sent, hcommitted, hsent⟩ := broadcasts_scripted hcommitments (by simp)
  have hopenings := @heard_scripted n h echoes seeds sent (ownOpening g)
    (fun k => plainOpening (seeds k)) (by
      intro k hecho
      have hlength : sent.length + 1 = openingExchange n := by
        rw [hsent, openingExchange, List.length_nil]
        omega
      unfold scripted
      rw [List.length_append, List.length_singleton, hlength, if_neg, if_pos ⟨hecho, rfl⟩]
      rintro ⟨-, hone⟩
      unfold openingExchange at hone
      omega)
  obtain ⟨sent', hopened, -⟩ := broadcasts_scripted hopenings (by
    intro hv hone
    simp [hsent, confirmations, hv] at hone)
  refine ⟨fun k => if k = h ∨ echoes k = true then ownSeed g else seeds k,
    fun k => if k = h ∨ echoes k = true then ownRandomness g
      else List.replicate Commit.randomnessLength 0, sent, sent', ?_, ?_, ?_, rfl⟩
  · intro k
    dsimp only
    split
    · exact length_bytes _ _
    · exact List.length_replicate
  · simp only [hopening, apply_ite Digest.commitment]
    exact hcommitted
  · simp only [hopening]
    exact hopened

/-- One peer that sends back what it has been sent is enough. -/
theorem forces_of_echo (hparties : pool.parties = n) {j : Fin n} (hne : j ≠ h)
    (seeds : Fin n → Seed) :
    (scripted (fun k => k == j) seeds).Forces h pool
      (Seed.joint fun k => if k = h ∨ k = j then Seed.zero else seeds k) := by
  intro g
  rw [ends_iff_opens hparties, ← Seed.joint_cancel hne (ownSeed g)]
  have hopens := @opens_scripted n h g (fun k => k == j) seeds
  simp only [beq_iff_eq] at hopens
  exact hopens

/-! ## §3 Independent commitments -/

/-- The strategy sends two different openings that fit the same commitment. -/
def Strategy.Collides (σ : Strategy n) : Prop :=
  ∃ (j : Fin n) (sent sent' : List (List Frame)) (opening opening' : Bytes),
    sent.length = openingExchange n ∧ sent'.length = openingExchange n
    ∧ σ sent j = [opening] ∧ σ sent' j = [opening'] ∧ opening ≠ opening'
    ∧ Digest.commitment opening = Digest.commitment opening'

namespace Strategy.Broadcasts

variable {sent sent' : List (List Frame)}

theorem own (broadcast : σ.Broadcasts h sent message messages sent') : messages h = message := by
  have hheard := congrFun broadcast.1 h
  rw [heard, if_pos rfl] at hheard
  exact (List.cons.inj hheard).1.symm

theorem peer (broadcast : σ.Broadcasts h sent message messages sent') {k : Fin n} (hk : k ≠ h) :
    σ sent k = [messages k] := by
  have hheard := congrFun broadcast.1 k
  rw [heard, if_neg hk] at hheard
  exact hheard

theorem length_eq (broadcast : σ.Broadcasts h sent message messages sent') :
    sent'.length = sent.length + confirmations n := by
  obtain ⟨-, hconfirm⟩ := broadcast
  unfold confirmations
  cases hv : needsValidation n with
  | false =>
    rw [hv, if_neg (by decide)] at hconfirm
    simp [hconfirm]
  | true =>
    rw [hv, if_pos rfl] at hconfirm
    simp [hconfirm.1]

end Strategy.Broadcasts

/-- Seeds are opened alike if the openings are. -/
theorem seed_eq_of_opening {seed seed' : Seed} {randomness randomness' : Bytes}
    (h : seed.toList ++ randomness = seed'.toList ++ randomness') : seed = seed' := by
  have hbytes := (List.append_inj h (by simp)).1
  exact Vector.toList_inj.mp hbytes

/-- A peer opens what it has committed to, and two openings of one commitment are the same. -/
theorem xor_eq_of_opens (hcollides : ¬ σ.Collides)
    (hsame : ∀ j, j ≠ h → σ [announce h (Digest.commitment (ownOpening g))] j
      = σ [announce h (Digest.commitment (ownOpening g'))] j)
    (hopens : σ.Opens h g v) (hopens' : σ.Opens h g' v') :
    v.xor v' = (ownSeed g).xor (ownSeed g') := by
  obtain ⟨seeds, randomness, sent, last, -, hcommitted, hopened, rfl⟩ := hopens
  obtain ⟨seeds', randomness', sent', last', -, hcommitted', hopened', rfl⟩ := hopens'
  have hown : seeds h = ownSeed g := seed_eq_of_opening hopened.own
  have hown' : seeds' h = ownSeed g' := seed_eq_of_opening hopened'.own
  have hpeers : ∀ k, k ≠ h → seeds k = seeds' k := by
    intro k hk
    have hcommitment := (hcommitted.peer hk).symm.trans ((hsame k hk).trans (hcommitted'.peer hk))
    have hlength : (sent ++ [announce h (ownOpening g)]).length = openingExchange n := by
      rw [List.length_append, hcommitted.length_eq, List.length_singleton, List.length_singleton,
        openingExchange]
      omega
    have hlength' : (sent' ++ [announce h (ownOpening g')]).length = openingExchange n := by
      rw [List.length_append, hcommitted'.length_eq, List.length_singleton, List.length_singleton,
        openingExchange]
      omega
    have hopening : (seeds k).toList ++ randomness k = (seeds' k).toList ++ randomness' k := by
      by_contra hne
      exact hcollides ⟨k, _, _, _, _, hlength, hlength', hopened.peer hk, hopened'.peer hk, hne,
        (List.cons.inj hcommitment).1⟩
    exact seed_eq_of_opening hopening
  have hothers : Function.update seeds' h Seed.zero = Function.update seeds h Seed.zero := by
    funext k
    by_cases hk : k = h
    · rw [hk, Function.update_self, Function.update_self]
    · rw [Function.update_of_ne hk, Function.update_of_ne hk, hpeers k hk]
  rw [Seed.joint_eq_xor seeds h, Seed.joint_eq_xor seeds' h, hown, hown', hothers,
    Seed.xor_xor_xor_right]

/-! ## §4 The joint seed -/

/-- What becomes of the joint seed of an honest party `h + 1` against its peers: it is made of
openings that fit the commitments heard before, each in the place of its sender. Peers that commit
alike for two generators contribute alike, unless two openings fit one commitment. But a
commitment may be a copy of the own one, and then the own seed plays no part. -/
theorem forces_seed (hparties : pool.parties = n) (h : Fin n) :
    (∀ (σ : Strategy n) (g : Generator) (v : Seed), σ.Ends h pool g v ↔ σ.Opens h g v)
    ∧ (∀ (σ : Strategy n) (g g' : Generator) (v v' : Seed), ¬ σ.Collides →
      (∀ j, j ≠ h → σ [announce h (Digest.commitment (ownOpening g))] j
        = σ [announce h (Digest.commitment (ownOpening g'))] j) →
      σ.Ends h pool g v → σ.Ends h pool g' v' →
      v.xor v' = (ownSeed g).xor (ownSeed g'))
    ∧ ∀ (j : Fin n) (seeds : Fin n → Seed), j ≠ h →
      (scripted (fun k => k == j) seeds).Forces h pool
        (Seed.joint fun k => if k = h ∨ k = j then Seed.zero else seeds k) := by
  refine ⟨fun σ g v => ends_iff_opens hparties, ?_, ?_⟩
  · intro σ g g' v v' hcollides hsame hends hends'
    exact xor_eq_of_opens hcollides hsame ((ends_iff_opens hparties).mp hends)
      ((ends_iff_opens hparties).mp hends')
  · intro j seeds hne
    exact forces_of_echo hparties hne seeds

theorem not_collides_scripted : ¬ (scripted (fun _ => false) seeds).Collides := by
  rintro ⟨j, sent, sent', opening, opening', hlength, hlength', hsends, hsends', hne, -⟩
  have hne_one : openingExchange n ≠ 1 := by
    unfold openingExchange
    omega
  simp only [scripted, hlength, hlength', hne_one, and_false, if_false, and_self, if_true]
    at hsends hsends'
  exact hne ((List.cons.inj hsends).1.symm.trans (List.cons.inj hsends').1)

/-- The first of two parties against a peer that sends everything back, and against one that sticks
to a seed. -/
theorem forces_seed_pair :
    (stockedPool 0).parties = 2 ∧ (1 : Fin 2) ≠ 0
      ∧ (scripted (fun k => k == (1 : Fin 2)) fun _ => Seed.zero).Forces 0 (stockedPool 0) Seed.zero
      ∧ ∃ (σ : Strategy 2) (v v' : Seed), ¬ σ.Collides
        ∧ σ.Ends 0 (stockedPool 0) (stockedPool 0).localGenerator v
        ∧ σ.Ends 0 (stockedPool 0) (stockedPool 1).localGenerator v'
        ∧ v.xor v' = (ownSeed (stockedPool 0).localGenerator).xor
          (ownSeed (stockedPool 1).localGenerator) := by
  obtain ⟨hends, hindependent, hechoed⟩ := @forces_seed _ 2 (stockedPool 0) rfl 0
  let stubborn : Strategy 2 := scripted (fun _ => false) fun _ => Seed.zero
  have hfirst := (hends stubborn (stockedPool 0).localGenerator _).mpr opens_scripted
  have hsecond := (hends stubborn (stockedPool 1).localGenerator _).mpr opens_scripted
  refine ⟨rfl, by decide, ?_, stubborn, _, _, not_collides_scripted, hfirst, hsecond, ?_⟩
  · have hforces := hechoed 1 (fun _ => Seed.zero) (by decide)
    simp only [ite_self, Seed.joint_zero] at hforces
    exact hforces
  · refine hindependent stubborn _ _ _ _ not_collides_scripted (fun j hj => ?_) hfirst hsecond
    have hcommits := @scripted_commitment 2 (fun _ => false) (fun _ => Seed.zero) j rfl
    exact (hcommits _).trans (hcommits _).symm

/-- A coalition short of all parties may control the seed. -/
theorem seed_controlled :
    ¬ ∀ (n : Nat) (h : Fin n) (pool : Pool .mersenne61) (σ : Strategy n),
      2 ≤ n → pool.parties = n → ¬ ∃ v, σ.Forces h pool v := by
  intro hall
  refine hall 2 0 (stockedPool 0) (scripted (fun k => k == 1) fun _ => Seed.zero) (by decide) rfl ?_
  have hne : (1 : Fin 2) ≠ 0 := by decide
  exact ⟨_, @forces_of_echo _ 2 0 (stockedPool 0) rfl 1 hne _⟩

end JointCircuit
