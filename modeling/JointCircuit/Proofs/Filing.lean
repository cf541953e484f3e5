/-
JointCircuit.Proofs.Filing — dealt files reach the parties they are for.

The dealer and a party that loads dealt data name files on their own, from
one pattern. If there is a `#` in it, no two parties get the same path,
wherever it stands, however often, and whatever the numbers of digits
(`pathFor_injective`, §1): paths of equal length have fills of equal
length, and then they agree place by place. Of several writes of one path
the last one counts (`FileStore.read?_writeAll`, §2), so that each party
finds its own data (`Deal.finds_own`, §3). Without a `#` all of it goes to
one path, and everybody finds the data of the last party
(`Deal.finds_last`).

Main statement: `Deal.load_after_run`.
-/
import JointCircuit.Proofs.Dealing
import JointCircuit.Proofs.Files

namespace JointCircuit

variable {m : Modulus}

/-! ## §1 Paths -/

/-- The length of a pattern that is filled in: every `#` gives way to the fill. -/
theorem length_filled (cs fill : List Char) :
    (cs.flatMap fun c => if c = '#' then fill else [c]).length + cs.count '#'
      = cs.length + cs.count '#' * fill.length := by
  induction cs with
  | nil => simp
  | cons c cs ih =>
    rw [List.flatMap_cons, List.length_append, List.length_cons]
    by_cases hc : c = '#'
    · subst hc
      rw [if_pos rfl, List.count_cons_self, Nat.succ_mul]
      omega
    · rw [if_neg hc, List.count_cons_of_ne hc, List.length_singleton]
      omega

/-- Fills of equal length can be told apart. -/
theorem filled_injective_of_length {cs s t : List Char} (hlength : s.length = t.length)
    (hcs : '#' ∈ cs) (h : (cs.flatMap fun c => if c = '#' then s else [c])
      = cs.flatMap fun c => if c = '#' then t else [c]) : s = t := by
  induction cs with
  | nil => cases hcs
  | cons c cs ih =>
    rw [List.flatMap_cons, List.flatMap_cons] at h
    by_cases hc : c = '#'
    · rw [if_pos hc, if_pos hc] at h
      exact (List.append_inj h hlength).1
    · rw [if_neg hc, if_neg hc] at h
      exact ih (List.mem_of_ne_of_mem (Ne.symm hc) hcs) (List.append_cancel_left h)

/-- So can any fills, as they would leave patterns of different lengths. -/
theorem filled_injective {cs s t : List Char} (hcs : '#' ∈ cs)
    (h : (cs.flatMap fun c => if c = '#' then s else [c])
      = cs.flatMap fun c => if c = '#' then t else [c]) : s = t := by
  have hs := length_filled cs s
  have ht := length_filled cs t
  rw [h] at hs
  have hproduct : cs.count '#' * s.length = cs.count '#' * t.length := by omega
  exact filled_injective_of_length
    (Nat.eq_of_mul_eq_mul_left (List.count_pos_iff.mpr hcs) hproduct) hcs h

/-- Numbers are read back from their decimal digits. -/
theorem digits_injective {a b : Nat} (h : (toString a).toList = (toString b).toList) : a = b := by
  simp only [Nat.toString_eq_repr, Nat.toList_repr] at h
  calc a = Nat.ofDigitChars 10 (Nat.toDigits 10 a) 0 := (Nat.ofDigitChars_ten_toDigits).symm
    _ = Nat.ofDigitChars 10 (Nat.toDigits 10 b) 0 := by rw [h]
    _ = b := Nat.ofDigitChars_ten_toDigits

/-- A pattern with a `#` names a path of its own for every party. -/
theorem pathFor_injective {pattern : String} (h : '#' ∈ pattern.toList) {a b : Nat}
    (hpath : pathFor pattern a = pathFor pattern b) : a = b :=
  digits_injective (filled_injective h (String.ofList_inj.mp hpath))

/-- One without names itself. -/
theorem pathFor_of_notMem {pattern : String} (h : '#' ∉ pattern.toList) (party : Nat) :
    pathFor pattern party = pattern := by
  have hsame : ∀ c ∈ pattern.toList, (if c = '#' then (toString party).toList else [c]) = [c] :=
    fun c hc => if_neg fun hmark : c = '#' => h (hmark ▸ hc)
  rw [pathFor, List.flatMap_congr hsame, List.flatMap_singleton', String.ofList_toList]

/-! ## §2 Files one after another -/

namespace FileStore

/-- No two paths lead to one place. -/
def Separates (files : FileStore) : Prop :=
  ∀ path other place, files.locate path = .ok place → files.locate other = .ok place → path = other

theorem separates_default (entries : List (String × Bytes)) :
    Separates { entries } := by
  rintro path other place ⟨⟩ ⟨⟩
  rfl

variable {files after : FileStore} {path other : String} {contents : Bytes}
  {outputs : List (String × Bytes)}

theorem writeAll_cons (files : FileStore) (path : String) (contents : Bytes)
    (rest : List (String × Bytes)) : files.writeAll ((path, contents) :: rest)
      = files.write path contents >>= fun mid => mid.writeAll rest := rfl

theorem exists_place_of_write (h : files.write path contents = .ok after) :
    ∃ place, files.locate path = .ok place := by
  unfold write at h
  split at h
  · cases h
  · rename_i place hplace
    exact ⟨place, hplace⟩

/-- Every other path is left alone. -/
theorem Separates.read?_write (hfiles : files.Separates)
    (h : files.write path contents = .ok after) (hne : other ≠ path) :
    after.read? other = files.read? other := by
  obtain ⟨place, hplace⟩ := exists_place_of_write h
  exact read?_write_of_ne h fun heq => hne (hfiles other path place (heq.trans hplace) hplace)

theorem Separates.write (hfiles : files.Separates) (h : files.write path contents = .ok after) :
    after.Separates := by
  rw [Separates, locate_write h]
  exact hfiles

/-- The last contents that a path was given are those that are read. -/
theorem read?_writeAll (hfiles : files.Separates) (h : files.writeAll outputs = .ok after)
    (path : String) :
    after.read? path = (outputs.reverse.lookup path).or (files.read? path) := by
  induction outputs generalizing files with
  | nil =>
    cases h
    rfl
  | cons output rest ih =>
    obtain ⟨first, contents⟩ := output
    rw [writeAll_cons] at h
    obtain ⟨mid, hwrite, hrest⟩ := except_bind_eq_ok.mp h
    rw [ih (hfiles.write hwrite) hrest, List.reverse_cons, List.lookup_append, Option.or_assoc]
    congr 1
    by_cases hpath : path = first
    · subst hpath
      rw [read?_write_self hwrite, List.lookup_cons_self, Option.some_or]
    · rw [hfiles.read?_write hwrite hpath, List.lookup_cons, beq_false_of_ne hpath,
        List.lookup_nil, Option.none_or]

/-- A store in which every path leads somewhere takes every file. -/
theorem exists_writeAll (hfiles : ∀ path, ∃ place, files.locate path = .ok place)
    (outputs : List (String × Bytes)) : ∃ after, files.writeAll outputs = .ok after := by
  induction outputs generalizing files with
  | nil => exact ⟨files, rfl⟩
  | cons output rest ih =>
    obtain ⟨path, contents⟩ := output
    obtain ⟨place, hplace⟩ := hfiles path
    have hwrite : ∃ mid, files.write path contents = .ok mid := by
      rw [write, hplace]
      exact ⟨_, rfl⟩
    obtain ⟨mid, hmid⟩ := hwrite
    obtain ⟨after, hafter⟩ : ∃ after, mid.writeAll rest = .ok after :=
      ih (by rwa [locate_write hmid])
    exact ⟨after, by rw [writeAll_cons, hmid]; exact hafter⟩

end FileStore

/-- An entry whose key stands for nothing else is the one that is looked up. -/
theorem lookup_eq_some {α β : Type} [BEq α] [LawfulBEq α] {entries : List (α × β)} {key : α}
    {value : β} (hmem : (key, value) ∈ entries)
    (honly : ∀ other, (key, other) ∈ entries → other = value) :
    entries.lookup key = some value := by
  cases h : entries.lookup key with
  | none => exact absurd (List.lookup_eq_none_iff.mp h _ hmem) (by simp)
  | some other =>
    obtain ⟨before, later, rfl, -⟩ := List.lookup_eq_some_iff.mp h
    rw [honly other (List.mem_append_right _ List.mem_cons_self)]

/-! ## §3 Deals -/

/-- Numbers that the command can be given, of which a file has room for each. -/
structure DealOptions.Sized (options : DealOptions) : Prop where
  parties : options.parties < Bytes.capacity 8
  triples : options.triples < Bytes.capacity 8
  masks : options.masks < Bytes.capacity 8

/-- There is room in a file for the column of every party. -/
theorem Dealing.storable_data {n triples masks : Nat} (d : Dealing m n triples masks)
    (hn : n < Bytes.capacity 8) (htriples : triples < Bytes.capacity 8)
    (hmasks : masks < Bytes.capacity 8) (i : Fin n) : (d.data i).Storable where
  parties := hn
  party := Nat.lt_of_le_of_lt i.isLt hn
  triples := by rwa [triples_data, List.length_map, d.length_tripleRows]
  masks := by rwa [data, List.length_map, d.length_maskRows]
  masksOf parts hparts := by
    obtain ⟨rows, hrows, rfl⟩ := List.mem_map.mp hparts
    have hlength : (Dealer.column (rows.map (·.1)) i).length ≤ (rows.map (·.1)).length :=
      List.length_filterMap_le ..
    rw [List.length_map, (d.maskRow rows hrows).1] at hlength
    exact Nat.lt_of_le_of_lt hlength hmasks
  plaintexts := by rwa [data, List.length_map, (d.maskRow_getD i).1]

theorem DealtData.ofBytes_toBytes {d : DealtData m} (hd : d.Storable) :
    ofBytes m d.toBytes = .ok d :=
  ofBytes_eq_ok.mpr ⟨[], by simpa [toBytes] using Layout.dealtData_lawful d [] hd⟩

namespace Deal

variable {options : DealOptions} {entropy : Seed} {files after : FileStore}

theorem run_eq_ok (h : run options entropy files = .ok after) : 2 ≤ options.parties
    ∧ files.writeAll ((data options entropy).map fun d =>
      (pathFor options.output d.party, d.toBytes)) = .ok after := by
  unfold run at h
  split at h
  · cases h
  · rename_i hparties
    refine ⟨Nat.le_of_not_lt hparties, ?_⟩
    cases hwrite : files.writeAll ((data options entropy).map fun d =>
        (pathFor options.output d.party, d.toBytes)) with
    | error e =>
      simp only [hwrite] at h
      cases h
    | ok written =>
      simp only [hwrite] at h
      cases h
      rfl

/-- Where every path leads somewhere, a deal succeeds. -/
theorem exists_run (entropy : Seed) (hparties : 2 ≤ options.parties)
    (hfiles : ∀ path, ∃ place, files.locate path = .ok place) :
    ∃ after, run options entropy files = .ok after := by
  obtain ⟨after, hafter⟩ := FileStore.exists_writeAll hfiles
    ((data options entropy).map fun d => (pathFor options.output d.party, d.toBytes))
  exact ⟨after, by rw [run, if_neg (Nat.not_lt.mpr hparties)]; simp only [hafter]; rfl⟩

/-- The data of the parties is the columns of one table. -/
theorem exists_dealing (options : DealOptions) (entropy : Seed) (hparties : 0 < options.parties) :
    ∃ d : Dealing options.modulus options.parties options.triples options.masks,
      data options entropy = List.ofFn d.data := by
  rw [data, Dealer.generate_eq_generateFrom]
  exact Dealer.always_generateFrom _ hparties _ _ _

/-- What is known of the data of the party at an index. -/
theorem data_spec (hparties : 2 ≤ options.parties) (hsized : options.Sized) {i : Nat}
    {d : DealtData options.modulus} (h : (data options entropy)[i]? = some d) :
    d.party = i + 1 ∧ d.Storable ∧ DealtSupplier.new d = .ok ⟨d⟩ := by
  obtain ⟨table, htable⟩ := exists_dealing options entropy (Nat.zero_lt_of_lt hparties)
  rw [htable, List.getElem?_ofFn] at h
  split at h
  · cases h
    exact ⟨rfl, table.storable_data hsized.parties hsized.triples hsized.masks _,
      table.new_data hparties _⟩
  · cases h

theorem length_data (options : DealOptions) (entropy : Seed) (hparties : 0 < options.parties) :
    (data options entropy).length = options.parties := by
  obtain ⟨table, htable⟩ := exists_dealing options entropy hparties
  rw [htable, List.length_ofFn]

/-- Whoever finds the file of a party has its supplier. -/
theorem load_of_read? (hparties : 2 ≤ options.parties) (hsized : options.Sized) {i : Nat}
    {d : DealtData options.modulus} (hdata : (data options entropy)[i]? = some d) {path : String}
    (hfile : files.read? path = some d.toBytes) :
    Demo.load options.modulus files path = .ok ⟨d⟩ := by
  obtain ⟨-, hstorable, hnew⟩ := data_spec hparties hsized hdata
  rw [Demo.load, hfile, Option.map_some, DealtData.ofBytes_toBytes hstorable]
  dsimp only
  rw [hnew]
  rfl

/-- What is read at a path after a run. -/
theorem read?_run (hfiles : files.Separates) (hrun : run options entropy files = .ok after)
    (path : String) : after.read? path = (((data options entropy).map fun d =>
      (pathFor options.output d.party, d.toBytes)).reverse.lookup path).or (files.read? path) :=
  FileStore.read?_writeAll hfiles (run_eq_ok hrun).2 path

/-- With a `#` in the pattern, each party's file holds its own data. -/
theorem finds_own (hfiles : files.Separates) (hsized : options.Sized)
    (hrun : run options entropy files = .ok after) (hpattern : '#' ∈ options.output.toList)
    {i : Nat} {d : DealtData options.modulus} (hdata : (data options entropy)[i]? = some d) :
    after.read? (pathFor options.output (i + 1)) = some d.toBytes := by
  have hparties := (run_eq_ok hrun).1
  obtain ⟨hparty, -⟩ := data_spec hparties hsized hdata
  have hmem : (pathFor options.output (i + 1), d.toBytes) ∈ ((data options entropy).map fun d =>
      (pathFor options.output d.party, d.toBytes)).reverse :=
    List.mem_reverse.mpr (List.mem_map.mpr
      ⟨d, List.mem_of_getElem? hdata, by rw [hparty]⟩)
  rw [read?_run hfiles hrun, lookup_eq_some hmem, Option.some_or]
  intro contents hcontents
  obtain ⟨d', hd', heq⟩ := List.mem_map.mp (List.mem_reverse.mp hcontents)
  obtain ⟨j, hj⟩ := List.mem_iff_getElem?.mp hd'
  obtain ⟨hpath, rfl⟩ := Prod.mk.inj heq
  obtain ⟨hparty', -⟩ := data_spec hparties hsized hj
  -- Another party's data stands under another path.
  rw [hparty'] at hpath
  have hindex : j = i := Nat.succ.inj (pathFor_injective hpattern hpath)
  rw [hindex, hdata] at hj
  cases hj
  rfl

/-- Without one, the only file holds the data of the last party. -/
theorem finds_last (hfiles : files.Separates) (hrun : run options entropy files = .ok after)
    (hpattern : '#' ∉ options.output.toList) {d : DealtData options.modulus}
    (hdata : (data options entropy).getLast? = some d) (party : Nat) :
    after.read? (pathFor options.output party) = some d.toBytes := by
  obtain ⟨others, hothers⟩ := List.getLast?_eq_some_iff.mp hdata
  rw [read?_run hfiles hrun, hothers, List.map_append, List.reverse_append,
    pathFor_of_notMem hpattern]
  simp only [List.map_singleton, List.reverse_singleton, List.singleton_append,
    pathFor_of_notMem hpattern, List.lookup_cons_self, Option.some_or]

/-- After a run over a store that keeps paths apart, each of the parties loads what was dealt to
it, at the path that the pattern names for it, as long as there is a `#` in the pattern: no file is
written over another. Without one, the path of every party is the pattern itself, and everybody
loads what was dealt to the last party. Files at all other paths are as they were. -/
theorem load_after_run (hfiles : files.Separates) (hsized : options.Sized)
    (hrun : run options entropy files = .ok after) :
    (data options entropy).length = options.parties
    ∧ ('#' ∈ options.output.toList →
      (∀ a b, pathFor options.output a = pathFor options.output b → a = b)
      ∧ ∀ i < options.parties, ∃ d, (data options entropy)[i]? = some d
        ∧ after.read? (pathFor options.output (i + 1)) = some d.toBytes
        ∧ Demo.load options.modulus after (pathFor options.output (i + 1)) = .ok ⟨d⟩)
    ∧ ('#' ∉ options.output.toList →
      (∀ a, pathFor options.output a = options.output)
      ∧ ∃ d, (data options entropy).getLast? = some d
        ∧ Demo.load options.modulus after options.output = .ok ⟨d⟩)
    ∧ ∀ path, (∀ i < options.parties, path ≠ pathFor options.output (i + 1)) →
      after.read? path = files.read? path := by
  have hparties := (run_eq_ok hrun).1
  have hlength := length_data options entropy (Nat.zero_lt_of_lt hparties)
  refine ⟨hlength, fun hpattern => ⟨fun a b => pathFor_injective hpattern, fun i hi => ?_⟩,
    fun hpattern => ⟨pathFor_of_notMem hpattern, ?_⟩, fun path hpath => ?_⟩
  · obtain ⟨d, hd⟩ : ∃ d, (data options entropy)[i]? = some d :=
      ⟨_, List.getElem?_eq_getElem (hlength ▸ hi)⟩
    have hread := finds_own hfiles hsized hrun hpattern hd
    exact ⟨d, hd, hread, load_of_read? hparties hsized hd hread⟩
  · have hnonempty : data options entropy ≠ [] := by
      rw [← List.length_pos_iff]
      omega
    have hlast := List.getLast?_eq_some_getLast hnonempty
    have hread := finds_last hfiles hrun hpattern hlast 0
    rw [pathFor_of_notMem hpattern] at hread
    rw [List.getLast?_eq_getElem?] at hlast
    exact ⟨_, hlast ▸ List.getLast?_eq_getElem? .., load_of_read? hparties hsized hlast hread⟩
  · rw [read?_run hfiles hrun, List.lookup_eq_none_iff.mpr, Option.none_or]
    intro output houtput
    obtain ⟨d, hd, rfl⟩ := List.mem_map.mp (List.mem_reverse.mp houtput)
    obtain ⟨i, hi⟩ := List.mem_iff_getElem?.mp hd
    obtain ⟨hparty, -⟩ := data_spec hparties hsized hi
    rw [hparty]
    exact bne_iff_ne.mpr (hpath i (hlength ▸ (List.getElem?_eq_some_iff.mp hi).1))

/-- A deal to so many parties that their ids differ in length, with two places for an id in each
path. -/
def manyFiles : DealOptions := ⟨12, "share-#/#.bin", .mersenne61, 3, 2, some 7⟩

/-- A store that holds an older file of the second party takes the deal: the party loads its new
data, the last one loads its own, and a file of nobody stays. -/
theorem load_after_run_manyFiles :
    let files : FileStore := { entries := [("share-2/2.bin", [1]), ("share-1/2.bin", [2])] }
    files.Separates ∧ manyFiles.Sized ∧ '#' ∈ manyFiles.output.toList
      ∧ ∃ after, run manyFiles (Vector.replicate 32 0) files = .ok after
        ∧ (∃ d, (data manyFiles (Vector.replicate 32 0))[1]? = some d
          ∧ Demo.load .mersenne61 after (pathFor "share-#/#.bin" 2) = .ok ⟨d⟩)
        ∧ (∃ d, (data manyFiles (Vector.replicate 32 0))[11]? = some d
          ∧ Demo.load .mersenne61 after (pathFor "share-#/#.bin" 12) = .ok ⟨d⟩)
        ∧ after.read? "share-1/2.bin" = some [2] := by
  intro files
  have hfiles : files.Separates := FileStore.separates_default _
  have hsized : manyFiles.Sized := ⟨by decide, by decide, by decide⟩
  have hpattern : '#' ∈ manyFiles.output.toList := by decide
  have hparties : 2 ≤ manyFiles.parties := by decide
  obtain ⟨after, hrun⟩ := exists_run (Vector.replicate 32 0) hparties
    (fun path => ⟨path, rfl⟩ : ∀ path, ∃ place, files.locate path = .ok place)
  obtain ⟨-, hown, -, hothers⟩ := load_after_run hfiles hsized hrun
  obtain ⟨second, hsecond, -, hloaded⟩ := (hown hpattern).2 1 (by decide)
  obtain ⟨last, hlast, -, hloaded'⟩ := (hown hpattern).2 11 (by decide)
  exact ⟨hfiles, hsized, hpattern, after, hrun, ⟨second, hsecond, hloaded⟩,
    ⟨last, hlast, hloaded'⟩, hothers "share-1/2.bin" (by decide +kernel)⟩

/-- A deal of keys only, to two parties and a single path. -/
def oneFile : DealOptions := ⟨2, "same", .mersenne61, 0, 0, some 7⟩

/-- The first party does not get its data from there. -/
theorem overwritten_oneFile : ∃ after, run oneFile (Vector.replicate 32 0) {} = .ok after
    ∧ ¬ ∃ d, (data oneFile (Vector.replicate 32 0))[0]? = some d
      ∧ Demo.load .mersenne61 after (pathFor "same" 1) = .ok ⟨d⟩ := by
  have hsized : oneFile.Sized := ⟨by decide, by decide, by decide⟩
  have hparties : 2 ≤ oneFile.parties := by decide
  obtain ⟨after, hrun⟩ := exists_run (Vector.replicate 32 0) hparties
    (fun path => ⟨path, rfl⟩ : ∀ path, ∃ place, ({} : FileStore).locate path = .ok place)
  have hlength := length_data oneFile (Vector.replicate 32 0) (by decide)
  obtain ⟨last, hlast⟩ : ∃ d, (data oneFile (Vector.replicate 32 0))[1]? = some d :=
    ⟨_, List.getElem?_eq_getElem (by rw [hlength]; decide)⟩
  have hread := finds_last (FileStore.separates_default []) hrun (by decide) (d := last)
    (by rw [List.getLast?_eq_getElem?, hlength]; exact hlast) 1
  have hloaded := load_of_read? hparties hsized hlast hread
  refine ⟨after, hrun, ?_⟩
  rintro ⟨first, hfirst, hown⟩
  -- What is loaded is known by its id, which is that of the last party.
  obtain ⟨hfirstParty, -⟩ := data_spec hparties hsized hfirst
  obtain ⟨hlastParty, -⟩ := data_spec hparties hsized hlast
  have heq : (Except.ok ⟨last⟩ : Except Fault (DealtSupplier .mersenne61)) = .ok ⟨first⟩ :=
    hloaded.symm.trans hown
  cases heq
  rw [hfirstParty] at hlastParty
  cases hlastParty

end Deal

end JointCircuit
