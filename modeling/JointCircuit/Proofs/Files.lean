/-
JointCircuit.Proofs.Files — a file of dealt data stands for that data only.

The layouts give back what was written, whatever follows it
(`Layout.Lawful`). Here is the other direction: what a reader takes off a
byte string is exactly what would be written for the value it returns
(`Layout.Canonical`, §1). A file is a row of figures, one after another:
ids, counts and elements (`DealtData.figures`, §2). Wherever a reader
stands in a file, bytes that cannot be the next figure fail the whole
reading (`Layout.Spelled`): too few of them, a count of more members than
there are bytes for, a number that is not below the modulus.

Main statement: `DealtData.file_exact`.
-/
import JointCircuit.Command.Demo
import JointCircuit.Proofs.Steps

namespace JointCircuit

variable {m : Modulus}

/-! ## §1 Nothing else is read -/

namespace Layout

variable {α β : Type}

theorem decode_natural (bytes : Bytes) :
    natural.decode bytes = takeBytes 8 bytes >>= fun p => .ok (Bytes.ofLittle p.1, p.2) := rfl

theorem decode_element (bytes : Bytes) :
    (element m).decode bytes = takeBytes m.byteLength bytes >>= fun p =>
      if h : Bytes.ofLittle p.1 < m.size then .ok (⟨Bytes.ofLittle p.1, h⟩, p.2)
      else .error .invalidElement := rfl

theorem decode_pair (first : Layout α) (second : Layout β) (bytes : Bytes) :
    (first.pair second).decode bytes = first.decode bytes >>= fun p =>
      second.decode p.2 >>= fun q => .ok ((p.1, q.1), q.2) := rfl

theorem decode_via (layout : Layout β) (into : α → β) (back : β → α) (bytes : Bytes) :
    (layout.via into back).decode bytes = layout.decode bytes >>= fun p => .ok (back p.1, p.2) :=
  rfl

theorem decodeMany_succ (layout : Layout α) (count : Nat) (bytes : Bytes) :
    layout.decodeMany (count + 1) bytes = layout.decode bytes >>= fun p =>
      layout.decodeMany count p.2 >>= fun q => .ok (p.1 :: q.1, q.2) := rfl

theorem decode_list (layout : Layout α) (bytes : Bytes) :
    layout.list.decode bytes = natural.decode bytes >>= fun p => layout.decodeMany p.1 p.2 := rfl

/-- What is taken off a byte string is what would be written for the value. -/
def Canonical (layout : Layout α) (valid : α → Prop) : Prop :=
  ∀ bytes x rest, layout.decode bytes = .ok (x, rest) →
    valid x ∧ bytes = layout.encode x ++ rest

theorem takeBytes_eq_ok {width : Nat} {bytes field rest : Bytes}
    (h : takeBytes width bytes = .ok (field, rest)) :
    field.length = width ∧ bytes = field ++ rest := by
  unfold takeBytes at h
  split at h
  · rename_i hwidth
    cases h
    exact ⟨List.length_take_of_le hwidth, (List.take_append_drop width bytes).symm⟩
  · cases h

theorem natural_canonical : natural.Canonical (· < Bytes.capacity 8) := by
  intro bytes n rest h
  rw [decode_natural] at h
  obtain ⟨⟨field, left⟩, htake, h⟩ := except_bind_eq_ok.mp h
  cases h
  obtain ⟨hlength, rfl⟩ := takeBytes_eq_ok htake
  have hfield : Bytes.little 8 (Bytes.ofLittle field) = field :=
    hlength ▸ Bytes.little_ofLittle field
  exact ⟨hlength ▸ Bytes.ofLittle_lt field, congrArg (· ++ left) hfield.symm⟩

theorem element_canonical : (element m).Canonical (fun _ => True) := by
  intro bytes x rest h
  rw [decode_element] at h
  obtain ⟨⟨field, left⟩, htake, h⟩ := except_bind_eq_ok.mp h
  dsimp only at h
  split at h
  · cases h
    obtain ⟨hlength, rfl⟩ := takeBytes_eq_ok htake
    have hfield : Bytes.little m.byteLength (Bytes.ofLittle field) = field :=
      hlength ▸ Bytes.little_ofLittle field
    exact ⟨trivial, congrArg (· ++ rest) hfield.symm⟩
  · cases h

theorem Canonical.pair {first : Layout α} {second : Layout β} {validA : α → Prop}
    {validB : β → Prop} (ha : first.Canonical validA) (hb : second.Canonical validB) :
    (first.pair second).Canonical (fun p => validA p.1 ∧ validB p.2) := by
  intro bytes p rest h
  rw [decode_pair] at h
  obtain ⟨⟨a, middle⟩, hfirst, h⟩ := except_bind_eq_ok.mp h
  obtain ⟨⟨b, left⟩, hsecond, h⟩ := except_bind_eq_ok.mp h
  cases h
  obtain ⟨hva, rfl⟩ := ha _ _ _ hfirst
  obtain ⟨hvb, rfl⟩ := hb _ _ _ hsecond
  exact ⟨⟨hva, hvb⟩, (List.append_assoc _ _ _).symm⟩

theorem Canonical.via {layout : Layout β} {valid : β → Prop} {into : α → β} {back : β → α}
    (h : layout.Canonical valid) (hinto : ∀ b, into (back b) = b) :
    (layout.via into back).Canonical (fun a => valid (into a)) := by
  intro bytes a rest hdecode
  rw [decode_via] at hdecode
  obtain ⟨⟨b, left⟩, hread, hdecode⟩ := except_bind_eq_ok.mp hdecode
  cases hdecode
  obtain ⟨hv, rfl⟩ := h _ _ _ hread
  dsimp only [Layout.via]
  rw [hinto]
  exact ⟨hv, rfl⟩

theorem Canonical.decodeMany {layout : Layout α} {valid : α → Prop} (h : layout.Canonical valid)
    {count : Nat} {bytes : Bytes} {xs : List α} {rest : Bytes}
    (hdecode : layout.decodeMany count bytes = .ok (xs, rest)) :
    xs.length = count ∧ (∀ x ∈ xs, valid x) ∧ bytes = xs.flatMap layout.encode ++ rest := by
  induction count generalizing bytes xs with
  | zero =>
    cases hdecode
    exact ⟨rfl, nofun, rfl⟩
  | succ count ih =>
    rw [decodeMany_succ] at hdecode
    obtain ⟨⟨x, middle⟩, hfirst, hdecode⟩ := except_bind_eq_ok.mp hdecode
    obtain ⟨⟨ys, left⟩, hothers, hdecode⟩ := except_bind_eq_ok.mp hdecode
    cases hdecode
    obtain ⟨hx, rfl⟩ := h _ _ _ hfirst
    obtain ⟨hlength, hys, rfl⟩ := ih hothers
    refine ⟨by rw [List.length_cons, hlength], List.forall_mem_cons.mpr ⟨hx, hys⟩, ?_⟩
    rw [List.flatMap_cons, List.append_assoc]

theorem Canonical.list {layout : Layout α} {valid : α → Prop} (h : layout.Canonical valid) :
    layout.list.Canonical (fun xs => xs.length < Bytes.capacity 8 ∧ ∀ x ∈ xs, valid x) := by
  intro bytes xs rest hdecode
  rw [decode_list] at hdecode
  obtain ⟨⟨count, middle⟩, hcount, hdecode⟩ := except_bind_eq_ok.mp hdecode
  dsimp only at hdecode
  obtain ⟨hfits, hbytes⟩ := natural_canonical _ _ _ hcount
  obtain ⟨hlength, hxs, hmiddle⟩ := h.decodeMany hdecode
  refine ⟨⟨hlength ▸ hfits, hxs⟩, ?_⟩
  rw [hbytes, hmiddle, ← hlength, ← List.append_assoc]
  rfl

/-- Nothing can be read from a part of what was written: it would be read from the whole as well. -/
theorem Lawful.truncated {layout : Layout α} {valid : α → Prop} (h : layout.Lawful valid)
    (hcanonical : layout.Canonical valid) {x : α} (hx : valid x) {k : Nat}
    (hk : k < (layout.encode x).length) :
    ∃ e, layout.decode ((layout.encode x).take k) = .error e := by
  cases hdecode : layout.decode ((layout.encode x).take k) with
  | error e => exact ⟨e, rfl⟩
  | ok result =>
    obtain ⟨y, rest⟩ := result
    obtain ⟨hy, hbytes⟩ := hcanonical _ _ _ hdecode
    -- The part is all that would be written for `y`, so the whole would be read as `y` as well,
    -- with the missing bytes left over; but read as `x` it leaves nothing.
    have hwhole : layout.encode x = layout.encode y ++ (rest ++ (layout.encode x).drop k) := by
      rw [← List.append_assoc, ← hbytes, List.take_append_drop]
    have hread := h x [] hx
    rw [List.append_nil, hwhole, h y _ hy] at hread
    obtain ⟨-, hrest⟩ := Prod.mk.inj (Except.ok.inj hread)
    have hdrop := (List.append_eq_nil_iff.mp hrest).2
    rw [List.drop_eq_nil_iff] at hdrop
    omega

end Layout

/-! ## §2 Figures -/

/-- A number in a file. A count comes with the least number of bytes that a counted member takes. -/
inductive Figure (m : Modulus) where
  | number (n : Nat)
  | count (n least : Nat)
  | element (x : Element m)

namespace Figure

/-- Numbers and counts take eight bytes and elements the width of the modulus, least significant
byte first. -/
def bytes : Figure m → Bytes
  | .number n => Bytes.little 8 n
  | .count n _ => Bytes.little 8 n
  | .element x => Bytes.little m.byteLength x.val

/-- Figures, one after another. -/
def write (figures : List (Figure m)) : Bytes :=
  figures.flatMap bytes

/-- Bytes with which nobody can go on who expects such a figure: they are too few, they count more
members than there are bytes for, or they are a number that is not below the modulus. -/
def Refuses : Figure m → Bytes → Prop
  | .number _, bytes => bytes.length < 8
  | .count _ least, bytes => bytes.length < 8 + Bytes.ofLittle (bytes.take 8) * least
  | .element _, bytes =>
    bytes.length < m.byteLength ∨ m.size ≤ Bytes.ofLittle (bytes.take m.byteLength)

/-- The figures of a list: its length, and those of its members. -/
def ofList {α : Type} (least : Nat) (figures : α → List (Figure m)) (xs : List α) :
    List (Figure m) :=
  .count xs.length least :: xs.flatMap figures

theorem write_append (xs ys : List (Figure m)) : write (xs ++ ys) = write xs ++ write ys :=
  List.flatMap_append

theorem write_cons (f : Figure m) (xs : List (Figure m)) : write (f :: xs) = f.bytes ++ write xs :=
  List.flatMap_cons

end Figure

/-- The figures of a share. -/
def AuthShare.figures (s : AuthShare m) : List (Figure m) :=
  [.element s.share, .element s.mac]

/-- The figures of a triple. -/
def Triple.figures (t : Triple m) : List (Figure m) :=
  t.a.figures ++ (t.b.figures ++ t.c.figures)

/-- The figures of dealt data: two ids, the key share and three lists, of which the second is one
of lists. -/
def DealtData.figures (d : DealtData m) : List (Figure m) :=
  .number d.parties :: .number d.party :: .element d.keyShare
    :: (Figure.ofList (6 * m.byteLength) Triple.figures d.triples
      ++ (Figure.ofList 8 (Figure.ofList (2 * m.byteLength) AuthShare.figures) d.masks
        ++ Figure.ofList m.byteLength (fun x => [.element x]) d.plaintexts))

/-- What fails first fails the whole. -/
theorem except_bind_fails {ε α β : Type} {x : Except ε α} {f : α → Except ε β}
    (h : ∃ e, x = .error e) : ∃ e, x >>= f = .error e := by
  obtain ⟨e, rfl⟩ := h
  exact ⟨e, rfl⟩

/-- What fails after a success fails the whole. -/
theorem except_bind_fails_after {ε α β : Type} {x : Except ε α} {f : α → Except ε β} {a : α}
    (hx : x = .ok a) (h : ∃ e, f a = .error e) : ∃ e, x >>= f = .error e := by
  rw [hx]
  exact h

/-- An item of two lists in a row stands in the first or in the second. -/
theorem split_append {α : Type} {xs ys before after : List α} {f : α}
    (h : xs ++ ys = before ++ f :: after) :
    (∃ middle, xs = before ++ f :: middle)
      ∨ ∃ middle, before = xs ++ middle ∧ ys = middle ++ f :: after := by
  rcases List.append_eq_append_iff.mp h with ⟨middle, hbefore, hys⟩ | ⟨middle, hxs, hafter⟩
  · exact .inr ⟨middle, hbefore, hys⟩
  · cases middle with
    | nil => exact .inr ⟨[], by simpa using hxs.symm, hafter.symm⟩
    | cons g middle =>
      obtain ⟨rfl, -⟩ := List.cons.inj hafter
      exact .inl ⟨middle, hxs⟩

namespace Layout

variable {α β : Type} {layout : Layout α} {valid : α → Prop} {figures : α → List (Figure m)}

/-- The layout writes these figures, and the whole reading fails wherever the next of them is
refused. -/
structure Spelled (layout : Layout α) (valid : α → Prop) (figures : α → List (Figure m)) :
    Prop where
  written : ∀ x, layout.encode x = Figure.write (figures x)
  refuses : ∀ x, valid x → ∀ before f after, figures x = before ++ f :: after →
    ∀ bytes, f.Refuses bytes → ∃ e, layout.decode (Figure.write before ++ bytes) = .error e

theorem exists_error {bytes : Bytes} (h : ∀ x rest, layout.decode bytes ≠ .ok (x, rest)) :
    ∃ e, layout.decode bytes = .error e := by
  cases hdecode : layout.decode bytes with
  | error e => exact ⟨e, rfl⟩
  | ok p => exact absurd hdecode (h p.1 p.2)

theorem eq_of_singleton {f g : Figure m} {before after : List (Figure m)}
    (h : [g] = before ++ f :: after) : before = [] ∧ f = g := by
  rcases List.append_eq_singleton_iff.mp h.symm with ⟨hbefore, hf⟩ | ⟨-, hf⟩
  · exact ⟨hbefore, (List.cons.inj hf).1⟩
  · cases hf

theorem natural_spelled :
    natural.Spelled (· < Bytes.capacity 8) (fun n => [(.number n : Figure m)]) where
  written n := (List.append_nil _).symm
  refuses n _ before f after h bytes hrefuses := by
    obtain ⟨rfl, rfl⟩ := eq_of_singleton h
    refine exists_error fun n' rest hdecode => ?_
    obtain ⟨-, rfl⟩ := natural_canonical _ _ _ hdecode
    simp only [Figure.Refuses, natural, List.length_append, Bytes.length_little] at hrefuses
    omega

theorem element_spelled : (element m).Spelled (fun _ => True) (fun x => [.element x]) where
  written x := (List.append_nil _).symm
  refuses x _ before f after h bytes hrefuses := by
    obtain ⟨rfl, rfl⟩ := eq_of_singleton h
    refine exists_error fun y rest hdecode => ?_
    obtain ⟨-, rfl⟩ := element_canonical _ _ _ hdecode
    simp only [Figure.Refuses, element, List.length_append, Bytes.length_little,
      List.take_left' (Bytes.length_little _ _), Bytes.ofLittle_little (Element.val_lt_capacity y)]
      at hrefuses
    have := y.isLt
    omega

/-- The reading of a pair fails with that of its first value, or with that of its second one after
what was written for the first. -/
theorem Spelled.pair {first : Layout α} {second : Layout β} {validA : α → Prop}
    {validB : β → Prop} {figuresA : α → List (Figure m)} {figuresB : β → List (Figure m)}
    (ha : first.Spelled validA figuresA) (hlawful : first.Lawful validA)
    (hb : second.Spelled validB figuresB) :
    (first.pair second).Spelled (fun p => validA p.1 ∧ validB p.2)
      (fun p => figuresA p.1 ++ figuresB p.2) where
  written p := by
    rw [Figure.write_append, ← ha.written, ← hb.written]
    rfl
  refuses p hp before f after h bytes hrefuses := by
    rw [decode_pair]
    rcases split_append h with ⟨middle, hfirst⟩ | ⟨middle, rfl, hsecond⟩
    · exact except_bind_fails (ha.refuses p.1 hp.1 before f middle hfirst bytes hrefuses)
    · rw [Figure.write_append, ← ha.written, List.append_assoc]
      exact except_bind_fails_after (hlawful p.1 _ hp.1)
        (except_bind_fails (hb.refuses p.2 hp.2 middle f after hsecond bytes hrefuses))

theorem Spelled.via {layout : Layout β} {valid : β → Prop} {figures : β → List (Figure m)}
    (h : layout.Spelled valid figures) (into : α → β) (back : β → α) :
    (layout.via into back).Spelled (fun a => valid (into a)) (fun a => figures (into a)) where
  written a := h.written (into a)
  refuses a ha before f after hfigures bytes hrefuses := by
    rw [decode_via]
    exact except_bind_fails (h.refuses (into a) ha before f after hfigures bytes hrefuses)

/-- The reading of members in a row fails with that of the first one that cannot be read. -/
theorem Spelled.decodeMany (h : layout.Spelled valid figures) (hlawful : layout.Lawful valid)
    {xs : List α} (hxs : ∀ x ∈ xs, valid x) {before after : List (Figure m)} {f : Figure m}
    (hfigures : xs.flatMap figures = before ++ f :: after) {bytes : Bytes}
    (hrefuses : f.Refuses bytes) :
    ∃ e, layout.decodeMany xs.length (Figure.write before ++ bytes) = .error e := by
  induction xs generalizing before with
  | nil => exact absurd hfigures.symm (by simp)
  | cons x xs ih =>
    obtain ⟨hx, hxs⟩ := List.forall_mem_cons.mp hxs
    rw [List.length_cons, decodeMany_succ]
    rw [List.flatMap_cons] at hfigures
    rcases split_append hfigures with ⟨middle, hfirst⟩ | ⟨middle, rfl, hothers⟩
    · exact except_bind_fails (h.refuses x hx before f middle hfirst bytes hrefuses)
    · rw [Figure.write_append, ← h.written, List.append_assoc]
      exact except_bind_fails_after (hlawful x _ hx) (except_bind_fails (ih hxs hothers))

theorem length_flatMap_le {least : Nat} (hleast : ∀ x, least ≤ (layout.encode x).length)
    (xs : List α) : xs.length * least ≤ (xs.flatMap layout.encode).length := by
  induction xs with
  | nil => simp
  | cons x xs ih =>
    have := hleast x
    rw [List.flatMap_cons, List.length_append, List.length_cons, Nat.succ_mul]
    omega

/-- The reading of a list fails at its count or with that of its members. -/
theorem Spelled.list (h : layout.Spelled valid figures) (hlawful : layout.Lawful valid)
    (hcanonical : layout.Canonical valid) {least : Nat}
    (hleast : ∀ x, least ≤ (layout.encode x).length) :
    layout.list.Spelled (fun xs => xs.length < Bytes.capacity 8 ∧ ∀ x ∈ xs, valid x)
      (Figure.ofList least figures) where
  written xs := by
    have hmembers : xs.flatMap layout.encode = Figure.write (xs.flatMap figures) := by
      rw [Figure.write, List.flatMap_assoc]
      exact congrArg (xs.flatMap ·) (funext h.written)
    rw [Figure.ofList, Figure.write_cons, ← hmembers]
    rfl
  refuses xs hxs before f after hfigures bytes hrefuses := by
    cases before with
    | nil =>
      -- Whatever list could be read here would take up more bytes than there are.
      obtain ⟨rfl, -⟩ := List.cons.inj hfigures
      refine exists_error fun ys rest hdecode => ?_
      obtain ⟨⟨hfits, -⟩, hbytes⟩ := hcanonical.list _ _ _ hdecode
      have hbytes : bytes = Bytes.little 8 ys.length ++ (ys.flatMap layout.encode ++ rest) :=
        hbytes.trans (List.append_assoc _ _ _)
      have hmembers := length_flatMap_le hleast ys
      simp only [Figure.Refuses, hbytes, List.length_append, Bytes.length_little,
        List.take_left' (Bytes.length_little _ _), Bytes.ofLittle_little hfits] at hrefuses
      omega
    | cons g before =>
      obtain ⟨rfl, hmembers⟩ := List.cons.inj hfigures
      rw [Figure.write_cons, List.append_assoc, decode_list]
      exact except_bind_fails_after (natural_lawful xs.length _ hxs.1)
        (h.decodeMany hlawful hxs.2 hmembers hrefuses)

/-! ## §3 Shares, triples and dealt data -/

theorem Lawful.imp {valid' : α → Prop} (h : layout.Lawful valid) (himp : ∀ x, valid' x → valid x) :
    layout.Lawful valid' :=
  fun x rest hx => h x rest (himp x hx)

theorem Canonical.imp {valid' : α → Prop} (h : layout.Canonical valid)
    (himp : ∀ x, valid x → valid' x) : layout.Canonical valid' :=
  fun bytes x rest hdecode => (h bytes x rest hdecode).imp_left (himp x)

theorem Spelled.imp {valid' : α → Prop} (h : layout.Spelled valid figures)
    (himp : ∀ x, valid' x → valid x) : layout.Spelled valid' figures :=
  ⟨h.written, fun x hx => h.refuses x (himp x hx)⟩

theorem share_lawful : (share m).Lawful (fun _ => True) :=
  ((element_lawful.pair element_lawful).via fun _ => rfl).imp fun _ _ => ⟨trivial, trivial⟩

theorem share_canonical : (share m).Canonical (fun _ => True) :=
  ((element_canonical.pair element_canonical).via fun _ => rfl).imp fun _ _ => trivial

theorem share_spelled : (share m).Spelled (fun _ => True) AuthShare.figures :=
  ((element_spelled.pair element_lawful element_spelled).via _ _).imp fun _ _ => ⟨trivial, trivial⟩

theorem triple_lawful : (triple m).Lawful (fun _ => True) :=
  ((share_lawful.pair (share_lawful.pair share_lawful)).via fun _ => rfl).imp
    fun _ _ => ⟨trivial, trivial, trivial⟩

theorem triple_canonical : (triple m).Canonical (fun _ => True) :=
  ((share_canonical.pair (share_canonical.pair share_canonical)).via fun _ => rfl).imp
    fun _ _ => trivial

theorem triple_spelled : (triple m).Spelled (fun _ => True) Triple.figures :=
  ((share_spelled.pair share_lawful (share_spelled.pair share_lawful share_spelled)).via _ _).imp
    fun _ _ => ⟨trivial, trivial, trivial⟩

theorem length_encode_share (s : AuthShare m) :
    ((share m).encode s).length = 2 * m.byteLength := by
  simp [share, via, pair, element]
  omega

theorem length_encode_triple (t : Triple m) :
    ((triple m).encode t).length = 6 * m.byteLength := by
  simp [triple, share, via, pair, element]
  omega

theorem length_encode_list (xs : List α) : 8 ≤ (layout.list.encode xs).length := by
  simp [Layout.list, natural]

end Layout

/-- Ids and lengths that a file has room for. -/
structure DealtData.Storable (d : DealtData m) : Prop where
  parties : d.parties < Bytes.capacity 8
  party : d.party < Bytes.capacity 8
  triples : d.triples.length < Bytes.capacity 8
  masks : d.masks.length < Bytes.capacity 8
  masksOf : ∀ masks ∈ d.masks, masks.length < Bytes.capacity 8
  plaintexts : d.plaintexts.length < Bytes.capacity 8

namespace Layout

theorem dealtData_lawful : (dealtData m).Lawful DealtData.Storable :=
  ((natural_lawful.pair (natural_lawful.pair (element_lawful.pair (triple_lawful.list.pair
    (share_lawful.list.list.pair element_lawful.list))))).via fun _ => rfl).imp fun _ h =>
      ⟨h.parties, h.party, trivial, ⟨h.triples, fun _ _ => trivial⟩,
        ⟨h.masks, fun masks hmasks => ⟨h.masksOf masks hmasks, fun _ _ => trivial⟩⟩,
        h.plaintexts, fun _ _ => trivial⟩

theorem dealtData_canonical : (dealtData m).Canonical DealtData.Storable :=
  ((natural_canonical.pair (natural_canonical.pair (element_canonical.pair
    (triple_canonical.list.pair (share_canonical.list.list.pair
      element_canonical.list))))).via fun _ => rfl).imp
    fun _ ⟨hparties, hparty, _, ⟨htriples, _⟩, ⟨hmasks, hmasksOf⟩, hplaintexts, _⟩ =>
      ⟨hparties, hparty, htriples, hmasks, fun masks hmem => (hmasksOf masks hmem).1, hplaintexts⟩

theorem dealtData_spelled : (dealtData m).Spelled DealtData.Storable DealtData.figures :=
  have htriples := triple_spelled.list triple_lawful triple_canonical
    fun t => Nat.le_of_eq (length_encode_triple t).symm
  have hmasks := (share_spelled.list share_lawful share_canonical
    fun s => Nat.le_of_eq (length_encode_share s).symm).list share_lawful.list
      share_canonical.list length_encode_list
  have hplaintexts := element_spelled.list element_lawful element_canonical
    fun x : Element m => Nat.le_of_eq (Bytes.length_little m.byteLength x.val).symm
  ((natural_spelled.pair natural_lawful (natural_spelled.pair natural_lawful
    (element_spelled.pair element_lawful (htriples.pair triple_lawful.list
      (hmasks.pair share_lawful.list.list hplaintexts))))).via _ _).imp fun _ h =>
      ⟨h.parties, h.party, trivial, ⟨h.triples, fun _ _ => trivial⟩,
        ⟨h.masks, fun masks hmasks => ⟨h.masksOf masks hmasks, fun _ _ => trivial⟩⟩,
        h.plaintexts, fun _ _ => trivial⟩

end Layout

namespace DealtData

/-- Data is read from a byte string exactly if it is read from the front of it. -/
theorem ofBytes_eq_ok {bytes : Bytes} {d : DealtData m} :
    ofBytes m bytes = .ok d ↔ ∃ rest, (Layout.dealtData m).decode bytes = .ok (d, rest) := by
  rw [ofBytes]
  cases (Layout.dealtData m).decode bytes with
  | error e => exact ⟨nofun, nofun⟩
  | ok p =>
    constructor
    · rintro ⟨⟩
      exact ⟨p.2, rfl⟩
    · rintro ⟨rest, ⟨⟩⟩
      rfl

theorem ofBytes_fails {bytes : Bytes} (h : ∃ e, (Layout.dealtData m).decode bytes = .error e) :
    ∃ e, ofBytes m bytes = .error e := by
  obtain ⟨e, he⟩ := h
  exact ⟨e, by rw [ofBytes, he]; rfl⟩

/-- A file of dealt data is the row of its figures, and stands for that data only. Data of any
shape is read back from it, whatever follows, and a party that loads the file has the supplier of
that data; no proper beginning of it can be read, and neither can a file that goes on, after any
number of its figures, with bytes that cannot be the next one. Conversely, every byte string from
which data is read begins with the file of that data. -/
theorem file_exact (m : Modulus) :
    (∀ d : DealtData m, d.toBytes = Figure.write d.figures)
    ∧ (∀ d : DealtData m, d.Storable →
      (∀ rest, ofBytes m (d.toBytes ++ rest) = .ok d)
      ∧ (∀ (files : FileStore) path rest, files.read? path = some (d.toBytes ++ rest) →
        Demo.load m files path = (DealtSupplier.new d).mapError .config)
      ∧ (∀ k < d.toBytes.length, ∃ e, ofBytes m (d.toBytes.take k) = .error e)
      ∧ ∀ before f after, d.figures = before ++ f :: after → ∀ bytes, f.Refuses bytes →
        ∃ e, ofBytes m (Figure.write before ++ bytes) = .error e)
    ∧ ∀ bytes (d : DealtData m), ofBytes m bytes = .ok d → d.Storable ∧ d.toBytes <+: bytes := by
  refine ⟨Layout.dealtData_spelled.written, fun d hd => ?_, fun bytes d h => ?_⟩
  · have hround : ∀ rest, ofBytes m (d.toBytes ++ rest) = .ok d := fun rest =>
      ofBytes_eq_ok.mpr ⟨rest, Layout.dealtData_lawful d rest hd⟩
    refine ⟨hround, fun files path rest hfile => ?_, fun k hk => ?_, ?_⟩
    · rw [Demo.load, hfile, Option.map_some, hround]
    · exact ofBytes_fails (Layout.dealtData_lawful.truncated Layout.dealtData_canonical hd hk)
    · intro before f after hfigures bytes hrefuses
      exact ofBytes_fails
        (Layout.dealtData_spelled.refuses d hd before f after hfigures bytes hrefuses)
  · obtain ⟨rest, hdecode⟩ := ofBytes_eq_ok.mp h
    obtain ⟨hd, hbytes⟩ := Layout.dealtData_canonical _ _ _ hdecode
    exact ⟨hd, rest, hbytes.symm⟩

/-- Data that no party could use, as its own id is 0 and the numbers of masks and plaintexts agree
with nothing. -/
def raggedPile : DealtData .mersenne127 where
  parties := 7
  party := 0
  keyShare := 5
  triples := [⟨⟨1, 2⟩, ⟨3, 4⟩, ⟨5, 6⟩⟩]
  masks := [[], [⟨21, 22⟩, ⟨23, 24⟩]]
  plaintexts := [41]

/-- Such data is stored and read back like any other, and it is up to the supplier to turn it down;
a file that ends early, one with the modulus for a key share and one that counts more triples than
it holds are not read at all. -/
theorem file_exact_raggedPile : raggedPile.Storable
    ∧ ofBytes .mersenne127 (raggedPile.toBytes ++ [1, 2, 3]) = .ok raggedPile
    ∧ Demo.load .mersenne127 ⟨.ok, [("pile", raggedPile.toBytes ++ [1])]⟩ "pile"
      = (DealtSupplier.new raggedPile).mapError .config
    ∧ (∃ e, ofBytes .mersenne127 (raggedPile.toBytes.take 100) = .error e)
    ∧ (∃ e, ofBytes .mersenne127 (Figure.write (raggedPile.figures.take 2)
      ++ Bytes.little 16 Modulus.mersenne127.size) = .error e)
    ∧ (∃ e, ofBytes .mersenne127 (Figure.write (raggedPile.figures.take 3)
      ++ Bytes.little 8 (Bytes.capacity 8 - 1)) = .error e)
    ∧ raggedPile.toBytes <+: raggedPile.toBytes ++ [1, 2, 3] := by
  have hmasksOf : ∀ masks ∈ raggedPile.masks, masks.length < Bytes.capacity 8 :=
    List.forall_mem_cons.mpr ⟨by decide, List.forall_mem_singleton.mpr (by decide)⟩
  have hstorable : raggedPile.Storable :=
    ⟨by decide, by decide, by decide, by decide, hmasksOf, by decide⟩
  obtain ⟨-, hstored, hread⟩ := file_exact .mersenne127
  obtain ⟨hround, hload, htruncated, hrefused⟩ := hstored raggedPile hstorable
  refine ⟨hstorable, hround _, hload _ _ [1] rfl, htruncated 100 (by decide +kernel), ?_, ?_,
    (hread _ _ (hround _)).2⟩
  · exact hrefused [.number 7, .number 0] (.element 5) _ rfl _ (.inr (by decide))
  · exact hrefused [.number 7, .number 0, .element 5] (.count 1 96) _ rfl _
      (by simp only [Figure.Refuses]; decide)

end DealtData

end JointCircuit
