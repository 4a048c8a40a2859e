import Excerpt.Source.Outline

/-!
# Excerpt — what a member takes of the code that it is read from

A member is read from the code that is left, and everything that is said of it lies within that code: its
length, the last token of its declaration and the tokens that bound its body. The one thing that can lie
behind the end is where the members of a namespace begin, if its header runs to the end of the code.

* **`headerEnd_add_length_tail`** — the attribute sections, the header and what follows it are all of the
  code.
* **`Member.Fits`** — the positions of a member lie within a given number of tokens.
* **`Member.read_shape`** — the ways in which a member can be read.
* **`Member.read_fits`** — the member that is read fits the code.
* **`Member.read_overruns_iff`** — where the header of a block can run to the end of the code.
-/

namespace Excerpt

/-! ## Lengths -/

theorem Code.groupLength_le (opening closing : TokenKind) (depth : Nat) (code : List Code) :
    groupLength opening closing depth code ≤ code.length := by
  induction code generalizing depth with
  | nil => exact Nat.le_refl 0
  | cons t rest ih =>
    have hdeeper := ih (depth + 1)
    have hflatter := ih (depth - 1)
    have hsame := ih depth
    unfold groupLength
    rw [List.length_cons]
    repeat' split
    all_goals omega

theorem Code.expressionLength_le (depth : Nat) (code : List Code) :
    expressionLength depth code ≤ code.length := by
  induction code generalizing depth with
  | nil => exact Nat.le_refl 0
  | cons t rest ih =>
    have hdeeper := ih (depth + 1)
    have hflatter := ih (depth - 1)
    have hsame := ih depth
    unfold expressionLength
    rw [List.length_cons]
    repeat' split
    all_goals omega

theorem Header.measure_fst_le (depth : Nat) (code : List Code) :
    (measure depth code).1 ≤ code.length := by
  fun_induction measure depth code <;> simp_all

/-- A header that is ended has a token behind it. -/
theorem Header.measure_fst_lt {depth : Nat} {code : List Code}
    (h : (measure depth code).2 ≠ .missing) : (measure depth code).1 < code.length := by
  fun_induction measure depth code <;> simp_all

namespace Member

theorem attributesLength_le (code : List Code) : attributesLength code ≤ code.length := by
  fun_induction attributesLength code with
  | case1 => exact Nat.le_refl 0
  | case2 t rest _ n ih =>
    have hn : n ≤ rest.length := Code.groupLength_le _ _ _ _
    rw [List.length_drop] at ih
    rw [List.length_cons]
    omega
  | case3 => exact Nat.zero_le _

theorem tailLength_le {ending : HeaderEnd} {tail : List Code} (h : ending ≠ .missing → tail ≠ []) :
    tailLength ending tail ≤ tail.length := by
  have hpos : ending ≠ .missing → 0 < tail.length :=
    fun hne => List.length_pos_iff.mpr (h hne)
  have hexpression : 0 < tail.length → Code.expressionLength 0 (tail.drop 1) + 1 ≤ tail.length := by
    intro hlt
    have hle := Code.expressionLength_le 0 (tail.drop 1)
    rw [List.length_drop] at hle
    omega
  cases ending with
  | block => exact Code.groupLength_le _ _ _ _
  | semicolon => exact hpos (by decide)
  | arrow => exact hexpression (hpos (by decide))
  | assign => exact hexpression (hpos (by decide))
  | missing => exact Nat.zero_le _

/-! ## The parts of a member -/

section Split

variable (code : List Code)

theorem length_split_header :
    (split code).header.length = (Header.measure 0 (code.drop (attributesLength code))).1 := by
  have hle := Header.measure_fst_le 0 (code.drop (attributesLength code))
  show (List.take _ _).length = _
  rw [List.length_take, Nat.min_eq_left hle]

theorem split_tail : (split code).tail = code.drop (split code).headerEnd := by
  show List.drop _ (List.drop _ _) = _
  rw [List.drop_drop, Parts.headerEnd, length_split_header]
  rfl

theorem headerEnd_le : (split code).headerEnd ≤ code.length := by
  have hle := Header.measure_fst_le 0 (code.drop (attributesLength code))
  have hattributes := attributesLength_le code
  rw [List.length_drop] at hle
  rw [Parts.headerEnd, length_split_header]
  show attributesLength code + _ ≤ _
  omega

/-- **The parts are all of the code.** -/
theorem headerEnd_add_length_tail :
    (split code).headerEnd + (split code).tail.length = code.length := by
  have hle := headerEnd_le code
  rw [split_tail, List.length_drop]
  omega

theorem split_tail_ne_nil {code : List Code} (h : (split code).ending ≠ .missing) :
    (split code).tail ≠ [] := by
  have hlt := Header.measure_fst_lt h
  have hattributes := attributesLength_le code
  have hall := headerEnd_add_length_tail code
  rw [Parts.headerEnd, length_split_header] at hall
  rw [List.length_drop] at hlt
  have hpos : 0 < (split code).tail.length := by
    have hsplit : (split code).attributes = attributesLength code := rfl
    omega
  exact List.length_pos_iff.mp hpos

theorem length_split_le : (split code).length ≤ code.length := by
  have htail := tailLength_le (@split_tail_ne_nil code)
  have hall := headerEnd_add_length_tail code
  rw [Parts.length]
  omega

end Split

end Member

/-! ## Positions -/

/-- The body lies between two positions, and where it is a block something stands in it. -/
def BodyExtent.Within (first last : Nat) : BodyExtent → Prop
  | block opening closing => first ≤ opening ∧ opening + 1 < closing ∧ closing ≤ last
  | expression start stop => first ≤ start ∧ start ≤ stop ∧ stop ≤ last

/-- What is declared lies within the first `total` tokens, and its body within itself. -/
structure Declared.Fits (total : Nat) (d : Declared) : Prop where
  ordered : d.first ≤ d.last
  lt : d.last < total
  body : ∀ b ∈ d.body, b.Within d.first d.last

theorem BodyExtent.within_of_between? {first last opening closing : Nat} {b : BodyExtent}
    (h : between? opening closing = some b) (hfirst : first ≤ opening) (hlast : closing ≤ last) :
    b.Within first last := by
  unfold between? at h
  split at h
  · exact absurd h (by simp)
  · obtain rfl := Option.some.inj h
    exact ⟨hfirst, by omega, hlast⟩

theorem BodyExtent.Within.shift {first last : Nat} {b : BodyExtent} (h : b.Within first last)
    (n : Nat) : (b.shift n).Within (first + n) (last + n) := by
  cases b with
  | block opening closing =>
    obtain ⟨h1, h2, h3⟩ := h
    exact ⟨by omega, by omega, by omega⟩
  | expression start stop =>
    obtain ⟨h1, h2, h3⟩ := h
    exact ⟨by omega, by omega, by omega⟩

theorem BodyExtent.Within.mono {first first' last last' : Nat} {b : BodyExtent}
    (h : b.Within first last) (hfirst : first' ≤ first) (hlast : last ≤ last') :
    b.Within first' last' := by
  cases b with
  | block opening closing =>
    exact ⟨Nat.le_trans hfirst h.1, h.2.1, Nat.le_trans h.2.2 hlast⟩
  | expression start stop =>
    exact ⟨Nat.le_trans hfirst h.1, h.2.1, Nat.le_trans h.2.2 hlast⟩

/-- What fits the tokens of a member fits the code at the place where the member stands. -/
theorem Declared.Fits.at {d : Declared} {n total : Nat} (h : d.Fits n) (pos : Nat)
    (hle : pos + n ≤ total) :
    Declared.Fits total ⟨d.kind, d.name, pos, pos + d.last, d.body.map (·.shift pos)⟩ := by
  have hlt := h.lt
  refine ⟨Nat.le_add_right _ _, by dsimp only; omega, ?_⟩
  intro b hb
  obtain ⟨inner, hinner, rfl⟩ := Option.map_eq_some_iff.mp hb
  have hshift := (h.body inner hinner).shift pos
  exact hshift.mono (Nat.le_add_left _ _) (by dsimp only; omega)

namespace Member

/-- The positions of the member lie within `total` tokens. Only the members of a namespace that is not
closable can begin right behind the end. -/
def Fits (total : Nat) : Member → Prop
  | whole declared n => n ≤ total ∧ ∀ d ∈ declared, d.Fits n
  | opening kind _ header closable =>
    header ≤ total ∧ (kind ≠ .namespace ∨ closable = true → header < total)

theorem within_of_bodyOf {ending : HeaderEnd} {header : Nat} {tail : List Code} {b : BodyExtent}
    (h : bodyOf ending header tail = some b) :
    b.Within 0 (header + tailLength ending tail - 1) := by
  cases ending with
  | block => exact BodyExtent.within_of_between? h (Nat.zero_le _) (Nat.le_refl _)
  | arrow =>
    have hlast : (if (tail[header + tailLength .arrow tail - 1 - header]?).any (·.kind = .semicolon)
        then header + tailLength .arrow tail - 1 - 1 else header + tailLength .arrow tail - 1) ≤
          header + tailLength .arrow tail - 1 := by
      split <;> omega
    unfold bodyOf at h
    dsimp only at h
    revert h hlast
    generalize (if (tail[header + tailLength .arrow tail - 1 - header]?).any (·.kind = .semicolon)
      then header + tailLength .arrow tail - 1 - 1 else header + tailLength .arrow tail - 1) = last
    intro h hlast
    split at h
    · obtain rfl := Option.some.inj h
      exact ⟨Nat.zero_le _, by omega, hlast⟩
    · exact absurd h (by simp)
  | semicolon => exact absurd h (by simp [bodyOf])
  | assign => exact absurd h (by simp [bodyOf])
  | missing => exact absurd h (by simp [bodyOf])

theorem fits_declare {kind : DeclarationKind} {name : Option Text} {n total : Nat}
    {body : Option BodyExtent} (hpos : 0 < n) (hle : n ≤ total)
    (hbody : ∀ b ∈ body, b.Within 0 (n - 1)) : (declare kind name n body).Fits total := by
  refine ⟨hle, ?_⟩
  intro d hd
  obtain ⟨text, -, rfl⟩ := Option.map_eq_some_iff.mp hd
  exact ⟨Nat.zero_le _, by dsimp only; omega, hbody⟩

/-- **The ways in which a member can be read.** -/
theorem read_shape (enclosing : Option Enclosing) (code : List Code) :
    let parts := split code
    (∃ place, Header.findWord? ["namespace".toList] parts.header = some place ∧
        read enclosing code = parts.asNamespace place) ∨
      Header.findWord? ["namespace".toList] parts.header = none ∧
        ((∃ place name, read enclosing code = parts.asType place name) ∨
          read enclosing code = whole none parts.length ∨
          (∃ name, read enclosing code = declare .delegate name parts.length none) ∨
          read enclosing code = parts.asMethod enclosing ∨
          read enclosing code = parts.asProperty) := by
  dsimp only
  generalize hread : read enclosing code = m
  unfold read at hread
  dsimp only at hread
  cases hword : Header.findWord? ["namespace".toList] (split code).header with
  | some place =>
    rw [hword] at hread
    exact Or.inl ⟨place, rfl, hread.symm⟩
  | none =>
    rw [hword] at hread
    refine Or.inr ⟨rfl, ?_⟩
    dsimp only at hread
    split at hread
    · next place name _ => exact Or.inl ⟨place, name, hread.symm⟩
    · split at hread
      · exact Or.inr (Or.inl hread.symm)
      · split at hread
        · exact Or.inr (Or.inr (Or.inl ⟨_, hread.symm⟩))
        · split at hread
          · exact Or.inr (Or.inr (Or.inr (Or.inl hread.symm)))
          · split at hread
            · exact Or.inr (Or.inr (Or.inr (Or.inr hread.symm)))
            · exact Or.inr (Or.inl hread.symm)

/-- A type of a header that a block follows is opened; any other one is read whole. -/
theorem fits_asType {code : List Code} (hpos : 0 < (split code).length) (place : Header.Place)
    (name : Text) : ((split code).asType place name).Fits code.length := by
  have hle := length_split_le code
  unfold Parts.asType
  split
  · exact fits_declare hpos hle (by simp)
  · next hblock =>
    have hending : (split code).ending = .block := by simpa using hblock
    split
    · have hbody : ∀ b ∈ bodyOf .block (split code).headerEnd (split code).tail,
          b.Within 0 ((split code).length - 1) := by
        intro b hb
        have hwithin := within_of_bodyOf hb
        rw [← hending] at hwithin
        exact hwithin
      dsimp only
      split
      · next hsemicolon =>
        -- the semicolon behind the closing brace belongs to the member
        have hlt : (split code).length < code.length := by
          have hall := headerEnd_add_length_tail code
          obtain ⟨t, ht, -⟩ := (Option.any_eq_true _ _).mp hsemicolon
          obtain ⟨hat, -⟩ := List.getElem?_eq_some_iff.mp ht
          omega
        exact fits_declare (by omega) (by omega) fun b hb => (hbody b hb).mono (Nat.le_refl 0) (by omega)
      · exact fits_declare hpos hle hbody
    · have htail := @split_tail_ne_nil code (by rw [hending]; decide)
      have hall := headerEnd_add_length_tail code
      have hlt : 0 < (split code).tail.length := List.length_pos_iff.mpr htail
      exact ⟨by omega, fun _ => by omega⟩

theorem fits_asMethod {code : List Code} (hpos : 0 < (split code).length)
    (enclosing : Option Enclosing) : ((split code).asMethod enclosing).Fits code.length :=
  fits_declare hpos (length_split_le code) fun _ hb => within_of_bodyOf hb

theorem fits_asProperty {code : List Code} (hpos : 0 < (split code).length) :
    (split code).asProperty.Fits code.length := by
  have hle := length_split_le code
  have hall := headerEnd_add_length_tail code
  unfold Parts.asProperty
  dsimp only
  split
  · next t rest hending hafter =>
    split
    · -- the value follows the accessors, so it is not longer than what is left behind them
      have hvalue := Code.expressionLength_le 0 rest
      have hleft := congrArg List.length hafter
      rw [List.length_drop, List.length_cons] at hleft
      rw [Parts.length] at hle hpos
      refine fits_declare (by omega) (by rw [Parts.length]; omega) fun b hb => ?_
      exact (within_of_bodyOf hb).mono (Nat.le_refl 0) (by rw [Parts.length]; omega)
    · exact fits_declare hpos hle fun _ hb => within_of_bodyOf hb
  · exact fits_declare hpos hle fun _ hb => within_of_bodyOf hb

theorem fits_asNamespace (code : List Code) (place : Header.Place) :
    ((split code).asNamespace place).Fits code.length := by
  refine ⟨headerEnd_le code, ?_⟩
  intro hclosable
  have hending : (split code).ending = .block := by simpa using hclosable
  have htail := @split_tail_ne_nil code (by rw [hending]; decide)
  have hall := headerEnd_add_length_tail code
  have hlt : 0 < (split code).tail.length := List.length_pos_iff.mpr htail
  omega

/-- **The member that is read fits the code.** One case for each way to read one. -/
theorem read_fits (enclosing : Option Enclosing) {t : Code} (rest : List Code)
    (h : t.kind ≠ .braceClose) : (read enclosing (t :: rest)).Fits (t :: rest).length := by
  have hpos := parts_length_pos t rest h
  have hle := length_split_le (t :: rest)
  have hplain : (whole none (split (t :: rest)).length).Fits (t :: rest).length :=
    ⟨hle, by simp⟩
  rcases read_shape enclosing (t :: rest) with ⟨place, -, hread⟩ | ⟨-, ⟨place, name, hread⟩ | hrest⟩
  · rw [hread]
    exact fits_asNamespace _ place
  · rw [hread]
    exact fits_asType hpos place name
  · rcases hrest with hread | ⟨name, hread⟩ | hread | hread
    · rwa [hread]
    · rw [hread]
      exact fits_declare hpos hle (by simp)
    · rw [hread]
      exact fits_asMethod hpos enclosing
    · rw [hread]
      exact fits_asProperty hpos

/-- **A header behind which nothing is left opens a block just where it has the word that tells a
namespace.** -/
theorem read_overruns_iff (enclosing : Option Enclosing) (code : List Code) :
    (∃ kind name closable, read enclosing code = .opening kind name code.length closable) ↔
      (Header.findWord? ["namespace".toList] (split code).header).isSome ∧
        (split code).tail = [] := by
  have hall := headerEnd_add_length_tail code
  constructor
  · rintro ⟨kind, name, closable, hopening⟩
    rcases read_shape enclosing code with ⟨place, hword, hread⟩ | ⟨-, ⟨place, typeName, hread⟩ | hrest⟩
    · have hheader : (split code).headerEnd = code.length := by
        rw [hread] at hopening
        exact (opening.inj hopening).2.2.1
      exact ⟨by rw [hword]; rfl, List.eq_nil_of_length_eq_zero (by omega)⟩
    · exfalso
      rw [hread] at hopening
      unfold Parts.asType at hopening
      split at hopening
      · cases hopening
      · next hblock =>
        have hending : (split code).ending = .block := by simpa using hblock
        have htail := @split_tail_ne_nil code (by rw [hending]; decide)
        have hlt : 0 < (split code).tail.length := List.length_pos_iff.mpr htail
        split at hopening
        · cases hopening
        · have hheader := (opening.inj hopening).2.2.1
          omega
    · exfalso
      rcases hrest with hread | ⟨name', hread⟩ | hread | hread
      all_goals
        rw [hread] at hopening
        cases hopening
  · rintro ⟨hword, htail⟩
    obtain ⟨place, hplace⟩ := Option.isSome_iff_exists.mp hword
    have hheader : (split code).headerEnd = code.length := by
      rw [htail] at hall
      simpa using hall
    rcases read_shape enclosing code with ⟨place', -, hread⟩ | ⟨hnone, -⟩
    · rw [hread, ← hheader]
      exact ⟨.namespace, place'.behind.flatMap Code.text, decide ((split code).ending = .block), rfl⟩
    · rw [hnone] at hplace
      exact absurd hplace (by simp)

end Member

end Excerpt
