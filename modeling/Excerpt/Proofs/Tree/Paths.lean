import Excerpt.Tree.Lookup
import Mathlib.Data.List.Basic

/-!
# Excerpt — where written paths lead

A path is followed with a limit to the links that it may lead through, and names have a limit to their length. Both
are only reasons to give up: a place that is reached does not depend on them. So paths that are followed step by step
lead to where they lead as a whole.

* **`Tree.Leads`** — where steps lead to, without limits.
* **`Tree.Leads.of_follow`**, **`Tree.Leads.unique`** — a place that is reached is the only one the steps lead to.
* **`Tree.leads_append`** — steps in front of other steps.
* **`Path.steps_text`** — the steps of a path that is written down are its names.
* **`Tree.Leads.of_joinWritten`** — a path that is joined to another one leads on from where that one leads.
-/

namespace Excerpt

namespace Path

/-! ## Written paths -/

theorem isName_iff {name : Text} :
    isName name = true ↔ name ≠ [] ∧ name ≠ ['.'] ∧ name ≠ ['.', '.'] ∧ '/' ∉ name ∧ '\x00' ∉ name := by
  simp [isName, and_assoc]

theorem steps_eq_splitOn (s : Text) : steps s = s.splitOn '/' := by
  have hgo : ∀ current, steps.go current s = (s.splitOn '/').modifyHead (current.reverse ++ ·) := by
    induction s with
    | nil => intro current; simp [steps.go]
    | cons c rest ih =>
      intro current
      rw [steps.go, List.splitOn_cons_eq_if_modifyHead]
      obtain ⟨first, more, hpieces⟩ := List.exists_cons_of_ne_nil (List.splitOn_ne_nil '/' rest)
      by_cases hc : c = '/' <;> simp [hc, ih, hpieces]
  have hstart := hgo []
  obtain ⟨first, more, hpieces⟩ := List.exists_cons_of_ne_nil (List.splitOn_ne_nil '/' s)
  rw [hpieces] at hstart ⊢
  exact hstart

/-- The steps before a slash and those behind it. -/
theorem steps_append_slash (s rest : Text) : steps (s ++ '/' :: rest) = steps s ++ steps rest := by
  rw [steps_eq_splitOn, steps_eq_splitOn, steps_eq_splitOn, List.splitOn_append_cons_self]

/-- The steps of a path that is written down are its names. -/
theorem steps_text {path : Path} (hne : path ≠ []) (h : ∀ name ∈ path, isName name) : steps (text path) = path := by
  have hslash : ∀ name ∈ path, '/' ∉ name := fun name hname => (isName_iff.mp (h name hname)).2.2.2.1
  rw [steps_eq_splitOn, text, List.splitOn_intercalate '/' hslash hne]

/-- What is written begins with the first name, and that with no slash. -/
theorem isAbsolute_text {path : Path} (h : ∀ name ∈ path, isName name) : isAbsolute (text path) = false := by
  cases path with
  | nil => rfl
  | cons name rest =>
    obtain ⟨hne, -, -, hslash, -⟩ := isName_iff.mp (h name List.mem_cons_self)
    obtain ⟨c, more, rfl⟩ := List.exists_cons_of_ne_nil hne
    have hc : c ≠ '/' := fun hc => hslash (hc ▸ List.mem_cons_self)
    cases rest with
    | nil => simp [text, isAbsolute, hc]
    | cons second rest => simp [text, isAbsolute, List.intercalate_cons_cons, hc]

/-- A name is a path of one step. -/
theorem steps_name {name : Text} (h : isName name = true) : steps name = [name] := by
  rw [steps_eq_splitOn, List.splitOn_eq_singleton (isName_iff.mp h).2.2.2.1]

theorem isAbsolute_name {name : Text} (h : isName name = true) : isAbsolute name = false := by
  have hslash := (isName_iff.mp h).2.2.2.1
  refine decide_eq_false fun hhead => hslash ?_
  exact List.mem_of_mem_head? hhead

/-- How a path that starts at no root is joined to another one: there is one slash between them, unless the other one
is empty. -/
theorem joinWritten_cases {sub : Text} (hsub : isAbsolute sub = false) (base : Text) :
    base = [] ∧ joinWritten base sub = sub ∨
      ∃ front, (base = front ++ ['/'] ∨ base = front ∧ base ≠ []) ∧ joinWritten base sub = front ++ '/' :: sub := by
  unfold joinWritten
  rw [if_neg (Bool.eq_false_iff.mp hsub)]
  by_cases hempty : base = []
  · exact Or.inl ⟨hempty, by simp [hempty]⟩
  · refine Or.inr ?_
    by_cases hslash : base.getLast? = some '/'
    · obtain ⟨front, rfl⟩ := List.getLast?_eq_some_iff.mp hslash
      exact ⟨front, Or.inl rfl, by simp⟩
    · exact ⟨base, Or.inr ⟨rfl, hempty⟩, by simp [hempty, hslash]⟩

end Path

namespace Tree

variable {t : Tree}

/-- Where steps lead to from a place, through links and around. -/
inductive Leads (t : Tree) : Path → List Text → Path → Prop where
  | here (place : Path) : Leads t place [] place
  | stay {place dest : Path} {step : Text} {rest : List Text} (hplace : t.isDirectory place)
      (hstep : step = [] ∨ step = ['.']) (h : Leads t place rest dest) : Leads t place (step :: rest) dest
  | up {place dest : Path} {rest : List Text} (hplace : t.isDirectory place) (h : Leads t place.dropLast rest dest) :
      Leads t place (['.', '.'] :: rest) dest
  | link {place dest : Path} {step target : Text} {rest : List Text} (hplace : t.isDirectory place)
      (hname : step ≠ [] ∧ step ≠ ['.'] ∧ step ≠ ['.', '.']) (hentry : t.entry? (place ++ [step]) = some (.link target))
      (h : Leads t (if Path.isAbsolute target then [] else place) (Path.steps target ++ rest) dest) :
      Leads t place (step :: rest) dest
  | enter {place dest : Path} {step : Text} {rest : List Text} {entry : Entry} (hplace : t.isDirectory place)
      (hname : step ≠ [] ∧ step ≠ ['.'] ∧ step ≠ ['.', '.']) (hentry : t.entry? (place ++ [step]) = some entry)
      (hlink : ∀ target, entry ≠ .link target) (h : Leads t (place ++ [step]) rest dest) :
      Leads t place (step :: rest) dest

namespace Leads

theorem of_walk {behindLink : Path → Text → List Text → Except FileFault Path}
    (hlink : ∀ place target rest dest, behindLink place target rest = .ok dest →
      Leads t (if Path.isAbsolute target then [] else place) (Path.steps target ++ rest) dest)
    {place dest : Path} {steps : List Text} (h : t.walk behindLink place steps = .ok dest) :
    Leads t place steps dest := by
  fun_induction walk t behindLink place steps with
  | case1 place =>
    obtain rfl := Except.ok.inj h
    exact .here place
  | case2 => cases h
  | case3 place step rest hplace hstay ih => exact .stay (by simpa using hplace) (by simpa using hstay) (ih h)
  | case4 place rest hplace hstay ih => exact .up (by simpa using hplace) (ih h)
  | case5 => cases h
  | case6 => cases h
  | case7 place step rest hplace hstay hup hlong target hentry =>
    obtain ⟨hempty, hdot⟩ : step ≠ [] ∧ step ≠ ['.'] := by simpa using hstay
    exact .link (by simpa using hplace) ⟨hempty, hdot, hup⟩ hentry (hlink _ _ _ _ h)
  | case8 place step rest hplace hstay hup hlong entry hother hentry ih =>
    obtain ⟨hempty, hdot⟩ : step ≠ [] ∧ step ≠ ['.'] := by simpa using hstay
    exact .enter (by simpa using hplace) ⟨hempty, hdot, hup⟩ hentry hother (ih h)

/-- A place that is reached within the limits is one that the steps lead to. Induction on the links. -/
theorem of_follow {links : Nat} {place dest : Path} {steps : List Text}
    (h : t.follow links place steps = .ok dest) : Leads t place steps dest := by
  induction links generalizing place dest steps with
  | zero =>
    refine of_walk ?_ h
    intro place target rest dest hlink
    cases hlink
  | succ links ih =>
    refine of_walk ?_ h
    intro place target rest dest hlink
    exact ih hlink

/-- **The steps lead to one place at most.** Induction on the way to the first one. -/
theorem unique {place dest dest' : Path} {steps : List Text} (h : Leads t place steps dest)
    (h' : Leads t place steps dest') : dest = dest' := by
  induction h with
  | here place =>
    cases h'
    rfl
  | stay hplace hstep h ih =>
    cases h' with
    | stay _ _ h' => exact ih h'
    | up => simp at hstep
    | link _ hname => exact absurd hstep (by simp [hname.1, hname.2.1])
    | enter _ hname => exact absurd hstep (by simp [hname.1, hname.2.1])
  | up hplace h ih =>
    cases h' with
    | stay _ hstep => simp at hstep
    | up _ h' => exact ih h'
    | link _ hname => exact absurd rfl hname.2.2
    | enter _ hname => exact absurd rfl hname.2.2
  | link hplace hname hentry h ih =>
    cases h' with
    | stay _ hstep => exact absurd hstep (by simp [hname.1, hname.2.1])
    | up => exact absurd rfl hname.2.2
    | link _ _ hentry' h' =>
      obtain rfl := Entry.link.inj (Option.some.inj (hentry.symm.trans hentry'))
      exact ih h'
    | enter _ _ hentry' hlink => exact absurd (Option.some.inj (hentry'.symm.trans hentry)) (hlink _)
  | enter hplace hname hentry hlink h ih =>
    cases h' with
    | stay _ hstep => exact absurd hstep (by simp [hname.1, hname.2.1])
    | up => exact absurd rfl hname.2.2
    | link _ _ hentry' => exact absurd (Option.some.inj (hentry.symm.trans hentry')) (hlink _)
    | enter _ _ _ _ h' => exact ih h'

/-- A step of no characters stays where it is. -/
theorem eq_of_empty {place dest : Path} (h : Leads t place [[]] dest) : dest = place := by
  cases h with
  | stay _ _ hhere =>
    cases hhere
    rfl
  | link _ hname => exact absurd rfl hname.1
  | enter _ hname => exact absurd rfl hname.1

end Leads

/-- **Steps in front of other steps** lead to where the others go on from. -/
theorem leads_append {place dest : Path} {steps rest : List Text} :
    Leads t place (steps ++ rest) dest ↔ ∃ between, Leads t place steps between ∧ Leads t between rest dest := by
  constructor
  · intro h
    generalize hall : steps ++ rest = all at h
    -- the first step of a way is among the steps in front, unless there are none
    induction h generalizing steps with
    | here place =>
      obtain ⟨rfl, rfl⟩ := List.append_eq_nil_iff.mp hall
      exact ⟨place, .here place, .here place⟩
    | @stay place dest step behind hplace hstep h ih =>
      rcases List.append_eq_cons_iff.mp hall with ⟨rfl, rfl⟩ | ⟨more, rfl, rfl⟩
      · exact ⟨place, .here place, .stay hplace hstep h⟩
      · obtain ⟨between, hbetween, hdest⟩ := ih rfl
        exact ⟨between, .stay hplace hstep hbetween, hdest⟩
    | @up place dest behind hplace h ih =>
      rcases List.append_eq_cons_iff.mp hall with ⟨rfl, rfl⟩ | ⟨more, rfl, rfl⟩
      · exact ⟨place, .here place, .up hplace h⟩
      · obtain ⟨between, hbetween, hdest⟩ := ih rfl
        exact ⟨between, .up hplace hbetween, hdest⟩
    | @link place dest step target behind hplace hname hentry h ih =>
      rcases List.append_eq_cons_iff.mp hall with ⟨rfl, rfl⟩ | ⟨more, rfl, rfl⟩
      · exact ⟨place, .here place, .link hplace hname hentry h⟩
      · obtain ⟨between, hbetween, hdest⟩ := ih (List.append_assoc ..)
        exact ⟨between, .link hplace hname hentry hbetween, hdest⟩
    | @enter place dest step behind entry hplace hname hentry hlink h ih =>
      rcases List.append_eq_cons_iff.mp hall with ⟨rfl, rfl⟩ | ⟨more, rfl, rfl⟩
      · exact ⟨place, .here place, .enter hplace hname hentry hlink h⟩
      · obtain ⟨between, hbetween, hdest⟩ := ih rfl
        exact ⟨between, .enter hplace hname hentry hlink hbetween, hdest⟩
  · rintro ⟨between, h, hdest⟩
    induction h with
    | here place => exact hdest
    | stay hplace hstep _ ih => exact .stay hplace hstep (ih hdest)
    | up hplace _ ih => exact .up hplace (ih hdest)
    | link hplace hname hentry _ ih => exact .link hplace hname hentry (List.append_assoc .. ▸ ih hdest)
    | enter hplace hname hentry hlink _ ih => exact .enter hplace hname hentry hlink (ih hdest)

/-- Where a written path starts from. -/
def start (directory : Path) (written : Text) : Path := if Path.isAbsolute written then [] else directory

theorem Leads.of_locate {directory dest : Path} {written : Text} (h : t.locate directory written = .ok dest) :
    Leads t (start directory written) (Path.steps written) dest := by
  unfold locate at h
  split at h
  · cases h
  · exact .of_follow h

theorem find?_eq_some_iff {directory place : Path} {written : Text} {entry : Entry} :
    t.find? directory written = some (place, entry) ↔
      t.locate directory written = .ok place ∧ t.entry? place = some entry := by
  unfold find?
  cases t.locate directory written with
  | error fault => simp
  | ok there =>
    dsimp only
    cases hthere : t.entry? there with
    | none =>
      refine iff_of_false nofun ?_
      rintro ⟨hplace, hentry⟩
      obtain rfl := Except.ok.inj hplace
      exact nomatch hthere.symm.trans hentry
    | some found =>
      simp only [Option.map_some, Option.some.injEq, Prod.mk.injEq, Except.ok.injEq]
      refine and_congr_right ?_
      rintro rfl
      rw [hthere, Option.some.injEq]

theorem directory?_eq_some_iff {directory place : Path} {written : Text} :
    t.directory? directory written = some place ↔
      t.locate directory written = .ok place ∧ t.entry? place = some .directory := by
  rw [← find?_eq_some_iff]
  unfold directory?
  constructor
  · intro h
    split at h
    · next hfound => rw [hfound, Option.some.inj h]
    · cases h
  · intro h
    rw [h]

theorem start_joinWritten {directory : Path} {base sub : Text} (hsub : Path.isAbsolute sub = false) :
    start directory (Path.joinWritten base sub) = start directory base := by
  unfold start
  rcases Path.joinWritten_cases hsub base with ⟨rfl, hjoined⟩ | ⟨front, rfl | ⟨rfl, hne⟩, hjoined⟩
  · rw [hjoined, hsub]
    rfl
  · rw [hjoined]
    cases front <;> rfl
  · rw [hjoined]
    cases base with
    | nil => exact absurd rfl hne
    | cons c base => rfl

/-- **A path that is joined to another one leads on from where that one leads.** -/
theorem Leads.of_joinWritten {directory between dest : Path} {base sub : Text} (hsub : Path.isAbsolute sub = false)
    (hbase : Leads t (start directory base) (Path.steps base) between)
    (h : Leads t (start directory (Path.joinWritten base sub)) (Path.steps (Path.joinWritten base sub)) dest) :
    Leads t between (Path.steps sub) dest := by
  rw [start_joinWritten hsub] at h
  rcases Path.joinWritten_cases hsub base with ⟨rfl, hjoined⟩ | ⟨front, rfl | ⟨rfl, -⟩, hjoined⟩
  · rw [hjoined] at h
    rwa [← hbase.eq_of_empty] at h
  · rw [hjoined, Path.steps_append_slash, leads_append] at h
    rw [Path.steps_append_slash, leads_append] at hbase
    obtain ⟨there, hthere, hdest⟩ := h
    obtain ⟨there', hthere', hbetween⟩ := hbase
    rwa [hthere.unique hthere', ← hbetween.eq_of_empty] at hdest
  · rw [hjoined, Path.steps_append_slash, leads_append] at h
    obtain ⟨there, hthere, hdest⟩ := h
    rwa [hthere.unique hbase] at hdest

end Tree

end Excerpt
