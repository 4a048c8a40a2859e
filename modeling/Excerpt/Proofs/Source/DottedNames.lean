import Excerpt.Proofs.Source.DeclaredNames
import Mathlib.Data.List.DropRight
import Mathlib.Data.List.Forall2

/-!
# Excerpt — dotted paths

A dotted path is looked up from its last segment on: that is the name of the declaration, the one before it the name
of what the declaration stands in, and so on. The walk goes up the parents, each of which stands before what it
contains, so it comes to an end; and it goes no further than the types inside of the innermost namespace. Told from
the outside, the segments are the last ones of the names from there down to the declaration.

* **`SourceFile.IsLineage`** — a declaration with all that it stands in; **`SourceFile.exists_isLineage`**,
  **`SourceFile.IsLineage.unique`** — each declaration has one lineage.
* **`SourceFile.localNames`** — the names that can be segments of a path.
* **`SourceFile.namesMatch_iff`** — how far the walk up a lineage comes.
* **`SourceFile.matchesPath_iff_suffix`** — the paths that address a declaration.
-/

namespace Excerpt.SourceFile

variable {text : Text} {file : SourceFile} {d : Declaration} {ds : List Declaration}

/-! ## What a declaration stands in -/

/-- The declarations are those around the declaration, the outermost one first, and the declaration itself. -/
inductive IsLineage (file : SourceFile) : Declaration → List Declaration → Prop where
  | outermost {d : Declaration} (hparent : d.parent = none) : IsLineage file d [d]
  | inner {d outer : Declaration} {i : Nat} {ds : List Declaration} (hparent : d.parent = some i)
      (houter : file.declarations[i]? = some outer) (hds : IsLineage file outer ds) : IsLineage file d (ds ++ [d])

theorem IsLineage.unique {ds' : List Declaration} (h : file.IsLineage d ds) (h' : file.IsLineage d ds') :
    ds' = ds := by
  induction h generalizing ds' with
  | outermost hparent =>
    cases h' with
    | outermost _ => rfl
    | inner hparent' _ _ => cases hparent.symm.trans hparent'
  | inner hparent houter _ ih =>
    cases h' with
    | outermost hparent' => cases hparent.symm.trans hparent'
    | inner hparent' houter' hds' =>
      obtain rfl := Option.some.inj (hparent.symm.trans hparent')
      obtain rfl := Option.some.inj (houter.symm.trans houter')
      rw [ih hds']

theorem IsLineage.mem_declarations (h : file.IsLineage d ds) (hd : d ∈ file.declarations) :
    ∀ e ∈ ds, e ∈ file.declarations := by
  induction h with
  | outermost _ => exact fun e he => List.mem_singleton.mp he ▸ hd
  | inner _ houter _ ih =>
    intro e he
    rcases List.mem_append.mp he with hinner | hlast
    · exact ih (Array.mem_of_getElem? houter) e hinner
    · exact List.mem_singleton.mp hlast ▸ hd

/-- A declaration stands in one that is before it. -/
theorem parent_lt (h : parse? text = some file) {i p : Nat} (hi : file.declarations[i]? = some d)
    (hp : d.parent = some p) : p < i := by
  obtain ⟨nodes, -, rfl, -⟩ := exists_outline_of_parse? h
  obtain ⟨e, he, rfl⟩ := getElem?_declarations_ofOutline hi
  have hlt := OutlineNode.parent_lt_of_getElem?_entriesAll (by simp) he p hp
  rwa [Nat.zero_add] at hlt

/-- **Going up from parent to parent comes to an end.** Induction on the index of the declaration. -/
theorem exists_isLineage (h : parse? text = some file) (hd : d ∈ file.declarations) :
    ∃ ds, file.IsLineage d ds := by
  obtain ⟨i, hi⟩ := Array.getElem?_of_mem hd
  induction i using Nat.strongRecOn generalizing d with
  | ind i ih =>
    cases hparent : d.parent with
    | none => exact ⟨[d], .outermost hparent⟩
    | some p =>
      -- the parent stands before the declaration, so it is one of the file and has a lineage
      have hlt := parent_lt h hi hparent
      have hsize : p < file.declarations.size := Nat.lt_trans hlt (Array.getElem?_eq_some_iff.mp hi).1
      have houter : file.declarations[p]? = some file.declarations[p] := Array.getElem?_eq_getElem hsize
      obtain ⟨ds, hds⟩ := ih p hlt (Array.mem_of_getElem? houter) houter
      exact ⟨ds ++ [d], .inner hparent houter hds⟩

/-! ## The names of a path -/

/-- The names of the last declarations of a lineage, from inside of the innermost namespace on. -/
def localNames (ds : List Declaration) : List Text := (ds.rtakeWhile (·.kind ≠ .namespace)).map Declaration.name

theorem localNames_concat (ds : List Declaration) (d : Declaration) :
    localNames (ds ++ [d]) = if d.kind = .namespace then [] else localNames ds ++ [d.name] := by
  unfold localNames
  rw [List.rtakeWhile_concat]
  by_cases hkind : d.kind = .namespace <;> simp [hkind]

theorem exists_of_mem_localNames {name : Text} (h : name ∈ localNames ds) :
    ∃ e ∈ ds, e.kind ≠ .namespace ∧ e.name = name := by
  obtain ⟨e, he, rfl⟩ := List.mem_map.mp h
  have hkind : e.kind ≠ .namespace := by simpa using List.mem_rtakeWhile_imp he
  exact ⟨e, (List.rtakeWhile_suffix _ ds).subset he, hkind, rfl⟩

/-- There are no more of them than there are declarations inside of any namespace. -/
theorem length_localNames_le (around : List Declaration) {n : Declaration} (within : List Declaration)
    (hn : n.kind = .namespace) : (localNames (around ++ n :: within)).length ≤ within.length := by
  induction within using List.reverseRec with
  | nil => rw [localNames_concat, if_pos hn]; exact Nat.le_refl _
  | append_singleton within e ih =>
    rw [← List.cons_append, ← List.append_assoc, localNames_concat]
    split
    · exact Nat.zero_le _
    · rw [List.length_append, List.length_append]
      exact Nat.add_le_add_right ih 1

/-- The segments of the path are the names, up to case. -/
def IsPathOf (names : List Text) (path : Text) : Prop :=
  List.Forall₂ (fun name segment => Text.eqIgnoreCase name segment = true) names (path.splitOn '.')

/-- The end of a list that is as long as another list, told from behind. -/
theorem exists_suffix_forall₂_iff {α β : Type} {R : α → β → Prop} {as : List α} {bs : List β} :
    (∃ front, front <:+ as ∧ List.Forall₂ R front bs) ↔
      List.Forall₂ R (as.reverse.take bs.reverse.length) bs.reverse := by
  constructor
  · rintro ⟨front, hsuffix, hall⟩
    have hprefix := List.prefix_iff_eq_take.mp (List.reverse_prefix.mpr hsuffix)
    rw [List.length_reverse, hall.length_eq] at hprefix
    rw [List.length_reverse, ← hprefix]
    exact List.forall₂_reverse_iff.mpr hall
  · intro hall
    refine ⟨(as.reverse.take bs.reverse.length).reverse, ?_, ?_⟩
    · rw [← List.reverse_prefix, List.reverse_reverse]
      exact List.take_prefix _ _
    · rw [← List.forall₂_reverse_iff, List.reverse_reverse]
      exact hall

/-! ## The walk -/

theorem namesMatch_nil (file : SourceFile) (start : Option Declaration) : file.namesMatch start [] = true := by
  cases start <;> rfl

theorem namesMatch_cons (file : SourceFile) (d : Declaration) (segment : Text) (segments : List Text) :
    file.namesMatch (some d) (segment :: segments) = true ↔
      d.kind ≠ .namespace ∧ Text.eqIgnoreCase d.name segment = true ∧
        file.namesMatch (d.parent.bind fun i => file.declarations[i]?) segments = true := by
  rw [namesMatch, Bool.and_eq_true, Bool.and_eq_true, decide_eq_true_eq, and_assoc]

/-- One step of the walk, where it is known how far the walk comes from there on. -/
theorem namesMatch_concat_iff (names : List Text)
    (houter : ∀ segments, file.namesMatch (d.parent.bind fun i => file.declarations[i]?) segments = true ↔
      List.Forall₂ (fun name segment => Text.eqIgnoreCase name segment = true)
        (names.reverse.take segments.length) segments) (segments : List Text) :
    file.namesMatch (some d) segments = true ↔
      List.Forall₂ (fun name segment => Text.eqIgnoreCase name segment = true)
        ((if d.kind = .namespace then [] else names ++ [d.name]).reverse.take segments.length) segments := by
  cases segments with
  | nil => exact iff_of_true (namesMatch_nil file _) (by simp)
  | cons segment segments =>
    rw [namesMatch_cons]
    by_cases hkind : d.kind = .namespace
    · simp [hkind]
    · rw [if_neg hkind, List.reverse_append, List.reverse_singleton, List.singleton_append, List.length_cons,
        List.take_succ_cons, List.forall₂_cons, houter]
      exact and_iff_right hkind

/-- **How far the walk comes:** the segments, from the last one on, are the names up the lineage to the innermost
namespace. Induction on the lineage. -/
theorem namesMatch_iff (h : file.IsLineage d ds) (segments : List Text) :
    file.namesMatch (some d) segments = true ↔
      List.Forall₂ (fun name segment => Text.eqIgnoreCase name segment = true)
        ((localNames ds).reverse.take segments.length) segments := by
  induction h generalizing segments with
  | @outermost d hparent =>
    -- nothing is around it, and a path with a further segment goes too far
    rw [← List.nil_append [d], localNames_concat]
    refine namesMatch_concat_iff [] (fun segments => ?_) segments
    rw [hparent]
    cases segments with
    | nil => exact iff_of_true (namesMatch_nil file _) (by simp)
    | cons segment segments => exact iff_of_false Bool.false_ne_true (by simp)
  | @inner d outer i ds hparent houter _ ih =>
    rw [localNames_concat]
    refine namesMatch_concat_iff (localNames ds) (fun segments => ?_) segments
    rw [hparent, Option.bind_some, houter]
    exact ih segments

/-! ## The paths -/

theorem IsPathOf.of_append {names : List Text} {front path : Text} (h : IsPathOf names (front ++ '.' :: path)) :
    ∃ rest, rest <:+ names ∧ IsPathOf rest path := by
  unfold IsPathOf at h
  rw [List.splitOn_append_cons_self] at h
  exact ⟨_, List.drop_suffix _ _, List.forall₂_drop_append _ _ _ h⟩

/-- Only an empty name gives an empty segment. -/
theorem IsPathOf.nil_mem {names : List Text} {path : Text} (h : IsPathOf names path) (hempty : [] ∈ path.splitOn '.') :
    [] ∈ names := by
  obtain ⟨i, hi, hsegment⟩ := List.mem_iff_getElem.mp hempty
  have hlength := h.length_eq
  have hname : i < names.length := hlength ▸ hi
  have hsame : Text.eqIgnoreCase names[i] (path.splitOn '.')[i] = true := (List.forall₂_iff_get.mp h).2 i hname hi
  rw [hsegment] at hsame
  have hnil : names[i] = [] := List.map_eq_nil_iff.mp (eq_of_beq hsame)
  exact hnil ▸ List.getElem_mem hname

/-- A path addresses a declaration by the last ones of its local names. -/
theorem matchesPath_iff (h : file.IsLineage d ds) (path : Text) :
    file.matchesPath d path = true ↔ ∃ names, names <:+ localNames ds ∧ IsPathOf names path := by
  unfold matchesPath
  rw [namesMatch_iff h]
  exact exists_suffix_forall₂_iff.symm

theorem kind_ne_of_matchesPath {path : Text} (h : file.matchesPath d path = true) : d.kind ≠ .namespace := by
  obtain ⟨segment, segments, hsegments⟩ :=
    List.exists_cons_of_ne_nil (mt List.reverse_eq_nil_iff.mp (List.splitOn_ne_nil '.' path))
  unfold matchesPath at h
  rw [hsegments, namesMatch_cons] at h
  exact h.1

/-- **The paths that address a declaration** of a file. The declaration has one lineage, and the path addresses it
just where its segments are the last ones of the local names there, up to case, and it is no namespace. What is left
of such a path without its first segments addresses the declaration as well; a path with an empty segment, or with
one for a namespace around the declaration, addresses nothing. -/
theorem matchesPath_iff_suffix (h : parse? text = some file) (hd : d ∈ file.declarations) :
    ∃ ds, file.IsLineage d ds ∧ (∀ ds', file.IsLineage d ds' → ds' = ds) ∧
      (∀ path, file.matchesPath d path = true ↔
        d.kind ≠ .namespace ∧ ∃ names, names <:+ localNames ds ∧ IsPathOf names path) ∧
      (∀ front path, file.matchesPath d (front ++ '.' :: path) = true → file.matchesPath d path = true) ∧
      (∀ path, [] ∈ path.splitOn '.' → file.matchesPath d path = false) ∧
      ∀ path around n within, ds = around ++ n :: within → n.kind = .namespace →
        within.length < (path.splitOn '.').length → file.matchesPath d path = false := by
  obtain ⟨ds, hds⟩ := exists_isLineage h hd
  refine ⟨ds, hds, fun ds' => hds.unique, ?_, ?_, ?_, ?_⟩
  · intro path
    constructor
    · intro hmatch
      exact ⟨kind_ne_of_matchesPath hmatch, (matchesPath_iff hds path).mp hmatch⟩
    · exact fun hnames => (matchesPath_iff hds path).mpr hnames.2
  · intro front path hmatch
    obtain ⟨names, hsuffix, hpath⟩ := (matchesPath_iff hds _).mp hmatch
    obtain ⟨rest, hrest, hpath⟩ := hpath.of_append
    exact (matchesPath_iff hds path).mpr ⟨rest, hrest.trans hsuffix, hpath⟩
  · intro path hempty
    refine Bool.eq_false_iff.mpr fun hmatch => ?_
    obtain ⟨names, hsuffix, hpath⟩ := (matchesPath_iff hds path).mp hmatch
    -- a name that is no namespace's is an identifier, and not empty
    obtain ⟨e, he, hkind, hname⟩ := exists_of_mem_localNames (hsuffix.subset (hpath.nil_mem hempty))
    exact name_ne_nil_of_parse? h (hds.mem_declarations hd e he) hkind hname
  · rintro path around n within rfl hn hlong
    refine Bool.eq_false_iff.mpr fun hmatch => ?_
    obtain ⟨names, hsuffix, hpath⟩ := (matchesPath_iff hds path).mp hmatch
    have hlength : names.length = (path.splitOn '.').length := hpath.length_eq
    have hle := Nat.le_trans hsuffix.length_le (length_localNames_le around within hn)
    omega

/-- A method in a type in a namespace, with which the source puts a type around the namespace. -/
def namespaceBetweenTypes : Text := "class Outer \x7b namespace N \x7b class Inner \x7b int F() => 1; \x7d \x7d \x7d".toList

/-- Its paths go up to the inner type, and no further. -/
theorem matchesPath_iff_suffix_namespaceBetweenTypes :
    ∃ file d ds, parse? namespaceBetweenTypes = some file ∧ d ∈ file.declarations ∧ file.IsLineage d ds ∧
      ds.map Declaration.name = ["Outer", "N", "Inner", "F"].map String.toList ∧
      localNames ds = ["Inner", "F"].map String.toList ∧
      file.matchesPath d ("inner".toList ++ '.' :: "F".toList) = true ∧ file.matchesPath d "F".toList = true ∧
      ([] ∈ "Inner..F".toList.splitOn '.' ∧ file.matchesPath d "Inner..F".toList = false) ∧
      2 < ("Outer.N.Inner.F".toList.splitOn '.').length ∧ file.matchesPath d "Outer.N.Inner.F".toList = false := by
  have hsome : (parse? namespaceBetweenTypes).any (fun file =>
      file.declarations.toList.map (fun d => (d.kind, d.name, d.parent)) =
        [(.type, "Outer".toList, none), (.namespace, "N".toList, some 0), (.type, "Inner".toList, some 1),
          (.method, "F".toList, some 2)]) = true := by decide +kernel
  obtain ⟨file, hfile, hdeclared⟩ := (Option.any_eq_true _ _).mp hsome
  obtain ⟨outer, _, hlist, houter, hdeclared⟩ := List.map_eq_cons_iff.mp (of_decide_eq_true hdeclared)
  obtain ⟨n, _, rfl, hn, hdeclared⟩ := List.map_eq_cons_iff.mp hdeclared
  obtain ⟨inner, _, rfl, hinner, hdeclared⟩ := List.map_eq_cons_iff.mp hdeclared
  obtain ⟨d, _, rfl, hd, hdeclared⟩ := List.map_eq_cons_iff.mp hdeclared
  obtain rfl := List.map_eq_nil_iff.mp hdeclared
  simp only [Prod.mk.injEq] at houter hn hinner hd
  have hat : ∀ i, file.declarations[i]? = [outer, n, inner, d][i]? := fun i => by rw [← hlist, Array.getElem?_toList]
  have hmem : d ∈ file.declarations := Array.mem_of_getElem? (hat 3)
  have hlineage : file.IsLineage d [outer, n, inner, d] :=
    .inner hd.2.2 (hat 2) (.inner hinner.2.2 (hat 1) (.inner hn.2.2 (hat 0) (.outermost houter.2.2)))
  obtain ⟨ds, hds, -, hpaths, hfront, hempty, hthrough⟩ := matchesPath_iff_suffix hfile hmem
  obtain rfl := hlineage.unique hds
  have hlocal : localNames [outer, n, inner, d] = ["Inner", "F"].map String.toList := by
    simp [localNames, List.rtakeWhile, hn, hinner, hd]
  have hboth : file.matchesPath d ("inner".toList ++ '.' :: "F".toList) = true := by
    refine (hpaths _).mpr ⟨by simp [hd], _, List.suffix_refl _, ?_⟩
    rw [hlocal]
    have hsplit : ("inner".toList ++ '.' :: "F".toList).splitOn '.' = ["inner".toList, "F".toList] := by decide +kernel
    rw [IsPathOf, hsplit]
    exact .cons (by decide) (.cons (by decide) .nil)
  have hdots : [] ∈ "Inner..F".toList.splitOn '.' := by decide +kernel
  have hlong : 2 < ("Outer.N.Inner.F".toList.splitOn '.').length := by decide +kernel
  refine ⟨file, d, _, hfile, hmem, hlineage, by simp [houter, hn, hinner, hd], hlocal, hboth, hfront _ _ hboth,
    ⟨hdots, hempty _ hdots⟩, hlong, ?_⟩
  exact hthrough _ [outer] n [inner, d] rfl hn.1 hlong

end Excerpt.SourceFile
