import Excerpt.Proofs.Source.Coverage
import Excerpt.Proofs.Source.Headings

/-!
# Excerpt — declarations are named by identifiers

What a declaration is called stands in the code: the name of a type, method, constructor, property or delegate is an
identifier of its header, without the signs in front of it. No identifier consists of such signs alone, so none of
these names is empty. Only the name of a namespace is spelled by several tokens, and can be missing.

* **`Code.HasIdent`** — the code holds an identifier that gives the name.
* **`Member.hasIdent_of_read`** — the names that reading one member gives.
* **`Outline.named_next`**, **`Outline.named_of_reaches`** — a step and a run.
* **`SourceFile.hasIdent_of_parse?`**, **`SourceFile.name_ne_nil_of_parse?`** — the names of a source file.
-/

namespace Excerpt

/-- The code holds an identifier that gives the name. -/
def Code.HasIdent (code : List Code) (name : Text) : Prop := ∃ t ∈ code, t.kind = .ident ∧ t.plainName = name

theorem Code.HasIdent.mono {code code' : List Code} {name : Text} (h : HasIdent code name) (hsub : code ⊆ code') :
    HasIdent code' name := by
  obtain ⟨t, ht, hident⟩ := h
  exact ⟨t, hsub ht, hident⟩

namespace Header

open Code (HasIdent)

/-! ## Names in a header -/

/-- A place of some code with what is around it is all of the code. Induction along the code. -/
theorem append_eq_of_mem_topLevel {depth : Nat} {before code : List Code} {place : Place}
    (h : place ∈ topLevel depth before code) :
    place.before.reverse ++ place.token :: place.behind = before.reverse ++ code := by
  induction code generalizing depth before with
  | nil => simp [topLevel] at h
  | cons t rest ih =>
    have hstep : ∀ depth', place ∈ topLevel depth' (t :: before) rest →
        place.before.reverse ++ place.token :: place.behind = before.reverse ++ t :: rest := by
      intro depth' hmem
      rw [ih hmem, List.reverse_cons, List.append_assoc, List.singleton_append]
    have hhere : ∀ depth', place ∈ (if depth = 0 then ⟨before, t, rest⟩ :: topLevel depth' (t :: before) rest
          else topLevel depth' (t :: before) rest) →
        place.before.reverse ++ place.token :: place.behind = before.reverse ++ t :: rest := by
      intro depth' hmem
      split at hmem
      · rcases List.mem_cons.mp hmem with rfl | hlater
        · rfl
        · exact hstep depth' hlater
      · exact hstep depth' hmem
    unfold topLevel at h
    split at h
    · exact hhere _ h
    · exact hhere _ h
    · exact hstep _ h
    · exact hstep _ h
    · exact hhere _ h

theorem subset_of_mem_places {header : List Code} {place : Place} (h : place ∈ places header) :
    place.before ⊆ header ∧ place.behind ⊆ header := by
  have hall : place.before.reverse ++ place.token :: place.behind = header := append_eq_of_mem_topLevel h
  rw [← hall]
  constructor
  · intro t ht
    exact List.mem_append_left _ (List.mem_reverse.mpr ht)
  · intro t ht
    exact List.mem_append_right _ (List.mem_cons_of_mem _ ht)

theorem mem_places_of_findWord? {words : List Text} {header : List Code} {place : Place}
    (h : findWord? words header = some place) : place ∈ places header :=
  (List.takeWhile_sublist _).subset (List.mem_of_find?_eq_some h)

theorem hasIdent_of_typeName? {place : Place} {name : Text} (h : typeName? place = some name) :
    HasIdent place.behind name := by
  obtain ⟨before, token, behind⟩ := place
  cases behind with
  | nil => simp [typeName?] at h
  | cons t rest =>
    unfold typeName? at h
    dsimp only at h
    have hsub : (if token.isWord "record".toList && t.isOneOf ["class".toList, "struct".toList] then rest
        else t :: rest) ⊆ t :: rest := by
      split
      · exact List.subset_cons_self t rest
      · exact List.Subset.refl _
    generalize (if token.isWord "record".toList && t.isOneOf ["class".toList, "struct".toList] then rest
      else t :: rest) = tokens at h hsub
    cases tokens with
    | nil => simp at h
    | cons u tokens =>
      dsimp only at h
      split at h
      · next hident =>
        simp only [Bool.and_eq_true, decide_eq_true_eq] at hident
        exact ⟨u, hsub List.mem_cons_self, hident.1, Option.some.inj h⟩
      · cases h

theorem suffix_of_dropTypeArguments? {depth : Nat} {tokens rest : List Code}
    (h : dropTypeArguments? depth tokens = some rest) : rest <:+ tokens := by
  induction tokens generalizing depth with
  | nil => simp [dropTypeArguments?] at h
  | cons t tokens ih =>
    unfold dropTypeArguments? at h
    split at h
    · exact (ih h).trans (List.suffix_cons t tokens)
    · split at h
      · obtain rfl := Option.some.inj h
        exact List.suffix_cons t tokens
      · exact (ih h).trans (List.suffix_cons t tokens)
    · exact (ih h).trans (List.suffix_cons t tokens)

theorem mem_of_nameBefore? {before rest : List Code} {t : Code} (h : nameBefore? before = some (t, rest)) :
    t ∈ before ∧ t.kind = .ident := by
  cases before with
  | nil => simp [nameBefore?] at h
  | cons u before =>
    unfold nameBefore? at h
    dsimp only at h
    split at h
    · next v named hnamed =>
      -- the name is the nearest token, or that in front of the type arguments
      have hsuffix : v :: named <:+ u :: before := by
        split at hnamed
        · exact suffix_of_dropTypeArguments? hnamed
        · exact ⟨[], (Option.some.inj hnamed).symm⟩
      split at h
      · next hident =>
        obtain ⟨rfl, -⟩ := Prod.mk.inj (Option.some.inj h)
        exact ⟨hsuffix.subset List.mem_cons_self, hident⟩
      · cases h
    · cases h

theorem hasIdent_of_methodName? {enclosing : Option Enclosing} {places : List Place} {name : Text}
    (h : methodName? enclosing places = some name) : ∃ place ∈ places, HasIdent place.before name := by
  induction places with
  | nil => simp [methodName?] at h
  | cons place places ih =>
    have hlater : methodName? enclosing places = some name → ∃ p ∈ place :: places, HasIdent p.before name := by
      intro hmore
      obtain ⟨p, hp, hident⟩ := ih hmore
      exact ⟨p, List.mem_cons_of_mem place hp, hident⟩
    unfold methodName? at h
    split at h
    · exact hlater h
    · split at h
      · exact hlater h
      · next t before hbefore =>
        split at h
        · exact hlater h
        · split at h
          · cases h
          · split at h
            · cases h
            · obtain ⟨hmem, hkind⟩ := mem_of_nameBefore? hbefore
              exact ⟨place, List.mem_cons_self, t, hmem, hkind, Option.some.inj h⟩

theorem hasIdent_of_propertyName? {header : List Code} {name : Text} (h : propertyName? header = some name) :
    HasIdent header name := by
  unfold propertyName? at h
  split at h
  · next t _ _ hreverse =>
    split at h
    · next hident =>
      simp only [Bool.and_eq_true, decide_eq_true_eq] at hident
      have hmem : t ∈ header := List.mem_reverse.mp (by rw [hreverse]; exact List.mem_cons_self)
      exact ⟨t, hmem, hident.1.1, Option.some.inj h⟩
    · cases h
  · cases h

end Header

namespace Member

open Code (HasIdent)

/-! ## Names that one member gives -/

/-- The kind and the name of what the member declares or opens. -/
def declares? : Member → Option (DeclarationKind × Text)
  | whole declared _ => declared.map fun d => (d.kind, d.name)
  | opening kind name _ _ => some (kind, name)

theorem eq_some_of_declares?_declare {kind kind' : DeclarationKind} {name : Option Text} {name' : Text} {length : Nat}
    {body : Option BodyExtent} (h : (declare kind name length body).declares? = some (kind', name')) :
    name = some name' := by
  cases name with
  | none => cases h
  | some name => exact congrArg some (Prod.mk.inj (Option.some.inj h)).2

theorem declares?_asType (parts : Parts) (place : Header.Place) (name : Text) :
    (parts.asType place name).declares? = some (.type, name) := by
  unfold Parts.asType
  split
  · rfl
  · split <;> rfl

theorem header_subset (code : List Code) : (split code).header ⊆ code :=
  List.Subset.trans (List.take_subset _ _) (List.drop_subset _ _)

/-- **The name that a member gives is an identifier in its code**, but for that of a namespace. One case for each way
to read a member. -/
theorem hasIdent_of_read {enclosing : Option Enclosing} {code : List Code} {kind : DeclarationKind} {name : Text}
    (h : (read enclosing code).declares? = some (kind, name)) (hkind : kind ≠ .namespace) : HasIdent code name := by
  have hheader := header_subset code
  have hbefore : Header.methodName? enclosing (Header.places (split code).header) = some name → HasIdent code name := by
    intro hname
    obtain ⟨place, hplace, hident⟩ := Header.hasIdent_of_methodName? hname
    exact hident.mono (List.Subset.trans (Header.subset_of_mem_places hplace).1 hheader)
  unfold read at h
  dsimp only at h
  split at h
  · obtain ⟨rfl, -⟩ := Prod.mk.inj (Option.some.inj h)
    exact absurd rfl hkind
  · split at h
    · next place typeName htype =>
      obtain ⟨place', hplace, hrest⟩ := Option.bind_eq_some_iff.mp htype
      obtain ⟨name', hname, hpair⟩ := Option.bind_eq_some_iff.mp hrest
      obtain ⟨rfl, rfl⟩ := Prod.mk.inj (Option.some.inj hpair)
      rw [declares?_asType] at h
      obtain ⟨-, rfl⟩ := Prod.mk.inj (Option.some.inj h)
      have hbehind := (Header.subset_of_mem_places (Header.mem_places_of_findWord? hplace)).2
      exact (Header.hasIdent_of_typeName? hname).mono (List.Subset.trans hbehind hheader)
    · -- delegates and methods are named in front of their parameters, and a property at the end of its header
      split at h
      · cases h
      · split at h
        · exact hbefore (eq_some_of_declares?_declare h)
        · split at h
          · exact hbefore (eq_some_of_declares?_declare h)
          · split at h
            · exact (Header.hasIdent_of_propertyName? (eq_some_of_declares?_declare h)).mono hheader
            · cases h

end Member

namespace Outline

open OutlineNode (headingsAll)

/-! ## Names that a run gives -/

/-- A member adds what it declares or opens. -/
theorem headings_takeMember (r : Reading) (m : Member) :
    (r.takeMember m).headings =
      r.headings ++ m.declares?.toList.map fun (kind, name) => ⟨kind, name, r.pos, container r.outer⟩ := by
  cases m with
  | whole declared n =>
    rw [headings_takeMember_whole]
    cases declared <;> rfl
  | opening kind name header closable => exact headings_takeMember_opening r kind name header closable

/-- All names so far are identifiers in the code, but for those of namespaces. -/
def Reading.Named (code : List Code) (r : Reading) : Prop :=
  ∀ h ∈ r.headings, h.kind ≠ .namespace → Code.HasIdent code h.name

variable {code : List Code} {r : Reading}

/-- **One step keeps the names in the code.** -/
theorem named_next (hsound : r.Sound code) (h : r.Named code) : r.next.Named code := by
  unfold Reading.next
  split
  · exact h
  · next t rest hcode =>
    split
    · unfold Reading.Named
      rwa [headings_closeBlock]
    · intro heading hmem hkind
      rw [headings_takeMember] at hmem
      rcases List.mem_append.mp hmem with hold | hnew
      · exact h heading hold hkind
      · obtain ⟨⟨kind, name⟩, hdeclares, rfl⟩ := List.mem_map.mp hnew
        have hsub : t :: rest ⊆ code := by
          rw [← hcode, hsound.code_eq]
          exact List.drop_subset _ _
        exact (Member.hasIdent_of_read (Option.mem_toList.mp hdeclares) hkind).mono hsub

/-- **Every run keeps the names in the code.** -/
theorem named_of_reaches {r' : Reading} (hsound : r.Sound code) (h : r.Named code) (hreach : Reaches r r') :
    r'.Named code := by
  induction hreach with
  | refl r => exact h
  | step _ _ ih => exact ih (sound_next hsound) (named_next hsound h)

/-- What is declared in an outline is named by identifiers in its code, but for namespaces. -/
theorem named_of_read? {nodes : List OutlineNode} (h : read? code = some nodes) :
    ∀ heading ∈ headingsAll none 0 nodes, heading.kind ≠ .namespace → Code.HasIdent code heading.name := by
  have hnamed := named_of_reaches (sound_start code) (by simp [Reading.Named, Reading.headings, Reading.start, headings,
    headingsAll, OutlineNode.entriesAll]) (reaches_finish (.start code))
  rw [headingsAll_closeAll h]
  exact hnamed

end Outline

/-! ## Identifiers in a text -/

/-- An identifier is more than the signs in front of it. -/
theorem Lexeme.exists_ne_sign_of_recognise {c : Char} {more behind : Text}
    (h : recognise c (more ++ behind) = (.ident, more.length)) : ∃ d ∈ c :: more, d ≠ '@' := by
  by_cases hc : c = '@'
  · subst hc
    have hsign : afterAt (more ++ behind) = (.ident, more.length) := h
    have hverbatim : ∀ n s, after n (verbatimRest s) ≠ (.ident, more.length) := by
      intro n s
      unfold verbatimRest
      split <;> simp [after]
    unfold afterAt at hsign
    split at hsign
    · exact absurd hsign (hverbatim _ _)
    · exact absurd hsign (hverbatim _ _)
    · cases hsign
    · next d s _ _ _ hs =>
      split at hsign
      · next hstart =>
        -- a letter or an underscore follows the sign
        obtain ⟨-, hlength⟩ := Prod.mk.inj hsign
        cases more with
        | nil => simp at hlength
        | cons e more =>
          obtain ⟨rfl, -⟩ := List.cons.inj hs
          refine ⟨e, List.mem_cons_of_mem _ List.mem_cons_self, ?_⟩
          rintro rfl
          exact absurd hstart (by decide +kernel)
      · split at hsign <;> cases hsign
    · cases hsign
  · exact ⟨c, List.mem_cons_self, hc⟩

theorem plainName_ne_nil_of_mem_codeOf {text : Text} {t : Code} (ht : t ∈ codeOf (tokenize text))
    (hident : t.kind = .ident) : t.plainName ≠ [] := by
  obtain ⟨token, htoken, rfl⟩ := List.mem_map.mp ht
  obtain ⟨-, c, more, behind, -, htext, -, -, hlex⟩ :=
    (isCut_tokenize text).exists_append (List.mem_of_mem_filter htoken)
  have hkind : token.kind = .ident := hident
  rw [hkind] at hlex
  obtain ⟨d, hd, hne⟩ := Lexeme.exists_ne_sign_of_recognise hlex
  intro hnil
  have hsigns := List.dropWhile_eq_nil_iff.mp hnil d (by rw [htext]; exact hd)
  exact hne (of_decide_eq_true hsigns)

namespace SourceFile

variable {text : Text} {file : SourceFile}

/-- **A declaration is named by an identifier in the code**, unless it is a namespace. -/
theorem hasIdent_of_parse? (h : parse? text = some file) {d : Declaration} (hd : d ∈ file.declarations)
    (hkind : d.kind ≠ .namespace) : Code.HasIdent (codeOf (tokenize text)) d.name := by
  obtain ⟨nodes, hnodes, hheadings⟩ := declarations_eq_map_headings h
  have hmem := List.mem_map_of_mem (f := fun d : Declaration => (d.kind, d.name, d.anchor, d.parent)) hd.val
  rw [hheadings] at hmem
  obtain ⟨heading, hheading, heq⟩ := List.mem_map.mp hmem
  obtain ⟨hsame, hrest⟩ := Prod.mk.inj heq
  obtain ⟨hname, -⟩ := Prod.mk.inj hrest
  rw [← hname]
  exact Outline.named_of_read? hnodes heading hheading (by rwa [hsame])

/-- **No declaration has an empty name**, but for namespaces. -/
theorem name_ne_nil_of_parse? (h : parse? text = some file) {d : Declaration} (hd : d ∈ file.declarations)
    (hkind : d.kind ≠ .namespace) : d.name ≠ [] := by
  obtain ⟨t, ht, hident, hname⟩ := hasIdent_of_parse? h hd hkind
  rw [← hname]
  exact plainName_ne_nil_of_mem_codeOf ht hident

end SourceFile

end Excerpt
