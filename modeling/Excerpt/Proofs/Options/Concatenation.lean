import Excerpt.Proofs.Options.Written

/-!
# Excerpt — queries joined by an ampersand

A query assigns values to keys, one piece after the other, so a query behind another one has the last word: what it
assigns holds, and what it leaves alone is as the first one has it. This needs nothing of the pieces, which may be
empty, without an equals sign or with broken escapes; only a question mark at the start of the second query would be
dropped where that stands alone, and is a part of its first key behind the other one.

* **`Options.lookup_insertEntry`** — an entry that is put in changes what is found under its key alone.
* **`Options.lookup_parse`** — what is found under a key is what is assigned to it last.
* **`Options.pairs_append`** — the assignments of two queries that are joined.
* **`Options.raw_eq_some_iff`** — the last of the pairs whose key agrees, in any case, has the value.
* **`Options.lookup_parse_append`** — options of two queries that are joined are a union in which the second one has
  precedence.
-/

namespace Excerpt.Options

/-- The keys and values that a query has, in its order and with all repetitions. -/
def pairs (query : Text) : List (Text × Text) :=
  (((query.dropWhile (· = '?')).splitOn '&').filter (! List.isEmpty ·)).map pair

/-- What a query assigns to keys: its pairs with the keys in lower case. -/
def assignments (query : Text) : List (Text × Text) := (pairs query).map fun e => (Text.lower e.1, e.2)

theorem parse_eq_ofEntries (query : Text) : parse query = ofEntries (pairs query) := by
  rw [ofEntries, pairs, List.foldl_map]
  rfl

/-! ## What is found under a key -/

/-- **An entry that is put in** is found under its key, and under all others is what was there before. -/
theorem lookup_insertEntry (key value k : Text) (entries : List (Text × Text)) :
    (insertEntry key value entries).lookup k = if k = key then some value else entries.lookup k := by
  induction entries with
  | nil =>
    rw [insertEntry, List.lookup_cons, List.lookup_nil]
    by_cases hk : k = key
    · rw [beq_iff_eq.mpr hk, if_pos hk]
    · rw [beq_eq_false_iff_ne.mpr hk, if_neg hk]
  | cons e entries ih =>
    unfold insertEntry
    by_cases hk : k = key
    · subst hk
      rw [if_pos rfl]
      split
      · exact List.lookup_cons_self
      · next hne =>
        split
        · exact List.lookup_cons_self
        · rw [List.lookup_cons, beq_eq_false_iff_ne.mpr hne, ih, if_pos rfl]
    · have hbeq : (k == key) = false := beq_eq_false_iff_ne.mpr hk
      rw [if_neg hk] at ih ⊢
      split
      · next heq => rw [List.lookup_cons, hbeq, List.lookup_cons, ← heq, hbeq]
      · split
        · rw [List.lookup_cons, hbeq]
        · rw [List.lookup_cons, ih, List.lookup_cons]

/-- Of entries that are put in one by one, the last one is found, and behind them what was there before. Induction on
the entries. -/
theorem lookup_foldl_insert (entries : List (Text × Text)) (options : Options) (key : Text) :
    (entries.foldl (fun options entry => options.insert entry.1 entry.2) options).entries.lookup key =
      ((entries.map fun e => (Text.lower e.1, e.2)).reverse.lookup key).or (options.entries.lookup key) := by
  induction entries generalizing options with
  | nil => rfl
  | cons e entries ih =>
    rw [List.foldl_cons, ih, List.map_cons, List.reverse_cons, List.lookup_append, Option.or_assoc]
    congr 1
    rw [insert, lookup_insertEntry, List.lookup_cons, List.lookup_nil]
    by_cases hkey : key = Text.lower e.1
    · rw [if_pos hkey, beq_iff_eq.mpr hkey, Option.some_or]
    · rw [if_neg hkey, beq_eq_false_iff_ne.mpr hkey, Option.none_or]

/-- **What is found under a key** is what the query assigns to it last. -/
theorem lookup_parse (query key : Text) :
    (parse query).entries.lookup key = (assignments query).reverse.lookup key := by
  rw [parse_eq_ofEntries, ofEntries, lookup_foldl_insert]
  exact Option.or_none

/-- **The last of the pairs whose key agrees has the value:** it is found under every spelling of the key. -/
theorem raw_eq_some_iff {query key value : Text} :
    (parse query).raw key = some value ↔
      ∃ front spelling back, pairs query = front ++ (spelling, value) :: back ∧ Text.eqIgnoreCase key spelling = true ∧
        ∀ e ∈ back, Text.eqIgnoreCase key e.1 = false := by
  rw [raw, lookup_parse, assignments, ← List.map_reverse, List.lookup_eq_some_iff]
  constructor
  · rintro ⟨after, before, hparts, hafter⟩
    obtain ⟨back, rest, hpairs, rfl, hrest⟩ := List.map_eq_append_iff.mp hparts
    obtain ⟨⟨spelling, found⟩, front, rfl, hfound, rfl⟩ := List.map_eq_cons_iff.mp hrest
    obtain ⟨hspelling, rfl⟩ := Prod.mk.inj hfound
    refine ⟨front.reverse, spelling, back.reverse, ?_, ?_, ?_⟩
    · simpa using congrArg List.reverse hpairs
    · exact beq_iff_eq.mpr hspelling.symm
    · intro e he
      have hne := hafter _ (List.mem_map_of_mem (List.mem_reverse.mp he))
      exact beq_eq_false_iff_ne.mpr (bne_iff_ne.mp hne)
  · rintro ⟨front, spelling, back, hpairs, hspelling, hback⟩
    refine ⟨back.reverse.map fun e => (Text.lower e.1, e.2), front.reverse.map fun e => (Text.lower e.1, e.2), ?_, ?_⟩
    · rw [hpairs, List.reverse_append, List.map_append, List.reverse_cons, List.map_append, List.append_assoc,
        beq_iff_eq.mp hspelling]
      rfl
    · intro e he
      obtain ⟨f, hf, rfl⟩ := List.mem_map.mp he
      exact bne_iff_ne.mpr (beq_eq_false_iff_ne.mp (hback f (List.mem_reverse.mp hf)))

/-! ## Two queries -/

/-- Question marks are dropped in front of an ampersand as they are at the end. -/
theorem dropWhile_questionMark_append (q₁ q₂ : Text) :
    (q₁ ++ '&' :: q₂).dropWhile (· = '?') = q₁.dropWhile (· = '?') ++ '&' :: q₂ := by
  induction q₁ with
  | nil => rfl
  | cons c q₁ ih =>
    by_cases hc : c = '?'
    · simpa [hc] using ih
    · simp [hc]

/-- **The pairs of two queries that are joined** are those of the first one and those of the second. -/
theorem pairs_append (q₁ : Text) {q₂ : Text} (h : q₂.head? ≠ some '?') :
    pairs (q₁ ++ '&' :: q₂) = pairs q₁ ++ pairs q₂ := by
  have hsecond : q₂.dropWhile (· = '?') = q₂ := by
    cases q₂ with
    | nil => rfl
    | cons c q₂ => exact List.dropWhile_cons_of_neg (by simpa using h)
  rw [pairs, dropWhile_questionMark_append, List.splitOn_append_cons_self, List.filter_append, List.map_append]
  rw [pairs, pairs, hsecond]

/-- **Two queries joined by an ampersand are read as a union in which the second one has precedence:** under each key is
what the second one has there, or else what the first one has, and nothing else is anywhere. In any query, of the pairs
whose keys are one key in different case, the last one counts. -/
theorem lookup_parse_append (q₁ q₂ : Text) (h : q₂.head? ≠ some '?') :
    (∀ key, (parse (q₁ ++ '&' :: q₂)).entries.lookup key =
        ((parse q₂).entries.lookup key).or ((parse q₁).entries.lookup key)) ∧
      (∀ key, (parse (q₁ ++ '&' :: q₂)).raw key = ((parse q₂).raw key).or ((parse q₁).raw key)) ∧
        ∀ query key value, (parse query).raw key = some value ↔
          ∃ front spelling back, pairs query = front ++ (spelling, value) :: back ∧
            Text.eqIgnoreCase key spelling = true ∧ ∀ e ∈ back, Text.eqIgnoreCase key e.1 = false := by
  have hunion : ∀ key, (parse (q₁ ++ '&' :: q₂)).entries.lookup key =
      ((parse q₂).entries.lookup key).or ((parse q₁).entries.lookup key) := by
    intro key
    rw [lookup_parse, lookup_parse, lookup_parse, assignments, pairs_append q₁ h, List.map_append, List.reverse_append,
      List.lookup_append]
    rfl
  exact ⟨hunion, fun key => hunion (Text.lower key), fun _ _ _ => raw_eq_some_iff⟩

/-- The second query has a key of the first one in another case, an empty piece and a broken escape. -/
theorem lookup_parse_append_capitals :
    let q₁ := "?lang=c&body-only".toList
    let q₂ := "&Lang=%c&LANG=c%2B%2B".toList
    q₂.head? ≠ some '?' ∧ (parse (q₁ ++ '&' :: q₂)).raw "lang".toList = some "c++".toList ∧
      (parse (q₁ ++ '&' :: q₂)).raw "body-only".toList = some [] ∧
      (parse (q₁ ++ '&' :: q₂)).entries.lookup "Lang".toList = none := by
  intro q₁ q₂
  have hq : q₂.head? ≠ some '?' := by decide
  obtain ⟨hlookup, hraw, -⟩ := lookup_parse_append q₁ q₂ hq
  refine ⟨hq, ?_, ?_, ?_⟩
  · rw [hraw]
    decide +kernel
  · rw [hraw]
    decide +kernel
  · rw [hlookup]
    decide +kernel

end Excerpt.Options
