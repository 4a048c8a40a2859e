import Excerpt.Options
import Excerpt.Proofs.Text.Trimming
import Excerpt.Proofs.Text.Utf8
import Mathlib.Data.List.Basic

/-!
# Excerpt — options written as a query and read again

A query is written for options with every byte of their keys and values behind a percent sign, so that none of the
characters with a meaning of their own is left in them. Whatever the keys and the values hold, they are read back from
it; and as keys are put in lower case where they are read, this gives back all options whose keys have no capitals,
which are those that some query stands for.

* **`Options.written`** — the query that is written for options.
* **`Options.component_written`**, **`Options.pair_written`** — what is written for a text, and for a key with its
  value, is read as that.
* **`Options.IsOrdered`**, **`Options.insertEntry_perm`** — options are a finite map, told by their entries in any order.
* **`Options.parse_writtenPairs`** — options are read from their pairs in any order.
* **`Options.parse_written_perm`** — reading, writing and reading again gives what was read, and each entry is found again.
-/

namespace Excerpt

/-! ## Writing -/

/-- The hexadecimal digit of a value, in upper case. -/
def hexDigitOf (n : Nat) : Char := Char.ofNat (if n < 10 then '0'.toNat + n else 'A'.toNat + (n - 10))

theorem hexDigit?_hexDigitOf : ∀ n < 16, hexDigit? (hexDigitOf n) = some n := by decide

namespace Text

theorem isUpper_toLower (c : Char) : c.toLower.isUpper = false := by
  have hiff : ∀ n : UInt32, n ≥ 'A'.val ∧ n ≤ 'Z'.val ↔ 65 ≤ n.toNat ∧ n.toNat ≤ 90 := fun n =>
    and_congr UInt32.le_iff_toNat_le UInt32.le_iff_toNat_le
  unfold Char.toLower Char.isUpper
  rw [decide_eq_false_iff_not, hiff]
  split
  · next h =>
    -- the small letters stand 32 places behind the capitals, which are 26
    rw [hiff] at h
    have hgap : ('a'.val - 'A'.val).toNat = 32 := by decide
    have hsum : (c.val + ('a'.val - 'A'.val)).toNat = c.val.toNat + 32 := by
      rw [UInt32.toNat_add, hgap]
      exact Nat.mod_eq_of_lt (by omega)
    rw [hsum]
    omega
  · next h => rwa [hiff] at h

theorem toLower_eq_self {c : Char} (h : c.isUpper = false) : c.toLower = c := by
  unfold Char.isUpper at h
  unfold Char.toLower
  rw [dif_neg (of_decide_eq_false h)]

theorem isUpper_of_mem_lower {s : Text} : ∀ c ∈ lower s, c.isUpper = false := by
  intro c hc
  obtain ⟨d, -, rfl⟩ := List.mem_map.mp hc
  exact isUpper_toLower d

/-- A text without capitals is in lower case. -/
theorem lower_eq_self {s : Text} (h : ∀ c ∈ s, c.isUpper = false) : lower s = s := by
  refine (List.map_congr_left fun c hc => toLower_eq_self (h c hc)).trans (List.map_id s)

end Text

namespace Options

/-- The byte behind a percent sign. -/
def writtenByte (b : UInt8) : Text := ['%', hexDigitOf (b.toNat / 16), hexDigitOf (b.toNat % 16)]

/-- The component that is written for a text, byte for byte. -/
def writtenComponent (s : Text) : Text := (Utf8.encode s).flatMap writtenByte

def writtenPair (entry : Text × Text) : Text := writtenComponent entry.1 ++ '=' :: writtenComponent entry.2

/-- The query that is written for keys with their values, in the order in which they are given. -/
def writtenPairs (entries : List (Text × Text)) : Text := ['&'].intercalate (entries.map writtenPair)

/-- The query that is written for options. -/
def written (options : Options) : Text := writtenPairs options.entries

/-! ## Components -/

/-- **A byte is read from what is written for it**, whatever follows. -/
theorem componentBytes_writtenByte_append (b : UInt8) (s : Text) :
    componentBytes (writtenByte b ++ s) = b :: componentBytes s := by
  have hb : b.toNat < 256 := b.toNat_lt
  have hhigh := hexDigit?_hexDigitOf (b.toNat / 16) (by omega)
  have hlow := hexDigit?_hexDigitOf (b.toNat % 16) (by omega)
  have hsum : UInt8.ofNat (16 * (b.toNat / 16) + b.toNat % 16) = b := by
    rw [Nat.div_add_mod, UInt8.ofNat_toNat]
  simp only [writtenByte, List.cons_append, List.nil_append, componentBytes, hhigh, hlow, hsum]

theorem componentBytes_flatMap_writtenByte (bytes : List UInt8) :
    componentBytes (bytes.flatMap writtenByte) = bytes := by
  induction bytes with
  | nil => rfl
  | cons b bytes ih => rw [List.flatMap_cons, componentBytes_writtenByte_append, ih]

/-- **A text is read from the component that is written for it.** -/
theorem component_written (s : Text) : component (writtenComponent s) = s := by
  rw [component, writtenComponent, componentBytes_flatMap_writtenByte, Utf8.decodeLossy_encode]

/-- Whether the character has a meaning of its own in a query. -/
def isQueryMark (c : Char) : Bool := c = '&' || c = '=' || c = '?'

theorem isQueryMark_hexDigitOf : ∀ n < 16, isQueryMark (hexDigitOf n) = false := by decide

/-- No mark is left in what is written for a text. -/
theorem isQueryMark_of_mem_writtenComponent {s : Text} {c : Char} (h : c ∈ writtenComponent s) :
    isQueryMark c = false := by
  obtain ⟨b, -, hc⟩ := List.mem_flatMap.mp h
  have hb : b.toNat < 256 := b.toNat_lt
  simp only [writtenByte, List.mem_cons, List.not_mem_nil, or_false] at hc
  rcases hc with rfl | rfl | rfl
  · decide
  · exact isQueryMark_hexDigitOf _ (by omega)
  · exact isQueryMark_hexDigitOf _ (by omega)

/-! ## Pairs -/

/-- **A key and its value are read from the pair that is written for them.** -/
theorem pair_written (entry : Text × Text) : pair (writtenPair entry) = entry := by
  have hcut : Text.splitFirst? (· = '=') (writtenPair entry) =
      some (writtenComponent entry.1, writtenComponent entry.2) := by
    refine Text.splitFirst?_char_eq_some_iff.mpr ⟨rfl, fun hmem => ?_⟩
    exact absurd (isQueryMark_of_mem_writtenComponent hmem) (by decide)
  rw [pair, hcut]
  dsimp only
  rw [component_written, component_written]

theorem writtenPair_ne_nil (entry : Text × Text) : writtenPair entry ≠ [] := by
  simp [writtenPair]

theorem notMem_writtenPair (entry : Text × Text) : '&' ∉ writtenPair entry ∧ '?' ∉ writtenPair entry := by
  unfold writtenPair
  constructor <;> intro hmem <;> rcases List.mem_append.mp hmem with hkey | hrest
  · exact absurd (isQueryMark_of_mem_writtenComponent hkey) (by decide)
  · rcases List.mem_cons.mp hrest with heq | hvalue
    · exact absurd heq (by decide)
    · exact absurd (isQueryMark_of_mem_writtenComponent hvalue) (by decide)
  · exact absurd (isQueryMark_of_mem_writtenComponent hkey) (by decide)
  · rcases List.mem_cons.mp hrest with heq | hvalue
    · exact absurd heq (by decide)
    · exact absurd (isQueryMark_of_mem_writtenComponent hvalue) (by decide)

theorem notMem_writtenPairs (entries : List (Text × Text)) : '?' ∉ writtenPairs entries := by
  intro hmem
  rcases Text.mem_intercalate hmem with hsep | ⟨s, hs, hc⟩
  · exact absurd hsep (by decide)
  · obtain ⟨entry, -, rfl⟩ := List.mem_map.mp hs
    exact (notMem_writtenPair entry).2 hc

/-- A text without question marks is left alone where those at the start are dropped. -/
theorem dropWhile_questionMark {s : Text} (h : '?' ∉ s) : s.dropWhile (· = '?') = s := by
  cases s with
  | nil => rfl
  | cons c s =>
    refine List.dropWhile_cons_of_neg ?_
    simp only [decide_eq_true_eq]
    rintro rfl
    exact h List.mem_cons_self

/-- The pieces that are not empty are the pairs. -/
theorem filter_splitOn_writtenPairs (entries : List (Text × Text)) :
    ((writtenPairs entries).splitOn '&').filter (! List.isEmpty ·) = entries.map writtenPair := by
  cases entries with
  | nil => rfl
  | cons entry entries =>
    have hfree : ∀ s ∈ (entry :: entries).map writtenPair, '&' ∉ s := by
      intro s hs
      obtain ⟨e, -, rfl⟩ := List.mem_map.mp hs
      exact (notMem_writtenPair e).1
    rw [writtenPairs, List.splitOn_intercalate '&' hfree (by simp), List.filter_eq_self]
    intro s hs
    obtain ⟨e, -, rfl⟩ := List.mem_map.mp hs
    simpa [List.isEmpty_iff] using writtenPair_ne_nil e

/-- The entries put in one by one. -/
def ofEntries (entries : List (Text × Text)) : Options :=
  entries.foldl (fun options entry => options.insert entry.1 entry.2) empty

/-- What is read from written pairs is these put in one by one. -/
theorem parse_writtenPairs_eq (entries : List (Text × Text)) : parse (writtenPairs entries) = ofEntries entries := by
  unfold parse ofEntries
  dsimp only
  rw [dropWhile_questionMark (notMem_writtenPairs entries), filter_splitOn_writtenPairs, List.foldl_map]
  simp only [pair_written]

/-! ## Options as finite maps -/

/-- The entries are in the order of their keys, each key once. -/
def IsOrdered (options : Options) : Prop := options.entries.Pairwise fun e f => e.1 < f.1

instance (options : Options) : Decidable options.IsOrdered :=
  inferInstanceAs (Decidable (options.entries.Pairwise fun e f => e.1 < f.1))

theorem isOrdered_empty : empty.IsOrdered := List.Pairwise.nil

section Entries

variable {key value : Text} {entries : List (Text × Text)}

/-- An entry that is there after another one was put in is that one, or was there before. -/
theorem mem_insertEntry {e : Text × Text} (h : e ∈ insertEntry key value entries) : e = (key, value) ∨ e ∈ entries := by
  induction entries with
  | nil => exact Or.inl (List.mem_singleton.mp h)
  | cons f entries ih =>
    unfold insertEntry at h
    split at h
    · exact (List.mem_cons.mp h).imp_right (List.mem_cons_of_mem f)
    · split at h
      · exact List.mem_cons.mp h
      · rcases List.mem_cons.mp h with rfl | hrest
        · exact Or.inr List.mem_cons_self
        · exact (ih hrest).imp_right (List.mem_cons_of_mem f)

/-- The order of the keys is kept where an entry is put in. -/
theorem pairwise_insertEntry (h : entries.Pairwise fun e f => e.1 < f.1) :
    (insertEntry key value entries).Pairwise fun e f => e.1 < f.1 := by
  induction entries with
  | nil => exact List.pairwise_singleton _ _
  | cons e entries ih =>
    obtain ⟨hfirst, hrest⟩ := List.pairwise_cons.mp h
    unfold insertEntry
    split
    · next heq => exact List.pairwise_cons.mpr ⟨fun f hf => heq ▸ hfirst f hf, hrest⟩
    · next hne =>
      split
      · next hlt =>
        refine List.pairwise_cons.mpr ⟨fun f hf => ?_, h⟩
        rcases List.mem_cons.mp hf with rfl | hmem
        · exact hlt
        · exact List.lt_trans hlt (hfirst f hmem)
      · next hnot =>
        -- the new key is neither the first one nor before it, so it is behind it
        have hbehind : e.1 < key := (List.le_iff_lt_or_eq.mp (List.not_lt.mp hnot)).resolve_right (Ne.symm hne)
        refine List.pairwise_cons.mpr ⟨fun f hf => ?_, ih hrest⟩
        rcases mem_insertEntry hf with rfl | hmem
        · exact hbehind
        · exact hfirst f hmem

/-- **An entry with a new key is one more entry.** -/
theorem insertEntry_perm (h : key ∉ entries.map Prod.fst) :
    (insertEntry key value entries).Perm ((key, value) :: entries) := by
  induction entries with
  | nil => rfl
  | cons e entries ih =>
    rw [List.map_cons, List.mem_cons, not_or] at h
    unfold insertEntry
    rw [if_neg h.1]
    split
    · rfl
    · exact ((ih h.2).cons e).trans (List.Perm.swap (key, value) e entries)

end Entries

theorem isOrdered_insert {options : Options} (h : options.IsOrdered) (key value : Text) :
    (options.insert key value).IsOrdered :=
  pairwise_insertEntry h

/-- No capital is in a key. -/
def IsLowerCase (options : Options) : Prop := ∀ e ∈ options.entries, ∀ c ∈ e.1, c.isUpper = false

instance (options : Options) : Decidable options.IsLowerCase :=
  decidable_of_iff ((options.entries.all fun e => e.1.all fun c => ! c.isUpper) = true) (by simp [IsLowerCase])

theorem isLowerCase_insert {options : Options} (h : options.IsLowerCase) (key value : Text) :
    (options.insert key value).IsLowerCase := by
  intro e he
  rcases mem_insertEntry he with rfl | hmem
  · exact Text.isUpper_of_mem_lower
  · exact h e hmem

/-- **What a query stands for** is in order, and its keys are in lower case. Induction on the pieces of the query. -/
theorem isOrdered_parse (query : Text) : (parse query).IsOrdered ∧ (parse query).IsLowerCase := by
  unfold parse
  dsimp only
  generalize ((query.dropWhile (· = '?')).splitOn '&').filter (! List.isEmpty ·) = pieces
  have hstart : empty.IsOrdered ∧ empty.IsLowerCase := ⟨isOrdered_empty, by simp [IsLowerCase, empty]⟩
  revert hstart
  generalize empty = options
  induction pieces generalizing options with
  | nil => exact id
  | cons piece pieces ih => exact fun h => ih _ ⟨isOrdered_insert h.1 _ _, isLowerCase_insert h.2 _ _⟩

/-- Entries with different keys in lower case, put in one by one, are all there then, and nothing else. Induction on
the entries. -/
theorem entries_foldl_insert_perm {pairs : List (Text × Text)} {options : Options}
    (hnodup : ((options.entries ++ pairs).map Prod.fst).Nodup) (hlower : ∀ e ∈ pairs, ∀ c ∈ e.1, c.isUpper = false) :
    (pairs.foldl (fun options entry => options.insert entry.1 entry.2) options).entries.Perm
      (options.entries ++ pairs) := by
  induction pairs generalizing options with
  | nil => rw [List.append_nil]; rfl
  | cons e pairs ih =>
    have hmiddle : (options.entries ++ e :: pairs).Perm (e :: (options.entries ++ pairs)) := List.perm_middle
    have hkeys := (hmiddle.map Prod.fst).nodup hnodup
    rw [List.map_cons, List.nodup_cons, List.map_append] at hkeys
    have hinsert : (options.insert e.1 e.2).entries.Perm (e :: options.entries) := by
      rw [insert, Text.lower_eq_self (hlower e List.mem_cons_self)]
      exact insertEntry_perm fun hmem => hkeys.1 (List.mem_append_left _ hmem)
    have hall : ((options.insert e.1 e.2).entries ++ pairs).Perm (options.entries ++ e :: pairs) :=
      (hinsert.append_right pairs).trans hmiddle.symm
    refine (ih ((hall.map Prod.fst).symm.nodup hnodup) fun f hf => hlower f (List.mem_cons_of_mem e hf)).trans hall

/-- Two options in order with the same entries are the same. -/
theorem eq_of_perm {options other : Options} (h : options.IsOrdered) (hother : other.IsOrdered)
    (hperm : options.entries.Perm other.entries) : options = other := by
  have hentries : options.entries = other.entries :=
    hperm.eq_of_pairwise (fun e f _ _ hlt hgt => absurd hgt (List.lt_asymm hlt)) h hother
  cases options
  cases other
  exact congrArg Options.mk hentries

/-! ## Reading what was written -/

/-- **Options are read from their pairs**, in whatever order these are written. -/
theorem parse_writtenPairs {options : Options} (h : options.IsOrdered) (hlower : options.IsLowerCase)
    {pairs : List (Text × Text)} (hperm : pairs.Perm options.entries) : parse (writtenPairs pairs) = options := by
  have hnodup : (pairs.map Prod.fst).Nodup := by
    refine (hperm.map Prod.fst).symm.nodup (List.pairwise_map.mpr (h.imp ?_))
    intro e f hlt heq
    exact List.lt_irrefl _ (heq ▸ hlt)
  have hall : (parse (writtenPairs pairs)).entries.Perm pairs := by
    rw [parse_writtenPairs_eq]
    have hkeys : ((empty.entries ++ pairs).map Prod.fst).Nodup := hnodup
    exact entries_foldl_insert_perm hkeys fun e he => hlower e (hperm.subset he)
  exact eq_of_perm (isOrdered_parse _).1 h (hall.trans hperm)

/-- An entry is found under its key in any case. -/
theorem raw_of_mem {options : Options} (h : options.IsOrdered) (hlower : options.IsLowerCase) {e : Text × Text}
    (he : e ∈ options.entries) {key : Text} (hkey : Text.eqIgnoreCase key e.1 = true) : options.raw key = some e.2 := by
  have hsame : Text.lower key = e.1 := by
    rw [beq_iff_eq.mp hkey, Text.lower_eq_self (hlower e he)]
  obtain ⟨front, back, hparts⟩ := List.append_of_mem he
  have hbefore : ∀ f ∈ front, f.1 < e.1 := by
    intro f hf
    unfold IsOrdered at h
    rw [hparts] at h
    exact (List.pairwise_append.mp h).2.2 f hf e List.mem_cons_self
  rw [raw, hsame, List.lookup_eq_some_iff]
  refine ⟨front, back, hparts, fun f hf => bne_iff_ne.mpr ?_⟩
  intro heq
  exact List.lt_irrefl _ (heq ▸ hbefore f hf)

/-- **What is written for options is read as the options**, with its pairs in any order, where no key holds a capital;
so it is for all that a query stands for, and each of its entries is found under its key in any case. -/
theorem parse_written_perm :
    (∀ options : Options, options.IsOrdered → options.IsLowerCase →
      ∀ pairs, pairs.Perm options.entries → parse (writtenPairs pairs) = options) ∧
    ∀ query : Text, parse (parse query).written = parse query ∧
      ∀ e ∈ (parse query).entries, ∀ key, Text.eqIgnoreCase key e.1 = true → (parse query).raw key = some e.2 := by
  constructor
  · intro options hordered hlower pairs hperm
    exact parse_writtenPairs hordered hlower hperm
  · intro query
    obtain ⟨hordered, hlower⟩ := isOrdered_parse query
    exact ⟨parse_writtenPairs hordered hlower (List.Perm.refl _), fun e he key hkey => raw_of_mem hordered hlower he hkey⟩

/-- A key that is empty, a value of nothing but marks and one of longer characters, written last first; and a query
with a key in capitals. -/
theorem parse_written_perm_marksInValues :
    let options : Options := ⟨[([], "&=+%?".toList), ("lang".toList, "é €😀".toList)]⟩
    let query := "?LANG=c%2B%2b&&body-only".toList
    (options.IsOrdered ∧ options.IsLowerCase ∧ options.entries.reverse.Perm options.entries ∧
        parse (writtenPairs options.entries.reverse) = options) ∧
      parse (parse query).written = parse query ∧
        ("lang".toList, "c++".toList) ∈ (parse query).entries ∧
          Text.eqIgnoreCase "Lang".toList "lang".toList = true ∧
            (parse query).raw "Lang".toList = some "c++".toList := by
  intro options query
  have hordered : options.IsOrdered := by decide +kernel
  have hlower : options.IsLowerCase := by decide +kernel
  have hperm := List.reverse_perm options.entries
  have hmem : ("lang".toList, "c++".toList) ∈ (parse query).entries := by decide +kernel
  have hkey : Text.eqIgnoreCase "Lang".toList "lang".toList = true := by decide
  refine ⟨⟨hordered, hlower, hperm, ?_⟩, ?_, hmem, hkey, ?_⟩
  · exact parse_written_perm.1 options hordered hlower _ hperm
  · exact (parse_written_perm.2 query).1
  · exact (parse_written_perm.2 query).2 _ hmem _ hkey

end Options

end Excerpt
