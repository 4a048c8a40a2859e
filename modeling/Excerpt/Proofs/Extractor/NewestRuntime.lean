import Excerpt.Extractor.Benchmark
import Excerpt.Proofs.Number.WholeNumbers
import Excerpt.Proofs.Store.Directories
import Excerpt.Proofs.Store.Locators

/-!
# Excerpt — the newest runtime

The report of a benchmark class is looked for below one directory only, the one for the newest runtime. Which one that
is depends on the numbers in the names, and on the names themselves where the numbers are equal: neither the order in
which files have come into the store nor how the names compare as text makes a difference, and no report below another
directory is taken in place of one that is missing.

* **`Benchmark.foldl_later_spec`** — what is chosen out of directories in order.
* **`Benchmark.newest?_spec`** — the directory that is chosen.
* **`Benchmark.existingReport_eq`** — where the report is looked for.
* **`Benchmark.IsNewest`**, **`Benchmark.extract_newest`** — the newest runtime, and what is extracted.
-/

namespace Excerpt

namespace Benchmark

/-! ## The directories of runtimes -/

/-- The path of a directory in the release output of a project. -/
def runtimeDirectory (source name : Text) : Text := MemoryStore.normalize (releaseDirectory source) ++ '/' :: name

theorem runtimeDirectory_inj {source name other : Text}
    (h : runtimeDirectory source name = runtimeDirectory source other) : name = other :=
  (List.cons.inj (List.append_cancel_left h)).2

/-- The names of the directories in the release output of a project that begin with `net`, in order. -/
def runtimeNames (m : MemoryStore) (source : Text) : List Text :=
  (m.directoryNames (releaseDirectory source)).filter fun name => "net".toList.isPrefixOf name

theorem mem_runtimeNames_iff {m : MemoryStore} {source name : Text} :
    name ∈ runtimeNames m source ↔ m.HasDirectory (releaseDirectory source) name ∧ "net".toList <+: name := by
  rw [runtimeNames, List.mem_filter, MemoryStore.mem_directoryNames_iff, List.isPrefixOf_iff_prefix]

/-- The name of the directory of releases is left of its path. -/
theorem two_le_length_normalize (source : Text) : 2 ≤ (MemoryStore.normalize (releaseDirectory source)).length := by
  have hletters : 'b' ∈ releaseDirectory source ∧ 'i' ∈ releaseDirectory source := by
    unfold releaseDirectory Locator.join
    dsimp only
    split <;> simp
  have hb := MemoryStore.mem_normalize hletters.1 (by decide) (by decide) (by decide)
  have hi := MemoryStore.mem_normalize hletters.2 (by decide) (by decide) (by decide)
  by_contra hshort
  obtain ⟨c, hc⟩ := List.length_eq_one_iff.mp (Nat.le_antisymm (Nat.not_lt.mp hshort) (List.length_pos_of_mem hb))
  rw [hc, List.mem_singleton] at hb hi
  exact absurd (hb.trans hi.symm) (by decide)

/-- **Over files in memory, the report is looked for below the newest of these directories.** -/
theorem existingReport_toStore (m : MemoryStore) (source name : Text) :
    existingReport m.toStore source name =
      match newest? ((runtimeNames m source).map (runtimeDirectory source)) with
      | none => .error (.reportNotFound (releaseDirectory source))
      | some directory =>
        let path := reportPath directory source name
        if (m.content? path).isSome then .ok path else .error (.reportNotFound path) := by
  have hexists : m.toStore.directoryExists (releaseDirectory source) = ! (m.below (releaseDirectory source)).isEmpty :=
    rfl
  have hlisted : m.toStore.subdirectories (releaseDirectory source) "net*".toList =
      .ok ((runtimeNames m source).map (runtimeDirectory source)) :=
    MemoryStore.subdirectories_net m (List.ne_nil_of_length_pos (Nat.zero_lt_of_lt (two_le_length_normalize source)))
  have hfile : ∀ path, m.toStore.fileExists path = (m.content? path).isSome := fun _ => rfl
  unfold existingReport
  simp only [hexists, hlisted, hfile, Bool.not_not]
  split
  · next hbelow =>
    -- nothing lies below the release directory
    have hnone : runtimeNames m source = [] := by
      refine List.eq_nil_iff_forall_not_mem.mpr fun other hother => ?_
      obtain ⟨-, rest, content, hmem⟩ := (mem_runtimeNames_iff.mp hother).1
      have hrest := MemoryStore.mem_below_iff.mpr ⟨content, hmem⟩
      rw [List.isEmpty_iff.mp hbelow] at hrest
      cases hrest
    rw [hnone]
    rfl
  · rfl

/-- **A report lies below the directory that it is looked for in.** -/
theorem prefix_normalize_reportPath {directory : Text} (hplain : ∀ c ∈ directory, Locator.isSeparator c = false)
    (source name : Text) :
    runtimeDirectory source directory ++ ['/'] <+:
      MemoryStore.normalize (reportPath (runtimeDirectory source directory) source name) := by
  obtain ⟨more, hpath⟩ : ∃ more, reportPath (runtimeDirectory source directory) source name =
      MemoryStore.normalize (releaseDirectory source) ++ ('/' :: directory ++ '/' :: more ++ ['d']) :=
    ⟨"BenchmarkDotNet.Artifacts/results/".toList ++ Locator.fileName source ++ '.' :: name ++
      "-report-github.m".toList, by simp [reportPath, runtimeDirectory]⟩
  have hlast : ∀ c ∈ ('/' :: directory ++ '/' :: more ++ ['d']).getLast?, Locator.isSeparator c = false := by
    rw [List.getLast?_concat]
    rintro c ⟨⟩
    decide
  have hkept : (directory.map fun c => if c = '\\' then '/' else c) = directory :=
    MemoryStore.map_slash_eq_self fun hback => absurd (hplain _ hback) (by decide)
  rw [hpath, MemoryStore.normalize_append (two_le_length_normalize source) (by simp) hlast]
  simp [runtimeDirectory, hkept]

/-! ## The choice -/

/-- **What is chosen out of directories in order:** one of the latest, and of these the last one. Induction on the
directories behind the first one. -/
theorem foldl_later_spec {R : Binary64 × Text → Binary64 × Text → Prop} (hrefl : ∀ d, R d d) {first : Binary64 × Text}
    {rest : List (Binary64 × Text)} (h : (first :: rest).Pairwise R) :
    rest.foldl later first ∈ first :: rest ∧
      ∀ d ∈ first :: rest, d.1.orderKey < (rest.foldl later first).1.orderKey ∨
        d.1.orderKey = (rest.foldl later first).1.orderKey ∧ R d (rest.foldl later first) := by
  induction rest generalizing first with
  | nil => simp [hrefl]
  | cons second rest ih =>
    obtain ⟨hfirst, hrest⟩ := List.pairwise_cons.mp h
    obtain ⟨hsecond, hbehind⟩ := List.pairwise_cons.mp hrest
    rw [List.foldl_cons]
    by_cases hless : second.1.orderKey < first.1.orderKey
    · -- the second one is earlier than the first one, and so than what is chosen without it
      rw [later, if_pos hless]
      obtain ⟨hmem, hall⟩ := ih (List.pairwise_cons.mpr ⟨fun d hd => hfirst d (List.mem_cons_of_mem _ hd), hbehind⟩)
      obtain ⟨hbest, hothers⟩ := List.forall_mem_cons.mp hall
      refine ⟨?_, List.forall_mem_cons.mpr ⟨hbest, List.forall_mem_cons.mpr ⟨Or.inl ?_, hothers⟩⟩⟩
      · exact List.mem_cons.mpr ((List.mem_cons.mp hmem).imp id (List.mem_cons_of_mem _))
      · rcases hbest with hlater | ⟨hsame, -⟩ <;> omega
    · -- the first one is not later than the second one, and stands before all that may still be chosen
      rw [later, if_neg hless]
      obtain ⟨hmem, hall⟩ := ih hrest
      refine ⟨List.mem_cons_of_mem _ hmem, List.forall_mem_cons.mpr ⟨?_, hall⟩⟩
      have hbest := hall second List.mem_cons_self
      by_cases hsame : first.1.orderKey = (rest.foldl later second).1.orderKey
      · exact Or.inr ⟨hsame, hfirst _ hmem⟩
      · left
        omega

/-- The directories of the names, with the versions that they are named for; those that are named for none are left
out. -/
def versioned (source : Text) (names : List Text) : List (Binary64 × Text) :=
  names.filterMap fun name => (runtimeVersion? name).map fun version => (version, runtimeDirectory source name)

theorem mem_versioned_iff {source : Text} {names : List Text} {d : Binary64 × Text} :
    d ∈ versioned source names ↔
      ∃ name ∈ names, runtimeVersion? name = some d.1 ∧ d.2 = runtimeDirectory source name := by
  unfold versioned
  rw [List.mem_filterMap]
  refine exists_congr fun name => and_congr_right fun _ => ?_
  rw [Option.map_eq_some_iff]
  constructor
  · rintro ⟨version, hversion, rfl⟩
    exact ⟨hversion, rfl⟩
  · rintro ⟨hversion, hpath⟩
    exact ⟨d.1, hversion, Prod.ext rfl hpath.symm⟩

/-- The directories are in the order of their names. -/
theorem pairwise_versioned {source : Text} {names : List Text} (h : names.Pairwise fun a b => a < b ∨ a = b) :
    (versioned source names).Pairwise
      fun d e => ∀ a b, d.2 = runtimeDirectory source a → e.2 = runtimeDirectory source b → a < b ∨ a = b := by
  refine List.pairwise_filterMap.mpr (h.imp ?_)
  intro name other hle d hd e he a b ha hb
  obtain ⟨x, -, rfl⟩ := Option.map_eq_some_iff.mp hd
  obtain ⟨y, -, rfl⟩ := Option.map_eq_some_iff.mp he
  exact runtimeDirectory_inj ha ▸ runtimeDirectory_inj hb ▸ hle

theorem newest?_eq_versioned {source : Text} {names : List Text}
    (hplain : ∀ name ∈ names, name ≠ [] ∧ ∀ c ∈ name, Locator.isSeparator c = false) :
    newest? (names.map (runtimeDirectory source)) =
      match versioned source names with
      | [] => none
      | first :: rest => some (rest.foldl later first).2 := by
  have hversioned : (names.map (runtimeDirectory source)).filterMap
      (fun d => (runtimeVersion? (Locator.fileName d)).map fun version => (version, d)) = versioned source names := by
    rw [List.filterMap_map]
    refine List.filterMap_congr fun name hname => ?_
    obtain ⟨hne, hseparators⟩ := hplain name hname
    simp only [Function.comp_apply, runtimeDirectory, Locator.fileName_append hne hseparators]
  exact congrArg (fun l => match l with
    | [] => none
    | first :: rest => some (List.foldl later first rest).2) hversioned

/-- **The directory that is chosen** is one of those with the latest version, and of these the one with the last name;
there is none where no directory is named for a version. -/
theorem newest?_spec {source : Text} {names : List Text} (hsorted : names.Pairwise fun a b => a < b ∨ a = b)
    (hplain : ∀ name ∈ names, name ≠ [] ∧ ∀ c ∈ name, Locator.isSeparator c = false) :
    (newest? (names.map (runtimeDirectory source)) = none ∧ ∀ name ∈ names, runtimeVersion? name = none) ∨
      ∃ name ∈ names, ∃ x, runtimeVersion? name = some x ∧
        newest? (names.map (runtimeDirectory source)) = some (runtimeDirectory source name) ∧
        ∀ other ∈ names, ∀ y, runtimeVersion? other = some y →
          y.orderKey < x.orderKey ∨ y.orderKey = x.orderKey ∧ (other < name ∨ other = name) := by
  have hmem : ∀ name ∈ names, ∀ x, runtimeVersion? name = some x →
      (x, runtimeDirectory source name) ∈ versioned source names :=
    fun name hname x hx => mem_versioned_iff.mpr ⟨name, hname, hx, rfl⟩
  have hpairwise := @pairwise_versioned source names hsorted
  rw [newest?_eq_versioned hplain]
  cases hall : versioned source names with
  | nil =>
    refine Or.inl ⟨rfl, fun name hname => Option.eq_none_iff_forall_ne_some.mpr fun x hx => ?_⟩
    have hnone := hmem name hname x hx
    rw [hall] at hnone
    cases hnone
  | cons first rest =>
    rw [hall] at hpairwise
    obtain ⟨hbest, hothers⟩ := foldl_later_spec
      (fun d a b ha hb => Or.inr (runtimeDirectory_inj (ha.symm.trans hb))) hpairwise
    rw [← hall] at hbest hothers
    obtain ⟨name, hname, hversion, hpath⟩ := mem_versioned_iff.mp hbest
    refine Or.inr ⟨name, hname, _, hversion, congrArg some hpath, fun other hother y hy => ?_⟩
    refine (hothers _ (hmem other hother y hy)).imp id ?_
    exact fun ⟨hsame, hbefore⟩ => ⟨hsame, hbefore other name rfl hpath⟩

/-! ## Whole versions -/

theorem runtimeVersion?_net (suffix : Text) : runtimeVersion? ("net".toList ++ suffix) = Binary64.read? suffix := by
  unfold runtimeVersion?
  rw [List.isPrefixOf?_eq_some_iff_append_eq.mpr rfl]
  rfl

/-- The name is that of a directory for a version of the runtime: what follows `net` spells the version. -/
def NamesVersion (name : Text) (version : Int) : Prop :=
  ∃ suffix, name = "net".toList ++ suffix ∧ Binary64.SpellsInt suffix version

/-- A name of a version begins with `net`, and the version is read from it. -/
theorem runtimeVersion?_of_namesVersion {name : Text} {version : Int} (h : NamesVersion name version) :
    "net".toList <+: name ∧ ∃ x, runtimeVersion? name = some x := by
  obtain ⟨suffix, rfl, hspells⟩ := h
  obtain ⟨-, x, hx, -⟩ := Binary64.exists_read?_of_spellsInt hspells
  exact ⟨List.prefix_append _ _, x, (runtimeVersion?_net suffix).trans hx⟩

/-- Names of versions are ordered as the versions are. -/
theorem orderKey_lt_iff_of_namesVersion {name other : Text} {version otherVersion : Int} {x y : Binary64}
    (hname : NamesVersion name version) (hother : NamesVersion other otherVersion) (hx : runtimeVersion? name = some x)
    (hy : runtimeVersion? other = some y) : x.orderKey < y.orderKey ↔ version < otherVersion := by
  obtain ⟨suffix, rfl, hspells⟩ := hname
  obtain ⟨suffix', rfl, hspells'⟩ := hother
  rw [runtimeVersion?_net] at hx hy
  exact Binary64.orderKey_lt_iff hspells hspells' hx hy

/-- What follows `net` in the names of directories in the release output of a project spells a whole number, or nothing
that is read as a number. -/
def HasWholeVersions (m : MemoryStore) (source : Text) : Prop :=
  ∀ suffix, m.HasDirectory (releaseDirectory source) ("net".toList ++ suffix) →
    Binary64.read? suffix = none ∨ ∃ version, Binary64.SpellsInt suffix version

/-- **The directory is that of the newest runtime:** it is named for a version, no other one is named for a greater one,
and of those that are named for the same version it has the last name. -/
structure IsNewest (m : MemoryStore) (source name : Text) (version : Int) : Prop where
  listed : m.HasDirectory (releaseDirectory source) name
  named : NamesVersion name version
  greatest : ∀ other otherVersion, m.HasDirectory (releaseDirectory source) other → NamesVersion other otherVersion →
    otherVersion < version ∨ otherVersion = version ∧ (other < name ∨ other = name)

section Versions

variable {m : MemoryStore} {source : Text} (hversions : HasWholeVersions m source)

include hversions

/-- A directory that is latest by what is read of its name is that of the newest runtime. -/
theorem exists_isNewest {name : Text} {x : Binary64} (hlisted : m.HasDirectory (releaseDirectory source) name)
    (hnet : "net".toList <+: name) (hx : runtimeVersion? name = some x)
    (hgreatest : ∀ other, m.HasDirectory (releaseDirectory source) other → "net".toList <+: other →
      ∀ y, runtimeVersion? other = some y →
        y.orderKey < x.orderKey ∨ y.orderKey = x.orderKey ∧ (other < name ∨ other = name)) :
    ∃ version, IsNewest m source name version := by
  obtain ⟨suffix, rfl⟩ := hnet
  rcases hversions suffix hlisted with hnone | ⟨version, hspells⟩
  · rw [runtimeVersion?_net, hnone] at hx
    cases hx
  · have hnamed : NamesVersion ("net".toList ++ suffix) version := ⟨suffix, rfl, hspells⟩
    refine ⟨version, hlisted, hnamed, fun other otherVersion hother hotherNamed => ?_⟩
    obtain ⟨hnet, y, hy⟩ := runtimeVersion?_of_namesVersion hotherNamed
    have hless := orderKey_lt_iff_of_namesVersion hotherNamed hnamed hy hx
    have hmore := orderKey_lt_iff_of_namesVersion hnamed hotherNamed hx hy
    rcases hgreatest other hother hnet y hy with hbehind | ⟨hsame, hbefore⟩
    · exact Or.inl (hless.mp hbehind)
    · -- neither version is greater
      refine Or.inr ⟨?_, hbefore⟩
      rw [hsame] at hless hmore
      omega

/-- **Where the report of a benchmark class is looked for:** below the directory of the newest runtime, if there is
one. -/
theorem existingReport_eq (hplain : ∀ name, m.HasDirectory (releaseDirectory source) name →
      ∀ c ∈ name, Locator.isSeparator c = false) (name : Text) :
    (∃ newest version, IsNewest m source newest version ∧
        existingReport m.toStore source name =
          let path := reportPath (runtimeDirectory source newest) source name
          if (m.content? path).isSome then .ok path else .error (.reportNotFound path)) ∨
      (∀ other version, m.HasDirectory (releaseDirectory source) other → ¬ NamesVersion other version) ∧
        existingReport m.toStore source name = .error (.reportNotFound (releaseDirectory source)) := by
  have hsorted : (runtimeNames m source).Pairwise fun a b => a < b ∨ a = b :=
    (MemoryStore.pairwise_directoryNames m _).filter _
  have hsegments : ∀ other ∈ runtimeNames m source, other ≠ [] ∧ ∀ c ∈ other, Locator.isSeparator c = false := by
    intro other hother
    obtain ⟨hlisted, hnet⟩ := mem_runtimeNames_iff.mp hother
    refine ⟨?_, hplain other hlisted⟩
    rintro rfl
    exact absurd (List.prefix_nil.mp hnet) (by decide)
  rw [existingReport_toStore]
  rcases @newest?_spec source _ hsorted hsegments with ⟨hnone, hunread⟩ | ⟨newest, hmem, x, hx, hnewest, hgreatest⟩
  · refine Or.inr ⟨fun other version hlisted hnamed => ?_, by rw [hnone]⟩
    obtain ⟨hnet, x, hx⟩ := runtimeVersion?_of_namesVersion hnamed
    exact nomatch hx.symm.trans (hunread other (mem_runtimeNames_iff.mpr ⟨hlisted, hnet⟩))
  · obtain ⟨hlisted, hnet⟩ := mem_runtimeNames_iff.mp hmem
    obtain ⟨version, hisNewest⟩ := exists_isNewest hversions hlisted hnet hx fun other hother hotherNet =>
      hgreatest other (mem_runtimeNames_iff.mpr ⟨hother, hotherNet⟩)
    exact Or.inl ⟨newest, version, hisNewest, by rw [hnewest]⟩

end Versions

/-! ## What is extracted -/

/-- **The newest runtime wins.** Where the directories of a project's release output are named for whole versions, its
report is looked for below the one of the newest runtime; it is extracted from there, or there is none. Where none of
the directories is named for a version there is no report either. -/
theorem extract_newest {files : List (Text × Text)} {source : Text}
    (hversions : HasWholeVersions (.ofList files) source) (name : Text) {options : Options} {includeEnvironment : Bool}
    (henv : options.getBoolean "env".toList false = .ok includeEnvironment) :
    ((∃ directory version, (MemoryStore.ofList files).HasDirectory (releaseDirectory source) directory ∧
          NamesVersion directory version) →
        ∃ directory version path, IsNewest (.ofList files) source directory version ∧
          path = reportPath (runtimeDirectory source directory) source name ∧
          runtimeDirectory source directory ++ ['/'] <+: MemoryStore.normalize path ∧
          (∀ report, (MemoryStore.ofList files).content? path = some report →
            existingReport (MemoryStore.ofList files).toStore source name = .ok path ∧
              extract (MemoryStore.ofList files).toStore source name options =
                (.ok ⟨source, name, none, content includeEnvironment report, "markdown".toList⟩, true)) ∧
          ((MemoryStore.ofList files).content? path = none →
            existingReport (MemoryStore.ofList files).toStore source name = .error (.reportNotFound path) ∧
              extract (MemoryStore.ofList files).toStore source name options =
                (.error (.unavailable (.reportNotFound path)), false))) ∧
      ((∀ directory version, (MemoryStore.ofList files).HasDirectory (releaseDirectory source) directory →
          ¬ NamesVersion directory version) →
        existingReport (MemoryStore.ofList files).toStore source name =
            .error (.reportNotFound (releaseDirectory source)) ∧
          extract (MemoryStore.ofList files).toStore source name options =
            (.error (.unavailable (.reportNotFound (releaseDirectory source))), false)) := by
  have hplain := fun directory => @MemoryStore.isSeparator_of_hasDirectory files (releaseDirectory source) directory
  generalize MemoryStore.ofList files = m at hversions hplain ⊢
  have hmissing : ∀ path, existingReport m.toStore source name = .error (.reportNotFound path) →
      extract m.toStore source name options = (.error (.unavailable (.reportNotFound path)), false) := by
    intro path hpath
    unfold extract
    rw [henv, hpath]
  have hthere : ∀ path report, existingReport m.toStore source name = .ok path → m.content? path = some report →
      extract m.toStore source name options =
        (.ok ⟨source, name, none, content includeEnvironment report, "markdown".toList⟩, true) := by
    intro path report hpath hreport
    unfold extract
    rw [henv, hpath]
    dsimp only
    rw [MemoryStore.read_toStore hreport]
  rcases existingReport_eq hversions hplain name with ⟨newest, version, hnewest, hpath⟩ | ⟨hnone, hpath⟩
  · refine ⟨fun _ => ⟨newest, version, _, hnewest, rfl, ?_, fun report hreport => ?_, fun habsent => ?_⟩, ?_⟩
    · exact prefix_normalize_reportPath (hplain newest hnewest.listed) source name
    · have hfound : existingReport m.toStore source name = .ok _ := hpath.trans (if_pos (by rw [hreport]; rfl))
      exact ⟨hfound, hthere _ report hfound hreport⟩
    · have hfailed : existingReport m.toStore source name = .error _ :=
        hpath.trans (if_neg (by rw [habsent]; exact Bool.false_ne_true))
      exact ⟨hfailed, hmissing _ hfailed⟩
    · exact fun hnone => absurd hnewest.named (hnone newest version hnewest.listed)
  · refine ⟨fun ⟨directory, version, hlisted, hnamed⟩ => absurd hnamed (hnone directory version hlisted), fun _ => ?_⟩
    exact ⟨hpath, hmissing _ hpath⟩

/-- A report of an old runtime, and a newer runtime without one. -/
def runtimeFiles : List (Text × Text) :=
  [("Sort/bin/Release/net9.0/BenchmarkDotNet.Artifacts/results/Sort.Merge-report-github.md".toList, "| old |".toList),
    ("Sort/bin/Release/net10/Sort.dll".toList, []),
    ("Sort/bin/Release/netstandard2.0/Sort.dll".toList, [])]

/-- The report of the old runtime is not taken, though `net9.0` comes last as text. -/
theorem extract_newest_withoutReport :
    HasWholeVersions (.ofList runtimeFiles) "Sort".toList ∧
      Options.empty.getBoolean "env".toList false = .ok false ∧
      extract (MemoryStore.ofList runtimeFiles).toStore "Sort".toList "Merge".toList .empty =
        (.error (.unavailable (.reportNotFound
          "Sort/bin/Release/net10/BenchmarkDotNet.Artifacts/results/Sort.Merge-report-github.md".toList)), false) := by
  have hnames : ∀ name, (MemoryStore.ofList runtimeFiles).HasDirectory (releaseDirectory "Sort".toList) name ↔
      name ∈ ["net".toList ++ "standard2.0".toList, "net".toList ++ "10".toList, "net".toList ++ "9.0".toList] := by
    intro name
    rw [MemoryStore.hasDirectory_iff]
    exact iff_of_eq (congrArg (name ∈ ·) (by decide +kernel))
  have hstandard : Binary64.read? "standard2.0".toList = none := by decide +kernel
  have hten : Binary64.SpellsInt "10".toList (10 : Nat) :=
    .unsigned ⟨by decide, "10".toList, by decide, List.all_eq_true.mp rfl, by decide, Or.inl rfl⟩
  have hnine : Binary64.SpellsInt "9.0".toList (9 : Nat) :=
    .unsigned ⟨by decide, "9".toList, by decide, List.all_eq_true.mp rfl, by decide, Or.inr rfl⟩
  have hsuffix : ∀ suffix, (MemoryStore.ofList runtimeFiles).HasDirectory (releaseDirectory "Sort".toList)
      ("net".toList ++ suffix) → suffix = "standard2.0".toList ∨ suffix = "10".toList ∨ suffix = "9.0".toList := by
    intro suffix hlisted
    simpa only [List.mem_cons, List.not_mem_nil, or_false, List.append_cancel_left_eq] using (hnames _).mp hlisted
  have hversions : HasWholeVersions (.ofList runtimeFiles) "Sort".toList := by
    intro suffix hlisted
    rcases hsuffix suffix hlisted with rfl | rfl | rfl
    · exact Or.inl hstandard
    · exact Or.inr ⟨_, hten⟩
    · exact Or.inr ⟨_, hnine⟩
  have henv : Options.empty.getBoolean "env".toList false = .ok false := rfl
  have hlisted := (hnames ("net".toList ++ "10".toList)).mpr (List.mem_cons_of_mem _ List.mem_cons_self)
  obtain ⟨directory, version, path, ⟨hnewest, ⟨suffix, rfl, hspells⟩, hgreatest⟩, hpath, -, -, habsent⟩ :=
    (extract_newest hversions "Merge".toList henv).1 ⟨_, _, hlisted, _, rfl, hten⟩
  have hlater := hgreatest _ _ hlisted ⟨_, rfl, hten⟩
  rcases hsuffix suffix hnewest with rfl | rfl | rfl
  · obtain ⟨-, x, hx, -⟩ := Binary64.exists_read?_of_spellsInt hspells
    exact nomatch hstandard.symm.trans hx
  · obtain rfl : path =
      "Sort/bin/Release/net10/BenchmarkDotNet.Artifacts/results/Sort.Merge-report-github.md".toList :=
      hpath.trans (by decide +kernel)
    exact ⟨hversions, henv, (habsent (by decide +kernel)).2⟩
  · obtain rfl := hnine.unique hspells
    omega

end Benchmark

end Excerpt
