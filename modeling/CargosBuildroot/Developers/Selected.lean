import CargosBuildroot.Developers.File

/-! The developers that `get-developers` selects for patches. It tests whether the path of an
entry begins the name of a file as a text, and it looks for the name of an infrastructure in
paths that are absolute by then, where it cannot be. -/

namespace CargosBuildroot.Developers

open Shell Python

/-- The developers whose names the action for patches prints. -/
def matchingDevs (T : Tree) (devs : List Developer) (files infras : List Text) : List Text :=
  devs.foldl (fun matching dev =>
    infras.foldl (fun matching i =>
        if i ∈ dev.infras then matching.insert dev.name else matching)
      (files.foldl (fun matching f =>
        if dev.hasfile T f then matching.insert dev.name else matching) matching)) []

/-- `get-developers` with the texts of `DEVELOPERS` and of the patches; `none` when it stops at
a syntax error. -/
def getDevelopers (T : Tree) (text : Text) (patches : List Text) : Option (List Text) :=
  (parseDevelopers T text).map fun devs =>
    let (files, infras) := analyzePatches T patches
    matchingDevs T devs files infras

/-! ### The developers who are meant -/

section

variable (T : Tree) (ps : List Patch)

def Touched (f : Text) : Prop := ∃ p ∈ ps, p.Touches f

/-- The script reads the name in one of the patches. -/
def IsRead (f : Text) : Prop := ∃ p ∈ ps, p.Reads f

/-- The path is that of the makefile of a package infrastructure. -/
def InfraFile (infra path : Text) : Prop :=
  components true path =
    components true (abspath T.cwd ("package/pkg-".toList ++ infra ++ ".mk".toList))

/-- An entry of the record is a touched file or a directory above it, or the makefile of an
infrastructure that the patches use. -/
def Meant (r : Record) : Prop :=
  ∃ path ∈ r.paths T, (∃ f, Touched ps f ∧ Within (abspath T.cwd f) path) ∨
    ∃ infra, UsesInfra T ps infra ∧ InfraFile T infra path

/-- An entry covers a touched file whose name the script reads, and begins its absolute name. -/
def Found (r : Record) : Prop :=
  ∃ path ∈ r.paths T, ∃ f, Touched ps f ∧ IsRead ps f ∧ Within (abspath T.cwd f) path ∧
    path <+: abspath T.cwd f

/-- An entry ends inside a component of a name that the script reads and covers no part of it,
or it covers a name that is read where the patches touch no such file. -/
def Stray (r : Record) : Prop :=
  ∃ path ∈ r.paths T, ∃ f, IsRead ps f ∧
    ((EndsInside (abspath T.cwd f) path ∧ ¬ Within (abspath T.cwd f) path) ∨
      (¬ Touched ps f ∧ Within (abspath T.cwd f) path ∧ path <+: abspath T.cwd f))

/-- An entry is the makefile of an infrastructure that the patches use, or it covers a touched
file whose name is not read or does not begin with the path as it is written. -/
def Missed (r : Record) : Prop :=
  ∃ path ∈ r.paths T, (∃ infra, UsesInfra T ps infra ∧ InfraFile T infra path) ∨
    ∃ f, Touched ps f ∧ Within (abspath T.cwd f) path ∧
      (¬ IsRead ps f ∨ ¬ path <+: abspath T.cwd f)

end

variable {T : Tree} {ps : List Patch}

theorem meant_iff (r : Record) : Meant T ps r ↔ Found T ps r ∨ Missed T ps r := by
  constructor
  · rintro ⟨path, hpath, ⟨f, htouched, hwithin⟩ | hinfra⟩
    · by_cases h : IsRead ps f ∧ path <+: abspath T.cwd f
      · exact Or.inl ⟨path, hpath, f, htouched, h.1, hwithin, h.2⟩
      · rw [not_and_or] at h
        exact Or.inr ⟨path, hpath, Or.inr ⟨f, htouched, hwithin, h⟩⟩
    · exact Or.inr ⟨path, hpath, Or.inl hinfra⟩
  · rintro (⟨path, hpath, f, htouched, _, hwithin, _⟩ | ⟨path, hpath, hinfra | hmissed⟩)
    · exact ⟨path, hpath, Or.inl ⟨f, htouched, hwithin⟩⟩
    · exact ⟨path, hpath, Or.inr hinfra⟩
    · obtain ⟨f, htouched, hwithin, _⟩ := hmissed
      exact ⟨path, hpath, Or.inl ⟨f, htouched, hwithin⟩⟩

/-! ### The developers who are selected -/

/-- A loop that adds one name when it meets an element with the property. -/
theorem mem_insert_loop {α : Type*} {p : α → Prop} [DecidablePred p] {name x : Text} {l : List α}
    {s : List Text} : x ∈ l.foldl (fun s a => if p a then s.insert name else s) s ↔
      x ∈ s ∨ name = x ∧ ∃ a ∈ l, p a := by
  rw [foldl_collects (P := (x ∈ ·)) (Q := fun a => name = x ∧ p a)]
  · simp only [and_left_comm, exists_and_left]
  · intro s a
    split_ifs with ha
    · rw [List.mem_insert_iff, or_comm, eq_comm]
      simp [ha]
    · simp [ha]

theorem mem_matchingDevs {devs : List Developer} {files infras : List Text} {name : Text} :
    name ∈ matchingDevs T devs files infras ↔ ∃ dev ∈ devs, dev.name = name ∧
      ((∃ f ∈ files, dev.hasfile T f = true) ∨ ∃ i ∈ infras, i ∈ dev.infras) := by
  rw [matchingDevs, foldl_collects (P := (name ∈ ·)) (Q := fun dev : Developer => dev.name = name ∧
    ((∃ f ∈ files, dev.hasfile T f = true) ∨ ∃ i ∈ infras, i ∈ dev.infras))]
  · simp
  · intro matching dev
    rw [mem_insert_loop, mem_insert_loop, or_assoc, ← and_or_left]

theorem infraOfFile_absolute {fname : Text} (h : fname.head? = some '/') :
    infraOfFile fname = none := by
  obtain ⟨t, rfl⟩ : ∃ t, fname = '/' :: t := by
    cases fname with
    | nil => simp at h
    | cons c t => exact ⟨t, by simpa using h⟩
  obtain ⟨u, hu⟩ : ∃ u, beforeDollar ('/' :: t) = '/' :: u := by
    rw [beforeDollar]
    split_ifs with hlast
    · cases t with
      | nil => simp at hlast
      | cons d t => exact ⟨(d :: t).dropLast, rfl⟩
    · exact ⟨t, rfl⟩
  rw [infraOfFile, hu]
  rfl

theorem Record.paths_absolute (r : Record) : ∀ path ∈ r.paths T, path.head? = some '/' := by
  intro path hpath
  obtain ⟨e, _, hpath⟩ := List.mem_flatMap.mp hpath
  exact T.glob_absolute _ (join_absolute T.cwd_absolute e) path hpath

/-- No entry is the makefile of an infrastructure to the script, as the paths are absolute. -/
theorem Record.not_mem_infras (r : Record) (i : Text) : i ∉ (r.developer T).infras := by
  have h := foldl_collects (P := (i ∈ ·)) (f := fun infras fname => add infras (infraOfFile fname))
    (fun _ _ => mem_add) (r.paths T) []
  intro hi
  rcases h.mp hi with hi | ⟨path, hpath, hi⟩
  · simp at hi
  · rw [infraOfFile_absolute (r.paths_absolute path hpath)] at hi
    simp at hi

theorem hasfile_iff {dev : Developer} {f : Text} :
    dev.hasfile T f = true ↔ ∃ path ∈ dev.files, path <+: abspath T.cwd f := by
  simp only [Developer.hasfile, List.any_eq_true, List.isPrefixOf_iff_prefix]

theorem found_or_stray_iff (r : Record) : Found T ps r ∨ Stray T ps r ↔
    ∃ f, IsRead ps f ∧ (r.developer T).hasfile T f = true := by
  simp only [hasfile_iff]
  constructor
  · rintro (⟨path, hpath, f, _, hread, _, hbegins⟩ | ⟨path, hpath, f, hread, hstray⟩)
    · exact ⟨f, hread, path, hpath, hbegins⟩
    · rcases hstray with ⟨⟨c, rest, habs, _⟩, _⟩ | ⟨_, _, hbegins⟩
      · exact ⟨f, hread, path, hpath, c :: rest, habs.symm⟩
      · exact ⟨f, hread, path, hpath, hbegins⟩
  · rintro ⟨f, hread, path, hpath, hbegins⟩
    by_cases hwithin : Within (abspath T.cwd f) path
    · by_cases htouched : Touched ps f
      · exact Or.inl ⟨path, hpath, f, htouched, hread, hwithin, hbegins⟩
      · exact Or.inr ⟨path, hpath, f, hread, Or.inr ⟨htouched, hwithin, hbegins⟩⟩
    · have hends := (within_or_endsInside (abspath_dotless T.cwd_absolute f) hbegins).resolve_left
        hwithin
      exact Or.inr ⟨path, hpath, f, hread, Or.inl ⟨hends, hwithin⟩⟩

theorem mem_files_iff {f : Text} :
    f ∈ (analyzePatches T (ps.map Patch.text)).1 ↔ IsRead ps f := by
  simp only [mem_analyzePatches, List.mem_map, exists_exists_and_eq_and, mem_analyzePatch_text,
    IsRead]

/-- The developers selected are those with an entry that begins a name read in the patches. -/
theorem mem_getDevelopers {text : Text} {rs : List Record} (h : Records (readlines text) rs) :
    ∃ selected, getDevelopers T text (ps.map Patch.text) = some selected ∧
      ∀ name, name ∈ selected ↔ ∃ r ∈ rs, r.name = name ∧ (Found T ps r ∨ Stray T ps r) := by
  refine ⟨_, by rw [getDevelopers, parseDevelopers_records h]; rfl, fun name => ?_⟩
  simp only [mem_matchingDevs, List.mem_map, exists_exists_and_eq_and, Record.not_mem_infras,
    and_false, exists_false, or_false, mem_files_iff, found_or_stray_iff]
  rfl

/-- The script selects the developers who are meant exactly when, for everyone without an entry
that is rightly found, an entry strays to a name if and only if another is missed. -/
theorem selected_iff (T : Tree) (ps : List Patch) (text : Text) (rs : List Record)
    (h : Records (readlines text) rs) :
    (∃ selected, getDevelopers T text (ps.map Patch.text) = some selected ∧
      ∀ name, name ∈ selected ↔ ∃ r ∈ rs, r.name = name ∧ Meant T ps r) ↔
    ∀ name, (∀ r ∈ rs, r.name = name → ¬ Found T ps r) →
      ((∃ r ∈ rs, r.name = name ∧ Stray T ps r) ↔ ∃ r ∈ rs, r.name = name ∧ Missed T ps r) := by
  obtain ⟨selected, hrun, hselected⟩ := @mem_getDevelopers T ps text rs h
  have hright : (∃ selected, getDevelopers T text (ps.map Patch.text) = some selected ∧
      ∀ name, name ∈ selected ↔ ∃ r ∈ rs, r.name = name ∧ Meant T ps r) ↔
      ∀ name, name ∈ selected ↔ ∃ r ∈ rs, r.name = name ∧ Meant T ps r := by
    rw [hrun]
    simp
  rw [hright]
  refine forall_congr' fun name => ?_
  simp only [hselected, meant_iff, and_or_left, exists_or]
  by_cases hfound : ∃ r ∈ rs, r.name = name ∧ Found T ps r
  · obtain ⟨r, hr, hname, hr'⟩ := hfound
    constructor
    · intro _ hnone
      exact absurd hr' (hnone r hr hname)
    · intro _
      exact ⟨fun _ => Or.inl ⟨r, hr, hname, hr'⟩, fun _ => Or.inl ⟨r, hr, hname, hr'⟩⟩
  · have hnone : ∀ r ∈ rs, r.name = name → ¬ Found T ps r :=
      fun r hr hname hr' => hfound ⟨r, hr, hname, hr'⟩
    simp only [hfound, false_or]
    exact ⟨fun h _ => h, fun h => h hnone⟩

/-! ### A package whose name begins another -/

/-- The packages `foo` and `foobar` in a tree. -/
def packagesTree : Tree where
  cwd := "/top".toList
  glob pattern := if pattern = "/top/package/foo".toList ∨ pattern = "/top/package/foobar".toList
    then [pattern] else []
  read _ := none
  cwd_absolute := by decide
  glob_absolute pattern h p hp := by
    split_ifs at hp
    · rwa [List.mem_singleton.mp hp]
    · simp at hp

theorem newline_not_mem_dashes : ∀ l ∈ ["-- ".toList], '\n' ∉ l := by decide

/-- A patch that adds a file to `foobar`. -/
def foobarPatch : Patch where
  message := ["Subject: foobar: fix".toList]
  diffs := [{
    old := none
    new := some "package/foobar/fix.patch".toList
    header := ["diff --git a/package/foobar/fix.patch b/package/foobar/fix.patch".toList,
      "new file mode 100644".toList, "index 0000000..8a2bd5e".toList]
    hunks := some ["@@ -0,0 +1 @@".toList, "+fix".toList]
    header_lines := by decide
    hunks_lines := by decide }]
  trailer := ["-- ".toList]
  message_lines := by decide
  trailer_lines := newline_not_mem_dashes

def fooRecord : Record := ⟨"Foo <foo@a.org>".toList, ["package/foo".toList]⟩

def foobarFile : Text := "N: Bar <bar@a.org>\nF: package/foobar\n".toList

def packagesFile : Text :=
  "N: Foo <foo@a.org>\nF: package/foo\n\nN: Bar <bar@a.org>\nF: package/foobar\n".toList

def foobarRecord : Record := ⟨"Bar <bar@a.org>".toList, ["package/foobar".toList]⟩

theorem touched_foobarPatch {f : Text} :
    Touched [foobarPatch] f ↔ f = "package/foobar/fix.patch".toList := by
  simp [Touched, Patch.Touches, foobarPatch, eq_comm]

theorem isRead_foobarPatch : IsRead [foobarPatch] "package/foobar/fix.patch".toList :=
  ⟨foobarPatch, List.mem_singleton_self _, Or.inl ⟨_, List.mem_singleton_self _, _, rfl,
    Option.some_ne_none _, by decide, by decide⟩⟩

theorem not_usesInfra_foobarPatch (infra : Text) :
    ¬ UsesInfra packagesTree [foobarPatch] infra := by
  rintro ⟨p, hp, ⟨d, hd, ls, hls, l, hl, _, _, heval⟩ | ⟨f, _, _, text, htext, _⟩⟩
  · obtain rfl := List.mem_singleton.mp hp
    obtain rfl := List.mem_singleton.mp hd
    obtain rfl := Option.some.inj hls
    have hadded : ∀ x ∈ ["@@ -0,0 +1 @@".toList, "+fix".toList], x.take 2 ≠ "+$".toList := by decide
    rcases heval with rfl | rfl <;> exact hadded _ hl rfl
  · exact absurd htext (Option.not_mem_none _)

theorem foo_stray : Stray packagesTree [foobarPatch] fooRecord := by
  refine ⟨"/top/package/foo".toList, by decide, _, isRead_foobarPatch, Or.inl ⟨?_, by decide⟩⟩
  exact ⟨'b', "ar/fix.patch".toList, by decide, by decide, by decide⟩

theorem not_meant_foo : ¬ Meant packagesTree [foobarPatch] fooRecord := by
  rintro ⟨path, hpath, ⟨f, htouched, hwithin⟩ | ⟨infra, hinfra, _⟩⟩
  · obtain rfl := touched_foobarPatch.mp htouched
    obtain rfl := List.mem_singleton.mp hpath
    exact absurd hwithin (by decide)
  · exact not_usesInfra_foobarPatch infra hinfra

theorem foobar_found : Found packagesTree [foobarPatch] foobarRecord :=
  ⟨"/top/package/foobar".toList, by decide, _, touched_foobarPatch.mpr rfl, isRead_foobarPatch,
    by decide, by decide⟩

theorem records_foobar : Records (readlines foobarFile) [foobarRecord] := by
  have hlines : readlines foobarFile =
      ["N: Bar <bar@a.org>\n".toList, "F: package/foobar\n".toList] := by decide
  rw [hlines]
  exact .last (t := " Bar <bar@a.org>".toList) (by decide) (by decide)
    (.entry (t := " package/foobar".toList) (by decide) .nil)

theorem records_packages : Records (readlines packagesFile) [fooRecord, foobarRecord] := by
  have hlines : readlines packagesFile =
      "N: Foo <foo@a.org>\n".toList :: (["F: package/foo\n".toList] ++ "\n".toList ::
        readlines foobarFile) := by decide
  rw [hlines]
  exact .record (t := " Foo <foo@a.org>".toList) (by decide) (by decide) (by decide)
    (.entry (t := " package/foo".toList) (by decide) .nil) records_foobar

theorem selected_foobar : ∃ selected,
    getDevelopers packagesTree foobarFile ([foobarPatch].map Patch.text) = some selected ∧
    ∀ name, name ∈ selected ↔ ∃ r ∈ [foobarRecord], r.name = name ∧
      Meant packagesTree [foobarPatch] r := by
  refine (selected_iff packagesTree [foobarPatch] _ [foobarRecord] records_foobar).mpr ?_
  intro name hnone
  have hname : foobarRecord.name ≠ name :=
    fun h => hnone foobarRecord (List.mem_singleton_self _) h foobar_found
  simp [hname]

theorem foo_selected :
    Records (readlines packagesFile) [fooRecord, foobarRecord] ∧
    ¬ ∃ selected,
      getDevelopers packagesTree packagesFile ([foobarPatch].map Patch.text) = some selected ∧
      ∀ name, name ∈ selected ↔ ∃ r ∈ [fooRecord, foobarRecord], r.name = name ∧
        Meant packagesTree [foobarPatch] r := by
  refine ⟨records_packages, ?_⟩
  rintro ⟨selected, hrun, hmeant⟩
  obtain ⟨selected', hrun', hselected⟩ := @mem_getDevelopers packagesTree [foobarPatch] _ _
    records_packages
  obtain rfl := Option.some.inj (hrun.symm.trans hrun')
  obtain ⟨r, hr, hname, hr'⟩ := (hmeant fooRecord.name).mp
    ((hselected _).mpr ⟨fooRecord, List.mem_cons_self, rfl, Or.inr foo_stray⟩)
  rcases List.mem_cons.mp hr with rfl | hr
  · exact not_meant_foo hr'
  · obtain rfl := List.mem_singleton.mp hr
    exact absurd hname (by decide)

end CargosBuildroot.Developers
