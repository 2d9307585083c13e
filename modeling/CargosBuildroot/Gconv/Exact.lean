import CargosBuildroot.Gconv.Expunge

/-! When `expunge-gconv-modules` filters. The cost of a directive is looked up by its source, the
direction from `INTERNAL` is made up from the one to it, charsets are split at a colon, and
aliases are written only for charsets with a conversion to `INTERNAL`. -/

namespace CargosBuildroot.Gconv

open Shell

/-! ### Reading the output -/

theorem directives_unlines {ls : List Text} (h : ∀ l ∈ ls, '\n' ∉ l) :
    directives (unlines ls) = ls.filterMap fun l => directive (words l) := by
  have hlines := lines_unlines h []
  rw [List.append_nil] at hlines
  rw [directives, hlines, List.filterMap_append]
  have hnil : (lines []).filterMap (fun l => directive (words l)) = [] := by decide
  rw [hnil, List.append_nil]

theorem isWord_internal : IsWord internal := ⟨by decide, no_space rfl⟩

theorem isWord_decimal (n : ℤ) : IsWord (decimal n) := by
  refine ⟨decimal_ne_nil n, fun c hc => ?_⟩
  by_contra hs
  simp only [isSpace, Bool.or_eq_true, decide_eq_true_eq, Bool.not_eq_false] at hs
  rcases hs with (rfl | rfl) | rfl <;> exact not_mem_decimal (by decide) (by decide) hc

theorem IsWord.no_newline {w : Text} (h : IsWord w) : '\n' ∉ w := by
  intro hmem
  exact absurd (h.2 _ hmem) (by decide)

theorem IsWord.words {w : Text} (h : IsWord w) : Shell.words w = [w] := words_of_word h.1 h.2

theorem words_tab (a b : Text) : words (a ++ '\t' :: b) = words a ++ words b :=
  words_append_space a b (by decide)

theorem words_aliasLine {name real : Text} (hname : IsWord name) (hreal : IsWord real) :
    words (aliasLine name real) = ["alias".toList, name, real] := by
  have hkeyword : words "alias".toList = ["alias".toList] := by decide
  unfold aliasLine
  rw [words_tab _ real, words_tab _ name, hname.words, hreal.words, hkeyword]
  rfl

theorem directive_aliasLine {name real : Text} (hname : IsWord name) (hreal : IsWord real) :
    directive (words (aliasLine name real)) = some (.alias name real) := by
  rw [words_aliasLine hname hreal]
  rfl

theorem words_moduleLine (source target : Text) {file : Text} (hfile : IsWord file) (cost : ℤ) :
    words (moduleLine source target file cost) =
      "module".toList :: (words source ++ words target ++ [file, decimal cost]) := by
  have hkeyword : words "module".toList = ["module".toList] := by decide
  unfold moduleLine
  rw [words_tab _ (decimal cost), words_tab _ file, words_tab _ target, words_tab _ source,
    hfile.words, (isWord_decimal cost).words, hkeyword]
  simp only [List.append_assoc, List.cons_append, List.nil_append]

theorem directive_moduleLine {source target file : Text} (hsource : IsWord source)
    (htarget : IsWord target) (hfile : IsWord file) (cost : Text) :
    directive (words (moduleLine source target file (awkInt cost))) =
      some (.module source target file (awkInt cost)) := by
  rw [words_moduleLine source target hfile, hsource.words, htarget.words]
  have hdirective : directive ["module".toList, source, target, file, decimal (awkInt cost)] =
      some (.module source target file (awkInt (decimal (awkInt cost)))) := by
    have hnot : ¬ "module".toList = "alias".toList := by decide
    rw [directive, if_neg (fun h => hnot h.1), if_pos ⟨rfl, numeric_decimal _⟩]
    rfl
  rw [awkInt_again] at hdirective
  exact hdirective

/-- A line with an empty charset has too few fields. -/
theorem directive_moduleLine_of_nil {source target file : Text} (hsource : source = [] ∨ IsWord source)
    (htarget : target = [] ∨ IsWord target) (hempty : source = [] ∨ target = []) (hfile : IsWord file)
    (cost : ℤ) : directive (words (moduleLine source target file cost)) = none := by
  have hshort : ∀ ws : List Text, ws.length ≤ 1 →
      directive ("module".toList :: (ws ++ [file, decimal cost])) = none := by
    intro ws hws
    have hnot : ¬ nth ("module".toList :: (ws ++ [file, decimal cost])) 1 = "alias".toList := by
      rw [nth, List.getD_cons_zero]
      decide
    have hnil : nth ("module".toList :: (ws ++ [file, decimal cost])) 5 = [] := by
      refine List.getD_eq_default _ _ ?_
      simp only [List.length_cons, List.length_append, List.length_nil]
      omega
    rw [directive, if_neg (fun h => hnot h.1), if_neg]
    rintro ⟨-, hnumeric⟩
    rw [hnil] at hnumeric
    exact absurd hnumeric (by decide)
  have hlength : ∀ w : Text, w = [] ∨ IsWord w → (words w).length ≤ 1 := by
    rintro w (rfl | hw)
    · decide
    · rw [hw.words]
      rfl
  have hnil : words [] = [] := rfl
  rw [words_moduleLine source target hfile]
  apply hshort
  rcases hempty with rfl | rfl
  · exact hlength target htarget
  · rw [hnil, List.append_nil]
    exact hlength source hsource

theorem eq_nil_or_isWord {w : Text} (h : ∀ c ∈ w, isSpace c = false) : w = [] ∨ IsWord w := by
  by_cases hw : w = []
  · exact .inl hw
  · exact .inr ⟨hw, h⟩

theorem mem_nth_splitOn {t : Text} {n : ℕ} {c : Char} (hc : c ∈ nth (t.splitOn ':') n) :
    c ∈ t ∧ c ≠ ':' := by
  rw [nth, List.getD_eq_getElem?_getD] at hc
  cases hget : (t.splitOn ':')[n - 1]? with
  | none =>
    rw [hget] at hc
    cases hc
  | some piece =>
    rw [hget] at hc
    exact mem_piece (List.mem_of_getElem? hget) hc

namespace Tables

variable (tab : Tables) {file : Text}

/-- A line for two charsets has no colon in either. -/
theorem of_directive_csetLine (hfile : IsWord file) {cset : Text} (hcset : IsWord cset) {d : Directive}
    (h : directive (words (tab.csetLine file cset)) = some d) : ∃ s t, ':' ∉ s ∧ ':' ∉ t ∧
      IsWord s ∧ d = .module s t file (awkInt (tab.mod2cost s)) := by
  have hpiece : ∀ n, nth (cset.splitOn ':') n = [] ∨ IsWord (nth (cset.splitOn ':') n) := fun n =>
    eq_nil_or_isWord fun c hc => hcset.2 c (mem_nth_splitOn hc).1
  rw [csetLine] at h
  rcases hpiece 1 with hs | hs
  · rw [directive_moduleLine_of_nil (hpiece 1) (hpiece 2) (.inl hs) hfile] at h
    cases h
  rcases hpiece 2 with ht | ht
  · rw [directive_moduleLine_of_nil (hpiece 1) (hpiece 2) (.inr ht) hfile] at h
    cases h
  rw [directive_moduleLine hs ht hfile, Option.some_inj] at h
  exact ⟨_, _, fun hc => (mem_nth_splitOn hc).2 rfl, fun hc => (mem_nth_splitOn hc).2 rfl, hs, h.symm⟩

theorem csetLine_eq {s t : Text} (hs : ':' ∉ s) (ht : ':' ∉ t) :
    tab.csetLine file (s ++ ':' :: t) = moduleLine s t file (awkInt (tab.mod2cost s)) := by
  have hsplit : (s ++ ':' :: t).splitOn ':' = [s, t] := by
    rw [List.splitOn_append_cons_self_of_not_mem hs, List.splitOn_eq_singleton ht]
  rw [csetLine, hsplit]
  rfl

theorem mem_internalLines {mod l : Text} : l ∈ tab.internalLines file mod ↔
    (∃ name ∈ words (tab.aliases mod), l = aliasLine name mod) ∨
      l = moduleLine mod internal file (awkInt (tab.mod2cost mod)) ∨
      l = moduleLine internal mod file (awkInt (tab.mod2cost mod)) ∨ l = [] := by
  simp only [internalLines, List.mem_append, List.mem_map, List.mem_cons, List.not_mem_nil, or_false,
    eq_comm]

/-- Comments and empty lines apart, a file has the lines for its charsets and its pairs. -/
theorem cases_fileLines {l : Text} (h : l ∈ tab.fileLines file) :
    (l = "# Modules and aliases for: ".toList ++ file ∨ l = []) ∨
      (∃ mod ∈ words (tab.file2internals file), l ∈ tab.internalLines file mod) ∨
      ∃ cset ∈ words (tab.file2cset file), l = tab.csetLine file cset := by
  have hblank : ∀ (p : Prop) [Decidable p] (ls : List Text), (∀ l ∈ ls, l = []) →
      l ∈ (if p then [] else ls) → l = [] := by
    intro p _ ls hls hl
    split at hl
    · cases hl
    · exact hls l hl
  unfold fileLines at h
  rcases List.mem_cons.mp h with rfl | h
  · exact .inl (.inl rfl)
  rcases List.mem_append.mp h with h | h
  · rcases List.mem_append.mp h with h | h
    · rcases List.mem_append.mp h with h | h
      · exact .inr (.inl (List.mem_flatMap.mp h))
      · exact .inl (.inr (hblank _ [[]] (by simp) h))
    · obtain ⟨cset, hcset, rfl⟩ := List.mem_map.mp h
      exact .inr (.inr ⟨cset, hcset, rfl⟩)
  · exact .inl (.inr (hblank _ [[], []] (by simp) h))

theorem mem_fileLines_of_internal {mod l : Text} (hmod : mod ∈ words (tab.file2internals file))
    (hl : l ∈ tab.internalLines file mod) : l ∈ tab.fileLines file := by
  refine .tail _ ?_
  exact List.mem_append_left _ (List.mem_append_left _ (List.mem_append_left _
    (List.mem_flatMap.mpr ⟨mod, hmod, hl⟩)))

theorem mem_fileLines_of_cset {cset : Text} (hcset : cset ∈ words (tab.file2cset file)) :
    tab.csetLine file cset ∈ tab.fileLines file := by
  refine .tail _ ?_
  exact List.mem_append_left _ (List.mem_append_right _ (List.mem_map_of_mem hcset))

/-- The directives for a charset. -/
theorem directive_internalLines (hfile : IsWord file) {mod : Text} (hmod : IsWord mod) (d : Directive) :
    (∃ l ∈ tab.internalLines file mod, directive (words l) = some d) ↔
      (∃ name ∈ words (tab.aliases mod), d = .alias name mod) ∨
        d = .module mod internal file (awkInt (tab.mod2cost mod)) ∨
        d = .module internal mod file (awkInt (tab.mod2cost mod)) := by
  have hto := directive_moduleLine hmod isWord_internal hfile (tab.mod2cost mod)
  have hfrom := directive_moduleLine isWord_internal hmod hfile (tab.mod2cost mod)
  have halias : ∀ name ∈ words (tab.aliases mod),
      directive (words (aliasLine name mod)) = some (.alias name mod) := fun name hname =>
    directive_aliasLine (word_of_mem_words hname) hmod
  have hempty : directive (words []) = none := by decide
  constructor
  · rintro ⟨l, hl, hd⟩
    rcases tab.mem_internalLines.mp hl with ⟨name, hname, rfl⟩ | rfl | rfl | rfl
    · rw [halias name hname, Option.some_inj] at hd
      exact .inl ⟨name, hname, hd.symm⟩
    · rw [hto, Option.some_inj] at hd
      exact .inr (.inl hd.symm)
    · rw [hfrom, Option.some_inj] at hd
      exact .inr (.inr hd.symm)
    · rw [hempty] at hd
      cases hd
  · rintro (⟨name, hname, rfl⟩ | rfl | rfl)
    · exact ⟨_, tab.mem_internalLines.mpr (.inl ⟨name, hname, rfl⟩), halias name hname⟩
    · exact ⟨_, tab.mem_internalLines.mpr (.inr (.inl rfl)), hto⟩
    · exact ⟨_, tab.mem_internalLines.mpr (.inr (.inr (.inl rfl))), hfrom⟩

theorem directive_comment (file : Text) :
    directive (words ("# Modules and aliases for: ".toList ++ file)) = none := by
  have hwords := words_word_space (w := "#".toList) ("Modules and aliases for: ".toList ++ file)
    (by decide) (no_space rfl) (show isSpace ' ' = true by decide)
  have hnot : ¬ "#".toList = "alias".toList ∧ ¬ "#".toList = "module".toList := by decide
  have hnone : ∀ ws, directive ("#".toList :: ws) = none := fun ws => by
    rw [directive, if_neg (fun h => hnot.1 h.1), if_neg (fun h => hnot.2 h.1)]
  exact (congrArg directive hwords).trans (hnone _)

theorem directive_fileLines (d : Directive) :
    (∃ l ∈ tab.fileLines file, directive (words l) = some d) ↔
      (∃ mod ∈ words (tab.file2internals file), ∃ l ∈ tab.internalLines file mod,
          directive (words l) = some d) ∨
        ∃ cset ∈ words (tab.file2cset file), directive (words (tab.csetLine file cset)) = some d := by
  have hempty : directive (words []) = none := by decide
  constructor
  · rintro ⟨l, hl, hd⟩
    rcases tab.cases_fileLines hl with (rfl | rfl) | ⟨mod, hmod, hl⟩ | ⟨cset, hcset, rfl⟩
    · rw [directive_comment] at hd
      cases hd
    · rw [hempty] at hd
      cases hd
    · exact .inl ⟨mod, hmod, l, hl, hd⟩
    · exact .inr ⟨cset, hcset, hd⟩
  · rintro (⟨mod, hmod, l, hl, hd⟩ | ⟨cset, hcset, hd⟩)
    · exact ⟨l, tab.mem_fileLines_of_internal hmod hl, hd⟩
    · exact ⟨_, tab.mem_fileLines_of_cset hcset, hd⟩

end Tables

theorem no_newline_aliasLine {name real : Text} (hname : '\n' ∉ name) (hreal : '\n' ∉ real) :
    '\n' ∉ aliasLine name real := by
  unfold aliasLine
  simp only [List.mem_append, List.mem_cons, not_or]
  exact ⟨⟨by decide, by decide, hname⟩, by decide, hreal⟩

theorem no_newline_moduleLine {source target file : Text} (hsource : '\n' ∉ source)
    (htarget : '\n' ∉ target) (hfile : '\n' ∉ file) (cost : ℤ) :
    '\n' ∉ moduleLine source target file cost := by
  unfold moduleLine
  simp only [List.mem_append, List.mem_cons, not_or]
  exact ⟨⟨⟨⟨by decide, by decide, hsource⟩, by decide, htarget⟩, by decide, hfile⟩, by decide,
    (isWord_decimal cost).no_newline⟩

theorem Tables.no_newline_internalLines (tab : Tables) {file mod : Text} (hfile : IsWord file)
    (hmod : IsWord mod) : ∀ l ∈ tab.internalLines file mod, '\n' ∉ l := by
  intro l hl
  rcases tab.mem_internalLines.mp hl with ⟨name, hname, rfl⟩ | rfl | rfl | rfl
  · exact no_newline_aliasLine (IsWord.no_newline (word_of_mem_words hname)) hmod.no_newline
  · exact no_newline_moduleLine hmod.no_newline isWord_internal.no_newline hfile.no_newline _
  · exact no_newline_moduleLine isWord_internal.no_newline hmod.no_newline hfile.no_newline _
  · exact List.not_mem_nil

theorem Tables.no_newline_fileLines (tab : Tables) {file : Text} (hfile : IsWord file) :
    ∀ l ∈ tab.fileLines file, '\n' ∉ l := by
  intro l hl
  rcases tab.cases_fileLines hl with (rfl | rfl) | ⟨mod, hmod, hl⟩ | ⟨cset, hcset, rfl⟩
  · rw [List.mem_append, not_or]
    exact ⟨by decide, hfile.no_newline⟩
  · exact List.not_mem_nil
  · exact tab.no_newline_internalLines hfile (word_of_mem_words hmod) l hl
  · have hpiece : ∀ n, '\n' ∉ nth (cset.splitOn ':') n := fun n hmem =>
      IsWord.no_newline (word_of_mem_words hcset) (mem_nth_splitOn hmem).1
    exact no_newline_moduleLine (hpiece 1) (hpiece 2) hfile.no_newline _

/-! ### The directives of the output -/

section Output

variable (files : FileList) (input : GconvModules)

theorem mem_directives_expunge (d : Directive) : d ∈ directives (expunge files input.text) ↔
    ∃ file ∈ words files.text, ∃ l ∈ (Tables.ofLines (lines input.text)).fileLines file,
      directive (words l) = some d := by
  rw [expunge, directives_unlines, List.mem_filterMap]
  · constructor
    · rintro ⟨l, hl, hd⟩
      obtain ⟨file, hfile, hl⟩ := List.mem_flatMap.mp hl
      exact ⟨file, hfile, l, hl, hd⟩
    · rintro ⟨file, hfile, l, hl, hd⟩
      exact ⟨l, List.mem_flatMap.mpr ⟨file, hfile, hl⟩, hd⟩
  · intro l hl
    obtain ⟨file, hfile, hl⟩ := List.mem_flatMap.mp hl
    exact Tables.no_newline_fileLines _ (word_of_mem_words hfile) l hl

/-- Aliases are written for the charsets with a conversion to `INTERNAL`. -/
theorem alias_mem_expunge (name real : Text) : .alias name real ∈ directives (expunge files input.text) ↔
    .alias name real ∈ directives input.text ∧ real ≠ internal ∧ ∃ file ∈ words files.text,
      ∃ c, .module real internal file c ∈ directives input.text := by
  have hindexed := input.indexed
  rw [mem_directives_expunge]
  constructor
  · rintro ⟨file, hfile, hl⟩
    rcases (Tables.directive_fileLines _ _).mp hl with ⟨mod, hmod, hl⟩ | ⟨cset, hcset, hd⟩
    · rcases (Tables.directive_internalLines _ (word_of_mem_words hfile)
        (word_of_mem_words hmod) _).mp hl with ⟨name', hname, heq⟩ | heq | heq
      · obtain ⟨rfl, rfl⟩ := Directive.alias.inj heq
        obtain ⟨hne, c, hmem⟩ := (hindexed.internals _ _).mp hmod
        exact ⟨(hindexed.aliases _ _).mp hname, hne, file, hfile, c, hmem⟩
      · cases heq
      · cases heq
    · obtain ⟨s, t, -, -, -, heq⟩ := Tables.of_directive_csetLine _ (word_of_mem_words hfile)
        (word_of_mem_words hcset) hd
      cases heq
  · rintro ⟨halias, hne, file, hfile, c, hmem⟩
    have hmod := (hindexed.internals file real).mpr ⟨hne, c, hmem⟩
    refine ⟨file, hfile, (Tables.directive_fileLines _ _).mpr (.inl ⟨real, hmod, ?_⟩)⟩
    exact (Tables.directive_internalLines _ (word_of_mem_words hfile) (word_of_mem_words hmod) _).mpr
      (.inl ⟨name, (hindexed.aliases _ _).mpr halias, rfl⟩)

/-- A charset is written with both directions, and the cost of the source. -/
theorem module_mem_expunge (s t file : Text) (c : ℤ) :
    .module s t file c ∈ directives (expunge files input.text) ↔ file ∈ words files.text ∧
      ((∃ x c', x ≠ internal ∧ .module x internal file c' ∈ directives input.text ∧
          c = awkInt ((Tables.ofLines (lines input.text)).mod2cost x) ∧
          (s = x ∧ t = internal ∨ s = internal ∧ t = x)) ∨
        ∃ cset ∈ words ((Tables.ofLines (lines input.text)).file2cset file),
          directive (words ((Tables.ofLines (lines input.text)).csetLine file cset)) =
            some (.module s t file c)) := by
  have hindexed := input.indexed
  rw [mem_directives_expunge]
  constructor
  · rintro ⟨file', hfile, hl⟩
    rcases (Tables.directive_fileLines _ _).mp hl with ⟨mod, hmod, hl⟩ | ⟨cset, hcset, hd⟩
    · obtain ⟨hne, c', hmem⟩ := (hindexed.internals _ _).mp hmod
      rcases (Tables.directive_internalLines _ (word_of_mem_words hfile)
        (word_of_mem_words hmod) _).mp hl with ⟨name', -, heq⟩ | heq | heq
      · cases heq
      · obtain ⟨rfl, rfl, rfl, rfl⟩ := Directive.module.inj heq
        exact ⟨hfile, .inl ⟨s, c', hne, hmem, rfl, .inl ⟨rfl, rfl⟩⟩⟩
      · obtain ⟨rfl, rfl, rfl, rfl⟩ := Directive.module.inj heq
        exact ⟨hfile, .inl ⟨t, c', hne, hmem, rfl, .inr ⟨rfl, rfl⟩⟩⟩
    · obtain ⟨s', t', -, -, -, heq⟩ := Tables.of_directive_csetLine _ (word_of_mem_words hfile)
        (word_of_mem_words hcset) hd
      obtain ⟨-, -, rfl, -⟩ := Directive.module.inj heq
      exact ⟨hfile, .inr ⟨cset, hcset, hd⟩⟩
  · rintro ⟨hfile, hcases⟩
    refine ⟨file, hfile, (Tables.directive_fileLines _ _).mpr ?_⟩
    rcases hcases with ⟨x, c', hne, hmem, rfl, hst⟩ | hcset
    · have hmod := (hindexed.internals file x).mpr ⟨hne, c', hmem⟩
      refine .inl ⟨x, hmod, (Tables.directive_internalLines _ (word_of_mem_words hfile)
        (word_of_mem_words hmod) _).mpr (.inr ?_)⟩
      rcases hst with ⟨rfl, rfl⟩ | ⟨rfl, rfl⟩
      · exact .inl rfl
      · exact .inr rfl
    · exact .inr hcset

end Output

/-! ### Exactly the directives of the files -/

/-- The modules of the output are those of the files in the list, and the aliases are those of the
charsets in them. -/
structure Filtered (files : FileList) (input : GconvModules) : Prop where
  modules : ∀ s t file c, .module s t file c ∈ directives (expunge files input.text) ↔
    .module s t file c ∈ directives input.text ∧ file ∈ words files.text
  aliases : ∀ name real, .alias name real ∈ directives (expunge files input.text) ↔
    .alias name real ∈ directives input.text ∧ real ≠ internal ∧ ∃ s t file c,
      .module s t file c ∈ directives (expunge files input.text) ∧ (real = s ∨ real = t)

/-- What the tables leave out does not matter for the files in the list. -/
structure Separable (files : FileList) (ds : List Directive) : Prop where
  /-- A directive has the cost of the last one with its source, in any file. -/
  cost : ∀ s t file c, file ∈ words files.text → .module s t file c ∈ ds → s ≠ internal →
    (costs ds s).getLast? = some c
  /-- The directives to and from `INTERNAL` come in pairs. -/
  paired : ∀ x file c, file ∈ words files.text → x ≠ internal →
    (.module x internal file c ∈ ds ↔ .module internal x file c ∈ ds)
  no_internal : ∀ file c, file ∈ words files.text → .module internal internal file c ∉ ds
  no_colon : ∀ s t file c, file ∈ words files.text → .module s t file c ∈ ds → s ≠ internal →
    t ≠ internal → ':' ∉ s ∧ ':' ∉ t
  /-- A charset with an alias has a conversion to `INTERNAL`, if it has one to or from another. -/
  aliased : ∀ name real s t file c, .alias name real ∈ ds → file ∈ words files.text →
    .module s t file c ∈ ds → s ≠ internal → t ≠ internal → real = s ∨ real = t →
    ∃ file' ∈ words files.text, ∃ c', .module real internal file' c' ∈ ds

section Exact

variable {files : FileList} {input : GconvModules}

/-- The table has the cost of the last directive with the source. -/
theorem getLast?_costs {s t file : Text} {c : ℤ} (h : .module s t file c ∈ directives input.text)
    (hs : s ≠ internal) : (costs (directives input.text) s).getLast? =
      some (awkInt ((Tables.ofLines (lines input.text)).mod2cost s)) := by
  have hmem : c ∈ costs (directives input.text) s :=
    List.mem_filterMap.mpr ⟨_, h, if_pos rfl⟩
  have hlast := List.getLast?_eq_some_getLast (List.ne_nil_of_mem hmem)
  rw [hlast, input.indexed.cost s _ hs hlast]

/-- The pairs of charsets of a file in the output. -/
theorem pair_mem_expunge (hcolon : ∀ s t file c, file ∈ words files.text →
      .module s t file c ∈ directives input.text → s ≠ internal → t ≠ internal → ':' ∉ s ∧ ':' ∉ t)
    {s t file : Text} {c : ℤ} (hfile : file ∈ words files.text) :
    (∃ cset ∈ words ((Tables.ofLines (lines input.text)).file2cset file),
        directive (words ((Tables.ofLines (lines input.text)).csetLine file cset)) =
          some (.module s t file c)) ↔
      s ≠ internal ∧ t ≠ internal ∧ (∃ c', .module s t file c' ∈ directives input.text) ∧
        c = awkInt ((Tables.ofLines (lines input.text)).mod2cost s) := by
  have hline : ∀ s t c', s ≠ internal → t ≠ internal → .module s t file c' ∈ directives input.text →
      directive (words ((Tables.ofLines (lines input.text)).csetLine file (s ++ ':' :: t))) =
        some (.module s t file (awkInt ((Tables.ofLines (lines input.text)).mod2cost s))) := by
    intro s t c' hs ht hmem
    obtain ⟨hcs, hct⟩ := hcolon s t file c' hfile hmem hs ht
    obtain ⟨l, -, hl⟩ := List.mem_filterMap.mp hmem
    obtain ⟨hsource, htarget, hfile⟩ := isWords_of_directive hl
    rw [Tables.csetLine_eq _ hcs hct, directive_moduleLine hsource htarget hfile]
  constructor
  · rintro ⟨cset, hcset, hd⟩
    obtain ⟨s', t', c', hs, ht, rfl, hmem⟩ := (input.indexed.csets _ _).mp hcset
    rw [hline s' t' c' hs ht hmem, Option.some_inj] at hd
    obtain ⟨rfl, rfl, -, rfl⟩ := Directive.module.inj hd
    exact ⟨hs, ht, ⟨c', hmem⟩, rfl⟩
  · rintro ⟨hs, ht, ⟨c', hmem⟩, rfl⟩
    exact ⟨_, (input.indexed.csets _ _).mpr ⟨s, t, c', hs, ht, rfl, hmem⟩, hline s t c' hs ht hmem⟩

theorem Filtered.no_colon (h : Filtered files input) : ∀ s t file c, file ∈ words files.text →
    .module s t file c ∈ directives input.text → s ≠ internal → t ≠ internal → ':' ∉ s ∧ ':' ∉ t := by
  intro s t file c hfile hmem hs ht
  rcases ((module_mem_expunge files input s t file c).mp ((h.modules s t file c).mpr ⟨hmem, hfile⟩)).2
    with ⟨x, c', -, -, -, ⟨-, hinternal⟩ | ⟨hinternal, -⟩⟩ | ⟨cset, hcset, hd⟩
  · exact absurd hinternal ht
  · exact absurd hinternal hs
  · obtain ⟨s', t', hcs, hct, -, heq⟩ := Tables.of_directive_csetLine _ (word_of_mem_words hfile)
      (word_of_mem_words hcset) hd
    obtain ⟨rfl, rfl, -, -⟩ := Directive.module.inj heq
    exact ⟨hcs, hct⟩

theorem Filtered.separable (h : Filtered files input) : Separable files (directives input.text) := by
  have hcolon := h.no_colon
  -- a directive of a file in the list is written, and so has the cost in the table
  have hwritten : ∀ {s t file c}, file ∈ words files.text → .module s t file c ∈ directives input.text →
      _ := fun {s t file c} hfile hmem =>
    ((module_mem_expunge files input s t file c).mp ((h.modules s t file c).mpr ⟨hmem, hfile⟩)).2
  have hcost : ∀ s t file c, file ∈ words files.text → .module s t file c ∈ directives input.text →
      s ≠ internal → (costs (directives input.text) s).getLast? = some c := by
    intro s t file c hfile hmem hs
    rw [getLast?_costs hmem hs, Option.some_inj]
    rcases hwritten hfile hmem with ⟨x, c', -, -, rfl, ⟨rfl, -⟩ | ⟨hinternal, -⟩⟩ | hcset
    · rfl
    · exact absurd hinternal hs
    · exact ((pair_mem_expunge hcolon hfile).mp hcset).2.2.2.symm
  refine ⟨hcost, fun x file c hfile hx => ⟨fun hmem => ?_, fun hmem => ?_⟩, fun file c hfile hmem => ?_,
    hcolon, fun name real s t file c halias hfile hmem hs ht hreal => ?_⟩
  · have hlast := hcost x internal file c hfile hmem hx
    rw [getLast?_costs hmem hx, Option.some_inj] at hlast
    refine ((h.modules _ _ _ _).mp ((module_mem_expunge files input _ _ _ _).mpr ⟨hfile, .inl ?_⟩)).1
    exact ⟨x, c, hx, hmem, hlast.symm, .inr ⟨rfl, rfl⟩⟩
  · rcases hwritten hfile hmem with ⟨y, c', hy, hmem', rfl, ⟨hinternal, -⟩ | ⟨-, rfl⟩⟩ | hcset
    · exact absurd hinternal.symm hy
    · have hlast := hcost x internal file c' hfile hmem' hx
      rw [getLast?_costs hmem' hx, Option.some_inj] at hlast
      rwa [hlast]
    · exact absurd rfl ((pair_mem_expunge hcolon hfile).mp hcset).1
  · rcases hwritten hfile hmem with ⟨y, c', hy, -, -, ⟨hinternal, -⟩ | ⟨-, hinternal⟩⟩ | hcset
    · exact hy hinternal.symm
    · exact hy hinternal.symm
    · exact ((pair_mem_expunge hcolon hfile).mp hcset).1 rfl
  · have hinternal : real ≠ internal := by
      rcases hreal with rfl | rfl
      · exact hs
      · exact ht
    have hmem' := (h.modules s t file c).mpr ⟨hmem, hfile⟩
    have hwritten := (h.aliases name real).mpr ⟨halias, hinternal, s, t, file, c, hmem', hreal⟩
    exact ((alias_mem_expunge files input name real).mp hwritten).2.2

theorem Separable.modules (h : Separable files (directives input.text)) (s t file : Text) (c : ℤ) :
    .module s t file c ∈ directives (expunge files input.text) ↔
      .module s t file c ∈ directives input.text ∧ file ∈ words files.text := by
  -- the cost in the table is that of the directive
  have hcost : ∀ {s t c}, file ∈ words files.text → .module s t file c ∈ directives input.text →
      s ≠ internal → awkInt ((Tables.ofLines (lines input.text)).mod2cost s) = c := by
    intro s t c hfile hmem hs
    have hlast := h.cost s t file c hfile hmem hs
    rwa [getLast?_costs hmem hs, Option.some_inj] at hlast
  rw [module_mem_expunge]
  constructor
  · rintro ⟨hfile, ⟨x, c', hx, hmem, rfl, hst⟩ | hcset⟩
    · rw [hcost hfile hmem hx]
      rcases hst with ⟨rfl, rfl⟩ | ⟨rfl, rfl⟩
      · exact ⟨hmem, hfile⟩
      · exact ⟨(h.paired _ _ _ hfile hx).mp hmem, hfile⟩
    · obtain ⟨hs, -, ⟨c', hmem⟩, rfl⟩ := (pair_mem_expunge h.no_colon hfile).mp hcset
      rw [hcost hfile hmem hs]
      exact ⟨hmem, hfile⟩
  · rintro ⟨hmem, hfile⟩
    refine ⟨hfile, ?_⟩
    by_cases hs : s = internal
    · subst hs
      have ht : t ≠ internal := fun ht => h.no_internal file c hfile (ht ▸ hmem)
      have hmem' := (h.paired t file c hfile ht).mpr hmem
      exact .inl ⟨t, c, ht, hmem', (hcost hfile hmem' ht).symm, .inr ⟨rfl, rfl⟩⟩
    by_cases ht : t = internal
    · subst ht
      exact .inl ⟨s, c, hs, hmem, (hcost hfile hmem hs).symm, .inl ⟨rfl, rfl⟩⟩
    · exact .inr ((pair_mem_expunge h.no_colon hfile).mpr ⟨hs, ht, ⟨c, hmem⟩, (hcost hfile hmem hs).symm⟩)

theorem Separable.filtered (h : Separable files (directives input.text)) : Filtered files input := by
  refine ⟨h.modules, fun name real => ?_⟩
  rw [alias_mem_expunge]
  refine and_congr_right fun halias => and_congr_right fun hreal => ⟨?_, ?_⟩
  · rintro ⟨file, hfile, c, hmem⟩
    exact ⟨real, internal, file, c, (h.modules _ _ _ _).mpr ⟨hmem, hfile⟩, .inl rfl⟩
  · rintro ⟨s, t, file, c, hmem, hst⟩
    obtain ⟨hmem, hfile⟩ := (h.modules s t file c).mp hmem
    by_cases hs : s = internal
    · subst hs
      obtain rfl := hst.resolve_left hreal
      exact ⟨file, hfile, c, (h.paired real file c hfile hreal).mpr hmem⟩
    by_cases ht : t = internal
    · subst ht
      obtain rfl := hst.resolve_right hreal
      exact ⟨file, hfile, c, hmem⟩
    · exact h.aliased name real s t file c halias hfile hmem hs ht hst

end Exact

/-- For every `gconv-modules` file and list of files, the output has exactly the directives of the
files in the list, and the aliases of their charsets, if and only if the directives of these files
are separable. -/
theorem filtered_iff (files : FileList) (input : GconvModules) :
    Filtered files input ↔ Separable files (directives input.text) :=
  ⟨Filtered.separable, Separable.filtered⟩

/-- A charset with the cost 1 to and from `INTERNAL`, and 2 to another charset. -/
def costText : Text := "module A// INTERNAL A 1\nmodule INTERNAL A// A 1\nmodule A// B// AB 2\n".toList

theorem directives_costText : directives costText =
    [.module "A//".toList internal "A".toList 1, .module internal "A//".toList "A".toList 1,
      .module "A//".toList "B//".toList "AB".toList 2] := by decide +kernel

def twoCosts : GconvModules where
  text := costText
  wellFormed := by decide
  cost_bound s t f c hmem := by
    rw [directives_costText] at hmem
    simp only [List.mem_cons, Directive.module.injEq, List.not_mem_nil, or_false] at hmem
    omega

/-- The cost to `INTERNAL` becomes 2 as well. -/
theorem filtered_twoCosts :
    .module "A//".toList internal "A".toList 2 ∈
        directives (expunge ⟨"A AB".toList, by decide⟩ twoCosts.text) ∧
      ¬ Filtered ⟨"A AB".toList, by decide⟩ twoCosts := by
  have hds : directives twoCosts.text = _ := directives_costText
  have hmem : .module "A//".toList internal "A".toList 1 ∈ directives twoCosts.text := by
    rw [hds]
    exact .head _
  have hlast := getLast?_costs hmem (by decide)
  refine ⟨?_, fun h => ?_⟩
  · have hcost : (costs (directives twoCosts.text) "A//".toList).getLast? = some 2 := by
      rw [hds]
      decide
    rw [hcost, Option.some_inj] at hlast
    exact (module_mem_expunge _ _ _ _ _ _).mpr
      ⟨by decide, .inl ⟨_, 1, by decide, hmem, hlast, .inl ⟨rfl, rfl⟩⟩⟩
  · have hcost := h.separable.cost _ _ _ _ (by decide) hmem (by decide)
    rw [hds] at hcost
    exact absurd hcost (by decide)

end CargosBuildroot.Gconv
