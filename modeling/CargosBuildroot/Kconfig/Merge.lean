import CargosBuildroot.Kconfig.Options

/-! `merge_config.sh -m` of `support/kconfig`: fragments are put behind a `.config` file one after the other, and
before each of them the lines are deleted that have one of its options. -/

namespace CargosBuildroot.Kconfig

open Shell Store Sed

/-! ### The script -/

/-- `\(# \)\{0,1\}` -/
def uncomment (line : Text) : Text := if "# ".toList.isPrefixOf line then line.drop 2 else line

/-- What `SED_CONFIG_EXP` makes of a line: its option. -/
def configExp (line : Text) : Option Name :=
  if h : "CONFIG_".toList.isPrefixOf (uncomment line) ∧
      ((uncomment line).dropWhile isNameChar).head?.any (fun c => c = '=' || c = ' ') then
    some ⟨(uncomment line).takeWhile isNameChar, by
      obtain ⟨rest, hrest⟩ := List.isPrefixOf_iff_prefix.mp h.1
      rw [← hrest]
      exact List.cons_ne_nil 'C' _, fun c hc => List.mem_takeWhile_imp hc⟩
  else none

/-- `/$CFG[ =]/` finds the line. -/
def hits (cfg : Name) (line : Text) : Bool :=
  (splits line).any fun x => cfg.text.isPrefixOf x.2 &&
    (x.2.drop cfg.text.length).head?.any fun c => c = ' ' || c = '='

/-- `CFG_LIST` -/
def cfgList (file : Text) : List Name := (lines file).filterMap configExp

variable (locale : Locale)

/-- One option of a fragment, as far as `grep -w` finds it. -/
def mergeOption (tmp : Text) (cfg : Name) : Text :=
  if (lines tmp).any (mentions locale cfg) then sedDelete (hits cfg) tmp else tmp

def mergeFile (tmp file : Text) : Text := (cfgList file).foldl (mergeOption locale) tmp ++ file

/-- `merge_config.sh -m` with a file and its fragments. -/
def mergeConfig (initFile : Text) (mergeList : List Text) : Text := mergeList.foldl (mergeFile locale) initFile

/-! ### What it is for -/

/-- The options of a fragment. -/
def named (file : List Text) : List Name := file.filterMap configExp

/-- The option of the line is one of the fragment. -/
def overridden (file : List Text) (l : Text) : Bool := (configExp l).any (· ∈ named file)

/-- The lines of a fragment, in the place of those with its options. -/
def replace (ls file : List Text) : List Text := ls.filter (!overridden file ·) ++ file

/-- If a line has an option of the fragment in it, its own option is one of the fragment too. -/
def Apart (file : List Text) (l : Text) : Prop :=
  ∀ cfg ∈ named file, hits cfg l = true → overridden file l = true

instance (file : List Text) (l : Text) : Decidable (Apart file l) :=
  inferInstanceAs (Decidable (∀ cfg ∈ named file, hits cfg l = true → overridden file l = true))

/-- Every option has its lines from the last file that names it. Other lines are those of all files. -/
structure Merges (files : List (List Text)) (ls : List Text) : Prop where
  last : ∀ before file after cfg, files = before ++ file :: after → cfg ∈ named file →
    (∀ f ∈ after, cfg ∉ named f) → ls.filter (configExp · = some cfg) = file.filter (configExp · = some cfg)
  others : ls.filter (configExp · = none) = files.flatten.filter (configExp · = none)
  subset : ls ⊆ files.flatten

variable {locale}

theorem hits_iff {cfg : Name} {line : Text} : hits cfg line = true ↔
    ∃ a b, line = a ++ (cfg.text ++ b) ∧ (b.head? = some ' ' ∨ b.head? = some '=') := by
  rw [hits, List.any_eq_true]
  constructor
  · rintro ⟨⟨a, b⟩, hsplit, htest⟩
    dsimp only at htest
    rw [Bool.and_eq_true, List.isPrefixOf_iff_prefix] at htest
    obtain ⟨⟨rest, rfl⟩, hrest⟩ := htest
    rw [List.drop_left] at hrest
    refine ⟨a, rest, (mem_splits.mp hsplit).symm, ?_⟩
    cases hhead : rest.head? with
    | none =>
      rw [hhead] at hrest
      cases hrest
    | some c =>
      rw [hhead] at hrest
      simpa using hrest
  · rintro ⟨a, b, rfl, hb⟩
    refine ⟨(a, cfg.text ++ b), mem_splits.mpr rfl, ?_⟩
    dsimp only
    rw [Bool.and_eq_true, List.isPrefixOf_iff_prefix, List.drop_left]
    refine ⟨List.prefix_append _ _, ?_⟩
    rcases hb with hb | hb <;> rw [hb] <;> rfl

/-- A line has its option at its start, or behind `# `. -/
theorem configExp_eq_some {line : Text} {cfg : Name} (h : configExp line = some cfg) :
    ∃ a b, line = a ++ (cfg.text ++ b) ∧ (a = [] ∨ a = "# ".toList) ∧
      (b.head? = some ' ' ∨ b.head? = some '=') := by
  rw [configExp] at h
  split at h
  next hline =>
    have htext : (uncomment line).takeWhile isNameChar = cfg.text := congrArg Name.text (Option.some.inj h)
    have hparts : uncomment line = cfg.text ++ (uncomment line).dropWhile isNameChar := by
      rw [← htext, List.takeWhile_append_dropWhile]
    have hrest : ((uncomment line).dropWhile isNameChar).head? = some ' ' ∨
        ((uncomment line).dropWhile isNameChar).head? = some '=' := by
      obtain ⟨c, hc, htest⟩ := (Option.any_eq_true _ _).mp hline.2
      rw [Bool.or_eq_true, decide_eq_true_eq, decide_eq_true_eq] at htest
      rcases htest with rfl | rfl
      · exact .inr hc
      · exact .inl hc
    by_cases hhash : "# ".toList.isPrefixOf line = true
    · obtain ⟨rest, rfl⟩ := List.isPrefixOf_iff_prefix.mp hhash
      refine ⟨"# ".toList, _, congrArg _ ?_, .inr rfl, hrest⟩
      rw [← hparts, uncomment, if_pos hhash]
      rfl
    · refine ⟨[], _, ?_, .inl rfl, hrest⟩
      rw [List.nil_append, ← hparts, uncomment, if_neg hhash]
  next => cases h

theorem overridden_iff {file : List Text} {l : Text} :
    overridden file l = true ↔ ∃ cfg, configExp l = some cfg ∧ cfg ∈ named file := by
  rw [overridden, Option.any_eq_true]
  simp only [decide_eq_true_eq]

theorem hits_of_configExp {line : Text} {cfg : Name} (h : configExp line = some cfg) : hits cfg line = true := by
  obtain ⟨a, b, hline, -, hb⟩ := configExp_eq_some h
  exact hits_iff.mpr ⟨a, b, hline, hb⟩

theorem mentions_of_configExp {line : Text} {cfg : Name} (h : configExp line = some cfg) :
    mentions locale cfg line = true := by
  obtain ⟨a, b, hline, ha, hb⟩ := configExp_eq_some h
  have hequals : locale.wordChar '=' = false := locale.ascii '=' (by decide)
  have hspace : locale.wordChar ' ' = false := locale.ascii ' ' (by decide)
  refine mentions_iff.mpr ⟨a, b, hline, ?_, ?_⟩
  · rcases ha with rfl | rfl
    · simp
    · simpa using hspace
  · rcases hb with hb | hb <;> rw [hb] <;> simpa

/-! ### The files by their lines -/

theorem configExp_nil : configExp [] = none := rfl

theorem cfgList_unlines {file : List Text} (hfile : ∀ l ∈ file, '\n' ∉ l) :
    cfgList (unlines file) = named file := by
  have hlines := lines_unlines hfile []
  rw [List.append_nil, lines_nil] at hlines
  rw [cfgList, hlines, List.filterMap_append, List.filterMap_cons_none configExp_nil, List.filterMap_nil,
    List.append_nil, named]

variable (locale) in
/-- The line is deleted for the option, which some line has as a word. -/
def deletes (cfg : Name) (ls : List Text) (l : Text) : Bool := hits cfg l && ls.any (mentions locale cfg)

theorem deletes_of_word {cfg : Name} {ls : List Text} {l : Text} (hl : l ∈ ls) (hhits : hits cfg l = true)
    (hword : mentions locale cfg l = true) : deletes locale cfg ls l = true := by
  rw [deletes, hhits, Bool.true_and, List.any_eq_true]
  exact ⟨l, hl, hword⟩

theorem mem_kept {cfg : Name} {ls : List Text} {l : Text} (hl : l ∈ ls)
    (hdeletes : deletes locale cfg ls l = false) : l ∈ ls.filter (!deletes locale cfg ls ·) := by
  refine List.mem_filter.mpr ⟨hl, ?_⟩
  rw [hdeletes]
  rfl

theorem mergeOption_unlines (cfg : Name) {ls : List Text} (hls : ∀ l ∈ ls, '\n' ∉ l) :
    mergeOption locale (unlines ls) cfg = unlines (ls.filter (!deletes locale cfg ls ·)) := by
  have hlines := lines_unlines hls []
  have hdelete := sedDelete_unlines (hits cfg) hls List.not_mem_nil
  have hempty : mentions locale cfg [] = false := by
    rw [Bool.eq_false_iff]
    intro h
    obtain ⟨a, b, heq, -⟩ := mentions_iff.mp h
    exact cfg.ne_nil (List.append_eq_nil_iff.mp (List.append_eq_nil_iff.mp heq.symm).2).1
  rw [List.append_nil, lines_nil] at hlines
  rw [ite_self, List.append_nil, List.append_nil] at hdelete
  rw [mergeOption, hlines, List.any_append, List.any_cons, List.any_nil, hempty, Bool.or_false, Bool.or_false]
  cases hany : ls.any (mentions locale cfg) with
  | false =>
    rw [if_neg Bool.false_ne_true]
    simp [deletes, hany]
  | true =>
    rw [if_pos rfl, hdelete]
    simp [deletes, hany]

variable (locale) in
/-- What is done for some options: lines with none of them are kept, lines with one of them as a word are not. -/
theorem foldl_mergeOption (cfgs : List Name) {ls : List Text} (hls : ∀ l ∈ ls, '\n' ∉ l) :
    ∃ p : Text → Bool, cfgs.foldl (mergeOption locale) (unlines ls) = unlines (ls.filter p) ∧
      (∀ l ∈ ls, (∀ cfg ∈ cfgs, hits cfg l = false) → p l = true) ∧
      ∀ l ∈ ls, ∀ cfg ∈ cfgs, hits cfg l = true → mentions locale cfg l = true → p l = false := by
  induction cfgs generalizing ls with
  | nil => exact ⟨fun _ => true, by simp, fun _ _ _ => rfl, fun _ _ cfg hcfg => absurd hcfg List.not_mem_nil⟩
  | cons cfg cfgs ih =>
    obtain ⟨p, hp, hkept, hgone⟩ := @ih (ls.filter (!deletes locale cfg ls ·))
      fun l hl => hls l (List.mem_filter.mp hl).1
    refine ⟨fun l => p l && !deletes locale cfg ls l, ?_, fun l hl hno => ?_, fun l hl c hc hhits hword => ?_⟩
    · rw [List.foldl_cons, mergeOption_unlines cfg hls, hp, List.filter_filter]
    · have hdeletes : deletes locale cfg ls l = false := by
        rw [deletes, hno cfg List.mem_cons_self, Bool.false_and]
      dsimp only
      rw [hkept l (mem_kept hl hdeletes) fun c hc => hno c (List.mem_cons_of_mem _ hc), hdeletes]
      rfl
    · dsimp only
      cases hdeletes : deletes locale cfg ls l with
      | true => rw [Bool.not_true, Bool.and_false]
      | false =>
        rcases List.mem_cons.mp hc with rfl | hc
        · rw [deletes_of_word hl hhits hword] at hdeletes
          cases hdeletes
        · rw [hgone l (mem_kept hl hdeletes) c hc hhits hword, Bool.false_and]

variable (locale) in
theorem exists_mergeFile {ls file : List Text} (hls : ∀ l ∈ ls, '\n' ∉ l) (hfile : ∀ l ∈ file, '\n' ∉ l) :
    ∃ p : Text → Bool, mergeFile locale (unlines ls) (unlines file) = unlines (ls.filter p ++ file) ∧
      (∀ l ∈ ls, (∀ cfg ∈ named file, hits cfg l = false) → p l = true) ∧
      ∀ l ∈ ls, ∀ cfg ∈ named file, hits cfg l = true → mentions locale cfg l = true → p l = false := by
  obtain ⟨p, hp, hparts⟩ := foldl_mergeOption locale (named file) hls
  refine ⟨p, ?_, hparts⟩
  rw [mergeFile, cfgList_unlines hfile, hp, ← unlines_append]

theorem mergeFile_unlines {ls file : List Text} (hls : ∀ l ∈ ls, '\n' ∉ l) (hfile : ∀ l ∈ file, '\n' ∉ l)
    (hapart : ∀ l ∈ ls, Apart file l) :
    mergeFile locale (unlines ls) (unlines file) = unlines (replace ls file) := by
  obtain ⟨p, hp, hkept, hgone⟩ := exists_mergeFile locale hls hfile
  have hsame : ls.filter p = ls.filter (!overridden file ·) := by
    refine List.filter_congr fun l hl => ?_
    cases hover : overridden file l with
    | false =>
      refine hkept l hl fun cfg hcfg => ?_
      rw [Bool.eq_false_iff]
      intro hhits
      rw [hapart l hl cfg hcfg hhits] at hover
      cases hover
    | true =>
      obtain ⟨cfg, hexp, hcfg⟩ := overridden_iff.mp hover
      exact hgone l hl cfg hcfg (hits_of_configExp hexp) (mentions_of_configExp hexp)
  rw [hp, hsame, replace]

theorem unlines_injective {ls ls' : List Text} (hls : ∀ l ∈ ls, '\n' ∉ l) (hls' : ∀ l ∈ ls', '\n' ∉ l)
    (h : unlines ls = unlines ls') : ls = ls' := by
  have hlines := congrArg lines h
  have hleft := lines_unlines hls []
  have hright := lines_unlines hls' []
  rw [List.append_nil] at hleft hright
  rw [hleft, hright] at hlines
  exact List.append_cancel_right hlines

/-- Exactly the lines of the options of a fragment are replaced, if and only if none of these options stands in
the line of another one, or in a comment. -/
theorem mergeFile_eq_iff {ls file : List Text} (hls : ∀ l ∈ ls, '\n' ∉ l) (hfile : ∀ l ∈ file, '\n' ∉ l)
    (hwords : ∀ l ∈ ls, ∀ cfg ∈ named file, hits cfg l = true → mentions locale cfg l = true) :
    mergeFile locale (unlines ls) (unlines file) = unlines (replace ls file) ↔ ∀ l ∈ ls, Apart file l := by
  refine ⟨fun heq l hl cfg hcfg hhits => ?_, mergeFile_unlines hls hfile⟩
  obtain ⟨p, hp, -, hgone⟩ := exists_mergeFile locale hls hfile
  have hin : ∀ (q : Text → Bool), ∀ l ∈ ls.filter q ++ file, '\n' ∉ l := by
    intro q l hl
    exact (List.mem_append.mp hl).elim (fun hl => hls l (List.mem_filter.mp hl).1) (hfile l)
  rw [hp] at heq
  have hsame := List.append_cancel_right (unlines_injective (hin p) (hin _) heq)
  by_contra hover
  have hkept : l ∈ ls.filter (!overridden file ·) := by
    refine List.mem_filter.mpr ⟨hl, ?_⟩
    rw [Bool.not_eq_true] at hover
    rw [hover]
    rfl
  rw [← hsame, List.mem_filter, hgone l hl cfg hcfg hhits (hwords l hl cfg hcfg hhits)] at hkept
  cases hkept.2

/-- A value that quotes an option of the fragment. -/
theorem mergeFile_eq_iff_quoted :
    mergeFile ⟨isNameChar, fun _ _ => rfl⟩ (unlines ["CONFIG_B=\"CONFIG_A=1\"".toList])
        (unlines ["CONFIG_A=y".toList]) ≠
      unlines (replace ["CONFIG_B=\"CONFIG_A=1\"".toList] ["CONFIG_A=y".toList]) :=
  mt (mergeFile_eq_iff (by decide) (by decide) (by decide)).mp (by decide)

/-! ### All fragments -/

/-- Among the lines of an option, a fragment replaces all or none. -/
theorem filter_replace (ls file : List Text) (cfg : Name) :
    (replace ls file).filter (configExp · = some cfg) =
      if cfg ∈ named file then file.filter (configExp · = some cfg) else ls.filter (configExp · = some cfg) := by
  have hover : ∀ l, configExp l = some cfg → (overridden file l = true ↔ cfg ∈ named file) := by
    intro l hl
    rw [overridden_iff, hl]
    simp
  rw [replace, List.filter_append, List.filter_filter]
  split
  next hcfg =>
    rw [List.filter_eq_nil_iff.mpr, List.nil_append]
    intro l _ hl
    rw [Bool.and_eq_true, decide_eq_true_eq, Bool.not_eq_true'] at hl
    rw [(hover l hl.1).mpr hcfg] at hl
    cases hl.2
  next hcfg =>
    have hnone : file.filter (configExp · = some cfg) = [] := by
      refine List.filter_eq_nil_iff.mpr fun l hl hexp => hcfg ?_
      exact List.mem_filterMap.mpr ⟨l, hl, of_decide_eq_true hexp⟩
    rw [hnone, List.append_nil]
    refine List.filter_congr fun l _ => ?_
    by_cases hexp : configExp l = some cfg
    · have hnot := (hover l hexp).not.mpr hcfg
      rw [Bool.not_eq_true] at hnot
      rw [hnot, Bool.not_false, Bool.and_true]
    · rw [decide_eq_false hexp, Bool.false_and]

theorem Merges.replace {files : List (List Text)} {ls : List Text} (h : Merges files ls) (file : List Text) :
    Merges (files ++ [file]) (replace ls file) := by
  refine ⟨fun before g after cfg hfiles hcfg hafter => ?_, ?_, ?_⟩
  · rw [filter_replace]
    rcases List.eq_nil_or_concat after with rfl | ⟨after, f, rfl⟩
    · obtain ⟨-, hg⟩ := List.append_inj' hfiles rfl
      obtain rfl := List.head_eq_of_cons_eq hg
      rw [if_pos hcfg]
    · rw [List.concat_eq_append] at hfiles hafter
      rw [← List.cons_append, ← List.append_assoc] at hfiles
      obtain ⟨hinit, hf⟩ := List.append_inj' hfiles rfl
      obtain rfl := List.head_eq_of_cons_eq hf
      rw [if_neg (hafter file (List.mem_append_right _ List.mem_cons_self))]
      exact h.last before g after cfg hinit hcfg fun f hf => hafter f (List.mem_append_left _ hf)
  · have hkept : ls.filter (fun l => decide (configExp l = none) && !overridden file l) =
        ls.filter (configExp · = none) := by
      refine List.filter_congr fun l _ => ?_
      cases hexp : configExp l <;> simp [overridden, hexp]
    rw [Kconfig.replace, List.filter_append, List.filter_filter, hkept, h.others, List.flatten_append,
      List.filter_append, List.flatten_singleton]
  · rw [List.flatten_append, List.flatten_singleton, Kconfig.replace]
    refine List.append_subset.mpr ⟨fun l hl => ?_, List.subset_append_right _ _⟩
    exact List.mem_append_left _ (h.subset (List.mem_filter.mp hl).1)

theorem Merges.foldl {files : List (List Text)} {ls : List Text} (h : Merges files ls)
    (fragments : List (List Text)) : Merges (files ++ fragments) (fragments.foldl Kconfig.replace ls) := by
  induction fragments generalizing files ls with
  | nil => rwa [List.append_nil]
  | cons file fragments ih =>
    have hnext := ih (h.replace file)
    rwa [List.append_assoc, List.singleton_append] at hnext

theorem merges_singleton (ls : List Text) : Merges [ls] ls := by
  refine ⟨fun before file after cfg hfiles _ _ => ?_, by rw [List.flatten_singleton], ?_⟩
  · have hmem : file ∈ [ls] := by
      rw [hfiles]
      exact List.mem_append_right _ List.mem_cons_self
    rw [List.mem_singleton.mp hmem]
  · rw [List.flatten_singleton]
    exact List.Subset.refl ls

theorem mergeConfig_unlines {ls : List Text} {fragments : List (List Text)} (hls : ∀ l ∈ ls, '\n' ∉ l)
    (hfragments : ∀ file ∈ fragments, ∀ l ∈ file, '\n' ∉ l)
    (hapart : (ls :: fragments).Pairwise fun earlier file => ∀ l ∈ earlier, Apart file l) :
    mergeConfig locale (unlines ls) (fragments.map unlines) = unlines (fragments.foldl replace ls) := by
  induction fragments generalizing ls with
  | nil => rfl
  | cons file fragments ih =>
    obtain ⟨hfirst, hfile, hrest⟩ := (List.pairwise_cons.mp hapart).imp_right List.pairwise_cons.mp
    have hin : ∀ l ∈ replace ls file, l ∈ ls ∨ l ∈ file := by
      intro l hl
      exact (List.mem_append.mp hl).imp_left fun hl => (List.mem_filter.mp hl).1
    have hnext := @ih (replace ls file) (fun l hl => ?_)
      (fun f hf => hfragments f (List.mem_cons_of_mem _ hf)) ?_
    · rw [mergeConfig, List.map_cons, List.foldl_cons, mergeFile_unlines hls (hfragments file List.mem_cons_self)
        (hfirst file List.mem_cons_self)]
      exact hnext
    · exact (hin l hl).elim (hls l) (hfragments file List.mem_cons_self l)
    · refine List.pairwise_cons.mpr ⟨fun f hf l hl => ?_, hrest⟩
      exact (hin l hl).elim (hfirst f (List.mem_cons_of_mem _ hf) l) (hfile f hf l)

/-- Where no line has an option of a later fragment in its value or in a comment, the merged file has for
every option the lines of the last file that names it, and all other lines. -/
theorem mergeConfig_spec {initFile : List Text} {mergeList : List (List Text)}
    (hlines : ∀ file ∈ initFile :: mergeList, ∀ l ∈ file, '\n' ∉ l)
    (hapart : (initFile :: mergeList).Pairwise fun earlier file => ∀ l ∈ earlier, Apart file l) :
    ∃ ls, mergeConfig locale (unlines initFile) (mergeList.map unlines) = unlines ls ∧
      Merges (initFile :: mergeList) ls :=
  ⟨_, mergeConfig_unlines (hlines initFile List.mem_cons_self)
    (fun file hfile => hlines file (List.mem_cons_of_mem _ hfile)) hapart,
    (merges_singleton initFile).foldl mergeList⟩

/-- The second fragment takes back what the first one has set. -/
theorem mergeConfig_spec_fragments :
    ∃ ls, mergeConfig ⟨isNameChar, fun _ _ => rfl⟩ (unlines ["CONFIG_A=y".toList, "CONFIG_B=\"A=1\"".toList])
        ([["# CONFIG_A is not set".toList], ["CONFIG_C=m".toList, "CONFIG_A=y".toList]].map unlines) =
          unlines ls ∧
      Merges [["CONFIG_A=y".toList, "CONFIG_B=\"A=1\"".toList], ["# CONFIG_A is not set".toList],
        ["CONFIG_C=m".toList, "CONFIG_A=y".toList]] ls :=
  mergeConfig_spec (by decide) (by decide)

end CargosBuildroot.Kconfig
