import CargosBuildroot.External.Trees
import CargosBuildroot.Kconfig.Reader

/-! The Kconfig snippet of the br2-external trees, read by Kconfig. Descriptions and
paths stand between double quotes, so they are read as they were written only if they
have no quote, no backslash and no newline. -/

namespace CargosBuildroot.External

open Shell Kconfig

/-- The statements that a tree is meant to give. -/
def treeStatements (several : Bool) (t : Tree) : List Statement :=
  (if several then [.menu t.desc] else []) ++
  [.comment (prompt t), .config (pathVar t.name), .string none, .default t.path,
    .source (t.path ++ "/Config.in".toList)] ++
  if several then [.endmenu] else []

/-- The statements that the snippet is meant to give. -/
def statements (trees : List Tree) : List Statement :=
  if trees = [] then [] else
    .menu "External options".toList :: trees.flatMap (treeStatements (1 < trees.length)) ++ [.endmenu]

/-- The symbols that are defined. -/
def symbols (ss : List Statement) : List Text :=
  ss.filterMap fun
    | .config s => some s
    | _ => none

/-- The name in a symbol `BR2_EXTERNAL_<name>_PATH`. -/
def symbolName (s : Text) : Option Text :=
  if "BR2_EXTERNAL_".toList.isPrefixOf s && "_PATH".toList.isSuffixOf s then
    some ((s.drop 13).take (s.length - 18))
  else none

/-- The description in the prompt of the comment of a tree. -/
def promptDesc (path p : Text) : Option Text :=
  let rest := " (in ".toList ++ path ++ [')']
  if rest.isSuffixOf p then some (p.take (p.length - rest.length)) else none

/-- The trees that a snippet defines. -/
def kconfigTrees : List Statement → Option (List Tree)
  | [] => some []
  | .comment p :: .config s :: .string none :: .default v :: ss =>
    match symbolName s, promptDesc v p, kconfigTrees ss with
    | some name, some desc, some trees => some (⟨name, v, desc⟩ :: trees)
    | _, _, _ => none
  | .menu _ :: ss | .endmenu :: ss | .source _ :: ss => kconfigTrees ss
  | _ => none

/-! ### What the meant statements say -/

theorem isPrefixOf_append (a b : Text) : a.isPrefixOf (a ++ b) = true :=
  List.isPrefixOf_iff_prefix.mpr (List.prefix_append a b)

theorem isSuffixOf_append (a b : Text) : b.isSuffixOf (a ++ b) = true :=
  List.isSuffixOf_iff_suffix.mpr (List.suffix_append a b)

theorem symbolName_pathVar (name : Text) : symbolName (pathVar name) = some name := by
  have hpath : pathVar name = "BR2_EXTERNAL_".toList ++ (name ++ "_PATH".toList) :=
    List.append_assoc _ _ _
  have hprefix : "BR2_EXTERNAL_".toList.isPrefixOf (pathVar name) = true := by
    rw [hpath]
    exact isPrefixOf_append _ _
  have hsuffix : "_PATH".toList.isSuffixOf (pathVar name) = true :=
    isSuffixOf_append ("BR2_EXTERNAL_".toList ++ name) "_PATH".toList
  have hlength : (pathVar name).length = name.length + 18 := by
    simp only [hpath, List.length_append, String.length_toList]
    have h : "BR2_EXTERNAL_".length = 13 := rfl
    have h' : "_PATH".length = 5 := rfl
    omega
  have hdrop : (pathVar name).drop 13 = name ++ "_PATH".toList := by
    rw [hpath]
    exact List.drop_left' rfl
  rw [symbolName, hprefix, hsuffix, Bool.and_self, if_pos rfl, hlength, hdrop, Nat.add_sub_cancel,
    List.take_left' rfl]

theorem promptDesc_prompt (t : Tree) : promptDesc t.path (prompt t) = some t.desc := by
  have hprompt : prompt t = t.desc ++ (" (in ".toList ++ t.path ++ [')']) := by
    simp only [prompt, List.append_assoc]
  have hsuffix : (" (in ".toList ++ t.path ++ [')']).isSuffixOf (prompt t) = true := by
    rw [hprompt]
    exact isSuffixOf_append _ _
  rw [promptDesc, if_pos hsuffix, hprompt]
  simp

theorem kconfigTrees_treeStatements (several : Bool) (t : Tree) (ss : List Statement) :
    kconfigTrees (treeStatements several t ++ ss) = (kconfigTrees ss).map (t :: ·) := by
  cases several <;>
    simp only [treeStatements, if_true, Bool.false_eq_true, if_false, List.cons_append, List.nil_append,
      List.append_nil, kconfigTrees, symbolName_pathVar, promptDesc_prompt] <;>
    cases kconfigTrees ss <;> rfl

theorem kconfigTrees_flatMap (several : Bool) (trees : List Tree) (ss : List Statement) :
    kconfigTrees (trees.flatMap (treeStatements several) ++ ss) =
      (kconfigTrees ss).map (trees ++ ·) := by
  induction trees with
  | nil => simp
  | cons t trees ih =>
    rw [List.flatMap_cons, List.append_assoc, kconfigTrees_treeStatements, ih]
    cases kconfigTrees ss <;> rfl

/-- The meant statements define the trees. -/
theorem kconfigTrees_statements (trees : List Tree) : kconfigTrees (statements trees) = some trees := by
  unfold statements
  split
  next h => rw [h]; rfl
  next =>
    rw [List.cons_append, kconfigTrees, kconfigTrees_flatMap]
    simp [kconfigTrees]

theorem menusClosed_treeStatements (several : Bool) (t : Tree) (n : ℕ) (ss : List Statement) :
    menusClosed n (treeStatements several t ++ ss) = menusClosed n ss := by
  cases several <;> simp [treeStatements, menusClosed]

theorem menusClosed_flatMap (several : Bool) (trees : List Tree) (n : ℕ) (ss : List Statement) :
    menusClosed n (trees.flatMap (treeStatements several) ++ ss) = menusClosed n ss := by
  induction trees with
  | nil => rfl
  | cons t trees ih => rw [List.flatMap_cons, List.append_assoc, menusClosed_treeStatements, ih]

/-- Every menu of the meant statements is closed. -/
theorem menusClosed_statements (trees : List Tree) : menusClosed 0 (statements trees) = true := by
  unfold statements
  split
  · rfl
  · rw [List.cons_append, menusClosed, menusClosed_flatMap]
    rfl

theorem symbols_statements (trees : List Tree) :
    symbols (statements trees) = trees.map fun t => pathVar t.name := by
  have htree : ∀ several t, symbols (treeStatements several t) = [pathVar t.name] := by
    intro several t
    cases several <;> rfl
  have hflat : ∀ several, symbols (trees.flatMap (treeStatements several)) =
      trees.map fun t => pathVar t.name := by
    intro several
    induction trees with
    | nil => rfl
    | cons t trees ih =>
      rw [List.flatMap_cons, symbols, List.filterMap_append]
      rw [symbols] at ih
      rw [ih, ← symbols, htree]
      rfl
  unfold statements
  split
  next h => rw [h]; rfl
  next =>
    have h := hflat (1 < trees.length)
    rw [symbols] at h ⊢
    rw [List.cons_append, List.filterMap_cons, List.filterMap_append, h]
    simp

/-! ### Reading the lines of a tree -/

/-- No white space at the start. -/
def NoLeading (t : Text) : Prop := stripLeading t = t

theorem readLine_comment_iff (content : Text) :
    readLine (quotedLine "comment".toList content) = some [.comment content] ↔
      Quotable content ∧ NoLeading content := by
  have hread := readLine_quoted [] "comment".toList content rfl (by decide) (by decide)
  rw [List.nil_append] at hread
  rw [quotedLine, hread]
  simp only [Option.map_eq_some_iff, List.cons.injEq, and_true, exists_eq_right]
  exact parse_string_iff "comment".toList content .comment stripLeading (fun _ => rfl)
    (fun h => nomatch h) (fun _ _ => Statement.comment.inj) (fun _ => List.dropWhile_suffix _)

theorem readLine_menu_iff (content : Text) :
    readLine (quotedLine "menu".toList content) = some [.menu content] ↔
      Quotable content ∧ NoLeading content := by
  have hread := readLine_quoted [] "menu".toList content rfl (by decide) (by decide)
  rw [List.nil_append] at hread
  rw [quotedLine, hread]
  simp only [Option.map_eq_some_iff, List.cons.injEq, and_true, exists_eq_right]
  exact parse_string_iff "menu".toList content .menu stripLeading (fun _ => rfl)
    (fun h => nomatch h) (fun _ _ => Statement.menu.inj) (fun _ => List.dropWhile_suffix _)

theorem readLine_source_iff (content : Text) :
    readLine (quotedLine "source".toList content) = some [.source content] ↔ Quotable content := by
  have hread := readLine_quoted [] "source".toList content rfl (by decide) (by decide)
  rw [List.nil_append] at hread
  rw [quotedLine, hread]
  simp only [Option.map_eq_some_iff, List.cons.injEq, and_true, exists_eq_right]
  have h := parse_string_iff "source".toList content .source id (fun _ => rfl) (fun h => nomatch h)
    (fun _ _ => Statement.source.inj) (fun _ => List.suffix_rfl)
  simpa using h

theorem readLine_default_iff (content : Text) :
    readLine (quotedLine "\tdefault".toList content) = some [.default content] ↔ Quotable content := by
  have hread := readLine_quoted ['\t'] "default".toList content rfl (by decide) (by decide)
  have hkeyword : "\tdefault".toList = ['\t'] ++ "default".toList := rfl
  rw [quotedLine, hkeyword, hread]
  simp only [Option.map_eq_some_iff, List.cons.injEq, and_true, exists_eq_right]
  have h := parse_string_iff "default".toList content .default id (fun _ => rfl) (fun h => nomatch h)
    (fun _ _ => Statement.default.inj) (fun _ => List.suffix_rfl)
  simpa using h

theorem readLine_config {name : Text} (hname : ValidName name) :
    readLine ("config ".toList ++ pathVar name) = some [.config (pathVar name)] := by
  have hline : "config ".toList ++ pathVar name = [] ++ "config".toList ++ ' ' :: pathVar name := rfl
  have hcons : pathVar name = 'B' :: ("R2_EXTERNAL_".toList ++ name ++ "_PATH".toList) := rfl
  have hword : ("R2_EXTERNAL_".toList ++ name ++ "_PATH".toList).all isWordChar = true := by
    have hall : name.all isWordChar = true := by
      rw [List.all_eq_true]
      intro c hc
      have h : Kconfig.isNameChar c = true := hname.2 c hc
      simp [isWordChar, h]
    rw [List.all_append, List.all_append, hall]
    rfl
  rw [hline, readLine_keyword rfl (by decide) (by decide) rfl, lex_blank, hcons, lex_word rfl hword]
  rfl

theorem readLine_endmenu (rest : Text) :
    readLine ("endmenu # ".toList ++ rest) = some [.endmenu] := by
  have hline : "endmenu # ".toList ++ rest = [] ++ "endmenu".toList ++ ' ' :: ('#' :: ' ' :: rest) := rfl
  have hhash : lex .param ('#' :: ' ' :: rest) = some [] := by
    have hstart : start '#' = (.comment, []) := rfl
    simp [lex, step, hstart, lex_comment]
  rw [hline, readLine_keyword rfl (by decide) (by decide) rfl, lex_blank, hhash]
  rfl

theorem readLine_string : readLine "\tstring".toList = some [.string none] := by decide

/-- What Kconfig reads as it was written. -/
structure KconfigPlain (t : Tree) : Prop where
  desc : Quotable t.desc
  path : Quotable t.path
  leading : NoLeading t.desc

theorem quotable_prompt (t : Tree) : Quotable (prompt t) ↔ Quotable t.desc ∧ Quotable t.path := by
  have hin : Quotable " (in ".toList := by decide
  have hend : Quotable [')'] := by decide
  simp only [prompt, quotable_append, hin, hend, and_true]

theorem noLeading_append {s : Text} (hs : s ≠ []) (t : Text) : NoLeading (s ++ t) ↔ NoLeading s := by
  obtain ⟨c, s, rfl⟩ := List.exists_cons_of_ne_nil hs
  unfold NoLeading stripLeading
  rw [List.cons_append, List.dropWhile_cons, List.dropWhile_cons]
  split
  · have hshorter : ∀ (p : Char → Bool) (l : Text), l.dropWhile p ≠ c :: l := by
      intro p l h
      have hle := (List.dropWhile_suffix p (l := l)).length_le
      rw [h, List.length_cons] at hle
      omega
    simp only [hshorter]
  · simp

/-- The lines of a tree but for the empty one. -/
def contentLines (several : Bool) (t : Tree) : List Text :=
  (if several then [quotedLine "menu".toList t.desc] else []) ++
  [quotedLine "comment".toList (prompt t), "config ".toList ++ pathVar t.name, "\tstring".toList,
    quotedLine "\tdefault".toList t.path,
    quotedLine "source".toList (t.path ++ "/Config.in".toList)] ++
  if several then ["endmenu # ".toList ++ t.name] else []

theorem contentLines_singles {several : Bool} {t : Tree} (hname : ValidName t.name) :
    ∀ l ∈ contentLines several t, ∀ s, readLine l = some s → s.length = 1 := by
  have hquoted : ∀ keyword content, keyword ≠ [] → keyword.all Kconfig.isNameChar = true →
      ∀ s, readLine (quotedLine keyword content) = some s → s.length = 1 :=
    fun keyword content hne hall s h => length_of_quoted [] rfl hne hall h
  have hdefault : ∀ content s, readLine (quotedLine "\tdefault".toList content) = some s →
      s.length = 1 := by
    intro content s h
    have hline : quotedLine "\tdefault".toList content =
        ['\t'] ++ "default".toList ++ " \"".toList ++ content ++ ['\x22'] := rfl
    rw [hline] at h
    exact length_of_quoted ['\t'] rfl (by decide) (by decide) h
  have hfixed : ∀ {l : Text} {st : Statement}, readLine l = some [st] →
      ∀ s, readLine l = some s → s.length = 1 := by
    intro l st hl s hs
    rw [hl] at hs
    cases hs
    rfl
  have hmenu := hquoted "menu".toList t.desc (by decide) (by decide)
  have hcomment := hquoted "comment".toList (prompt t) (by decide) (by decide)
  have hsource := hquoted "source".toList (t.path ++ "/Config.in".toList) (by decide) (by decide)
  have hconfig := hfixed (readLine_config hname)
  have hstring := hfixed readLine_string
  have hend := hfixed (readLine_endmenu t.name)
  cases several with
  | true =>
    simp only [contentLines, if_true, List.cons_append, List.nil_append, List.forall_mem_cons]
    exact ⟨hmenu, hcomment, hconfig, hstring, hdefault _, hsource, hend, by simp⟩
  | false =>
    simp only [contentLines, Bool.false_eq_true, if_false, List.nil_append, List.append_nil,
      List.forall_mem_cons]
    exact ⟨hcomment, hconfig, hstring, hdefault _, hsource, by simp⟩

/-- The lines of a tree give the meant statements. -/
theorem readLines_tree {several : Bool} {t : Tree} (hname : ValidName t.name) (hdesc : t.desc ≠ []) :
    readLines (contentLines several t) = some (treeStatements several t) ↔ KconfigPlain t := by
  have hin : Quotable "/Config.in".toList := by decide
  have hprompt : NoLeading (prompt t) ↔ NoLeading t.desc := by
    have h : prompt t = t.desc ++ (" (in ".toList ++ t.path ++ [')']) := by
      simp only [prompt, List.append_assoc]
    rw [h, noLeading_append hdesc]
  have hplain : KconfigPlain t ↔ Quotable t.desc ∧ Quotable t.path ∧ NoLeading t.desc :=
    ⟨fun h => ⟨h.desc, h.path, h.leading⟩, fun h => ⟨h.1, h.2.1, h.2.2⟩⟩
  rw [readLines_singles (contentLines_singles hname), hplain]
  cases several with
  | true =>
    simp only [contentLines, treeStatements, if_true, List.cons_append, List.nil_append,
      List.forall₂_cons, List.forall₂_nil_left_iff, readLine_menu_iff, readLine_comment_iff,
      readLine_default_iff, readLine_source_iff, readLine_config hname, readLine_string,
      readLine_endmenu, quotable_prompt, quotable_append, hin, hprompt]
    tauto
  | false =>
    simp only [contentLines, treeStatements, Bool.false_eq_true, if_false, List.nil_append,
      List.append_nil, List.forall₂_cons, List.forall₂_nil_left_iff, readLine_comment_iff,
      readLine_default_iff, readLine_source_iff, readLine_config hname, readLine_string,
      quotable_prompt, quotable_append, hin, hprompt]
    tauto

/-! ### Reading the snippet -/

theorem kconfigLines_eq (several : Bool) (t : Tree) :
    kconfigLines several t = contentLines several t ++ [[]] := by
  cases several <;> rfl

theorem readLines_kconfigLines (several : Bool) (t : Tree) :
    readLines (kconfigLines several t) = readLines (contentLines several t) := by
  rw [kconfigLines_eq, readLines_append]
  cases readLines (contentLines several t) <;> simp [Kconfig.readLines, Kconfig.readLine]

theorem ValidName.not_mem {name : Text} (h : ValidName name) {c : Char} (hc : isNameChar c = false) :
    c ∉ name := by
  intro hmem
  rw [h.2 c hmem] at hc
  cases hc

theorem validName_append {a b c : Text} (ha : a.all isNameChar = true) (hb : ValidName b)
    (hc : c.all isNameChar = true) : ValidName (a ++ b ++ c) := by
  constructor
  · simp [hb.1]
  · simp only [List.mem_append]
    rintro d ((hd | hd) | hd)
    · exact List.all_eq_true.mp ha d hd
    · exact hb.2 d hd
    · exact List.all_eq_true.mp hc d hd

theorem ValidName.pathVar {name : Text} (h : ValidName name) : ValidName (pathVar name) :=
  validName_append rfl h rfl

theorem ValidName.descVar {name : Text} (h : ValidName name) : ValidName (descVar name) :=
  validName_append rfl h rfl

theorem newline_not_mem_quotedLine {keyword content : Text} (hk : '\n' ∉ keyword)
    (hc : '\n' ∉ content) : '\n' ∉ quotedLine keyword content := by
  simp [quotedLine, hk, hc]

/-- No line of the snippet has a newline of its own. -/
theorem kconfigLines_no_newline {several : Bool} {t : Tree} (hname : ValidName t.name)
    (hdesc : '\n' ∉ t.desc) (hpath : '\n' ∉ t.path) : ∀ l ∈ kconfigLines several t, '\n' ∉ l := by
  have hn : '\n' ∉ t.name := hname.not_mem rfl
  have hprompt : '\n' ∉ prompt t := by simp [prompt, hdesc, hpath]
  have hmenu : '\n' ∉ quotedLine "menu".toList t.desc :=
    newline_not_mem_quotedLine (by decide) hdesc
  have hcomment : '\n' ∉ quotedLine "comment".toList (prompt t) :=
    newline_not_mem_quotedLine (by decide) hprompt
  have hdefault : '\n' ∉ quotedLine "\tdefault".toList t.path :=
    newline_not_mem_quotedLine (by decide) hpath
  have hsource : '\n' ∉ quotedLine "source".toList (t.path ++ "/Config.in".toList) :=
    newline_not_mem_quotedLine (by decide) (by simp [hpath])
  have hconfig : '\n' ∉ "config ".toList ++ pathVar t.name := by
    rw [List.mem_append]
    exact fun h => h.elim (by decide) (hname.pathVar.not_mem rfl)
  have hend : '\n' ∉ "endmenu # ".toList ++ t.name := by simp [hn]
  have hstring : '\n' ∉ "\tstring".toList := by decide
  have hnil : '\n' ∉ ([] : Text) := List.not_mem_nil
  cases several with
  | true =>
    simp only [kconfigLines, if_true, List.cons_append, List.nil_append, List.forall_mem_cons]
    exact ⟨hmenu, hcomment, hconfig, hstring, hdefault, hsource, hend, hnil, by simp⟩
  | false =>
    simp only [kconfigLines, Bool.false_eq_true, if_false, List.cons_append, List.nil_append,
      List.forall_mem_cons]
    exact ⟨hcomment, hconfig, hstring, hdefault, hsource, hnil, by simp⟩

theorem mem_statements_comment {trees : List Tree} {t : Tree} (ht : t ∈ trees) :
    .comment (prompt t) ∈ statements trees := by
  have hne : trees ≠ [] := List.ne_nil_of_mem ht
  have hmem : Statement.comment (prompt t) ∈ treeStatements (1 < trees.length) t := by
    simp [treeStatements]
  rw [statements, if_neg hne]
  simp only [List.cons_append, List.mem_cons, List.mem_append, List.mem_flatMap]
  exact .inr (.inl ⟨t, ht, hmem⟩)

/-- The statements of all trees, from their lines. -/
theorem readLines_trees {several : Bool} {trees : List Tree} (hr : Registered trees) :
    readLines (trees.flatMap (kconfigLines several)) = some (trees.flatMap (treeStatements several)) ↔
      ∀ t ∈ trees, KconfigPlain t := by
  rw [readLines_flatMap]
  · refine forall₂_congr fun t ht => ?_
    rw [readLines_kconfigLines, readLines_tree (hr.valid t ht) (hr.desc t ht)]
  · intro t ht s hs
    rw [readLines_kconfigLines, readLines_singles (contentLines_singles (hr.valid t ht))] at hs
    rw [← hs.length_eq]
    cases several <;> rfl

/-- The snippet gives the meant statements if and only if the descriptions and paths
have no quote, no backslash and no newline, and no description starts with white
space. -/
theorem read_doKconfig_iff {trees : List Tree} (hr : Registered trees) :
    Kconfig.read (doKconfig trees) = some (statements trees) ↔
      ∀ t ∈ trees, KconfigPlain t ∧ '\n' ∉ t.desc ∧ '\n' ∉ t.path := by
  by_cases hnil : trees = []
  · subst hnil
    have hread : Kconfig.read (doKconfig []) = some (statements []) := by decide
    simp [hread]
  have hheader : readLines header = some [] := by decide
  have hmenu : readLines ["menu \"External options\"".toList, []] =
      some [.menu "External options".toList] := by decide
  have hend : readLines ["endmenu # User-provided options".toList] = some [.endmenu] := by decide
  have hempty : readLines [[]] = some [] := by decide
  have hlines : (∀ t ∈ trees, '\n' ∉ t.desc ∧ '\n' ∉ t.path) →
      (Kconfig.read (doKconfig trees) = some (statements trees) ↔ ∀ t ∈ trees, KconfigPlain t) := by
    intro hnewline
    rw [Kconfig.read, doKconfig, if_neg hnil, ← List.append_nil (unlines _), lines_unlines, lines_nil,
      ← @readLines_trees (decide (1 < trees.length)) trees hr]
    · simp only [readLines_append, hheader, hmenu, hend, hempty]
      cases readLines (trees.flatMap (kconfigLines (decide (1 < trees.length)))) <;>
        simp [statements, hnil]
    · intro l hl
      have hfixed : ∀ l ∈ header ++ ["menu \"External options\"".toList, []] ++
          ["endmenu # User-provided options".toList], '\n' ∉ l := by decide
      simp only [List.mem_append, List.mem_flatMap] at hl hfixed
      rcases hl with hl | ((hl | ⟨t, ht, hl⟩) | hl)
      · exact hfixed l (.inl (.inl hl))
      · exact hfixed l (.inl (.inr hl))
      · exact kconfigLines_no_newline (hr.valid t ht) (hnewline t ht).1 (hnewline t ht).2 l hl
      · exact hfixed l (.inr hl)
  constructor
  · intro h
    have hnewline : ∀ t ∈ trees, '\n' ∉ t.desc ∧ '\n' ∉ t.path := by
      intro t ht
      have hprompt := read_no_newline h _ (mem_statements_comment ht)
      simp only [Statement.text, prompt, List.mem_append, not_or] at hprompt
      exact ⟨hprompt.1.1.1, hprompt.1.2⟩
    exact fun t ht => ⟨(hlines hnewline).mp h t ht, hnewline t ht⟩
  · intro h
    exact (hlines fun t ht => (h t ht).2).mpr fun t ht => (h t ht).1

end CargosBuildroot.External
