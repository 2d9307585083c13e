import CargosBuildroot.External.Kconfig
import CargosBuildroot.Make.Reader

/-! The makefile fragment of the br2-external trees, read by make. Paths and
descriptions stand after the equal sign of an assignment, so they are read as they
were written only if make changes nothing in them. -/

namespace CargosBuildroot.External

open Shell Store Make

/-- The trees that a makefile fragment defines, with `BR2_EXTERNAL_NAMES` as the list of
their names. -/
def mkTrees (vars : Vars) : Option (List Tree) :=
  (value vars "BR2_EXTERNAL_NAMES".toList).bind fun names =>
    (words names).mapM fun name =>
      match value vars (pathVar name), value vars (descVar name) with
      | some path, some desc => some ⟨name, path, desc⟩
      | _, _ => none

/-! ### The variables -/

abbrev namesVar : Text := "BR2_EXTERNAL_NAMES".toList

abbrev dirsVar : Text := "BR2_EXTERNAL_DIRS".toList

abbrev mksVar : Text := "BR2_EXTERNAL_MKS".toList

theorem pathVar_injective {a b : Text} (h : pathVar a = pathVar b) : a = b := by
  have hname := symbolName_pathVar a
  rw [h, symbolName_pathVar] at hname
  exact (Option.some.inj hname).symm

theorem descVar_injective {a b : Text} (h : descVar a = descVar b) : a = b :=
  List.append_cancel_left (List.append_cancel_right h)

theorem getLast?_pathVar (name : Text) : (pathVar name).getLast? = some 'H' :=
  List.mem_getLast?_append_of_mem_getLast? rfl

theorem getLast?_descVar (name : Text) : (descVar name).getLast? = some 'C' :=
  List.mem_getLast?_append_of_mem_getLast? rfl

theorem pathVar_ne_descVar (a b : Text) : pathVar a ≠ descVar b := by
  intro h
  have hlast := getLast?_pathVar a
  rw [h, getLast?_descVar] at hlast
  cases hlast

/-- The variables that have a value for all trees together. -/
def Shared (k : Text) : Prop := k = namesVar ∨ k = dirsVar ∨ k = mksVar

theorem getLast?_of_shared {k : Text} (h : Shared k) : k.getLast? = some 'S' := by
  rcases h with rfl | rfl | rfl <;> rfl

theorem not_shared_pathVar (name : Text) : ¬ Shared (pathVar name) := by
  intro h
  have hlast := getLast?_of_shared h
  rw [getLast?_pathVar] at hlast
  cases hlast

theorem not_shared_descVar (name : Text) : ¬ Shared (descVar name) := by
  intro h
  have hlast := getLast?_of_shared h
  rw [getLast?_descVar] at hlast
  cases hlast

/-! ### The assignments -/

/-- The assignments of one tree. -/
def treeAssigns (t : Tree) : List Assign :=
  [.append namesVar (written t.name), .append dirsVar (written t.path),
    .append mksVar (written (t.path ++ "/external.mk".toList)), .set (pathVar t.name) (written t.path),
    .set (descVar t.name) (written t.desc)]

/-- What the assignments of a tree do to a variable that is not its own. -/
theorem get?_treeAssigns {t : Tree} {k : Text} (vars : Vars) (hpath : k ≠ pathVar t.name)
    (hdesc : k ≠ descVar t.name) (hshared : ¬ Shared k) :
    ((treeAssigns t).foldl Assign.apply vars).get? k = vars.get? k := by
  unfold Shared at hshared
  push Not at hshared
  obtain ⟨hnames, hdirs, hmks⟩ := hshared
  simp only [treeAssigns, List.foldl_cons, List.foldl_nil, Assign.apply]
  rw [Dict.get?_set_of_ne hdesc, Dict.get?_set_of_ne hpath, Dict.get?_set_of_ne hmks,
    Dict.get?_set_of_ne hdirs, Dict.get?_set_of_ne hnames]

theorem get?_pathVar_treeAssigns (t : Tree) (vars : Vars) :
    ((treeAssigns t).foldl Assign.apply vars).get? (pathVar t.name) = some (written t.path) := by
  simp only [treeAssigns, List.foldl_cons, List.foldl_nil, Assign.apply]
  rw [Dict.get?_set_of_ne (pathVar_ne_descVar _ _), Dict.get?_set_self]

theorem get?_descVar_treeAssigns (t : Tree) (vars : Vars) :
    ((treeAssigns t).foldl Assign.apply vars).get? (descVar t.name) = some (written t.desc) := by
  simp only [treeAssigns, List.foldl_cons, List.foldl_nil, Assign.apply]
  rw [Dict.get?_set_self]

theorem get?_namesVar_treeAssigns (t : Tree) {vars : Vars} {old : Text}
    (hold : vars.get? namesVar = some old) :
    ((treeAssigns t).foldl Assign.apply vars).get? namesVar = some (old ++ ' ' :: written t.name) := by
  have hshared : Shared namesVar := .inl rfl
  have hdesc : namesVar ≠ descVar t.name := fun h => not_shared_descVar _ (h ▸ hshared)
  have hpath : namesVar ≠ pathVar t.name := fun h => not_shared_pathVar _ (h ▸ hshared)
  have hmks : namesVar ≠ mksVar := by decide
  have hdirs : namesVar ≠ dirsVar := by decide
  simp only [treeAssigns, List.foldl_cons, List.foldl_nil, Assign.apply, hold]
  rw [Dict.get?_set_of_ne hdesc, Dict.get?_set_of_ne hpath, Dict.get?_set_of_ne hmks,
    Dict.get?_set_of_ne hdirs, Dict.get?_set_self]

/-! ### All trees -/

theorem get?_trees {trees : List Tree} {k : Text} (vars : Vars)
    (hpath : ∀ t ∈ trees, k ≠ pathVar t.name) (hdesc : ∀ t ∈ trees, k ≠ descVar t.name)
    (hshared : ¬ Shared k) :
    ((trees.flatMap treeAssigns).foldl Assign.apply vars).get? k = vars.get? k := by
  induction trees generalizing vars with
  | nil => rfl
  | cons t trees ih =>
    rw [List.forall_mem_cons] at hpath hdesc
    rw [List.flatMap_cons, List.foldl_append, ih _ hpath.2 hdesc.2,
      get?_treeAssigns vars hpath.1 hdesc.1 hshared]

/-- With distinct names, the variables of a tree keep the values that it gives them. -/
theorem get?_own {trees : List Tree} (vars : Vars) (hdistinct : (trees.map Tree.name).Nodup) :
    ∀ t ∈ trees,
      ((trees.flatMap treeAssigns).foldl Assign.apply vars).get? (pathVar t.name) =
          some (written t.path) ∧
        ((trees.flatMap treeAssigns).foldl Assign.apply vars).get? (descVar t.name) =
          some (written t.desc) := by
  induction trees generalizing vars with
  | nil => exact fun t ht => absurd ht List.not_mem_nil
  | cons u trees ih =>
    rw [List.map_cons, List.nodup_cons] at hdistinct
    obtain ⟨hnew, hdistinct⟩ := hdistinct
    rw [List.flatMap_cons, List.foldl_append, List.forall_mem_cons]
    have hname : ∀ t ∈ trees, u.name ≠ t.name := fun t ht heq =>
      hnew (heq ▸ List.mem_map_of_mem ht)
    refine ⟨⟨?_, ?_⟩, ih _ hdistinct⟩
    · rw [get?_trees _ (fun t ht h => hname t ht (pathVar_injective h))
        (fun t _ => pathVar_ne_descVar _ _) (not_shared_pathVar _)]
      exact get?_pathVar_treeAssigns u vars
    · rw [get?_trees _ (fun t _ h => pathVar_ne_descVar _ _ h.symm)
        (fun t ht h => hname t ht (descVar_injective h)) (not_shared_descVar _)]
      exact get?_descVar_treeAssigns u vars

theorem get?_names (trees : List Tree) {vars : Vars} {old : Text}
    (hold : vars.get? namesVar = some old) :
    ((trees.flatMap treeAssigns).foldl Assign.apply vars).get? namesVar =
      some (old ++ trees.flatMap fun t => ' ' :: written t.name) := by
  induction trees generalizing vars old with
  | nil => rw [List.flatMap_nil, List.flatMap_nil, List.append_nil]; exact hold
  | cons t trees ih =>
    rw [List.flatMap_cons, List.foldl_append, ih (get?_namesVar_treeAssigns t hold),
      List.flatMap_cons, List.append_assoc]

/-! ### Names -/

theorem ne_of_isNameChar {c d : Char} (h : isNameChar c = true) (hd : isNameChar d = false) :
    c ≠ d := by
  rintro rfl
  rw [h] at hd
  cases hd

theorem isSpaceChar_of_isNameChar {c : Char} (h : isNameChar c = true) : isSpaceChar c = false := by
  have hne := fun d => ne_of_isNameChar (d := d) h
  simp only [isSpaceChar, Bool.or_eq_false_iff, decide_eq_false_iff_not]
  exact ⟨⟨⟨⟨⟨hne _ rfl, hne _ rfl⟩, hne _ rfl⟩, hne _ rfl⟩, hne _ rfl⟩, hne _ rfl⟩

theorem isVarChar_of_isNameChar {c : Char} (h : isNameChar c = true) : isVarChar c = true := by
  have hne := fun d => ne_of_isNameChar (d := d) h
  simp only [isVarChar, isSpaceChar_of_isNameChar h, Bool.false_or, Bool.not_eq_true', Bool.or_eq_false_iff,
    decide_eq_false_iff_not]
  exact ⟨⟨⟨hne _ rfl, hne _ rfl⟩, hne _ rfl⟩, hne _ rfl⟩

theorem ValidName.verbatim {name : Text} (h : ValidName name) : Verbatim name := by
  refine ⟨h.not_mem rfl, h.not_mem rfl, fun c hc => ?_, fun hlast => ?_⟩
  · exact isSpaceChar_of_isNameChar (h.2 c (List.mem_of_mem_head? hc))
  · exact h.not_mem (c := '\r') rfl (List.mem_of_getLast? hlast)

theorem ValidName.no_isSpace {name : Text} (h : ValidName name) : ∀ c ∈ name, isSpace c = false := by
  intro c hc
  have hspace := isSpaceChar_of_isNameChar (h.2 c hc)
  simp only [isSpaceChar, Bool.or_eq_false_iff] at hspace
  simp only [isSpace, Bool.or_eq_false_iff]
  exact hspace.1.1.1

/-- The words of `BR2_EXTERNAL_NAMES`. -/
theorem words_names {names : List Text} (h : ∀ name ∈ names, ValidName name) :
    words (names.flatMap (' ' :: ·)) = names := by
  have hspace : isSpace ' ' = true := rfl
  -- a word ends at the blank before the next one
  have hcons : ∀ (w : Text) (names : List Text), w ≠ [] → (∀ c ∈ w, isSpace c = false) →
      words (w ++ names.flatMap (' ' :: ·)) = w :: words (names.flatMap (' ' :: ·)) := by
    intro w names hne hw
    cases names with
    | nil => rw [List.flatMap_nil, List.append_nil, words_of_word hne hw]; rfl
    | cons name names =>
      rw [List.flatMap_cons, List.cons_append, words_word_space _ hne hw hspace]
      exact congrArg (w :: ·) (words_append_space [] _ hspace).symm
  induction names with
  | nil => rfl
  | cons name names ih =>
    rw [List.forall_mem_cons] at h
    rw [List.flatMap_cons, List.cons_append]
    have hblank := words_append_space [] (name ++ names.flatMap (' ' :: ·)) hspace
    rw [List.nil_append] at hblank
    rw [hblank, hcons name names h.1.1 h.1.no_isSpace, ih h.2]
    rfl

/-! ### The lines -/

theorem isSpaceChar_of_isVarChar {c : Char} (h : isVarChar c = true) : isSpaceChar c = false := by
  simp only [isVarChar, Bool.not_eq_true', Bool.or_eq_false_iff] at h
  exact h.1.1.1.1

/-- An assignment after `export`. -/
theorem assignment_export {name : Text} (hne : name ≠ []) (hname : ∀ c ∈ name, isVarChar c = true)
    (v : Text) :
    assignment ("export ".toList ++ (name ++ " = ".toList ++ v)) =
      some [.set name (v.dropWhile isSpaceChar)] := by
  have hrest : name ++ " = ".toList ++ v = name ++ ' ' :: '=' :: ' ' :: v := List.append_assoc _ _ _
  have hall : ("export ".toList ++ (name ++ ' ' :: '=' :: ' ' :: v)).all isSpaceChar = false := rfl
  have htab : ("export ".toList ++ (name ++ ' ' :: '=' :: ' ' :: v)).head? = some 'e' := rfl
  have hexport : ("export ".toList ++ (name ++ ' ' :: '=' :: ' ' :: v)).dropWhile isSpaceChar =
      "export ".toList ++ (name ++ ' ' :: '=' :: ' ' :: v) := rfl
  have hdrop7 : ("export ".toList ++ (name ++ ' ' :: '=' :: ' ' :: v)).drop 7 =
      name ++ ' ' :: '=' :: ' ' :: v := List.drop_left' rfl
  have hstart : (name ++ ' ' :: '=' :: ' ' :: v).dropWhile isSpaceChar =
      name ++ ' ' :: '=' :: ' ' :: v := by
    obtain ⟨c, name, rfl⟩ := List.exists_cons_of_ne_nil hne
    have hc := isSpaceChar_of_isVarChar (hname c (.head _))
    rw [List.cons_append, List.dropWhile_cons_of_neg (by simp [hc])]
  have htake : (name ++ ' ' :: '=' :: ' ' :: v).takeWhile isVarChar = name := by
    rw [List.takeWhile_append_of_pos hname, List.takeWhile_cons_of_neg (by decide), List.append_nil]
  have hdrop : (name ++ ' ' :: '=' :: ' ' :: v).dropWhile isVarChar = ' ' :: '=' :: ' ' :: v := by
    rw [List.dropWhile_append_of_pos hname, List.dropWhile_cons_of_neg (by decide)]
  rw [hrest, assignment, if_neg (by rw [hall]; decide), if_neg (by rw [htab]; decide)]
  dsimp only
  rw [hexport, if_pos (isPrefixOf_append _ _), hdrop7, hstart, htake, hdrop, if_neg hne]
  rfl

/-- An `export` line with a valid name. -/
theorem readLine_export {name v : Text} (hname : ValidName name) (hv : '\\' ∉ v) :
    readLine ("export ".toList ++ name ++ " = ".toList ++ v) = some [.set name (written v)] := by
  have hvar : ∀ c ∈ name, isVarChar c = true := fun c hc => isVarChar_of_isNameChar (hname.2 c hc)
  have hassign : ∀ w, assignment ("export ".toList ++ name ++ " = ".toList ++ w) =
      some [.set name (w.dropWhile isSpaceChar)] := by
    intro w
    rw [List.append_assoc "export ".toList, List.append_assoc "export ".toList]
    exact assignment_export hname.1 hvar w
  have hback : '\\' ∉ "export ".toList ++ name ++ " = ".toList := by
    simp [hname.not_mem (c := '\\') rfl]
  have hhash : '#' ∉ "export ".toList ++ name ++ " = ".toList := by
    simp [hname.not_mem (c := '#') rfl]
  have hlast : ("export ".toList ++ name ++ " = ".toList).getLast? = some ' ' :=
    List.mem_getLast?_append_of_mem_getLast? rfl
  have hreturn : ("export ".toList ++ name ++ " = ".toList).getLast? ≠ some '\r' := by
    rw [hlast]
    decide
  exact readLine_assign .set hback hhash hreturn hassign hv

/-- The lines of a tree without backslashes. -/
theorem readLines_mkLines {t : Tree} (hname : ValidName t.name) (hpath : '\\' ∉ t.path)
    (hdesc : '\\' ∉ t.desc) : Make.readLines (mkLines t) = some (treeAssigns t) := by
  have hnames : readLine ("BR2_EXTERNAL_NAMES += ".toList ++ t.name) =
      some [.append namesVar (written t.name)] :=
    readLine_assign .append (by decide) (by decide) (by decide) (fun _ => rfl) (hname.not_mem rfl)
  have hdirs : readLine ("BR2_EXTERNAL_DIRS += ".toList ++ t.path) =
      some [.append dirsVar (written t.path)] :=
    readLine_assign .append (by decide) (by decide) (by decide) (fun _ => rfl) hpath
  have hmks : readLine ("BR2_EXTERNAL_MKS += ".toList ++ t.path ++ "/external.mk".toList) =
      some [.append mksVar (written (t.path ++ "/external.mk".toList))] := by
    rw [List.append_assoc "BR2_EXTERNAL_MKS += ".toList]
    exact readLine_assign .append (by decide) (by decide) (by decide) (fun _ => rfl)
      (by simp [hpath])
  have hnil : readLine [] = some [] := rfl
  simp only [mkLines, Make.readLines, hnil, hnames, hdirs, hmks, readLine_export hname.pathVar hpath,
    readLine_export hname.descVar hdesc]
  rfl

theorem readLines_flatMap_mkLines {trees : List Tree} (hr : ∀ t ∈ trees, ValidName t.name)
    (hback : ∀ t ∈ trees, '\\' ∉ t.path ∧ '\\' ∉ t.desc) :
    Make.readLines (trees.flatMap mkLines) = some (trees.flatMap treeAssigns) := by
  induction trees with
  | nil => rfl
  | cons t trees ih =>
    rw [List.forall_mem_cons] at hr hback
    rw [List.flatMap_cons, Make.readLines_append, readLines_mkLines hr.1 hback.1.1 hback.1.2,
      ih hr.2 hback.2, List.flatMap_cons]

theorem mkLines_no_newline {t : Tree} (hname : ValidName t.name) (hdesc : '\n' ∉ t.desc)
    (hpath : '\n' ∉ t.path) : ∀ l ∈ mkLines t, '\n' ∉ l := by
  have hn : '\n' ∉ t.name := hname.not_mem rfl
  have hp : '\n' ∉ pathVar t.name := hname.pathVar.not_mem rfl
  have hd : '\n' ∉ descVar t.name := hname.descVar.not_mem rfl
  simp [mkLines, hn, hp, hd, hdesc, hpath]

/-- The variables before the first tree. -/
def initial (trees : List Tree) : List Assign :=
  [.default "BR2_EXTERNAL".toList (written (trees.flatMap (' ' :: ·.path))), .set namesVar [],
    .set dirsVar [], .set mksVar []]

theorem get?_initial (trees : List Tree) :
    ((initial trees).foldl Assign.apply Dict.empty).get? namesVar = some [] := by
  have hmks : namesVar ≠ mksVar := by decide
  have hdirs : namesVar ≠ dirsVar := by decide
  simp only [initial, List.foldl_cons, List.foldl_nil, Assign.apply]
  rw [Dict.get?_set_of_ne hmks, Dict.get?_set_of_ne hdirs, Dict.get?_set_self]

theorem not_mem_paths {trees : List Tree} {c : Char} (hc : c ≠ ' ') (hpath : ∀ t ∈ trees, c ∉ t.path) :
    c ∉ trees.flatMap (' ' :: ·.path) := by
  intro hmem
  obtain ⟨t, ht, hmem⟩ := List.mem_flatMap.mp hmem
  rcases List.mem_cons.mp hmem with h | h
  · exact hc h
  · exact hpath t ht h

theorem readLines_initial {trees : List Tree} (hback : ∀ t ∈ trees, '\\' ∉ t.path) :
    Make.readLines ["BR2_EXTERNAL ?=".toList ++ trees.flatMap (' ' :: ·.path),
      "BR2_EXTERNAL_NAMES = ".toList, "BR2_EXTERNAL_DIRS = ".toList, "BR2_EXTERNAL_MKS = ".toList] =
      some (initial trees) := by
  have hdefault : readLine ("BR2_EXTERNAL ?=".toList ++ trees.flatMap (' ' :: ·.path)) =
      some [.default "BR2_EXTERNAL".toList (written (trees.flatMap (' ' :: ·.path)))] :=
    readLine_assign .default (by decide) (by decide) (by decide) (fun _ => rfl)
      (not_mem_paths (by decide) hback)
  have hempty : readLine "BR2_EXTERNAL_NAMES = ".toList = some [.set namesVar []] ∧
      readLine "BR2_EXTERNAL_DIRS = ".toList = some [.set dirsVar []] ∧
      readLine "BR2_EXTERNAL_MKS = ".toList = some [.set mksVar []] := by decide
  obtain ⟨hnames, hdirs, hmks⟩ := hempty
  simp only [Make.readLines, hdefault, hnames, hdirs, hmks]
  rfl

theorem newline_not_mem_initial {trees : List Tree} (hpath : ∀ t ∈ trees, '\n' ∉ t.path) :
    ∀ l ∈ ["BR2_EXTERNAL ?=".toList ++ trees.flatMap (' ' :: ·.path),
      "BR2_EXTERNAL_NAMES = ".toList, "BR2_EXTERNAL_DIRS = ".toList, "BR2_EXTERNAL_MKS = ".toList],
      '\n' ∉ l := by
  intro l hl
  simp only [List.mem_cons, List.not_mem_nil, or_false] at hl
  rcases hl with rfl | rfl | rfl | rfl
  · rw [List.mem_append]
    exact fun h => h.elim (by decide) (not_mem_paths (by decide) hpath)
  all_goals decide

/-- The fragment sets the variables of the trees one after the other. -/
theorem read_doMk {trees : List Tree} (hr : Registered trees)
    (hnewline : ∀ t ∈ trees, '\n' ∉ t.desc ∧ '\n' ∉ t.path)
    (hback : ∀ t ∈ trees, '\\' ∉ t.path ∧ '\\' ∉ t.desc) :
    Make.read (doMk trees) =
      some ((trees.flatMap treeAssigns).foldl Assign.apply
        ((initial trees).foldl Assign.apply Dict.empty)) := by
  have hheader : Make.readLines header = some [] := by decide
  have hnone : Make.readLines [[], "# No br2-external tree defined.".toList] = some [] := by decide
  have hinitial := readLines_initial fun t ht => (hback t ht).1
  have htrees : Make.readLines (if trees = [] then [[], "# No br2-external tree defined.".toList]
      else trees.flatMap mkLines) = some (trees.flatMap treeAssigns) := by
    split
    next h => rw [hnone, h]; rfl
    next => exact readLines_flatMap_mkLines hr.valid hback
  rw [Make.read, doMk, ← List.append_nil (unlines _), lines_unlines, lines_nil]
  · have hend : Make.readLines [[]] = some [] := rfl
    simp only [Make.readLines_append, hheader, hinitial, htrees, hend, List.nil_append,
      List.append_nil, Option.map_some, List.foldl_append]
  · intro l hl
    simp only [List.mem_append] at hl
    rcases hl with (hl | hl) | hl
    · have hh : ∀ l ∈ header, '\n' ∉ l := by decide
      exact hh l hl
    · exact newline_not_mem_initial (fun t ht => (hnewline t ht).2) l hl
    · split at hl
      · have hh : ∀ l ∈ [[], "# No br2-external tree defined.".toList], '\n' ∉ l := by decide
        exact hh l hl
      · obtain ⟨t, ht, hl⟩ := List.mem_flatMap.mp hl
        exact mkLines_no_newline (hr.valid t ht) (hnewline t ht).1 (hnewline t ht).2 l hl

theorem mapM_map_eq_some {α β : Type*} {f : α → Option β} {g : β → α} {l : List β} :
    (l.map g).mapM f = some l ↔ ∀ b ∈ l, f (g b) = some b := by
  induction l with
  | nil => simp
  | cons b l ih =>
    rw [List.map_cons, List.mapM_cons, List.forall_mem_cons, ← ih]
    simp only [Option.bind_eq_bind, Option.bind_eq_some_iff, Option.pure_def, Option.some.injEq,
      List.cons.injEq]
    constructor
    · rintro ⟨_, hb, _, hl, rfl, rfl⟩
      exact ⟨hb, hl⟩
    · rintro ⟨hb, hl⟩
      exact ⟨b, hb, l, hl, rfl, rfl⟩

/-- The fragment gives the trees if and only if make leaves their descriptions and paths
as they are. -/
theorem mkTrees_doMk_iff {trees : List Tree} (hr : Registered trees)
    (hnewline : ∀ t ∈ trees, '\n' ∉ t.desc ∧ '\n' ∉ t.path)
    (hback : ∀ t ∈ trees, '\\' ∉ t.path ∧ '\\' ∉ t.desc) :
    (Make.read (doMk trees)).bind mkTrees = some trees ↔
      ∀ t ∈ trees, Verbatim t.desc ∧ Verbatim t.path := by
  rw [read_doMk hr hnewline hback, Option.bind_some]
  set vars := (trees.flatMap treeAssigns).foldl Assign.apply
    ((initial trees).foldl Assign.apply Dict.empty) with hvars
  have hwritten : ∀ t ∈ trees, ' ' :: written t.name = ' ' :: t.name := fun t ht => by
    rw [written_of_verbatim (hr.valid t ht).verbatim]
  have hnames : value vars namesVar = some ((trees.map Tree.name).flatMap (' ' :: ·)) := by
    have hget : vars.get? namesVar = some ((trees.map Tree.name).flatMap (' ' :: ·)) := by
      rw [hvars, get?_names trees (get?_initial trees), List.nil_append,
        List.flatMap_congr hwritten, List.flatMap_map]
    have hdollar : '$' ∉ (trees.map Tree.name).flatMap (' ' :: ·) := by
      intro hmem
      obtain ⟨name, hname, hmem⟩ := List.mem_flatMap.mp hmem
      obtain ⟨t, ht, rfl⟩ := List.mem_map.mp hname
      rcases List.mem_cons.mp hmem with h | h
      · cases h
      · exact (hr.valid t ht).not_mem rfl h
    rw [value, hget, Option.bind_some, expand_of_no_dollar hdollar]
  have hvalue : ∀ t ∈ trees, value vars (pathVar t.name) = expand (written t.path) ∧
      value vars (descVar t.name) = expand (written t.desc) := by
    intro t ht
    obtain ⟨hpath, hdesc⟩ := get?_own ((initial trees).foldl Assign.apply Dict.empty) hr.distinct t ht
    rw [value, value, hvars, hpath, hdesc]
    exact ⟨rfl, rfl⟩
  rw [mkTrees, hnames, Option.bind_some, words_names, mapM_map_eq_some]
  · refine forall₂_congr fun t ht => ?_
    obtain ⟨hpath, hdesc⟩ := hvalue t ht
    rw [hpath, hdesc, ← verbatim_iff, ← verbatim_iff]
    cases t
    cases expand (written _) <;> cases expand (written _) <;> simp [and_comm]
  · intro name hname
    obtain ⟨t, ht, rfl⟩ := List.mem_map.mp hname
    exact hr.valid t ht

end CargosBuildroot.External
