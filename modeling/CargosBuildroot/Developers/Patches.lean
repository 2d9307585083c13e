import CargosBuildroot.Python.Paths

/-! The patches that `get-developers` reads. `analyze_patches` takes the files from the `+++`
lines, and the package infrastructures from the added lines and from the files themselves. A
patch also touches files without a `+++` line of their name, such as the files it removes. -/

namespace CargosBuildroot.Developers

open Shell Python

/-- What the scripts see of the file system. An absolute pattern has absolute matches. -/
structure Tree where
  cwd : Text
  glob : Text → List Text
  read : Text → Option Text
  cwd_absolute : cwd.head? = some '/'
  glob_absolute : ∀ pattern, pattern.head? = some '/' → ∀ p ∈ glob pattern, p.head? = some '/'

/-! ### Patch parsing functions -/

/-- What is before the `$` of a pattern: the text, or all but its last newline. -/
def beforeDollar (l : Text) : Text := if l.getLast? = some '\n' then l.dropLast else l

/-- The match of `FIND_INFRA_IN_MK`, its second group. -/
def findInfraInMk (l : Text) : Option Text :=
  match ((beforeDollar l).dropPrefix? "$(eval $(".toList).bind (·.dropSuffix? "-package))".toList) with
  | none => none
  | some m =>
    let infra := (m.dropPrefix? "host-".toList).getD m
    if '-' ∈ infra then none else some infra

/-- The match of `FIND_INFRA_IN_PATCH`, its second group. -/
def findInfraInPatch : Text → Option Text
  | '+' :: l => findInfraInMk l
  | _ => none

/-- The file name that `analyze_patch` takes from a line. -/
def headerName (line : Text) : Option Text :=
  if "+++ ".toList.isPrefixOf line then
    let fname := strip (if '/' ∈ line then line.drop (line.idxOf '/' + 1) else line)
    if fname = "dev/null".toList then none else some fname
  else none

/-- `s.add(x)` where there is an `x`. -/
def add (s : List Text) (x : Option Text) : List Text := x.elim s fun x => s.insert x

def analyzePatch (patch : Text) : List Text × List Text :=
  (readlines patch).foldl
    (fun acc line => (add acc.1 (headerName line), add acc.2 (findInfraInPatch line))) ([], [])

def fnameGetPackageInfra (T : Tree) (fname : Text) : Option Text :=
  if ".mk".toList.isSuffixOf fname then
    (T.read fname).bind fun text => (readlines text).findSome? fun l => findInfraInMk (strip l)
  else none

def getInfras (T : Tree) (files : List Text) : List Text :=
  files.foldl (fun infras fname =>
    add infras ((fnameGetPackageInfra T fname).filter (· ≠ []))) []

def analyzePatches (T : Tree) (patches : List Text) : List Text × List Text :=
  let all := patches.foldl (fun all patch =>
    (all.1 ∪ (analyzePatch patch).1, all.2 ∪ (analyzePatch patch).2)) ([], [])
  (all.1, all.2 ∪ getInfras T all.1)

/-! ### Patches -/

/-- A byte that git writes as it is in the name of a file. -/
def isPlainByte (c : Char) : Bool := ' ' ≤ c && c < '\x7f' && c ≠ '\x22' && c ≠ '\\'

def escapeByte (c : Char) : Text :=
  if isPlainByte c then [c]
  else if c = '\x22' ∨ c = '\\' then ['\\', c]
  else if 7 ≤ c.toNat ∧ c.toNat ≤ 13 then ['\\', "abtnvfr".toList.getD (c.toNat - 7) ' ']
  else '\\' :: [c.toNat / 64 % 8, c.toNat / 8 % 8, c.toNat % 8].map Nat.digitChar

/-- A name with another byte is put in quotes. -/
def quoted (name : Text) : Bool := name.any fun c => !isPlainByte c

/-- The rest of a `---` or `+++` line after the first slash. -/
def shown (name : Text) : Text :=
  (if quoted name then name.flatMap escapeByte ++ ['\x22'] else name) ++
    if ' ' ∈ name then ['\t'] else []

def side (dir : Char) (name : Option Text) : Text :=
  name.elim "/dev/null".toList fun name =>
    (if quoted name then ['\x22'] else []) ++ dir :: '/' :: shown name

/-- The change of one file. A file that the patch adds has no old name, one that it removes no
new name, and there are no hunks when the file is only renamed or copied or is not a text. -/
structure FileDiff where
  old : Option Text
  new : Option Text
  header : List Text
  hunks : Option (List Text)
  header_lines : ∀ l ∈ header, '\n' ∉ l
  hunks_lines : ∀ ls ∈ hunks, ∀ l ∈ ls, '\n' ∉ l

def FileDiff.lines (d : FileDiff) : List Text :=
  d.header ++ d.hunks.elim [] fun ls =>
    ("--- ".toList ++ side 'a' d.old) :: ("+++ ".toList ++ side 'b' d.new) :: ls

/-- A patch as `git format-patch` writes it. -/
structure Patch where
  message : List Text
  diffs : List FileDiff
  trailer : List Text
  message_lines : ∀ l ∈ message, '\n' ∉ l
  trailer_lines : ∀ l ∈ trailer, '\n' ∉ l

def Patch.lines (p : Patch) : List Text :=
  p.message ++ p.diffs.flatMap FileDiff.lines ++ p.trailer

def Patch.text (p : Patch) : Text := unlines p.lines

/-- The new file is a copy of the old one, which stays as it is. -/
def FileDiff.Copies (d : FileDiff) : Prop := ∃ l ∈ d.header, "copy from ".toList <+: l

/-- The patch modifies, adds or removes the file. -/
def Patch.Touches (p : Patch) (f : Text) : Prop :=
  ∃ d ∈ p.diffs, (d.old = some f ∧ ¬ d.Copies) ∨ d.new = some f

/-- The lines that do not name the sides of a change. -/
def Patch.otherLines (p : Patch) : List Text :=
  p.message ++ p.diffs.flatMap (fun d => d.header ++ d.hunks.getD []) ++ p.trailer

/-- The script reads the name in the patch: it is the new name in a change with hunks, less the
white space around it, or another line looks like a `+++` line. -/
def Patch.Reads (p : Patch) (f : Text) : Prop :=
  (∃ d ∈ p.diffs, ∃ name, d.new = some name ∧ d.hunks ≠ none ∧ f = strip (shown name) ∧
    f ≠ "dev/null".toList) ∨ ∃ l ∈ p.otherLines, headerName l = some f

/-- The line evaluates the package infrastructure for the target or for the host. -/
def Evaluates (infra line : Text) : Prop :=
  infra ≠ [] ∧ '-' ∉ infra ∧ (line = "$(eval $(".toList ++ infra ++ "-package))".toList ∨
    line = "$(eval $(host-".toList ++ infra ++ "-package))".toList)

/-- The patches use the infrastructure: a line that they add evaluates it, or a line of a
makefile that they touch. -/
def UsesInfra (T : Tree) (ps : List Patch) (infra : Text) : Prop :=
  ∃ p ∈ ps, (∃ d ∈ p.diffs, ∃ ls ∈ d.hunks, ∃ l, '+' :: l ∈ ls ∧ Evaluates infra l) ∨
    ∃ f, p.Touches f ∧ ".mk".toList <:+ f ∧
      ∃ text ∈ T.read f, ∃ l ∈ readlines text, Evaluates infra (strip l)

/-! ### The names that are read -/

/-- A loop that collects: a step adds what its element gives. -/
theorem foldl_collects {α β : Type*} {f : β → α → β} {P : β → Prop} {Q : α → Prop}
    (step : ∀ b a, P (f b a) ↔ P b ∨ Q a) (l : List α) (b : β) :
    P (l.foldl f b) ↔ P b ∨ ∃ a ∈ l, Q a := by
  induction l generalizing b with
  | nil => simp
  | cons a l ih =>
    simp only [List.foldl_cons, ih, step, List.mem_cons, exists_eq_or_imp, or_assoc]

theorem mem_add {s : List Text} {x : Option Text} {y : Text} :
    y ∈ add s x ↔ y ∈ s ∨ x = some y := by
  cases x with
  | none => simp [add]
  | some x =>
    rw [add, Option.elim_some, List.mem_insert_iff, Option.some_inj, or_comm, eq_comm]

theorem mem_analyzePatch {patch f : Text} :
    f ∈ (analyzePatch patch).1 ↔ ∃ line ∈ readlines patch, headerName line = some f := by
  have h := foldl_collects (P := fun acc : List Text × List Text => f ∈ acc.1)
    (f := fun acc line => (add acc.1 (headerName line), add acc.2 (findInfraInPatch line)))
    (fun _ _ => mem_add) (readlines patch) ([], [])
  rw [analyzePatch, h]
  simp

theorem mem_analyzePatches {T : Tree} {patches : List Text} {f : Text} :
    f ∈ (analyzePatches T patches).1 ↔ ∃ patch ∈ patches, f ∈ (analyzePatch patch).1 := by
  have h := foldl_collects (P := fun all : List Text × List Text => f ∈ all.1)
    (f := fun all patch => (all.1 ∪ (analyzePatch patch).1, all.2 ∪ (analyzePatch patch).2))
    (fun _ _ => List.mem_union_iff) patches ([], [])
  simp only [analyzePatches, h]
  simp

theorem dropWhile_newline (t : Text) : (t ++ ['\n']).dropWhile isWhitespace =
    if t.dropWhile isWhitespace = [] then [] else t.dropWhile isWhitespace ++ ['\n'] := by
  rw [List.dropWhile_append]
  simp only [List.isEmpty_iff]
  split_ifs <;> rfl

theorem strip_newline (t : Text) : strip (t ++ ['\n']) = strip t := by
  rw [strip, dropWhile_newline, strip]
  split_ifs with h
  · rw [h]
  · exact List.rdropWhile_concat_pos _ _ _ (by decide)

theorem headerName_newline (l : Text) : headerName (l ++ ['\n']) = headerName l := by
  have hmark : "+++ ".toList.isPrefixOf (l ++ ['\n']) = "+++ ".toList.isPrefixOf l := by
    rw [Bool.eq_iff_iff, List.isPrefixOf_iff_prefix, List.isPrefixOf_iff_prefix,
      List.prefix_concat_iff]
    constructor
    · rintro (h | h)
      · have := congrArg List.getLast? h
        simp at this
      · exact h
    · exact Or.inr
  have hname : strip (if '/' ∈ l ++ ['\n'] then (l ++ ['\n']).drop ((l ++ ['\n']).idxOf '/' + 1)
      else l ++ ['\n']) = strip (if '/' ∈ l then l.drop (l.idxOf '/' + 1) else l) := by
    by_cases h : '/' ∈ l
    · have hlt := List.idxOf_lt_length_of_mem h
      rw [if_pos (List.mem_append_left _ h), if_pos h, List.idxOf_append_of_mem h,
        List.drop_append_of_le_length (by omega), strip_newline]
    · rw [if_neg (by simp [h]), if_neg h, strip_newline]
  rw [headerName, headerName, hmark]
  simp only [hname]

theorem headerName_slash {u v : Text} (hu : '/' ∉ u) (hmark : "+++ ".toList <+: u ++ '/' :: v) :
    headerName (u ++ '/' :: v) =
      if strip v = "dev/null".toList then none else some (strip v) := by
  have hdrop : (u ++ '/' :: v).drop ((u ++ '/' :: v).idxOf '/' + 1) = v := by
    rw [List.idxOf_append_of_notMem hu, List.idxOf_cons_self]
    simp
  have hmem : '/' ∈ u ++ '/' :: v := by simp
  rw [headerName, if_pos (List.isPrefixOf_iff_prefix.mpr hmark)]
  simp only [if_pos hmem, hdrop]

/-- The name on a `+++` line is read without the white space around it. -/
theorem headerName_side (name : Option Text) (f : Text) :
    headerName ("+++ ".toList ++ side 'b' name) = some f ↔
      ∃ n, name = some n ∧ f = strip (shown n) ∧ f ≠ "dev/null".toList := by
  cases name with
  | none =>
    have h : headerName ("+++ ".toList ++ side 'b' none) = none := by decide
    rw [h]
    simp
  | some n =>
    have h : "+++ ".toList ++ side 'b' (some n) =
        ("+++ ".toList ++ (if quoted n then ['\x22'] else []) ++ ['b']) ++ '/' :: shown n := by
      rw [side, Option.elim_some]
      simp only [List.append_assoc, List.cons_append, List.nil_append]
    have hu : '/' ∉ "+++ ".toList ++ (if quoted n then ['\x22'] else []) ++ ['b'] := by
      split_ifs <;> decide
    have hmark : "+++ ".toList <+:
        ("+++ ".toList ++ (if quoted n then ['\x22'] else []) ++ ['b']) ++ '/' :: shown n := by
      rw [List.append_assoc, List.append_assoc]
      exact List.prefix_append _ _
    rw [h, headerName_slash hu hmark]
    split_ifs with hdev
    · simp [hdev]
    · constructor
      · intro hf
        obtain rfl := Option.some.inj hf
        exact ⟨n, rfl, rfl, hdev⟩
      · rintro ⟨n', hn, rfl, _⟩
        obtain rfl := Option.some.inj hn
        rfl

theorem headerName_old (name : Option Text) :
    headerName ("--- ".toList ++ side 'a' name) = none := by
  rw [headerName, if_neg (by simp [List.isPrefixOf])]

/-! ### The lines of a patch -/

theorem escapeByte_newline (c : Char) : '\n' ∉ escapeByte c := by
  have hdigit : ∀ n < 8, Nat.digitChar n ≠ '\n' := by decide
  rw [escapeByte]
  split_ifs with hplain hquote hletter
  · intro h
    obtain rfl := List.mem_singleton.mp h
    exact absurd hplain (by decide)
  · rcases hquote with rfl | rfl <;> decide
  · obtain ⟨h7, h13⟩ := hletter
    have hletters : ∀ n < 7, '\n' ∉ ['\\', "abtnvfr".toList.getD n ' '] := by decide
    exact hletters _ (by omega)
  · intro h
    rcases List.mem_cons.mp h with h | h
    · exact absurd h (by decide)
    · obtain ⟨n, hn, hc⟩ := List.mem_map.mp h
      refine hdigit n ?_ hc
      simp only [List.mem_cons, List.not_mem_nil, or_false] at hn
      rcases hn with rfl | rfl | rfl <;> exact Nat.mod_lt _ (by decide)

theorem shown_newline (name : Text) : '\n' ∉ shown name := by
  rw [shown, List.mem_append, not_or]
  constructor
  · split_ifs with hq
    · simp only [List.mem_append, List.mem_flatMap, not_or, not_exists, not_and]
      exact ⟨fun c _ => escapeByte_newline c, by decide⟩
    · intro h
      exact hq (List.any_eq_true.mpr ⟨'\n', h, by decide⟩)
  · split_ifs <;> decide

theorem side_newline {dir : Char} (hdir : dir ≠ '\n') (name : Option Text) :
    '\n' ∉ side dir name := by
  cases name with
  | none =>
    rw [side, Option.elim_none]
    decide
  | some n =>
    simp only [side, Option.elim_some, List.mem_append, List.mem_cons, not_or]
    exact ⟨by split_ifs <;> decide, hdir.symm, by decide, shown_newline n⟩

theorem Patch.lines_newline (p : Patch) : ∀ l ∈ p.lines, '\n' ∉ l := by
  intro l hl
  rw [Patch.lines, List.mem_append, List.mem_append, List.mem_flatMap] at hl
  rcases hl with (hl | ⟨d, _, hl⟩) | hl
  · exact p.message_lines l hl
  · rw [FileDiff.lines, List.mem_append] at hl
    rcases hl with hl | hl
    · exact d.header_lines l hl
    · cases hh : d.hunks with
      | none => simp [hh] at hl
      | some ls =>
        rw [hh, Option.elim_some, List.mem_cons, List.mem_cons] at hl
        rcases hl with rfl | rfl | hl
        · simpa using side_newline (by decide) d.old
        · simpa using side_newline (by decide) d.new
        · exact d.hunks_lines ls hh l hl
  · exact p.trailer_lines l hl

theorem FileDiff.headerName_lines (d : FileDiff) (f : Text) :
    (∃ l ∈ d.lines, headerName l = some f) ↔
      (∃ name, d.new = some name ∧ d.hunks ≠ none ∧ f = strip (shown name) ∧
        f ≠ "dev/null".toList) ∨ ∃ l ∈ d.header ++ d.hunks.getD [], headerName l = some f := by
  cases hh : d.hunks with
  | none => simp [FileDiff.lines, hh]
  | some ls =>
    simp only [FileDiff.lines, hh, Option.elim_some, Option.getD_some, List.mem_append,
      List.mem_cons, or_and_right, exists_or, exists_eq_left, headerName_old, headerName_side]
    simp only [reduceCtorEq, false_or, ne_eq, not_false_eq_true, true_and]
    exact or_left_comm

theorem exists_mem_flatMap {α β : Type*} {g : α → List β} {l : List α} {P : β → Prop} :
    (∃ y ∈ l.flatMap g, P y) ↔ ∃ x ∈ l, ∃ y ∈ g x, P y := by
  constructor
  · rintro ⟨y, hy, h⟩
    obtain ⟨x, hx, hy⟩ := List.mem_flatMap.mp hy
    exact ⟨x, hx, y, hy, h⟩
  · rintro ⟨x, hx, y, hy, h⟩
    exact ⟨y, List.mem_flatMap.mpr ⟨x, hx, hy⟩, h⟩

/-- The script reads the names that the patch shows, and takes other lines for names. -/
theorem mem_analyzePatch_text {p : Patch} {f : Text} :
    f ∈ (analyzePatch p.text).1 ↔ p.Reads f := by
  have hlines : (∃ line ∈ readlines p.text, headerName line = some f) ↔
      ∃ l ∈ p.lines, headerName l = some f := by
    simp only [Patch.text, readlines_unlines p.lines_newline, List.mem_map,
      exists_exists_and_eq_and, headerName_newline]
  rw [mem_analyzePatch, hlines, Patch.lines, Patch.Reads, Patch.otherLines]
  simp only [List.mem_append, or_and_right, exists_or, exists_mem_flatMap,
    FileDiff.headerName_lines, and_or_left]
  constructor
  · rintro ((h | h | h) | h)
    · exact Or.inr (Or.inl (Or.inl h))
    · exact Or.inl h
    · exact Or.inr (Or.inl (Or.inr h))
    · exact Or.inr (Or.inr h)
  · rintro (h | (h | h) | h)
    · exact Or.inl (Or.inr (Or.inl h))
    · exact Or.inl (Or.inl h)
    · exact Or.inl (Or.inr (Or.inr h))
    · exact Or.inr h

end CargosBuildroot.Developers
