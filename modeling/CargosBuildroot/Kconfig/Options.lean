import CargosBuildroot.Kconfig.Reader
import CargosBuildroot.Sed.Greedy
import CargosBuildroot.Store.Keyed

/-! `KCONFIG_ENABLE_OPT`, `KCONFIG_SET_OPT` and `KCONFIG_DISABLE_OPT`. Each of them deletes the
lines of a `.config` file that have the name of the option as a word, wherever it stands, and
appends a line to the file. -/

namespace CargosBuildroot.Kconfig

open Shell Store Sed

/-! ### Options -/

/-- The name of an option. -/
@[ext] structure Name where
  text : Text
  ne_nil : text ≠ []
  chars : ∀ c ∈ text, isNameChar c = true
deriving DecidableEq

/-- A value that `echo` prints from between single quotes on one line. -/
structure Value where
  text : Text
  plain : ∀ c ∈ text, c ≠ '\x27' ∧ c ≠ '\n'

inductive Setting
  | enable
  | set (value : Value)
  | disable

/-- A call of one of the three, for a file. -/
structure Op where
  option : Name
  setting : Setting

/-- The line that `echo` appends. -/
def Op.line (op : Op) : Text :=
  match op.setting with
  | .enable => op.option.text ++ "=y".toList
  | .set value => op.option.text ++ '=' :: value.text
  | .disable => "# ".toList ++ op.option.text ++ " is not set".toList

/-- The option that a line of a `.config` file sets or unsets. -/
def lineOption (line : Text) : Option Text :=
  let name := line.takeWhile isNameChar
  let unset := (line.drop 2).takeWhile isNameChar
  if name ≠ [] ∧ (line.drop name.length).head? = some '=' then some name
  else if unset ≠ [] ∧ line = "# ".toList ++ unset ++ " is not set".toList then some unset
  else none

/-! ### The calls -/

/-- The characters of words, which beyond ASCII depend on the locale. -/
structure Locale where
  wordChar : Char → Bool
  ascii : ∀ c : Char, c.toNat < 128 → wordChar c = isNameChar c

/-- `/\<name\>/` finds the line. -/
def mentions (locale : Locale) (name : Name) (line : Text) : Bool :=
  (splits line).any fun (a, b) => name.text.isPrefixOf b && !a.getLast?.any locale.wordChar &&
    !(b.drop name.text.length).head?.any locale.wordChar

/-- `sed '/.../d'`: a line without a newline at the end of the file keeps none. -/
def sedDelete (p : Text → Bool) (t : Text) : Text :=
  unlines ((lines t).dropLast.filter (!p ·)) ++ (lines t).getLast?.elim [] fun l => if p l then [] else l

def Op.run (locale : Locale) (op : Op) (t : Text) : Text :=
  sedDelete (mentions locale op.option) t ++ op.line ++ ['\n']

def runAll (locale : Locale) (ops : List Op) (t : Text) : Text :=
  ops.foldl (fun t op => op.run locale t) t

/-- The line sets or unsets an option that the calls do not use. -/
def setsOther (ops : List Op) (line : Text) : Bool :=
  (lineOption line).any fun name => ops.all fun op => op.option.text ≠ name

/-- Every option of the calls has one line, for the last call, and the lines of the other options
are as they were. -/
structure EditsOnly (ops : List Op) (t t' : Text) : Prop where
  once : ∀ before op after, ops = before ++ op :: after → (∀ op' ∈ after, op'.option ≠ op.option) →
    (lines t').filter (fun l => lineOption l = some op.option.text) = [op.line]
  others : (lines t').filter (setsOther ops) = (lines t).filter (setsOther ops)

/-! ### Lines of options -/

variable {locale : Locale}

theorem mentions_iff {name : Name} {line : Text} : mentions locale name line = true ↔
    ∃ a b, line = a ++ (name.text ++ b) ∧ (∀ c ∈ a.getLast?, locale.wordChar c = false) ∧
      ∀ c ∈ b.head?, locale.wordChar c = false := by
  have hany : ∀ o : Option Char, (!o.any locale.wordChar) = true ↔ ∀ c ∈ o, locale.wordChar c = false := by
    intro o
    cases o <;> simp
  rw [mentions, List.any_eq_true]
  constructor
  · rintro ⟨⟨a, b⟩, hsplit, htest⟩
    rw [Bool.and_eq_true, Bool.and_eq_true, hany, hany, List.isPrefixOf_iff_prefix] at htest
    obtain ⟨⟨⟨rest, rfl⟩, ha⟩, hb⟩ := htest
    rw [List.drop_left] at hb
    exact ⟨a, rest, (mem_splits.mp hsplit).symm, ha, hb⟩
  · rintro ⟨a, b, rfl, ha, hb⟩
    refine ⟨(a, name.text ++ b), mem_splits.mpr rfl, ?_⟩
    rw [Bool.and_eq_true, Bool.and_eq_true, hany, hany, List.isPrefixOf_iff_prefix, List.drop_left]
    exact ⟨⟨List.prefix_append _ _, ha⟩, hb⟩

theorem lineOption_eq_some {line name : Text} (h : lineOption line = some name) :
    (∃ v, line = name ++ '=' :: v) ∨ line = "# ".toList ++ name ++ " is not set".toList := by
  unfold lineOption at h
  dsimp only at h
  split at h
  next hset =>
    obtain rfl := Option.some.inj h
    obtain ⟨v, hv⟩ := List.head?_eq_some_iff.mp hset.2
    refine .inl ⟨v, ?_⟩
    rw [← hv]
    have htake : line.takeWhile isNameChar = line.take (line.takeWhile isNameChar).length :=
      List.prefix_iff_eq_take.mp (List.takeWhile_prefix _)
    exact (List.take_append_drop _ line).symm.trans (congrArg (· ++ _) htake.symm)
  next =>
    split at h
    next hunset =>
      obtain rfl := Option.some.inj h
      exact .inr hunset.2
    next => cases h

/-- A line that sets an option has its name as a word. -/
theorem mentions_of_lineOption {name : Name} {line : Text} (h : lineOption line = some name.text) :
    mentions locale name line = true := by
  have hequals : locale.wordChar '=' = false := locale.ascii '=' (by decide)
  have hspace : locale.wordChar ' ' = false := locale.ascii ' ' (by decide)
  rw [mentions_iff]
  rcases lineOption_eq_some h with ⟨v, rfl⟩ | rfl
  · refine ⟨[], '=' :: v, rfl, by simp, ?_⟩
    simpa using hequals
  · refine ⟨"# ".toList, " is not set".toList, (List.append_assoc _ _ _).symm ▸ rfl, ?_, ?_⟩
    · simpa using hspace
    · simpa using hspace

theorem takeWhile_name (name : Name) {c : Char} (hc : isNameChar c = false) (t : Text) :
    (name.text ++ c :: t).takeWhile isNameChar = name.text := by
  rw [List.takeWhile_append_of_pos name.chars, List.takeWhile_cons_of_neg, List.append_nil]
  rw [hc]
  exact Bool.false_ne_true

/-- The appended line sets its option. -/
theorem lineOption_line (op : Op) : lineOption op.line = some op.option.text := by
  have hset : ∀ v : Text, lineOption (op.option.text ++ '=' :: v) = some op.option.text := by
    intro v
    unfold lineOption
    dsimp only
    rw [takeWhile_name _ (by decide), if_pos]
    exact ⟨op.option.ne_nil, by rw [List.drop_left]; rfl⟩
  unfold Op.line
  cases op.setting with
  | enable => exact hset ['y']
  | set value => exact hset value.text
  | disable =>
    have hname : ("# ".toList ++ op.option.text ++ " is not set".toList).takeWhile isNameChar = [] := by
      rw [List.append_assoc]
      rfl
    have hunset : (("# ".toList ++ op.option.text ++ " is not set".toList).drop 2).takeWhile isNameChar =
        op.option.text := by
      rw [List.append_assoc]
      exact takeWhile_name _ (by decide) _
    unfold lineOption
    dsimp only
    rw [hname, hunset, if_neg (fun h => h.1 rfl), if_pos ⟨op.option.ne_nil, rfl⟩]

theorem lineOption_nil : lineOption [] = none := by decide

/-! ### The file after the calls -/

/-- The lines that the calls write, by their options. -/
def writes (ops : List Op) : List (Name × Text) := ops.map fun op => (op.option, op.line)

theorem Op.no_newline_line (op : Op) : '\n' ∉ op.line := by
  have hname : '\n' ∉ op.option.text := fun h => absurd (op.option.chars _ h) (by decide)
  unfold Op.line
  cases op.setting with
  | enable =>
    rw [List.mem_append, not_or]
    exact ⟨hname, by decide⟩
  | set value =>
    simp only [List.mem_append, List.mem_cons, not_or]
    exact ⟨hname, by decide, fun h => (value.plain _ h).2 rfl⟩
  | disable =>
    simp only [List.mem_append, not_or]
    exact ⟨⟨by decide, hname⟩, by decide⟩

theorem sedDelete_unlines (p : Text → Bool) {ls : List Text} {last : Text} (hls : ∀ l ∈ ls, '\n' ∉ l)
    (hlast : '\n' ∉ last) : sedDelete p (unlines ls ++ last) =
      unlines (ls.filter (!p ·)) ++ if p last then [] else last := by
  have hlines : lines (unlines ls ++ last) = ls ++ [last] := by
    rw [lines_unlines hls, lines_of_no_newline hlast]
  rw [sedDelete, hlines, List.dropLast_concat, List.getLast?_concat]
  rfl

/-- What is left of the unfinished last line. -/
def leftOver (locale : Locale) (op : Op) (last : Text) : Text :=
  if mentions locale op.option last then [] else last

theorem run_unlines (op : Op) {ls : List Text} {last : Text} (hls : ∀ l ∈ ls, '\n' ∉ l)
    (hlast : '\n' ∉ last) : op.run locale (unlines ls ++ last) =
      unlines (ls.filter (!mentions locale op.option ·) ++ [leftOver locale op last ++ op.line]) := by
  rw [Op.run, sedDelete_unlines _ hls hlast, unlines_append, leftOver]
  simp only [unlines, List.flatMap_singleton, List.append_assoc]

theorem no_newline_put {op : Op} {ls : List Text} (hls : ∀ l ∈ ls, '\n' ∉ l) {l : Text}
    (hl : l ∈ put (mentions locale) op.option op.line ls) : '\n' ∉ l := by
  rcases mem_put.mp hl with ⟨hl, -⟩ | rfl
  · exact hls l hl
  · exact op.no_newline_line

/-- On a file that ends with a newline, a call writes a record. -/
theorem runAll_unlines (ops : List Op) {ls : List Text} (hls : ∀ l ∈ ls, '\n' ∉ l) :
    runAll locale ops (unlines ls) = unlines (puts (mentions locale) (writes ops) ls) := by
  induction ops generalizing ls with
  | nil => rfl
  | cons op ops ih =>
    have hrun : op.run locale (unlines ls ++ []) = _ := run_unlines op hls List.not_mem_nil
    have hnil : leftOver locale op [] = [] := ite_self _
    rw [List.append_nil, hnil, List.nil_append] at hrun
    rw [runAll, List.foldl_cons, hrun, ← runAll]
    exact ih fun l hl => no_newline_put hls hl

theorem untouched_cons (op : Op) (ops : List Op) (l : Text) :
    untouched (mentions locale) (writes (op :: ops)) l =
      (!mentions locale op.option l && untouched (mentions locale) (writes ops) l) := rfl

/-- The lines after the calls: those that no call deletes, the unfinished line with the first line
written behind it, and the other lines written. -/
theorem lines_runAll (op : Op) (ops : List Op) {ls : List Text} {last : Text}
    (hls : ∀ l ∈ ls, '\n' ∉ l) (hlast : '\n' ∉ last) :
    lines (runAll locale (op :: ops) (unlines ls ++ last)) =
      ls.filter (untouched (mentions locale) (writes (op :: ops))) ++
        [leftOver locale op last ++ op.line].filter (untouched (mentions locale) (writes ops)) ++
        puts (mentions locale) (writes ops) [] ++ [[]] := by
  have hjoined : '\n' ∉ leftOver locale op last ++ op.line := by
    rw [List.mem_append, not_or, leftOver]
    refine ⟨?_, op.no_newline_line⟩
    split
    · exact List.not_mem_nil
    · exact hlast
  have hfirst : ∀ l ∈ ls.filter (!mentions locale op.option ·) ++ [leftOver locale op last ++ op.line],
      '\n' ∉ l := by
    refine List.forall_mem_append.mpr ⟨fun l hl => hls l (List.mem_filter.mp hl).1, ?_⟩
    exact List.forall_mem_singleton.mpr hjoined
  have hwritten : ∀ l ∈ puts (mentions locale) (writes ops) [], '\n' ∉ l := by
    intro l hl
    obtain ⟨write, hwrite, rfl⟩ := mem_puts_nil hl
    obtain ⟨op', -, rfl⟩ := List.mem_map.mp hwrite
    exact op'.no_newline_line
  rw [runAll, List.foldl_cons, run_unlines op hls hlast, ← runAll, runAll_unlines _ hfirst, puts_eq]
  have hlines := lines_unlines (List.forall_mem_append.mpr
    ⟨fun l hl => hfirst l (List.mem_filter.mp hl).1, hwritten⟩ :
      ∀ l ∈ (ls.filter (!mentions locale op.option ·) ++ [leftOver locale op last ++ op.line]).filter
        (untouched (mentions locale) (writes ops)) ++ puts (mentions locale) (writes ops) [], '\n' ∉ l) []
  rw [List.append_nil] at hlines
  have hkept : ls.filter (fun l => untouched (mentions locale) (writes ops) l &&
      !mentions locale op.option l) = ls.filter (untouched (mentions locale) (writes (op :: ops))) :=
    List.filter_congr fun l _ => by rw [untouched_cons, Bool.and_comm]
  rw [hlines, List.filter_append, List.filter_filter, hkept, lines_nil]

end CargosBuildroot.Kconfig
