import CargosBuildroot.Shell.Read

/-! Text that make hands to `printf` (`PRINTF` in `utils.mk`). The macro escapes what
the format of `printf` and the single quotes of the shell treat specially; the shell
and `printf` undo it, and what comes out is the text between the blanks that the line
continuations of the macro leave and a newline. -/

namespace CargosBuildroot.Shell

/-- `$(subst c,new,t)` -/
def subst (c : Char) (new t : Text) : Text := t.flatMap fun d => if d = c then new else [d]

/-- The word after `printf` in the command that `$(call PRINTF,t)` expands to. Each
continuation line of the macro leaves one blank. -/
def printfWord (t : Text) : Text :=
  '\x27' :: (subst '\n' "\\n".toList
    (' ' :: subst '%' "%%".toList
      (' ' :: subst '\x27' "'\\''".toList
        (' ' :: subst '\\' "\\\\".toList t))) ++ "\\n'".toList)

/-- The value of a word of the shell that is made of single-quoted parts and characters
escaped by a backslash; the flag tells whether a quote is open. -/
def unquote : Bool → Text → Option Text
  | false, [] => some []
  | true, [] => none
  | true, '\x27' :: t => unquote false t
  | true, c :: t => (unquote true t).map (c :: ·)
  | false, '\x27' :: t => unquote true t
  | false, '\\' :: c :: t => (unquote false t).map (c :: ·)
  | false, _ :: _ => none

/-- What `printf` writes for a format without arguments, whose only escapes are a
backslash and a newline. -/
def printf : Text → Option Text
  | [] => some []
  | '\\' :: '\\' :: t => (printf t).map ('\\' :: ·)
  | '\\' :: 'n' :: t => (printf t).map ('\n' :: ·)
  | '%' :: '%' :: t => (printf t).map ('%' :: ·)
  | c :: t => if c = '\\' ∨ c = '%' then none else (printf t).map (c :: ·)

/-- What `$(call PRINTF,t)` writes. -/
def printfOutput (t : Text) : Option Text := (unquote false (printfWord t)).bind printf

/-! ### The escapes of one character -/

/-- A character in the word of the shell. -/
def quoteChar (c : Char) : Text :=
  if c = '\\' then "\\\\".toList else if c = '\x27' then "'\\''".toList
  else if c = '%' then "%%".toList else if c = '\n' then "\\n".toList else [c]

/-- A character in the format. -/
def formatChar (c : Char) : Text :=
  if c = '\\' then "\\\\".toList else if c = '%' then "%%".toList
  else if c = '\n' then "\\n".toList else [c]

/-- The four substitutions escape every character on its own. -/
theorem subst_subst (t : Text) :
    subst '\n' "\\n".toList (subst '%' "%%".toList
      (subst '\x27' "'\\''".toList (subst '\\' "\\\\".toList t))) = t.flatMap quoteChar := by
  simp only [subst, List.flatMap_assoc]
  refine List.flatMap_congr fun c _ => ?_
  by_cases hb : c = '\\'
  · subst hb
    rfl
  by_cases hq : c = '\x27'
  · subst hq
    rfl
  by_cases hp : c = '%'
  · subst hp
    rfl
  simp [quoteChar, hb, hq, hp]

theorem printfWord_eq (t : Text) :
    printfWord t = '\x27' :: (("   ".toList ++ t).flatMap quoteChar ++ "\\n'".toList) := by
  have hblank : ∀ (c : Char) (new t : Text), c ≠ ' ' →
      subst c new (' ' :: t) = ' ' :: subst c new t := by
    intro c new t hc
    simp [subst, hc.symm]
  rw [printfWord, hblank _ _ _ (by decide), hblank _ _ _ (by decide), hblank _ _ _ (by decide),
    hblank _ _ _ (by decide), hblank _ _ _ (by decide), hblank _ _ _ (by decide), subst_subst]
  rfl

theorem unquote_char {c : Char} (hc : c ≠ '\x27') (t : Text) :
    unquote true (c :: t) = (unquote true t).map (c :: ·) := by
  rw [unquote]
  exact hc

theorem unquote_quoteChar (c : Char) (t : Text) :
    unquote true (quoteChar c ++ t) = (unquote true t).map (formatChar c ++ ·) := by
  by_cases hb : c = '\\'
  · subst hb
    simp [quoteChar, formatChar, unquote, Function.comp_def]
  by_cases hq : c = '\x27'
  · subst hq
    simp [quoteChar, formatChar, unquote]
  by_cases hp : c = '%'
  · subst hp
    simp [quoteChar, formatChar, unquote, Function.comp_def]
  by_cases hn : c = '\n'
  · subst hn
    simp [quoteChar, formatChar, unquote, Function.comp_def]
  simp [quoteChar, formatChar, hb, hq, hp, hn, unquote_char]

theorem unquote_flatMap (s t : Text) :
    unquote true (s.flatMap quoteChar ++ t) = (unquote true t).map (s.flatMap formatChar ++ ·) := by
  induction s with
  | nil => simp
  | cons c s ih =>
    rw [List.flatMap_cons, List.append_assoc, unquote_quoteChar, ih]
    simp [Function.comp_def]

theorem printf_formatChar (c : Char) (t : Text) :
    printf (formatChar c ++ t) = (printf t).map (c :: ·) := by
  by_cases hb : c = '\\'
  · subst hb
    simp [formatChar, printf]
  by_cases hp : c = '%'
  · subst hp
    simp [formatChar, printf]
  by_cases hn : c = '\n'
  · subst hn
    simp [formatChar, printf]
  have hchar : printf (c :: t) = if c = '\\' ∨ c = '%' then none else (printf t).map (c :: ·) := by
    rw [printf]
    all_goals simp [hb, hp]
  simp [formatChar, hb, hp, hn, hchar]

theorem printf_flatMap (s t : Text) :
    printf (s.flatMap formatChar ++ t) = (printf t).map (s ++ ·) := by
  induction s with
  | nil => simp
  | cons c s ih =>
    rw [List.flatMap_cons, List.append_assoc, printf_formatChar, ih]
    simp [Function.comp_def]

/-- The macro writes the text, between three blanks and a newline. -/
theorem printfOutput_eq (t : Text) : printfOutput t = some ("   ".toList ++ t ++ ['\n']) := by
  have hend : unquote true "\\n'".toList = some "\\n".toList := by decide
  have hnewline : printf "\\n".toList = some ['\n'] := by decide
  rw [printfOutput, printfWord_eq, unquote, unquote_flatMap, hend, Option.map_some, Option.bind_some,
    printf_flatMap, hnewline, Option.map_some]

/-! ### The command -/

/-- Characters that the shell does not take as they are outside of quotes, other than blanks,
quotes and backslashes. -/
def isShellSpecial (c : Char) : Bool := c ∈ "\x22$\x60|&;<>()\x7b\x7d*?[]#~=!%\n".toList

/-- The words of a simple command, after the part `word` of one, and whether a single quote is open;
`none` if it is more than words, or a quote or an escape is not complete. -/
def commandWords : Option Text → Bool → Text → Option (List Text)
  | _, true, [] => none
  | word, false, [] => some word.toList
  | word, true, c :: t =>
    if c = '\x27' then commandWords word false t
    else commandWords (some (word.getD [] ++ [c])) true t
  | word, false, '\\' :: c :: t =>
    if c = '\n' then commandWords word false t
    else commandWords (some (word.getD [] ++ [c])) false t
  | word, false, c :: t =>
    if c = ' ' ∨ c = '\t' then (commandWords none false t).map (word.toList ++ ·)
    else if c = '\x27' then commandWords (some (word.getD [])) true t
    else if c = '\\' ∨ isShellSpecial c = true then none
    else commandWords (some (word.getD [] ++ [c])) false t

/-- What `$(call PRINTF,t)` expands to in a recipe. -/
def printfCommand (t : Text) : Text := "\tprintf ".toList ++ printfWord t

/-- A word of quoted parts is one word of the command. -/
theorem commandWords_of_unquote {quoted : Bool} {w v : Text} (h : unquote quoted w = some v)
    (hw : '\n' ∉ w) (word : Text) : commandWords (some word) quoted w = some [word ++ v] := by
  induction quoted, w using unquote.induct generalizing word v with
  | case1 =>
    obtain rfl := Option.some.inj h
    rw [List.append_nil]
    rfl
  | case2 => cases h
  | case3 t ih =>
    rw [List.mem_cons, not_or] at hw
    exact ih h hw.2 word
  | case4 c t hc ih =>
    rw [List.mem_cons, not_or] at hw
    rw [unquote_char hc] at h
    obtain ⟨u, hu, rfl⟩ := Option.map_eq_some_iff.mp h
    rw [commandWords, if_neg hc, Option.getD_some, ih hu hw.2, List.append_assoc]
    rfl
  | case5 t ih =>
    rw [List.mem_cons, not_or] at hw
    exact ih h hw.2 word
  | case6 c t ih =>
    simp only [List.mem_cons, not_or] at hw
    rw [unquote] at h
    obtain ⟨u, hu, rfl⟩ := Option.map_eq_some_iff.mp h
    rw [commandWords, if_neg (Ne.symm hw.2.1), Option.getD_some, ih hu hw.2.2, List.append_assoc]
    rfl
  | case7 c t hquote hescape =>
    rw [unquote] at h
    · cases h
    · exact hquote
    · exact hescape

/-- The name of the command and the blanks around it. -/
theorem commandWords_printf (w : Text) : commandWords none false ("\tprintf ".toList ++ '\x27' :: w) =
    (commandWords (some []) true w).map (["printf".toList] ++ ·) := by
  have hblanks : commandWords none false ("\tprintf ".toList ++ '\x27' :: w) =
      ((commandWords (some []) true w).map (["printf".toList] ++ ·)).map ([] ++ ·) := rfl
  rw [hblanks, Option.map_map]
  rfl

theorem no_newline_printfWord (t : Text) : '\n' ∉ printfWord t := by
  have hchar : ∀ c, '\n' ∉ quoteChar c := by
    intro c
    unfold quoteChar
    split_ifs with hb hq hp hn
    · decide
    · decide
    · decide
    · decide
    · exact fun h => hn (List.mem_singleton.mp h).symm
  rw [printfWord_eq, List.mem_cons, List.mem_append, List.mem_flatMap]
  rintro (h | ⟨c, -, h⟩ | h)
  · exact absurd h (by decide)
  · exact hchar c h
  · exact absurd h (by decide)

/-- For every text the macro expands to one line, which the shell takes for `printf` and a format,
and `printf` writes the text behind three blanks, and a newline. -/
theorem printfCommand_exact (s : Text) : '\n' ∉ printfCommand s ∧ ∃ format,
    commandWords none false (printfCommand s) = some ["printf".toList, format] ∧
      printf format = some ("   ".toList ++ s ++ ['\n']) := by
  obtain ⟨format, hformat, hprintf⟩ := Option.bind_eq_some_iff.mp (printfOutput_eq s)
  have hline := no_newline_printfWord s
  refine ⟨?_, format, ?_, hprintf⟩
  · unfold printfCommand
    rw [List.mem_append, not_or]
    exact ⟨by decide, hline⟩
  · obtain ⟨w, hw⟩ : ∃ w, printfWord s = '\x27' :: w := ⟨_, rfl⟩
    rw [hw, List.mem_cons, not_or] at hline
    rw [hw, unquote] at hformat
    unfold printfCommand
    rw [hw, commandWords_printf, commandWords_of_unquote hformat hline.2]
    rfl

end CargosBuildroot.Shell
