import CargosBuildroot.Shell.Marked
import CargosBuildroot.Shell.Printed

/-! The checks of `support/dependencies/dependencies.sh` that the current directory is in
neither `LD_LIBRARY_PATH` nor `PATH`. Each check prints the value between two marker words and
runs grep with a list of patterns. -/

namespace CargosBuildroot.Host

open Shell

/-! ### The checks -/

inductive Variable
  | ldLibraryPath
  | path
  deriving DecidableEq

def triggerStart : Text := "TRiGGER_start".toList

def triggerEnd : Text := "TRiGGER_end".toList

/-- The patterns of a check, in the order of the source. -/
def Variable.patterns : Variable → List String
  | .ldLibraryPath => ["::", ":\\.:", "TRiGGER_start:", "TRiGGER_start\\.:", ":TRiGGER_end",
      ":\\.TRiGGER_end", "TRiGGER_start\\.TRiGGER_end"]
  | .path => [":\\.:", "TRiGGER_start\\.:", ":\\.TRiGGER_end", "TRiGGER_start\\.TRiGGER_end"]

/-- The text that a pattern stands for: a backslash quotes the character after it, and there
are no other special characters. -/
def literal : Text → Text
  | '\\' :: c :: t => c :: literal t
  | c :: t => c :: literal t
  | [] => []

def marked (value : Text) : Text := triggerStart ++ (value ++ triggerEnd)

/-- The check of one variable finds the current directory in its value. -/
def stops (sh : Sh) (v : Variable) (value : Text) : Bool :=
  value ≠ [] && v.patterns.any fun p =>
    grep (fun line => literal p.toList <:+: line) (sh.echo (marked value))

/-! ### What they are for -/

/-- The colon-separated components; an empty value, as an unset variable, has none. -/
def components (value : Text) : List Text := if value = [] then [] else value.splitOn ':'

/-- The component denotes the current directory. -/
def IsCwd (component : Text) : Prop := component = [] ∨ component = ['.']

/-- Both checks stop the script for the current directory and for nothing else. -/
structure Exact (sh : Sh) (value : Text) : Prop where
  stops_iff : ∀ v, stops sh v value = true ↔ ∃ c ∈ components value, IsCwd c
  uniform : stops sh .ldLibraryPath value = stops sh .path value

/-- Marker words in the value that the patterns for `.` take for its ends. -/
inductive DotMarked (value : Text) : Prop
  | start (h : triggerStart ++ ['.', ':'] <:+: value)
  | stop (h : ':' :: '.' :: triggerEnd <:+: value)
  | both (h : triggerStart ++ '.' :: triggerEnd <:+: value)
  | first (h : '.' :: triggerEnd <+: value)
  | last (h : triggerStart ++ ['.'] <:+ value)

/-- Marker words next to a colon, which only the check of `LD_LIBRARY_PATH` looks for. -/
inductive ColonMarked (value : Text) : Prop
  | start (h : triggerStart ++ [':'] <:+: value)
  | stop (h : ':' :: triggerEnd <:+: value)

/-- The values on which both checks are right: a component `.` is always found; an empty one
is found in `PATH` only if marker words are taken for a `.`, and there must be none otherwise. -/
def Decided (value : Text) : Prop :=
  ['.'] ∈ components value ∨
    [] ∈ components value ∧ DotMarked value ∨
    [] ∉ components value ∧ ¬ DotMarked value ∧ ¬ ColonMarked value

/-! ### Patterns between the marks -/

theorem newline_not_mem_marked {value : Text} (h : '\n' ∉ value) : '\n' ∉ marked value := by
  rw [marked, List.mem_append, List.mem_append]
  rintro (hmem | hmem | hmem)
  · exact absurd hmem (by decide)
  · exact h hmem
  · exact absurd hmem (by decide)

theorem isMark_start : IsMark triggerStart := ⟨_, _, rfl, by decide⟩

theorem isMark_end : IsMark triggerEnd := ⟨_, _, rfl, by decide⟩

theorem colon_not_mem_start : ':' ∉ triggerStart := by decide

theorem colon_not_mem_end : ':' ∉ triggerEnd := by decide

theorem colons_infix_marked (p value : Text) :
    ':' :: (p ++ [':']) <:+: marked value ↔ ':' :: (p ++ [':']) <:+: value := by
  rw [marked, cons_infix_append colon_not_mem_start, ← List.cons_append,
    concat_infix_append colon_not_mem_end]

theorem start_infix_marked (p value : Text) : triggerStart ++ (p ++ [':']) <:+: marked value ↔
    p ++ [':'] <+: value ∨ triggerStart ++ (p ++ [':']) <:+: value := by
  rw [marked, ← List.append_assoc, ← List.append_assoc, concat_infix_append colon_not_mem_end,
    List.append_assoc, isMark_start.append_infix]

theorem end_infix_marked (p value : Text) : ':' :: (p ++ triggerEnd) <:+: marked value ↔
    ':' :: p <:+ value ∨ ':' :: (p ++ triggerEnd) <:+: value := by
  rw [marked, cons_infix_append colon_not_mem_start, ← List.cons_append,
    isMark_end.infix_append]

theorem both_infix_marked (p value : Text) :
    triggerStart ++ (p ++ triggerEnd) <:+: marked value ↔
      value = p ∨ triggerStart ++ p <:+ value ∨ p ++ triggerEnd <+: value ∨
        triggerStart ++ (p ++ triggerEnd) <:+: value := by
  rw [marked, ← List.append_assoc, ← List.append_assoc, isMark_end.infix_append,
    isMark_start.append_suffix, List.append_assoc, isMark_start.append_infix,
    eq_comm (a := value)]
  tauto

/-! ### The two checks -/

theorem mem_components_iff {w value : Text} (hw : ':' ∉ w) (hvalue : value ≠ []) :
    w ∈ components value ↔ value = w ∨ w ++ [':'] <+: value ∨ ':' :: w <:+ value ∨
      ':' :: (w ++ [':']) <:+: value := by
  rw [components, if_neg hvalue, mem_splitOn_iff, and_iff_right hw]
  rfl

theorem dotMarked_iff {value : Text} : DotMarked value ↔
    triggerStart ++ (['.'] ++ [':']) <:+: value ∨ ':' :: (['.'] ++ triggerEnd) <:+: value ∨
      triggerStart ++ (['.'] ++ triggerEnd) <:+: value ∨ ['.'] ++ triggerEnd <+: value ∨
      triggerStart ++ ['.'] <:+ value := by
  constructor
  · rintro (h | h | h | h | h)
    exacts [.inl h, .inr (.inl h), .inr (.inr (.inl h)), .inr (.inr (.inr (.inl h))),
      .inr (.inr (.inr (.inr h)))]
  · rintro (h | h | h | h | h)
    exacts [.start h, .stop h, .both h, .first h, .last h]

theorem colonMarked_iff {value : Text} : ColonMarked value ↔
    triggerStart ++ ([] ++ [':']) <:+: value ∨ ':' :: ([] ++ triggerEnd) <:+: value := by
  constructor
  · rintro (h | h)
    exacts [.inl h, .inr h]
  · rintro (h | h)
    exacts [.start h, .stop h]

/-- The patterns for a component `.`, which both checks have. -/
def dotPatterns : List Text :=
  [':' :: (['.'] ++ [':']), triggerStart ++ (['.'] ++ [':']), ':' :: (['.'] ++ triggerEnd),
    triggerStart ++ (['.'] ++ triggerEnd)]

/-- The patterns for an empty component. -/
def colonPatterns : List Text :=
  [':' :: ([] ++ [':']), triggerStart ++ ([] ++ [':']), ':' :: ([] ++ triggerEnd)]

def Variable.literals (v : Variable) : List Text := v.patterns.map fun p => literal p.toList

theorem literals_path : Variable.literals .path = dotPatterns := by decide

theorem literals_ldLibraryPath :
    (Variable.literals .ldLibraryPath).Perm (colonPatterns ++ dotPatterns) := by decide

/-- One of the patterns occurs in the marked value. -/
def Found (patterns : List Text) (value : Text) : Prop := ∃ p ∈ patterns, p <:+: marked value

theorem found_append {ps qs : List Text} {value : Text} :
    Found (ps ++ qs) value ↔ Found ps value ∨ Found qs value := by
  simp only [Found, List.mem_append, or_and_right, exists_or]

theorem found_dotPatterns {value : Text} (hvalue : value ≠ []) :
    Found dotPatterns value ↔ ['.'] ∈ components value ∨ DotMarked value := by
  simp only [Found, dotPatterns, List.exists_mem_cons_iff, List.not_mem_nil, false_and,
    exists_false, or_false]
  rw [colons_infix_marked, start_infix_marked, end_infix_marked, both_infix_marked,
    mem_components_iff (by decide) hvalue, dotMarked_iff]
  tauto

theorem found_colonPatterns {value : Text} (hvalue : value ≠ []) :
    Found colonPatterns value ↔ [] ∈ components value ∨ ColonMarked value := by
  simp only [Found, colonPatterns, List.exists_mem_cons_iff, List.not_mem_nil, false_and,
    exists_false, or_false]
  rw [colons_infix_marked, start_infix_marked, end_infix_marked,
    mem_components_iff (by simp) hvalue, colonMarked_iff]
  tauto

section Printed

variable {sh : Sh} {value : Text}

theorem stops_iff (hline : '\n' ∉ value) (hecho : sh.echo (marked value) = marked value)
    (v : Variable) : stops sh v value = true ↔ value ≠ [] ∧ Found v.literals value := by
  rw [stops, hecho, Bool.and_eq_true, decide_eq_true_iff, List.any_eq_true]
  simp only [grep_line (newline_not_mem_marked hline), decide_eq_true_iff, Found,
    Variable.literals, List.mem_map, exists_exists_and_eq_and]

theorem stops_path_iff (hline : '\n' ∉ value) (hecho : sh.echo (marked value) = marked value)
    (hvalue : value ≠ []) :
    stops sh .path value = true ↔ ['.'] ∈ components value ∨ DotMarked value := by
  rw [stops_iff hline hecho, and_iff_right hvalue, literals_path, found_dotPatterns hvalue]

theorem stops_ldLibraryPath_iff (hline : '\n' ∉ value)
    (hecho : sh.echo (marked value) = marked value) (hvalue : value ≠ []) :
    stops sh .ldLibraryPath value = true ↔
      ([] ∈ components value ∨ ColonMarked value) ∨ ['.'] ∈ components value ∨ DotMarked value := by
  have hperm : Found (Variable.literals .ldLibraryPath) value ↔
      Found (colonPatterns ++ dotPatterns) value := by
    simp only [Found, literals_ldLibraryPath.mem_iff]
  rw [stops_iff hline hecho, and_iff_right hvalue, hperm, found_append,
    found_colonPatterns hvalue, found_dotPatterns hvalue]

theorem exists_isCwd {value : Text} : (∃ c ∈ components value, IsCwd c) ↔
    [] ∈ components value ∨ ['.'] ∈ components value := by
  simp only [IsCwd, and_or_left, exists_or, exists_eq_right]

/-- Both checks are right about the current directory exactly on the values that they
decide. -/
theorem exact_iff_decided (hline : '\n' ∉ value) (hecho : sh.echo (marked value) = marked value) :
    Exact sh value ↔ Decided value := by
  by_cases hvalue : value = []
  · subst hvalue
    have hmarks : Decided [] := by
      refine .inr (.inr ⟨by decide, ?_, ?_⟩)
      · rw [dotMarked_iff]
        decide
      · rw [colonMarked_iff]
        decide
    exact iff_of_true ⟨fun v => by simp [stops, components], rfl⟩ hmarks
  have hpath := stops_path_iff hline hecho hvalue
  have hld := stops_ldLibraryPath_iff hline hecho hvalue
  have hright : Exact sh value ↔ ∀ v, stops sh v value = true ↔ ∃ c ∈ components value, IsCwd c :=
    ⟨Exact.stops_iff, fun h => ⟨h, Bool.eq_iff_iff.mpr ((h _).trans (h _).symm)⟩⟩
  have hboth : (∀ v, stops sh v value = true ↔ ∃ c ∈ components value, IsCwd c) ↔
      (stops sh .ldLibraryPath value = true ↔ ∃ c ∈ components value, IsCwd c) ∧
      (stops sh .path value = true ↔ ∃ c ∈ components value, IsCwd c) :=
    ⟨fun h => ⟨h _, h _⟩, fun h v => by cases v; exacts [h.1, h.2]⟩
  rw [hright, hboth, hpath, hld, exists_isCwd, Decided]
  by_cases hdot : ['.'] ∈ components value
  · simp only [hdot, true_or, or_true, and_self]
  · by_cases hempty : [] ∈ components value
    · simp only [hdot, hempty, true_or, false_or, true_and, not_true_eq_false, false_and,
        or_false, iff_true]
    · simp only [hdot, hempty, false_or, false_and, true_and, not_false_eq_true, or_false,
        iff_false, not_or]
      exact ⟨fun h => ⟨h.2, h.1.1⟩, fun h => ⟨⟨h.2, h.1⟩, h.1⟩⟩

end Printed

/-! ### The script -/

theorem head_marked (value : Text) : (marked value).head? = some 'T' := rfl

theorem echo_marked (sh : Sh) {value : Text} (h : '\\' ∉ marked value) :
    sh.echo (marked value) = marked value := by
  refine sh.echo_plain _ h fun hoption => ?_
  have hhead := isEchoOption_head hoption
  rw [head_marked] at hhead
  exact absurd hhead (by decide)

theorem backslash_mem_marked {value : Text} : '\\' ∈ marked value ↔ '\\' ∈ value := by
  rw [marked, List.mem_append, List.mem_append, or_iff_right (by decide),
    or_iff_left (by decide)]

/-- On a value with a backslash the check depends on the shell. -/
theorem not_exact_of_backslash {value : Text} (h : '\\' ∈ value) :
    ¬ ∀ sh : Sh, Exact sh value := by
  intro hall
  -- one shell prints nothing for such a value, another one a component `.`
  have hsilent : stops (shellWith fun _ => []) .path value = false := by
    have hecho : (shellWith fun _ => []).echo (marked value) = [] :=
      if_pos (backslash_mem_marked.mpr h)
    rw [stops, hecho]
    exact Bool.and_eq_false_imp.mpr fun _ => by decide
  have hloud : stops (shellWith fun _ => ":.:".toList) .path value = true := by
    have hecho : (shellWith fun _ => ":.:".toList).echo (marked value) = ":.:".toList :=
      if_pos (backslash_mem_marked.mpr h)
    rw [stops, hecho]
    have hne : value ≠ [] := List.ne_nil_of_mem h
    exact Bool.and_eq_true_iff.mpr ⟨decide_eq_true hne, by decide⟩
  have hcwd := ((hall _).stops_iff .path).mp hloud
  rw [((hall _).stops_iff .path).mpr hcwd] at hsilent
  cases hsilent

/-- The checks are right exactly on the decided values, if `echo` prints the value as it is;
in every shell they are so on those without a backslash. -/
theorem dependencies_exact_iff (value : Text) (hline : '\n' ∉ value) :
    (∀ sh : Sh, sh.echo (marked value) = marked value → (Exact sh value ↔ Decided value)) ∧
      ((∀ sh : Sh, Exact sh value) ↔ '\\' ∉ value ∧ Decided value) := by
  refine ⟨fun sh => exact_iff_decided hline, fun h => ?_, fun h sh => ?_⟩
  · have hslash : '\\' ∉ value := fun hmem => not_exact_of_backslash hmem h
    have hecho := echo_marked (shellWith id) (mt backslash_mem_marked.mp hslash)
    exact ⟨hslash, (exact_iff_decided hline hecho).mp (h _)⟩
  · have hecho := echo_marked sh (mt backslash_mem_marked.mp h.1)
    exact (exact_iff_decided hline hecho).mpr h.2

theorem dependencies_exact_dot :
    '\n' ∉ "/bin:.".toList ∧ ∀ sh : Sh, Exact sh "/bin:.".toList :=
  ⟨by decide, ((dependencies_exact_iff "/bin:.".toList (by decide)).2.mpr ⟨by decide, .inl (by decide)⟩)⟩

/-- The check of `PATH` does not see an empty component. -/
theorem not_exact_empty_component : ¬ ∃ sh : Sh, Exact sh "/bin::/usr/bin".toList := by
  rintro ⟨sh, h⟩
  have hpath : stops sh .path "/bin::/usr/bin".toList = false := by
    rw [stops, echo_marked sh (by decide)]
    decide
  have hcwd : ∃ c ∈ components "/bin::/usr/bin".toList, IsCwd c := ⟨[], by decide, .inl rfl⟩
  rw [(h.stops_iff .path).mpr hcwd] at hpath
  cases hpath

end CargosBuildroot.Host
