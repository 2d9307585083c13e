import CargosBuildroot.Shell.Read

/-! Texts that a script prints with `echo` for grep to look at. What scripts rely on in the
shell that runs them is a parameter, because shells differ in what `echo` does with backslashes
and with words that look like its options. -/

namespace CargosBuildroot.Shell

/-- A word that shells may take for options of `echo`. -/
def IsEchoOption (t : Text) : Prop :=
  ∃ letters, letters ≠ [] ∧ t = '-' :: letters ∧ ∀ c ∈ letters, c ∈ ['n', 'e', 'E']

/-- What `echo "$t"` prints, without the newline at the end. -/
structure Sh where
  echo : Text → Text
  echo_plain : ∀ t, '\\' ∉ t → ¬ IsEchoOption t → echo t = t
  echo_option : ∀ t, IsEchoOption t → echo t = t ∨ echo t = []

/-- The shell prints the text as it is, but perhaps nothing for an option of `echo`. -/
def Sh.Prints (sh : Sh) (t : Text) : Prop := sh.echo t = t ∨ IsEchoOption t

theorem Sh.prints_plain (sh : Sh) {t : Text} (h : '\\' ∉ t) : sh.Prints t := by
  by_cases hoption : IsEchoOption t
  · exact .inr hoption
  · exact .inl (sh.echo_plain t h hoption)

theorem isEchoOption_head {t : Text} (h : IsEchoOption t) : t.head? = some '-' := by
  obtain ⟨letters, -, rfl, -⟩ := h
  rfl

theorem backslash_not_mem_option {t : Text} (h : IsEchoOption t) : '\\' ∉ t := by
  obtain ⟨letters, -, rfl, hall⟩ := h
  intro hmem
  rcases List.mem_cons.mp hmem with heq | hmem
  · exact absurd heq (by decide)
  · exact absurd (hall _ hmem) (by decide)

/-- A shell that treats texts with a backslash in its own way. -/
def shellWith (special : Text → Text) : Sh where
  echo t := if '\\' ∈ t then special t else t
  echo_plain _ h _ := if_neg h
  echo_option _ h := .inl (if_neg (backslash_not_mem_option h))

/-- grep selects one of the lines. -/
def grep (select : Text → Bool) (input : Text) : Bool := (input.splitOn '\n').any select

theorem grep_line {select : Text → Bool} {input : Text} (h : '\n' ∉ input) :
    grep select input = select input := by
  rw [grep, List.splitOn_eq_singleton h, List.any_cons, List.any_nil, Bool.or_false]

end CargosBuildroot.Shell
