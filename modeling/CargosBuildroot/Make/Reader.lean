import CargosBuildroot.Shell.Words
import CargosBuildroot.Store.Dict

/-! Reading of makefile text that consists of comments and assignments. A line that
goes on in the next one, any other line, and a value that refers to a variable are
errors: the text alone does not say what they give. -/

namespace CargosBuildroot.Make

open Shell Store

/-- White space in a makefile line. -/
def isSpaceChar (c : Char) : Bool :=
  c = ' ' || c = '\t' || c = '\n' || c = '\x0b' || c = '\x0c' || c = '\r'

/-- A carriage return before the newline is dropped. -/
def dropReturn (line : Text) : Text :=
  if line.getLast? = some '\r' then line.dropLast else line

/-- The number of backslashes at the end of a line. -/
def trailingBackslashes (line : Text) : ℕ := (line.reverse.takeWhile (· = '\\')).length

/-- The line without its comment, after `n` backslashes. Backslashes before a `#` are
halved, and an odd one of them quotes it. -/
def stripComment : ℕ → Text → Text
  | n, [] => List.replicate n '\\'
  | n, '\\' :: t => stripComment (n + 1) t
  | n, c :: t =>
    if c = '#' then
      List.replicate (n / 2) '\\' ++ if n % 2 = 1 then '#' :: stripComment 0 t else []
    else List.replicate n '\\' ++ c :: stripComment 0 t

inductive Assign
  | set (name value : Text) | append (name value : Text) | default (name value : Text)
  deriving DecidableEq

/-- The characters of a variable name before the operator. -/
def isVarChar (c : Char) : Bool := !(isSpaceChar c || c = '=' || c = '+' || c = '?' || c = ':')

/-- The operator and the value. -/
def operator (name : Text) : Text → Option Assign
  | '=' :: v => some (.set name (v.dropWhile isSpaceChar))
  | '+' :: '=' :: v => some (.append name (v.dropWhile isSpaceChar))
  | '?' :: '=' :: v => some (.default name (v.dropWhile isSpaceChar))
  | _ => none

/-- A line without comment. -/
def assignment (l : Text) : Option (List Assign) :=
  if l.all isSpaceChar then some []
  else if l.head? = some '\t' then none
  else
    let l := l.dropWhile isSpaceChar
    let l := if "export ".toList.isPrefixOf l then (l.drop 7).dropWhile isSpaceChar else l
    if l.takeWhile isVarChar = [] then none
    else (operator (l.takeWhile isVarChar) ((l.dropWhile isVarChar).dropWhile isSpaceChar)).map ([·])

def readLine (line : Text) : Option (List Assign) :=
  let l := dropReturn line
  if trailingBackslashes l % 2 = 1 then none else assignment (stripComment 0 l)

def readLines : List Text → Option (List Assign)
  | [] => some []
  | l :: ls =>
    match readLine l, readLines ls with
    | some s, some r => some (s ++ r)
    | _, _ => none

/-- The variables, with their values before expansion. -/
abbrev Vars := Dict Text Text

def Assign.apply (vars : Vars) : Assign → Vars
  | .set name value => vars.set name value
  | .append name value =>
    vars.set name (match vars.get? name with
      | some old => old ++ ' ' :: value
      | none => value)
  | .default name value => if (vars.get? name).isSome then vars else vars.set name value

def read (t : Text) : Option Vars := (readLines (lines t)).map (·.foldl Assign.apply Dict.empty)

/-- The expansion of a value without references. -/
def expand : Text → Option Text
  | [] => some []
  | '$' :: '$' :: t => (expand t).map ('$' :: ·)
  | c :: t => if c = '$' then none else (expand t).map (c :: ·)

/-- `$(name)` -/
def value (vars : Vars) (name : Text) : Option Text := (vars.get? name).bind expand

/-! ### Lines -/

theorem readLines_append (l l' : List Text) : readLines (l ++ l') =
    match readLines l, readLines l' with
    | some s, some s' => some (s ++ s')
    | _, _ => none := by
  induction l with
  | nil => cases h : readLines l' <;> simp [readLines, h]
  | cons a l ih =>
    rw [List.cons_append, readLines, readLines, ih]
    cases readLine a <;> cases readLines l <;> cases readLines l' <;> simp

/-- The text that a value leaves in the line, without backslashes. -/
def written (v : Text) : Text := ((dropReturn v).takeWhile (· ≠ '#')).dropWhile isSpaceChar

theorem stripComment_eq {l : Text} (hl : '\\' ∉ l) : stripComment 0 l = l.takeWhile (· ≠ '#') := by
  induction l with
  | nil => rfl
  | cons c l ih =>
    simp only [List.mem_cons, not_or] at hl
    have hrec : stripComment 0 (c :: l) = if c = '#' then [] else c :: stripComment 0 l := by
      rw [stripComment]
      · simp
      · exact fun h => hl.1 h.symm
    rw [hrec, ih hl.2]
    by_cases hc : c = '#'
    · simp [hc]
    · rw [if_neg hc, List.takeWhile_cons_of_pos (by simpa using hc)]

theorem trailingBackslashes_eq {l : Text} (hl : '\\' ∉ l) : trailingBackslashes l = 0 := by
  have hnil : l.reverse.takeWhile (· = '\\') = [] := by
    rw [List.takeWhile_eq_nil_iff]
    intro hpos
    rw [decide_eq_true_iff]
    intro heq
    exact hl (List.mem_reverse.mp (heq ▸ List.getElem_mem hpos))
  rw [trailingBackslashes, hnil, List.length_nil]

theorem dropReturn_append {pre : Text} (hpre : pre.getLast? ≠ some '\r') (v : Text) :
    dropReturn (pre ++ v) = pre ++ dropReturn v := by
  unfold dropReturn
  cases v using List.reverseRecOn with
  | nil => simp [hpre]
  | append_singleton v c =>
    rw [← List.append_assoc, List.getLast?_concat, List.getLast?_concat]
    split
    · simp
    · simp

theorem dropReturn_subset (v : Text) : ∀ c ∈ dropReturn v, c ∈ v := by
  intro c hc
  unfold dropReturn at hc
  split at hc
  · exact (List.dropLast_sublist v).subset hc
  · exact hc

/-- An assignment line, from what is before its value. -/
theorem readLine_assign (op : Text → Text → Assign) {pre name : Text} (hback : '\\' ∉ pre)
    (hhash : '#' ∉ pre) (hreturn : pre.getLast? ≠ some '\r')
    (hassign : ∀ v, assignment (pre ++ v) = some [op name (v.dropWhile isSpaceChar)]) {v : Text}
    (hv : '\\' ∉ v) : readLine (pre ++ v) = some [op name (written v)] := by
  have hmem : '\\' ∉ pre ++ dropReturn v := by
    rw [List.mem_append]
    exact fun h => h.elim hback fun h => hv (dropReturn_subset v _ h)
  have hstrip : (pre ++ dropReturn v).takeWhile (· ≠ '#') =
      pre ++ (dropReturn v).takeWhile (· ≠ '#') := by
    apply List.takeWhile_append_of_pos
    intro c hc
    rw [decide_eq_true_iff]
    rintro rfl
    exact hhash hc
  rw [readLine, dropReturn_append hreturn, trailingBackslashes_eq hmem, if_neg (by decide),
    stripComment_eq hmem, hstrip, hassign, written]

/-! ### Values that stay as they are -/

/-- What make does not change in a value without backslashes: no comment and no
reference, no white space before it and no carriage return after it. -/
structure Verbatim (v : Text) : Prop where
  hash : '#' ∉ v
  dollar : '$' ∉ v
  leading : ∀ c ∈ v.head?, isSpaceChar c = false
  trailing : v.getLast? ≠ some '\r'

theorem expand_of_no_dollar {v : Text} (hv : '$' ∉ v) : expand v = some v := by
  induction v with
  | nil => rfl
  | cons c v ih =>
    simp only [List.mem_cons, not_or] at hv
    have hne : ¬ c = '$' := fun h => hv.1 h.symm
    rw [expand]
    · rw [if_neg hne, ih hv.2]
      rfl
    · intro _ h
      exact absurd h hne

/-- Expansion shortens a value with a dollar sign. -/
theorem length_of_expand {v w : Text} (h : expand v = some w) :
    w.length ≤ v.length ∧ ('$' ∈ v → w.length < v.length) := by
  fun_induction expand v generalizing w with
  | case1 =>
    cases h
    simp
  | case2 t ih =>
    obtain ⟨w', hw', rfl⟩ := Option.map_eq_some_iff.mp h
    have hle := (ih hw').1
    simp only [List.length_cons]
    omega
  | case3 => cases h
  | case4 c t _ hc ih =>
    obtain ⟨w', hw', rfl⟩ := Option.map_eq_some_iff.mp h
    obtain ⟨hle, hlt⟩ := ih hw'
    refine ⟨by simpa using hle, fun hmem => ?_⟩
    have hmem' : '$' ∈ t := by simpa [Ne.symm hc] using hmem
    simpa using hlt hmem'

theorem written_of_verbatim {v : Text} (h : Verbatim v) : written v = v := by
  have htake : v.takeWhile (· ≠ '#') = v := by
    rw [List.takeWhile_eq_self_iff]
    intro c hc
    rw [decide_eq_true_iff]
    rintro rfl
    exact h.hash hc
  rw [written, dropReturn, if_neg h.trailing, htake]
  cases v with
  | nil => rfl
  | cons c v => exact List.dropWhile_cons_of_neg (by simp [h.leading c rfl])

/-- A value that is read back as it was written is verbatim. -/
theorem verbatim_iff (v : Text) : expand (written v) = some v ↔ Verbatim v := by
  constructor
  · intro h
    obtain ⟨hexpand, hdollar⟩ := length_of_expand h
    have hspace := (List.dropWhile_suffix isSpaceChar (l := (dropReturn v).takeWhile (· ≠ '#'))).length_le
    have hhash := (List.takeWhile_prefix (· ≠ '#') (l := dropReturn v)).length_le
    have hreturn : (dropReturn v).length ≤ v.length := by
      unfold dropReturn
      split
      · simp
      · exact le_rfl
    -- every step keeps the length, so it keeps the value
    have hd : (dropReturn v).length = v.length := by
      unfold written at hexpand
      omega
    have hk : (dropReturn v).takeWhile (· ≠ '#') = dropReturn v :=
      (List.takeWhile_prefix _).eq_of_length_le (by unfold written at hexpand; omega)
    have htrailing : v.getLast? ≠ some '\r' := by
      intro hlast
      have hne : v ≠ [] := by
        rintro rfl
        cases hlast
      rw [dropReturn, if_pos hlast, List.length_dropLast] at hd
      have hpos := List.length_pos_of_ne_nil hne
      omega
    have hv : dropReturn v = v := if_neg htrailing
    have hs : written v = v := by
      rw [written, hk, hv]
      refine (List.dropWhile_suffix _).eq_of_length_le ?_
      unfold written at hexpand
      rw [hk, hv] at hexpand
      exact hexpand
    rw [hv] at hk
    refine ⟨fun hmem => ?_, fun hmem => ?_, fun c hc => ?_, htrailing⟩
    · rw [← hk] at hmem
      simpa using List.mem_takeWhile_imp hmem
    · rw [hs] at hdollar
      exact lt_irrefl _ (hdollar hmem)
    · have hdrop : v.dropWhile isSpaceChar = v := by
        rw [written, hv, hk] at hs
        exact hs
      have hhead := List.head?_dropWhile_not isSpaceChar v
      rw [hdrop, Option.mem_def.mp hc] at hhead
      simpa using hhead
  · intro h
    rw [written_of_verbatim h, expand_of_no_dollar h.dollar]

end CargosBuildroot.Make
