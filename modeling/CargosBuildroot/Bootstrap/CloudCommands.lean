import CargosBuildroot.Bootstrap.Document
import CargosBuildroot.Shell.Splitting
import Mathlib.Data.List.DropRight

/-! The commands of a cloud-config (`bootcmd` and `runcmd` of `rc.bootstrap`, and the loops over
their output in `handle_cloud`). A section begins at any line with its key and a colon in it, and
ends at a line that begins with a key of letters, digits and `_`. The lines of `bootcmd` are
evaluated by the shell of the script. `$line` is taken to match no file names. -/

namespace CargosBuildroot.Bootstrap

open Shell Transition

/-! ### The awk programs -/

/-- `/NAME:/ { flag=1; next }` and `/^(\w)+:/ { flag=0 }`, where a line of the second kind is not
printed because the flag is looked at after it. -/
def commandSwitch (name : Text) : Switch Text where
  skips _ := false
  sets l := name ++ [':'] <:+: l
  clears := beginsWithKey

/-- What follows `/^([[:space:]])+-([[:space:]])+/`. -/
def afterDash (l : Text) : Option Text :=
  match l.dropWhile isSpaceClass with
  | '-' :: t =>
    if l.head?.any isSpaceClass && t.head?.any isSpaceClass then some (t.dropWhile isSpaceClass)
    else none
  | _ => none

/-- `e=$0; gsub(/^([[:space:]])+-([[:space:]])+/, "", e)` -/
def stripDash (l : Text) : Text := (afterDash l).getD l

/-- What the program prints of each line. -/
def commandLines (name : Text) (data : List Text) : List (Option Text) :=
  outputs ((commandSwitch name).print stripDash) false data

/-! ### What the shell does with a line -/

/-- The text that `eval` makes of its arguments. One that looks like an option is an error, unless
it is `--`. -/
def evalText : List Text → Text
  | ['-', '-'] :: rest => [' '].intercalate rest
  | ('-' :: _ :: _) :: _ => []
  | arguments => [' '].intercalate arguments

/-- A comment, or nothing. -/
def isComment (text : Text) : Bool := (text.dropWhile isSpace).head?.all (· = '#')

/-- `eval $line`: the text that is evaluated, if there is a command in it. `read -r` takes away
only what is in no field. -/
def evaluated (ifs line : Text) : Option Text :=
  if isComment (evalText (splitIfs ifs line)) then none else some (evalText (splitIfs ifs line))

/-- How the script goes on after a command like `break`, `return` or `exit`. -/
inductive Control
  | goesOn
  | leavesLoop
  | leavesScript
  deriving DecidableEq

/-- What the commands evaluated so far, the last one at the end, have done to the shell of the
script: the value of `IFS`, how many lines the last one has taken from the standard input of the
loop, and how the script goes on. -/
structure Session where
  ifs : List Text → Text
  reads : List Text → ℕ
  control : List Text → Control
  interpreted : Bool → Text → Text
  ifs_start : ifs [] = defaultIfs
  control_start : control [] = .goesOn
  /-- `echo -e` prints no more characters that are not white space than it is given. -/
  interpreted_solid : ∀ newline t,
    ((interpreted newline t).filter (!isSpace ·)).length ≤ (t.filter (!isSpace ·)).length

/-- The lines that are still taken by a command, and the commands evaluated. -/
structure Loop where
  taken : ℕ := 0
  commands : List Text := []

/-- A line of `while read -r line; do eval $line; done` -/
def evalStep (x : Session) (s : Loop) : Option Text → Loop × Option Text
  | none => (s, none)
  | some line =>
    if x.control s.commands ≠ .goesOn then (s, none)
    else
      match s.taken with
      | n + 1 => ({ s with taken := n }, none)
      | 0 =>
        match evaluated (x.ifs s.commands) line with
        | none => (s, none)
        | some command => (⟨x.reads (s.commands ++ [command]), s.commands ++ [command]⟩, some command)

/-- The command that is evaluated for each line of the document. -/
def evaluations (x : Session) (data : List Text) : List (Option Text) :=
  outputs (evalStep x) {} (commandLines "bootcmd".toList data)

/-- The loop after the lines. -/
def loopAfter (x : Session) (data : List Text) : Loop :=
  after (evalStep x) {} (commandLines "bootcmd".toList data)

/-- A line of `while read -r line; do echo $line >> ${runcmd_tmp}; done`, if the commands have not
left the script. -/
def appendStep (x : Session) (commands : List Text) (_ : Unit) (line : Option Text) : Unit × Option Text :=
  ((), if x.control commands = .leavesScript then none
    else line.map fun line => echoArguments x.interpreted (splitIfs (x.ifs commands) line))

/-- What is appended to the script for each line of the document. -/
def appends (x : Session) (data : List Text) : List (Option Text) :=
  outputs (appendStep x (loopAfter x data).commands) () (commandLines "runcmd".toList data)

/-! ### List items -/

/-- The text of an item of a list, which is not a comment, and the blanks behind it. -/
def itemParts (l : Text) : Option (Text × Text) :=
  (afterDash l).bind fun line =>
    let t := line.rdropWhile isBlank
    if t = [] ∨ t.head? = some '#' then none else some (t, line.rtakeWhile isBlank)

def listItem (l : Text) : Option Text := (itemParts l).map Prod.fst

/-- The line of a script with the item. -/
def scriptLine (l : Text) : Option Text := (listItem l).map (· ++ ['\n'])

/-- The items of the lists under `bootcmd:`, each at its line. -/
def bootItems (doc : List Section) : List (Option Text) :=
  (documentRows "bootcmd".toList listItem none doc).map Prod.snd

def runItems (doc : List Section) : List (Option Text) :=
  (documentRows "runcmd".toList scriptLine none doc).map Prod.snd

/-! ### Texts that are left alone -/

/-- The characters that are not white space. -/
def solid (t : Text) : ℕ := (t.filter (!isSpace ·)).length

/-- An item that is evaluated as it stands. -/
structure Evaluable (ifs t trail : Text) : Prop where
  unsplit : Unsplit ifs t trail
  option : ∀ c w, firstField ifs t ≠ '-' :: c :: w

/-- An item that is appended as it stands. -/
structure Appendable (ifs t trail : Text) : Prop where
  unsplit : Unsplit ifs t trail
  option : isEchoOption (firstField ifs t) = false

/-- A line for which nothing is evaluated: it has only separators and white space, or a comment,
or `eval` takes its first field for an option. -/
inductive Silent (ifs line : Text) : Prop
  | comment (h : ∀ c ∈ line.find? (fun c => !isSpace c && c ∉ ifs), c = '#')
  | option {c : Char} {w : Text} {fields : List Text} (split : splitIfs ifs line = ('-' :: c :: w) :: fields)
      (other : '-' :: c :: w ≠ "--".toList)
  | dashes {fields : List Text} (split : splitIfs ifs line = "--".toList :: fields)
      (h : ∀ c ∈ fields.flatten.find? (!isSpace ·), c = '#')

section

variable {ifs line t trail f : Text} {fields : List Text} {interpreted : Bool → Text → Text}

theorem solid_append (a b : Text) : solid (a ++ b) = solid a + solid b := by
  rw [solid, List.filter_append, List.length_append, solid, solid]

theorem solid_space (h : ∀ c ∈ t, isSpace c = true) : solid t = 0 :=
  List.length_eq_zero_iff.mpr (List.filter_eq_nil_iff.mpr fun c hc => by simp [h c hc])

theorem solid_join (fields : List Text) : solid ([' '].intercalate fields) = solid fields.flatten := by
  rw [solid, filter_join (by rfl), solid]

/-- The fields have no more characters than the text. -/
theorem solid_fields (htrail : ∀ c ∈ trail, isBlank c = true) : solid (splitIfs ifs (t ++ trail)).flatten ≤ solid t := by
  have hzero := solid_space fun c hc => isSpace_of_isBlank (htrail c hc)
  rw [flatten_splitIfs, ← Nat.add_zero (solid t), ← hzero, ← solid_append, solid, solid]
  exact (List.filter_sublist.filter _).length_le

/-- A field is missing in what is made of the others. -/
theorem solid_lt (htrail : ∀ c ∈ trail, isBlank c = true) (hsplit : splitIfs ifs (t ++ trail) = f :: fields)
    (hf : 0 < solid f) : solid fields.flatten < solid t := by
  have hle := @solid_fields ifs t trail htrail
  rw [hsplit, List.flatten_cons, solid_append] at hle
  omega

theorem head?_join (fields : List Text) :
    (([' '].intercalate fields).dropWhile isSpace).head? = fields.flatten.find? (!isSpace ·) := by
  rw [← List.find?_not_eq_head?_dropWhile, ← List.head?_filter, ← List.head?_filter, filter_join (by rfl)]

theorem evalText_option {c : Char} {w : Text} (fields : List Text) : evalText (('-' :: c :: w) :: fields) =
    if '-' :: c :: w = "--".toList then [' '].intercalate fields else [] := by
  split
  next h =>
    rw [h]
    rfl
  next h =>
    unfold evalText
    split
    next heq => exact absurd (List.cons.inj heq).1 h
    next => rfl
    next hother => exact absurd rfl (hother c w fields)

theorem evalText_fields (h : ∀ c w rest, fields ≠ ('-' :: c :: w) :: rest) :
    evalText fields = [' '].intercalate fields := by
  unfold evalText
  split
  · exact absurd rfl (h _ _ _)
  · exact absurd rfl (h _ _ _)
  · rfl

theorem isComment_iff : isComment t = true ↔ ∀ c ∈ (t.dropWhile isSpace).head?, c = '#' := by
  rw [isComment]
  cases (t.dropWhile isSpace).head? <;> simp

theorem isComment_join : isComment ([' '].intercalate fields) = true ↔
    ∀ c ∈ fields.flatten.find? (!isSpace ·), c = '#' := by
  rw [isComment_iff, head?_join]

/-- The text of an item of a list. -/
structure ItemText (t : Text) : Prop where
  ne_nil : t ≠ []
  comment : t.head? ≠ some '#'
  space : ∀ c ∈ t.head?, isSpace c = false

theorem ItemText.isComment (h : ItemText t) : isComment t = false := by
  obtain ⟨c, rest, rfl⟩ := List.exists_cons_of_ne_nil h.ne_nil
  rw [Bootstrap.isComment, List.dropWhile_cons_of_neg (by simp [h.space c rfl])]
  exact decide_eq_false fun hc => h.comment (congrArg some hc)

/-- A text begins with no option if it is evaluated as it stands. -/
theorem evaluated_iff (ht : ItemText t) (htrail : ∀ c ∈ trail, isBlank c = true) :
    evaluated ifs (t ++ trail) = some t ↔ Evaluable ifs t trail := by
  have htext : evaluated ifs (t ++ trail) = some t ↔ evalText (splitIfs ifs (t ++ trail)) = t := by
    unfold evaluated
    split
    next hcomment =>
      refine iff_of_false nofun fun heq => ?_
      rw [heq, ht.isComment] at hcomment
      cases hcomment
    next => exact Option.some_inj
  rw [htext]
  constructor
  · intro h
    have hoption : ∀ c w rest, splitIfs ifs (t ++ trail) ≠ ('-' :: c :: w) :: rest := by
      intro c w rest hsplit
      have hlt := solid_lt htrail hsplit (by simp [solid, isSpace])
      rw [hsplit, evalText_option] at h
      split at h
      · rw [← h, solid_join] at hlt
        exact lt_irrefl _ hlt
      · exact ht.ne_nil h.symm
    rw [evalText_fields hoption] at h
    have hunsplit := (join_splitIfs_iff ht.ne_nil htrail).mp h
    obtain ⟨fields, hfields⟩ := hunsplit.head_fields ht.ne_nil htrail
    refine ⟨hunsplit, fun c w hfirst => hoption c w fields ?_⟩
    rw [hfields, hfirst]
  · rintro ⟨hunsplit, hoption⟩
    obtain ⟨fields, hfields⟩ := hunsplit.head_fields ht.ne_nil htrail
    rw [evalText_fields, (join_splitIfs_iff ht.ne_nil htrail).mpr hunsplit]
    intro c w rest hsplit
    exact hoption c w (List.cons.inj (hfields.symm.trans hsplit)).1

theorem evaluated_eq_none_iff : evaluated ifs line = none ↔ Silent ifs line := by
  have hnone : evaluated ifs line = none ↔ isComment (evalText (splitIfs ifs line)) = true := by
    unfold evaluated
    split <;> simp [*]
  -- the fields have the characters of the line in their order
  have hfind : line.find? (fun c => !isSpace c && c ∉ ifs) = (splitIfs ifs line).flatten.find? (!isSpace ·) := by
    rw [flatten_splitIfs, ← List.head?_filter, ← List.head?_filter, List.filter_filter]
  rw [hnone]
  by_cases hoption : ∃ c w fields, splitIfs ifs line = ('-' :: c :: w) :: fields
  · obtain ⟨c, w, fields, hsplit⟩ := hoption
    have hdash : ¬ ∀ c ∈ line.find? (fun c => !isSpace c && c ∉ ifs), c = '#' := by
      rw [hfind, hsplit]
      exact fun h => absurd (h '-' rfl) (by decide)
    rw [hsplit, evalText_option]
    split
    next hdashes =>
      rw [isComment_join]
      refine ⟨fun h => .dashes (hdashes ▸ hsplit) h, fun h => ?_⟩
      cases h with
      | comment h => exact absurd h hdash
      | option split other => exact absurd hdashes fun h => other ((List.cons.inj (split.symm.trans hsplit)).1.trans h)
      | dashes split h => rwa [(List.cons.inj (hsplit.symm.trans split)).2]
    next hother => exact iff_of_true rfl (.option hsplit hother)
  · rw [evalText_fields fun c w rest h => hoption ⟨c, w, rest, h⟩, isComment_join, ← hfind]
    refine ⟨.comment, fun h => ?_⟩
    cases h with
    | comment h => exact h
    | option split other => exact absurd ⟨_, _, _, split⟩ hoption
    | dashes split h => exact absurd ⟨_, _, _, split⟩ hoption

/-- A line is appended as it stands if no option is taken away. -/
theorem appended_iff (hsolid : ∀ newline t, solid (interpreted newline t) ≤ solid t) (ht : ItemText t)
    (htrail : ∀ c ∈ trail, isBlank c = true) :
    echoArguments interpreted (splitIfs ifs (t ++ trail)) = t ++ ['\n'] ↔ Appendable ifs t trail := by
  have hprinted : ∀ {f rest}, isEchoOption f = false →
      echoArguments interpreted (f :: rest) = [' '].intercalate (f :: rest) ++ ['\n'] := by
    intro f rest hf
    rw [echoArguments, List.takeWhile_cons, List.dropWhile_cons, hf]
    rfl
  have hoption : ∀ {f}, isEchoOption f = true → 0 < solid f := by
    intro f hf
    unfold isEchoOption at hf
    split at hf
    · simp [solid, isSpace]
    · cases hf
  constructor
  · intro h
    have hfirst : ∀ f rest, splitIfs ifs (t ++ trail) = f :: rest → isEchoOption f = false := by
      intro f rest hsplit
      by_contra hf
      rw [Bool.not_eq_false] at hf
      have hlt := solid_lt htrail hsplit (hoption hf)
      have hrest : solid ([' '].intercalate ((f :: rest).dropWhile isEchoOption)) ≤ solid rest.flatten := by
        have hparts : solid rest.flatten = solid (rest.takeWhile isEchoOption).flatten +
            solid (rest.dropWhile isEchoOption).flatten := by
          rw [← solid_append, ← List.flatten_append, List.takeWhile_append_dropWhile]
        rw [solid_join, List.dropWhile_cons_of_pos hf, hparts]
        omega
      have hsame : solid (t ++ ['\n']) = solid t := by
        rw [solid_append, @solid_space ['\n'] (by simp [isSpace]), Nat.add_zero]
      rw [hsplit, echoArguments] at h
      rw [← h] at hsame
      split at hsame
      · have hle := hsolid ('n' ∉ ((f :: rest).takeWhile isEchoOption).flatten)
          ([' '].intercalate ((f :: rest).dropWhile isEchoOption))
        omega
      · rw [solid_append, @solid_space (ite _ _ _)] at hsame
        · omega
        · split <;> simp [isSpace]
    rcases hsplit : splitIfs ifs (t ++ trail) with _ | ⟨f, rest⟩
    · rw [hsplit] at h
      have hlength := congrArg solid h
      rw [solid_append] at hlength
      have hnil : solid (echoArguments interpreted []) = 0 := rfl
      obtain ⟨c, ts, rfl⟩ := List.exists_cons_of_ne_nil ht.ne_nil
      have hc : 0 < solid (c :: ts) := by simp [solid, ht.space c rfl]
      omega
    · have hf := hfirst f rest hsplit
      rw [hsplit, hprinted hf, ← hsplit, List.append_cancel_right_eq] at h
      have hunsplit := (join_splitIfs_iff ht.ne_nil htrail).mp h
      obtain ⟨fields, hfields⟩ := hunsplit.head_fields ht.ne_nil htrail
      rw [hsplit] at hfields
      rw [(List.cons.inj hfields).1] at hf
      exact ⟨hunsplit, hf⟩
  · rintro ⟨hunsplit, hfirst⟩
    obtain ⟨fields, hfields⟩ := hunsplit.head_fields ht.ne_nil htrail
    rw [hfields, hprinted hfirst, ← hfields, (join_splitIfs_iff ht.ne_nil htrail).mpr hunsplit]

/-! ### Items and lines -/

theorem itemText_of_parts {l : Text} (h : itemParts l = some (t, trail)) :
    stripDash l = t ++ trail ∧ ItemText t ∧ ∀ c ∈ trail, isBlank c = true := by
  obtain ⟨line, hline, hparts⟩ := Option.bind_eq_some_iff.mp h
  dsimp only at hparts
  split at hparts
  next => cases hparts
  next hitem =>
    rw [not_or] at hitem
    obtain ⟨rfl, rfl⟩ := Prod.mk.inj (Option.some.inj hparts)
    have hsplit : line.rdropWhile isBlank ++ line.rtakeWhile isBlank = line := by
      rw [List.rdropWhile, List.rtakeWhile, ← List.reverse_append, List.takeWhile_append_dropWhile,
        List.reverse_reverse]
    refine ⟨by rw [stripDash, hline, Option.getD_some, hsplit], ⟨hitem.1, hitem.2, fun c hc => ?_⟩,
      fun c hc => List.mem_rtakeWhile_imp hc⟩
    have hhead : line.head? = some c := by
      rw [← hsplit, List.head?_append_of_ne_nil _ hitem.1]
      exact hc
    obtain ⟨rest, rfl⟩ : ∃ rest : Text, line = rest.dropWhile isSpaceClass := by
      unfold afterDash at hline
      split at hline
      · split at hline
        · exact ⟨_, (Option.some.inj hline).symm⟩
        · cases hline
      · cases hline
    have hclass : isSpaceClass c = false := by
      have := List.head?_dropWhile_not isSpaceClass rest
      rw [hhead] at this
      exact this
    rw [isSpaceClass] at hclass
    simp only [Bool.or_eq_false_iff] at hclass
    exact hclass.1.1.1

theorem exists_parts {l : Text} (h : listItem l = some t) : ∃ trail, itemParts l = some (t, trail) := by
  obtain ⟨⟨t', trail⟩, hparts, rfl⟩ := Option.map_eq_some_iff.mp h
  exact ⟨trail, hparts⟩

end

/-! ### The document -/

theorem beginsWithKey_of_indented {l : Text} (h : Indented l) : beginsWithKey l = false := by
  cases l with
  | nil => rfl
  | cons c l =>
    have hc : isWordChar c = false := not_wordChar_of_space (h c rfl)
    rw [beginsWithKey, List.takeWhile_cons, hc]
    rfl

section

variable (x : Session)

/-- A line after the lines `before` is evaluated right: the loop goes on, and takes the line itself;
the text of an item is left alone, and in any other line there is nothing to evaluate. -/
structure EvaluatedRight (before : List Text) (l : Text) (e : Option Text) : Prop where
  item : e ≠ none → (commandSwitch "bootcmd".toList).plain l = true ∧
    x.control (loopAfter x before).commands = .goesOn ∧ (loopAfter x before).taken = 0 ∧
      ∀ t trail, itemParts l = some (t, trail) → Evaluable (x.ifs (loopAfter x before).commands) t trail
  other : e = none → (commandSwitch "bootcmd".toList).plain l = false ∨
    ¬ (commandSwitch "bootcmd".toList).Opened before ∨ x.control (loopAfter x before).commands ≠ .goesOn ∨
      (loopAfter x before).taken ≠ 0 ∨ Silent (x.ifs (loopAfter x before).commands) (stripDash l)

/-- A line is appended right after the commands, if these have not left the script. -/
structure AppendedRight (commands before : List Text) (l : Text) (e : Option Text) : Prop where
  item : e ≠ none → (commandSwitch "runcmd".toList).plain l = true ∧ x.control commands ≠ .leavesScript ∧
    ∀ t trail, itemParts l = some (t, trail) → Appendable (x.ifs commands) t trail
  other : e = none → (commandSwitch "runcmd".toList).plain l = false ∨
    ¬ (commandSwitch "runcmd".toList).Opened before ∨ x.control commands = .leavesScript

variable {x}

theorem evalStep_some (s : Loop) (line : Text) : (evalStep x s (some line)).2 =
    if x.control s.commands = .goesOn ∧ s.taken = 0 then evaluated (x.ifs s.commands) line else none := by
  rw [evalStep]
  by_cases hcontrol : x.control s.commands = .goesOn
  · rw [if_neg (not_not.mpr hcontrol)]
    cases htaken : s.taken with
    | zero =>
      rw [if_pos ⟨hcontrol, rfl⟩]
      dsimp only
      cases evaluated (x.ifs s.commands) line <;> rfl
    | succ n => rw [if_neg (by simp)]
  · rw [if_pos hcontrol, if_neg fun h => hcontrol h.1]

theorem evaluatedRight_iff {before : List Text} {l : Text} {e : Option Text} (he : e ≠ none → e = listItem l) :
    (commandSwitch "bootcmd".toList).Clean none (fun l => (evalStep x (loopAfter x before) (some (stripDash l))).2)
      before l e ↔ EvaluatedRight x before l e := by
  generalize hs : loopAfter x before = s
  have hitem : e ≠ none → ((evalStep x s (some (stripDash l))).2 = e ↔ x.control s.commands = .goesOn ∧
      s.taken = 0 ∧ ∀ t trail, itemParts l = some (t, trail) → Evaluable (x.ifs s.commands) t trail) := by
    intro hne
    obtain ⟨t, rfl⟩ := Option.ne_none_iff_exists'.mp hne
    obtain ⟨trail, hparts⟩ := exists_parts (he hne).symm
    obtain ⟨hline, ht, htrail⟩ := itemText_of_parts hparts
    have hall : (∀ t trail, itemParts l = some (t, trail) → Evaluable (x.ifs s.commands) t trail) ↔
        Evaluable (x.ifs s.commands) t trail := by
      simp [hparts]
    rw [evalStep_some, hall, hline, ← evaluated_iff ht htrail, ← and_assoc]
    split
    next h => rw [and_iff_right h]
    next h => exact iff_of_false nofun fun h' => h h'.1
  have hother : (evalStep x s (some (stripDash l))).2 = none ↔ x.control s.commands ≠ .goesOn ∨ s.taken ≠ 0 ∨
      Silent (x.ifs s.commands) (stripDash l) := by
    rw [evalStep_some, ← evaluated_eq_none_iff]
    by_cases hcontrol : x.control s.commands = .goesOn <;> by_cases htaken : s.taken = 0 <;>
      simp [hcontrol, htaken]
  constructor
  · rintro ⟨h1, h2⟩
    refine ⟨fun hne => ?_, fun hnone => ?_⟩
    · rw [hs]
      exact ⟨(h1 hne).1, (hitem hne).mp (h1 hne).2⟩
    · rw [hs]
      exact (h2 hnone).imp_right fun h => h.imp_right hother.mp
  · rintro ⟨h1, h2⟩
    rw [hs] at h1 h2
    exact ⟨fun hne => ⟨(h1 hne).1, (hitem hne).mpr (h1 hne).2⟩,
      fun hnone => (h2 hnone).imp_right fun h => h.imp_right hother.mpr⟩

theorem appendedRight_iff {commands before : List Text} {l : Text} {e : Option Text}
    (he : e ≠ none → e = scriptLine l) :
    (commandSwitch "runcmd".toList).Clean none (fun l => (appendStep x commands () (some (stripDash l))).2)
      before l e ↔ AppendedRight x commands before l e := by
  have hitem : e ≠ none → ((appendStep x commands () (some (stripDash l))).2 = e ↔
      x.control commands ≠ .leavesScript ∧
        ∀ t trail, itemParts l = some (t, trail) → Appendable (x.ifs commands) t trail) := by
    intro hne
    obtain ⟨u, hu⟩ := Option.ne_none_iff_exists'.mp hne
    obtain ⟨t, ht, rfl⟩ := Option.map_eq_some_iff.mp ((he hne).symm.trans hu)
    obtain ⟨trail, hparts⟩ := exists_parts ht
    obtain ⟨hline, ht, htrail⟩ := itemText_of_parts hparts
    have hall : (∀ t trail, itemParts l = some (t, trail) → Appendable (x.ifs commands) t trail) ↔
        Appendable (x.ifs commands) t trail := by
      simp [hparts]
    rw [appendStep, hall, hline, hu, ← appended_iff x.interpreted_solid ht htrail]
    by_cases hcontrol : x.control commands = .leavesScript <;> simp [hcontrol]
  have hother : (appendStep x commands () (some (stripDash l))).2 = none ↔ x.control commands = .leavesScript := by
    rw [appendStep]
    split <;> simp [*]
  constructor
  · rintro ⟨h1, h2⟩
    exact ⟨fun hne => ⟨(h1 hne).1, (hitem hne).mp (h1 hne).2⟩,
      fun hnone => (h2 hnone).imp_right fun h => h.imp_right hother.mp⟩
  · rintro ⟨h1, h2⟩
    exact ⟨fun hne => ⟨(h1 hne).1, (hitem hne).mpr (h1 hne).2⟩,
      fun hnone => (h2 hnone).imp_right fun h => h.imp_right hother.mpr⟩

end

/-- Commands that read nothing and change nothing in the shell. -/
def plainSession : Session where
  ifs _ := defaultIfs
  reads _ := 0
  control _ := .goesOn
  interpreted newline t := t ++ if newline then ['\n'] else []
  ifs_start := rfl
  control_start := rfl
  interpreted_solid newline t := by
    cases newline
    · simp
    · simp [isSpace]

def bootSection : Section where
  key := "bootcmd".toList
  value := []
  body := ["  - ls".toList]
  key_ne_nil := by decide
  key_chars := List.all_eq_true.mp rfl
  value_space := value_space_nil
  value_list _ := rfl
  indented := by decide

def keysSection : Section where
  key := "ssh-keys".toList
  value := []
  body := ["  - reboot".toList]
  key_ne_nil := by decide
  key_chars := List.all_eq_true.mp rfl
  value_space := value_space_nil
  value_list _ := rfl
  indented := by decide

end CargosBuildroot.Bootstrap
