import Mathlib.Data.List.Basic
import Mathlib.Data.List.DropRight

/-! Texts and the `read` builtin. A text is a list of characters; where a file
is read as bytes, the character of the same code stands for the byte. `read`
without `-r` takes a backslash as an escape: it quotes the next character, and
a backslash before a newline joins the next line. A loop `while read` runs its
body for the lines that end in a newline only. -/

namespace CargosBuildroot.Shell

abbrev Text := List Char

instance : LawfulBEq Text := inferInstance

-- characters can also be decided by going through all of them
instance (t : Text) (P : Char → Prop) [DecidablePred P] : Decidable (∀ c ∈ t, P c) :=
  List.decidableBAll P t

/-- The blanks at which `read` splits a line. -/
def isBlank (c : Char) : Bool := c = ' ' || c = '\t'

/-! ### Lines -/

/-- A character with the mark that a backslash quoted it. -/
abbrev QChar := Char × Bool

/-- A string ends at its first NUL. -/
def cString (l : List QChar) : List QChar := l.takeWhile (·.1 ≠ '\x00')

/-- The lines that `while read` hands to its body, `acc` being the start of the
current line. An unquoted NUL is dropped and a quoted one ends the string of its
line; an unterminated last line is not handed on. -/
def readLoop : Text → List QChar → List (List QChar)
  | [], _ => []
  | '\n' :: t, acc => cString acc :: readLoop t []
  | ['\\'], _ => []
  | '\\' :: '\n' :: t, acc => readLoop t acc
  | '\\' :: c :: t, acc => readLoop t (acc ++ [(c, true)])
  | c :: t, acc => readLoop t (if c = '\x00' then acc else acc ++ [(c, false)])

def readLines (t : Text) : List (List QChar) := readLoop t []

/-- A text in which no character is quoted. -/
def unquoted (t : Text) : List QChar := t.map (·, false)

/-- The lines of a text, the piece after the last newline included. -/
def lines (t : Text) : List Text := t.splitOn '\n'

/-- What `read` takes literally: no backslash and no NUL. -/
def Literal (t : Text) : Prop := ∀ c ∈ t, c ≠ '\\' ∧ c ≠ '\x00'

instance (t : Text) : Decidable (Literal t) := List.decidableBAll _ t

theorem readLoop_char {c : Char} (hn : c ≠ '\n') (hb : c ≠ '\\') (h0 : c ≠ '\x00') (t : Text)
    (acc : List QChar) : readLoop (c :: t) acc = readLoop t (acc ++ [(c, false)]) := by
  rw [readLoop]
  · simp [h0]
  all_goals simp_all

theorem readLoop_append (l t : Text) (acc : List QChar) (hl : Literal l) (hn : '\n' ∉ l) :
    readLoop (l ++ t) acc = readLoop t (acc ++ unquoted l) := by
  induction l generalizing acc with
  | nil => simp [unquoted]
  | cons c l ih =>
    simp only [List.mem_cons, not_or] at hn
    have hc := hl c (by simp)
    rw [List.cons_append, readLoop_char (Ne.symm hn.1) hc.1 hc.2,
      ih _ (fun d hd => hl d (by simp [hd])) hn.2]
    simp [unquoted]

theorem cString_unquoted (l : Text) (hl : Literal l) : cString (unquoted l) = unquoted l := by
  rw [cString, List.takeWhile_eq_self_iff]
  intro q hq
  obtain ⟨c, hc, rfl⟩ := List.mem_map.mp hq
  simpa using (hl c hc).2

/-- A literal line is handed on as it stands. -/
theorem readLoop_line (l t : Text) (hl : Literal l) (hn : '\n' ∉ l) :
    readLoop (l ++ '\n' :: t) [] = unquoted l :: readLoop t [] := by
  rw [readLoop_append l _ [] hl hn, List.nil_append, readLoop, cString_unquoted l hl]

/-- On a literal text `while read` gets exactly the lines that end in a newline. -/
theorem readLines_unlines_append (ls : List Text) (last : Text)
    (hls : ∀ l ∈ ls, Literal l ∧ '\n' ∉ l) (hlast : Literal last ∧ '\n' ∉ last) :
    readLines (ls.flatMap (· ++ ['\n']) ++ last) = ls.map unquoted := by
  induction ls with
  | nil =>
    have := readLoop_append last [] [] hlast.1 hlast.2
    simpa [readLines, readLoop] using this
  | cons l ls ih =>
    obtain ⟨hlit, hn⟩ := hls l (by simp)
    have := ih fun l' h' => hls l' (by simp [h'])
    simp only [readLines] at this ⊢
    rw [List.flatMap_cons, List.append_assoc, List.append_assoc, List.singleton_append,
      readLoop_line l _ hlit hn, this, List.map_cons]

theorem lines_unlines_append (ls : List Text) (last : Text) (hls : ∀ l ∈ ls, '\n' ∉ l)
    (hlast : '\n' ∉ last) : lines (ls.flatMap (· ++ ['\n']) ++ last) = ls ++ [last] := by
  induction ls with
  | nil => simpa [lines] using List.splitOn_eq_singleton hlast
  | cons l ls ih =>
    have := ih fun l' h' => hls l' (by simp [h'])
    simp only [lines] at this ⊢
    rw [List.flatMap_cons, List.append_assoc, List.append_assoc, List.singleton_append,
      List.splitOn_append_cons_self_of_not_mem (hls l (by simp)), this, List.cons_append]

/-- The lines of a text, each with its newline. -/
def unlines (ls : List Text) : Text := ls.flatMap (· ++ ['\n'])

theorem unlines_append (ls ls' : List Text) : unlines (ls ++ ls') = unlines ls ++ unlines ls' :=
  List.flatMap_append

@[simp] theorem lines_nil : lines [] = [[]] := rfl

theorem lines_cons {l : Text} (hl : '\n' ∉ l) (t : Text) : lines (l ++ '\n' :: t) = l :: lines t :=
  List.splitOn_append_cons_self_of_not_mem hl t

theorem lines_unlines {ls : List Text} (hls : ∀ l ∈ ls, '\n' ∉ l) (t : Text) :
    lines (unlines ls ++ t) = ls ++ lines t := by
  induction ls with
  | nil => rfl
  | cons l ls ih =>
    have hrest := ih fun l hl => hls l (.tail _ hl)
    rw [unlines] at hrest ⊢
    rw [List.flatMap_cons, List.append_assoc, List.append_assoc, List.singleton_append,
      lines_cons (hls l (.head _)), hrest, List.cons_append]

theorem lines_of_no_newline {t : Text} (ht : '\n' ∉ t) : lines t = [t] :=
  List.splitOn_eq_singleton ht

/-- Every text is a number of lines and an unfinished one. -/
theorem exists_unlines (t : Text) : ∃ ls last, t = unlines ls ++ last ∧
    (∀ l ∈ ls, '\n' ∉ l) ∧ '\n' ∉ last := by
  induction t with
  | nil => exact ⟨[], [], rfl, by simp, by simp⟩
  | cons c t ih =>
    obtain ⟨ls, last, rfl, hls, hlast⟩ := ih
    by_cases hc : c = '\n'
    · subst hc
      refine ⟨[] :: ls, last, by simp [unlines], ?_, hlast⟩
      simpa using hls
    · have hne : '\n' ≠ c := fun h => hc h.symm
      cases ls with
      | nil => exact ⟨[], c :: last, by simp [unlines], by simp, by simp [hne, hlast]⟩
      | cons l ls =>
        refine ⟨(c :: l) :: ls, last, by simp [unlines], ?_, hlast⟩
        rw [List.forall_mem_cons] at hls ⊢
        exact ⟨by simp [hne, hls.1], hls.2⟩

theorem newline_not_mem_lines (t : Text) : ∀ l ∈ lines t, '\n' ∉ l := by
  obtain ⟨ls, last, rfl, hls, hlast⟩ := exists_unlines t
  intro l hl
  rw [lines_unlines hls, lines_of_no_newline hlast] at hl
  rcases List.mem_append.mp hl with hl | hl
  · exact hls l hl
  · exact List.mem_singleton.mp hl ▸ hlast

theorem infix_of_mem_lines {t l : Text} (hl : l ∈ lines t) : l <:+: t := by
  obtain ⟨ls, last, rfl, hls, hlast⟩ := exists_unlines t
  rw [lines_unlines hls, lines_of_no_newline hlast] at hl
  rcases List.mem_append.mp hl with hl | hl
  · have hline : l ++ ['\n'] <:+: unlines ls :=
      List.infix_of_mem_flatten (List.mem_map.mpr ⟨l, hl, rfl⟩)
    exact (List.prefix_append _ _).isInfix.trans (hline.trans (List.prefix_append _ _).isInfix)
  · rw [List.mem_singleton.mp hl]
    exact (List.suffix_append _ _).isInfix

/-- A character of joined texts is the separator or belongs to one of them. -/
theorem mem_intercalate {x sep : Char} {ls : List Text} (h : x ∈ [sep].intercalate ls) :
    x = sep ∨ ∃ m ∈ ls, x ∈ m := by
  induction ls with
  | nil => simp at h
  | cons l ls ih =>
    cases ls with
    | nil => exact .inr ⟨l, by simp, by simpa using h⟩
    | cons l' ls =>
      rw [List.intercalate_cons_cons, List.append_assoc] at h
      rcases List.mem_append.mp h with h | h
      · exact .inr ⟨l, by simp, h⟩
      · rcases List.mem_append.mp h with h | h
        · exact .inl (by simpa using h)
        · exact (ih h).imp_right fun ⟨m, hm, hx⟩ => ⟨m, List.mem_cons_of_mem _ hm, hx⟩

theorem intercalate_append {sep : Char} {gs hs : List Text} (hgs : gs ≠ []) (hhs : hs ≠ []) :
    [sep].intercalate (gs ++ hs) = [sep].intercalate gs ++ sep :: [sep].intercalate hs := by
  induction gs with
  | nil => exact absurd rfl hgs
  | cons g gs ih =>
    by_cases hrest : gs = []
    · subst hrest
      rw [List.singleton_append, List.intercalate_cons_of_ne_nil hhs, List.intercalate_singleton,
        List.append_assoc]
      rfl
    · rw [List.cons_append, List.intercalate_cons_of_ne_nil (by simp [hrest]),
        List.intercalate_cons_of_ne_nil hrest, ih hrest, List.append_assoc, List.append_assoc,
        List.append_assoc]

theorem dropWhile_reverse_append {c : Char} (t : Text) {r : Text} (hr : c ∉ r) :
    (t ++ c :: r).reverse.dropWhile (· ≠ c) = c :: t.reverse := by
  have hrev : (t ++ c :: r).reverse = r.reverse ++ c :: t.reverse := by simp
  rw [hrev, List.dropWhile_append_of_pos, List.dropWhile_cons_of_neg (by simp)]
  intro d hd
  rw [List.mem_reverse] at hd
  exact decide_eq_true fun heq => hr (heq ▸ hd)

/-- The last place of a character. -/
theorem exists_last {c : Char} {t : Text} (h : c ∈ t) : ∃ a b, t = a ++ c :: b ∧ c ∉ b := by
  obtain ⟨b, a, hsplit, hb⟩ := List.eq_append_cons_of_mem (List.mem_reverse.mpr h)
  refine ⟨a.reverse, b.reverse, ?_, mt List.mem_reverse.mp hb⟩
  rw [← List.reverse_reverse t, hsplit]
  simp

/-! ### Splitting a line into variables -/

/-- An unquoted blank. -/
def separates (q : QChar) : Bool := !q.2 && isBlank q.1

/-- The text without the quoting marks. -/
def dequote (l : List QChar) : Text := l.map Prod.fst

/-- The values that `read` with `n` variables gives them: one word each, the
last one the rest of the line without the blanks around it. -/
def readVars : ℕ → List QChar → List Text
  | 0, _ => []
  | 1, l => [dequote ((l.dropWhile separates).rdropWhile separates)]
  | n + 2, l =>
    let l := l.dropWhile separates
    dequote (l.takeWhile (!separates ·)) :: readVars (n + 1) (l.dropWhile (!separates ·))

/-- A word is empty only when nothing but blanks was left. -/
theorem dropWhile_eq_nil_of_word_nil {l : List QChar}
    (h : dequote ((l.dropWhile separates).takeWhile (!separates ·)) = []) :
    l.dropWhile separates = [] := by
  cases hd : l.dropWhile separates with
  | nil => rfl
  | cons q t =>
    have hq : separates q = false := by
      have := List.head_dropWhile_not separates (l := l) (by simp [hd])
      simpa [hd] using this
    simp [hd, hq, dequote] at h

/-! ### Splitting a line into an array -/

/-- The characters that `read` gets from a string without a newline, to which a
newline is added. -/
def escapes : Text → List QChar
  | [] => []
  | ['\\'] => []
  | '\\' :: c :: t => (c, true) :: escapes t
  | c :: t => (c, false) :: escapes t

/-- `IFS=sep read -a`: the pieces between separators, the last one only if it is not
empty. -/
def readArray (sep : Char) (t : Text) : List Text :=
  let pieces := ((escapes t).splitOnP (· = (sep, false))).map dequote
  if pieces.getLast? = some [] then pieces.dropLast else pieces

/-- A line that does not start with a separator gives at least one element. -/
theorem readArray_ne_nil {sep c : Char} (hsep : c ≠ sep) (hc : c ≠ '\\') (t : Text) :
    readArray sep (c :: t) ≠ [] := by
  have hesc : escapes (c :: t) = (c, false) :: escapes t := by
    rw [escapes]
    all_goals simp [hc]
  obtain ⟨p, ps, hps⟩ :=
    List.exists_cons_of_ne_nil (List.splitOnP_ne_nil (· = (sep, false)) (escapes t))
  have hsplit : (escapes (c :: t)).splitOnP (· = (sep, false)) = ((c, false) :: p) :: ps := by
    rw [hesc, List.splitOnP_cons_eq_if_modifyHead, if_neg (by simpa using hsep), hps,
      List.modifyHead_cons]
  rw [readArray, hsplit]
  cases ps with
  | nil => simp [dequote]
  | cons p' ps => split <;> simp

/-! ### Arrays without backslashes -/

theorem escapes_plain {t : Text} (h : '\\' ∉ t) : escapes t = t.map (·, false) := by
  induction t with
  | nil => rfl
  | cons c t ih =>
    have hc : c ≠ '\\' := fun heq => h (heq ▸ .head _)
    rw [escapes, ih fun hmem => h (.tail _ hmem), List.map_cons]
    all_goals simp [hc]

theorem splitOnP_unescaped (sep : Char) (t : Text) :
    ((t.map (·, false)).splitOnP (· = (sep, false))).map dequote = t.splitOn sep := by
  induction t with
  | nil => rfl
  | cons c t ih =>
    rw [List.map_cons, List.splitOnP_cons_eq_if_modifyHead, List.splitOn_cons_eq_if_modifyHead,
      ← ih]
    by_cases hc : c = sep
    · simp [hc, dequote]
    · obtain ⟨p, ps, hps⟩ := List.exists_cons_of_ne_nil
        (List.splitOnP_ne_nil (· = (sep, false)) (t.map (·, false)))
      simp [hc, hps, dequote]

theorem getLast?_splitOn {sep : Char} {t : Text} (hlast : t.getLast? ≠ some sep) (hne : t ≠ []) :
    (t.splitOn sep).getLast? ≠ some [] := by
  by_cases hmem : sep ∈ t
  · obtain ⟨a, b, hrev, ha⟩ := List.eq_append_cons_of_mem (List.mem_reverse.mpr hmem)
    have ht : t = b.reverse ++ sep :: a.reverse := by
      rw [← List.reverse_reverse t, hrev]
      simp
    have hsplit : t.splitOn sep = b.reverse.splitOn sep ++ [a.reverse] := by
      rw [ht, List.splitOn_append_cons_self,
        List.splitOn_eq_singleton fun h => ha (List.mem_reverse.mp h)]
    rw [hsplit, List.getLast?_concat, Ne, Option.some_inj, List.reverse_eq_nil_iff]
    rintro rfl
    exact hlast (by rw [ht, List.reverse_nil, List.getLast?_concat])
  · rw [List.splitOn_eq_singleton hmem, List.getLast?_singleton, Ne, Option.some_inj]
    exact hne

theorem readArray_plain {sep : Char} {t : Text} (h : '\\' ∉ t) (hlast : t.getLast? ≠ some sep)
    (hne : t ≠ []) : readArray sep t = t.splitOn sep := by
  rw [readArray, escapes_plain h, splitOnP_unescaped, if_neg (getLast?_splitOn hlast hne)]

end CargosBuildroot.Shell
