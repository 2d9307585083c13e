import CargosBuildroot.Shell.Read

/-! Word splitting at blanks and newlines, with the default field separators. -/

namespace CargosBuildroot.Shell

/-- The default field separators. -/
def isSpace (c : Char) : Bool := c = ' ' || c = '\t' || c = '\n'

/-- The words of an unquoted expansion. -/
def words (t : Text) : List Text := (t.splitOnP isSpace).filter (· ≠ [])

/-- What `echo` prints for an unquoted expansion. -/
def echo (t : Text) : Text := [' '].intercalate (words t)

theorem no_space {w : Text} (h : w.all (!isSpace ·) = true) : ∀ c ∈ w, isSpace c = false := by
  simpa using h

theorem words_append_space (a b : Text) {c : Char} (hc : isSpace c = true) :
    words (a ++ c :: b) = words a ++ words b := by
  rw [words, List.splitOnP_append_cons a b hc, List.filter_append, words, words]

/-- Only spaces have no words. -/
theorem words_eq_nil_iff {t : Text} : words t = [] ↔ ∀ c ∈ t, isSpace c = true := by
  induction t with
  | nil => simp [words]
  | cons c t ih =>
    by_cases hc : isSpace c = true
    · have happ := words_append_space [] t hc
      rw [List.nil_append] at happ
      have hnil : words [] = [] := by simp [words]
      rw [happ, hnil, List.nil_append, ih, List.forall_mem_cons, and_iff_right hc]
    · obtain ⟨w, ws, hsplit⟩ := List.exists_cons_of_ne_nil (List.splitOnP_ne_nil isSpace t)
      have hwords : words (c :: t) ≠ [] := by
        rw [words, List.splitOnP_cons_eq_if_modifyHead, if_neg hc, hsplit, List.modifyHead_cons]
        simp
      exact iff_of_false hwords fun h => hc (h c (.head _))

theorem words_of_word {w : Text} (hne : w ≠ []) (hw : ∀ c ∈ w, isSpace c = false) :
    words w = [w] := by
  simp [words, List.splitOnP_eq_singleton hw, hne]

/-- A word, followed by the words after the next space. -/
theorem words_word_space {w : Text} (b : Text) {c : Char} (hne : w ≠ [])
    (hw : ∀ d ∈ w, isSpace d = false) (hc : isSpace c = true) :
    words (w ++ c :: b) = w :: words b := by
  rw [words_append_space w b hc, words_of_word hne hw, List.singleton_append]

end CargosBuildroot.Shell
