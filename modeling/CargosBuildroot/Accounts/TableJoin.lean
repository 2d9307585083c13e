import CargosBuildroot.Accounts.UsersTable
import Mathlib.Data.List.Forall2

/-! When the reading of the users table loses and merges nothing. A line that was put
together from several texts gives at most one entry, and its entry contains each entry
it should give; so the entries are the expected ones only if every joint is harmless
and no line has a backslash. -/

namespace CargosBuildroot.Accounts

open Shell

/-! ### Entries that were merged or lost -/

/-- `read` has fewer entries than expected, or each of its entries contains the
expected one. -/
def Coarser (expected read : List Text) : Prop :=
  read.length < expected.length ∨ List.Forall₂ (· <:+: ·) expected read

theorem Coarser.refl (l : List Text) : Coarser l l :=
  .inr (List.forall₂_same.mpr fun _ _ => List.infix_rfl)

theorem Coarser.length_le {a b : List Text} (h : Coarser a b) : b.length ≤ a.length := by
  rcases h with h | h
  · exact h.le
  · exact h.length_eq.ge

theorem Coarser.trans {a b c : List Text} (hab : Coarser a b) (hbc : Coarser b c) : Coarser a c := by
  rcases hab with hab | hab
  · exact .inl (hbc.length_le.trans_lt hab)
  · rcases hbc with hbc | hbc
    · exact .inl (hab.length_eq ▸ hbc)
    · refine .inr ?_
      induction hab generalizing c with
      | nil =>
        cases hbc
        exact .nil
      | cons hxy _ ih =>
        cases hbc with
        | cons hyz hrest => exact .cons (hxy.trans hyz) (ih hrest)

theorem Coarser.antisymm {a b : List Text} (hab : Coarser a b) (hba : Coarser b a) : a = b := by
  rcases hab with hab | hab
  · exact absurd hba.length_le (Nat.not_le_of_lt hab)
  · rcases hba with hba | hba
    · exact absurd hab.length_eq hba.ne
    · induction hab with
      | nil => rfl
      | cons hxy _ ih =>
        cases hba with
        | cons hyx hrest =>
          rw [ih hrest, hxy.eq_of_length_le hyx.length_le]

theorem Coarser.append {a b a' b' : List Text} (h : Coarser a b) (h' : Coarser a' b') :
    Coarser (a ++ a') (b ++ b') := by
  rcases h with h | h
  · have hle := h'.length_le
    exact .inl (by simp only [List.length_append]; omega)
  · rcases h' with h' | h'
    · have heq := h.length_eq
      exact .inl (by simp only [List.length_append]; omega)
    · exact .inr (List.rel_append h h')

/-! ### One joint -/

/-- A text that ends in `a`, put before a line `b`, keeps their entries apart: what
follows a comment has no text, or one of the two parts is blank. -/
def JoinsWell (a b : Text) : Prop :=
  if '#' ∈ a then isEmptyLine (stripComment b) = true
  else isEmptyLine a = true ∧ isEmptyLine (stripComment b) = true ∨
    a.all isBlank = true ∨ (stripComment b).all isBlank = true

instance (a b : Text) : Decidable (JoinsWell a b) := by unfold JoinsWell; infer_instance

theorem stripComment_of_comment {a : Text} (ha : '#' ∈ a) (b : Text) :
    stripComment (a ++ b) = stripComment a := by
  induction a with
  | nil => cases ha
  | cons c a ih =>
    by_cases hc : c = '#'
    · simp [stripComment, hc]
    · have hmem : '#' ∈ a := by simpa [Ne.symm hc] using ha
      have hrest := ih hmem
      simp only [stripComment, List.cons_append] at hrest ⊢
      rw [List.takeWhile_cons_of_pos (by simpa using hc), hrest,
        List.takeWhile_cons_of_pos (by simpa using hc)]

theorem stripComment_of_no_comment {a : Text} (ha : '#' ∉ a) (b : Text) :
    stripComment (a ++ b) = a ++ stripComment b := by
  apply List.takeWhile_append_of_pos
  intro c hc
  rw [decide_eq_true_iff]
  rintro rfl
  exact ha hc

theorem stripComment_self {a : Text} (ha : '#' ∉ a) : stripComment a = a := by
  simpa [stripComment] using stripComment_of_no_comment ha []

theorem isEmptyLine_append (a b : Text) :
    isEmptyLine (a ++ b) = (isEmptyLine a && isEmptyLine b) := List.all_append

theorem not_blank_of_not_empty {l : Text} (h : isEmptyLine l = false) : l.all isBlank = false := by
  by_contra hblank
  rw [isEmptyLine_of_blank (by simpa using hblank)] at h
  cases h

/-- Blanks around an entry are no part of it; other text is. -/
theorem trimBlanks_append_left {a s : Text} (hs : isEmptyLine s = false) :
    trimBlanks s <:+: trimBlanks (a ++ s) ∧ (trimBlanks (a ++ s) = trimBlanks s ↔ a.all isBlank = true) := by
  have hs' := not_blank_of_not_empty hs
  cases ha : a.all isBlank with
  | true => simp [trimBlanks_blank_append ha, List.infix_rfl]
  | false =>
    obtain ⟨start, hstart⟩ := trimBlanks_suffix hs'
    have hne : a.dropWhile isBlank ≠ [] := by
      rw [Ne, dropWhile_eq_nil_iff, ha]
      exact Bool.false_ne_true
    rw [trimBlanks_append ha hs', hstart]
    refine ⟨⟨a.dropWhile isBlank ++ start, [], by simp⟩, iff_of_false (fun h => ?_) (by simp)⟩
    have hlength := congrArg List.length h
    have hpos := List.length_pos_of_ne_nil hne
    simp only [List.length_append] at hlength
    omega

theorem trimBlanks_append_right {a s : Text} (ha : isEmptyLine a = false) :
    trimBlanks a <:+: trimBlanks (a ++ s) ∧ (trimBlanks (a ++ s) = trimBlanks a ↔ s.all isBlank = true) := by
  have ha' := not_blank_of_not_empty ha
  cases hs : s.all isBlank with
  | true => simp [trimBlanks_append_blank a hs, List.infix_rfl]
  | false =>
    obtain ⟨rest, hrest⟩ := trimBlanks_prefix a
    have hne : s.rdropWhile isBlank ≠ [] := by
      rw [Ne, rdropWhile_eq_nil_iff, hs]
      exact Bool.false_ne_true
    rw [trimBlanks_append ha' hs, hrest]
    refine ⟨⟨[], rest ++ s.rdropWhile isBlank, by simp⟩, iff_of_false (fun h => ?_) (by simp)⟩
    have hlength := congrArg List.length h
    have hpos := List.length_pos_of_ne_nil hne
    simp only [List.length_append] at hlength
    omega

/-- The entries of a joined line. -/
theorem lineEntries_append (a b : Text) :
    Coarser (lineEntries a ++ lineEntries b) (lineEntries (a ++ b)) ∧
      (lineEntries (a ++ b) = lineEntries a ++ lineEntries b ↔ JoinsWell a b) := by
  by_cases hcomment : '#' ∈ a
  · rw [JoinsWell, if_pos hcomment]
    simp only [lineEntries, stripComment_of_comment hcomment]
    cases hb : isEmptyLine (stripComment b) with
    | true => simp [Coarser.refl]
    | false =>
      refine ⟨.inl ?_, ?_⟩
      · simp
      · simp
  · rw [JoinsWell, if_neg hcomment]
    simp only [lineEntries, stripComment_of_no_comment hcomment, stripComment_self hcomment,
      isEmptyLine_append]
    generalize stripComment b = s
    cases ha : isEmptyLine a <;> cases hs : isEmptyLine s
    · -- two texts give one entry
      have ha' := not_blank_of_not_empty ha
      have hs' := not_blank_of_not_empty hs
      refine ⟨.inl (by simp), ?_⟩
      simp [ha', hs']
    · obtain ⟨hpart, hiff⟩ := trimBlanks_append_right (s := s) ha
      have ha' := not_blank_of_not_empty ha
      refine ⟨.inr (by simpa using hpart), ?_⟩
      simp [ha', hiff]
    · obtain ⟨hpart, hiff⟩ := trimBlanks_append_left (a := a) hs
      have hs' := not_blank_of_not_empty hs
      refine ⟨.inr (by simpa using hpart), ?_⟩
      simp [hs', hiff]
    · simp [Coarser.refl]

/-! ### All joints -/

/-- Every table ends in a newline, or joins well with what follows it. -/
def Separate : List Text → Text → Prop
  | [], _ => True
  | t :: ts, rest => JoinsWell (lastPiece t) (firstLine (ts.flatten ++ rest)) ∧ Separate ts rest

/-- A text with a newline has a first line. -/
theorem exists_firstLine (u r : Text) :
    ∃ b r', '\n' ∉ b ∧ u ++ '\n' :: r = b ++ '\n' :: r' := by
  obtain ⟨ls, last, rfl, hls, hlast⟩ := exists_unlines u
  cases ls with
  | nil => exact ⟨last, r, hlast, by simp [unlines]⟩
  | cons l ls => exact ⟨l, unlines ls ++ last ++ '\n' :: r, hls l (.head _), by simp [unlines]⟩

/-- The lines of a text put before a text with a newline. -/
theorem lines_append (t : Text) {b : Text} (hb : '\n' ∉ b) (r : Text) :
    ∃ ls, lines t = ls ++ [lastPiece t] ∧
      lines (t ++ (b ++ '\n' :: r)) = ls ++ (lastPiece t ++ b) :: lines r := by
  obtain ⟨ls, a, rfl, hls, ha⟩ := exists_unlines t
  have hjoin : '\n' ∉ a ++ b := by
    rw [List.mem_append]
    exact fun h => h.elim ha hb
  have hpiece : lastPiece (unlines ls ++ a) = a := by
    rw [lastPiece, lines_unlines hls, lines_of_no_newline ha]
    simp
  refine ⟨ls, ?_, ?_⟩
  · rw [lines_unlines hls, lines_of_no_newline ha, hpiece]
  · rw [hpiece, List.append_assoc, lines_unlines hls, ← List.append_assoc a b, lines_cons hjoin]

/-- A table put before a text with a newline. -/
theorem textEntries_append (t : Text) {b r : Text} (hb : '\n' ∉ b) :
    Coarser (textEntries t ++ textEntries (b ++ '\n' :: r)) (textEntries (t ++ (b ++ '\n' :: r))) ∧
      (textEntries (t ++ (b ++ '\n' :: r)) = textEntries t ++ textEntries (b ++ '\n' :: r) ↔
        JoinsWell (lastPiece t) b) := by
  obtain ⟨ls, hlines, hjoined⟩ := lines_append t hb r
  obtain ⟨hcoarser, hiff⟩ := lineEntries_append (lastPiece t) b
  simp only [textEntries_eq, hlines, hjoined, lines_cons hb, List.flatMap_append, List.flatMap_cons,
    List.flatMap_nil, List.append_nil]
  rw [← hiff]
  constructor
  · have h := (Coarser.refl (ls.flatMap lineEntries)).append
      (hcoarser.append (Coarser.refl ((lines r).flatMap lineEntries)))
    simpa [List.append_assoc] using h
  · rw [List.append_assoc, List.append_right_inj, ← List.append_assoc, List.append_left_inj]

/-- The entries of the whole table, against those of its parts. -/
theorem textEntries_flatten (ts : List Text) (b r : Text) :
    Coarser (ts.flatMap textEntries ++ textEntries (b ++ '\n' :: r))
        (textEntries (ts.flatten ++ (b ++ '\n' :: r))) ∧
      (textEntries (ts.flatten ++ (b ++ '\n' :: r)) =
        ts.flatMap textEntries ++ textEntries (b ++ '\n' :: r) ↔ Separate ts (b ++ '\n' :: r)) := by
  induction ts with
  | nil => simp [Coarser.refl, Separate]
  | cons t ts ih =>
    obtain ⟨hrest, hiff⟩ := ih
    obtain ⟨b', r', hb', heq⟩ := exists_firstLine (ts.flatten ++ b) r
    rw [List.append_assoc] at heq
    obtain ⟨hone, hone_iff⟩ := textEntries_append t (r := r') hb'
    have hfirst : firstLine (ts.flatten ++ (b ++ '\n' :: r)) = b' := by
      rw [firstLine, heq, lines_cons hb']
      rfl
    have hwhole : (t :: ts).flatten ++ (b ++ '\n' :: r) = t ++ (b' ++ '\n' :: r') := by
      rw [List.flatten_cons, List.append_assoc, heq]
    have hmiddle : Coarser ((t :: ts).flatMap textEntries ++ textEntries (b ++ '\n' :: r))
        (textEntries t ++ textEntries (b' ++ '\n' :: r')) := by
      rw [List.flatMap_cons, List.append_assoc, ← heq]
      exact (Coarser.refl _).append hrest
    refine ⟨hwhole ▸ hmiddle.trans hone, ?_⟩
    rw [Separate, hfirst, ← hone_iff, ← hiff, heq]
    rw [hwhole, List.flatMap_cons, List.append_assoc]
    constructor
    · intro hsame
      rw [List.flatMap_cons, List.append_assoc] at hmiddle
      have hback : textEntries t ++ textEntries (b' ++ '\n' :: r') =
          textEntries t ++ (ts.flatMap textEntries ++ textEntries (b ++ '\n' :: r)) :=
        (hsame ▸ hone).antisymm hmiddle
      exact ⟨hsame.trans hback.symm, List.append_cancel_left hback⟩
    · rintro ⟨hjoint, htail⟩
      rw [hjoint, htail]

end CargosBuildroot.Accounts
