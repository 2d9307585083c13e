import CargosBuildroot.Shell.Echo
import CargosBuildroot.Shell.Fields
import CargosBuildroot.Sed.Replace

/-! Where a pattern can stand in a text that is put between two marks. -/

namespace CargosBuildroot.Shell

variable {α : Type*} {x : α} {p q s t : List α}

/-- No occurrence begins in a part without the first element of the pattern. -/
theorem cons_infix_append (hx : x ∉ s) : x :: p <:+: s ++ t ↔ x :: p <:+: t := by
  induction s with
  | nil => rfl
  | cons c s ih =>
    rw [List.mem_cons, not_or] at hx
    rw [List.cons_append, List.infix_cons_iff, ih hx.2, List.cons_prefix_cons]
    exact or_iff_right fun h => hx.1 h.1

/-- No occurrence ends in a part without the last element of the pattern. -/
theorem concat_infix_append (hx : x ∉ s) : p ++ [x] <:+: t ++ s ↔ p ++ [x] <:+: t := by
  have h := cons_infix_append (p := p.reverse) (t := t.reverse) (mt List.mem_reverse.mp hx)
  rw [← List.reverse_append, ← List.reverse_concat, List.reverse_infix, List.reverse_infix] at h
  exact h

theorem cons_suffix_append (hx : x ∉ s) (h : x :: p <:+ s ++ t) : x :: p <:+ t := by
  induction s with
  | nil => exact h
  | cons c s ih =>
    rw [List.mem_cons, not_or] at hx
    rcases List.suffix_cons_iff.mp h with h | h
    · exact absurd (List.cons.inj h).1 hx.1
    · exact ih hx.2 h

theorem prefix_append_cons_iff (hp : x ∉ p) (hs : x ∉ s) :
    q ++ x :: p <+: t ++ x :: s ↔ q ++ x :: p <+: t ∨ q = t ∧ p <+: s := by
  induction t generalizing q with
  | nil =>
    cases q with
    | nil => simp
    | cons c q =>
      have hnot : ¬ q ++ x :: p <+: s := fun h => hs (h.subset (by simp))
      simp [List.cons_prefix_cons, hnot]
  | cons d t ih =>
    cases q with
    | nil =>
      rw [List.nil_append, List.cons_append, List.cons_prefix_cons, List.cons_prefix_cons]
      have h : p <+: t ++ x :: s ↔ p <+: t :=
        ⟨Sed.prefix_append_cons hp, fun h => h.trans (List.prefix_append _ _)⟩
      simp [h]
    | cons c q =>
      rw [List.cons_append, List.cons_append, List.cons_prefix_cons, List.cons_prefix_cons, ih,
        List.cons.injEq]
      tauto

theorem infix_append_cons_iff (hp : x ∉ p) (hs : x ∉ s) :
    q ++ x :: p <:+: t ++ x :: s ↔ q ++ x :: p <:+: t ∨ q <:+ t ∧ p <+: s := by
  induction t with
  | nil =>
    have hnot : ¬ q ++ x :: p <:+: s := fun h => hs (h.subset (by simp))
    have h := prefix_append_cons_iff (q := q) (t := []) hp hs
    rw [List.nil_append] at h
    rw [List.nil_append, List.infix_cons_iff, or_iff_left hnot, h, List.prefix_nil,
      List.infix_nil, List.suffix_nil]
  | cons c t ih =>
    rw [List.cons_append, List.infix_cons_iff, ih, ← List.cons_append,
      prefix_append_cons_iff hp hs, List.infix_cons_iff, List.suffix_cons_iff]
    tauto

/-! ### Marks -/

/-- The first element stands nowhere else in the word. -/
def IsMark (m : List α) : Prop := ∃ x s, m = x :: s ∧ x ∉ s

variable {m : List α}

/-- An occurrence of a mark in a text behind the same mark begins with that mark or in the
text. -/
theorem IsMark.append_infix (hm : IsMark m) : m ++ p <:+: m ++ t ↔ p <+: t ∨ m ++ p <:+: t := by
  obtain ⟨x, s, rfl, hx⟩ := hm
  rw [List.cons_append, List.cons_append, List.infix_cons_iff, List.prefix_cons_inj,
    List.prefix_append_right_inj, cons_infix_append hx]

theorem IsMark.append_suffix (hm : IsMark m) : m ++ p <:+ m ++ t ↔ p = t ∨ m ++ p <:+ t := by
  obtain ⟨x, s, rfl, hx⟩ := hm
  rw [List.cons_append, List.cons_append, List.suffix_cons_iff, List.cons.injEq,
    and_iff_right rfl, List.append_cancel_left_eq]
  exact or_congr_right ⟨cons_suffix_append hx, fun h => h.trans (List.suffix_append s t)⟩

/-- An occurrence that ends with a mark, in a text before the same mark, ends with that mark
or in the text. -/
theorem IsMark.infix_append (hm : IsMark m) : q ++ m <:+: t ++ m ↔ q <:+ t ∨ q ++ m <:+: t := by
  obtain ⟨x, s, rfl, hx⟩ := hm
  rw [infix_append_cons_iff hx hx, and_iff_left (List.prefix_refl s), or_comm]

/-! ### Separators -/

/-- The places of a piece: alone, in front of a separator, behind one or between two. -/
theorem mem_splitOn_iff {x : Char} {t w : Text} : w ∈ t.splitOn x ↔
    x ∉ w ∧ (t = w ∨ w ++ [x] <+: t ∨ x :: w <:+ t ∨ x :: w ++ [x] <:+: t) := by
  constructor
  · intro h
    refine ⟨fun hx => (mem_piece h hx).2 rfl, ?_⟩
    rcases mem_splitOn_cases h with rfl | ⟨r, rfl⟩ | ⟨a, rfl⟩ | ⟨a, r, rfl⟩
    · exact .inl rfl
    · exact .inr (.inl ⟨r, by simp⟩)
    · exact .inr (.inr (.inl ⟨a, by simp⟩))
    · exact .inr (.inr (.inr ⟨a, r, by simp⟩))
  · rintro ⟨hx, rfl | ⟨r, rfl⟩ | ⟨a, rfl⟩ | ⟨a, r, rfl⟩⟩
    · rw [List.splitOn_eq_singleton hx]
      exact .head _
    · rw [List.append_assoc, List.singleton_append,
        List.splitOn_append_cons_self_of_not_mem hx]
      exact .head _
    · rw [List.splitOn_append_cons_self, List.splitOn_eq_singleton hx]
      exact List.mem_append_right _ (.head _)
    · rw [List.append_assoc, List.append_assoc, List.cons_append, List.splitOn_append_cons_self,
        List.singleton_append, List.splitOn_append_cons_self_of_not_mem hx]
      exact List.mem_append_right _ (.head _)

end CargosBuildroot.Shell
