import Mathlib.Data.List.Infix

/-! Insertions behind separators, the elements of a predicate, where a condition on the rest of the
list asks for them. -/

namespace CargosBuildroot.Sed

variable {α : Type*} (p : α → Bool)

/-- `s` behind every separator with `q` of what follows it. -/
def insertBehind (q : List α → Bool) (s : List α) : List α → List α
  | [] => []
  | c :: t => if p c && q t then c :: s ++ insertBehind q s t else c :: insertBehind q s t

/-- What follows the separators. -/
def rests : List α → List (List α)
  | [] => []
  | c :: t => if p c then t :: rests t else rests t

variable {p} {q q' : List α → Bool} {s t r : List α}

theorem mem_rests : r ∈ rests p t ↔ ∃ a c, p c = true ∧ t = a ++ c :: r := by
  induction t with
  | nil => exact ⟨fun h => absurd h List.not_mem_nil, fun ⟨a, c, _, h⟩ => by simp at h⟩
  | cons c t ih =>
    rw [rests]
    constructor
    · intro h
      have hrest : r ∈ rests p t → ∃ a d, p d = true ∧ c :: t = a ++ d :: r := by
        intro h
        obtain ⟨a, d, hd, rfl⟩ := ih.mp h
        exact ⟨c :: a, d, hd, rfl⟩
      split at h
      next hc =>
        rcases List.mem_cons.mp h with rfl | h
        · exact ⟨[], c, hc, rfl⟩
        · exact hrest h
      next => exact hrest h
    · rintro ⟨a, d, hd, h⟩
      cases a with
      | nil =>
        obtain ⟨rfl, rfl⟩ := List.cons.inj h
        rw [if_pos hd]
        exact .head _
      | cons c' a =>
        obtain ⟨-, rfl⟩ := List.cons.inj h
        have hmem := ih.mpr ⟨a, d, hd, rfl⟩
        split
        · exact .tail _ hmem
        · exact hmem

theorem forall_rests_cons {P : List α → Prop} {c : α} :
    (∀ r ∈ rests p (c :: t), P r) ↔ (p c = true → P t) ∧ ∀ r ∈ rests p t, P r := by
  rw [rests]
  split
  next hc => simp [hc]
  next hc => simp [hc]

/-- The insertion depends on the condition behind the separators. -/
theorem insertBehind_congr (h : ∀ r ∈ rests p t, q r = q' r) : insertBehind p q s t = insertBehind p q' s t := by
  induction t with
  | nil => rfl
  | cons c t ih =>
    obtain ⟨hc, ht⟩ := forall_rests_cons.mp h
    rw [insertBehind, insertBehind, ih ht]
    cases hp : p c with
    | false => rfl
    | true => rw [hc hp]

/-- The insertion goes on behind a part where nothing is asked for. -/
theorem insertBehind_append {a b : List α} (h : ∀ r ∈ rests p a, q (r ++ b) = false) :
    insertBehind p q s (a ++ b) = a ++ insertBehind p q s b := by
  induction a with
  | nil => rfl
  | cons c a ih =>
    obtain ⟨hc, ha⟩ := forall_rests_cons.mp h
    have hskip : (p c && q (a ++ b)) = false := by
      cases hp : p c with
      | false => rfl
      | true => exact hc hp
    rw [List.cons_append, insertBehind, hskip, if_neg Bool.false_ne_true, ih ha, List.cons_append]

theorem insertBehind_cons_of_sep {c : α} (hc : p c = true) :
    insertBehind p q s (c :: t) = c :: (if q t then s ++ insertBehind p q s t else insertBehind p q s t) := by
  rw [insertBehind, hc, Bool.true_and]
  split
  · rfl
  · rfl

theorem length_le_insertBehind (t : List α) : t.length ≤ (insertBehind p q s t).length := by
  induction t with
  | nil => exact Nat.le_refl _
  | cons c t ih =>
    rw [insertBehind]
    split
    · simp only [List.cons_append, List.length_cons, List.length_append]
      omega
    · simpa using ih

/-- Nothing is inserted if the list stays as it is. -/
theorem insertBehind_eq_self_iff (hs : s ≠ []) :
    insertBehind p q s t = t ↔ ∀ r ∈ rests p t, q r = false := by
  induction t with
  | nil => exact ⟨fun _ r hr => absurd hr List.not_mem_nil, fun _ => rfl⟩
  | cons c t ih =>
    rw [insertBehind, forall_rests_cons, ← ih]
    have hlong : s ++ insertBehind p q s t ≠ t := by
      intro h
      have hlength := congrArg List.length h
      have hle := @length_le_insertBehind _ p q s t
      have hpos := List.length_pos_iff.mpr hs
      rw [List.length_append] at hlength
      omega
    cases hp : p c <;> cases hq : q t <;> simp [hlong]

/-- The first piece is never touched. -/
theorem takeWhile_insertBehind (t : List α) :
    (insertBehind p q s t).takeWhile (!p ·) = t.takeWhile (!p ·) := by
  induction t with
  | nil => rfl
  | cons c t ih =>
    rw [insertBehind]
    cases hp : p c with
    | true =>
      rw [List.takeWhile_cons_of_neg (l := t) (by simp [hp])]
      split
      all_goals exact List.takeWhile_cons_of_neg (by simp [hp])
    | false =>
      rw [Bool.false_and, if_neg Bool.false_ne_true, List.takeWhile_cons_of_pos (by simp [hp]), ih,
        List.takeWhile_cons_of_pos (by simp [hp])]

/-- Insertions of a list without separators are equal only where the conditions are. -/
theorem insertBehind_inj (hs : s ≠ []) (hfree : ∀ c ∈ s, p c = false) :
    insertBehind p q s t = insertBehind p q' s t ↔ ∀ r ∈ rests p t, q r = q' r := by
  refine ⟨fun h => ?_, insertBehind_congr⟩
  induction t with
  | nil => exact fun r hr => absurd hr List.not_mem_nil
  | cons c t ih =>
    have hfirst : ∀ {q q' : List α → Bool}, s ++ insertBehind p q s t ≠ insertBehind p q' s t := by
      intro q q' h
      have hpiece := congrArg (List.takeWhile (!p ·)) h
      rw [List.takeWhile_append_of_pos fun c hc => by simp [hfree c hc], takeWhile_insertBehind,
        takeWhile_insertBehind] at hpiece
      exact hs (List.append_left_eq_self.mp hpiece)
    rw [forall_rests_cons]
    rw [insertBehind, insertBehind] at h
    cases hp : p c with
    | false =>
      rw [hp] at h
      exact ⟨fun h => absurd h Bool.false_ne_true, ih (List.cons.inj h).2⟩
    | true =>
      rw [hp] at h
      cases hq : q t <;> cases hq' : q' t <;> rw [hq, hq'] at h
      · exact ⟨fun _ => rfl, ih (List.cons.inj h).2⟩
      · exact absurd (List.cons.inj h).2.symm hfirst
      · exact absurd (List.cons.inj h).2 hfirst
      · exact ⟨fun _ => rfl, ih (List.append_cancel_left (List.cons.inj h).2)⟩

theorem mem_insertBehind {x : α} (h : x ∈ insertBehind p q s t) : x ∈ t ∨ x ∈ s := by
  induction t with
  | nil => exact .inl h
  | cons c t ih =>
    rw [insertBehind] at h
    have hcons : x = c ∨ x ∈ s ∨ x ∈ insertBehind p q s t := by
      split at h
      · simpa [or_assoc] using h
      · rcases List.mem_cons.mp h with h | h
        · exact .inl h
        · exact .inr (.inr h)
    rcases hcons with rfl | h | h
    · exact .inl (.head _)
    · exact .inr h
    · exact (ih h).imp_left (.tail _)

/-- A list has no place with `q`, or a first one. -/
theorem exists_first (p : α → Bool) (q : List α → Bool) (t : List α) :
    (∀ r ∈ rests p t, q r = false) ∨
      ∃ a c b, t = a ++ c :: b ∧ p c = true ∧ q b = true ∧ ∀ r ∈ rests p a, q (r ++ c :: b) = false := by
  induction t with
  | nil => exact .inl fun r hr => absurd hr List.not_mem_nil
  | cons c t ih =>
    cases hfound : p c && q t with
    | true =>
      rw [Bool.and_eq_true] at hfound
      exact .inr ⟨[], c, t, rfl, hfound.1, hfound.2, fun r hr => absurd hr List.not_mem_nil⟩
    | false =>
      have hc : p c = true → q t = false := by
        intro hp
        rwa [hp, Bool.true_and] at hfound
      rcases ih with ih | ⟨a, d, b, rfl, hd, hb, ha⟩
      · exact .inl (forall_rests_cons.mpr ⟨hc, ih⟩)
      · exact .inr ⟨c :: a, d, b, rfl, hd, hb, forall_rests_cons.mpr ⟨hc, ha⟩⟩

end CargosBuildroot.Sed
