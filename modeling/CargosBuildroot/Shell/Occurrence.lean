import Mathlib.Data.List.Count
import Mathlib.Data.List.Infix

/-! The first and the last occurrence of a pattern in a list, as `#` and `%` find them. In a list that
is put together around a pattern with no border, the pattern occurs where it was put. -/

namespace CargosBuildroot.Shell

variable {α : Type*}

/-- No part of the pattern is both a beginning and an end of it. -/
def Unbordered (p : List α) : Prop := ∀ s t u, p = s ++ t → p = t ++ u → s = [] ∨ t = []

section

variable [DecidableEq α]

/-- What stands in front of the first occurrence, and behind it. -/
def splitFirst (p : List α) : List α → Option (List α × List α)
  | [] => if p = [] then some ([], []) else none
  | c :: t =>
    if p <+: c :: t then some ([], (c :: t).drop p.length)
    else (splitFirst p t).map fun r => (c :: r.1, r.2)

/-- What stands in front of the last occurrence, and behind it. -/
def splitLast (p : List α) : List α → Option (List α × List α)
  | [] => if p = [] then some ([], []) else none
  | c :: t =>
    match splitLast p t with
    | some r => some (c :: r.1, r.2)
    | none => if p <+: c :: t then some ([], (c :: t).drop p.length) else none

/-- What stands between the occurrences, of which there are at most so many. -/
def splitAll (p : List α) : ℕ → List α → List (List α)
  | 0, t => [t]
  | n + 1, t =>
    match splitFirst p t with
    | none => [t]
    | some (a, b) => a :: splitAll p n b

variable {p a b t : List α}

theorem eq_of_splitFirst (h : splitFirst p t = some (a, b)) : t = a ++ p ++ b := by
  induction t generalizing a with
  | nil =>
    rw [splitFirst] at h
    split at h
    next hp =>
      obtain ⟨rfl, rfl⟩ := Prod.mk.inj (Option.some.inj h)
      simp [hp]
    · cases h
  | cons c t ih =>
    rw [splitFirst] at h
    split at h
    next hp =>
      obtain ⟨rfl, rfl⟩ := Prod.mk.inj (Option.some.inj h)
      exact (List.prefix_iff_eq_append.mp hp).symm
    · obtain ⟨⟨a', b'⟩, hr, heq⟩ := Option.map_eq_some_iff.mp h
      obtain ⟨rfl, rfl⟩ := Prod.mk.inj heq
      rw [ih hr]
      rfl

theorem eq_of_splitLast (h : splitLast p t = some (a, b)) : t = a ++ p ++ b := by
  induction t generalizing a with
  | nil =>
    rw [splitLast] at h
    split at h
    next hp =>
      obtain ⟨rfl, rfl⟩ := Prod.mk.inj (Option.some.inj h)
      simp [hp]
    · cases h
  | cons c t ih =>
    rw [splitLast] at h
    cases hr : splitLast p t with
    | some r =>
      rw [hr] at h
      obtain ⟨rfl, rfl⟩ := Prod.mk.inj (Option.some.inj h)
      rw [ih hr]
      rfl
    | none =>
      rw [hr] at h
      dsimp only at h
      split at h
      next hp =>
        obtain ⟨rfl, rfl⟩ := Prod.mk.inj (Option.some.inj h)
        exact (List.prefix_iff_eq_append.mp hp).symm
      · cases h

theorem splitFirst_eq_none (h : splitFirst p t = none) : ¬ p <:+: t := by
  induction t with
  | nil =>
    rw [splitFirst] at h
    split at h
    · cases h
    next hp => exact fun hocc => hp (List.infix_nil.mp hocc)
  | cons c t ih =>
    rw [splitFirst] at h
    split at h
    · cases h
    next hp =>
      rw [List.infix_cons_iff, not_or]
      exact ⟨hp, ih (Option.map_eq_none_iff.mp h)⟩

theorem splitLast_eq_none (h : splitLast p t = none) : ¬ p <:+: t := by
  induction t with
  | nil =>
    rw [splitLast] at h
    split at h
    · cases h
    next hp => exact fun hocc => hp (List.infix_nil.mp hocc)
  | cons c t ih =>
    rw [splitLast] at h
    cases hr : splitLast p t with
    | some r => rw [hr] at h; cases h
    | none =>
      rw [hr] at h
      dsimp only at h
      split at h
      · cases h
      next hp =>
        rw [List.infix_cons_iff, not_or]
        exact ⟨hp, ih hr⟩

omit [DecidableEq α] in
/-- Two occurrences of a pattern with no border do not overlap. -/
theorem Unbordered.shift (hp : Unbordered p) {y z : List α} (h : p ++ y = z ++ (p ++ b)) :
    z = [] ∨ ∃ w, z = p ++ w := by
  rcases List.append_eq_append_iff.mp h with ⟨w, hz, -⟩ | ⟨w, hpz, hrest⟩
  · exact .inr ⟨w, hz⟩
  · rcases List.append_eq_append_iff.mp hrest with ⟨v, hw, -⟩ | ⟨v, hpw, -⟩
    · have hlen := congrArg List.length hpz
      have hlen' := congrArg List.length hw
      rw [List.length_append] at hlen hlen'
      exact .inl (List.length_eq_zero_iff.mp (by omega))
    · rcases hp z w v hpz hpw with hz | rfl
      · exact .inl hz
      · exact .inr ⟨[], by rw [hpz, List.append_nil, List.append_nil]⟩

omit [DecidableEq α] in
/-- A pattern with no border occurs once where it was put between two parts without it. -/
theorem Unbordered.unique (hp : Unbordered p) {x y : List α} (ha : ¬ p <:+: a) (hb : ¬ p <:+: b)
    (h : x ++ p ++ y = a ++ p ++ b) : x = a ∧ y = b := by
  rw [List.append_assoc, List.append_assoc] at h
  rcases List.append_eq_append_iff.mp h with ⟨z, hz, hrest⟩ | ⟨z, hz, hrest⟩
  · rcases hp.shift hrest with rfl | ⟨w, rfl⟩
    · rw [List.append_nil] at hz
      exact ⟨hz.symm, List.append_cancel_left hrest⟩
    · exact absurd ⟨x, w, by rw [hz, List.append_assoc]⟩ ha
  · rcases hp.shift hrest with rfl | ⟨w, rfl⟩
    · rw [List.append_nil] at hz
      exact ⟨hz, (List.append_cancel_left hrest).symm⟩
    · rw [List.append_assoc] at hrest
      exact absurd ⟨w, y, by rw [List.append_cancel_left hrest, List.append_assoc]⟩ hb

/-- The first occurrence is the one behind a part without the pattern. -/
theorem Unbordered.splitFirst_append (hp : Unbordered p) (ha : ¬ p <:+: a) (b : List α) :
    splitFirst p (a ++ p ++ b) = some (a, b) := by
  induction a with
  | nil =>
    cases hpb : p ++ b with
    | nil =>
      obtain ⟨rfl, rfl⟩ := List.append_eq_nil_iff.mp hpb
      rfl
    | cons c t =>
      rw [List.nil_append, hpb, splitFirst, ← hpb, if_pos (List.prefix_append p b), List.drop_left]
  | cons c a ih =>
    have hprefix : ¬ p <+: c :: (a ++ p ++ b) := by
      rintro ⟨y, hy⟩
      rcases hp.shift (z := c :: a) (b := b) (by rw [hy]; simp) with hnil | ⟨w, hw⟩
      · exact List.cons_ne_nil c a hnil
      · exact ha (hw ▸ (List.prefix_append p w).isInfix)
    rw [List.cons_append, List.cons_append, splitFirst, if_neg hprefix,
      ih fun h => ha (h.trans (List.suffix_cons c a).isInfix), Option.map_some]

theorem Unbordered.splitLast_eq (hp : Unbordered p) (ha : ¬ p <:+: a) (hb : ¬ p <:+: b) :
    splitLast p (a ++ p ++ b) = some (a, b) := by
  cases h : splitLast p (a ++ p ++ b) with
  | none => exact absurd ⟨a, b, rfl⟩ (splitLast_eq_none h)
  | some r =>
    obtain ⟨x, y⟩ := r
    obtain ⟨rfl, rfl⟩ := hp.unique ha hb (eq_of_splitLast h).symm
    rfl

omit [DecidableEq α] in
/-- A pattern whose two parts begin and end with elements that are not in the other part. -/
theorem unbordered_append {x z : α} {l r : List α} (hl : l.head? = some x) (hxr : x ∉ r)
    (hr : r.getLast? = some z) (hzl : z ∉ l) : Unbordered (l ++ r) := by
  classical
  intro s t u hst htu
  by_contra hne
  rw [not_or] at hne
  have hxl : x ∈ l := List.mem_of_mem_head? hl
  have hrne : r ≠ [] := List.ne_nil_of_mem (List.mem_of_getLast? hr)
  -- the border ends like the second part, so that it has all of the first one
  obtain ⟨t', rfl⟩ : l <+: t := by
    rcases List.prefix_or_prefix_of_prefix ⟨u, htu.symm⟩ (List.prefix_append l r) with h | h
    · have hlast : t.getLast? = some z := by
        rw [← hr, ← List.getLast?_append_of_ne_nil l hrne, hst, List.getLast?_append_of_ne_nil s hne.2]
      exact absurd (h.subset (List.mem_of_getLast? hlast)) hzl
    · exact h
  rcases List.append_eq_append_iff.mp hst with ⟨w, -, hw⟩ | ⟨w, hw, hwr⟩
  · exact hxr (by rw [hw]; simp [hxl])
  · have hcount := congrArg (List.count x) hwr
    rw [List.count_append, List.count_append, List.count_eq_zero_of_not_mem hxr, hw, List.count_append] at hcount
    have hs : x ∈ s := by
      rw [hw, List.head?_append_of_ne_nil s hne.1] at hl
      exact List.mem_of_mem_head? hl
    have hpos := List.count_pos_iff.mpr hs
    omega

theorem splitFirst_of_absent (h : ¬ p <:+: t) : splitFirst p t = none := by
  cases hr : splitFirst p t with
  | none => rfl
  | some r => exact absurd ⟨r.1, r.2, (eq_of_splitFirst hr).symm⟩ h

theorem splitAll_of_absent (h : ¬ p <:+: t) (n : ℕ) : splitAll p n t = [t] := by
  cases n with
  | zero => rfl
  | succ n => rw [splitAll, splitFirst_of_absent h]

theorem Unbordered.splitAll_append (hp : Unbordered p) (ha : ¬ p <:+: a) (b : List α) (n : ℕ) :
    splitAll p (n + 1) (a ++ p ++ b) = a :: splitAll p n b := by
  rw [splitAll, hp.splitFirst_append ha]

theorem splitLast_of_absent (h : ¬ p <:+: t) : splitLast p t = none := by
  cases hr : splitLast p t with
  | none => rfl
  | some r => exact absurd ⟨r.1, r.2, (eq_of_splitLast hr).symm⟩ h

end

end CargosBuildroot.Shell
