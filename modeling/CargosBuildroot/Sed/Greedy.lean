import Mathlib.Data.List.Forall2

/-! Anchored patterns as `sed` matches them: each part of a pattern takes as much of the text
as it can while the parts after it still match the rest. -/

namespace CargosBuildroot.Sed

variable {α β : Type*}

/-- The ways to cut a list in two, the longest first part first. -/
def splits : List α → List (List α × List α)
  | [] => [([], [])]
  | c :: t => (splits t).map (fun s => (c :: s.1, s.2)) ++ [([], c :: t)]

theorem mem_splits {t a b : List α} : (a, b) ∈ splits t ↔ a ++ b = t := by
  induction t generalizing a with
  | nil => simp [splits]
  | cons c t ih =>
    rw [splits, List.mem_append, List.mem_singleton, List.mem_map]
    constructor
    · rintro (⟨⟨x, y⟩, hxy, h⟩ | h)
      · obtain ⟨rfl, rfl⟩ := Prod.mk.inj h
        rw [List.cons_append, ih.mp hxy]
      · obtain ⟨rfl, rfl⟩ := Prod.mk.inj h
        rfl
    · intro h
      cases a with
      | nil => exact .inr (by rw [← h, List.nil_append])
      | cons d a =>
        obtain ⟨rfl, ht⟩ := List.cons.inj h
        exact .inl ⟨(a, b), ih.mpr ht, rfl⟩

variable {f : List α × List α → Option β}

theorem findSome_splits_eq_none {t : List α} (h : ∀ a b, a ++ b = t → f (a, b) = none) :
    (splits t).findSome? f = none :=
  List.findSome?_eq_none_iff.mpr fun _ hs => h _ _ (mem_splits.mp hs)

theorem exists_of_findSome_splits {t : List α} {r : β} (h : (splits t).findSome? f = some r) :
    ∃ a b, a ++ b = t ∧ f (a, b) = some r := by
  obtain ⟨⟨a, b⟩, hmem, hf⟩ := List.exists_of_findSome?_eq_some h
  exact ⟨a, b, mem_splits.mp hmem, hf⟩

/-- The match with the longest first part is the one that is found. -/
theorem findSome_splits {a b : List α} {r : β} (h : f (a, b) = some r)
    (hlonger : ∀ x y, x ++ y = a ++ b → a.length < x.length → f (x, y) = none) :
    (splits (a ++ b)).findSome? f = some r := by
  induction a generalizing f with
  | nil =>
    cases b with
    | nil => rw [List.append_nil, splits, List.findSome?_singleton, h]
    | cons c t =>
      have hnone : (splits t).findSome? (fun s => f (c :: s.1, s.2)) = none :=
        findSome_splits_eq_none fun x y hxy => hlonger _ _ (by rw [List.cons_append, hxy]; rfl) (by simp)
      rw [List.nil_append, splits, List.findSome?_append, List.findSome?_map]
      simp only [Function.comp_def]
      rw [hnone, Option.none_or, List.findSome?_singleton, h]
  | cons c a ih =>
    have hsome := ih (f := fun s => f (c :: s.1, s.2)) h fun x y hxy hlength =>
      hlonger (c :: x) y (by rw [List.cons_append, hxy, List.cons_append])
        (by rw [List.length_cons, List.length_cons]; omega)
    rw [List.cons_append, splits, List.findSome?_append, List.findSome?_map]
    simp only [Function.comp_def]
    rw [hsome, Option.some_or]

end CargosBuildroot.Sed
