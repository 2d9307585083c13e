import CargosBuildroot.Store.Keyed
import Mathlib.Data.List.Nodup

/-! Names with numbers, each name at most once. Assigning a number to a name keeps
the names apart, and keeps the numbers apart if no other name has the number. -/

namespace CargosBuildroot.Store

variable {κ ι : Type*} [DecidableEq κ]

/-- The pair belongs to the name. -/
def atName (k : κ) (a : κ × ι) : Bool := a.1 = k

/-- Give the number `n` to the name `k`. -/
def assign (k : κ) (n : ι) (A : List (κ × ι)) : List (κ × ι) := put atName k (k, n) A

variable {A : List (κ × ι)} {k k' : κ} {n n' : ι}

theorem mem_assign : (k', n') ∈ assign k n A ↔ (k', n') ∈ A ∧ k' ≠ k ∨ k' = k ∧ n' = n := by
  simp [assign, mem_put, atName]

/-- The numbers may be read in another way. -/
theorem assign_map {ι' : Type*} (f : ι → ι') (k : κ) (n : ι) (A : List (κ × ι)) :
    (assign k n A).map (fun a => (a.1, f a.2)) = assign k (f n) (A.map fun a => (a.1, f a.2)) := by
  simp [assign, put, atName, List.filter_map, Function.comp_def]

theorem assign_names (h : (A.map Prod.fst).Nodup) : ((assign k n A).map Prod.fst).Nodup := by
  have hsub : ((A.filter (!atName k ·)).map Prod.fst).Sublist (A.map Prod.fst) :=
    List.filter_sublist.map _
  rw [assign, put, List.map_append, List.nodup_append]
  refine ⟨h.sublist hsub, by simp, ?_⟩
  intro a ha b hb
  obtain ⟨⟨k', n'⟩, hmem, rfl⟩ := List.mem_map.mp ha
  have hne : k' ≠ k := by simpa [atName] using (List.mem_filter.mp hmem).2
  simpa [List.mem_singleton.mp hb] using hne

/-- A number that at most the name itself has keeps the numbers apart. -/
theorem assign_numbers (h : (A.map Prod.snd).Nodup) (hfree : ∀ k', (k', n) ∈ A → k' = k) :
    ((assign k n A).map Prod.snd).Nodup := by
  have hsub : ((A.filter (!atName k ·)).map Prod.snd).Sublist (A.map Prod.snd) :=
    List.filter_sublist.map _
  rw [assign, put, List.map_append, List.nodup_append]
  refine ⟨h.sublist hsub, by simp, ?_⟩
  rintro a ha b hb rfl
  obtain ⟨⟨k', n'⟩, hmem, rfl⟩ := List.mem_map.mp ha
  obtain rfl : n' = n := by simpa using hb
  obtain ⟨hA, hne⟩ := List.mem_filter.mp hmem
  simp [atName, hfree k' hA] at hne

omit [DecidableEq κ] in
/-- A name has one number. -/
theorem number_unique (h : (A.map Prod.fst).Nodup) (hn : (k, n) ∈ A) (hn' : (k, n') ∈ A) : n = n' :=
  congrArg Prod.snd (List.inj_on_of_nodup_map h hn hn' rfl)

omit [DecidableEq κ] in
/-- The numbers are apart when no two names share one. -/
theorem numbers_nodup_iff (h : (A.map Prod.fst).Nodup) :
    (A.map Prod.snd).Nodup ↔ ∀ k k' n, (k, n) ∈ A → (k', n) ∈ A → k = k' := by
  constructor
  · intro hn k k' n hk hk'
    exact congrArg Prod.fst (List.inj_on_of_nodup_map hn hk hk' rfl)
  · intro hinj
    refine List.Nodup.map_on ?_ (List.Nodup.of_map _ h)
    rintro ⟨k, n⟩ hk ⟨k', n'⟩ hk' hnn
    obtain rfl : n = n' := hnn
    rw [hinj k k' n hk hk']

/-- Assigning the number that a name has changes no pair. -/
theorem mem_assign_same (h : (A.map Prod.fst).Nodup) (hn : (k, n) ∈ A) {a : κ × ι} :
    a ∈ assign k n A ↔ a ∈ A := by
  obtain ⟨k', n'⟩ := a
  rw [mem_assign]
  constructor
  · rintro (⟨ha, -⟩ | ⟨rfl, rfl⟩)
    · exact ha
    · exact hn
  · intro ha
    by_cases hk : k' = k
    · subst hk
      exact .inr ⟨rfl, number_unique h ha hn⟩
    · exact .inl ⟨ha, hk⟩

/-- A record whose value under `f` no other record has. -/
theorem filter_eq_singleton {α β : Type*} [DecidableEq β] (f : α → β) {l : List α} {a : α}
    (h : (l.map f).Nodup) (ha : a ∈ l) : (l.filter fun b => f b = f a) = [a] := by
  induction l with
  | nil => simp at ha
  | cons b l ih =>
    rw [List.map_cons, List.nodup_cons] at h
    rcases List.mem_cons.mp ha with rfl | ha
    · have hnone : ∀ b ∈ l, ¬ decide (f b = f a) = true := by
        intro b hb hfb
        exact h.1 (List.mem_map.mpr ⟨b, hb, by simpa using hfb⟩)
      rw [List.filter_cons_of_pos (by simp), List.filter_eq_nil_iff.mpr hnone]
    · have hne : ¬ decide (f b = f a) = true := by
        intro hfb
        exact h.1 (List.mem_map.mpr ⟨a, ha, by simpa [eq_comm] using hfb⟩)
      rw [List.filter_cons_of_neg (p := fun b => f b = f a) hne, ih h.2 ha]

theorem filter_atName (h : (A.map Prod.fst).Nodup) (hn : (k, n) ∈ A) :
    A.filter (atName k) = [(k, n)] :=
  filter_eq_singleton Prod.fst h hn

end CargosBuildroot.Store
