import Mathlib.Data.List.Nodup
import Mathlib.Algebra.GroupWithZero.Nat

/-! Dictionaries that remember the order in which their keys were first assigned.
A later assignment to a key leaves its position as it is. -/

namespace CargosBuildroot.Store

/-- A dictionary: its entries in order, one for each key. -/
structure Dict (κ ν : Type*) where
  entries : List (κ × ν)
  nodup : (entries.map Prod.fst).Nodup

namespace Dict

variable {κ ν : Type*}

def empty : Dict κ ν := ⟨[], List.nodup_nil⟩

def keys (d : Dict κ ν) : List κ := d.entries.map Prod.fst

@[simp] theorem keys_empty : (empty : Dict κ ν).keys = [] := rfl

variable [DecidableEq κ]

def get? (d : Dict κ ν) (k : κ) : Option ν := (d.entries.find? (·.1 = k)).map Prod.snd

/-- The entries after an assignment. -/
def assign (k : κ) (v : ν) : List (κ × ν) → List (κ × ν)
  | [] => [(k, v)]
  | e :: l => if e.1 = k then (k, v) :: l else e :: assign k v l

theorem keys_assign (k : κ) (v : ν) (l : List (κ × ν)) :
    (assign k v l).map Prod.fst =
      if k ∈ l.map Prod.fst then l.map Prod.fst else l.map Prod.fst ++ [k] := by
  induction l with
  | nil => rfl
  | cons e l ih =>
    by_cases he : e.1 = k
    · simp [assign, he]
    · have hne : k ≠ e.1 := fun h => he h.symm
      simp only [assign, he, if_false, List.map_cons, ih, List.mem_cons, hne, false_or]
      split <;> rfl

theorem find?_assign (k : κ) (v : ν) (k' : κ) (l : List (κ × ν)) :
    (assign k v l).find? (·.1 = k') =
      if k' = k then some (k, v) else l.find? (·.1 = k') := by
  induction l with
  | nil =>
    by_cases hk : k' = k
    · simp [assign, hk]
    · have hne : k ≠ k' := fun h => hk h.symm
      simp [assign, hk, hne]
  | cons e l ih =>
    by_cases he : e.1 = k
    · by_cases hk : k' = k
      · simp [assign, he, hk]
      · have hne : k ≠ k' := fun h => hk h.symm
        simp [assign, he, hk, hne]
    · rw [assign, if_neg he, List.find?_cons, ih, List.find?_cons]
      by_cases hk : k' = k
      · simp [hk, he]
      · simp [hk]

/-- `d[k] = v` -/
def set (d : Dict κ ν) (k : κ) (v : ν) : Dict κ ν where
  entries := assign k v d.entries
  nodup := by
    rw [keys_assign]
    split
    · exact d.nodup
    · next h => simpa using List.Nodup.append d.nodup (List.nodup_singleton k) (by simpa using h)

variable {d : Dict κ ν} {k k' : κ} {v : ν}

@[simp] theorem get?_empty : (empty : Dict κ ν).get? k = none := rfl

theorem get?_set : (d.set k v).get? k' = if k' = k then some v else d.get? k' := by
  simp only [get?, set, find?_assign]
  split <;> rfl

theorem get?_set_self : (d.set k v).get? k = some v := by rw [get?_set, if_pos rfl]

theorem get?_set_of_ne (h : k' ≠ k) : (d.set k v).get? k' = d.get? k' := by
  rw [get?_set, if_neg h]

theorem mem_of_get? (h : d.get? k = some v) : (k, v) ∈ d.entries := by
  obtain ⟨e, he, rfl⟩ := Option.map_eq_some_iff.mp h
  have hk : e.1 = k := by simpa using List.find?_some he
  subst hk
  exact List.mem_of_find?_eq_some he

theorem get?_of_mem (h : (k, v) ∈ d.entries) : d.get? k = some v := by
  have hfound : (d.entries.find? (·.1 = k)).isSome := by
    rw [List.find?_isSome]
    exact ⟨_, h, decide_eq_true rfl⟩
  obtain ⟨e, he⟩ := Option.isSome_iff_exists.mp hfound
  have hkey : e.1 = k := by simpa using List.find?_some he
  rw [get?, he, List.inj_on_of_nodup_map d.nodup (List.mem_of_find?_eq_some he) h hkey]
  rfl

theorem exists_get?_iff : (∃ v, d.get? k = some v) ↔ k ∈ d.keys := by
  rw [← Option.isSome_iff_exists, get?, Option.isSome_map, List.find?_isSome]
  simp [keys]

theorem mem_keys_set : k' ∈ (d.set k v).keys ↔ k' ∈ d.keys ∨ k' = k := by
  rw [← exists_get?_iff, ← exists_get?_iff, get?_set]
  by_cases hk : k' = k
  · simp [hk]
  · simp [hk]

/-- Adding to the value of a key adds to the sum of the values. -/
theorem sum_set_add {d : Dict κ ℕ} (k : κ) (n : ℕ) :
    ((d.set k ((d.get? k).getD 0 + n)).entries.map Prod.snd).sum = (d.entries.map Prod.snd).sum + n := by
  have hassign : ∀ l : List (κ × ℕ),
      ((assign k (((l.find? (·.1 = k)).map Prod.snd).getD 0 + n) l).map Prod.snd).sum =
        (l.map Prod.snd).sum + n := by
    intro l
    induction l with
    | nil => simp [assign]
    | cons e l ih =>
      by_cases he : e.1 = k
      · simp [assign, he, Nat.add_right_comm]
      · simp [assign, he, ih, Nat.add_assoc]
  exact hassign d.entries

theorem keys_set_of_mem (h : k ∈ d.keys) : (d.set k v).keys = d.keys := by
  rw [keys, set, keys_assign]
  exact if_pos h

end Dict

end CargosBuildroot.Store
