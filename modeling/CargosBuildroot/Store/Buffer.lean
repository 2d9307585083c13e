import Mathlib.Data.List.Basic
import Mathlib.Data.List.Induction

/-! Buffers that are filled from the front by a cursor. The indices of all writes
are kept, so that the bound of the allocation can be compared with them. -/

namespace CargosBuildroot.Store

variable {α : Type*}

/-- The cells of an allocation, `none` before the first write, the cursor, and the
indices written so far. -/
structure Buffer (α : Type*) where
  cells : List (Option α)
  cur : ℕ
  written : List ℕ

namespace Buffer

/-- An allocation of `n` cells. -/
def alloc (n : ℕ) : Buffer α := ⟨List.replicate n none, 0, []⟩

/-- `*cur = a`. -/
def store (b : Buffer α) (a : α) : Buffer α :=
  { b with cells := b.cells.set b.cur (some a), written := b.written ++ [b.cur] }

/-- `*cur++ = a`. -/
def push (b : Buffer α) (a : α) : Buffer α := { b.store a with cur := b.cur + 1 }

/-- A copy of several values to the cursor, which moves past them. -/
def pushAll (b : Buffer α) (l : List α) : Buffer α := l.foldl push b

@[simp] theorem pushAll_nil (b : Buffer α) : b.pushAll [] = b := rfl

theorem pushAll_append (b : Buffer α) (l₁ l₂ : List α) :
    b.pushAll (l₁ ++ l₂) = (b.pushAll l₁).pushAll l₂ := List.foldl_append

theorem pushAll_singleton (b : Buffer α) (a : α) : b.pushAll [a] = b.push a := rfl

/-- What a new buffer holds after values that fit. -/
theorem pushAll_alloc {n : ℕ} {l : List α} (h : l.length ≤ n) :
    (alloc n).pushAll l =
      ⟨l.map some ++ List.replicate (n - l.length) none, l.length, List.range l.length⟩ := by
  induction l using List.reverseRecOn with
  | nil => simp [alloc]
  | append_singleton l a ih =>
    rw [List.length_append, List.length_singleton] at h
    obtain ⟨k, hk⟩ : ∃ k, n - l.length = k + 1 := ⟨n - l.length - 1, by omega⟩
    have hk' : n - (l.length + 1) = k := by omega
    rw [pushAll_append, pushAll_singleton, ih (by omega), push, store]
    simp [hk, hk', List.replicate_succ, List.range_succ, List.set_append_right]

end Buffer

end CargosBuildroot.Store
