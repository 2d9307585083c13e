import CargosBuildroot.Transition.Outputs
import Mathlib.Data.List.Infix

/-! Programs that print the part of a document between two kinds of lines. A flag is set by one
pattern and cleared by another, and the lines that match neither are printed while it is set. -/

namespace CargosBuildroot.Shell

/-- The patterns of `skips { next }`, `sets { flag=1; next }`, `clears { flag=0; next }` and
`flag`, in this order. -/
structure Switch (α : Type*) where
  skips : α → Bool
  sets : α → Bool
  clears : α → Bool

namespace Switch

open Transition

variable {α : Type*} (w : Switch α)

/-- The flag after a line, and whether the line is printed. -/
def step (flag : Bool) (l : α) : Bool × Bool :=
  if w.skips l then (flag, false)
  else if w.sets l then (true, false)
  else if w.clears l then (false, false)
  else (flag, flag)

/-- The line matches no pattern. -/
def plain (l : α) : Bool := !w.skips l && !w.sets l && !w.clears l

/-- A line that sets the flag comes before, and none that clears it since. -/
def Opened (ls : List α) : Prop :=
  ∃ a l b, ls = a ++ l :: b ∧ w.skips l = false ∧ w.sets l = true ∧
    ∀ m ∈ b, w.clears m = true → w.skips m = true ∨ w.sets m = true

theorem step_snd (flag : Bool) (l : α) : (w.step flag l).2 = (flag && w.plain l) := by
  unfold step plain
  cases w.skips l <;> cases w.sets l <;> cases w.clears l <;> simp

theorem step_fst_eq_true (flag : Bool) (l : α) : (w.step flag l).1 = true ↔
    (w.skips l = false ∧ w.sets l = true) ∨
      (flag = true ∧ (w.clears l = true → w.skips l = true ∨ w.sets l = true)) := by
  unfold step
  cases w.skips l <;> cases w.sets l <;> cases w.clears l <;> simp

theorem opened_concat (ls : List α) (l : α) : w.Opened (ls ++ [l]) ↔
    (w.skips l = false ∧ w.sets l = true) ∨
      (w.Opened ls ∧ (w.clears l = true → w.skips l = true ∨ w.sets l = true)) := by
  constructor
  · rintro ⟨a, m, b, heq, hskips, hsets, hclears⟩
    rcases List.eq_nil_or_concat b with rfl | ⟨b, l', rfl⟩
    · obtain ⟨rfl, rfl⟩ := List.append_inj' heq rfl |>.imp id fun h => List.singleton_inj.mp h
      exact .inl ⟨hskips, hsets⟩
    · rw [List.concat_eq_append] at heq hclears
      rw [← List.cons_append, ← List.append_assoc] at heq
      obtain ⟨rfl, hlast⟩ := List.append_inj' heq rfl
      obtain rfl := List.singleton_inj.mp hlast
      exact .inr ⟨⟨a, m, b, rfl, hskips, hsets, fun m hm => hclears m (List.mem_append_left _ hm)⟩,
        hclears l (by simp)⟩
  · rintro (⟨hskips, hsets⟩ | ⟨⟨a, m, b, rfl, hskips, hsets, hclears⟩, hl⟩)
    · exact ⟨ls, l, [], rfl, hskips, hsets, by simp⟩
    · refine ⟨a, m, b ++ [l], by simp, hskips, hsets, fun m hm => ?_⟩
      rcases List.mem_append.mp hm with hm | hm
      · exact hclears m hm
      · rw [List.mem_singleton.mp hm]
        exact hl

/-- The flag is set after the lines if they leave the part open. -/
theorem after_iff (ls : List α) : after w.step false ls = true ↔ w.Opened ls := by
  induction ls using List.reverseRecOn with
  | nil =>
    refine iff_of_false Bool.false_ne_true ?_
    rintro ⟨a, l, b, heq, _⟩
    exact List.append_ne_nil_of_right_ne_nil a (List.cons_ne_nil l b) heq.symm
  | append_singleton ls l ih =>
    rw [after, List.foldl_concat, step_fst_eq_true, opened_concat, ← ih, after]

/-! ### Printing -/

section

variable {β γ τ : Type*} (edit : α → β) {next : τ → Option β → τ × γ} {nothing : γ}

/-- What is printed of a line is edited first. -/
def print (flag : Bool) (l : α) : Bool × Option β :=
  ((w.step flag l).1, if (w.step flag l).2 then some (edit l) else none)

theorem after_print (flag : Bool) (ls : List α) :
    after (w.print edit) flag ls = after w.step flag ls := rfl

/-- A line with what is expected of it, where `run` is what is done with a line that is printed. -/
structure Clean (nothing : γ) (run : α → γ) (before : List α) (l : α) (e : γ) : Prop where
  item : e ≠ nothing → w.plain l = true ∧ run l = e
  other : e = nothing → w.plain l = false ∨ ¬ w.Opened before ∨ run l = nothing

/-- A loop over what is printed does what is expected of a line exactly if the line is clean, when
something is expected only of lines in an open part. -/
theorem print_eq_iff (hnone : ∀ t, (next t none).2 = nothing) (t : τ) {before : List α} {l : α}
    {e : γ} (hopen : e ≠ nothing → w.Opened before) :
    (next t (w.print edit (after (w.print edit) false before) l).2).2 = e ↔
      w.Clean nothing (fun l => (next t (some (edit l))).2) before l e := by
  have hprint : (w.print edit (after (w.print edit) false before) l).2 =
      if after w.step false before && w.plain l then some (edit l) else none := by
    rw [after_print, print, step_snd]
  have hafter := w.after_iff before
  rw [hprint]
  by_cases hopened : w.Opened before
  · rw [hafter.mpr hopened, Bool.true_and]
    by_cases hplain : w.plain l = true
    · rw [if_pos hplain]
      refine ⟨fun h => ⟨fun _ => ⟨hplain, h⟩, fun he => .inr (.inr (h.trans he))⟩, fun h => ?_⟩
      by_cases he : e = nothing
      · have hclosed := (h.other he).resolve_left (by simp [hplain])
        exact (hclosed.resolve_left (not_not.mpr hopened)).trans he.symm
      · exact (h.item he).2
    · rw [if_neg hplain, hnone]
      refine ⟨fun h => ⟨fun he => absurd h.symm he, fun _ => .inl (by simpa using hplain)⟩,
        fun h => ?_⟩
      by_contra he
      exact hplain (h.item (Ne.symm he)).1
  · have hflag : after w.step false before = false := Bool.eq_false_iff.mpr (mt hafter.mp hopened)
    rw [hflag, Bool.false_and, if_neg Bool.false_ne_true, hnone]
    refine ⟨fun h => ⟨fun he => absurd h.symm he, fun _ => .inr (.inl hopened)⟩, fun _ => ?_⟩
    by_contra he
    exact hopened (hopen (Ne.symm he))

/-- For the lines of a document with what is expected of each. -/
theorem outputs_print_iff (hnone : ∀ t, (next t none).2 = nothing) (t : τ) {rows : List (α × γ)}
    (hopen : ∀ before row rest, rows = before ++ row :: rest → row.2 ≠ nothing →
      w.Opened (before.map Prod.fst)) :
    outputs next t (outputs (w.print edit) false (rows.map Prod.fst)) = rows.map Prod.snd ↔
      ∀ before row rest, rows = before ++ row :: rest →
        w.Clean nothing (fun l => (next (after next t (outputs (w.print edit) false
          (before.map Prod.fst))) (some (edit l))).2) (before.map Prod.fst) row.1 row.2 := by
  rw [outputs_outputs, outputs_eq_snd_iff]
  refine forall_congr' fun before => forall_congr' fun row => forall_congr' fun rest =>
    forall_congr' fun hrows => ?_
  rw [cascade, after_cascade]
  exact w.print_eq_iff edit hnone _ (hopen before row rest hrows)

end

end Switch

end CargosBuildroot.Shell
