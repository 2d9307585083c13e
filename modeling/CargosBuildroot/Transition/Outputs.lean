import Mathlib.Data.List.Basic

/-! Loops that carry a state from one item to the next and make an output for each.
The outputs are those of a function of the item alone just when every step makes
that output in the state that the items before it have left. -/

namespace CargosBuildroot.Transition

variable {σ α β : Type*} (step : σ → α → σ × β)

/-- The state after the items. -/
def after (s : σ) (l : List α) : σ := l.foldl (fun s a => (step s a).1) s

/-- The outputs for the items, in order. -/
def outputs : σ → List α → List β
  | _, [] => []
  | s, a :: l => (step s a).2 :: outputs (step s a).1 l

variable {step}

/-- What every step keeps holds after all items. -/
theorem after_inv {s : σ} (I : σ → Prop) (h0 : I s) (hstep : ∀ s a, I s → I (step s a).1)
    (l : List α) : I (after step s l) := by
  induction l generalizing s with
  | nil => exact h0
  | cons a l ih => exact ih (hstep s a h0)

/-- The outputs depend on the items alone when no step sees a difference. -/
theorem outputs_eq_map_iff {s : σ} {l : List α} {f : α → β} :
    outputs step s l = l.map f ↔
      ∀ l₁ a l₂, l = l₁ ++ a :: l₂ → (step (after step s l₁) a).2 = f a := by
  induction l generalizing s with
  | nil => simp [outputs]
  | cons b l ih =>
    rw [outputs, List.map_cons, List.cons.injEq, ih]
    constructor
    · rintro ⟨hb, hl⟩ (- | ⟨c, l₁⟩) a l₂ heq
      · obtain ⟨rfl, -⟩ := List.cons.inj heq
        exact hb
      · obtain ⟨rfl, hrest⟩ := List.cons.inj heq
        exact hl l₁ a l₂ hrest
    · intro hall
      exact ⟨hall [] b l rfl,
        fun l₁ a l₂ heq => hall (b :: l₁) a l₂ (by rw [heq, List.cons_append])⟩

theorem mem_outputs_iff {s : σ} {l : List α} {b : β} : b ∈ outputs step s l ↔
    ∃ l₁ a l₂, l = l₁ ++ a :: l₂ ∧ b = (step (after step s l₁) a).2 := by
  induction l generalizing s with
  | nil => simp [outputs]
  | cons c l ih =>
    rw [outputs, List.mem_cons, ih]
    constructor
    · rintro (rfl | ⟨l₁, a, l₂, rfl, rfl⟩)
      · exact ⟨[], c, l, rfl, rfl⟩
      · exact ⟨c :: l₁, a, l₂, rfl, rfl⟩
    · rintro ⟨- | ⟨d, l₁⟩, a, l₂, heq, rfl⟩
      · obtain ⟨rfl, -⟩ := List.cons.inj heq
        exact .inl rfl
      · obtain ⟨rfl, rfl⟩ := List.cons.inj heq
        exact .inr ⟨l₁, a, l₂, rfl, rfl⟩

theorem outputs_congr {step' : σ → α → σ × β} {l : List α} (h : ∀ a ∈ l, ∀ s, step s a = step' s a) (s : σ) :
    outputs step s l = outputs step' s l := by
  induction l generalizing s with
  | nil => rfl
  | cons a l ih => rw [outputs, outputs, h a (.head _) s, ih fun b hb => h b (.tail _ hb)]

theorem after_append (s : σ) (l₁ l₂ : List α) : after step s (l₁ ++ l₂) = after step (after step s l₁) l₂ :=
  List.foldl_append

theorem outputs_append (s : σ) (l₁ l₂ : List α) :
    outputs step s (l₁ ++ l₂) = outputs step s l₁ ++ outputs step (after step s l₁) l₂ := by
  induction l₁ generalizing s with
  | nil => rfl
  | cons a l₁ ih =>
    rw [List.cons_append, outputs, ih, outputs, List.cons_append]
    rfl

/-! ### One loop after another -/

section

variable {γ τ : Type*} {next : τ → β → τ × γ} {s : σ} {t : τ}

/-- Each output of the first loop is an item of the second. -/
def cascade (step : σ → α → σ × β) (next : τ → β → τ × γ) (s : σ × τ) (a : α) : (σ × τ) × γ :=
  (((step s.1 a).1, (next s.2 (step s.1 a).2).1), (next s.2 (step s.1 a).2).2)

theorem outputs_outputs (l : List α) :
    outputs next t (outputs step s l) = outputs (cascade step next) (s, t) l := by
  induction l generalizing s t with
  | nil => rfl
  | cons a l ih =>
    rw [outputs, outputs, outputs, ih]
    rfl

theorem after_cascade (l : List α) :
    after (cascade step next) (s, t) l = (after step s l, after next t (outputs step s l)) := by
  induction l generalizing s t with
  | nil => rfl
  | cons a l ih => exact ih

theorem outputs_map {α' : Type*} (f : α' → α) (l : List α') :
    outputs step s (l.map f) = outputs (fun s a => step s (f a)) s l := by
  induction l generalizing s with
  | nil => rfl
  | cons a l ih => rw [List.map_cons, outputs, outputs, ih]

theorem after_map {α' : Type*} (f : α' → α) (l : List α') :
    after step s (l.map f) = after (fun s a => step s (f a)) s l := List.foldl_map

/-- The outputs are those expected if each is, in the state that the items before it have left. -/
theorem outputs_eq_snd_iff {rows : List (α × β)} :
    outputs step s (rows.map Prod.fst) = rows.map Prod.snd ↔
      ∀ before row rest, rows = before ++ row :: rest →
        (step (after step s (before.map Prod.fst)) row.1).2 = row.2 := by
  simp only [outputs_map, outputs_eq_map_iff, after_map]

end

end CargosBuildroot.Transition
