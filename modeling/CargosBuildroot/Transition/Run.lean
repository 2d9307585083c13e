import Mathlib.Logic.Function.Basic

/-! Runs of labelled transition systems given by a partial step function. A run
keeps the labels of its steps in order and may restrict the steps it takes by a
condition on the state before the step. Families of processes that share a
store are one such system; their invariants split into one about the store and
one about each process, kept by the own steps of a process and stable under the
steps of the others. -/

namespace CargosBuildroot.Transition

variable {σ α : Type*}

/-- Runs from `s` whose every step is allowed in the state it is taken in. -/
inductive Run (next : σ → α → Option σ) (allow : σ → α → Prop) (s : σ) : List α → σ → Prop
  | nil : Run next allow s [] s
  | snoc {l : List α} {t u : σ} {a : α} :
      Run next allow s l t → allow t a → next t a = some u → Run next allow s (l ++ [a]) u

/-- No restriction on the steps. -/
def anyStep : σ → α → Prop := fun _ _ => True

/-- Execution of a list of labels, stopping where a label is not enabled. -/
def exec (next : σ → α → Option σ) : σ → List α → Option σ
  | s, [] => some s
  | s, a :: l => (next s a).bind fun t => exec next t l

/-- The system that only takes the allowed steps. -/
def guarded (next : σ → α → Option σ) (allow : σ → α → Prop) [∀ s a, Decidable (allow s a)] :
    σ → α → Option σ :=
  fun s a => if allow s a then next s a else none

section Runs

variable {next : σ → α → Option σ} {allow : σ → α → Prop}

/-- What the first state has and every allowed step keeps holds after every run;
the invariant may look at the labels taken so far. -/
theorem Run.inv {s t : σ} {l : List α} (I : List α → σ → Prop) (h0 : I [] s)
    (hstep : ∀ l t a u, Run next allow s l t → I l t → allow t a → next t a = some u →
      I (l ++ [a]) u)
    (h : Run next allow s l t) : I l t := by
  induction h with
  | nil => exact h0
  | snoc hr ha hn ih => exact hstep _ _ _ _ hr ih ha hn

theorem Run.cons {s t u : σ} {a : α} {l : List α} (ha : allow s a) (hn : next s a = some t)
    (h : Run next allow t l u) : Run next allow s (a :: l) u := by
  induction h with
  | nil => exact .snoc (l := []) .nil ha hn
  | @snoc l v w b _ hb hv ih => exact .snoc (l := a :: l) ih hb hv

theorem Run.mono {allow' : σ → α → Prop} {s t : σ} {l : List α} (h : Run next allow s l t)
    (hle : ∀ s a, allow s a → allow' s a) : Run next allow' s l t := by
  induction h with
  | nil => exact .nil
  | snoc _ ha hn ih => exact .snoc ih (hle _ _ ha) hn

theorem Run.of_exec {s t : σ} {l : List α} (h : exec next s l = some t) :
    Run next anyStep s l t := by
  induction l generalizing s with
  | nil =>
    obtain rfl : s = t := by simpa [exec] using h
    exact .nil
  | cons a l ih =>
    obtain ⟨u, hu, h⟩ := Option.bind_eq_some_iff.mp h
    exact .cons trivial hu (ih h)

theorem Run.of_exec_guarded [∀ s a, Decidable (allow s a)] {s t : σ} {l : List α}
    (h : exec (guarded next allow) s l = some t) : Run next allow s l t := by
  induction l generalizing s with
  | nil =>
    obtain rfl : s = t := by simpa [exec] using h
    exact .nil
  | cons a l ih =>
    obtain ⟨u, hu, h⟩ := Option.bind_eq_some_iff.mp h
    by_cases ha : allow s a
    · exact .cons ha (by simpa [guarded, ha] using hu) (ih h)
    · simp [guarded, ha] at hu

theorem exists_run (next : σ → α → Option σ) (s : σ) (l : List α) (test : σ → Bool)
    (h : (exec next s l).any test = true) : ∃ t, Run next anyStep s l t ∧ test t = true := by
  cases ht : exec next s l with
  | none => simp [ht] at h
  | some t => exact ⟨t, .of_exec ht, by simpa [ht] using h⟩

theorem exists_run_guarded (next : σ → α → Option σ) (allow : σ → α → Prop)
    [∀ s a, Decidable (allow s a)] (s : σ) (l : List α) (test : σ → Bool)
    (h : (exec (guarded next allow) s l).any test = true) :
    ∃ t, Run next allow s l t ∧ test t = true := by
  cases ht : exec (guarded next allow) s l with
  | none => simp [ht] at h
  | some t => exact ⟨t, .of_exec_guarded ht, by simpa [ht] using h⟩

end Runs

/-! ### Processes over a shared store -/

variable {G P Q β : Type*}

/-- A store shared by a family of processes, each with its own local state. -/
@[ext] structure Shared (G P Q : Type*) where
  store : G
  proc : P → Q

variable [DecidableEq P]

/-- One process takes a step of its own; the others keep their local states. -/
def interleave (step : P → G → Q → β → Option (G × Q)) (s : Shared G P Q) (a : P × β) :
    Option (Shared G P Q) :=
  (step a.1 s.store (s.proc a.1) a.2).map fun r => ⟨r.1, Function.update s.proc a.1 r.2⟩

theorem interleave_eq_some {step : P → G → Q → β → Option (G × Q)} {s t : Shared G P Q}
    {p : P} {b : β} (h : interleave step s (p, b) = some t) :
    step p s.store (s.proc p) b = some (t.store, t.proc p) ∧ ∀ r, r ≠ p → t.proc r = s.proc r := by
  obtain ⟨⟨g, q⟩, hq, rfl⟩ := Option.map_eq_some_iff.mp h
  refine ⟨by simpa using hq, fun r hr => ?_⟩
  simp [Function.update_of_ne hr]

/-- Invariants of interleaved processes: `J` of the store and `K` of each
process are kept by the own steps of a process, and `K` of a process by the
steps of the others. -/
theorem Run.interleave_inv {step : P → G → Q → β → Option (G × Q)}
    {allow : Shared G P Q → P × β → Prop} {s t : Shared G P Q} {l : List (P × β)}
    (J : List (P × β) → G → Prop) (K : List (P × β) → G → P → Q → Prop)
    (hJ : J [] s.store) (hK : ∀ p, K [] s.store p (s.proc p))
    (own : ∀ l u p b g' q', Run (interleave step) allow s l u → J l u.store →
      (∀ r, K l u.store r (u.proc r)) → allow u (p, b) →
      step p u.store (u.proc p) b = some (g', q') →
      J (l ++ [(p, b)]) g' ∧ K (l ++ [(p, b)]) g' p q')
    (others : ∀ l u p b g' q' r, r ≠ p → J l u.store → (∀ r, K l u.store r (u.proc r)) →
      allow u (p, b) → step p u.store (u.proc p) b = some (g', q') →
      K (l ++ [(p, b)]) g' r (u.proc r))
    (h : Run (interleave step) allow s l t) :
    J l t.store ∧ ∀ p, K l t.store p (t.proc p) := by
  refine h.inv (fun l u => J l u.store ∧ ∀ p, K l u.store p (u.proc p)) ⟨hJ, hK⟩ ?_
  rintro l u ⟨p, b⟩ v hrun ⟨hJ, hK⟩ ha hn
  obtain ⟨hs, hr⟩ := interleave_eq_some hn
  obtain ⟨hJ', hK'⟩ := own l u p b _ _ hrun hJ hK ha hs
  refine ⟨hJ', fun r => ?_⟩
  by_cases hrp : r = p
  · exact hrp ▸ hK'
  · rw [hr r hrp]
    exact others l u p b _ _ r hrp hJ hK ha hs

end CargosBuildroot.Transition
