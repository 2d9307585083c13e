import Mathlib.Data.List.Infix

/-! Substitution for the matches of a pattern, from left to right and without overlaps, as
`s/pattern/replacement/g` does it. A pattern is given together with its replacement, by what becomes
of a match at the beginning of a list. -/

namespace CargosBuildroot.Sed

/-- A pattern with its replacement. Of a list that begins with a match, `find` gives what stands
for the match and how many elements belong to it. -/
structure Pattern (α : Type*) where
  find : List α → Option (List α × ℕ)
  proper : ∀ {t rep n}, find t = some (rep, n) → 0 < n ∧ n ≤ t.length

namespace Pattern

variable {α : Type*} (p : Pattern α)

/-- The substitution, after `n` elements that belong to a match. -/
def substituteFrom : ℕ → List α → List α
  | _, [] => []
  | n + 1, _ :: t => substituteFrom n t
  | 0, c :: t =>
    match p.find (c :: t) with
    | some (rep, n) => rep ++ substituteFrom (n - 1) t
    | none => c :: substituteFrom 0 t

def substitute (t : List α) : List α := p.substituteFrom 0 t

/-- The substitution of a pattern that begins with `^`. -/
def substituteHead (t : List α) : List α :=
  match p.find t with
  | some (rep, n) => rep ++ t.drop n
  | none => t

variable {p} {t : List α}

theorem substituteFrom_eq (n : ℕ) (t : List α) :
    p.substituteFrom n t = p.substitute (t.drop n) := by
  induction t generalizing n with
  | nil =>
    rw [List.drop_nil]
    cases n <;> rfl
  | cons c t ih =>
    cases n with
    | zero => rfl
    | succ n => exact ih n

@[simp] theorem substitute_nil : p.substitute [] = [] := rfl

theorem substitute_match {rep : List α} {n : ℕ} (h : p.find t = some (rep, n)) :
    p.substitute t = rep ++ p.substitute (t.drop n) := by
  obtain ⟨hpos, hle⟩ := p.proper h
  cases t with
  | nil => exact absurd (hpos.trans_le hle) (lt_irrefl 0)
  | cons c t =>
    obtain ⟨n, rfl⟩ := Nat.exists_eq_add_of_lt hpos
    rw [substitute, substituteFrom, h]
    dsimp only
    rw [substituteFrom_eq]
    congr 2

theorem substitute_cons {c : α} (h : p.find (c :: t) = none) :
    p.substitute (c :: t) = c :: p.substitute t := by
  rw [substitute, substituteFrom, h]
  rfl

theorem substituteHead_match {rep : List α} {n : ℕ} (h : p.find t = some (rep, n)) :
    p.substituteHead t = rep ++ t.drop n := by
  rw [substituteHead, h]

theorem substituteHead_none (h : p.find t = none) : p.substituteHead t = t := by
  rw [substituteHead, h]

theorem substitute_eq_self (h : ∀ u, u <:+ t → p.find u = none) : p.substitute t = t := by
  induction t with
  | nil => rfl
  | cons c t ih =>
    rw [substitute_cons (h _ List.suffix_rfl), ih fun u hu => h u (hu.trans (List.suffix_cons c t))]

/-- Induction along the substitution. -/
theorem substitute_induction (p : Pattern α) {motive : List α → Prop} (nil : motive [])
    (found : ∀ t rep n, p.find t = some (rep, n) → motive (t.drop n) → motive t)
    (cons : ∀ c t, p.find (c :: t) = none → motive t → motive (c :: t)) (t : List α) :
    motive t := by
  induction hn : t.length using Nat.strong_induction_on generalizing t with
  | _ k ih =>
    subst hn
    cases t with
    | nil => exact nil
    | cons c t =>
      cases hfind : p.find (c :: t) with
      | none => exact cons c t hfind (ih t.length (by simp) t rfl)
      | some r =>
        obtain ⟨hpos, hle⟩ := p.proper hfind
        refine found _ _ _ hfind (ih _ ?_ _ rfl)
        rw [List.length_drop]
        omega

/-- What holds of the elements of a list and of all replacements holds of the result. -/
theorem forall_substitute {P : α → Prop}
    (hrep : ∀ {t rep n}, p.find t = some (rep, n) → (∀ c ∈ t, P c) → ∀ c ∈ rep, P c)
    (ht : ∀ c ∈ t, P c) : ∀ c ∈ p.substitute t, P c := by
  induction t using p.substitute_induction with
  | nil => simp
  | found t rep n hfind ih =>
    rw [substitute_match hfind]
    exact List.forall_mem_append.mpr
      ⟨hrep hfind ht, ih fun c hc => ht c (List.mem_of_mem_drop hc)⟩
  | cons c t hfind ih =>
    rw [substitute_cons hfind]
    exact List.forall_mem_cons.mpr ⟨ht c (.head _), ih fun c hc => ht c (.tail _ hc)⟩

theorem forall_substituteHead {P : α → Prop}
    (hrep : ∀ {t rep n}, p.find t = some (rep, n) → (∀ c ∈ t, P c) → ∀ c ∈ rep, P c)
    (ht : ∀ c ∈ t, P c) : ∀ c ∈ p.substituteHead t, P c := by
  cases hfind : p.find t with
  | none => rwa [substituteHead_none hfind]
  | some r =>
    rw [substituteHead_match hfind]
    exact List.forall_mem_append.mpr
      ⟨hrep hfind ht, fun c hc => ht c (List.mem_of_mem_drop hc)⟩

/-! ### Growth -/

/-- Every replacement is longer than what it stands for. -/
def Grows (p : Pattern α) : Prop := ∀ t rep n, p.find t = some (rep, n) → n < rep.length

theorem Grows.length_le (h : p.Grows) (t : List α) : t.length ≤ (p.substitute t).length := by
  induction t using p.substitute_induction with
  | nil => simp
  | found t rep n hfind ih =>
    have hlt := h _ _ _ hfind
    rw [substitute_match hfind, List.length_append]
    rw [List.length_drop] at ih
    omega
  | cons c t hfind ih =>
    rw [substitute_cons hfind, List.length_cons, List.length_cons]
    omega

/-- A text that keeps its length has no match. -/
theorem Grows.find_eq_none (h : p.Grows) (hkeep : (p.substitute t).length = t.length) :
    ∀ {u}, u <:+ t → p.find u = none := by
  induction t using p.substitute_induction with
  | nil =>
    intro u hu
    rw [List.suffix_nil.mp hu]
    cases hfind : p.find [] with
    | none => rfl
    | some r =>
      obtain ⟨hpos, hle⟩ := p.proper hfind
      exact absurd (hpos.trans_le hle) (lt_irrefl 0)
  | found t rep n hfind ih =>
    have hlt := h _ _ _ hfind
    have hle := h.length_le (t.drop n)
    rw [substitute_match hfind, List.length_append] at hkeep
    rw [List.length_drop] at hle
    omega
  | cons c t hfind ih =>
    rw [substitute_cons hfind, List.length_cons, List.length_cons,
      Nat.add_right_cancel_iff] at hkeep
    intro u hu
    rcases List.suffix_cons_iff.mp hu with rfl | hu
    · exact hfind
    · exact ih hkeep hu

theorem Grows.length_le_head (h : p.Grows) (t : List α) :
    t.length ≤ (p.substituteHead t).length := by
  cases hfind : p.find t with
  | none => rw [substituteHead_none hfind]
  | some r =>
    have hlt := h _ _ _ hfind
    rw [substituteHead_match hfind, List.length_append, List.length_drop]
    omega

theorem Grows.find_head_eq_none (h : p.Grows) (hkeep : (p.substituteHead t).length = t.length) :
    p.find t = none := by
  cases hfind : p.find t with
  | none => rfl
  | some r =>
    have hlt := h _ _ _ hfind
    obtain ⟨hpos, hle⟩ := p.proper hfind
    rw [substituteHead_match hfind, List.length_append, List.length_drop] at hkeep
    omega

/-! ### Matches at the end -/

/-- A match of a whole list at the end of a longer one, when no match begins before it. -/
theorem substitute_append {u rep : List α} (h : p.find u = some (rep, u.length))
    (hbefore : ∀ w, u.length < w.length → p.find w = none) (t : List α) :
    p.substitute (t ++ u) = t ++ rep := by
  induction t with
  | nil =>
    rw [List.nil_append, substitute_match h, List.drop_length, substitute_nil, List.append_nil,
      List.nil_append]
  | cons c t ih =>
    have hlonger : u.length < (c :: (t ++ u)).length := by
      rw [List.length_cons, List.length_append]
      omega
    rw [List.cons_append, substitute_cons (hbefore _ hlonger), ih, List.cons_append]

end Pattern

end CargosBuildroot.Sed
