import Mathlib.Data.List.Infix

/-! Replacement of all occurrences of a list in another one, from left to right and
without overlaps, as `s:pattern:replacement:g` does with a literal pattern. -/

namespace CargosBuildroot.Sed

variable {α β : Type*} [DecidableEq α] [DecidableEq β]

/-- The replacement, after `n` elements that belong to an occurrence. -/
def replaceFrom (pat rep : List α) : ℕ → List α → List α
  | _, [] => []
  | n + 1, _ :: t => replaceFrom pat rep n t
  | 0, c :: t =>
    if pat <+: c :: t then rep ++ replaceFrom pat rep (pat.length - 1) t
    else c :: replaceFrom pat rep 0 t

def replaceAll (pat rep t : List α) : List α := replaceFrom pat rep 0 t

variable {pat rep : List α}

theorem replaceFrom_eq (n : ℕ) (t : List α) : replaceFrom pat rep n t = replaceAll pat rep (t.drop n) := by
  induction t generalizing n with
  | nil =>
    rw [List.drop_nil]
    cases n <;> rfl
  | cons c t ih =>
    cases n with
    | zero => rfl
    | succ n => exact ih n

@[simp] theorem replaceAll_nil : replaceAll pat rep [] = [] := rfl

theorem replaceAll_cons {c : α} {t : List α} (h : ¬ pat <+: c :: t) :
    replaceAll pat rep (c :: t) = c :: replaceAll pat rep t := by
  rw [replaceAll, replaceFrom, if_neg h]
  rfl

theorem replaceAll_match (hpat : pat ≠ []) (t : List α) :
    replaceAll pat rep (pat ++ t) = rep ++ replaceAll pat rep t := by
  obtain ⟨c, p, rfl⟩ := List.exists_cons_of_ne_nil hpat
  rw [List.cons_append, replaceAll, replaceFrom, if_pos ⟨t, rfl⟩, replaceFrom_eq, List.length_cons,
    Nat.add_sub_cancel, List.drop_left]

/-- Induction along the replacement. -/
theorem replaceAll_induction (hpat : pat ≠ []) {motive : List α → Prop} (nil : motive [])
    (occurrence : ∀ t, motive t → motive (pat ++ t))
    (cons : ∀ c t, ¬ pat <+: c :: t → motive t → motive (c :: t)) (t : List α) : motive t := by
  induction hn : t.length using Nat.strong_induction_on generalizing t with
  | _ n ih =>
    subst hn
    cases t with
    | nil => exact nil
    | cons c t =>
      by_cases h : pat <+: c :: t
      · obtain ⟨r, hr⟩ := h
        have hpos := List.length_pos_of_ne_nil hpat
        rw [← hr]
        apply occurrence r (ih r.length _ r rfl)
        rw [← hr, List.length_append]
        omega
      · exact cons c t h (ih t.length (by simp) t rfl)

/-! ### Elements that the pattern does not have -/

omit [DecidableEq α] in
/-- A prefix without an element ends before it. -/
theorem prefix_append_cons {d : α} {a b : List α} (hd : d ∉ pat) (h : pat <+: a ++ d :: b) :
    pat <+: a := by
  rcases le_or_gt pat.length a.length with hle | hlt
  · exact List.prefix_of_prefix_length_le h (List.prefix_append _ _) hle
  · have had : a ++ [d] <+: a ++ d :: b := ⟨b, by simp⟩
    have hlength : (a ++ [d]).length ≤ pat.length := by
      rw [List.length_append, List.length_singleton]
      exact hlt
    have hlong := List.prefix_of_prefix_length_le had h hlength
    exact absurd (hlong.subset (List.mem_append_right _ (.head _))) hd

omit [DecidableEq α] in
/-- A part without an element, whatever follows it, is before the element or behind it. -/
theorem infix_append_cons {d : α} {s a b : List α} (hd : d ∉ pat) (h : pat ++ s <:+: a ++ d :: b) :
    pat <:+: a ∨ pat ++ s <:+: b := by
  induction a with
  | nil =>
    rcases List.infix_cons_iff.mp h with h | h
    · have hnil := prefix_append_cons (a := []) hd ((List.prefix_append _ _).trans h)
      rw [List.prefix_nil.mp hnil]
      exact .inl (List.infix_refl _)
    · exact .inr h
  | cons c a ih =>
    rcases List.infix_cons_iff.mp h with h | h
    · have hp := prefix_append_cons (a := c :: a) hd ((List.prefix_append _ _).trans h)
      exact .inl hp.isInfix
    · exact (ih h).imp_left List.infix_cons

omit [DecidableEq α] in
/-- An occurrence that begins before an element ends before it or goes on over it. -/
theorem prefix_append_cons_cases {d : α} {a b : List α} (h : pat <+: a ++ d :: b) :
    pat <+: a ∨ ∃ v, pat = a ++ d :: v ∧ v <+: b := by
  rcases le_or_gt pat.length a.length with hle | hlt
  · exact .inl (List.prefix_of_prefix_length_le h (List.prefix_append _ _) hle)
  · have hlong := List.prefix_of_prefix_length_le (List.prefix_append a (d :: b)) h hlt.le
    obtain ⟨v, rfl⟩ := hlong
    cases v with
    | nil => simp at hlt
    | cons c v =>
      obtain ⟨rfl, hv⟩ := List.cons_prefix_cons.mp ((List.prefix_append_right_inj a).mp h)
      exact .inr ⟨v, rfl, hv⟩

/-- An element that no occurrence goes over separates the occurrences. -/
theorem replaceAll_append_cons_of_not {d : α} {a b : List α} (hpat : pat ≠ [])
    (h : ∀ u v, pat = u ++ d :: v → u <:+ a → ¬ v <+: b) :
    replaceAll pat rep (a ++ d :: b) = replaceAll pat rep a ++ d :: replaceAll pat rep b := by
  induction a using replaceAll_induction hpat with
  | nil =>
    have hnot : ¬ pat <+: d :: b := by
      intro hp
      rcases prefix_append_cons_cases (a := []) hp with hnil | ⟨v, hv, hvb⟩
      · exact hpat (List.prefix_nil.mp hnil)
      · exact h [] v hv (List.suffix_refl _) hvb
    rw [List.nil_append, replaceAll_cons hnot]
    rfl
  | occurrence a ih =>
    have hrest := ih fun u v hv hu => h u v hv (hu.trans (List.suffix_append _ _))
    rw [List.append_assoc, replaceAll_match hpat, replaceAll_match hpat, hrest, List.append_assoc]
  | cons c a hnot ih =>
    have hnot' : ¬ pat <+: c :: a ++ d :: b := by
      intro hp
      rcases prefix_append_cons_cases hp with hp | ⟨v, hv, hvb⟩
      · exact hnot hp
      · exact h (c :: a) v hv (List.suffix_refl _) hvb
    have hrest := ih fun u v hv hu => h u v hv (hu.trans (List.suffix_cons _ _))
    rw [List.cons_append] at hnot' ⊢
    rw [replaceAll_cons hnot', replaceAll_cons hnot, hrest, List.cons_append]

/-- An element that is not in the pattern separates the occurrences. -/
theorem replaceAll_append_cons {d : α} (hpat : pat ≠ []) (hd : d ∉ pat) (a b : List α) :
    replaceAll pat rep (a ++ d :: b) = replaceAll pat rep a ++ d :: replaceAll pat rep b := by
  refine replaceAll_append_cons_of_not hpat ?_
  rintro u v rfl
  exact absurd (List.mem_append_right _ (.head _)) hd

/-- Nothing is replaced where the pattern is not. -/
theorem replaceAll_eq_self {t : List α} (h : ¬ pat <:+: t) : replaceAll pat rep t = t := by
  induction t with
  | nil => rfl
  | cons c t ih =>
    rw [List.infix_cons_iff, not_or] at h
    rw [replaceAll_cons h.1, ih h.2]

/-! ### Codes -/

/-- Nothing is replaced in a part where no occurrence starts. -/
theorem replaceAll_append {u t : List α} (h : ∀ v, v <:+ u → v ≠ [] → ¬ pat <+: v ++ t) :
    replaceAll pat rep (u ++ t) = u ++ replaceAll pat rep t := by
  induction u with
  | nil => rfl
  | cons c u ih =>
    have hhead := h (c :: u) (List.suffix_refl _) (List.cons_ne_nil _ _)
    rw [List.cons_append] at hhead ⊢
    rw [replaceAll_cons hhead, ih fun v hv => h v (hv.trans (List.suffix_cons _ _)), List.cons_append]

/-- A code `e` commutes with the replacement if in the codes of the elements `P` no
occurrence starts that is not one of the pattern itself. -/
theorem replaceAll_flatMap (hpat : pat ≠ []) {e : α → List β} (hcode : pat.flatMap e ≠ [])
    {P : List α → Prop} (hP : ∀ u t, P (u ++ t) → P t)
    (hskip : ∀ c t, P (c :: t) → ¬ pat <+: c :: t →
      ∀ v, v <:+ e c → v ≠ [] → ¬ pat.flatMap e <+: v ++ t.flatMap e)
    {xs : List α} (hxs : P xs) :
    replaceAll (pat.flatMap e) (rep.flatMap e) (xs.flatMap e) = (replaceAll pat rep xs).flatMap e := by
  induction xs using replaceAll_induction hpat with
  | nil => rfl
  | occurrence t ih =>
    rw [List.flatMap_append, replaceAll_match hcode, replaceAll_match hpat, List.flatMap_append,
      ih (hP pat t hxs)]
  | cons c t hnot ih =>
    rw [List.flatMap_cons, replaceAll_append (hskip c t hxs hnot), replaceAll_cons hnot,
      List.flatMap_cons, ih (hP [c] t hxs)]

/-- A single element is replaced wherever it stands. -/
theorem replaceAll_singleton (a : α) (t : List α) :
    replaceAll [a] rep t = t.flatMap fun c => if c = a then rep else [c] := by
  induction t with
  | nil => rfl
  | cons c t ih =>
    rw [List.flatMap_cons]
    split
    next h =>
      have hmatch : replaceAll [a] rep ([a] ++ t) = rep ++ replaceAll [a] rep t :=
        replaceAll_match (List.cons_ne_nil a []) t
      rw [List.singleton_append, ih] at hmatch
      rw [h]
      exact hmatch
    next h =>
      have hnot : ¬ [a] <+: c :: t := fun hp => h ((List.cons_prefix_cons.mp hp).1).symm
      rw [replaceAll_cons hnot, ih, List.singleton_append]

/-! ### Before the first occurrence -/

/-- The replacement begins at the first occurrence. -/
theorem drop_replaceAll {i : ℕ} {t : List α} (h : ∀ j < i, ¬ pat <+: t.drop j) :
    (replaceAll pat rep t).drop i = replaceAll pat rep (t.drop i) := by
  induction i generalizing t with
  | zero => rfl
  | succ i ih =>
    cases t with
    | nil => rfl
    | cons c t =>
      rw [replaceAll_cons (h 0 i.succ_pos), List.drop_succ_cons, List.drop_succ_cons]
      exact ih fun j hj => h (j + 1) (Nat.succ_lt_succ hj)

/-- A list without the first element of the replacement stands before all occurrences. -/
theorem prefix_replaceAll {q t rep : List α} {r : α} (hpat : pat ≠ []) (hr : r ∉ q) :
    q <+: replaceAll pat (r :: rep) t ↔ q <+: t ∧ ∀ i < q.length, ¬ pat <+: t.drop i := by
  induction q generalizing t with
  | nil => exact ⟨fun _ => ⟨List.nil_prefix, fun i hi => absurd hi i.not_lt_zero⟩, fun _ => List.nil_prefix⟩
  | cons c q ih =>
    have hne : c ≠ r := fun h => hr (h ▸ .head _)
    cases t with
    | nil => exact ⟨fun h => absurd (List.prefix_nil.mp h) (List.cons_ne_nil _ _),
        fun h => absurd (List.prefix_nil.mp h.1) (List.cons_ne_nil _ _)⟩
    | cons x t =>
      by_cases h : pat <+: x :: t
      · obtain ⟨u, hu⟩ := h
        constructor
        · intro hq
          rw [← hu, replaceAll_match hpat] at hq
          exact absurd (List.cons_prefix_cons.mp hq).1 hne
        · intro hq
          exact absurd ⟨u, hu⟩ (hq.2 0 (Nat.succ_pos _))
      · rw [replaceAll_cons h, List.cons_prefix_cons, List.cons_prefix_cons,
          ih fun hm => hr (.tail _ hm), List.length_cons, Nat.forall_lt_succ_left, and_assoc]
        exact and_congr_right fun _ => and_congr_right fun _ => (and_iff_right h).symm

/-! ### Elements of the result -/

theorem mem_replaceAll {x : α} {t : List α} (h : x ∈ replaceAll pat rep t) : x ∈ t ∨ x ∈ rep := by
  suffices hfrom : ∀ n, x ∈ replaceFrom pat rep n t → x ∈ t ∨ x ∈ rep from hfrom 0 h
  clear h
  induction t with
  | nil => exact fun _ h => .inl h
  | cons c t ih =>
    rintro (_ | n) h
    · rw [replaceFrom] at h
      split at h
      · rcases List.mem_append.mp h with h | h
        · exact .inr h
        · exact (ih _ h).imp_left (.tail _)
      · rcases List.mem_cons.mp h with rfl | h
        · exact .inl (.head _)
        · exact (ih _ h).imp_left (.tail _)
    · exact (ih n h).imp_left (.tail _)

end CargosBuildroot.Sed
