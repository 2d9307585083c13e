import CargosBuildroot.Kconfig.Dups

/-! `expr_eliminate_dups` ends for every expression, and the value stays the same unless it was `m`. -/

namespace CargosBuildroot.Kconfig

open Shell Ternary

variable {σ : Type*} [DecidableEq σ] {K : Symbols σ}

/-! ### All steps -/

section

variable {again : Bool} {body : Reduction σ} {j : Junction} {p₁ p₂ : Path} {s : DupsState σ}

omit [DecidableEq σ] in
theorem improved_reduceAt (hbody : Sound K again body) (h1 : Reach j s.1 p₁) (h2 : Reach j s.1 p₂)
    (hj1 : (s.1.get p₁).bind Expr.junction ≠ some j)
    (hj2 : again = false → (s.1.get p₂).bind Expr.junction ≠ some j) (hne : p₁ ≠ p₂) :
    Improved K j s (reduceAt body j p₁ p₂ s) := by
  obtain ⟨e₁, he1⟩ := h1.exists_get
  obtain ⟨e₂, he2⟩ := h2.exists_get
  rw [he1] at hj1
  rw [he2] at hj2
  unfold reduceAt
  rw [he1, he2]
  dsimp only
  split
  next x y hxy => exact hbody j s.1 p₁ p₂ e₁ e₂ x y s.2 h1 h2 he1 he2 hj1 hj2 hne hxy
  · exact .refl j s

omit [DecidableEq σ] in
/-- An operand whose own operands have been gone through. -/
theorem Improved.set {i : Junction} {e₁ : Expr σ} {t : DupsState σ} (h : Improved K i (e₁, s.2) t)
    (h1 : Reach j s.1 p₁) (he1 : s.1.get p₁ = some e₁) (hj1 : e₁.junction ≠ some j) (hne : p₁ ≠ []) :
    Improved K j s (s.1.set p₁ t.1, t.2) where
  refines V := h1.refines_set he1 (h.refines V)
  shape := sameShape_set h1 he1 hj1 (by rw [h.shape.junction]; exact hj1) hne
  size := by
    have hset := size_set he1 t.1
    have hsize := h.size
    dsimp only at hsize ⊢
    omega
  count := by
    rcases h.count with rfl | ⟨hlt, hconst⟩
    · exact .inl (by rw [set_get he1])
    · exact .inr ⟨hlt, hconst.set h1⟩

omit [DecidableEq σ] in
theorem exists_operandsAt {nested : Junction → DupsState σ → Option (DupsState σ)} (hbody : Sound K again body)
    (h1 : Reach j s.1 p₁) (h2 : Reach j s.1 p₂) (hj1 : (s.1.get p₁).bind Expr.junction ≠ some j)
    (hj2 : again = false → (s.1.get p₂).bind Expr.junction ≠ some j)
    (hnested : ∀ i l r, s.1.get p₁ = some (.two i l r) → p₁ ≠ [] →
      ∃ t, nested i (.two i l r, s.2) = some t ∧ Improved K i (.two i l r, s.2) t) :
    ∃ t, operandsAt nested body j p₁ p₂ s = some t ∧ Improved K j s t := by
  by_cases hne : p₁ = p₂
  · exact ⟨s, if_pos hne, .refl j s⟩
  obtain ⟨e₁, he1⟩ := h1.exists_get
  unfold operandsAt
  rw [if_neg hne, he1]
  cases e₁ with
  | symbol a => exact ⟨_, rfl, improved_reduceAt hbody h1 h2 hj1 hj2 hne⟩
  | not e₁ => exact ⟨_, rfl, improved_reduceAt hbody h1 h2 hj1 hj2 hne⟩
  | comp type a b => exact ⟨_, rfl, improved_reduceAt hbody h1 h2 hj1 hj2 hne⟩
  | two i l r =>
    have hj1' := hj1
    rw [he1] at hj1'
    have hroot := h2.ne_nil he1 hj1' hne
    obtain ⟨t, ht, himproved⟩ := hnested i l r he1 hroot
    have hset := himproved.set h1 he1 hj1' hroot
    dsimp only
    rw [ht]
    exact ⟨_, rfl, hset.trans (improved_reduceAt hbody (hset.shape.reach p₁ h1) (hset.shape.reach p₂ h2)
      (hset.shape.operand p₁ h1 hj1) (fun ha => hset.shape.operand p₂ h2 (hj2 ha)) hne)⟩

/-- The levels that are enough for the operands at two places in an expression of that size. -/
def levels (size : ℕ) (p₁ p₂ : Path) : ℕ := size * size + 1 + (size - p₁.length) + (size - p₂.length)

omit [DecidableEq σ] in
theorem length_of_junction {e : Expr σ} {p : Path} (h : (e.get p).bind Expr.junction = some j) :
    p.length + 1 < e.size := by
  obtain ⟨x, hx, hxj⟩ := Option.bind_eq_some_iff.mp h
  have hsize := size_of_get hx
  cases x with
  | two i l r =>
    have hl := l.size_pos
    have hr := r.size_pos
    rw [Expr.size] at hsize
    omega
  | symbol a => cases hxj
  | not x => cases hxj
  | comp type a b => cases hxj

omit [DecidableEq σ] in
theorem Reach.snoc_of_bind {e : Expr σ} {p : Path} (h : Reach j e p)
    (hj : (e.get p).bind Expr.junction = some j) (side : Side) : Reach j e (p ++ [side]) := by
  obtain ⟨x, hx, hxj⟩ := Option.bind_eq_some_iff.mp hj
  exact h.snoc hx hxj side

omit [DecidableEq σ] in
/-- Going through the operands ends, and all of it is an improvement. -/
theorem exists_eliminateDupsN (hbody : Sound K again body) (n S : ℕ) (h1 : Reach j s.1 p₁) (h2 : Reach j s.1 p₂)
    (hsize : s.1.size ≤ S) (hn : levels S p₁ p₂ ≤ n) :
    ∃ t, eliminateDupsN again body n j p₁ p₂ s = some t ∧ Improved K j s t := by
  induction n generalizing S j p₁ p₂ s with
  | zero =>
    unfold levels at hn
    omega
  | succ n ih =>
    have hleft : ∀ {s : DupsState σ}, Reach j s.1 p₁ → Reach j s.1 p₂ → s.1.size ≤ S →
        (s.1.get p₁).bind Expr.junction ≠ some j →
        (again = false → (s.1.get p₂).bind Expr.junction ≠ some j) →
        ∃ t, operandsAt (fun i => eliminateDupsN again body n i [] []) body j p₁ p₂ s = some t ∧
          Improved K j s t := by
      intro s h1 h2 hsize hj1 hj2
      refine exists_operandsAt hbody h1 h2 hj1 hj2 fun i l r he hroot => ?_
      have hsmall := size_of_get he
      have hpos := List.length_pos_iff.mpr hroot
      obtain ⟨S, rfl⟩ : ∃ m, S = m + 1 := ⟨S - 1, by omega⟩
      refine ih S (reach_nil _ _) (reach_nil _ _) (by dsimp only; omega) ?_
      -- the square of the size is what the levels below it take
      have hsquare : (S + 1) * (S + 1) = S * S + S + S + 1 := by
        rw [Nat.succ_mul, Nat.mul_succ, Nat.add_assoc (S * S + S)]
      unfold levels at hn ⊢
      rw [List.length_nil]
      omega
    have hstep : ∀ {q₁ q₂ : Path}, q₁.length + q₂.length = p₁.length + p₂.length + 1 →
        q₁.length ≤ S → q₂.length ≤ S → levels S q₁ q₂ ≤ n := by
      intro q₁ q₂ hq hq1 hq2
      unfold levels at hn ⊢
      omega
    have hp1 := h1.length_lt
    have hp2 := h2.length_lt
    rw [eliminateDupsN]
    split
    next hj =>
      have hlen := length_of_junction hj
      have hlevels : ∀ side, levels S (p₁ ++ [side]) p₂ ≤ n := fun side =>
        hstep (by rw [List.length_append, List.length_singleton]; omega)
          (by rw [List.length_append, List.length_singleton]; omega) (by omega)
      obtain ⟨t, ht, himproved⟩ := ih S (h1.snoc_of_bind hj .left) h2 hsize (hlevels .left)
      obtain ⟨u, hu, himproved'⟩ := ih S (himproved.shape.reach _ (h1.snoc_of_bind hj .right))
        (himproved.shape.reach _ h2) (himproved.size.trans hsize) (hlevels .right)
      exact ⟨u, by rw [ht]; exact hu, himproved.trans himproved'⟩
    next hj1 =>
    split
    next hj =>
      have hlen := length_of_junction hj
      have hlevels : ∀ side, levels S p₁ (p₂ ++ [side]) ≤ n := fun side =>
        hstep (by rw [List.length_append, List.length_singleton]; omega)
          (by omega) (by rw [List.length_append, List.length_singleton]; omega)
      obtain ⟨t, ht, himproved⟩ := ih S h1 (h2.snoc_of_bind hj .left) hsize (hlevels .left)
      obtain ⟨u, hu, himproved'⟩ := ih S (himproved.shape.reach _ h1)
        (himproved.shape.reach _ (h2.snoc_of_bind hj .right)) (himproved.size.trans hsize) (hlevels .right)
      have hboth := himproved.trans himproved'
      rw [ht, Option.bind_some, hu, Option.bind_some]
      cases again with
      | false => exact ⟨u, rfl, hboth⟩
      | true =>
        obtain ⟨v, hv, himproved''⟩ := hleft (hboth.shape.reach p₁ h1) (hboth.shape.reach p₂ h2)
          (hboth.size.trans hsize) (hboth.shape.operand p₁ h1 hj1) (fun h => by cases h)
        exact ⟨v, hv, hboth.trans himproved''⟩
    next hj2 => exact hleft h1 h2 hsize hj1 fun _ => hj2

omit [DecidableEq σ] in
theorem operandsAt_succ {nested nested' : Junction → DupsState σ → Option (DupsState σ)} {t : DupsState σ}
    (hnested : ∀ i s t, nested i s = some t → nested' i s = some t)
    (h : operandsAt nested body j p₁ p₂ s = some t) : operandsAt nested' body j p₁ p₂ s = some t := by
  unfold operandsAt at h ⊢
  split at h
  next hp => rwa [if_pos hp]
  next hp =>
    rw [if_neg hp]
    split at h
    next i l r he =>
      obtain ⟨u, hu, h⟩ := Option.map_eq_some_iff.mp h
      rw [hnested i _ u hu]
      exact congrArg some h
    next he => exact h

omit [DecidableEq σ] in
theorem eliminateDupsN_succ {n : ℕ} {t : DupsState σ} (h : eliminateDupsN again body n j p₁ p₂ s = some t) :
    eliminateDupsN again body (n + 1) j p₁ p₂ s = some t := by
  induction n generalizing j p₁ p₂ s t with
  | zero => cases h
  | succ n ih =>
    have hoperands : ∀ {s t : DupsState σ},
        operandsAt (fun i => eliminateDupsN again body n i [] []) body j p₁ p₂ s = some t →
        operandsAt (fun i => eliminateDupsN again body (n + 1) i [] []) body j p₁ p₂ s = some t :=
      fun h => operandsAt_succ (fun i s t hs => ih hs) h
    rw [eliminateDupsN] at h ⊢
    split at h
    next hj =>
      obtain ⟨u, hu, h⟩ := Option.bind_eq_some_iff.mp h
      rw [if_pos hj, ih hu]
      exact ih h
    next hj =>
    rw [if_neg hj]
    split at h
    next hj =>
      obtain ⟨u, hu, h⟩ := Option.bind_eq_some_iff.mp h
      obtain ⟨v, hv, h⟩ := Option.bind_eq_some_iff.mp h
      rw [if_pos hj, ih hu, Option.bind_some, ih hv, Option.bind_some]
      split at h
      next ha =>
        rw [if_pos ha]
        exact hoperands h
      next ha => rwa [if_neg ha]
    next hj =>
      rw [if_neg hj]
      exact hoperands h

end

/-! ### The loop -/

section

variable {e e' : Expr σ} {n : ℕ}

theorem exprEliminateDupsN_succ (h : exprEliminateDupsN K n e = some e') :
    exprEliminateDupsN K (n + 1) e = some e' := by
  induction n generalizing e e' with
  | zero => cases h
  | succ n ih =>
    cases e with
    | symbol s => exact h
    | not e => exact h
    | comp type s t => exact h
    | two j l r =>
      obtain ⟨s, hs, h⟩ := Option.bind_eq_some_iff.mp h
      obtain ⟨t, ht, h⟩ := Option.bind_eq_some_iff.mp h
      have hs' := eliminateDupsN_succ hs
      have ht' := eliminateDupsN_succ ht
      rw [exprEliminateDupsN, exprEliminateDups1, hs', Option.bind_some, exprEliminateDups2, ht', Option.bind_some]
      split at h
      next hzero => rwa [if_pos hzero]
      next hzero =>
        rw [if_neg hzero]
        exact ih h

theorem exprEliminateDupsN_of_le {m : ℕ} (h : exprEliminateDupsN K n e = some e') (hnm : n ≤ m) :
    exprEliminateDupsN K m e = some e' := by
  induction hnm with
  | refl => exact h
  | step hm ih => exact exprEliminateDupsN_succ ih

/-- The loop ends, because there is a constant to take out after every turn but the last. -/
theorem exists_exprEliminateDupsN (hn : levels e.size [] [] + 1 ≤ n) :
    ∃ e', exprEliminateDupsN K n e = some e' ∧
      (∀ V : Values K, Tristate.Refines (e.calcValue V) (e'.calcValue V)) ∧ e'.size ≤ e.size ∧
      ∃ m, exprEliminateDupsN K m e' = some e' := by
  induction n generalizing e with
  | zero => omega
  | succ n ih =>
    have hsame : exprEliminateDupsN K (n + 1) e = some e →
        ∃ e', exprEliminateDupsN K (n + 1) e = some e' ∧
          (∀ V : Values K, Tristate.Refines (e.calcValue V) (e'.calcValue V)) ∧ e'.size ≤ e.size ∧
          ∃ m, exprEliminateDupsN K m e' = some e' :=
      fun h => ⟨e, h, fun V => .refl _, Nat.le_refl _, n + 1, h⟩
    cases e with
    | symbol s => exact hsame rfl
    | not e => exact hsame rfl
    | comp type s t => exact hsame rfl
    | two j l r =>
      obtain ⟨s, hs, himproved⟩ := exists_eliminateDupsN (s := (Expr.two j l r, 0)) (sound_joinOperands (K := K)) n
        (Expr.two j l r).size (reach_nil j _) (reach_nil j _) (Nat.le_refl _) (Nat.le_of_succ_le_succ hn)
      obtain ⟨t, ht, himproved'⟩ := exists_eliminateDupsN (sound_cancelOperand (K := K)) n (Expr.two j l r).size
        (reach_nil j s.1) (reach_nil j s.1) himproved.size (Nat.le_of_succ_le_succ hn)
      have hboth := himproved.trans himproved'
      have hstep : exprEliminateDupsN K (n + 1) (.two j l r) =
          if t.2 = 0 then some t.1 else exprEliminateDupsN K n (exprEliminateYn K t.1) := by
        rw [exprEliminateDupsN, exprEliminateDups1, hs, Option.bind_some, exprEliminateDups2, ht, Option.bind_some]
      rcases hboth.count with rfl | ⟨hlt, hconst⟩
      · exact hsame hstep
      · rw [if_neg (Nat.ne_of_gt hlt)] at hstep
        have hsmaller := hconst.size_lt
        have hle := hboth.size
        obtain ⟨e', he', hrefines, hsize, hstable⟩ := ih (e := exprEliminateYn K t.1) (by
          have hsquare := Nat.mul_le_mul (Nat.le_of_lt hsmaller) (Nat.le_of_lt hsmaller)
          have hsquare' := Nat.mul_le_mul hle hle
          unfold levels at hn ⊢
          rw [List.length_nil] at hn ⊢
          dsimp only at hle hsquare'
          omega)
        refine ⟨e', hstep.trans he', fun V => ?_, ?_, hstable⟩
        · have hvalue := hrefines V
          rw [calcValue_eliminateYn] at hvalue
          exact (hboth.refines V).trans hvalue
        · dsimp only at hle
          omega

end

/-- `expr_eliminate_dups` -/
def exprEliminateDups (K : Symbols σ) (e : Expr σ) : Expr σ :=
  (exprEliminateDupsN K (levels e.size [] [] + 1) e).getD e

/-- The loop ends. The value stays the same unless it was `m`, the expression does not grow, and nothing is
left to eliminate. -/
theorem exprEliminateDups_spec (K : Symbols σ) (e : Expr σ) :
    (∀ n, (e.size + 1) * (e.size + 1) + 1 ≤ n → exprEliminateDupsN K n e = some (exprEliminateDups K e)) ∧
      (∀ V : Values K, e.calcValue V ≠ .mod → (exprEliminateDups K e).calcValue V = e.calcValue V) ∧
      (exprEliminateDups K e).size ≤ e.size ∧
      exprEliminateDups K (exprEliminateDups K e) = exprEliminateDups K e := by
  obtain ⟨e', he', hrefines, hsize, m, hstable⟩ := exists_exprEliminateDupsN (K := K) (Nat.le_refl (levels e.size [] [] + 1))
  have heq : exprEliminateDups K e = e' := by rw [exprEliminateDups, he', Option.getD_some]
  rw [heq]
  refine ⟨fun n hn => ?_, fun V hmod => ?_, hsize, ?_⟩
  · refine exprEliminateDupsN_of_le he' ?_
    have hsquare : (e.size + 1) * (e.size + 1) = e.size * e.size + e.size + e.size + 1 := by
      rw [Nat.succ_mul, Nat.mul_succ, Nat.add_assoc (e.size * e.size + e.size)]
    unfold levels
    rw [List.length_nil]
    omega
  · exact ((hrefines V).resolve_left hmod).symm
  · obtain ⟨e'', he'', -⟩ := exists_exprEliminateDupsN (K := K) (Nat.le_refl (levels e'.size [] [] + 1))
    have hlater := exprEliminateDupsN_of_le he'' (Nat.le_max_left _ m)
    rw [exprEliminateDupsN_of_le hstable (Nat.le_max_right _ m)] at hlater
    rw [exprEliminateDups, he'', Option.getD_some, Option.some.inj hlater]

end CargosBuildroot.Kconfig
