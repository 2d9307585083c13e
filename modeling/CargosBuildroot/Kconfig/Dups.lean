import CargosBuildroot.Kconfig.Join
import CargosBuildroot.Kconfig.Paths
import CargosBuildroot.Kconfig.Transform

/-! `expr_eliminate_dups` of `support/kconfig/expr.c` takes out of a junction what its other operands make
superfluous. Both pointers of its functions point into the expression that is changed. What is done about
two operands is sound. -/

namespace CargosBuildroot.Kconfig

open Shell Ternary

variable {σ : Type*} [DecidableEq σ] {K : Symbols σ}

/-- What is done about two operands, or nothing. -/
abbrev Reduction (σ : Type*) := Junction → Expr σ → Expr σ → Option (Expr σ × Expr σ)

variable (K) in
/-- `expr_eliminate_dups1`: two operands that can be joined. -/
def joinOperands : Reduction σ := fun j e₁ e₂ =>
  (exprJoin K j e₁ e₂).map fun tmp => (.symbol (K.unit j), tmp)

variable (K) in
/-- `expr_eliminate_dups2`: an operand whose negation is among the other operands. -/
def cancelOperand : Reduction σ := fun _ e₁ e₂ =>
  match e₁ with
  | .two i l r =>
    if (exprExtractEq K i.dual (exprTransform K (.not (.two i l r))) e₂).2.1 = .symbol (K.unit i.dual) then
      some (.symbol (K.zero i.dual), e₂)
    else none
  | _ => none

/-- The expression and `trans_count`. -/
abbrev DupsState (σ : Type*) := Expr σ × ℕ

/-- The reduction of the operands at two places. -/
def reduceAt (body : Reduction σ) (j : Junction) (p₁ p₂ : Path) (s : DupsState σ) : DupsState σ :=
  match s.1.get p₁, s.1.get p₂ with
  | some e₁, some e₂ =>
    match body j e₁ e₂ with
    | some (x, y) => ((s.1.set p₂ y).set p₁ x, s.2 + 1)
    | none => s
  | _, _ => s

/-- Two operands, unless they are one. An operand that is a junction, which is of the other type, is gone
through first. -/
def operandsAt (nested : Junction → DupsState σ → Option (DupsState σ)) (body : Reduction σ) (j : Junction)
    (p₁ p₂ : Path) (s : DupsState σ) : Option (DupsState σ) :=
  if p₁ = p₂ then some s
  else
    match s.1.get p₁ with
    | some (.two i l r) => (nested i (.two i l r, s.2)).map fun t => reduceAt body j p₁ p₂ (s.1.set p₁ t.1, t.2)
    | _ => some (reduceAt body j p₁ p₂ s)

/-- The two functions that go through the operands, for so many levels of calls. The second one looks at
a junction again after its operands. -/
def eliminateDupsN (again : Bool) (body : Reduction σ) :
    ℕ → Junction → Path → Path → DupsState σ → Option (DupsState σ)
  | 0, _, _, _, _ => none
  | n + 1, j, p₁, p₂, s =>
    if (s.1.get p₁).bind Expr.junction = some j then
      (eliminateDupsN again body n j (p₁ ++ [.left]) p₂ s).bind fun s =>
        eliminateDupsN again body n j (p₁ ++ [.right]) p₂ s
    else if (s.1.get p₂).bind Expr.junction = some j then
      (eliminateDupsN again body n j p₁ (p₂ ++ [.left]) s).bind fun s =>
        (eliminateDupsN again body n j p₁ (p₂ ++ [.right]) s).bind fun s =>
          if again then operandsAt (fun i => eliminateDupsN again body n i [] []) body j p₁ p₂ s else some s
    else operandsAt (fun i => eliminateDupsN again body n i [] []) body j p₁ p₂ s

variable (K) in
def exprEliminateDups1 : ℕ → Junction → Path → Path → DupsState σ → Option (DupsState σ) :=
  eliminateDupsN false (joinOperands K)

variable (K) in
def exprEliminateDups2 : ℕ → Junction → Path → Path → DupsState σ → Option (DupsState σ) :=
  eliminateDupsN true (cancelOperand K)

variable (K) in
/-- `expr_eliminate_dups`, for so many turns of its loop. -/
def exprEliminateDupsN : ℕ → Expr σ → Option (Expr σ)
  | 0, _ => none
  | n + 1, .two j l r =>
    (exprEliminateDups1 K n j [] [] (.two j l r, 0)).bind fun s =>
      (exprEliminateDups2 K n j [] [] s).bind fun s =>
        if s.2 = 0 then some s.1 else exprEliminateDupsN n (exprEliminateYn K s.1)
  | _ + 1, e => some e

/-! ### Constants that are left -/

variable (K) in
/-- An operand that `expr_eliminate_yn` takes out. -/
def HasConstant : Expr σ → Prop
  | .two _ l r => l = .symbol K.yes ∨ l = .symbol K.no ∨ r = .symbol K.yes ∨ r = .symbol K.no ∨
    HasConstant l ∨ HasConstant r
  | _ => False

theorem size_eliminateYn (e : Expr σ) : (exprEliminateYn K e).size ≤ e.size := by
  induction e with
  | symbol s => exact Nat.le_refl _
  | not e ih => exact Nat.le_refl _
  | comp type s t => exact Nat.le_refl _
  | two j l r ihl ihr =>
    rw [exprEliminateYn, Expr.size]
    split
    · simp only [Expr.size]; omega
    split
    · omega
    split
    · simp only [Expr.size]; omega
    split
    · omega
    · simp only [Expr.size]; omega

omit [DecidableEq σ] in
/-- The constants that are not the one are the other. -/
theorem Symbols.zero_or_unit (j : Junction) : (K.zero j = K.yes ∧ K.unit j = K.no) ∨
    (K.zero j = K.no ∧ K.unit j = K.yes) := by
  cases j
  · exact .inl ⟨rfl, rfl⟩
  · exact .inr ⟨rfl, rfl⟩

theorem HasConstant.size_lt {e : Expr σ} (h : HasConstant K e) : (exprEliminateYn K e).size < e.size := by
  induction e with
  | symbol s => exact h.elim
  | not e ih => exact h.elim
  | comp type s t => exact h.elim
  | two j l r ihl ihr =>
    have hl := size_eliminateYn (K := K) l
    have hr := size_eliminateYn (K := K) r
    have hlpos := l.size_pos
    have hrpos := r.size_pos
    rw [exprEliminateYn, Expr.size]
    split
    · simp only [Expr.size]; omega
    next hlzero =>
    split
    · omega
    next hlunit =>
    split
    · simp only [Expr.size]; omega
    next hrzero =>
    split
    · omega
    next hrunit =>
    -- none of the operands is constant, so that a constant is deeper
    have hconst : ∀ e : Expr σ, exprEliminateYn K e ≠ .symbol (K.zero j) →
        exprEliminateYn K e ≠ .symbol (K.unit j) → e ≠ .symbol K.yes ∧ e ≠ .symbol K.no := by
      intro e hzero hunit
      rcases K.zero_or_unit j with ⟨hz, hu⟩ | ⟨hz, hu⟩ <;> rw [hz] at hzero <;> rw [hu] at hunit
      · exact ⟨fun he => hzero (by rw [he]; rfl), fun he => hunit (by rw [he]; rfl)⟩
      · exact ⟨fun he => hunit (by rw [he]; rfl), fun he => hzero (by rw [he]; rfl)⟩
    have hl' := hconst l hlzero hlunit
    have hr' := hconst r hrzero hrunit
    simp only [Expr.size]
    rcases h with h | h | h | h | h | h
    · exact absurd h hl'.1
    · exact absurd h hl'.2
    · exact absurd h hr'.1
    · exact absurd h hr'.2
    · have hlt := ihl h
      omega
    · have hlt := ihr h
      omega

omit [DecidableEq σ] in
theorem HasConstant.set {e x : Expr σ} {p : Path} {j : Junction} (h : HasConstant K x) (hp : Reach j e p) :
    HasConstant K (e.set p x) := by
  induction p generalizing e with
  | nil => rwa [set_nil]
  | cons side p ih =>
    obtain ⟨l, r, rfl, ⟨rfl, hl⟩ | ⟨rfl, hr⟩⟩ := hp.exists_cons
    · exact .inr (.inr (.inr (.inr (.inl (ih hl)))))
    · exact .inr (.inr (.inr (.inr (.inr (ih hr)))))

omit [DecidableEq σ] in
/-- A constant that has been put in the place of an operand. -/
theorem hasConstant_set {e : Expr σ} {p : Path} {j : Junction} {s : σ} (hs : s = K.yes ∨ s = K.no) (hp : Reach j e p)
    (hne : p ≠ []) : HasConstant K (e.set p (.symbol s)) := by
  induction p generalizing e with
  | nil => exact absurd rfl hne
  | cons side p ih =>
    obtain ⟨l, r, rfl, hside⟩ := hp.exists_cons
    by_cases hnil : p = []
    · subst hnil
      rcases hside with ⟨rfl, -⟩ | ⟨rfl, -⟩
      · rw [Expr.set, set_nil]
        rcases hs with rfl | rfl
        · exact .inl rfl
        · exact .inr (.inl rfl)
      · rw [Expr.set, set_nil]
        rcases hs with rfl | rfl
        · exact .inr (.inr (.inl rfl))
        · exact .inr (.inr (.inr (.inl rfl)))
    · rcases hside with ⟨rfl, hl⟩ | ⟨rfl, hr⟩
      · exact .inr (.inr (.inr (.inr (.inl (ih hl hnil)))))
      · exact .inr (.inr (.inr (.inr (.inr (ih hr hnil)))))

/-! ### One step -/

/-- The operands of the one are where those of the other are. -/
structure SameShape (j : Junction) (e e' : Expr σ) : Prop where
  reach : ∀ p, Reach j e p → Reach j e' p
  operand : ∀ p, Reach j e p → (e.get p).bind Expr.junction ≠ some j → (e'.get p).bind Expr.junction ≠ some j
  junction : e'.junction = e.junction

omit [DecidableEq σ] in
theorem SameShape.refl (j : Junction) (e : Expr σ) : SameShape j e e := ⟨fun _ h => h, fun _ _ h => h, rfl⟩

omit [DecidableEq σ] in
theorem SameShape.trans {j : Junction} {e e' e'' : Expr σ} (h : SameShape j e e') (h' : SameShape j e' e'') :
    SameShape j e e'' where
  reach p hp := h'.reach p (h.reach p hp)
  operand p hp he := h'.operand p (h.reach p hp) (h.operand p hp he)
  junction := h'.junction.trans h.junction

variable (K) in
/-- What one step, and every number of steps, may do to an expression whose operands are gone through. -/
structure Improved (j : Junction) (s t : DupsState σ) : Prop where
  refines : ∀ V : Values K, Tristate.Refines (s.1.calcValue V) (t.1.calcValue V)
  shape : SameShape j s.1 t.1
  size : t.1.size ≤ s.1.size
  count : t = s ∨ s.2 < t.2 ∧ HasConstant K t.1

omit [DecidableEq σ] in
theorem Improved.refl (j : Junction) (s : DupsState σ) : Improved K j s s :=
  ⟨fun _ => .refl _, .refl j s.1, Nat.le_refl _, .inl rfl⟩

omit [DecidableEq σ] in
theorem Improved.trans {j : Junction} {s t u : DupsState σ} (h : Improved K j s t) (htu : Improved K j t u) :
    Improved K j s u where
  refines V := (h.refines V).trans (htu.refines V)
  shape := h.shape.trans htu.shape
  size := htu.size.trans h.size
  count := by
    rcases htu.count with rfl | ⟨hlt, hconst⟩
    · exact h.count
    · rcases h.count with rfl | ⟨hlt', -⟩
      · exact .inr ⟨hlt, hconst⟩
      · exact .inr ⟨hlt'.trans hlt, hconst⟩

section

variable {j : Junction} {e x y : Expr σ} {p q : Path}

omit [DecidableEq σ] in
/-- Another operand in the place of one. -/
theorem sameShape_set (hp : Reach j e p) (hx : e.get p = some x) (hxj : x.junction ≠ some j)
    (hyj : y.junction ≠ some j) (hne : p ≠ []) : SameShape j e (e.set p y) where
  reach q hq := hq.set hp hx hxj y
  operand q hq hqj := by
    obtain ⟨z, hz⟩ := hq.exists_get
    by_cases hqp : q = p
    · subst hqp
      rw [get_set hx]
      exact hyj
    · have hzj : z.junction ≠ some j := by rwa [hz] at hqj
      rw [get_set_of_ne hq hp hz hx hzj hxj hqp]
      exact hzj
  junction := junction_set hne

omit [DecidableEq σ] in
/-- An operand is not at the root, where there is another one. -/
theorem Reach.ne_nil (hq : Reach j e q) (hx : e.get p = some x) (hxj : x.junction ≠ some j) (hpq : p ≠ q) :
    p ≠ [] := by
  rintro rfl
  rw [get_nil] at hx
  obtain rfl := Option.some.inj hx
  cases q with
  | nil => exact hpq rfl
  | cons side q =>
    obtain ⟨l, r, rfl, -⟩ := hq.exists_cons
    exact hxj rfl

end

variable (K) in
/-- What is done about two operands is an improvement. The second one may be a junction of all operands on
its way, if the places are gone through like that. -/
def Sound (again : Bool) (body : Reduction σ) : Prop :=
  ∀ (j : Junction) (e : Expr σ) (p₁ p₂ : Path) (e₁ e₂ x y : Expr σ) (c : ℕ), Reach j e p₁ → Reach j e p₂ →
    e.get p₁ = some e₁ → e.get p₂ = some e₂ → e₁.junction ≠ some j → (again = false → e₂.junction ≠ some j) →
    p₁ ≠ p₂ → body j e₁ e₂ = some (x, y) → Improved K j (e, c) ((e.set p₂ y).set p₁ x, c + 1)

theorem junction_joinConstants {s : σ} {b c : Option σ} {e : Expr σ} (h : joinConstants K s b c = some e) :
    e.size = 1 ∧ e.junction = none := by
  unfold joinConstants at h
  split at h
  · split at h
    · obtain rfl := Option.some.inj h
      split <;> exact ⟨rfl, rfl⟩
    · cases h
  · cases h

/-- Two operands are joined in the first one, or in a symbol or a comparison. -/
theorem junction_join {j : Junction} {e₁ e₂ e : Expr σ} (h : exprJoin K j e₁ e₂ = some e) :
    e = e₁ ∨ e.size = 1 ∧ e.junction = none := by
  have hsmall : ∀ {e' : Expr σ}, e'.size = 1 ∧ e'.junction = none → some e' = some e →
      e.size = 1 ∧ e.junction = none := by
    intro e' he' heq
    rwa [← Option.some.inj heq]
  cases j with
  | or =>
    rw [exprJoin, exprJoinOr] at h
    split at h
    · exact .inl (Option.some.inj h).symm
    obtain ⟨s, -, h⟩ := Option.bind_eq_some_iff.mp h
    refine .inr ?_
    split at h
    · split at h
      · exact hsmall ⟨rfl, rfl⟩ h
      split at h
      · exact hsmall ⟨rfl, rfl⟩ h
      split at h
      · exact hsmall ⟨rfl, rfl⟩ h
      · cases h
    · split at h
      · exact hsmall ⟨rfl, rfl⟩ h
      · cases h
  | and =>
    rw [exprJoin, exprJoinAnd] at h
    split at h
    · exact .inl (Option.some.inj h).symm
    obtain ⟨s, -, h⟩ := Option.bind_eq_some_iff.mp h
    refine .inr ?_
    split at h
    · exact hsmall ⟨rfl, rfl⟩ h
    split at h
    · exact hsmall ⟨rfl, rfl⟩ h
    split at h
    · exact hsmall ⟨rfl, rfl⟩ h
    split at h
    · rcases Option.or_eq_some_iff.mp h with h | ⟨-, h⟩
      · exact junction_joinConstants h
      rcases Option.or_eq_some_iff.mp h with h | ⟨-, h⟩
      · exact junction_joinConstants h
      split at h
      · exact hsmall ⟨rfl, rfl⟩ h
      split at h
      · exact hsmall ⟨rfl, rfl⟩ h
      split at h
      · exact hsmall ⟨rfl, rfl⟩ h
      · cases h
    · cases h

theorem sound_joinOperands : Sound K false (joinOperands K) := by
  intro j e p₁ p₂ e₁ e₂ x y c h1 h2 he1 he2 hj1 hj2 hne hbody
  obtain ⟨tmp, htmp, heq⟩ := Option.map_eq_some_iff.mp hbody
  obtain ⟨rfl, rfl⟩ := Prod.mk.inj heq
  have hj2 := hj2 rfl
  have hne1 : p₁ ≠ [] := h2.ne_nil he1 hj1 hne
  have hne2 : p₂ ≠ [] := h1.ne_nil he2 hj2 hne.symm
  have htmpj : tmp.junction ≠ some j := by
    rcases junction_join htmp with rfl | ⟨-, hnone⟩
    · exact hj1
    · rw [hnone]
      exact fun h => by cases h
  have hfirst := sameShape_set h2 he2 hj2 htmpj hne2
  have he1' := get_set_of_ne h1 h2 he1 he2 hj1 hj2 hne tmp
  refine ⟨fun V => ?_, ?_, ?_, ?_⟩
  · obtain ⟨d, hd⟩ := h1.exists_op_op h2 he1 he2 hj1 hj2 hne V
    have hsame := hd e₁ e₂
    rw [set_get he2, set_get he1] at hsame
    refine .of_eq ?_
    rw [hsame, hd, calcValue_join V htmp, Expr.calcValue, V.tri_unit, Junction.unit_op]
  · exact hfirst.trans (sameShape_set (hfirst.reach p₁ h1) he1' hj1 (fun h => by cases h) hne1)
  · have hsize2 := size_set he2 tmp
    have hsize1 := size_set he1' (.symbol (K.unit j))
    have hpos2 := e₂.size_pos
    have hpos1 := e₁.size_pos
    rcases junction_join htmp with rfl | ⟨hone, -⟩
    · simp only [Expr.size] at hsize1 ⊢
      omega
    · simp only [Expr.size] at hsize1 ⊢
      omega
  · refine .inr ⟨Nat.lt_succ_self c, hasConstant_set ?_ (hfirst.reach p₁ h1) hne1⟩
    rcases K.zero_or_unit j with ⟨-, hu⟩ | ⟨-, hu⟩
    · exact .inr hu
    · exact .inl hu

theorem sound_cancelOperand : Sound K true (cancelOperand K) := by
  intro j e p₁ p₂ e₁ e₂ x y c h1 h2 he1 he2 hj1 hj2 hne hbody
  cases e₁ with
  | symbol s => cases hbody
  | not e₁ => cases hbody
  | comp type s t => cases hbody
  | two i l r =>
    -- the two types are not the same
    have hij : i.dual = j := by
      rw [Junction.eq_dual_of_ne fun hij => hj1 (congrArg some hij), Junction.dual_dual]
    subst hij
    unfold cancelOperand at hbody
    dsimp only at hbody
    split at hbody
    next hunit =>
      obtain ⟨rfl, rfl⟩ := Prod.mk.inj (Option.some.inj hbody)
      have hroot : p₁ ≠ [] := h2.ne_nil he1 hj1 hne
      rw [set_get he2]
      refine ⟨fun V => ?_, sameShape_set h1 he1 hj1 (fun h => by cases h) hroot, ?_, ?_⟩
      · have hcommon := common_exprExtractEq V i.dual (exprTransform K (.not (.two i l r))) e₂
        rw [hunit, (exprTransform_spec K _).2.2.1 V, Expr.calcValue, Expr.calcValue, V.tri_unit] at hcommon
        -- the whole expression is decided by the operand and by its negation
        have hnot := (h2.absorbs he2 V).trans hcommon.absorbs
        obtain ⟨d, hd⟩ := h1.exists_op V
        dsimp only
        rw [hd, Expr.calcValue, V.tri_zero, Junction.zero_op]
        exact Tristate.refines_zero (h1.absorbs he1 V) hnot
      · have hsize := size_set he1 (.symbol (K.zero i.dual))
        simp only [Expr.size] at hsize ⊢
        omega
      · refine .inr ⟨Nat.lt_succ_self c, hasConstant_set ?_ h1 hroot⟩
        rcases K.zero_or_unit i.dual with ⟨hz, -⟩ | ⟨hz, -⟩
        · exact .inl hz
        · exact .inr hz
    · cases hbody

end CargosBuildroot.Kconfig
