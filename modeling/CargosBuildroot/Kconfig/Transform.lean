import CargosBuildroot.Kconfig.Expr

/-! `expr_transform` of `support/kconfig/expr.c` moves negations to the symbols and takes comparisons of
boolean symbols apart. It ends for every expression, the value stays the same, and nothing is left to
transform. -/

namespace CargosBuildroot.Kconfig

open Shell Ternary

variable {σ : Type*} [DecidableEq σ] {K : Symbols σ}

variable (K) in
/-- A comparison of a boolean symbol with a constant. -/
def transComp : Comparison → σ → σ → Expr σ
  | .equal, s, t =>
    if K.type s ≠ .boolean then .comp .equal s t
    else if t = K.no then .not (.symbol s)
    -- a boolean symbol is tested for m
    else if t = K.mod then .symbol K.no
    else if t = K.yes then .symbol s
    else .comp .equal s t
  | .unequal, s, t =>
    if K.type s ≠ .boolean then .comp .unequal s t
    else if t = K.no then .symbol s
    else if t = K.mod then .symbol K.yes
    else if t = K.yes then .not (.symbol s)
    else .comp .unequal s t

variable (K) in
/-- The negation of a symbol. -/
def transNot (s : σ) : Expr σ :=
  if s = K.yes then .symbol K.no
  else if s = K.mod then .symbol K.mod
  else if s = K.no then .symbol K.yes
  else .not (.symbol s)

variable (K) in
/-- `expr_transform`, for so many levels of calls. -/
def exprTransformN : ℕ → Expr σ → Option (Expr σ)
  | 0, _ => none
  | n + 1, .two j l r =>
    (exprTransformN n l).bind fun l' => (exprTransformN n r).bind fun r' => some (.two j l' r')
  | n + 1, .not e =>
    (exprTransformN n e).bind fun e' =>
      match e' with
      | .not a => exprTransformN n a
      | .comp type s t => some (.comp type.flip s t)
      | .two j a b => exprTransformN n (.two j.dual (.not a) (.not b))
      | .symbol s => some (transNot K s)
  | _ + 1, .comp type s t => some (transComp K type s t)
  | _ + 1, .symbol s => some (.symbol s)

/-! ### Values -/

theorem calcValue_transComp (V : Values K) (type : Comparison) (s t : σ) :
    (transComp K type s t).calcValue V = type.holds (V.text s) (V.text t) := by
  by_cases hs : K.type s = .boolean
  · have htext := V.text_eq s (.inl hs)
    have hmod := V.boolean s hs
    cases type <;> rw [transComp, if_neg (not_not.mpr hs)]
    all_goals
      split
      next h =>
        simp only [Expr.calcValue, h, htext, V.text_no]
        generalize V.tri s = a at hmod
        cases a <;> first | decide | exact absurd rfl hmod
      split
      next h =>
        simp only [Expr.calcValue, h, htext, V.text_mod, V.tri_no, V.tri_yes]
        generalize V.tri s = a at hmod
        cases a <;> first | decide | exact absurd rfl hmod
      split
      next h =>
        simp only [Expr.calcValue, h, htext, V.text_yes]
        generalize V.tri s = a at hmod
        cases a <;> first | decide | exact absurd rfl hmod
      · rfl
  · cases type <;> rw [transComp, if_pos hs] <;> rfl

theorem calcValue_transNot (V : Values K) (s : σ) : (transNot K s).calcValue V = (V.tri s).not := by
  unfold transNot
  split
  next h => rw [h, Expr.calcValue, V.tri_no, V.tri_yes]; rfl
  split
  next h => rw [h, Expr.calcValue, V.tri_mod]; rfl
  split
  next h => rw [h, Expr.calcValue, V.tri_no, V.tri_yes]; rfl
  · rfl

theorem calcValue_transformN (V : Values K) {n : ℕ} {e e' : Expr σ} (h : exprTransformN K n e = some e') :
    e'.calcValue V = e.calcValue V := by
  induction n generalizing e e' with
  | zero => cases h
  | succ n ih =>
    cases e with
    | symbol s =>
      obtain rfl := Option.some.inj h
      rfl
    | comp type s t =>
      obtain rfl := Option.some.inj h
      exact calcValue_transComp V type s t
    | two j l r =>
      obtain ⟨l', hl, h⟩ := Option.bind_eq_some_iff.mp h
      obtain ⟨r', hr, h⟩ := Option.bind_eq_some_iff.mp h
      obtain rfl := Option.some.inj h
      rw [Expr.calcValue, Expr.calcValue, ih hl, ih hr]
    | not e =>
      obtain ⟨x, hx, h⟩ := Option.bind_eq_some_iff.mp h
      rw [Expr.calcValue, ← ih hx]
      cases x with
      | symbol s =>
        obtain rfl := Option.some.inj h
        exact calcValue_transNot V s
      | comp type s t =>
        obtain rfl := Option.some.inj h
        exact Comparison.holds_flip type _ _
      | not a => rw [ih h, Expr.calcValue, Junction.not_not]
      | two j a b => rw [ih h, Expr.calcValue, Expr.calcValue, Expr.calcValue, Expr.calcValue, Junction.not_op]

/-! ### Normal forms -/

/-- Nothing is left to transform: negations stand in front of symbols that are not constant, and no
boolean symbol is compared with a constant. -/
inductive Normal (K : Symbols σ) : Expr σ → Prop
  | symbol (s : σ) : Normal K (.symbol s)
  | not (s : σ) (h : transNot K s = .not (.symbol s)) : Normal K (.not (.symbol s))
  | comp (type : Comparison) (s t : σ) (h : ∀ type, transComp K type s t = .comp type s t) :
    Normal K (.comp type s t)
  | two (j : Junction) {l r : Expr σ} (hl : Normal K l) (hr : Normal K r) : Normal K (.two j l r)

theorem transNot_eq {s : σ} (hyes : s ≠ K.yes) (hmod : s ≠ K.mod) (hno : s ≠ K.no) :
    transNot K s = .not (.symbol s) := by
  rw [transNot, if_neg hyes, if_neg hmod, if_neg hno]

theorem normal_transNot (s : σ) : Normal K (transNot K s) := by
  unfold transNot
  split
  · exact .symbol _
  split
  · exact .symbol _
  split
  · exact .symbol _
  next hyes hmod hno => exact .not s (transNot_eq hyes hmod hno)

theorem normal_transComp (type : Comparison) (s t : σ) : Normal K (transComp K type s t) := by
  by_cases hs : K.type s = .boolean
  · have hnot : Normal K (.not (.symbol s)) := by
      refine .not s (transNot_eq ?_ ?_ ?_)
      · rintro rfl
        rw [K.type_yes] at hs
        cases hs
      · rintro rfl
        rw [K.type_mod] at hs
        cases hs
      · rintro rfl
        rw [K.type_no] at hs
        cases hs
    by_cases hno : t = K.no
    · cases type <;> rw [transComp, if_neg (not_not.mpr hs), if_pos hno]
      · exact hnot
      · exact .symbol s
    by_cases hmod : t = K.mod
    · cases type <;> rw [transComp, if_neg (not_not.mpr hs), if_neg hno, if_pos hmod] <;> exact .symbol _
    by_cases hyes : t = K.yes
    · cases type <;> rw [transComp, if_neg (not_not.mpr hs), if_neg hno, if_neg hmod, if_pos hyes]
      · exact .symbol s
      · exact hnot
    have hcomp : ∀ type, transComp K type s t = .comp type s t := by
      intro type
      cases type <;> rw [transComp, if_neg (not_not.mpr hs), if_neg hno, if_neg hmod, if_neg hyes]
    rw [hcomp type]
    exact .comp type s t hcomp
  · have hcomp : ∀ type, transComp K type s t = .comp type s t := by
      intro type
      cases type <;> rw [transComp, if_pos hs]
    rw [hcomp type]
    exact .comp type s t hcomp

def Expr.leaves : Expr σ → ℕ
  | .symbol _ | .comp _ _ _ => 1
  | .not e => e.leaves
  | .two _ l r => l.leaves + r.leaves

theorem leaves_transNot (s : σ) : (transNot K s).leaves = 1 := by
  unfold transNot
  split
  · rfl
  split
  · rfl
  split <;> rfl

theorem leaves_transComp (type : Comparison) (s t : σ) : (transComp K type s t).leaves = 1 := by
  cases type <;> unfold transComp <;> dsimp only
  all_goals
    split
    · rfl
    split
    · rfl
    split
    · rfl
    split <;> rfl

theorem Normal.size_lt {e : Expr σ} (h : Normal K e) : e.size < 3 * e.leaves := by
  induction h with
  | symbol s => simp [Expr.size, Expr.leaves]
  | not s h => simp [Expr.size, Expr.leaves]
  | comp type s t h => simp [Expr.size, Expr.leaves]
  | two j hl hr ihl ihr =>
    rw [Expr.size, Expr.leaves]
    omega

/-- A normal form stays as it is. -/
theorem Normal.transformN {e : Expr σ} (h : Normal K e) {n : ℕ} (hn : e.size ≤ n) :
    exprTransformN K n e = some e := by
  induction h generalizing n with
  | symbol s =>
    obtain ⟨n, rfl⟩ := Nat.exists_eq_add_of_le' hn
    rfl
  | not s h =>
    obtain ⟨n, rfl⟩ := Nat.exists_eq_add_of_le' hn
    exact congrArg some h
  | comp type s t h =>
    obtain ⟨n, rfl⟩ := Nat.exists_eq_add_of_le' hn
    exact congrArg some (h type)
  | @two j l r hl hr ihl ihr =>
    rw [Expr.size] at hn
    obtain ⟨n, rfl⟩ : ∃ m, n = m + 1 := ⟨n - 1, by omega⟩
    rw [exprTransformN, ihl (by omega), ihr (by omega)]
    rfl

/-- The negation of a normal form. -/
theorem Normal.exists_not {e : Expr σ} (h : Normal K e) {n : ℕ} (hn : 2 * e.size + 2 ≤ n) :
    ∃ e', exprTransformN K n (.not e) = some e' ∧ Normal K e' ∧ e'.leaves = e.leaves := by
  induction h generalizing n with
  | symbol s =>
    obtain ⟨n, rfl⟩ := Nat.exists_eq_add_of_le' hn
    exact ⟨transNot K s, rfl, normal_transNot s, leaves_transNot s⟩
  | not s h =>
    obtain ⟨n, rfl⟩ := Nat.exists_eq_add_of_le' hn
    refine ⟨.symbol s, ?_, .symbol s, rfl⟩
    rw [Expr.size, Expr.size, exprTransformN, (Normal.not s h).transformN (by simp [Expr.size])]
    rfl
  | comp type s t h =>
    obtain ⟨n, rfl⟩ := Nat.exists_eq_add_of_le' hn
    refine ⟨.comp type.flip s t, ?_, .comp type.flip s t h, rfl⟩
    rw [Expr.size, exprTransformN, (Normal.comp type s t h).transformN (by simp [Expr.size])]
    rfl
  | @two j l r hl hr ihl ihr =>
    have hpos := (Expr.two j l r).size_pos
    obtain ⟨n, rfl⟩ : ∃ m, n = m + 2 := ⟨n - 2, by omega⟩
    have hsame := (Normal.two j hl hr).transformN (n := n + 1) (by omega)
    rw [Expr.size] at hn
    obtain ⟨l', htl, hl', hleavesl⟩ := ihl (n := n) (by omega)
    obtain ⟨r', htr, hr', hleavesr⟩ := ihr (n := n) (by omega)
    refine ⟨.two j.dual l' r', ?_, .two j.dual hl' hr', ?_⟩
    · rw [exprTransformN, hsame, Option.bind_some]
      dsimp only
      rw [exprTransformN, htl, htr]
      rfl
    · rw [Expr.leaves, Expr.leaves, hleavesl, hleavesr]

/-- The levels are enough for every expression. -/
theorem exists_transformN {e : Expr σ} {n : ℕ} (hn : 6 * e.leaves + e.size + 2 ≤ n) :
    ∃ e', exprTransformN K n e = some e' ∧ Normal K e' ∧ e'.leaves = e.leaves := by
  induction e generalizing n with
  | symbol s =>
    obtain ⟨n, rfl⟩ := Nat.exists_eq_add_of_le' hn
    exact ⟨.symbol s, rfl, .symbol s, rfl⟩
  | comp type s t =>
    obtain ⟨n, rfl⟩ := Nat.exists_eq_add_of_le' hn
    exact ⟨transComp K type s t, rfl, normal_transComp type s t, leaves_transComp type s t⟩
  | two j l r ihl ihr =>
    rw [Expr.leaves, Expr.size] at hn
    obtain ⟨n, rfl⟩ : ∃ m, n = m + 1 := ⟨n - 1, by omega⟩
    obtain ⟨l', htl, hl', hleavesl⟩ := ihl (n := n) (by omega)
    obtain ⟨r', htr, hr', hleavesr⟩ := ihr (n := n) (by omega)
    refine ⟨.two j l' r', ?_, .two j hl' hr', ?_⟩
    · rw [exprTransformN, htl, htr]
      rfl
    · rw [Expr.leaves, Expr.leaves, hleavesl, hleavesr]
  | not e ih =>
    rw [Expr.leaves, Expr.size] at hn
    obtain ⟨n, rfl⟩ : ∃ m, n = m + 1 := ⟨n - 1, by omega⟩
    obtain ⟨x, hx, hnormal, hleaves⟩ := ih (n := n) (by omega)
    have hsize := hnormal.size_lt
    -- the rest is what is done to the negation of the normal form
    obtain ⟨e', he', hrest⟩ := hnormal.exists_not (n := n + 1) (by omega)
    rw [exprTransformN, hnormal.transformN (by omega)] at he'
    refine ⟨e', ?_, hrest.1, hrest.2.trans hleaves⟩
    rw [exprTransformN, hx]
    exact he'

/-- `expr_transform` -/
def exprTransform (K : Symbols σ) (e : Expr σ) : Expr σ := (exprTransformN K (6 * e.leaves + e.size + 2) e).getD e

theorem transformN_succ {n : ℕ} {e e' : Expr σ} (h : exprTransformN K n e = some e') :
    exprTransformN K (n + 1) e = some e' := by
  induction n generalizing e e' with
  | zero => cases h
  | succ n ih =>
    cases e with
    | symbol s => exact h
    | comp type s t => exact h
    | two j l r =>
      obtain ⟨l', hl, h⟩ := Option.bind_eq_some_iff.mp h
      obtain ⟨r', hr, h⟩ := Option.bind_eq_some_iff.mp h
      rw [exprTransformN, ih hl, ih hr]
      exact h
    | not e =>
      obtain ⟨x, hx, h⟩ := Option.bind_eq_some_iff.mp h
      rw [exprTransformN, ih hx, Option.bind_some]
      cases x with
      | symbol s => exact h
      | comp type s t => exact h
      | not a => exact ih h
      | two j a b => exact ih h

theorem transformN_of_le {n m : ℕ} {e e' : Expr σ} (h : exprTransformN K n e = some e') (hnm : n ≤ m) :
    exprTransformN K m e = some e' := by
  induction hnm with
  | refl => exact h
  | step hm ih => exact transformN_succ ih

/-- The transformation ends, with an expression of the same value where nothing is left to transform. -/
theorem exprTransform_spec (K : Symbols σ) (e : Expr σ) :
    (∀ n, 6 * e.leaves + e.size + 2 ≤ n → exprTransformN K n e = some (exprTransform K e)) ∧
      Normal K (exprTransform K e) ∧ (∀ V : Values K, (exprTransform K e).calcValue V = e.calcValue V) ∧
      exprTransform K (exprTransform K e) = exprTransform K e := by
  obtain ⟨e', he', hnormal, -⟩ := exists_transformN (K := K) (Nat.le_refl (6 * e.leaves + e.size + 2))
  have heq : exprTransform K e = e' := by rw [exprTransform, he', Option.getD_some]
  rw [heq]
  refine ⟨fun n hn => transformN_of_le he' hn, hnormal, fun V => calcValue_transformN V he', ?_⟩
  rw [exprTransform, hnormal.transformN (by omega), Option.getD_some]

end CargosBuildroot.Kconfig
