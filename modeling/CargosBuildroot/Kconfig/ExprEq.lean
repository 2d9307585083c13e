import CargosBuildroot.Kconfig.Expr

/-! `expr_eq` of `support/kconfig/expr.c` compares two expressions by taking from both of them what they
have in common. It ends for every two expressions, and expressions that it finds equal have one value
whatever the values of the symbols are. -/

namespace CargosBuildroot.Kconfig

open Shell Ternary

variable {σ τ : Type*} {K : Symbols σ}

/-! ### Pairs of operands -/

/-- One operand of a junction with each operand of the second expression. It stays a single operand, so
that it is not taken apart again. -/
def eachRight (j : Junction) (leaf : Expr σ → Expr σ → τ → Expr σ × Expr σ × τ) (e₁ : Expr σ) :
    Expr σ → τ → Expr σ × Expr σ × τ
  | .two i l r, t =>
    if i = j then
      let x := eachRight j leaf e₁ l t
      let y := eachRight j leaf x.1 r x.2.2
      (y.1, .two i x.2.1 y.2.1, y.2.2)
    else leaf e₁ (.two i l r) t
  | e₂, t => leaf e₁ e₂ t

/-- Each operand of a junction with each operand of another one: those of the first expression in the
outer loop. Both expressions change as this goes on. -/
def eachPair (j : Junction) (leaf : Expr σ → Expr σ → τ → Expr σ × Expr σ × τ) :
    Expr σ → Expr σ → τ → Expr σ × Expr σ × τ
  | .two i l r, e₂, t =>
    if i = j then
      let x := eachPair j leaf l e₂ t
      let y := eachPair j leaf r x.2.1 x.2.2
      (.two i x.1 y.1, y.2.1, y.2.2)
    else eachRight j leaf (.two i l r) e₂ t
  | e₁, e₂, t => eachRight j leaf e₁ e₂ t

variable [DecidableEq σ]

section

variable (K) (eq : Expr σ → Expr σ → Bool) (j : Junction)

/-- Two operands that are equal are replaced by the constant that changes nothing. -/
def eliminateLeaf (e₁ e₂ : Expr σ) (t : Unit) : Expr σ × Expr σ × Unit :=
  if e₁ = e₂ ∧ (e₁ = .symbol K.yes ∨ e₁ = .symbol K.no) then (e₁, e₂, t)
  else if eq e₁ e₂ then (.symbol (K.unit j), .symbol (K.unit j), t)
  else (e₁, e₂, t)

/-- `__expr_eliminate_eq` -/
def eliminateEq1 (e₁ e₂ : Expr σ) : Expr σ × Expr σ :=
  let x := eachPair j (eliminateLeaf K eq j) e₁ e₂ ()
  (x.1, x.2.1)

/-- `__expr_eliminate_eq` for the type of one of the expressions, if it is a junction. -/
def eliminateEqFor (e e₁ e₂ : Expr σ) : Expr σ × Expr σ :=
  match e with
  | .two j _ _ => eliminateEq1 K eq j e₁ e₂
  | _ => (e₁, e₂)

/-- `expr_eliminate_eq` -/
def eliminateEq (e₁ e₂ : Expr σ) : Expr σ × Expr σ :=
  let x := eliminateEqFor K eq e₁ e₁ e₂
  let y := if x.1.junction ≠ x.2.junction then eliminateEqFor K eq x.2 x.1 x.2 else x
  (exprEliminateYn K y.1, exprEliminateYn K y.2)

/-- Both of two expressions have become the same symbol. -/
def sameSymbol : Expr σ × Expr σ → Bool
  | (.symbol s, .symbol t) => s = t
  | _ => false

/-- `expr_eq`, for so many levels of operands. -/
def exprEqN : ℕ → Expr σ → Expr σ → Bool
  | _, .comp type s t, .comp type' s' t' => type = type' && s = s' && t = t'
  | _, .symbol s, .symbol t => s = t
  | n + 1, .not e, .not e' => exprEqN n e e'
  | n + 1, .two i l r, .two i' l' r' =>
    i = i' && sameSymbol (eliminateEq K (exprEqN n) (.two i l r) (.two i' l' r'))
  | _, _, _ => false

/-- `expr_eq` -/
def exprEq (e₁ e₂ : Expr σ) : Bool := exprEqN K e₁.size e₁ e₂

/-- `expr_eliminate_eq` -/
def exprEliminateEq (e₁ e₂ : Expr σ) : Expr σ × Expr σ := eliminateEq K (exprEq K) e₁ e₂

/-- Two operands that are equal are put on a list of such operands. -/
def extractLeaf (e₁ e₂ : Expr σ) (tmp : Option (Expr σ)) : Expr σ × Expr σ × Option (Expr σ) :=
  if exprEq K e₁ e₂ then
    (.symbol (K.unit j), .symbol (K.unit j), some (tmp.elim e₁ fun t => .two j t e₁))
  else (e₁, e₂, tmp)

/-- `expr_extract_eq_or` and `expr_extract_eq_and` -/
def exprExtractEq (e₁ e₂ : Expr σ) : Option (Expr σ) × Expr σ × Expr σ :=
  let x := eachPair j (extractLeaf K j) e₁ e₂ none
  match x.2.2 with
  | none => (none, x.1, x.2.1)
  | some tmp => (some tmp, exprEliminateYn K x.1, exprEliminateYn K x.2.1)

end

/-! ### Values -/

section

variable {V : Values K} {j : Junction} {leaf : Expr σ → Expr σ → τ → Expr σ × Expr σ × τ}

/-- What is done to two operands takes from both of them what they have in common. -/
def Shares (V : Values K) (j : Junction) (leaf : Expr σ → Expr σ → τ → Expr σ × Expr σ × τ) : Prop :=
  ∀ a b t, j.Common (a.calcValue V) (b.calcValue V) ((leaf a b t).1.calcValue V) ((leaf a b t).2.1.calcValue V)

omit [DecidableEq σ] in
theorem Shares.eachRight (h : Shares V j leaf) (e₁ e₂ : Expr σ) (t : τ) :
    j.Common (e₁.calcValue V) (e₂.calcValue V) ((eachRight j leaf e₁ e₂ t).1.calcValue V)
      ((eachRight j leaf e₁ e₂ t).2.1.calcValue V) := by
  induction e₂ generalizing e₁ t with
  | symbol s => exact h e₁ _ t
  | not e ih => exact h e₁ _ t
  | comp type a b => exact h e₁ _ t
  | two i l r ihl ihr =>
    rw [Kconfig.eachRight]
    split
    next hij =>
      subst hij
      exact ((ihl e₁ t).symm.op_left _).symm.trans ((ihr _ _).symm.op_right _).symm
    next => exact h e₁ _ t

omit [DecidableEq σ] in
theorem Shares.eachPair (h : Shares V j leaf) (e₁ e₂ : Expr σ) (t : τ) :
    j.Common (e₁.calcValue V) (e₂.calcValue V) ((eachPair j leaf e₁ e₂ t).1.calcValue V)
      ((eachPair j leaf e₁ e₂ t).2.1.calcValue V) := by
  induction e₁ generalizing e₂ t with
  | symbol s => exact h.eachRight _ e₂ t
  | not e ih => exact h.eachRight _ e₂ t
  | comp type a b => exact h.eachRight _ e₂ t
  | two i l r ihl ihr =>
    rw [Kconfig.eachPair]
    split
    next hij =>
      subst hij
      exact ((ihl e₂ t).op_left _).trans ((ihr _ _).op_right _)
    next => exact h.eachRight _ e₂ t

/-- A test that finds only expressions equal that have one value. -/
def EqSound (V : Values K) (eq : Expr σ → Expr σ → Bool) : Prop :=
  ∀ a b, eq a b = true → a.calcValue V = b.calcValue V

variable {eq : Expr σ → Expr σ → Bool}

theorem EqSound.eliminateLeaf (h : EqSound V eq) (j : Junction) : Shares V j (eliminateLeaf K eq j) := by
  intro a b t
  unfold Kconfig.eliminateLeaf
  split
  · exact .refl _ _
  split
  next heq =>
    rw [h a b heq, Expr.calcValue, V.tri_unit]
    exact Junction.common_self _
  · exact .refl _ _

/-- The two values come from two others by one function, which respects the order. -/
def Reduces (V : Values K) (x y : Expr σ × Expr σ) : Prop :=
  ∃ f : Tristate → Tristate, (∀ a b, a ≤ b → f a ≤ f b) ∧
    x.1.calcValue V = f (y.1.calcValue V) ∧ x.2.calcValue V = f (y.2.calcValue V)

omit [DecidableEq σ] in
theorem Reduces.refl (x : Expr σ × Expr σ) : Reduces V x x := ⟨id, fun _ _ h => h, rfl, rfl⟩

omit [DecidableEq σ] in
theorem Reduces.trans {x y z : Expr σ × Expr σ} (h : Reduces V x y) (hyz : Reduces V y z) : Reduces V x z := by
  obtain ⟨f, hf, h1, h2⟩ := h
  obtain ⟨g, hg, h1', h2'⟩ := hyz
  refine ⟨f ∘ g, fun a b hab => hf _ _ (hg a b hab), ?_, ?_⟩
  · rw [h1, h1', Function.comp]
  · rw [h2, h2', Function.comp]

theorem EqSound.eliminateEqFor (h : EqSound V eq) (e : Expr σ) (x : Expr σ × Expr σ) :
    Reduces V x (eliminateEqFor K eq e x.1 x.2) := by
  cases e with
  | symbol s => exact .refl x
  | not e => exact .refl x
  | comp type a b => exact .refl x
  | two j l r =>
    obtain ⟨c, h1, h2⟩ := (h.eliminateLeaf j).eachPair x.1 x.2 ()
    exact ⟨fun a => j.op a c, fun a b hab => Tristate.op_mono j hab c, h1, h2⟩

theorem EqSound.eliminateEq (h : EqSound V eq) (e₁ e₂ : Expr σ) :
    Reduces V (e₁, e₂) (eliminateEq K eq e₁ e₂) := by
  have hfirst := h.eliminateEqFor e₁ (e₁, e₂)
  unfold Kconfig.eliminateEq
  dsimp only at hfirst ⊢
  generalize Kconfig.eliminateEqFor K eq e₁ e₁ e₂ = x at hfirst ⊢
  have hyn : ∀ y : Expr σ × Expr σ, Reduces V y (exprEliminateYn K y.1, exprEliminateYn K y.2) :=
    fun y => ⟨id, fun _ _ h => h, (calcValue_eliminateYn V y.1).symm, (calcValue_eliminateYn V y.2).symm⟩
  split
  · exact (hfirst.trans (h.eliminateEqFor x.2 x)).trans (hyn _)
  · exact hfirst.trans (hyn _)

theorem eq_of_sameSymbol {x : Expr σ × Expr σ} (h : sameSymbol x = true) : x.1 = x.2 := by
  obtain ⟨a, b⟩ := x
  cases a <;> cases b <;> simp only [sameSymbol, Bool.false_eq_true, decide_eq_true_eq] at h
  rw [h]

theorem eqSound_exprEqN (n : ℕ) : EqSound V (exprEqN K n) := by
  induction n with
  | zero =>
    intro a b h
    cases a <;> cases b <;> simp only [exprEqN, Bool.false_eq_true] at h
    case symbol.symbol s t => rw [of_decide_eq_true h]
    case comp.comp type s t type' s' t' =>
      simp only [Bool.and_eq_true, decide_eq_true_eq] at h
      rw [h.1.1, h.1.2, h.2]
  | succ n ih =>
    intro a b h
    cases a <;> cases b <;> simp only [exprEqN, Bool.false_eq_true] at h
    case symbol.symbol s t => rw [of_decide_eq_true h]
    case not.not e e' => rw [Expr.calcValue, Expr.calcValue, ih e e' h]
    case comp.comp type s t type' s' t' =>
      simp only [Bool.and_eq_true, decide_eq_true_eq] at h
      rw [h.1.1, h.1.2, h.2]
    case two.two i l r i' l' r' =>
      obtain ⟨f, -, h1, h2⟩ := ih.eliminateEq (.two i l r) (.two i' l' r')
      rw [Bool.and_eq_true] at h
      rw [h1, h2, eq_of_sameSymbol h.2]

theorem eqSound_exprEq : EqSound V (exprEq K) := fun a b h => eqSound_exprEqN a.size a b h

theorem shares_extractLeaf (j : Junction) : Shares V j (extractLeaf K j) := by
  intro a b t
  unfold extractLeaf
  split
  next heq =>
    rw [eqSound_exprEq a b heq, Expr.calcValue, V.tri_unit]
    exact Junction.common_self _
  · exact .refl _ _

theorem common_exprExtractEq (V : Values K) (j : Junction) (e₁ e₂ : Expr σ) :
    j.Common (e₁.calcValue V) (e₂.calcValue V) ((exprExtractEq K j e₁ e₂).2.1.calcValue V)
      ((exprExtractEq K j e₁ e₂).2.2.calcValue V) := by
  have hpairs := (shares_extractLeaf j).eachPair (V := V) e₁ e₂ none
  unfold exprExtractEq
  dsimp only
  split
  · exact hpairs
  · dsimp only
    rw [calcValue_eliminateYn, calcValue_eliminateYn]
    exact hpairs

/-- If nothing is left of the second expression, then it is implied by the first one. -/
theorem le_of_exprEliminateEq (e₁ e₂ : Expr σ) (h : (exprEliminateEq K e₁ e₂).2 = .symbol K.yes)
    (V : Values K) : e₁.calcValue V ≤ e₂.calcValue V := by
  obtain ⟨f, hmono, h1, h2⟩ := eqSound_exprEq.eliminateEq (V := V) e₁ e₂
  dsimp only at h1 h2
  rw [h1, h2, ← exprEliminateEq, h, Expr.calcValue, V.tri_yes]
  exact hmono _ _ (Tristate.le_yes _)

end

/-! ### The levels of operands -/

section

variable {leaf leaf' : Expr σ → Expr σ → τ → Expr σ × Expr σ × τ} {j : Junction} {n : ℕ}

omit [DecidableEq σ] in
theorem eachRight_congr (h : ∀ a b t, a.size ≤ n → leaf a b t = leaf' a b t)
    (hsize : ∀ a b t, a.size ≤ n → (leaf a b t).1.size ≤ n) {e₁ : Expr σ} (he : e₁.size ≤ n) (e₂ : Expr σ) (t : τ) :
    eachRight j leaf e₁ e₂ t = eachRight j leaf' e₁ e₂ t ∧ (eachRight j leaf e₁ e₂ t).1.size ≤ n := by
  induction e₂ generalizing e₁ t with
  | symbol s => exact ⟨h e₁ _ t he, hsize e₁ _ t he⟩
  | not e ih => exact ⟨h e₁ _ t he, hsize e₁ _ t he⟩
  | comp type a b => exact ⟨h e₁ _ t he, hsize e₁ _ t he⟩
  | two i l r ihl ihr =>
    rw [eachRight, eachRight]
    split
    next =>
      obtain ⟨hl, hlsize⟩ := ihl he t
      obtain ⟨hr, hrsize⟩ := ihr hlsize (eachRight j leaf e₁ l t).2.2
      exact ⟨by dsimp only; rw [← hl, ← hr], hrsize⟩
    next => exact ⟨h e₁ _ t he, hsize e₁ _ t he⟩

omit [DecidableEq σ] in
theorem eachPair_congr (h : ∀ a b t, a.size ≤ n → leaf a b t = leaf' a b t)
    (hsize : ∀ a b t, a.size ≤ n → (leaf a b t).1.size ≤ n) {e₁ : Expr σ} (he : e₁.size ≤ n) (e₂ : Expr σ) (t : τ) :
    eachPair j leaf e₁ e₂ t = eachPair j leaf' e₁ e₂ t := by
  induction e₁ generalizing e₂ t with
  | symbol s => exact (eachRight_congr h hsize he e₂ t).1
  | not e ih => exact (eachRight_congr h hsize he e₂ t).1
  | comp type a b => exact (eachRight_congr h hsize he e₂ t).1
  | two i l r ihl ihr =>
    rw [eachPair, eachPair]
    split
    next =>
      rw [Expr.size] at he
      dsimp only
      rw [ihl (by omega), ihr (by omega)]
    next => exact (eachRight_congr h hsize he e₂ t).1

omit [DecidableEq σ] in
theorem junction_eachRight (e₁ e₂ : Expr σ) (t : τ) (h : e₂.junction = some j) :
    (eachRight j leaf e₁ e₂ t).2.1.junction = some j := by
  cases e₂ with
  | two i l r =>
    obtain rfl := Option.some.inj h
    rw [eachRight, if_pos rfl]
    rfl
  | symbol s => cases h
  | not e => cases h
  | comp type a b => cases h

omit [DecidableEq σ] in
theorem junction_eachPair (e₁ e₂ : Expr σ) (t : τ) (h : e₂.junction = some j) :
    (eachPair j leaf e₁ e₂ t).2.1.junction = some j := by
  induction e₁ generalizing e₂ t with
  | symbol s => exact junction_eachRight _ e₂ t h
  | not e ih => exact junction_eachRight _ e₂ t h
  | comp type a b => exact junction_eachRight _ e₂ t h
  | two i l r ihl ihr =>
    rw [eachPair]
    split
    next => exact ihr _ _ (ihl e₂ t h)
    next => exact junction_eachRight _ e₂ t h

variable {eq eq' : Expr σ → Expr σ → Bool}

theorem eliminateLeaf_congr (heq : ∀ a b, a.size ≤ n → eq a b = eq' a b) {a : Expr σ} (b : Expr σ) (t : Unit)
    (ha : a.size ≤ n) : eliminateLeaf K eq j a b t = eliminateLeaf K eq' j a b t ∧
      (eliminateLeaf K eq j a b t).1.size ≤ n := by
  unfold eliminateLeaf
  rw [heq a b ha]
  have hpos := a.size_pos
  split
  · exact ⟨rfl, ha⟩
  split
  · exact ⟨rfl, by simp only [Expr.size]; omega⟩
  · exact ⟨rfl, ha⟩

/-- The operands of a junction are compared, and not the junction itself. -/
theorem eliminateEq_congr (heq : ∀ a b, a.size ≤ n → eq a b = eq' a b) {l r l' r' : Expr σ}
    (hl : l.size ≤ n) (hr : r.size ≤ n) :
    eliminateEq K eq (.two j l r) (.two j l' r') = eliminateEq K eq' (.two j l r) (.two j l' r') := by
  have hfirst : eliminateEqFor K eq (.two j l r) (.two j l r) (.two j l' r') =
      eliminateEqFor K eq' (.two j l r) (.two j l r) (.two j l' r') := by
    have hleaf : ∀ (a b : Expr σ) (t : Unit), a.size ≤ n →
        eliminateLeaf K eq j a b t = eliminateLeaf K eq' j a b t :=
      fun a b t ha => (eliminateLeaf_congr heq b t ha).1
    have hsize : ∀ (a b : Expr σ) (t : Unit), a.size ≤ n → (eliminateLeaf K eq j a b t).1.size ≤ n :=
      fun a b t ha => (eliminateLeaf_congr heq b t ha).2
    rw [eliminateEqFor, eliminateEqFor, eliminateEq1, eliminateEq1, eachPair, eachPair, if_pos rfl, if_pos rfl]
    dsimp only
    rw [eachPair_congr hleaf hsize hl, eachPair_congr hleaf hsize hr]
  have hjunction : (eliminateEqFor K eq' (.two j l r) (.two j l r) (.two j l' r')).1.junction =
      (eliminateEqFor K eq' (.two j l r) (.two j l r) (.two j l' r')).2.junction := by
    have hright : (eachPair j (eliminateLeaf K eq' j) (.two j l r) (.two j l' r') ()).2.1.junction = some j :=
      junction_eachPair _ _ () rfl
    rw [eliminateEqFor, eliminateEq1]
    dsimp only
    rw [hright, eachPair, if_pos rfl]
    rfl
  unfold eliminateEq
  dsimp only
  rw [hfirst, if_neg (not_not.mpr hjunction), if_neg (not_not.mpr hjunction)]

theorem exprEqN_congr (n m : ℕ) (a b : Expr σ) (hn : a.size ≤ n) (hm : a.size ≤ m) :
    exprEqN K n a b = exprEqN K m a b := by
  induction n generalizing m a b with
  | zero => exact absurd a.size_pos (by omega)
  | succ n ih =>
    obtain _ | m := m
    · exact absurd a.size_pos (by omega)
    cases a <;> cases b <;> simp only [exprEqN]
    case not.not e e' =>
      rw [Expr.size] at hn hm
      exact ih m e e' (by omega) (by omega)
    case two.two i l r i' l' r' =>
      by_cases hi : i = i'
      · subst hi
        rw [Expr.size] at hn hm
        have hoperands : ∀ a b : Expr σ, a.size ≤ l.size + r.size → exprEqN K n a b = exprEqN K m a b :=
          fun a b ha => ih m a b (by omega) (by omega)
        rw [eliminateEq_congr hoperands (by omega) (by omega)]
      · rw [decide_eq_false hi, Bool.false_and, Bool.false_and]

/-- The recursion of the source: there are levels enough for every two expressions. -/
theorem exprEq_two (i i' : Junction) (l r l' r' : Expr σ) : exprEq K (.two i l r) (.two i' l' r') =
    (decide (i = i') && sameSymbol (exprEliminateEq K (.two i l r) (.two i' l' r'))) := by
  by_cases hi : i = i'
  · subst hi
    have hoperands : ∀ a b : Expr σ, a.size ≤ l.size + r.size →
        exprEqN K (l.size + r.size) a b = exprEq K a b :=
      fun a b ha => exprEqN_congr (l.size + r.size) a.size a b ha (Nat.le_refl _)
    rw [exprEq, Expr.size, exprEqN, exprEliminateEq,
      eliminateEq_congr hoperands (Nat.le_add_right _ _) (Nat.le_add_left _ _)]
  · rw [exprEq, Expr.size, exprEqN, decide_eq_false hi, Bool.false_and, Bool.false_and]

theorem exprEq_not (a b : Expr σ) : exprEq K (.not a) (.not b) = exprEq K a b := by
  rw [exprEq, Expr.size, exprEqN, exprEq]

end

/-- Expressions that are found equal have one value. -/
theorem exprEq_spec {a b : Expr σ} (h : exprEq K a b = true) (V : Values K) : a.calcValue V = b.calcValue V :=
  eqSound_exprEq a b h

/-- The three constants, and boolean symbols. -/
def sampleSymbols : Symbols ℕ where
  yes := 0
  mod := 1
  no := 2
  type s := if s < 3 then .unknown else .boolean
  isConst s := decide (s < 3)
  yes_ne_mod := by decide
  yes_ne_no := by decide
  mod_ne_no := by decide
  type_yes := rfl
  type_mod := rfl
  type_no := rfl

/-- The operands of both junctions are in another order. -/
theorem exprEq_spec_swapped :
    exprEq sampleSymbols (.two .or (.two .and (.symbol 3) (.symbol 4)) (.symbol 5))
        (.two .or (.symbol 5) (.two .and (.symbol 4) (.symbol 3))) = true ∧
      ∀ V : Values sampleSymbols,
        (Expr.two .or (.two .and (.symbol 3) (.symbol 4)) (.symbol 5)).calcValue V =
          (Expr.two .or (.symbol 5) (.two .and (.symbol 4) (.symbol 3))).calcValue V :=
  ⟨by decide, exprEq_spec (by decide)⟩

end CargosBuildroot.Kconfig
