import CargosBuildroot.Kconfig.Eliminated

/-! `expr_trans_compare` and `expr_trans_bool` of `support/kconfig/expr.c`, and the test of `menu_finalize`
whether an entry is put below the symbol in front of it. -/

namespace CargosBuildroot.Kconfig

open Shell Ternary

variable {σ : Type*} {K : Symbols σ}

/-- The three constants. -/
def Symbols.const (K : Symbols σ) : Tristate → σ
  | .no => K.no
  | .mod => K.mod
  | .yes => K.yes

variable (K) in
/-- `expr_trans_compare`, for the three constants. -/
def exprTransCompare (c : Tristate) : Comparison → Expr σ → Expr σ
  | type, .two j l r =>
    let e₁ := exprTransCompare c .equal l
    let e₂ := exprTransCompare c .equal r
    let e := match c with
      | .yes => .two j e₁ e₂
      | .mod => .two j l r
      | .no => .two j.dual e₁ e₂
    match type with
    | .equal => e
    | .unequal => .not e
  | type, .not e => exprTransCompare c type.flip e
  | .equal, .comp type s t =>
    match c with
    | .yes => .comp type s t
    | .mod => .symbol K.no
    | .no => .not (.comp type s t)
  | .unequal, .comp type s t =>
    match c with
    | .yes => .not (.comp type s t)
    | .mod => .symbol K.yes
    | .no => .comp type s t
  | type, .symbol s => .comp type s (K.const c)

variable (K) in
/-- `expr_trans_compare` where the expression may be missing. -/
def transCompareDep (c : Tristate) (type : Comparison) : Option (Expr σ) → Expr σ
  | some e => exprTransCompare K c type e
  | none =>
    match type with
    | .equal => .symbol (K.const c)
    | .unequal => .not (.symbol (K.const c))

/-- Symbols stand in it for their tristate value, and nothing that is negated is `m`. -/
def Expr.Logical (V : Values K) : Expr σ → Prop
  | .symbol s => V.text s = tristateText (V.tri s)
  | .not e => e.Logical V ∧ e.calcValue V ≠ .mod
  | .comp _ _ _ => True
  | .two _ l r => l.Logical V ∧ r.Logical V

variable {V : Values K}

theorem Values.tri_const (V : Values K) (c : Tristate) : V.tri (K.const c) = c := by
  cases c
  · exact V.tri_no
  · exact V.tri_mod
  · exact V.tri_yes

theorem Values.text_const (V : Values K) (c : Tristate) : V.text (K.const c) = tristateText c := by
  cases c
  · exact V.text_no
  · exact V.text_mod
  · exact V.text_yes

theorem Comparison.holds_ne_mod (type : Comparison) (s t : Text) : type.holds s t ≠ .mod := by
  cases type <;> rw [holds, Tristate.of] <;> split <;> decide

/-- The comparison of the value. -/
theorem calcValue_transCompare {e : Expr σ} (h : e.Logical V) {c : Tristate} (hc : c ≠ .mod)
    (type : Comparison) :
    (exprTransCompare K c type e).calcValue V =
      type.holds (tristateText (e.calcValue V)) (tristateText c) := by
  induction e generalizing type with
  | symbol s =>
    rw [Expr.Logical] at h
    cases type <;> rw [exprTransCompare, Expr.calcValue, Expr.calcValue, h, V.text_const]
  | not e ih =>
    have hvalue := ih h.1 type.flip
    have hmod := h.2
    cases type <;> rw [exprTransCompare, hvalue, Expr.calcValue] <;>
      generalize e.calcValue V = a at hmod <;>
      cases a <;> cases c <;> first | exact absurd rfl hc | exact absurd rfl hmod | rfl
  | comp type' s t =>
    have hmod := type'.holds_ne_mod (V.text s) (V.text t)
    rw [Expr.calcValue]
    cases type <;> cases c <;> rw [exprTransCompare] <;> simp only [Expr.calcValue] <;>
      generalize type'.holds (V.text s) (V.text t) = a at hmod <;>
      cases a <;> first | exact absurd rfl hc | exact absurd rfl hmod | rfl
  | two j l r ihl ihr =>
    have hl := ihl h.1 .equal
    have hr := ihr h.2 .equal
    cases type <;> cases c <;> rw [exprTransCompare] <;> simp only [Expr.calcValue, hl, hr] <;>
      generalize l.calcValue V = a <;> generalize r.calcValue V = b <;>
      cases j <;> cases a <;> cases b <;> first | exact absurd rfl hc | rfl

/-- The comparison is yes or no. -/
theorem calcValue_transCompareDep {e : Option (Expr σ)} (h : ∀ e' ∈ e, e'.Logical V) :
    (transCompareDep K .no .unequal e).calcValue V = .of (calcDep V e ≠ .no) := by
  cases e with
  | none =>
    rw [transCompareDep, Expr.calcValue, Expr.calcValue, V.tri_const]
    rfl
  | some e =>
    rw [transCompareDep, calcValue_transCompare (h e rfl) (by decide), calcDep]
    cases e.calcValue V <;> rfl

/-! ### Symbols in an expression -/

variable [DecidableEq σ]

/-- An expression that depends on a symbol is `n` if the symbol is. -/
theorem calcValue_of_depends {e : Expr σ} {sym : σ} (h : exprDependsSymbol K sym e = true)
    (htext : V.text sym = tristateText (V.tri sym)) (hno : V.tri sym = .no) : e.calcValue V = .no := by
  induction e with
  | symbol s =>
    rw [exprDependsSymbol, decide_eq_true_eq] at h
    rw [Expr.calcValue, h, hno]
  | not e ih => cases h
  | comp type s t =>
    rw [hno] at htext
    cases type with
    | equal =>
      rw [exprDependsSymbol, Bool.and_eq_true, decide_eq_true_eq, Bool.or_eq_true, decide_eq_true_eq,
        decide_eq_true_eq] at h
      obtain ⟨rfl, rfl | rfl⟩ := h
      · rw [Expr.calcValue, htext, V.text_yes]
        rfl
      · rw [Expr.calcValue, htext, V.text_mod]
        rfl
    | unequal =>
      rw [exprDependsSymbol, Bool.and_eq_true, decide_eq_true_eq, decide_eq_true_eq] at h
      obtain ⟨rfl, rfl⟩ := h
      rw [Expr.calcValue, htext, V.text_no]
      rfl
  | two j l r ihl ihr =>
    cases j with
    | or => cases h
    | and =>
      rw [exprDependsSymbol, Bool.or_eq_true] at h
      rw [Expr.calcValue]
      rcases h with h | h
      · rw [ihl h]
        exact Junction.zero_op .and _
      · rw [ihr h]
        exact Junction.op_zero .and _

/-! ### Entries below a symbol -/

variable (K) in
/-- What an entry below the symbol is tested against: the condition of the prompt. -/
def promptShown (prompt : Option (Expr σ)) : Expr σ :=
  exprEliminateDups K (exprTransform K (transCompareDep K .no .unequal prompt))

variable (K) in
/-- The test of `menu_finalize`: the symbol is part of the condition of an entry, and the entry depends on
the symbol, or its condition implies that the prompt of the symbol is shown. -/
def isSubEntry (sym : σ) (prompt : Option (Expr σ)) : Option (Expr σ) → Bool
  | none => false
  | some dep =>
    dep.containsSymbol sym && (exprDependsSymbol K sym dep ||
      decide ((exprEliminateEq K (promptShown K (some dep)) (promptShown K prompt)).2 = .symbol K.yes))

theorem calcValue_promptShown {e : Option (Expr σ)} (h : ∀ e' ∈ e, e'.Logical V) :
    (promptShown K e).calcValue V = .of (calcDep V e ≠ .no) := by
  have htransform := (exprTransform_spec K (transCompareDep K .no .unequal e)).2.2.1 V
  rw [calcValue_transCompareDep h] at htransform
  have hmod : Tristate.of (calcDep V e ≠ .no) ≠ .mod := by
    rw [Tristate.of]
    split <;> decide
  have hdups := (exprEliminateDups_spec K (exprTransform K (transCompareDep K .no .unequal e))).2.1 V
  rw [htransform] at hdups
  exact hdups hmod

/-- An entry that is put below a symbol is hidden wherever the symbol is off, or wherever its prompt is
hidden. -/
theorem hidden_of_isSubEntry {sym : σ} {prompt : Option (Expr σ)} {dep : Expr σ}
    (h : isSubEntry K sym prompt (some dep) = true) :
    (∀ V : Values K, V.text sym = tristateText (V.tri sym) → V.tri sym = .no → dep.calcValue V = .no) ∨
      ∀ V : Values K, dep.Logical V → (∀ e ∈ prompt, e.Logical V) → calcDep V prompt = .no →
        dep.calcValue V = .no := by
  rw [isSubEntry, Bool.and_eq_true, Bool.or_eq_true, decide_eq_true_eq] at h
  rcases h.2 with hdepends | himplied
  · exact .inl fun V htext hoff => calcValue_of_depends hdepends htext hoff
  · refine .inr fun V hdep hprompt hhidden => ?_
    have hle := le_of_exprEliminateEq _ _ himplied V
    have hsome : ∀ e' ∈ some dep, e'.Logical V := by
      intro e' he'
      rwa [← Option.some.inj he']
    rw [calcValue_promptShown hsome, calcValue_promptShown hprompt, hhidden, calcDep] at hle
    generalize dep.calcValue V = a at hle
    cases a
    · rfl
    · exact absurd hle (by decide)
    · exact absurd hle (by decide)

/-- Values of the symbols of a sample. -/
def sampleTri (on : ℕ → Bool) : ℕ → Tristate
  | 0 => .yes
  | 1 => .mod
  | 2 => .no
  | n + 3 => if on n then .yes else .no

theorem sampleTri_ne_mod (on : ℕ → Bool) {s : ℕ} (hs : s ≠ 1) : sampleTri on s ≠ .mod := by
  rcases s with _ | _ | _ | n
  · exact fun h => by cases h
  · exact absurd rfl hs
  · exact fun h => by cases h
  · rw [sampleTri]
    split <;> decide

def sampleValues (on : ℕ → Bool) : Values sampleSymbols where
  tri := sampleTri on
  text s := tristateText (sampleTri on s)
  tri_yes := rfl
  tri_mod := rfl
  tri_no := rfl
  text_yes := rfl
  text_mod := rfl
  text_no := rfl
  text_eq _ _ := rfl
  boolean s hs := by
    refine sampleTri_ne_mod on ?_
    rintro rfl
    cases hs
  const s t hs ht h := by
    have hs' : s < 3 := of_decide_eq_true hs
    have ht' : t < 3 := of_decide_eq_true ht
    have htri := tristateText_injective h
    rcases s with _ | _ | _ | s <;> rcases t with _ | _ | _ | t <;> first | rfl | omega | cases htri

/-- The prompt of a symbol needs another symbol, and the entry needs that one too. -/
theorem hidden_of_isSubEntry_implied :
    isSubEntry sampleSymbols 3 (some (.symbol 4)) (some (.two .and (.symbol 4) (.not (.symbol 3)))) = true ∧
      ((∀ V : Values sampleSymbols, V.text 3 = tristateText (V.tri 3) → V.tri 3 = .no →
          (Expr.two .and (.symbol 4) (.not (.symbol 3))).calcValue V = .no) ∨
        ∀ V : Values sampleSymbols, (Expr.two .and (.symbol 4) (.not (.symbol 3))).Logical V →
          (∀ e ∈ some (Expr.symbol 4), e.Logical V) → calcDep V (some (.symbol 4)) = .no →
          (Expr.two .and (.symbol 4) (.not (.symbol 3))).calcValue V = .no) :=
  ⟨by decide, hidden_of_isSubEntry (by decide)⟩

end CargosBuildroot.Kconfig
