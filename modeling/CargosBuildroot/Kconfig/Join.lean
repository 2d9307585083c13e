import CargosBuildroot.Kconfig.ExprEq

/-! `expr_join_or` and `expr_join_and` of `support/kconfig/expr.c` find one expression for two operands.
It has the value of the two operands joined. -/

namespace CargosBuildroot.Kconfig

open Shell Ternary

variable {σ : Type*} [DecidableEq σ] {K : Symbols σ}

/-- The symbol that the first operand is about. -/
def joinSymbol₁ : Expr σ → Option σ
  | .symbol s | .comp _ s _ | .not (.symbol s) | .not (.comp _ s _) => some s
  | _ => none

/-- The symbol that the second operand is about. It is not looked for in a negated comparison. -/
def joinSymbol₂ : Expr σ → Option σ
  | .symbol s | .comp _ s _ | .not (.symbol s) => some s
  | _ => none

/-- A comparison with that symbol on its right. -/
def Expr.compares (type : Comparison) (t : σ) : Expr σ → Bool
  | .comp type' _ t' => type = type' && t = t'
  | _ => false

/-- The symbol on the right of a comparison. -/
def Expr.right (type : Comparison) : Expr σ → Option σ
  | .comp type' _ t => if type = type' then some t else none
  | _ => none

def Expr.isSymbol : Expr σ → Bool
  | .symbol _ => true
  | _ => false

def Expr.isNotSymbol : Expr σ → Bool
  | .not (.symbol _) => true
  | _ => false

/-- Comparisons with two symbols, in either order. -/
def compareBoth (type : Comparison) (s t : σ) (e₁ e₂ : Expr σ) : Bool :=
  (e₁.compares type s && e₂.compares type t) || (e₁.compares type t && e₂.compares type s)

/-- A symbol and a comparison, in either order. -/
def symbolCompares (type : Comparison) (t : σ) (e₁ e₂ : Expr σ) : Bool :=
  (e₁.isSymbol && e₂.compares type t) || (e₂.isSymbol && e₁.compares type t)

variable (K) in
/-- The symbol that both operands are about, if it is boolean or tristate. -/
def joinSymbol (e₁ e₂ : Expr σ) : Option σ :=
  match joinSymbol₁ e₁, joinSymbol₂ e₂ with
  | some s, some t => if s = t ∧ (K.type s = .boolean ∨ K.type s = .tristate) then some s else none
  | _, _ => none

variable (K) in
/-- `expr_join_or` -/
def exprJoinOr (e₁ e₂ : Expr σ) : Option (Expr σ) :=
  if exprEq K e₁ e₂ then some e₁
  else (joinSymbol K e₁ e₂).bind fun s =>
    if K.type s = .tristate then
      if compareBoth .equal K.yes K.mod e₁ e₂ then some (.comp .unequal s K.no)
      else if compareBoth .equal K.yes K.no e₁ e₂ then some (.comp .unequal s K.mod)
      else if compareBoth .equal K.mod K.no e₁ e₂ then some (.comp .unequal s K.yes)
      else none
    else if (e₁.isNotSymbol && e₂.isSymbol) || (e₂.isNotSymbol && e₁.isSymbol) then some (.symbol K.yes)
    else none

variable (K) in
/-- `(a='b') && (a!='c')`, for constants. -/
def joinConstants (s : σ) (b c : Option σ) : Option (Expr σ) :=
  match b, c with
  | some b, some c =>
    if K.isConst c = true ∧ K.isConst b = true then
      some (if b ≠ c then .comp .equal s b else .symbol K.no)
    else none
  | _, _ => none

variable (K) in
/-- `expr_join_and` -/
def exprJoinAnd (e₁ e₂ : Expr σ) : Option (Expr σ) :=
  if exprEq K e₁ e₂ then some e₁
  else (joinSymbol K e₁ e₂).bind fun s =>
    if symbolCompares .equal K.yes e₁ e₂ then some (.comp .equal s K.yes)
    else if symbolCompares .unequal K.no e₁ e₂ then some (.symbol s)
    else if symbolCompares .unequal K.mod e₁ e₂ then some (.comp .equal s K.yes)
    else if K.type s = .tristate then
      (joinConstants K s (e₁.right .equal) (e₂.right .unequal)).or
        ((joinConstants K s (e₂.right .equal) (e₁.right .unequal)).or
          (if compareBoth .unequal K.yes K.no e₁ e₂ then some (.comp .equal s K.mod)
          else if compareBoth .unequal K.yes K.mod e₁ e₂ then some (.comp .equal s K.no)
          else if compareBoth .unequal K.mod K.no e₁ e₂ then some (.comp .equal s K.yes)
          else none))
    else none

variable (K) in
def exprJoin : Junction → Expr σ → Expr σ → Option (Expr σ)
  | .or => exprJoinOr K
  | .and => exprJoinAnd K

/-! ### The operands -/

variable {e e₁ e₂ : Expr σ} {s t : σ} {type : Comparison}

theorem joinSymbol_some (h : joinSymbol K e₁ e₂ = some s) : joinSymbol₁ e₁ = some s ∧ joinSymbol₂ e₂ = some s ∧
    (K.type s = .boolean ∨ K.type s = .tristate) := by
  unfold joinSymbol at h
  split at h
  next a b h1 h2 =>
    split at h
    next hab =>
      obtain rfl := Option.some.inj h
      exact ⟨h1, h2.trans (by rw [hab.1]), hab.2⟩
    · cases h
  · cases h

theorem eq_of_compares₁ (hs : joinSymbol₁ e = some s) (h : e.compares type t = true) : e = .comp type s t := by
  cases e with
  | comp type' s' t' =>
    obtain rfl := Option.some.inj hs
    simp only [Expr.compares, Bool.and_eq_true, decide_eq_true_eq] at h
    rw [h.1, h.2]
  | symbol s' => cases h
  | not e => cases h
  | two j l r => cases h

theorem eq_of_compares₂ (hs : joinSymbol₂ e = some s) (h : e.compares type t = true) : e = .comp type s t := by
  refine eq_of_compares₁ ?_ h
  cases e with
  | comp type' s' t' => exact hs
  | symbol s' => cases h
  | not e => cases h
  | two j l r => cases h

omit [DecidableEq σ] in
theorem eq_of_isSymbol₁ (hs : joinSymbol₁ e = some s) (h : e.isSymbol = true) : e = .symbol s := by
  cases e with
  | symbol s' => rw [Option.some.inj hs]
  | comp type' s' t' => cases h
  | not e => cases h
  | two j l r => cases h

omit [DecidableEq σ] in
theorem eq_of_isSymbol₂ (hs : joinSymbol₂ e = some s) (h : e.isSymbol = true) : e = .symbol s := by
  cases e with
  | symbol s' => rw [Option.some.inj hs]
  | comp type' s' t' => cases h
  | not e => cases h
  | two j l r => cases h

omit [DecidableEq σ] in
theorem eq_of_isNotSymbol₁ (hs : joinSymbol₁ e = some s) (h : e.isNotSymbol = true) : e = .not (.symbol s) := by
  unfold Expr.isNotSymbol at h
  split at h
  · rw [Option.some.inj hs]
  · cases h

omit [DecidableEq σ] in
theorem eq_of_isNotSymbol₂ (hs : joinSymbol₂ e = some s) (h : e.isNotSymbol = true) : e = .not (.symbol s) := by
  unfold Expr.isNotSymbol at h
  split at h
  · rw [Option.some.inj hs]
  · cases h

omit [DecidableEq σ] in
theorem eq_of_right₁ (hs : joinSymbol₁ e = some s) (h : e.right type = some t) : e = .comp type s t := by
  cases e with
  | comp type' s' t' =>
    obtain rfl := Option.some.inj hs
    rw [Expr.right] at h
    split at h
    next htype => rw [Option.some.inj h, htype]
    · cases h
  | symbol s' => cases h
  | not e => cases h
  | two j l r => cases h

omit [DecidableEq σ] in
theorem eq_of_right₂ (hs : joinSymbol₂ e = some s) (h : e.right type = some t) : e = .comp type s t := by
  refine eq_of_right₁ ?_ h
  cases e with
  | comp type' s' t' => exact hs
  | symbol s' => cases h
  | not e => cases h
  | two j l r => cases h

/-! ### Values -/

section

variable {V : Values K} {j : Junction} {b c : σ} (h : joinSymbol K e₁ e₂ = some s)
include h

theorem op_compareBoth (hboth : compareBoth type b c e₁ e₂ = true) : j.op (e₁.calcValue V) (e₂.calcValue V) =
    j.op (type.holds (tristateText (V.tri s)) (V.text b)) (type.holds (tristateText (V.tri s)) (V.text c)) := by
  obtain ⟨h1, h2, htype⟩ := joinSymbol_some h
  rw [compareBoth, Bool.or_eq_true, Bool.and_eq_true, Bool.and_eq_true] at hboth
  rcases hboth with ⟨hb, hc⟩ | ⟨hc, hb⟩
  · rw [eq_of_compares₁ h1 hb, eq_of_compares₂ h2 hc, Expr.calcValue, Expr.calcValue, V.text_eq s htype]
  · rw [eq_of_compares₁ h1 hc, eq_of_compares₂ h2 hb, Expr.calcValue, Expr.calcValue, V.text_eq s htype,
      Junction.op_comm]

theorem op_symbolCompares (hboth : symbolCompares type b e₁ e₂ = true) :
    j.op (e₁.calcValue V) (e₂.calcValue V) =
      j.op (V.tri s) (type.holds (tristateText (V.tri s)) (V.text b)) := by
  obtain ⟨h1, h2, htype⟩ := joinSymbol_some h
  rw [symbolCompares, Bool.or_eq_true, Bool.and_eq_true, Bool.and_eq_true] at hboth
  rcases hboth with ⟨hs, hb⟩ | ⟨hs, hb⟩
  · rw [eq_of_isSymbol₁ h1 hs, eq_of_compares₂ h2 hb, Expr.calcValue, Expr.calcValue, V.text_eq s htype]
  · rw [eq_of_isSymbol₂ h2 hs, eq_of_compares₁ h1 hb, Expr.calcValue, Expr.calcValue, V.text_eq s htype,
      Junction.op_comm]

end

theorem calcValue_joinOr (V : Values K) (h : exprJoinOr K e₁ e₂ = some e) :
    e.calcValue V = Junction.or.op (e₁.calcValue V) (e₂.calcValue V) := by
  unfold exprJoinOr at h
  split at h
  next heq =>
    obtain rfl := Option.some.inj h
    rw [← eqSound_exprEq (V := V) e₁ e₂ heq, Junction.op_self]
  obtain ⟨s, hs, h⟩ := Option.bind_eq_some_iff.mp h
  obtain ⟨h1, h2, htype⟩ := joinSymbol_some hs
  split at h
  next htristate =>
    split at h
    next hboth =>
      obtain rfl := Option.some.inj h
      rw [op_compareBoth hs hboth, Expr.calcValue, V.text_eq s htype, V.text_yes, V.text_mod, V.text_no]
      cases V.tri s <;> decide
    split at h
    next hboth =>
      obtain rfl := Option.some.inj h
      rw [op_compareBoth hs hboth, Expr.calcValue, V.text_eq s htype, V.text_yes, V.text_mod, V.text_no]
      cases V.tri s <;> decide
    split at h
    next hboth =>
      obtain rfl := Option.some.inj h
      rw [op_compareBoth hs hboth, Expr.calcValue, V.text_eq s htype, V.text_yes, V.text_mod, V.text_no]
      cases V.tri s <;> decide
    · cases h
  next htristate =>
    split at h
    next hboth =>
      obtain rfl := Option.some.inj h
      have hmod := V.boolean s (htype.resolve_right htristate)
      rw [Expr.calcValue, V.tri_yes]
      rw [Bool.or_eq_true, Bool.and_eq_true, Bool.and_eq_true] at hboth
      rcases hboth with ⟨hn, hp⟩ | ⟨hn, hp⟩
      · rw [eq_of_isNotSymbol₁ h1 hn, eq_of_isSymbol₂ h2 hp]
        simp only [Expr.calcValue]
        generalize V.tri s = a at hmod
        cases a <;> first | rfl | exact absurd rfl hmod
      · rw [eq_of_isNotSymbol₂ h2 hn, eq_of_isSymbol₁ h1 hp]
        simp only [Expr.calcValue]
        generalize V.tri s = a at hmod
        cases a <;> first | rfl | exact absurd rfl hmod
    · cases h

theorem holds_unequal_of_ne {x y : Text} (h : x ≠ y) : Comparison.unequal.holds x y = .yes := if_pos h

theorem holds_equal_of_ne {x y : Text} (h : x ≠ y) : Comparison.equal.holds x y = .no := if_neg h

/-- The value of `(a='b') && (a!='c')`. -/
theorem calcValue_joinConstants (V : Values K) {b c : Option σ} (h : joinConstants K s b c = some e) :
    ∃ b' c', b = some b' ∧ c = some c' ∧ e.calcValue V =
      Junction.and.op (Comparison.equal.holds (V.text s) (V.text b'))
        (Comparison.unequal.holds (V.text s) (V.text c')) := by
  unfold joinConstants at h
  split at h
  next b c =>
    refine ⟨b, c, rfl, rfl, ?_⟩
    split at h
    next hconst =>
      obtain rfl := Option.some.inj h
      split
      next hbc =>
        -- a text that is one of two constants is not the other one
        have htext : V.text b ≠ V.text c := fun htext => hbc (V.const b c hconst.2 hconst.1 htext)
        rw [Expr.calcValue]
        by_cases hb : V.text s = V.text b
        · have hc : V.text s ≠ V.text c := fun hc => htext (hb.symm.trans hc)
          rw [holds_unequal_of_ne hc]
          exact (Junction.op_unit .and _).symm
        · rw [holds_equal_of_ne hb]
          exact (Junction.zero_op .and _).symm
      next hbc =>
        obtain rfl := not_not.mp hbc
        have hflip := Comparison.holds_flip .equal (V.text s) (V.text b)
        rw [Comparison.flip] at hflip
        rw [Expr.calcValue, V.tri_no, hflip, Comparison.holds, Tristate.of]
        split <;> rfl
    · cases h
  · cases h

theorem calcValue_joinAnd (V : Values K) (h : exprJoinAnd K e₁ e₂ = some e) :
    e.calcValue V = Junction.and.op (e₁.calcValue V) (e₂.calcValue V) := by
  unfold exprJoinAnd at h
  split at h
  next heq =>
    obtain rfl := Option.some.inj h
    rw [← eqSound_exprEq (V := V) e₁ e₂ heq, Junction.op_self]
  obtain ⟨s, hs, h⟩ := Option.bind_eq_some_iff.mp h
  obtain ⟨h1, h2, htype⟩ := joinSymbol_some hs
  split at h
  next hboth =>
    obtain rfl := Option.some.inj h
    rw [op_symbolCompares hs hboth, Expr.calcValue, V.text_eq s htype, V.text_yes]
    cases V.tri s <;> decide
  split at h
  next hboth =>
    obtain rfl := Option.some.inj h
    rw [op_symbolCompares hs hboth, Expr.calcValue, V.text_no]
    cases V.tri s <;> decide
  split at h
  next hboth =>
    obtain rfl := Option.some.inj h
    rw [op_symbolCompares hs hboth, Expr.calcValue, V.text_eq s htype, V.text_yes, V.text_mod]
    cases V.tri s <;> decide
  split at h
  next htristate =>
    rcases Option.or_eq_some_iff.mp h with h | ⟨-, h⟩
    · obtain ⟨b, c, hb, hc, hvalue⟩ := calcValue_joinConstants V h
      rw [hvalue, eq_of_right₁ h1 hb, eq_of_right₂ h2 hc]
      rfl
    rcases Option.or_eq_some_iff.mp h with h | ⟨-, h⟩
    · obtain ⟨b, c, hb, hc, hvalue⟩ := calcValue_joinConstants V h
      rw [hvalue, eq_of_right₂ h2 hb, eq_of_right₁ h1 hc, Junction.op_comm]
      rfl
    split at h
    next hboth =>
      obtain rfl := Option.some.inj h
      rw [op_compareBoth hs hboth, Expr.calcValue, V.text_eq s htype, V.text_yes, V.text_mod, V.text_no]
      cases V.tri s <;> decide
    split at h
    next hboth =>
      obtain rfl := Option.some.inj h
      rw [op_compareBoth hs hboth, Expr.calcValue, V.text_eq s htype, V.text_yes, V.text_mod, V.text_no]
      cases V.tri s <;> decide
    split at h
    next hboth =>
      obtain rfl := Option.some.inj h
      rw [op_compareBoth hs hboth, Expr.calcValue, V.text_eq s htype, V.text_yes, V.text_mod, V.text_no]
      cases V.tri s <;> decide
    · cases h
  · cases h

/-- The joined expression has the value of the two operands joined. -/
theorem calcValue_join (V : Values K) {j : Junction} (h : exprJoin K j e₁ e₂ = some e) :
    e.calcValue V = j.op (e₁.calcValue V) (e₂.calcValue V) := by
  cases j
  · exact calcValue_joinOr V h
  · exact calcValue_joinAnd V h

end CargosBuildroot.Kconfig
