import CargosBuildroot.Shell.Read
import CargosBuildroot.Ternary.Logic

/-! The expressions of `support/kconfig/expr.c`, as they stand in the dependencies of symbols, their
values, and the functions that work on one expression. Lists and ranges are left out. -/

namespace CargosBuildroot.Kconfig

open Shell Ternary

inductive SymbolType
  | unknown
  | boolean
  | tristate
  | int
  | hex
  | string
  | other
  deriving DecidableEq

/-- The symbols, with the three constants that the code knows by name. These have no type. -/
structure Symbols (σ : Type*) where
  yes : σ
  mod : σ
  no : σ
  type : σ → SymbolType
  isConst : σ → Bool
  yes_ne_mod : yes ≠ mod
  yes_ne_no : yes ≠ no
  mod_ne_no : mod ≠ no
  type_yes : type yes = .unknown
  type_mod : type mod = .unknown
  type_no : type no = .unknown

def tristateText : Tristate → Text
  | .no => ['n']
  | .mod => ['m']
  | .yes => ['y']

/-- The values of the symbols: `curr.tri`, and what `sym_get_string_value` returns. A boolean symbol is
never `m`, and constants are one symbol if they have one name. -/
structure Values {σ : Type*} (K : Symbols σ) where
  tri : σ → Tristate
  text : σ → Text
  tri_yes : tri K.yes = .yes
  tri_mod : tri K.mod = .mod
  tri_no : tri K.no = .no
  text_yes : text K.yes = tristateText .yes
  text_mod : text K.mod = tristateText .mod
  text_no : text K.no = tristateText .no
  text_eq : ∀ s, K.type s = .boolean ∨ K.type s = .tristate → text s = tristateText (tri s)
  boolean : ∀ s, K.type s = .boolean → tri s ≠ .mod
  const : ∀ s t, K.isConst s = true → K.isConst t = true → text s = text t → s = t

inductive Comparison
  | equal
  | unequal
  deriving DecidableEq

inductive Expr (σ : Type*)
  | symbol (s : σ)
  | not (e : Expr σ)
  | comp (type : Comparison) (left right : σ)
  | two (type : Junction) (left right : Expr σ)
  deriving DecidableEq

variable {σ : Type*} {K : Symbols σ}

theorem tristateText_injective : Function.Injective tristateText := by
  intro a b h
  cases a <;> cases b <;> first | rfl | exact absurd h (by decide)

/-! ### Values -/

def Comparison.flip : Comparison → Comparison
  | equal => unequal
  | unequal => equal

def Comparison.holds (type : Comparison) (s t : Text) : Tristate :=
  match type with
  | .equal => .of (s = t)
  | .unequal => .of (s ≠ t)

/-- `expr_calc_value` -/
def Expr.calcValue (V : Values K) : Expr σ → Tristate
  | .symbol s => V.tri s
  | .not e => (e.calcValue V).not
  | .comp type s t => type.holds (V.text s) (V.text t)
  | .two j l r => j.op (l.calcValue V) (r.calcValue V)

/-- `expr_calc_value` where an expression may be missing. -/
def calcDep (V : Values K) : Option (Expr σ) → Tristate
  | none => .yes
  | some e => e.calcValue V

/-- The type of an expression, if it is a junction. -/
def Expr.junction : Expr σ → Option Junction
  | .two j _ _ => some j
  | _ => none

def Expr.size : Expr σ → ℕ
  | .symbol _ | .comp _ _ _ => 1
  | .not e => e.size + 1
  | .two _ l r => l.size + r.size + 1

theorem Expr.size_pos (e : Expr σ) : 0 < e.size := by
  cases e <;> simp [size]

/-- The constant that changes nothing. -/
def Symbols.unit (K : Symbols σ) : Junction → σ
  | .or => K.no
  | .and => K.yes

/-- The constant that decides the value. -/
def Symbols.zero (K : Symbols σ) : Junction → σ
  | .or => K.yes
  | .and => K.no

@[simp] theorem Values.tri_unit (V : Values K) (j : Junction) : V.tri (K.unit j) = j.unit := by
  cases j
  · exact V.tri_no
  · exact V.tri_yes

@[simp] theorem Values.tri_zero (V : Values K) (j : Junction) : V.tri (K.zero j) = j.zero := by
  cases j
  · exact V.tri_yes
  · exact V.tri_no

theorem Comparison.holds_flip (type : Comparison) (s t : Text) : (type.flip).holds s t = (type.holds s t).not := by
  cases type
  · exact (Tristate.not_of (s = t)).symm
  · rw [flip, holds, holds, Tristate.not_of]
    simp only [ne_eq, not_not]

variable [DecidableEq σ]

/-! ### Constants -/

/-- `expr_eliminate_yn` -/
def exprEliminateYn (K : Symbols σ) : Expr σ → Expr σ
  | .two j l r =>
    let l' := exprEliminateYn K l
    let r' := exprEliminateYn K r
    if l' = .symbol (K.zero j) then .symbol (K.zero j)
    else if l' = .symbol (K.unit j) then r'
    else if r' = .symbol (K.zero j) then .symbol (K.zero j)
    else if r' = .symbol (K.unit j) then l'
    else .two j l' r'
  | e => e

theorem calcValue_eliminateYn (V : Values K) (e : Expr σ) :
    (exprEliminateYn K e).calcValue V = e.calcValue V := by
  induction e with
  | symbol s => rfl
  | not e ih => rfl
  | comp type s t => rfl
  | two j l r ihl ihr =>
    rw [exprEliminateYn, Expr.calcValue, ← ihl, ← ihr]
    generalize exprEliminateYn K l = l'
    generalize exprEliminateYn K r = r'
    split
    next h => rw [h, Expr.calcValue, V.tri_zero, Junction.zero_op]
    split
    next h => rw [h, Expr.calcValue, V.tri_unit, Junction.unit_op]
    split
    next h => rw [h, Expr.calcValue, V.tri_zero, Junction.op_zero]
    split
    next h => rw [h, Expr.calcValue, V.tri_unit, Junction.op_unit]
    · rfl

/-! ### Copies of symbols -/

/-- `expr_trans_bool` -/
def exprTransBool (K : Symbols σ) : Expr σ → Expr σ
  | .two j l r => .two j (exprTransBool K l) (exprTransBool K r)
  | .not e => .not (exprTransBool K e)
  | .comp .unequal s t => if K.type s = .tristate ∧ t = K.no then .symbol s else .comp .unequal s t
  | e => e

/-- `expr_contains_symbol` -/
def Expr.containsSymbol (sym : σ) : Expr σ → Bool
  | .two _ l r => l.containsSymbol sym || r.containsSymbol sym
  | .symbol s => s = sym
  | .comp _ s t => s = sym || t = sym
  | .not e => e.containsSymbol sym

/-- `expr_depends_symbol` -/
def exprDependsSymbol (K : Symbols σ) (sym : σ) : Expr σ → Bool
  | .two .and l r => exprDependsSymbol K sym l || exprDependsSymbol K sym r
  | .symbol s => s = sym
  | .comp .equal s t => s = sym && (t = K.yes || t = K.mod)
  | .comp .unequal s t => s = sym && t = K.no
  | _ => false

end CargosBuildroot.Kconfig
