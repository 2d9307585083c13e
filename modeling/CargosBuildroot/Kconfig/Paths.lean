import CargosBuildroot.Kconfig.Expr

/-! Places in an expression, for functions that hold two pointers into one expression. The operands of a
junction are the places that are reached through nodes of its type only. -/

namespace CargosBuildroot.Kconfig

open Shell Ternary

inductive Side
  | left
  | right
  deriving DecidableEq

/-- The way from the root of an expression. -/
abbrev Path := List Side

variable {σ : Type*} {K : Symbols σ}

def Expr.get : Expr σ → Path → Option (Expr σ)
  | e, [] => some e
  | .two _ l _, .left :: p => l.get p
  | .two _ _ r, .right :: p => r.get p
  | _, _ :: _ => none

def Expr.set : Expr σ → Path → Expr σ → Expr σ
  | _, [], x => x
  | .two j l r, .left :: p, x => .two j (l.set p x) r
  | .two j l r, .right :: p, x => .two j l (r.set p x)
  | e, _ :: _, _ => e

/-- All nodes on the way are of that type. -/
def Reach (j : Junction) : Expr σ → Path → Prop
  | _, [] => True
  | .two i l _, .left :: p => i = j ∧ Reach j l p
  | .two i _ r, .right :: p => i = j ∧ Reach j r p
  | _, _ :: _ => False

variable {e x y : Expr σ} {p q : Path} {i j : Junction} {V : Values K}

/-- A way that is not empty begins at a junction. -/
theorem Reach.exists_cons {side : Side} (h : Reach j e (side :: p)) :
    ∃ l r, e = .two j l r ∧ (side = .left ∧ Reach j l p ∨ side = .right ∧ Reach j r p) := by
  cases e with
  | two i l r =>
    cases side with
    | left =>
      obtain ⟨rfl, h⟩ := h
      exact ⟨l, r, rfl, .inl ⟨rfl, h⟩⟩
    | right =>
      obtain ⟨rfl, h⟩ := h
      exact ⟨l, r, rfl, .inr ⟨rfl, h⟩⟩
  | symbol s => cases side <;> exact h.elim
  | not e => cases side <;> exact h.elim
  | comp type s t => cases side <;> exact h.elim

theorem Reach.exists_get (h : Reach j e p) : ∃ x, e.get p = some x := by
  induction p generalizing e with
  | nil => exact ⟨e, by cases e <;> rfl⟩
  | cons side p ih =>
    obtain ⟨l, r, rfl, ⟨rfl, hl⟩ | ⟨rfl, hr⟩⟩ := h.exists_cons
    · exact ih hl
    · exact ih hr

/-- The way to the operands of a junction on the way. -/
theorem Reach.snoc (h : Reach j e p) (hx : e.get p = some x) (hj : x.junction = some j) (side : Side) :
    Reach j e (p ++ [side]) := by
  induction p generalizing e with
  | nil =>
    have hex : e = x := by cases e <;> exact Option.some.inj hx
    subst hex
    cases e with
    | two i l r =>
      obtain rfl := Option.some.inj hj
      cases side
      · exact ⟨rfl, by cases l <;> trivial⟩
      · exact ⟨rfl, by cases r <;> trivial⟩
    | symbol s => cases hj
    | not e => cases hj
    | comp type s t => cases hj
  | cons first p ih =>
    obtain ⟨l, r, rfl, ⟨rfl, hl⟩ | ⟨rfl, hr⟩⟩ := h.exists_cons
    · exact ⟨rfl, ih hl hx⟩
    · exact ⟨rfl, ih hr hx⟩

theorem get_nil (e : Expr σ) : e.get [] = some e := by
  cases e <;> rfl

theorem set_nil (e x : Expr σ) : e.set [] x = x := by
  cases e <;> rfl

theorem reach_nil (j : Junction) (e : Expr σ) : Reach j e [] := by
  cases e <;> trivial

/-! ### Replaced parts -/

theorem set_get (h : e.get p = some x) : e.set p x = e := by
  induction p generalizing e with
  | nil =>
    rw [get_nil] at h
    rw [set_nil, Option.some.inj h]
  | cons side p ih =>
    cases e with
    | two j l r =>
      cases side
      · exact congrArg (Expr.two j · r) (ih h)
      · exact congrArg (Expr.two j l ·) (ih h)
    | symbol s => cases side <;> cases h
    | not e => cases side <;> cases h
    | comp type s t => cases side <;> cases h

theorem get_set (h : e.get p = some x) (y : Expr σ) : (e.set p y).get p = some y := by
  induction p generalizing e with
  | nil => rw [set_nil, get_nil]
  | cons side p ih =>
    cases e with
    | two j l r => cases side <;> exact ih h
    | symbol s => cases side <;> cases h
    | not e => cases side <;> cases h
    | comp type s t => cases side <;> cases h

theorem size_set (h : e.get p = some x) (y : Expr σ) : (e.set p y).size + x.size = e.size + y.size := by
  induction p generalizing e with
  | nil =>
    rw [get_nil] at h
    rw [set_nil, Option.some.inj h, Nat.add_comm]
  | cons side p ih =>
    cases e with
    | two j l r =>
      cases side
      · have hl := ih (e := l) h
        rw [Expr.set, Expr.size, Expr.size]
        omega
      · have hr := ih (e := r) h
        rw [Expr.set, Expr.size, Expr.size]
        omega
    | symbol s => cases side <;> cases h
    | not e => cases side <;> cases h
    | comp type s t => cases side <;> cases h

theorem junction_set (hp : p ≠ []) : (e.set p y).junction = e.junction := by
  cases p with
  | nil => exact absurd rfl hp
  | cons side p => cases e <;> cases side <;> rfl

theorem size_of_get (h : e.get p = some x) : x.size + p.length ≤ e.size := by
  induction p generalizing e with
  | nil =>
    rw [get_nil] at h
    rw [Option.some.inj h]
    exact Nat.le_refl _
  | cons side p ih =>
    cases e with
    | two j l r =>
      rw [List.length_cons, Expr.size]
      cases side
      · have hl := ih (e := l) h
        omega
      · have hr := ih (e := r) h
        omega
    | symbol s => cases side <;> cases h
    | not e => cases side <;> cases h
    | comp type s t => cases side <;> cases h

/-! ### Operands -/

theorem Reach.length_lt (h : Reach j e p) : p.length < e.size := by
  obtain ⟨x, hx⟩ := h.exists_get
  have hsize := size_of_get hx
  have hpos := x.size_pos
  omega

/-- What an operand decides is decided. -/
theorem Reach.absorbs (h : Reach j e p) (hx : e.get p = some x) (V : Values K) :
    j.Absorbs (e.calcValue V) (x.calcValue V) := by
  induction p generalizing e with
  | nil =>
    rw [get_nil] at hx
    rw [Option.some.inj hx]
    exact Junction.op_self j _
  | cons side p ih =>
    obtain ⟨l, r, rfl, ⟨rfl, hl⟩ | ⟨rfl, hr⟩⟩ := h.exists_cons
    · exact Junction.absorbs_op_left.trans (ih hl hx)
    · exact Junction.absorbs_op_right.trans (ih hr hx)

/-- The value of an operand is joined with a value that does not depend on it. -/
theorem Reach.exists_op (h : Reach j e p) (V : Values K) :
    ∃ c, ∀ y, (e.set p y).calcValue V = j.op (y.calcValue V) c := by
  induction p generalizing e with
  | nil => exact ⟨j.unit, fun y => by rw [set_nil, Junction.op_unit]⟩
  | cons side p ih =>
    obtain ⟨l, r, rfl, ⟨rfl, hl⟩ | ⟨rfl, hr⟩⟩ := h.exists_cons
    · obtain ⟨c, hc⟩ := ih hl
      refine ⟨j.op c (r.calcValue V), fun y => ?_⟩
      rw [Expr.set, Expr.calcValue, hc, Junction.op_assoc]
    · obtain ⟨c, hc⟩ := ih hr
      refine ⟨j.op c (l.calcValue V), fun y => ?_⟩
      rw [Expr.set, Expr.calcValue, hc, Junction.op_comm, Junction.op_assoc]

/-- The same for two operands at different places. -/
theorem Reach.exists_op_op (hp : Reach j e p) (hq : Reach j e q) (hx : e.get p = some x) (hy : e.get q = some y)
    (hxj : x.junction ≠ some j) (hyj : y.junction ≠ some j) (hpq : p ≠ q) (V : Values K) :
    ∃ c, ∀ a b, ((e.set q b).set p a).calcValue V = j.op (j.op (a.calcValue V) (b.calcValue V)) c := by
  induction p generalizing e q with
  | nil =>
    rw [get_nil] at hx
    obtain rfl := Option.some.inj hx
    cases q with
    | nil => exact absurd rfl hpq
    | cons side q =>
      obtain ⟨l, r, rfl, -⟩ := hq.exists_cons
      exact absurd rfl hxj
  | cons side p ih =>
    cases q with
    | nil =>
      rw [get_nil] at hy
      obtain rfl := Option.some.inj hy
      obtain ⟨l, r, rfl, -⟩ := hp.exists_cons
      exact absurd rfl hyj
    | cons side' q =>
      obtain ⟨l, r, rfl, hpside⟩ := hp.exists_cons
      obtain ⟨l', r', heq, hqside⟩ := hq.exists_cons
      obtain ⟨-, rfl, rfl⟩ := Expr.two.inj heq
      rcases hpside with ⟨rfl, hp'⟩ | ⟨rfl, hp'⟩ <;> rcases hqside with ⟨rfl, hq'⟩ | ⟨rfl, hq'⟩
      · obtain ⟨c, hc⟩ := ih hp' hq' hx hy fun h => hpq (congrArg _ h)
        refine ⟨j.op c (r.calcValue V), fun a b => ?_⟩
        rw [Expr.set, Expr.set, Expr.calcValue, hc, Junction.op_assoc]
      · obtain ⟨c, hc⟩ := hp'.exists_op V
        obtain ⟨d, hd⟩ := hq'.exists_op V
        refine ⟨j.op c d, fun a b => ?_⟩
        rw [Expr.set, Expr.set, Expr.calcValue, hc, hd, Junction.op_op_op_comm]
      · obtain ⟨c, hc⟩ := hp'.exists_op V
        obtain ⟨d, hd⟩ := hq'.exists_op V
        refine ⟨j.op d c, fun a b => ?_⟩
        rw [Expr.set, Expr.set, Expr.calcValue, hc, hd, Junction.op_op_op_comm, Junction.op_comm j (b.calcValue V)]
      · obtain ⟨c, hc⟩ := ih hp' hq' hx hy fun h => hpq (congrArg _ h)
        refine ⟨j.op c (l.calcValue V), fun a b => ?_⟩
        rw [Expr.set, Expr.set, Expr.calcValue, hc, Junction.op_comm, Junction.op_assoc]

/-- A change of an operand leaves the places of the others. -/
theorem Reach.set (hq : Reach j e q) (hp : Reach j e p) (hx : e.get p = some x) (hxj : x.junction ≠ some j)
    (y : Expr σ) : Reach j (e.set p y) q := by
  induction p generalizing e q with
  | nil =>
    rw [get_nil] at hx
    obtain rfl := Option.some.inj hx
    cases q with
    | nil => exact reach_nil _ _
    | cons side q =>
      obtain ⟨l, r, rfl, -⟩ := hq.exists_cons
      exact absurd rfl hxj
  | cons side p ih =>
    cases q with
    | nil => exact reach_nil _ _
    | cons side' q =>
      obtain ⟨l, r, rfl, hpside⟩ := hp.exists_cons
      obtain ⟨l', r', heq, hqside⟩ := hq.exists_cons
      obtain ⟨-, rfl, rfl⟩ := Expr.two.inj heq
      rcases hpside with ⟨rfl, hp'⟩ | ⟨rfl, hp'⟩ <;> rcases hqside with ⟨rfl, hq'⟩ | ⟨rfl, hq'⟩
      · exact ⟨rfl, ih hq' hp' hx⟩
      · exact ⟨rfl, hq'⟩
      · exact ⟨rfl, hq'⟩
      · exact ⟨rfl, ih hq' hp' hx⟩

/-- Another operand stays as it is. -/
theorem get_set_of_ne (hp : Reach j e p) (hq : Reach j e q) (hx : e.get p = some x) (hy : e.get q = some y)
    (hxj : x.junction ≠ some j) (hyj : y.junction ≠ some j) (hpq : p ≠ q) (b : Expr σ) :
    (e.set q b).get p = some x := by
  induction p generalizing e q with
  | nil =>
    rw [get_nil] at hx
    obtain rfl := Option.some.inj hx
    cases q with
    | nil => exact absurd rfl hpq
    | cons side q =>
      obtain ⟨l, r, rfl, -⟩ := hq.exists_cons
      exact absurd rfl hxj
  | cons side p ih =>
    cases q with
    | nil =>
      rw [get_nil] at hy
      obtain rfl := Option.some.inj hy
      obtain ⟨l, r, rfl, -⟩ := hp.exists_cons
      exact absurd rfl hyj
    | cons side' q =>
      obtain ⟨l, r, rfl, hpside⟩ := hp.exists_cons
      obtain ⟨l', r', heq, hqside⟩ := hq.exists_cons
      obtain ⟨-, rfl, rfl⟩ := Expr.two.inj heq
      rcases hpside with ⟨rfl, hp'⟩ | ⟨rfl, hp'⟩ <;> rcases hqside with ⟨rfl, hq'⟩ | ⟨rfl, hq'⟩
      · exact ih hp' hq' hx hy fun h => hpq (congrArg _ h)
      · exact hx
      · exact hx
      · exact ih hp' hq' hx hy fun h => hpq (congrArg _ h)

/-- The value is refined where an operand is. -/
theorem Reach.refines_set (h : Reach j e p) (hx : e.get p = some x) {V : Values K}
    (hxy : Tristate.Refines (x.calcValue V) (y.calcValue V)) :
    Tristate.Refines (e.calcValue V) ((e.set p y).calcValue V) := by
  obtain ⟨c, hc⟩ := h.exists_op V
  have hsame := hc x
  rw [set_get hx] at hsame
  rw [hsame, hc]
  exact hxy.op (.refl c)

end CargosBuildroot.Kconfig
