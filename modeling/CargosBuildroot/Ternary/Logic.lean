import Mathlib.Data.List.Basic

/-! Logic with a third value between no and yes, and the two operations that join values. A value
in the middle may stand for either of the others: the operations and the negation respect this. -/

namespace CargosBuildroot.Ternary

inductive Tristate
  | no
  | mod
  | yes
  deriving DecidableEq

def Tristate.toNat : Tristate → ℕ
  | no => 0
  | mod => 1
  | yes => 2

def Tristate.not : Tristate → Tristate
  | no => yes
  | mod => mod
  | yes => no

instance : LE Tristate := ⟨fun a b => a.toNat ≤ b.toNat⟩

instance (a b : Tristate) : Decidable (a ≤ b) := inferInstanceAs (Decidable (a.toNat ≤ b.toNat))

/-- The value of a test. -/
def Tristate.of (p : Prop) [Decidable p] : Tristate := if p then yes else no

inductive Junction
  | or
  | and
  deriving DecidableEq

namespace Junction

def dual : Junction → Junction
  | or => and
  | and => or

/-- The larger value, or the smaller one. -/
def op : Junction → Tristate → Tristate → Tristate
  | or, a, b => if a.toNat > b.toNat then a else b
  | and, a, b => if a.toNat < b.toNat then a else b

/-- The value that changes nothing. -/
def unit : Junction → Tristate
  | or => .no
  | and => .yes

/-- The value that decides the result. -/
def zero : Junction → Tristate
  | or => .yes
  | and => .no

variable (j : Junction) (a b c : Tristate)

@[simp] theorem dual_dual : j.dual.dual = j := by
  cases j <;> rfl

theorem eq_dual_of_ne {i j : Junction} (h : i ≠ j) : i = j.dual := by
  cases i <;> cases j
  · exact absurd rfl h
  · rfl
  · rfl
  · exact absurd rfl h

theorem op_comm : j.op a b = j.op b a := by
  cases j <;> cases a <;> cases b <;> rfl

theorem op_assoc : j.op (j.op a b) c = j.op a (j.op b c) := by
  cases j <;> cases a <;> cases b <;> cases c <;> rfl

@[simp] theorem op_self : j.op a a = a := by
  cases j <;> cases a <;> rfl

@[simp] theorem op_unit : j.op a j.unit = a := by
  cases j <;> cases a <;> rfl

@[simp] theorem unit_op : j.op j.unit a = a := by
  cases j <;> cases a <;> rfl

@[simp] theorem op_zero : j.op a j.zero = j.zero := by
  cases j <;> cases a <;> rfl

@[simp] theorem zero_op : j.op j.zero a = j.zero := by
  cases j <;> cases a <;> rfl

@[simp] theorem not_not : a.not.not = a := by
  cases a <;> rfl

theorem not_op : (j.op a b).not = j.dual.op a.not b.not := by
  cases j <;> cases a <;> cases b <;> rfl

theorem op_right_comm : j.op (j.op a b) c = j.op (j.op a c) b := by
  rw [op_assoc, op_comm j b c, ← op_assoc]

theorem op_op_op_comm (d : Tristate) : j.op (j.op a b) (j.op c d) = j.op (j.op a c) (j.op b d) := by
  rw [op_assoc, ← op_assoc j b c d, op_comm j b c, op_assoc, ← op_assoc]

/-- The first value decides between the two: it is joined with the second one already. -/
def Absorbs : Prop := j.op a b = a

variable {j a b c}

theorem absorbs_op_left : j.Absorbs (j.op a b) a := by
  rw [Absorbs, op_right_comm, op_self]

theorem absorbs_op_right : j.Absorbs (j.op a b) b := by
  rw [Absorbs, op_assoc, op_self]

theorem Absorbs.trans (h : j.Absorbs a b) (hbc : j.Absorbs b c) : j.Absorbs a c := by
  rw [Absorbs] at h hbc ⊢
  rw [← h, op_assoc, hbc]

/-! ### What two values have in common -/

variable (j) in
/-- The first two values are the last two, each joined with the same value. -/
def Common (a b a' b' : Tristate) : Prop := ∃ c, a = j.op a' c ∧ b = j.op b' c

variable {a' b' a'' b'' : Tristate}

theorem Common.refl (a b : Tristate) : j.Common a b a b := ⟨j.unit, (op_unit j a).symm, (op_unit j b).symm⟩

theorem common_self (a : Tristate) : j.Common a a j.unit j.unit := ⟨a, (unit_op j a).symm, (unit_op j a).symm⟩

theorem Common.trans (h : j.Common a b a' b') (h' : j.Common a' b' a'' b'') : j.Common a b a'' b'' := by
  obtain ⟨c, ha, hb⟩ := h
  obtain ⟨d, ha', hb'⟩ := h'
  refine ⟨j.op d c, ?_, ?_⟩
  · rw [ha, ha', op_assoc]
  · rw [hb, hb', op_assoc]

theorem Common.symm (h : j.Common a b a' b') : j.Common b a b' a' := by
  obtain ⟨c, ha, hb⟩ := h
  exact ⟨c, hb, ha⟩

theorem Common.op_left (h : j.Common a b a' b') (c : Tristate) : j.Common (j.op a c) b (j.op a' c) b' := by
  obtain ⟨d, ha, hb⟩ := h
  exact ⟨d, by rw [ha, op_right_comm], hb⟩

theorem Common.op_right (h : j.Common a b a' b') (c : Tristate) : j.Common (j.op c a) b (j.op c a') b' := by
  rw [op_comm j c a, op_comm j c a']
  exact h.op_left c

/-- Where nothing else is left of the first value, it is the one that the second one is joined with. -/
theorem Common.absorbs (h : j.Common a b j.unit b') : j.Absorbs b a := by
  obtain ⟨c, ha, rfl⟩ := h
  rw [unit_op] at ha
  rw [ha]
  exact absorbs_op_right

end Junction

theorem Tristate.not_of (p : Prop) [Decidable p] : (of p).not = of ¬ p := by
  by_cases h : p <;> simp [of, h, not]

namespace Tristate

variable {a b c : Tristate}

theorem le_refl (a : Tristate) : a ≤ a := Nat.le_refl _

theorem le_trans (h : a ≤ b) (hbc : b ≤ c) : a ≤ c := Nat.le_trans h hbc

theorem le_yes (a : Tristate) : a ≤ yes := by
  cases a <;> decide

theorem op_mono (j : Junction) (h : a ≤ b) (c : Tristate) : j.op a c ≤ j.op b c := by
  revert h
  cases j <;> cases a <;> cases b <;> cases c <;> decide

end Tristate

/-! ### Values that are refined -/

namespace Tristate

/-- The second value is the first one, unless that is in the middle. -/
def Refines (a b : Tristate) : Prop := a = mod ∨ a = b

variable {a b c d : Tristate} {j : Junction}

theorem Refines.refl (a : Tristate) : Refines a a := .inr rfl

theorem Refines.of_eq (h : a = b) : Refines a b := .inr h

theorem Refines.trans (h : Refines a b) (hbc : Refines b c) : Refines a c := by
  rcases h with rfl | rfl
  · exact .inl rfl
  · exact hbc

theorem Refines.not (h : Refines a b) : Refines a.not b.not := by
  rcases h with rfl | rfl
  · exact .inl rfl
  · exact .refl _

theorem Refines.op (h : Refines a b) (hcd : Refines c d) : Refines (j.op a c) (j.op b d) := by
  rcases h with rfl | rfl <;> rcases hcd with rfl | rfl
  · exact .inl (Junction.op_self j mod)
  · cases j <;> cases b <;> cases c <;> first | exact .inl rfl | exact .inr rfl
  · cases j <;> cases a <;> cases d <;> first | exact .inl rfl | exact .inr rfl
  · exact .refl _

/-- A value and its negation decide against each other, but for the middle. -/
theorem refines_zero (h : j.Absorbs a b) (hnot : j.Absorbs a b.not) : Refines a j.zero := by
  rw [Junction.Absorbs] at h hnot
  cases j <;> cases a <;> cases b <;>
    first | exact .inl rfl | exact .inr rfl | exact absurd h (by decide) | exact absurd hnot (by decide)

end Tristate

end CargosBuildroot.Ternary
