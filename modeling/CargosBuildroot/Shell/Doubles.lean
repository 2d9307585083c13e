import Mathlib.Data.Nat.Size
import Mathlib.Tactic.Ring
import Mathlib.Tactic.Linarith

/-! Integers in double precision: 53 bits, rounded to the nearest, and to the even one of two
that are as near. -/

namespace CargosBuildroot.Shell

/-! ### Rounding -/

/-- The bits of a number beyond the first 53. -/
def excess (n : ℕ) : ℕ := n.size - 53

/-- Whether the bits that are cut off make the others one more. -/
def roundsUp (n : ℕ) : Bool :=
  let e := excess n
  2 ^ e < 2 * (n % 2 ^ e) || 2 ^ e = 2 * (n % 2 ^ e) && n / 2 ^ e % 2 = 1

def nearest (n : ℕ) : ℕ := (if roundsUp n then n / 2 ^ excess n + 1 else n / 2 ^ excess n) * 2 ^ excess n

/-- The integer as a double. -/
def double (n : ℤ) : ℤ := if n < 0 then -nearest n.natAbs else nearest n.natAbs

theorem div_lt_of_excess (n : ℕ) : n / 2 ^ excess n < 2 ^ 53 := by
  refine Nat.div_lt_of_lt_mul (lt_of_lt_of_le (Nat.lt_size_self n) ?_)
  rw [← pow_add]
  refine Nat.pow_le_pow_right (by norm_num) ?_
  rw [excess]
  omega

/-- A rounded number has 53 bits and zeros behind them. -/
theorem exists_nearest (n : ℕ) : ∃ k e, k ≤ 2 ^ 53 ∧ nearest n = k * 2 ^ e := by
  have hlt := div_lt_of_excess n
  refine ⟨_, excess n, ?_, rfl⟩
  split <;> omega

/-- Such a number is not rounded. -/
theorem nearest_of_dvd {n : ℕ} (h : 2 ^ excess n ∣ n) : nearest n = n := by
  have hdown : roundsUp n = false := by
    have hpos : 0 < 2 ^ excess n := by positivity
    simp only [roundsUp, Nat.mod_eq_zero_of_dvd h, Nat.mul_zero, Bool.or_eq_false_iff,
      Bool.and_eq_false_imp, decide_eq_false_iff_not, decide_eq_true_eq]
    omega
  rw [nearest, hdown, if_neg Bool.false_ne_true, Nat.div_mul_cancel h]

theorem nearest_mul_pow {k : ℕ} (h : k ≤ 2 ^ 53) (e : ℕ) : nearest (k * 2 ^ e) = k * 2 ^ e := by
  have hcase : ∀ {k : ℕ}, k < 2 ^ 53 → ∀ e, nearest (k * 2 ^ e) = k * 2 ^ e := by
    intro k hk e
    have hsize : (k * 2 ^ e).size ≤ 53 + e := by
      rw [Nat.size_le, pow_add]
      exact Nat.mul_lt_mul_of_pos_right hk (by positivity)
    refine nearest_of_dvd (Dvd.dvd.mul_left (pow_dvd_pow 2 ?_) k)
    rw [excess]
    omega
  rcases Nat.lt_or_eq_of_le h with hlt | rfl
  · exact hcase hlt e
  · have hshift : 2 ^ 53 * 2 ^ e = 2 ^ 52 * 2 ^ (e + 1) := by ring
    rw [hshift]
    exact hcase (by norm_num) (e + 1)

theorem nearest_nearest (n : ℕ) : nearest (nearest n) = nearest n := by
  obtain ⟨k, e, hk, hn⟩ := exists_nearest n
  rw [hn, nearest_mul_pow hk]

theorem nearest_of_le {n : ℕ} (h : n ≤ 2 ^ 53) : nearest n = n := by
  have hself := nearest_mul_pow h 0
  rwa [pow_zero, Nat.mul_one] at hself

/-- Large numbers stay large. -/
theorem le_nearest {n : ℕ} (h : 2 ^ 53 ≤ n) : 2 ^ 53 ≤ nearest n := by
  have hsize : 53 < n.size := by
    by_contra hle
    exact absurd (Nat.size_le.mp (not_lt.mp hle)) (not_lt.mpr h)
  have hexcess : 53 + excess n = n.size := by
    rw [excess]
    omega
  have hlow : 2 ^ 52 * 2 ^ excess n ≤ n := by
    rw [← pow_add]
    refine Nat.lt_size.mp ?_
    omega
  have hdiv : 2 ^ 52 ≤ n / 2 ^ excess n := (Nat.le_div_iff_mul_le (by positivity)).mpr hlow
  have htwo : 2 ^ 1 ≤ 2 ^ excess n := Nat.pow_le_pow_right (by norm_num) (by omega)
  calc 2 ^ 53 = 2 ^ 52 * 2 ^ 1 := by norm_num
    _ ≤ (if roundsUp n then n / 2 ^ excess n + 1 else n / 2 ^ excess n) * 2 ^ excess n := by
        refine Nat.mul_le_mul ?_ htwo
        split <;> omega

theorem nearest_eq_of_lt {n m : ℕ} (h : nearest n = m) (hm : m < 2 ^ 53) : n = m := by
  by_cases hn : n ≤ 2 ^ 53
  · rw [← h, nearest_of_le hn]
  · have := le_nearest (Nat.le_of_not_le hn)
    omega

/-- Rounding stays below a power of two. -/
theorem nearest_le_pow {n k : ℕ} (h : n < 2 ^ k) : nearest n ≤ 2 ^ k := by
  by_cases hk : k ≤ 53
  · have hle : 2 ^ k ≤ 2 ^ 53 := Nat.pow_le_pow_right (by norm_num) hk
    rw [nearest_of_le (by omega)]
    exact h.le
  · have hsize : n.size ≤ k := Nat.size_le.mpr h
    have hexcess : excess n ≤ k := by
      rw [excess]
      omega
    have hsplit : 2 ^ k = 2 ^ (k - excess n) * 2 ^ excess n := by
      rw [← pow_add, Nat.sub_add_cancel hexcess]
    have hdiv : n / 2 ^ excess n < 2 ^ (k - excess n) := by
      rw [Nat.div_lt_iff_lt_mul (by positivity), ← hsplit]
      exact h
    rw [nearest, hsplit]
    refine Nat.mul_le_mul_right _ ?_
    split <;> omega

/-! ### Doubles -/

theorem double_natAbs (n : ℤ) : (double n).natAbs = nearest n.natAbs := by
  rw [double]
  split <;> omega

theorem double_double (n : ℤ) : double (double n) = double n := by
  have hnearest := nearest_nearest n.natAbs
  have habs := double_natAbs n
  rw [double, habs, hnearest, double]
  by_cases hn : n < 0
  · by_cases hzero : nearest n.natAbs = 0
    · simp [hn, hzero]
    · rw [if_pos hn, if_pos (by omega)]
  · rw [if_neg hn, if_neg (by omega)]

theorem double_of_le {n : ℤ} (h : n.natAbs ≤ 2 ^ 53) : double n = n := by
  rw [double, nearest_of_le h]
  split <;> omega

theorem double_eq_of_lt {n m : ℤ} (h : double n = m) (hm : m.natAbs < 2 ^ 53) : n = m := by
  have habs : n.natAbs = m.natAbs := nearest_eq_of_lt (by rw [← h, double_natAbs]) hm
  rw [← h, double_of_le (by omega)]

/-! ### Printing -/

/-- The integers of 64 bits, which the shell computes with. -/
def Fits (n : ℤ) : Prop := -2 ^ 63 ≤ n ∧ n < 2 ^ 63

instance (n : ℤ) : Decidable (Fits n) := by
  unfold Fits
  infer_instance

/-- `printf "%d"` in awk: the double as an integer, or the last one of 64 bits. -/
@[irreducible] def rounded (n : ℤ) : ℤ := max (-2 ^ 63) (min (2 ^ 63 - 1) (double n))

/-- The integer is printed as it is. -/
def Exact (n : ℤ) : Prop := rounded n = n

instance (n : ℤ) : Decidable (Exact n) := by
  unfold Exact
  infer_instance

theorem fits_rounded (n : ℤ) : Fits (rounded n) := by
  rw [Fits, rounded]
  omega

theorem Exact.eq {n : ℤ} (h : Exact n) : rounded n = n := h

theorem Exact.fits {n : ℤ} (h : Exact n) : Fits n := h ▸ fits_rounded n

theorem exact_of_le {n : ℤ} (h : n.natAbs ≤ 2 ^ 53) : Exact n := by
  rw [Exact, rounded, double_of_le h]
  omega

theorem double_le {n : ℤ} (h : Fits n) : -2 ^ 63 ≤ double n ∧ double n ≤ 2 ^ 63 := by
  have hbound : nearest n.natAbs ≤ 2 ^ 63 := by
    rcases Nat.lt_or_ge n.natAbs (2 ^ 63) with hlt | hge
    · exact nearest_le_pow hlt
    · have hlow : n.natAbs = 1 * 2 ^ 63 := by
        rw [Fits] at h
        omega
      rw [hlow, nearest_mul_pow (by norm_num)]
      norm_num
  have habs := double_natAbs n
  omega

/-- The last integer of 64 bits is no double. -/
theorem double_ne (n : ℤ) : double n ≠ 2 ^ 63 - 1 := by
  intro h
  have htwice := double_double n
  rw [h] at htwice
  exact absurd htwice (by decide +kernel)

theorem rounded_eq {n : ℤ} (h : Fits n) :
    rounded n = double n ∧ double n < 2 ^ 63 - 1 ∨ rounded n = 2 ^ 63 - 1 ∧ double n = 2 ^ 63 := by
  have hle := double_le h
  have hne := double_ne n
  rw [rounded]
  omega

/-- What is printed is the same where the doubles are. -/
theorem double_eq_iff {n m : ℤ} (hn : Fits n) (hm : Fits m) :
    double n = double m ↔ rounded n = rounded m := by
  rcases rounded_eq hn with ⟨h₁, h₂⟩ | ⟨h₁, h₂⟩ <;> rcases rounded_eq hm with ⟨h₃, h₄⟩ | ⟨h₃, h₄⟩ <;> omega

theorem rounded_rounded (n : ℤ) : rounded (rounded n) = rounded n := by
  have htop : rounded (2 ^ 63 - 1) = 2 ^ 63 - 1 := by decide +kernel
  have hbottom : rounded (-2 ^ 63) = -2 ^ 63 := by decide +kernel
  have hcases : rounded n = -2 ^ 63 ∨ rounded n = 2 ^ 63 - 1 ∨ rounded n = double n := by
    rw [rounded]
    omega
  rcases hcases with h | h | h
  · rw [h, hbottom]
  · rw [h, htop]
  · have hfits := fits_rounded n
    rw [Fits, h] at hfits
    rw [h, rounded, double_double]
    omega

theorem exact_rounded (n : ℤ) : Exact (rounded n) := rounded_rounded n

/-- Nothing else is printed as a small number. -/
theorem eq_of_rounded {n m : ℤ} (h : rounded n = m) (hm : m.natAbs < 2 ^ 53) : n = m := by
  refine double_eq_of_lt ?_ hm
  rw [rounded] at h
  omega

end CargosBuildroot.Shell
