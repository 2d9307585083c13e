import CargosBuildroot.Shell.Read
import Mathlib.Data.List.Basic
import Mathlib.Algebra.Group.Nat.Defs

/-! The check of an IPv4 address in `rc.bootstrap`. The shell splits the text at its dots, where
a dot at the end begins no field and the fields after the fourth are not looked at, and a number
that does not fit is an error of `[`, which is not true. Texts hold no pattern characters, so
that `set -- $NET` matches no file names. -/

namespace CargosBuildroot.Bootstrap

open Shell

/-- `isdigit`, of one argument -/
def isdigit (t : Text) : Bool := t ≠ [] && t.all Char.isDigit

/-! ### Numbers in `[` -/

def decimalValue (t : Text) : ℕ := Nat.ofDigitChars 10 t 0

/-- The value of an operand made of digits, unless it is out of range. -/
def operand (t : Text) : Option ℤ :=
  if decimalValue t < 2 ^ 63 then some (decimalValue t) else none

/-- `[ t -lt n ]` -/
def testLt (t : Text) (n : ℤ) : Bool := (operand t).any (· < n)

/-- `[ t -gt n ]` -/
def testGt (t : Text) (n : ℤ) : Bool := (operand t).any (n < ·)

/-- `[ t -ge n ]` -/
def testGe (t : Text) (n : ℤ) : Bool := (operand t).any (n ≤ ·)

/-! ### The function -/

/-- The fields of `$NET` with `IFS=.` -/
def inetFields (net : Text) : List Text :=
  let pieces := net.splitOn '.'
  if pieces.getLast? = some [] then pieces.dropLast else pieces

/-- `is_inet` -/
def isInet (net : Text) : Bool :=
  let set := inetFields net
  let a := set.getD 0 []
  let b := set.getD 1 []
  let c := set.getD 2 []
  let d := set.getD 3 []
  if !isdigit a || !isdigit b || !isdigit c || !isdigit d then false
  else if a = [] || b = [] || c = [] || d = [] then false
  else if testLt a 0 || testGt a 255 || testLt b 0 || testGt b 255 || testLt c 0 || testGt c 255 then
    false
  else if testLt d 0 || testGe d 255 then false
  else true

/-- A decimal number up to `bound`. -/
def Number (bound : ℕ) (t : Text) : Prop := isdigit t = true ∧ decimalValue t ≤ bound

/-- Four numbers with dots between them, the last not that of a broadcast. -/
def HostAddress (s : Text) : Prop :=
  ∃ a b c d, s = a ++ '.' :: (b ++ '.' :: (c ++ '.' :: d)) ∧
    Number 255 a ∧ Number 255 b ∧ Number 255 c ∧ Number 254 d

/-- What the tests let pass: a number up to the bound or from 2^63 on. -/
def Passing (bound : ℕ) (t : Text) : Prop :=
  isdigit t = true ∧ (decimalValue t ≤ bound ∨ 2 ^ 63 ≤ decimalValue t)

/-- The first four pieces pass, and there is a dot after them or one of them is out of range. -/
def Mistaken (s : Text) : Prop :=
  ∃ a b c d rest, s.splitOn '.' = a :: b :: c :: d :: rest ∧
    Passing 255 a ∧ Passing 255 b ∧ Passing 255 c ∧ Passing 254 d ∧
    (rest ≠ [] ∨ 2 ^ 63 ≤ decimalValue a ∨ 2 ^ 63 ≤ decimalValue b ∨ 2 ^ 63 ≤ decimalValue c ∨
      2 ^ 63 ≤ decimalValue d)

/-! ### The tests -/

theorem testLt_zero (t : Text) : testLt t 0 = false := by
  rw [testLt, operand]
  split_ifs
  · rw [Option.any_some, decide_eq_false_iff_not]
    omega
  · rfl

theorem testGt_255 (t : Text) :
    testGt t 255 = false ↔ decimalValue t ≤ 255 ∨ 2 ^ 63 ≤ decimalValue t := by
  rw [testGt, operand]
  split_ifs with h
  · rw [Option.any_some, decide_eq_false_iff_not]
    omega
  · exact iff_of_true rfl (.inr (not_lt.mp h))

theorem testGe_255 (t : Text) :
    testGe t 255 = false ↔ decimalValue t ≤ 254 ∨ 2 ^ 63 ≤ decimalValue t := by
  rw [testGe, operand]
  split_ifs with h
  · rw [Option.any_some, decide_eq_false_iff_not]
    omega
  · exact iff_of_true rfl (.inr (not_lt.mp h))

theorem isdigit_ne_nil {t : Text} (h : isdigit t = true) : t ≠ [] := by
  rw [isdigit, Bool.and_eq_true] at h
  exact of_decide_eq_true h.1

theorem dot_not_mem {t : Text} (h : isdigit t = true) : '.' ∉ t := by
  rw [isdigit, Bool.and_eq_true, List.all_eq_true] at h
  intro hmem
  exact absurd (h.2 _ hmem) (by decide)

/-! ### The fields -/

/-- A missing field is as good as an empty one. -/
theorem getD_inetFields (s : Text) (i : ℕ) :
    (inetFields s).getD i [] = (s.splitOn '.').getD i [] := by
  rw [inetFields]
  split_ifs with h
  · obtain ⟨front, hfront⟩ := List.getLast?_eq_some_iff.mp h
    rw [hfront, List.dropLast_concat, List.getD_eq_getElem?_getD, List.getD_eq_getElem?_getD,
      List.getElem?_append]
    split_ifs with hi
    · rfl
    · rw [List.getElem?_eq_none (by omega), List.getElem?_singleton]
      split_ifs <;> rfl
  · rfl

theorem exists_pieces {l : List Text} (h : l.getD 3 [] ≠ []) :
    ∃ rest, l = l.getD 0 [] :: l.getD 1 [] :: l.getD 2 [] :: l.getD 3 [] :: rest := by
  match l with
  | a :: b :: c :: d :: rest => exact ⟨rest, rfl⟩
  | [] | [_] | [_, _] | [_, _, _] => exact absurd rfl h

theorem isInet_eq (s : Text) : isInet s = true ↔
    Passing 255 ((s.splitOn '.').getD 0 []) ∧ Passing 255 ((s.splitOn '.').getD 1 []) ∧
      Passing 255 ((s.splitOn '.').getD 2 []) ∧ Passing 254 ((s.splitOn '.').getD 3 []) := by
  rw [isInet, getD_inetFields, getD_inetFields, getD_inetFields, getD_inetFields]
  generalize (s.splitOn '.').getD 0 [] = a, (s.splitOn '.').getD 1 [] = b,
    (s.splitOn '.').getD 2 [] = c, (s.splitOn '.').getD 3 [] = d
  simp only [Passing, ← testGt_255, ← testGe_255]
  by_cases hdigit : isdigit a = true ∧ isdigit b = true ∧ isdigit c = true ∧ isdigit d = true
  · obtain ⟨ha, hb, hc, hd⟩ := hdigit
    simp [ha, hb, hc, hd, isdigit_ne_nil, testLt_zero, and_assoc]
  · have hreject : (!isdigit a || !isdigit b || !isdigit c || !isdigit d) = true := by
      by_contra h
      simp only [Bool.or_eq_true, Bool.not_eq_true', not_or, Bool.not_eq_false] at h
      exact hdigit ⟨h.1.1.1, h.1.1.2, h.1.2, h.2⟩
    rw [if_pos hreject]
    exact iff_of_false Bool.false_ne_true fun h => hdigit ⟨h.1.1, h.2.1.1, h.2.2.1.1, h.2.2.2.1⟩

theorem isInet_iff (s : Text) : isInet s = true ↔
    ∃ a b c d rest, s.splitOn '.' = a :: b :: c :: d :: rest ∧
      Passing 255 a ∧ Passing 255 b ∧ Passing 255 c ∧ Passing 254 d := by
  rw [isInet_eq]
  constructor
  · rintro ⟨ha, hb, hc, hd⟩
    obtain ⟨rest, hpieces⟩ := exists_pieces (isdigit_ne_nil hd.1)
    exact ⟨_, _, _, _, rest, hpieces, ha, hb, hc, hd⟩
  · rintro ⟨a, b, c, d, rest, hpieces, hpass⟩
    rw [hpieces]
    exact hpass

theorem hostAddress_iff (s : Text) : HostAddress s ↔
    ∃ a b c d, s.splitOn '.' = [a, b, c, d] ∧
      Number 255 a ∧ Number 255 b ∧ Number 255 c ∧ Number 254 d := by
  constructor
  · rintro ⟨a, b, c, d, rfl, ha, hb, hc, hd⟩
    refine ⟨a, b, c, d, ?_, ha, hb, hc, hd⟩
    rw [List.splitOn_append_cons_self_of_not_mem (dot_not_mem ha.1),
      List.splitOn_append_cons_self_of_not_mem (dot_not_mem hb.1),
      List.splitOn_append_cons_self_of_not_mem (dot_not_mem hc.1),
      List.splitOn_eq_singleton (dot_not_mem hd.1)]
  · rintro ⟨a, b, c, d, hpieces, hnumbers⟩
    refine ⟨a, b, c, d, ?_, hnumbers⟩
    have hjoin : ['.'].intercalate (s.splitOn '.') = s := List.intercalate_splitOn '.'
    rw [hpieces] at hjoin
    rw [← hjoin]
    simp [List.intercalate_cons_cons]

theorem Number.passing {bound : ℕ} {t : Text} (h : Number bound t) : Passing bound t :=
  ⟨h.1, .inl h.2⟩

theorem Passing.number {bound : ℕ} {t : Text} (h : Passing bound t)
    (hfits : ¬ 2 ^ 63 ≤ decimalValue t) : Number bound t :=
  ⟨h.1, h.2.resolve_right hfits⟩

/-- The check is right exactly for the texts whose first four pieces do not pass, or pass with
nothing after them and fit. -/
theorem isInet_exact_iff (s : Text) : (isInet s = true ↔ HostAddress s) ↔ ¬ Mistaken s := by
  rw [isInet_iff, hostAddress_iff]
  constructor
  · rintro hexact ⟨a, b, c, d, rest, hpieces, ha, hb, hc, hd, hwrong⟩
    obtain ⟨a', b', c', d', hfour, ha', hb', hc', hd'⟩ :=
      hexact.mp ⟨a, b, c, d, rest, hpieces, ha, hb, hc, hd⟩
    rw [hpieces] at hfour
    obtain ⟨rfl, rfl, rfl, rfl, rfl⟩ : a = a' ∧ b = b' ∧ c = c' ∧ d = d' ∧ rest = [] := by
      simpa using hfour
    have := ha'.2
    have := hb'.2
    have := hc'.2
    have := hd'.2
    rcases hwrong with hrest | hwrong
    · exact hrest rfl
    · omega
  · intro hright
    constructor
    · rintro ⟨a, b, c, d, rest, hpieces, ha, hb, hc, hd⟩
      have hfits : ¬ (rest ≠ [] ∨ 2 ^ 63 ≤ decimalValue a ∨ 2 ^ 63 ≤ decimalValue b ∨
          2 ^ 63 ≤ decimalValue c ∨ 2 ^ 63 ≤ decimalValue d) :=
        fun hwrong => hright ⟨a, b, c, d, rest, hpieces, ha, hb, hc, hd, hwrong⟩
      simp only [not_or, not_not] at hfits
      obtain ⟨rfl, hfa, hfb, hfc, hfd⟩ := hfits
      exact ⟨a, b, c, d, hpieces, ha.number hfa, hb.number hfb, hc.number hfc, hd.number hfd⟩
    · rintro ⟨a, b, c, d, hpieces, ha, hb, hc, hd⟩
      exact ⟨a, b, c, d, [], hpieces, ha.passing, hb.passing, hc.passing, hd.passing⟩

theorem not_hostAddress {s : Text} (h : (s.splitOn '.').length ≠ 4) : ¬ HostAddress s := by
  intro hhost
  obtain ⟨a, b, c, d, hpieces, _⟩ := (hostAddress_iff s).mp hhost
  exact h (by rw [hpieces]; rfl)

/-- A fifth number is not looked at. -/
theorem isInet_mistaken : isInet "1.2.3.4.5".toList = true ∧ ¬ HostAddress "1.2.3.4.5".toList :=
  ⟨by decide, not_hostAddress (by decide)⟩

/-- A number that no test can read is not too large. -/
example : isInet "99999999999999999999.2.3.4".toList = true := by decide

end CargosBuildroot.Bootstrap
