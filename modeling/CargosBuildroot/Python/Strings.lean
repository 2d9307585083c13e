import CargosBuildroot.Shell.Fields

/-! Strings of Python 2, as texts of one character a byte. -/

namespace CargosBuildroot.Python

open Shell

def isWhitespace (c : Char) : Bool :=
  c = ' ' || c = '\t' || c = '\n' || c = '\r' || c = '\x0b' || c = '\x0c'

/-- `t.strip()` -/
def strip (t : Text) : Text := (t.dropWhile isWhitespace).rdropWhile isWhitespace

/-- `int(t)`; `none` is a `ValueError`. -/
def int (t : Text) : Option ℤ :=
  let (neg, ds) := signed (strip t)
  if ds ≠ [] && ds.all Char.isDigit then
    let n : ℤ := Nat.ofDigitChars 10 ds 0
    some (if neg then -n else n)
  else none

/-- The lines of a file, each with the newline that ends it. -/
def readlines : Text → List Text
  | [] => []
  | c :: t =>
    if c = '\n' then [c] :: readlines t
    else match readlines t with
      | [] => [[c]]
      | l :: ls => (c :: l) :: ls

/-- `os.path.join(a, b)` -/
def join (a b : Text) : Text :=
  if b.head? = some '/' then b
  else if a = [] ∨ a.getLast? = some '/' then a ++ b
  else a ++ '/' :: b

/-! ### White space around a text -/

/-- The text does not begin or end with white space. -/
def Stripped (t : Text) : Prop :=
  (∀ c, t.head? = some c → isWhitespace c = false) ∧ ∀ c, t.getLast? = some c → isWhitespace c = false

theorem dropWhile_append_of_all {p : Char → Bool} {a b : Text} (h : ∀ c ∈ a, p c = true) :
    (a ++ b).dropWhile p = b.dropWhile p := by
  induction a with
  | nil => rfl
  | cons c a ih =>
    rw [List.forall_mem_cons] at h
    rw [List.cons_append, List.dropWhile_cons_of_pos h.1, ih h.2]

theorem strip_append {a t b : Text} (ha : ∀ c ∈ a, isWhitespace c = true) (ht : Stripped t)
    (hb : ∀ c ∈ b, isWhitespace c = true) : strip (a ++ t ++ b) = t := by
  rw [strip, List.append_assoc, dropWhile_append_of_all ha]
  have hrdrop : ∀ u : Text, (u ++ b).rdropWhile isWhitespace = u.rdropWhile isWhitespace := by
    intro u
    rw [List.rdropWhile, List.rdropWhile, List.reverse_append,
      dropWhile_append_of_all fun c hc => hb c (List.mem_reverse.mp hc)]
  cases t with
  | nil =>
    rw [List.nil_append, ← List.append_nil b, dropWhile_append_of_all hb]
    rfl
  | cons c t =>
    have hc : isWhitespace c = false := ht.1 c rfl
    rw [List.cons_append, List.dropWhile_cons_of_neg (by simp [hc]), ← List.cons_append, hrdrop,
      List.rdropWhile_eq_self_iff]
    intro hne
    rw [ht.2 _ (List.getLast?_eq_some_getLast hne)]
    decide

theorem strip_of_stripped {t : Text} (h : Stripped t) : strip t = t := by
  simpa using strip_append (a := []) (b := []) (by simp) h (by simp)

/-! ### Numbers -/

theorem stripped_digits {ds : Text} (h : ∀ c ∈ ds, c.isDigit = true) : Stripped ds := by
  have hdigit : ∀ c ∈ ds, isWhitespace c = false := by
    intro c hc
    by_contra hs
    simp only [isWhitespace, Bool.or_eq_true, decide_eq_true_eq, Bool.not_eq_false] at hs
    rcases hs with ((((rfl | rfl) | rfl) | rfl) | rfl) | rfl <;> exact absurd (h _ hc) (by decide)
  exact ⟨fun c hc => hdigit c (List.mem_of_head? hc), fun c hc => hdigit c (List.mem_of_getLast? hc)⟩

theorem int_toDigits (n : ℕ) : int (Nat.toDigits 10 n) = some (n : ℤ) := by
  have hdigit : ∀ c ∈ Nat.toDigits 10 n, c.isDigit = true :=
    fun c hc => Nat.isDigit_of_mem_toDigits (by decide) (by decide) hc
  have hsigned : signed (Nat.toDigits 10 n) = (false, Nat.toDigits 10 n) := by
    have h := signed_decimal n
    rwa [decimal, if_neg (by omega), Int.natAbs_natCast, decide_eq_false (by omega)] at h
  have hall : (Nat.toDigits 10 n).all Char.isDigit = true := List.all_eq_true.mpr hdigit
  rw [int, strip_of_stripped (stripped_digits hdigit), hsigned]
  simp [hall, Nat.toDigits_ne_nil, Nat.ofDigitChars_ten_toDigits]

/-! ### Lines of a file -/

theorem readlines_line {l : Text} (hl : '\n' ∉ l) (t : Text) :
    readlines (l ++ '\n' :: t) = (l ++ ['\n']) :: readlines t := by
  induction l with
  | nil => rw [List.nil_append, readlines, if_pos rfl, List.nil_append]
  | cons c l ih =>
    rw [List.mem_cons, not_or] at hl
    rw [List.cons_append, readlines, if_neg (fun h => hl.1 h.symm), ih hl.2]
    rfl

theorem readlines_unlines {ls : List Text} (h : ∀ l ∈ ls, '\n' ∉ l) :
    readlines (unlines ls) = ls.map (· ++ ['\n']) := by
  induction ls with
  | nil => rfl
  | cons l ls ih =>
    rw [List.forall_mem_cons] at h
    rw [unlines, List.flatMap_cons, List.append_assoc, List.singleton_append, readlines_line h.1,
      ← unlines, ih h.2, List.map_cons]

end CargosBuildroot.Python
