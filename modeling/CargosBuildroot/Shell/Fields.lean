import CargosBuildroot.Shell.Words
import CargosBuildroot.Shell.Doubles

/-! Lines of colon-separated fields, and numbers as awk and `printf` read and
write them; awk computes with doubles. Exponents and fractions are left out. -/

namespace CargosBuildroot.Shell

/-! ### Fields -/

/-- The pieces of a text hold its characters but for the separator. -/
theorem mem_piece {x sep : Char} {t m : Text} (hm : m ∈ t.splitOn sep) (hx : x ∈ m) :
    x ∈ t ∧ x ≠ sep := by
  induction t generalizing m with
  | nil => simp_all
  | cons y t ih =>
    rw [List.splitOn_cons_eq_if_modifyHead] at hm
    split at hm
    · rcases List.mem_cons.mp hm with rfl | hm
      · simp at hx
      · exact (ih hm hx).imp_left (List.mem_cons_of_mem _)
    · rename_i hy
      cases hs : t.splitOn sep with
      | nil => simp [hs] at hm
      | cons m' ms =>
        rw [hs, List.modifyHead_cons] at hm
        rcases List.mem_cons.mp hm with rfl | hm
        · rcases List.mem_cons.mp hx with rfl | hx
          · exact ⟨List.mem_cons_self, by simpa using hy⟩
          · exact (ih (by simp [hs]) hx).imp_left (List.mem_cons_of_mem _)
        · exact (ih (by simp [hs, hm]) hx).imp_left (List.mem_cons_of_mem _)

/-- The fields of a line under `awk -F:`. -/
def fields (line : Text) : List Text := line.splitOn ':'

/-- `$n` in awk; empty beyond the last field. -/
def field (n : ℕ) (line : Text) : Text := (fields line).getD (n - 1) []

/-- The line starts with the name and a colon, as selected by `/^name:/` for a
name without special characters. -/
def hasName (name line : Text) : Bool := (name ++ [':']).isPrefixOf line

theorem fields_cons {name : Text} (h : ':' ∉ name) (rest : Text) :
    fields (name ++ ':' :: rest) = name :: fields rest :=
  List.splitOn_append_cons_self_of_not_mem h rest

theorem fields_of_not_mem {t : Text} (h : ':' ∉ t) : fields t = [t] :=
  List.splitOn_eq_singleton h

theorem hasName_iff {name line : Text} :
    hasName name line = true ↔ ∃ rest, line = name ++ ':' :: rest := by
  rw [hasName, List.isPrefixOf_iff_prefix]
  constructor
  · rintro ⟨rest, rfl⟩
    exact ⟨rest, by simp⟩
  · rintro ⟨rest, rfl⟩
    exact ⟨rest, by simp⟩

theorem hasName_line (name rest : Text) : hasName name (name ++ ':' :: rest) = true :=
  hasName_iff.mpr ⟨rest, rfl⟩

theorem field_one {name line : Text} (hname : ':' ∉ name) (h : hasName name line = true) :
    field 1 line = name := by
  obtain ⟨rest, rfl⟩ := hasName_iff.mp h
  simp [field, fields_cons hname]

theorem hasName_field_one {line : Text} (hcolon : ':' ∈ line) :
    hasName (field 1 line) line = true := by
  obtain ⟨name, rest, rfl, hname⟩ := List.eq_append_cons_of_mem hcolon
  rw [field_one hname (hasName_line name rest)]
  exact hasName_line name rest

theorem hasName_iff_field_one {name line : Text} (hname : ':' ∉ name) (hcolon : ':' ∈ line) :
    hasName name line = true ↔ field 1 line = name :=
  ⟨field_one hname, fun h => h ▸ hasName_field_one hcolon⟩

theorem hasName_of_ne {a b line : Text} (ha : ':' ∉ a) (hb : ':' ∉ b) (hab : a ≠ b)
    (h : hasName a line = true) : hasName b line = false := by
  by_contra hb'
  exact hab (by rw [← field_one ha h, field_one hb (by simpa using hb')])

/-! ### Numbers -/

/-- `printf "%d"` of an integer. -/
def decimal (n : ℤ) : Text :=
  if n < 0 then '-' :: Nat.toDigits 10 n.natAbs else Nat.toDigits 10 n.natAbs

/-- The sign and the digits of a number. -/
def signed : Text → Bool × Text
  | '-' :: t => (true, t)
  | '+' :: t => (false, t)
  | t => (false, t)

/-- The number that a field starts with, 0 if there is none. -/
def leadingInt (t : Text) : ℤ :=
  let (neg, ds) := signed (t.dropWhile isSpace)
  let n : ℤ := Nat.ofDigitChars 10 (ds.takeWhile Char.isDigit) 0
  if neg then -n else n

/-- `printf "%d"` in awk for a field. -/
def awkInt (t : Text) : ℤ := rounded (leadingInt t)

/-- The field looks like a number. -/
def numeric (t : Text) : Bool :=
  let ds := (signed ((t.dropWhile isSpace).rdropWhile isSpace)).2
  ds ≠ [] && ds.all Char.isDigit

/-- `$n == id` for an integer `id`: a field that looks like a number is compared
as one, and no other field is equal to `id`. -/
def awkEq (t : Text) (id : ℤ) : Bool := numeric t && double (leadingInt t) == double id

theorem mem_decimal {n : ℤ} {c : Char} (h : c ∈ decimal n) : c = '-' ∨ c.isDigit = true := by
  unfold decimal at h
  split at h
  · exact (List.mem_cons.mp h).imp_right (Nat.isDigit_of_mem_toDigits (by decide) (by decide))
  · exact .inr (Nat.isDigit_of_mem_toDigits (by decide) (by decide) h)

theorem not_mem_decimal {n : ℤ} {c : Char} (hm : c ≠ '-') (hd : c.isDigit = false) :
    c ∉ decimal n := by
  intro h
  rcases mem_decimal h with rfl | h
  · exact hm rfl
  · simp [hd] at h

theorem decimal_ne_nil (n : ℤ) : decimal n ≠ [] := by
  unfold decimal
  split
  · exact List.cons_ne_nil _ _
  · exact Nat.toDigits_ne_nil

theorem trim_decimal (n : ℤ) :
    (decimal n).dropWhile isSpace = decimal n ∧ (decimal n).rdropWhile isSpace = decimal n := by
  have hspace : ∀ c ∈ decimal n, isSpace c = false := by
    intro c hc
    by_contra hs
    simp only [isSpace, Bool.or_eq_true, decide_eq_true_eq, Bool.not_eq_false] at hs
    rcases hs with (rfl | rfl) | rfl <;> exact not_mem_decimal (by decide) (by decide) hc
  constructor
  · rw [List.dropWhile_eq_self_iff]
    intro hl
    simp [hspace]
  · rw [List.rdropWhile_eq_self_iff]
    intro hl
    simp [hspace]

/-- A number is written as a sign and digits, and these are read back. -/
theorem signed_decimal (n : ℤ) :
    signed (decimal n) = (decide (n < 0), Nat.toDigits 10 n.natAbs) := by
  by_cases hn : n < 0
  · simp [decimal, hn, signed]
  · have hdigit : ∀ c ∈ Nat.toDigits 10 n.natAbs, c.isDigit = true :=
      fun c hc => Nat.isDigit_of_mem_toDigits (by decide) (by decide) hc
    rw [decimal, if_neg hn]
    cases hd : Nat.toDigits 10 n.natAbs with
    | nil => exact absurd hd Nat.toDigits_ne_nil
    | cons c t =>
      have hc : c.isDigit = true := hdigit c (by simp [hd])
      rw [signed.eq_3]
      · simp [hn]
      all_goals rintro _ h
      all_goals obtain ⟨rfl, -⟩ := List.cons.inj h
      all_goals exact absurd hc (by decide)

theorem takeWhile_toDigits (n : ℕ) :
    (Nat.toDigits 10 n).takeWhile Char.isDigit = Nat.toDigits 10 n :=
  List.takeWhile_eq_self_iff.mpr fun _ hc => Nat.isDigit_of_mem_toDigits (by decide) (by decide) hc

theorem leadingInt_decimal (n : ℤ) : leadingInt (decimal n) = n := by
  rw [leadingInt, (trim_decimal n).1, signed_decimal]
  simp only [takeWhile_toDigits, Nat.ofDigitChars_ten_toDigits, decide_eq_true_eq]
  split <;> omega

theorem decimal_inj {n m : ℤ} : decimal n = decimal m ↔ n = m :=
  ⟨fun h => by rw [← leadingInt_decimal n, h, leadingInt_decimal], fun h => h ▸ rfl⟩

theorem awkInt_decimal (n : ℤ) : awkInt (decimal n) = rounded n := by
  rw [awkInt, leadingInt_decimal]

/-- What awk has printed, it reads again. -/
theorem awkInt_again (t : Text) : awkInt (decimal (awkInt t)) = awkInt t := by
  rw [awkInt_decimal]
  exact rounded_rounded _

theorem numeric_decimal (n : ℤ) : numeric (decimal n) = true := by
  have hdigit : ∀ c ∈ Nat.toDigits 10 n.natAbs, c.isDigit = true :=
    fun c hc => Nat.isDigit_of_mem_toDigits (by decide) (by decide) hc
  rw [numeric, (trim_decimal n).1, (trim_decimal n).2, signed_decimal]
  simpa [Nat.toDigits_ne_nil] using hdigit

theorem awkEq_decimal {n m : ℤ} (hn : Fits n) (hm : Fits m) :
    awkEq (decimal n) m = true ↔ rounded n = rounded m := by
  rw [awkEq, numeric_decimal, leadingInt_decimal, Bool.true_and, beq_iff_eq, double_eq_iff hn hm]

end CargosBuildroot.Shell
