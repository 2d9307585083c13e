import CargosBuildroot.Shell.Read
import Mathlib.Algebra.Group.Nat.Defs

/-! The conversions of `sscanf` that a device table needs, and `strtoul`. A conversion
that finds nothing to read ends the scan, and what was not assigned until then keeps
its old value. -/

namespace CargosBuildroot.Makedevs

open Shell

/-- White space in the C locale. -/
def isspace (c : Char) : Bool :=
  c = ' ' || c = '\t' || c = '\n' || c = '\x0b' || c = '\x0c' || c = '\r'

/-! ### Numbers -/

def isDigit (base : ℕ) (c : Char) : Bool := c.isDigit && c.toNat - 48 < base

def digitsValue (base : ℕ) (ds : Text) : ℕ := ds.foldl (fun n c => n * base + (c.toNat - 48)) 0

def ulongMax : ℕ := 2 ^ 64 - 1

/-- The number with a sign, as an `unsigned long`. -/
def signed (negative : Bool) (n : ℕ) : ℕ :=
  if ulongMax < n then ulongMax else if negative then (2 ^ 64 - n) % 2 ^ 64 else n

/-- A number after white space, and what follows it. -/
def number (base : ℕ) (t : Text) : Option (ℕ × Text) :=
  let r := t.dropWhile isspace
  let negative := r.head? = some '-'
  let r := if negative ∨ r.head? = some '+' then r.tail else r
  if r.takeWhile (isDigit base) = [] then none
  else some (signed negative (digitsValue base (r.takeWhile (isDigit base))),
    r.dropWhile (isDigit base))

/-- The value, and what `endptr` points to. -/
def strtoul (base : ℕ) (t : Text) : ℕ × Text := (number base t).getD (0, t)

/-! ### Conversions -/

/-- `%ns` -/
def scanString (n : ℕ) (t : Text) : Option (Text × Text) :=
  let r := t.dropWhile isspace
  let w := (r.takeWhile (!isspace ·)).take n
  if r = [] then none else some (w, r.drop w.length)

/-- A blank and `%c` -/
def scanChar (t : Text) : Option (Char × Text) :=
  match t.dropWhile isspace with
  | [] => none
  | c :: r => some (c, r)

/-- `%o` and `%u` -/
def scanUnsigned (base : ℕ) (t : Text) : Option (UInt32 × Text) :=
  (number base t).map fun v => (UInt32.ofNat v.1, v.2)

/-- The number of values that were assigned, and the values. -/
structure Scanned where
  assigned : ℕ := 0
  name : Option Text := none
  type : Option Char := none
  mode : Option UInt32 := none
  user : Option Text := none
  group : Option Text := none
  major : Option UInt32 := none
  minor : Option UInt32 := none
  start : Option UInt32 := none
  increment : Option UInt32 := none
  count : Option UInt32 := none
  deriving DecidableEq

abbrev Conversion := Text → Scanned → Option (Scanned × Text)

def conversion {α : Type} (read : Text → Option (α × Text)) (store : α → Scanned → Scanned) :
    Conversion := fun t s =>
  (read t).map fun v => ({ store v.1 s with assigned := s.assigned + 1 }, v.2)

/-- The conversions from left to right, up to the first that fails. -/
def scan : List Conversion → Text → Scanned → Scanned
  | [], _, s => s
  | c :: cs, t, s =>
    match c t s with
    | some (s', r) => scan cs r s'
    | none => s

/-- `%4095s %c %o %40s %40s %u %u %u %u %u` -/
def tableFormat : List Conversion :=
  [conversion (scanString 4095) fun v s => { s with name := some v },
    conversion scanChar fun v s => { s with type := some v },
    conversion (scanUnsigned 8) fun v s => { s with mode := some v },
    conversion (scanString 40) fun v s => { s with user := some v },
    conversion (scanString 40) fun v s => { s with group := some v },
    conversion (scanUnsigned 10) fun v s => { s with major := some v },
    conversion (scanUnsigned 10) fun v s => { s with minor := some v },
    conversion (scanUnsigned 10) fun v s => { s with start := some v },
    conversion (scanUnsigned 10) fun v s => { s with increment := some v },
    conversion (scanUnsigned 10) fun v s => { s with count := some v }]

/-- An entry line. The end of the line before the first value counts as no value. -/
def sscanf (line : Text) : Scanned := scan tableFormat line {}

/-- `|xattr %254s` -/
def scanXattr (line : Text) : Option Text :=
  if "|xattr".toList.isPrefixOf line then (scanString 254 (line.drop 6)).map Prod.fst else none

/-! ### Fields between white space -/

/-- White space or the end of the line is next. -/
def FieldEnd (rest : Text) : Prop := ∀ c ∈ rest.head?, isspace c = true

theorem not_isspace_of_isDigit {base : ℕ} {c : Char} (h : isDigit base c = true) :
    isspace c = false := by
  have hdigit : c.isDigit = true := (Bool.and_eq_true_iff.mp h).1
  by_contra hspace
  simp only [isspace, Bool.or_eq_true, decide_eq_true_eq, Bool.not_eq_false] at hspace
  rcases hspace with ((((rfl | rfl) | rfl) | rfl) | rfl) | rfl <;> exact absurd hdigit (by decide)

theorem dropWhile_gap {gap rest : Text} (hgap : ∀ c ∈ gap, isspace c = true)
    (hrest : ∀ c ∈ rest.head?, isspace c = false) : (gap ++ rest).dropWhile isspace = rest := by
  rw [List.dropWhile_append_of_pos hgap]
  cases rest with
  | nil => rfl
  | cons c rest => exact List.dropWhile_cons_of_neg (by simp [hrest c rfl])

theorem takeWhile_field {p : Char → Bool} {field rest : Text} (hfield : ∀ c ∈ field, p c = true)
    (hrest : ∀ c ∈ rest.head?, p c = false) :
    (field ++ rest).takeWhile p = field ∧ (field ++ rest).dropWhile p = rest := by
  rw [List.takeWhile_append_of_pos hfield, List.dropWhile_append_of_pos hfield]
  cases rest with
  | nil => simp
  | cons c rest =>
    have hc := hrest c rfl
    simp [hc]

theorem head?_append {field rest : Text} (h : field ≠ []) : (field ++ rest).head? = field.head? := by
  obtain ⟨c, t, rfl⟩ := List.exists_cons_of_ne_nil h
  rfl

/-- A number is read up to the end of its field. -/
theorem number_field {base : ℕ} {gap digits rest : Text} (hgap : ∀ c ∈ gap, isspace c = true)
    (hne : digits ≠ []) (hdigits : ∀ c ∈ digits, isDigit base c = true) (hend : FieldEnd rest) :
    number base (gap ++ (digits ++ rest)) = some (signed false (digitsValue base digits), rest) := by
  have hsign : ∀ c ∈ (digits ++ rest).head?, c ≠ '-' ∧ c ≠ '+' := by
    rw [head?_append hne]
    intro c hc
    have hdigit := hdigits c (List.mem_of_head? hc)
    constructor <;>
    · rintro rfl
      exact absurd hdigit (by simp [isDigit])
  have hspace : ∀ c ∈ (digits ++ rest).head?, isspace c = false := by
    rw [head?_append hne]
    exact fun c hc => not_isspace_of_isDigit (hdigits c (List.mem_of_head? hc))
  have hrest : ∀ c ∈ rest.head?, isDigit base c = false := by
    intro c hc
    by_contra hdigit
    rw [Bool.not_eq_false] at hdigit
    exact Bool.noConfusion ((hend c hc).symm.trans (not_isspace_of_isDigit hdigit))
  have hminus : ¬ (digits ++ rest).head? = some '-' := fun h => (hsign '-' h).1 rfl
  have hplus : ¬ (digits ++ rest).head? = some '+' := fun h => (hsign '+' h).2 rfl
  rw [number, dropWhile_gap hgap hspace]
  simp only [hminus, hplus, decide_false, or_false, if_false,
    takeWhile_field hdigits hrest, hne]

/-- No number is read from a `-`. -/
theorem number_dash (base : ℕ) {gap rest : Text} (hgap : ∀ c ∈ gap, isspace c = true)
    (hend : FieldEnd rest) : number base (gap ++ '-' :: rest) = none := by
  have hrest : rest.takeWhile (isDigit base) = [] := by
    cases rest with
    | nil => rfl
    | cons c rest =>
      refine List.takeWhile_cons_of_neg fun hdigit => ?_
      exact Bool.noConfusion ((hend c rfl).symm.trans (not_isspace_of_isDigit hdigit))
  rw [number, dropWhile_gap hgap (by simp [isspace])]
  simp [hrest]

theorem scanString_field {n : ℕ} {gap field rest : Text} (hgap : ∀ c ∈ gap, isspace c = true)
    (hne : field ≠ []) (hfield : ∀ c ∈ field, isspace c = false) (hlength : field.length ≤ n)
    (hend : FieldEnd rest) : scanString n (gap ++ (field ++ rest)) = some (field, rest) := by
  have hspace : ∀ c ∈ (field ++ rest).head?, isspace c = false := by
    rw [head?_append hne]
    exact fun c hc => hfield c (List.mem_of_head? hc)
  have htake : (field ++ rest).takeWhile (!isspace ·) = field :=
    (takeWhile_field (fun c hc => by rw [hfield c hc]; rfl) fun c hc => by rw [hend c hc]; rfl).1
  rw [scanString, dropWhile_gap hgap hspace, if_neg (by simp [hne]), htake, List.take_of_length_le hlength, List.drop_left]

theorem scanChar_field {gap rest : Text} {c : Char} (hgap : ∀ c ∈ gap, isspace c = true)
    (hc : isspace c = false) : scanChar (gap ++ c :: rest) = some (c, rest) := by
  rw [scanChar, dropWhile_gap hgap (by simpa using hc)]

/-! ### Which values were assigned -/

theorem scan_conversion {α : Type} (read : Text → Option (α × Text)) (store : α → Scanned → Scanned)
    (cs : List Conversion) (t : Text) (s : Scanned) :
    scan (conversion read store :: cs) t s =
      match read t with
      | some (v, r) => scan cs r { store v s with assigned := s.assigned + 1 }
      | none => s := by
  rw [scan, conversion]
  cases read t <;> rfl

/-- The values are assigned in order. -/
structure InOrder (s : Scanned) : Prop where
  name : s.name.isSome = true ↔ 1 ≤ s.assigned
  type : s.type.isSome = true ↔ 2 ≤ s.assigned
  user : s.user.isSome = true ↔ 4 ≤ s.assigned
  group : s.group.isSome = true ↔ 5 ≤ s.assigned

theorem sscanf_inOrder (line : Text) : InOrder (sscanf line) := by
  unfold sscanf tableFormat
  simp only [scan_conversion]
  repeat' split
  all_goals constructor <;> simp [scan]

end CargosBuildroot.Makedevs
