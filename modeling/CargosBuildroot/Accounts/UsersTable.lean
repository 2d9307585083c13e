import CargosBuildroot.Shell.Printf
import Mathlib.Tactic.Common

/-! The users table and the entries that `mkusers` reads from it. The build
concatenates the tables of the configuration and adds the users of the packages;
`sed` strips comments and empty lines, and `while read line` hands on the lines.
A table without a final newline runs into what follows it. -/

namespace CargosBuildroot.Accounts

open Shell

/-! ### The table and its reading -/

/-- `_users_table.txt`: the tables in `BR2_ROOTFS_USERS_TABLES`, and after them
`PACKAGES_USERS`. -/
def usersTable (tables : List Text) (packagesUsers : Text) : Option Text :=
  (printfOutput packagesUsers).map (tables.flatten ++ ·)

/-- `[[:space:]]` -/
def isSpaceClass (c : Char) : Bool :=
  c = ' ' || c = '\t' || c = '\n' || c = '\x0b' || c = '\x0c' || c = '\r'

/-- `s/#.*//` -/
def stripComment (line : Text) : Text := line.takeWhile (· ≠ '#')

/-- `/^[[:space:]]*$/` -/
def isEmptyLine (line : Text) : Bool := line.all isSpaceClass

/-- The lines of a text without comments, but for the empty ones. -/
def tableLines (t : Text) : List Text := ((lines t).map stripComment).filter (!isEmptyLine ·)

/-- `sed -r -e 's/#.*//; /^[[:space:]]*$/d;'`; a last line without a newline is written
without one. -/
def sedTable (t : Text) : Text :=
  let last := stripComment ((lines t).getLastD [])
  unlines (((lines t).dropLast.map stripComment).filter (!isEmptyLine ·)) ++
    if isEmptyLine last then [] else last

/-- The value of `line` after `read line`. -/
def readLine (l : List QChar) : Text := dequote ((l.dropWhile separates).rdropWhile separates)

/-- `ENTRIES`, for a users table. -/
def entries (t : Text) : List Text := (readLines (sedTable t)).map readLine

/-- The entries that `mkusers` reads. -/
def tableEntries (tables : List Text) (packagesUsers : Text) : Option (List Text) :=
  (usersTable tables packagesUsers).map entries

/-! ### What the entries should be -/

/-- A line without the blanks around it. -/
def trimBlanks (l : Text) : Text := (l.dropWhile isBlank).rdropWhile isBlank

/-- The entries of one text. -/
def textEntries (t : Text) : List Text := (tableLines t).map trimBlanks

/-- The entries of each table, followed by those of the packages. -/
def expectedEntries (tables : List Text) (packagesUsers : Text) : List Text :=
  tables.flatMap textEntries ++ textEntries packagesUsers

/-! ### Lines of texts put together -/

/-- The part of a text after its last newline. -/
def lastPiece (t : Text) : Text := (lines t).getLastD []

/-- The part of a text before its first newline. -/
def firstLine (t : Text) : Text := (lines t).headD []

/-- The entry of one line, if it has one. -/
def lineEntries (l : Text) : List Text :=
  if isEmptyLine (stripComment l) then [] else [trimBlanks (stripComment l)]

theorem textEntries_eq (t : Text) : textEntries t = (lines t).flatMap lineEntries := by
  rw [textEntries, tableLines]
  induction lines t with
  | nil => rfl
  | cons l ls ih =>
    rw [List.map_cons, List.filter_cons, List.flatMap_cons, ← ih, lineEntries]
    cases isEmptyLine (stripComment l) <;> simp

/-! ### Trimming -/

theorem isEmptyLine_of_blank {l : Text} (h : l.all isBlank = true) : isEmptyLine l = true := by
  rw [List.all_eq_true] at h
  rw [isEmptyLine, List.all_eq_true]
  intro c hc
  have hblank := h c hc
  simp only [isBlank, Bool.or_eq_true, decide_eq_true_eq] at hblank
  rcases hblank with rfl | rfl <;> rfl

theorem dropWhile_eq_nil_iff (l : Text) : l.dropWhile isBlank = [] ↔ l.all isBlank = true := by
  rw [List.dropWhile_eq_nil_iff, List.all_eq_true]

theorem rdropWhile_eq_nil_iff (l : Text) : l.rdropWhile isBlank = [] ↔ l.all isBlank = true := by
  rw [List.rdropWhile_eq_nil_iff, List.all_eq_true]

theorem rdropWhile_append (a : Text) {s : Text} (hs : s.all isBlank = false) :
    (a ++ s).rdropWhile isBlank = a ++ s.rdropWhile isBlank := by
  have hne : s.rdropWhile isBlank ≠ [] := by
    rw [Ne, rdropWhile_eq_nil_iff, hs]
    exact Bool.false_ne_true
  rw [List.rdropWhile, List.rdropWhile, List.reverse_append, List.dropWhile_append]
  have hrev : (s.reverse.dropWhile isBlank).isEmpty = false := by
    rw [List.rdropWhile, Ne, List.reverse_eq_nil_iff] at hne
    simpa using hne
  rw [hrev, if_neg (by simp), List.reverse_append, List.reverse_reverse]

theorem rdropWhile_append_blank (a : Text) {s : Text} (hs : s.all isBlank = true) :
    (a ++ s).rdropWhile isBlank = a.rdropWhile isBlank := by
  have hrev : s.reverse.dropWhile isBlank = [] := by
    rw [dropWhile_eq_nil_iff, List.all_reverse, hs]
  rw [List.rdropWhile, List.rdropWhile, List.reverse_append, List.dropWhile_append, hrev]
  rfl

theorem dropWhile_append_blank {a : Text} (ha : a.all isBlank = true) (s : Text) :
    (a ++ s).dropWhile isBlank = s.dropWhile isBlank := by
  rw [List.dropWhile_append, (dropWhile_eq_nil_iff a).mpr ha]
  rfl

theorem dropWhile_append_of_not_blank {a : Text} (ha : a.all isBlank = false) (s : Text) :
    (a ++ s).dropWhile isBlank = a.dropWhile isBlank ++ s := by
  have hne : a.dropWhile isBlank ≠ [] := by
    rw [Ne, dropWhile_eq_nil_iff, ha]
    exact Bool.false_ne_true
  rw [List.dropWhile_append, if_neg (by simpa using hne)]

theorem trimBlanks_blank_append {a : Text} (ha : a.all isBlank = true) (s : Text) :
    trimBlanks (a ++ s) = trimBlanks s := by
  rw [trimBlanks, dropWhile_append_blank ha, trimBlanks]

theorem trimBlanks_append_blank (a : Text) {s : Text} (hs : s.all isBlank = true) :
    trimBlanks (a ++ s) = trimBlanks a := by
  cases ha : a.all isBlank with
  | true =>
    have hnil : trimBlanks a = [] := by rw [trimBlanks, (dropWhile_eq_nil_iff a).mpr ha]; rfl
    have hnil' : trimBlanks s = [] := by rw [trimBlanks, (dropWhile_eq_nil_iff s).mpr hs]; rfl
    rw [trimBlanks_blank_append ha, hnil, hnil']
  | false => rw [trimBlanks, dropWhile_append_of_not_blank ha, rdropWhile_append_blank _ hs, trimBlanks]

/-- Two parts with text of their own: what stands between them stays. -/
theorem trimBlanks_append {a s : Text} (ha : a.all isBlank = false) (hs : s.all isBlank = false) :
    trimBlanks (a ++ s) = a.dropWhile isBlank ++ s.rdropWhile isBlank := by
  rw [trimBlanks, dropWhile_append_of_not_blank ha, rdropWhile_append _ hs]

theorem trimBlanks_prefix (a : Text) : ∃ rest, a.dropWhile isBlank = trimBlanks a ++ rest := by
  obtain ⟨rest, hrest⟩ := List.rdropWhile_prefix isBlank (l := a.dropWhile isBlank)
  exact ⟨rest, hrest.symm⟩

theorem trimBlanks_suffix {s : Text} (hs : s.all isBlank = false) :
    ∃ start, s.rdropWhile isBlank = start ++ trimBlanks s := by
  obtain ⟨start, hstart⟩ := List.dropWhile_suffix isBlank (l := s)
  refine ⟨start, ?_⟩
  have hall : (s.dropWhile isBlank).all isBlank = false := by
    have hne : s.dropWhile isBlank ≠ [] := by
      rw [Ne, dropWhile_eq_nil_iff, hs]
      exact Bool.false_ne_true
    have hhead := List.head_dropWhile_not isBlank hne
    rw [List.all_eq_false]
    exact ⟨_, List.head_mem hne, by simp [hhead]⟩
  rw [trimBlanks, ← rdropWhile_append _ hall, hstart]

end CargosBuildroot.Accounts
