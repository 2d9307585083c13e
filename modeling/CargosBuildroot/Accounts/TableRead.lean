import CargosBuildroot.Accounts.TableJoin
import Mathlib.Algebra.BigOperators.Group.List.Basic
import Mathlib.Algebra.GroupWithZero.Nat

/-! Backslashes in the users table. `read` without `-r` drops every backslash that no
other one quotes, so a table with a backslash outside its comments gives entries with
fewer backslashes than it should. -/

namespace CargosBuildroot.Accounts

open Shell

/-! ### Counting what `read` does not take literally -/

/-- The number of backslashes and NULs. -/
def weight (t : Text) : ℕ := t.countP fun c => c = '\\' || c = '\x00'

def totalWeight (ls : List Text) : ℕ := (ls.map weight).sum

theorem literal_iff_weight (t : Text) : Literal t ↔ weight t = 0 := by
  rw [weight, List.countP_eq_zero, Literal]
  simp

@[simp] theorem totalWeight_nil : totalWeight [] = 0 := rfl

@[simp] theorem totalWeight_cons (t : Text) (ls : List Text) :
    totalWeight (t :: ls) = weight t + totalWeight ls := rfl

@[simp] theorem totalWeight_append (ls ls' : List Text) :
    totalWeight (ls ++ ls') = totalWeight ls + totalWeight ls' := by
  simp [totalWeight]

@[simp] theorem weight_append (s t : Text) : weight (s ++ t) = weight s + weight t :=
  List.countP_append

theorem weight_eq_zero_of_all {p : Char → Bool} {t : Text} (h : t.all p = true)
    (hb : p '\\' = false) (h0 : p '\x00' = false) : weight t = 0 := by
  rw [weight, List.countP_eq_zero]
  intro c hc hspecial
  have hpc := List.all_eq_true.mp h c hc
  simp only [Bool.or_eq_true, decide_eq_true_eq] at hspecial
  rcases hspecial with rfl | rfl
  · rw [hb] at hpc
    cases hpc
  · rw [h0] at hpc
    cases hpc

theorem weight_trimBlanks (l : Text) : weight (trimBlanks l) = weight l := by
  have hdrop : ∀ t : Text, weight (t.dropWhile isBlank) = weight t := by
    intro t
    have hsplit := congrArg weight (List.takeWhile_append_dropWhile (p := isBlank) (l := t))
    have hzero : weight (t.takeWhile isBlank) = 0 :=
      weight_eq_zero_of_all List.all_takeWhile rfl rfl
    rw [weight_append, hzero] at hsplit
    omega
  have hreverse : ∀ t : Text, weight t.reverse = weight t := fun t => List.countP_reverse
  rw [trimBlanks, List.rdropWhile, hreverse, hdrop, hreverse, hdrop]

theorem weight_lineEntries (l : Text) : totalWeight (lineEntries l) = weight (stripComment l) := by
  rw [lineEntries]
  cases h : isEmptyLine (stripComment l) with
  | true => exact (weight_eq_zero_of_all h rfl rfl).symm
  | false => simp [weight_trimBlanks]

theorem weight_textEntries (t : Text) :
    totalWeight (textEntries t) = totalWeight ((lines t).map stripComment) := by
  rw [textEntries_eq]
  induction lines t with
  | nil => rfl
  | cons l ls ih =>
    rw [List.flatMap_cons, totalWeight_append, ih, weight_lineEntries, List.map_cons, totalWeight_cons]

theorem weight_tableLines (t : Text) : totalWeight (tableLines t) = totalWeight (textEntries t) := by
  rw [textEntries]
  induction tableLines t with
  | nil => rfl
  | cons l ls ih => rw [List.map_cons, totalWeight_cons, totalWeight_cons, ih, weight_trimBlanks]

/-- A joined line keeps no more than its parts. -/
theorem weight_stripComment_append (a b : Text) :
    weight (stripComment (a ++ b)) ≤ weight (stripComment a) + weight (stripComment b) := by
  by_cases ha : '#' ∈ a
  · rw [stripComment_of_comment ha]
    omega
  · rw [stripComment_of_no_comment ha, stripComment_self ha, weight_append]

theorem weight_textEntries_flatten (ts : List Text) (b r : Text) :
    totalWeight (textEntries (ts.flatten ++ (b ++ '\n' :: r))) ≤
      totalWeight (ts.flatMap textEntries) + totalWeight (textEntries (b ++ '\n' :: r)) := by
  induction ts with
  | nil => simp
  | cons t ts ih =>
    obtain ⟨b', r', hb', heq⟩ := exists_firstLine (ts.flatten ++ b) r
    rw [List.append_assoc] at heq
    obtain ⟨ls, hlines, hjoined⟩ := lines_append t hb' r'
    have hle := weight_stripComment_append (lastPiece t) b'
    rw [List.flatten_cons, List.append_assoc, heq, List.flatMap_cons]
    rw [heq] at ih
    simp only [weight_textEntries, hlines, hjoined, lines_cons hb', List.map_append, List.map_cons,
      List.map_nil, totalWeight_append, totalWeight_cons, totalWeight_nil] at ih ⊢
    omega

/-! ### What `read` does with them -/

/-- `while read` hands on no more backslashes and NULs than it reads, and fewer if there
are any. -/
theorem readLoop_weight (t : Text) (acc : List QChar) :
    totalWeight ((readLoop t acc).map dequote) + min 1 (weight t) ≤ weight (dequote acc) + weight t := by
  have hnil : weight [] = 0 := rfl
  fun_induction readLoop t acc with
  | case1 acc => simp [weight]
  | case2 t acc ih =>
    have hcut : weight (dequote (cString acc)) ≤ weight (dequote acc) :=
      ((List.takeWhile_sublist _).map _).countP_le
    have hnewline : weight ('\n' :: t) = weight t := by simp [weight]
    have hempty : dequote [] = [] := rfl
    rw [List.map_cons, totalWeight_cons, hnewline]
    rw [hempty] at ih
    omega
  | case3 acc => simp [weight]
  | case4 t acc ih =>
    have hw : weight ('\\' :: '\n' :: t) = weight t + 1 := by simp [weight]
    omega
  | case5 c t acc _ ih =>
    have hone : weight ['\\'] = 1 := rfl
    have hw : weight ('\\' :: c :: t) = weight ['\\'] + (weight [c] + weight t) := by
      rw [← weight_append, ← weight_append]
      rfl
    have hacc : weight (dequote (acc ++ [(c, true)])) = weight (dequote acc) + weight [c] := by
      rw [dequote, List.map_append, weight_append]
      rfl
    omega
  | case6 c t acc _ hlast _ hnext ih =>
    have hw : weight (c :: t) = weight [c] + weight t := by
      rw [← List.singleton_append, weight_append]
    by_cases hc : c = '\x00'
    · have hone : weight [c] = 1 := by
        rw [hc]
        rfl
      rw [if_pos hc] at ih ⊢
      omega
    · have hb : c ≠ '\\' := by
        intro hb
        cases t with
        | nil => exact hlast hb rfl
        | cons d t => exact hnext d t hb rfl
      have hzero : weight [c] = 0 := by simp [weight, hb, hc]
      have hacc : weight (dequote (acc ++ [(c, false)])) = weight (dequote acc) + weight [c] := by
        rw [dequote, List.map_append, weight_append]
        rfl
      rw [if_neg hc] at ih ⊢
      omega

theorem weight_readLine (l : List QChar) : weight (readLine l) ≤ weight (dequote l) := by
  have hsublist : ((l.dropWhile separates).rdropWhile separates).Sublist l :=
    (List.rdropWhile_prefix _ _).sublist.trans (List.dropWhile_suffix _).sublist
  exact (hsublist.map _).countP_le

theorem weight_entries_le (ls : List (List QChar)) :
    totalWeight (ls.map readLine) ≤ totalWeight (ls.map dequote) := by
  induction ls with
  | nil => exact le_rfl
  | cons l ls ih =>
    have hl := weight_readLine l
    simp only [List.map_cons, totalWeight_cons]
    omega

theorem weight_unlines (ls : List Text) : weight (unlines ls) = totalWeight ls := by
  induction ls with
  | nil => rfl
  | cons l ls ih =>
    have hnewline : weight ['\n'] = 0 := rfl
    rw [unlines] at ih ⊢
    rw [List.flatMap_cons, weight_append, weight_append, ih, hnewline, totalWeight_cons, add_zero]

theorem literal_of_totalWeight {ls : List Text} : totalWeight ls = 0 ↔ ∀ l ∈ ls, Literal l := by
  induction ls with
  | nil => simp
  | cons l ls ih => rw [totalWeight_cons, Nat.add_eq_zero_iff, ih, ← literal_iff_weight, List.forall_mem_cons]

/-! ### The entries of a table with a final newline -/

theorem sedTable_newline (t : Text) : sedTable (t ++ ['\n']) = unlines (tableLines (t ++ ['\n'])) := by
  obtain ⟨ls, hlines, hjoined⟩ := lines_append t (b := []) List.not_mem_nil []
  have hlast : lines (t ++ ['\n']) = lines t ++ [[]] := by
    rw [hlines]
    simpa [lines] using hjoined
  have hempty : isEmptyLine (stripComment []) = true := rfl
  rw [sedTable, tableLines, hlast]
  simp [hempty, List.filter_append]

theorem newline_not_mem_tableLines (t : Text) : ∀ l ∈ tableLines t, '\n' ∉ l := by
  intro l hl hmem
  obtain ⟨l', hl', rfl⟩ := List.mem_map.mp (List.mem_filter.mp hl).1
  obtain ⟨ls, last, rfl, hls, hlast⟩ := exists_unlines t
  rw [lines_unlines hls, lines_of_no_newline hlast] at hl'
  have hmem' := (List.takeWhile_sublist _).subset hmem
  rcases List.mem_append.mp hl' with hl' | hl'
  · exact hls l' hl' hmem'
  · exact hlast (List.mem_singleton.mp hl' ▸ hmem')

theorem readLine_unquoted (l : Text) : readLine (unquoted l) = trimBlanks l := by
  have hblank : separates ∘ (·, false) = isBlank := by
    funext c
    rfl
  rw [readLine, unquoted, List.dropWhile_map, hblank, List.rdropWhile, ← List.map_reverse,
    List.dropWhile_map, hblank, ← List.map_reverse, dequote, List.map_map, trimBlanks, List.rdropWhile]
  exact List.map_id _

/-- Without backslashes and NULs the entries are the trimmed lines. -/
theorem entries_literal (t : Text) (h : ∀ l ∈ tableLines (t ++ ['\n']), Literal l) :
    entries (t ++ ['\n']) = textEntries (t ++ ['\n']) := by
  have hread := readLines_unlines_append (tableLines (t ++ ['\n'])) []
    (fun l hl => ⟨h l hl, newline_not_mem_tableLines _ l hl⟩) ⟨by simp [Literal], by simp⟩
  rw [List.append_nil] at hread
  rw [entries, sedTable_newline, unlines, hread, List.map_map, textEntries]
  exact List.map_congr_left fun l _ => readLine_unquoted l

/-- Otherwise the entries have fewer of them. -/
theorem weight_entries (t : Text) :
    totalWeight (entries (t ++ ['\n'])) + min 1 (totalWeight (textEntries (t ++ ['\n']))) ≤
      totalWeight (textEntries (t ++ ['\n'])) := by
  have hle := weight_entries_le (readLines (unlines (tableLines (t ++ ['\n']))))
  have hloop := readLoop_weight (unlines (tableLines (t ++ ['\n']))) []
  have hempty : weight (dequote []) = 0 := rfl
  rw [weight_unlines, weight_tableLines, hempty] at hloop
  rw [entries, sedTable_newline]
  unfold readLines at hle ⊢
  omega

/-! ### The whole table -/

/-- The three blanks before the users of the packages, and the newline after them, make no
difference. -/
theorem textEntries_printf (t : Text) :
    textEntries ("   ".toList ++ t ++ '\n' :: []) = textEntries t := by
  obtain ⟨b, r, hb, heq⟩ := exists_firstLine t []
  have hblanks : textEntries "   ".toList = [] := by decide
  have hnewline : textEntries ([] ++ '\n' :: []) = [] := by decide
  have hleft := (textEntries_append "   ".toList (r := r) hb).2.mpr (by
    have hpiece : lastPiece "   ".toList = "   ".toList := by decide
    rw [hpiece, JoinsWell, if_neg (by decide)]
    exact .inr (.inl rfl))
  have hright := (textEntries_append t (b := []) (r := []) List.not_mem_nil).2.mpr (by
    unfold JoinsWell
    split
    · rfl
    · exact .inr (.inr rfl))
  rw [List.nil_append] at hnewline hright
  rw [List.append_assoc, heq, hleft, hblanks, List.nil_append, ← heq, hright, hnewline, List.append_nil]

/-- What the build adds to the tables. -/
theorem tableEntries_eq (tables : List Text) (packagesUsers : Text) :
    tableEntries tables packagesUsers =
      some (entries (tables.flatten ++ ("   ".toList ++ packagesUsers) ++ ['\n'])) := by
  simp [tableEntries, usersTable, printfOutput_eq, List.append_assoc]

theorem expectedEntries_literal (ts : List Text) :
    totalWeight (ts.flatMap textEntries) = 0 ↔ ∀ t ∈ ts, ∀ l ∈ tableLines t, Literal l := by
  induction ts with
  | nil => simp
  | cons t ts ih =>
    rw [List.flatMap_cons, totalWeight_append, Nat.add_eq_zero_iff, ih, ← weight_tableLines,
      literal_of_totalWeight, List.forall_mem_cons]

/-- `mkusers` reads exactly the entries of each table and of the packages if and only if
none of their lines has a backslash or a NUL outside its comment, and each table ends in
a newline or joins well with what follows it. -/
theorem tableEntries_iff (tables : List Text) (packagesUsers : Text) :
    tableEntries tables packagesUsers = some (expectedEntries tables packagesUsers) ↔
      (∀ t ∈ tables ++ [packagesUsers], ∀ l ∈ tableLines t, Literal l) ∧
        Separate tables ("   ".toList ++ packagesUsers ++ ['\n']) := by
  obtain ⟨-, hseparate⟩ := textEntries_flatten tables ("   ".toList ++ packagesUsers) []
  have hle := weight_textEntries_flatten tables ("   ".toList ++ packagesUsers) []
  have hlt := weight_entries (tables.flatten ++ ("   ".toList ++ packagesUsers))
  have hread := entries_literal (tables.flatten ++ ("   ".toList ++ packagesUsers))
  have hexpected : expectedEntries tables packagesUsers =
      (tables ++ [packagesUsers]).flatMap textEntries := by
    simp [expectedEntries]
  rw [textEntries_printf] at hseparate hle
  rw [← literal_of_totalWeight, weight_tableLines] at hread
  rw [← totalWeight_append] at hle
  rw [← List.append_assoc] at hseparate hle
  rw [tableEntries_eq, Option.some.injEq, ← expectedEntries_literal, ← hexpected, ← hseparate]
  change totalWeight _ ≤ totalWeight (expectedEntries tables packagesUsers) at hle
  change _ ↔ _ ∧ _ = expectedEntries tables packagesUsers
  constructor
  · intro h
    rw [h] at hlt
    have hnone : totalWeight (textEntries (tables.flatten ++ ("   ".toList ++ packagesUsers) ++ ['\n'])) = 0 := by
      omega
    rw [hread hnone] at h
    rw [h] at hnone
    exact ⟨hnone, h⟩
  · rintro ⟨hnone, h⟩
    rw [hread (by omega), h]

/-- A table without a final newline, and a package with a user. -/
theorem tableEntries_merged : ∃ tables packagesUsers,
    tableEntries tables packagesUsers ≠ some (expectedEntries tables packagesUsers) := by
  refine ⟨["www -1 www -1 * - - - Web".toList], "db -1 db -1 * - - - Data".toList, ?_⟩
  rw [tableEntries_eq]
  decide

end CargosBuildroot.Accounts
