import CargosBuildroot.Shell.Read
import Mathlib.Data.List.Infix

/-! The hash check of downloaded files (`support/download/check-hash`). The
checksum tools are a parameter `sum`: `sum h c` is the first field that the tool
`<h>sum` prints for a file with content `c`. A file is an optional content,
absent files being `none`, and the result is the exit code. -/

namespace CargosBuildroot.Download

open Shell

/-- The hash types that have a checksum tool. -/
def knownHashes : List Text :=
  ["md5".toList, "sha1".toList, "sha224".toList, "sha256".toList, "sha384".toList, "sha512".toList]

/-- Whether the base name is a word of `BR_NO_CHECK_HASH_FOR`. -/
def Listed (noCheck base : Text) : Prop :=
  (' ' :: base ++ [' ']) <:+: (' ' :: noCheck ++ [' '])

instance (noCheck base : Text) : Decidable (Listed noCheck base) := by
  unfold Listed; infer_instance

/-- A line of the hash file: `read t h f`. -/
@[ext] structure HashLine where
  type : Text
  value : Text
  name : Text
  deriving DecidableEq

def hashLine (l : List QChar) : HashLine :=
  let v := readVars 3 l
  ⟨v.getD 0 [], v.getD 1 [], v.getD 2 []⟩

/-- The line is empty or a comment. -/
def HashLine.skipped (e : HashLine) : Prop := e.type = [] ∨ e.type.head? = some '#'

instance (e : HashLine) : Decidable e.skipped := by unfold HashLine.skipped; infer_instance

section Check

variable (sum : Text → Text → Text) (noCheck : Text) (file : Option Text) (base : Text)

/-- `${_h}sum "${_file}" |cut -d ' ' -f 1`, empty when there is no file to read. -/
def hashOf (h : Text) : Text := (file.map (sum h)).getD []

/-- Check one hash: `.error` is the exit code of the script. -/
def checkOneHash (h known : Text) : Except ℕ Unit :=
  if h = "none".toList then .ok ()
  else if h ∉ knownHashes then .error 4
  else if hashOf sum file h = known then .ok ()
  else .error 2

/-- The loop over the hash file; `nb` counts the checks. -/
def hashLoop : List HashLine → ℕ → Except ℕ ℕ
  | [], nb => .ok nb
  | e :: es, nb =>
    if e.skipped then hashLoop es nb
    else if e.name = base then
      match checkOneHash sum file e.type e.value with
      | .ok () => hashLoop es (nb + 1)
      | .error code => .error code
    else hashLoop es nb

/-- The exit code of `check-hash hfile file base`. -/
def checkHash (hfile : Option Text) : ℕ :=
  match hfile with
  | none => if Listed noCheck base then 0 else 3
  | some h =>
    match hashLoop sum file base ((readLines h).map hashLine) 0 with
    | .error code => code
    | .ok nb => if nb = 0 then if Listed noCheck base then 0 else 3 else 0

/-! ### What an accepted file meets -/

/-- The non-comment lines that name the base name. -/
def entriesFor (es : List HashLine) : List HashLine :=
  es.filter fun e => ¬ e.skipped ∧ e.name = base

/-- The line asks for no checksum or has the one of the file. -/
def HashLine.Holds (e : HashLine) : Prop :=
  e.type = "none".toList ∨ hashOf sum file e.type = e.value

variable {sum noCheck file base}

theorem checkOneHash_ok {h known : Text} :
    checkOneHash sum file h known = .ok () ↔
      h = "none".toList ∨ h ∈ knownHashes ∧ hashOf sum file h = known := by
  unfold checkOneHash
  split_ifs with h₁ h₂ h₃ <;> simp_all

theorem checkOneHash_error {h known : Text} {code : ℕ}
    (hc : checkOneHash sum file h known = .error code) : code = 4 ∨ code = 2 := by
  unfold checkOneHash at hc
  split_ifs at hc <;> simp_all

theorem hashLoop_ok {es : List HashLine} {n m : ℕ} :
    hashLoop sum file base es n = .ok m ↔
      (∀ e ∈ entriesFor base es, checkOneHash sum file e.type e.value = .ok ()) ∧
        m = n + (entriesFor base es).length := by
  induction es generalizing n with
  | nil => simp [hashLoop, entriesFor, eq_comm]
  | cons e es ih =>
    by_cases hs : e.skipped
    · simp only [hashLoop, hs, ↓reduceIte, ih]
      simp [entriesFor, hs]
    by_cases hb : e.name = base
    · have hcons : entriesFor base (e :: es) = e :: entriesFor base es := by
        simp [entriesFor, hs, hb]
      simp only [hashLoop, hs, hb, ↓reduceIte, hcons, List.forall_mem_cons, List.length_cons]
      cases hc : checkOneHash sum file e.type e.value with
      | error code => simp
      | ok u =>
        simp only [ih, true_and]
        rw [Nat.add_assoc, Nat.add_comm 1]
    · simp only [hashLoop, hs, hb, ↓reduceIte, ih]
      simp [entriesFor, hb]

theorem hashLoop_error {es : List HashLine} {n code : ℕ}
    (h : hashLoop sum file base es n = .error code) : code = 4 ∨ code = 2 := by
  induction es generalizing n with
  | nil => simp [hashLoop] at h
  | cons e es ih =>
    unfold hashLoop at h
    split_ifs at h with hs hb
    · exact ih h
    · cases hc : checkOneHash sum file e.type e.value with
      | error code' =>
        obtain rfl : code' = code := by simpa [hc] using h
        exact checkOneHash_error hc
      | ok u => exact ih (by simpa [hc] using h)
    · exact ih h

/-- The lines of the hash file for the base name that reach the loop. -/
def delivered (base h : Text) : List HashLine := entriesFor base ((readLines h).map hashLine)

/-- Exit code 0 with a hash file: some line reaches the loop and each one that
does is satisfied. -/
theorem checkHash_eq_zero {h : Text} (hl : ¬ Listed noCheck base) :
    checkHash sum noCheck file base (some h) = 0 ↔
      delivered base h ≠ [] ∧ ∀ e ∈ delivered base h, checkOneHash sum file e.type e.value = .ok () := by
  simp only [checkHash, delivered]
  cases hr : hashLoop sum file base ((readLines h).map hashLine) 0 with
  | error code =>
    have hne : code ≠ 0 := by rcases hashLoop_error hr with rfl | rfl <;> decide
    simp only [hne, false_iff, not_and]
    intro _ hall
    simp [hashLoop_ok.mpr ⟨hall, rfl⟩] at hr
  | ok nb =>
    obtain ⟨hall, rfl⟩ := hashLoop_ok.mp hr
    simp only [hl, ↓reduceIte, Nat.zero_add, List.length_eq_zero_iff]
    split_ifs with h0 <;> simp_all

/-! ### The lines of the file against the lines of the loop -/

/-- The lines of the hash file for the base name, as they stand in the file. -/
def written (base h : Text) : List HashLine :=
  entriesFor base ((lines h).map fun l => hashLine (unquoted l))

variable (sum file base) in
/-- The file meets the hash file: it is named, and every line for it holds. -/
def MeetsHashes (h : Text) : Prop :=
  written base h ≠ [] ∧ ∀ e ∈ written base h, e.Holds sum file

/-- The line ends in a backslash that is not quoted itself, so that it is joined to the next. -/
def continued : Text → Bool
  | ['\\'] => true
  | '\\' :: _ :: l => continued l
  | _ :: l => continued l
  | [] => false

/-- The lines that do not stand in the file as they are read: those with a backslash or a NUL,
those that the one before is joined to, and the last one, which no newline ends. -/
def lostLines : Bool → List Text → List Text
  | joined, l :: l' :: ls =>
    if joined = true ∨ ¬ Literal l then l :: lostLines (continued l) (l' :: ls)
    else lostLines false (l' :: ls)
  | _, last => last

variable (sum file base) in
/-- The lost lines for the base name hold. If there is a backslash or a NUL at all, some line
names the base name as it stands. -/
def LostLinesHold (h : Text) : Prop :=
  (Literal h ∨ written base h ≠ []) ∧
    ∀ e ∈ entriesFor base ((lostLines false (lines h)).map fun l => hashLine (unquoted l)),
      e.Holds sum file

theorem delivered_holds {h : Text} (hl : ¬ Listed noCheck base)
    (h0 : checkHash sum noCheck file base (some h) = 0) :
    ∀ e ∈ delivered base h, e.Holds sum file := by
  intro e he
  rcases checkOneHash_ok.mp (((checkHash_eq_zero hl).mp h0).2 e he) with hn | ⟨-, hs⟩
  · exact .inl hn
  · exact .inr hs

/-- What `read` makes of a line, after what is joined to it. -/
theorem exists_readLoop_line {l : Text} (hl : '\n' ∉ l) (t : Text) (acc : List QChar) :
    ∃ acc', readLoop (l ++ '\n' :: t) acc =
      if continued l then readLoop t acc' else cString acc' :: readLoop t [] := by
  fun_induction continued l generalizing acc with
  | case1 => exact ⟨acc, by rw [List.singleton_append, readLoop]; rfl⟩
  | case2 c l ih =>
    simp only [List.mem_cons, not_or] at hl
    rw [List.cons_append, List.cons_append, readLoop]
    · exact ih hl.2.2 _
    · exact fun h => hl.2.1 h.symm
  | case3 c l hlast hquote ih =>
    simp only [List.mem_cons, not_or] at hl
    have hback : c ≠ '\\' := by
      rintro rfl
      cases l with
      | nil => exact hlast rfl rfl
      | cons d l => exact hquote d l rfl rfl
    rw [List.cons_append, readLoop]
    · exact ih hl.2 _
    · exact fun h => hl.1 h.symm
    · exact fun h => absurd h hback
    · exact fun _ h => absurd h hback
    · exact fun _ _ h => absurd h hback
  | case4 => exact ⟨acc, by rw [List.nil_append, readLoop]; rfl⟩

/-- A line that is not lost is read as it stands. -/
theorem mem_lostLines_or {ls : List Text} {last : Text} (hls : ∀ l ∈ ls, '\n' ∉ l) {joined : Bool}
    {acc : List QChar} (hacc : joined = false → acc = []) : ∀ l ∈ ls ++ [last],
      l ∈ lostLines joined (ls ++ [last]) ∨ unquoted l ∈ readLoop (unlines ls ++ last) acc := by
  induction ls generalizing joined acc with
  | nil =>
    intro l hl
    rw [List.nil_append] at hl ⊢
    have hlost : lostLines joined [last] = [last] := by cases joined <;> rfl
    exact .inl (by rwa [hlost])
  | cons first ls ih =>
    rw [List.forall_mem_cons] at hls
    have htext : unlines (first :: ls) ++ last = first ++ '\n' :: (unlines ls ++ last) := by
      simp [unlines]
    have hlost : lostLines joined (first :: (ls ++ [last])) =
        if joined = true ∨ ¬ Literal first then first :: lostLines (continued first) (ls ++ [last])
        else lostLines false (ls ++ [last]) := by
      cases ls <;> rfl
    intro l hl
    rw [htext, List.cons_append, hlost]
    by_cases hkept : joined = true ∨ ¬ Literal first
    · obtain ⟨acc', hread⟩ := exists_readLoop_line hls.1 (unlines ls ++ last) acc
      rw [if_pos hkept, hread]
      rcases List.mem_cons.mp hl with rfl | hl
      · exact .inl (.head _)
      · cases hjoined : continued first with
        | true =>
          rw [if_pos rfl]
          exact (ih hls.2 (fun h => absurd h (by decide)) l hl).imp_left (.tail _)
        | false =>
          rw [if_neg Bool.false_ne_true]
          exact (ih hls.2 (fun _ => rfl) l hl).imp (.tail _) (.tail _)
    · rw [not_or, Bool.not_eq_true, not_not] at hkept
      rw [if_neg (by simp [hkept]), hacc hkept.1, readLoop_line first _ hkept.2 hls.1]
      rcases List.mem_cons.mp hl with rfl | hl
      · exact .inr (.head _)
      · exact (ih hls.2 (fun _ => rfl) l hl).imp_right (.tail _)

theorem mem_lost_or_delivered {base h : Text} {e : HashLine} (he : e ∈ written base h) :
    e ∈ entriesFor base ((lostLines false (lines h)).map fun l => hashLine (unquoted l)) ∨
      e ∈ delivered base h := by
  simp only [written, delivered, entriesFor, List.mem_filter, List.mem_map] at he ⊢
  obtain ⟨⟨l, hl, rfl⟩, hfor⟩ := he
  obtain ⟨ls, last, rfl, hls, hlast⟩ := exists_unlines h
  rw [lines_unlines hls, lines_of_no_newline hlast] at hl ⊢
  rcases mem_lostLines_or hls (fun _ => rfl) l hl with hlost | hread
  · exact .inl ⟨⟨l, hlost, rfl⟩, hfor⟩
  · exact .inr ⟨⟨_, hread, rfl⟩, hfor⟩

/-- In a literal file the lines that are read stand as they are. -/
theorem delivered_subset_written {base h : Text} (hlit : Literal h) :
    delivered base h ⊆ written base h := by
  obtain ⟨ls, last, rfl, hls, hlast⟩ := exists_unlines h
  have hlines : ∀ l ∈ ls, Literal l ∧ '\n' ∉ l := by
    refine fun l hl => ⟨fun c hc => hlit c ?_, hls l hl⟩
    exact List.mem_append_left _ (List.mem_flatMap.mpr ⟨l, hl, List.mem_append_left _ hc⟩)
  have hread := readLines_unlines_append ls last hlines
    ⟨fun c hc => hlit c (List.mem_append_right _ hc), hlast⟩
  rw [unlines, delivered, written, hread, lines_unlines_append ls last hls hlast, List.map_map,
    List.map_append]
  exact List.filter_subset _ (List.subset_append_left _ _)

theorem lostLines_subset (joined : Bool) (ls : List Text) : lostLines joined ls ⊆ ls := by
  fun_induction lostLines joined ls with
  | case1 joined l l' ls h ih => exact List.cons_subset_cons _ ih
  | case2 joined l l' ls h ih => exact List.subset_cons_of_subset _ ih
  | case3 => exact List.Subset.refl _

/-- An accepted file meets the hash file exactly when no line for it that the loop loses fails,
and the line that it was accepted for is not made by a backslash or a NUL. -/
theorem accepted_meetsHashes_iff (sum : Text → Text → Text) (noCheck : Text)
    (file : Option Text) (base h : Text) (hl : ¬ Listed noCheck base)
    (h0 : checkHash sum noCheck file base (some h) = 0) :
    MeetsHashes sum file base h ↔ LostLinesHold sum file base h := by
  constructor
  · rintro ⟨hne, hall⟩
    refine ⟨.inr hne, fun e he => hall e ?_⟩
    exact List.filter_subset _ (List.map_subset _ (lostLines_subset _ _)) he
  · rintro ⟨hnamed, hlost⟩
    refine ⟨hnamed.elim (fun hlit hnil => ?_) id, fun e he => ?_⟩
    · exact ((checkHash_eq_zero hl).mp h0).1
        (List.subset_nil.mp (hnil ▸ delivered_subset_written hlit))
    · exact (mem_lost_or_delivered he).elim (hlost e) (delivered_holds hl h0 e)

/-- An unterminated last line is lost: its wrong hash does not stop the check. -/
theorem accepted_with_failing_line :
    ∃ (sum : Text → Text → Text) (noCheck file base h : Text), ¬ Listed noCheck base ∧
      checkHash sum noCheck (some file) base (some h) = 0 ∧ ¬ MeetsHashes sum (some file) base h :=
  ⟨fun _ c => c, [], "1f".toList, "foo.tar".toList,
    "sha256  1f  foo.tar\nsha1  2e  foo.tar".toList, by decide, by decide, by
      unfold MeetsHashes HashLine.Holds; decide⟩

theorem accepted_meetsHashes_iff_foo :
    MeetsHashes (fun _ c => c) (some "1f".toList) "foo.tar".toList "sha256  1f  foo.tar\n".toList ↔
      LostLinesHold (fun _ c => c) (some "1f".toList) "foo.tar".toList "sha256  1f  foo.tar\n".toList :=
  accepted_meetsHashes_iff (fun _ c => c) [] (some "1f".toList) "foo.tar".toList
    "sha256  1f  foo.tar\n".toList (by decide) (by decide)

/-! ### Missing files -/

theorem hashLine_value_ne_nil {l : List QChar} (h : (hashLine l).name ≠ []) :
    (hashLine l).value ≠ [] := by
  intro hv
  apply h
  have hrest := dropWhile_eq_nil_of_word_nil (by simpa [hashLine, readVars] using hv)
  simp [hashLine, readVars, hrest, dequote]

/-- A hash file that accepts a missing file accepts every file: it looks at no
content. -/
theorem checkHash_missing {hfile : Option Text} (hb : base ≠ [])
    (h0 : checkHash sum noCheck none base hfile = 0) (c : Text) :
    checkHash sum noCheck (some c) base hfile = 0 := by
  cases hfile with
  | none => exact h0
  | some h =>
    simp only [checkHash] at h0 ⊢
    cases hr : hashLoop sum none base ((readLines h).map hashLine) 0 with
    | error code => rcases hashLoop_error hr with rfl | rfl <;> simp [hr] at h0
    | ok nb =>
      obtain ⟨hall, hnb⟩ := hashLoop_ok.mp hr
      have hsame : hashLoop sum (some c) base ((readLines h).map hashLine) 0 = .ok nb := by
        refine hashLoop_ok.mpr ⟨fun e he => ?_, hnb⟩
        rcases checkOneHash_ok.mp (hall e he) with hn | ⟨-, hv⟩
        · exact checkOneHash_ok.mpr (.inl hn)
        · simp only [entriesFor, List.mem_filter, List.mem_map, decide_eq_true_eq] at he
          obtain ⟨⟨l, -, rfl⟩, -, hname⟩ := he
          exact absurd hv.symm (hashLine_value_ne_nil (hname ▸ hb))
      simpa [hsame, hr] using h0

end Check

end CargosBuildroot.Download
