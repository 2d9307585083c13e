import CargosBuildroot.Shell.Read
import Mathlib.Algebra.Order.BigOperators.Group.List
import Mathlib.Algebra.Order.Group.Nat
import Mathlib.Data.List.Sort
import Mathlib.Data.Char
import Mathlib.Data.List.Lex

/-! User data in MIME format (`handle_cloud` of `rc.bootstrap`). One awk program writes the parts
to numbered files, the shell takes the files in the order of their names, and a second awk program
drops the headers of each. A boundary holds no backslash. -/

namespace CargosBuildroot.Bootstrap

open Shell

/-! ### The boundary -/

def isQuote (c : Char) : Bool := c = '\x22' || c = '\x27'

/-- What follows `^Content-Type: *multipart/mixed; *boundary`. -/
def boundaryParameter (line : Text) : Option Text :=
  (line.dropPrefix? "Content-Type:".toList).bind fun rest =>
    ((rest.dropWhile (· = ' ')).dropPrefix? "multipart/mixed;".toList).bind fun rest =>
      (rest.dropWhile (· = ' ')).dropPrefix? "boundary".toList

/-- `sed -n "s|^…boundary *= *[\"']*\([^\"']*\)[\"']*$|\1|p"`, after the parameter's name -/
def boundaryValue (rest : Text) : Text :=
  match rest.dropWhile (· = ' ') with
  | '=' :: v =>
    let v := (v.dropWhile (· = ' ')).dropWhile isQuote
    if (v.dropWhile (!isQuote ·)).all isQuote then v.takeWhile (!isQuote ·) else []
  | _ => []

/-- `BOUNDARY`, empty if there is none -/
def boundary (data : List Text) : Text := ((data.findSome? boundaryParameter).map boundaryValue).getD []

/-! ### The awk programs -/

def delimiter (B : Text) : Text := "--".toList ++ B

def closeDelimiter (B : Text) : Text := "--".toList ++ B ++ "--".toList

/-- `print $0 >> f`, if there is a file yet -/
def printLine (line : Text) (files : List (List Text)) : List (List Text) :=
  match files.getLast? with
  | none => files
  | some f => files.dropLast ++ [f ++ [line]]

/-- The program that splits the user data, with the lines of the files so far. The line after a
delimiter is read by `getline` and not looked at; without one `$0` keeps the delimiter. -/
def splitParts (B : Text) : List Text → List (List Text) → List (List Text)
  | [], files => files
  | [l], files =>
    if l = closeDelimiter B then files
    else if l = delimiter B then files ++ [[l]]
    else printLine l files
  | l :: l' :: rest, files =>
    if l = closeDelimiter B then files
    else if l = delimiter B then splitParts B rest (files ++ [[l']])
    else splitParts B (l' :: rest) (printLine l files)

/-- The program that drops the headers; `s` is set from the first empty line on. The line after an
empty one is read by `getline` and printed whatever it is, unless there is none. -/
def dropHeaders : Bool → List Text → List Text
  | _, [] => []
  | s, [l] => if l = [] ∨ s = true then [l] else []
  | s, l :: l' :: rest =>
    if l = [] then l' :: dropHeaders true rest
    else if s then l :: dropHeaders s (l' :: rest)
    else dropHeaders s (l' :: rest)

/-! ### The files -/

def headerNames : List Text :=
  ["Merge-Type:".toList, "MIME-Version:".toList, "Content-Type:".toList,
    "Content-Disposition:".toList, "Content-Transfer-encoding:".toList]

def isHeader (line : Text) : Bool := headerNames.any (·.isPrefixOf line)

/-- Skip various headers (if present). -/
def skipHeaders (file : List Text) : List Text :=
  if isHeader (unlines file) then dropHeaders false file else file

/-- `for f in $CS*`, where file `k` is `$CS.k`. -/
def globbed {α : Type} (files : List α) : List α :=
  ((files.zipIdx 1).insertionSort fun a b => Nat.toDigits 10 a.2 ≤ Nat.toDigits 10 b.2).map Prod.fst

/-- The texts of the files that the loop processes, in its order. -/
def processed (data : List Text) : List Text :=
  if boundary data = [] then [unlines (skipHeaders data)]
  else (globbed (splitParts (boundary data) data [])).map fun file => unlines (skipHeaders file)

/-! ### User data -/

/-- A part of a message with the boundary `B`. -/
structure Part (B : Text) where
  header : Text
  headers : List Text
  body : Text
  isHeader : ∀ h ∈ header :: headers, isHeader h = true
  undelimited : ∀ l ∈ lines body, l ≠ delimiter B ∧ l ≠ closeDelimiter B

/-- The lines of a part after its delimiter. -/
def Part.content {B : Text} (p : Part B) : List Text := p.header :: p.headers ++ [] :: lines p.body

def message (B : Text) (preamble : List Text) (parts : List (Part B)) (epilogue : List Text) :
    List Text :=
  preamble ++ parts.flatMap (fun p => delimiter B :: p.content) ++ closeDelimiter B :: epilogue

/-- An empty line of the body is its first or its last. -/
def Intact {B : Text} (p : Part B) : Prop := [] ∉ (lines p.body).tail.dropLast

/-! ### Splitting a message -/

section

variable {B : Text}

theorem delimiter_ne_close : delimiter B ≠ closeDelimiter B := by
  intro h
  have hlen := congrArg List.length h
  simp [delimiter, closeDelimiter] at hlen

theorem splitParts_line {l : Text} (hl : l ≠ delimiter B ∧ l ≠ closeDelimiter B)
    (rest : List Text) (files : List (List Text)) :
    splitParts B (l :: rest) files = splitParts B rest (printLine l files) := by
  cases rest <;> simp only [splitParts, if_neg hl.1, if_neg hl.2]

theorem splitParts_before {ls : List Text} (hls : ∀ l ∈ ls, l ≠ delimiter B ∧ l ≠ closeDelimiter B)
    (rest : List Text) : splitParts B (ls ++ rest) [] = splitParts B rest [] := by
  induction ls with
  | nil => rfl
  | cons l ls ih =>
    rw [List.cons_append, splitParts_line (hls l (.head _))]
    exact ih fun l hl => hls l (.tail _ hl)

theorem splitParts_lines {ls : List Text} (hls : ∀ l ∈ ls, l ≠ delimiter B ∧ l ≠ closeDelimiter B)
    (rest : List Text) (files : List (List Text)) (f : List Text) :
    splitParts B (ls ++ rest) (files ++ [f]) = splitParts B rest (files ++ [f ++ ls]) := by
  induction ls generalizing f with
  | nil => rw [List.nil_append, List.append_nil]
  | cons l ls ih =>
    have hprint : printLine l (files ++ [f]) = files ++ [f ++ [l]] := by
      rw [printLine, List.getLast?_concat]
      simp
    rw [List.cons_append, splitParts_line (hls l (.head _)), hprint,
      ih (fun l hl => hls l (.tail _ hl)), List.append_assoc, List.singleton_append]

theorem header_undelimited {l : Text} (h : isHeader l = true) :
    l ≠ delimiter B ∧ l ≠ closeDelimiter B := by
  have hdash (rest : Text) : isHeader ('-' :: rest) = false := rfl
  constructor <;> rintro rfl
  · exact absurd ((hdash _).symm.trans h) Bool.false_ne_true
  · exact absurd ((hdash _).symm.trans h) Bool.false_ne_true

theorem splitParts_part (p : Part B) (rest : List Text) (files : List (List Text)) :
    splitParts B (delimiter B :: p.content ++ rest) files =
      splitParts B rest (files ++ [p.content]) := by
  have hlines : ∀ l ∈ p.headers ++ [] :: lines p.body, l ≠ delimiter B ∧ l ≠ closeDelimiter B := by
    intro l hl
    rcases List.mem_append.mp hl with hl | hl
    · exact header_undelimited (p.isHeader l (.tail _ hl))
    · rcases List.mem_cons.mp hl with rfl | hl
      · exact ⟨(List.cons_ne_nil _ _).symm, (List.cons_ne_nil _ _).symm⟩
      · exact p.undelimited l hl
  rw [Part.content, List.cons_append, List.cons_append, List.cons_append, splitParts,
    if_neg delimiter_ne_close, if_pos rfl, splitParts_lines hlines]
  rfl

theorem splitParts_parts (parts : List (Part B)) (rest : List Text) (files : List (List Text)) :
    splitParts B (parts.flatMap (fun p => delimiter B :: p.content) ++ rest) files =
      splitParts B rest (files ++ parts.map Part.content) := by
  induction parts generalizing files with
  | nil => simp
  | cons p parts ih =>
    rw [List.flatMap_cons, List.append_assoc, splitParts_part, ih, List.map_cons, List.append_assoc,
      List.singleton_append]

theorem splitParts_message {preamble : List Text}
    (hpreamble : ∀ l ∈ preamble, l ≠ delimiter B ∧ l ≠ closeDelimiter B) (parts : List (Part B))
    (epilogue : List Text) :
    splitParts B (message B preamble parts epilogue) [] = parts.map Part.content := by
  rw [message, List.append_assoc, splitParts_before hpreamble, splitParts_parts, List.nil_append]
  cases epilogue <;> rw [splitParts, if_pos rfl]

end

/-! ### The headers -/

theorem dropHeaders_of_ne_nil {l : Text} (hl : l ≠ []) (rest : List Text) :
    dropHeaders false (l :: rest) = dropHeaders false rest := by
  cases rest with
  | nil => simp only [dropHeaders, hl, Bool.false_eq_true, or_self, ↓reduceIte]
  | cons l' rest => rw [dropHeaders, if_neg hl, if_neg Bool.false_ne_true]

theorem dropHeaders_headers {headers : List Text} (h : ∀ l ∈ headers, isHeader l = true)
    (rest : List Text) : dropHeaders false (headers ++ rest) = dropHeaders false rest := by
  induction headers with
  | nil => rfl
  | cons l headers ih =>
    have hl : l ≠ [] := by
      rintro rfl
      exact absurd (h [] (.head _)) (by decide)
    rw [List.cons_append, dropHeaders_of_ne_nil hl]
    exact ih fun l hl => h l (.tail _ hl)

theorem isHeader_append {l : Text} (h : isHeader l = true) (rest : Text) :
    isHeader (l ++ rest) = true := by
  obtain ⟨name, hname, hpre⟩ := List.any_eq_true.mp h
  refine List.any_eq_true.mpr ⟨name, hname, ?_⟩
  rw [List.isPrefixOf_iff_prefix] at hpre ⊢
  exact hpre.trans (List.prefix_append _ _)

theorem skipHeaders_content {B : Text} (p : Part B) {b : Text} {rest : List Text}
    (hbody : lines p.body = b :: rest) :
    skipHeaders p.content = b :: dropHeaders true rest := by
  have hheader : isHeader (unlines p.content) = true := by
    rw [Part.content, List.cons_append, unlines, List.flatMap_cons, List.append_assoc]
    exact isHeader_append (p.isHeader _ (.head _)) _
  rw [skipHeaders, if_pos hheader, Part.content, dropHeaders_headers p.isHeader, hbody, dropHeaders,
    if_pos rfl]

theorem dropHeaders_sublist (rest : List Text) : (dropHeaders true rest).Sublist rest := by
  match rest with
  | [] => exact .refl _
  | [l] => simp [dropHeaders]
  | l :: l' :: rest =>
    rw [dropHeaders, if_pos rfl]
    split_ifs
    · exact ((dropHeaders_sublist rest).cons_cons l').cons l
    · exact (dropHeaders_sublist (l' :: rest)).cons_cons l

/-- Of two lines the first of which is empty only the second is printed. -/
theorem dropHeaders_eq_iff (rest : List Text) :
    dropHeaders true rest = rest ↔ [] ∉ rest.dropLast := by
  match rest with
  | [] => simp [dropHeaders]
  | [l] => simp [dropHeaders]
  | l :: l' :: rest =>
    rw [dropHeaders, if_pos rfl]
    split_ifs with hl
    · have hlt : (l' :: dropHeaders true rest).length < (l :: l' :: rest).length := by
        have := (dropHeaders_sublist rest).length_le
        simp only [List.length_cons]
        omega
      refine iff_of_false (fun heq => ?_) fun h => h (by simp [hl])
      rw [heq] at hlt
      exact lt_irrefl _ hlt
    · rw [List.cons_inj_right, dropHeaders_eq_iff (l' :: rest), List.dropLast_cons_cons,
        List.mem_cons,
        or_iff_right (Ne.symm hl)]

theorem unlines_cons (l : Text) (ls : List Text) : unlines (l :: ls) = l ++ '\n' :: unlines ls := by
  simp [unlines]

theorem length_unlines_of_sublist {a b : List Text} (h : a.Sublist b) :
    (unlines a).length ≤ (unlines b).length ∧
      ((unlines a).length = (unlines b).length → a = b) := by
  induction h with
  | slnil => exact ⟨le_rfl, fun _ => rfl⟩
  | cons l h ih =>
    rw [unlines_cons, List.length_append, List.length_cons]
    exact ⟨by omega, fun heq => by omega⟩
  | cons_cons l h ih =>
    simp only [unlines_cons, List.length_append, List.length_cons]
    refine ⟨by omega, fun heq => ?_⟩
    rw [ih.2 (by omega)]

/-! ### One part -/

/-- What is left of a part in its file. -/
def Part.left {B : Text} (p : Part B) : Text := unlines (skipHeaders p.content)

theorem unlines_lines (t : Text) : unlines (lines t) = t ++ ['\n'] := by
  obtain ⟨ls, last, rfl, hls, hlast⟩ := exists_unlines t
  rw [lines_unlines hls, lines_of_no_newline hlast]
  simp [unlines]

theorem left_length {B : Text} (p : Part B) :
    p.left.length ≤ (p.body ++ ['\n']).length ∧
      (p.left.length = (p.body ++ ['\n']).length ↔ Intact p) ∧
      (Intact p → p.left = p.body ++ ['\n']) := by
  obtain ⟨b, rest, hbody⟩ := List.exists_cons_of_ne_nil (List.splitOn_ne_nil '\n' p.body)
  rw [Part.left, Intact, ← unlines_lines, skipHeaders_content p hbody, lines, hbody, List.tail_cons,
    ← dropHeaders_eq_iff]
  obtain ⟨hle, heq⟩ := length_unlines_of_sublist ((dropHeaders_sublist rest).cons_cons b)
  refine ⟨hle, ⟨fun h => (List.cons.inj (heq h)).2, fun h => ?_⟩, fun h => ?_⟩
  · rw [h]
  · rw [h]

/-! ### The order of the files -/

theorem globbed_map {α β : Type} (f : α → β) (files : List α) :
    globbed (files.map f) = (globbed files).map f := by
  have hsort : ((files.zipIdx 1).map (Prod.map f id)).insertionSort
      (fun a b => Nat.toDigits 10 a.2 ≤ Nat.toDigits 10 b.2) =
      ((files.zipIdx 1).insertionSort fun a b => Nat.toDigits 10 a.2 ≤ Nat.toDigits 10 b.2).map
        (Prod.map f id) :=
    (List.map_insertionSort _ _ (Prod.map f id) _ fun _ _ _ _ => Iff.rfl).symm
  rw [globbed, globbed, List.zipIdx_map, hsort, List.map_map, List.map_map]
  rfl

theorem globbed_perm {α : Type} (files : List α) : (globbed files).Perm files := by
  have hperm := (List.perm_insertionSort (fun a b : α × ℕ =>
    Nat.toDigits 10 a.2 ≤ Nat.toDigits 10 b.2) (files.zipIdx 1)).map Prod.fst
  rwa [List.zipIdx_map_fst] at hperm

/-- Up to nine files come in the order of their numbers. -/
theorem globbed_of_length_le {α : Type} {files : List α} (h : files.length ≤ 9) :
    globbed files = files := by
  have hdigit : ∀ a < 10, ∀ b < 10, a ≤ b → Nat.toDigits 10 a ≤ Nat.toDigits 10 b := by decide
  rw [globbed, List.Pairwise.insertionSort_eq, List.zipIdx_map_fst]
  rw [List.pairwise_iff_getElem]
  intro i j hi hj hij
  rw [List.length_zipIdx] at hi hj
  rw [List.getElem_zipIdx, List.getElem_zipIdx]
  exact hdigit _ (by omega) _ (by omega) (by omega)

/-- The tenth file comes second. -/
example : globbed [1, 2, 3, 4, 5, 6, 7, 8, 9, 10] = [1, 10, 2, 3, 4, 5, 6, 7, 8, 9] := by decide

/-! ### The message -/

theorem processed_message {B : Text} (hB : B ≠ []) {preamble : List Text}
    (hpreamble : ∀ l ∈ preamble, l ≠ delimiter B ∧ l ≠ closeDelimiter B) (parts : List (Part B))
    (epilogue : List Text) (hboundary : boundary (message B preamble parts epilogue) = B) :
    processed (message B preamble parts epilogue) = globbed (parts.map Part.left) := by
  rw [processed, hboundary, if_neg hB, splitParts_message hpreamble, ← globbed_map, List.map_map]
  rfl

def sampleBoundary : Text := "B".toList

def samplePreamble : List Text := ["Content-Type: multipart/mixed; boundary=\"B\"".toList, []]

def configPart : Part sampleBoundary where
  header := "Content-Type: text/cloud-config".toList
  headers := ["MIME-Version: 1.0".toList]
  body := "#cloud-config\nhostname: a".toList
  isHeader := by decide
  undelimited := by decide

def scriptPart : Part sampleBoundary where
  header := "Content-Type: text/x-shellscript".toList
  headers := []
  body := "#!/bin/sh\n\nls".toList
  isHeader := by decide
  undelimited := by decide

end CargosBuildroot.Bootstrap
