import CargosBuildroot.Bootstrap.Users
import CargosBuildroot.Sed.Replace
import CargosBuildroot.Shell.Occurrence
import CargosBuildroot.Shell.Sections
import Mathlib.Data.Char
import Mathlib.Data.List.Lex
import Mathlib.Data.List.ReduceOption
import Mathlib.Data.List.Sort

/-! The files `/tmp/user.N` that `ci_users` makes of a cloud-config. One awk program prints
the section of the users, and a second one writes what stands between two `- name:` to a
file, with the number of the piece in its name. The loop takes the files in the order of
`ls`. -/

namespace CargosBuildroot.Bootstrap

open Shell Transition

/-! ### The awk programs -/

/-- `$1 ~ /^#/ { next }`, `/users:/ { flag=1; next }` and `/(^$|^(\w)+:)/ { flag=0 }`, where
a line of the last kind is not printed because the flag is looked at after it. -/
def userSwitch : Switch Text where
  skips l := (l.dropWhile isBlank).head? = some '#'
  sets l := "users:".toList <:+: l
  clears l := l = [] || beginsWithKey l

/-- What the program prints of the lines. -/
def printed (flag : Bool) (data : List Text) : List Text :=
  (outputs (userSwitch.print id) flag data).reduceOption

/-- `RS` -/
def separator : Text := "- name:".toList

/-- What awk takes for records of a text. -/
def awkRecords (t : Text) : List Text := if t = [] then [] else splitAll separator t.length t

/-- The lines of the files, with their numbers. A record whose first field is a hyphen is
not printed. -/
def userFiles (data : List Text) : List (List Text × ℕ) :=
  (((awkRecords (unlines (printed false data))).zipIdx 1).filter
    fun r => (words r.1).head? ≠ some ['-']).map fun r => (lines r.1, r.2)

/-- `ls -1 /tmp/user.*` -/
def listed {α : Type} (files : List (α × ℕ)) : List (α × ℕ) :=
  files.insertionSort fun a b => Nat.toDigits 10 a.2 ≤ Nat.toDigits 10 b.2

/-! ### The loop over the files -/

def fileStep {α : Type} (accepts : Accepts) (lines : α → List Text) (s : State) (f : α × ℕ) :
    State × (Option Account × ℕ) :=
  ((ciUser accepts s (lines f.1)).1, (ciUser accepts s (lines f.1)).2, f.2)

/-- What is done for the files, with the number of each. -/
def ciUsers (accepts : Accepts) (groupFile : Text → Option (List Text)) (data : List Text) :
    List (Option Account × ℕ) :=
  outputs (fileStep accepts id) { groupFile } (listed (userFiles data))

/-! ### Records -/

/-- A record of the section: the line with the name of a user, and the lines up to the next
record. The name is not empty and not a hyphen. -/
structure Record where
  indent : Text
  name : Text
  rest : List Text
  blanks : ∀ c ∈ indent, isBlank c = true
  no_newline : '\n' ∉ name ∧ ∀ l ∈ rest, '\n' ∉ l
  named : userOf [name] ≠ []
  no_dash : (words name).head? ≠ some ['-']
  header_sets : userSwitch.sets (indent ++ separator ++ name) = false
  name_single : ¬ separator <:+: name
  rest_single : ∀ l ∈ rest, userSwitch.plain l = true → ¬ separator <:+: l

namespace Record

def header (r : Record) : Text := r.indent ++ separator ++ r.name

def lines (r : Record) : List Text := r.header :: r.rest

/-- The lines of its file. -/
def file (r : Record) : List Text := r.name :: printed true r.rest

def user (r : Record) : Text := userOf r.file

end Record

/-- A section with the records. -/
def userSection (records : List Record) : List Text :=
  "users:".toList :: records.flatMap Record.lines

/-- The records in the order of their files. -/
def inOrder (records : List Record) : List (Record × ℕ) := listed (records.zipIdx 2)

/-! ### The pieces of printed lines -/

section

variable {a l : Text} {ls : List Text}

/-- The line has the separator once, or not at all. -/
inductive Cut : Text → Prop
  | whole {l : Text} (h : ¬ separator <:+: l) : Cut l
  | parts {x y : Text} (hx : ¬ separator <:+: x) (hy : ¬ separator <:+: y) : Cut (x ++ separator ++ y)

/-- The pieces of lines, the first of them begun with a text. -/
def pieces (a : Text) : List Text → List Text
  | [] => [a]
  | l :: ls =>
    match splitFirst separator l with
    | none => pieces (a ++ l ++ ['\n']) ls
    | some (x, y) => (a ++ x) :: pieces (y ++ ['\n']) ls

theorem separator_unbordered : Unbordered separator := by
  have h : Unbordered (['-'] ++ " name:".toList) :=
    unbordered_append rfl (by decide) (z := ':') rfl (by decide)
  exact h

theorem separator_append_line {b : Text} (hb : ¬ separator <:+: b) (hl : ¬ separator <:+: l) :
    ¬ separator <:+: b ++ '\n' :: l := by
  intro h
  rw [← List.append_nil separator] at h
  rcases Sed.infix_append_cons (by decide) h with h | h
  · exact hb h
  · exact hl (List.append_nil separator ▸ h)

/-- A text of whole lines. -/
def Ended (a : Text) : Prop := a = [] ∨ ∃ b, a = b ++ ['\n']

theorem not_separator_append (ha : Ended a) (hsep : ¬ separator <:+: a) (hl : ¬ separator <:+: l) :
    ¬ separator <:+: a ++ l := by
  rcases ha with rfl | ⟨b, rfl⟩
  · exact hl
  · rw [List.append_assoc, List.singleton_append]
    exact separator_append_line (fun h => hsep (h.trans (List.prefix_append b _).isInfix)) hl

theorem splitAll_unlines (ha : Ended a) (hsep : ¬ separator <:+: a) (hls : ∀ l ∈ ls, Cut l) (n : ℕ)
    (hn : (a ++ unlines ls).length ≤ n) : splitAll separator n (a ++ unlines ls) = pieces a ls := by
  have hend : ∀ {l : Text}, ¬ separator <:+: l → ¬ separator <:+: l ++ ['\n'] := fun h =>
    separator_append_line h (by decide)
  induction ls generalizing a n with
  | nil =>
    have hnil : a ++ unlines [] = a := List.append_nil a
    rw [hnil, splitAll_of_absent hsep, pieces]
  | cons l ls ih =>
    have hrest : ∀ l ∈ ls, Cut l := fun l hl => hls l (.tail _ hl)
    have hcons : a ++ unlines (l :: ls) = a ++ l ++ ['\n'] ++ unlines ls := by simp [unlines]
    rw [hcons] at hn ⊢
    cases hls l (.head _) with
    | whole hl =>
      rw [pieces, splitFirst_of_absent hl]
      exact ih (.inr ⟨_, rfl⟩) (hend (not_separator_append ha hsep hl)) hrest n hn
    | @parts x y hx hy =>
      have htext : a ++ (x ++ separator ++ y) ++ ['\n'] ++ unlines ls =
          (a ++ x) ++ separator ++ (y ++ ['\n'] ++ unlines ls) := by simp
      rw [htext] at hn ⊢
      rw [pieces, separator_unbordered.splitFirst_append hx]
      have hlength : separator.length = 7 := rfl
      simp only [List.length_append] at hn
      obtain ⟨k, rfl⟩ : ∃ k, n = k + 1 := ⟨n - 1, by omega⟩
      rw [separator_unbordered.splitAll_append (not_separator_append ha hsep hx)]
      refine congrArg _ (ih (.inr ⟨_, rfl⟩) (hend hy) hrest k ?_)
      simp only [List.length_append]
      omega

theorem length_pieces (a : Text) (ls : List Text) :
    (pieces a ls).length = ls.countP (separator <:+: ·) + 1 := by
  induction ls generalizing a with
  | nil => rfl
  | cons l ls ih =>
    rw [pieces, List.countP_cons]
    cases h : splitFirst separator l with
    | none => simp [ih, splitFirst_eq_none h]
    | some r =>
      have hl : separator <:+: l := ⟨r.1, r.2, (eq_of_splitFirst h).symm⟩
      simp [ih, hl]

/-- Lines without the separator stay in the piece. -/
theorem pieces_append (a : Text) {ls : List Text} (hls : ∀ l ∈ ls, ¬ separator <:+: l) (rest : List Text) :
    pieces a (ls ++ rest) = pieces (a ++ unlines ls) rest := by
  induction ls generalizing a with
  | nil => simp [unlines]
  | cons l ls ih =>
    rw [List.cons_append, pieces, splitFirst_of_absent (hls l (.head _)), ih _ fun l hl => hls l (.tail _ hl)]
    simp [unlines]

end

/-! ### Printed records -/

section

variable {flag : Bool} {l : Text} {ls : List Text} {r : Record} {records : List Record}

theorem printed_append (flag : Bool) (a b : List Text) :
    printed flag (a ++ b) = printed flag a ++ printed (after userSwitch.step flag a) b := by
  rw [printed, outputs_append, List.reduceOption_append]
  rfl

theorem printed_cons (flag : Bool) (l : Text) (ls : List Text) : printed flag (l :: ls) =
    (if flag && userSwitch.plain l then [l] else []) ++ printed (userSwitch.step flag l).1 ls := by
  rw [← userSwitch.step_snd flag l, ← List.singleton_append, printed_append]
  congr 1
  rw [printed, outputs, outputs, Switch.print]
  split <;> rfl

theorem mem_printed (h : l ∈ printed flag ls) : l ∈ ls ∧ userSwitch.plain l = true := by
  induction ls generalizing flag with
  | nil => exact absurd h List.not_mem_nil
  | cons m ls ih =>
    rw [printed_cons] at h
    rcases List.mem_append.mp h with h | h
    · split at h
      next hplain =>
        rw [Bool.and_eq_true] at hplain
        rw [List.mem_singleton.mp h]
        exact ⟨.head _, hplain.2⟩
      next => exact absurd h List.not_mem_nil
    · exact ⟨.tail _ (ih h).1, (ih h).2⟩

theorem Record.not_separator (h : l ∈ printed flag r.rest) : ¬ separator <:+: l :=
  r.rest_single l (mem_printed h).1 (mem_printed h).2

theorem Record.file_no_newline (r : Record) : ∀ l ∈ r.file, '\n' ∉ l := by
  intro l hl
  rcases List.mem_cons.mp hl with rfl | hl
  · exact r.no_newline.1
  · exact r.no_newline.2 l (mem_printed hl).1

theorem not_separator_blanks {t : Text} (h : ∀ c ∈ t, isBlank c = true) : ¬ separator <:+: t := by
  intro hsep
  exact absurd (h '-' (hsep.subset (by decide))) (by decide)

theorem Record.cut_header (r : Record) : Cut r.header := .parts (not_separator_blanks r.blanks) r.name_single

theorem Record.plain_header (r : Record) : userSwitch.plain r.header = true := by
  have hskips : userSwitch.skips r.header = false := by
    refine decide_eq_false ?_
    rw [header, List.append_assoc, List.dropWhile_append_of_pos r.blanks]
    exact fun h => absurd (Option.some.inj h) (by decide)
  have hclears : userSwitch.clears r.header = false := by
    have hword : ∀ c : Char, isBlank c = true → isWordChar c = false := by
      intro c hc
      rw [isBlank, Bool.or_eq_true, decide_eq_true_eq, decide_eq_true_eq] at hc
      rcases hc with rfl | rfl <;> decide
    obtain ⟨c, t, ht, hc⟩ : ∃ c t, r.header = c :: t ∧ isWordChar c = false := by
      cases hindent : r.indent with
      | nil => exact ⟨'-', _, by rw [header, hindent]; rfl, rfl⟩
      | cons c t =>
        exact ⟨c, _, by rw [header, hindent]; rfl, hword c (r.blanks c (by rw [hindent]; exact .head _))⟩
    rw [ht]
    simp [userSwitch, beginsWithKey, hc]
  have hsets : userSwitch.sets r.header = false := r.header_sets
  rw [Switch.plain, hskips, hsets, hclears]
  rfl

theorem Record.step_header (flag : Bool) (r : Record) : (userSwitch.step flag r.header).1 = flag := by
  have hplain := r.plain_header
  rw [Switch.plain] at hplain
  simp only [Bool.and_eq_true, Bool.not_eq_true'] at hplain
  simp [Switch.step, hplain]

theorem Record.printed_lines (flag : Bool) (r : Record) :
    printed flag r.lines = (if flag then [r.header] else []) ++ printed flag r.rest := by
  rw [lines, printed_cons, r.plain_header, Bool.and_true, r.step_header]

/-- Each record whose line is printed counts, and no more. -/
theorem count_printed (flag : Bool) (records : List Record) :
    (printed flag (records.flatMap Record.lines)).countP (separator <:+: ·) ≤ records.length ∧
      ((printed flag (records.flatMap Record.lines)).countP (separator <:+: ·) = records.length →
        ∀ before r rest, records = before ++ r :: rest →
          after userSwitch.step flag (before.flatMap Record.lines) = true) := by
  induction records generalizing flag with
  | nil => exact ⟨le_rfl, fun _ before r rest h => absurd h.symm (by simp)⟩
  | cons r rs ih =>
    obtain ⟨hle, hopen⟩ := ih (after userSwitch.step flag r.lines)
    have hrest : (printed flag r.rest).countP (separator <:+: ·) = 0 :=
      List.countP_eq_zero.mpr fun l hl => by simpa using r.not_separator hl
    have hheader : separator <:+: r.header := ⟨r.indent, r.name, rfl⟩
    have hcount : (printed flag r.lines).countP (separator <:+: ·) = if flag then 1 else 0 := by
      rw [r.printed_lines, List.countP_append, hrest]
      cases flag
      · rfl
      · simp [hheader]
    rw [List.flatMap_cons, printed_append, List.countP_append, hcount, List.length_cons]
    cases flag with
    | false => exact ⟨by simp; omega, fun heq => by simp at heq; omega⟩
    | true =>
      refine ⟨by simp; omega, fun heq before r' rest hsplit => ?_⟩
      rw [if_pos rfl] at heq
      rcases before with _ | ⟨r₀, before⟩
      · rfl
      · obtain ⟨rfl, hrs⟩ := List.cons.inj hsplit
        rw [List.flatMap_cons, after_append]
        exact hopen (by omega) before r' rest hrs

/-- The section is open before each record. -/
def AllOpen (records : List Record) : Prop :=
  ∀ before r rest, records = before ++ r :: rest → userSwitch.Opened (userSection before)

theorem after_userSection (records : List Record) : after userSwitch.step false (userSection records) =
    after userSwitch.step true (records.flatMap Record.lines) := rfl

theorem printed_userSection (records : List Record) :
    printed false (userSection records) = printed true (records.flatMap Record.lines) := rfl

theorem printed_open (hopen : AllOpen records) : printed false (userSection records) =
    records.flatMap fun r => r.header :: printed true r.rest := by
  have hflag : ∀ before r rest, records = before ++ r :: rest →
      after userSwitch.step true (before.flatMap Record.lines) = true := fun before r rest h =>
    after_userSection before ▸ (userSwitch.after_iff _).mpr (hopen before r rest h)
  clear hopen
  rw [printed_userSection]
  induction records with
  | nil => rfl
  | cons r rs ih =>
    rw [List.flatMap_cons, List.flatMap_cons, printed_append, r.printed_lines]
    cases rs with
    | nil => simp [printed, outputs]
    | cons r' rs =>
      have hr : after userSwitch.step true r.lines = true := by
        have := hflag [r] r' rs rfl
        rwa [List.flatMap_cons, List.flatMap_nil, List.append_nil] at this
      rw [hr, ih fun before q rest h => ?_]
      · rfl
      · have := hflag (r :: before) q rest (by rw [h]; rfl)
        rwa [List.flatMap_cons, after_append, hr] at this

/-! ### The files of an open section -/

/-- The pieces of printed records, the first of them begun with a text. -/
def recordPieces (a : Text) : List Record → List Text
  | [] => [a]
  | r :: rs => (a ++ r.indent) :: recordPieces (unlines r.file) rs

theorem pieces_records (a : Text) (records : List Record) :
    pieces a (records.flatMap fun r => r.header :: printed true r.rest) = recordPieces a records := by
  induction records generalizing a with
  | nil => rfl
  | cons r rs ih =>
    have hheader : splitFirst separator r.header = some (r.indent, r.name) :=
      separator_unbordered.splitFirst_append (not_separator_blanks r.blanks) r.name
    have hfile : r.name ++ ['\n'] ++ unlines (printed true r.rest) = unlines r.file := rfl
    rw [List.flatMap_cons, List.cons_append, pieces, hheader]
    dsimp only
    rw [pieces_append _ fun l => r.not_separator, ih, hfile, recordPieces]

/-- The indentations behind the records, the last of them empty. -/
def trails (records : List Record) : List Text := records.tail.map Record.indent ++ [[]]

theorem lines_recordPieces {f : List Text} (hf : ∀ l ∈ f, '\n' ∉ l) (records : List Record) :
    (recordPieces (unlines f) records).map Shell.lines =
      ((f :: records.map Record.file).zip (records.map Record.indent ++ [[]])).map fun p => p.1 ++ [p.2] := by
  induction records generalizing f with
  | nil =>
    have hlines := lines_unlines hf []
    simpa [recordPieces] using hlines
  | cons r rs ih =>
    have hindent : '\n' ∉ r.indent := fun h => absurd (r.blanks _ h) (by decide)
    rw [recordPieces, List.map_cons, ih r.file_no_newline, List.map_cons, List.map_cons, List.cons_append,
      List.zip_cons_cons, List.map_cons, lines_unlines hf, lines_of_no_newline hindent]

theorem words_blanks {t : Text} (h : ∀ c ∈ t, isBlank c = true) : words t = [] :=
  words_eq_nil_iff.mpr fun c hc => by
    have hblank := h c hc
    rw [isBlank] at hblank
    rw [isSpace, hblank, Bool.true_or]

/-- The first field of a file is the first word of the name. -/
theorem Record.no_dash_file (r : Record) (t : Text) : (words (unlines r.file ++ t)).head? ≠ some ['-'] := by
  have htext : unlines r.file ++ t = r.name ++ '\n' :: (unlines (printed true r.rest) ++ t) := by
    rw [file, unlines, List.flatMap_cons]
    simp [unlines]
  have hname : words r.name ≠ [] := by
    refine fun hnil => r.named (List.filter_eq_nil_iff.mpr fun c hc => ?_)
    simp [isSpaceClass, words_eq_nil_iff.mp hnil c hc]
  rw [htext, words_append_space _ _ (by rfl), List.head?_append_of_ne_nil _ hname]
  exact r.no_dash

theorem no_dash_recordPieces {a : Text} (ha : ∀ t, (∀ c ∈ t, isBlank c = true) → (words (a ++ t)).head? ≠ some ['-'])
    (records : List Record) : ∀ p ∈ recordPieces a records, (words p).head? ≠ some ['-'] := by
  induction records generalizing a with
  | nil =>
    intro p hp
    obtain rfl := List.mem_singleton.mp hp
    exact List.append_nil p ▸ ha [] nofun
  | cons r rs ih =>
    intro p hp
    rcases List.mem_cons.mp hp with rfl | hp
    · exact ha r.indent r.blanks
    · exact ih (fun t _ => r.no_dash_file t) p hp

theorem cut_printed (h : l ∈ printed flag (records.flatMap Record.lines)) : Cut l := by
  obtain ⟨hl, hplain⟩ := mem_printed h
  obtain ⟨r, -, hl⟩ := List.mem_flatMap.mp hl
  rcases List.mem_cons.mp hl with rfl | hl
  · exact r.cut_header
  · exact .whole (r.rest_single l hl hplain)

theorem awkRecords_printed (records : List Record) (hne : printed false (userSection records) ≠ []) :
    awkRecords (unlines (printed false (userSection records))) = pieces [] (printed false (userSection records)) := by
  have htext : unlines (printed false (userSection records)) ≠ [] := by
    obtain ⟨l, ls, h⟩ := List.exists_cons_of_ne_nil hne
    rw [h]
    simp [unlines]
  rw [awkRecords, if_neg htext]
  exact splitAll_unlines (.inl rfl) (by decide) (fun l => cut_printed) _ le_rfl

theorem awkRecords_open (hopen : AllOpen records) (hne : records ≠ []) :
    awkRecords (unlines (printed false (userSection records))) = recordPieces [] records := by
  have hprinted := printed_open hopen
  obtain ⟨r, rs, rfl⟩ := List.exists_cons_of_ne_nil hne
  rw [awkRecords_printed _ (by rw [hprinted]; exact List.cons_ne_nil _ _), hprinted, pieces_records]

/-- The section is open before each record if there is a file with the number of the last one. -/
theorem allOpen_of_file {f : List Text} (h : (f, records.length + 1) ∈ userFiles (userSection records)) :
    AllOpen records := by
  obtain ⟨p, hp, heq⟩ := List.mem_map.mp h
  have hlt := List.snd_lt_add_of_mem_zipIdx (List.mem_filter.mp hp).1
  have hnumber : p.2 = records.length + 1 := congrArg Prod.snd heq
  have hne : printed false (userSection records) ≠ [] := by
    intro hnil
    rw [hnil] at hlt
    have hzero : (awkRecords (unlines [])).length = 0 := rfl
    omega
  rw [awkRecords_printed records hne, length_pieces] at hlt
  obtain ⟨hle, hopen⟩ := count_printed true records
  rw [← printed_userSection] at hle hopen
  exact fun before r rest hsplit => (userSwitch.after_iff _).mp (hopen (by omega) before r rest hsplit)

/-- One file has the indentation of the first record, and each record has one. -/
theorem userFiles_open (hopen : AllOpen records) (hne : records ≠ []) : ∃ indent,
    (∀ c ∈ indent, isBlank c = true) ∧ userFiles (userSection records) =
      ([indent], 1) :: ((records.zip (trails records)).zipIdx 2).map fun p => (p.1.1.file ++ [p.1.2], p.2) := by
  obtain ⟨r, rs, rfl⟩ := List.exists_cons_of_ne_nil hne
  refine ⟨r.indent, r.blanks, ?_⟩
  have hfilter : ((recordPieces [] (r :: rs)).zipIdx 1).filter (fun p => (words p.1).head? ≠ some ['-']) =
      (recordPieces [] (r :: rs)).zipIdx 1 := by
    refine List.filter_eq_self.mpr fun p hp => decide_eq_true ?_
    refine no_dash_recordPieces (fun t ht => ?_) _ p.1 (List.fst_mem_of_mem_zipIdx hp)
    rw [List.nil_append, words_blanks ht]
    exact nofun
  have hlines : (recordPieces [] (r :: rs)).map Shell.lines =
      (([] :: (r :: rs).map Record.file).zip (r.indent :: (rs.map Record.indent ++ [[]]))).map fun p => p.1 ++ [p.2] :=
    @lines_recordPieces [] nofun (r :: rs)
  have hpieces : ((recordPieces [] (r :: rs)).zipIdx 1).map (fun p => (Shell.lines p.1, p.2)) =
      ((recordPieces [] (r :: rs)).map Shell.lines).zipIdx 1 := by
    rw [List.zipIdx_map]
    rfl
  have hzip : (((r :: rs).map Record.file).zip (rs.map Record.indent ++ [[]])).map (fun p => p.1 ++ [p.2]) =
      ((r :: rs).zip (trails (r :: rs))).map fun p => p.1.file ++ [p.2] := by
    rw [List.zip_map_left, List.map_map]
    rfl
  rw [userFiles, awkRecords_open hopen hne, hfilter, hpieces, hlines, List.zip_cons_cons, List.map_cons, hzip,
    List.zipIdx_cons, List.zipIdx_map]
  rfl

/-! ### The order of the files -/

theorem listed_map {α β : Type} (f : α → β) (files : List (α × ℕ)) :
    listed (files.map (Prod.map f id)) = (listed files).map (Prod.map f id) :=
  (List.map_insertionSort _ _ (Prod.map f id) _ fun _ _ _ _ => Iff.rfl).symm

theorem listed_perm {α : Type} (files : List (α × ℕ)) : (listed files).Perm files :=
  List.perm_insertionSort _ _

theorem one_le_digits (n : ℕ) (hn : 1 ≤ n) : Nat.toDigits 10 1 ≤ Nat.toDigits 10 n := by
  obtain ⟨c, t, ht, hc⟩ : ∃ c t, Nat.toDigits 10 n = c :: t ∧ '1' ≤ c := by
    induction n using Nat.strong_induction_on with
    | _ n ih =>
      by_cases hlt : n < 10
      · have hdigit : ∀ n < 10, 1 ≤ n → '1' ≤ n.digitChar := by decide
        exact ⟨_, [], Nat.toDigits_of_lt_base hlt, hdigit n hlt hn⟩
      · obtain ⟨c, t, ht, hc⟩ := ih (n / 10) (by omega) (by omega)
        rw [Nat.toDigits_of_base_le (by decide) (by omega), ht]
        exact ⟨c, _, rfl, hc⟩
  have hone : Nat.toDigits 10 1 = ['1'] := by decide
  rw [ht, hone]
  rcases lt_or_eq_of_le hc with h | rfl
  · have hlt : ['1'] < c :: t := .rel h
    exact hlt.le
  · refine List.cons_le_cons _ ?_
    cases t with
    | nil => exact le_rfl
    | cons d t =>
      have hlt : [] < d :: t := .nil
      exact hlt.le

theorem listed_first {α : Type} (a : α) {files : List (α × ℕ)} (h : ∀ f ∈ files, 1 ≤ f.2) :
    listed ((a, 1) :: files) = (a, 1) :: listed files :=
  List.insertionSort_cons_of_forall_rel _ fun f hf => one_le_digits f.2 (h f hf)

end

end CargosBuildroot.Bootstrap
