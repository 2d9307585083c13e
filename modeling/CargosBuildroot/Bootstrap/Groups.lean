import CargosBuildroot.Bootstrap.Document
import Mathlib.Data.List.DropRight

/-! The groups of a cloud-config (`ci_groups` of `rc.bootstrap`). The section begins at any line
with `groups:` in it and ends at a line that begins with a letter, a digit or `_`. Expansions
without quotes are taken to match no file names. -/

namespace CargosBuildroot.Bootstrap

open Shell Transition

/-! ### The function -/

/-- `$1 ~ /^#/ { next }`, `/groups:/ { flag=1; next }` and `/^(\w)+/ { flag=0; next }` -/
def groupSwitch : Switch Text where
  skips l := (l.dropWhile isBlank).head? = some '#'
  sets l := "groups:".toList <:+: l
  clears l := l.head?.any fun c => c.isAlphanum || c = '_'

inductive GroupEffect
  | addgroup (group : Text)
  /-- A line of the file `/tmp/groups.USER`. -/
  | record (user group : Text)
  deriving DecidableEq

/-- `${i#*- }` of a text that matches `*-\ *` -/
def afterMark : Text → Option Text
  | '-' :: ' ' :: t => some t
  | _ :: t => afterMark t
  | [] => none

/-- `${t%:*}` -/
def beforeLastColon (t : Text) : Text :=
  if ':' ∈ t then (t.reverse.dropWhile (· ≠ ':')).tail.reverse else t

/-- The edits of `_gu_entry`, which `echo` may take for an option. -/
def groupEntry (entry : Text) : Text :=
  let entry := if isEchoOption entry then [] else entry
  let entry := entry.dropWhile isBlank
  let entry := dropFirstChar '[' (dropLastChar ']' entry)
  let entry := dropFirstChar '\x22' (dropLastChar '\x22' entry)
  dropFirstChar '\x27' (dropLastChar '\x27' entry)

/-- The body of the loop over the lines. -/
def groupEffects (i : Text) : List GroupEffect :=
  match afterMark i with
  | none => []
  | some rest =>
    if ':' ∈ rest then
      let _gu := value i
      let _g := beforeLastColon rest
      if "[".toList <+: _gu then
        -- the group is added before its first user
        match readArray ',' _gu with
        | [] => []
        | entries => .addgroup _g :: entries.map fun entry => .record (groupEntry entry) _g
      else [.addgroup _g, .record _gu _g]
    else [.addgroup rest]

/-- A word of `for i in $(awk …)`; an empty line is none. -/
def groupStep (_ : Unit) (line : Option Text) : Unit × List GroupEffect :=
  ((), (line.map fun i => if i = [] then [] else groupEffects i).getD [])

/-- What is done for each line of the document. -/
def ciGroups (data : List Text) : List (List GroupEffect) :=
  outputs groupStep () (outputs (groupSwitch.print id) false data)

/-! ### Listed groups -/

/-- A character of a name. -/
def nameChar (c : Char) : Bool := !isSpaceClass c && c ∉ ":,[]\x22\x27\\#".toList

def trimBlanks (t : Text) : Text := (t.dropWhile isBlank).rdropWhile isBlank

/-- A text without the quotes around it. -/
def unquote (t : Text) : Text :=
  if 2 ≤ t.length ∧ t.head? = t.getLast? ∧ (t.head? = some '\x22' ∨ t.head? = some '\x27') then
    t.tail.dropLast
  else t

/-- A name, with quotes or without. -/
def nameOf (t : Text) : Option Text :=
  let name := unquote (trimBlanks t)
  if name ≠ [] ∧ name.all nameChar = true then some name else none

/-- A user, or a list of them in brackets. -/
def usersOf (t : Text) : Option (List Text) :=
  let t := trimBlanks t
  if t.head? = some '[' ∧ t.getLast? = some ']' then (t.tail.dropLast.splitOn ',').mapM nameOf
  else (nameOf t).map ([·])

/-- The group that a line lists, and its users. -/
def groupItem (l : Text) : Option (Text × List Text) :=
  match l.dropWhile isBlank with
  | '-' :: b :: t =>
    if isBlank b then
      if ':' ∈ t then
        let rest := (t.dropWhile (· ≠ ':')).tail
        if rest.head?.any isBlank then
          (nameOf (t.takeWhile (· ≠ ':'))).bind fun group => (usersOf rest).map (group, ·)
        else none
      else (nameOf t).map (·, [])
    else none
  | _ => none

/-- The effects that a line under `groups:` is for. -/
def listedEffects (l : Text) : List GroupEffect :=
  match groupItem l with
  | none => []
  | some (group, users) => .addgroup group :: users.map (.record · group)

def listedGroups (doc : List Section) : List (List GroupEffect) :=
  (documentRows "groups".toList listedEffects [] doc).map Prod.snd

/-! ### Written items -/

structure Name (t : Text) : Prop where
  ne_nil : t ≠ []
  chars : ∀ c ∈ t, nameChar c = true

/-- Quotes, or none. -/
def quotes : List Text := [[], ['\x22'], ['\x27']]

/-- A name in quotes or without. -/
def Quoted (t : Text) : Prop := ∃ q ∈ quotes, ∃ u, Name u ∧ t = q ++ u ++ q

/-- A name in quotes or without, and blanks around it. -/
structure Spaced (u lead quote trail : Text) : Prop where
  name : Name u
  quote : quote ∈ quotes
  lead : ∀ c ∈ lead, isBlank c = true
  trail : ∀ c ∈ trail, isBlank c = true

/-- An item with one blank after the dash and the colon, and none elsewhere but before the later
entries of a list. -/
inductive Written : Text → Prop
  | plain {indent g : Text} (blanks : ∀ c ∈ indent, isBlank c = true) (group : Name g) :
      Written (indent ++ "- ".toList ++ g)
  | single {indent g u : Text} (blanks : ∀ c ∈ indent, isBlank c = true) (group : Name g)
      (user : Name u) : Written (indent ++ "- ".toList ++ (g ++ ": ".toList ++ u))
  | list {indent g first : Text} {others : List Text} (blanks : ∀ c ∈ indent, isBlank c = true)
      (group : Name g) (first_quoted : Quoted first)
      (quoted : ∀ e ∈ others, Quoted (e.dropWhile isBlank))
      (option : ∀ e ∈ others.dropLast, isEchoOption e = false) :
      Written (indent ++ "- ".toList ++
        (g ++ ": [".toList ++ [','].intercalate (first :: others) ++ "]".toList))

section

variable {indent g u q lead trail e t : Text} {c : Char}

/-! ### Names -/

theorem Name.not_mem (h : Name t) (hc : nameChar c = false) : c ∉ t :=
  fun hmem => Bool.false_ne_true (hc.symm.trans (h.chars c hmem))

theorem Name.head_ne (h : Name t) (hc : nameChar c = false) : t.head? ≠ some c :=
  fun heq => h.not_mem hc (List.mem_of_head? heq)

theorem Name.last_ne (h : Name t) (hc : nameChar c = false) : t.getLast? ≠ some c :=
  fun heq => h.not_mem hc (List.mem_of_getLast? heq)

/-- A character that is neither in a name nor a quote. -/
def apart (c : Char) : Bool := !nameChar c && c ≠ '\x22' && c ≠ '\x27'

theorem apart_of_blank (h : isBlank c = true) : apart c = true := by
  simp only [isBlank, Bool.or_eq_true, decide_eq_true_eq] at h
  rcases h with rfl | rfl <;> rfl

theorem Spaced.quoted (h : Spaced u lead q trail) : Quoted (q ++ u ++ q) := ⟨q, h.quote, u, h.name, rfl⟩

theorem Quoted.not_mem (h : Quoted t) (hc : apart c = true) : c ∉ t := by
  obtain ⟨q, hq, u, hu, rfl⟩ := h
  simp only [apart, Bool.and_eq_true, Bool.not_eq_true', decide_eq_true_eq] at hc
  have hname := hu.not_mem hc.1.1
  simp only [quotes, List.mem_cons, List.not_mem_nil, or_false] at hq
  rcases hq with rfl | rfl | rfl
  · simpa using hname
  · simp [hname, hc.1.2]
  · simp [hname, hc.2]

theorem Quoted.ne_nil (h : Quoted t) : t ≠ [] := by
  obtain ⟨q, -, u, hu, rfl⟩ := h
  simp [hu.ne_nil]

theorem Quoted.not_blank (h : Quoted t) (hc : isBlank c = true) : c ∉ t := h.not_mem (apart_of_blank hc)

theorem Quoted.dropWhile (h : Quoted t) (s : Text) : (t ++ s).dropWhile isBlank = t ++ s := by
  obtain ⟨c, rest, rfl⟩ := List.exists_cons_of_ne_nil h.ne_nil
  rw [List.cons_append, List.dropWhile_cons_of_neg fun hc => h.not_blank hc (.head _)]

theorem Quoted.rdropWhile (h : Quoted t) : t.rdropWhile isBlank = t := by
  rw [List.rdropWhile_eq_self_iff]
  exact fun hne hc => h.not_blank hc (List.getLast_mem hne)

/-- A name in quotes has no blanks around it. -/
theorem Spaced.quoted_iff (h : Spaced u lead q trail) :
    Quoted (lead ++ (q ++ u ++ q) ++ trail) ↔ lead = [] ∧ trail = [] := by
  refine ⟨fun hquoted => ?_, ?_⟩
  · refine ⟨List.eq_nil_iff_forall_not_mem.mpr fun c hc => ?_, List.eq_nil_iff_forall_not_mem.mpr fun c hc => ?_⟩
    · exact hquoted.not_blank (h.lead c hc) (by simp [hc])
    · exact hquoted.not_blank (h.trail c hc) (by simp [hc])
  · rintro ⟨rfl, rfl⟩
    rw [List.nil_append, List.append_nil]
    exact h.quoted

theorem Spaced.dropWhile (h : Spaced u lead q trail) (s : Text) :
    (lead ++ (q ++ u ++ q) ++ trail ++ s).dropWhile isBlank = q ++ u ++ q ++ (trail ++ s) := by
  rw [List.append_assoc, List.append_assoc, List.dropWhile_append_of_pos h.lead, h.quoted.dropWhile]

theorem Spaced.not_mem (h : Spaced u lead q trail) (hc : apart c = true) (hblank : isBlank c = false) :
    c ∉ lead ++ (q ++ u ++ q) ++ trail := by
  have hlead : c ∉ lead := fun hmem => Bool.false_ne_true (hblank.symm.trans (h.lead c hmem))
  have htrail : c ∉ trail := fun hmem => Bool.false_ne_true (hblank.symm.trans (h.trail c hmem))
  rw [List.mem_append, List.mem_append]
  exact not_or.mpr ⟨not_or.mpr ⟨hlead, h.quoted.not_mem hc⟩, htrail⟩

/-- Only the characters of the name are characters of names. -/
theorem Spaced.filter (h : Spaced u lead q trail) :
    (lead ++ (q ++ u ++ q) ++ trail).filter nameChar = u := by
  have hblank : ∀ {s : Text}, (∀ c ∈ s, isBlank c = true) → s.filter nameChar = [] := by
    refine fun hs => List.filter_eq_nil_iff.mpr fun c hc => ?_
    have happart := apart_of_blank (hs c hc)
    simp only [apart, Bool.and_eq_true, Bool.not_eq_true'] at happart
    simp [happart.1.1]
  have hquote : q.filter nameChar = [] := by
    have hq := h.quote
    simp only [quotes, List.mem_cons, List.not_mem_nil, or_false] at hq
    rcases hq with rfl | rfl | rfl <;> rfl
  have hname : u.filter nameChar = u := List.filter_eq_self.mpr h.name.chars
  simp only [List.filter_append, hblank h.lead, hblank h.trail, hquote, hname, List.nil_append,
    List.append_nil]

/-! ### What is read as a name -/

theorem exists_trim (t : Text) : ∃ lead trail, (∀ c ∈ lead, isBlank c = true) ∧
    (∀ c ∈ trail, isBlank c = true) ∧ t = lead ++ trimBlanks t ++ trail := by
  refine ⟨t.takeWhile isBlank, (t.dropWhile isBlank).rtakeWhile isBlank,
    fun c => List.mem_takeWhile_imp, fun c => List.mem_rtakeWhile_imp, ?_⟩
  rw [trimBlanks, List.append_assoc, List.rdropWhile_append_rtakeWhile, List.takeWhile_append_dropWhile]

theorem rdropWhile_append_blanks (t : Text) (h : ∀ c ∈ trail, isBlank c = true) :
    (t ++ trail).rdropWhile isBlank = t.rdropWhile isBlank := by
  rw [List.rdropWhile, List.reverse_append, List.dropWhile_append_of_pos, List.rdropWhile]
  exact fun c hc => h c (List.mem_reverse.mp hc)

theorem trimBlanks_quoted (ht : Quoted t) (hlead : ∀ c ∈ lead, isBlank c = true)
    (htrail : ∀ c ∈ trail, isBlank c = true) : trimBlanks (lead ++ t ++ trail) = t := by
  rw [trimBlanks, List.append_assoc, List.dropWhile_append_of_pos hlead, ht.dropWhile,
    rdropWhile_append_blanks _ htrail, ht.rdropWhile]

theorem unquote_quoted (hq : q ∈ quotes) (hu : Name u) : unquote (q ++ u ++ q) = u := by
  have hmark (c : Char) : ([c] ++ u ++ [c]).getLast? = some c := List.getLast?_concat
  have hinside (c : Char) : ([c] ++ u ++ [c]).tail.dropLast = u := by
    rw [List.append_assoc, List.singleton_append, List.tail_cons, List.dropLast_concat]
  have hlength (c : Char) : 2 ≤ ([c] ++ u ++ [c]).length := by simp
  rw [unquote]
  simp only [quotes, List.mem_cons, List.not_mem_nil, or_false] at hq
  rcases hq with rfl | rfl | rfl
  · rw [List.nil_append, List.append_nil, if_neg]
    rintro ⟨-, -, h | h⟩
    · exact hu.head_ne rfl h
    · exact hu.head_ne rfl h
  · rw [if_pos ⟨hlength _, (hmark _).symm, .inl rfl⟩, hinside]
  · rw [if_pos ⟨hlength _, (hmark _).symm, .inr rfl⟩, hinside]

theorem exists_quotes (t : Text) : ∃ q ∈ quotes, t = q ++ unquote t ++ q := by
  rw [unquote]
  split
  next h =>
    obtain ⟨hlength, hends, hquote⟩ := h
    obtain ⟨c, rest, rfl⟩ := List.exists_cons_of_ne_nil (List.ne_nil_of_length_pos (by omega : 0 < t.length))
    have hrest : rest ≠ [] := by
      rintro rfl
      simp at hlength
    have hlast : rest.getLast hrest = c := by
      have hsome : (c :: rest).getLast? = some (rest.getLast hrest) := by
        rw [List.getLast?_cons, List.getLast?_eq_some_getLast hrest]
        rfl
      rw [hsome, List.head?_cons] at hends
      exact (Option.some_inj.mp hends).symm
    refine ⟨[c], ?_, ?_⟩
    · rw [List.head?_cons, Option.some_inj, Option.some_inj] at hquote
      rcases hquote with rfl | rfl <;> decide
    · have hconcat := List.dropLast_append_getLast hrest
      rw [hlast] at hconcat
      rw [List.tail_cons, List.append_assoc, hconcat]
      rfl
  next => exact ⟨[], .head _, by simp⟩

theorem Spaced.nameOf (h : Spaced u lead q trail) : nameOf (lead ++ (q ++ u ++ q) ++ trail) = some u := by
  rw [Bootstrap.nameOf, trimBlanks_quoted h.quoted h.lead h.trail, unquote_quoted h.quote h.name,
    if_pos ⟨h.name.ne_nil, List.all_eq_true.mpr h.name.chars⟩]

theorem exists_spaced (h : nameOf t = some u) :
    ∃ lead q trail, Spaced u lead q trail ∧ t = lead ++ (q ++ u ++ q) ++ trail := by
  obtain ⟨lead, trail, hlead, htrail, ht⟩ := exists_trim t
  obtain ⟨q, hq, hquotes⟩ := exists_quotes (trimBlanks t)
  rw [nameOf] at h
  obtain ⟨⟨hne, hchars⟩, hu⟩ := Option.ite_none_right_eq_some.mp h
  obtain rfl := Option.some_inj.mp hu
  exact ⟨lead, q, trail, ⟨⟨hne, List.all_eq_true.mp hchars⟩, hq, hlead, htrail⟩, by rw [← hquotes, ← ht]⟩

theorem nameOf_quoted (hq : q ∈ quotes) (hu : Name u) (hlead : ∀ c ∈ lead, isBlank c = true) :
    nameOf (lead ++ (q ++ u ++ q)) = some u := by
  have hspaced : Spaced u lead q [] := ⟨hu, hq, hlead, List.forall_mem_nil _⟩
  have hname := hspaced.nameOf
  rwa [List.append_nil] at hname

theorem nameOf_plain (hu : Name u) : nameOf u = some u := by
  have hbare := @nameOf_quoted u [] [] (.head _) hu (List.forall_mem_nil _)
  rwa [List.nil_append, List.nil_append, List.append_nil] at hbare

/-! ### The edits of an entry -/

theorem dropLastChar_concat (c : Char) (t : Text) : dropLastChar c (t ++ [c]) = t := by
  rw [dropLastChar, if_pos List.getLast?_concat, List.dropLast_concat]

theorem dropLastChar_of_ne (h : t.getLast? ≠ some c) : dropLastChar c t = t := if_neg h

theorem dropFirstChar_cons (c : Char) (t : Text) : dropFirstChar c (c :: t) = t := if_pos rfl

theorem dropFirstChar_of_ne (h : t.head? ≠ some c) : dropFirstChar c t = t := if_neg h

/-- Another character at the beginning stays there. -/
theorem head?_dropChars {b : Char} (hb : b ≠ c) (h : t.head? = some b) :
    (dropFirstChar c (dropLastChar c t)).head? = some b := by
  have hlast : (dropLastChar c t).head? = some b := by
    rw [dropLastChar]
    split
    next hc =>
      obtain ⟨_ | ⟨d, rest⟩, rfl⟩ := List.head?_eq_some_iff.mp h
      · exact absurd (Option.some_inj.mp hc) hb
      · rfl
    next => exact h
  rw [dropFirstChar_of_ne, hlast]
  rw [hlast]
  exact fun heq => hb (Option.some_inj.mp heq)

theorem getLast?_dropChars {b : Char} (hb : b ≠ c) (h : t.getLast? = some b) :
    (dropFirstChar c (dropLastChar c t)).getLast? = some b := by
  rw [dropLastChar_of_ne (by rw [h]; exact fun heq => hb (Option.some_inj.mp heq)), dropFirstChar]
  split
  next hc =>
    obtain ⟨rest, rfl⟩ := List.head?_eq_some_iff.mp hc
    rcases List.eq_nil_or_concat rest with rfl | ⟨front, d, rfl⟩
    · exact absurd (Option.some_inj.mp h).symm hb
    · rw [List.concat_eq_append] at h ⊢
      rw [List.tail_cons, List.getLast?_concat]
      rwa [← List.cons_append, List.getLast?_concat] at h
  next => exact h

/-- The last edits of an entry. -/
def bare (t : Text) : Text :=
  dropFirstChar '\x27' (dropLastChar '\x27' (dropFirstChar '\x22' (dropLastChar '\x22' t)))

theorem bare_quoted (hq : q ∈ quotes) (hu : Name u) : bare (q ++ u ++ q) = u := by
  have hhead := @Name.head_ne u
  have hlast := @Name.last_ne u
  rw [bare]
  simp only [quotes, List.mem_cons, List.not_mem_nil, or_false] at hq
  rcases hq with rfl | rfl | rfl
  · rw [List.nil_append, List.append_nil, dropLastChar_of_ne (hlast hu rfl),
      dropFirstChar_of_ne (hhead hu rfl), dropLastChar_of_ne (hlast hu rfl),
      dropFirstChar_of_ne (hhead hu rfl)]
  · have hdrop : dropLastChar '\x22' (['\x22'] ++ u ++ ['\x22']) = '\x22' :: u :=
      dropLastChar_concat _ _
    rw [hdrop, dropFirstChar_cons, dropLastChar_of_ne (hlast hu rfl), dropFirstChar_of_ne (hhead hu rfl)]
  · have hdrop : dropLastChar '\x27' (['\x27'] ++ u ++ ['\x27']) = '\x27' :: u :=
      dropLastChar_concat _ _
    have hkeep : dropFirstChar '\x22' (dropLastChar '\x22' (['\x27'] ++ u ++ ['\x27'])) =
        ['\x27'] ++ u ++ ['\x27'] := by
      rw [dropLastChar_of_ne (by rw [List.getLast?_concat]; decide)]
      exact dropFirstChar_of_ne (by simp)
    rw [hkeep, hdrop, dropFirstChar_cons]

/-- A blank at an end stays there. -/
theorem bare_ne (hu : Name u) (h : isBlank c = true) (hc : t.head? = some c ∨ t.getLast? = some c) :
    bare t ≠ u := by
  have hname : nameChar c = false := by
    have happart := apart_of_blank h
    simp only [apart, Bool.and_eq_true, Bool.not_eq_true'] at happart
    exact happart.1.1
  have hquotes : c ≠ '\x22' ∧ c ≠ '\x27' := by
    have happart := apart_of_blank h
    simp only [apart, Bool.and_eq_true, decide_eq_true_eq] at happart
    exact ⟨happart.1.2, happart.2⟩
  rintro rfl
  rcases hc with hc | hc
  · exact hu.head_ne hname (head?_dropChars hquotes.2 (head?_dropChars hquotes.1 hc))
  · exact hu.last_ne hname (getLast?_dropChars hquotes.2 (getLast?_dropChars hquotes.1 hc))

theorem Spaced.bare_iff (h : Spaced u lead q trail) :
    bare (lead ++ (q ++ u ++ q) ++ trail) = u ↔ lead = [] ∧ trail = [] := by
  constructor
  · intro heq
    constructor
    · cases lead with
      | nil => rfl
      | cons c lead => exact absurd heq (bare_ne h.name (h.lead c (.head _)) (.inl rfl))
    · rcases List.eq_nil_or_concat trail with rfl | ⟨front, c, rfl⟩
      · rfl
      · exact absurd heq (bare_ne h.name (h.trail c (by simp)) (.inr (by simp)))
  · rintro ⟨rfl, rfl⟩
    rw [List.nil_append, List.append_nil]
    exact bare_quoted h.quote h.name

theorem groupEntry_eq (hoption : isEchoOption e = false) :
    groupEntry e = bare (dropFirstChar '[' (dropLastChar ']' (e.dropWhile isBlank))) := by
  rw [groupEntry, hoption]
  rfl

theorem isEchoOption_of_bracket (h : '[' ∈ t ∨ ']' ∈ t) : isEchoOption t = false := by
  unfold isEchoOption
  split
  next flags =>
    have hflag : ∀ c, c = '[' ∨ c = ']' → c ∈ '-' :: flags →
        (flags.all fun c => c = 'n' || c = 'e' || c = 'E') = false := by
      rintro c hc hmem
      refine List.all_eq_false.mpr ⟨c, (List.mem_cons.mp hmem).resolve_left ?_, ?_⟩
      all_goals rcases hc with rfl | rfl <;> decide
    rcases h with h | h
    · rw [hflag _ (.inl rfl) h, Bool.and_false]
    · rw [hflag _ (.inr rfl) h, Bool.and_false]
  next => rfl

/-- The entry between commas on both sides. -/
theorem groupEntry_middle (h : Spaced u lead q trail) (he : e = lead ++ (q ++ u ++ q) ++ trail) :
    groupEntry e = u ↔ Quoted (e.dropWhile isBlank) ∧ isEchoOption e = false := by
  have hrest : Spaced u [] q trail := ⟨h.name, h.quote, List.forall_mem_nil _, h.trail⟩
  have hdrop : e.dropWhile isBlank = [] ++ (q ++ u ++ q) ++ trail := by
    have hdrop := h.dropWhile []
    rwa [List.append_nil, List.append_nil, ← he] at hdrop
  cases hoption : isEchoOption e with
  | true =>
    refine iff_of_false (fun heq => h.name.ne_nil ?_) fun h => Bool.false_ne_true h.2.symm
    rw [← heq, groupEntry, hoption]
    rfl
  | false =>
    have hends := hrest.not_mem (c := ']') rfl rfl
    have hstart := hrest.not_mem (c := '[') rfl rfl
    rw [groupEntry_eq hoption, hdrop, dropLastChar_of_ne fun h => hends (List.mem_of_getLast? h),
      dropFirstChar_of_ne fun h => hstart (List.mem_of_head? h), hrest.bare_iff, hrest.quoted_iff,
      and_iff_left rfl]

/-- The first one, behind the bracket. -/
theorem groupEntry_first (h : Spaced u lead q trail) (he : e = lead ++ (q ++ u ++ q) ++ trail) :
    groupEntry ('[' :: e) = u ↔ Quoted e := by
  have hends : ']' ∉ '[' :: e := by
    rw [List.mem_cons, he]
    exact not_or.mpr ⟨by decide, h.not_mem rfl rfl⟩
  rw [groupEntry_eq (isEchoOption_of_bracket (.inl (.head _))), List.dropWhile_cons_of_neg (by decide),
    dropLastChar_of_ne fun h => hends (List.mem_of_getLast? h), dropFirstChar_cons, he, h.bare_iff,
    h.quoted_iff]

theorem bare_append_ne (hu : Name u) (htrail : ∀ c ∈ trail, isBlank c = true) (hne : trail ≠ []) (t : Text) :
    bare (t ++ trail) ≠ u := by
  have hlast : (t ++ trail).getLast? = some (trail.getLast hne) := by
    rw [List.getLast?_append_of_ne_nil _ hne, List.getLast?_eq_some_getLast hne]
  exact bare_ne hu (htrail _ (List.getLast_mem hne)) (.inr hlast)

theorem getLast?_blanks_ne (htrail : ∀ c ∈ trail, isBlank c = true) (hne : trail ≠ []) (t : Text) :
    (t ++ trail).getLast? ≠ some ']' := by
  rw [List.getLast?_append_of_ne_nil _ hne]
  exact fun h => absurd (htrail _ (List.mem_of_getLast? h)) (by decide)

variable {closing : Text}

/-- The last one, with what follows the bracket. -/
theorem groupEntry_last (h : Spaced u lead q trail) (he : e = lead ++ (q ++ u ++ q) ++ trail)
    (hclosing : ∀ c ∈ closing, isBlank c = true) :
    groupEntry (e ++ ']' :: closing) = u ↔ Quoted (e.dropWhile isBlank) ∧ closing = [] := by
  have hrest : Spaced u [] q trail := ⟨h.name, h.quote, List.forall_mem_nil _, h.trail⟩
  have hdrop (s : Text) : (e ++ s).dropWhile isBlank = [] ++ (q ++ u ++ q) ++ trail ++ s := by
    rw [he, h.dropWhile, List.nil_append, List.append_assoc (q ++ u ++ q)]
  have hitem := hdrop []
  rw [List.append_nil, List.append_nil] at hitem
  have hstart := hrest.not_mem (c := '[') rfl rfl
  have hhead (s : Text) : (([] ++ (q ++ u ++ q) ++ trail) ++ s).head? ≠ some '[' := by
    rw [List.head?_append_of_ne_nil _ (by simp [h.name.ne_nil])]
    exact fun h => hstart (List.mem_of_head? h)
  rw [groupEntry_eq (isEchoOption_of_bracket (.inr (by simp))), hdrop, hitem, hrest.quoted_iff, and_iff_right rfl]
  by_cases hnil : closing = []
  · subst hnil
    have hhead' := hhead []
    rw [List.append_nil] at hhead'
    rw [dropLastChar_concat, dropFirstChar_of_ne hhead', hrest.bare_iff, and_iff_left rfl, and_iff_right rfl]
  · rw [List.append_cons, dropLastChar_of_ne (getLast?_blanks_ne hclosing hnil _), dropFirstChar_of_ne]
    · exact iff_of_false (bare_append_ne h.name hclosing hnil _) fun h => hnil h.2
    · rw [List.append_assoc]
      exact hhead _

theorem groupEntry_only (h : Spaced u lead q trail) (he : e = lead ++ (q ++ u ++ q) ++ trail)
    (hclosing : ∀ c ∈ closing, isBlank c = true) :
    groupEntry ('[' :: (e ++ ']' :: closing)) = u ↔ Quoted e ∧ closing = [] := by
  rw [groupEntry_eq (isEchoOption_of_bracket (.inl (.head _))), List.dropWhile_cons_of_neg (by decide)]
  by_cases hnil : closing = []
  · subst hnil
    rw [← List.cons_append, dropLastChar_concat, dropFirstChar_cons, he, h.bare_iff, h.quoted_iff,
      and_iff_left rfl]
  · rw [List.append_cons, ← List.cons_append, dropLastChar_of_ne (getLast?_blanks_ne hclosing hnil _),
      List.cons_append, dropFirstChar_cons]
    exact iff_of_false (bare_append_ne h.name hclosing hnil _) fun h => hnil h.2

/-! ### The array of users -/

/-- The name in a piece of a list. -/
def nameIn (e : Text) : Text := (nameOf e).getD []

/-- A piece of a list is a name. -/
def Named (e : Text) : Prop := nameOf e = some (nameIn e)

theorem mapM_nameOf_eq_some {pieces users : List Text} :
    pieces.mapM nameOf = some users ↔ (∀ e ∈ pieces, Named e) ∧ users = pieces.map nameIn := by
  induction pieces generalizing users with
  | nil => simp [eq_comm]
  | cons e pieces ih =>
    have hnamed : ∀ u, nameOf e = some u ↔ Named e ∧ u = nameIn e := by
      intro u
      refine ⟨fun h => ?_, fun h => h.1.trans (congrArg some h.2.symm)⟩
      have hu : nameIn e = u := by rw [nameIn, h, Option.getD_some]
      exact ⟨h.trans (congrArg some hu.symm), hu.symm⟩
    rw [List.mapM_cons, List.forall_mem_cons, List.map_cons]
    simp only [Option.bind_eq_bind, Option.bind_eq_some_iff, Option.pure_def, Option.some_inj, hnamed, ih]
    constructor
    · rintro ⟨u, ⟨he, rfl⟩, us, ⟨hpieces, rfl⟩, rfl⟩
      exact ⟨⟨he, hpieces⟩, rfl⟩
    · rintro ⟨⟨he, hpieces⟩, rfl⟩
      exact ⟨_, ⟨he, rfl⟩, _, ⟨hpieces, rfl⟩, rfl⟩

theorem Named.spaced (h : Named e) :
    ∃ lead q trail, Spaced (nameIn e) lead q trail ∧ e = lead ++ (q ++ nameIn e ++ q) ++ trail :=
  exists_spaced h

theorem Named.not_mem (h : Named e) (hc : apart c = true) (hblank : isBlank c = false) : c ∉ e := by
  obtain ⟨lead, q, trail, hspaced, he⟩ := h.spaced
  rw [he]
  exact hspaced.not_mem hc hblank

theorem Named.name (h : Named e) : Name (nameIn e) := by
  obtain ⟨lead, q, trail, hspaced, -⟩ := h.spaced
  exact hspaced.name

theorem join_concat (pieces : List Text) (e s : Text) :
    [','].intercalate (pieces ++ [e]) ++ s = [','].intercalate (pieces ++ [e ++ s]) := by
  induction pieces with
  | nil => simp
  | cons p pieces ih =>
    rw [List.cons_append, List.cons_append, List.intercalate_cons_of_ne_nil (by simp),
      List.intercalate_cons_of_ne_nil (by simp), List.append_assoc, ih]

/-- The entries of a list are its names if there are no blanks but before the later ones. -/
theorem map_groupEntry_iff {first : Text} {others : List Text} (hnamed : ∀ e ∈ first :: others, Named e)
    (hclosing : ∀ c ∈ closing, isBlank c = true) :
    (('[' :: ([','].intercalate (first :: others) ++ ']' :: closing)).splitOn ',').map groupEntry =
        (first :: others).map nameIn ↔
      (Quoted first ∧ (∀ e ∈ others, Quoted (e.dropWhile isBlank)) ∧
        ∀ e ∈ others.dropLast, isEchoOption e = false) ∧ closing = [] := by
  obtain ⟨lead, q, trail, hfirst, hpiece⟩ := (hnamed first (.head _)).spaced
  have hcomma : ∀ e ∈ first :: others, ',' ∉ e := fun e he => (hnamed e he).not_mem rfl rfl
  have hclose : ',' ∉ ']' :: closing := by
    rw [List.mem_cons, not_or]
    exact ⟨by decide, fun hmem => absurd (hclosing _ hmem) (by decide)⟩
  rcases List.eq_nil_or_concat others with rfl | ⟨middle, last, rfl⟩
  · have hsplit : ('[' :: ([','].intercalate [first] ++ ']' :: closing)).splitOn ',' =
        ['[' :: (first ++ ']' :: closing)] := by
      rw [List.intercalate_singleton, List.splitOn_eq_singleton]
      rw [List.mem_cons, List.mem_append, not_or, not_or]
      exact ⟨by decide, hcomma first (.head _), hclose⟩
    rw [hsplit, List.map_singleton, List.map_singleton, List.singleton_inj, groupEntry_only hfirst hpiece hclosing]
    simp
  · rw [List.concat_eq_append] at hnamed hcomma ⊢
    obtain ⟨lead', q', trail', hlast, hpiece'⟩ := (hnamed last (by simp)).spaced
    have hsplit : ('[' :: ([','].intercalate (first :: (middle ++ [last])) ++ ']' :: closing)).splitOn ',' =
        ('[' :: first) :: (middle ++ [last ++ ']' :: closing]) := by
      have hjoin : [','].intercalate (first :: (middle ++ [last])) ++ ']' :: closing =
          [','].intercalate (first :: (middle ++ [last ++ ']' :: closing])) :=
        join_concat (first :: middle) last _
      rw [hjoin, ← List.intercalate_cons_cons_left, List.splitOn_intercalate _ _ (by simp)]
      intro e he
      rcases List.mem_cons.mp he with rfl | he
      · rw [List.mem_cons, not_or]
        exact ⟨by decide, hcomma first (.head _)⟩
      · rcases List.mem_append.mp he with he | he
        · exact hcomma e (by simp [he])
        · rw [List.mem_singleton.mp he, List.mem_append, not_or]
          exact ⟨hcomma last (by simp), hclose⟩
    have hmiddle : middle.map groupEntry = middle.map nameIn ↔
        ∀ e ∈ middle, Quoted (e.dropWhile isBlank) ∧ isEchoOption e = false := by
      rw [List.map_inj_left]
      refine forall_congr' fun e => forall_congr' fun he => ?_
      obtain ⟨lead, q, trail, hspaced, hpiece⟩ := (hnamed e (by simp [he])).spaced
      exact groupEntry_middle hspaced hpiece
    have hsame : ∀ {a b : List Text} {x y : Text}, a ++ [x] = b ++ [y] ↔ a = b ∧ x = y :=
      ⟨fun h => (List.append_inj' h rfl).imp id List.singleton_inj.mp, fun h => by rw [h.1, h.2]⟩
    have hall : (∀ e ∈ middle ++ [last], Quoted (e.dropWhile isBlank)) ↔
        (∀ e ∈ middle, Quoted (e.dropWhile isBlank)) ∧ Quoted (last.dropWhile isBlank) := by
      rw [List.forall_mem_append, List.forall_mem_singleton]
    rw [hsplit, List.map_cons, List.map_append, List.map_singleton, List.map_cons, List.map_append,
      List.map_singleton, List.cons.injEq, groupEntry_first hfirst hpiece, hsame, hmiddle,
      groupEntry_last hlast hpiece' hclosing, List.dropLast_concat, hall, forall₂_and]
    tauto

/-! ### The parts of an item -/

/-- A list of names after a bracket, between blanks. -/
theorem usersOf_eq_some {users : List Text} (h : usersOf t = some users) :
    (∃ u lead q trail, Spaced u lead q trail ∧ t = lead ++ (q ++ u ++ q) ++ trail ∧ users = [u]) ∨
      ∃ lead first others closing, (∀ c ∈ lead, isBlank c = true) ∧ (∀ c ∈ closing, isBlank c = true) ∧
        (∀ e ∈ first :: others, Named e) ∧ users = (first :: others).map nameIn ∧
        t = lead ++ '[' :: ([','].intercalate (first :: others) ++ ']' :: closing) := by
  rw [usersOf] at h
  split at h
  next hbrackets =>
    obtain ⟨hnamed, husers⟩ := mapM_nameOf_eq_some.mp h
    obtain ⟨lead, closing, hlead, hclosing, ht⟩ := exists_trim t
    obtain ⟨inner, hinner⟩ := List.head?_eq_some_iff.mp hbrackets.1
    rcases List.eq_nil_or_concat inner with rfl | ⟨inner, c, rfl⟩
    · rw [hinner] at hbrackets
      exact absurd hbrackets.2 (by decide)
    have hlast : c = ']' := by
      rw [hinner, List.concat_eq_append, ← List.cons_append, List.getLast?_concat] at hbrackets
      exact Option.some_inj.mp hbrackets.2
    obtain ⟨first, others, hsplit⟩ := List.exists_cons_of_ne_nil (List.splitOn_ne_nil ',' inner)
    have hpieces : (trimBlanks t).tail.dropLast.splitOn ',' = first :: others := by
      rw [hinner, List.tail_cons, List.concat_eq_append, List.dropLast_concat, hsplit]
    have hjoin : [','].intercalate (inner.splitOn ',') = inner := List.intercalate_splitOn ','
    rw [hsplit] at hjoin
    rw [hpieces] at hnamed husers
    refine .inr ⟨lead, first, others, closing, hlead, hclosing, hnamed, husers, ht.trans ?_⟩
    rw [hinner, hlast, hjoin, List.concat_eq_append]
    simp
  next =>
    obtain ⟨u, hu, rfl⟩ := Option.map_eq_some_iff.mp h
    obtain ⟨lead, q, trail, hspaced, htrim⟩ := exists_spaced hu
    obtain ⟨lead', trail', hlead, htrail, ht⟩ := exists_trim t
    refine .inl ⟨u, lead' ++ lead, q, trail ++ trail', ⟨hspaced.name, hspaced.quote, ?_, ?_⟩, ?_, rfl⟩
    · exact List.forall_mem_append.mpr ⟨hlead, hspaced.lead⟩
    · exact List.forall_mem_append.mpr ⟨hspaced.trail, htrail⟩
    · rw [htrim] at ht
      simpa using ht

/-- What the text of the users may be, as far as the cuts of the item see it. -/
structure UsersText (t : Text) (users : List Text) : Prop where
  colon : ':' ∉ t
  ne_nil : users ≠ []
  names : ∀ u ∈ users, Name u

theorem usersText {users : List Text} (h : usersOf t = some users) : UsersText t users := by
  rcases usersOf_eq_some h with
    ⟨u, lead, q, trail, hspaced, rfl, rfl⟩ | ⟨lead, first, others, closing, hlead, hclosing, hnamed, rfl, rfl⟩
  · exact ⟨hspaced.not_mem rfl rfl, by simp, List.forall_mem_singleton.mpr hspaced.name⟩
  · refine ⟨?_, by simp, fun u hu => ?_⟩
    · have hlist : ':' ∉ [','].intercalate (first :: others) := by
        intro hmem
        rcases mem_intercalate hmem with hsep | ⟨e, he, hmem⟩
        · exact absurd hsep (by decide)
        · exact (hnamed e he).not_mem rfl rfl hmem
      simp only [List.mem_append, List.mem_cons, not_or]
      exact ⟨fun hmem => absurd (hlead _ hmem) (by decide), by decide, hlist, by decide,
        fun hmem => absurd (hclosing _ hmem) (by decide)⟩
    · obtain ⟨e, he, rfl⟩ := List.mem_map.mp hu
      exact (hnamed e he).name

/-- The parts of a line that lists a group. -/
inductive GroupText (g : Text) : List Text → Text → Prop
  | plain {lead q trail : Text} (group : Spaced g lead q trail) : GroupText g [] (lead ++ (q ++ g ++ q) ++ trail)
  | users {lead q trail rest : Text} {b : Char} {users : List Text} (group : Spaced g lead q trail)
      (blank : isBlank b = true) (list : usersOf (b :: rest) = some users) :
      GroupText g users (lead ++ (q ++ g ++ q) ++ trail ++ ':' :: b :: rest)

theorem exists_groupText {l : Text} {users : List Text} (h : groupItem l = some (g, users)) :
    ∃ indent b t, (∀ c ∈ indent, isBlank c = true) ∧ isBlank b = true ∧ l = indent ++ '-' :: b :: t ∧
      GroupText g users t := by
  unfold groupItem at h
  split at h
  next b t hdrop =>
    have hl : l = l.takeWhile isBlank ++ '-' :: b :: t := by
      rw [← hdrop, List.takeWhile_append_dropWhile]
    obtain ⟨hb, h⟩ := Option.ite_none_right_eq_some.mp h
    refine ⟨l.takeWhile isBlank, b, t, fun c => List.mem_takeWhile_imp, hb, hl, ?_⟩
    split at h
    next hcolon =>
      obtain ⟨hblank, h⟩ := Option.ite_none_right_eq_some.mp h
      obtain ⟨group, hgroup, h⟩ := Option.bind_eq_some_iff.mp h
      obtain ⟨us, hus, heq⟩ := Option.map_eq_some_iff.mp h
      obtain ⟨rfl, rfl⟩ := Prod.mk.inj heq
      obtain ⟨front, rest, rfl, hfront⟩ := List.eq_append_cons_of_mem hcolon
      have hne : ∀ c ∈ front, decide (c ≠ ':') = true := fun c hc =>
        decide_eq_true fun heq => hfront (heq ▸ hc)
      rw [List.takeWhile_append_of_pos hne, List.takeWhile_cons_of_neg (by simp), List.append_nil] at hgroup
      rw [List.dropWhile_append_of_pos hne, List.dropWhile_cons_of_neg (by simp), List.tail_cons] at hblank hus
      obtain ⟨lead, q, trail, hspaced, rfl⟩ := exists_spaced hgroup
      cases rest with
      | nil => cases hblank
      | cons b' rest => exact .users hspaced hblank hus
    next =>
      obtain ⟨group, hgroup, heq⟩ := Option.map_eq_some_iff.mp h
      obtain ⟨rfl, rfl⟩ := Prod.mk.inj heq
      obtain ⟨lead, q, trail, hspaced, rfl⟩ := exists_spaced hgroup
      exact .plain hspaced
  next => cases h

/-! ### The cuts -/

theorem afterMark_append (hindent : ∀ c ∈ indent, isBlank c = true) (t : Text) :
    afterMark (indent ++ t) = afterMark t := by
  induction indent with
  | nil => rfl
  | cons c indent ih =>
    have hc : c ≠ '-' := by
      rintro rfl
      exact absurd (hindent '-' (.head _)) (by decide)
    rw [List.cons_append, afterMark]
    · exact ih fun c hc => hindent c (.tail _ hc)
    · intro t heq
      exact absurd heq hc

theorem eq_of_afterMark {r : Text} (h : afterMark t = some r) : ∃ a, t = a ++ '-' :: ' ' :: r := by
  induction t with
  | nil => cases h
  | cons c t ih =>
    unfold afterMark at h
    split at h
    next heq =>
      obtain rfl := Option.some_inj.mp h
      exact ⟨[], heq⟩
    next heq =>
      obtain ⟨-, rfl⟩ := List.cons.inj heq
      obtain ⟨a, rfl⟩ := ih h
      exact ⟨c :: a, rfl⟩
    next heq => cases heq

theorem afterMark_eq_none : afterMark t = none ↔ ¬ "- ".toList <:+: t := by
  constructor
  · rintro h ⟨a, b, rfl⟩
    rw [List.append_assoc] at h
    induction a with
    | nil => cases h
    | cons c a ih =>
      unfold afterMark at h
      split at h
      next => cases h
      next heq =>
        obtain ⟨-, rfl⟩ := List.cons.inj heq
        exact ih h
      next heq => cases heq
  · intro h
    rw [← Option.not_isSome_iff_eq_none, Option.isSome_iff_exists]
    rintro ⟨r, hr⟩
    obtain ⟨a, rfl⟩ := eq_of_afterMark hr
    exact h ⟨a, r, by simp⟩

theorem value_append (hindent : ∀ c ∈ indent, isBlank c = true) (hg : ':' ∉ g) (t : Text) :
    value (indent ++ '-' :: ' ' :: (g ++ ':' :: ' ' :: t)) = t := by
  have hcolon : ':' ∉ indent ++ '-' :: ' ' :: g := by
    simp only [List.mem_append, List.mem_cons, not_or]
    exact ⟨fun hmem => absurd (hindent _ hmem) (by decide), by decide, by decide, hg⟩
  have htext : indent ++ '-' :: ' ' :: (g ++ ':' :: ' ' :: t) =
      indent ++ '-' :: ' ' :: g ++ ':' :: ' ' :: t := by simp
  rw [value, htext, afterColon_append hcolon]
  rfl

/-- A text with no blank after its colon. -/
theorem afterColon_eq_none {a : Text} (ha : ':' ∉ a) (ht : ':' ∉ t) (hhead : t.head? ≠ some ' ') :
    afterColon (a ++ ':' :: t) = none := by
  have hnone : ∀ {t : Text}, ':' ∉ t → afterColon t = none := by
    intro t ht
    induction t with
    | nil => rfl
    | cons c t ih =>
      rw [afterColon]
      · exact ih fun h => ht (.tail _ h)
      · intro t heq
        exact absurd (heq ▸ .head _) ht
  induction a with
  | nil =>
    rw [List.nil_append, afterColon]
    · exact hnone ht
    · rintro t - rfl
      exact hhead rfl
  | cons c a ih =>
    rw [List.cons_append, afterColon]
    · exact ih fun h => ha (.tail _ h)
    · intro t heq
      exact absurd (heq ▸ .head _) ha

theorem beforeLastColon_append (t : Text) {r : Text} (hr : ':' ∉ r) :
    beforeLastColon (t ++ ':' :: r) = t := by
  rw [beforeLastColon, if_pos (by simp), dropWhile_reverse_append t hr, List.tail_cons,
    List.reverse_reverse]

/-! ### Effects -/

section

variable {l r v : Text} {users : List Text}

theorem groupEffects_plain (h : afterMark l = some r) (hcolon : ':' ∉ r) :
    groupEffects l = [.addgroup r] := by
  rw [groupEffects, h]
  exact if_neg hcolon

theorem groupEffects_single (h : afterMark l = some r) (hcolon : ':' ∈ r) (hv : ¬ "[".toList <+: value l) :
    groupEffects l = [.addgroup (beforeLastColon r), .record (value l) (beforeLastColon r)] := by
  rw [groupEffects, h]
  dsimp only
  rw [if_pos hcolon, if_neg hv]

theorem groupEffects_list (h : afterMark l = some r) (hcolon : ':' ∈ r) (hv : value l = '[' :: v) :
    groupEffects l = .addgroup (beforeLastColon r) ::
      (readArray ',' ('[' :: v)).map fun entry => .record (groupEntry entry) (beforeLastColon r) := by
  rw [groupEffects, h]
  dsimp only
  rw [if_pos hcolon, hv, if_pos (show "[".toList <+: '[' :: v from ⟨v, rfl⟩)]
  obtain ⟨e, es, hentries⟩ :=
    List.exists_cons_of_ne_nil (@readArray_ne_nil ',' '[' (by decide) (by decide) v)
  rw [hentries]

/-- A group is added for every text with the mark. -/
theorem head?_groupEffects (h : afterMark l = some r) :
    (groupEffects l).head? = some (.addgroup (if ':' ∈ r then beforeLastColon r else r)) := by
  by_cases hcolon : ':' ∈ r
  · rw [if_pos hcolon]
    by_cases hv : "[".toList <+: value l
    · obtain ⟨v, hv⟩ := hv
      rw [groupEffects_list h hcolon hv.symm]
      rfl
    · rw [groupEffects_single h hcolon hv]
      rfl
  · rw [if_neg hcolon, groupEffects_plain h hcolon]
    rfl

theorem groupEffects_eq_nil_iff : groupEffects l = [] ↔ ¬ "- ".toList <:+: l := by
  rw [← afterMark_eq_none]
  cases h : afterMark l with
  | none =>
    rw [groupEffects, h]
    exact iff_of_true rfl rfl
  | some r =>
    refine iff_of_false (fun hnil => ?_) nofun
    have hhead := head?_groupEffects h
    rw [hnil] at hhead
    cases hhead

/-- The text of a group has no second mark before the group. -/
theorem Spaced.ne_mark (h : Spaced g lead q trail) (a : Text) :
    lead ++ (q ++ g ++ q) ++ trail ≠ a ++ '-' :: ' ' :: g := by
  intro heq
  have hfilter := h.filter
  have hname : g.filter nameChar = g := List.filter_eq_self.mpr h.name.chars
  rw [heq, List.filter_append, List.filter_cons_of_pos (by decide), List.filter_cons_of_neg (by decide),
    hname] at hfilter
  have hlength := congrArg List.length hfilter
  rw [List.length_append, List.length_cons] at hlength
  omega

/-- The mark of an item with a tab is a later one, if there is any. -/
theorem groupEffects_tab (hindent : ∀ c ∈ indent, isBlank c = true) (ht : GroupText g users t) :
    groupEffects (indent ++ '-' :: '\t' :: t) ≠ .addgroup g :: users.map (.record · g) := by
  intro heq
  have hmark : afterMark (indent ++ '-' :: '\t' :: t) = afterMark t := by
    rw [afterMark_append hindent]
    rfl
  cases hrest : afterMark t with
  | none =>
    rw [groupEffects, hmark, hrest] at heq
    cases heq
  | some r =>
    rw [hrest] at hmark
    obtain ⟨a, ha⟩ := eq_of_afterMark hrest
    have hhead := head?_groupEffects hmark
    rw [heq, List.head?_cons, Option.some_inj, GroupEffect.addgroup.injEq] at hhead
    cases ht with
    | plain hg =>
      have hcolon := hg.not_mem (c := ':') rfl rfl
      rw [ha] at hcolon
      rw [if_neg fun hmem => hcolon (by simp [hmem])] at hhead
      rw [← hhead] at ha
      exact hg.ne_mark a ha
    | users hg hblank hlist =>
      obtain ⟨hcolon, hne, -⟩ := usersText hlist
      by_cases hmem : ':' ∈ r
      · obtain ⟨front, s, rfl, hfront⟩ := List.eq_append_cons_of_mem hmem
        have hparts := (List.append_cons_inj_of_notMem (hg.not_mem (c := ':') rfl rfl) hcolon).mp
          (ha.trans (by simp : _ = (a ++ '-' :: ' ' :: front) ++ ':' :: s))
        rw [if_pos hmem, beforeLastColon_append _ (hparts.2.2 ▸ hcolon)] at hhead
        rw [← hhead] at hparts
        exact hg.ne_mark a hparts.1
      · rw [groupEffects_plain hmark hmem] at heq
        exact hne (List.map_eq_nil_iff.mp (List.cons.inj heq).2.symm)

theorem map_record (entries : List Text) : entries.map (fun e => GroupEffect.record (groupEntry e) g) =
    (entries.map groupEntry).map (GroupEffect.record · g) := by
  rw [List.map_map]
  rfl

theorem record_map_inj {us vs : List Text} :
    us.map (GroupEffect.record · g) = vs.map (GroupEffect.record · g) ↔ us = vs := by
  refine List.map_inj_right fun u v h => ?_
  exact (GroupEffect.record.inj h).1

/-- The array of the users behind a bracket. -/
theorem exists_list {rest : Text} (hlist : usersOf (' ' :: '[' :: rest) = some users) :
    ∃ first others closing, (∀ c ∈ closing, isBlank c = true) ∧ (∀ e ∈ first :: others, Named e) ∧
      users = (first :: others).map nameIn ∧ rest = [','].intercalate (first :: others) ++ ']' :: closing ∧
        readArray ',' ('[' :: rest) = ('[' :: rest).splitOn ',' := by
  rcases usersOf_eq_some hlist with
    ⟨u, lead, q, trail, hspaced, ht, -⟩ | ⟨lead, first, others, closing, hlead, hclosing, hnamed, husers, ht⟩
  · have hbracket := hspaced.not_mem (c := '[') rfl rfl
    rw [← ht] at hbracket
    exact absurd (by simp) hbracket
  · have hrest : rest = [','].intercalate (first :: others) ++ ']' :: closing := by
      rcases lead with _ | ⟨c, _ | ⟨d, lead⟩⟩
      · exact absurd (List.cons.inj ht).1 (by decide)
      · exact (List.cons.inj (List.cons.inj ht).2).2
      · have hd : '[' = d := (List.cons.inj (List.cons.inj ht).2).1
        exact absurd (hlead d (by simp)) (by rw [← hd]; decide)
    refine ⟨first, others, closing, hclosing, hnamed, husers, hrest, readArray_plain ?_ ?_ (List.cons_ne_nil _ _)⟩
    · rw [hrest]
      simp only [List.mem_append, List.mem_cons, not_or]
      refine ⟨by decide, fun hmem => ?_, by decide, fun hmem => absurd (hclosing _ hmem) (by decide)⟩
      rcases mem_intercalate hmem with hsep | ⟨e, he, hmem⟩
      · exact absurd hsep (by decide)
      · exact (hnamed e he).not_mem rfl rfl hmem
    · have hlast : ',' ∉ ']' :: closing := by
        rw [List.mem_cons, not_or]
        exact ⟨by decide, fun hmem => absurd (hclosing _ hmem) (by decide)⟩
      rw [hrest, ← List.cons_append, List.getLast?_append_of_ne_nil _ (List.cons_ne_nil _ _)]
      exact fun h => hlast (List.mem_of_getLast? h)

/-- An item with users whose effects are those listed. -/
theorem written_of_users {gt rest : Text} {b : Char} (hindent : ∀ c ∈ indent, isBlank c = true) (hg : Name g)
    (hgt : ':' ∉ gt) (hblank : isBlank b = true) (hlist : usersOf (b :: rest) = some users)
    (heq : groupEffects (indent ++ '-' :: ' ' :: (gt ++ ':' :: b :: rest)) =
      .addgroup g :: users.map (.record · g)) :
    Written (indent ++ '-' :: ' ' :: (gt ++ ':' :: b :: rest)) := by
  obtain ⟨hcolon, hne, hnames⟩ := usersText hlist
  have hmark : afterMark (indent ++ '-' :: ' ' :: (gt ++ ':' :: b :: rest)) = some (gt ++ ':' :: b :: rest) := by
    rw [afterMark_append hindent]
    rfl
  have hmem : ':' ∈ gt ++ ':' :: b :: rest := by simp
  have hlast := beforeLastColon_append gt hcolon
  have hgroup := head?_groupEffects hmark
  rw [heq, if_pos hmem, hlast, List.head?_cons, Option.some_inj, GroupEffect.addgroup.injEq] at hgroup
  subst hgroup
  simp only [isBlank, Bool.or_eq_true, decide_eq_true_eq] at hblank
  rcases hblank with rfl | rfl
  · have hvalue := value_append hindent hgt rest
    by_cases hbracket : "[".toList <+: rest
    · obtain ⟨v, hv⟩ := hbracket
      obtain rfl : '[' :: v = rest := hv
      obtain ⟨first, others, closing, hclosing, hnamed, rfl, rfl, harray⟩ := exists_list hlist
      rw [groupEffects_list hmark hmem hvalue, harray, hlast, List.cons.injEq, map_record,
        record_map_inj, map_groupEntry_iff hnamed hclosing] at heq
      obtain ⟨-, ⟨hfirst, hothers, hoption⟩, rfl⟩ := heq
      have hwritten := Written.list hindent hg hfirst hothers hoption
      simpa using hwritten
    · rw [groupEffects_single hmark hmem (by rwa [hvalue]), hlast, hvalue, List.cons.injEq] at heq
      have husers : [rest] = users := record_map_inj.mp heq.2
      have hwritten := Written.single hindent hg (hnames rest (husers ▸ .head _))
      simpa using hwritten
  · -- the whole line is taken for the user
    have hdash : ':' ∉ indent ++ '-' :: ' ' :: g := by
      simp only [List.mem_append, List.mem_cons, not_or]
      exact ⟨fun hmem => absurd (hindent _ hmem) (by decide), by decide, by decide, hgt⟩
    have hvalue : value (indent ++ '-' :: ' ' :: (g ++ ':' :: '\t' :: rest)) =
        indent ++ '-' :: ' ' :: (g ++ ':' :: '\t' :: rest) := by
      have hnone := afterColon_eq_none hdash hcolon (by simp)
      rw [List.append_assoc] at hnone
      exact congrArg (Option.getD · _) hnone
    have hbracket : ¬ "[".toList <+: indent ++ '-' :: ' ' :: (g ++ ':' :: '\t' :: rest) := by
      rintro ⟨s, hs⟩
      cases indent with
      | nil => exact absurd (List.cons.inj hs).1 (by decide)
      | cons c indent =>
        have hc : '[' = c := (List.cons.inj hs).1
        exact absurd (hindent c (.head _)) (by rw [← hc]; decide)
    rw [groupEffects_single hmark hmem (by rwa [hvalue]), hlast, hvalue, List.cons.injEq] at heq
    have husers : [_] = users := record_map_inj.mp heq.2
    have hname := hnames _ (husers ▸ List.mem_singleton_self _)
    exact absurd (by simp) (hname.not_mem (c := ' ') rfl)

/-- An item whose effects are those listed is written so. -/
theorem written_of_groupEffects (h : groupItem l = some (g, users))
    (heq : groupEffects l = .addgroup g :: users.map (.record · g)) : Written l := by
  obtain ⟨indent, b, t, hindent, hb, rfl, ht⟩ := exists_groupText h
  simp only [isBlank, Bool.or_eq_true, decide_eq_true_eq] at hb
  rcases hb with rfl | rfl
  · cases ht with
    | plain hg =>
      have hmark : ∀ t, afterMark (indent ++ '-' :: ' ' :: t) = some t := fun t => by
        rw [afterMark_append hindent]
        rfl
      rw [groupEffects_plain (hmark _) (hg.not_mem rfl rfl), List.cons.injEq, GroupEffect.addgroup.injEq] at heq
      rw [heq.1]
      have hwritten := Written.plain hindent hg.name
      rwa [List.append_assoc] at hwritten
    | users hg hblank hlist => exact written_of_users hindent hg.name (hg.not_mem rfl rfl) hblank hlist heq
  · exact absurd heq (groupEffects_tab hindent ht)

/-! ### What written items list -/

theorem Quoted.named {e : Text} (h : Quoted (e.dropWhile isBlank)) : Named e := by
  obtain ⟨q, hq, u, hu, he⟩ := h
  have hname := nameOf_quoted hq hu fun c => List.mem_takeWhile_imp (p := isBlank) (l := e)
  rw [← he, List.takeWhile_append_dropWhile] at hname
  rw [Named, nameIn, hname, Option.getD_some]

theorem groupItem_dash (hindent : ∀ c ∈ indent, isBlank c = true) (t : Text) :
    groupItem (indent ++ "- ".toList ++ t) =
      if ':' ∈ t then
        let rest := (t.dropWhile (· ≠ ':')).tail
        if rest.head?.any isBlank then
          (nameOf (t.takeWhile (· ≠ ':'))).bind fun group => (usersOf rest).map (group, ·)
        else none
      else (nameOf t).map (·, []) := by
  have hdrop : (indent ++ "- ".toList ++ t).dropWhile isBlank = '-' :: ' ' :: t := by
    rw [List.append_assoc, List.dropWhile_append_of_pos hindent]
    rfl
  rw [groupItem, hdrop]
  rfl

theorem groupItem_users (hindent : ∀ c ∈ indent, isBlank c = true) (hg : Name g) (t : Text) :
    groupItem (indent ++ "- ".toList ++ (g ++ ": ".toList ++ t)) =
      (usersOf (' ' :: t)).map (g, ·) := by
  have htext : g ++ ": ".toList ++ t = g ++ ':' :: ' ' :: t := by simp
  have hcolon : ∀ c ∈ g, decide (c ≠ ':') = true := by
    intro c hc
    refine decide_eq_true ?_
    rintro rfl
    exact hg.not_mem rfl hc
  have htake : (g ++ ':' :: ' ' :: t).takeWhile (· ≠ ':') = g := by
    rw [List.takeWhile_append_of_pos hcolon, List.takeWhile_cons_of_neg (by simp), List.append_nil]
  have hdrop : (g ++ ':' :: ' ' :: t).dropWhile (· ≠ ':') = ':' :: ' ' :: t := by
    rw [List.dropWhile_append_of_pos hcolon, List.dropWhile_cons_of_neg (by simp)]
  rw [htext, groupItem_dash hindent, if_pos (by simp), htake, hdrop]
  dsimp only
  rw [List.tail_cons, if_pos (by rfl), nameOf_plain hg]
  rfl

theorem groupItem_plain (hindent : ∀ c ∈ indent, isBlank c = true) (hg : Name g) :
    groupItem (indent ++ "- ".toList ++ g) = some (g, []) := by
  rw [groupItem_dash hindent, if_neg (hg.not_mem rfl), nameOf_plain hg]
  rfl

theorem usersOf_single (hu : Name u) : usersOf (' ' :: u) = some [u] := by
  have hquoted : Quoted u := ⟨[], .head _, u, hu, by simp⟩
  have htrim : trimBlanks (' ' :: u) = u := by
    have htrim := @trimBlanks_quoted [' '] [] u hquoted (List.forall_mem_singleton.mpr rfl) (List.forall_mem_nil _)
    rwa [List.append_nil, List.singleton_append] at htrim
  rw [usersOf, htrim, if_neg fun h => hu.head_ne rfl h.1, nameOf_plain hu]
  rfl

theorem usersOf_list {first : Text} {others : List Text} (h : ∀ e ∈ first :: others, Named e) :
    usersOf (' ' :: '[' :: ([','].intercalate (first :: others) ++ "]".toList)) =
      some ((first :: others).map nameIn) := by
  have htrim : trimBlanks (' ' :: '[' :: ([','].intercalate (first :: others) ++ "]".toList)) =
      '[' :: ([','].intercalate (first :: others) ++ "]".toList) := by
    rw [trimBlanks, List.dropWhile_cons_of_pos (by decide), List.dropWhile_cons_of_neg (by decide),
      List.rdropWhile_eq_self_iff]
    intro hne
    rw [List.getLast_cons (by simp), List.getLast_append_of_ne_nil _ (by simp)]
    decide
  have hcomma : ∀ e ∈ first :: others, ',' ∉ e := fun e he => (h e he).not_mem rfl rfl
  rw [usersOf, htrim, if_pos ⟨rfl, by rw [← List.cons_append]; exact List.getLast?_concat⟩, List.tail_cons]
  rw [show "]".toList = [']'] from rfl, List.dropLast_concat, List.splitOn_intercalate _ hcomma (by simp)]
  exact mapM_nameOf_eq_some.mpr ⟨h, rfl⟩

/-- A written item does what it lists. -/
theorem groupEffects_written (h : Written l) : listedEffects l ≠ [] ∧ groupEffects l = listedEffects l := by
  have hmark : ∀ {indent t : Text}, (∀ c ∈ indent, isBlank c = true) →
      afterMark (indent ++ "- ".toList ++ t) = some t := by
    intro indent t hindent
    rw [List.append_assoc, afterMark_append hindent]
    rfl
  have hvalue : ∀ {indent g t : Text}, (∀ c ∈ indent, isBlank c = true) → Name g →
      value (indent ++ "- ".toList ++ (g ++ ": ".toList ++ t)) = t := by
    intro indent g t hindent hg
    rw [List.append_assoc, List.append_assoc g]
    exact value_append hindent (hg.not_mem rfl) t
  have hlast : ∀ {g t : Text}, ':' ∉ t → beforeLastColon (g ++ ": ".toList ++ t) = g := by
    intro g t ht
    have hcolon : ':' ∉ ' ' :: t := by
      rw [List.mem_cons, not_or]
      exact ⟨by decide, ht⟩
    rw [List.append_assoc]
    exact beforeLastColon_append g hcolon
  cases h with
  | plain hindent hg =>
    rw [groupEffects_plain (hmark hindent) (hg.not_mem rfl), listedEffects, groupItem_plain hindent hg]
    exact ⟨by simp, rfl⟩
  | @single indent g u hindent hg hu =>
    have hbracket : ¬ "[".toList <+: u := by
      rintro ⟨rest, rfl⟩
      exact hu.not_mem (c := '[') rfl (.head _)
    rw [groupEffects_single (hmark hindent) (by simp) ((hvalue hindent hg).symm ▸ hbracket), hvalue hindent hg,
      hlast (hu.not_mem rfl), listedEffects, groupItem_users hindent hg, usersOf_single hu]
    exact ⟨by simp, rfl⟩
  | @list indent g first others hindent hg hfirst hothers hoption =>
    have hnamed : ∀ e ∈ first :: others, Named e := by
      refine List.forall_mem_cons.mpr ⟨?_, fun e he => (hothers e he).named⟩
      have hdrop := hfirst.dropWhile []
      rw [List.append_nil] at hdrop
      exact (hdrop.symm ▸ hfirst).named
    have htext : indent ++ "- ".toList ++
        (g ++ ": [".toList ++ [','].intercalate (first :: others) ++ "]".toList) = indent ++ "- ".toList ++
          (g ++ ": ".toList ++ ('[' :: ([','].intercalate (first :: others) ++ "]".toList))) := by simp
    have husers := usersOf_list hnamed
    obtain ⟨-, -, -, -, -, -, -, harray⟩ := exists_list husers
    have hentries := (@map_groupEntry_iff [] _ _ hnamed (List.forall_mem_nil _)).mpr
      ⟨⟨hfirst, hothers, hoption⟩, rfl⟩
    rw [htext, groupEffects_list (hmark hindent) (by simp) (hvalue hindent hg), 
      hlast fun hmem => (usersText husers).colon (.tail _ hmem),
      listedEffects, groupItem_users hindent hg, husers, harray]
    refine ⟨by simp, congrArg _ ?_⟩
    exact (map_record _).trans (congrArg _ hentries)

/-- An item does what it lists exactly if it is written so. -/
theorem groupEffects_eq_listed_iff (h : listedEffects l ≠ []) :
    groupEffects l = listedEffects l ↔ Written l := by
  refine ⟨fun heq => ?_, fun hw => (groupEffects_written hw).2⟩
  rw [listedEffects] at h heq
  cases hitem : groupItem l with
  | none =>
    rw [hitem] at h
    exact absurd rfl h
  | some item =>
    rw [hitem] at heq
    exact written_of_groupEffects hitem heq

end

end

theorem groupSwitch_clears {l : Text} (h : Indented l) : groupSwitch.clears l = false := by
  cases l with
  | nil => rfl
  | cons c l => exact not_wordChar_of_space (h c rfl)

/-- A line is right if an item of the section does not open it again and is written as the cuts need it,
and any other line is not looked at or has no mark in it. -/
structure GroupsRight (before : List Text) (l : Text) (e : List GroupEffect) : Prop where
  item : e ≠ [] → groupSwitch.plain l = true ∧ Written l
  other : e = [] → groupSwitch.plain l = false ∨ ¬ groupSwitch.Opened before ∨ ¬ "- ".toList <:+: l

theorem groupsRight_iff {before : List Text} {l : Text} {e : List GroupEffect} (he : e ≠ [] → e = listedEffects l) :
    groupSwitch.Clean [] (fun l => if l = [] then [] else groupEffects l) before l e ↔
      GroupsRight before l e := by
  have hempty : (if l = [] then [] else groupEffects l) = groupEffects l := by
    split
    next h =>
      rw [h]
      rfl
    next => rfl
  have hitem : e ≠ [] → (groupEffects l = e ↔ Written l) := by
    intro hne
    have hlisted := he hne
    rw [hlisted] at hne ⊢
    exact groupEffects_eq_listed_iff hne
  constructor
  · rintro ⟨h1, h2⟩
    rw [hempty] at h1 h2
    exact ⟨fun hne => ⟨(h1 hne).1, (hitem hne).mp (h1 hne).2⟩,
      fun hnil => (h2 hnil).imp_right fun h => h.imp_right groupEffects_eq_nil_iff.mp⟩
  · rintro ⟨h1, h2⟩
    refine ⟨fun hne => ?_, fun hnil => ?_⟩
    · rw [hempty]
      exact ⟨(h1 hne).1, (hitem hne).mpr (h1 hne).2⟩
    · rw [hempty]
      exact (h2 hnil).imp_right fun h => h.imp_right groupEffects_eq_nil_iff.mpr

/-- The groups and memberships are those listed exactly when every line is right. -/
theorem ciGroups_iff (doc : List Section) :
    ciGroups (documentLines doc) = listedGroups doc ↔
      ∀ before row rest, documentRows "groups".toList listedEffects [] doc = before ++ row :: rest →
        GroupsRight (before.map Prod.fst) row.1 row.2 := by
  refine (outputs_document_iff _ _ _ (fun _ => rfl) () rfl (by decide) (by decide)
    (fun _ => groupSwitch_clears) doc).trans ?_
  refine forall_congr' fun before => forall_congr' fun row => forall_congr' fun rest =>
    forall_congr' fun hrows => groupsRight_iff fun hne => ?_
  exact eq_parse_of_mem _ _ _ (by rw [hrows]; simp) hne

def groupsSection : Section where
  key := "groups".toList
  value := []
  body := ["  - staff: [joe, \"ann\"]".toList]
  key_ne_nil := by decide
  key_chars := List.all_eq_true.mp rfl
  value_space := value_space_nil
  value_list _ := rfl
  indented := by decide

def usersSection : Section where
  key := "users".toList
  value := []
  body := ["  - name: joe".toList, "    groups: wheel".toList, "    sudo:".toList,
    "      - ALL=(ALL) ALL".toList]
  key_ne_nil := by decide
  key_chars := List.all_eq_true.mp rfl
  value_space := value_space_nil
  value_list _ := rfl
  indented := by decide

/-- The key of a user opens the section again. -/
theorem ciGroups_users :
    (ciGroups (documentLines [groupsSection, usersSection])).flatten =
      [.addgroup "staff".toList, .record "joe".toList "staff".toList,
        .record "ann".toList "staff".toList, .addgroup "ALL=(ALL) ALL".toList] ∧
    (listedGroups [groupsSection, usersSection]).flatten =
      [.addgroup "staff".toList, .record "joe".toList "staff".toList,
        .record "ann".toList "staff".toList] := by
  decide

end CargosBuildroot.Bootstrap
