import CargosBuildroot.Shell.Getopt
import CargosBuildroot.Shell.Printed
import CargosBuildroot.Sed.Replace

/-! The `date` command of `package/fakedate`, which runs the true one with the time of
`SOURCE_DATE_EPOCH` unless the command line has a time of its own. It looks for the options by
a regular expression on every word. -/

namespace CargosBuildroot.Host

open Shell

/-! ### The script -/

/-- `[uR]*` and the letter at the beginning. -/
def seesShort (letter : Char) (t : Text) : Bool :=
  (t.dropWhile (· ∈ ['u', 'R'])).head? = some letter

/-- `^-([uR]*d|-date|[uR]*f|-file|[uR]*r|--reference)` -/
def looks : Text → Bool
  | '-' :: t => seesShort 'd' t || "-date".toList <+: t || seesShort 'f' t ||
      "-file".toList <+: t || seesShort 'r' t || "--reference".toList <+: t
  | _ => false

/-- The command that replaces the script, and what it prints to the standard error before. -/
structure Call where
  warning : Option Text
  args : List Text

def fakedate (sh : Sh) (epoch : Text) (args : List Text) : Call :=
  if epoch ≠ [] ∧ ¬ (args.any fun i => grep looks (sh.echo i)) = true then
    ⟨some "date: Warning: using $SOURCE_DATE_EPOCH instead of true time".toList,
      "-d".toList :: ('@' :: epoch) :: args⟩
  else ⟨none, args⟩

/-! ### The options of `date` -/

/-- The options of the true `date`, as far as the script relies on them. -/
structure DateOptions (κ : Type*) where
  options : Options κ
  isSource : κ → Bool
  short_flag : ∀ c a k, options.short c = some (a, k) → (a = .flag ↔ c ∈ ['u', 'R'])
  short_source : ∀ c a k, options.short c = some (a, k) →
    (isSource k = true ↔ c ∈ ['d', 'f', 'r'])
  short_hyphen : options.short '-' = none
  short_newline : options.short '\n' = none
  long_source : ∀ e ∈ options.long,
    (isSource e.code = true ↔ e.name ∈ ["date", "file", "reference"].map String.toList)
  long_alone : ∀ e ∈ options.long, ∀ name ∈ ["date", "file"].map String.toList,
    name <+: e.name → e.name = name
  long_plain : ∀ e ∈ options.long, '\n' ∉ e.name ∧ '-' ∉ e.name.head?

variable {κ : Type*}

/-- The command line names a source of the time. -/
def selects (d : DateOptions κ) (parts : List (ArgPart κ)) : Bool :=
  parts.any fun p => (d.options.codes p).any d.isSource

/-- The true `date` gets the arguments as they are, or after `-d @SOURCE_DATE_EPOCH` if they
name no source of the time. -/
def Right (d : DateOptions κ) (sh : Sh) (epoch : Text) (args : List Text)
    (parts : List (ArgPart κ)) : Prop :=
  (fakedate sh epoch args).args =
    if selects d parts then args else "-d".toList :: ('@' :: epoch) :: args

/-- A source of the time that is spelled for the expression: in a short form, or `--date` or
`--file` written out. -/
def Spelled : ArgPart κ → Prop
  | .cluster _ (some (c, _)) => c ∈ ['d', 'f', 'r']
  | .long spelled _ _ => spelled ∈ ["date", "file"].map String.toList
  | _ => False

/-- A source of the time that is spelled in another way: `--reference`, or an abbreviation. -/
def Hidden (d : DateOptions κ) : ArgPart κ → Prop
  | .long spelled e _ =>
    d.isSource e.code = true ∧ spelled ∉ ["date", "file"].map String.toList
  | _ => False

/-- A line that looks like an option for the expression and is not the beginning of one. -/
def Decoy (p : ArgPart κ) : Prop :=
  match p with
  | .argument w => grep looks w = true
  | .operand w => grep looks w = true
  | .stop => False
  | .cluster _ _ => (p.word.splitOn '\n').tail.any looks = true
  | .long _ _ _ => (p.word.splitOn '\n').tail.any looks = true

/-! ### What the regular expression sees -/

/-- The first line of a text begins with a part that has no newline. -/
theorem exists_first_line {a : Text} (ha : '\n' ∉ a) (b : Text) :
    ∃ v, v = (b.splitOn '\n').head (List.splitOn_ne_nil _ _) ∧
      (a ++ b).splitOn '\n' = (a ++ v) :: ((a ++ b).splitOn '\n').tail := by
  induction a with
  | nil => exact ⟨_, rfl, (List.cons_head_tail (List.splitOn_ne_nil _ _)).symm⟩
  | cons c a ih =>
    rw [List.mem_cons, not_or] at ha
    obtain ⟨v, hv, h⟩ := ih ha.2
    refine ⟨v, hv, ?_⟩
    rw [List.cons_append, List.splitOn_cons_eq_if_modifyHead, if_neg fun hc => ha.1 (beq_iff_eq.mp hc).symm, h]
    rfl

theorem looks_cons {t : Text} : looks ('-' :: t) = true ↔
    (∃ c ∈ ['d', 'f', 'r'], seesShort c t = true) ∨
      ∃ name ∈ ["-date", "-file", "--reference"].map String.toList, name <+: t := by
  simp only [looks, Bool.or_eq_true, decide_eq_true_iff, List.map_cons, List.map_nil,
    List.exists_mem_cons_iff, List.not_mem_nil, false_and, exists_false, or_false]
  constructor
  · rintro (((((h | h) | h) | h) | h) | h)
    exacts [.inl (.inl h), .inr (.inl h), .inl (.inr (.inl h)), .inr (.inr (.inl h)),
      .inl (.inr (.inr h)), .inr (.inr (.inr h))]
  · rintro ((h | h | h) | h | h | h) <;> simp only [h, true_or, or_true]

theorem seesShort_append {flags t : Text} (h : ∀ c ∈ flags, c ∈ ['u', 'R']) (letter : Char) :
    seesShort letter (flags ++ t) = seesShort letter t := by
  rw [seesShort, List.dropWhile_append_of_pos fun c hc => decide_eq_true (h c hc), seesShort]

theorem seesShort_cons {letter c : Char} {t : Text} (hc : c ∉ ['u', 'R']) :
    seesShort letter (c :: t) = true ↔ c = letter := by
  rw [seesShort, List.dropWhile_cons_of_neg (by simpa using hc), List.head?_cons,
    decide_eq_true_iff, Option.some_inj]

/-- A text without a hyphen in front begins with none of the long options. -/
theorem looks_short {t : Text} (h : t.head? ≠ some '-') :
    looks ('-' :: t) = true ↔ ∃ c ∈ ['d', 'f', 'r'], seesShort c t = true := by
  rw [looks_cons, or_iff_left]
  rintro ⟨name, hname, v, rfl⟩
  simp only [List.map_cons, List.map_nil, List.mem_cons, List.not_mem_nil, or_false] at hname
  rcases hname with rfl | rfl | rfl <;> exact h rfl

theorem looks_long {t : Text} : looks ('-' :: '-' :: t) = true ↔
    ∃ name ∈ ["date", "file", "-reference"].map String.toList, name <+: t := by
  have hshort : ¬ ∃ c ∈ ['d', 'f', 'r'], seesShort c ('-' :: t) = true := by
    rintro ⟨c, hc, hsees⟩
    rw [seesShort_cons (by decide)] at hsees
    rw [← hsees] at hc
    exact absurd hc (by decide)
  rw [looks_cons, or_iff_right hshort]
  have hname : ∀ name : Text, '-' :: name <+: '-' :: t ↔ name <+: t := fun name =>
    List.prefix_cons_inj _
  simp only [List.map_cons, List.map_nil, List.exists_mem_cons_iff, List.not_mem_nil, false_and,
    exists_false, or_false]
  exact or_congr (hname _) (or_congr (hname _) (hname _))

section Parts

variable (d : DateOptions κ)

theorem DateOptions.flags_of_short {flags : Text}
    (h : ∀ c ∈ flags, ∃ k, d.options.short c = some (.flag, k)) : ∀ c ∈ flags, c ∈ ['u', 'R'] := by
  intro c hc
  obtain ⟨k, hk⟩ := h c hc
  exact (d.short_flag c _ k hk).mp rfl

theorem head_flags_append {flags t : Text} (h : ∀ c ∈ flags, c ∈ ['u', 'R'])
    (ht : t.head? ≠ some '-') : (flags ++ t).head? ≠ some '-' := by
  cases flags with
  | nil => exact ht
  | cons c flags =>
    intro heq
    have hc := h c (.head _)
    rw [Option.some_inj.mp heq] at hc
    exact absurd hc (by decide)

theorem newline_not_mem_flags {flags : Text} (h : ∀ c ∈ flags, c ∈ ['u', 'R']) :
    '\n' ∉ flags := fun hmem => absurd (h _ hmem) (by decide)

theorem grep_append {a b : Text} (ha : '\n' ∉ a) :
    grep looks (a ++ b) = true ↔
      looks (a ++ (b.splitOn '\n').head (List.splitOn_ne_nil _ _)) = true ∨
        ((a ++ b).splitOn '\n').tail.any looks = true := by
  obtain ⟨v, rfl, h⟩ := exists_first_line ha b
  rw [grep]
  conv_lhs => rw [h]
  rw [List.any_cons, Bool.or_eq_true]

theorem looks_flags {flags : Text} (h : ∀ c ∈ flags, c ∈ ['u', 'R']) :
    looks ('-' :: flags) = false := by
  have hhead : (flags ++ []).head? ≠ some '-' := head_flags_append h (by simp)
  rw [List.append_nil] at hhead
  rw [Bool.eq_false_iff, ne_eq, looks_short hhead]
  rintro ⟨c, -, hsees⟩
  rw [← List.append_nil flags, seesShort_append h] at hsees
  cases hsees

/-- In a cluster the expression sees the letter that ends the flags. -/
theorem looks_cluster {flags v : Text} {c : Char} (h : ∀ c ∈ flags, c ∈ ['u', 'R'])
    (hc : c ∉ ['u', 'R']) (hhyphen : c ≠ '-') :
    looks ('-' :: (flags ++ c :: v)) = true ↔ c ∈ ['d', 'f', 'r'] := by
  have hhead : (flags ++ c :: v).head? ≠ some '-' :=
    head_flags_append h fun heq => hhyphen (Option.some_inj.mp heq)
  rw [looks_short hhead]
  constructor
  · rintro ⟨letter, hletter, hsees⟩
    rw [seesShort_append h, seesShort_cons hc] at hsees
    exact hsees ▸ hletter
  · intro hmem
    refine ⟨c, hmem, ?_⟩
    rw [seesShort_append h, seesShort_cons hc]

/-- Of the long options it sees `--date` and `--file`, written out. -/
theorem DateOptions.looks_long {spelled t : Text} {e : LongOption κ} (he : e ∈ d.options.long)
    (habbreviated : spelled <+: e.name) (ht : t = [] ∨ ∃ v, t = '=' :: v) :
    looks ('-' :: '-' :: (spelled ++ t)) = true ↔
      spelled ∈ ["date", "file"].map String.toList := by
  have hequals : ∀ name ∈ ["date", "file", "-reference"].map String.toList, '=' ∉ name := by
    decide
  have hname : ∀ name ∈ ["date", "file", "-reference"].map String.toList,
      name <+: spelled ++ t → name <+: spelled := by
    intro name hmem h
    rcases ht with rfl | ⟨v, rfl⟩
    · rwa [List.append_nil] at h
    · exact Sed.prefix_append_cons (hequals name hmem) h
  rw [Host.looks_long]
  constructor
  · rintro ⟨name, hmem, h⟩
    have hspelled := hname name hmem h
    have hlong := hspelled.trans habbreviated
    by_cases hdate : name ∈ ["date", "file"].map String.toList
    · have heq := d.long_alone e he name hdate hlong
      rw [heq] at habbreviated
      rwa [← hspelled.eq_of_length_le habbreviated.length_le]
    · have hreference : name = "-reference".toList := by
        simp only [List.map_cons, List.map_nil, List.mem_cons, List.not_mem_nil, or_false]
          at hmem hdate
        rcases hmem with h | h | h
        · exact absurd (.inl h) hdate
        · exact absurd (.inr h) hdate
        · exact h
      obtain ⟨v, hv⟩ := hlong
      refine absurd ?_ (d.long_plain e he).2
      rw [← hv, hreference]
      rfl
  · intro h
    exact ⟨spelled, List.mem_of_mem_dropLast h, List.prefix_append _ _⟩

theorem newline_not_mem_word {a : Text} (ha : '\n' ∉ a) : '\n' ∉ '-' :: a := fun hmem =>
  ha ((List.mem_cons.mp hmem).resolve_left (by decide))

variable {d} in
theorem ne_hyphen_of_short {c : Char} {a : Arity} {k : κ} (h : d.options.short c = some (a, k)) : c ≠ '-' := by
  rintro rfl
  rw [d.short_hyphen] at h
  cases h

variable {d} in
theorem newline_not_mem_cluster {flags : Text} {c : Char} {a : Arity} {k : κ}
    (hflags : ∀ c ∈ flags, c ∈ ['u', 'R']) (h : d.options.short c = some (a, k)) : '\n' ∉ flags ++ [c] := by
  rw [List.mem_append, List.mem_singleton]
  rintro (hmem | rfl)
  · exact newline_not_mem_flags hflags hmem
  · rw [d.short_newline] at h
    cases h

theorem newline_not_mem_equals {t : Text} (h : '\n' ∉ t) : '\n' ∉ t ++ ['='] := fun hmem =>
  (List.mem_append.mp hmem).elim h (by decide)

/-- The expression finds the options that are spelled for it and the decoys. -/
theorem grep_word_iff {p : ArgPart κ} (h : p.Read d.options) :
    grep looks p.word = true ↔ Spelled p ∨ Decoy p := by
  cases h with
  | @flags flags all =>
    have hflags := d.flags_of_short all
    have hword : ((ArgPart.cluster flags none : ArgPart κ).word) = ('-' :: flags) ++ [] :=
      (List.append_nil _).symm
    rw [Decoy, hword, grep_append (newline_not_mem_word (newline_not_mem_flags hflags))]
    exact or_congr_left (iff_of_false (by simp [looks_flags hflags]) id)
  | @cluster flags value c a k all last arity =>
    have hflags := d.flags_of_short all
    have hc : c ∉ ['u', 'R'] := mt (d.short_flag c a k last).mpr arity
    have hnewline := newline_not_mem_cluster hflags last
    have hword : ((ArgPart.cluster flags (some (c, value)) : ArgPart κ).word) =
        ('-' :: (flags ++ [c])) ++ value := by
      simp [ArgPart.word]
    rw [Decoy, hword, grep_append (newline_not_mem_word hnewline), List.cons_append,
      List.append_assoc, List.singleton_append, looks_cluster hflags hc (ne_hyphen_of_short last)]
    rfl
  | @long spelled e value entry abbreviated plain =>
    have hnewline : '\n' ∉ spelled := fun hmem =>
      (d.long_plain e entry).1 (abbreviated.subset hmem)
    have hspelled := newline_not_mem_word (newline_not_mem_word hnewline)
    cases value with
    | none =>
      have hword : ((ArgPart.long spelled e none : ArgPart κ).word) = ('-' :: '-' :: spelled) ++ [] :=
        (List.append_nil _).symm
      rw [Decoy, hword, grep_append hspelled]
      exact or_congr_left (d.looks_long entry abbreviated (.inl rfl))
    | some v =>
      have hequals := newline_not_mem_word (newline_not_mem_word (newline_not_mem_equals hnewline))
      have hword : ((ArgPart.long spelled e (some v) : ArgPart κ).word) =
          ('-' :: '-' :: (spelled ++ ['='])) ++ v := by
        simp [ArgPart.word]
      rw [Decoy, hword, grep_append hequals, List.cons_append, List.cons_append,
        List.append_assoc, List.singleton_append]
      exact or_congr_left (d.looks_long entry abbreviated (.inr ⟨_, rfl⟩))
  | argument w => exact (iff_of_eq (false_or _)).symm
  | operand w => exact (iff_of_eq (false_or _)).symm
  | stop =>
    have hstop : ¬ grep looks ['-', '-'] = true := by decide
    exact iff_of_false hstop (by simp [Spelled, Decoy])

theorem flag_not_source {c : Char} {k : κ} (hc : d.options.short c = some (.flag, k)) :
    ¬ d.isSource k = true := by
  intro hk
  have hmem := (d.short_flag c _ k hc).mp rfl
  exact absurd ((d.short_source c _ k hc).mp hk)
    ((by simp : ∀ c ∈ ['u', 'R'], c ∉ ['d', 'f', 'r']) c hmem)

theorem flags_not_source {flags : Text}
    (all : ∀ c ∈ flags, ∃ k, d.options.short c = some (.flag, k)) :
    (flags.filterMap fun c => (d.options.short c).map Prod.snd).any d.isSource = false := by
  rw [List.any_eq_false]
  intro k hk
  obtain ⟨c, hc, heq⟩ := List.mem_filterMap.mp hk
  obtain ⟨k', hk'⟩ := all c hc
  rw [hk'] at heq
  cases heq
  exact flag_not_source d hk'

/-- A source of the time is spelled for the expression or in another way. -/
theorem codes_iff {p : ArgPart κ} (h : p.Read d.options) :
    (d.options.codes p).any d.isSource = true ↔ Spelled p ∨ Hidden d p := by
  cases h with
  | @flags flags all =>
    have hcodes : d.options.codes (.cluster flags none) =
        flags.filterMap fun c => (d.options.short c).map Prod.snd := by
      simp [Options.codes]
    rw [hcodes, flags_not_source d all]
    exact iff_of_false (by simp) (by simp [Spelled, Hidden])
  | @cluster flags value c a k all last arity =>
    have hcodes : d.options.codes (.cluster flags (some (c, value))) =
        (flags.filterMap fun c => (d.options.short c).map Prod.snd) ++ [k] := by
      simp [Options.codes, last]
    rw [hcodes, List.any_append, flags_not_source d all, Bool.false_or, List.any_cons, List.any_nil,
      Bool.or_false, d.short_source c a k last]
    exact (or_iff_left id).symm
  | @long spelled e value entry abbreviated plain =>
    rw [Options.codes, List.any_cons, List.any_nil, Bool.or_false]
    by_cases hspelled : spelled ∈ ["date", "file"].map String.toList
    · have hname := d.long_alone e entry spelled hspelled abbreviated
      have hmem : e.name ∈ ["date", "file", "reference"].map String.toList := by
        rw [hname]
        exact List.mem_of_mem_dropLast hspelled
      exact iff_of_true ((d.long_source e entry).mpr hmem) (.inl hspelled)
    · exact ⟨fun h => .inr ⟨h, hspelled⟩, fun h => (h.resolve_left hspelled).1⟩
  | argument w => exact iff_of_false (by simp [Options.codes]) (by simp [Spelled, Hidden])
  | operand w => exact iff_of_false (by simp [Options.codes]) (by simp [Spelled, Hidden])
  | stop => exact iff_of_false (by simp [Options.codes]) (by simp [Spelled, Hidden])

end Parts

/-! ### The decision -/

theorem grep_option {t : Text} (h : IsEchoOption t) : grep looks t = false := by
  obtain ⟨letters, hne, rfl, hall⟩ := h
  obtain ⟨c, rest, rfl⟩ := List.exists_cons_of_ne_nil hne
  have hnewline : '\n' ∉ '-' :: c :: rest :=
    newline_not_mem_word fun hmem => absurd (hall _ hmem) (by decide)
  have hc := hall c (.head _)
  have hflag : c ∉ ['u', 'R'] ∧ c ∉ ['d', 'f', 'r'] ∧ c ≠ '-' :=
    (by simp : ∀ c ∈ ['n', 'e', 'E'], c ∉ ['u', 'R'] ∧ c ∉ ['d', 'f', 'r'] ∧ c ≠ '-') c hc
  have hlooks : looks ('-' :: c :: rest) = true ↔ c ∈ ['d', 'f', 'r'] :=
    looks_cluster (List.forall_mem_nil _) hflag.1 hflag.2.2
  rw [grep_line hnewline]
  exact Bool.eq_false_iff.mpr (mt hlooks.mp hflag.2.1)

theorem grep_echo {sh : Sh} {t : Text} (h : sh.Prints t) : grep looks (sh.echo t) = grep looks t := by
  rcases h with h | h
  · rw [h]
  · rcases sh.echo_option t h with heq | heq
    · rw [heq]
    · rw [heq, grep_option h]
      rfl

theorem fakedate_args (sh : Sh) {epoch : Text} (hepoch : epoch ≠ []) (args : List Text) :
    (fakedate sh epoch args).args =
      if (args.any fun i => grep looks (sh.echo i)) = true then args
      else "-d".toList :: ('@' :: epoch) :: args := by
  rw [fakedate]
  by_cases h : (args.any fun i => grep looks (sh.echo i)) = true
  · rw [if_neg fun h' => h'.2 h, if_pos h]
  · rw [if_pos ⟨hepoch, h⟩, if_neg h]

/-- Whether the arguments are kept or get a date in front tells the two calls apart. -/
theorem ite_args_iff {args extra : List Text} (hextra : extra ≠ []) {p q : Prop} [Decidable p]
    [Decidable q] :
    (if p then args else extra ++ args) = (if q then args else extra ++ args) ↔ (p ↔ q) := by
  have hne : args ≠ extra ++ args := fun h => hextra (List.self_eq_append_left.mp h)
  by_cases hp : p
  · by_cases hq : q
    · simp [hp, hq]
    · simp [hp, hq, hextra]
  · by_cases hq : q
    · simp [hp, hq, hextra]
    · simp [hp, hq]

theorem exists_mem_or {l : List (ArgPart κ)} {P Q : ArgPart κ → Prop} :
    (∃ p ∈ l, P p ∨ Q p) ↔ (∃ p ∈ l, P p) ∨ ∃ p ∈ l, Q p := by
  simp only [and_or_left, exists_or]

variable [DecidableEq κ]

/-- The script decides right if a source of the time is spelled for its expression, or if
there are decoys exactly where a source is spelled in another way. -/
theorem right_iff (d : DateOptions κ) (sh : Sh) (epoch : Text) (args : List Text)
    (parts : List (ArgPart κ)) (hepoch : epoch ≠ [])
    (hvalid : d.options.parse false args = some parts) (hecho : ∀ i ∈ args, sh.Prints i) :
    Right d sh epoch args parts ↔
      (∃ p ∈ parts, Spelled p) ∨ ((∃ p ∈ parts, Decoy p) ↔ ∃ p ∈ parts, Hidden d p) := by
  obtain ⟨hwords, hread⟩ := Options.parse_sound hvalid
  have hfound : (args.any fun i => grep looks (sh.echo i)) = true ↔
      (∃ p ∈ parts, Spelled p) ∨ ∃ p ∈ parts, Decoy p := by
    rw [List.any_eq_true, ← exists_mem_or]
    conv_lhs => rw [← hwords]
    simp only [List.mem_map, exists_exists_and_eq_and]
    refine exists_congr fun p => and_congr_right fun hp => ?_
    have hi : p.word ∈ args := hwords ▸ List.mem_map_of_mem hp
    rw [grep_echo (hecho _ hi), grep_word_iff d (hread p hp)]
  have hselects : selects d parts = true ↔
      (∃ p ∈ parts, Spelled p) ∨ ∃ p ∈ parts, Hidden d p := by
    rw [selects, List.any_eq_true, ← exists_mem_or]
    exact exists_congr fun p => and_congr_right fun hp => codes_iff d (hread p hp)
  rw [Right, fakedate_args sh hepoch]
  have hextra : ["-d".toList, '@' :: epoch] ≠ [] := List.cons_ne_nil _ _
  refine (ite_args_iff hextra).trans ?_
  rw [hfound, hselects]
  by_cases h : ∃ p ∈ parts, Spelled p
  · simp only [h, true_or]
  · simp only [h, false_or]

/-! ### GNU date -/

inductive DateOption
  | date
  | debug
  | file
  | iso8601
  | reference
  | rfcEmail
  | rfc3339
  | set
  | utc
  | help
  | version
  deriving DecidableEq

def gnuShort : List (Char × Arity × DateOption) :=
  [('d', .required, .date), ('f', .required, .file), ('I', .optional, .iso8601),
    ('r', .required, .reference), ('R', .flag, .rfcEmail), ('s', .required, .set),
    ('u', .flag, .utc)]

def gnuLong : List (LongOption DateOption) :=
  [⟨"date".toList, .required, .date⟩, ⟨"debug".toList, .flag, .debug⟩,
    ⟨"file".toList, .required, .file⟩, ⟨"iso-8601".toList, .optional, .iso8601⟩,
    ⟨"reference".toList, .required, .reference⟩, ⟨"rfc-822".toList, .flag, .rfcEmail⟩,
    ⟨"rfc-2822".toList, .flag, .rfcEmail⟩, ⟨"rfc-email".toList, .flag, .rfcEmail⟩,
    ⟨"rfc-3339".toList, .required, .rfc3339⟩, ⟨"set".toList, .required, .set⟩,
    ⟨"uct".toList, .flag, .utc⟩, ⟨"utc".toList, .flag, .utc⟩, ⟨"universal".toList, .flag, .utc⟩,
    ⟨"help".toList, .flag, .help⟩, ⟨"version".toList, .flag, .version⟩]

def gnuOptions : Options DateOption where
  short c := (gnuShort.find? (·.1 = c)).map Prod.snd
  long := gnuLong

theorem gnuOptions_short {c : Char} {a : Arity} {k : DateOption}
    (h : gnuOptions.short c = some (a, k)) : (c, a, k) ∈ gnuShort := by
  obtain ⟨e, he, heq⟩ := Option.map_eq_some_iff.mp h
  have hc : e.1 = c := of_decide_eq_true (List.find?_some he :)
  have hmem := List.mem_of_find?_eq_some he
  rwa [← hc, ← heq]

def gnuDate : DateOptions DateOption where
  options := gnuOptions
  isSource k := k = .date ∨ k = .file ∨ k = .reference
  short_flag c a k h :=
    (by decide : ∀ e ∈ gnuShort, e.2.1 = .flag ↔ e.1 ∈ ['u', 'R']) _ (gnuOptions_short h)
  short_source c a k h :=
    (by decide : ∀ e ∈ gnuShort, decide (e.2.2 = .date ∨ e.2.2 = .file ∨ e.2.2 = .reference) = true ↔
      e.1 ∈ ['d', 'f', 'r']) _ (gnuOptions_short h)
  short_hyphen := rfl
  short_newline := rfl
  long_source := by decide
  long_alone := by decide
  long_plain := by decide

theorem right_iff_clustered :
    ∃ parts, gnuDate.options.parse false ["-ud".toList, "now".toList, "+%s".toList] = some parts ∧
      (Right gnuDate (shellWith id) ['1'] ["-ud".toList, "now".toList, "+%s".toList] parts ↔
        (∃ p ∈ parts, Spelled p) ∨
          ((∃ p ∈ parts, Decoy p) ↔ ∃ p ∈ parts, Hidden gnuDate p)) :=
  ⟨_, rfl, right_iff gnuDate (shellWith id) ['1'] _ _ (by decide) rfl
    fun i hi => (shellWith id).prints_plain
      ((by decide : ∀ i ∈ ["-ud".toList, "now".toList, "+%s".toList], '\\' ∉ i) i hi)⟩

/-- With `--reference`, which the expression spells with three hyphens, the time of the file
is not asked for alone. -/
theorem not_right_reference :
    ∃ parts, gnuDate.options.parse false ["--reference=/etc/passwd".toList, "+%s".toList] =
        some parts ∧
      ¬ Right gnuDate (shellWith id) ['1'] ["--reference=/etc/passwd".toList, "+%s".toList]
        parts := by
  refine ⟨_, rfl, ?_⟩
  unfold Right
  decide

end CargosBuildroot.Host
