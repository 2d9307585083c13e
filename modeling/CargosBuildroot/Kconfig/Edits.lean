import CargosBuildroot.Kconfig.Options

/-! When the calls edit only their options. A name may be a word of a value or of a comment, and a
file may end without a newline, so that a line goes behind what is there. -/

namespace CargosBuildroot.Kconfig

open Shell Store

variable {locale : Locale}

/-- No line is deleted for a name that it only mentions, and none is written behind another. -/
structure Safe (locale : Locale) (ops : List Op) (t : Text) : Prop where
  /-- The last line of an option does not mention an option of a later call. -/
  values : ∀ before op after, ops = before ++ op :: after → (∀ op' ∈ after, op'.option ≠ op.option) →
    ∀ op' ∈ after, mentions locale op'.option op.line = false
  /-- The line of another option does not mention an option of the calls. -/
  others : ∀ l ∈ lines t, setsOther ops l = true → ∀ op ∈ ops, mentions locale op.option l = false
  /-- The file ends with a newline, or the first call deletes the unfinished line; or the line that
  is written behind it is written again, and the joined line replaces none of another option and
  is none itself, or is deleted. -/
  ending : ∀ op rest last, ops = op :: rest → (lines t).getLast? = some last →
    leftOver locale op last = [] ∨
      (∃ op' ∈ rest, op'.option = op.option) ∧ setsOther ops last = false ∧
        (setsOther ops (last ++ op.line) = true →
          ∃ op' ∈ rest, mentions locale op'.option (last ++ op.line) = true)

/-! ### The lines of one option -/

theorem untouched_iff {ops : List Op} {l : Text} : untouched (mentions locale) (writes ops) l = true ↔
    ∀ op ∈ ops, mentions locale op.option l = false := by
  rw [untouched, writes, List.all_map, List.all_eq_true]
  refine forall₂_congr fun op _ => ?_
  rw [Function.comp_apply, Bool.not_eq_true']

theorem untouched_eq_false_iff {ops : List Op} {l : Text} :
    untouched (mentions locale) (writes ops) l = false ↔
      ∃ op ∈ ops, mentions locale op.option l = true := by
  rw [Bool.eq_false_iff, Ne, untouched_iff]
  push Not
  simp only [Bool.not_eq_false]

/-- A line of an option that a call uses is touched. -/
theorem untouched_eq_false {ops : List Op} {op : Op} (hop : op ∈ ops) {l : Text}
    (hl : lineOption l = some op.option.text) : untouched (mentions locale) (writes ops) l = false :=
  untouched_eq_false_iff.mpr ⟨op, hop, mentions_of_lineOption hl⟩

theorem filter_eq_singleton_iff {α : Type*} {p : α → Bool} {a b : α} :
    [a].filter p = [b] ↔ a = b ∧ p b = true := by
  rw [List.filter_singleton]
  cases hp : p a with
  | false =>
    rw [cond_false]
    constructor
    · exact fun h => absurd h (by simp)
    · rintro ⟨rfl, hb⟩
      rw [hp] at hb
      cases hb
  | true =>
    rw [cond_true, List.singleton_inj]
    exact ⟨fun h => ⟨h, h ▸ hp⟩, And.left⟩

theorem filter_eq_append_iff {α : Type*} {p : α → Bool} {l l' : List α} :
    l.filter p = l ++ l' ↔ (∀ a ∈ l, p a = true) ∧ l' = [] := by
  constructor
  · intro h
    have hlength := congrArg List.length h
    have hle := List.length_filter_le p l
    rw [List.length_append] at hlength
    obtain rfl : l' = [] := List.length_eq_zero_iff.mp (by omega)
    rw [List.append_nil] at h
    exact ⟨List.filter_eq_self.mp h, rfl⟩
  · rintro ⟨hall, rfl⟩
    rw [List.append_nil]
    exact List.filter_eq_self.mpr hall

/-- What takes the place of a deleted last entry is one that would be deleted. -/
theorem eq_false_of_filter_concat {α : Type*} {p : α → Bool} {l : List α} {a : α}
    (h : l.filter p ++ [a] = l) : p a = false := by
  by_contra hp
  rw [Bool.not_eq_false] at hp
  have htwice := congrArg (List.filter p) h
  rw [List.filter_append, List.filter_filter, List.filter_singleton, hp, cond_true] at htwice
  simp at htwice

theorem filter_puts_of_unused {ops : List Op} {name : Name} (h : ∀ op ∈ ops, op.option ≠ name) :
    (puts (mentions locale) (writes ops) []).filter (fun l => lineOption l = some name.text) = [] := by
  rw [List.filter_eq_nil_iff]
  intro l hl hoption
  obtain ⟨write, hwrite, rfl⟩ := mem_puts_nil hl
  obtain ⟨op, hop, rfl⟩ := List.mem_map.mp hwrite
  rw [decide_eq_true_iff, lineOption_line, Option.some_inj] at hoption
  exact h op hop (Name.ext hoption)

/-- Of the lines written for an option, the last one stays if no later call deletes it. -/
theorem filter_puts_of_last {before after : List Op} {op : Op}
    (h : ∀ op' ∈ after, op'.option ≠ op.option) :
    (puts (mentions locale) (writes (before ++ op :: after)) []).filter
        (fun l => lineOption l = some op.option.text) =
      [op.line].filter (untouched (mentions locale) (writes after)) := by
  have hwrites : writes (before ++ op :: after) = writes before ++ (op.option, op.line) :: writes after := by
    rw [writes, List.map_append, List.map_cons]
    rfl
  have hearlier : ((puts (mentions locale) (writes before) []).filter (!mentions locale op.option ·)).filter
      (fun l => lineOption l = some op.option.text) = [] := by
    rw [List.filter_eq_nil_iff]
    intro l hl hoption
    have hnot := (List.mem_filter.mp hl).2
    rw [mentions_of_lineOption (of_decide_eq_true hoption)] at hnot
    cases hnot
  rw [hwrites, puts_append, puts_cons, puts_eq, List.filter_append, filter_puts_of_unused h,
    List.append_nil, List.filter_comm, put, List.filter_append, hearlier, List.nil_append]
  congr 1
  rw [List.filter_singleton, lineOption_line]
  simp

theorem setsOther_of_used {ops : List Op} {op : Op} (hop : op ∈ ops) {l : Text}
    (hl : lineOption l = some op.option.text) : setsOther ops l = false := by
  rw [setsOther, hl, Option.any_some, List.all_eq_false]
  exact ⟨op, hop, by simp⟩

theorem setsOther_nil (ops : List Op) : setsOther ops [] = false := by
  rw [setsOther, lineOption_nil]
  rfl

theorem filter_setsOther_puts {ops ops' : List Op} (h : ∀ op ∈ ops', op ∈ ops) :
    (puts (mentions locale) (writes ops') []).filter (setsOther ops) = [] := by
  rw [List.filter_eq_nil_iff]
  intro l hl
  obtain ⟨write, hwrite, rfl⟩ := mem_puts_nil hl
  obtain ⟨op, hop, rfl⟩ := List.mem_map.mp hwrite
  rw [setsOther_of_used (h op hop) (lineOption_line op)]
  exact Bool.false_ne_true

theorem leftOver_of_ne_nil {op : Op} {last : Text} (h : leftOver locale op last ≠ []) :
    leftOver locale op last = last := by
  unfold leftOver at h ⊢
  split
  next hmentions => exact absurd (if_pos hmentions) h
  next => rfl

section First

/-! ### With a first call -/

variable {op : Op} {ops : List Op} {ls : List Text} {last : Text} (hls : ∀ l ∈ ls, '\n' ∉ l)
  (hlast : '\n' ∉ last)

include hls hlast

theorem filter_option_runAll {name : Name} (hname : ∃ op' ∈ op :: ops, op'.option = name) :
    (lines (runAll locale (op :: ops) (unlines ls ++ last))).filter (fun l => lineOption l = some name.text) =
      ([leftOver locale op last ++ op.line].filter (untouched (mentions locale) (writes ops))).filter
          (fun l => lineOption l = some name.text) ++
        (puts (mentions locale) (writes ops) []).filter (fun l => lineOption l = some name.text) := by
  obtain ⟨op', hop', rfl⟩ := hname
  have hkept : (ls.filter (untouched (mentions locale) (writes (op :: ops)))).filter
      (fun l => lineOption l = some op'.option.text) = [] := by
    rw [List.filter_eq_nil_iff]
    intro l hl hoption
    have huntouched := (List.mem_filter.mp hl).2
    rw [untouched_eq_false hop' (of_decide_eq_true hoption)] at huntouched
    cases huntouched
  have hempty : List.filter (fun l => lineOption l = some op'.option.text) [[]] = [] := by
    rw [List.filter_singleton, lineOption_nil]
    rfl
  rw [lines_runAll op ops hls hlast, List.filter_append, List.filter_append, List.filter_append, hkept,
    hempty, List.nil_append, List.append_nil]

/-- The option of the first call, when no other call uses it. -/
theorem once_first_iff (h : ∀ op' ∈ ops, op'.option ≠ op.option) :
    (lines (runAll locale (op :: ops) (unlines ls ++ last))).filter
        (fun l => lineOption l = some op.option.text) = [op.line] ↔
      leftOver locale op last = [] ∧ untouched (mentions locale) (writes ops) op.line = true := by
  rw [filter_option_runAll hls hlast ⟨op, .head _, rfl⟩, filter_puts_of_unused h, List.append_nil,
    List.filter_filter, filter_eq_singleton_iff, lineOption_line, decide_eq_true rfl, Bool.true_and]
  exact and_congr_left fun _ => List.append_left_eq_self

/-- An option of a later call. -/
theorem once_later_iff {before after : List Op} {op' : Op} (hops : ops = before ++ op' :: after)
    (h : ∀ op'' ∈ after, op''.option ≠ op'.option) :
    (lines (runAll locale (op :: ops) (unlines ls ++ last))).filter
        (fun l => lineOption l = some op'.option.text) = [op'.line] ↔
      untouched (mentions locale) (writes after) op'.line = true := by
  have hmem : op' ∈ ops := hops ▸ List.mem_append_right _ (.head _)
  have hjoined : ([leftOver locale op last ++ op.line].filter
      (untouched (mentions locale) (writes ops))).filter (fun l => lineOption l = some op'.option.text) = [] := by
    rw [List.filter_eq_nil_iff]
    intro l hl hoption
    have huntouched := (List.mem_filter.mp hl).2
    rw [untouched_eq_false hmem (of_decide_eq_true hoption)] at huntouched
    cases huntouched
  rw [filter_option_runAll hls hlast ⟨op', .tail _ hmem, rfl⟩, hjoined, List.nil_append, hops,
    filter_puts_of_last h, filter_eq_singleton_iff]
  exact and_iff_right rfl

theorem filter_setsOther_runAll :
    (lines (runAll locale (op :: ops) (unlines ls ++ last))).filter (setsOther (op :: ops)) =
      (ls.filter (setsOther (op :: ops))).filter (untouched (mentions locale) (writes (op :: ops))) ++
        [leftOver locale op last ++ op.line].filter
          (fun l => setsOther (op :: ops) l && untouched (mentions locale) (writes ops) l) := by
  have hempty : [[]].filter (setsOther (op :: ops)) = [] := by
    rw [List.filter_singleton, setsOther_nil]
    rfl
  rw [lines_runAll op ops hls hlast, List.filter_append, List.filter_append, List.filter_append, hempty,
    filter_setsOther_puts fun _ h => .tail _ h, List.append_nil, List.append_nil]
  congr 1
  · exact List.filter_comm _ _ _
  · exact List.filter_filter

theorem lines_unfinished : lines (unlines ls ++ last) = ls ++ [last] := by
  rw [lines_unlines hls, lines_of_no_newline hlast]

theorem filter_setsOther_unfinished : (lines (unlines ls ++ last)).filter (setsOther ops) =
    ls.filter (setsOther ops) ++ [last].filter (setsOther ops) := by
  rw [lines_unfinished hls hlast, List.filter_append]

omit hls hlast in
/-- The lines that no call touches are those of the other options. -/
theorem filter_untouched_iff {p : Text → Bool} :
    (ls.filter (setsOther ops)).filter p =
        ls.filter (setsOther ops) ++ [last].filter (setsOther ops) ↔
      (∀ l ∈ ls, setsOther ops l = true → p l = true) ∧ setsOther ops last = false := by
  rw [filter_eq_append_iff]
  refine and_congr ?_ ?_
  · simp only [List.mem_filter, and_imp]
  · rw [List.filter_singleton]
    cases setsOther ops last <;> simp

/-- When nothing is left in front of the first line, the lines of the other options stay if no call
touches them; there is none at the end that the first call deletes. -/
theorem others_iff_of_nil (hleft : leftOver locale op last = []) :
    (lines (runAll locale (op :: ops) (unlines ls ++ last))).filter (setsOther (op :: ops)) =
        (lines (unlines ls ++ last)).filter (setsOther (op :: ops)) ↔
      (∀ l ∈ ls, setsOther (op :: ops) l = true → untouched (mentions locale) (writes (op :: ops)) l = true) ∧
        setsOther (op :: ops) last = false := by
  have hnone : [op.line].filter
      (fun l => setsOther (op :: ops) l && untouched (mentions locale) (writes ops) l) = [] := by
    rw [List.filter_singleton, setsOther_of_used (.head _) (lineOption_line op)]
    rfl
  rw [filter_setsOther_runAll hls hlast, filter_setsOther_unfinished hls hlast, hleft, List.nil_append,
    hnone, List.append_nil]
  exact filter_untouched_iff

omit hls hlast in
/-- A joined line that stays is not one of the lines before. -/
theorem joined_not_kept (hagain : ∃ op' ∈ ops, op'.option = op.option)
    (huntouched : untouched (mentions locale) (writes ops) (last ++ op.line) = true) :
    (ls.filter (setsOther (op :: ops))).filter (untouched (mentions locale) (writes (op :: ops))) ++
        [last ++ op.line] ≠
      ls.filter (setsOther (op :: ops)) ++ [last].filter (setsOther (op :: ops)) := by
  intro heq
  rw [List.filter_singleton] at heq
  cases hset : setsOther (op :: ops) last with
  | true =>
    -- it is in the place of the unfinished line, and longer
    rw [hset, cond_true] at heq
    have hlast := (List.append_inj' heq rfl).2
    have hline : op.line = [] := List.append_right_eq_self.mp (List.singleton_inj.mp hlast)
    have hoption := lineOption_line op
    rw [hline, lineOption_nil] at hoption
    cases hoption
  | false =>
    -- it is in the place of a line that was deleted, so the first call or a later one deletes it
    rw [hset, cond_false, List.append_nil] at heq
    have htouched := eq_false_of_filter_concat heq
    rw [untouched_cons, huntouched, Bool.and_true, Bool.not_eq_false'] at htouched
    obtain ⟨op', hop', hoption⟩ := hagain
    have hnot := untouched_iff.mp huntouched op' hop'
    rw [hoption, htouched] at hnot
    cases hnot

/-- When the first line is written behind another, and its option is used again. -/
theorem others_iff_of_joined (hleft : leftOver locale op last = last)
    (hagain : ∃ op' ∈ ops, op'.option = op.option) :
    (lines (runAll locale (op :: ops) (unlines ls ++ last))).filter (setsOther (op :: ops)) =
        (lines (unlines ls ++ last)).filter (setsOther (op :: ops)) ↔
      (∀ l ∈ ls, setsOther (op :: ops) l = true → untouched (mentions locale) (writes (op :: ops)) l = true) ∧
        setsOther (op :: ops) last = false ∧ (setsOther (op :: ops) (last ++ op.line) = true →
          untouched (mentions locale) (writes ops) (last ++ op.line) = false) := by
  rw [filter_setsOther_runAll hls hlast, filter_setsOther_unfinished hls hlast, hleft,
    List.filter_singleton (a := last ++ op.line), ← and_assoc]
  cases hset : setsOther (op :: ops) (last ++ op.line) with
  | false =>
    rw [Bool.false_and, cond_false, List.append_nil, filter_untouched_iff]
    exact (and_iff_left nofun).symm
  | true =>
    rw [Bool.true_and]
    cases huntouched : untouched (mentions locale) (writes ops) (last ++ op.line) with
    | false =>
      rw [cond_false, List.append_nil, filter_untouched_iff]
      exact (and_iff_left fun _ => rfl).symm
    | true =>
      rw [cond_true]
      exact iff_of_false (joined_not_kept hagain huntouched) fun h => Bool.noConfusion (h.2 rfl)

end First

/-! ### Exactly the lines of the options -/

section Exact

variable {op : Op} {ops : List Op} {ls : List Text} {last : Text} (hls : ∀ l ∈ ls, '\n' ∉ l)
  (hlast : '\n' ∉ last)

include hls hlast

theorem EditsOnly.values
    (h : EditsOnly (op :: ops) (unlines ls ++ last) (runAll locale (op :: ops) (unlines ls ++ last)))
    {before after : List Op} {op' : Op} (hops : op :: ops = before ++ op' :: after)
    (hunused : ∀ op'' ∈ after, op''.option ≠ op'.option) :
    untouched (mentions locale) (writes after) op'.line = true := by
  have honce := h.once before op' after hops hunused
  cases before with
  | nil =>
    obtain ⟨rfl, rfl⟩ := List.cons.inj hops
    exact ((once_first_iff hls hlast hunused).mp honce).2
  | cons first before =>
    obtain ⟨rfl, htail⟩ := List.cons.inj hops
    exact (once_later_iff hls hlast htail hunused).mp honce

/-- An option that is used once has its line, so nothing is left in front of it. -/
theorem EditsOnly.again
    (h : EditsOnly (op :: ops) (unlines ls ++ last) (runAll locale (op :: ops) (unlines ls ++ last)))
    (hleft : leftOver locale op last ≠ []) : ∃ op' ∈ ops, op'.option = op.option := by
  by_contra hunused
  push Not at hunused
  exact hleft ((once_first_iff hls hlast hunused).mp (h.once [] op ops rfl hunused)).1

theorem EditsOnly.safe
    (h : EditsOnly (op :: ops) (unlines ls ++ last) (runAll locale (op :: ops) (unlines ls ++ last))) :
    Safe locale (op :: ops) (unlines ls ++ last) := by
  have hlines := lines_unfinished hls hlast
  have hvalues : ∀ before op' after, op :: ops = before ++ op' :: after →
      (∀ op'' ∈ after, op''.option ≠ op'.option) →
      ∀ op'' ∈ after, mentions locale op''.option op'.line = false := fun _ _ _ hops hunused =>
    untouched_iff.mp (h.values hls hlast hops hunused)
  have hothers : (∀ l ∈ ls, setsOther (op :: ops) l = true →
        untouched (mentions locale) (writes (op :: ops)) l = true) → setsOther (op :: ops) last = false →
      ∀ l ∈ lines (unlines ls ++ last), setsOther (op :: ops) l = true →
        ∀ op' ∈ op :: ops, mentions locale op'.option l = false := by
    intro hall hset l hl hother
    rw [hlines] at hl
    rcases List.mem_append.mp hl with hl | hl
    · exact untouched_iff.mp (hall l hl hother)
    · rw [List.mem_singleton.mp hl, hset] at hother
      cases hother
  by_cases hleft : leftOver locale op last = []
  · obtain ⟨hall, hset⟩ := (others_iff_of_nil hls hlast hleft).mp h.others
    refine ⟨hvalues, hothers hall hset, fun op' rest last' hops hlast' => ?_⟩
    obtain ⟨rfl, rfl⟩ := List.cons.inj hops
    rw [hlines, List.getLast?_concat, Option.some_inj] at hlast'
    exact .inl (hlast' ▸ hleft)
  · have hagain := h.again hls hlast hleft
    obtain ⟨hall, hset, hjoined⟩ :=
      (others_iff_of_joined hls hlast (leftOver_of_ne_nil hleft) hagain).mp h.others
    refine ⟨hvalues, hothers hall hset, fun op' rest last' hops hlast' => ?_⟩
    obtain ⟨rfl, rfl⟩ := List.cons.inj hops
    rw [hlines, List.getLast?_concat, Option.some_inj] at hlast'
    subst hlast'
    exact .inr ⟨hagain, hset, fun hother => untouched_eq_false_iff.mp (hjoined hother)⟩

theorem Safe.editsOnly (h : Safe locale (op :: ops) (unlines ls ++ last)) :
    EditsOnly (op :: ops) (unlines ls ++ last) (runAll locale (op :: ops) (unlines ls ++ last)) := by
  have hlines := lines_unfinished hls hlast
  have hlastLine : (lines (unlines ls ++ last)).getLast? = some last := by rw [hlines, List.getLast?_concat]
  have hall : ∀ l ∈ ls, setsOther (op :: ops) l = true →
      untouched (mentions locale) (writes (op :: ops)) l = true := fun l hl hother =>
    untouched_iff.mpr (h.others l (hlines ▸ List.mem_append_left _ hl) hother)
  constructor
  · intro before op' after hops hunused
    have hvalues := untouched_iff.mpr (h.values before op' after hops hunused)
    cases before with
    | nil =>
      obtain ⟨rfl, rfl⟩ := List.cons.inj hops
      rcases h.ending op ops last rfl hlastLine with hleft | ⟨⟨op', hop', hoption⟩, -⟩
      · exact (once_first_iff hls hlast hunused).mpr ⟨hleft, hvalues⟩
      · exact absurd hoption (hunused op' hop')
    | cons first before =>
      obtain ⟨rfl, htail⟩ := List.cons.inj hops
      exact (once_later_iff hls hlast htail hunused).mpr hvalues
  · by_cases hleft : leftOver locale op last = []
    · refine (others_iff_of_nil hls hlast hleft).mpr ⟨hall, ?_⟩
      -- an unfinished line of another option would have been deleted
      by_contra hset
      rw [Bool.not_eq_false] at hset
      have hnot := h.others last (hlines ▸ List.mem_append_right _ (.head _)) hset op (.head _)
      rw [leftOver, hnot, if_neg Bool.false_ne_true] at hleft
      rw [hleft, setsOther_nil] at hset
      cases hset
    · obtain ⟨hagain, hset, hjoined⟩ := (h.ending op ops last rfl hlastLine).resolve_left hleft
      refine (others_iff_of_joined hls hlast (leftOver_of_ne_nil hleft) hagain).mpr ⟨hall, hset, ?_⟩
      exact fun hother => untouched_eq_false_iff.mpr (hjoined hother)

end Exact

/-- For every file and sequence of calls, every option used has one line with its last setting and
the lines of the other options are unchanged if and only if the calls are safe on the file. -/
theorem editsOnly_iff (locale : Locale) (ops : List Op) (t : Text) :
    EditsOnly ops t (runAll locale ops t) ↔ Safe locale ops t := by
  cases ops with
  | nil =>
    constructor
    · exact fun _ => ⟨fun before op after h => by simp at h, fun _ _ _ => nofun, fun _ _ _ => nofun⟩
    · exact fun _ => ⟨fun before op after h => by simp at h, rfl⟩
  | cons op ops =>
    obtain ⟨ls, last, rfl, hls, hlast⟩ := exists_unlines t
    exact ⟨EditsOnly.safe hls hlast, Safe.editsOnly hls hlast⟩

/-- The C locale. -/
def plainLocale : Locale := ⟨isNameChar, fun _ _ => rfl⟩

def config (name : String) (h : name.toList ≠ [] ∧ name.toList.all isNameChar = true) : Name :=
  ⟨name.toList, h.1, List.all_eq_true.mp h.2⟩

/-- A line is deleted for a name in its value. -/
theorem editsOnly_value :
    runAll plainLocale [⟨config "CONFIG_MODULES" (by decide), .enable⟩]
        "CONFIG_CMDLINE=\x22ro CONFIG_MODULES\x22\n".toList = "CONFIG_MODULES=y\n".toList ∧
      ¬ EditsOnly [⟨config "CONFIG_MODULES" (by decide), .enable⟩]
        "CONFIG_CMDLINE=\x22ro CONFIG_MODULES\x22\n".toList "CONFIG_MODULES=y\n".toList := by
  refine ⟨by decide, fun h => ?_⟩
  exact absurd h.others (by decide)

end CargosBuildroot.Kconfig
