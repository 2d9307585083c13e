import CargosBuildroot.Libtool.Lines
import CargosBuildroot.Sed.Greedy

/-! One pass of the fix-up is exact, and a second one changes nothing, if `/usr` is found where it is
meant in each line and nowhere in the meant line; with a staging directory without a quote, an equal sign or
a blank only then. -/

namespace CargosBuildroot.Libtool

open Shell Sed

variable {d : Dirs}

/-! ### Separators -/

theorem isDelim_usr {c : Char} (hc : isDelim c = true) : c ∉ usr := by
  have hall : usr.all (!isDelim ·) = true := by decide
  intro hm
  have hnot := List.all_eq_true.mp hall c hm
  rw [hc] at hnot
  cases hnot

theorem isDelim_text {c : Char} (hc : isDelim c = true) (m : Mark) : c ∉ m.text := by
  have hall : m.text.all (!isDelim ·) = true := by cases m <;> decide
  intro hm
  have hnot := List.all_eq_true.mp hall c hm
  rw [hc] at hnot
  cases hnot

theorem isPrefixOf_append_delim {c : Char} (hc : isDelim c = true) (a b : Text) :
    usr.isPrefixOf (a ++ c :: b) = usr.isPrefixOf a := by
  rw [Bool.eq_iff_iff, List.isPrefixOf_iff_prefix, List.isPrefixOf_iff_prefix]
  exact ⟨prefix_append_cons (isDelim_usr hc), fun h => h.trans (List.prefix_append _ _)⟩

/-- A character that no marker has separates the markers. -/
theorem unhide_append_cons {ds : List (Mark × Text)} {c : Char} (hc : ∀ m : Mark, c ∉ m.text) (a b : Text) :
    unhide ds (a ++ c :: b) = unhide ds a ++ c :: unhide ds b := by
  induction ds with
  | nil => rfl
  | cons e ds ih =>
    change replaceAll e.1.text e.2 (unhide ds (a ++ c :: b)) = _
    rw [ih]
    exact replaceAll_append_cons (text_ne_nil _) (hc e.1) _ _

theorem unhide_nil (ds : List (Mark × Text)) : unhide ds [] = [] := by
  induction ds with
  | nil => rfl
  | cons e ds ih =>
    change replaceAll e.1.text e.2 (unhide ds []) = _
    rw [ih]
    rfl

theorem unhide_staging (hds : ∀ e ∈ d.list, PlainDir e.2) : unhide d.list Mark.staging.text = d.staging := by
  have htoolchain : unhide (d.toolchain.toList.map (.toolchain, ·)) Mark.staging.text = Mark.staging.text := by
    have hnot : ¬ Mark.toolchain.text <:+: Mark.staging.text := by decide
    cases d.toolchain with
    | none => rfl
    | some q => exact replaceAll_eq_self hnot
  have hput : replaceAll Mark.staging.text d.staging Mark.staging.text = d.staging := by
    have hmatch : replaceAll Mark.staging.text d.staging (Mark.staging.text ++ []) = d.staging ++ _ :=
      replaceAll_match (text_ne_nil .staging) []
    rwa [List.append_nil, replaceAll_nil, List.append_nil] at hmatch
  have hsplit : unhide d.list Mark.staging.text = replaceAll Mark.base.text d.base
      (replaceAll Mark.staging.text d.staging (unhide (d.toolchain.toList.map (.toolchain, ·)) Mark.staging.text)) :=
    List.foldr_append
  rw [hsplit, htoolchain, hput]
  exact replaceAll_eq_self ((hds _ d.staging_mem).marker .base)

/-! ### Lines -/

theorem usr_of_clear {t : Text} (h : clear d t = true) : usr.isPrefixOf t = true :=
  List.isPrefixOf_iff_prefix.mpr (prefix_of_stands h)

theorem not_clear {t : Text} (h : usr.isPrefixOf t = false) : clear d t = false := by
  rw [← Bool.not_eq_true]
  intro hclear
  rw [usr_of_clear hclear] at h
  cases h

/-- No `/usr` comes to stand behind a character of the pattern when the line is hidden. -/
theorem rests_hide (hds : ∀ e ∈ d.list, PlainDir e.2) {t : Text}
    (hbroken : ∀ b e a, d.list = b ++ e :: a → Unbroken b e t)
    (h : ∀ r ∈ rests isDelim t, usr.isPrefixOf r = false) :
    ∀ r ∈ rests isDelim (hide d.list t), usr.isPrefixOf r = false := by
  have hdir : ∀ e ∈ d.list, e.2 = d.ofMark e.1 := fun e he => Dirs.mem_list he
  have hrestore : restore d.ofMark (hidden d.list (t.map .chr)) = t := by
    rw [restore_hidden hds hdir, restore_chr]
  intro r hr
  rw [← Bool.not_eq_true, List.isPrefixOf_iff_prefix]
  intro husr
  obtain ⟨a, c, hc, heq⟩ := mem_rests.mp hr
  rw [hide_eq hds hdir hbroken] at heq
  obtain ⟨xs, ys, hxy, -, rfl⟩ := split_render (isDelim_text hc) heq
  obtain ⟨b, hb⟩ := (prefix_render_iff (by decide)).mp husr
  have hplace : usr ++ restore d.ofMark b ∈ rests isDelim t := by
    refine mem_rests.mpr ⟨restore d.ofMark xs, c, hc, ?_⟩
    have hback : restore d.ofMark (usr.map .chr ++ b) = usr ++ restore d.ofMark b := by
      rw [restore_append, restore_chr]
    rw [← hrestore, hxy, ← hb, restore_append, ← hback]
    rfl
  have hnot := h _ hplace
  rw [List.isPrefixOf_iff_prefix.mpr (List.prefix_append _ _)] at hnot
  cases hnot

/-- The first `/usr` of a line behind a character of the pattern. -/
theorem fixLine_place (hds : ∀ e ∈ d.list, PlainDir e.2) {left rest : Text} {c : Char}
    (h : PlainLine d (left ++ c :: rest)) (hc : isDelim c = true) (husr : usr.isPrefixOf rest = true)
    (hfirst : ∀ r ∈ rests isDelim left, usr.isPrefixOf (r ++ c :: rest) = false) :
    fixLine d (left ++ c :: rest) =
      left ++ c :: (if clear d rest then d.staging ++ fixLine d rest else fixLine d rest) := by
  have hdir : ∀ e ∈ d.list, e.2 = d.ofMark e.1 := fun e he => Dirs.mem_list he
  have hrest : PlainLine d rest := h.part ((List.suffix_cons _ _).trans (List.suffix_append _ _))
  have hleft : ∀ b e a, d.list = b ++ e :: a → Unbroken b e left := fun b e a hlist =>
    (h.unbroken b e a hlist).part (List.prefix_append _ _).isInfix
  have hhide : hide d.list (left ++ c :: rest) = hide d.list left ++ c :: hide d.list rest := by
    have hsplit := hidden_split hds hdir (h.split hc (List.isPrefixOf_iff_prefix.mp husr))
    rw [hide_eq hds hdir h.unbroken, hide_eq hds hdir hleft, hide_eq hds hdir hrest.unbroken, hsplit, render_append]
    rfl
  have hnone : ∀ r ∈ rests isDelim (hide d.list left), usr.isPrefixOf (r ++ c :: hide d.list rest) = false := by
    intro r hr
    rw [isPrefixOf_append_delim hc]
    refine rests_hide hds hleft (fun r hr => ?_) r hr
    rw [← isPrefixOf_append_delim hc]
    exact hfirst r hr
  have hback : unhide d.list (hide d.list left) = left := unhide_hide hds hleft
  rw [fixLine, hhide, prefixUsr, insertBehind_append hnone, insertBehind_cons_of_sep hc, isPrefixOf_hide hds hrest,
    unhide_append_cons (isDelim_text hc), hback]
  refine congrArg (left ++ c :: ·) ?_
  split
  next hclear =>
    -- the mark is put back by itself, as `/usr` follows it
    obtain ⟨u, hu⟩ := List.isPrefixOf_iff_prefix.mp ((isPrefixOf_hide hds hrest).trans hclear)
    have hslash : prefixUsr (hide d.list rest) = '/' :: prefixUsr ("usr".toList ++ u) := by
      rw [← hu]
      rfl
    have hput : unhide d.list ('/' :: prefixUsr ("usr".toList ++ u)) =
        '/' :: unhide d.list (prefixUsr ("usr".toList ++ u)) := by
      have happend : unhide d.list ([] ++ '/' :: prefixUsr ("usr".toList ++ u)) = _ :=
        unhide_append_cons slash_not_mem_text [] _
      rwa [List.nil_append, unhide_nil, List.nil_append] at happend
    change unhide d.list (Mark.staging.text ++ prefixUsr (hide d.list rest)) =
      d.staging ++ unhide d.list (prefixUsr (hide d.list rest))
    rw [hslash, unhide_append_cons slash_not_mem_text, unhide_staging hds, hput]
  next => rfl

/-- The staging directory gets in wherever `/usr` is found. -/
theorem fixLine_eq (hds : ∀ e ∈ d.list, PlainDir e.2) {line : Text} (h : PlainLine d line) :
    fixLine d line = insertBehind isDelim (clear d) d.staging line := by
  induction hn : line.length using Nat.strong_induction_on generalizing line with
  | _ n ih =>
    subst hn
    rcases exists_first isDelim usr.isPrefixOf line with hnone | ⟨left, c, rest, rfl, hc, husr, hfirst⟩
    · have hsame : prefixUsr (hide d.list line) = hide d.list line :=
        (insertBehind_eq_self_iff (text_ne_nil _)).mpr (rests_hide hds h.unbroken hnone)
      have hclear := (insertBehind_eq_self_iff (s := d.staging) (hds _ d.staging_mem).ne_nil).mpr
        fun r hr => not_clear (d := d) (hnone r hr)
      rw [fixLine, hsame, unhide_hide hds h.unbroken, hclear]
    · have hrest : PlainLine d rest := h.part ((List.suffix_cons _ _).trans (List.suffix_append _ _))
      have hlength : rest.length < (left ++ c :: rest).length := by
        rw [List.length_append, List.length_cons]
        omega
      rw [fixLine_place hds h hc husr hfirst, insertBehind_append fun r hr => not_clear (hfirst r hr),
        insertBehind_cons_of_sep hc, ih rest.length hlength hrest rfl]

/-! ### Texts -/

theorem newline_not_mem_insert (hds : ∀ e ∈ d.list, PlainDir e.2) {q : Text → Bool} {line : Text}
    (hline : '\n' ∉ line) : '\n' ∉ insertBehind isDelim q d.staging line := fun hm =>
  (mem_insertBehind hm).elim hline (hds _ d.staging_mem).newline

/-- A text is made of lines, and two are equal if all lines are. -/
theorem intercalate_map_inj {f g : Text → Text} {ls : List Text} (hls : ls ≠ [])
    (hf : ∀ l ∈ ls, '\n' ∉ f l) (hg : ∀ l ∈ ls, '\n' ∉ g l) :
    ['\n'].intercalate (ls.map f) = ['\n'].intercalate (ls.map g) ↔ ∀ l ∈ ls, f l = g l := by
  constructor
  · intro h
    have hsplit := congrArg (List.splitOn '\n') h
    rw [List.splitOn_intercalate _ (List.forall_mem_map.mpr hf) (mt List.map_eq_nil_iff.mp hls),
      List.splitOn_intercalate _ (List.forall_mem_map.mpr hg) (mt List.map_eq_nil_iff.mp hls)] at hsplit
    exact List.map_inj_left.mp hsplit
  · intro h
    rw [List.map_congr_left h]

theorem lines_meantLa (hds : ∀ e ∈ d.list, PlainDir e.2) (t : Text) :
    lines (meantLa d t) = (lines t).map (meantLine d) := by
  apply List.splitOn_intercalate
  · intro l hl
    obtain ⟨line, hline, rfl⟩ := List.mem_map.mp hl
    exact newline_not_mem_insert hds (newline_not_mem_lines t line hline)
  · exact mt List.map_eq_nil_iff.mp (List.splitOn_ne_nil _ _)

theorem forall_mark {P : Mark → Prop} : (∀ m, P m) ↔ P .base ∧ P .staging ∧ P .toolchain :=
  ⟨fun h => ⟨h _, h _, h _⟩, fun ⟨hbase, hstaging, htoolchain⟩ m => by cases m <;> assumption⟩

theorem exists_cons_of_mem_take {α : Type} {a : α} {l : List α} (h : a ∈ l.take 1) : ∃ r, l = a :: r := by
  cases l with
  | nil => cases h
  | cons b r => exact ⟨r, by rw [List.mem_singleton.mp h]⟩

instance (dir : Text) : Decidable (PlainDir dir) :=
  have : Decidable (∀ m : Mark, ¬ m.text <:+: dir) := decidable_of_iff' _ forall_mark
  decidable_of_iff (dir.head? = some '/' ∧ '\n' ∉ dir ∧ ∀ m : Mark, ¬ m.text <:+: dir)
    ⟨fun h => ⟨h.1, h.2.1, h.2.2⟩, fun h => ⟨h.absolute, h.newline, h.marker⟩⟩

instance (before : List (Mark × Text)) (e : Mark × Text) (line : Text) : Decidable (Unbroken before e line) :=
  decidable_of_iff ((∀ a ∈ ['@'] :: before.map (·.2), ∀ b ∈ ['@'] :: e.2 :: before.map (·.2),
      ¬ a ++ e.1.name ++ b <:+: line) ∧
    ∀ e' ∈ before, ∀ s ∈ splits e.2, s.2 ≠ [] → s.2 <+: e'.1.text → ¬ s.1 ++ e'.2 <:+: line)
    ⟨fun h => ⟨h.1, fun e' he' p v hpv => h.2 e' he' (p, v) (mem_splits.mpr hpv.symm)⟩,
      fun h => ⟨h.name, fun e' he' s hs => h.ending e' he' s.1 s.2 (mem_splits.mp hs).symm⟩⟩

instance (d : Dirs) (line : Text) :
    Decidable (∀ before e after, d.list = before ++ e :: after → Unbroken before e line) :=
  decidable_of_iff (∀ s ∈ splits d.list, ∀ e ∈ s.2.take 1, Unbroken s.1 e line) <| by
    constructor
    · intro h b e a hlist
      exact h (b, e :: a) (mem_splits.mpr hlist.symm) e (.head _)
    · rintro h ⟨b, l⟩ hs e he
      obtain ⟨a, rfl⟩ := exists_cons_of_mem_take he
      exact h b e a (mem_splits.mp hs).symm

instance (dir line : Text) : Decidable (∀ p c q, dir = p ++ c :: q → isDelim c = true →
    ∀ rest, q <+: rest → usr <+: rest → ¬ p ++ c :: rest <:+ line) :=
  decidable_of_iff (∀ s ∈ splits dir, ∀ c ∈ s.2.take 1, isDelim c = true → ∀ rest ∈ line.tails,
    s.2.tail <+: rest → usr <+: rest → ¬ s.1 ++ c :: rest <:+ line) <| by
    constructor
    · intro h p c q hpq hc rest hq husr hp
      have hrest : rest ∈ line.tails :=
        (List.mem_tails _ _).mpr (((List.suffix_cons _ _).trans (List.suffix_append _ _)).trans hp)
      exact h (p, c :: q) (mem_splits.mpr hpq.symm) c (.head _) hc rest hrest hq husr hp
    · rintro h ⟨p, l⟩ hs c hc hdelim rest -
      obtain ⟨q, rfl⟩ := exists_cons_of_mem_take hc
      exact h p c q (mem_splits.mp hs).symm hdelim rest

instance (d : Dirs) (line : Text) : Decidable (PlainLine d line) :=
  decidable_of_iff ((∀ before e after, d.list = before ++ e :: after → Unbroken before e line) ∧
    ∀ e ∈ d.list, ∀ p c q, e.2 = p ++ c :: q → isDelim c = true →
      ∀ rest, q <+: rest → usr <+: rest → ¬ p ++ c :: rest <:+ line)
    ⟨fun h => ⟨h.1, h.2⟩, fun h => ⟨h.unbroken, h.whole⟩⟩

instance (d : Dirs) (t : Text) : Decidable (Plain d t) :=
  decidable_of_iff ((∀ e ∈ d.list, PlainDir e.2) ∧
    ∀ line ∈ lines t, PlainLine d line ∧ PlainLine d (meantLine d line))
    ⟨fun h => ⟨h.1, h.2⟩, fun h => ⟨h.dirs, h.lines⟩⟩

instance (d : Dirs) (t : Text) : Decidable (Placed d t) :=
  decidable_of_iff ((∀ line ∈ lines t, ∀ rest ∈ rests isDelim line, clear d rest = meant d rest) ∧
    ∀ line ∈ lines t, ∀ rest ∈ rests isDelim (meantLine d line), clear d rest = false)
    ⟨fun h => ⟨h.1, h.2⟩, fun h => ⟨h.first, h.second⟩⟩

/-- An output directory outside `/usr` with a toolchain in it. -/
def output : Dirs :=
  ⟨"/br".toList, "/br/host/sysroot".toList, some "/br/host/ext".toList⟩

/-- An output directory with an equal sign. -/
def branch : Dirs := ⟨"/a=b/br".toList, "/a=b/br/host".toList, none⟩

/-- An output directory below `/usr`, and a path that only begins with its characters. -/
def below : Dirs := ⟨"/usr/br".toList, "/usr/br/host".toList, none⟩

/-- A staging directory with the output directory's path inside it. -/
def inside : Dirs := ⟨"/out".toList, "/usr/out/host".toList, none⟩

end CargosBuildroot.Libtool
