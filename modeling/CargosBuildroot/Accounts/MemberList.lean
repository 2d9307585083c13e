import CargosBuildroot.Accounts.Members
import Mathlib.Data.List.InsertIdx

/-! The list of members after `add_user_to_group`. The first substitution blanks the user,
the second one appends it, and the third one removes the blank if it makes the first two
commas of the line that stand together; the fourth one removes a blank at the start. -/

namespace CargosBuildroot.Accounts

open Shell Store

/-! ### Lines that the last two substitutions leave alone -/

/-- The first run of commas is a single comma, and no comma follows a colon. -/
structure Clean (line : Text) : Prop where
  commas : ∀ p q, line = p ++ ',' :: ',' :: q → ',' ∈ p
  colon : ¬ [':', ','] <:+: line

theorem squeeze_eq_iff {line : Text} :
    squeeze line = line ↔ ∀ p q, line = p ++ ',' :: ',' :: q → ',' ∈ p := by
  constructor
  · rintro h p q rfl
    by_contra hp
    rw [squeeze_comma hp, List.append_cancel_left_eq, List.cons.injEq,
      List.dropWhile_cons_of_pos (by decide)] at h
    have hlength := congrArg List.length h.2
    have hle := (List.dropWhile_sublist (· = ',') (l := q)).length_le
    rw [List.length_cons] at hlength
    omega
  · intro h
    by_cases hline : ',' ∈ line
    · obtain ⟨p, q, rfl, hp⟩ := List.eq_append_cons_of_mem hline
      rw [squeeze_comma hp]
      cases q with
      | nil => rfl
      | cons c q =>
        by_cases hc : c = ','
        · subst hc
          exact absurd (h p q rfl) hp
        · rw [List.dropWhile_cons_of_neg (by simpa using hc)]
    · exact squeeze_of_no_comma hline

theorem trim_sublist (line : Text) : (trim line).Sublist line := by
  fun_induction trim line with
  | case1 t => exact (List.sublist_cons_self _ _).cons_cons _
  | case2 c t _ ih => exact ih.cons_cons _
  | case3 => exact .slnil

theorem trim_eq_iff {line : Text} : trim line = line ↔ ¬ [':', ','] <:+: line := by
  fun_induction trim line with
  | case1 t =>
    refine iff_of_false (fun h => ?_) (not_not_intro ⟨[], t, rfl⟩)
    have hlength := congrArg List.length h
    simp at hlength
  | case2 c t hnot ih =>
    rw [List.cons.injEq, List.infix_cons_iff, not_or, ih]
    refine ⟨fun h => ⟨?_, h.2⟩, fun h => ⟨rfl, h.2⟩⟩
    rintro ⟨t', ht⟩
    obtain ⟨rfl, rfl⟩ := List.cons.inj ht
    exact hnot t' rfl rfl
  | case3 => simp

theorem trim_squeeze_eq_iff {line : Text} : trim (squeeze line) = line ↔ Clean line := by
  constructor
  · intro h
    have hsqueeze : squeeze line = line := by
      refine (squeeze_sublist line).eq_of_length_le ?_
      have hle := (trim_sublist (squeeze line)).length_le
      rwa [h] at hle
    rw [hsqueeze] at h
    exact ⟨squeeze_eq_iff.mp hsqueeze, trim_eq_iff.mp h⟩
  · intro h
    rw [squeeze_eq_iff.mpr h.commas, trim_eq_iff.mpr h.colon]

instance (line : Text) : Decidable (Clean line) := decidable_of_iff _ trim_squeeze_eq_iff

/-- In the lines of other groups only the last two substitutions are made. -/
theorem memberLine_other {username group line : Text} (h : hasName group line = false) :
    memberLine username group line = trim (squeeze line) := by
  simp [memberLine, dropMember, appendMember, h]

theorem memberLine_eq_iff {username group line : Text} (h : hasName group line = false) :
    memberLine username group line = line ↔ Clean line := by
  rw [memberLine_other h, trim_squeeze_eq_iff]

/-! ### The list of the group -/

/-- A name that can stand in a list of members. -/
structure MemberName (name : Text) : Prop where
  ne_nil : name ≠ []
  no_colon : ':' ∉ name
  no_comma : ',' ∉ name

variable {u : Text} {ms : List Text}

/-- The text of a list of members. -/
def memberList (ms : List Text) : Text := [','].intercalate ms

theorem splitOn_memberList (hms : ∀ m ∈ ms, ',' ∉ m) (hne : ms ≠ []) :
    (memberList ms).splitOn ',' = ms :=
  List.splitOn_intercalate _ hms hne

theorem memberList_cons {m : Text} (hne : ms ≠ []) : memberList (m :: ms) = m ++ ',' :: memberList ms := by
  obtain ⟨m', ms, rfl⟩ := List.exists_cons_of_ne_nil hne
  rw [memberList, List.intercalate_cons_cons, List.append_assoc]
  rfl

theorem intercalate_concat {sep : Char} {ws : List Text} (hne : ws ≠ []) (w : Text) :
    [sep].intercalate (ws ++ [w]) = [sep].intercalate ws ++ sep :: w := by
  rw [intercalate_append hne (List.cons_ne_nil w []), List.intercalate_singleton]

theorem memberList_concat {m : Text} (hne : ms ≠ []) :
    memberList ms ++ ',' :: m = memberList (ms ++ [m]) :=
  (intercalate_concat hne m).symm

/-- A member, or nothing in the place of the user. -/
def blank (u m : Text) : Text := if m = u then [] else m

theorem blankLast_append {ms₁ ms₂ : List Text} (h : u ∉ ms₁) :
    blankLast u (ms₁ ++ ms₂) = ms₁ ++ blankLast u ms₂ := by
  induction ms₁ with
  | nil => rfl
  | cons m ms₁ ih =>
    rw [List.mem_cons, not_or] at h
    rw [List.cons_append, blankLast, if_neg (fun hm => h.1 hm.1.symm), ih h.2, List.cons_append]

theorem map_blank_of_not_mem (h : u ∉ ms) : ms.map (blank u) = ms := by
  conv_rhs => rw [← List.map_id ms]
  refine List.map_congr_left fun m hm => ?_
  rw [blank, if_neg (fun heq : m = u => h (heq ▸ hm)), id]

/-- Among distinct names the one member is blanked. -/
theorem blankLast_eq (hnil : [] ∉ ms) (hnodup : ms.Nodup) :
    (blankLast u ms.reverse).reverse = ms.map (blank u) := by
  by_cases hu : u ∈ ms
  · obtain ⟨p, q, rfl⟩ := List.append_of_mem hu
    obtain ⟨-, hq, hdisjoint⟩ := List.nodup_append.mp hnodup
    have hp : u ∉ p := fun h => hdisjoint u h u (.head _) rfl
    have hq : u ∉ q := (List.nodup_cons.mp hq).1
    have hbefore : p.reverse ≠ [[]] := by
      intro h
      have hmem : ([] : Text) ∈ p.reverse := h ▸ .head _
      exact hnil (List.mem_append_left _ (List.mem_reverse.mp hmem))
    rw [List.reverse_append, List.reverse_cons, List.append_assoc,
      blankLast_append (mt List.mem_reverse.mp hq), List.singleton_append, blankLast,
      if_pos ⟨rfl, hbefore⟩, List.map_append, List.map_cons, map_blank_of_not_mem hp,
      map_blank_of_not_mem hq]
    simp [blank]
  · have hnone := @blankLast_append u ms.reverse [] (mt List.mem_reverse.mp hu)
    rw [List.append_nil] at hnone
    rw [hnone, map_blank_of_not_mem hu]
    simp [blankLast]

theorem addText_memberList (hnil : [] ∉ ms) (hcomma : ∀ m ∈ ms, ',' ∉ m) (hnodup : ms.Nodup) :
    addText u (memberList ms) =
      if ms = [] then ',' :: u else memberList (ms.map (blank u) ++ [u]) := by
  by_cases hms : ms = []
  · subst hms
    simp [addText, memberList, blankLast]
  · rw [if_neg hms, addText, splitOn_memberList hcomma hms, blankLast_eq hnil hnodup]
    exact memberList_concat (mt List.map_eq_nil_iff.mp hms)

/-- The text does not start with a comma. -/
def NoLead (t : Text) : Prop := t.head? ≠ some ','

theorem NoLead.dropLead {t : Text} (h : NoLead t) : dropLead t = t := by
  unfold Accounts.dropLead
  split
  · exact absurd rfl h
  · rfl

theorem NoLead.dropWhile {t : Text} (h : NoLead t) : t.dropWhile (· = ',') = t := by
  cases t with
  | nil => rfl
  | cons c t =>
    refine List.dropWhile_cons_of_neg fun hc => h ?_
    rw [List.head?_cons, of_decide_eq_true hc]

theorem MemberName.noLead_append {m : Text} (hm : MemberName m) (t : Text) : NoLead (m ++ t) := by
  obtain ⟨c, m, rfl⟩ := List.exists_cons_of_ne_nil hm.ne_nil
  intro h
  exact hm.no_comma (Option.some.inj h ▸ .head _)

theorem noLead_memberList {m : Text} (hm : MemberName m) : NoLead (memberList (m :: ms)) := by
  cases ms with
  | nil => simpa [memberList] using hm.noLead_append []
  | cons m' ms =>
    rw [memberList_cons (List.cons_ne_nil _ _)]
    exact hm.noLead_append _

/-- The first run of commas of the text is a single one. -/
theorem squeeze_memberList {m m' : Text} (hm : ',' ∉ m) (hm' : MemberName m') :
    squeeze (memberList (m :: m' :: ms)) = memberList (m :: m' :: ms) := by
  rw [memberList_cons (List.cons_ne_nil _ _), squeeze_comma hm, (noLead_memberList hm').dropWhile]

/-- The last two substitutions, on the list of the group; the third one is made elsewhere when
there is a comma before the list. -/
def closeList (before : Bool) (t : Text) : Text := dropLead (if before then t else squeeze t)

/-- The number of places in which the user leaves no blank behind. -/
def places (before : Bool) : ℕ := if before then 1 else 2

theorem closeList_of_mem {before : Bool} (hms : ∀ m ∈ ms, MemberName m) (hnodup : ms.Nodup)
    (hu : MemberName u) (h : u ∈ ms.drop (places before)) :
    [] ∈ (closeList before (addText u (memberList ms))).splitOn ',' := by
  have hnil : [] ∉ ms := fun h => (hms _ h).ne_nil rfl
  have hcomma : ∀ m ∈ ms, ',' ∉ m := fun m hm => (hms m hm).no_comma
  have hcomma' : ∀ m ∈ ms.map (blank u) ++ [u], ',' ∉ m := by
    intro m hm
    rcases List.mem_append.mp hm with hm | hm
    · obtain ⟨m', hm', rfl⟩ := List.mem_map.mp hm
      unfold blank
      split
      · exact List.not_mem_nil
      · exact hcomma m' hm'
    · exact List.mem_singleton.mp hm ▸ hu.no_comma
  -- the text has the blank, and is not changed any more
  have hblank : ∀ t, t = memberList (ms.map (blank u) ++ [u]) → [] ∈ t.splitOn ',' := by
    rintro t rfl
    rw [splitOn_memberList hcomma' (by simp)]
    exact List.mem_append_left _ (List.mem_map.mpr ⟨u, List.mem_of_mem_drop h, if_pos rfl⟩)
  have hne : ms ≠ [] := List.ne_nil_of_mem (List.mem_of_mem_drop h)
  refine hblank _ ?_
  rw [addText_memberList hnil hcomma hnodup, if_neg hne]
  obtain ⟨m, rest, rfl⟩ := List.exists_cons_of_ne_nil hne
  rw [List.forall_mem_cons] at hms
  have hmu : u ∈ rest → m ≠ u := by
    rintro hmem rfl
    exact (List.nodup_cons.mp hnodup).1 hmem
  cases before with
  | true =>
    have hmem : u ∈ rest := h
    rw [closeList, if_pos rfl, List.map_cons, blank, if_neg (hmu hmem)]
    exact (noLead_memberList hms.1).dropLead
  | false =>
    obtain ⟨m', rest, rfl⟩ := List.exists_cons_of_ne_nil
      (List.ne_nil_of_mem (List.mem_of_mem_drop (i := 1) (l := rest) (by simpa [places] using h)))
    have hmem : u ∈ rest := h
    have hm'u : m' ≠ u := by
      rintro rfl
      exact (List.nodup_cons.mp (List.nodup_cons.mp hnodup).2).1 hmem
    rw [closeList, if_neg Bool.false_ne_true, List.map_cons, List.map_cons, blank,
      if_neg (hmu (.tail _ hmem)), blank, if_neg hm'u]
    rw [List.forall_mem_cons] at hms
    simp only [List.cons_append]
    rw [squeeze_memberList hms.1.no_comma hms.2.1]
    exact (noLead_memberList hms.1).dropLead

theorem filter_ne_of_not_mem (h : u ∉ ms) : ms.filter (· ≠ u) = ms := by
  rw [List.filter_eq_self]
  intro m hm
  exact decide_eq_true fun heq => h (heq ▸ hm)

theorem noLead_concat {q : List Text} (hq : ∀ m ∈ q, MemberName m) (hu : MemberName u) :
    NoLead (memberList (q ++ [u])) := by
  cases q with
  | nil => exact noLead_memberList hu
  | cons m q => exact noLead_memberList (hq m (.head _))

/-- A blank in the first place goes away, as the user itself does not start with a comma. -/
theorem closeList_lead {before : Bool} {q : List Text} (hq : ∀ m ∈ q, MemberName m) (hu : MemberName u) :
    closeList before (',' :: memberList (q ++ [u])) = memberList (q ++ [u]) := by
  have hsqueeze : squeeze (',' :: memberList (q ++ [u])) = ',' :: memberList (q ++ [u]) := by
    rw [squeeze, if_pos rfl, (noLead_concat hq hu).dropWhile]
  rw [closeList, hsqueeze, ite_self]
  rfl

/-- So does one in the second place, when the first run of commas is squeezed. -/
theorem squeeze_second {m : Text} {q : List Text} (hm : ',' ∉ m) (hq : ∀ m ∈ q, MemberName m)
    (hu : MemberName u) : squeeze (memberList (m :: [] :: (q ++ [u]))) = memberList (m :: (q ++ [u])) := by
  rw [memberList_cons (List.cons_ne_nil _ _), memberList_cons (by simp), List.nil_append, squeeze_comma hm,
    List.dropWhile_cons_of_pos (by decide), (noLead_concat hq hu).dropWhile, ← memberList_cons (by simp)]

/-- The text after the substitution, when the first member is another one. -/
theorem squeeze_of_not_mem {m : Text} {rest : List Text} (hm : ',' ∉ m) (hrest : ∀ m ∈ rest, MemberName m)
    (hu : MemberName u) (h : u ∉ rest.drop 1) :
    squeeze (memberList (m :: (rest.map (blank u) ++ [u]))) = memberList (m :: (rest.filter (· ≠ u) ++ [u])) := by
  cases rest with
  | nil => exact squeeze_memberList hm hu
  | cons m' rest =>
    have hnot : u ∉ rest := h
    obtain ⟨hm', hrest⟩ := List.forall_mem_cons.mp hrest
    rw [List.map_cons, List.cons_append, map_blank_of_not_mem hnot]
    by_cases hm'u : m' = u
    · rw [blank, if_pos hm'u, List.filter_cons_of_neg (by simpa using hm'u), filter_ne_of_not_mem hnot]
      exact squeeze_second hm hrest hu
    · rw [blank, if_neg hm'u, List.filter_cons_of_pos (by simpa using hm'u), filter_ne_of_not_mem hnot]
      exact squeeze_memberList hm hm'

theorem closeList_of_not_mem {before : Bool} (hms : ∀ m ∈ ms, MemberName m) (hnodup : ms.Nodup)
    (hu : MemberName u) (h : u ∉ ms.drop (places before)) :
    closeList before (addText u (memberList ms)) = memberList (ms.filter (· ≠ u) ++ [u]) := by
  have hnil : [] ∉ ms := fun h => (hms _ h).ne_nil rfl
  have hcomma : ∀ m ∈ ms, ',' ∉ m := fun m hm => (hms m hm).no_comma
  rw [addText_memberList hnil hcomma hnodup]
  cases ms with
  | nil =>
    have hone : memberList [u] = u := by simp [memberList]
    have hlead := @closeList_lead u before [] (by simp) hu
    rw [List.nil_append, hone] at hlead
    rw [if_pos rfl, List.filter_nil, List.nil_append, hone, hlead]
  | cons m rest =>
    obtain ⟨hm, hrest⟩ := List.forall_mem_cons.mp hms
    obtain ⟨hmem, hnodup⟩ := List.nodup_cons.mp hnodup
    rw [if_neg (List.cons_ne_nil _ _), List.map_cons, List.cons_append]
    by_cases hmu : m = u
    · subst hmu
      rw [blank, if_pos rfl, map_blank_of_not_mem hmem, memberList_cons (by simp),
        List.nil_append, closeList_lead hrest hu, List.filter_cons_of_neg (by simp),
        filter_ne_of_not_mem hmem]
    · rw [blank, if_neg hmu, List.filter_cons_of_pos (by simpa using hmu)]
      cases before with
      | true =>
        have hnot : u ∉ rest := h
        rw [map_blank_of_not_mem hnot, filter_ne_of_not_mem hnot, closeList, if_pos rfl]
        exact (noLead_memberList hm).dropLead
      | false =>
        have hnot : u ∉ rest.drop 1 := h
        rw [closeList, if_neg Bool.false_ne_true, squeeze_of_not_mem hm.no_comma hrest hu hnot]
        exact (noLead_memberList hm).dropLead

/-! ### The line of the group -/

section Quad

variable {a b c d group : Text}

theorem quad_eq (a b c d : Text) : quad a b c d = a ++ ':' :: (b ++ ':' :: (c ++ ':' :: d)) := by
  simp [quad]

theorem NoLead.squeeze {t : Text} (h : NoLead t) : NoLead (squeeze t) := by
  cases t with
  | nil => exact h
  | cons x t =>
    rw [Accounts.squeeze]
    split
    · rename_i hx
      exact absurd (congrArg some hx) h
    · exact h

/-- The line after all four substitutions. -/
theorem memberLine_self (hg : MemberName group) (hu : MemberName u) (hb : ':' ∉ b ∧ ',' ∉ b)
    (hc : ':' ∉ c ∧ NoLead c) (hd : ':' ∉ d) :
    memberLine u group (quad group b c d) =
      quad group b (if ',' ∈ c then squeeze c else c) (closeList (',' ∈ c) (addText u d)) := by
  have hadd : ':' ∉ addText u d := addText_no_colon hu.no_colon hd
  have htrim : ∀ c d, ':' ∉ c → NoLead c → ':' ∉ d →
      trim (quad group b c d) = quad group b c (dropLead d) := by
    intro c d hcolon hlead hd
    have hb' : ∀ t, b ++ ':' :: (c ++ ':' :: d) ≠ ',' :: t := by
      intro t h
      cases b with
      | nil => simp at h
      | cons x b => exact hb.2 ((List.cons.inj h).1 ▸ .head _)
    have hc' : ∀ t, c ++ ':' :: d ≠ ',' :: t := by
      intro t h
      cases c with
      | nil => simp at h
      | cons x c => exact hlead ((List.cons.inj h).1 ▸ rfl)
    rw [quad_eq, trim_append hg.no_colon, trim_colon hb', trim_append hb.1, trim_colon hc',
      trim_append hcolon, trim_text hd, ← quad_eq]
  rw [memberLine, add_quad hg.no_colon hb.1 hc.1 hd hg.no_colon, if_pos rfl, quad_eq, squeeze_colon,
    if_neg hg.no_comma, squeeze_colon, if_neg hb.2, squeeze_colon]
  by_cases hcomma : ',' ∈ c
  · have hcolon : ':' ∉ squeeze c := fun h => hc.1 ((squeeze_sublist c).mem h)
    rw [if_pos hcomma, if_pos hcomma, ← quad_eq, htrim _ _ hcolon hc.2.squeeze hadd]
    simp [closeList, hcomma]
  · have hcolon : ':' ∉ squeeze (addText u d) := fun h => hadd ((squeeze_sublist _).mem h)
    rw [if_neg hcomma, if_neg hcomma, ← quad_eq, htrim _ _ hc.1 hc.2 hcolon]
    simp [closeList, hcomma]

theorem memberList_no_colon (hms : ∀ m ∈ ms, MemberName m) : ':' ∉ memberList ms := by
  intro h
  rcases mem_intercalate h with h | ⟨m, hm, hx⟩
  · exact absurd h (by decide)
  · exact (hms m hm).no_colon hx

theorem closeList_no_colon {before : Bool} {t : Text} (h : ':' ∉ t) : ':' ∉ closeList before t := by
  intro hmem
  have hsub := (dropLead_sublist _).mem hmem
  split at hsub
  · exact h hsub
  · exact h ((squeeze_sublist t).mem hsub)

end Quad

/-! ### The files -/

inductive File
  | group
  | gshadow

def Target.lines (s : Target) : File → Option (List Text)
  | .group => some s.group
  | .gshadow => s.gshadow

/-- The members in a line of a file. -/
def membersAt (file : List Text) (i : ℕ) : List Text := (field 4 (file.getD i [])).splitOn ','

/-- The line has the old members and the user, each once, and the other lines are as they were. -/
structure Joins (u : Text) (ms : List Text) (i : ℕ) (file file' : List Text) : Prop where
  members : ∀ m, m ∈ membersAt file' i ↔ m ∈ ms ∨ m = u
  nodup : (membersAt file' i).Nodup
  no_empty : [] ∉ membersAt file' i
  others : file'.eraseIdx i = file.eraseIdx i

theorem membersAt_map {file : List Text} {i : ℕ} {group l a b c d : Text} (hi : file[i]? = some l)
    (hl : memberLine u group l = quad a b c d) (ha : ':' ∉ a) (hb : ':' ∉ b) (hc : ':' ∉ c)
    (hd : ':' ∉ d) : membersAt (file.map (memberLine u group)) i = d.splitOn ',' := by
  have hget : (file.map (memberLine u group)).getD i [] = quad a b c d := by
    rw [List.getD_eq_getElem?_getD, List.getElem?_map, hi, Option.map_some, Option.getD_some, hl]
  rw [membersAt, hget, field, fields_quad ha hb hc hd]
  rfl

/-- The other lines stay if and only if they are clean. -/
theorem eraseIdx_map_memberLine {file : List Text} {i : ℕ} {group : Text}
    (hothers : ∀ l ∈ file.eraseIdx i, hasName group l = false) :
    (file.map (memberLine u group)).eraseIdx i = file.eraseIdx i ↔ ∀ l ∈ file.eraseIdx i, Clean l := by
  rw [List.eraseIdx_map]
  have hself := List.map_inj_left (l := file.eraseIdx i) (f := memberLine u group) (g := id)
  rw [List.map_id] at hself
  rw [hself]
  exact forall₂_congr fun l hl => memberLine_eq_iff (hothers l hl)

/-- The list of the group in which the user stands last. -/
theorem joined_names (hms : ∀ m ∈ ms, MemberName m) (hnodup : ms.Nodup) (hu : MemberName u) :
    (∀ m ∈ ms.filter (· ≠ u) ++ [u], MemberName m) ∧ (ms.filter (· ≠ u) ++ [u]).Nodup := by
  constructor
  · intro m hm
    rcases List.mem_append.mp hm with hm | hm
    · exact hms m (List.mem_filter.mp hm).1
    · exact List.mem_singleton.mp hm ▸ hu
  · refine List.nodup_append.mpr ⟨hnodup.filter _, List.pairwise_singleton _ u, ?_⟩
    intro m hm u' hu' heq
    obtain rfl := List.mem_singleton.mp hu'
    exact of_decide_eq_true (List.mem_filter.mp hm).2 heq

theorem splitOn_joined (hms : ∀ m ∈ ms, MemberName m) (hnodup : ms.Nodup) (hu : MemberName u) :
    (memberList (ms.filter (· ≠ u) ++ [u])).splitOn ',' = ms.filter (· ≠ u) ++ [u] :=
  splitOn_memberList (fun m hm => ((joined_names hms hnodup hu).1 m hm).no_comma) (by simp)

theorem joins_iff {before : Bool} {file file' : List Text} {i : ℕ} (hms : ∀ m ∈ ms, MemberName m)
    (hnodup : ms.Nodup) (hu : MemberName u)
    (hmembers : membersAt file' i = (closeList before (addText u (memberList ms))).splitOn ',')
    (hothers : file'.eraseIdx i = file.eraseIdx i ↔ ∀ l ∈ file.eraseIdx i, Clean l) :
    Joins u ms i file file' ↔ u ∉ ms.drop (places before) ∧ ∀ l ∈ file.eraseIdx i, Clean l := by
  constructor
  · intro h
    refine ⟨fun hmem => h.no_empty ?_, hothers.mp h.others⟩
    rw [hmembers]
    exact closeList_of_mem hms hnodup hu hmem
  · rintro ⟨hnot, hclean⟩
    rw [closeList_of_not_mem hms hnodup hu hnot, splitOn_joined hms hnodup hu] at hmembers
    obtain ⟨hnames, hnodup'⟩ := joined_names hms hnodup hu
    refine ⟨fun m => ?_, hmembers ▸ hnodup', fun h => ?_, hothers.mpr hclean⟩
    · rw [hmembers, List.mem_append, List.mem_filter, List.mem_singleton, decide_eq_true_iff]
      by_cases hm : m = u
      · simp [hm]
      · simp [hm]
    · rw [hmembers] at h
      exact (hnames _ h).ne_nil rfl

/-- A user in a later place has other members before it. -/
theorem not_mem_drop (hnodup : ms.Nodup) {k : ℕ} (h : (ms.filter (· ≠ u)).length < k) : u ∉ ms.drop k := by
  intro hmem
  have hlength : k ≤ ms.length := by
    have hpos := List.length_pos_of_mem hmem
    rw [List.length_drop] at hpos
    omega
  have htake : u ∉ ms.take k := by
    rw [← List.take_append_drop k ms, List.nodup_append] at hnodup
    exact fun htake => hnodup.2.2 u htake u hmem rfl
  have hsub := ((List.take_sublist k ms).filter (· ≠ u)).length_le
  rw [filter_ne_of_not_mem htake, List.length_take, Nat.min_eq_left hlength] at hsub
  omega

theorem squeezed_id {c : Text} (hc : ':' ∉ c ∧ NoLead c) :
    (':' ∉ (if ',' ∈ c then squeeze c else c) ∧ NoLead (if ',' ∈ c then squeeze c else c)) ∧
      (',' ∈ (if ',' ∈ c then squeeze c else c) ↔ ',' ∈ c) := by
  split
  next h =>
    refine ⟨⟨fun hmem => hc.1 ((squeeze_sublist c).mem hmem), hc.2.squeeze⟩, ?_⟩
    exact iff_of_true (comma_mem_squeeze h) h
  next h => exact ⟨hc, Iff.rfl⟩

/-- The members of the line after one call, when this is right, and after two. -/
theorem membersAt_twice {file : List Text} {i : ℕ} {group b c : Text} (hg : MemberName group)
    (hu : MemberName u) (hms : ∀ m ∈ ms, MemberName m) (hnodup : ms.Nodup) (hb : ':' ∉ b ∧ ',' ∉ b)
    (hc : ':' ∉ c ∧ NoLead c) (hline : file[i]? = some (quad group b c (memberList ms)))
    (hnot : u ∉ ms.drop (places (',' ∈ c))) :
    membersAt (file.map (memberLine u group)) i = ms.filter (· ≠ u) ++ [u] ∧
      membersAt ((file.map (memberLine u group)).map (memberLine u group)) i =
        (closeList (',' ∈ c) (addText u (memberList (ms.filter (· ≠ u) ++ [u])))).splitOn ',' := by
  obtain ⟨hc₁, hcomma⟩ := squeezed_id hc
  have hd := memberList_no_colon hms
  have hself := memberLine_self hg hu hb hc hd
  have hlist := closeList_of_not_mem hms hnodup hu hnot
  rw [hlist] at hself
  have hd₁ := memberList_no_colon (joined_names hms hnodup hu).1
  have hline₁ := List.getElem?_map (f := memberLine u group) (l := file) (i := i)
  rw [hline, Option.map_some, hself] at hline₁
  have hself₁ := memberLine_self hg hu hb hc₁ hd₁
  rw [membersAt_map hline hself hg.no_colon hb.1 hc₁.1 hd₁, splitOn_joined hms hnodup hu,
    membersAt_map hline₁ hself₁ hg.no_colon hb.1 (squeezed_id hc₁).1.1
      (closeList_no_colon (addText_no_colon hu.no_colon hd₁))]
  simp only [hcomma, and_self]

end CargosBuildroot.Accounts
