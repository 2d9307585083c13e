import CargosBuildroot.Accounts.MemberList
import CargosBuildroot.Accounts.Spliced
import CargosBuildroot.Sed.Greedy

/-! The names as the patterns that they are in the `sed` scripts. A dot stands for any character;
other special characters are left out. For plain names the script does what it does with the
names taken literally. -/

namespace CargosBuildroot.Accounts

open Shell Store Sed

/-! ### Patterns -/

/-- The name matches the text; a dot stands for any character. -/
def Matches (name t : Text) : Prop := List.Forall₂ (fun p c => p = '.' ∨ p = c) name t

instance (name t : Text) : Decidable (Matches name t) :=
  inferInstanceAs (Decidable (List.Forall₂ _ _ _))

/-- `/^name:.*/`. -/
def hits (name l : Text) : Bool :=
  Matches name (l.take name.length) ∧ l[name.length]? = some ':'

/-- `^(group:.*:)`. -/
def groupPart (group p : Text) : Bool :=
  hits group p ∧ group.length + 2 ≤ p.length ∧ p.getLast? = some ':'

/-- `(([^:]+,)?)`. -/
def listPart (q : Text) : Bool := q = [] ∨ ':' ∉ q ∧ 2 ≤ q.length ∧ q.getLast? = some ','

/-- `(,[^:]+*)?$`. -/
def restPart (r : Text) : Bool := r = [] ∨ ':' ∉ r ∧ r.head? = some ','

/-- `username(,[^:]+*)?$` behind `\2`, replaced by `\2\4`. -/
def dropAt (username : Text) : Text × Text → Option Text := fun (q, t) =>
  if listPart q ∧ Matches username (t.take username.length) ∧ restPart (t.drop username.length) then
    some (q ++ t.drop username.length)
  else none

/-- `(([^:]+,)?)username(,[^:]+*)?$` behind `\1`, replaced by `\1\2\4`. -/
def dropBehind (username group : Text) : Text × Text → Option Text := fun (p, t) =>
  if groupPart group p then ((splits t).findSome? (dropAt username)).map (p ++ ·) else none

/-- `s/^(group:.*:)(([^:]+,)?)username(,[^:]+*)?$/\1\2\4/`. -/
def dropMatch (username group line : Text) : Text :=
  ((splits line).findSome? (dropBehind username group)).getD line

/-- `s/^(group:.*)$/\1,username/`. -/
def appendMatch (username group line : Text) : Text :=
  if hits group line then line ++ ',' :: username else line

/-- The four substitutions. -/
def memberMatch (username group line : Text) : Text :=
  trim (squeeze (appendMatch username group (dropMatch username group line)))

/-- The names as patterns. -/
def Spliced.pattern : Spliced := ⟨hits, memberMatch⟩


/-! ### What a pattern finds -/

variable {name line u group : Text}

theorem matches_self (name : Text) : Matches name name := List.forall₂_same.mpr fun _ _ => .inr rfl

theorem hits_iff : hits name line = true ↔ ∃ m rest, line = m ++ ':' :: rest ∧ Matches name m := by
  rw [hits, decide_eq_true_iff]
  constructor
  · rintro ⟨hm, hcolon⟩
    obtain ⟨hlength, hget⟩ := List.getElem?_eq_some_iff.mp hcolon
    refine ⟨line.take name.length, line.drop (name.length + 1), ?_, hm⟩
    rw [← hget, ← List.drop_eq_getElem_cons hlength, List.take_append_drop]
  · rintro ⟨m, rest, rfl, hm⟩
    have hlength := hm.length_eq
    rw [hlength, List.take_left, List.getElem?_append_right le_rfl, Nat.sub_self]
    exact ⟨hm, rfl⟩

theorem dropAt_some {q t w : Text} :
    dropAt u (q, t) = some w ↔
      ∃ m r, t = m ++ r ∧ Matches u m ∧ listPart q = true ∧ restPart r = true ∧ w = q ++ r := by
  rw [dropAt, Option.ite_none_right_eq_some, Option.some_inj]
  constructor
  · rintro ⟨⟨hq, hm, hr⟩, rfl⟩
    exact ⟨_, _, (List.take_append_drop u.length t).symm, hm, hq, hr, rfl⟩
  · rintro ⟨m, r, rfl, hm, hq, hr, rfl⟩
    have hlength := hm.length_eq
    rw [hlength, List.take_left, List.drop_left]
    exact ⟨⟨hq, hm, hr⟩, rfl⟩

theorem listPart_no_colon {q : Text} (h : listPart q = true) : ':' ∉ q := by
  rw [listPart, decide_eq_true_iff] at h
  rcases h with rfl | h
  · exact List.not_mem_nil
  · exact h.1

theorem restPart_no_colon {r : Text} (h : restPart r = true) : ':' ∉ r := by
  rw [restPart, decide_eq_true_iff] at h
  rcases h with rfl | h
  · exact List.not_mem_nil
  · exact h.1

theorem groupPart_iff {p : Text} :
    groupPart group p = true ↔ ∃ m y, p = m ++ ':' :: (y ++ [':']) ∧ Matches group m := by
  rw [groupPart, decide_eq_true_iff, hits_iff]
  constructor
  · rintro ⟨⟨m, rest, rfl, hm⟩, hlength, hlast⟩
    have hrest : rest ≠ [] := by
      rintro rfl
      rw [List.length_append, hm.length_eq, List.length_singleton] at hlength
      omega
    obtain ⟨c, rest, rfl⟩ := List.exists_cons_of_ne_nil hrest
    obtain ⟨y, hy⟩ : ∃ y, c :: rest = y ++ [':'] := by
      rw [← List.getLast?_eq_some_iff, ← hlast, List.getLast?_append_cons, List.getLast?_cons_cons]
    exact ⟨m, y, by rw [hy], hm⟩
  · rintro ⟨m, y, rfl, hm⟩
    refine ⟨⟨m, _, rfl, hm⟩, ?_, ?_⟩
    · rw [hm.length_eq]
      simp
    · rw [← List.cons_append, ← List.append_assoc, List.getLast?_concat]

/-- What the first substitution does. -/
theorem dropMatch_cases (u group line : Text) :
    dropMatch u group line = line ∨ ∃ p q m r, groupPart group p = true ∧ listPart q = true ∧
      Matches u m ∧ restPart r = true ∧ line = p ++ (q ++ (m ++ r)) ∧
        dropMatch u group line = p ++ (q ++ r) := by
  cases hfound : (splits line).findSome? (dropBehind u group) with
  | none => exact .inl (by rw [dropMatch, hfound, Option.getD_none])
  | some w =>
    obtain ⟨p, t, rfl, hw⟩ := exists_of_findSome_splits hfound
    obtain ⟨hp, hw⟩ := Option.ite_none_right_eq_some.mp hw
    obtain ⟨w', hw', rfl⟩ := Option.map_eq_some_iff.mp hw
    obtain ⟨q, t, rfl, hq⟩ := exists_of_findSome_splits hw'
    obtain ⟨m, r, rfl, hm, hlist, hr, rfl⟩ := dropAt_some.mp hq
    exact .inr ⟨p, q, m, r, hp, hlist, hm, hr, rfl, by rw [dropMatch, hfound, Option.getD_some]⟩

theorem dropMatch_of_not_hits {line : Text} (h : hits group line = false) : dropMatch u group line = line := by
  refine (dropMatch_cases u group line).resolve_right ?_
  rintro ⟨p, q, m, r, hp, -, -, -, rfl, -⟩
  obtain ⟨m', y, rfl, hm'⟩ := groupPart_iff.mp hp
  have hline : hits group (m' ++ ':' :: (y ++ [':']) ++ (q ++ (m ++ r))) = true :=
    hits_iff.mpr ⟨m', y ++ [':'] ++ (q ++ (m ++ r)), by simp, hm'⟩
  rw [h] at hline
  exact Bool.false_ne_true hline

/-- In the lines of other groups only the last two substitutions are made. -/
theorem memberMatch_other {line : Text} (h : hits group line = false) :
    memberMatch u group line = trim (squeeze line) := by
  rw [memberMatch, dropMatch_of_not_hits h, appendMatch, h, if_neg Bool.false_ne_true]

theorem exists_memberMatch (u group : Text) {a : Text} (ha : ':' ∉ a) (b : Text) :
    ∃ b', memberMatch u group (a ++ ':' :: b) = squeeze a ++ ':' :: b' := by
  have hdrop : ∃ b', dropMatch u group (a ++ ':' :: b) = a ++ ':' :: b' := by
    rcases dropMatch_cases u group (a ++ ':' :: b) with h | ⟨p, q, m, r, hp, -, -, -, hline, h⟩
    · exact ⟨b, h⟩
    · -- the first field lies in the first part
      have hmem : ':' ∈ p := by
        obtain ⟨m', y, rfl, -⟩ := groupPart_iff.mp hp
        simp
      rcases List.append_eq_append_iff.mp hline with ⟨s, rfl, hs⟩ | ⟨s, rfl, -⟩
      · cases s with
        | nil =>
          rw [List.append_nil] at hmem
          exact absurd hmem ha
        | cons c s =>
          obtain ⟨rfl, -⟩ := List.cons.inj hs
          exact ⟨s ++ (q ++ r), by rw [h, List.append_assoc, List.cons_append]⟩
      · exact absurd (List.mem_append_left s hmem) ha
  obtain ⟨b₁, h₁⟩ := hdrop
  obtain ⟨b₂, h₂⟩ : ∃ b', appendMatch u group (a ++ ':' :: b₁) = a ++ ':' :: b' := by
    rw [appendMatch]
    split
    · exact ⟨b₁ ++ ',' :: u, by simp⟩
    · exact ⟨b₁, rfl⟩
  obtain ⟨b₃, h₃⟩ := exists_trim_squeeze ha b₂
  exact ⟨b₃, by rw [memberMatch, h₁, h₂, h₃]⟩

theorem memberMatch_of_no_colon (u group : Text) {line : Text} (h : ':' ∉ line) :
    memberMatch u group line = squeeze line := by
  have hnone : hits group line = false := by
    by_contra hhit
    obtain ⟨m, rest, rfl, -⟩ := hits_iff.mp (by simpa using hhit)
    simp at h
  have hs : ':' ∉ squeeze line := fun hm => h ((squeeze_sublist line).mem hm)
  rw [memberMatch_other hnone, trim_of_no_colon hs]

/-- Only the commas of the first field may change. -/
theorem field_one_memberMatch (u group line : Text) :
    field 1 (memberMatch u group line) = squeeze (field 1 line) := by
  by_cases hcolon : ':' ∈ line
  · obtain ⟨a, b, rfl, ha⟩ := List.eq_append_cons_of_mem hcolon
    obtain ⟨b', hb'⟩ := exists_memberMatch u group ha b
    have ha' : ':' ∉ squeeze a := fun h => ha ((squeeze_sublist a).mem h)
    rw [hb', field_one ha' (hasName_line _ _), field_one ha (hasName_line _ _)]
  · have hs : ':' ∉ squeeze line := fun hm => hcolon ((squeeze_sublist line).mem hm)
    rw [memberMatch_of_no_colon u group hcolon]
    simp [field, fields_of_not_mem hcolon, fields_of_not_mem hs]

/-! ### The part of a line that names select -/

/-- The text up to the last colon. -/
def head (line : Text) : Text := line.rdropWhile (· ≠ ':')

theorem head_eq (a : Text) {b : Text} (hb : ':' ∉ b) : head (a ++ ':' :: b) = a ++ [':'] := by
  induction b using List.reverseRecOn with
  | nil => exact List.rdropWhile_concat_neg _ _ _ (by simp)
  | append_singleton b c ih =>
    rw [List.mem_append, not_or, List.mem_singleton] at hb
    rw [head, ← List.cons_append, ← List.append_assoc,
      List.rdropWhile_concat_pos _ _ _ (by simpa using Ne.symm hb.2)]
    exact ih hb.1

theorem head_of_not_mem {line : Text} (h : ':' ∉ line) : head line = [] :=
  List.rdropWhile_eq_nil_iff.mpr fun _ hc => decide_eq_true fun heq => h (heq ▸ hc)

theorem head_append (a b : Text) : ∃ c, head (a ++ ':' :: b) = a ++ ':' :: c := by
  by_cases hb : ':' ∈ b
  · obtain ⟨x, y, rfl, hy⟩ := exists_last hb
    refine ⟨x ++ [':'], ?_⟩
    rw [← List.cons_append, ← List.append_assoc, head_eq _ hy, List.append_assoc, List.cons_append]
  · exact ⟨[], head_eq a hb⟩

/-- A name selects a line by its head. -/
theorem hits_head (name line : Text) : hits name (head line) = hits name line := by
  rw [Bool.eq_iff_iff, hits_iff, hits_iff]
  constructor
  · rintro ⟨m, rest, hhead, hm⟩
    obtain ⟨t, ht⟩ := List.rdropWhile_prefix (p := (· ≠ ':')) line
    refine ⟨m, rest ++ t, ?_, hm⟩
    rw [← ht, ← head, hhead, List.append_assoc, List.cons_append]
  · rintro ⟨m, rest, rfl, hm⟩
    obtain ⟨c, hc⟩ := head_append m rest
    exact ⟨m, c, hc, hm⟩

theorem head_squeeze (line : Text) : (head (squeeze line)).Sublist (head line) := by
  by_cases hline : ':' ∈ line
  · obtain ⟨a, b, rfl, hb⟩ := exists_last hline
    have hb' : ':' ∉ squeeze b := fun h => hb ((squeeze_sublist b).mem h)
    rw [squeeze_colon, head_eq a hb]
    split
    · rw [head_eq _ hb]
      exact (squeeze_sublist a).append (.refl _)
    · rw [head_eq _ hb']
  · rw [head_of_not_mem fun h => hline ((squeeze_sublist line).mem h)]
    exact List.nil_sublist _

theorem trim_last (a : Text) {b : Text} (hb : ':' ∉ b) :
    ∃ a' b', a'.Sublist a ∧ ':' ∉ b' ∧ trim (a ++ ':' :: b) = a' ++ ':' :: b' := by
  induction a with
  | nil => exact ⟨[], dropLead b, .slnil, fun h => hb ((dropLead_sublist b).mem h), trim_text hb⟩
  | cons c a ih =>
    obtain ⟨a', b', hsub, hb', h⟩ := ih
    by_cases hcut : c = ':' ∧ ∃ t, a = ',' :: t
    · obtain ⟨rfl, t, rfl⟩ := hcut
      exact ⟨':' :: t, b, (List.sublist_cons_self _ _).cons_cons _, hb, rfl⟩
    · refine ⟨c :: a', b', hsub.cons_cons c, hb', ?_⟩
      by_cases hc : c = ':'
      · subst hc
        have hne : ∀ t, a ++ ':' :: b ≠ ',' :: t := by
          intro t ht
          cases a with
          | nil => simp at ht
          | cons d a => exact hcut ⟨rfl, a, by rw [(List.cons.inj ht).1]⟩
        rw [List.cons_append, trim_colon hne, h, List.cons_append]
      · rw [List.cons_append, trim_cons hc, h, List.cons_append]

theorem head_trim (line : Text) : (head (trim line)).Sublist (head line) := by
  by_cases hline : ':' ∈ line
  · obtain ⟨a, b, rfl, hb⟩ := exists_last hline
    obtain ⟨a', b', hsub, hb', h⟩ := trim_last a hb
    rw [h, head_eq _ hb', head_eq _ hb]
    exact hsub.append (.refl _)
  · rw [head_of_not_mem fun h => hline ((trim_sublist line).mem h)]
    exact List.nil_sublist _

/-- An edit makes the head of a line shorter, or leaves it. -/
theorem head_memberMatch (hu : ':' ∉ u) (group line : Text) :
    (head (memberMatch u group line)).Sublist (head line) := by
  refine (head_trim _).trans ((head_squeeze _).trans ?_)
  have happend : ∀ line, hits group line = true → head (line ++ ',' :: u) = head line := by
    intro line h
    obtain ⟨m, rest, rfl, -⟩ := hits_iff.mp h
    obtain ⟨a, b, hab, hb⟩ := exists_last (c := ':') (t := m ++ ':' :: rest) (by simp)
    have hb' : ':' ∉ b ++ ',' :: u := by simp [hb, hu]
    rw [hab, List.append_assoc, List.cons_append, head_eq a hb', head_eq a hb]
  have hdrop : (head (dropMatch u group line)).Sublist (head line) := by
    rcases dropMatch_cases u group line with h | ⟨p, q, m, r, hp, hq, -, hr, rfl, h⟩
    · rw [h]
    · obtain ⟨m', y, rfl, -⟩ := groupPart_iff.mp hp
      have hqr : ':' ∉ q ++ r := by simp [listPart_no_colon hq, restPart_no_colon hr]
      obtain ⟨c, hc⟩ := head_append (m' ++ ':' :: y) (q ++ (m ++ r))
      have hend := head_eq (m' ++ ':' :: y) hqr
      simp only [List.append_assoc, List.cons_append, List.nil_append] at hc hend h ⊢
      rw [h, hend, hc]
      exact (List.Sublist.refl _).append ((List.Sublist.refl _).cons_cons _ |>.trans (by simp))
  rw [appendMatch]
  split
  · rename_i h
    rw [happend _ h]
    exact hdrop
  · exact hdrop

/-! ### Names without a dot -/

theorem matches_iff_eq {t : Text} (h : '.' ∉ name) : Matches name t ↔ name = t := by
  constructor
  · intro hm
    induction hm with
    | nil => rfl
    | @cons p c ps t hpc _ ih =>
      rw [List.mem_cons, not_or] at h
      rw [hpc.resolve_left (Ne.symm h.1), ih h.2]
  · rintro rfl
    exact matches_self name

theorem hits_eq_hasName (h : '.' ∉ name) : hits name = hasName name := by
  funext line
  rw [Bool.eq_iff_iff, hits_iff, hasName_iff]
  constructor
  · rintro ⟨m, rest, rfl, hm⟩
    exact ⟨rest, by rw [(matches_iff_eq h).mp hm]⟩
  · rintro ⟨rest, rfl⟩
    exact ⟨name, rest, rfl, (matches_iff_eq h).mpr rfl⟩

/-- The last member that is blanked, or none. -/
theorem blankLast_cases (hu : u ≠ []) (rs : List Text) :
    (∃ l₁ l₂, rs = l₁ ++ u :: l₂ ∧ u ∉ l₁ ∧ l₂ ≠ [[]] ∧ blankLast u rs = l₁ ++ [] :: l₂) ∨
      blankLast u rs = rs ∧ ∀ l₁ l₂, rs = l₁ ++ u :: l₂ → l₂ = [[]] := by
  induction rs with
  | nil => exact .inr ⟨rfl, by simp⟩
  | cons m before ih =>
    by_cases hm : m = u ∧ before ≠ [[]]
    · obtain ⟨rfl, hbefore⟩ := hm
      exact .inl ⟨[], before, rfl, List.not_mem_nil, hbefore, by rw [blankLast, if_pos ⟨rfl, hbefore⟩]; rfl⟩
    · have hnext : blankLast u (m :: before) = m :: blankLast u before := by rw [blankLast, if_neg hm]
      rcases ih with ⟨l₁, l₂, hsplit, hnot, hne, heq⟩ | ⟨heq, hlast⟩
      · refine .inl ⟨m :: l₁, l₂, by rw [hsplit]; rfl, ?_, hne, by rw [hnext, heq]; rfl⟩
        rw [List.mem_cons, not_or]
        refine ⟨?_, hnot⟩
        rintro rfl
        have hone : before = [[]] := by simpa using hm
        rw [hsplit] at hone
        have hmem : u ∈ ([[]] : List Text) := hone ▸ List.mem_append_right _ (.head _)
        exact hu (List.mem_singleton.mp hmem)
      · refine .inr ⟨by rw [hnext, heq], ?_⟩
        intro l₁ l₂ hsplit
        cases l₁ with
        | nil =>
          obtain ⟨rfl, rfl⟩ := List.cons.inj hsplit
          simpa using hm
        | cons m' l₁ =>
          obtain ⟨-, hsplit⟩ := List.cons.inj hsplit
          exact hlast l₁ l₂ hsplit

/-- The text before and behind a member. -/
def before (ms : List Text) : Text := ms.flatMap (· ++ [','])

def behind (ms : List Text) : Text := ms.flatMap (',' :: ·)

theorem behind_cons (m : Text) (ms : List Text) : behind (m :: ms) = ',' :: (m ++ behind ms) := by
  simp [behind]

theorem memberList_behind (m : Text) (ms : List Text) : memberList (m :: ms) = m ++ behind ms := by
  induction ms generalizing m with
  | nil => simp [memberList, behind]
  | cons m' ms ih =>
    rw [memberList_cons (List.cons_ne_nil _ _), ih, behind_cons]

theorem memberList_around (ms₁ : List Text) (m : Text) (ms₂ : List Text) :
    memberList (ms₁ ++ m :: ms₂) = before ms₁ ++ (m ++ behind ms₂) := by
  induction ms₁ with
  | nil => exact memberList_behind m ms₂
  | cons m' ms₁ ih =>
    rw [List.cons_append, memberList_cons (by simp), ih, before, before, List.flatMap_cons]
    simp

theorem before_eq {ms : List Text} (h : ms ≠ []) : before ms = memberList ms ++ [','] := by
  obtain ⟨ms, m, rfl⟩ := List.eq_nil_or_concat' ms |>.resolve_left h
  rw [memberList_around, before, List.flatMap_append]
  simp [before, behind]

theorem behind_eq {ms : List Text} (h : ms ≠ []) : behind ms = ',' :: memberList ms := by
  obtain ⟨m, ms, rfl⟩ := List.exists_cons_of_ne_nil h
  rw [memberList_behind, behind_cons]

theorem memberList_eq_nil {ms : List Text} : memberList ms = [] ↔ ms = [] ∨ ms = [[]] := by
  match ms with
  | [] => simp [memberList]
  | [m] => simp [memberList]
  | m :: m' :: ms => simp [memberList_cons]

theorem memberList_splitOn (d : Text) : memberList (d.splitOn ',') = d :=
  List.intercalate_splitOn ','

/-- A member that starts the text, or stands behind a comma. -/
theorem splitOn_member {m r : Text} (hm : ',' ∉ m) (hr : restPart r = true) :
    ∃ ms, (m ++ r).splitOn ',' = m :: ms ∧ r = behind ms := by
  rw [restPart, decide_eq_true_iff] at hr
  rcases hr with rfl | ⟨-, hhead⟩
  · exact ⟨[], by rw [List.append_nil, List.splitOn_eq_singleton hm], rfl⟩
  · obtain ⟨t, rfl⟩ : ∃ t, r = ',' :: t := by
      cases r with
      | nil => simp at hhead
      | cons c t => exact ⟨t, by rw [Option.some.inj hhead]⟩
    refine ⟨t.splitOn ',', List.splitOn_append_cons_self_of_not_mem hm t, ?_⟩
    rw [behind_eq (List.splitOn_ne_nil _ _), memberList_splitOn]

/-- Where the pattern can match, the user is a member with others before it. -/
theorem dropAt_member (hu : MemberName u) (hdot : '.' ∉ u) {q t w : Text} (h : dropAt u (q, t) = some w) :
    ∃ ms₁ ms₂, (q ++ t).splitOn ',' = ms₁ ++ u :: ms₂ ∧ ms₁ ≠ [[]] ∧ q = before ms₁ ∧ t = u ++ behind ms₂ := by
  obtain ⟨m, r, rfl, hm, hq, hr, rfl⟩ := dropAt_some.mp h
  obtain rfl := (matches_iff_eq hdot).mp hm
  obtain ⟨ms, hms, hbehind⟩ := splitOn_member hu.no_comma hr
  rw [listPart, decide_eq_true_iff] at hq
  rcases hq with rfl | ⟨-, hlength, hlast⟩
  · exact ⟨[], ms, hms, by simp, rfl, by rw [hbehind]⟩
  · obtain ⟨x, rfl⟩ := List.getLast?_eq_some_iff.mp hlast
    have hx : x ≠ [] := by
      rintro rfl
      simp at hlength
    refine ⟨x.splitOn ',', ms, ?_, ?_, ?_, by rw [hbehind]⟩
    · rw [List.append_assoc, List.singleton_append, List.splitOn_append_cons_self, hms]
    · intro hone
      refine hx ?_
      rw [← memberList_splitOn x, hone]
      rfl
    · rw [before_eq (List.splitOn_ne_nil _ _), memberList_splitOn]

theorem dropAt_eq (hdot : '.' ∉ u) {ms₁ ms₂ : List Text}
    (hcolon : ':' ∉ memberList (ms₁ ++ u :: ms₂)) (hne : ms₁ ≠ [[]]) :
    dropAt u (before ms₁, u ++ behind ms₂) = some (before ms₁ ++ behind ms₂) := by
  rw [memberList_around] at hcolon
  simp only [List.mem_append, not_or] at hcolon
  refine dropAt_some.mpr ⟨u, behind ms₂, rfl, (matches_iff_eq hdot).mpr rfl, ?_, ?_, rfl⟩
  · rw [listPart, decide_eq_true_iff]
    by_cases h : ms₁ = []
    · exact .inl (by rw [h]; rfl)
    · refine .inr ⟨hcolon.1, ?_, ?_⟩
      · have hpos := List.length_pos_of_ne_nil (mt memberList_eq_nil.mp (not_or.mpr ⟨h, hne⟩))
        rw [before_eq h, List.length_append, List.length_singleton]
        omega
      · rw [before_eq h, List.getLast?_concat]
  · rw [restPart, decide_eq_true_iff]
    by_cases h : ms₂ = []
    · exact .inl (by rw [h]; rfl)
    · exact .inr ⟨hcolon.2.2, by rw [behind_eq h]; rfl⟩

/-- The last place of a name has the longest text before it. -/
theorem length_before_le {ms₁ ms₂ l₁ l₂ : List Text} (h : ms₁ ++ u :: ms₂ = l₁ ++ u :: l₂) (hnot : u ∉ l₂) :
    (before ms₁).length ≤ (before l₁).length := by
  rcases List.append_eq_append_iff.mp h with ⟨s, rfl, -⟩ | ⟨s, rfl, hs⟩
  · rw [before, before, List.flatMap_append, List.length_append]
    omega
  · cases s with
    | nil => rw [List.append_nil]
    | cons m s =>
      obtain ⟨-, rfl⟩ := List.cons.inj hs
      exact absurd (List.mem_append_right _ (.head _)) hnot

/-- The substitution blanks the last member of the name. -/
theorem drop_members (hu : MemberName u) (hdot : '.' ∉ u) {d : Text} (hd : ':' ∉ d) :
    ((splits d).findSome? (dropAt u)).getD d =
      memberList (blankLast u (d.splitOn ',').reverse).reverse := by
  have hmatch : ∀ {x y}, x ++ y = d → dropAt u (x, y) ≠ none →
      ∃ ms₁ ms₂, d.splitOn ',' = ms₁ ++ u :: ms₂ ∧ ms₁ ≠ [[]] ∧ x = before ms₁ := by
    rintro x y rfl hsome
    obtain ⟨w, hw⟩ := Option.ne_none_iff_exists'.mp hsome
    obtain ⟨ms₁, ms₂, hmem, hne, hx, -⟩ := dropAt_member hu hdot hw
    exact ⟨ms₁, ms₂, hmem, hne, hx⟩
  rcases blankLast_cases hu.ne_nil (d.splitOn ',').reverse with ⟨l₁, l₂, hsplit, hnot, hne, heq⟩ | ⟨heq, hlast⟩
  · have hms : d.splitOn ',' = l₂.reverse ++ u :: l₁.reverse := by
      rw [← List.reverse_reverse (d.splitOn ','), hsplit]
      simp
    have hne' : l₂.reverse ≠ [[]] := fun h => hne (by rw [← List.reverse_reverse l₂, h]; rfl)
    have hd' : d = before l₂.reverse ++ (u ++ behind l₁.reverse) := by
      rw [← memberList_around, ← hms, memberList_splitOn]
    have hcolon : ':' ∉ memberList (l₂.reverse ++ u :: l₁.reverse) := by rwa [← hms, memberList_splitOn]
    have hfound := findSome_splits (dropAt_eq hdot hcolon hne') fun x y hxy hlength => ?_
    · rw [← hd'] at hfound
      rw [hfound, Option.getD_some, heq]
      simp only [List.reverse_append, List.reverse_cons, List.append_assoc, List.singleton_append]
      rw [memberList_around, List.nil_append]
    · -- a longer part would have the user behind its last place
      by_contra hsome
      obtain ⟨ms₁, ms₂, hmem, -, rfl⟩ := hmatch (hxy.trans hd'.symm) hsome
      rw [hms] at hmem
      have hle := length_before_le hmem.symm (mt List.mem_reverse.mp hnot)
      omega
  · have hnone : (splits d).findSome? (dropAt u) = none := by
      refine findSome_splits_eq_none fun x y hxy => ?_
      by_contra hsome
      obtain ⟨ms₁, ms₂, hmem, hne, -⟩ := hmatch hxy hsome
      have hone := hlast ms₂.reverse ms₁.reverse (by rw [hmem]; simp)
      exact hne (by rw [← List.reverse_reverse ms₁, hone]; rfl)
    rw [hnone, Option.getD_none, heq, List.reverse_reverse, memberList_splitOn]


/-- The substitution on the last field. -/
theorem dropMember_last {a b : Text} (hline : hasName group (a ++ ':' :: b) = true) (ha : ':' ∈ a)
    (hb : ':' ∉ b) : dropMember u group (a ++ ':' :: b) =
      a ++ ':' :: memberList (blankLast u (b.splitOn ',').reverse).reverse := by
  have hfields : fields (a ++ ':' :: b) = fields a ++ [b] := by
    rw [fields, List.splitOn_append_cons_self, List.splitOn_eq_singleton hb, fields]
  have hlength : 2 ≤ (fields a).length := by
    obtain ⟨a₁, a₂, rfl, ha₁⟩ := List.eq_append_cons_of_mem ha
    have hpos := List.length_pos_of_ne_nil (List.splitOn_ne_nil ':' a₂)
    rw [fields_cons ha₁, List.length_cons, fields]
    omega
  rw [dropMember, if_pos ⟨hline, by rw [hfields, List.length_append, List.length_singleton]; omega⟩, hfields]
  simp only [List.dropLast_concat, List.getLastD_concat]
  rw [fields, intercalate_concat (List.splitOn_ne_nil _ _), List.intercalate_splitOn]
  rfl

/-- The pattern cannot match over a colon. -/
theorem findSome_dropAt_colon (hu : MemberName u) (hdot : '.' ∉ u) {t : Text} (ht : ':' ∈ t) :
    (splits t).findSome? (dropAt u) = none := by
  refine findSome_splits_eq_none fun q y hqy => ?_
  by_contra hsome
  obtain ⟨w, hw⟩ := Option.ne_none_iff_exists'.mp hsome
  obtain ⟨m, r, rfl, hm, hq, hr, -⟩ := dropAt_some.mp hw
  obtain rfl := (matches_iff_eq hdot).mp hm
  rw [← hqy] at ht
  simp only [List.mem_append, listPart_no_colon hq, restPart_no_colon hr, hu.no_colon, or_self] at ht

theorem dropBehind_some {p t w : Text} (h : dropBehind u group (p, t) = some w) :
    groupPart group p = true ∧ (splits t).findSome? (dropAt u) ≠ none := by
  rw [dropBehind] at h
  split at h
  · rename_i hp
    refine ⟨hp, fun hnone => ?_⟩
    rw [hnone] at h
    exact Option.some_ne_none _ h.symm
  · exact absurd h.symm (Option.some_ne_none _)

theorem dropMatch_of_none {line : Text} (h : ∀ p t, p ++ t = line → groupPart group p = true →
    (splits t).findSome? (dropAt u) = none) : dropMatch u group line = line := by
  rw [dropMatch, findSome_splits_eq_none, Option.getD_none]
  intro p t hpt
  by_contra hsome
  obtain ⟨w, hw⟩ := Option.ne_none_iff_exists'.mp hsome
  obtain ⟨hp, hne⟩ := dropBehind_some hw
  exact hne (h p t hpt hp)

theorem last_eq_colon {a s t : Text} {c : Char} (h : a ++ [':'] = t ++ (s ++ [c])) : c = ':' := by
  have hlast := congrArg List.getLast? h
  rw [← List.append_assoc, List.getLast?_concat, List.getLast?_concat] at hlast
  exact (Option.some.inj hlast).symm

/-- No part of the line that reaches into the last field ends at a colon. -/
theorem groupPart_of_longer {a b p t : Text} (hb : ':' ∉ b) (h : p ++ t = a ++ [':'] ++ b)
    (hlength : (a ++ [':']).length < p.length) : groupPart group p = false := by
  by_contra hp
  rw [Bool.not_eq_false] at hp
  obtain ⟨m, y, rfl, -⟩ := groupPart_iff.mp hp
  rcases List.append_eq_append_iff.mp h with ⟨s, hs, -⟩ | ⟨s, hs, rfl⟩
  · have hle := (List.prefix_append (m ++ ':' :: (y ++ [':'])) s).length_le
    rw [← hs] at hle
    omega
  · cases s using List.reverseRecOn with
    | nil =>
      rw [List.append_nil] at hs
      rw [hs] at hlength
      exact absurd hlength (lt_irrefl _)
    | append_singleton s c =>
      have htext : m ++ ':' :: y ++ [':'] = a ++ [':'] ++ (s ++ [c]) := by simpa using hs
      rw [last_eq_colon htext] at hb
      simp at hb

/-- A line with a third field, the last one of which is `b`. -/
theorem dropMatch_last (hu : MemberName u) (hdot : '.' ∉ u) (hgdot : '.' ∉ group) (x : Text) {b : Text}
    (hb : ':' ∉ b) : dropMatch u group (group ++ ':' :: x ++ ':' :: b) =
      group ++ ':' :: x ++ ':' :: ((splits b).findSome? (dropAt u)).getD b := by
  have hline : ∀ b, group ++ ':' :: x ++ ':' :: b = (group ++ ':' :: x ++ [':']) ++ b := by simp
  have hend : groupPart group (group ++ ':' :: x ++ [':']) = true :=
    groupPart_iff.mpr ⟨group, x, by simp, (matches_iff_eq hgdot).mpr rfl⟩
  rw [hline b, hline (((splits b).findSome? (dropAt u)).getD b)]
  cases hfound : (splits b).findSome? (dropAt u) with
  | some w =>
    have hhere : dropBehind u group (group ++ ':' :: x ++ [':'], b) =
        some ((group ++ ':' :: x ++ [':']) ++ w) := by
      rw [dropBehind, if_pos hend, hfound, Option.map_some]
    rw [dropMatch, findSome_splits hhere, Option.getD_some, Option.getD_some]
    intro p t hpt hlength
    rw [dropBehind, groupPart_of_longer hb hpt hlength, if_neg Bool.false_ne_true]
  | none =>
    refine dropMatch_of_none fun p t hpt hp => ?_
    rcases List.append_eq_append_iff.mp hpt with ⟨s, hs, rfl⟩ | ⟨s, rfl, rfl⟩
    · -- a shorter first part leaves a colon
      cases s using List.reverseRecOn with
      | nil => exact hfound
      | append_singleton s c =>
        rw [last_eq_colon hs]
        exact findSome_dropAt_colon hu hdot (by simp)
    · cases s with
      | nil => exact hfound
      | cons c s =>
        rw [groupPart_of_longer hb (List.append_assoc _ _ _) (by simp)] at hp
        exact absurd hp Bool.false_ne_true

/-- Without dots the pattern works on the last field of the line, if there are three. -/
theorem dropMatch_eq (hu : MemberName u) (hdot : '.' ∉ u) (hg : ':' ∉ group) (hgdot : '.' ∉ group)
    (line : Text) : dropMatch u group line = dropMember u group line := by
  by_cases hthree : ∃ x b, line = group ++ ':' :: x ++ ':' :: b ∧ ':' ∉ b
  · obtain ⟨x, b, rfl, hb⟩ := hthree
    have hname : hasName group (group ++ ':' :: x ++ ':' :: b) = true := by
      rw [List.append_assoc]
      exact hasName_line _ _
    rw [dropMember_last hname (by simp) hb, ← drop_members hu hdot hb, dropMatch_last hu hdot hgdot x hb]
  · have hshort : ∀ x y, line ≠ group ++ ':' :: (x ++ ':' :: y) := by
      rintro x y rfl
      obtain ⟨a, b, hab, hb⟩ := exists_last (c := ':') (t := x ++ ':' :: y) (by simp)
      exact hthree ⟨a, b, by rw [hab]; simp, hb⟩
    have hmatch : dropMatch u group line = line := by
      refine dropMatch_of_none fun p t hpt hp => ?_
      obtain ⟨m, y, rfl, hm⟩ := groupPart_iff.mp hp
      obtain rfl := (matches_iff_eq hgdot).mp hm
      exact absurd (by rw [← hpt]; simp) (hshort y t)
    have hmember : dropMember u group line = line := by
      refine if_neg ?_
      rintro ⟨hname, hlength⟩
      obtain ⟨rest, rfl⟩ := hasName_iff.mp hname
      rw [fields_cons hg] at hlength
      by_cases hcolon : ':' ∈ rest
      · obtain ⟨x, y, rfl⟩ := List.append_of_mem hcolon
        exact hshort x y rfl
      · rw [fields_of_not_mem hcolon] at hlength
        simp at hlength
    rw [hmatch, hmember]

theorem memberMatch_eq (hu : MemberName u) (hdot : '.' ∉ u) (hg : ':' ∉ group) (hgdot : '.' ∉ group) :
    memberMatch u group = memberLine u group := by
  funext line
  rw [memberMatch, memberLine, dropMatch_eq hu hdot hg hgdot, appendMatch, appendMember,
    hits_eq_hasName hgdot]

/-! ### The edit of a list of members -/

/-- A name that stands for itself in a `sed` script and in a list of members. -/
structure LiteralName (name : Text) : Prop extends MemberName name where
  literal : ∀ c ∈ name, c ∉ ".*[]^$+?(){}|/&\\\n".toList

theorem LiteralName.no_dot {name : Text} (h : LiteralName name) : '.' ∉ name :=
  fun hmem => h.literal '.' hmem (by decide)

theorem addUserToGroup_lines {s : Target} {f : File} {file : List Text} (hu : LiteralName u)
    (hg : LiteralName group) (hfile : s.lines f = some file) :
    ∃ t, Spliced.pattern.addUserToGroup u group s = .ok t ∧
      t.lines f = some (file.map (memberLine u group)) := by
  have hmember : Spliced.pattern.member u group = memberLine u group :=
    memberMatch_eq hu.toMemberName hu.no_dot hg.no_colon hg.no_dot
  refine ⟨_, rfl, ?_⟩
  rw [hmember]
  cases f with
  | group => exact congrArg (Option.map (List.map (memberLine u group))) hfile
  | gshadow => exact congrArg (Option.map (List.map (memberLine u group))) hfile

/-- For every file, every line of a group with distinct members and every user, with names that the
scripts take literally: the line gets the user and the other lines stay if and only if the user is not a
later member than the second one (the first one, if a comma stands before the list), and the other
lines are clean. A second call keeps the members as well if and only if there is at most one other
member (none). -/
theorem addUserToGroup_iff {s : Target} {f : File} {file : List Text} {i : ℕ} {ms : List Text} {b c : Text}
    (hg : LiteralName group) (hu : LiteralName u) (hms : ∀ m ∈ ms, MemberName m) (hnodup : ms.Nodup)
    (hb : ':' ∉ b ∧ ',' ∉ b) (hc : ':' ∉ c ∧ NoLead c) (hfile : s.lines f = some file)
    (hline : file[i]? = some (quad group b c (memberList ms)))
    (hothers : ∀ l ∈ file.eraseIdx i, hasName group l = false) :
    ∃ t₁ t₂ file₁ file₂, Spliced.pattern.addUserToGroup u group s = .ok t₁ ∧ t₁.lines f = some file₁ ∧
      Spliced.pattern.addUserToGroup u group t₁ = .ok t₂ ∧ t₂.lines f = some file₂ ∧
      (Joins u ms i file file₁ ↔
        u ∉ ms.drop (places (',' ∈ c)) ∧ ∀ l ∈ file.eraseIdx i, Clean l) ∧
      (Joins u ms i file file₁ ∧ (∀ m, m ∈ membersAt file₂ i ↔ m ∈ membersAt file₁ i) ↔
        (ms.filter (· ≠ u)).length < places (',' ∈ c) ∧ ∀ l ∈ file.eraseIdx i, Clean l) := by
  obtain ⟨t₁, ht₁, hfile₁⟩ := addUserToGroup_lines hu hg hfile
  obtain ⟨t₂, ht₂, hfile₂⟩ := addUserToGroup_lines hu hg hfile₁
  refine ⟨t₁, t₂, _, _, ht₁, hfile₁, ht₂, hfile₂, ?_⟩
  replace hg := hg.toMemberName
  replace hu := hu.toMemberName
  have hd := memberList_no_colon hms
  have hcolon : ':' ∉ closeList (',' ∈ c) (addText u (memberList ms)) :=
    closeList_no_colon (addText_no_colon hu.no_colon hd)
  have hmembers := membersAt_map hline (memberLine_self hg hu hb hc hd) hg.no_colon hb.1
    (squeezed_id hc).1.1 hcolon
  have hjoins := joins_iff hms hnodup hu hmembers (eraseIdx_map_memberLine hothers)
  refine ⟨hjoins, ?_⟩
  rw [hjoins]
  obtain ⟨hnames, hnodup₁⟩ := joined_names hms hnodup hu
  constructor
  · rintro ⟨⟨hnot, hclean⟩, hsame⟩
    refine ⟨?_, hclean⟩
    by_contra hlength
    obtain ⟨hfirst, hagain⟩ := membersAt_twice hg hu hms hnodup hb hc hline hnot
    have hmem : u ∈ (ms.filter (· ≠ u) ++ [u]).drop (places (',' ∈ c)) := by
      rw [List.drop_append_of_le_length (by omega)]
      exact List.mem_append_right _ (.head _)
    have hempty := closeList_of_mem hnames hnodup₁ hu hmem
    rw [← hagain, hsame, hfirst] at hempty
    exact (hnames _ hempty).ne_nil rfl
  · rintro ⟨hlength, hclean⟩
    have hnot := not_mem_drop hnodup hlength
    obtain ⟨hfirst, hagain⟩ := membersAt_twice hg hu hms hnodup hb hc hline hnot
    have hnot₁ : u ∉ (ms.filter (· ≠ u) ++ [u]).drop (places (',' ∈ c)) := by
      rw [List.drop_eq_nil_of_le (by rw [List.length_append, List.length_singleton]; omega)]
      exact List.not_mem_nil
    refine ⟨⟨hnot, hclean⟩, fun m => ?_⟩
    rw [hfirst, hagain, closeList_of_not_mem hnames hnodup₁ hu hnot₁, splitOn_joined hnames hnodup₁ hu]
    by_cases hm : m = u
    · simp [hm]
    · simp [hm]

/-- The groups with `root`, `adm` and `web` in `wheel`. -/
def wheelFiles : Target where
  passwd := []
  shadow := []
  group := ["root:x:0:".toList, "wheel:x:10:root,adm,web".toList]

/-- Adding `web` to `wheel`, in which it stands third, leaves a blank. -/
theorem addUserToGroup_wheel :
    ∃ t, Spliced.pattern.addUserToGroup "web".toList "wheel".toList wheelFiles = .ok t ∧
      ¬ Joins "web".toList ["root".toList, "adm".toList, "web".toList] 1 wheelFiles.group t.group := by
  refine ⟨_, rfl, fun h => h.no_empty ?_⟩
  decide +kernel

theorem literalName_of {name : Text} (h : name ≠ [] ∧ ':' ∉ name ∧ ',' ∉ name ∧
    ∀ c ∈ name, c ∉ ".*[]^$+?(){}|/&\\\n".toList) : LiteralName name :=
  ⟨⟨h.1, h.2.1, h.2.2.1⟩, h.2.2.2⟩

theorem addUserToGroup_root :
    ∃ t₁ t₂ file₁ file₂,
      Spliced.pattern.addUserToGroup "ftp".toList "root".toList wheelFiles = .ok t₁ ∧
      t₁.lines .group = some file₁ ∧
      Spliced.pattern.addUserToGroup "ftp".toList "root".toList t₁ = .ok t₂ ∧
      t₂.lines .group = some file₂ ∧
      (Joins "ftp".toList [] 0 wheelFiles.group file₁ ↔
        "ftp".toList ∉ ([] : List Text).drop (places (',' ∈ "0".toList)) ∧
          ∀ l ∈ wheelFiles.group.eraseIdx 0, Clean l) ∧
      (Joins "ftp".toList [] 0 wheelFiles.group file₁ ∧
          (∀ m, m ∈ membersAt file₂ 0 ↔ m ∈ membersAt file₁ 0) ↔
        (([] : List Text).filter (· ≠ "ftp".toList)).length < places (',' ∈ "0".toList) ∧
          ∀ l ∈ wheelFiles.group.eraseIdx 0, Clean l) :=
  addUserToGroup_iff (literalName_of (by decide)) (literalName_of (by decide)) (by simp)
    List.nodup_nil (b := "x".toList) (by decide) (by unfold NoLead; decide) rfl (by decide) (by decide)

/-! ### Tables of names -/

/-- A plain name in which dots may stand as well. -/
def PortableName (name : Text) : Prop :=
  ∃ c t, name = c :: t ∧ nameStart c = true ∧ (t.all fun c => nameChar c || c = '.') = true

instance (name : Text) : Decidable (PortableName name) :=
  match name with
  | [] => .isFalse (by simp [PortableName])
  | c :: t =>
    if h : nameStart c = true ∧ (t.all fun c => nameChar c || c = '.') = true then .isTrue ⟨c, t, rfl, h⟩
    else .isFalse (by
      rintro ⟨c', t', heq, h'⟩
      obtain ⟨rfl, rfl⟩ := List.cons.inj heq
      exact h h')

theorem PortableName.not_mem {name : Text} (h : PortableName name) {c : Char} (hs : nameStart c = false)
    (hc : nameChar c = false) (hdot : c ≠ '.') : c ∉ name := by
  obtain ⟨d, t, rfl, hd, ht⟩ := h
  intro hmem
  rcases List.mem_cons.mp hmem with rfl | hmem
  · rw [hs] at hd
    exact Bool.false_ne_true hd
  · have hchar := List.all_eq_true.mp ht c hmem
    simp [hc, hdot] at hchar

theorem PortableName.no_newline {name : Text} (h : PortableName name) : '\n' ∉ name :=
  h.not_mem (by decide) (by decide) (by decide)

theorem PortableName.memberName {name : Text} (h : PortableName name) : MemberName name := by
  refine ⟨?_, h.not_mem (by decide) (by decide) (by decide), h.not_mem (by decide) (by decide) (by decide)⟩
  obtain ⟨d, t, rfl, -⟩ := h
  exact List.cons_ne_nil d t

/-- The table names users and groups by portable names; `-` stands for no user. -/
structure PortableTable (es : List Entry) : Prop where
  group : ∀ e ∈ es, PortableName e.group
  username : ∀ e ∈ es, e.real = true → PortableName e.username
  additional : ∀ e ∈ es, ∀ g ∈ e.additional, PortableName g

theorem PlainName.no_dot {name : Text} (h : PlainName name) : '.' ∉ name :=
  h.not_mem (by decide) (by decide)

namespace Spliced

/-- For a table of plain names the script does what it does with the names taken literally. -/
theorem main_pattern {es : List Entry} (hes : PlainTable es) (env : Env) :
    pattern.main env es = Accounts.main env es := by
  have hhas : ∀ {name}, PlainName name → pattern.has name = literal.has name :=
    fun h => hits_eq_hasName h.no_dot
  rw [← main_literal]
  refine main_congr (fun e he => hhas (hes.group e he)) (fun e he g hg => hhas (hes.additional e he g hg))
    (fun e he hreal => hhas (hes.username e he hreal)) (fun e he hreal g hg => ?_) env
  have hu := hes.username e he hreal
  have hg := hes.additional e he g hg
  exact memberMatch_eq ⟨hu.ne_nil, hu.no_colon, hu.no_comma⟩ hu.no_dot hg.no_colon hg.no_dot

end Spliced

end CargosBuildroot.Accounts
