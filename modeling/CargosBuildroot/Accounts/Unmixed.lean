import CargosBuildroot.Accounts.Automatic

/-! Tables in which no name, read as a pattern, finds another one. The lines that a run has written
for a name are then edited for this name only. -/

namespace CargosBuildroot.Accounts

open Shell Store Spliced

variable {es : List Entry} {a b line u g group w d : Text} {us : List Text} {n : ℤ}

/-- `/^a:.*/` selects a line of the name `b`; a dot behind `b` stands for its colon. -/
def Confuses (a b : Text) : Prop :=
  Matches (a.take b.length) b ∧ (a.length = b.length ∨ a[b.length]? = some '.')

instance (a b : Text) : Decidable (Confuses a b) := by
  unfold Confuses
  infer_instance

/-- No user of the table is found for another one, as a line or in a list of members, and no group for
another one. -/
structure Unmixed (es : List Entry) : Prop where
  users : ∀ a ∈ usernames es, ∀ b ∈ usernames es, Confuses a b → a = b
  groups : ∀ a ∈ touched es, ∀ b ∈ touched es, Confuses a b → a = b
  members : ∀ u ∈ usernames es, ∀ t, Matches u t → (∀ w, IsMember w t → w = [] ∨ w ∈ usernames es) → t = u

theorem confuses_of_hits (ha : ':' ∉ a) (hb : ':' ∉ b) (hhit : hits a line = true)
    (hname : hasName b line = true) : Confuses a b := by
  obtain ⟨rest, rfl⟩ := hasName_iff.mp hname
  rw [hits, decide_eq_true_iff] at hhit
  obtain ⟨hm, hcolon⟩ := hhit
  rcases lt_trichotomy a.length b.length with hlt | heq | hgt
  · rw [List.getElem?_append_left hlt] at hcolon
    exact absurd (List.mem_of_getElem? hcolon) hb
  · rw [heq, List.take_left] at hm
    exact ⟨by rwa [← heq, List.take_length], .inl heq⟩
  · have htake := List.forall₂_take b.length hm
    rw [List.take_take, min_eq_left hgt.le, List.take_left] at htake
    refine ⟨htake, .inr ?_⟩
    -- the character of the pattern that meets the colon
    have hdrop := List.forall₂_drop b.length hm
    rw [List.drop_take, List.drop_left] at hdrop
    obtain ⟨k, hk⟩ : ∃ k, a.length - b.length = k + 1 := ⟨_, (Nat.succ_pred_eq_of_pos (by omega)).symm⟩
    rw [hk, List.take_succ_cons] at hdrop
    cases hrest : a.drop b.length with
    | nil =>
      rw [List.drop_eq_nil_iff] at hrest
      omega
    | cons c cs =>
      rw [hrest] at hdrop
      have hc : c ∈ a := List.mem_of_mem_drop (hrest ▸ List.mem_cons_self)
      obtain ⟨hdot, -⟩ := List.forall₂_cons.mp hdrop
      have hget : a[b.length]? = some c := by rw [← List.head?_drop, hrest, List.head?_cons]
      rw [hget, hdot.resolve_right fun h => ha (h ▸ hc)]

/-- The lines of a name are not selected by another one. -/
theorem hasName_of_hits {names : List Text} (hmix : ∀ a ∈ names, ∀ b ∈ names, Confuses a b → a = b)
    (hnames : ∀ a ∈ names, ':' ∉ a) (ha : a ∈ names) (hb : b ∈ names) (hne : a ≠ b)
    (hhit : hits a line = true) : hasName b line = false := by
  by_contra hname
  exact hne (hmix a ha b hb (confuses_of_hits (hnames a ha) (hnames b hb) hhit (by simpa using hname)))

theorem hits_of_hasName (h : hasName a line = true) : hits a line = true := by
  obtain ⟨rest, rfl⟩ := hasName_iff.mp h
  exact hits_iff.mpr ⟨a, rest, rfl, matches_self a⟩

/-- Plain names are not mixed. -/
theorem unmixed_of_plain (hes : PlainTable es) : Unmixed es := by
  have hconfuse : ∀ {a b}, PlainName a → Confuses a b → a = b := by
    rintro a b ha ⟨hm, hlength | hdot⟩
    · rw [← hlength, List.take_length] at hm
      exact (matches_iff_eq ha.no_dot).mp hm
    · exact absurd (List.mem_of_getElem? hdot) ha.no_dot
  have hplain : ∀ a ∈ usernames es, PlainName a := by
    intro a ha
    obtain ⟨e, he, rfl⟩ := List.mem_map.mp ha
    exact hes.username e (List.mem_filter.mp he).1 (List.mem_filter.mp he).2
  refine ⟨fun a ha b _ => hconfuse (hplain a ha), fun a ha b _ => hconfuse ?_,
    fun u hu t ht _ => ((matches_iff_eq (hplain u hu).no_dot).mp ht).symm⟩
  rcases List.mem_append.mp ha with ha | ha
  · obtain ⟨op, hop, rfl⟩ := List.mem_map.mp ha
    exact (plain_explicitGroups hes op hop).1
  · exact hes.autoGroups a ha

/-! ### The line of a group -/

/-- The part of a group line before its members. -/
def groupFront (group : Text) (gid : ℤ) : Text := group ++ ':' :: 'x' :: ':' :: decimal gid

theorem groupLine_front (group : Text) (gid : ℤ) (d : Text) :
    groupLine group gid d = groupFront group gid ++ ':' :: d := by
  simp [groupLine, groupFront]

theorem groupFront_no_comma (hg : ',' ∉ group) (gid : ℤ) : ',' ∉ groupFront group gid := by
  simp [groupFront, hg, decimal_no_comma]

/-- The second of the two colons before the members is the first one that a match can reach over. -/
theorem groupFront_cut {x y : Text} (hg : ':' ∉ group) (hx : ':' ∈ x)
    (h : x ++ ':' :: y = groupFront group n) : y = decimal n := by
  have hfront : groupFront group n = (group ++ [':', 'x']) ++ ':' :: decimal n := by simp [groupFront]
  rcases cut_colon (decimal_no_colon n) (h.trans hfront) with ⟨-, rfl⟩ | ⟨z, hz, -⟩
  · rfl
  · -- the first field would have a colon
    have hz : x ++ ':' :: z = group ++ ':' :: ['x'] := hz.symm
    rcases cut_colon (by decide) hz with ⟨rfl, -⟩ | ⟨z', rfl, -⟩
    · exact absurd hx hg
    · simp at hg

/-- No name starts like a number. -/
theorem nameStart_decimal {n : ℤ} {c : Char} (h : c ∈ decimal n) : nameStart c = false := by
  rcases mem_decimal h with rfl | h
  · decide
  · by_contra hstart
    rw [Bool.not_eq_false] at hstart
    delta nameStart Char.isAlpha Char.isUpper Char.isLower at hstart
    delta Char.isDigit at h
    simp only [Bool.and_eq_true, decide_eq_true_eq, Bool.or_eq_true] at h hstart
    have hmax := UInt32.le_iff_toNat_le.mp h.2
    rcases hstart with (⟨hmin, -⟩ | ⟨hmin, -⟩) | rfl
    · have hmin := UInt32.le_iff_toNat_le.mp hmin
      exact absurd (hmin.trans hmax) (by decide)
    · have hmin := UInt32.le_iff_toNat_le.mp hmin
      exact absurd (hmin.trans hmax) (by decide)
    · exact absurd hmax (by decide)

theorem isMember_inside {q m r : Text} (hq : listPart q = true) (hr : restPart r = true) (h : IsMember w m) :
    IsMember w (q ++ (m ++ r)) := by
  have hmr : IsMember w (m ++ r) := by
    rw [restPart, decide_eq_true_iff] at hr
    rcases hr with rfl | ⟨-, hhead⟩
    · rwa [List.append_nil]
    · obtain ⟨y, rfl⟩ : ∃ y, r = ',' :: y := List.head?_eq_some_iff.mp hhead
      exact isMember_concat.mpr (.inl h)
  rw [listPart, decide_eq_true_iff] at hq
  rcases hq with rfl | ⟨-, -, hlast⟩
  · exact hmr
  · obtain ⟨x, rfl⟩ := List.getLast?_eq_some_iff.mp hlast
    rw [List.append_assoc, List.singleton_append]
    exact isMember_concat.mpr (.inr hmr)

/-- What is not a member of the part that is taken out stays a member. -/
theorem isMember_left {q m r : Text} (hq : listPart q = true) (hr : restPart r = true) (hw : ¬ IsMember w m)
    (h : IsMember w (q ++ (m ++ r))) : IsMember w (q ++ r) := by
  have hmr : IsMember w (m ++ r) → IsMember w r := by
    intro h
    rw [restPart, decide_eq_true_iff] at hr
    rcases hr with rfl | ⟨-, hhead⟩
    · exact absurd (by rwa [List.append_nil] at h) hw
    · obtain ⟨y, rfl⟩ : ∃ y, r = ',' :: y := List.head?_eq_some_iff.mp hhead
      have hy := (isMember_concat.mp h).resolve_left hw
      exact (@isMember_concat w [] y).mpr (.inr hy)
  rw [listPart, decide_eq_true_iff] at hq
  rcases hq with rfl | ⟨-, -, hlast⟩
  · exact hmr h
  · obtain ⟨x, rfl⟩ := List.getLast?_eq_some_iff.mp hlast
    rw [List.append_assoc, List.singleton_append, isMember_concat] at h ⊢
    exact h.imp_right hmr

/-- The first substitution takes the user out of the list, and no one else. -/
theorem dropMatch_groupLine (hg : ':' ∉ g) (hu : PortableName u) (hd : ':' ∉ d)
    (hmembers : ∀ t, Matches u t → (∀ w, IsMember w t → IsMember w d) → t = u) (group : Text) :
    ∃ d', ':' ∉ d' ∧ dropMatch u group (groupLine g n d) = groupLine g n d' ∧
      (∀ w, IsMember w d' → w = [] ∨ IsMember w d) ∧ ∀ w, w ≠ u → IsMember w d → IsMember w d' := by
  rcases dropMatch_cases u group (groupLine g n d) with h | ⟨p, q, m, r, hp, hq, hm, hr, hline, h⟩
  · exact ⟨d, hd, h, fun _ => .inr, fun _ _ => id⟩
  obtain ⟨m', y, rfl, -⟩ := groupPart_iff.mp hp
  have hcut : (m' ++ ':' :: y) ++ ':' :: (q ++ (m ++ r)) = groupFront g n ++ ':' :: d := by
    rw [← groupLine_front, hline]
    simp
  rcases cut_colon hd hcut with ⟨hfront, rfl⟩ | ⟨z, hz, hover⟩
  · have hself : m = u := hmembers m hm fun w hw => isMember_inside hq hr hw
    have hcomma : m.splitOn ',' = [u] := by rw [hself, List.splitOn_eq_singleton hu.memberName.no_comma]
    refine ⟨q ++ r, ?_, ?_, fun w hw => isMember_drop hq hr hw, fun w hw hmem => isMember_left hq hr ?_ hmem⟩
    · simp only [List.mem_append, not_or] at hd ⊢
      exact ⟨hd.1, hd.2.2⟩
    · rw [h, groupLine_front, ← hfront]
      simp
    · rw [IsMember, hcomma, List.mem_singleton]
      exact hw
  · -- a match over the last colon would start with the gid
    obtain rfl := groupFront_cut hg (by simp) hz.symm
    obtain ⟨rfl, -⟩ := drop_colon hq hr (decimal_no_comma n) hover
    obtain ⟨c, cs, rfl, hc, -⟩ := hu
    obtain ⟨k, ks, hk⟩ := List.exists_cons_of_ne_nil (decimal_ne_nil n)
    cases m with
    | nil => simp [Matches] at hm
    | cons k' m =>
      rw [hk, List.nil_append, List.cons_append, List.cons_append] at hover
      obtain ⟨rfl, -⟩ := List.cons.inj hover
      have hstart := nameStart_decimal (hk ▸ List.mem_cons_self : k' ∈ decimal n)
      rcases (List.forall₂_cons.mp hm).1 with rfl | rfl
      · exact absurd hc (by decide)
      · rw [hc] at hstart
        exact absurd hstart (by decide)

/-- Adding a user to a group in the line of a group: its members stay, and the user is one if the group is
meant. -/
theorem memberMatch_groupLine (hg : MemberName g) (hu : PortableName u) (hd : ':' ∉ d)
    (hmembers : ∀ t, Matches u t → (∀ w, IsMember w t → IsMember w d) → t = u) (group : Text) :
    ∃ d', ':' ∉ d' ∧ memberMatch u group (groupLine g n d) = groupLine g n d' ∧
      (∀ w, IsMember w d' → w = [] ∨ w = u ∨ IsMember w d) ∧
      (hits group (groupLine g n d) = true → IsMember u d') ∧ ∀ w ≠ [], IsMember w d → IsMember w d' := by
  have hname := hu.memberName
  have htidy : Tidy (groupFront g n) := by
    refine ⟨fun h => groupFront_no_comma hg.no_comma n (h.subset (.head _)), fun h =>
      groupFront_no_comma hg.no_comma n (h.subset (.tail _ (.head _)))⟩
  have hclose : ∀ x, ':' ∉ x →
      trim (squeeze (groupLine g n x)) = groupLine g n (closeList (',' ∈ groupFront g n) x) := by
    intro x hx
    rw [groupLine_front, groupLine_front, trim_squeeze_tidy htidy hx]
  obtain ⟨d₁, hd₁, hdrop, hback, hstay⟩ := dropMatch_groupLine hg.no_colon hu hd hmembers group
  have happend : ∀ x, appendMatch u group (groupLine g n x) =
      if hits group (groupLine g n x) then groupLine g n (x ++ ',' :: u) else groupLine g n x := by
    intro x
    rw [appendMatch]
    split
    · simp [groupLine]
    · rfl
  have hsingle : ∀ w, IsMember w u ↔ w = u := by
    intro w
    rw [IsMember, List.splitOn_eq_singleton hname.no_comma, List.mem_singleton]
  -- the first part of the line decides whether the group is meant
  have hhit : hits group (groupLine g n d₁) = hits group (groupLine g n d) := by
    rw [← hits_head, ← hits_head group (groupLine g n d), groupLine_front, groupLine_front, head_eq _ hd₁,
      head_eq _ hd]
  cases hmeant : hits group (groupLine g n d) with
  | false =>
    refine ⟨closeList (',' ∈ groupFront g n) d, closeList_no_colon hd, ?_, fun w hw => ?_, by simp,
      fun w hw h => (isMember_closeList hw _).mpr h⟩
    · rw [memberMatch_other hmeant, hclose d hd]
    · by_cases hnil : w = []
      · exact .inl hnil
      · exact .inr (.inr ((isMember_closeList hnil _).mp hw))
  | true =>
    have hcolon : ':' ∉ d₁ ++ ',' :: u := by simp [hd₁, hname.no_colon]
    refine ⟨closeList (',' ∈ groupFront g n) (d₁ ++ ',' :: u), closeList_no_colon hcolon, ?_, fun w hw => ?_,
      fun _ => ?_, fun w hw h => ?_⟩
    · rw [memberMatch, hdrop, happend, hhit, hmeant, if_pos rfl, hclose _ hcolon]
    · by_cases hnil : w = []
      · exact .inl hnil
      · rw [isMember_closeList hnil, isMember_concat, hsingle] at hw
        rcases hw with hw | hw
        · exact (hback w hw).imp_right .inr
        · exact .inr (.inl hw)
    · rw [isMember_closeList hname.ne_nil, isMember_concat, hsingle]
      exact .inr rfl
    · rw [isMember_closeList hw, isMember_concat, hsingle]
      by_cases hwu : w = u
      · exact .inr hwu
      · exact .inl (hstay w hwu h)

end CargosBuildroot.Accounts
