import CargosBuildroot.Accounts.Kept

/-! The members of groups after a run of `mkusers`. A group of the table is written without
members in every pass, so the members that it has at the end are users of the table; the
groups that no name of the table selects keep all their members. -/

namespace CargosBuildroot.Accounts

open Shell Store Spliced

variable {env : Env} {s t : Target} {es : List Entry} {ps : List (Text × Text)}
variable {a b c d u w group line : Text}

/-! ### Lines of groups -/

/-- The first three fields. -/
def front (a b c : Text) : Text := a ++ ':' :: b ++ ':' :: c

/-- A line of four fields, the first three of which have no empty items. -/
structure GroupLine (line : Text) : Prop where
  length : (fields line).length = 4
  tidy : Tidy (front (field 1 line) (field 2 line) (field 3 line))

/-- The line lists `w` as a member of `group`. -/
structure Listed (group w line : Text) : Prop extends GroupLine line where
  name : field 1 line = group
  member : IsMember w (field 4 line)

theorem GroupLine.cases (h : GroupLine line) :
    ∃ a b c d, line = quad a b c d ∧ (':' ∉ a ∧ ':' ∉ b ∧ ':' ∉ c ∧ ':' ∉ d) ∧ Tidy (front a b c) := by
  obtain ⟨a, b, c, d, hf⟩ := List.length_eq_four.mp h.length
  have hfree : ∀ m ∈ fields line, ':' ∉ m := fun m hm hc => (mem_piece hm hc).2 rfl
  rw [hf] at hfree
  have hline : [':'].intercalate (fields line) = line := List.intercalate_splitOn ':'
  have htidy := h.tidy
  simp only [field, hf, List.getD_cons_zero, List.getD_cons_succ, Nat.sub_self, Nat.reduceSub] at htidy
  refine ⟨a, b, c, d, ?_, ?_, htidy⟩
  · rw [← hline, hf]
    simp [quad, List.intercalate_cons_cons]
  · simpa using hfree

theorem listed_quad (hfree : ':' ∉ a ∧ ':' ∉ b ∧ ':' ∉ c ∧ ':' ∉ d) :
    Listed group w (quad a b c d) ↔ Tidy (front a b c) ∧ a = group ∧ IsMember w d := by
  have hf := fields_quad hfree.1 hfree.2.1 hfree.2.2.1 hfree.2.2.2
  constructor
  · rintro ⟨⟨-, htidy⟩, hname, hmember⟩
    simp only [field, hf] at htidy hname hmember
    exact ⟨htidy, hname, hmember⟩
  · rintro ⟨htidy, hname, hmember⟩
    refine ⟨⟨by rw [hf]; rfl, ?_⟩, ?_, ?_⟩
    all_goals simpa only [field, hf]

theorem trim_tidy (ha : ¬ [':', ','] <:+: a) (hd : ':' ∉ d) : trim (a ++ ':' :: d) = a ++ ':' :: dropLead d := by
  induction a with
  | nil => exact trim_text hd
  | cons x a ih =>
    rw [List.infix_cons_iff, not_or] at ha
    by_cases hx : x = ':'
    · subst hx
      have hne : ∀ t, a ++ ':' :: d ≠ ',' :: t := by
        intro t ht
        cases a with
        | nil => simp at ht
        | cons y a => exact ha.1 (by rw [(List.cons.inj ht).1]; exact ⟨a, rfl⟩)
      rw [List.cons_append, trim_colon hne, ih ha.2, List.cons_append]
    · rw [List.cons_append, trim_cons hx, ih ha.2, List.cons_append]

/-- The last two substitutions work on the last field, if there is no empty item before it. -/
theorem trim_squeeze_tidy (ha : Tidy a) (hd : ':' ∉ d) :
    trim (squeeze (a ++ ':' :: d)) = a ++ ':' :: closeList (',' ∈ a) d := by
  rw [squeeze_colon]
  by_cases hcomma : ',' ∈ a
  · have hsqueeze : squeeze a = a := squeeze_eq_iff.mpr ha.clean.commas
    rw [if_pos hcomma, hsqueeze, trim_tidy ha.2 hd, closeList, decide_eq_true hcomma, if_pos rfl]
  · have hd' : ':' ∉ squeeze d := fun h => hd ((squeeze_sublist d).mem h)
    rw [if_neg hcomma, trim_tidy ha.2 hd', closeList, decide_eq_false hcomma, if_neg Bool.false_ne_true]

theorem isMember_closeList (hw : w ≠ []) (before : Bool) : IsMember w (closeList before d) ↔ IsMember w d := by
  rw [closeList, isMember_dropLead hw]
  split
  · rfl
  · exact isMember_squeeze hw

/-- In the line of a group that no name selects the edits keep the members. -/
theorem edits_groupLine (hfree : ':' ∉ a ∧ ':' ∉ b ∧ ':' ∉ c ∧ ':' ∉ d) (htidy : Tidy (front a b c))
    (hps : ∀ p ∈ ps, hits p.2 (quad a b c d) = false) :
    ∃ d', ':' ∉ d' ∧ pattern.edits ps (quad a b c d) = quad a b c d' ∧
      ∀ w ≠ [], IsMember w d' ↔ IsMember w d := by
  induction ps generalizing d with
  | nil => exact ⟨d, hfree.2.2.2, rfl, fun _ _ => Iff.rfl⟩
  | cons p ps ih =>
    rw [List.forall_mem_cons] at hps
    have hd := hfree.2.2.2
    have hd₁ : ':' ∉ closeList (',' ∈ front a b c) d := closeList_no_colon hd
    have hnext : memberMatch p.1 p.2 (quad a b c d) = quad a b c (closeList (',' ∈ front a b c) d) := by
      rw [memberMatch_other hps.1]
      exact trim_squeeze_tidy htidy hd
    have hhead : ∀ d, ':' ∉ d → head (quad a b c d) = front a b c ++ [':'] := fun d hd => head_eq _ hd
    obtain ⟨d', hd', hedits, hmembers⟩ := ih ⟨hfree.1, hfree.2.1, hfree.2.2.1, hd₁⟩ fun q hq => by
      rw [← hits_head, hhead _ hd₁, ← hhead _ hd, hits_head, hps.2 q hq]
    refine ⟨d', hd', ?_, fun w hw => (hmembers w hw).trans (isMember_closeList hw _)⟩
    rw [← hedits, ← hnext]
    rfl

/-! ### The members of a written group -/

/-- There are no commas before the last field, and its items are users or empty. -/
def OwnLine (us : List Text) (line : Text) : Prop :=
  ∃ a b, line = a ++ ':' :: b ∧ ',' ∉ a ∧ ':' ∉ b ∧ ∀ w, IsMember w b → w = [] ∨ w ∈ us

theorem isMember_nil : IsMember w [] ↔ w = [] := by simp [IsMember]

theorem isMember_concat {x y : Text} : IsMember w (x ++ ',' :: y) ↔ IsMember w x ∨ IsMember w y := by
  rw [IsMember, List.splitOn_append_cons_self, List.mem_append]
  rfl

/-- A member of what is left is empty, or was a member before. -/
theorem isMember_drop {q m r : Text} (hq : listPart q = true) (hr : restPart r = true)
    (h : IsMember w (q ++ r)) : w = [] ∨ IsMember w (q ++ (m ++ r)) := by
  have hrest : IsMember w r → w = [] ∨ IsMember w (m ++ r) := by
    intro h
    rw [restPart, decide_eq_true_iff] at hr
    rcases hr with rfl | ⟨-, hhead⟩
    · exact .inl (isMember_nil.mp h)
    · obtain ⟨y, rfl⟩ : ∃ y, r = ',' :: y := List.head?_eq_some_iff.mp hhead
      rw [isMember_concat]
      rw [← List.nil_append (',' :: y), isMember_concat, isMember_nil] at h
      exact h.imp_right .inr
  rw [listPart, decide_eq_true_iff] at hq
  rcases hq with rfl | ⟨-, -, hlast⟩
  · exact hrest h
  · obtain ⟨x, rfl⟩ := List.getLast?_eq_some_iff.mp hlast
    rw [List.append_assoc, List.singleton_append, isMember_concat] at h ⊢
    rcases h with h | h
    · exact .inr (.inl h)
    · exact (hrest h).imp_right .inr

/-- Two ways to cut a line at a colon, the last colon being one of them. -/
theorem cut_colon {p x : Text} (hb : ':' ∉ b) (h : p ++ ':' :: x = a ++ ':' :: b) :
    p = a ∧ x = b ∨ ∃ y, a = p ++ ':' :: y ∧ x = y ++ ':' :: b := by
  rcases List.append_eq_append_iff.mp h with ⟨s, rfl, hs⟩ | ⟨s, rfl, hs⟩
  · cases s with
    | nil => exact .inl ⟨(List.append_nil p).symm, (List.cons.inj hs).2⟩
    | cons e s =>
      obtain ⟨rfl, hx⟩ := List.cons.inj hs
      exact .inr ⟨s, rfl, hx⟩
  · cases s with
    | nil => exact .inl ⟨List.append_nil a, (List.cons.inj hs).2.symm⟩
    | cons e s =>
      obtain ⟨-, rfl⟩ := List.cons.inj hs
      simp at hb

/-- What is matched over the last colon leaves nothing of the fields before it, as they have no
commas. -/
theorem drop_colon {q m r y : Text} (hq : listPart q = true) (hr : restPart r = true) (hy : ',' ∉ y)
    (h : q ++ (m ++ r) = y ++ ':' :: b) : q = [] ∧ ∃ z, b = z ++ r := by
  have hq' : ':' ∉ q := listPart_no_colon hq
  have hr' : ':' ∉ r := restPart_no_colon hr
  obtain rfl : q = [] := by
    rw [listPart, decide_eq_true_iff] at hq
    refine hq.resolve_right ?_
    rintro ⟨-, -, hlast⟩
    have hcomma : ',' ∈ q := List.mem_of_getLast? hlast
    rcases List.append_eq_append_iff.mp h with ⟨s, rfl, -⟩ | ⟨s, rfl, hs⟩
    · exact hy (List.mem_append_left _ hcomma)
    · cases s with
      | nil =>
        rw [List.append_nil] at hcomma
        exact hy hcomma
      | cons e s =>
        obtain ⟨rfl, -⟩ := List.cons.inj hs
        simp at hq'
  refine ⟨rfl, ?_⟩
  rw [List.nil_append] at h
  rcases List.append_eq_append_iff.mp h with ⟨s, -, rfl⟩ | ⟨s, rfl, hs⟩
  · simp at hr'
  · cases s with
    | nil =>
      rw [List.nil_append] at hs
      simp [← hs] at hr'
    | cons e s => exact ⟨s, (List.cons.inj hs).2⟩

theorem OwnLine.dropMatch {us : List Text} (h : OwnLine us line) (u group : Text) :
    OwnLine us (dropMatch u group line) := by
  obtain ⟨a, b, hab, ha, hb, hown⟩ := h
  rcases dropMatch_cases u group line with heq | ⟨p, q, m, r, hp, hq, -, hr, hline, heq⟩
  · exact ⟨a, b, heq.trans hab, ha, hb, hown⟩
  obtain ⟨x, rfl⟩ : ∃ x, p = x ++ [':'] := by
    obtain ⟨m', y, rfl, -⟩ := groupPart_iff.mp hp
    exact ⟨m' ++ ':' :: y, by simp⟩
  have hqr : ':' ∉ q ++ r := by simp [listPart_no_colon hq, restPart_no_colon hr]
  rw [List.append_assoc, List.singleton_append] at hline heq
  rcases cut_colon hb (hline.symm.trans hab) with ⟨rfl, rfl⟩ | ⟨y, rfl, hy⟩
  · exact ⟨x, q ++ r, heq, ha, hqr, fun w hw => (isMember_drop hq hr hw).elim .inl (hown w)⟩
  · rw [List.mem_append, List.mem_cons, not_or, not_or] at ha
    obtain ⟨rfl, z, rfl⟩ := drop_colon hq hr ha.2.2 hy
    refine ⟨x, [] ++ r, heq, ha.1, hqr, fun w hw => ?_⟩
    have hnil : listPart [] = true := rfl
    exact (isMember_drop (m := z) hnil hr hw).elim .inl (hown w)

theorem OwnLine.memberMatch {us : List Text} (h : OwnLine us line) (hu : u ∈ us) (hu' : MemberName u)
    (group : Text) : OwnLine us (memberMatch u group line) := by
  have happend : OwnLine us (appendMatch u group (Accounts.dropMatch u group line)) := by
    obtain ⟨a, b, hab, ha, hb, hown⟩ := h.dropMatch u group
    rw [appendMatch]
    split
    · refine ⟨a, b ++ ',' :: u, by rw [hab]; simp, ha, by simp [hb, hu'.no_colon], fun w hw => ?_⟩
      rcases isMember_concat.mp hw with hw | hw
      · exact hown w hw
      · rw [IsMember, List.splitOn_eq_singleton hu'.no_comma, List.mem_singleton] at hw
        exact .inr (hw ▸ hu)
    · exact ⟨a, b, hab, ha, hb, hown⟩
  obtain ⟨a, b, hab, ha, hb, hown⟩ := happend
  have htidy : Tidy a := by
    refine ⟨fun h => ha ?_, fun h => ha ?_⟩
    · exact h.subset (.head _)
    · exact h.subset (.tail _ (.head _))
  refine ⟨a, closeList (',' ∈ a) b, ?_, ha, closeList_no_colon hb, fun w hw => ?_⟩
  · rw [Accounts.memberMatch, hab, trim_squeeze_tidy htidy hb]
  · by_cases hnil : w = []
    · exact .inl hnil
    · exact hown w ((isMember_closeList hnil _).mp hw)

theorem OwnLine.edits {us : List Text} (h : OwnLine us line) (hps : ∀ p ∈ ps, p.1 ∈ us ∧ MemberName p.1) :
    OwnLine us (pattern.edits ps line) := by
  induction ps generalizing line with
  | nil => exact h
  | cons p ps ih =>
    rw [List.forall_mem_cons] at hps
    exact ih (h.memberMatch hps.1.1 hps.1.2 p.2) hps.2

/-- A written line lists users only. -/
theorem OwnLine.listed {us : List Text} (h : OwnLine us line) (hw : w ≠ []) (hlisted : Listed group w line) :
    w ∈ us := by
  obtain ⟨a, b, hab, -, hb, hown⟩ := h
  obtain ⟨a', b', c', d', rfl, hfree, -⟩ := hlisted.toGroupLine.cases
  have hmember := ((listed_quad hfree).mp hlisted).2.2
  rcases cut_colon hb hab with ⟨-, rfl⟩ | ⟨y, -, hy⟩
  · exact (hown w hmember).resolve_left hw
  · exact absurd (hy ▸ List.mem_append_right _ (.head _)) hfree.2.2.2

/-! ### The files at the end -/

/-- The usernames of the table. -/
def usernames (es : List Entry) : List Text := (es.filter (·.real)).map (·.username)

/-- A line of the file lists `w` as a member of `group`. -/
def Lists (file : List Text) (group w : Text) : Prop := ∃ line ∈ file, Listed group w line

/-- No name of a group in the table selects the line. -/
def Unselected (es : List Entry) (line : Text) : Prop := ∀ g ∈ touched es, hits g line = false

/-- What a run makes of a group file: the lines that no name selects are edited, and the
other lines are those of the table. -/
theorem lists_iff (hes : PortableTable es) {ops : List (Text × Text)} {file : List Text}
    (hfile : ∀ line ∈ file, GroupLine line) (hnames : ops.map Prod.fst = touched es)
    (hops : ∀ op ∈ ops, OwnLine (usernames es) op.2) (hw : w ≠ []) (hwu : w ∉ usernames es) :
    Lists ((puts hits ops file).map (pattern.edits (memberships (users es)))) group w ↔
      ∃ line ∈ file, Listed group w line ∧ Unselected es line := by
  have hps : ∀ p ∈ memberships (users es), p.1 ∈ usernames es ∧ MemberName p.1 := by
    intro p hp
    refine ⟨?_, hes.names _ (memberships_names hp).1⟩
    obtain ⟨e, he, hp⟩ := List.mem_flatMap.mp hp
    obtain ⟨g, -, rfl⟩ := List.mem_map.mp hp
    obtain ⟨he, hreal, -⟩ := mem_users.mp he
    exact List.mem_map.mpr ⟨e, List.mem_filter.mpr ⟨he, hreal⟩, rfl⟩
  have hkept : ∀ line ∈ file, Unselected es line →
      (Listed group w (pattern.edits (memberships (users es)) line) ↔ Listed group w line) := by
    intro line hline hun
    obtain ⟨a, b, c, d, rfl, hfree, htidy⟩ := (hfile line hline).cases
    obtain ⟨d', hd', hedits, hmembers⟩ := edits_groupLine hfree htidy
      fun p hp => hun p.2 (memberships_names hp).2
    rw [hedits, listed_quad ⟨hfree.1, hfree.2.1, hfree.2.2.1, hd'⟩, listed_quad hfree, hmembers w hw]
  constructor
  · rintro ⟨_, hedited, hlisted⟩
    obtain ⟨line, hmem, rfl⟩ := List.mem_map.mp hedited
    rw [puts_eq] at hmem
    rcases List.mem_append.mp hmem with hmem | hmem
    · obtain ⟨hline, hun⟩ := List.mem_filter.mp hmem
      have hun := (untouched_iff hnames).mp hun
      exact ⟨line, hline, (hkept line hline hun).mp hlisted, hun⟩
    · obtain ⟨op, hop, rfl⟩ := mem_puts_nil hmem
      exact absurd (((hops op hop).edits hps).listed hw hlisted) hwu
  · rintro ⟨line, hline, hlisted, hun⟩
    refine ⟨_, List.mem_map_of_mem ?_, (hkept line hline hun).mpr hlisted⟩
    rw [puts_eq]
    exact List.mem_append_left _ (List.mem_filter.mpr ⟨hline, (untouched_iff hnames).mpr hun⟩)

/-- After a successful run on group files with lines of groups every member that is not a user of the
table is still a member of its groups if and only if each is listed by a line that no group of the
table selects. -/
theorem members_kept_iff (hes : PortableTable es)
    (hfiles : ∀ f file, s.lines f = some file → ∀ line ∈ file, GroupLine line)
    (h : pattern.main env es s = .ok t) :
    (∀ f file, s.lines f = some file → ∃ file', t.lines f = some file' ∧
        ∀ group w, w ≠ [] → w ∉ usernames es → Lists file group w → Lists file' group w) ↔
      ∀ f file, s.lines f = some file → ∀ group w, w ≠ [] → w ∉ usernames es → Lists file group w →
        ∃ line ∈ file, Listed group w line ∧ Unselected es line := by
  refine forall₃_congr fun f file hfile => ?_
  obtain ⟨ops, hnames, hops, hlines⟩ := main_lines h hfile
  have hown : ∀ op ∈ ops, OwnLine (usernames es) op.2 := by
    intro op hop
    obtain ⟨b, c, heq, hb, hc⟩ := hops op hop
    have hname := hes.names _ (touched_subset_names (hnames ▸ List.mem_map_of_mem hop))
    refine ⟨front op.1 b c, [], heq, ?_, List.not_mem_nil, fun w hw => .inl (isMember_nil.mp hw)⟩
    simp [front, hb, hc, hname.no_comma]
  rw [hlines]
  constructor
  · rintro ⟨file', hfile', hkept⟩ group w hw hwu hlisted
    obtain rfl := Option.some.inj hfile'
    exact (lists_iff hes (hfiles f file hfile) hnames hown hw hwu).mp (hkept group w hw hwu hlisted)
  · intro hcond
    refine ⟨_, rfl, fun group w hw hwu hlisted => ?_⟩
    exact (lists_iff hes (hfiles f file hfile) hnames hown hw hwu).mpr (hcond group w hw hwu hlisted)

/-- The groups `root` and `wheel` of the skeleton. -/
def skeletonFiles : Target where
  passwd := ["root:x:0:0:root:/root:/bin/sh".toList]
  shadow := ["root:*:::::::".toList]
  group := ["root:x:0:".toList, "wheel:x:10:root".toList]
  gshadow := some ["root:*::".toList, "wheel:*::root".toList]

/-- The user `web` is added to `wheel`. -/
def wheelTable : List Entry := [entry "web" (-1) "web" (-1) "wheel"]

instance (line : Text) : Decidable (GroupLine line) :=
  decidable_of_iff ((fields line).length = 4 ∧ Tidy (front (field 1 line) (field 2 line) (field 3 line)))
    ⟨fun h => ⟨h.1, h.2⟩, fun h => ⟨h.length, h.tidy⟩⟩

instance (group w line : Text) : Decidable (Listed group w line) :=
  decidable_of_iff (GroupLine line ∧ field 1 line = group ∧ IsMember w (field 4 line))
    ⟨fun h => ⟨h.1, h.2.1, h.2.2⟩, fun h => ⟨h.toGroupLine, h.name, h.member⟩⟩

instance (file : List Text) (group w : Text) : Decidable (Lists file group w) := by
  unfold Lists
  infer_instance

theorem members_kept_web :
    ∃ t, pattern.main plainEnv wheelTable skeletonFiles = .ok t ∧
      ((∀ f file, skeletonFiles.lines f = some file → ∃ file', t.lines f = some file' ∧
          ∀ group w, w ≠ [] → w ∉ usernames wheelTable → Lists file group w → Lists file' group w) ↔
        ∀ f file, skeletonFiles.lines f = some file → ∀ group w, w ≠ [] → w ∉ usernames wheelTable →
          Lists file group w → ∃ line ∈ file, Listed group w line ∧ Unselected wheelTable line) := by
  obtain ⟨t, ht, -⟩ := Exit.exists_of_any (pattern.main plainEnv wheelTable skeletonFiles) (fun _ => true)
    (by decide +kernel)
  refine ⟨t, ht, members_kept_iff ⟨by decide +kernel, by decide +kernel, by decide +kernel⟩ ?_ ht⟩
  intro f file hfile
  cases f with
  | group =>
    obtain rfl := Option.some.inj hfile
    decide +kernel
  | gshadow =>
    obtain rfl := Option.some.inj hfile
    decide +kernel

/-- Adding `web` to `wheel` takes `root` out of it. -/
theorem members_lost :
    ∃ t, pattern.main plainEnv wheelTable skeletonFiles = .ok t ∧ "root".toList ∉ usernames wheelTable ∧
      Lists skeletonFiles.group "wheel".toList "root".toList ∧
      ¬ Lists t.group "wheel".toList "root".toList := by
  obtain ⟨t, ht, hlost⟩ := Exit.exists_of_any (pattern.main plainEnv wheelTable skeletonFiles)
    (fun t => ¬ Lists t.group "wheel".toList "root".toList) (by decide +kernel)
  exact ⟨t, ht, by decide +kernel, by decide +kernel, of_decide_eq_true hlost⟩

end CargosBuildroot.Accounts
