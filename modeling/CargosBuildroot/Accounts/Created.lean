import CargosBuildroot.Accounts.Unmixed

/-! Whether every declared user is created. An entry whose id is below -1, or not a
number of 64 bits, is taken by none of the passes, a bare name on a line of its own
survives the deletion of the old lines of that name, and an explicit gid is read back
as a double for the line of the user. Without these, and with names that do not find each
other as patterns, every user of the table ends with one line in each file, with the id of
its main group, and as a member of its additional groups, whatever the files held before. -/

namespace CargosBuildroot.Accounts

open Shell Store Spliced

variable {env : Env} {s t u v : Target} {es : List Entry} {e : Entry} {g g' : Text} {n uid gid : ℤ}
  {home passwd : Text}

/-- Nothing of the table was skipped, and every user is there as it was declared. -/
structure AllCreated (es : List Entry) (t : Target) : Prop where
  groups : ∀ e ∈ es, explicit e.gid = true ∨ automatic e.gid = true
  users : ∀ e ∈ es, e.real = true → e ∈ users es
  passwd : ∀ e ∈ es, e.real = true → ∃ line group,
    t.passwd.filter (field 1 · = e.username) = [line] ∧ t.group.filter (field 1 · = e.group) = [group] ∧
      field 4 line = field 3 group
  shadow : ∀ e ∈ es, e.real = true → ∃ line, t.shadow.filter (field 1 · = e.username) = [line]
  members : ∀ e ∈ es, e.real = true → ∀ g ∈ e.additional,
    ∃ line ∈ t.group, field 1 line = g ∧ IsMember e.username (field 4 line)

/-- The ids are integers of 64 bits from -1 on, the last explicit gid of a main group is a
double or is rounded to one, and the initial files have no bare name of a user as a line. -/
structure Creatable (es : List Entry) (s : Target) : Prop where
  gid : ∀ e ∈ es, ∃ n, e.gid = some n ∧ -1 ≤ n
  uid : ∀ e ∈ es, e.real = true → ∃ n, e.uid = some n ∧ -1 ≤ n
  exact : ∀ e ∈ es, e.real = true → ∀ n, lastGid e.group (explicitGroups es) = some n →
    e.group ∈ autoGroups es ∨ Exact n
  passwd : ∀ e ∈ es, e.real = true → e.username ∉ s.passwd
  shadow : ∀ e ∈ es, e.real = true → e.username ∉ s.shadow

theorem mem_usernames (he : e ∈ es) (hreal : e.real = true) : e.username ∈ usernames es :=
  List.mem_map.mpr ⟨e, List.mem_filter.mpr ⟨he, hreal⟩, rfl⟩

theorem PortableTable.usernames (hes : PortableTable es) : ∀ u ∈ usernames es, PortableName u := by
  intro u hu
  obtain ⟨e, he, rfl⟩ := List.mem_map.mp hu
  exact hes.username e (List.mem_filter.mp he).1 (List.mem_filter.mp he).2

theorem PortableTable.touched (hes : PortableTable es) : ∀ g ∈ touched es, PortableName g := by
  intro g hg
  rcases List.mem_append.mp hg with hg | hg
  · obtain ⟨op, hop, rfl⟩ := List.mem_map.mp hg
    obtain ⟨e, he, rfl⟩ := List.mem_map.mp hop
    exact hes.group e (List.mem_filter.mp he).1
  · rcases List.mem_append.mp hg with hg | hg
    · obtain ⟨e, he, rfl⟩ := List.mem_map.mp hg
      exact hes.group e (List.mem_filter.mp he).1
    · obtain ⟨e, he, hg⟩ := List.mem_flatMap.mp hg
      exact hes.additional e he g hg

theorem autoGroups_touched (hg : g ∈ autoGroups es) : g ∈ touched es := List.mem_append_right _ hg

theorem explicitGroups_touched {op : Text × ℤ} (hop : op ∈ explicitGroups es) : op.1 ∈ touched es :=
  List.mem_append_left _ (List.mem_map_of_mem hop)

theorem additional_auto (he : e ∈ es) (hg : g ∈ e.additional) : g ∈ autoGroups es :=
  List.mem_append_right _ (List.mem_flatMap.mpr ⟨e, he, hg⟩)

theorem group_touched (he : e ∈ es) (hgid : explicit e.gid = true ∨ automatic e.gid = true) :
    e.group ∈ touched es := by
  rcases hgid with hgid | hgid
  · exact explicitGroups_touched
      (List.mem_map.mpr ⟨e, List.mem_filter.mpr ⟨he, hgid⟩, rfl⟩ : (e.group, e.gid.getD 0) ∈ explicitGroups es)
  · exact autoGroups_touched
      (List.mem_append_left _ (List.mem_map.mpr ⟨e, List.mem_filter.mpr ⟨he, hgid⟩, rfl⟩))

/-! ### Groups -/

/-- The group file has one line of the group, with the id, and only users of the table in it. -/
def OwnGroup (es : List Entry) (s : Target) (group : Text) (gid : ℤ) : Prop :=
  ∃ members, GroupIs s group gid members ∧ ∀ w, IsMember w members → w = [] ∨ w ∈ usernames es

theorem OwnGroup.hasGroup (h : OwnGroup es s g n) : HasGroup s g n := by
  obtain ⟨members, hm, -⟩ := h
  exact ⟨members, hm⟩

theorem putGroup_own (s : Target) (g : Text) (n : ℤ) : OwnGroup es (pattern.putGroup g n s) g n :=
  ⟨[], ⟨List.not_mem_nil, filter_put_of_le s.group (hasName_groupLine g n []) fun _ => hits_of_hasName⟩,
    fun _ hw => .inl (isMember_nil.mp hw)⟩

theorem OwnGroup.putGroup_other (hes : PortableTable es) (hmix : Unmixed es) (h : OwnGroup es s g n)
    (hg : g ∈ touched es) (hg' : g' ∈ touched es) (hne : g' ≠ g) (n' : ℤ) :
    OwnGroup es (pattern.putGroup g' n' s) g n := by
  obtain ⟨members, ⟨hm, hline⟩, hown⟩ := h
  refine ⟨members, ⟨hm, ?_⟩, hown⟩
  rw [← hline]
  exact filter_put_other s.group (hits_of_hasName (hasName_groupLine g' n' [])) fun _ =>
    hasName_of_hits hmix.groups (fun g hg => (hes.touched g hg).memberName.no_colon) hg' hg hne

/-- Adding a group with the id -1 keeps the ids of all groups, but for its own, which it rounds. -/
theorem OwnGroup.addOneGroup (hes : PortableTable es) (hmix : Unmixed es) (h : OwnGroup es s g n)
    (hg : g ∈ touched es) (hg' : g' ∈ touched es) (ht : pattern.addOneGroup g' (-1) s = .ok t) :
    OwnGroup es t g (if g = g' then rounded n else n) := by
  obtain ⟨m, hm, rfl⟩ := addOneGroup_put ht
  by_cases hgg : g = g'
  · subst hgg
    rw [if_pos rfl] at hm ⊢
    obtain rfl := h.hasGroup.generateGid (hes.touched g hg).memberName.no_colon hm
    exact putGroup_own s g _
  · rw [if_neg hgg]
    exact h.putGroup_other hes hmix hg hg' (Ne.symm hgg) m

/-- The passes of a run. -/
theorem pattern_passes (h : pattern.main env es s = .ok t) :
    ∃ u v, Script.forEach (explicitGroups es) (fun op => pattern.addOneGroup op.1 op.2) s = .ok u ∧
      Script.forEach (autoGroups es) (pattern.addOneGroup · (-1)) u = .ok v ∧
      Script.forEach (users es) (pattern.add env) v = .ok t := by
  rw [main_eq_calls, calls_eq] at h
  obtain ⟨v, hgroups, husers⟩ := Script.forEach_append_ok.mp h
  obtain ⟨u, hexplicit, hauto⟩ := Script.forEach_append_ok.mp hgroups
  rw [Script.forEach_map] at husers hexplicit hauto
  exact ⟨u, v, hexplicit, hauto, husers⟩

/-- After the first pass a group has the last id that an entry gives it. -/
theorem explicit_own (hes : PortableTable es) (hmix : Unmixed es)
    (hu : Script.forEach (explicitGroups es) (fun op => pattern.addOneGroup op.1 op.2) s = .ok u)
    (hg : g ∈ touched es) (hlast : lastGid g (explicitGroups es) = some n) : OwnGroup es u g n := by
  refine Script.forEach_inv (fun done v => ∀ n, lastGid g done = some n → OwnGroup es v g n) (by simp [lastGid])
    (fun done op v w hmem hI hadd n hn => ?_) hu n hlast
  obtain ⟨e, he, rfl⟩ := List.mem_map.mp hmem
  obtain ⟨m, hm, h0⟩ := explicit_iff.mp (List.mem_filter.mp he).2
  obtain ⟨k, hk, rfl⟩ := addOneGroup_put hadd
  rw [hm, Option.getD_some, if_neg (by omega)] at hk
  obtain rfl := Except.ok.inj hk
  rw [lastGid_append, hm, Option.getD_some] at hn
  by_cases hgg : e.group = g
  · rw [if_pos hgg] at hn
    rw [← hgg, ← Option.some.inj hn]
    exact putGroup_own v e.group m
  · rw [if_neg hgg] at hn
    exact (hI n hn).putGroup_other hes hmix hg (explicitGroups_touched hmem) hgg _

/-- The later passes keep an id or round it. -/
theorem auto_own (hes : PortableTable es) (hmix : Unmixed es)
    (hv : Script.forEach (autoGroups es) (pattern.addOneGroup · (-1)) u = .ok v) (hg : g ∈ touched es)
    (h : OwnGroup es u g n) : OwnGroup es v g (settle (autoGroups es) g n) := by
  refine Script.forEach_inv (fun done v => OwnGroup es v g (settle done g n)) (by simpa using h) ?_ hv
  intro done g' _ _ hmem hI hadd
  rw [settle_append]
  exact hI.addOneGroup hes hmix hg (autoGroups_touched hmem) hadd

/-- The groups of these passes have lines with exact ids. -/
theorem auto_exact (hes : PortableTable es) (hmix : Unmixed es)
    (hv : Script.forEach (autoGroups es) (pattern.addOneGroup · (-1)) u = .ok v) :
    ∀ g ∈ autoGroups es, ∃ n, OwnGroup es v g n ∧ Exact n := by
  have hall : ∀ g ∈ autoGroups es, g ∈ touched es → ∃ n, OwnGroup es v g n ∧ Exact n := by
    refine Script.forEach_inv (fun done v => ∀ g ∈ done, g ∈ touched es → ∃ n, OwnGroup es v g n ∧ Exact n)
      (by simp) (fun done g' v w hmem hI hadd g hdone hg => ?_) hv
    by_cases hgg : g = g'
    · obtain ⟨n, hn, rfl⟩ := addOneGroup_put hadd
      rw [if_pos rfl] at hn
      subst hgg
      exact ⟨n, putGroup_own v g n, exact_of_generateGid hn⟩
    · have hold := (List.mem_append.mp hdone).resolve_right fun h => hgg (List.mem_singleton.mp h)
      obtain ⟨n, hn, hexact⟩ := hI g hold hg
      have hkept := hn.addOneGroup hes hmix hg (autoGroups_touched hmem) hadd
      rw [if_neg hgg] at hkept
      exact ⟨n, hkept, hexact⟩
  exact fun g hg => hall g hg (autoGroups_touched hg)

/-- A main group has a line when the users are added, with an exact id or with its last explicit one. -/
theorem main_group_own (hes : PortableTable es) (hmix : Unmixed es)
    (hu : Script.forEach (explicitGroups es) (fun op => pattern.addOneGroup op.1 op.2) s = .ok u)
    (hv : Script.forEach (autoGroups es) (pattern.addOneGroup · (-1)) u = .ok v) (he : e ∈ es)
    (hgid : explicit e.gid = true ∨ automatic e.gid = true) :
    ∃ n, OwnGroup es v e.group n ∧ Fits n ∧
      (e.group ∈ autoGroups es ∧ Exact n ∨ e.group ∉ autoGroups es ∧ lastGid e.group (explicitGroups es) = some n) := by
  by_cases hauto : e.group ∈ autoGroups es
  · obtain ⟨n, hn, hexact⟩ := auto_exact hes hmix hv e.group hauto
    exact ⟨n, hn, hexact.fits, .inl ⟨hauto, hexact⟩⟩
  · have hexp : explicit e.gid = true := hgid.resolve_right fun h => hauto
      (List.mem_append_left _ (List.mem_map.mpr ⟨e, List.mem_filter.mpr ⟨he, h⟩, rfl⟩))
    have hmem : (e.group, e.gid.getD 0) ∈ explicitGroups es :=
      List.mem_map.mpr ⟨e, List.mem_filter.mpr ⟨he, hexp⟩, rfl⟩
    obtain ⟨n, hn⟩ := exists_lastGid hmem
    have hg := group_touched he hgid
    have hgroup := auto_own hes hmix hv hg (explicit_own hes hmix hu hg hn)
    rw [settle, if_neg hauto] at hgroup
    exact ⟨n, hgroup, fits_lastGid hn, .inr ⟨hauto, hn⟩⟩

/-! ### Members -/

theorem hasName_memberMatch (u g : Text) {name : Text} (hname : MemberName name) (line : Text) :
    hasName name (memberMatch u g line) = hasName name line := by
  have hnone : ∀ l, ':' ∉ l → hasName name l = false := by
    intro l hl
    by_contra h
    obtain ⟨rest, rfl⟩ := hasName_iff.mp (by simpa using h)
    simp at hl
  by_cases hcolon : ':' ∈ line
  · obtain ⟨a, b, rfl, ha⟩ := List.eq_append_cons_of_mem hcolon
    obtain ⟨b', hb'⟩ := exists_memberMatch u g ha b
    have ha' : ':' ∉ squeeze a := fun h => ha ((squeeze_sublist a).mem h)
    rw [hb', Bool.eq_iff_iff, hasName_iff_field_one hname.no_colon (by simp),
      hasName_iff_field_one hname.no_colon (by simp), field_one ha' (hasName_line _ _),
      field_one ha (hasName_line _ _), squeeze_eq_plain hname.no_comma]
  · rw [memberMatch_of_no_colon u g hcolon, hnone line hcolon,
      hnone _ fun h => hcolon ((squeeze_sublist line).mem h)]

theorem edits_cons (p : Text × Text) (ps : List (Text × Text)) (line : Text) :
    pattern.edits (p :: ps) line = pattern.edits ps (memberMatch p.1 p.2 line) := rfl

theorem filter_edits {name : Text} (hname : MemberName name) (ps : List (Text × Text)) (file : List Text) :
    (file.map (pattern.edits ps)).filter (hasName name) =
      (file.filter (hasName name)).map (pattern.edits ps) := by
  have hedits : ∀ line, hasName name (pattern.edits ps line) = hasName name line := by
    induction ps with
    | nil => exact fun _ => rfl
    | cons p ps ih =>
      intro line
      rw [edits_cons, ih, hasName_memberMatch p.1 p.2 hname]
  rw [List.filter_map]
  congr 1
  exact List.filter_congr fun line _ => hedits line

/-- Adding a user to groups keeps the members of a group, and makes the user one of them if the group is
among the groups. -/
theorem edits_own (hes : PortableTable es) (hmix : Unmixed es) (hg : g ∈ touched es) {x : Text}
    (hx : x ∈ usernames es) (gs : List Text) {d : Text} (hd : ':' ∉ d)
    (hown : ∀ w, IsMember w d → w = [] ∨ w ∈ usernames es) :
    ∃ d', ':' ∉ d' ∧ pattern.edits (gs.map (x, ·)) (groupLine g n d) = groupLine g n d' ∧
      (∀ w, IsMember w d' → w = [] ∨ w ∈ usernames es) ∧ (∀ w ≠ [], IsMember w d → IsMember w d') ∧
      (g ∈ gs → IsMember x d') := by
  have hxname := hes.usernames x hx
  induction gs generalizing d with
  | nil => exact ⟨d, hd, rfl, hown, fun _ _ => id, by simp⟩
  | cons g' gs ih =>
    obtain ⟨d₁, hd₁, hline, hback, hself, hkeep⟩ := @memberMatch_groupLine x g d n
      (hes.touched g hg).memberName hxname hd (fun t ht h => hmix.members x hx t ht fun w hw => hown w (h w hw)) g'
    have hown₁ : ∀ w, IsMember w d₁ → w = [] ∨ w ∈ usernames es := by
      intro w hw
      rcases hback w hw with rfl | rfl | hw
      · exact .inl rfl
      · exact .inr hx
      · exact hown w hw
    obtain ⟨d', hd', hedits, hown', hkeep', hself'⟩ := ih hd₁ hown₁
    refine ⟨d', hd', ?_, hown', fun w hw h => hkeep' w hw (hkeep w hw h), fun hmem => ?_⟩
    · rw [List.map_cons, edits_cons, hline, hedits]
    · by_cases hgg : g = g'
      · subst hgg
        exact hkeep' x hxname.memberName.ne_nil (hself (hits_of_hasName (hasName_groupLine g n d)))
      · exact hself' ((List.mem_cons.mp hmem).resolve_left hgg)

/-- The line of a group that is there with its users, after a user has been added to groups. -/
theorem join_own (hes : PortableTable es) (hmix : Unmixed es) (hg : g ∈ touched es) (he : e ∈ es)
    (hreal : e.real = true) {d : Text} (h : GroupIs s g n d)
    (hown : ∀ w, IsMember w d → w = [] ∨ w ∈ usernames es) :
    ∃ d', GroupIs (pattern.join e.memberships s) g n d' ∧
      (∀ w, IsMember w d' → w = [] ∨ w ∈ usernames es) ∧ (∀ w ≠ [], IsMember w d → IsMember w d') ∧
      (g ∈ e.additional → IsMember e.username d') := by
  obtain ⟨d', hd', hline, hown', hkeep, hself⟩ :=
    @edits_own es g n hes hmix hg _ (mem_usernames he hreal) e.additional d h.1 hown
  refine ⟨d', ⟨hd', ?_⟩, hown', hkeep, hself⟩
  have hfilter := filter_edits (hes.touched g hg).memberName e.memberships s.group
  rw [join, hfilter, h.2, List.map_singleton]
  exact congrArg (fun l => [l]) hline

theorem OwnGroup.putUser (hes : PortableTable es) (hmix : Unmixed es) (h : OwnGroup es s g n)
    (hg : g ∈ touched es) (he : e ∈ es) (hreal : e.real = true) :
    OwnGroup es (pattern.putUser env e uid gid home passwd s) g n := by
  obtain ⟨d, hd, hown⟩ := h
  obtain ⟨d', hd', hown', -⟩ := join_own hes hmix hg he hreal hd hown
  exact ⟨d', hd', hown'⟩

/-! ### Bare names -/

theorem colon_mem {name line : Text} (h : hasName name line = true) : ':' ∈ line := by
  obtain ⟨rest, rfl⟩ := hasName_iff.mp h
  simp

/-- Writing a line with a colon neither adds nor removes a bare name. -/
theorem mem_put_bare {name k line : Text} {file : List Text} (hname : ':' ∉ name) (hline : ':' ∈ line) :
    name ∈ put hits k line file ↔ name ∈ file := by
  have hno : hits k name = false := by
    by_contra h
    obtain ⟨m, rest, rfl, -⟩ := hits_iff.mp (by simpa using h)
    simp at hname
  have hne : name ≠ line := fun h => hname (h ▸ hline)
  simp [mem_put, hno, hne]

theorem putUser_bare {name : Text} (hname : ':' ∉ name) (s : Target) :
    (name ∈ (pattern.putUser env e uid gid home passwd s).passwd ↔ name ∈ s.passwd) ∧
      (name ∈ (pattern.putUser env e uid gid home passwd s).shadow ↔ name ∈ s.shadow) :=
  ⟨mem_put_bare hname (colon_mem (hasName_passwdLine _ _ _ _ _ _)),
    mem_put_bare hname (colon_mem (hasName_shadowLine _ _))⟩

/-- The passes over the groups leave the users alone. -/
theorem passes_keep_users {α : Type*} {ops : List α} {name : α → Text} {id : α → ℤ}
    (hu : Script.forEach ops (fun op => pattern.addOneGroup (name op) (id op)) s = .ok u) :
    u.passwd = s.passwd ∧ u.shadow = s.shadow := by
  refine Script.forEach_inv (fun _ v => v.passwd = s.passwd ∧ v.shadow = s.shadow) ⟨rfl, rfl⟩ ?_ hu
  intro done op v w _ hv hadd
  obtain ⟨n, -, rfl⟩ := addOneGroup_put hadd
  exact hv

/-- The bare names of users stay through the passes. -/
theorem users_bare {name : Text} (hname : ':' ∉ name)
    (ht : Script.forEach (users es) (pattern.add env) v = .ok t) :
    (name ∈ t.passwd ↔ name ∈ v.passwd) ∧ (name ∈ t.shadow ↔ name ∈ v.shadow) := by
  refine Script.forEach_inv (fun _ u => (name ∈ u.passwd ↔ name ∈ v.passwd) ∧
    (name ∈ u.shadow ↔ name ∈ v.shadow)) ⟨Iff.rfl, Iff.rfl⟩ ?_ ht
  intro done e u w _ hu hadd
  obtain ⟨uid, gid, home, passwd, -, rfl⟩ := Spliced.add_ok hadd
  obtain ⟨hp, hs⟩ := @putUser_bare env e uid gid home passwd name hname u
  exact ⟨hp.trans hu.1, hs.trans hu.2⟩

theorem mem_join_bare {name : Text} (hname : MemberName name) (ps : List (Text × Text)) :
    name ∈ (pattern.join ps s).group ↔ name ∈ s.group := by
  have hstep : ∀ p : Text × Text, ∀ line, memberMatch p.1 p.2 line = name ↔ line = name := by
    intro p line
    by_cases hcolon : ':' ∈ line
    · obtain ⟨a, b, rfl, ha⟩ := List.eq_append_cons_of_mem hcolon
      obtain ⟨b', hb'⟩ := exists_memberMatch p.1 p.2 ha b
      have hne : ∀ x y, x ++ ':' :: y ≠ name := fun x y h => hname.no_colon (h ▸ by simp)
      simp [hb', hne]
    · rw [memberMatch_of_no_colon _ _ hcolon, squeeze_eq_plain hname.no_comma]
  have hedits : ∀ line, pattern.edits ps line = name ↔ line = name := by
    induction ps with
    | nil => exact fun _ => Iff.rfl
    | cons p ps ih => exact fun line => by rw [edits_cons, ih, hstep]
  simp only [join, List.mem_map, hedits, exists_eq_right]

/-- A name with one line, and one that ends in a colon, has no bare line. -/
theorem not_bare_of_single {name line : Text} {file : List Text} (hname : ':' ∉ name)
    (hone : file.filter (field 1 · = name) = [line]) (hline : ∃ l ∈ file, hasName name l = true) :
    name ∉ file := by
  intro hbare
  obtain ⟨l, hl, hhas⟩ := hline
  have hb : name ∈ file.filter (field 1 · = name) :=
    List.mem_filter.mpr ⟨hbare, by simp [field, fields_of_not_mem hname]⟩
  have hw : l ∈ file.filter (field 1 · = name) := List.mem_filter.mpr ⟨hl, by simpa using field_one hname hhas⟩
  rw [hone, List.mem_singleton] at hb hw
  exact hname (hb ▸ hw ▸ colon_mem hhas)

theorem mem_of_filter {name line : Text} {file : List Text} (h : file.filter (hasName name) = [line]) :
    ∃ l ∈ file, hasName name l = true :=
  ⟨line, List.mem_filter.mp (h ▸ List.mem_singleton.mpr rfl)⟩

/-- A group with one result of the look-up has no bare name in the file. -/
theorem HasGroup.not_bare (h : HasGroup s g n) (hg : ':' ∉ g) {m : ℤ} (hids : getGid s g = [m]) :
    g ∉ s.group := by
  obtain ⟨members, -, hline⟩ := h
  have hone : (s.group.filter (field 1 · = g)).length = 1 := by
    simpa [getGid, lookup] using congrArg List.length hids
  obtain ⟨line, hall⟩ := List.length_eq_one_iff.mp hone
  exact not_bare_of_single hg hall (mem_of_filter hline)

/-! ### The users of the table -/

theorem putUser_user (s : Target) : HasUser (pattern.putUser env e uid gid home passwd s) e.username uid gid :=
  ⟨_, _, _, filter_put_of_le s.passwd (hasName_passwdLine _ _ _ _ _ _) fun _ => hits_of_hasName⟩

theorem putUser_shadow (s : Target) : HasShadow (pattern.putUser env e uid gid home passwd s) e.username :=
  ⟨_, filter_put_of_le s.shadow (hasName_shadowLine _ _) fun _ => hits_of_hasName⟩

/-- The lines of the other users stay. -/
theorem putUser_others (hes : PortableTable es) (hmix : Unmixed es) {x : Text} (hx : x ∈ usernames es)
    (he : e ∈ es) (hreal : e.real = true) (hne : e.username ≠ x) (s : Target) :
    (pattern.putUser env e uid gid home passwd s).passwd.filter (hasName x) = s.passwd.filter (hasName x) ∧
      (pattern.putUser env e uid gid home passwd s).shadow.filter (hasName x) = s.shadow.filter (hasName x) := by
  have hother : ∀ line, hits e.username line = true → hasName x line = false := fun _ =>
    hasName_of_hits hmix.users (fun u hu => (hes.usernames u hu).memberName.no_colon) (mem_usernames he hreal)
      hx hne
  exact ⟨filter_put_other s.passwd (hits_of_hasName (hasName_passwdLine _ _ _ _ _ _)) hother,
    filter_put_other s.shadow (hits_of_hasName (hasName_shadowLine _ _)) hother⟩

/-- The entry is done: its user has a line with the id of its main group, a
password, and its additional groups. -/
structure Made (es : List Entry) (s : Target) (e : Entry) : Prop where
  user : ∃ uid gid, HasUser s e.username uid (rounded gid) ∧ OwnGroup es s e.group gid ∧ Fits gid
  bare : e.group ∉ s.group
  shadow : HasShadow s e.username
  members : ∀ g ∈ e.additional, ∃ gid members, GroupIs s g gid members ∧
    (∀ w, IsMember w members → w = [] ∨ w ∈ usernames es) ∧ IsMember e.username members

theorem putUser_made (hes : PortableTable es) (hmix : Unmixed es) (h : e.Found env s uid gid home passwd)
    (he : e ∈ es) (hreal : e.real = true) (hg : e.group ∈ touched es) (hgroup : OwnGroup es s e.group n)
    (hfits : Fits n) (hadd : ∀ g ∈ e.additional, ∃ n, OwnGroup es s g n) :
    Made es (pattern.putUser env e uid gid home passwd s) e := by
  have hname := (hes.touched _ hg).memberName
  obtain ⟨hids, rfl⟩ := h.gid_eq hgroup.hasGroup hname.no_colon
  refine ⟨⟨uid, n, putUser_user s, hgroup.putUser hes hmix hg he hreal, hfits⟩, ?_, putUser_shadow s,
    fun g hmem => ?_⟩
  · exact mt (mem_join_bare hname e.memberships).mp (hgroup.hasGroup.not_bare hname.no_colon hids)
  · obtain ⟨k, d, hd, hown⟩ := hadd g hmem
    obtain ⟨d', hd', hown', -, hself⟩ :=
      join_own hes hmix (autoGroups_touched (additional_auto he hmem)) he hreal hd hown
    exact ⟨k, d', hd', hown', hself hmem⟩

theorem Made.putUser (hes : PortableTable es) (hmix : Unmixed es) {e' : Entry} (h : Made es s e)
    (hfound : e'.Found env s uid gid home passwd) (he : e ∈ es) (hreal : e.real = true)
    (hg : e.group ∈ touched es) (he' : e' ∈ es) (hreal' : e'.real = true) (hbare : e.username ∉ s.passwd) :
    Made es (pattern.putUser env e' uid gid home passwd s) e := by
  have hgname := hes.group e he
  have huname := (hes.username e he hreal).memberName
  obtain ⟨m, k, huser, hgroup, hfits⟩ := h.user
  have hgroup' : OwnGroup es (pattern.putUser env e' uid gid home passwd s) e.group k :=
    hgroup.putUser hes hmix hg he' hreal'
  refine ⟨?_, mt (mem_join_bare hgname.memberName e'.memberships).mp h.bare, ?_, fun g hmem => ?_⟩
  · by_cases hname : e'.username = e.username
    · -- the user is added again, with the same main group
      have hsame := hfound.same_group (hname ▸ huser) hgroup.hasGroup rfl hfits hgname.memberName.ne_nil
        hgname.memberName.no_colon hgname.no_newline (hes.group e' he').no_newline
        (hname ▸ huname.no_colon) (hname ▸ hbare)
      obtain ⟨-, rfl⟩ := hfound.gid_eq (hsame ▸ hgroup.hasGroup) (hes.group e' he').memberName.no_colon
      exact ⟨uid, k, hname ▸ putUser_user s, hgroup', hfits⟩
    · obtain ⟨c, d, f, hline⟩ := huser
      refine ⟨m, k, ⟨c, d, f, ?_⟩, hgroup', hfits⟩
      rw [(putUser_others hes hmix (mem_usernames he hreal) he' hreal' hname s).1, hline]
  · by_cases hname : e'.username = e.username
    · exact hname ▸ putUser_shadow s
    · obtain ⟨q, hline⟩ := h.shadow
      refine ⟨q, ?_⟩
      rw [(putUser_others hes hmix (mem_usernames he hreal) he' hreal' hname s).2, hline]
  · obtain ⟨k, d, hd, hown, hself⟩ := h.members g hmem
    obtain ⟨d', hd', hown', hkeep, -⟩ :=
      join_own hes hmix (autoGroups_touched (additional_auto he hmem)) he' hreal' hd hown
    exact ⟨k, d', hd', hown', hkeep _ huname.ne_nil hself⟩

/-! ### Runs -/

/-- Every user that a pass takes has lines in the end. -/
theorem users_lines (hes : PortableTable es) (hmix : Unmixed es)
    (ht : Script.forEach (users es) (pattern.add env) v = .ok t) : ∀ e ∈ users es,
    (∃ l ∈ t.passwd, hasName e.username l = true) ∧ ∃ l ∈ t.shadow, hasName e.username l = true := by
  let Lines (w : Target) (e : Entry) : Prop :=
    (∃ l, w.passwd.filter (hasName e.username) = [l]) ∧ ∃ l, w.shadow.filter (hasName e.username) = [l]
  have hall : ∀ e ∈ users es, e ∈ users es → Lines t e := by
    refine Script.forEach_inv (fun done w => ∀ e ∈ done, e ∈ users es → Lines w e) (by simp)
      (fun done e' u w hmem' hI hadd e hdone hmem => ?_) ht
    obtain ⟨he, hreal, -⟩ := mem_users.mp hmem
    obtain ⟨he', hreal', -⟩ := mem_users.mp hmem'
    obtain ⟨uid, gid, home, passwd, -, rfl⟩ := Spliced.add_ok hadd
    by_cases hname : e'.username = e.username
    · obtain ⟨c, d, f, hline⟩ := @putUser_user env e' uid gid home passwd u
      obtain ⟨q, hshadow⟩ := @putUser_shadow env e' uid gid home passwd u
      rw [hname] at hline hshadow
      exact ⟨⟨_, hline⟩, _, hshadow⟩
    · have hold : e ∈ done := by
        refine (List.mem_append.mp hdone).resolve_right fun h => hname ?_
        rw [List.mem_singleton.mp h]
      obtain ⟨⟨l, hl⟩, l', hl'⟩ := hI e hold hmem
      obtain ⟨hpasswd, hshadow⟩ := @putUser_others env es e' uid gid home passwd hes hmix _
        (mem_usernames he hreal) he' hreal' hname u
      exact ⟨⟨l, hpasswd.trans hl⟩, l', hshadow.trans hl'⟩
  intro e he
  obtain ⟨⟨l, hl⟩, l', hl'⟩ := hall e he he
  exact ⟨mem_of_filter hl, mem_of_filter hl'⟩

/-- Every entry that a pass takes is done in the end, when the initial passwords
hold no bare name of a user. -/
theorem users_made (hes : PortableTable es) (hmix : Unmixed es)
    (hbare : ∀ e ∈ es, e.real = true → e.username ∉ v.passwd)
    (hgroup : ∀ e ∈ users es, e.group ∈ touched es ∧ ∃ n, OwnGroup es v e.group n ∧ Fits n)
    (hadd : ∀ g ∈ autoGroups es, ∃ n, OwnGroup es v g n)
    (ht : Script.forEach (users es) (pattern.add env) v = .ok t) :
    (∀ e ∈ users es, Made es t e) ∧ ∀ g ∈ touched es, ∀ n, OwnGroup es v g n → OwnGroup es t g n := by
  have hinv := Script.forEach_inv (fun done w => (∀ e ∈ done, e ∈ users es → Made es w e) ∧
      (∀ e ∈ es, e.real = true → e.username ∉ w.passwd) ∧
      ∀ g ∈ touched es, ∀ n, OwnGroup es v g n → OwnGroup es w g n)
    ⟨by simp, hbare, fun _ _ _ h => h⟩ (fun done e' u w hmem' hI hstep => ?_) ht
  · exact ⟨fun e he => hinv.1 e he he, hinv.2.2⟩
  obtain ⟨hmade, hbare, hkeep⟩ := hI
  obtain ⟨uid, gid, home, passwd, hfound, rfl⟩ := Spliced.add_ok hstep
  obtain ⟨he', hreal', -⟩ := mem_users.mp hmem'
  refine ⟨fun e hdone hmem => ?_, fun e he hreal => ?_, fun g hg n hn => ?_⟩
  · obtain ⟨he, hreal, -⟩ := mem_users.mp hmem
    obtain ⟨hg, n, hn, hfits⟩ := hgroup e hmem
    rcases List.mem_append.mp hdone with hdone | hlast
    · exact (hmade e hdone hmem).putUser hes hmix hfound he hreal hg he' hreal' (hbare e he hreal)
    · obtain rfl := List.mem_singleton.mp hlast
      refine putUser_made hes hmix hfound he hreal hg (hkeep _ hg n hn) hfits fun g hg => ?_
      obtain ⟨k, hk⟩ := hadd g (additional_auto he hg)
      exact ⟨k, hkeep g (autoGroups_touched (additional_auto he hg)) k hk⟩
  · exact mt (putUser_bare (hes.username e he hreal).memberName.no_colon u).1.mp (hbare e he hreal)
  · exact (hkeep g hg n hn).putUser hes hmix hg he' hreal'

/-- The line of a group has one id. -/
theorem HasGroup.unique {m : ℤ} (h : HasGroup s g n) (h' : HasGroup s g m) (hg : ':' ∉ g) : n = m := by
  obtain ⟨d, hd, hline⟩ := h
  obtain ⟨d', hd', hline'⟩ := h'
  have hsame := List.singleton_inj.mp (hline.symm.trans hline')
  have hf := congrArg fields hsame
  rw [fields_groupLine hg hd, fields_groupLine hg hd'] at hf
  simp only [List.cons.injEq, true_and] at hf
  exact decimal_inj.mp hf.1

/-- The files after the passes over the groups, and what is there of the users at the end. -/
structure Passed (env : Env) (es : List Entry) (s v t : Target) : Prop where
  passwd : v.passwd = s.passwd
  shadow : v.shadow = s.shadow
  added : Script.forEach (users es) (pattern.add env) v = .ok t
  group : ∀ e ∈ es, explicit e.gid = true ∨ automatic e.gid = true → ∃ n, OwnGroup es v e.group n ∧ Fits n ∧
    (e.group ∈ autoGroups es ∧ Exact n ∨ e.group ∉ autoGroups es ∧ lastGid e.group (explicitGroups es) = some n)
  additional : ∀ g ∈ autoGroups es, ∃ n, OwnGroup es v g n

theorem main_passed (hes : PortableTable es) (hmix : Unmixed es) (h : pattern.main env es s = .ok t) :
    ∃ v, Passed env es s v t := by
  obtain ⟨u, v, hexplicit, hauto, husers⟩ := pattern_passes h
  have hfirst := passes_keep_users hexplicit
  have hsecond : v.passwd = u.passwd ∧ v.shadow = u.shadow :=
    @passes_keep_users u v _ (autoGroups es) (fun g => g) (fun _ => -1) hauto
  refine ⟨v, hsecond.1.trans hfirst.1, hsecond.2.trans hfirst.2, husers,
    fun e he hgid => main_group_own hes hmix hexplicit hauto he hgid, fun g hg => ?_⟩
  obtain ⟨n, hn, -⟩ := auto_exact hes hmix hauto g hg
  exact ⟨n, hn⟩

theorem Passed.made (hes : PortableTable es) (hmix : Unmixed es) (h : Passed env es s v t)
    (hbare : ∀ e ∈ es, e.real = true → e.username ∉ s.passwd)
    (hgid : ∀ e ∈ es, explicit e.gid = true ∨ automatic e.gid = true) :
    (∀ e ∈ users es, Made es t e) ∧ ∀ g ∈ touched es, ∀ n, OwnGroup es v g n → OwnGroup es t g n := by
  refine users_made hes hmix (by rwa [h.passwd]) (fun e he => ?_) h.additional h.added
  obtain ⟨he, -⟩ := mem_users.mp he
  obtain ⟨n, hn, hfits, -⟩ := h.group e he (hgid e he)
  exact ⟨group_touched he (hgid e he), n, hn, hfits⟩

/-- The lines that are found for a user that has been made, with the gids in them. -/
theorem Made.lines (hes : PortableTable es) (h : Made es t e) (he : e ∈ es) (hreal : e.real = true)
    (hbare : e.username ∉ t.passwd) (hgid : OwnGroup es t e.group n) :
    ∃ line group, t.passwd.filter (field 1 · = e.username) = [line] ∧
      t.group.filter (field 1 · = e.group) = [group] ∧ field 4 line = decimal (rounded n) ∧
        field 3 group = decimal n := by
  have hu := (hes.username e he hreal).memberName.no_colon
  have hg := (hes.group e he).memberName.no_colon
  obtain ⟨uid, gid, ⟨comment, home, shell, hline⟩, hgroup, -⟩ := h.user
  obtain rfl := hgroup.hasGroup.unique hgid.hasGroup hg
  obtain ⟨d, ⟨hd, hgroup⟩, -⟩ := hgroup
  obtain ⟨more, hf⟩ := fields_passwdLine hu uid (rounded gid) comment home shell
  refine ⟨_, _, (filter_field_one hu hbare).trans hline, (filter_field_one hg h.bare).trans hgroup, ?_, ?_⟩
  · simp [field, hf]
  · simp [field, fields_groupLine hg hd]

theorem Creatable.allCreated (hes : PortableTable es) (hmix : Unmixed es) (h : Passed env es s v t)
    (hs : Creatable es s) : AllCreated es t := by
  have hgid : ∀ e ∈ es, explicit e.gid = true ∨ automatic e.gid = true := fun e he => taken_iff.mpr (hs.gid e he)
  have huser : ∀ e ∈ es, e.real = true → e ∈ users es := fun e he hreal =>
    mem_users.mpr ⟨he, hreal, taken_iff.mpr (hs.uid e he hreal)⟩
  obtain ⟨hmade, hkeep⟩ := h.made hes hmix hs.passwd hgid
  refine ⟨hgid, huser, fun e he hreal => ?_, fun e he hreal => ?_, fun e he hreal g hg => ?_⟩
  all_goals have hcolon := (hes.username e he hreal).memberName.no_colon
  all_goals have hbare := users_bare hcolon h.added
  all_goals rw [h.passwd, h.shadow] at hbare
  · obtain ⟨n, hn, -, hcase⟩ := h.group e he (hgid e he)
    have hexact : Exact n := hcase.elim And.right fun hlast =>
      (hs.exact e he hreal n hlast.2).resolve_left hlast.1
    obtain ⟨line, group, hline, hgroup, h4, h3⟩ := (hmade e (huser e he hreal)).lines hes he hreal
      (mt hbare.1.mp (hs.passwd e he hreal)) (hkeep _ (group_touched he (hgid e he)) n hn)
    exact ⟨line, group, hline, hgroup, by rw [h4, h3, hexact.eq]⟩
  · obtain ⟨passwd, hline⟩ := (hmade e (huser e he hreal)).shadow
    exact ⟨_, (filter_field_one hcolon (mt hbare.2.mp (hs.shadow e he hreal))).trans hline⟩
  · obtain ⟨gid, members, ⟨hm, hline⟩, -, hmem⟩ := (hmade e (huser e he hreal)).members g hg
    have hin : groupLine g gid members ∈ t.group.filter (hasName g) := by simp [hline]
    have hf : fields (groupLine g gid members) = [g, "x".toList, decimal gid, members] :=
      fields_groupLine (hes.additional e he g hg).memberName.no_colon hm
    exact ⟨_, (List.mem_filter.mp hin).1, by simp [field, hf], by simpa [field, hf] using hmem⟩

theorem AllCreated.creatable (hes : PortableTable es) (hmix : Unmixed es) (h : Passed env es s v t)
    (hall : AllCreated es t) : Creatable es s := by
  have hbare : ∀ e ∈ es, e.real = true → e.username ∉ s.passwd ∧ e.username ∉ s.shadow := by
    intro e he hreal
    have hcolon := (hes.username e he hreal).memberName.no_colon
    have hkept := users_bare hcolon h.added
    rw [h.passwd, h.shadow] at hkept
    obtain ⟨hpasswd, hshadow⟩ := users_lines hes hmix h.added e (hall.users e he hreal)
    obtain ⟨line, -, hline, -⟩ := hall.passwd e he hreal
    obtain ⟨line', hline'⟩ := hall.shadow e he hreal
    exact ⟨mt hkept.1.mpr (not_bare_of_single hcolon hline hpasswd),
      mt hkept.2.mpr (not_bare_of_single hcolon hline' hshadow)⟩
  have hgid := hall.groups
  refine ⟨fun e he => taken_iff.mp (hgid e he), fun e he hreal =>
    taken_iff.mp (mem_users.mp (hall.users e he hreal)).2.2, fun e he hreal n hlast => ?_,
    fun e he hreal => (hbare e he hreal).1, fun e he hreal => (hbare e he hreal).2⟩
  obtain ⟨hmade, hkeep⟩ := h.made hes hmix (fun e he hreal => (hbare e he hreal).1) hgid
  obtain ⟨m, hm, -, ⟨hauto, -⟩ | ⟨-, hm'⟩⟩ := h.group e he (hgid e he)
  · exact .inl hauto
  · -- the gid of the user is that of the group, and was rounded
    obtain rfl : m = n := Option.some.inj (hm'.symm.trans hlast)
    have hcolon := (hes.username e he hreal).memberName.no_colon
    have hkept := users_bare hcolon h.added
    rw [h.passwd] at hkept
    obtain ⟨line, group, hline, hgroup, h4, h3⟩ := (hmade e (hall.users e he hreal)).lines hes he hreal
      (mt hkept.1.mp (hbare e he hreal).1) (hkeep _ (group_touched he (hgid e he)) m hm)
    obtain ⟨line', group', hline', hgroup', heq⟩ := hall.passwd e he hreal
    obtain rfl := List.singleton_inj.mp (hline.symm.trans hline')
    obtain rfl := List.singleton_inj.mp (hgroup.symm.trans hgroup')
    rw [h4, h3] at heq
    exact .inr (decimal_inj.mp heq)

/-- A successful run on names that do not find each other creates all users as declared, and skips no
entry, exactly when the ids are integers from -1 on, no last explicit gid is rounded for the user alone,
and no bare name of a user was a line of the initial files. -/
theorem allCreated_iff (hes : PortableTable es) (hmix : Unmixed es) (h : pattern.main env es s = .ok t) :
    AllCreated es t ↔ Creatable es s := by
  obtain ⟨v, hv⟩ := main_passed hes hmix h
  exact ⟨fun hall => hall.creatable hes hmix hv, fun hs => hs.allCreated hes hmix hv⟩

/-- The users `ftp` and `web.ftp`, declared with and without ids. -/
def dottedUsers : List Entry :=
  [entry "ftp" (-1) "ftp" (-1) "-", entry "web.ftp" (-1) "www" (-1) "ftp,log.d", entry "ftp" 1001 "ftp" 1000 "www"]

/-- The pattern `web.ftp` finds no other member; were the dot a comma, `web` would be a user. -/
theorem dottedUsers_unmixed : Unmixed dottedUsers := by
  have hcases : ∀ u ∈ usernames dottedUsers, u = "web.ftp".toList ∨ '.' ∉ u := by decide +kernel
  refine ⟨by decide +kernel, by decide +kernel, fun u hu t ht hmembers => ?_⟩
  rcases hcases u hu with rfl | hdot
  · obtain ⟨c, rfl⟩ : ∃ c, t = ['w', 'e', 'b', c, 'f', 't', 'p'] := by
      simp [Matches, List.forall₂_cons_left_iff] at ht
      grind
    by_cases hc : c = ','
    · subst hc
      exact absurd (hmembers "web".toList (by decide)) (by decide +kernel)
    · have hself := hmembers ['w', 'e', 'b', c, 'f', 't', 'p'] (by
        rw [IsMember, List.splitOn_eq_singleton (by simp [Ne.symm hc])]
        exact List.mem_singleton.mpr rfl)
      have husers : usernames dottedUsers = ["ftp".toList, "web.ftp".toList, "ftp".toList] := by decide +kernel
      rw [husers] at hself
      simpa using hself
  · exact ((matches_iff_eq hdot).mp ht).symm

theorem allCreated_iff_dotted :
    ∃ t, pattern.main plainEnv dottedUsers rootOnly = .ok t ∧ Creatable dottedUsers rootOnly ∧
      (AllCreated dottedUsers t ↔ Creatable dottedUsers rootOnly) := by
  obtain ⟨t, ht, -⟩ := Exit.exists_of_any (pattern.main plainEnv dottedUsers rootOnly) (fun _ => true)
    (by decide +kernel)
  have hes : PortableTable dottedUsers := ⟨by decide +kernel, by decide +kernel, by decide +kernel⟩
  have hgid : ∀ e ∈ dottedUsers, explicit e.gid = true ∨ automatic e.gid = true := by decide +kernel
  have huid : ∀ e ∈ dottedUsers, explicit e.uid = true ∨ automatic e.uid = true := by decide +kernel
  have hauto : ∀ e ∈ dottedUsers, e.group ∈ autoGroups dottedUsers := by decide +kernel
  refine ⟨t, ht, ⟨fun e he => taken_iff.mp (hgid e he), fun e he _ => taken_iff.mp (huid e he),
    fun e he _ _ _ => .inl (hauto e he), ?_, ?_⟩, allCreated_iff hes dottedUsers_unmixed ht⟩
  · decide +kernel
  · decide +kernel

/-- A user with the id -2 is skipped without a message. -/
def skippedTable : List Entry := [entry "web" (-2) "www" (-1) "-"]

theorem skipped_user :
    ∃ t, PlainTable skippedTable ∧ Unmixed skippedTable ∧ pattern.main plainEnv skippedTable rootOnly = .ok t ∧
      t.passwd.filter (field 1 · = "web".toList) = [] ∧ ¬ AllCreated skippedTable t := by
  obtain ⟨t, ht, hnone⟩ := Exit.exists_of_any (pattern.main plainEnv skippedTable rootOnly)
    (fun t => t.passwd.filter (field 1 · = "web".toList) = []) (by decide +kernel)
  have hplain : PlainTable skippedTable := ⟨by decide +kernel, by decide +kernel, by decide +kernel⟩
  refine ⟨t, hplain, unmixed_of_plain hplain, ht, by simpa using hnone, fun hall => ?_⟩
  have hskip : entry "web" (-2) "www" (-1) "-" ∉ users skippedTable := by decide +kernel
  exact hskip (hall.users _ (List.mem_singleton.mpr rfl) (by decide +kernel))

end CargosBuildroot.Accounts
