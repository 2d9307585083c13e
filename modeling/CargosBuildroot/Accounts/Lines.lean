import CargosBuildroot.Accounts.Commands

/-! What the files hold for a name: one line of a group with its id and members,
one line of a user with its ids, one line of its password. Each command keeps
these for the other names, and keeps the id of the groups for all names. Nothing
is assumed of the other lines of the files. -/

namespace CargosBuildroot.Accounts

open Shell Store

/-- The table names users and groups by plain names; `-` stands for no user. -/
structure PlainTable (es : List Entry) : Prop where
  group : ∀ e ∈ es, PlainName e.group
  username : ∀ e ∈ es, e.real = true → PlainName e.username
  additional : ∀ e ∈ es, ∀ g ∈ e.additional, PlainName g

/-- The group file has one line of the group, with the id and the members. -/
def GroupIs (s : Target) (group : Text) (gid : ℤ) (members : Text) : Prop :=
  ':' ∉ members ∧ s.group.filter (hasName group) = [groupLine group gid members]

def HasGroup (s : Target) (group : Text) (gid : ℤ) : Prop := ∃ members, GroupIs s group gid members

/-- The password file has one line of the user, with the ids. -/
def HasUser (s : Target) (username : Text) (uid gid : ℤ) : Prop :=
  ∃ comment home shell,
    s.passwd.filter (hasName username) = [passwdLine username uid gid comment home shell]

def HasShadow (s : Target) (username : Text) : Prop :=
  ∃ passwd, s.shadow.filter (hasName username) = [shadowLine username passwd]

/-- The user is a member of the group. -/
def HasMember (s : Target) (group username : Text) : Prop :=
  ∃ gid members, GroupIs s group gid members ∧ IsMember username members

variable {s t : Target} {group username name : Text} {uid gid : ℤ}

/-! ### The written lines -/

theorem fields_groupLine (hg : ':' ∉ group) {members : Text} (hm : ':' ∉ members) :
    fields (groupLine group gid members) = [group, "x".toList, decimal gid, members] := by
  rw [groupLine_eq]
  exact fields_quad hg (by decide) (not_mem_decimal (by decide) (by decide)) hm

theorem hasName_groupLine (group : Text) (gid : ℤ) (members : Text) :
    hasName group (groupLine group gid members) = true := by
  have h : groupLine group gid members = group ++ ':' :: ("x:".toList ++ decimal gid ++ ':' :: members) := by
    simp [groupLine]
  rw [h]
  exact hasName_line _ _

theorem hasName_passwdLine (username : Text) (uid gid : ℤ) (comment home shell : Text) :
    hasName username (passwdLine username uid gid comment home shell) = true := by
  have h : passwdLine username uid gid comment home shell = username ++ ':' ::
      ("x:".toList ++ decimal uid ++ ':' :: decimal gid ++ ':' :: comment ++ ':' :: home ++ ':' :: shell) := by
    simp [passwdLine]
  rw [h]
  exact hasName_line _ _

theorem hasName_shadowLine (username passwd : Text) :
    hasName username (shadowLine username passwd) = true := by
  have h : shadowLine username passwd = username ++ ':' :: (passwd ++ ":::::::".toList) := by
    simp [shadowLine]
  rw [h]
  exact hasName_line _ _

theorem fields_passwdLine (hu : ':' ∉ username) (uid gid : ℤ) (comment home shell : Text) :
    ∃ more, fields (passwdLine username uid gid comment home shell) =
      username :: "x".toList :: decimal uid :: decimal gid :: more := by
  have hdec : ∀ n : ℤ, ':' ∉ decimal n := fun n => not_mem_decimal (by decide) (by decide)
  have h : passwdLine username uid gid comment home shell = username ++ ':' :: ("x".toList ++ ':' ::
      (decimal uid ++ ':' :: (decimal gid ++ ':' :: (comment ++ ':' :: home ++ ':' :: shell)))) := by
    simp [passwdLine]
  exact ⟨_, by rw [h, fields_cons hu, fields_cons (by decide), fields_cons (hdec _), fields_cons (hdec _)]⟩

/-- A file without the bare name as a line has no other lines of the name than
those that start with it and a colon. -/
theorem filter_field_one (hname : ':' ∉ name) {file : List Text} (hbare : name ∉ file) :
    file.filter (field 1 · = name) = file.filter (hasName name) := by
  refine List.filter_congr fun line hline => ?_
  by_cases hcolon : ':' ∈ line
  · rw [Bool.eq_iff_iff, decide_eq_true_eq, hasName_iff_field_one hname hcolon]
  · have hfield : field 1 line = line := by simp [field, fields_of_not_mem hcolon]
    have hne : line ≠ name := fun h => hbare (h ▸ hline)
    have hno : hasName name line = false := by
      by_contra h
      obtain ⟨rest, rfl⟩ := hasName_iff.mp (by simpa using h)
      simp at hcolon
    simp [hfield, hne, hno]

theorem lookup_eq (hname : ':' ∉ name) {file : List Text} (hbare : name ∉ file) (n : ℕ) :
    lookup n name file = (file.filter (hasName name)).map (awkInt <| field n ·) := by
  rw [lookup, filter_field_one hname hbare]

/-- The bare name gives the look-up a result beside that of the line of the name. -/
theorem mem_lookup {n : ℕ} (hname : ':' ∉ name) {file : List Text} {line : Text}
    (h : file.filter (hasName name) = [line]) : awkInt (field n line) ∈ lookup n name file := by
  have hmem : line ∈ file.filter (hasName name) := by simp [h]
  obtain ⟨hfile, hline⟩ := List.mem_filter.mp hmem
  refine List.mem_map.mpr ⟨line, List.mem_filter.mpr ⟨hfile, ?_⟩, rfl⟩
  simpa using field_one hname hline

theorem HasGroup.mem_getGid (h : HasGroup s group gid) (hg : ':' ∉ group) :
    rounded gid ∈ getGid s group := by
  obtain ⟨members, hm, hline⟩ := h
  have := mem_lookup (n := 3) hg hline
  simpa [getGid, field, fields_groupLine hg hm, awkInt_decimal] using this

theorem HasUser.mem_getUid (h : HasUser s username uid gid) (hu : ':' ∉ username) :
    rounded uid ∈ getUid s username := by
  obtain ⟨comment, home, shell, hline⟩ := h
  obtain ⟨more, hf⟩ := fields_passwdLine hu uid gid comment home shell
  have := mem_lookup (n := 3) hu hline
  simpa [getUid, field, hf, awkInt_decimal] using this

/-! ### Groups -/

theorem putGroup_groupIs (s : Target) (group : Text) (gid : ℤ) :
    GroupIs (s.putGroup group gid) group gid [] :=
  ⟨List.not_mem_nil, filter_put_self s.group (hasName_groupLine group gid [])⟩

theorem GroupIs.putGroup_other {members : Text} (h : GroupIs s group gid members) {group' : Text}
    (hg : ':' ∉ group) (hg' : ':' ∉ group') (hne : group ≠ group') (gid' : ℤ) :
    GroupIs (s.putGroup group' gid') group gid members := by
  refine ⟨h.1, ?_⟩
  rw [← h.2]
  exact filter_put_other s.group (hasName_groupLine group' gid' []) fun line =>
    hasName_of_ne hg' hg (Ne.symm hne)

/-- The id that is looked up is that of the line of the group, as awk prints it. -/
theorem HasGroup.generateGid (h : HasGroup s group gid) (hg : ':' ∉ group) {n : ℤ}
    (hn : generateGid group s = .ok n) : n = rounded gid := by
  have hmem := h.mem_getGid hg
  rcases generateId_ok hn with hn | ⟨hn, -⟩
  · simpa [hn, eq_comm] using hmem
  · simp [hn] at hmem

/-- Adding a group with the id -1 keeps the ids of all groups, but for its own, which it rounds. -/
theorem HasGroup.addOneGroup (h : HasGroup s group gid) {group' : Text} (hg : ':' ∉ group)
    (hg' : ':' ∉ group') (ht : addOneGroup group' (-1) s = .ok t) :
    HasGroup t group (if group = group' then rounded gid else gid) := by
  obtain ⟨n, hn, rfl⟩ := addOneGroup_ok.mp ht
  split
  · rename_i hsame
    subst hsame
    obtain rfl := h.generateGid hg (by simpa using hn)
    exact ⟨[], putGroup_groupIs s group _⟩
  · rename_i hne
    obtain ⟨members, hm⟩ := h
    exact ⟨members, hm.putGroup_other hg hg' hne n⟩

theorem HasGroup.addOneGroup_exact (h : HasGroup s group gid) (hgid : Exact gid) {group' : Text}
    (hg : ':' ∉ group) (hg' : ':' ∉ group') (ht : Accounts.addOneGroup group' (-1) s = .ok t) :
    HasGroup t group gid := by
  have hround := h.addOneGroup hg hg' ht
  rwa [hgid, ite_self] at hround

/-! ### Members -/

theorem memberLine_groupLine (hg : PlainName group) {members : Text} (hm : ':' ∉ members)
    {group' : Text} (hg' : ':' ∉ group') (hu : ':' ∉ username) :
    memberLine username group' (groupLine group gid members) =
      groupLine group gid (editList username (group = group') members) := by
  rw [groupLine_eq, groupLine_eq]
  exact memberLine_quad hg.no_colon (by decide) (not_mem_decimal (by decide) (by decide)) hm
    hg.no_comma (by decide) (not_mem_decimal (by decide) (by decide)) hg' hu

theorem isMember_edit {w members : Text} (hw : PlainName w) (here : Bool) (h : IsMember w members) :
    IsMember w (editList username here members) := by
  by_cases hne : w = username ∧ here = true
  · obtain ⟨rfl, rfl⟩ := hne
    exact isMember_editList_self hw.ne_nil hw.no_comma
  · exact isMember_editList hw.ne_nil (fun hh he => hne ⟨he, hh⟩) h

/-- Adding a user to groups keeps the members of a group, and makes the user one of
them if the group is among the groups. -/
theorem memberLines_groupLine (hg : PlainName group) (hu : PlainName username) (gid : ℤ)
    (groups : List Text) (hgs : ∀ g ∈ groups, ':' ∉ g) {members : Text} (hm : ':' ∉ members) :
    ∃ members', ':' ∉ members' ∧
      memberLines username groups (groupLine group gid members) = groupLine group gid members' ∧
      (∀ w, PlainName w → IsMember w members → IsMember w members') ∧
      (group ∈ groups → IsMember username members') := by
  induction groups generalizing members with
  | nil => exact ⟨members, hm, rfl, fun _ _ => id, by simp⟩
  | cons g groups ih =>
    obtain ⟨hcolon, hgs⟩ := List.forall_mem_cons.mp hgs
    have hedit : ':' ∉ editList username (group = g) members := editList_no_colon hu.no_colon hm
    obtain ⟨members', hm', hline, hkeep, hself⟩ := ih hgs hedit
    refine ⟨members', hm', ?_, fun w hw h => hkeep w hw (isMember_edit hw _ h), fun hmem => ?_⟩
    · rw [← hline, memberLines, List.foldl_cons, memberLine_groupLine hg hm hcolon hu.no_colon]
      rfl
    · by_cases hgg : group = g
      · refine hkeep username hu ?_
        rw [decide_eq_true hgg]
        exact isMember_editList_self hu.ne_nil hu.no_comma
      · exact hself ((List.mem_cons.mp hmem).resolve_left hgg)

theorem hasName_memberLines (hname : PlainName name) (username : Text) (groups : List Text)
    (line : Text) : hasName name (memberLines username groups line) = hasName name line := by
  induction groups generalizing line with
  | nil => rfl
  | cons g groups ih =>
    rw [memberLines, List.foldl_cons]
    exact (ih _).trans (hasName_memberLine username g hname.no_colon hname.no_comma line)

theorem filter_memberLines (hname : PlainName name) (username : Text) (groups file : List Text) :
    (file.map (memberLines username groups)).filter (hasName name) =
      (file.filter (hasName name)).map (memberLines username groups) := by
  rw [List.filter_map]
  congr 1
  exact List.filter_congr fun line _ => hasName_memberLines hname username groups line

theorem GroupIs.join {members : Text} (h : GroupIs s group gid members) (hg : PlainName group)
    (hu : PlainName username) {groups : List Text} (hgs : ∀ g ∈ groups, ':' ∉ g) :
    ∃ members', GroupIs (s.join username groups) group gid members' ∧
      (∀ w, PlainName w → IsMember w members → IsMember w members') ∧
      (group ∈ groups → IsMember username members') := by
  obtain ⟨members', hm', hline, hkeep, hself⟩ := memberLines_groupLine hg hu gid groups hgs h.1
  refine ⟨members', ⟨hm', ?_⟩, hkeep, hself⟩
  rw [Target.join, filter_memberLines hg, h.2, List.map_singleton, hline]

theorem HasGroup.join (h : HasGroup s group gid) (hg : PlainName group) (hu : PlainName username)
    {groups : List Text} (hgs : ∀ g ∈ groups, ':' ∉ g) : HasGroup (s.join username groups) group gid := by
  obtain ⟨members, hm⟩ := h
  obtain ⟨members', hm', -⟩ := hm.join hg hu hgs
  exact ⟨members', hm'⟩

theorem HasMember.join (h : HasMember s group name) (hg : PlainName group) (hn : PlainName name)
    (hu : PlainName username) {groups : List Text} (hgs : ∀ g ∈ groups, ':' ∉ g) :
    HasMember (s.join username groups) group name := by
  obtain ⟨gid, members, hm, hmem⟩ := h
  obtain ⟨members', hm', hkeep, -⟩ := hm.join hg hu hgs
  exact ⟨gid, members', hm', hkeep name hn hmem⟩

/-! ### Users -/

section PutUser

variable {env : Env} {e : Entry} {home passwd : Text}

theorem putUser_hasUser (s : Target) (uid gid : ℤ) :
    HasUser (s.putUser env e uid gid home passwd) e.username uid gid :=
  ⟨_, _, _, filter_put_self s.passwd (hasName_passwdLine _ _ _ _ _ _)⟩

theorem HasUser.putUser_other (h : HasUser s username uid gid) (hu : ':' ∉ username)
    (he : ':' ∉ e.username) (hne : username ≠ e.username) (uid' gid' : ℤ) :
    HasUser (s.putUser env e uid' gid' home passwd) username uid gid := by
  obtain ⟨c, d, f, hline⟩ := h
  refine ⟨c, d, f, ?_⟩
  rw [← hline]
  exact filter_put_other s.passwd (hasName_passwdLine _ _ _ _ _ _) fun line =>
    hasName_of_ne he hu (Ne.symm hne)

theorem HasShadow.putUser_other (h : HasShadow s username) (hu : ':' ∉ username)
    (he : ':' ∉ e.username) (hne : username ≠ e.username) (uid' gid' : ℤ) :
    HasShadow (s.putUser env e uid' gid' home passwd) username := by
  obtain ⟨p, hline⟩ := h
  refine ⟨p, ?_⟩
  rw [← hline]
  exact filter_put_other s.shadow (hasName_shadowLine _ _) fun line =>
    hasName_of_ne he hu (Ne.symm hne)

/-- The group file after `add_one_user` is that after the additional groups. -/
theorem HasGroup.putUser (h : HasGroup s group gid) (hg : PlainName group)
    (hu : PlainName e.username) (hgs : ∀ g ∈ e.additional, ':' ∉ g) (uid' gid' : ℤ) :
    HasGroup (s.putUser env e uid' gid' home passwd) group gid :=
  h.join hg hu hgs

end PutUser

end CargosBuildroot.Accounts
