import CargosBuildroot.Accounts.Settled

/-! Distinct names and ids. The checks on users keep the uids apart, and an
automatic gid is one that no group has. Explicit gids of entries without a user
are checked against nothing, and ids that are looked up come back as doubles, so the
ids of the final files are distinct just when those that the table and the initial
files settle are. -/

namespace CargosBuildroot.Accounts

open Shell Store

variable {env : Env} {s t u v w : Target} {es : List Entry}

/-- The lines are well-formed, and names and ids are pairwise distinct. -/
structure WellFormed (s : Target) : Prop where
  passwd : ∀ line ∈ s.passwd, IsRecord line
  group : ∀ line ∈ s.group, IsGroupRecord line
  usernames : (s.passwd.map (field 1)).Nodup
  uids : (s.passwd.map (leadingInt <| field 3 ·)).Nodup
  groups : (s.group.map (field 1)).Nodup
  gids : (s.group.map (leadingInt <| field 3 ·)).Nodup

/-- All usernames, uids, group names and gids are pairwise distinct. -/
def Consistent (s : Target) : Prop :=
  ((s.passwd.map (field 1)).Nodup ∧ (s.passwd.map (leadingInt <| field 3 ·)).Nodup) ∧
    (s.group.map (field 1)).Nodup ∧ (s.group.map (leadingInt <| field 3 ·)).Nodup

instance (s : Target) : Decidable (Consistent s) := by unfold Consistent; infer_instance

/-- The id of a name in a file. -/
def idOf (file : List Text) (name : Text) : Option ℤ :=
  ((file.filter (field 1 · = name)).map (leadingInt <| field 3 ·)).head?

/-- The last explicit gid of a group in the table, or else its gid in the initial file; a double
where an entry has the group with an automatic gid or as an additional one. -/
def finalGid (s : Target) (es : List Entry) (group : Text) : Option ℤ :=
  ((lastGid group (explicitGroups es)).or (idOf s.group group)).map (settle (autoGroups es) group)

/-- The uid of a user in the initial file, a double where the table has the user. -/
def finalUid (s : Target) (es : List Entry) (username : Text) : Option ℤ :=
  (idOf s.passwd username).map (settle ((users es).map (·.username)) username)

/-- No two groups are given the same gid, and no two initial users end with the same uid. -/
structure NoClash (s : Target) (es : List Entry) : Prop where
  gids : ∀ g g' n, finalGid s es g = some n → finalGid s es g' = some n → g = g'
  uids : ∀ x y n, finalUid s es x = some n → finalUid s es y = some n → x = y

theorem WellFormed.usersNamed (hs : WellFormed s) : UsersNamed s :=
  ⟨hs.passwd, by rw [accounts_fst]; exact hs.usernames⟩

theorem WellFormed.groupsNamed (hs : WellFormed s) : GroupsNamed s :=
  ⟨hs.group, by rw [accounts_fst]; exact hs.groups⟩

/-- The id of a name in a file with distinct names. -/
theorem idOf_eq_some {file : List Text} (hnames : ((accounts file).map Prod.fst).Nodup) {name : Text} {n : ℤ} :
    idOf file name = some n ↔ (name, n) ∈ records file := by
  have hid : idOf file name = (((records file).filter (atName name)).map Prod.snd).head? := by
    rw [records, List.filter_map, List.map_map]
    rfl
  have hnames : ((records file).map Prod.fst).Nodup := by rwa [records_fst, ← accounts_fst]
  rw [hid]
  constructor
  · intro h
    obtain ⟨a, ha, rfl⟩ := List.mem_map.mp (List.mem_of_head? h)
    obtain ⟨hmem, hname⟩ := List.mem_filter.mp ha
    exact (of_decide_eq_true hname : a.1 = name) ▸ hmem
  · intro h
    rw [filter_atName hnames h]
    rfl

/-- The ids of a file are distinct when the settled ones are, and all that share their double are
settled. -/
theorem ids_nodup_iff {file : List Text} {final : Text → Option ℤ}
    (hnames : ((accounts file).map Prod.fst).Nodup)
    (hkept : ∀ x n, final x = some n → (x, n) ∈ records file)
    (hshared : ∀ x y n, (x, n) ∈ accounts file → (y, n) ∈ accounts file →
      x = y ∨ (final x).isSome ∧ (final y).isSome) :
    ((records file).map Prod.snd).Nodup ↔
      ∀ x y n, final x = some n → final y = some n → x = y := by
  have hnames : ((records file).map Prod.fst).Nodup := by rwa [records_fst, ← accounts_fst]
  rw [numbers_nodup_iff hnames]
  constructor
  · intro hinj x y n hx hy
    exact hinj x y n (hkept x n hx) (hkept y n hy)
  · intro hclash x y n hx hy
    rcases hshared x y _ (mem_accounts_of_records hx) (mem_accounts_of_records hy) with heq | ⟨hsx, hsy⟩
    · exact heq
    · obtain ⟨m, hm⟩ := Option.isSome_iff_exists.mp hsx
      obtain ⟨m', hm'⟩ := Option.isSome_iff_exists.mp hsy
      obtain rfl := number_unique hnames (hkept x m hm) hx
      obtain rfl := number_unique hnames (hkept y m' hm') hy
      exact hclash x y _ hm hm'

/-! ### Groups -/

/-- The first pass writes the explicit gids as they are. -/
theorem putGroups_records {ops : List (Text × ℤ)} (hops : ∀ op ∈ ops, PlainName op.1 ∧ Fits op.2)
    (hs : GroupsNamed s) {g : Text} {n : ℤ} :
    (g, n) ∈ records (s.putGroups ops).group ↔ (lastGid g ops).or (idOf s.group g) = some n := by
  induction ops using List.reverseRecOn generalizing g n with
  | nil => simpa [lastGid, Target.putGroups] using (idOf_eq_some hs.names).symm
  | append_singleton ops op ih =>
    have hops' : ∀ op' ∈ ops, PlainName op'.1 ∧ Fits op'.2 := fun op' hop' => hops op' (by simp [hop'])
    have hnamed := (putGroups_settled hops' hs).1
    have hcolon := (hops op (by simp)).1.no_colon
    have hrec : records ((s.putGroups ops).putGroup op.1 op.2).group = assign op.1 op.2 _ :=
      records_put hnamed.isRecord hcolon (record_groupLine hcolon op.2)
    rw [putGroups_append, hrec, mem_assign, ih hops', lastGid_append]
    by_cases hg : op.1 = g
    · simp [hg, eq_comm]
    · simp [hg, Ne.symm hg]

/-- The later passes keep an id or round it. -/
theorem auto_records {names : List Text} (hnames : ∀ g ∈ names, PlainName g) (hs : GroupsNamed s)
    {g : Text} {n : ℤ} (hn : (g, n) ∈ records s.group)
    (hu : Script.forEach names (addOneGroup · (-1)) s = .ok u) :
    (g, settle names g n) ∈ records u.group := by
  let Keeps (done : List Text) (v : Target) : Prop :=
    GroupsNamed v ∧ (g, settle done g n) ∈ records v.group
  have hstart : Keeps [] s := ⟨hs, hn⟩
  refine (Script.forEach_inv Keeps hstart (fun done g' v w hmem hI hadd => ?_) hu).2
  obtain ⟨hnamed, hold⟩ := hI
  obtain ⟨m, hm, rfl⟩ := addOneGroup_ok.mp hadd
  rw [if_pos rfl] at hm
  have hplain := hnames g' hmem
  have hrec : records (v.putGroup g' m).group = assign g' m (records v.group) :=
    records_put hnamed.isRecord hplain.no_colon (record_groupLine hplain.no_colon m)
  refine ⟨(hnamed.putGroup hplain (exact_of_generateGid hm).fits).1, ?_⟩
  rw [hrec, mem_assign, settle_append]
  by_cases hg : g = g'
  · rw [if_pos hg]
    subst hg
    have hacc := mem_accounts_of_records hold
    rcases hnamed.generateGid hm with hids | ⟨hnone, -⟩
    · exact .inr ⟨rfl, number_unique hnamed.names hacc hids⟩
    · exact absurd hacc (hnone _)
  · rw [if_neg hg]
    exact .inl ⟨hold, hg⟩

/-- A settled gid is one that the table or the initial file gives. -/
theorem finalGid_isSome {g : Text} {n : ℤ} (h : settledGid s es g = some n) :
    (finalGid s es g).isSome := by
  rw [settledGid] at h
  rw [finalGid, Option.isSome_map]
  cases hlast : lastGid g (explicitGroups es) with
  | some m => rfl
  | none =>
    rw [hlast, Option.map_none, Option.none_or, getGid, lookup, List.head?_map] at h
    obtain ⟨line, hline, -⟩ := Option.map_eq_some_iff.mp h
    rw [Option.none_or, idOf, List.head?_map, hline]
    rfl

theorem gids_nodup_iff (hes : PlainTable es) (hs : GroupsNamed s)
    (hu : Script.forEach (autoGroups es) (addOneGroup · (-1)) (s.putGroups (explicitGroups es)) = .ok u) :
    ((records u.group).map Prod.snd).Nodup ↔
      ∀ g g' n, finalGid s es g = some n → finalGid s es g' = some n → g = g' := by
  have hsettled := groups_settled hes hs hu
  refine ids_nodup_iff hsettled.names (fun g n hn => ?_) fun g g' n hg hg' =>
    (hsettled.shared g g' n hg hg').imp_right (And.imp finalGid_isSome finalGid_isSome)
  obtain ⟨m, hm, rfl⟩ := Option.map_eq_some_iff.mp hn
  exact auto_records hes.autoGroups (putGroups_settled (plain_explicitGroups hes) hs).1
    ((putGroups_records (plain_explicitGroups hes) hs).mpr hm) hu

/-! ### Users -/

/-- In the passes over the users: the initial users keep their uids, or have them rounded, and only
initial users have uids with the same double. -/
structure UsersApart (s : Target) (done : List Text) (v : Target) : Prop extends UsersNamed v where
  kept : ∀ x n, (x, n) ∈ records s.passwd → (x, settle done x n) ∈ records v.passwd
  shared : ∀ x y n, (x, n) ∈ accounts v.passwd → (y, n) ∈ accounts v.passwd →
    x = y ∨ (x, n) ∈ accounts s.passwd ∧ (y, n) ∈ accounts s.passwd

theorem UsersApart.putUser {done : List Text} (h : UsersApart s done v) {e : Entry}
    (hu : PlainName e.username) {uid gid : ℤ} {home passwd : Text}
    (hfound : e.Found env v uid gid home passwd) :
    UsersApart s (done ++ [e.username]) (v.putUser env e uid gid home passwd) := by
  obtain ⟨hnamed, hrec⟩ := h.toUsersNamed.putUser hu hfound
  have hacc : accounts (v.putUser env e uid gid home passwd).passwd =
      assign e.username (rounded uid) (accounts v.passwd) := by
    rw [accounts_eq, hrec, assign_map, ← accounts_eq]
  refine ⟨hnamed, fun x n hn => ?_, fun x y n hx hy => ?_⟩
  · have hold := h.kept x n hn
    rw [hrec, mem_assign, settle_append]
    by_cases hx : x = e.username
    · rw [if_pos hx]
      subst hx
      exact .inr ⟨rfl, (hfound.uid_kept
        (getUid_of_mem h.toUsersNamed (mem_accounts_of_records hold))).symm⟩
    · rw [if_neg hx]
      exact .inl ⟨hold, hx⟩
  · -- what another name shares with the user, the user has had before
    have hother : ∀ z, (z, rounded uid) ∈ accounts v.passwd →
        z = e.username ∨ (z, rounded uid) ∈ accounts s.passwd ∧ (e.username, rounded uid) ∈ accounts s.passwd := by
      intro z hz
      rcases hfound.uid_free h.toUsersNamed hu hz with heq | hself
      · exact .inl heq
      · exact h.shared z e.username _ hz hself
    rw [hacc, mem_assign] at hx hy
    rcases hx with ⟨hx, hxne⟩ | ⟨rfl, rfl⟩ <;> rcases hy with ⟨hy, hyne⟩ | ⟨rfl, hn⟩
    · exact h.shared x y n hx hy
    · exact hn ▸ hother x (hn ▸ hx)
    · exact (hother y hy).imp Eq.symm And.symm
    · exact .inl rfl

theorem users_apart (hes : PlainTable es) (hs : UsersNamed u)
    (ht : Script.forEach (users es) (Entry.add env) u = .ok t) :
    UsersApart u ((users es).map (·.username)) t := by
  let Apart (done : List Entry) (v : Target) : Prop := UsersApart u (done.map (·.username)) v
  have hstart : Apart [] u := ⟨hs, fun _ _ => id, fun _ _ _ hx hy => .inr ⟨hx, hy⟩⟩
  refine Script.forEach_inv Apart hstart (fun done e v w hmem hI hadd => ?_) ht
  obtain ⟨he, hreal, -⟩ := mem_users.mp hmem
  obtain ⟨uid, gid, home, passwd, hfound, rfl⟩ := add_ok.mp hadd
  have hput := hI.putUser (hes.username e he hreal) hfound
  simpa only [Apart, List.map_append, List.map_singleton] using hput

theorem uids_nodup_iff (hes : PlainTable es) (hs : UsersNamed u)
    (ht : Script.forEach (users es) (Entry.add env) u = .ok t) :
    ((records t.passwd).map Prod.snd).Nodup ↔
      ∀ x y n, finalUid u es x = some n → finalUid u es y = some n → x = y := by
  have hapart := users_apart hes hs ht
  have hsome : ∀ {x : Text} {n : ℤ}, (x, n) ∈ accounts u.passwd → (finalUid u es x).isSome := by
    intro x n hx
    obtain ⟨m, hm, -⟩ := exists_records hx
    rw [finalUid, (idOf_eq_some hs.names).mpr hm]
    rfl
  refine ids_nodup_iff hapart.names (fun x n hn => ?_) fun x y n hx hy =>
    (hapart.shared x y n hx hy).imp_right (And.imp hsome hsome)
  obtain ⟨m, hm, rfl⟩ := Option.map_eq_some_iff.mp hn
  exact hapart.kept x m ((idOf_eq_some hs.names).mp hm)

/-- After a successful run on well-formed files all names are distinct, and so are all ids exactly
when the table and the initial files settle no id for two names. -/
theorem consistent_iff (hes : PlainTable es) (hs : WellFormed s) (h : main env es s = .ok t) :
    Consistent t ↔ NoClash s es := by
  obtain ⟨u, hauto, husers⟩ := main_ok.mp h
  have hsettled := groups_settled hes hs.groupsNamed hauto
  have hpasswd := (groups_keep_users hauto).1
  have hnamed : UsersNamed u := hs.usersNamed.of_passwd hpasswd
  obtain ⟨hnamed', -, hgroups⟩ := users_named hes (fun _ h => h) hnamed hsettled.record husers
  have hsnd : ∀ file : List Text, file.map (leadingInt <| field 3 ·) = (records file).map Prod.snd := by
    intro file
    simp [records, record, Function.comp_def]
  have hgids := gids_nodup_iff hes hs.groupsNamed hauto
  have huids := uids_nodup_iff hes hnamed husers
  have hfinal : finalUid u es = finalUid s es := by
    funext x
    rw [finalUid, finalUid, hpasswd]
  rw [hfinal] at huids
  have hnames : (t.group.map (field 1)).Nodup := by
    rw [← records_fst, hgroups, records_fst, ← accounts_fst]
    exact hsettled.names
  rw [Consistent, hsnd, hsnd, hgroups, hgids, huids]
  constructor
  · exact fun hall => ⟨hall.2.2, hall.1.2⟩
  · exact fun hclash => ⟨⟨accounts_fst _ ▸ hnamed'.names, hclash.uids⟩, hnames, hclash.gids⟩

theorem rootOnly_wellFormed : WellFormed rootOnly := by
  have hpasswd : IsRecord "root:x:0:0:root:/root:/bin/sh".toList :=
    ⟨"root".toList, "x".toList, "0:root:/root:/bin/sh".toList, 0, by decide, by decide, by decide,
      by decide, by decide, by decide⟩
  have hgroup : IsGroupRecord "root:x:0:".toList :=
    ⟨"root".toList, "x".toList, [], 0, by decide, by decide, by decide, by decide, by decide, by decide,
      by decide, by decide⟩
  refine ⟨?_, ?_, by decide, by decide, by decide, by decide⟩
  · simpa [rootOnly] using hpasswd
  · simpa [rootOnly] using hgroup

theorem consistent_iff_ftp :
    ∃ t, main plainEnv ftpTable rootOnly = .ok t ∧ (Consistent t ↔ NoClash rootOnly ftpTable) ∧
      Consistent t := by
  obtain ⟨t, ht, hcons⟩ := Exit.exists_of_any (main plainEnv ftpTable rootOnly)
    (fun t => decide (Consistent t)) (by decide +kernel)
  have hes : PlainTable ftpTable := ⟨by decide +kernel, by decide +kernel, by decide +kernel⟩
  exact ⟨t, ht, consistent_iff hes rootOnly_wellFormed ht, of_decide_eq_true hcons⟩

/-- Two entries without a user, which are not checked, take one gid. -/
def clashTable : List Entry := [entry "-" (-1) "a" 1000 "-", entry "-" (-1) "b" 1000 "-"]

theorem groups_clash :
    ∃ t, PlainTable clashTable ∧ WellFormed rootOnly ∧ main plainEnv clashTable rootOnly = .ok t ∧
      HasId t.group "a".toList 1000 ∧ HasId t.group "b".toList 1000 ∧ ¬ Consistent t := by
  obtain ⟨t, ht, htest⟩ := Exit.exists_of_any (main plainEnv clashTable rootOnly)
    (fun t => decide (HasId t.group "a".toList 1000 ∧ HasId t.group "b".toList 1000 ∧ ¬ Consistent t))
    (by decide +kernel)
  exact ⟨t, ⟨by decide +kernel, by decide +kernel, by decide +kernel⟩, rootOnly_wellFormed, ht,
    of_decide_eq_true htest⟩

end CargosBuildroot.Accounts
