import CargosBuildroot.Accounts.Passes
import CargosBuildroot.Accounts.Ids

/-! The ids as awk prints them, which are all that the script looks at. In the passes
over the groups an automatic gid is one that no group has, and a gid that the table or
the initial file gives to a group stays; in the passes over the users the checks keep
the uids apart. -/

namespace CargosBuildroot.Accounts

open Shell Store

variable {env : Env} {s t u v w : Target} {es : List Entry}

/-- The gid that the table or else the initial file gives to a group, as awk prints it. -/
def settledGid (s : Target) (es : List Entry) (group : Text) : Option ℤ :=
  ((lastGid group (explicitGroups es)).map rounded).or (getGid s group).head?

theorem accounts_fst (file : List Text) : (accounts file).map Prod.fst = file.map (field 1) := by
  simp [accounts, account, Function.comp_def]

theorem accounts_snd (file : List Text) :
    (accounts file).map Prod.snd = file.map (awkInt <| field 3 ·) := by
  simp [accounts, account, Function.comp_def]

theorem records_fst (file : List Text) : (records file).map Prod.fst = file.map (field 1) := by
  simp [records, record, Function.comp_def]

theorem mem_getGid {group : Text} {n : ℤ} : n ∈ getGid s group ↔ (group, n) ∈ accounts s.group := by
  simp [getGid_eq, atName, and_comm]

theorem mem_getUid {username : Text} {n : ℤ} :
    n ∈ getUid s username ↔ (username, n) ∈ accounts s.passwd := by
  simp [getUid_eq, atName, and_comm]

/-! ### Groups -/

/-- The group file is well-formed, with distinct names. -/
structure GroupsNamed (s : Target) : Prop where
  record : ∀ line ∈ s.group, IsGroupRecord line
  names : ((accounts s.group).map Prod.fst).Nodup

theorem GroupsNamed.isRecord (h : GroupsNamed s) : ∀ line ∈ s.group, IsRecord line :=
  fun line hl => (h.record line hl).isRecord

theorem GroupsNamed.putGroup (h : GroupsNamed s) {group : Text} (hg : PlainName group) {n : ℤ}
    (hn : Fits n) :
    GroupsNamed (s.putGroup group n) ∧
      accounts (s.putGroup group n).group = assign group (rounded n) (accounts s.group) := by
  have hacc : accounts (s.putGroup group n).group = assign group (rounded n) (accounts s.group) :=
    accounts_put h.isRecord hg.no_colon (record_groupLine hg.no_colon n)
  refine ⟨⟨mem_put_record h.record (groupLine_record hg hn) group, ?_⟩, hacc⟩
  rw [hacc]
  exact assign_names h.names

/-- The id of a group in a file with distinct names. -/
theorem GroupsNamed.head_getGid (h : GroupsNamed s) {group : Text} {n : ℤ} :
    (getGid s group).head? = some n ↔ (group, n) ∈ accounts s.group := by
  rw [← mem_getGid]
  constructor
  · exact List.mem_of_head?
  · intro hn
    rw [getGid_eq, filter_atName h.names (mem_getGid.mp hn)]
    rfl

/-- The first pass gives every group its settled gid. -/
theorem putGroups_settled {ops : List (Text × ℤ)} (hops : ∀ op ∈ ops, PlainName op.1 ∧ Fits op.2)
    (hs : GroupsNamed s) :
    GroupsNamed (s.putGroups ops) ∧ ∀ g n, (g, n) ∈ accounts (s.putGroups ops).group ↔
      ((lastGid g ops).map rounded).or (getGid s g).head? = some n := by
  induction ops using List.reverseRecOn with
  | nil => exact ⟨hs, fun g n => by simpa [lastGid, Target.putGroups] using hs.head_getGid.symm⟩
  | append_singleton ops op ih =>
    obtain ⟨hnamed, hiff⟩ := ih fun op' hop' => hops op' (by simp [hop'])
    obtain ⟨hplain, hfits⟩ := hops op (by simp)
    obtain ⟨hnamed', hacc⟩ := hnamed.putGroup hplain hfits
    rw [putGroups_append]
    refine ⟨hnamed', fun g n => ?_⟩
    rw [hacc, mem_assign, hiff, lastGid_append]
    by_cases hg : op.1 = g
    · simp [hg, eq_comm]
    · simp [hg, Ne.symm hg]

theorem plain_explicitGroups (hes : PlainTable es) :
    ∀ op ∈ explicitGroups es, PlainName op.1 ∧ Fits op.2 := by
  intro op hop
  refine ⟨?_, fits_explicitGroups hop⟩
  obtain ⟨e, he, rfl⟩ := List.mem_map.mp hop
  exact hes.group e (List.mem_filter.mp he).1

/-- In the passes over the groups: settled gids are kept, and only settled gids are
shared. -/
structure Settled (s : Target) (es : List Entry) (v : Target) : Prop extends GroupsNamed v where
  kept : ∀ g n, settledGid s es g = some n → (g, n) ∈ accounts v.group
  shared : ∀ g g' n, (g, n) ∈ accounts v.group → (g', n) ∈ accounts v.group →
    g = g' ∨ settledGid s es g = some n ∧ settledGid s es g' = some n

/-- What `generate_gid` returns: the id of the group, or one that no group has. -/
theorem GroupsNamed.generateGid (h : GroupsNamed v) {group : Text} {n : ℤ}
    (hn : generateGid group v = .ok n) :
    (group, n) ∈ accounts v.group ∨
      (∀ m, (group, m) ∉ accounts v.group) ∧ ∀ g, (g, n) ∉ accounts v.group := by
  have hexact := exact_of_generateGid hn
  rcases generateId_ok hn with hids | ⟨hids, -, -, hfree⟩
  · exact .inl (mem_getGid.mp (by simp [hids]))
  · refine .inr ⟨fun m hm => ?_, fun g hg => ?_⟩
    · have := mem_getGid.mpr hm
      simp [hids] at this
    · have hempty : captured (namesOf n v.group) = [] := hfree
      rw [← hexact] at hg
      have hcap := captured_names h.isRecord hexact.fits (by simp [hempty]) hg
      exact (accounts_ne_nil h.isRecord hg).1 (hcap.trans hempty)

theorem Settled.addOneGroup (h : Settled s es v) {group : Text} (hg : PlainName group)
    (hw : addOneGroup group (-1) v = .ok w) : Settled s es w := by
  obtain ⟨n, hn, rfl⟩ := addOneGroup_ok.mp hw
  have hn : Accounts.generateGid group v = .ok n := by simpa using hn
  have hexact := exact_of_generateGid hn
  obtain ⟨hnamed, hacc⟩ := h.putGroup hg hexact.fits
  rw [hexact] at hacc
  rcases h.generateGid hn with hold | ⟨hnone, hfree⟩
  · -- the group keeps its id
    have hsame : ∀ a, a ∈ accounts (v.putGroup group n).group ↔ a ∈ accounts v.group := fun a => by
      rw [hacc, mem_assign_same h.names hold]
    refine ⟨hnamed, fun g m hm => (hsame _).mpr (h.kept g m hm), fun g g' m hgm hgm' => ?_⟩
    exact h.shared g g' m ((hsame _).mp hgm) ((hsame _).mp hgm')
  · -- a new group gets an id that no group has
    have hmem : ∀ g m, (g, m) ∈ accounts (v.putGroup group n).group ↔
        (g, m) ∈ accounts v.group ∧ g ≠ group ∨ g = group ∧ m = n := by
      intro g m
      rw [hacc, mem_assign]
    refine ⟨hnamed, fun g m hm => ?_, fun g g' m hgm hgm' => ?_⟩
    · have := h.kept g m hm
      exact (hmem g m).mpr (.inl ⟨this, fun hgg => hnone m (hgg ▸ this)⟩)
    · rcases (hmem g m).mp hgm with ⟨hg, -⟩ | ⟨hg, hm⟩ <;>
        rcases (hmem g' m).mp hgm' with ⟨hg', -⟩ | ⟨hg', hm'⟩
      · exact h.shared g g' m hg hg'
      · exact absurd (hm' ▸ hg) (hfree g)
      · exact absurd (hm ▸ hg') (hfree g')
      · exact .inl (hg.trans hg'.symm)

theorem groups_settled (hes : PlainTable es) (hs : GroupsNamed s)
    (hu : Script.forEach (autoGroups es) (Accounts.addOneGroup · (-1))
      (s.putGroups (explicitGroups es)) = .ok u) : Settled s es u := by
  obtain ⟨hnamed, hiff⟩ := putGroups_settled (plain_explicitGroups hes) hs
  refine Script.forEach_inv (fun _ v => Settled s es v)
    ⟨hnamed, fun g n h => (hiff g n).mpr h, fun g g' n h h' =>
      .inr ⟨(hiff g n).mp h, (hiff g' n).mp h'⟩⟩ ?_ hu
  exact fun _ g _ _ hg hI hadd => hI.addOneGroup (hes.autoGroups g hg) hadd

/-! ### Users -/

/-- The password file is well-formed, with distinct names. -/
structure UsersNamed (s : Target) : Prop where
  record : ∀ line ∈ s.passwd, IsRecord line
  names : ((accounts s.passwd).map Prod.fst).Nodup

theorem UsersNamed.of_passwd (hs : UsersNamed s) (h : t.passwd = s.passwd) : UsersNamed t :=
  ⟨h ▸ hs.record, h ▸ hs.names⟩

theorem getUid_of_mem (hs : UsersNamed s) {username : Text} {n : ℤ}
    (h : (username, n) ∈ accounts s.passwd) : getUid s username = [n] := by
  rw [getUid_eq, filter_atName hs.names h]
  rfl

section PutUser

variable {e : Entry} {uid gid : ℤ} {home passwd : Text}

theorem Entry.Found.fits_uid (h : e.Found env s uid gid home passwd) : Fits uid := by
  have huid := h.uid
  by_cases hauto : e.uid.getD 0 = -1
  · rw [if_pos hauto] at huid
    exact (exact_of_generateUid huid).fits
  · rw [if_neg hauto] at huid
    obtain rfl := Except.ok.inj huid
    cases hid : e.uid with
    | none => decide
    | some n => exact e.uid_fits n hid

/-- A user is written with the uid that it has, as awk prints it. -/
theorem Entry.Found.uid_kept (h : e.Found env v uid gid home passwd) {n : ℤ}
    (hids : getUid v e.username = [n]) : uid = n := by
  have huid := h.uid
  by_cases hauto : e.uid.getD 0 = -1
  · rw [if_pos hauto] at huid
    have hn : n = uid := by simpa [generateUid, generateId, hids] using huid
    exact hn.symm
  · rw [if_neg hauto] at huid
    have hsame := h.valid.uid_same hauto
    have hn : n = e.uid.getD 0 := by simpa [hids, differs] using hsame
    exact (Except.ok.inj huid).symm.trans hn.symm

/-- No other user has the id that `add_one_user` writes, unless the user has it already. -/
theorem Entry.Found.uid_free (h : e.Found env s uid gid home passwd) (hs : UsersNamed s)
    (hu : PlainName e.username) {name : Text} (hname : (name, rounded uid) ∈ accounts s.passwd) :
    name = e.username ∨ (e.username, rounded uid) ∈ accounts s.passwd := by
  have hfits := h.fits_uid
  have huid := h.uid
  have hnone : captured (namesOf uid s.passwd) ≠ [] := by
    intro hempty
    have hcap := captured_names hs.record hfits (by simp [hempty]) hname
    exact absurd (hcap.trans hempty) (accounts_ne_nil hs.record hname).1
  by_cases hauto : e.uid.getD 0 = -1
  · rw [if_pos hauto] at huid
    rcases generateId_ok huid with hids | ⟨-, -, -, hfree⟩
    · have hself : (e.username, uid) ∈ accounts s.passwd := mem_getUid.mp (by simp [hids])
      rw [exact_of_accounts hself]
      exact .inr hself
    · exact absurd hfree hnone
  · rw [if_neg hauto] at huid
    obtain rfl := Except.ok.inj huid
    have hcap : captured (namesOf (e.uid.getD 0) s.passwd) = e.username :=
      (h.valid.uid_user hauto).resolve_left hnone
    exact .inl ((captured_names hs.record hfits (by rw [hcap]; exact hu.no_newline) hname).trans hcap)

theorem UsersNamed.putUser (hs : UsersNamed s) (hu : PlainName e.username)
    (h : e.Found env s uid gid home passwd) :
    UsersNamed (s.putUser env e uid gid home passwd) ∧
      records (s.putUser env e uid gid home passwd).passwd = assign e.username uid (records s.passwd) := by
  have hrec : records (s.putUser env e uid gid home passwd).passwd =
      assign e.username uid (records s.passwd) :=
    records_put hs.record hu.no_colon (record_passwdLine hu.no_colon _ _ _ _ _)
  refine ⟨⟨mem_put_record hs.record (passwdLine_record hu h.fits_uid _ _ _ _) e.username, ?_⟩, hrec⟩
  rw [accounts_eq, hrec, assign_map, ← accounts_eq]
  exact assign_names hs.names

end PutUser

/-- The passes over the users keep the names apart, and the groups and their ids. -/
theorem users_named (hes : PlainTable es) {l : List Entry} (hl : ∀ e ∈ l, e ∈ users es)
    (hs : UsersNamed u) (hg : ∀ line ∈ u.group, IsGroupRecord line)
    (ht : Script.forEach l (Entry.add env) u = .ok t) :
    UsersNamed t ∧ (∀ line ∈ t.group, IsGroupRecord line) ∧ records t.group = records u.group := by
  refine Script.forEach_inv (fun _ v => UsersNamed v ∧ (∀ line ∈ v.group, IsGroupRecord line) ∧
    records v.group = records u.group) ⟨hs, hg, rfl⟩ ?_ ht
  rintro done e v w hmem ⟨hv, hrec, hacc⟩ hadd
  obtain ⟨he, hreal, -⟩ := mem_users.mp (hl e hmem)
  have hu := hes.username e he hreal
  obtain ⟨uid, gid, home, passwd, hfound, rfl⟩ := add_ok.mp hadd
  have hcolon : ∀ g ∈ e.additional, ':' ∉ g := fun g hg => (hes.additional e he g hg).no_colon
  obtain ⟨hrec', hacc'⟩ := join_groups hrec hu.no_colon hcolon
  exact ⟨(hv.putUser hu hfound).1, hrec', hacc'.trans hacc⟩

end CargosBuildroot.Accounts
