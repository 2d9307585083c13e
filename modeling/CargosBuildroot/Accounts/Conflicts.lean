import CargosBuildroot.Accounts.Automatic

/-! The conflicts that `check_user_validity` looks for. When it is called the groups have been written
already, so it sees the gids that the table has given to them and not those of the initial file. A
conflict is found in every run that leaves alone the gids that it is about. -/

namespace CargosBuildroot.Accounts

open Shell Store Spliced

variable {env : Env} {s t u v w : Target} {es : List Entry} {e : Entry} {group user : Option Text}

/-- A conflict between an entry and the files, of the kinds listed with `check_user_validity`, with the
group and the user whose gid it is about. The ids are those that awk prints. -/
inductive Conflict (s : Target) (e : Entry) : Option Text → Option Text → Prop
  | gidUsed {group : Text} {gid : ℤ} (hgid : e.gid = some gid) (hne : gid ≠ -1)
      (hother : group ≠ e.group) (hused : rounded gid ∈ getGid s group) : Conflict s e (some group) none
  | groupGid {gid old : ℤ} (hgid : e.gid = some gid) (hne : gid ≠ -1) (hold : old ∈ getGid s e.group)
      (hdiffers : old ≠ gid) : Conflict s e (some e.group) none
  | userGid {gid old : ℤ} (hgid : e.gid = some gid) (hne : gid ≠ -1) (hold : getUgid s e.username = [old])
      (hdiffers : old ≠ gid) : Conflict s e none (some e.username)
  | uidUsed {username : Text} {uid : ℤ} (huid : e.uid = some uid) (hne : uid ≠ -1)
      (hother : username ≠ e.username) (hused : rounded uid ∈ getUid s username) : Conflict s e none none
  | userUid {uid old : ℤ} (huid : e.uid = some uid) (hne : uid ≠ -1) (hold : old ∈ getUid s e.username)
      (hdiffers : old ≠ uid) : Conflict s e none none
  | userGroup {group : Text} {gid : ℤ} (hgid : getUgid s e.username = [gid]) (hgroup : gid ∈ getGid s group)
      (hother : group ≠ e.group) : Conflict s e (some group) (some e.username)

/-- The call does not give the group another gid than it has, and does not add the user without a gid
while the one that it has belongs to no group. -/
def Call.Leaves (v : Target) (group user : Option Text) : Call → Prop
  | .group name gid => group = some name → gid ≠ -1 → ∀ old ∈ getGid v name, old = gid
  | .user e => user = some e.username → (∃ gid, e.gid = some gid ∧ gid ≠ -1) ∨
      ∀ old, getUgid v e.username = [old] → ∃ g, old ∈ getGid v g

/-! ### The calls with the names taken literally -/

/-- The calls of a table of plain names. -/
inductive Call.Plain (es : List Entry) : Call → Prop
  | group {name : Text} {gid : ℤ} (hname : PlainName name) (hgid : Fits gid) : Plain es (.group name gid)
  | user {e : Entry} (he : e ∈ users es) : Plain es (.user e)

theorem plain_calls (hes : PlainTable es) : ∀ c ∈ calls es, c.Plain es := by
  intro c hc
  rw [calls_eq] at hc
  simp only [List.mem_append, List.mem_map] at hc
  rcases hc with (⟨op, hop, rfl⟩ | ⟨g, hg, rfl⟩) | ⟨e, he, rfl⟩
  · obtain ⟨hplain, hfits⟩ := plain_explicitGroups hes op hop
    exact .group hplain hfits
  · exact .group (hes.autoGroups g hg) (by decide)
  · exact .user he

theorem run_literal (hes : PlainTable es) {c : Call} (hc : c.Plain es) (env : Env) :
    c.run pattern env = c.run literal env := by
  have hhas : ∀ {name}, PlainName name → pattern.has name = literal.has name :=
    fun h => hits_eq_hasName h.no_dot
  cases hc with
  | group hname _ => exact addOneGroup_congr (hhas hname) _
  | @user e he =>
    obtain ⟨he, hreal, -⟩ := mem_users.mp he
    have hu := hes.username e he hreal
    refine add_congr (hhas hu) (fun g hg => ?_) env
    have hg := hes.additional e he g hg
    exact memberMatch_eq ⟨hu.ne_nil, hu.no_colon, hu.no_comma⟩ hu.no_dot hg.no_colon hg.no_dot

/-- The groups have been called when a user is. -/
theorem group_called {before after : List Call} (hcalls : calls es = before ++ .user e :: after) {n : ℤ}
    (he : e ∈ es) (hn : e.gid = some n) (h0 : 0 ≤ n) : .group e.group n ∈ before := by
  have hmem : .group e.group n ∈ (explicitGroups es).map (fun op => Call.group op.1 op.2) ++
      (autoGroups es).map (Call.group · (-1)) := by
    refine List.mem_append_left _ (List.mem_map.mpr ⟨(e.group, n), List.mem_map.mpr ⟨e, ?_, ?_⟩, rfl⟩)
    · exact List.mem_filter.mpr ⟨he, explicit_iff.mpr ⟨n, hn, h0⟩⟩
    · rw [hn, Option.getD_some]
  rw [calls_eq] at hcalls
  rcases List.append_eq_append_iff.mp hcalls with ⟨l, rfl, -⟩ | ⟨l, hl, hrest⟩
  · exact List.mem_append_left _ hmem
  · cases l with
    | nil => exact List.append_nil before ▸ hl ▸ hmem
    | cons c l =>
      -- the user would be one of the groups
      obtain ⟨rfl, -⟩ := List.cons.inj hrest
      have huser : .user e ∈ (explicitGroups es).map (fun op => Call.group op.1 op.2) ++
          (autoGroups es).map (Call.group · (-1)) := hl ▸ List.mem_append_right _ List.mem_cons_self
      simp at huser

/-! ### What the calls leave alone -/

theorem getGid_of_mem (h : GroupsNamed v) {g : Text} {n : ℤ} (hn : (g, n) ∈ accounts v.group) :
    getGid v g = [n] := by
  rw [getGid_eq, filter_atName h.names hn]
  rfl

/-- The gids of other users are not written. -/
theorem getUgid_putUser_other {uid gid : ℤ} {home passwd name : Text} (hv : UsersNamed v)
    (hu : PlainName e.username) (hfound : e.Found env v uid gid home passwd) (hname : ':' ∉ name)
    (hne : name ≠ e.username) :
    getUgid (v.putUser env e uid gid home passwd) name = getUgid v name := by
  have hv' := (hv.putUser hu hfound).1
  rw [getUgid, getUgid, lookup_eq hname (not_bare hname hv'.record), lookup_eq hname (not_bare hname hv.record)]
  exact congrArg (List.map _) (filter_put_other v.passwd (hasName_passwdLine _ _ _ _ _ _) fun line =>
    hasName_of_ne hu.no_colon hname (Ne.symm hne))

/-- A name that has the id is the one that the check allows. -/
theorem eq_of_captured {file : List Text} (hfile : ∀ line ∈ file, IsRecord line) {n : ℤ} (hn : Fits n)
    {name allowed : Text} (hallowed : PlainName allowed) (hmem : (name, rounded n) ∈ accounts file)
    (h : captured (namesOf n file) = [] ∨ captured (namesOf n file) = allowed) : name = allowed := by
  rcases h with hempty | hcap
  · have hname := captured_names hfile hn (by simp [hempty]) hmem
    exact absurd (hname.trans hempty) (accounts_ne_nil hfile hmem).1
  · exact (captured_names hfile hn (by rw [hcap]; exact hallowed.no_newline) hmem).trans hcap

/-- The main group that a user has is the one that it must be declared with. -/
theorem Entry.Found.main_group {uid gid : ℤ} {home passwd : Text} (h : e.Found env v uid gid home passwd)
    (hg : PlainName e.group) (hv : GroupsNamed v) {k : ℤ} (hugid : getUgid v e.username = [k]) {g : Text}
    (hgroup : (g, k) ∈ accounts v.group) : g = e.group := by
  have hexact := exact_of_accounts hgroup
  have hnames : getUgroup v e.username = namesOf k v.group := by
    rw [getUgroup, hugid]
    rfl
  rw [← hexact.eq] at hgroup
  exact eq_of_captured hv.isRecord hexact.fits hg hgroup (hnames ▸ h.valid.ugroup)

/-- What the calls keep of the initial files: the lines are well-formed, the group has its gid, the users
have their uids, and the user has its gid. The groups that have been called are there. -/
structure KeepsIds (s : Target) (group user : Option Text) (done : List Call) (v : Target) : Prop where
  groups : GroupsNamed v
  users : UsersNamed v
  gid : ∀ g, group = some g → ∀ n, (g, n) ∈ accounts s.group → (g, n) ∈ accounts v.group
  uids : ∀ a ∈ accounts s.passwd, a ∈ accounts v.passwd
  ugid : ∀ x, user = some x → ∀ old, getUgid s x = [old] → getUgid v x = [old]
  called : ∀ g n, .group g n ∈ done → getGid v g ≠ []

variable {done : List Call}

theorem KeepsIds.addOneGroup (h : KeepsIds s group user done v) {name : Text} {gid : ℤ} (hname : PlainName name)
    (hgid : Fits gid) (hleaves : (Call.group name gid).Leaves v group user)
    (hw : addOneGroup name gid v = .ok w) : KeepsIds s group user (done ++ [.group name gid]) w := by
  obtain ⟨n, hn, rfl⟩ := addOneGroup_ok.mp hw
  have hfits : Fits n := by
    split_ifs at hn with hauto
    · exact (exact_of_generateGid hn).fits
    · exact Except.ok.inj hn ▸ hgid
  obtain ⟨hnamed, hacc⟩ := h.groups.putGroup hname hfits
  refine ⟨hnamed, h.users.of_passwd rfl, fun g hg m hm => ?_, h.uids, h.ugid, fun g m hg hnil => ?_⟩
  · have hold := h.gid g hg m hm
    rw [hacc, mem_assign]
    by_cases hgg : g = name
    · subst hgg
      refine .inr ⟨rfl, ?_⟩
      split_ifs at hn with hauto
      · rcases h.groups.generateGid hn with hids | ⟨hnone, -⟩
        · rw [(exact_of_generateGid hn).eq]
          exact number_unique h.groups.names hold hids
        · exact absurd hold (hnone m)
      · obtain rfl := Except.ok.inj hn
        obtain rfl := hleaves hg hauto m (mem_getGid.mpr hold)
        exact (exact_of_accounts hold).eq.symm
    · exact .inl ⟨hold, hgg⟩
  · have hnone : ∀ k, (g, k) ∉ accounts (v.putGroup name n).group := by
      intro k hk
      have hmem := mem_getGid.mpr hk
      rw [hnil] at hmem
      exact absurd hmem List.not_mem_nil
    rw [hacc] at hnone
    by_cases hgg : g = name
    · exact hnone _ (mem_assign.mpr (.inr ⟨hgg, rfl⟩))
    · have hbefore : .group g m ∈ done := by simpa [hgg] using hg
      obtain ⟨k, hk⟩ := List.exists_mem_of_ne_nil _ (h.called g m hbefore)
      exact hnone k (mem_assign.mpr (.inl ⟨mem_getGid.mp hk, hgg⟩))

/-- The gid that is written for a user that has one already. -/
theorem KeepsIds.gid_written (h : KeepsIds s group user done v) {uid gid : ℤ} {home passwd : Text}
    (hg : PlainName e.group) (hfound : e.Found env v uid gid home passwd)
    (hexplicit : ∀ n, e.gid = some n → n ≠ -1 → getGid v e.group ≠ [])
    (hleaves : (Call.user e).Leaves v group (some e.username)) {old : ℤ}
    (hold : getUgid v e.username = [old]) : rounded gid = old := by
  have hgid : ∀ n ∈ getGid v e.group, rounded gid = n := by
    intro n hn
    have hids := getGid_of_mem h.groups (mem_getGid.mp hn)
    rcases hfound.gid with heq | ⟨hnil, -⟩
    · obtain rfl := List.singleton_inj.mp (hids.symm.trans heq)
      exact (exact_of_accounts (mem_getGid.mp hn)).eq
    · rw [hnil] at hn
      exact absurd hn List.not_mem_nil
  rcases hleaves rfl with ⟨n, hn, hne⟩ | hgroup
  · -- both gids are the one of the entry
    have huser := hfound.valid.gid_user n hn hne
    have hsame := hfound.valid.gid_same n hn hne
    obtain ⟨m, hm⟩ := List.exists_mem_of_ne_nil _ (hexplicit n hn hne)
    rw [hold] at huser
    rw [getGid_of_mem h.groups (mem_getGid.mp hm)] at hsame
    have hold : old = n := by simpa [differs] using huser
    have hm' : m = n := by simpa [differs] using hsame
    rw [hgid m hm, hm', hold]
  · -- the gid is that of the main group
    obtain ⟨g, hmem⟩ := hgroup old hold
    obtain rfl := hfound.main_group hg h.groups hold (mem_getGid.mp hmem)
    exact hgid old hmem

theorem KeepsIds.putUser (h : KeepsIds s group user done v) {uid gid : ℤ} {home passwd : Text}
    (hu : PlainName e.username) (hg : PlainName e.group) (hgs : ∀ g ∈ e.additional, ':' ∉ g)
    (hfound : e.Found env v uid gid home passwd)
    (hexplicit : ∀ n, e.gid = some n → n ≠ -1 → getGid v e.group ≠ [])
    (hleaves : (Call.user e).Leaves v group user) (huser : ∀ x, user = some x → ':' ∉ x) :
    KeepsIds s group user (done ++ [.user e]) (v.putUser env e uid gid home passwd) := by
  obtain ⟨hnamed, hrec⟩ := h.users.putUser hu hfound
  obtain ⟨hrecord, hsame⟩ := join_groups h.groups.record hu.no_colon hgs
  have hgroups : accounts (v.putUser env e uid gid home passwd).group = accounts v.group := by
    rw [accounts_eq, accounts_eq]
    exact congrArg _ hsame
  refine ⟨⟨hrecord, hgroups ▸ h.groups.names⟩, hnamed, fun g hg n hn => hgroups ▸ h.gid g hg n hn, ?_, ?_,
    fun g n hg => ?_⟩
  · rintro ⟨name, n⟩ ha
    have hmem := h.uids _ ha
    rw [accounts_eq, hrec, assign_map, ← accounts_eq, mem_assign]
    by_cases hname : name = e.username
    · subst hname
      rw [hfound.uid_kept (getUid_of_mem h.users hmem), (exact_of_accounts hmem).eq]
      exact .inr ⟨rfl, rfl⟩
    · exact .inl ⟨hmem, hname⟩
  · intro x hx old hold
    have hugid := h.ugid x hx old hold
    by_cases hname : x = e.username
    · subst hname
      subst hx
      rw [(putUser_hasUser v uid gid).getUgid_eq hu.no_colon (not_bare hu.no_colon hnamed.record),
        h.gid_written hg hfound hexplicit hleaves hugid]
    · rw [getUgid_putUser_other h.users hu hfound (huser x hx) hname, hugid]
  · have hbefore : .group g n ∈ done := by simpa using hg
    rw [getGid_eq, hgroups, ← getGid_eq]
    exact h.called g n hbefore

/-! ### Runs -/

theorem WellNamed.groupsNamed (hs : WellNamed s) : GroupsNamed s :=
  ⟨hs.group, by rw [accounts_fst]; exact hs.groups⟩

theorem WellNamed.usersNamed (hs : WellNamed s) : UsersNamed s :=
  ⟨hs.passwd, by rw [accounts_fst]; exact hs.usernames⟩

/-- Calls that leave the gids alone. -/
theorem keepsIds_calls (hes : PlainTable es) (hs : WellNamed s) (huser : ∀ x, user = some x → ':' ∉ x)
    {before after : List Call} (hcalls : calls es = before ++ after)
    (hleaves : ∀ done c later v, calls es = done ++ c :: later →
      Script.forEach done (Call.run literal env) s = .ok v → c.Leaves v group user)
    (hv : Script.forEach before (Call.run literal env) s = .ok v) : KeepsIds s group user before v := by
  have hstart : KeepsIds s group user [] s :=
    ⟨hs.groupsNamed, hs.usersNamed, fun _ _ _ => id, fun _ => id, fun _ _ _ => id, by simp⟩
  refine Script.forEach_reached (KeepsIds s group user) hstart ?_ hv
  intro done c later u w hbefore hu hkeeps hrun
  have hsplit : calls es = done ++ c :: (later ++ after) := by rw [hcalls, hbefore]; simp
  have hc := plain_calls hes c (hsplit ▸ List.mem_append_right _ List.mem_cons_self)
  have hc' := hleaves done c _ u hsplit hu
  cases hc with
  | group hname hgid => exact hkeeps.addOneGroup hname hgid hc' hrun
  | @user e he =>
    obtain ⟨he, hreal, -⟩ := mem_users.mp he
    have hrun : e.add env u = .ok w := hrun
    obtain ⟨uid, gid, home, passwd, hfound, rfl⟩ := Accounts.add_ok.mp hrun
    refine hkeeps.putUser (hes.username e he hreal) (hes.group e he)
      (fun g hg => (hes.additional e he g hg).no_colon) hfound (fun n hn hne => ?_) hc' huser
    have hrange := hfound.valid.gid_range n hn
    exact hkeeps.called _ n (group_called hsplit he hn (by omega))

/-- The user that a conflict is about is that of the entry. -/
theorem Conflict.user_eq (h : Conflict s e group user) {x : Text} (hx : user = some x) : x = e.username := by
  cases h <;> simp_all

/-- A conflict that has been left alone is found. -/
theorem Conflict.not_found (h : Conflict s e group user) (hv : KeepsIds s group user done v)
    (hg : PlainName e.group) (hu : PlainName e.username) {uid gid : ℤ} {home passwd : Text} :
    ¬ e.Found env v uid gid home passwd := by
  rintro ⟨hvalid, -⟩
  cases h with
  | gidUsed hgid hne hother hused =>
    have hmem := hv.gid _ rfl _ (mem_getGid.mp hused)
    exact hother (eq_of_captured hv.groups.isRecord (e.gid_fits _ hgid) hg hmem (hvalid.gid_group _ hgid hne))
  | groupGid hgid hne hold hdiffers =>
    have hsame := hvalid.gid_same _ hgid hne
    rw [getGid_of_mem hv.groups (hv.gid _ rfl _ (mem_getGid.mp hold))] at hsame
    exact hdiffers (by simpa [differs] using hsame)
  | userGid hgid hne hold hdiffers =>
    have hsame := hvalid.gid_user _ hgid hne
    rw [hv.ugid _ rfl _ hold] at hsame
    exact hdiffers (by simpa [differs] using hsame)
  | @uidUsed username uid huid hne hother hused =>
    have hget : e.uid.getD 0 = uid := by rw [huid, Option.getD_some]
    have hmem := hv.uids _ (mem_getUid.mp hused)
    have huser := hvalid.uid_user (hget.symm ▸ hne)
    rw [hget] at huser
    exact hother (eq_of_captured hv.users.record (e.uid_fits _ huid) hu hmem huser)
  | @userUid uid old huid hne hold hdiffers =>
    have hget : e.uid.getD 0 = uid := by rw [huid, Option.getD_some]
    have hsame := hvalid.uid_same (hget.symm ▸ hne)
    rw [getUid_of_mem hv.users (hv.uids _ (mem_getUid.mp hold)), hget] at hsame
    exact hdiffers (by simpa [differs] using hsame)
  | @userGroup group gid hgid hgroup hother =>
    have hmem := hv.gid _ rfl _ (mem_getGid.mp hgroup)
    have hnames : getUgroup v e.username = namesOf gid v.group := by
      rw [getUgroup, hv.ugid _ rfl _ hgid]
      rfl
    have hexact := exact_of_accounts hmem
    rw [← hexact.eq] at hmem
    exact hother (eq_of_captured hv.groups.isRecord hexact.fits hg hmem (hnames ▸ hvalid.ugroup))

/-- Files with the group `g`, and tables that give it another gid, and a gid that it has to another
group. -/
def groupFiles : Target where
  passwd := ["root:x:0:0:root:/root:/bin/sh".toList]
  shadow := ["root:*:::::::".toList]
  group := ["root:x:0:".toList, "g:x:500:".toList]

def otherGid : List Entry := [entry "u" (-1) "g" 600 "-"]

def usedGid : List Entry := [entry "u" (-1) "h" 500 "-"]

theorem groupFiles_wellNamed : WellNamed groupFiles := by
  have hgroup : IsGroupRecord "g:x:500:".toList :=
    ⟨"g".toList, "x".toList, [], 500, by decide +kernel, by decide, by decide, by decide, by decide,
      by decide, by decide, by decide⟩
  refine ⟨rootOnly_wellFormed.passwd, ?_, rootOnly_wellFormed.usernames, by decide +kernel⟩
  have hroot : IsGroupRecord "root:x:0:".toList := rootOnly_wellFormed.group _ (List.mem_singleton.mpr rfl)
  simpa [groupFiles] using ⟨hroot, hgroup⟩

end CargosBuildroot.Accounts
