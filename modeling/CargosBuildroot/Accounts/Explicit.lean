import CargosBuildroot.Accounts.Lines
import Mathlib.Data.List.Perm.Basic

/-! Explicit ids of the users table. The passes for explicit ids come before those
for automatic ones, and the later passes keep an id that a name already has, as awk
prints it, so an explicit id is the final one in whatever order the entries stand. -/

namespace CargosBuildroot.Accounts

open Shell Store

variable {env : Env} {s t u : Target} {es : List Entry}

/-- The file has exactly one line of the name, with the id. -/
def HasId (file : List Text) (name : Text) (id : ℤ) : Prop :=
  (file.filter (hasName name)).map (field 3) = [decimal id]

instance (file : List Text) (name : Text) (id : ℤ) : Decidable (HasId file name id) := by
  unfold HasId; infer_instance

theorem HasGroup.hasId {group : Text} {gid : ℤ} (h : HasGroup s group gid) (hg : ':' ∉ group) :
    HasId s.group group gid := by
  obtain ⟨members, hm, hline⟩ := h
  simp [HasId, hline, field, fields_groupLine hg hm]

theorem HasUser.hasId {username : Text} {uid gid : ℤ} (h : HasUser s username uid gid)
    (hu : ':' ∉ username) : HasId s.passwd username uid := by
  obtain ⟨comment, home, shell, hline⟩ := h
  obtain ⟨more, hf⟩ := fields_passwdLine hu uid gid comment home shell
  simp [HasId, hline, field, hf]

/-! ### Groups -/

/-- The last id that a sequence of explicit groups gives to a group. -/
def lastGid (group : Text) (ops : List (Text × ℤ)) : Option ℤ :=
  (ops.filter (·.1 = group)).getLast?.map (·.2)

theorem lastGid_append (group : Text) (ops : List (Text × ℤ)) (op : Text × ℤ) :
    lastGid group (ops ++ [op]) = if op.1 = group then some op.2 else lastGid group ops := by
  by_cases h : op.1 = group <;> simp [lastGid, h]

theorem putGroups_append (ops : List (Text × ℤ)) (op : Text × ℤ) (s : Target) :
    s.putGroups (ops ++ [op]) = (s.putGroups ops).putGroup op.1 op.2 := by
  simp [Target.putGroups]

/-- After the first pass a group has the last id that an entry gives it. -/
theorem putGroups_hasGroup {ops : List (Text × ℤ)} (hops : ∀ op ∈ ops, ':' ∉ op.1) {group : Text}
    {gid : ℤ} (hg : ':' ∉ group) (h : lastGid group ops = some gid) :
    HasGroup (s.putGroups ops) group gid := by
  induction ops using List.reverseRecOn with
  | nil => simp [lastGid] at h
  | append_singleton ops op ih =>
    rw [lastGid_append] at h
    rw [putGroups_append]
    by_cases hop : op.1 = group
    · rw [if_pos hop] at h
      obtain rfl := Option.some.inj h
      subst hop
      exact ⟨[], putGroup_groupIs _ _ _⟩
    · rw [if_neg hop] at h
      obtain ⟨members, hm⟩ := ih (fun op' hop' => hops op' (by simp [hop'])) h
      exact ⟨members, hm.putGroup_other hg (hops op (by simp)) (Ne.symm hop) _⟩

theorem lastGid_eq {ops : List (Text × ℤ)} {group : Text} {gid : ℤ} (hmem : (group, gid) ∈ ops)
    (hagree : ∀ n, (group, n) ∈ ops → n = gid) : lastGid group ops = some gid := by
  have hne : ops.filter (·.1 = group) ≠ [] := by
    intro h
    have : (group, gid) ∈ ops.filter (·.1 = group) := List.mem_filter.mpr ⟨hmem, by simp⟩
    simp [h] at this
  have hlast := List.mem_filter.mp (List.getLast_mem hne)
  rw [lastGid, List.getLast?_eq_some_getLast hne, Option.map_some]
  generalize (ops.filter (·.1 = group)).getLast hne = op at hlast ⊢
  obtain ⟨group', n⟩ := op
  obtain rfl : group' = group := by simpa using hlast.2
  exact congrArg some (hagree n hlast.1)

theorem exists_lastGid {ops : List (Text × ℤ)} {group : Text} {gid : ℤ} (h : (group, gid) ∈ ops) :
    ∃ n, lastGid group ops = some n := by
  have hmem : (group, gid) ∈ ops.filter (·.1 = group) := List.mem_filter.mpr ⟨h, by simp⟩
  rw [lastGid, List.getLast?_eq_some_getLast (List.ne_nil_of_mem hmem)]
  exact ⟨_, rfl⟩

/-- The groups are named by plain names in the passes over them. -/
theorem PlainTable.autoGroups (hes : PlainTable es) : ∀ g ∈ autoGroups es, PlainName g := by
  intro g hg
  rcases List.mem_append.mp hg with hg | hg
  · obtain ⟨e, he, rfl⟩ := List.mem_map.mp hg
    exact hes.group e (List.mem_filter.mp he).1
  · obtain ⟨e, he, hg⟩ := List.mem_flatMap.mp hg
    exact hes.additional e he g hg

theorem PlainTable.explicitGroups (hes : PlainTable es) : ∀ op ∈ explicitGroups es, ':' ∉ op.1 := by
  intro op hop
  obtain ⟨e, he, rfl⟩ := List.mem_map.mp hop
  exact (hes.group e (List.mem_filter.mp he).1).no_colon

theorem mem_users {e : Entry} :
    e ∈ users es ↔ e ∈ es ∧ e.real = true ∧ (explicit e.uid = true ∨ automatic e.uid = true) := by
  simp only [users, List.mem_append, List.mem_filter, Bool.and_eq_true]
  tauto

/-- The id that a name ends with when the passes for automatic ids meet some names. -/
def settle (names : List Text) (name : Text) (n : ℤ) : ℤ := if name ∈ names then rounded n else n

@[simp] theorem settle_nil (name : Text) (n : ℤ) : settle [] name n = n := rfl

/-- Another meeting rounds what has not been rounded. -/
theorem settle_append (names : List Text) (g name : Text) (n : ℤ) :
    settle (names ++ [g]) name n =
      if name = g then rounded (settle names name n) else settle names name n := by
  by_cases hnames : name ∈ names
  · simp [settle, hnames, rounded_rounded]
  · simp [settle, hnames]

theorem settle_congr {names names' : List Text} {name : Text} (h : name ∈ names ↔ name ∈ names') (n : ℤ) :
    settle names name n = settle names' name n := by
  simp only [settle, h]

/-- The passes after the first one keep the ids of the groups, or round them. -/
theorem HasGroup.auto {group : Text} {gid : ℤ} (hes : PlainTable es) (hg : ':' ∉ group)
    (h : HasGroup s group gid)
    (ht : Script.forEach (autoGroups es) (Accounts.addOneGroup · (-1)) s = .ok t) :
    HasGroup t group (settle (autoGroups es) group gid) := by
  refine Script.forEach_inv (fun done v => HasGroup v group (settle done group gid)) (by simpa using h) ?_ ht
  intro done g _ _ hmem hv hadd
  rw [settle_append]
  exact hv.addOneGroup hg (hes.autoGroups g hmem).no_colon hadd

theorem HasGroup.users {group : Text} {gid : ℤ} (hes : PlainTable es) (hg : PlainName group)
    (h : HasGroup s group gid) (ht : Script.forEach (users es) (Entry.add env) s = .ok t) :
    HasGroup t group gid := by
  refine Script.forEach_inv (fun _ v => HasGroup v group gid) h (fun _ e _ _ hmem hv hadd => ?_) ht
  obtain ⟨hmem, hreal, -⟩ := mem_users.mp hmem
  obtain ⟨uid, gid', home, passwd, -, rfl⟩ := add_ok.mp hadd
  exact hv.putUser hg (hes.username e hmem hreal) (fun g hg => (hes.additional e hmem g hg).no_colon) _ _

theorem explicit_iff {id : Option ℤ} : explicit id = true ↔ ∃ n, id = some n ∧ 0 ≤ n := by
  cases id <;> simp [explicit]

theorem automatic_iff {id : Option ℤ} : automatic id = true ↔ id = some (-1) := by
  simp [automatic]

/-- All explicit ids given to one group agree, and all given to one user. -/
structure Agree (es : List Entry) : Prop where
  gid : ∀ e ∈ es, ∀ e' ∈ es, e.group = e'.group → explicit e.gid = true → explicit e'.gid = true →
    e.gid = e'.gid
  uid : ∀ e ∈ es, ∀ e' ∈ es, e.real = true → e.username = e'.username → explicit e.uid = true →
    explicit e'.uid = true → e.uid = e'.uid

/-- The users that the last pass adds. -/
def autoUsers (es : List Entry) : List Text :=
  (es.filter fun e => e.real && automatic e.uid).map (·.username)

theorem main_hasGroup (hes : PlainTable es) (hagree : Agree es) (h : main env es s = .ok t) {e : Entry}
    (he : e ∈ es) {n : ℤ} (hn : e.gid = some n) (h0 : 0 ≤ n) :
    HasGroup t e.group (settle (autoGroups es) e.group n) := by
  obtain ⟨u, hauto, husers⟩ := main_ok.mp h
  have hexp : explicit e.gid = true := explicit_iff.mpr ⟨n, hn, h0⟩
  have hmem : (e.group, n) ∈ explicitGroups es :=
    List.mem_map.mpr ⟨e, List.mem_filter.mpr ⟨he, hexp⟩, by simp [hn]⟩
  have hlast : lastGid e.group (explicitGroups es) = some n := by
    refine lastGid_eq hmem fun m hm => ?_
    obtain ⟨e', he', heq⟩ := List.mem_map.mp hm
    obtain ⟨he', hexp'⟩ := List.mem_filter.mp he'
    obtain ⟨hgroup, rfl⟩ := Prod.mk.inj heq
    have hsame := hagree.gid e' he' e he hgroup hexp' hexp
    simp [hsame, hn]
  have hg := hes.group e he
  exact ((putGroups_hasGroup hes.explicitGroups hg.no_colon hlast).auto hes hg.no_colon hauto).users hes hg husers

/-! ### Users -/

/-- What `add_one_user` finds for a user that already has an id. -/
theorem Entry.Found.uid_eq {e : Entry} {uid gid : ℤ} {home passwd : Text}
    (h : e.Found env s uid gid home passwd) {m k : ℤ} (hu : HasUser s e.username m k)
    (hcolon : ':' ∉ e.username) (hauto : automatic e.uid = true) : uid = rounded m := by
  have huid := h.uid
  rw [automatic_iff.mp hauto, Option.getD_some, if_pos rfl] at huid
  have hmem := hu.mem_getUid hcolon
  rcases generateId_ok huid with hids | ⟨hids, -⟩
  · simpa [hids, eq_comm] using hmem
  · simp [hids] at hmem

theorem Entry.Found.uid_explicit {e : Entry} {uid gid : ℤ} {home passwd : Text}
    (h : e.Found env s uid gid home passwd) {n : ℤ} (hn : e.uid = some n) (h0 : 0 ≤ n) : uid = n := by
  have huid := h.uid
  have hne : n ≠ -1 := by omega
  rw [hn, Option.getD_some, if_neg hne] at huid
  exact (Except.ok.inj huid).symm

theorem main_hasUser (hes : PlainTable es) (hagree : Agree es) (h : main env es s = .ok t) {e : Entry}
    (he : e ∈ es) (hreal : e.real = true) {n : ℤ} (hn : e.uid = some n) (h0 : 0 ≤ n) :
    ∃ k, HasUser t e.username (settle (autoUsers es) e.username n) k := by
  obtain ⟨u, -, husers⟩ := main_ok.mp h
  obtain ⟨v, hexplicit, hautomatic⟩ := Script.forEach_append_ok.mp husers
  have hexp : explicit e.uid = true := explicit_iff.mpr ⟨n, hn, h0⟩
  have hcolon := (hes.username e he hreal).no_colon
  -- the pass for explicit ids: from the first entry of the user on it has the id
  have hfirst : e ∈ es.filter (fun e => e.real && explicit e.uid) → ∃ k, HasUser v e.username n k := by
    refine Script.forEach_inv (fun done w => e ∈ done → ∃ k, HasUser w e.username n k) (by simp)
      (fun done e' w w' hmem hI hadd hdone => ?_) hexplicit
    obtain ⟨uid, gid, home, passwd, hfound, rfl⟩ := add_ok.mp hadd
    simp only [List.mem_filter, Bool.and_eq_true] at hmem
    by_cases hname : e.username = e'.username
    · obtain ⟨n', hn', h0'⟩ := explicit_iff.mp hmem.2.2
      have hsame := hagree.uid e he e' hmem.1 hreal hname hexp hmem.2.2
      obtain rfl : n' = n := Option.some.inj (hn'.symm.trans (hsame.symm.trans hn))
      obtain rfl := hfound.uid_explicit hn' h0'
      exact ⟨gid, hname ▸ putUser_hasUser w uid gid⟩
    · have hold : e ∈ done := by
        refine (List.mem_append.mp hdone).resolve_right fun h => hname ?_
        rw [List.mem_singleton.mp h]
      obtain ⟨k, hk⟩ := hI hold
      exact ⟨k, hk.putUser_other hcolon (hes.username e' hmem.1 hmem.2.1).no_colon hname _ _⟩
  -- the pass for automatic ids keeps it, as awk prints it
  let Keeps (done : List Entry) (w : Target) : Prop :=
    ∃ k, HasUser w e.username (settle (done.map (·.username)) e.username n) k
  have hstart : Keeps [] v := hfirst (List.mem_filter.mpr ⟨he, by simp [hreal, hexp]⟩)
  refine Script.forEach_inv Keeps hstart (fun done e' w w' hmem hI hadd => ?_) hautomatic
  obtain ⟨uid, gid, home, passwd, hfound, rfl⟩ := add_ok.mp hadd
  obtain ⟨k, hk⟩ := hI
  simp only [List.mem_filter, Bool.and_eq_true] at hmem
  simp only [Keeps, List.map_append, List.map_singleton, settle_append]
  by_cases hname : e.username = e'.username
  · rw [hname] at hk hcolon
    rw [if_pos hname, hname, ← hfound.uid_eq hk hcolon hmem.2.2]
    exact ⟨gid, putUser_hasUser w uid gid⟩
  · rw [if_neg hname]
    exact ⟨k, hk.putUser_other hcolon (hes.username e' hmem.1 hmem.2.1).no_colon hname _ _⟩

theorem mem_autoGroups_perm {es' : List Entry} (h : es.Perm es') {name : Text} :
    name ∈ autoGroups es ↔ name ∈ autoGroups es' := by
  simp only [autoGroups, List.mem_append, List.mem_map, List.mem_filter, List.mem_flatMap, h.mem_iff]

theorem mem_autoUsers_perm {es' : List Entry} (h : es.Perm es') {name : Text} :
    name ∈ autoUsers es ↔ name ∈ autoUsers es' := by
  simp only [autoUsers, List.mem_map, List.mem_filter, h.mem_iff]

theorem PlainTable.perm {es' : List Entry} (hes : PlainTable es) (h : es.Perm es') : PlainTable es' :=
  ⟨fun e he => hes.group e (h.mem_iff.mpr he), fun e he => hes.username e (h.mem_iff.mpr he),
    fun e he => hes.additional e (h.mem_iff.mpr he)⟩

theorem Agree.perm {es' : List Entry} (hes : Agree es) (h : es.Perm es') : Agree es' :=
  ⟨fun e he e' he' => hes.gid e (h.mem_iff.mpr he) e' (h.mem_iff.mpr he'),
    fun e he e' he' => hes.uid e (h.mem_iff.mpr he) e' (h.mem_iff.mpr he')⟩

/-- Explicit ids that agree are the final ones in every order of the table; where the name is
met with an automatic id as well, the final one is the double that awk prints. -/
theorem explicit_ids_win {es' : List Entry} {t' : Target} (hes : PlainTable es) (hagree : Agree es)
    (hperm : es.Perm es') (h : main env es s = .ok t) (h' : main env es' s = .ok t') :
    (∀ e ∈ es, ∀ n, e.gid = some n → 0 ≤ n →
      HasId t.group e.group (settle (autoGroups es) e.group n) ∧
        HasId t'.group e.group (settle (autoGroups es) e.group n)) ∧
    ∀ e ∈ es, e.real = true → ∀ n, e.uid = some n → 0 ≤ n →
      HasId t.passwd e.username (settle (autoUsers es) e.username n) ∧
        HasId t'.passwd e.username (settle (autoUsers es) e.username n) := by
  constructor
  · intro e he n hn h0
    have hcolon := (hes.group e he).no_colon
    have hother := main_hasGroup (hes.perm hperm) (hagree.perm hperm) h' (hperm.mem_iff.mp he) hn h0
    rw [← settle_congr (mem_autoGroups_perm hperm)] at hother
    exact ⟨(main_hasGroup hes hagree h he hn h0).hasId hcolon, hother.hasId hcolon⟩
  · intro e he hreal n hn h0
    have hcolon := (hes.username e he hreal).no_colon
    obtain ⟨k, hk⟩ := main_hasUser hes hagree h he hreal hn h0
    obtain ⟨k', hk'⟩ :=
      main_hasUser (hes.perm hperm) (hagree.perm hperm) h' (hperm.mem_iff.mp he) hreal hn h0
    rw [← settle_congr (mem_autoUsers_perm hperm)] at hk'
    exact ⟨hk.hasId hcolon, hk'.hasId hcolon⟩

theorem fits_of_mem {n m : ℤ} (h : m ∈ if Fits n then some n else none) : Fits m := by
  split at h
  next hn => exact Option.mem_some.mp h ▸ hn
  next => cases h

/-- An entry without password, home directory, shell and comment. -/
def entry (username : String) (uid : ℤ) (group : String) (gid : ℤ) (groups : String) : Entry where
  username := username.toList
  uid := if Fits uid then some uid else none
  uid_fits := fun _ => fits_of_mem
  group := group.toList
  gid := if Fits gid then some gid else none
  gid_fits := fun _ => fits_of_mem
  passwd := "*".toList
  home := "-".toList
  shell := "-".toList
  groups := groups.toList
  comment := "-".toList

/-- An environment in which every command succeeds; a password is its own hash. -/
def plainEnv : Env := ⟨some, fun _ => true, "/target".toList⟩

/-- Files with the root account only. -/
def rootOnly : Target where
  passwd := ["root:x:0:0:root:/root:/bin/sh".toList]
  shadow := ["root::10933:0:99999:7:::".toList]
  group := ["root:x:0:".toList]

/-- The group `ftp` and the user `ftp` are declared with and without ids. -/
def ftpTable : List Entry :=
  [entry "ftp" (-1) "ftp" (-1) "-", entry "web" (-1) "www" (-1) "ftp,log",
    entry "ftp" 1001 "ftp" 1000 "www"]

theorem explicit_ids_win_ftp :
    ∃ t t', main plainEnv ftpTable rootOnly = .ok t ∧ main plainEnv ftpTable.reverse rootOnly = .ok t' ∧
      (∀ e ∈ ftpTable, ∀ n, e.gid = some n → 0 ≤ n →
        HasId t.group e.group (settle (autoGroups ftpTable) e.group n) ∧
          HasId t'.group e.group (settle (autoGroups ftpTable) e.group n)) ∧
      ∀ e ∈ ftpTable, e.real = true → ∀ n, e.uid = some n → 0 ≤ n →
        HasId t.passwd e.username (settle (autoUsers ftpTable) e.username n) ∧
          HasId t'.passwd e.username (settle (autoUsers ftpTable) e.username n) := by
  obtain ⟨t, ht, -⟩ := Exit.exists_of_any (main plainEnv ftpTable rootOnly) (fun _ => true)
    (by decide +kernel)
  obtain ⟨t', ht', -⟩ := Exit.exists_of_any (main plainEnv ftpTable.reverse rootOnly) (fun _ => true)
    (by decide +kernel)
  refine ⟨t, t', ht, ht', explicit_ids_win ?_ ?_ (List.reverse_perm _).symm ht ht'⟩
  · exact ⟨by decide +kernel, by decide +kernel, by decide +kernel⟩
  · exact ⟨by decide +kernel, by decide +kernel⟩

/-- The group `big` has an explicit gid that is no double, and is an additional group as well. -/
def bigTable : List Entry :=
  [entry "-" (-1) "big" 9007199254740993 "-", entry "web" (-1) "www" (-1) "big"]

theorem explicit_gid_rounded :
    PlainTable bigTable ∧ Agree bigTable ∧
      ∃ t t', main plainEnv bigTable rootOnly = .ok t ∧ main plainEnv bigTable.reverse rootOnly = .ok t' ∧
        ¬ HasId t.group "big".toList 9007199254740993 ∧ HasId t.group "big".toList 9007199254740992 := by
  obtain ⟨t, ht, hid⟩ := Exit.exists_of_any (main plainEnv bigTable rootOnly)
    (fun t => decide (¬ HasId t.group "big".toList 9007199254740993 ∧
      HasId t.group "big".toList 9007199254740992)) (by decide +kernel)
  obtain ⟨t', ht', -⟩ := Exit.exists_of_any (main plainEnv bigTable.reverse rootOnly) (fun _ => true)
    (by decide +kernel)
  exact ⟨⟨by decide +kernel, by decide +kernel, by decide +kernel⟩, ⟨by decide +kernel, by decide +kernel⟩,
    t, t', ht, ht', of_decide_eq_true hid⟩

end CargosBuildroot.Accounts
