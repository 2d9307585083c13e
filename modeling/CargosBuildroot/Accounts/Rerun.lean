import CargosBuildroot.Accounts.Consistent
import CargosBuildroot.Accounts.MemberList
import Mathlib.Data.List.Infix

/-! A second run of `mkusers` with the same table on the files that the first one
left. Every id that the first run has allocated is found in the files, so the
second run makes the same writes and the same edits of the member lists in the
same order, and repeating them changes nothing. An explicit uid that awk rounds is
not found. -/

namespace CargosBuildroot.Accounts

open Shell Store

variable {env : Env} {s t u v w : Target} {es : List Entry} {e : Entry}

/-! ### Edits of lines -/

/-- The line has no empty member: no two commas in a row, and no comma after a
colon. -/
def Tidy (line : Text) : Prop := ¬ [',', ','] <:+: line ∧ ¬ [':', ','] <:+: line

instance (line : Text) : Decidable (Tidy line) := by unfold Tidy; infer_instance

/-- A tidy line is left alone by the last two substitutions. -/
theorem Tidy.clean {line : Text} (h : Tidy line) : Clean line where
  commas p q heq := absurd ⟨p, q, by rw [heq]; simp⟩ h.1
  colon := h.2

/-- The edits leave the tidy lines of other groups alone. -/
theorem Tidy.memberLines {line : Text} (h : Tidy line) (username : Text) {groups : List Text}
    (hgs : ∀ g ∈ groups, hasName g line = false) : memberLines username groups line = line := by
  induction groups with
  | nil => rfl
  | cons g groups ih =>
    obtain ⟨hg, hgs⟩ := List.forall_mem_cons.mp hgs
    have hline : memberLine username g line = line := (memberLine_eq_iff hg).mpr h.clean
    rw [Accounts.memberLines, List.foldl_cons, hline]
    exact ih hgs

/-- All edits that the users of the table make in a line. -/
def allEdits (es : List Entry) (line : Text) : Text :=
  es.foldl (fun line e => memberLines e.username e.additional line) line

theorem allEdits_tidy {line : Text} (h : Tidy line)
    (hes : ∀ e ∈ es, ∀ g ∈ e.additional, hasName g line = false) : allEdits es line = line := by
  induction es with
  | nil => rfl
  | cons e es ih =>
    obtain ⟨he, hes⟩ := List.forall_mem_cons.mp hes
    rw [allEdits, List.foldl_cons, h.memberLines e.username he]
    exact ih hes

theorem hasName_allEdits {name : Text} (hname : PlainName name) (es : List Entry) (line : Text) :
    hasName name (allEdits es line) = hasName name line := by
  induction es generalizing line with
  | nil => rfl
  | cons e es ih =>
    rw [allEdits, List.foldl_cons]
    exact (ih _).trans (hasName_memberLines hname e.username e.additional line)

theorem users_group (ht : Script.forEach es (Entry.add env) u = .ok t) :
    t.group = u.group.map (allEdits es) ∧ t.gshadow = u.gshadow.map (·.map (allEdits es)) := by
  induction es generalizing u with
  | nil =>
    obtain rfl := Script.forEach_nil_ok.mp ht
    have hid : allEdits [] = id := rfl
    simp [hid]
  | cons e es ih =>
    obtain ⟨v, hadd, hrest⟩ := Script.forEach_cons_ok.mp ht
    obtain ⟨uid, gid, home, passwd, -, rfl⟩ := add_ok.mp hadd
    obtain ⟨hg, hs⟩ := ih hrest
    have hcomp : allEdits (e :: es) = allEdits es ∘ memberLines e.username e.additional := rfl
    refine ⟨?_, ?_⟩
    · rw [hg, hcomp, ← List.map_map]
      rfl
    · have hput : (u.putUser env e uid gid home passwd).gshadow =
          u.gshadow.map (·.map (memberLines e.username e.additional)) := rfl
      rw [hs, hcomp, hput, Option.map_map]
      congr 1
      funext lines
      simp

/-! ### Writes -/

/-- The group lines of a sequence of groups with ids. -/
def groupOps (ops : List (Text × ℤ)) : List (Text × Text) := ops.map fun op => (op.1, groupLine op.1 op.2 [])

def gshadowOps (ops : List (Text × ℤ)) : List (Text × Text) := ops.map fun op => (op.1, gshadowLine op.1 [])

theorem putGroups_eq (ops : List (Text × ℤ)) (s : Target) :
    s.putGroups ops = { s with
      group := puts hasName (groupOps ops) s.group
      gshadow := s.gshadow.map (puts hasName (gshadowOps ops)) } := by
  induction ops generalizing s with
  | nil =>
    have hid : puts hasName (gshadowOps []) = id := rfl
    rw [hid, Option.map_id_fun, id]
    rfl
  | cons op ops ih =>
    have hcons : s.putGroups (op :: ops) = (s.putGroup op.1 op.2).putGroups ops := rfl
    rw [hcons, ih]
    cases hg : s.gshadow <;> simp [Target.putGroup, groupOps, gshadowOps, hg]

/-- The groups that get an id in a run, with the ids that they have in the end. -/
theorem auto_writes {names : List Text} (hnames : ∀ g ∈ names, PlainName g) (hv : GroupsNamed v)
    (hw : Script.forEach names (addOneGroup · (-1)) v = .ok w) :
    GroupsNamed w ∧ (∀ a ∈ accounts v.group, a ∈ accounts w.group) ∧
      ∃ ops : List (Text × ℤ), ops.map Prod.fst = names ∧ w = v.putGroups ops ∧
        ∀ op ∈ ops, op ∈ accounts w.group := by
  induction names generalizing v with
  | nil =>
    obtain rfl := Script.forEach_nil_ok.mp hw
    exact ⟨hv, fun _ => id, [], rfl, rfl, by simp⟩
  | cons g names ih =>
    obtain ⟨v', hadd, hrest⟩ := Script.forEach_cons_ok.mp hw
    obtain ⟨n, hn, rfl⟩ := addOneGroup_ok.mp hadd
    have hn : generateGid g v = .ok n := by simpa using hn
    have hexact := exact_of_generateGid hn
    obtain ⟨hnamed, hacc⟩ := hv.putGroup (hnames g (by simp)) hexact.fits
    rw [hexact] at hacc
    obtain ⟨hw', hkeep, ops, hops, rfl, hmem⟩ := ih (fun g' hg' => hnames g' (by simp [hg'])) hnamed hrest
    have hfirst : (g, n) ∈ accounts (v.putGroup g n).group := by
      rw [hacc, mem_assign]
      exact .inr ⟨rfl, rfl⟩
    refine ⟨hw', fun a ha => hkeep a ?_, (g, n) :: ops, by rw [List.map_cons, hops], rfl, ?_⟩
    · obtain ⟨g', m⟩ := a
      rw [hacc]
      rcases hv.generateGid hn with hold | ⟨hnone, -⟩
      · exact (mem_assign_same hv.names hold).mpr ha
      · exact mem_assign.mpr (.inl ⟨ha, fun h => hnone m (h ▸ ha)⟩)
    · exact List.forall_mem_cons.mpr ⟨hkeep _ hfirst, hmem⟩

/-- Adding groups with the id -1 that all have an id already. -/
theorem auto_again {ops : List (Text × ℤ)} (hops : ∀ op ∈ ops, PlainName op.1) (hv : GroupsNamed v)
    (hmem : ∀ op ∈ ops, op ∈ accounts v.group) :
    Script.forEach (ops.map Prod.fst) (addOneGroup · (-1)) v = .ok (v.putGroups ops) := by
  induction ops generalizing v with
  | nil => rfl
  | cons op ops ih =>
    obtain ⟨hop, hops⟩ := List.forall_mem_cons.mp hops
    obtain ⟨hold, hmem⟩ := List.forall_mem_cons.mp hmem
    have hexact : Exact op.2 := exact_of_accounts hold
    obtain ⟨hnamed, hacc⟩ := hv.putGroup hop hexact.fits
    rw [hexact] at hacc
    have hids : getGid v op.1 = [op.2] := by
      rw [getGid_eq, filter_atName hv.names hold]
      rfl
    have hgen : generateGid op.1 v = .ok op.2 := by simp [generateGid, generateId, hids]
    have hadd : addOneGroup op.1 (-1) v = .ok (v.putGroup op.1 op.2) :=
      addOneGroup_ok.mpr ⟨op.2, by simpa using hgen, rfl⟩
    rw [List.map_cons, Script.forEach_cons_ok]
    refine ⟨_, hadd, ih hops hnamed fun a ha => ?_⟩
    rw [hacc]
    exact (mem_assign_same hv.names hold).mpr (hmem a ha)

/-! ### Users -/

theorem not_bare {name : Text} {file : List Text} (hname : ':' ∉ name)
    (hfile : ∀ line ∈ file, IsRecord line) : name ∉ file := by
  intro h
  obtain ⟨a, b, d, n, heq, -⟩ := hfile name h
  exact hname (heq ▸ by simp [quad])

section Found

variable {uid gid : ℤ} {home passwd : Text}

/-- A user that has an id is written with the same id again, as awk prints it. -/
theorem Entry.Found.uid_same (h : e.Found env v uid gid home passwd) {m k : ℤ}
    (huser : HasUser v e.username m k) (hu : ':' ∉ e.username) (hbare : e.username ∉ v.passwd) :
    uid = rounded m :=
  h.uid_kept (huser.getUid_eq hu hbare)

/-- What is written is what awk prints of it, if an explicit uid is. -/
theorem Entry.Found.exact (h : e.Found env v uid gid home passwd) (hexact : ∀ n, e.uid = some n → Exact n)
    {n : ℤ} (hg : HasGroup v e.group n) (hcolon : ':' ∉ e.group) : Exact uid ∧ Exact gid := by
  refine ⟨?_, (h.gid_eq hg hcolon).2 ▸ exact_rounded n⟩
  have huid := h.uid
  by_cases hauto : e.uid.getD 0 = -1
  · rw [if_pos hauto] at huid
    exact exact_of_generateUid huid
  · rw [if_neg hauto] at huid
    obtain rfl := Except.ok.inj huid
    cases hid : e.uid with
    | none => exact exact_of_le (by decide)
    | some n => exact hexact n hid

/-- The line of a user keeps its ids to the end of the run. -/
theorem users_keep (hes : PlainTable es) {l : List Entry} (hl : ∀ e ∈ l, e ∈ users es)
    (hrec : ∀ line ∈ v.passwd, IsRecord line) {username group : Text} {m k n : ℤ}
    (hu : PlainName username) (hg : PlainName group) (hm : Exact m) (hn : Fits n) (hk : rounded n = k)
    (huser : HasUser v username m k) (hgroup : HasGroup v group n)
    (ht : Script.forEach l (Entry.add env) v = .ok t) : HasUser t username m k := by
  refine (Script.forEach_inv (fun _ v => HasUser v username m k ∧ HasGroup v group n ∧
    ∀ line ∈ v.passwd, IsRecord line) ⟨huser, hgroup, hrec⟩ ?_ ht).1
  rintro done e v w hmem ⟨huser, hgroup, hrec⟩ hadd
  obtain ⟨he, hreal, -⟩ := mem_users.mp (hl e hmem)
  have hu' := hes.username e he hreal
  have hcolon : ∀ g ∈ e.additional, ':' ∉ g := fun g hg => (hes.additional e he g hg).no_colon
  obtain ⟨uid, gid, home, passwd, hfound, rfl⟩ := add_ok.mp hadd
  refine ⟨?_, hgroup.putUser hg hu' hcolon _ _,
    mem_put_record hrec (passwdLine_record hu' hfound.fits_uid _ _ _ _) e.username⟩
  by_cases hname : username = e.username
  · subst hname
    have hbare := not_bare hu.no_colon hrec
    have hsame := hfound.same_group huser hgroup hk hn hg.ne_nil hg.no_colon hg.no_newline
      (hes.group e he).no_newline hu.no_colon hbare
    have hgid := (hfound.gid_eq (hsame ▸ hgroup) (hes.group e he).no_colon).2
    have huid := hfound.uid_same huser hu.no_colon hbare
    rw [hm] at huid
    rw [← huid, ← hk, ← hgid]
    exact putUser_hasUser v uid gid
  · exact huser.putUser_other hu.no_colon hu'.no_colon hname _ _

/-- The password file is well-formed, with distinct names and ids as awk prints them. -/
structure UidsApart (s : Target) : Prop extends UsersNamed s where
  ids : ((accounts s.passwd).map Prod.snd).Nodup

theorem UidsApart.of_passwd (hs : UidsApart s) (h : t.passwd = s.passwd) : UidsApart t :=
  ⟨hs.toUsersNamed.of_passwd h, h ▸ hs.ids⟩

theorem UidsApart.putUser (hs : UidsApart s) (hu : PlainName e.username)
    (h : e.Found env s uid gid home passwd) : UidsApart (s.putUser env e uid gid home passwd) := by
  obtain ⟨hnamed, hrec⟩ := hs.toUsersNamed.putUser hu h
  refine ⟨hnamed, ?_⟩
  rw [accounts_eq, hrec, assign_map, ← accounts_eq]
  refine assign_numbers hs.ids fun name hname => ?_
  rcases h.uid_free hs.toUsersNamed hu hname with heq | hself
  · exact heq
  · exact (numbers_nodup_iff hs.names).mp hs.ids _ _ _ hname hself

/-- The name that is looked up for the id of a user is its own. -/
theorem HasUser.captured_getUsername {username : Text} {m k : ℤ} (h : HasUser w username m k)
    (hm : Exact m) (hu : PlainName username) (hw : UidsApart w) :
    captured (getUsername w m) = username := by
  have hids := h.getUid_eq hu.no_colon (not_bare hu.no_colon hw.record)
  have hmem : (username, rounded m) ∈ accounts w.passwd := Accounts.mem_getUid.mp (by simp [hids])
  have hone := filter_eq_singleton Prod.snd hw.ids hmem
  rw [getUsername, namesOf_eq hw.record hm.fits]
  simp only [hone, List.map_singleton]
  exact captured_singleton hu.no_newline

/-- The group that is looked up for a user is its main group. -/
theorem HasUser.captured_getUgroup {username group : Text} {m k : ℤ} (h : HasUser w username m k)
    (hk : Exact k) (hu : PlainName username) (hg : PlainName group) (hw : UidsApart w)
    (hrec : ∀ line ∈ w.group, IsGroupRecord line) (hgids : ((accounts w.group).map Prod.snd).Nodup)
    (hgroup : getGid w group = [k]) : captured (getUgroup w username) = group := by
  have hmem : (group, rounded k) ∈ accounts w.group := mem_getGid.mp (by simp [hgroup, hk.eq])
  have hone := filter_eq_singleton Prod.snd hgids hmem
  rw [getUgroup, h.getUgid_eq hu.no_colon (not_bare hu.no_colon hw.record), hk.eq]
  show captured (getGroup w k) = group
  rw [getGroup, namesOf_eq (fun line hl => (hrec line hl).isRecord) hk.fits]
  simp only [hone, List.map_singleton]
  exact captured_singleton hg.no_newline

/-- A state `w` of the second run beside the state `v` of the first one: the same
groups, and the users with the ids they have at the end `t` of the first run. -/
structure Beside (t v w : Target) : Prop where
  group : w.group = v.group
  gshadow : w.gshadow = v.gshadow
  apart : UidsApart w
  users : ∀ name m k, PlainName name → HasUser t name m k → HasUser w name m k

/-- What the first run has found for an entry, the second one finds too. -/
theorem Entry.Found.again (h : e.Found env v uid gid home passwd) (hw : Beside t v w)
    (hg : PlainName e.group) (hu : PlainName e.username) (huser : HasUser t e.username uid gid)
    (hexact : Exact uid ∧ Exact gid) {n : ℤ} (hgroup : HasGroup v e.group n) (hnamed : GroupsNamed v)
    (hgids : ((accounts v.group).map Prod.snd).Nodup) : e.Found env w uid gid home passwd := by
  have hbare := not_bare hu.no_colon hw.apart.record
  have huser' := hw.users _ _ _ hu huser
  have hgid : ∀ g, getGid w g = getGid v g := fun g => by rw [getGid, getGid, hw.group]
  have hnames : ∀ n, getGroup w n = getGroup v n := fun n => by rw [getGroup, getGroup, hw.group]
  have hids : getUid w e.username = [uid] := by rw [huser'.getUid_eq hu.no_colon hbare, hexact.1.eq]
  have hugids : getUgid w e.username = [gid] := by rw [huser'.getUgid_eq hu.no_colon hbare, hexact.2.eq]
  have hgids' := (h.gid_eq hgroup hg.no_colon).1
  have husername := huser'.captured_getUsername hexact.1 hu hw.apart
  have hugroup : captured (getUgroup w e.username) = e.group :=
    huser'.captured_getUgroup hexact.2 hu hg hw.apart (hw.group ▸ hnamed.record) (hw.group ▸ hgids)
      ((hgid e.group).trans hgids')
  have huid : e.uid.getD 0 ≠ -1 → uid = e.uid.getD 0 := by
    intro hne
    have := h.uid
    rw [if_neg hne] at this
    exact (Except.ok.inj this).symm
  refine ⟨⟨h.valid.not_root, h.valid.gid_range, ?_, ?_, ?_, h.valid.uid_range, ?_, ?_, .inr hugroup⟩,
    ?_, ?_, h.home, h.passwd, h.mkdir⟩
  · simpa only [hnames] using h.valid.gid_group
  · simpa only [hgid] using h.valid.gid_same
  · intro n hn hne
    have hsame := h.valid.gid_same n hn hne
    simpa [hgids', hugids] using hsame
  · intro hne
    exact .inr (huid hne ▸ husername)
  · intro hne
    rw [← huid hne, hids]
    simp [differs]
  · by_cases hauto : e.uid.getD 0 = -1
    · rw [if_pos hauto]
      simp [generateUid, generateId, hids]
    · rw [if_neg hauto, huid hauto]
  · simpa only [hgid] using h.gid

end Found

theorem HasUser.unique {username : Text} {m k m' k' : ℤ} (h : HasUser s username m k)
    (h' : HasUser s username m' k') (hu : ':' ∉ username) : m = m' ∧ k = k' := by
  obtain ⟨c, d, f, hline⟩ := h
  obtain ⟨c', d', f', hline'⟩ := h'
  obtain ⟨more, hf⟩ := fields_passwdLine hu m k c d f
  obtain ⟨more', hf'⟩ := fields_passwdLine hu m' k' c' d' f'
  have hsame := List.singleton_inj.mp (hline.symm.trans hline')
  rw [hsame, hf'] at hf
  simp only [List.cons.injEq, true_and] at hf
  refine ⟨?_, ?_⟩
  · exact (decimal_inj.mp hf.1).symm
  · exact (decimal_inj.mp hf.2.1).symm

theorem Beside.putUser {uid gid : ℤ} {home passwd : Text} (h : Beside t v w)
    (hu : PlainName e.username) (hfound : e.Found env w uid gid home passwd)
    (huser : HasUser t e.username uid gid) :
    Beside t (v.putUser env e uid gid home passwd) (w.putUser env e uid gid home passwd) := by
  refine ⟨?_, ?_, h.apart.putUser hu hfound, fun name m k hname hm => ?_⟩
  · exact congrArg (List.map _) h.group
  · exact congrArg (Option.map _) h.gshadow
  · by_cases heq : name = e.username
    · subst heq
      obtain ⟨rfl, rfl⟩ := hm.unique huser hu.no_colon
      exact putUser_hasUser w m k
    · exact (h.users name m k hname hm).putUser_other hname.no_colon hu.no_colon heq _ _

theorem uids_apart (hes : PlainTable es) (hs : UidsApart u)
    (ht : Script.forEach (users es) (Entry.add env) u = .ok t) : UidsApart t := by
  refine Script.forEach_inv (fun _ v => UidsApart v) hs (fun _ e v w hmem hv hadd => ?_) ht
  obtain ⟨he, hreal, -⟩ := mem_users.mp hmem
  obtain ⟨uid, gid, home, passwd, hfound, rfl⟩ := add_ok.mp hadd
  exact hv.putUser (hes.username e he hreal) hfound

/-- The passes over the users make the same writes in the second run. -/
theorem rerun_users (hes : PlainTable es) (hexact : ∀ e ∈ users es, ∀ n, e.uid = some n → Exact n)
    (hgids : ((accounts t.group).map Prod.snd).Nodup)
    {l : List Entry} (hl : ∀ e ∈ l, e ∈ users es) (hnamed : GroupsNamed v) (hapart : UidsApart v)
    (hgroup : ∀ e ∈ l, (∀ n, e.gid = some n → -1 ≤ n ∧ n ≠ 0) → ∃ n, HasGroup v e.group n ∧ Fits n)
    (ht : Script.forEach l (Entry.add env) v = .ok t) (hw : Beside t v w) :
    ∃ ops sops t', (∀ op ∈ ops, hasName op.1 op.2 = true) ∧ (∀ op ∈ sops, hasName op.1 op.2 = true) ∧
      t.passwd = puts hasName ops v.passwd ∧ t.shadow = puts hasName sops v.shadow ∧
      Script.forEach l (Entry.add env) w = .ok t' ∧
      t'.passwd = puts hasName ops w.passwd ∧ t'.shadow = puts hasName sops w.shadow := by
  induction l generalizing v w with
  | nil =>
    obtain rfl := Script.forEach_nil_ok.mp ht
    exact ⟨[], [], w, by simp, by simp, rfl, rfl, rfl, rfl, rfl⟩
  | cons e l ih =>
    obtain ⟨he, hl⟩ := List.forall_mem_cons.mp hl
    obtain ⟨hmem, hreal, -⟩ := mem_users.mp he
    have hu := hes.username e hmem hreal
    have hg := hes.group e hmem
    have hcolon : ∀ g ∈ e.additional, ':' ∉ g := fun g hg => (hes.additional e hmem g hg).no_colon
    obtain ⟨v', hadd, hrest⟩ := Script.forEach_cons_ok.mp ht
    have hkeep := users_named hes (List.forall_mem_cons.mpr ⟨he, hl⟩) hapart.toUsersNamed hnamed.record ht
    obtain ⟨uid, gid, home, passwd, hfound, rfl⟩ := add_ok.mp hadd
    -- the ids written here are those at the end
    obtain ⟨n, hn, hfits⟩ := hgroup e List.mem_cons_self hfound.valid.gid_range
    have hgid := (hfound.gid_eq hn hg.no_colon).2
    have hwritten := hfound.exact (hexact e he) hn hg.no_colon
    have hapart' := hapart.putUser hu hfound
    have hend := users_keep hes hl hapart'.record hu hg hwritten.1 hfits hgid.symm
      (putUser_hasUser v uid gid) (hn.putUser hg hu hcolon _ _) hrest
    have hagain := hfound.again hw hg hu hend hwritten hn hnamed (by rwa [accounts_eq, ← hkeep.2.2, ← accounts_eq])
    obtain ⟨hrec, hsame⟩ := join_groups hnamed.record hu.no_colon hcolon
    have hnamed' : GroupsNamed (v.putUser env e uid gid home passwd) := by
      have hacc : accounts (v.putUser env e uid gid home passwd).group = accounts v.group := by
        rw [accounts_eq, accounts_eq]
        exact congrArg _ hsame
      exact ⟨hrec, hacc ▸ hnamed.names⟩
    have hgroup' : ∀ e' ∈ l, (∀ n, e'.gid = some n → -1 ≤ n ∧ n ≠ 0) →
        ∃ n, HasGroup (v.putUser env e uid gid home passwd) e'.group n ∧ Fits n := by
      intro e' he' hrange
      obtain ⟨n', hn', hfits'⟩ := hgroup e' (List.mem_cons_of_mem _ he') hrange
      have hg' := hes.group e' (mem_users.mp (hl e' he')).1
      exact ⟨n', hn'.putUser hg' hu hcolon _ _, hfits'⟩
    obtain ⟨ops, sops, t', hops, hsops, hp, hs, hrun, hp', hs'⟩ :=
      ih hl hnamed' hapart' hgroup' hrest (hw.putUser hu hagain hend)
    refine ⟨(e.username, e.line uid gid home) :: ops, (e.username, shadowLine e.username passwd) :: sops,
      t', List.forall_mem_cons.mpr ⟨hasName_passwdLine _ _ _ _ _ _, hops⟩,
      List.forall_mem_cons.mpr ⟨hasName_shadowLine _ _, hsops⟩, hp, hs, ?_, hp', hs'⟩
    exact Script.forEach_cons_ok.mpr ⟨_, add_ok.mpr ⟨uid, gid, home, passwd, hagain, rfl⟩, hrun⟩

/-! ### Groups -/

theorem putGroups_putGroups (ops ops' : List (Text × ℤ)) (s : Target) :
    (s.putGroups ops).putGroups ops' = s.putGroups (ops ++ ops') := by
  simp [Target.putGroups]

/-- The writes of the groups take the edits of the member lists back. -/
theorem puts_allEdits {α : Type*} {ops : List α} {name line : α → Text} {file : List Text}
    (hops : ∀ op ∈ ops, PlainName (name op)) (hline : ∀ op, hasName (name op) (line op) = true)
    (htidy : ∀ l ∈ file, Tidy l)
    (hadd : ∀ e ∈ es, ∀ g ∈ e.additional, ∃ op ∈ ops, name op = g) :
    puts hasName (ops.map fun op => (name op, line op))
        ((puts hasName (ops.map fun op => (name op, line op)) file).map (allEdits es)) =
      puts hasName (ops.map fun op => (name op, line op)) file := by
  refine puts_map_puts ?_ ?_ fun l hl huntouched => allEdits_tidy (htidy l hl) fun e he g hg => ?_
  · intro op hop
    obtain ⟨op, -, rfl⟩ := List.mem_map.mp hop
    exact hline op
  · intro op hop l
    obtain ⟨o, ho, rfl⟩ := List.mem_map.mp hop
    exact hasName_allEdits (hops o ho) es l
  · obtain ⟨op, hop, rfl⟩ := hadd e he g hg
    simpa using List.all_eq_true.mp huntouched _ (List.mem_map_of_mem hop)

/-- The first pass of the second run leaves every group with the id that it has at the
end of the first run. -/
theorem explicit_again {ops : List (Text × ℤ)} (hexp : ∀ op ∈ ops, PlainName op.1 ∧ Fits op.2)
    (hs : GroupsNamed s) (hu : GroupsNamed u) (ht : GroupsNamed t)
    (hkeep : ∀ a ∈ accounts (s.putGroups ops).group, a ∈ accounts u.group)
    (haccounts : accounts t.group = accounts u.group) {a : Text × ℤ} (ha : a ∈ accounts u.group) :
    a ∈ accounts (t.putGroups ops).group := by
  obtain ⟨g, n⟩ := a
  rw [(putGroups_settled hexp ht).2]
  cases hlast : lastGid g ops with
  | none => rwa [Option.map_none, Option.none_or, ht.head_getGid, haccounts]
  | some m =>
    have hm := hkeep (g, rounded m)
      (((putGroups_settled hexp hs).2 g (rounded m)).mpr (by rw [hlast, Option.map_some, Option.some_or]))
    rw [Option.map_some, Option.some_or, number_unique hu.names hm ha]

/-- The passes over the groups in the second run: they find every id that the first
run has allocated, and leave the files as they were after these passes then. -/
theorem rerun_groups (hes : PlainTable es) (hs : GroupsNamed s)
    (htidy : ∀ line ∈ s.group, Tidy line)
    (htidy' : ∀ lines, s.gshadow = some lines → ∀ line ∈ lines, Tidy line)
    (hu : Script.forEach (autoGroups es) (addOneGroup · (-1)) (s.putGroups (explicitGroups es)) = .ok u)
    (ht : Script.forEach (users es) (Entry.add env) u = .ok t) (hnamed : GroupsNamed t)
    (haccounts : accounts t.group = accounts u.group) :
    GroupsNamed u ∧ ∃ u', Script.forEach (autoGroups es) (addOneGroup · (-1))
      (t.putGroups (explicitGroups es)) = .ok u' ∧ u'.group = u.group ∧ u'.gshadow = u.gshadow ∧
        u'.passwd = t.passwd ∧ u'.shadow = t.shadow := by
  have hexp := plain_explicitGroups hes
  obtain ⟨hu', hkeep, ops, hnames, rfl, hops⟩ :=
    auto_writes hes.autoGroups (putGroups_settled hexp hs).1 hu
  have hauto : ∀ op ∈ ops, PlainName op.1 := fun op hop =>
    hes.autoGroups op.1 (hnames ▸ List.mem_map_of_mem hop)
  have hplain : ∀ op ∈ explicitGroups es ++ ops, PlainName op.1 := fun op hop =>
    (List.mem_append.mp hop).elim (fun h => (hexp op h).1) (hauto op)
  have hadd : ∀ e ∈ users es, ∀ g ∈ e.additional, ∃ op ∈ explicitGroups es ++ ops, op.1 = g := by
    intro e he g hg
    have hg : g ∈ autoGroups es :=
      List.mem_append_right _ (List.mem_flatMap.mpr ⟨e, (mem_users.mp he).1, hg⟩)
    obtain ⟨op, hop, rfl⟩ := List.mem_map.mp (hnames ▸ hg)
    exact ⟨op, List.mem_append_right _ hop, rfl⟩
  -- the ids are found again
  have hagain := auto_again hauto (putGroups_settled hexp hnamed).1 fun op hop =>
    explicit_again hexp hs hu' hnamed hkeep haccounts (hops op hop)
  rw [hnames, putGroups_putGroups] at hagain
  refine ⟨hu', _, hagain, ?_⟩
  -- and the files are the same again
  obtain ⟨hgroup, hgshadow⟩ := users_group ht
  rw [putGroups_putGroups, putGroups_eq] at hgroup hgshadow ⊢
  rw [putGroups_eq]
  refine ⟨?_, ?_, rfl, rfl⟩
  · dsimp only at hgroup ⊢
    rw [hgroup]
    exact puts_allEdits hplain (fun op => hasName_groupLine op.1 op.2 []) htidy hadd
  · dsimp only at hgshadow ⊢
    rw [hgshadow]
    cases hlines : s.gshadow with
    | none => rfl
    | some lines =>
      have hname : ∀ op : Text × ℤ, hasName op.1 (gshadowLine op.1 []) = true := by
        intro op
        rw [gshadowLine_eq]
        simpa [quad] using hasName_line op.1 _
      exact congrArg some (puts_allEdits hplain hname (htidy' lines hlines) hadd)

/-! ### The second run -/

/-- Running `mkusers` again with the same table on the files that it has left changes
nothing, when these have gids that are distinct as awk reads them, as the initial uids
are, and awk prints the explicit uids of the table as they are. -/
theorem main_again (hes : PlainTable es) (hgid : ∀ e ∈ es, e.real = true → e.gid ≠ none)
    (hexact : ∀ e ∈ es, e.real = true → ∀ n, e.uid = some n → Exact n)
    (hs : WellFormed s) (huids : (s.passwd.map (awkInt <| field 3 ·)).Nodup)
    (htidy : ∀ line ∈ s.group, Tidy line)
    (htidy' : ∀ lines, s.gshadow = some lines → ∀ line ∈ lines, Tidy line)
    (h : main env es s = .ok t) (hgids : (t.group.map (awkInt <| field 3 ·)).Nodup) :
    ∃ t', main env es t = .ok t' ∧ t'.passwd = t.passwd ∧ t'.shadow = t.shadow ∧
      t'.group = t.group ∧ t'.gshadow = t.gshadow := by
  obtain ⟨u, hauto, husers⟩ := main_ok.mp h
  have hexact : ∀ e ∈ users es, ∀ n, e.uid = some n → Exact n := fun e he =>
    hexact e (mem_users.mp he).1 (mem_users.mp he).2.1
  have hsettled := groups_settled hes hs.groupsNamed hauto
  have hstart : UidsApart s := ⟨hs.usersNamed, by rw [accounts_snd]; exact huids⟩
  have hapart : UidsApart u := hstart.of_passwd (groups_keep_users hauto).1
  have hapart' := uids_apart hes hapart husers
  obtain ⟨-, hrec, hacc⟩ := users_named hes (fun _ h => h) hapart.toUsersNamed hsettled.record husers
  have hacc : accounts t.group = accounts u.group := by rw [accounts_eq, hacc, ← accounts_eq]
  have hnamed' : GroupsNamed t := ⟨hrec, by rw [hacc]; exact hsettled.names⟩
  obtain ⟨hu, u', hauto', hgroup, hgshadow, hpasswd', hshadow'⟩ :=
    rerun_groups hes hs.groupsNamed htidy htidy' hauto husers hnamed' hacc
  have hbeside : Beside t u u' := by
    refine ⟨hgroup, hgshadow, hapart'.of_passwd hpasswd', fun name m k _ hm => ?_⟩
    obtain ⟨c, d, f, hline⟩ := hm
    exact ⟨c, d, f, by rw [hpasswd', hline]⟩
  have hexist : ∀ e ∈ users es, (∀ n, e.gid = some n → -1 ≤ n ∧ n ≠ 0) →
      ∃ n, HasGroup u e.group n ∧ Fits n := by
    intro e he hrange
    obtain ⟨he, hreal, -⟩ := mem_users.mp he
    obtain ⟨n, hn⟩ := Option.ne_none_iff_exists'.mp (hgid e he hreal)
    obtain ⟨m, hm, hfits, -⟩ := groups_exist hes hauto he (taken_iff.mpr ⟨n, hn, (hrange n hn).1⟩)
    exact ⟨m, hm, hfits⟩
  obtain ⟨ops, sops, t', hops, hsops, hp, hsh, hrun, hp', hsh'⟩ :=
    rerun_users hes hexact (by rw [accounts_snd]; exact hgids) (fun _ h => h) hu hapart hexist husers hbeside
  obtain ⟨hg, hgs⟩ := users_group husers
  obtain ⟨hg', hgs'⟩ := users_group hrun
  refine ⟨t', main_ok.mpr ⟨u', hauto', hrun⟩, ?_, ?_, ?_, ?_⟩
  · rw [hp', hpasswd', hp, puts_puts u.passwd hops]
  · rw [hsh', hshadow', hsh, puts_puts u.shadow hsops]
  · rw [hg', hgroup, hg]
  · rw [hgs', hgshadow, hgs]

/-- The initial files with a `gshadow`. -/
def rootGshadow : Target := { rootOnly with gshadow := some ["root:*::".toList] }

theorem rootGshadow_wellFormed : WellFormed rootGshadow :=
  ⟨rootOnly_wellFormed.passwd, rootOnly_wellFormed.group, rootOnly_wellFormed.usernames,
    rootOnly_wellFormed.uids, rootOnly_wellFormed.groups, rootOnly_wellFormed.gids⟩

theorem main_again_ftp :
    ∃ t t', main plainEnv ftpTable rootGshadow = .ok t ∧ main plainEnv ftpTable t = .ok t' ∧
      t'.passwd = t.passwd ∧ t'.shadow = t.shadow ∧ t'.group = t.group ∧ t'.gshadow = t.gshadow := by
  obtain ⟨t, ht, hgids⟩ := Exit.exists_of_any (main plainEnv ftpTable rootGshadow)
    (fun t => decide (t.group.map (awkInt <| field 3 ·)).Nodup) (by decide +kernel)
  have hes : PlainTable ftpTable := ⟨by decide +kernel, by decide +kernel, by decide +kernel⟩
  have htidy : ∀ line ∈ rootGshadow.group, Tidy line := by decide +kernel
  have htidy' : ∀ lines, rootGshadow.gshadow = some lines → ∀ line ∈ lines, Tidy line := by
    rintro _ ⟨⟩
    decide +kernel
  have hexact : ∀ e ∈ ftpTable, e.real = true → ∀ n, e.uid = some n → Exact n := by decide +kernel
  obtain ⟨t', ht', heq⟩ := main_again hes (by decide +kernel) hexact rootGshadow_wellFormed
    (by decide +kernel) htidy htidy' ht (of_decide_eq_true hgids)
  exact ⟨t, t', ht, ht', heq⟩

/-- A user with an uid that is no double. -/
def bigUser : List Entry := [entry "web" 9007199254740993 "www" 1000 "-"]

/-- In the second run awk prints another uid, and the check refuses the user. -/
theorem bigUser_refused :
    PlainTable bigUser ∧ WellFormed rootGshadow ∧
      ∃ t, main plainEnv bigUser rootGshadow = .ok t ∧ Consistent t ∧
        ∀ t', main plainEnv bigUser t ≠ .ok t' := by
  obtain ⟨t, ht, htest⟩ := Exit.exists_of_any (main plainEnv bigUser rootGshadow)
    (fun t => decide (Consistent t) && !(main plainEnv bigUser t).any fun _ => true) (by decide +kernel)
  rw [Bool.and_eq_true, decide_eq_true_eq] at htest
  refine ⟨⟨by decide +kernel, by decide +kernel, by decide +kernel⟩, rootGshadow_wellFormed, t, ht, htest.1,
    fun t' ht' => ?_⟩
  rw [ht'] at htest
  exact Bool.false_ne_true htest.2

end CargosBuildroot.Accounts
