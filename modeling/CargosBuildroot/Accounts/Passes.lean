import CargosBuildroot.Accounts.Explicit

/-! The passes of a run: what the look-ups find for the groups and users that have been written,
and the groups that are there when the users are added. An explicit gid is written as it is, and
read back as a double. -/

namespace CargosBuildroot.Accounts

open Shell Store

variable {env : Env} {s t u : Target} {es : List Entry} {e : Entry}

theorem taken_iff {id : Option ℤ} :
    explicit id = true ∨ automatic id = true ↔ ∃ n, id = some n ∧ -1 ≤ n := by
  rw [explicit_iff, automatic_iff]
  constructor
  · rintro (⟨n, rfl, h⟩ | rfl)
    · exact ⟨n, rfl, by omega⟩
    · exact ⟨-1, rfl, by omega⟩
  · rintro ⟨n, rfl, h⟩
    by_cases hn : n = -1
    · exact .inr (by rw [hn])
    · exact .inl ⟨n, rfl, by omega⟩

/-- The passes over the groups leave the users alone. -/
theorem groups_keep_users
    (hu : Script.forEach (autoGroups es) (addOneGroup · (-1)) (s.putGroups (explicitGroups es)) = .ok u) :
    u.passwd = s.passwd ∧ u.shadow = s.shadow := by
  have hexp : ∀ ops : List (Text × ℤ),
      (s.putGroups ops).passwd = s.passwd ∧ (s.putGroups ops).shadow = s.shadow := by
    intro ops
    induction ops using List.reverseRecOn with
    | nil => exact ⟨rfl, rfl⟩
    | append_singleton ops op ih => rwa [putGroups_append]
  refine Script.forEach_inv (fun _ v => v.passwd = s.passwd ∧ v.shadow = s.shadow) (hexp _) ?_ hu
  intro done g v w _ hv hadd
  obtain ⟨n, -, rfl⟩ := addOneGroup_ok.mp hadd
  exact hv

/-! ### Look-ups -/

theorem HasGroup.getGid_eq {group : Text} {gid : ℤ} (h : HasGroup s group gid) (hg : ':' ∉ group)
    (hbare : group ∉ s.group) : getGid s group = [rounded gid] := by
  obtain ⟨members, hm, hline⟩ := h
  rw [getGid, lookup_eq hg hbare, hline]
  simp [field, fields_groupLine hg hm, awkInt_decimal]

theorem HasUser.getUid_eq {username : Text} {uid gid : ℤ} (h : HasUser s username uid gid)
    (hu : ':' ∉ username) (hbare : username ∉ s.passwd) : getUid s username = [rounded uid] := by
  obtain ⟨comment, home, shell, hline⟩ := h
  obtain ⟨more, hf⟩ := fields_passwdLine hu uid gid comment home shell
  rw [getUid, lookup_eq hu hbare, hline]
  simp [field, hf, awkInt_decimal]

theorem HasUser.getUgid_eq {username : Text} {uid gid : ℤ} (h : HasUser s username uid gid)
    (hu : ':' ∉ username) (hbare : username ∉ s.passwd) : getUgid s username = [rounded gid] := by
  obtain ⟨comment, home, shell, hline⟩ := h
  obtain ⟨more, hf⟩ := fields_passwdLine hu uid gid comment home shell
  rw [getUgid, lookup_eq hu hbare, hline]
  simp [field, hf, awkInt_decimal]

theorem HasGroup.mem_getGroup {group : Text} {gid n : ℤ} (h : HasGroup s group gid) (hg : ':' ∉ group)
    (hgid : Fits gid) (hn : Fits n) (hsame : rounded gid = rounded n) : group ∈ getGroup s n := by
  obtain ⟨members, hm, hline⟩ := h
  have hmem : groupLine group gid members ∈ s.group.filter (hasName group) := by simp [hline]
  refine List.mem_map.mpr ⟨_, List.mem_filter.mpr ⟨(List.mem_filter.mp hmem).1, ?_⟩, ?_⟩
  · simpa [field, fields_groupLine hg hm] using (awkEq_decimal hgid hn).mpr hsame
  · simp [field, fields_groupLine hg hm]

/-- The id that `add_one_user` prints is that of the main group, as awk prints it. -/
theorem Entry.Found.gid_eq {uid gid : ℤ} {home passwd : Text}
    (h : e.Found env s uid gid home passwd) {n : ℤ} (hg : HasGroup s e.group n) (hcolon : ':' ∉ e.group) :
    getGid s e.group = [gid] ∧ gid = rounded n := by
  have hmem := hg.mem_getGid hcolon
  rcases h.gid with hids | ⟨hids, -⟩
  · exact ⟨hids, by simpa [hids, eq_comm] using hmem⟩
  · simp [hids] at hmem

/-- A user is only added again with the same main group. -/
theorem Entry.Found.same_group {uid gid : ℤ} {home passwd : Text}
    (h : e.Found env s uid gid home passwd) {group : Text} {m k n : ℤ}
    (huser : HasUser s e.username m k) (hgroup : HasGroup s group n) (hk : rounded n = k) (hfits : Fits n)
    (hne : group ≠ []) (hcolon : ':' ∉ group) (hline : '\n' ∉ group) (he : '\n' ∉ e.group)
    (hu : ':' ∉ e.username) (hbare : e.username ∉ s.passwd) : e.group = group := by
  have hugroup : group ∈ getUgroup s e.username := by
    rw [getUgroup, huser.getUgid_eq hu hbare, ← hk, rounded_rounded]
    exact hgroup.mem_getGroup hcolon hfits (fits_rounded n) (rounded_rounded n).symm
  have hnl : '\n' ∉ captured (getUgroup s e.username) := by
    rcases h.valid.ugroup with h | h
    · simp [h]
    · rwa [h]
  have hcap := (captured_eq hnl hugroup hline).resolve_left hne
  rcases h.valid.ugroup with h | h
  · exact absurd (hcap.trans h) hne
  · exact (hcap.trans h).symm

/-! ### The passes over the groups -/

/-- What awk prints, and what is searched for, is exact. -/
theorem exact_of_generateId {name : Text} {file : List Text} {names : ℤ → List Text} {full : Failure}
    {n : ℤ} (h : generateId (lookup 3 name file) names 1000 1999 full = .ok n) : Exact n := by
  rcases generateId_ok h with hids | ⟨-, hmin, hmax, -⟩
  · have hmem : n ∈ lookup 3 name file := by simp [hids]
    obtain ⟨line, -, rfl⟩ := List.mem_map.mp hmem
    exact exact_rounded _
  · refine exact_of_le ?_
    omega

theorem exact_of_generateGid {group : Text} {n : ℤ} (h : generateGid group s = .ok n) : Exact n :=
  exact_of_generateId h

theorem exact_of_generateUid {username : Text} {n : ℤ} (h : generateUid username s = .ok n) : Exact n :=
  exact_of_generateId h

theorem fits_explicitGroups {op : Text × ℤ} (h : op ∈ explicitGroups es) : Fits op.2 := by
  obtain ⟨e, he, rfl⟩ := List.mem_map.mp h
  obtain ⟨n, hn, -⟩ := explicit_iff.mp (List.mem_filter.mp he).2
  simpa [hn] using e.gid_fits n hn

theorem fits_lastGid {group : Text} {n : ℤ} (h : lastGid group (explicitGroups es) = some n) : Fits n := by
  obtain ⟨op, hop, rfl⟩ := Option.map_eq_some_iff.mp h
  exact fits_explicitGroups (List.mem_filter.mp (List.mem_of_getLast? hop)).1

/-- The groups of the second and the third pass have lines with exact ids. -/
theorem autoGroups_exact (hes : PlainTable es)
    (hu : Script.forEach (autoGroups es) (addOneGroup · (-1)) (s.putGroups (explicitGroups es)) = .ok u) :
    ∀ g ∈ autoGroups es, ∃ n, HasGroup u g n ∧ Exact n := by
  have hall : ∀ g ∈ autoGroups es, ':' ∉ g → ∃ n, HasGroup u g n ∧ Exact n := by
    refine Script.forEach_inv (fun done v => ∀ g ∈ done, ':' ∉ g → ∃ n, HasGroup v g n ∧ Exact n)
      (by simp) (fun done g v w hmem hI hadd g' hg' hcolon => ?_) hu
    by_cases hgg : g' = g
    · obtain ⟨n, hn, rfl⟩ := addOneGroup_ok.mp hadd
      rw [if_pos rfl] at hn
      exact ⟨n, ⟨[], hgg ▸ putGroup_groupIs v g n⟩, exact_of_generateGid hn⟩
    · have hold := (List.mem_append.mp hg').resolve_right fun h => hgg (List.mem_singleton.mp h)
      obtain ⟨n, hn, hexact⟩ := hI g' hold hcolon
      exact ⟨n, hn.addOneGroup_exact hexact hcolon (hes.autoGroups g hmem).no_colon hadd, hexact⟩
  exact fun g hg => hall g hg (hes.autoGroups g hg).no_colon

/-- A main group has a line when the users are added, with an exact id or with its last explicit
one. -/
theorem groups_exist (hes : PlainTable es)
    (hu : Script.forEach (autoGroups es) (addOneGroup · (-1)) (s.putGroups (explicitGroups es)) = .ok u)
    {e : Entry} (he : e ∈ es) (hgid : explicit e.gid = true ∨ automatic e.gid = true) :
    ∃ n, HasGroup u e.group n ∧ Fits n ∧
      (Exact n ∨ e.group ∉ autoGroups es ∧ lastGid e.group (explicitGroups es) = some n) := by
  by_cases hauto : e.group ∈ autoGroups es
  · obtain ⟨n, hn, hexact⟩ := autoGroups_exact hes hu e.group hauto
    exact ⟨n, hn, hexact.fits, .inl hexact⟩
  · have hexp : explicit e.gid = true := hgid.resolve_right fun h => hauto
      (List.mem_append_left _ (List.mem_map.mpr ⟨e, List.mem_filter.mpr ⟨he, h⟩, rfl⟩))
    have hmem : (e.group, e.gid.getD 0) ∈ explicitGroups es :=
      List.mem_map.mpr ⟨e, List.mem_filter.mpr ⟨he, hexp⟩, rfl⟩
    obtain ⟨n, hn⟩ := exists_lastGid hmem
    have hg := (hes.group e he).no_colon
    have hgroup := (putGroups_hasGroup (s := s) hes.explicitGroups hg hn).auto hes hg hu
    rw [settle, if_neg hauto] at hgroup
    exact ⟨n, hgroup, fits_lastGid hn, .inr ⟨hauto, hn⟩⟩

end CargosBuildroot.Accounts
