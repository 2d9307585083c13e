import CargosBuildroot.Accounts.Members
import Mathlib.Tactic.MkIffOfInductiveProp

/-! What the commands of `mkusers` do when they succeed: the checks that have
passed, the ids that were found, and the files that are left. -/

namespace CargosBuildroot.Accounts

open Shell Store

/-! ### Checks and ids -/

theorem mem_splitOn_intercalate {sep : Char} {ls : List Text} {w : Text} (hw : w ∈ ls)
    (hsep : sep ∉ w) : w ∈ ([sep].intercalate ls).splitOn sep := by
  induction ls with
  | nil => simp at hw
  | cons l ls ih =>
    cases ls with
    | nil =>
      obtain rfl := List.mem_singleton.mp hw
      simp [List.splitOn_eq_singleton hsep]
    | cons l' ls =>
      rw [List.intercalate_cons_cons, List.append_assoc, List.singleton_append,
        List.splitOn_append_cons_self]
      rcases List.mem_cons.mp hw with rfl | hw
      · simp [List.splitOn_eq_singleton hsep]
      · exact List.mem_append_right _ (ih hw)

/-- A captured output without a newline is its only line that is not empty. -/
theorem captured_eq {out : List Text} (h : '\n' ∉ captured out) {w : Text} (hw : w ∈ out)
    (hnl : '\n' ∉ w) : w = [] ∨ w = captured out := by
  have hsplit := mem_splitOn_intercalate hw hnl
  have hend : ∀ c ∈ (['\n'].intercalate out).rtakeWhile (· = '\n'), c = '\n' := fun c hc => by
    simpa using List.mem_rtakeWhile_imp hc
  have hall : ['\n'].intercalate out =
      captured out ++ (['\n'].intercalate out).rtakeWhile (· = '\n') :=
    List.rdropWhile_append_rtakeWhile.symm
  rw [hall] at hsplit
  cases ht : (['\n'].intercalate out).rtakeWhile (· = '\n') with
  | nil =>
    rw [ht, List.append_nil, List.splitOn_eq_singleton h] at hsplit
    exact .inr (List.mem_singleton.mp hsplit)
  | cons c t =>
    rw [ht] at hsplit hend
    obtain rfl := hend c List.mem_cons_self
    rw [List.splitOn_append_cons_self_of_not_mem h] at hsplit
    rcases List.mem_cons.mp hsplit with rfl | hmem
    · exact .inr rfl
    · refine .inl (List.eq_nil_iff_forall_not_mem.mpr fun c hc => ?_)
      have := mem_piece hmem hc
      exact this.2 (hend c (List.mem_cons_of_mem _ this.1))

theorem captured_singleton {w : Text} (h : '\n' ∉ w) : captured [w] = w := by
  rw [captured, List.intercalate_singleton, List.rdropWhile_eq_self_iff]
  intro hne hlast
  have hend : w.getLast hne = '\n' := of_decide_eq_true hlast
  exact h (hend ▸ List.getLast_mem hne)

/-- What `check_user_validity` has found when it returns 0. -/
@[mk_iff] structure Valid (username : Text) (uid : ℤ) (group : Text) (gid : Option ℤ) (s : Target) : Prop where
  not_root : username ≠ "root".toList
  gid_range : ∀ n, gid = some n → -1 ≤ n ∧ n ≠ 0
  gid_group : ∀ n, gid = some n → n ≠ -1 → captured (getGroup s n) = [] ∨ captured (getGroup s n) = group
  gid_same : ∀ n, gid = some n → n ≠ -1 → differs (getGid s group) n = false
  gid_user : ∀ n, gid = some n → n ≠ -1 → differs (getUgid s username) n = false
  uid_range : -1 ≤ uid ∧ uid ≠ 0
  uid_user : uid ≠ -1 → captured (getUsername s uid) = [] ∨ captured (getUsername s uid) = username
  uid_same : uid ≠ -1 → differs (getUid s username) uid = false
  ugroup : captured (getUgroup s username) = [] ∨ captured (getUgroup s username) = group

theorem ite_error_ok {ε α : Type*} {c : Prop} [Decidable c] {e : ε} {x : Except ε α} {a : α} :
    (if c then .error e else x) = .ok a ↔ ¬ c ∧ x = .ok a := by
  split <;> simp_all

theorem checkUserValidity_ok {username : Text} {uid : ℤ} {group : Text} {gid : Option ℤ}
    {s : Target} :
    checkUserValidity username uid group gid s = .ok () ↔ Valid username uid group gid s := by
  rw [valid_iff]
  unfold checkUserValidity
  cases gid with
  | none =>
    by_cases hu : uid = -1
    all_goals simp [bind, Except.bind, throw, throwThe, MonadExceptOf.throw, pure, Except.pure,
        ite_error_ok, hu]
    all_goals grind
  | some n =>
    by_cases hn : n = -1 <;> by_cases hu : uid = -1
    all_goals simp [bind, Except.bind, throw, throwThe, MonadExceptOf.throw, pure, Except.pure,
        ite_error_ok, hn, hu]
    all_goals grind

theorem generateId_ok {ids : List ℤ} {names : ℤ → List Text} {min max : ℤ} {full : Failure} {n : ℤ}
    (h : generateId ids names min max full = .ok n) :
    ids = [n] ∨ ids = [] ∧ min ≤ n ∧ n ≤ max ∧ captured (names n) = [] := by
  unfold generateId at h
  split at h
  · split at h
    · rename_i i hi
      obtain rfl := Except.ok.inj h
      have hfree := List.find?_some hi
      have hrange := List.mem_of_find?_eq_some hi
      simp only [List.mem_range'_1, decide_eq_true_eq] at hfree hrange
      exact .inr ⟨rfl, by omega, by omega, hfree⟩
    · simp at h
  · exact .inl (by simpa using h)
  · simp at h

/-! ### Commands -/

/-- The files after `add_one_group`. -/
def Target.putGroup (group : Text) (gid : ℤ) (s : Target) : Target :=
  { s with
    group := put hasName group (groupLine group gid []) s.group
    gshadow := s.gshadow.map (put hasName group (gshadowLine group [])) }

theorem addOneGroup_ok {group : Text} {gid : ℤ} {s t : Target} :
    addOneGroup group gid s = .ok t ↔
      ∃ n, (if gid = -1 then generateGid group s else .ok gid) = .ok n ∧ s.putGroup group n = t := by
  simp only [addOneGroup, Script.capture_ok, Script.update_ok, Target.putGroup]

/-- The line after the user has been added to the groups one after the other. -/
def memberLines (username : Text) (groups : List Text) (line : Text) : Text :=
  groups.foldl (fun line group => memberLine username group line) line

/-- The files after the user has been added to the groups. -/
def Target.join (username : Text) (groups : List Text) (s : Target) : Target :=
  { s with
    group := s.group.map (memberLines username groups)
    gshadow := s.gshadow.map (·.map (memberLines username groups)) }

theorem forEach_addUserToGroup (username : Text) (groups : List Text) :
    Script.forEach groups (addUserToGroup username ·) = Script.update (Target.join username groups) := by
  induction groups with
  | nil =>
    funext s
    have hid : memberLines username [] = id := rfl
    simp [Script.forEach, Script.skip, Script.update, Target.join, hid]
  | cons g groups ih =>
    funext s
    have hcomp : memberLines username (g :: groups) =
        memberLines username groups ∘ memberLine username g := rfl
    rw [Script.forEach, ih]
    simp [addUserToGroup, Script.andThen, Script.update, Target.join, hcomp, Function.comp_def]

/-- The additional groups of an entry. -/
def Entry.additional (e : Entry) : List Text := if e.groups = "-".toList then [] else groupList e.groups

/-- What `add_one_user` finds for an entry when it succeeds: the ids, the home
directory and the password. -/
structure Entry.Found (env : Env) (e : Entry) (s : Target) (uid gid : ℤ) (home passwd : Text) :
    Prop where
  valid : Valid e.username (e.uid.getD 0) e.group e.gid s
  uid : (if e.uid.getD 0 = -1 then generateUid e.username s else .ok (e.uid.getD 0)) = .ok uid
  gid : getGid s e.group = [gid] ∨ getGid s e.group = [] ∧ gid = 0
  home : homeOf e.home = .ok home
  passwd : passwdOf env e.passwd = .ok passwd
  mkdir : e.home ≠ "-".toList → env.mkdir e.home = true

def Entry.line (e : Entry) (uid gid : ℤ) (home : Text) : Text :=
  passwdLine e.username uid gid e.comment home
    (if e.shell = "-".toList then "/bin/false".toList else e.shell)

/-- The files after `add_one_user`. -/
def Target.putUser (env : Env) (e : Entry) (uid gid : ℤ) (home passwd : Text) (s : Target) : Target :=
  let t := s.join e.username e.additional
  { t with
    passwd := put hasName e.username (e.line uid gid home) s.passwd
    shadow := put hasName e.username (shadowLine e.username passwd) s.shadow
    script := s.script ++ if e.home = "-".toList then [] else
      [printf "chown -h -R %d:%d '%s'".toList
        [decimal uid, decimal gid, env.targetDir ++ '/' :: e.home]] }

/-- The last command of `add_one_user`. -/
theorem chown_ok {env : Env} {home : Text} {line : Text} {s t : Target} :
    (if home ≠ "-".toList then
      Script.capture (fun _ => if env.mkdir home then .ok () else .error Failure.status) fun _ =>
        Script.update fun s => { s with script := s.script ++ [line] }
    else Script.skip) s = .ok t ↔
      (home ≠ "-".toList → env.mkdir home = true) ∧
        { s with script := s.script ++ if home = "-".toList then [] else [line] } = t := by
  by_cases hh : home = "-".toList
  · simp only [hh, ne_eq, not_true_eq_false, if_false, Script.skip_ok, false_implies, true_and,
      if_true, List.append_nil]
  · rw [if_pos hh, if_neg hh, Script.capture_ok]
    cases hm : env.mkdir home
    · simp only [Bool.false_eq_true, if_false, reduceCtorEq, false_and, exists_false, ne_eq, hh,
        not_false_eq_true, imp_false, not_true_eq_false]
    · simp only [if_true, exists_const, Script.update_ok, implies_true, true_and]

theorem gid_ok {ids : List ℤ} {gid : ℤ} :
    ids = [gid] ∨ ids = [] ∧ gid = 0 ↔ ids.length ≤ 1 ∧ ids.headD 0 = gid := by
  match ids with
  | [] => simp [eq_comm]
  | [n] => simp
  | n :: m :: ids => simp

theorem add_ok {env : Env} {e : Entry} {s t : Target} :
    e.add env s = .ok t ↔
      ∃ uid gid home passwd, e.Found env s uid gid home passwd ∧
        s.putUser env e uid gid home passwd = t := by
  have hjoin : ∀ u : Target, (if e.groups ≠ "-".toList then
      Script.forEach (groupList e.groups) (addUserToGroup e.username ·) else Script.skip) u =
      .ok (u.join e.username e.additional) := by
    intro u
    unfold Entry.additional
    by_cases hg : e.groups = "-".toList
    · have hnil := congrFun (forEach_addUserToGroup e.username []) u
      simp only [hg, ne_eq, not_true_eq_false, if_false, if_true]
      exact hnil
    · rw [if_pos hg, if_neg hg, forEach_addUserToGroup]
      rfl
  have hgid : getGid (removeUser e.username s) e.group = getGid s e.group := rfl
  unfold Entry.add addOneUser
  simp only [Script.capture_ok, Script.andThen_ok, Script.update_ok, hjoin, Exit.ok.injEq,
    exists_eq_left', chown_ok, hgid]
  constructor
  · rintro ⟨_, hvalid, uid, huid, ids, hids, home, hhome, passwd, hpasswd, _, hlen, hmkdir, ht⟩
    obtain rfl := Except.ok.inj hids
    have hlen : (getGid s e.group).length ≤ 1 := by
      by_contra hl
      rw [if_neg hl] at hlen
      exact absurd hlen (by simp)
    exact ⟨uid, _, home, passwd, ⟨checkUserValidity_ok.mp hvalid, huid, gid_ok.mpr ⟨hlen, rfl⟩, hhome,
      hpasswd, hmkdir⟩, ht⟩
  · rintro ⟨uid, gid, home, passwd, hfound, ht⟩
    obtain ⟨hlen, rfl⟩ := gid_ok.mp hfound.gid
    exact ⟨(), checkUserValidity_ok.mpr hfound.valid, uid, hfound.uid, _, rfl, home, hfound.home,
      passwd, hfound.passwd, (), if_pos hlen, hfound.mkdir, ht⟩

/-! ### The passes -/

/-- The groups with the ids that the first pass gives them. -/
def explicitGroups (es : List Entry) : List (Text × ℤ) :=
  (es.filter (explicit ·.gid)).map fun e => (e.group, e.gid.getD 0)

/-- The groups that the second and the third pass add with the id -1. -/
def autoGroups (es : List Entry) : List Text :=
  (es.filter (automatic ·.gid)).map (·.group) ++ es.flatMap Entry.additional

/-- The entries that the last two passes add users for. -/
def users (es : List Entry) : List Entry :=
  es.filter (fun e => e.real && explicit e.uid) ++ es.filter (fun e => e.real && automatic e.uid)

/-- The files after the first pass. -/
def Target.putGroups (ops : List (Text × ℤ)) (s : Target) : Target :=
  ops.foldl (fun s op => s.putGroup op.1 op.2) s

theorem addOneGroup_explicit {group : Text} {gid : Option ℤ} (h : explicit gid = true) :
    addOneGroup group (gid.getD 0) = Script.update (Target.putGroup group (gid.getD 0)) := by
  have hne : gid.getD 0 ≠ -1 := by
    cases gid with
    | none => simp
    | some n =>
      simp only [explicit, Option.any_some, decide_eq_true_eq, Option.getD_some] at h ⊢
      omega
  funext s
  simp [addOneGroup, Script.capture, hne, Script.update, Target.putGroup]

theorem forEach_explicit (es : List Entry) :
    (Script.forEach es fun e =>
      if explicit e.gid then addOneGroup e.group (e.gid.getD 0) else Script.skip) =
      Script.update (Target.putGroups (explicitGroups es)) := by
  rw [Script.forEach_continue (fun e => explicit e.gid) es fun e => addOneGroup e.group (e.gid.getD 0),
    Script.forEach_update fun e => Target.putGroup e.group (e.gid.getD 0)]
  · funext s
    simp [Script.update, explicitGroups, Target.putGroups, List.foldl_map]
  · intro e he
    exact addOneGroup_explicit (List.mem_filter.mp he).2

theorem forEach_automatic (es : List Entry) :
    (Script.forEach es fun e =>
      if automatic e.gid then addOneGroup e.group (e.gid.getD 0) else Script.skip) =
      Script.forEach ((es.filter (automatic ·.gid)).map (·.group)) (addOneGroup · (-1)) := by
  rw [Script.forEach_map, Script.forEach_continue (fun e => automatic e.gid) es fun e =>
    addOneGroup e.group (e.gid.getD 0)]
  refine Script.forEach_congr fun e he => ?_
  have : e.gid = some (-1) := by simpa [automatic] using (List.mem_filter.mp he).2
  rw [this, Option.getD_some]

theorem forEach_additional (es : List Entry) :
    (Script.forEach es fun e =>
      if e.groups ≠ "-".toList then
        Script.forEach (groupList e.groups) fun g => addOneGroup g (-1)
      else Script.skip) =
      Script.forEach (es.flatMap Entry.additional) (addOneGroup · (-1)) := by
  rw [← Script.forEach_flatMap]
  refine Script.forEach_congr fun e _ => ?_
  by_cases h : e.groups = "-".toList
  · simp only [Entry.additional, h, ne_eq, not_true_eq_false, if_false, if_true]
    rfl
  · rw [if_pos h, Entry.additional, if_neg h]

theorem main_ok {env : Env} {es : List Entry} {s t : Target} :
    main env es s = .ok t ↔
      ∃ u, Script.forEach (autoGroups es) (addOneGroup · (-1)) (s.putGroups (explicitGroups es)) = .ok u ∧
        Script.forEach (users es) (Entry.add env) u = .ok t := by
  have hmin : (Script.capture (fun _ : Target =>
      if minUid ≤ 0 then .error (fail "MIN_UID must be >0 (currently %d)\n" [decimal minUid])
      else if minGid ≤ 0 then .error (fail "MIN_GID must be >0 (currently %d)\n" [decimal minGid])
      else .ok ()) fun _ => Script.skip) = Script.skip := rfl
  unfold main
  rw [hmin, forEach_explicit, forEach_automatic, forEach_additional]
  simp only [Script.forEach_continue, Script.andThen_ok, Script.skip_ok, Script.update_ok,
    exists_eq_left', autoGroups, users, Script.forEach_append_ok]
  constructor
  · rintro ⟨u₂, h₂, u₃, h₃, u₄, h₄, h⟩
    exact ⟨u₃, ⟨u₂, h₂, h₃⟩, u₄, h₄, h⟩
  · rintro ⟨u₃, ⟨u₂, h₂, h₃⟩, u₄, h₄, h⟩
    exact ⟨u₂, h₂, u₃, h₃, u₄, h₄, h⟩

end CargosBuildroot.Accounts
