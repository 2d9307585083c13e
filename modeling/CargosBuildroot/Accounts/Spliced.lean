import CargosBuildroot.Accounts.Rerun

/-! The commands of `mkusers` for any `sed` scripts into which the names are spliced, and the
writes and edits of a run. Nothing is assumed of the scripts here. -/

namespace CargosBuildroot.Accounts

open Shell Store

/-- What the `sed` scripts do with a line: whether `/^name:.*/` selects it, and the four
substitutions of `add_user_to_group`. -/
structure Spliced where
  has : Text → Text → Bool
  member : Text → Text → Text → Text

/-- The groups that a run writes. -/
def touched (es : List Entry) : List Text := (explicitGroups es).map Prod.fst ++ autoGroups es

/-- The users that an entry adds to groups, with the groups. -/
def Entry.memberships (e : Entry) : List (Text × Text) := e.additional.map (e.username, ·)

def memberships (es : List Entry) : List (Text × Text) := es.flatMap Entry.memberships

namespace Spliced

section Commands

variable (x : Spliced)

def addOneGroup (group : Text) (gid : ℤ) : Script Failure Target :=
  .capture (fun s => if gid = -1 then generateGid group s else .ok gid) fun gid =>
    .update fun s =>
      { s with
        group := put x.has group (groupLine group gid []) s.group
        gshadow := s.gshadow.map (put x.has group (gshadowLine group [])) }

def addUserToGroup (username group : Text) : Script Failure Target :=
  .update fun s =>
    { s with
      group := s.group.map (x.member username group)
      gshadow := s.gshadow.map (·.map (x.member username group)) }

def removeUser (username : Text) (s : Target) : Target :=
  { s with
    passwd := s.passwd.filter (!x.has username ·)
    shadow := s.shadow.filter (!x.has username ·) }

def addOneUser (env : Env) (username : Text) (uid : ℤ) (group : Text) (gid : Option ℤ)
    (passwd home shell groups comment : Text) : Script Failure Target :=
  .capture (checkUserValidity username uid group gid) fun _ =>
  .capture (fun s => if uid = -1 then generateUid username s else .ok uid) fun uid =>
  (Script.update (x.removeUser username)).andThen <|
  .capture (fun s => .ok (getGid s group)) fun _gid =>
  let _shell := if shell = "-".toList then "/bin/false".toList else shell
  .capture (fun _ => homeOf home) fun _home =>
  .capture (fun _ => passwdOf env passwd) fun _passwd =>
  (Script.update fun s =>
    { s with passwd := s.passwd ++ [passwdLine username uid (_gid.headD 0) comment _home _shell] }).andThen <|
  .capture (fun _ => if _gid.length ≤ 1 then .ok () else .error .status) fun _ =>
  (Script.update fun s =>
    { s with shadow := s.shadow ++ [shadowLine username _passwd] }).andThen <|
  (if groups ≠ "-".toList then
    Script.forEach (groupList groups) (x.addUserToGroup username ·)
  else .skip).andThen <|
  if home ≠ "-".toList then
    .capture (fun _ => if env.mkdir home then .ok () else .error .status) fun _ =>
    .update fun s =>
      { s with
        script := s.script ++ [printf "chown -h -R %d:%d '%s'".toList
          [decimal uid, decimal (_gid.headD 0), env.targetDir ++ '/' :: home]] }
  else .skip

def add (env : Env) (e : Entry) : Script Failure Target :=
  x.addOneUser env e.username (e.uid.getD 0) e.group e.gid e.passwd e.home e.shell e.groups e.comment

def main (env : Env) (entries : List Entry) : Script Failure Target :=
  (Script.capture (fun _ =>
    if minUid ≤ 0 then .error (fail "MIN_UID must be >0 (currently %d)\n" [decimal minUid])
    else if minGid ≤ 0 then .error (fail "MIN_GID must be >0 (currently %d)\n" [decimal minGid])
    else .ok ()) fun _ => .skip).andThen <|
  (Script.forEach entries fun e =>
    if explicit e.gid then x.addOneGroup e.group (e.gid.getD 0) else .skip).andThen <|
  (Script.forEach entries fun e =>
    if automatic e.gid then x.addOneGroup e.group (e.gid.getD 0) else .skip).andThen <|
  (Script.forEach entries fun e =>
    if e.groups ≠ "-".toList then
      Script.forEach (groupList e.groups) fun g => x.addOneGroup g (-1)
    else .skip).andThen <|
  (Script.forEach entries fun e =>
    if e.real && explicit e.uid then x.add env e else .skip).andThen <|
  Script.forEach entries fun e =>
    if e.real && automatic e.uid then x.add env e else .skip

end Commands

/-- The names taken literally. -/
def literal : Spliced := ⟨hasName, memberLine⟩

/-- With the names taken literally these are the commands of before. -/
theorem main_literal (env : Env) (es : List Entry) : literal.main env es = Accounts.main env es := rfl

/-! ### The run as writes and edits -/

section Run

variable {x y : Spliced} {env : Env} {es : List Entry} {e : Entry} {s t u v : Target}

theorem addOneGroup_congr {g : Text} (hg : x.has g = y.has g) (gid : ℤ) :
    x.addOneGroup g gid = y.addOneGroup g gid := by
  have hput : @put Text _ x.has g = @put Text _ y.has g := by
    funext line file
    rw [put, put, hg]
  simp only [addOneGroup, hput]

/-- A loop over the additional groups of an entry depends on what it does for them. -/
theorem additional_congr {f g : Text → Script Failure Target} (h : ∀ a ∈ e.additional, f a = g a) :
    (if e.groups ≠ "-".toList then Script.forEach (groupList e.groups) f else .skip) =
      if e.groups ≠ "-".toList then Script.forEach (groupList e.groups) g else .skip := by
  by_cases hnone : e.groups = "-".toList
  · rw [if_neg (not_not_intro hnone), if_neg (not_not_intro hnone)]
  · rw [if_pos hnone, if_pos hnone]
    exact Script.forEach_congr fun a ha => h a (by rwa [Entry.additional, if_neg hnone])

theorem add_congr (husername : x.has e.username = y.has e.username)
    (hmember : ∀ g ∈ e.additional, x.member e.username g = y.member e.username g) (env : Env) :
    x.add env e = y.add env e := by
  have hremove : x.removeUser e.username = y.removeUser e.username := by
    funext s
    simp only [removeUser, husername]
  have hjoin : ∀ g ∈ e.additional, x.addUserToGroup e.username g = y.addUserToGroup e.username g := by
    intro g hg
    rw [addUserToGroup, addUserToGroup, hmember g hg]
  rw [add, add, addOneUser, addOneUser, hremove, additional_congr hjoin]

theorem main_congr (hgroup : ∀ e ∈ es, x.has e.group = y.has e.group)
    (hadditional : ∀ e ∈ es, ∀ g ∈ e.additional, x.has g = y.has g)
    (husername : ∀ e ∈ es, e.real = true → x.has e.username = y.has e.username)
    (hmember : ∀ e ∈ es, e.real = true → ∀ g ∈ e.additional, x.member e.username g = y.member e.username g)
    (env : Env) : x.main env es = y.main env es := by
  have hfirst : ∀ p : Option ℤ → Bool, (Script.forEach es fun e =>
        if p e.gid then x.addOneGroup e.group (e.gid.getD 0) else .skip) =
      Script.forEach es fun e => if p e.gid then y.addOneGroup e.group (e.gid.getD 0) else .skip :=
    fun p => Script.forEach_congr fun e he => by rw [addOneGroup_congr (hgroup e he)]
  have hthird : (Script.forEach es fun e =>
        if e.groups ≠ "-".toList then Script.forEach (groupList e.groups) fun g => x.addOneGroup g (-1)
        else .skip) =
      Script.forEach es fun e =>
        if e.groups ≠ "-".toList then Script.forEach (groupList e.groups) fun g => y.addOneGroup g (-1)
        else .skip :=
    Script.forEach_congr fun e he =>
      additional_congr fun g hg => addOneGroup_congr (hadditional e he g hg) _
  have hlast : ∀ p : Option ℤ → Bool, (Script.forEach es fun e =>
        if e.real && p e.uid then x.add env e else .skip) =
      Script.forEach es fun e => if e.real && p e.uid then y.add env e else .skip := by
    refine fun p => Script.forEach_congr fun e he => ?_
    cases hreal : e.real with
    | true => rw [add_congr (husername e he hreal) (hmember e he hreal)]
    | false => rfl
  rw [main, main, hfirst, hfirst, hthird, hlast, hlast]

/-- The files after `add_one_group`. -/
def putGroup (x : Spliced) (group : Text) (gid : ℤ) (s : Target) : Target :=
  { s with
    group := put x.has group (groupLine group gid []) s.group
    gshadow := s.gshadow.map (put x.has group (gshadowLine group [])) }

def putGroups (x : Spliced) (ops : List (Text × ℤ)) (s : Target) : Target :=
  ops.foldl (fun s op => x.putGroup op.1 op.2 s) s

/-- The edits that add users to groups, in a line. -/
def edits (x : Spliced) (ps : List (Text × Text)) (line : Text) : Text :=
  ps.foldl (fun line p => x.member p.1 p.2 line) line

def join (x : Spliced) (ps : List (Text × Text)) (s : Target) : Target :=
  { s with
    group := s.group.map (x.edits ps)
    gshadow := s.gshadow.map (·.map (x.edits ps)) }

/-- The files after `add_one_user`. -/
def putUser (x : Spliced) (env : Env) (e : Entry) (uid gid : ℤ) (home passwd : Text) (s : Target) : Target :=
  let t := x.join e.memberships s
  { t with
    passwd := put x.has e.username (e.line uid gid home) s.passwd
    shadow := put x.has e.username (shadowLine e.username passwd) s.shadow
    script := s.script ++ if e.home = "-".toList then [] else
      [printf "chown -h -R %d:%d '%s'".toList
        [decimal uid, decimal gid, env.targetDir ++ '/' :: e.home]] }

theorem putGroups_append (ops ops' : List (Text × ℤ)) (s : Target) :
    x.putGroups (ops ++ ops') s = x.putGroups ops' (x.putGroups ops s) := by
  rw [putGroups, List.foldl_append, ← putGroups, ← putGroups]

theorem putGroups_eq (ops : List (Text × ℤ)) (s : Target) :
    x.putGroups ops s = { s with
      group := puts x.has (groupOps ops) s.group
      gshadow := s.gshadow.map (puts x.has (gshadowOps ops)) } := by
  induction ops generalizing s with
  | nil =>
    have hid : puts x.has (gshadowOps []) = id := rfl
    rw [hid, Option.map_id_fun, id]
    rfl
  | cons op ops ih =>
    have hcons : x.putGroups (op :: ops) s = x.putGroups ops (x.putGroup op.1 op.2 s) := rfl
    rw [hcons, ih]
    cases hg : s.gshadow <;> simp [putGroup, groupOps, gshadowOps, hg]

theorem join_append (ps ps' : List (Text × Text)) (s : Target) :
    x.join (ps ++ ps') s = x.join ps' (x.join ps s) := by
  have hedits : x.edits (ps ++ ps') = x.edits ps' ∘ x.edits ps := by
    funext line
    rw [edits, List.foldl_append, Function.comp, edits, edits]
  cases hg : s.gshadow <;> simp [join, hedits, hg]

theorem join_nil (s : Target) : x.join [] s = s := by
  have hid : x.edits [] = id := rfl
  cases hg : s.gshadow <;> simp [join, hid]

theorem addOneGroup_ok {group : Text} {gid : ℤ} (h : x.addOneGroup group gid s = .ok t) :
    ∃ n, t = x.putGroups [(group, n)] s := by
  obtain ⟨n, -, hn⟩ := Script.capture_ok.mp h
  exact ⟨n, (Script.update_ok.mp hn).symm⟩

/-- The id is the one asked for, or a generated one. -/
theorem addOneGroup_put {group : Text} {gid : ℤ} (h : x.addOneGroup group gid s = .ok t) :
    ∃ n, (if gid = -1 then generateGid group s else .ok gid) = .ok n ∧ t = x.putGroup group n s := by
  obtain ⟨n, hn, ht⟩ := Script.capture_ok.mp h
  exact ⟨n, hn, (Script.update_ok.mp ht).symm⟩

/-- A loop over entries that adds groups. -/
theorem forEach_groups {body : Entry → Script Failure Target} (names : Entry → List Text)
    (hbody : ∀ e u v, body e u = .ok v →
      ∃ ops : List (Text × ℤ), ops.map Prod.fst = names e ∧ v = x.putGroups ops u)
    (h : Script.forEach es body s = .ok t) :
    ∃ ops : List (Text × ℤ), ops.map Prod.fst = es.flatMap names ∧ t = x.putGroups ops s := by
  induction es generalizing s with
  | nil => exact ⟨[], rfl, (Script.forEach_nil_ok.mp h).symm⟩
  | cons e es ih =>
    obtain ⟨u, he, hrest⟩ := Script.forEach_cons_ok.mp h
    obtain ⟨ops, hops, rfl⟩ := hbody e s u he
    obtain ⟨ops', hops', rfl⟩ := ih hrest
    exact ⟨ops ++ ops', by rw [List.map_append, hops, hops', List.flatMap_cons],
      (putGroups_append ops ops' s).symm⟩

theorem forEach_addOneGroup {names : List Text}
    (h : Script.forEach names (fun g => x.addOneGroup g (-1)) s = .ok t) :
    ∃ ops : List (Text × ℤ), ops.map Prod.fst = names ∧ t = x.putGroups ops s := by
  induction names generalizing s with
  | nil => exact ⟨[], rfl, (Script.forEach_nil_ok.mp h).symm⟩
  | cons g names ih =>
    obtain ⟨u, hg, hrest⟩ := Script.forEach_cons_ok.mp h
    obtain ⟨n, rfl⟩ := addOneGroup_ok hg
    obtain ⟨ops, hops, rfl⟩ := ih hrest
    exact ⟨(g, n) :: ops, by rw [List.map_cons, hops], rfl⟩

theorem forEach_addUserToGroup (username : Text) (groups : List Text) (s : Target) :
    Script.forEach groups (x.addUserToGroup username ·) s = .ok (x.join (groups.map (username, ·)) s) := by
  induction groups generalizing s with
  | nil => rw [List.map_nil, join_nil, Script.forEach_nil_ok.mpr rfl]
  | cons g groups ih =>
    refine Script.forEach_cons_ok.mpr ⟨_, rfl, ?_⟩
    rw [ih, List.map_cons, ← List.singleton_append, join_append]
    rfl

theorem add_ok (h : x.add env e s = .ok t) :
    ∃ uid gid home passwd, e.Found env s uid gid home passwd ∧ t = x.putUser env e uid gid home passwd s := by
  have hjoin : ∀ u : Target, (if e.groups ≠ "-".toList then
      Script.forEach (groupList e.groups) (x.addUserToGroup e.username ·) else Script.skip) u =
      .ok (x.join e.memberships u) := by
    intro u
    unfold Entry.memberships Entry.additional
    by_cases hg : e.groups = "-".toList
    · rw [if_neg (not_not_intro hg), if_pos hg, List.map_nil, join_nil]
      rfl
    · rw [if_pos hg, if_neg hg, forEach_addUserToGroup]
  unfold add addOneUser at h
  simp only [Script.capture_ok, Script.andThen_ok, Script.update_ok, hjoin, Exit.ok.injEq,
    exists_eq_left', chown_ok] at h
  obtain ⟨_, hvalid, uid, huid, gids, hgids, home, hhome, passwd, hpasswd, _, hlen, hmkdir, rfl⟩ := h
  have hgids : gids = getGid s e.group := (Except.ok.inj hgids).symm
  have hlen : gids.length ≤ 1 := by
    by_contra hl
    rw [if_neg hl] at hlen
    exact absurd hlen (by simp)
  exact ⟨uid, gids.headD 0, home, passwd, ⟨checkUserValidity_ok.mp hvalid, huid,
    hgids ▸ gid_ok.mpr ⟨hlen, rfl⟩, hhome, hpasswd, hmkdir⟩, rfl⟩

/-- The loops over the users. -/
theorem forEach_users (h : Script.forEach es (x.add env) s = .ok t) :
    t.group = s.group.map (x.edits (memberships es)) ∧
      t.gshadow = s.gshadow.map (·.map (x.edits (memberships es))) ∧
      ∃ ops sops, t.passwd = puts x.has ops s.passwd ∧ t.shadow = puts x.has sops s.shadow ∧
        ops.map Prod.fst = es.map (·.username) ∧ sops.map Prod.fst = es.map (·.username) ∧
        ∀ op ∈ ops ++ sops, hasName op.1 op.2 = true := by
  induction es generalizing s with
  | nil =>
    obtain rfl := Script.forEach_nil_ok.mp h
    have hid : x.edits (memberships []) = id := rfl
    exact ⟨by rw [hid, List.map_id], by simp [hid], [], [], rfl, rfl, rfl, rfl, by simp⟩
  | cons e es ih =>
    obtain ⟨u, hadd, hrest⟩ := Script.forEach_cons_ok.mp h
    obtain ⟨uid, gid, home, passwd, -, rfl⟩ := add_ok hadd
    obtain ⟨hg, hgs, ops, sops, hp, hs, hops, hsops, hnames⟩ := ih hrest
    have hedits : x.edits (memberships (e :: es)) = x.edits (memberships es) ∘ x.edits e.memberships := by
      funext line
      rw [memberships, List.flatMap_cons, ← memberships, edits, List.foldl_append, Function.comp, edits, edits]
    have hgs' : t.gshadow =
        (s.gshadow.map (·.map (x.edits e.memberships))).map (·.map (x.edits (memberships es))) := hgs
    refine ⟨?_, ?_, (e.username, e.line uid gid home) :: ops,
      (e.username, shadowLine e.username passwd) :: sops, hp, hs, by rw [List.map_cons, hops, List.map_cons],
      by rw [List.map_cons, hsops, List.map_cons], ?_⟩
    · rw [hg, hedits, ← List.map_map]
      rfl
    · rw [hgs', hedits, Option.map_map]
      congr 1
      funext lines
      simp
    · intro op hop
      simp only [List.cons_append, List.mem_cons, List.mem_append] at hop hnames
      rcases hop with rfl | hop | rfl | hop
      · exact hasName_passwdLine _ _ _ _ _ _
      · exact hnames op (.inl hop)
      · exact hasName_shadowLine _ _
      · exact hnames op (.inr hop)

theorem main_ok (h : x.main env es s = .ok t) :
    ∃ ops : List (Text × ℤ), ops.map Prod.fst = touched es ∧
      Script.forEach (users es) (x.add env) (x.putGroups ops s) = .ok t := by
  have hone : ∀ (e : Entry) u v, x.addOneGroup e.group (e.gid.getD 0) u = .ok v →
      ∃ ops : List (Text × ℤ), ops.map Prod.fst = [e.group] ∧ v = x.putGroups ops u := by
    intro e u v hadd
    obtain ⟨n, rfl⟩ := addOneGroup_ok hadd
    exact ⟨_, rfl, rfl⟩
  have hmore : ∀ (e : Entry) u v,
      (if e.groups ≠ "-".toList then Script.forEach (groupList e.groups) fun g => x.addOneGroup g (-1)
        else Script.skip) u = .ok v →
        ∃ ops : List (Text × ℤ), ops.map Prod.fst = e.additional ∧ v = x.putGroups ops u := by
    intro e u v hadd
    unfold Entry.additional
    by_cases hg : e.groups = "-".toList
    · rw [if_neg (not_not_intro hg)] at hadd
      exact ⟨[], by rw [if_pos hg]; rfl, (Script.skip_ok.mp hadd).symm⟩
    · rw [if_pos hg] at hadd
      rw [if_neg hg]
      exact forEach_addOneGroup hadd
  unfold main at h
  simp only [Script.andThen_ok, Script.forEach_continue] at h
  obtain ⟨s₀, hmin, s₁, h₁, s₂, h₂, s₃, h₃, s₄, h₄, h₅⟩ := h
  obtain rfl : s = s₀ := Script.skip_ok.mp hmin
  obtain ⟨ops₁, hops₁, rfl⟩ := forEach_groups _ hone h₁
  obtain ⟨ops₂, hops₂, rfl⟩ := forEach_groups _ hone h₂
  obtain ⟨ops₃, hops₃, rfl⟩ := forEach_groups _ hmore h₃
  refine ⟨ops₁ ++ (ops₂ ++ ops₃), ?_, ?_⟩
  · rw [List.map_append, List.map_append, hops₁, hops₂, hops₃, ← List.map_eq_flatMap, ← List.map_eq_flatMap,
      touched, explicitGroups, List.map_map, autoGroups]
    rfl
  · rw [putGroups_append, putGroups_append]
    exact Script.forEach_append_ok.mpr ⟨s₄, h₄, h₅⟩

/-- The group files at the end of a run: writes for the groups, and then the edits. -/
theorem main_groups (h : x.main env es s = .ok t) :
    ∃ ops : List (Text × ℤ), ops.map Prod.fst = touched es ∧
      t.group = (puts x.has (groupOps ops) s.group).map (x.edits (memberships (users es))) ∧
      t.gshadow = s.gshadow.map fun lines =>
        (puts x.has (gshadowOps ops) lines).map (x.edits (memberships (users es))) := by
  obtain ⟨ops, hops, husers⟩ := main_ok h
  obtain ⟨hg, hgs, -⟩ := forEach_users husers
  rw [putGroups_eq] at hg hgs
  refine ⟨ops, hops, hg, ?_⟩
  rw [hgs, Option.map_map]
  rfl

/-- The files of the users at the end of a run. -/
theorem main_users (h : x.main env es s = .ok t) :
    ∃ ops sops, t.passwd = puts x.has ops s.passwd ∧ t.shadow = puts x.has sops s.shadow ∧
      ops.map Prod.fst = (users es).map (·.username) ∧ sops.map Prod.fst = (users es).map (·.username) ∧
      ∀ op ∈ ops ++ sops, hasName op.1 op.2 = true := by
  obtain ⟨gops, -, husers⟩ := main_ok h
  obtain ⟨-, -, ops, sops, hp, hs, hrest⟩ := forEach_users husers
  rw [putGroups_eq] at hp hs
  exact ⟨ops, sops, hp, hs, hrest⟩

end Run

end Spliced

end CargosBuildroot.Accounts
