import CargosBuildroot.Accounts.Atomic
import Mathlib.Order.Bounds.Basic

/-! The automatic ids. `generate_gid` and `generate_uid` return the id that a name has, as awk
prints it, or the least one in the range that is free at that moment; a run that finds none free
ends there, and what it appends has an id that was asked for, was there before or is in the
range. -/

namespace CargosBuildroot.Accounts

open Shell Store Spliced

variable {x : Spliced} {env : Env} {es : List Entry} {s t u : Target} {file : List Text}
  {name : Text} {n min max : ℤ}

/-! ### The search -/

/-- The lines are well-formed and the names pairwise distinct. -/
structure WellNamed (s : Target) : Prop where
  passwd : ∀ line ∈ s.passwd, IsRecord line
  group : ∀ line ∈ s.group, IsGroupRecord line
  usernames : (s.passwd.map (field 1)).Nodup
  groups : (s.group.map (field 1)).Nodup

/-- The ids of the range that no entry of the file uses. -/
def free (min max : ℤ) (file : List Text) : Set ℤ :=
  {n | min ≤ n ∧ n ≤ max ∧ ∀ name, (name, n) ∉ records file}

/-- The name is not in the file, and neither is a free id. -/
structure Full (min max : ℤ) (file : List Text) (name : Text) : Prop where
  absent : ∀ n, (name, n) ∉ records file
  used : free min max file = ∅

/-- The id that a name has, as a double, and else the least free one. -/
structure Generates (min max : ℤ) (file : List Text) (name : Text) (full : Failure)
    (result : Except Failure ℤ) : Prop where
  existing : ∀ n, (name, n) ∈ records file → result = .ok (rounded n)
  least : (∀ n, (name, n) ∉ records file) →
    ∀ n, result = .ok n ↔ IsLeast (free min max file) n
  full : Full min max file name → result = .error full

/-- No other number is read as a small one. -/
theorem captured_namesOf_eq_nil (hfile : ∀ line ∈ file, IsRecord line) (hn : n.natAbs < 2 ^ 53) :
    captured (namesOf n file) = [] ↔ ∀ name, (name, n) ∉ records file := by
  have hexact : Exact n := exact_of_le hn.le
  constructor
  · intro hnil name hname
    have hname := mem_accounts_of_records hname
    have hcap := captured_names hfile hexact.fits (by rw [hnil]; simp) hname
    exact (accounts_ne_nil hfile hname).1 (hcap.trans hnil)
  · intro hnone
    have hnil : namesOf n file = [] := by
      refine List.eq_nil_iff_forall_not_mem.mpr fun name h => ?_
      have hmem := (mem_namesOf hfile hexact.fits).mp h
      rw [hexact.eq] at hmem
      obtain ⟨m, hm, heq⟩ := exists_records hmem
      exact hnone name (eq_of_rounded heq hn ▸ hm)
    rw [hnil]
    rfl

/-- The loop over the range. -/
theorem search_eq_some {names : ℤ → List Text} {i : ℕ} :
    (List.range' 0 (max + 1 - min).toNat).find?
        (fun (i : ℕ) => captured (names (min + i)) = []) = some i ↔
      IsLeast {n | min ≤ n ∧ n ≤ max ∧ captured (names n) = []} (min + i) := by
  rw [List.find?_range'_eq_some, List.mem_range'_1, decide_eq_true_iff]
  constructor
  · rintro ⟨hcap, hi, hbefore⟩
    refine ⟨⟨by omega, by omega, hcap⟩, ?_⟩
    rintro m ⟨hmin, -, hm⟩
    by_contra hlt
    have hnot := hbefore (m - min).toNat (by omega) (by omega)
    have hm' : min + ((m - min).toNat : ℤ) = m := by omega
    rw [hm', decide_eq_true hm] at hnot
    cases hnot
  · rintro ⟨⟨hmin, hmax, hcap⟩, hleast⟩
    refine ⟨hcap, by omega, fun j _ hj => ?_⟩
    have hnot : ¬ captured (names (min + j)) = [] := fun hcap' => by
      have := hleast ⟨by omega, by omega, hcap'⟩
      omega
    simp [hnot]

theorem generateId_nil {names : ℤ → List Text} {full : Failure} :
    generateId [] names min max full =
      match (List.range' 0 (max + 1 - min).toNat).find?
        fun (i : ℕ) => captured (names (min + i)) = [] with
      | some i => .ok (min + i)
      | none => .error full := rfl

theorem generateId_nil_ok {names : ℤ → List Text} {full : Failure} :
    generateId [] names min max full = .ok n ↔
      IsLeast {n | min ≤ n ∧ n ≤ max ∧ captured (names n) = []} n := by
  rw [generateId_nil]
  constructor
  · intro h
    split at h
    · rename_i i hi
      obtain rfl := Except.ok.inj h
      exact search_eq_some.mp hi
    · cases h
  · intro h
    have hn : min + ((n - min).toNat : ℤ) = n := by
      have := h.1.1
      omega
    rw [search_eq_some.mpr (hn ▸ h)]
    simp only [hn]

theorem generateId_nil_error {names : ℤ → List Text} {full : Failure}
    (h : ∀ n, generateId [] names min max full ≠ .ok n) :
    generateId [] names min max full = .error full := by
  rw [generateId_nil] at h ⊢
  split
  · rename_i i hi
    rw [hi] at h
    exact absurd rfl (h _)
  · rfl

theorem filter_atName_nil {A : List (Text × ℤ)} (h : ∀ n, (name, n) ∉ A) :
    A.filter (atName name) = [] := by
  rw [List.filter_eq_nil_iff]
  rintro ⟨name', m⟩ hmem hname
  obtain rfl : name' = name := of_decide_eq_true hname
  exact h m hmem

theorem not_mem_accounts (h : ∀ n, (name, n) ∉ records file) (n : ℤ) : (name, n) ∉ accounts file := by
  intro hn
  obtain ⟨m, hm, -⟩ := exists_records hn
  exact h m hm

/-- The search over a file of well-formed lines with distinct names, in a range of small numbers. -/
theorem generates_generateId (hfile : ∀ line ∈ file, IsRecord line)
    (hnames : (file.map (field 1)).Nodup) (hsmall : ∀ n, min ≤ n → n ≤ max → n.natAbs < 2 ^ 53)
    {ids : List ℤ} (hids : ids = ((accounts file).filter (atName name)).map Prod.snd) (full : Failure) :
    Generates min max file name full
      (generateId ids (namesOf · file) min max full) := by
  have hfree : {n | min ≤ n ∧ n ≤ max ∧ captured (namesOf n file) = []} = free min max file := by
    ext n
    refine and_congr_right fun hmin => and_congr_right fun hmax => ?_
    exact captured_namesOf_eq_nil hfile (hsmall n hmin hmax)
  refine ⟨fun n hn => ?_, fun habsent n => ?_, fun h => ?_⟩
  · have hnodup : ((accounts file).map Prod.fst).Nodup := by rwa [accounts_fst]
    rw [hids, filter_atName hnodup (mem_accounts_of_records hn)]
    rfl
  · rw [hids, filter_atName_nil (not_mem_accounts habsent), List.map_nil, generateId_nil_ok, hfree]
  · rw [hids, filter_atName_nil (not_mem_accounts h.absent), List.map_nil]
    refine generateId_nil_error fun n hn => ?_
    rw [generateId_nil_ok, hfree, h.used] at hn
    exact hn.1

theorem WellNamed.generateGid (h : WellNamed u) (group : Text) :
    Generates minGid maxGid u.group group (fail "can not allocate a GID for group '%s'\n" [group])
      (generateGid group u) := by
  refine generates_generateId (fun line hl => (h.group line hl).isRecord) h.groups ?_ (getGid_eq u group) _
  rw [minGid, maxGid]
  omega

theorem WellNamed.generateUid (h : WellNamed u) (username : Text) :
    Generates minUid maxUid u.passwd username
      (fail "can not allocate a UID for user '%s'\n" [username]) (generateUid username u) := by
  refine generates_generateId h.passwd h.usernames ?_ (getUid_eq u username) _
  rw [minUid, maxUid]
  omega

/-! ### The run as calls -/

/-- The calls of `add_one_group` and `add_one_user`. -/
inductive Call
  | group (name : Text) (gid : ℤ)
  | user (e : Entry)

def Call.run (x : Spliced) (env : Env) : Call → Script Failure Target
  | .group name gid => x.addOneGroup name gid
  | .user e => x.add env e

def Call.ofGroup (e : Entry) : Call := .group e.group (e.gid.getD 0)

/-- The calls for a table, in their order. -/
def calls (es : List Entry) : List Call :=
  (es.filter (explicit ·.gid)).map Call.ofGroup ++ ((es.filter (automatic ·.gid)).map Call.ofGroup ++
    ((es.flatMap Entry.additional).map (Call.group · (-1)) ++
      ((es.filter fun e => e.real && explicit e.uid).map Call.user ++
        (es.filter fun e => e.real && automatic e.uid).map Call.user)))

/-- The groups come before the users. -/
theorem calls_eq (es : List Entry) :
    calls es = ((explicitGroups es).map (fun op => Call.group op.1 op.2) ++
      (autoGroups es).map (Call.group · (-1))) ++ (users es).map Call.user := by
  have hexplicit : (es.filter (explicit ·.gid)).map Call.ofGroup =
      (explicitGroups es).map fun op => Call.group op.1 op.2 := by
    rw [explicitGroups, List.map_map]
    rfl
  have hauto : (es.filter (automatic ·.gid)).map Call.ofGroup =
      ((es.filter (automatic ·.gid)).map (·.group)).map (Call.group · (-1)) := by
    rw [List.map_map]
    refine List.map_congr_left fun e he => ?_
    have hgid := automatic_iff.mp (List.mem_filter.mp he).2
    rw [Call.ofGroup, hgid]
    rfl
  rw [calls, hexplicit, hauto, autoGroups, users, List.map_append, List.map_append]
  simp only [List.append_assoc]

theorem forEach_groupList (e : Entry) (body : Text → Script Failure Target) :
    (if e.groups ≠ "-".toList then Script.forEach (groupList e.groups) body else Script.skip) =
      Script.forEach e.additional body := by
  by_cases h : e.groups = "-".toList
  · rw [if_neg (not_not_intro h), Entry.additional, if_pos h]
    rfl
  · rw [if_pos h, Entry.additional, if_neg h]

/-- A run makes the calls one after the other. -/
theorem main_eq_calls (x : Spliced) (env : Env) (es : List Entry) :
    x.main env es = Script.forEach (calls es) (Call.run x env) := by
  have hskip : ∀ m : Script Failure Target, (Script.capture (fun _ : Target =>
      if minUid ≤ 0 then .error (fail "MIN_UID must be >0 (currently %d)\n" [decimal minUid])
      else if minGid ≤ 0 then .error (fail "MIN_GID must be >0 (currently %d)\n" [decimal minGid])
      else .ok ()) fun _ => Script.skip).andThen m = m := fun m => rfl
  have hadditional : (Script.forEach es fun e => if e.groups ≠ "-".toList then
      Script.forEach (groupList e.groups) fun g => x.addOneGroup g (-1) else Script.skip) =
      Script.forEach (es.flatMap Entry.additional) fun g => x.addOneGroup g (-1) := by
    rw [← Script.forEach_flatMap]
    exact Script.forEach_congr fun e _ => forEach_groupList e _
  unfold Spliced.main
  rw [hskip, hadditional, calls, Script.forEach_append, Script.forEach_append,
    Script.forEach_append, Script.forEach_append]
  simp only [Script.forEach_continue, Script.forEach_map]
  rfl

/-- A call that fails ends the run where it stands. -/
theorem forEach_fail {α : Type*} {body : α → Script Failure Target} {before after : List α} {c : α}
    {err : Failure} (hbefore : Script.forEach before body s = .ok u) (hc : body c u = .fail err t) :
    Script.forEach (before ++ c :: after) body s = .fail err t := by
  have hrest : Script.forEach (c :: after) body u = .fail err t := by
    rw [Script.forEach, Script.andThen, hc]
  rw [Script.forEach_append, Script.andThen, hbefore]
  exact hrest

/-! ### What a call does -/

/-- The call asks for an automatic id, and there is none. -/
def Call.Exhausted (u : Target) : Call → Prop
  | .group name gid => gid = -1 ∧ Full minGid maxGid u.group name
  | .user e => e.uid.getD 0 = -1 ∧ Full minUid maxUid u.passwd e.username

/-- The id of an appended line, whose decimal is not empty: the one that was asked for, or that
the name had, or a newly generated one of the range. -/
def Assigned (min max : ℤ) (ids : List ℤ) (wanted n : ℤ) : Prop :=
  decimal n ≠ [] ∧
    (wanted ≠ -1 ∧ n = wanted ∨ wanted = -1 ∧ (ids = [n] ∨ ids = [] ∧ min ≤ n ∧ n ≤ max))

/-- What a call appends to the two files with ids, whichever way it ends: at most one line,
with an assigned id. -/
def Call.Appends (u t : Target) : Call → Prop
  | .group name gid => t.passwd = u.passwd ∧ (t.group = u.group ∨
      ∃ n kept, Assigned minGid maxGid (getGid u name) gid n ∧ kept.Sublist u.group ∧
        t.group = kept ++ [groupLine name n []])
  | .user e => (∃ edit, t.group = u.group.map edit) ∧ (t.passwd.Sublist u.passwd ∨
      ∃ n gid home shell kept, Assigned minUid maxUid (getUid u e.username) (e.uid.getD 0) n ∧
        kept.Sublist u.passwd ∧
        t.passwd = kept ++ [passwdLine e.username n gid e.comment home shell])

theorem exhausted_fails (hu : WellNamed u) {c : Call} (h : c.Exhausted u) :
    ∃ err, c.run x env u = .fail err u := by
  cases c with
  | group name gid =>
    obtain ⟨hauto, hfull⟩ := h
    have hgenerate : (if gid = -1 then Accounts.generateGid name u else .ok gid) =
        .error (fail "can not allocate a GID for group '%s'\n" [name]) := by
      rw [if_pos hauto, (hu.generateGid name).full hfull]
    refine ⟨fail "can not allocate a GID for group '%s'\n" [name], ?_⟩
    simp only [Call.run, Spliced.addOneGroup, Script.capture, hgenerate]
  | user e =>
    obtain ⟨hauto, hfull⟩ := h
    exact add_unfit x env (.inr ⟨hauto, _, (hu.generateUid e.username).full hfull⟩)

theorem assigned_of_ok {ids : List ℤ} {names : ℤ → List Text} {full : Failure} {wanted : ℤ}
    (h : (if wanted = -1 then generateId ids names min max full else .ok wanted) = .ok n) :
    Assigned min max ids wanted n := by
  refine ⟨decimal_ne_nil n, ?_⟩
  split_ifs at h with hauto
  · refine .inr ⟨hauto, ?_⟩
    rcases generateId_ok h with hids | ⟨hids, hmin, hmax, -⟩
    · exact .inl hids
    · exact .inr ⟨hids, hmin, hmax⟩
  · exact .inl ⟨hauto, (Except.ok.inj h).symm⟩

section States

variable {ε σ α : Type*} {I : σ → Prop} {query : σ → Except ε α} {k : α → Script ε σ} {v : σ}

theorem capture_state (herror : I v) (hok : ∀ a, query v = .ok a → I (k a v).state) :
    I (Script.capture query k v).state := by
  rw [Script.capture]
  cases h : query v with
  | error err => exact herror
  | ok a => exact hok a h

theorem update_andThen_state {f : σ → σ} {m : Script ε σ} (h : I (m (f v)).state) :
    I ((Script.update f).andThen m v).state := h

theorem keeps_capture (h : ∀ a, Script.Keeps I (k a)) : Script.Keeps I (.capture query k) :=
  fun v hv => capture_state hv fun a _ => h a v hv

end States

theorem appends_group (x : Spliced) (u : Target) (name : Text) (gid : ℤ) :
    (Call.group name gid).Appends u (x.addOneGroup name gid u).state := by
  refine capture_state (I := fun t => (Call.group name gid).Appends u t) ⟨rfl, .inl rfl⟩ ?_
  intro n hn
  exact ⟨rfl, .inr ⟨n, _, assigned_of_ok hn, List.filter_sublist, rfl⟩⟩

/-- The group file has been edited line by line, and the password file is `passwd`. -/
def Edited (u : Target) (passwd : List Text) (t : Target) : Prop :=
  (∃ edit, t.group = u.group.map edit) ∧ t.passwd = passwd

/-- The rest of `add_one_user`, from the line of the password on. -/
theorem keeps_rest (x : Spliced) (env : Env) (u : Target) (passwd : List Text)
    (username groups home line chown : Text) (gids : List ℤ) :
    Script.Keeps (Edited u passwd)
      (.capture (fun _ => if gids.length ≤ 1 then .ok () else .error Failure.status) fun _ =>
        (Script.update fun s => { s with shadow := s.shadow ++ [line] }).andThen <|
        (if groups ≠ "-".toList then
          Script.forEach (groupList groups) (x.addUserToGroup username ·)
        else .skip).andThen <|
        if home ≠ "-".toList then
          .capture (fun _ => if env.mkdir home then .ok () else .error .status) fun _ =>
          .update fun s => { s with script := s.script ++ [chown] }
        else .skip) := by
  have hjoin : ∀ g, Script.Keeps (Edited u passwd) (x.addUserToGroup username g) := by
    rintro g v ⟨⟨edit, hedit⟩, hpasswd⟩
    refine ⟨⟨x.member username g ∘ edit, ?_⟩, hpasswd⟩
    rw [← List.map_map, ← hedit]
    rfl
  refine keeps_capture fun _ => Script.Keeps.andThen (fun v hv => hv) (Script.Keeps.andThen ?_ ?_)
  · exact Script.keeps_ite (Script.keeps_forEach fun g _ => hjoin g) Script.keeps_skip
  · exact Script.keeps_ite (keeps_capture fun _ v hv => hv) Script.keeps_skip

theorem appends_user (x : Spliced) (env : Env) (u : Target) (e : Entry) :
    (Call.user e).Appends u (x.add env e u).state := by
  have hid : ∃ edit, u.group = u.group.map edit := ⟨id, (List.map_id _).symm⟩
  have hkept : (u.passwd.filter (!x.has e.username ·)).Sublist u.passwd := List.filter_sublist
  have hsame : (Call.user e).Appends u u := ⟨hid, .inl (List.Sublist.refl _)⟩
  have hremoved : (Call.user e).Appends u (x.removeUser e.username u) := ⟨hid, .inl hkept⟩
  refine capture_state (I := fun t => (Call.user e).Appends u t) hsame fun _ _ => ?_
  refine capture_state (I := fun t => (Call.user e).Appends u t) hsame fun n hn => ?_
  refine update_andThen_state (I := fun t => (Call.user e).Appends u t) ?_
  refine capture_state (I := fun t => (Call.user e).Appends u t) hremoved fun gids _ => ?_
  refine capture_state (I := fun t => (Call.user e).Appends u t) hremoved fun home _ => ?_
  refine capture_state (I := fun t => (Call.user e).Appends u t) hremoved fun passwd _ => ?_
  refine update_andThen_state (I := fun t => (Call.user e).Appends u t) ?_
  have hdone : ∀ t, Edited u (u.passwd.filter (!x.has e.username ·) ++
      [passwdLine e.username n (gids.headD 0) e.comment home
        (if e.shell = "-".toList then "/bin/false".toList else e.shell)]) t →
      (Call.user e).Appends u t := fun t ht =>
    ⟨ht.1, .inr ⟨n, gids.headD 0, home, _, _, assigned_of_ok hn, hkept, ht.2⟩⟩
  exact hdone _ (keeps_rest x env u _ e.username e.groups e.home _ _ gids _ ⟨hid, rfl⟩)

/-- What any call appends. -/
theorem appends_run (x : Spliced) (env : Env) (u : Target) (c : Call) :
    c.Appends u (c.run x env u).state := by
  cases c with
  | group name gid => exact appends_group x u name gid
  | user e => exact appends_user x env u e

/-- Automatic ids are the existing or the least free ones; in a run the first call that finds
none free ends it, and no call appends a line with another id. -/
theorem automatic_ids (x : Spliced) (env : Env) (es : List Entry) (s : Target) :
    (∀ u, WellNamed u → ∀ name,
      Generates minGid maxGid u.group name (fail "can not allocate a GID for group '%s'\n" [name])
        (generateGid name u) ∧
      Generates minUid maxUid u.passwd name
        (fail "can not allocate a UID for user '%s'\n" [name]) (generateUid name u)) ∧
    ∀ before c after u, calls es = before ++ c :: after →
      Script.forEach before (Call.run x env) s = .ok u →
      (WellNamed u → c.Exhausted u → ∃ err, x.main env es s = .fail err u) ∧
        c.Appends u (c.run x env u).state := by
  refine ⟨fun u hu name => ⟨hu.generateGid name, hu.generateUid name⟩, ?_⟩
  intro before c after u hcalls hbefore
  refine ⟨fun hu hfull => ?_, appends_run x env u c⟩
  obtain ⟨err, herr⟩ : ∃ err, (c.run x env u) = .fail err u := exhausted_fails hu hfull
  rw [main_eq_calls, hcalls]
  exact ⟨err, forEach_fail hbefore herr⟩

/-- The first gids of the range are taken. -/
def takenGroups (k : ℕ) : Target :=
  { rootOnly with group := (List.range k).map fun (i : ℕ) => groupLine ('g' :: decimal i) (1000 + i) [] }

theorem record_takenGroup (i : ℕ) :
    record (groupLine ('g' :: decimal i) (1000 + i) []) = ('g' :: decimal i, 1000 + (i : ℤ)) :=
  record_groupLine (by simp [decimal_no_colon]) _

theorem takenGroups_wellNamed {k : ℕ} (hk : k ≤ 1000) : WellNamed (takenGroups k) := by
  refine ⟨rootOnly_wellFormed.passwd, fun line hline => ?_, rootOnly_wellFormed.usernames, ?_⟩
  · obtain ⟨i, hi, rfl⟩ := List.mem_map.mp hline
    have hlt := List.mem_range.mp hi
    have hnl : '\n' ∉ decimal i := not_mem_decimal (by decide) (by decide)
    refine ⟨_, "x".toList, [], 1000 + i, groupLine_eq _ _ _, List.cons_ne_nil _ _, ?_, ?_, ?_, by decide,
      by simp, ?_⟩
    · simp [decimal_no_colon]
    · simp [hnl]
    · simp [decimal_no_comma]
    · rw [Fits]
      omega
  · rw [← records_fst, records, List.map_map, takenGroups, List.map_map]
    refine List.Nodup.map_on (fun i _ j _ h => ?_) List.nodup_range
    simp only [Function.comp_apply, record_takenGroup, List.cons.injEq, true_and] at h
    exact_mod_cast decimal_inj.mp h

theorem mem_takenGroups {k : ℕ} : (name, n) ∈ records (takenGroups k).group ↔
    ∃ i < k, name = 'g' :: decimal i ∧ n = 1000 + i := by
  simp only [takenGroups, records, List.map_map, List.mem_map, List.mem_range, Function.comp_apply,
    record_takenGroup, Prod.mk.injEq, eq_comm]

theorem takenGroups_full {k : ℕ} (hk : k = 1000) : Full minGid maxGid (takenGroups k).group "new".toList := by
  refine ⟨fun n hn => ?_, Set.eq_empty_iff_forall_notMem.mpr fun n hn => ?_⟩
  · obtain ⟨i, -, hname, -⟩ := mem_takenGroups.mp hn
    exact absurd (List.cons.inj hname).1 (by decide)
  · obtain ⟨hmin, hmax, hnone⟩ := hn
    rw [minGid] at hmin
    rw [maxGid] at hmax
    exact hnone _ (mem_takenGroups.mpr ⟨(n - 1000).toNat, by omega, rfl, by omega⟩)

/-- A table with a new group, for which no gid is free. -/
def newGroup : List Entry := [entry "-" (-1) "new" (-1) "-"]

theorem automatic_ids_full :
    generateGid "root".toList rootOnly = .ok 0 ∧
      generateUid "web".toList rootOnly = .ok 1000 ∧
      ∃ err, pattern.main plainEnv newGroup (takenGroups 1000) = .fail err (takenGroups 1000) := by
  have hroot : WellNamed rootOnly :=
    ⟨rootOnly_wellFormed.passwd, rootOnly_wellFormed.group, rootOnly_wellFormed.usernames,
      rootOnly_wellFormed.groups⟩
  have hids := (automatic_ids pattern plainEnv newGroup rootOnly).1 rootOnly hroot
  have hrun := fun k => (automatic_ids pattern plainEnv newGroup (takenGroups k)).2 []
    (.group "new".toList (-1)) [] (takenGroups k) rfl rfl
  have hzero : rounded 0 = 0 := exact_of_le (by decide)
  refine ⟨?_, ?_, (hrun 1000).1 (takenGroups_wellNamed le_rfl) ⟨rfl, takenGroups_full rfl⟩⟩
  · rw [(hids "root".toList).1.existing 0 (by decide), hzero]
  · have hrecords : records rootOnly.passwd = [("root".toList, 0)] := by decide
    refine ((hids "web".toList).2.least (fun n => ?_) 1000).mpr ⟨⟨by decide, by decide, fun name => ?_⟩, fun n hn => hn.1⟩
    · simp [hrecords]
    · simp [hrecords]

/-- A user with an uid that is no double. -/
def bigUid : Target := { rootOnly with passwd := ["web:x:9007199254740993:0::/:/bin/sh".toList] }

theorem bigUid_generated :
    WellNamed bigUid ∧ ("web".toList, 9007199254740993) ∈ records bigUid.passwd ∧
      generateUid "web".toList bigUid = .ok 9007199254740992 := by
  have hpasswd : IsRecord "web:x:9007199254740993:0::/:/bin/sh".toList :=
    ⟨"web".toList, "x".toList, "0::/:/bin/sh".toList, 9007199254740993, by decide +kernel, by decide,
      by decide, by decide, by decide, by decide⟩
  refine ⟨⟨?_, rootOnly_wellFormed.group, by decide, rootOnly_wellFormed.groups⟩, by decide +kernel,
    by decide +kernel⟩
  simpa [bigUid] using hpasswd

end CargosBuildroot.Accounts
