import CargosBuildroot.Accounts.Explicit
import CargosBuildroot.Store.Numbered

/-! The password and group files as names with numbers, as awk prints them and as
they are written. On files of well-formed lines the look-ups of the script read the
first list, writing a line assigns a number in both, and the edits of the member
lists change neither. -/

namespace CargosBuildroot.Accounts

open Shell Store

/-- The names of a file with their ids, as the file has them. -/
def record (line : Text) : Text × ℤ := (field 1 line, leadingInt (field 3 line))

def records (file : List Text) : List (Text × ℤ) := file.map record

/-- The names of a file with their ids, as awk prints them. -/
def account (line : Text) : Text × ℤ := (field 1 line, awkInt (field 3 line))

def accounts (file : List Text) : List (Text × ℤ) := file.map account

/-- A line `name:password:id:...` with a name and a decimal id of 64 bits. -/
def IsRecord (line : Text) : Prop :=
  ∃ name passwd more, ∃ id : ℤ, line = quad name passwd (decimal id) more ∧ name ≠ [] ∧ ':' ∉ name ∧
    '\n' ∉ name ∧ ':' ∉ passwd ∧ Fits id

/-- A line `name:password:id:members` of a group file, without a comma in the name. -/
def IsGroupRecord (line : Text) : Prop :=
  ∃ name passwd members, ∃ id : ℤ, line = quad name passwd (decimal id) members ∧ name ≠ [] ∧
    ':' ∉ name ∧ '\n' ∉ name ∧ ',' ∉ name ∧ ':' ∉ passwd ∧ ':' ∉ members ∧ Fits id

variable {line name username : Text} {id : ℤ} {file : List Text} {s t : Target}

theorem IsGroupRecord.isRecord (h : IsGroupRecord line) : IsRecord line := by
  obtain ⟨name, passwd, members, id, rfl, hne, hcolon, hnl, -, hp, -, hfits⟩ := h
  exact ⟨name, passwd, members, id, rfl, hne, hcolon, hnl, hp, hfits⟩

theorem decimal_no_colon (n : ℤ) : ':' ∉ decimal n := not_mem_decimal (by decide) (by decide)

theorem decimal_no_comma (n : ℤ) : ',' ∉ decimal n := not_mem_decimal (by decide) (by decide)

theorem account_quad {a b d : Text} (ha : ':' ∉ a) (hb : ':' ∉ b) (n : ℤ) :
    field 1 (quad a b (decimal n) d) = a ∧ field 3 (quad a b (decimal n) d) = decimal n := by
  have hquad : quad a b (decimal n) d = a ++ ':' :: (b ++ ':' :: (decimal n ++ ':' :: d)) := by
    simp [quad]
  have hf : fields (quad a b (decimal n) d) = a :: b :: decimal n :: fields d := by
    rw [hquad, fields_cons ha, fields_cons hb, fields_cons (decimal_no_colon n)]
  simp [field, hf]

/-- What the look-ups see of a well-formed line. -/
theorem IsRecord.spec (h : IsRecord line) :
    ∃ name id, record line = (name, id) ∧ account line = (name, rounded id) ∧ name ≠ [] ∧ '\n' ∉ name ∧
      (∀ g, ':' ∉ g → hasName g line = decide (name = g)) ∧
      ∀ n, Fits n → awkEq (field 3 line) n = decide (rounded id = rounded n) := by
  obtain ⟨name, passwd, more, id, rfl, hne, hcolon, hnl, hp, hfits⟩ := h
  obtain ⟨h₁, h₃⟩ := account_quad (d := more) hcolon hp id
  refine ⟨name, id, ?_, ?_, hne, hnl, fun g hg => hasName_quad hcolon hg, fun n hn => ?_⟩
  · rw [record, h₁, h₃, leadingInt_decimal]
  · rw [account, h₁, h₃, awkInt_decimal]
  · rw [h₃, Bool.eq_iff_iff, awkEq_decimal hfits hn, decide_eq_true_eq]

/-- awk rounds the ids of the file. -/
theorem accounts_eq (file : List Text) : accounts file = (records file).map fun a => (a.1, rounded a.2) := by
  simp [accounts, records, account, record, awkInt, Function.comp_def]

theorem mem_accounts_of_records (h : (name, id) ∈ records file) : (name, rounded id) ∈ accounts file :=
  accounts_eq file ▸ List.mem_map_of_mem h

theorem exists_records (h : (name, id) ∈ accounts file) : ∃ n, (name, n) ∈ records file ∧ rounded n = id := by
  rw [accounts_eq] at h
  obtain ⟨⟨name', n⟩, hn, heq⟩ := List.mem_map.mp h
  obtain ⟨rfl, rfl⟩ := Prod.mk.inj heq
  exact ⟨n, hn, rfl⟩

/-- What awk prints is not rounded again. -/
theorem exact_of_accounts (h : (name, id) ∈ accounts file) : Exact id := by
  obtain ⟨n, -, rfl⟩ := exists_records h
  exact exact_rounded n

/-! ### Look-ups -/

theorem getGid_eq (s : Target) (group : Text) :
    getGid s group = ((accounts s.group).filter (atName group)).map Prod.snd := by
  rw [accounts, List.filter_map, List.map_map]
  rfl

theorem getUid_eq (s : Target) (username : Text) :
    getUid s username = ((accounts s.passwd).filter (atName username)).map Prod.snd := by
  rw [accounts, List.filter_map, List.map_map]
  rfl

theorem namesOf_eq (hfile : ∀ line ∈ file, IsRecord line) {n : ℤ} (hn : Fits n) :
    namesOf n file = ((accounts file).filter fun a => a.2 = rounded n).map Prod.fst := by
  have hkeep : ∀ line ∈ file, awkEq (field 3 line) n = decide ((account line).2 = rounded n) := by
    intro line hline
    obtain ⟨name, id, -, hacc, -, -, -, heq⟩ := (hfile line hline).spec
    rw [heq n hn, hacc]
  rw [namesOf, accounts, List.filter_map, List.map_map, List.filter_congr hkeep]
  rfl

theorem mem_namesOf (hfile : ∀ line ∈ file, IsRecord line) {n : ℤ} (hn : Fits n) :
    name ∈ namesOf n file ↔ (name, rounded n) ∈ accounts file := by
  simp [namesOf_eq hfile hn, and_comm]

theorem accounts_ne_nil (hfile : ∀ line ∈ file, IsRecord line) (h : (name, id) ∈ accounts file) :
    name ≠ [] ∧ '\n' ∉ name := by
  obtain ⟨line, hline, hacc⟩ := List.mem_map.mp h
  obtain ⟨name', id', -, hacc', hne, hnl, -⟩ := (hfile line hline).spec
  obtain ⟨rfl, -⟩ := Prod.mk.inj (hacc'.symm.trans hacc)
  exact ⟨hne, hnl⟩

/-- Only one name has the id when its output is empty or one name. -/
theorem captured_names (hfile : ∀ line ∈ file, IsRecord line) {n : ℤ} (hn : Fits n)
    (hnl : '\n' ∉ captured (namesOf n file)) (h : (name, rounded n) ∈ accounts file) :
    name = captured (namesOf n file) :=
  (captured_eq hnl ((mem_namesOf hfile hn).mpr h) (accounts_ne_nil hfile h).2).resolve_left
    (accounts_ne_nil hfile h).1

/-! ### Writes -/

theorem records_put (hfile : ∀ line ∈ file, IsRecord line) (hname : ':' ∉ name)
    (hline : record line = (name, id)) :
    records (put hasName name line file) = assign name id (records file) := by
  have hkeep : ∀ l ∈ file, (!hasName name l) = (!atName name (record l)) := by
    intro l hl
    obtain ⟨name', id', hrec, -, -, -, hhas, -⟩ := (hfile l hl).spec
    rw [hhas name hname, hrec, atName]
  simp only [records, assign, put, List.map_append, List.map_singleton, hline, List.filter_map,
    Function.comp_def]
  rw [List.filter_congr hkeep]

theorem accounts_put (hfile : ∀ line ∈ file, IsRecord line) (hname : ':' ∉ name)
    (hline : record line = (name, id)) :
    accounts (put hasName name line file) = assign name (rounded id) (accounts file) := by
  rw [accounts_eq, accounts_eq, records_put hfile hname hline, assign_map]

theorem mem_put_record {P : Text → Prop} (hfile : ∀ line ∈ file, P line) (hline : P line)
    (name : Text) : ∀ l ∈ put hasName name line file, P l := by
  intro l hl
  rcases mem_put.mp hl with ⟨hl, -⟩ | rfl
  · exact hfile l hl
  · exact hline

theorem groupLine_record (hg : PlainName name) {gid : ℤ} (hgid : Fits gid) :
    IsGroupRecord (groupLine name gid []) :=
  ⟨name, "x".toList, [], gid, groupLine_eq _ _ _, hg.ne_nil, hg.no_colon, hg.no_newline, hg.no_comma,
    by decide, by simp, hgid⟩

theorem record_groupLine (hg : ':' ∉ name) (gid : ℤ) : record (groupLine name gid []) = (name, gid) := by
  obtain ⟨h₁, h₃⟩ := account_quad (b := "x".toList) (d := []) hg (by decide) gid
  rw [record, groupLine_eq, h₁, h₃, leadingInt_decimal]

theorem passwdLine_eq (username : Text) (uid gid : ℤ) (comment home shell : Text) :
    passwdLine username uid gid comment home shell =
      quad username "x".toList (decimal uid) (decimal gid ++ ':' :: comment ++ ':' :: home ++ ':' :: shell) := by
  simp [passwdLine, quad]

theorem passwdLine_record (hu : PlainName username) {uid : ℤ} (huid : Fits uid) (gid : ℤ)
    (comment home shell : Text) : IsRecord (passwdLine username uid gid comment home shell) :=
  ⟨username, "x".toList, _, uid, passwdLine_eq _ _ _ _ _ _, hu.ne_nil, hu.no_colon, hu.no_newline,
    by decide, huid⟩

theorem record_passwdLine (hu : ':' ∉ username) (uid gid : ℤ) (comment home shell : Text) :
    record (passwdLine username uid gid comment home shell) = (username, uid) := by
  obtain ⟨h₁, h₃⟩ := account_quad (b := "x".toList)
    (d := decimal gid ++ ':' :: comment ++ ':' :: home ++ ':' :: shell) hu (by decide) uid
  rw [record, passwdLine_eq, h₁, h₃, leadingInt_decimal]

/-- The edits of the member lists keep names and ids. -/
theorem IsGroupRecord.memberLines (h : IsGroupRecord line) (hu : ':' ∉ username) {groups : List Text}
    (hgs : ∀ g ∈ groups, ':' ∉ g) :
    IsGroupRecord (memberLines username groups line) ∧
      record (Accounts.memberLines username groups line) = record line := by
  induction groups generalizing line with
  | nil => exact ⟨h, rfl⟩
  | cons g groups ih =>
    obtain ⟨hg, hgs⟩ := List.forall_mem_cons.mp hgs
    obtain ⟨name, passwd, members, id, rfl, hne, hcolon, hnl, hcomma, hp, hm, hfits⟩ := h
    obtain ⟨passwd', members', hp', hm', heq⟩ :=
      exists_memberLine_quad hcolon hp (decimal_no_colon id) hm hcomma (decimal_no_comma id) hg hu
    obtain ⟨hrec, hacc⟩ :=
      ih ⟨name, passwd', members', id, heq, hne, hcolon, hnl, hcomma, hp', hm', hfits⟩ hgs
    refine ⟨hrec, hacc.trans ?_⟩
    obtain ⟨h₁, h₃⟩ := account_quad (d := members) hcolon hp id
    obtain ⟨h₁', h₃'⟩ := account_quad (d := members') hcolon hp' id
    rw [heq, record, record, h₁, h₃, h₁', h₃']

theorem join_groups (hfile : ∀ line ∈ s.group, IsGroupRecord line) (hu : ':' ∉ username)
    {groups : List Text} (hgs : ∀ g ∈ groups, ':' ∉ g) :
    (∀ line ∈ (s.join username groups).group, IsGroupRecord line) ∧
      records (s.join username groups).group = records s.group := by
  constructor
  · intro line hline
    obtain ⟨l, hl, rfl⟩ := List.mem_map.mp hline
    exact ((hfile l hl).memberLines hu hgs).1
  · rw [records, records, Target.join, List.map_map]
    exact List.map_congr_left fun l hl => ((hfile l hl).memberLines hu hgs).2

end CargosBuildroot.Accounts
