import CargosBuildroot.Bootstrap.UserFiles

/-! What is done for a user depends on the users before. The array of keys is filled
anew for each file, but the other variables keep their values until a line sets them
again, and the file of groups is gone for the next user of the same name. An empty line
in a record takes the records after it out of the section. -/

namespace CargosBuildroot.Bootstrap

open Shell Transition

variable {accepts : Accepts} {groupFile : Text → Option (List Text)} {s : State} {file : List Text} {user : Text}
  {v w : Key → Text} {records : List Record} {r : Record}

/-! ### Reading a file -/

/-- The variable that a line sets. -/
def keyOf (i : Text) : Option Key := if ':' ∈ i then keys.find? fun k => k.name <:+: i else none

def isSshKey (i : Text) : Bool := ':' ∉ i ∧ "- ssh-".toList <:+: i

/-- The value that the lines of a file give to a variable, if they set it. -/
def setting (file : List Text) (k : Key) : Option Text :=
  ((items file).filter fun i => keyOf i = some k).getLast?.map value

theorem assign_var (s : State) (i : Text) (k : Key) :
    (assign s i).var k = if keyOf i = some k then value i else s.var k := by
  unfold assign keyOf
  by_cases hcolon : ':' ∈ i
  · rw [if_pos hcolon, if_pos hcolon]
    cases keys.find? fun k => k.name <:+: i with
    | none => simp
    | some k' =>
      by_cases hk : k' = k
      · subst hk
        simp
      · simp [hk, Function.update_of_ne (Ne.symm hk)]
  · rw [if_neg hcolon, if_neg hcolon]
    split <;> simp

theorem assign_groupFile (s : State) (i : Text) : (assign s i).groupFile = s.groupFile := by
  unfold assign
  split
  · split <;> rfl
  · split <;> rfl

theorem assign_added (s : State) (i : Text) : (assign s i).added = s.added := by
  unfold assign
  split
  · split <;> rfl
  · split <;> rfl

theorem readFile_var (s : State) (file : List Text) (k : Key) :
    (readFile s file).var k = (setting file k).getD (s.var k) := by
  rw [readFile, setting]
  induction items file using List.reverseRecOn with
  | nil => rfl
  | append_singleton l i ih =>
    rw [List.foldl_append, List.foldl_cons, List.foldl_nil, assign_var, ih, List.filter_append]
    by_cases hi : keyOf i = some k
    · simp [hi]
    · simp [hi]

theorem readFile_groupFile (s : State) (file : List Text) : (readFile s file).groupFile = s.groupFile := by
  rw [readFile]
  induction items file using List.reverseRecOn with
  | nil => rfl
  | append_singleton l i ih =>
    rw [List.foldl_append, List.foldl_cons, List.foldl_nil, assign_groupFile, ih]

/-- What a line does to the array of keys. -/
theorem assign_keys (s : State) (i : Text) :
    (List.range (assign s i).cnt).map (assign s i).sshAuthorizedKeys =
      (List.range s.cnt).map s.sshAuthorizedKeys ++ if isSshKey i then [sshKey i] else [] := by
  unfold assign isSshKey
  by_cases hcolon : ':' ∈ i
  · rw [if_pos hcolon]
    split <;> simp [hcolon]
  · rw [if_neg hcolon]
    by_cases hssh : "- ssh-".toList <:+: i
    · have hold : ∀ n ∈ List.range s.cnt,
          Function.update s.sshAuthorizedKeys s.cnt (sshKey i) n = s.sshAuthorizedKeys n := by
        intro n hn
        exact Function.update_of_ne (List.mem_range.mp hn).ne _ _
      rw [if_pos hssh, if_pos (decide_eq_true ⟨hcolon, hssh⟩)]
      simp only [List.range_succ, List.map_append, List.map_congr_left hold, List.map_singleton,
        Function.update_self]
    · rw [if_neg hssh, if_neg fun h => hssh (of_decide_eq_true h).2, List.append_nil]

/-- The keys are those of the file, whatever the array held before. -/
theorem readFile_keys (s : State) (file : List Text) :
    (List.range (readFile s file).cnt).map (readFile s file).sshAuthorizedKeys =
      ((items file).filter isSshKey).map sshKey := by
  rw [readFile]
  induction items file using List.reverseRecOn with
  | nil => rfl
  | append_singleton l i ih =>
    rw [List.foldl_append, List.foldl_cons, List.foldl_nil, assign_keys, ih, List.filter_append,
      List.map_append]
    by_cases hi : isSshKey i = true
    · simp [hi]
    · simp [hi]

/-! ### The account of a file -/

/-- What is done for a file with the values of the variables. -/
def account (file : List Text) (added : Bool) (var : Key → Text) : Account where
  adduser := adduserArgs (userOf file) var
  access := if added then some
    { password := passwordOf (userOf file) (var .passwd)
      sudoers := sudoLines (userOf file) (var .sudo)
      authorizedKeys := (((items file).filter isSshKey).map sshKey).map echo }
    else none

/-- The values of the variables when the user is added. -/
def varsFor (file : List Text) (s : State) : Key → Text := (addGroups (userOf file) (readFile s file)).var

/-- The arguments of `adduser`. -/
def argsFor (file : List Text) (s : State) : List Text := adduserArgs (userOf file) (varsFor file s)

theorem varsFor_groups (file : List Text) (s : State) : varsFor file s .groups =
    joinGroups ((setting file .groups).getD (s.var .groups)) (s.groupFile (userOf file)) := by
  simp [varsFor, addGroups, readFile_var, readFile_groupFile]

theorem varsFor_of_ne (file : List Text) (s : State) {k : Key} (hk : k ≠ .groups) :
    varsFor file s k = (setting file k).getD (s.var k) := by
  simp [varsFor, addGroups, readFile_var, hk]

theorem readFile_added (s : State) (file : List Text) : (readFile s file).added = s.added := by
  rw [readFile]
  induction items file using List.reverseRecOn with
  | nil => rfl
  | append_singleton l i ih =>
    rw [List.foldl_append, List.foldl_cons, List.foldl_nil, assign_added, ih]

theorem ciUser_named (h : userOf file ≠ []) : (ciUser accepts s file).2 =
    some (account file (accepts s.added (argsFor file s)) (varsFor file s)) := by
  have hkeys : ∀ t : State, (List.range t.cnt).map (fun i => echo (t.sshAuthorizedKeys i)) =
      ((List.range t.cnt).map t.sshAuthorizedKeys).map echo := by simp
  have hadded : (addGroups (userOf file) (readFile s file)).added = s.added := readFile_added s file
  unfold ciUser account argsFor varsFor
  rw [if_neg h, ← readFile_keys s file]
  dsimp only
  rw [hadded]
  cases accepts s.added (adduserArgs (userOf file) (addGroups (userOf file) (readFile s file)).var)
  · rfl
  · simp only [if_true, hkeys]
    rfl

/-- The files of groups are only ever removed. -/
theorem ciUser_groupFile (s : State) (file : List Text) (u : Text) :
    (ciUser accepts s file).1.groupFile u = s.groupFile u ∨ (ciUser accepts s file).1.groupFile u = none := by
  have hgrant : ∀ t : State, (grantSudo t).groupFile = t.groupFile := by
    intro t
    unfold grantSudo
    split
    · rfl
    · dsimp only
      split <;> rfl
  have hadd : ∀ user, (addGroups user (readFile s file)).groupFile u = s.groupFile u ∨
      (addGroups user (readFile s file)).groupFile u = none := by
    intro user
    by_cases hu : u = user
    · subst hu
      simp [addGroups]
    · simp [addGroups, hu, readFile_groupFile]
  unfold ciUser
  by_cases huser : userOf file = []
  · rw [if_pos huser]
    exact .inl rfl
  · rw [if_neg huser]
    dsimp only
    split
    · simpa only [hgrant] using hadd _
    · exact hadd _

/-! ### Equal accounts -/

/-- The arguments cannot be taken for ones that start with the flag and its value. -/
def Unflagged (flag : String) (args : List Text) : Prop :=
  args ≠ [] ∧ ∀ x y l, args ≠ flag.toList :: x :: y :: l

theorem unflagged_user (flag : String) (user : Text) : Unflagged flag [user] := by simp [Unflagged]

theorem Unflagged.option {flag flag' : String} {args : List Text} (h : Unflagged flag args)
    (hne : flag'.toList ≠ flag.toList) (x : Text) : Unflagged flag (option flag' x ++ args) := by
  unfold Bootstrap.option
  split
  · exact h
  · refine ⟨List.cons_ne_nil _ _, fun y z l heq => hne ?_⟩
    exact (List.cons.inj heq).1

theorem option_append_inj {flag : String} {x y : Text} {a b : List Text} (ha : Unflagged flag a)
    (hb : Unflagged flag b) : option flag x ++ a = option flag y ++ b ↔ x = y ∧ a = b := by
  obtain ⟨a₀, a', rfl⟩ := List.exists_cons_of_ne_nil ha.1
  obtain ⟨b₀, b', rfl⟩ := List.exists_cons_of_ne_nil hb.1
  unfold option
  by_cases hx : x = [] <;> by_cases hy : y = []
  · simp [hx, hy]
  · rw [if_pos hx, if_neg hy]
    have hno : [] ++ a₀ :: a' ≠ [flag.toList, y] ++ b₀ :: b' := ha.2 y b₀ b'
    exact iff_of_false hno fun h => hy (h.1 ▸ hx)
  · rw [if_neg hx, if_pos hy]
    have hno : [] ++ b₀ :: b' ≠ [flag.toList, x] ++ a₀ :: a' := hb.2 x a₀ a'
    exact iff_of_false (Ne.symm hno) fun h => hx (h.1 ▸ hy)
  · simp [hx, hy]

/-- The arguments of `adduser` show the variables they are made of. -/
theorem adduserArgs_inj : adduserArgs user v = adduserArgs user w ↔
    v .groups = w .groups ∧ v .home = w .home ∧ v .shell = w .shell ∧ v .gecos = w .gecos := by
  have hg : ∀ v : Key → Text, Unflagged "-s" (option "-g" (v .gecos) ++ [user]) := fun v =>
    (unflagged_user _ user).option (by decide) _
  have hs : ∀ v : Key → Text,
      Unflagged "-h" (option "-s" (v .shell) ++ (option "-g" (v .gecos) ++ [user])) := fun v =>
    ((unflagged_user _ user).option (by decide) _).option (by decide) _
  have hh : ∀ v : Key → Text, Unflagged "-G" (option "-h" (v .home) ++
      (option "-s" (v .shell) ++ (option "-g" (v .gecos) ++ [user]))) := fun v =>
    (((unflagged_user _ user).option (by decide) _).option (by decide) _).option (by decide) _
  rw [adduserArgs, adduserArgs, List.cons.injEq, option_append_inj (hh v) (hh w),
    option_append_inj (hs v) (hs w), option_append_inj (hg v) (hg w),
    option_append_inj (unflagged_user _ user) (unflagged_user _ user)]
  simp

/-- A password is seen where none was set. -/
theorem passwordOf_inj {p q : Text} (h : q = p ∨ q = []) :
    passwordOf user p = passwordOf user q ↔ p = q := by
  unfold passwordOf
  rcases h with rfl | rfl
  · simp
  · by_cases hp : p = [] <;> simp [hp]

theorem sudoLines_eq_nil {t : Text} : sudoLines user t = [] ↔ t = [] := by
  unfold sudoLines
  by_cases ht : t = []
  · simp [ht]
  · rw [if_neg ht]
    split
    · rename_i hlist
      obtain ⟨l, rfl⟩ := hlist
      have hne : readArray ',' ("[".toList ++ l) ≠ [] := readArray_ne_nil (by decide) (by decide) l
      simpa using hne
    · simp [ht]

/-- A rule is seen where none was set. -/
theorem sudoLines_inj {p q : Text} (h : q = p ∨ q = []) :
    sudoLines user p = sudoLines user q ↔ p = q := by
  rcases h with rfl | rfl
  · simp
  · rw [sudoLines_eq_nil.mpr rfl, sudoLines_eq_nil]

theorem account_eq_iff {b c : Bool} (hp : w .passwd = v .passwd ∨ w .passwd = [])
    (hs : w .sudo = v .sudo ∨ w .sudo = []) :
    account file b v = account file c w ↔
      (v .groups = w .groups ∧ v .home = w .home ∧ v .shell = w .shell ∧ v .gecos = w .gecos) ∧
        b = c ∧ (c = true → v .passwd = w .passwd ∧ v .sudo = w .sudo) := by
  rw [account, account, Account.mk.injEq, adduserArgs_inj]
  refine and_congr_right fun _ => ?_
  cases b <;> cases c
  · simp
  · simp
  · simp
  · simp [passwordOf_inj hp, sudoLines_inj hs]

theorem joinGroups_inj {x y : Text} (file : Option (List Text)) :
    joinGroups x file = joinGroups y file ↔ x = y := by
  cases file with
  | none => rfl
  | some l =>
    rw [joinGroups, joinGroups, List.append_cancel_right_eq]
    by_cases hx : x = [] <;> by_cases hy : y = []
    · simp [hx, hy]
    · simp [hx, hy, Ne.symm hy]
    · simp [hx, hy]
    · simp [hx, hy]

/-! ### What is left of the files before -/

/-- Before the first file, with the one file of groups. -/
def fresh (groups : Option (List Text)) : State where groupFile _ := groups

/-- The arguments of `adduser` for a file on its own. -/
def ownArgs (groupFile : Text → Option (List Text)) (file : List Text) : List Text :=
  argsFor file (fresh (groupFile (userOf file)))

/-- The variables that are used for a file, apart from the groups. -/
def used (accepts : Accepts) (groupFile : Text → Option (List Text)) (file : List Text) : List Key :=
  [.home, .shell, .gecos] ++ if accepts [] (ownArgs groupFile file) then [.passwd, .sudo] else []

/-- In the state `s` before the file, nothing that matters to it is left of others: what
it does not set itself is empty, and the file of groups of its user is there; if that is
gone, the groups are by chance those of the file. The users added before do not change
what `adduser` says of its own arguments. -/
structure Untouched (accepts : Accepts) (groupFile : Text → Option (List Text)) (s : State) (file : List Text) :
    Prop where
  var : ∀ k ∈ used accepts groupFile file, setting file k = none → s.var k = []
  groups : s.groupFile (userOf file) = groupFile (userOf file) →
    setting file .groups = none → s.var .groups = []
  removed : s.groupFile (userOf file) ≠ groupFile (userOf file) →
    (setting file .groups).getD [] = [] ∧
      (setting file .groups).getD (s.var .groups) = [','].intercalate ((groupFile (userOf file)).getD [])
  added : accepts s.added (ownArgs groupFile file) = accepts [] (ownArgs groupFile file)

theorem getD_eq_iff (x : Option Text) (t : Text) : x.getD t = x.getD [] ↔ (x = none → t = []) := by
  cases x <;> simp

theorem joinGroups_eq_iff {own : Option Text} {t : Text} {file file₀ : Option (List Text)}
    (h : file = file₀ ∨ file = none) :
    joinGroups (own.getD t) file = joinGroups (own.getD []) file₀ ↔
      (file = file₀ → own = none → t = []) ∧
      (file ≠ file₀ → own.getD [] = [] ∧ own.getD t = [','].intercalate (file₀.getD [])) := by
  by_cases hsame : file = file₀
  · subst hsame
    simp [joinGroups_inj, getD_eq_iff]
  · obtain rfl := h.resolve_left hsame
    obtain ⟨l, rfl⟩ := Option.ne_none_iff_exists'.mp (Ne.symm hsame)
    simp only [hsame, false_implies, true_and, ne_eq, not_false_eq_true, true_implies, joinGroups,
      Option.getD_some]
    by_cases hown : own.getD [] = []
    · simp [hown]
    · obtain ⟨g, rfl⟩ : ∃ g, own = some g := by
        cases own with
        | none => simp at hown
        | some g => exact ⟨g, rfl⟩
      rw [Option.getD_some] at hown ⊢
      simp [hown]

theorem ciUser_fresh_iff (huser : userOf file ≠ [])
    (hfile : s.groupFile (userOf file) = groupFile (userOf file) ∨ s.groupFile (userOf file) = none) :
    (ciUser accepts s file).2 = (ciUser accepts (fresh (groupFile (userOf file))) file).2 ↔
      Untouched accepts groupFile s file := by
  have hfirst : ∀ k, k ≠ .groups →
      varsFor file (fresh (groupFile (userOf file))) k = (setting file k).getD [] := fun k hk =>
    varsFor_of_ne file _ hk
  have hset : ∀ k, k ≠ .groups → (varsFor file s k = varsFor file (fresh (groupFile (userOf file))) k ↔
      (setting file k = none → s.var k = [])) := fun k hk => by
    rw [hfirst k hk, varsFor_of_ne file s hk, getD_eq_iff]
  have hold : ∀ k, k ≠ .groups → varsFor file (fresh (groupFile (userOf file))) k = varsFor file s k ∨
      varsFor file (fresh (groupFile (userOf file))) k = [] := fun k hk => by
    rw [hfirst k hk, varsFor_of_ne file s hk]
    cases setting file k <;> simp
  rw [ciUser_named huser, ciUser_named huser, Option.some.injEq,
    account_eq_iff (hold .passwd (by decide)) (hold .sudo (by decide))]
  -- equal variables make equal arguments
  have hargs : (varsFor file s .groups = varsFor file (fresh (groupFile (userOf file))) .groups ∧
      varsFor file s .home = varsFor file (fresh (groupFile (userOf file))) .home ∧
      varsFor file s .shell = varsFor file (fresh (groupFile (userOf file))) .shell ∧
      varsFor file s .gecos = varsFor file (fresh (groupFile (userOf file))) .gecos) →
      argsFor file s = ownArgs groupFile file := fun h => adduserArgs_inj.mpr h
  rw [and_congr_right fun h => by rw [hargs h]]
  rw [hset .home (by decide), hset .shell (by decide), hset .gecos (by decide), hset .passwd (by decide),
    hset .sudo (by decide), varsFor_groups, varsFor_groups]
  change (joinGroups _ _ = joinGroups ((setting file .groups).getD []) (groupFile (userOf file)) ∧ _) ∧
    accepts s.added _ = accepts [] (ownArgs groupFile file) ∧ (accepts [] (ownArgs groupFile file) = true → _) ↔ _
  rw [joinGroups_eq_iff hfile]
  constructor
  · rintro ⟨⟨⟨hgroups, hremoved⟩, hhome, hshell, hgecos⟩, hadded, haccess⟩
    refine ⟨fun k hk => ?_, hgroups, hremoved, hadded⟩
    rcases List.mem_append.mp hk with hk | hk
    · simp only [List.mem_cons, List.not_mem_nil, or_false] at hk
      rcases hk with rfl | rfl | rfl
      · exact hhome
      · exact hshell
      · exact hgecos
    · split at hk
      next hadd =>
        simp only [List.mem_cons, List.not_mem_nil, or_false] at hk
        rcases hk with rfl | rfl
        · exact (haccess hadd).1
        · exact (haccess hadd).2
      next => exact absurd hk List.not_mem_nil
  · rintro ⟨hvar, hgroups, hremoved, hadded⟩
    refine ⟨⟨⟨hgroups, hremoved⟩, hvar .home ?_, hvar .shell ?_, hvar .gecos ?_⟩, hadded, fun hadd =>
      ⟨hvar .passwd ?_, hvar .sudo ?_⟩⟩
    all_goals simp [used, *]

/-! ### The files of records -/

theorem Record.named_file (r : Record) : userOf r.file ≠ [] := r.named

theorem assign_blanks {t : Text} (h : ∀ c ∈ t, isBlank c = true) (s : State) : assign s t = s := by
  have hcolon : ':' ∉ t := fun hc => absurd (h _ hc) (by decide)
  have hssh : ¬ "- ssh-".toList <:+: t := fun hssh => absurd (h '-' (hssh.subset (by decide))) (by decide)
  rw [assign, if_neg hcolon, if_neg hssh]

/-- The indentation of the next record at the end of a file does nothing. -/
theorem ciUser_trail {t : Text} (ht : ∀ c ∈ t, isBlank c = true) (hfile : file ≠ []) (s : State) :
    ciUser accepts s (file ++ [t]) = ciUser accepts s file := by
  have huser : userOf (file ++ [t]) = userOf file := by
    obtain ⟨l, ls, rfl⟩ := List.exists_cons_of_ne_nil hfile
    rfl
  have hread : readFile s (file ++ [t]) = readFile s file := by
    rw [readFile, items, List.filter_append, List.foldl_append]
    by_cases hnil : t = []
    · simp [hnil, readFile, items]
    · simp [hnil, readFile, items, assign_blanks ht]
  rw [ciUser, huser, hread, ciUser]

theorem ciUser_blanks {t : Text} (ht : ∀ c ∈ t, isBlank c = true) (s : State) : ciUser accepts s [t] = (s, none) := by
  have huser : userOf [t] = [] := by
    refine List.filter_eq_nil_iff.mpr fun c hc => ?_
    have hblank := ht c hc
    rw [isBlank] at hblank
    simp [isSpaceClass, isSpace, hblank]
  rw [ciUser, huser, if_pos rfl]

/-- In an open section what is done for the files is what is done for the records. -/
theorem ciUsers_open (hopen : AllOpen records) (hne : records ≠ []) :
    ciUsers accepts groupFile (userSection records) =
      (none, 1) :: outputs (fileStep accepts Record.file) { groupFile } (inOrder records) := by
  obtain ⟨indent, hindent, hfiles⟩ := userFiles_open hopen hne
  have hlength : records.length ≤ (trails records).length := by
    rw [trails, List.length_append, List.length_map, List.length_tail, List.length_singleton]
    omega
  have htrails : ∀ t ∈ trails records, ∀ c ∈ t, isBlank c = true := by
    intro t ht
    rcases List.mem_append.mp ht with ht | ht
    · obtain ⟨r, -, rfl⟩ := List.mem_map.mp ht
      exact r.blanks
    · rw [List.mem_singleton.mp ht]
      exact nofun
  have hrecords : records.zipIdx 2 = ((records.zip (trails records)).zipIdx 2).map (Prod.map Prod.fst id) := by
    rw [← List.zipIdx_map, List.map_fst_zip hlength]
  have hmap : ((records.zip (trails records)).zipIdx 2).map (fun p => (p.1.1.file ++ [p.1.2], p.2)) =
      ((records.zip (trails records)).zipIdx 2).map (Prod.map (fun p => p.1.file ++ [p.2]) id) := rfl
  rw [ciUsers, hfiles, listed_first, outputs, inOrder, hrecords, hmap, listed_map, listed_map, outputs_map, outputs_map]
  · rw [fileStep, id_eq, ciUser_blanks hindent]
    refine congrArg _ (outputs_congr (fun p hp s => ?_) _)
    obtain ⟨-, htrail⟩ := List.of_mem_zip (List.fst_mem_of_mem_zipIdx ((listed_perm _).subset hp))
    change fileStep accepts id s (p.1.1.file ++ [p.1.2], p.2) = fileStep accepts Record.file s (p.1.1, p.2)
    have hstep : ciUser accepts s (p.1.1.file ++ [p.1.2]) = ciUser accepts s p.1.1.file :=
      ciUser_trail (htrails _ htrail) (List.cons_ne_nil _ _) s
    rw [fileStep, id_eq, hstep]
    rfl
  · intro f hf
    obtain ⟨p, hp, rfl⟩ := List.mem_map.mp hf
    have := List.le_snd_of_mem_zipIdx hp
    omega

/-! ### Isolation -/

variable (accepts groupFile) in
/-- What is done for each record in the section is what is done for it in a section of its
own, with the file of groups of its user. -/
def Isolated (records : List Record) : Prop :=
  ∀ before r rest, records = before ++ r :: rest → ∃ a,
    (a, before.length + 2) ∈ ciUsers accepts groupFile (userSection records) ∧
      (a, 2) ∈ ciUsers accepts (fun u => if u = r.user then groupFile u else none) (userSection [r])

theorem allOpen_singleton (r : Record) : AllOpen [r] := by
  intro before r' rest h
  have hnil : before = [] := by
    rcases before with _ | ⟨q, before⟩
    · rfl
    · exact absurd (List.cons.inj h).2 (by simp)
  rw [hnil, ← userSwitch.after_iff]
  rfl

/-- A record on its own. -/
theorem mem_ciUsers_singleton (a : Option Account) :
    (a, 2) ∈ ciUsers accepts (fun u => if u = r.user then groupFile u else none) (userSection [r]) ↔
      a = (ciUser accepts (fresh (groupFile r.user)) r.file).2 := by
  have hsame : (ciUser accepts { groupFile := fun u => if u = r.user then groupFile u else none } r.file).2 =
      (ciUser accepts (fresh (groupFile r.user)) r.file).2 := by
    have hvars : varsFor r.file { groupFile := fun u => if u = r.user then groupFile u else none } =
        varsFor r.file (fresh (groupFile r.user)) := by
      funext k
      by_cases hk : k = .groups
      · subst hk
        rw [varsFor_groups, varsFor_groups]
        simp [fresh, Record.user]
      · rw [varsFor_of_ne _ _ hk, varsFor_of_ne _ _ hk]
        rfl
    rw [ciUser_named r.named_file, ciUser_named r.named_file, argsFor, argsFor, hvars]
    rfl
  have horder : inOrder [r] = [(r, 2)] := rfl
  rw [ciUsers_open (allOpen_singleton r) (List.cons_ne_nil _ _), horder, outputs, outputs, fileStep, hsame]
  simp

theorem mem_ciUsers_open (hopen : AllOpen records) {before rest : List (Record × ℕ)} {p : Record × ℕ}
    (hsplit : inOrder records = before ++ p :: rest) (a : Option Account) :
    (a, p.2) ∈ ciUsers accepts groupFile (userSection records) ↔
      a = (ciUser accepts (after (fileStep accepts Record.file) { groupFile } before) p.1.file).2 := by
  have hperm := listed_perm (records.zipIdx 2)
  have hmem : p ∈ records.zipIdx 2 := hperm.subset (by rw [← inOrder, hsplit]; simp)
  have hne : records ≠ [] := by
    rintro rfl
    exact absurd hmem List.not_mem_nil
  have hnumbers : ((inOrder records).map Prod.snd).Nodup := by
    rw [inOrder, (hperm.map _).nodup_iff, List.zipIdx_map_snd]
    exact List.nodup_range'
  have hle := List.le_snd_of_mem_zipIdx hmem
  rw [ciUsers_open hopen hne, List.mem_cons, or_iff_right (fun h => by have := (Prod.mk.inj h).2; omega),
    mem_outputs_iff]
  constructor
  · rintro ⟨b, q, c, hsplit', heq⟩
    obtain ⟨rfl, hnumber⟩ := Prod.mk.inj heq
    -- the number occurs once
    have hsame := congrArg (List.map Prod.snd) (hsplit.symm.trans hsplit')
    rw [hsplit', List.map_append, List.map_cons, ← hnumber] at hnumbers
    rw [List.map_append, List.map_cons, List.map_append, List.map_cons, ← hnumber] at hsame
    obtain ⟨hnotin, -⟩ := List.nodup_cons.mp (List.nodup_middle.mp hnumbers)
    rw [List.mem_append, not_or] at hnotin
    obtain ⟨hbefore, -, -⟩ := (List.append_cons_inj_of_notMem hnotin.1 hnotin.2).mp hsame.symm
    have hlength := congrArg List.length hbefore
    rw [List.length_map, List.length_map] at hlength
    obtain ⟨rfl, hcons⟩ := List.append_inj (hsplit.symm.trans hsplit') hlength.symm
    rw [(List.cons.inj hcons).1]
  · rintro rfl
    exact ⟨before, p, rest, hsplit, rfl⟩

/-- The records do not influence each other exactly when the section is open before each of
them and nothing that matters to one is left of those whose files come before. -/
theorem isolated_iff (accepts : Accepts) (groupFile : Text → Option (List Text)) (records : List Record) :
    Isolated accepts groupFile records ↔
      AllOpen records ∧ ∀ before p rest, inOrder records = before ++ p :: rest →
        Untouched accepts groupFile (after (fileStep accepts Record.file) { groupFile } before) p.1.file := by
  have hfiles : ∀ (l : List (Record × ℕ)) u,
      (after (fileStep accepts Record.file) { groupFile } l).groupFile u = groupFile u ∨
        (after (fileStep accepts Record.file) { groupFile } l).groupFile u = none := by
    intro l u
    refine after_inv (fun s : State => s.groupFile u = groupFile u ∨ s.groupFile u = none) (.inl rfl)
      (fun s p hs => ?_) l
    rcases @ciUser_groupFile accepts s p.1.file u with h | h
    · rwa [fileStep, h]
    · exact .inr h
  have hperm := listed_perm (records.zipIdx 2)
  constructor
  · intro h
    have hopen : AllOpen records := by
      rcases List.eq_nil_or_concat records with rfl | ⟨init, r, rfl⟩
      · exact fun before r rest h => absurd h.symm (by simp)
      · rw [List.concat_eq_append] at h ⊢
        obtain ⟨a, ha, -⟩ := h init r [] rfl
        obtain ⟨_, f, _, hsplit, heq⟩ := mem_outputs_iff.mp ha
        have hmem : f ∈ userFiles (userSection (init ++ [r])) :=
          (listed_perm _).subset (by rw [hsplit]; simp)
        have hnumber : (init ++ [r]).length + 1 = f.2 := by
          rw [List.length_append]
          exact (Prod.mk.inj heq).2
        exact @allOpen_of_file _ f.1 (hnumber ▸ hmem)
    refine ⟨hopen, fun before p rest hsplit => ?_⟩
    have hmem : p ∈ records.zipIdx 2 := hperm.subset (by rw [← inOrder, hsplit]; simp)
    obtain ⟨b, c, hrecords, hnumber⟩ : ∃ b c, records = b ++ p.1 :: c ∧ b.length + 2 = p.2 := by
      obtain ⟨hle, hget⟩ := List.mem_zipIdx_iff_le_and_getElem?_sub.mp hmem
      obtain ⟨hlt, hget⟩ := List.getElem?_eq_some_iff.mp hget
      refine ⟨records.take (p.2 - 2), records.drop (p.2 - 2 + 1), ?_, ?_⟩
      · rw [← hget, List.getElem_cons_drop, List.take_append_drop]
      · rw [List.length_take]
        omega
    obtain ⟨a, hin, halone⟩ := h b p.1 c hrecords
    rw [hnumber, mem_ciUsers_open hopen hsplit] at hin
    rw [mem_ciUsers_singleton] at halone
    exact (ciUser_fresh_iff p.1.named_file (hfiles before _)).mp (hin.symm.trans halone)
  · rintro ⟨hopen, h⟩ b r c hrecords
    have hmem : (r, b.length + 2) ∈ inOrder records := by
      refine hperm.mem_iff.mpr ?_
      rw [hrecords, List.zipIdx_append, List.zipIdx_cons]
      simp [Nat.add_comm]
    obtain ⟨before, rest, hsplit⟩ := List.append_of_mem hmem
    refine ⟨_, (mem_ciUsers_open hopen hsplit _).mpr rfl, (mem_ciUsers_singleton _).mpr ?_⟩
    exact (ciUser_fresh_iff r.named_file (hfiles before _)).mpr (h before _ rest hsplit)

/-- A user with a password, a group and a rule for `sudo`, and one with a name only. -/
def alice : Record where
  indent := "  ".toList
  name := " alice".toList
  rest := ["    passwd: $6$secret".toList, "    groups: wheel".toList, "    sudo: ALL=(ALL) NOPASSWD:ALL".toList]
  blanks := by decide
  no_newline := by decide
  named := by decide
  no_dash := by decide
  header_sets := by decide
  name_single := by decide
  rest_single := by decide

def bob : Record where
  indent := "  ".toList
  name := " bob".toList
  rest := []
  blanks := by decide
  no_newline := by decide
  named := by decide
  no_dash := by decide
  header_sets := by decide
  name_single := by decide
  rest_single := by decide

/-- `adduser` refuses a user that it has added. -/
def newUser : Accepts := fun added args => added.all fun a => a.getLast? ≠ args.getLast?

theorem bob_after_alice :
    ((some
      { adduser := ["-D".toList, "-G".toList, "wheel".toList, "bob".toList]
        access := some
          { password := .encrypted "bob:$6$secret".toList
            sudoers := [⟨false, "bob ALL=(ALL) NOPASSWD:ALL".toList⟩]
            authorizedKeys := [] } } : Option Account), 3) ∈
      ciUsers newUser (fun _ => none) (userSection [alice, bob]) ∧
    ((some
      { adduser := ["-D".toList, "bob".toList]
        access := some { password := .random "bob".toList, sudoers := [], authorizedKeys := [] } } :
          Option Account), 2) ∈
      ciUsers newUser (fun _ => none) (userSection [bob]) ∧
    ¬ Isolated newUser (fun _ => none) [alice, bob] := by
  refine ⟨by decide +kernel, by decide +kernel, fun h => ?_⟩
  obtain ⟨a, ha, hb⟩ := h [alice] bob [] rfl
  rw [(@mem_ciUsers_singleton newUser (fun _ => none) bob a).mp hb] at ha
  exact absurd ha (by decide +kernel)

end CargosBuildroot.Bootstrap
