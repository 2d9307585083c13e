import CargosBuildroot.Makedevs.Table

/-! Two runs of `makedevs` that meet the same entry line. `user` and `group` are not
cleared between the lines, so a line that does not fill them takes its owner from a line
before it, a comment included. -/

namespace CargosBuildroot.Makedevs

open Shell

/-- The file operations of an entry line, from the buffers that it finds. -/
def entryCalls (env : Env) {σ : Type} (k : System σ) (line : Text) (b : Buffers) (s : σ) : List Call :=
  match (readEntry env b line).1 with
  | .entry e => (perform k e s).1
  | _ => []

/-- The program is at `st` after the lines, with the buffers `b` at the start. -/
def Reached (env : Env) (b : Buffers) (lines : List Text) (st : State) : Prop :=
  ∃ (σ : Type) (k : System σ) (s : σ), (mainLoop env k lines ⟨b, none, false⟩ s).1 = some st

/-- After any two tables the line makes the same file operations, as long as the file
system answers the same. -/
def Independent (env : Env) (line : Text) : Prop :=
  ∀ b₀ b₁ lines₀ lines₁ st₀ st₁, Reached env b₀ lines₀ st₀ → Reached env b₁ lines₁ st₁ →
    ∀ (σ : Type) (k : System σ) (s : σ),
      (mainLine env k line st₀ s).2.1 = (mainLine env k line st₁ s).2.1

/-- `d`, `f`, `p`, `c` and `b` -/
def supported (type : Char) : Bool := type = 'd' || type = 'f' || (nodeType type).isSome

/-- The line makes no file operation, whatever its owner is: it is rejected or a comment,
its type is not supported, or its user is not known. -/
def Silent (env : Env) (line : Text) : Prop :=
  rejected (sscanf line) = true ∨ (∃ name ∈ (sscanf line).name, name.head? = some '#') ∨
    (∃ type ∈ (sscanf line).type, supported type = false) ∨
    ∃ user ∈ (sscanf line).user, ownerId user env.passwd env.getuid = none

theorem mainLine_calls {env : Env} {line : Text} (h : scanXattr line = none) {σ : Type} (k : System σ)
    (st : State) (s : σ) : (mainLine env k line st s).2.1 = entryCalls env k line st.buffers s := by
  rw [mainLine, h, entryCalls]
  dsimp only
  rcases readEntry env st.buffers line with ⟨_ | _ | _ | e, b⟩ <;> rfl

/-! ### Lines with their own owner -/

theorem assigned_of_accepted {s : Scanned} (h : rejected s ≠ true) : 2 ≤ s.assigned := by
  by_contra hlt
  have hlt : s.assigned < 2 := by omega
  exact h (by simp [rejected, hlt])

/-- The name and the type of an accepted line are its own. -/
theorem exists_name_type {line : Text} (h : rejected (sscanf line) ≠ true) :
    (∃ name, (sscanf line).name = some name) ∧ ∃ type, (sscanf line).type = some type := by
  have hassigned := assigned_of_accepted h
  have hname := (sscanf_inOrder line).name.mpr (by omega)
  have htype := (sscanf_inOrder line).type.mpr hassigned
  exact ⟨Option.isSome_iff_exists.mp hname, Option.isSome_iff_exists.mp htype⟩

theorem store_eq {line : Text} (h : 5 ≤ (sscanf line).assigned) (b b' : Buffers) :
    b.store (sscanf line) = b'.store (sscanf line) := by
  have horder := sscanf_inOrder line
  obtain ⟨name, hname⟩ := Option.isSome_iff_exists.mp (horder.name.mpr (by omega))
  obtain ⟨type, htype⟩ := Option.isSome_iff_exists.mp (horder.type.mpr (by omega))
  obtain ⟨user, huser⟩ := Option.isSome_iff_exists.mp (horder.user.mpr (by omega))
  obtain ⟨group, hgroup⟩ := Option.isSome_iff_exists.mp (horder.group.mpr h)
  simp only [Buffers.store, hname, htype, huser, hgroup, Option.getD_some]

theorem readEntry_eq (env : Env) {line : Text} (h : 5 ≤ (sscanf line).assigned) (b b' : Buffers) :
    readEntry env b line = readEntry env b' line := by
  unfold readEntry
  dsimp only
  rw [store_eq h b b']

/-- What an accepted line gives, from the buffers after the scan. -/
theorem readEntry_accepted (env : Env) (b : Buffers) {line : Text} (h : rejected (sscanf line) ≠ true) :
    (readEntry env b line).1 =
      if (b.store (sscanf line)).name.head? = some '#' then .skipped else
      match ownerId (b.store (sscanf line)).group env.group env.getgid,
        ownerId (b.store (sscanf line)).user env.passwd env.getuid with
      | some gid, some uid =>
        .entry ⟨concatPathFile env.rootdir (b.store (sscanf line)).name, (b.store (sscanf line)).type,
          (sscanf line).mode.getD 0o755, uid, gid, (sscanf line).major.getD 0,
          (sscanf line).minor.getD 0, (sscanf line).start.getD 0, (sscanf line).increment.getD 0,
          (sscanf line).count.getD 0⟩
      | _, _ => .died := by
  unfold readEntry
  dsimp only
  rw [if_neg h]
  split
  · rfl
  · cases ownerId (b.store (sscanf line)).group env.group env.getgid with
    | none => rfl
    | some gid =>
      cases ownerId (b.store (sscanf line)).user env.passwd env.getuid <;> rfl

/-- What an accepted line gives comes from the buffers after the scan. -/
theorem of_readEntry {env : Env} {b : Buffers} {line : Text} {e : Entry}
    (h : (readEntry env b line).1 = .entry e) :
    rejected (sscanf line) ≠ true ∧ e.path = concatPathFile env.rootdir (b.store (sscanf line)).name ∧
      ownerId (b.store (sscanf line)).group env.group env.getgid = some e.gid ∧
      ownerId (b.store (sscanf line)).user env.passwd env.getuid = some e.uid := by
  by_cases hr : rejected (sscanf line) = true
  · rw [readEntry, if_pos hr] at h
    dsimp only at h
    split at h <;> cases h
  · rw [readEntry_accepted env b hr] at h
    split at h
    · cases h
    · split at h
      next hgid huid =>
        cases h
        exact ⟨hr, rfl, hgid, huid⟩
      next => cases h

/-! ### Silent lines -/

theorem nodeType_of_unsupported {type : Char} (h : supported type = false) :
    type ≠ 'd' ∧ type ≠ 'f' ∧ nodeType type = none := by
  simp only [supported, Bool.or_eq_false_iff, decide_eq_false_iff_not] at h
  exact ⟨h.1.1, h.1.2, by simpa using h.2⟩

theorem perform_unsupported {σ : Type} (k : System σ) {e : Entry} (h : supported e.type = false) (s : σ) :
    (perform k e s).1 = [] := by
  obtain ⟨hd, hf, hnode⟩ := nodeType_of_unsupported h
  rw [perform, if_neg hd, if_neg hf, hnode]

theorem entryCalls_silent {env : Env} {line : Text} (h : Silent env line) {σ : Type} (k : System σ)
    (b : Buffers) (s : σ) : entryCalls env k line b s = [] := by
  unfold entryCalls
  split
  next e he =>
    by_cases hr : rejected (sscanf line) = true
    · rw [readEntry, if_pos hr] at he
      dsimp only at he
      split at he <;> cases he
    rw [readEntry_accepted env b hr] at he
    split at he
    · cases he
    next hname =>
      split at he
      next gid uid hgid huid =>
        cases he
        rcases h with h | ⟨name, hmem, h⟩ | ⟨type, hmem, h⟩ | ⟨user, hmem, h⟩
        · exact absurd h hr
        · rw [store_name b hmem] at hname
          exact absurd h hname
        · apply perform_unsupported
          dsimp only
          rw [store_type b hmem]
          exact h
        · rw [store_user b hmem, h] at huid
          cases huid
      next => cases he
  next => rfl

/-! ### Lines without their own owner -/

/-- A file system in which every call succeeds. -/
def allOk : System Unit := fun _ s => (true, s)

theorem attempt_allOk (calls : List Call) (s : Unit) : attempt allOk calls s = (calls, true, s) := by
  induction calls with
  | nil => rfl
  | cons c calls ih =>
    rw [attempt, allOk]
    dsimp only
    rw [ih]

theorem attemptEach_allOk (groups : List (List Call)) (s : Unit) :
    (attemptEach allOk groups s).1 = groups.flatten := by
  induction groups with
  | nil => rfl
  | cons group groups ih => rw [attemptEach, attempt_allOk, List.flatten_cons, ← ih]

/-- The loop over the nodes makes at least one. -/
theorem nodes_ne_nil {e : Entry} (h : e.start ≤ e.start + e.last) :
    e.nodes = e.start :: nodeLoop (e.start + e.last) (2 ^ 32 - 1) (e.start + 1) := by
  have hloop : ∀ n, nodeLoop (e.start + e.last) (n + 1) e.start =
      e.start :: nodeLoop (e.start + e.last) n (e.start + 1) := fun _ => if_pos h
  exact hloop (2 ^ 32 - 1)

/-- The calls of an entry set its own owner only. -/
theorem perform_owner {σ : Type} (k : System σ) (e : Entry) (s : σ) :
    ∀ c ∈ (perform k e s).1, ∀ owner ∈ c.owner, owner = (e.uid, e.gid) := by
  have howner : ∀ path, ∀ c ∈ e.ownerCalls path, ∀ owner ∈ c.owner, owner = (e.uid, e.gid) := by
    intro path c hc
    rw [Entry.ownerCalls] at hc
    split_ifs at hc
    · simp only [List.mem_cons, List.not_mem_nil, or_false] at hc
      rcases hc with rfl | rfl <;> simp [Call.owner]
    · rw [List.mem_singleton.mp hc]
      simp [Call.owner]
  intro c hc
  unfold perform at hc
  split_ifs at hc
  · rcases List.mem_append.mp hc with hc | hc
    · have hnone : c.owner = none := bbMakeDirectory_calls _ _ _ _ _ _ c hc
      simp [hnone]
    · exact howner _ c (attempt_subset _ hc)
  · rcases List.mem_cons.mp (attempt_subset _ hc) with rfl | hc
    · simp [Call.owner]
    · exact howner _ c hc
  · split at hc
    · cases hc
    · obtain ⟨group, hgroup, hc⟩ := List.mem_flatten.mp (attemptEach_subset _ hc)
      obtain ⟨i, -, rfl⟩ := List.mem_map.mp hgroup
      simp only [Entry.nodeCalls, List.mem_cons, List.not_mem_nil, or_false] at hc
      rcases hc with rfl | rfl | rfl <;> simp [Call.owner]

/-- Every supported type sets the owner. -/
theorem perform_chown {e : Entry} (h : supported e.type = true) (hstart : e.start ≤ e.start + e.last) :
    ∃ path, .chown path e.uid e.gid ∈ (perform allOk e ()).1 := by
  unfold perform
  split
  · exact ⟨e.fullName allOk (), by simp [attempt_allOk, Entry.ownerCalls]⟩
  · split
    · exact ⟨e.path, by simp [attempt_allOk, Entry.ownerCalls]⟩
    next hd hf =>
      obtain ⟨t, ht⟩ : ∃ t, nodeType e.type = some t := by
        simpa [supported, hd, hf, Option.isSome_iff_exists] using h
      refine ⟨e.nodePath e.start, ?_⟩
      rw [ht]
      dsimp only
      rw [attemptEach_allOk, nodes_ne_nil hstart]
      simp [Entry.nodeCalls]

/-- The sum of the start and the count of an accepted line does not wrap. -/
theorem start_le_stop {e : Entry} (hstart : e.start ≤ 0xfffff) (hcount : e.count ≤ 0xfffff) :
    e.start ≤ e.start + e.last := by
  have hlast : e.last ≤ 0xfffff := by
    unfold Entry.last
    split
    next hne =>
      rw [UInt32.le_iff_toNat_le] at hcount ⊢
      have hpos := UInt32.lt_iff_toNat_lt.mp (UInt32.pos_iff_ne_zero.mpr hne)
      have hone : (1 : UInt32) ≤ e.count := UInt32.le_iff_toNat_le.mpr hpos
      rw [UInt32.toNat_sub_of_le _ _ hone]
      omega
    next => exact hcount
  rw [UInt32.le_iff_toNat_le] at hstart hlast ⊢
  rw [UInt32.toNat_add]
  have hbound : (0xfffff : UInt32).toNat = 0xfffff := rfl
  omega

/-- An owner in the calls of an entry line is for the buffers after the scan. -/
theorem of_chown {env : Env} {σ : Type} {k : System σ} {line : Text} {b : Buffers} {s : σ}
    {path : Text} {uid gid : UInt32} (h : .chown path uid gid ∈ entryCalls env k line b s) :
    ¬ Silent env line ∧ ownerId (b.store (sscanf line)).user env.passwd env.getuid = some uid ∧
      ownerId (b.store (sscanf line)).group env.group env.getgid = some gid := by
  refine ⟨fun hsilent => ?_, ?_⟩
  · rw [entryCalls_silent hsilent] at h
    cases h
  · unfold entryCalls at h
    split at h
    next e he =>
      obtain ⟨-, -, hgid, huid⟩ := of_readEntry he
      obtain ⟨rfl, rfl⟩ := Prod.mk.inj (perform_owner k e s _ h _ rfl)
      exact ⟨huid, hgid⟩
    next => cases h

/-- A line that is not silent sets the owner for the buffers after the scan. -/
theorem exists_chown {env : Env} {line : Text} (hsilent : ¬ Silent env line) {b : Buffers}
    {uid gid : UInt32}
    (huid : ownerId (b.store (sscanf line)).user env.passwd env.getuid = some uid)
    (hgid : ownerId (b.store (sscanf line)).group env.group env.getgid = some gid) :
    ∃ path, .chown path uid gid ∈ entryCalls env allOk line b () := by
  simp only [Silent, not_or, not_exists, not_and] at hsilent
  obtain ⟨haccepted, hcomment, htype, -⟩ := hsilent
  obtain ⟨⟨name, hname⟩, type, hscanned⟩ := exists_name_type haccepted
  have hhead : ¬ (b.store (sscanf line)).name.head? = some '#' := by
    rw [store_name b hname]
    exact hcomment name hname
  have hsupported : supported (b.store (sscanf line)).type = true := by
    rw [store_type b hscanned]
    simpa using htype type hscanned
  obtain ⟨-, hstart, hcount, -⟩ := numbers_le_of_accepted haccepted
  have hentry := readEntry_accepted env b haccepted
  rw [if_neg hhead, hgid, huid] at hentry
  unfold entryCalls
  rw [hentry]
  exact perform_chown (e := ⟨concatPathFile env.rootdir _, _, _, uid, gid, _, _, _, _, _⟩) hsupported
    (start_le_stop hstart hcount)

/-- The user of a line that is not silent is known, if the one that it finds is. -/
theorem exists_uid {env : Env} {line : Text} (hsilent : ¬ Silent env line) {b : Buffers} {uid : UInt32}
    (hb : ownerId b.user env.passwd env.getuid = some uid) :
    ∃ uid, ownerId (b.store (sscanf line)).user env.passwd env.getuid = some uid := by
  cases hu : (sscanf line).user with
  | none => exact ⟨uid, by rw [Buffers.store, hu]; exact hb⟩
  | some user =>
    rw [store_user b hu]
    refine Option.ne_none_iff_exists'.mp fun hnone => hsilent ?_
    exact .inr (.inr (.inr ⟨user, hu, hnone⟩))

/-- A comment that fills the buffers. -/
def comment (owner : Char) : Text := "# d 0 ".toList ++ [owner, ' ', owner]

theorem reached_comment (env : Env) (b : Buffers) {owner : Char} (h : owner = '0' ∨ owner = '1') :
    Reached env b [comment owner] ⟨⟨['#'], 'd', [owner], [owner]⟩, none, false⟩ := by
  refine ⟨Unit, allOk, (), ?_⟩
  rcases h with rfl | rfl <;> rfl

/-- The id of a comment's owner. -/
def commentId (owner : Char) : UInt32 := if owner = '0' then 0 else 1

theorem ownerId_comment (file : List (Text × UInt32)) (own : UInt32) {owner : Char}
    (h : owner = '0' ∨ owner = '1') : ownerId [owner] file own = some (commentId owner) := by
  rcases h with rfl | rfl <;> rfl

/-- A line that is not silent and leaves the group as it was takes the group that the
line before filled in. -/
theorem entryCalls_owner {env : Env} {line : Text} (hassigned : (sscanf line).assigned < 5)
    (hsilent : ¬ Silent env line) {owner : Char} (h : owner = '0' ∨ owner = '1') :
    (∃ path uid, .chown path uid (commentId owner) ∈
        entryCalls env allOk line ⟨['#'], 'd', [owner], [owner]⟩ ()) ∧
      ∀ path uid gid, .chown path uid gid ∈
        entryCalls env allOk line ⟨['#'], 'd', [owner], [owner]⟩ () → gid = commentId owner := by
  have hgroup : (sscanf line).group = none := by
    rw [← Option.not_isSome_iff_eq_none, (sscanf_inOrder line).group]
    omega
  set b : Buffers := ⟨['#'], 'd', [owner], [owner]⟩ with hb
  have hgid : ownerId (b.store (sscanf line)).group env.group env.getgid = some (commentId owner) := by
    rw [Buffers.store, hgroup]
    exact ownerId_comment _ _ h
  obtain ⟨uid, huid⟩ := exists_uid hsilent (b := b) (ownerId_comment env.passwd env.getuid h)
  obtain ⟨path, hchown⟩ := exists_chown hsilent huid hgid
  refine ⟨⟨path, uid, hchown⟩, fun path' uid' gid' hchown' => ?_⟩
  rw [(of_chown hchown').2.2, Option.some_inj] at hgid
  exact hgid

/-- An entry line makes the same file operations after any two tables if and only if it
fills the user and the group itself, or makes no file operation at all. -/
theorem independent_iff (env : Env) (line : Text) (h : scanXattr line = none) :
    Independent env line ↔ 5 ≤ (sscanf line).assigned ∨ Silent env line := by
  simp only [Independent, mainLine_calls h]
  constructor
  · intro hindep
    by_contra hnot
    rw [not_or, not_le] at hnot
    obtain ⟨⟨path, uid, hzero⟩, -⟩ := entryCalls_owner hnot.1 hnot.2 (.inl rfl)
    obtain ⟨-, hone⟩ := entryCalls_owner hnot.1 hnot.2 (.inr rfl)
    have hsame := hindep _ _ _ _ _ _ (reached_comment env ⟨[], 'd', [], []⟩ (.inl rfl))
      (reached_comment env ⟨[], 'd', [], []⟩ (.inr rfl)) Unit allOk ()
    rw [hsame] at hzero
    exact absurd (hone _ _ _ hzero) (by decide)
  · rintro (hfilled | hsilent) b₀ b₁ lines₀ lines₁ st₀ st₁ - - σ k s
    · rw [entryCalls, entryCalls, readEntry_eq env hfilled st₀.buffers st₁.buffers]
    · rw [entryCalls_silent hsilent, entryCalls_silent hsilent]

/-- No names, and the ids of root. -/
def plainEnv : Env := ⟨"/target".toList, [], [], 0, 0, false⟩

theorem independent_console :
    Independent plainEnv "/dev/console c 666 0 0 5 1 - - -".toList ↔
      5 ≤ (sscanf "/dev/console c 666 0 0 5 1 - - -".toList).assigned ∨
        Silent plainEnv "/dev/console c 666 0 0 5 1 - - -".toList :=
  independent_iff plainEnv _ rfl

/-- The calls for a directory below the root directory. -/
def directoryCalls (path : Text) (mode uid gid : UInt32) : List Call :=
  [.mkdir "/".toList 0o777, .mkdir "/target/".toList 0o777, .mkdir path 0o777,
    .chmod path (mode ||| 0o40000), .chown path uid gid, .chmod path mode]

/-- After another entry, a short line gets the owner of that entry. -/
theorem short_line_takes_owner :
    (mainLoop plainEnv allOk ["/tmp d 1777".toList] ⟨⟨[], 'd', [], []⟩, none, false⟩ ()).2.1 =
        directoryCalls "/target/tmp".toList 0o1777 0 0 ∧
      (mainLoop plainEnv allOk ["/www d 755 33 34".toList, "/tmp d 1777".toList]
          ⟨⟨[], 'd', [], []⟩, none, false⟩ ()).2.1 =
        directoryCalls "/target/www".toList 0o755 33 34 ++
          directoryCalls "/target/tmp".toList 0o1777 33 34 ∧
      ¬ Independent plainEnv "/tmp d 1777".toList := by
  refine ⟨by decide, by decide, fun h => ?_⟩
  have hsame := h _ _ _ _ _ _ (reached_comment plainEnv ⟨[], 'd', [], []⟩ (.inl rfl))
    (reached_comment plainEnv ⟨[], 'd', [], []⟩ (.inr rfl)) Unit allOk ()
  revert hsame
  decide

end CargosBuildroot.Makedevs
