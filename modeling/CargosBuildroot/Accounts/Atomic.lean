import CargosBuildroot.Accounts.Listed

/-! The failures of `add_one_user`. The checks and the search for a free uid come before the old
lines of the user are deleted, the tests of the home directory and of the password come after it,
and nothing puts the lines back. -/

namespace CargosBuildroot.Accounts

open Shell Store Spliced

variable {env : Env} {e : Entry} {s t : Target} {err : Failure}

/-- The entry is refused before anything is deleted: by `check_user_validity`, or as there is no
free uid. -/
def Entry.Unfit (e : Entry) (s : Target) : Prop :=
  (∃ err, checkUserValidity e.username (e.uid.getD 0) e.group e.gid s = .error err) ∨
    e.uid.getD 0 = -1 ∧ ∃ err, generateUid e.username s = .error err

/-- The home directory is `/` or not absolute, or the password encoder fails. -/
def Entry.Unusable (env : Env) (e : Entry) : Prop :=
  (∃ err, homeOf e.home = .error err) ∨ ∃ err, passwdOf env e.passwd = .error err

theorem capture_of_error {ε σ α : Type*} {query : σ → Except ε α} {k : α → Script ε σ} {s : σ} {err : ε}
    (h : query s = .error err) : Script.capture query k s = .fail err s := by
  rw [Script.capture, h]

theorem capture_of_ok {ε σ α : Type*} {query : σ → Except ε α} {k : α → Script ε σ} {s : σ} {a : α}
    (h : query s = .ok a) : Script.capture query k s = k a s := by
  rw [Script.capture, h]

theorem add_unfit (x : Spliced) (env : Env) (h : e.Unfit s) : ∃ err, x.add env e s = .fail err s := by
  unfold Spliced.add Spliced.addOneUser
  cases hcheck : checkUserValidity e.username (e.uid.getD 0) e.group e.gid s with
  | error err => exact ⟨err, capture_of_error hcheck⟩
  | ok _ =>
    rcases h with ⟨err, herr⟩ | ⟨hauto, err, herr⟩
    · rw [hcheck] at herr
      exact absurd herr (by simp)
    · refine ⟨err, (capture_of_ok hcheck).trans (capture_of_error ?_)⟩
      rw [if_pos hauto, herr]

/-- What is left when the tests after the deletion fail. -/
theorem add_unusable (x : Spliced) (hfit : ¬ e.Unfit s) (h : e.Unusable env) :
    ∃ err, x.add env e s = .fail err (x.removeUser e.username s) := by
  rw [Entry.Unfit, not_or, not_exists, not_and, not_exists] at hfit
  obtain ⟨-, hvalid⟩ : ∃ _u : Unit, checkUserValidity e.username (e.uid.getD 0) e.group e.gid s = .ok () := by
    cases hcheck : checkUserValidity e.username (e.uid.getD 0) e.group e.gid s with
    | error err => exact absurd hcheck (hfit.1 err)
    | ok _ => exact ⟨(), rfl⟩
  obtain ⟨uid, huid⟩ : ∃ uid, (if e.uid.getD 0 = -1 then generateUid e.username s else .ok (e.uid.getD 0)) =
      .ok uid := by
    by_cases hauto : e.uid.getD 0 = -1
    · rw [if_pos hauto]
      cases hgen : generateUid e.username s with
      | error err => exact absurd hgen (hfit.2 hauto err)
      | ok uid => exact ⟨uid, rfl⟩
    · exact ⟨_, if_neg hauto⟩
  have hstart : ∀ k : ℤ → Script Failure Target, Script.capture
        (checkUserValidity e.username (e.uid.getD 0) e.group e.gid) (fun _ =>
          Script.capture (fun s => if e.uid.getD 0 = -1 then generateUid e.username s else .ok (e.uid.getD 0))
            fun uid => (Script.update (x.removeUser e.username)).andThen (k uid)) s =
      k uid (x.removeUser e.username s) :=
    fun k => (capture_of_ok hvalid).trans (capture_of_ok huid)
  unfold Spliced.add Spliced.addOneUser
  rw [hstart]
  cases hhome : homeOf e.home with
  | error err => exact ⟨err, rfl⟩
  | ok home =>
    cases hpasswd : passwdOf env e.passwd with
    | error err => exact ⟨err, rfl⟩
    | ok passwd =>
      rcases h with ⟨err, herr⟩ | ⟨err, herr⟩
      · exact absurd (hhome.symm.trans herr) (by simp)
      · exact absurd (hpasswd.symm.trans herr) (by simp)

theorem filter_not_hits {name : Text} {file : List Text} :
    file.filter (!hits name ·) = file ↔ ∀ line ∈ file, hits name line = false := by
  simp only [List.filter_eq_self, Bool.not_eq_true']

/-- A failed `add_one_user` leaves `passwd` and `shadow` as they were if and only if it failed before the
deletion, or there is no line that the username selects. -/
theorem add_atomic_iff (h : e.Unfit s ∨ e.Unusable env) :
    ∃ err t, pattern.add env e s = .fail err t ∧
      (t.passwd = s.passwd ∧ t.shadow = s.shadow ↔
        e.Unfit s ∨ ∀ line ∈ s.passwd ++ s.shadow, hits e.username line = false) := by
  by_cases hfit : e.Unfit s
  · obtain ⟨err, herr⟩ := add_unfit pattern env hfit
    exact ⟨err, s, herr, iff_of_true ⟨rfl, rfl⟩ (.inl hfit)⟩
  · obtain ⟨err, herr⟩ := add_unusable pattern hfit (h.resolve_left hfit)
    refine ⟨err, _, herr, ?_⟩
    rw [or_iff_right hfit, List.forall_mem_append]
    exact and_congr filter_not_hits filter_not_hits

/-- The user `web` with the home directory `/`. -/
def rootHome : Entry := { entry "web" 1000 "web" 1000 "-" with home := "/".toList }

/-- Files with the user `web`. -/
def webFiles : Target where
  passwd := ["root:x:0:0:root:/root:/bin/sh".toList, "web:x:1000:1000::/srv:/bin/false".toList]
  shadow := ["root:*:::::::".toList, "web:secret:::::::".toList]
  group := ["root:x:0:".toList, "web:x:1000:".toList]

theorem rootHome_unusable : rootHome.Unusable plainEnv := .inl ⟨_, rfl⟩

theorem add_atomic_web :
    ∃ err t, pattern.add plainEnv rootHome webFiles = .fail err t ∧
      (t.passwd = webFiles.passwd ∧ t.shadow = webFiles.shadow ↔
        rootHome.Unfit webFiles ∨
          ∀ line ∈ webFiles.passwd ++ webFiles.shadow, hits rootHome.username line = false) :=
  add_atomic_iff (.inr rootHome_unusable)

/-- When the home of an existing user is refused, the user is gone. -/
theorem add_not_atomic :
    ∃ err t, pattern.add plainEnv rootHome webFiles = .fail err t ∧
      t.passwd ≠ webFiles.passwd ∧ t.shadow ≠ webFiles.shadow := by
  refine ⟨fail "home can not explicitly be '/'\n" [], { webFiles with
    passwd := ["root:x:0:0:root:/root:/bin/sh".toList]
    shadow := ["root:*:::::::".toList] }, ?_, ?_, ?_⟩
  all_goals decide +kernel

end CargosBuildroot.Accounts
