import CargosBuildroot.Makedevs.Calls
import Mathlib.Data.List.TakeDrop

/-! `bb_make_directory`. It ends the path early with a NUL to make the directories above the
last one, and puts the character back when it goes on, but not when it gives up. -/

namespace CargosBuildroot.Makedevs

open Shell

/-- The umask of a process has no bits other than the permissions. -/
structure Umask where
  bits : UInt32
  valid : bits &&& 0o777 = bits
  deriving DecidableEq

/-- `umask(m)` -/
def Umask.set (m : UInt32) : Umask :=
  ⟨m &&& 0o777, by rw [UInt32.and_assoc, UInt32.and_self]⟩

theorem Umask.set_bits (u : Umask) : Umask.set u.bits = u := by
  cases u with
  | mk bits valid => simp only [Umask.set, valid]

/-- `*s` -/
def charAt (buffer : Text) (s : ℕ) : Char := buffer.getD s '\x00'

/-- How far `s` goes to get behind the next slashes or, without one, to the end. -/
def bypass : Text → ℕ
  | [] => 0
  | c :: t =>
    if c = '\x00' then 0
    else if c = '/' then 1 + (t.takeWhile (· = '/')).length
    else 1 + bypass t

/-- What `bb_make_directory` leaves: the calls, the message if it failed, and what it
borrowed. The buffer is the path without its final NUL. -/
structure Made where
  calls : List Call
  error : Option Text
  buffer : Text
  umask : Umask
  deriving DecidableEq

def cannot (failMsg path : Text) : Text :=
  "Cannot ".toList ++ failMsg ++ " directory \x60".toList ++ path ++ ['\x27']

inductive Attempt
  | made | present | refused
  deriving DecidableEq

variable {σ : Type}

/-- `mkdir`, and a look at what is there if it fails. -/
def tryMkdir (k : System σ) (recur : Bool) (perm : UInt32) (path : Text) (w : σ) :
    Attempt × List Call × σ :=
  match k (.mkdir path perm) w with
  | (true, w) => (.made, [.mkdir path perm], w)
  | (false, w) =>
    let (existed, w) := k (.mkdirExists path) w
    if !existed || !recur then (.refused, [.mkdir path perm], w)
    else
      let (isdir, w) := k (.statDirectory path) w
      (if isdir then .present else .refused, [.mkdir path perm, .statDirectory path], w)

/-- The permissions of the full target, if it was made just now. -/
def setMode (k : System σ) (mode : Int64) (found : Attempt) (path : Text) (w : σ) :
    List Call × Option Text × σ :=
  if found = .present ∨ mode = -1 then ([], none, w)
  else
    let (ok, w) := k (.chmod path mode.toUInt64.toUInt32) w
    ([.chmod path mode.toUInt64.toUInt32],
      if ok then none else some (cannot "set permissions of".toList path), w)

/-- `s` behind the next directory, the character there, and a NUL in its place. Without a
slash `s` ends at a NUL, which the code leaves alone. -/
def getParent (recur : Bool) (s : ℕ) (buffer : Text) : ℕ × Char × Text :=
  if recur then
    let s := s + bypass (buffer.drop s)
    (s, charAt buffer s, buffer.set s '\x00')
  else (s, '\x00', buffer)

/-- The loop, with `n` rounds at most. The umask is `current` in it and `mask` after it. -/
def makeLoop (k : System σ) (recur : Bool) (mode : Int64) (mask current : Umask) :
    ℕ → ℕ → Text → σ → Option (Made × σ)
  | 0, _, _, _ => none
  | n + 1, s, buffer, w =>
    let (s, c, buffer) := getParent recur s buffer
    let path := stringOf buffer
    match tryMkdir k recur (0o777 &&& ~~~current.bits) path w with
    | (.refused, calls, w) =>
      some (⟨calls, some (cannot "create".toList path), buffer, .set mask.bits⟩, w)
    | (found, calls, w) =>
      if c = '\x00' then
        let (calls', error, w) := setMode k mode found path w
        some (⟨calls ++ calls', error, buffer, .set mask.bits⟩, w)
      else
        (makeLoop k recur mode mask current n s (buffer.set s c) w).map fun r =>
          ({ r.1 with calls := calls ++ r.1.calls }, r.2)

/-- `FILEUTILS_RECUR` -/
def fileutilsRecur : UInt32 := 4

/-- The mode of the full target; -1 stands for what the umask leaves of all permissions. -/
def targetMode (mode : Int64) (mask : Umask) : Int64 :=
  if mode = -1 then (0o777 &&& ~~~mask.bits).toUInt64.toInt64 else mode

/-- The umask in the loop. -/
def loopUmask (mode : Int64) (mask : Umask) : Umask :=
  if mode = -1 then .set mask.bits else .set (mask.bits &&& ~~~0o300)

/-- `bb_make_directory`, with `n` rounds of the loop at most. -/
def bbMakeDirectoryWithin (n : ℕ) (k : System σ) (path : Text) (mode : Int64) (flags : UInt32)
    (mask : Umask) (w : σ) : Option (Made × σ) :=
  makeLoop k (flags &&& fileutilsRecur ≠ 0) (targetMode mode mask) mask (loopUmask mode mask) n 0
    path w

/-! ### The directories above -/

/-- The places where a component begins behind a slash; `behind` tells whether the character
before the text is one. -/
def cutsFrom (behind : Bool) : ℕ → Text → List ℕ
  | _, [] => []
  | i, c :: t =>
    if c = '\x00' then []
    else if c = '/' then cutsFrom true (i + 1) t
    else if behind then i :: cutsFrom false (i + 1) t
    else cutsFrom false (i + 1) t

/-- The directories above the last one, each with the slashes behind it. -/
def ancestors (path : Text) : List Text := (cutsFrom false 0 path).map path.take

/-- Each directory in turn can be made, or is there and a directory. -/
def allPass (k : System σ) (perm : UInt32) : List Text → σ → Bool
  | [], _ => true
  | p :: ps, w =>
    match k (.mkdir p perm) w with
    | (true, w) => allPass k perm ps w
    | (false, w) =>
      let (existed, w) := k (.mkdirExists p) w
      let (isdir, w) := k (.statDirectory p) w
      existed && isdir && allPass k perm ps w

/-- The place `n` characters on, if the text goes on there, and the places behind it. -/
def cutsAt (i n : ℕ) (t : Text) : List ℕ :=
  if charAt t n = '\x00' then [] else (i + n) :: cutsFrom false (i + n) (t.drop n)

theorem cutsAt_cons (i n : ℕ) (c : Char) (t : Text) :
    cutsAt i (1 + n) (c :: t) = cutsAt (i + 1) n t := by
  rw [cutsAt, cutsAt, Nat.add_comm 1 n, ← Nat.add_assoc, Nat.add_right_comm]
  rfl

theorem cutsFrom_true (i : ℕ) (t : Text) :
    cutsFrom true i t = cutsAt i (t.takeWhile (· = '/')).length t := by
  induction t generalizing i with
  | nil => rfl
  | cons c t ih =>
    by_cases hslash : c = '/'
    · subst hslash
      rw [List.takeWhile_cons_of_pos (by decide), List.length_cons, Nat.add_comm, cutsAt_cons, ← ih]
      rfl
    · rw [List.takeWhile_cons_of_neg (by simpa using hslash)]
      by_cases hnul : c = '\x00'
      · subst hnul
        rfl
      · simp [cutsFrom, cutsAt, charAt, hslash, hnul]

theorem cutsFrom_false (i : ℕ) (t : Text) : cutsFrom false i t = cutsAt i (bypass t) t := by
  induction t generalizing i with
  | nil => rfl
  | cons c t ih =>
    rw [bypass]
    split_ifs with hnul hslash
    · subst hnul
      rfl
    · subst hslash
      rw [cutsAt_cons, ← cutsFrom_true]
      rfl
    · rw [cutsAt_cons, ← ih, cutsFrom, if_neg hnul, if_neg hslash, if_neg Bool.false_ne_true]

theorem bypass_pos {t : Text} (h : charAt t (bypass t) ≠ '\x00') : 0 < bypass t := by
  cases t with
  | nil => exact absurd rfl h
  | cons c t =>
    rw [bypass] at h ⊢
    split_ifs at h ⊢ with hnul
    · subst hnul
      exact absurd rfl h
    · omega
    · omega

/-- No NUL is passed. -/
theorem nul_not_mem_take_bypass (t : Text) : '\x00' ∉ t.take (bypass t) := by
  induction t with
  | nil => simp
  | cons c t ih =>
    rw [bypass]
    split_ifs with hnul hslash
    · simp
    · rw [Nat.add_comm, List.take_succ_cons, List.mem_cons, not_or]
      refine ⟨Ne.symm hnul, fun h => ?_⟩
      rw [← List.prefix_iff_eq_take.mp (List.takeWhile_prefix _)] at h
      simpa using List.mem_takeWhile_imp h
    · rw [Nat.add_comm, List.take_succ_cons, List.mem_cons, not_or]
      exact ⟨Ne.symm hnul, ih⟩

theorem charAt_drop (t : Text) (i n : ℕ) : charAt (t.drop i) n = charAt t (i + n) := by
  simp [charAt, List.getD_eq_getElem?_getD]

theorem charAt_of_lt {t : Text} {n : ℕ} (h : n < t.length) : charAt t n = t[n] := by
  rw [charAt, List.getD_eq_getElem?_getD, List.getElem?_eq_getElem h, Option.getD_some]

theorem lt_length_of_charAt {t : Text} {n : ℕ} (h : charAt t n ≠ '\x00') : n < t.length := by
  by_contra hle
  apply h
  rw [charAt, List.getD_eq_getElem?_getD, List.getElem?_eq_none (not_lt.mp hle), Option.getD_none]

theorem set_charAt (buffer : Text) (s : ℕ) : buffer.set s (charAt buffer s) = buffer := by
  rcases lt_or_ge s buffer.length with h | h
  · rw [charAt_of_lt h, List.set_getElem_self]
  · exact List.set_eq_of_length_le h

/-- With a NUL at `s` the string ends there. -/
theorem stringOf_set {path : Text} {s : ℕ} (hs : s < path.length) (h : '\x00' ∉ path.take s) :
    stringOf (path.set s '\x00') = path.take s := by
  have htake : ∀ c ∈ path.take s, decide (c ≠ '\x00') = true := by
    intro c hc
    rw [decide_eq_true_iff]
    rintro rfl
    exact h hc
  rw [List.set_eq_take_append_cons_drop, if_pos hs, stringOf, List.takeWhile_append_of_pos htake,
    List.takeWhile_cons_of_neg (by simp), List.append_nil]

/-! ### The loop -/

/-- More rounds than the loop needs change nothing. -/
theorem makeLoop_mono {k : System σ} {recur : Bool} {mode : Int64} {mask current : Umask} {n m s : ℕ}
    {buffer : Text} {w : σ} {r : Made × σ}
    (h : makeLoop k recur mode mask current n s buffer w = some r) (hnm : n ≤ m) :
    makeLoop k recur mode mask current m s buffer w = some r := by
  induction n generalizing m s buffer w r with
  | zero => cases h
  | succ n ih =>
    obtain ⟨m, rfl⟩ : ∃ m', m = m' + 1 := ⟨m - 1, by omega⟩
    rw [makeLoop] at h ⊢
    dsimp only at h ⊢
    split at h
    · exact h
    · split_ifs at h ⊢
      · exact h
      · obtain ⟨r', hr', hmap⟩ := Option.map_eq_some_iff.mp h
        rw [ih hr' (by omega), Option.map_some, hmap]

theorem allPass_cons (k : System σ) (perm : UInt32) (p : Text) (ps : List Text) (w : σ) :
    allPass k perm (p :: ps) w = match tryMkdir k true perm p w with
      | (.refused, _, _) => false
      | (_, _, w) => allPass k perm ps w := by
  rw [allPass, tryMkdir]
  rcases k (.mkdir p perm) w with ⟨_ | _, w⟩
  · dsimp only
    rcases k (.mkdirExists p) w with ⟨_ | _, w⟩
    · rfl
    · dsimp only
      rcases k (.statDirectory p) w with ⟨_ | _, w⟩ <;> rfl
  · rfl

/-- The loop from `s` on ends with the umask as it was, and with the path as it was unless a
directory above the last one is refused. -/
theorem makeLoop_spec (k : System σ) (mode : Int64) (mask current : Umask) {n s : ℕ} {path : Text}
    (hs : s ≤ path.length) (hnul : '\x00' ∉ path.take s) (hn : path.length < s + n) (w : σ) :
    ∃ made w', makeLoop k true mode mask current n s path w = some (made, w') ∧ made.umask = mask ∧
      (made.buffer = path ↔ allPass k (0o777 &&& ~~~current.bits)
        ((cutsFrom false s (path.drop s)).map path.take) w = true) ∧
      (made.error = none → made.buffer = path) := by
  induction n generalizing s w with
  | zero => omega
  | succ n ih =>
    rw [makeLoop, getParent, if_pos rfl, cutsFrom_false, cutsAt, charAt_drop]
    dsimp only
    set s' := s + bypass (path.drop s) with hs'
    by_cases hc : charAt path s' = '\x00'
    · have hbuffer : path.set s' '\x00' = path := by
        have h := set_charAt path s'
        rwa [hc] at h
      rw [hbuffer, if_pos hc]
      split
      · exact ⟨_, _, rfl, mask.set_bits, iff_of_true rfl rfl, fun _ => rfl⟩
      · rw [if_pos hc]
        exact ⟨_, _, rfl, mask.set_bits, iff_of_true rfl rfl, fun _ => rfl⟩
    · have hlt := lt_length_of_charAt hc
      have hpos : 0 < bypass (path.drop s) := bypass_pos (by rwa [charAt_drop])
      have htake : '\x00' ∉ path.take s' := by
        rw [hs', List.take_add, List.mem_append, not_or]
        exact ⟨hnul, nul_not_mem_take_bypass _⟩
      rw [if_neg hc, List.map_cons, stringOf_set hlt htake, allPass_cons, List.drop_drop, ← hs']
      split
      · refine ⟨_, _, rfl, mask.set_bits, iff_of_false ?_ Bool.false_ne_true, nofun⟩
        intro (h : path.set s' '\x00' = path)
        -- the NUL is still there
        have hset := charAt_of_lt (t := path.set s' '\x00') (n := s') (by simpa using hlt)
        rw [List.getElem_set_self, h] at hset
        exact hc hset
      next calls w' _ _ =>
        obtain ⟨made, w'', hmade, hrest⟩ := ih hlt.le htake (by omega) w'
        rw [if_neg hc, List.set_set, set_charAt, hmade]
        exact ⟨_, _, rfl, hrest⟩

/-- Without `FILEUTILS_RECUR` there is one round, and the path is left alone. -/
theorem makeLoop_once (k : System σ) (mode : Int64) (mask current : Umask) (n : ℕ) (path : Text)
    (w : σ) :
    ∃ made w', makeLoop k false mode mask current (n + 1) 0 path w = some (made, w') ∧
      made.umask = mask ∧ made.buffer = path := by
  rw [makeLoop, getParent, if_neg Bool.false_ne_true]
  dsimp only
  split
  · exact ⟨_, _, rfl, mask.set_bits, rfl⟩
  · rw [if_pos rfl]
    exact ⟨_, _, rfl, mask.set_bits, rfl⟩

theorem makeLoop_restores (k : System σ) (recur : Bool) (mode : Int64) (mask current : Umask)
    (path : Text) (w : σ) :
    ∃ made w', makeLoop k recur mode mask current (path.length + 1) 0 path w = some (made, w') ∧
      made.umask = mask ∧
      (made.buffer = path ↔ recur = false ∨
        allPass k (0o777 &&& ~~~current.bits) (ancestors path) w = true) ∧
      (made.error = none → made.buffer = path) := by
  cases recur with
  | false =>
    obtain ⟨made, w', hmade, humask, hbuffer⟩ := makeLoop_once k mode mask current path.length path w
    exact ⟨made, w', hmade, humask, iff_of_true hbuffer (.inl rfl), fun _ => hbuffer⟩
  | true =>
    obtain ⟨made, w', hmade, humask, hbuffer, herror⟩ := makeLoop_spec k mode mask current
      (n := path.length + 1) (Nat.zero_le path.length) (by simp) (by omega) w
    refine ⟨made, w', hmade, humask, hbuffer.trans ?_, herror⟩
    rw [List.drop_zero, ancestors, or_iff_right (Bool.noConfusion)]

theorem tryMkdir_calls (k : System σ) (recur : Bool) (perm : UInt32) (path : Text) (w : σ) :
    ∀ c ∈ (tryMkdir k recur perm path w).2.1, c.owner = none := by
  rw [tryMkdir]
  split
  · simp [Call.owner]
  · dsimp only
    split_ifs <;> simp [Call.owner]

theorem setMode_calls (k : System σ) (mode : Int64) (found : Attempt) (path : Text) (w : σ) :
    ∀ c ∈ (setMode k mode found path w).1, c.owner = none := by
  rw [setMode]
  split_ifs <;> simp [Call.owner]

/-- No call of the loop sets an owner. -/
theorem makeLoop_calls {k : System σ} {recur : Bool} {mode : Int64} {mask current : Umask} {n s : ℕ}
    {buffer : Text} {w : σ} {r : Made × σ}
    (h : makeLoop k recur mode mask current n s buffer w = some r) :
    ∀ c ∈ r.1.calls, c.owner = none := by
  induction n generalizing s buffer w r with
  | zero => cases h
  | succ n ih =>
    rw [makeLoop] at h
    dsimp only at h
    have htry := tryMkdir_calls k recur (0o777 &&& ~~~current.bits)
      (stringOf (getParent recur s buffer).2.2) w
    split at h
    next heq =>
      rw [heq] at htry
      cases h
      exact htry
    next heq =>
      rw [heq] at htry
      split_ifs at h
      · cases h
        exact List.forall_mem_append.mpr ⟨htry, setMode_calls _ _ _ _ _⟩
      · obtain ⟨r', hr', rfl⟩ := Option.map_eq_some_iff.mp h
        exact List.forall_mem_append.mpr ⟨htry, ih hr'⟩

/-! ### The function -/

/-- `bb_make_directory` -/
def bbMakeDirectory (k : System σ) (path : Text) (mode : Int64) (flags : UInt32) (mask : Umask)
    (w : σ) : Made × σ :=
  (bbMakeDirectoryWithin (path.length + 1) k path mode flags mask w).get (by
    obtain ⟨made, w', hmade, -⟩ := makeLoop_restores k (flags &&& fileutilsRecur ≠ 0)
      (targetMode mode mask) mask (loopUmask mode mask) path w
    rw [bbMakeDirectoryWithin, hmade]
    rfl)

section

variable (k : System σ) (path : Text) (mode : Int64) (flags : UInt32) (mask : Umask) (w : σ)

theorem within_eq {n : ℕ} (hn : path.length < n) : bbMakeDirectoryWithin n k path mode flags mask w =
    some (bbMakeDirectory k path mode flags mask w) :=
  makeLoop_mono (Option.some_get _).symm hn

theorem bbMakeDirectory_spec :
    (bbMakeDirectory k path mode flags mask w).1.umask = mask ∧
      ((bbMakeDirectory k path mode flags mask w).1.buffer = path ↔ flags &&& fileutilsRecur = 0 ∨
        allPass k (0o777 &&& ~~~(loopUmask mode mask).bits) (ancestors path) w = true) ∧
      ((bbMakeDirectory k path mode flags mask w).1.error = none →
        (bbMakeDirectory k path mode flags mask w).1.buffer = path) := by
  obtain ⟨made, w', hmade, humask, hbuffer, herror⟩ := makeLoop_restores k
    (flags &&& fileutilsRecur ≠ 0) (targetMode mode mask) mask (loopUmask mode mask) path w
  have hget : bbMakeDirectory k path mode flags mask w = (made, w') :=
    Option.some_inj.mp ((within_eq k path mode flags mask w (Nat.lt_succ_self _)).symm.trans hmade)
  rw [hget]
  exact ⟨humask, hbuffer.trans (by simp), herror⟩

theorem bbMakeDirectory_calls : ∀ c ∈ (bbMakeDirectory k path mode flags mask w).1.calls,
    c.owner = none :=
  makeLoop_calls (within_eq k path mode flags mask w (Nat.lt_succ_self _))

/-- For every path, mode and flags and whatever the file system answers, `bb_make_directory` ends
with the umask as it was, and it leaves the path as it was if and only if it does not make the
directories above, or none of them is refused. -/
theorem directory_restored_iff :
    (∀ n, path.length < n → bbMakeDirectoryWithin n k path mode flags mask w =
        some (bbMakeDirectory k path mode flags mask w)) ∧
      (bbMakeDirectory k path mode flags mask w).1.umask = mask ∧
      ((bbMakeDirectory k path mode flags mask w).1.buffer = path ↔ flags &&& fileutilsRecur = 0 ∨
        allPass k (0o777 &&& ~~~(loopUmask mode mask).bits) (ancestors path) w = true) := by
  obtain ⟨humask, hbuffer, -⟩ := bbMakeDirectory_spec k path mode flags mask w
  exact ⟨fun n hn => within_eq k path mode flags mask w hn, humask, hbuffer⟩

end

/-- A file system in which the directory is missing and cannot be made. -/
def refusing (directory : Text) : System Unit := fun c s =>
  match c with
  | .mkdir path _ => (path ≠ directory, s)
  | .mkdirExists path => (path ≠ directory, s)
  | _ => (true, s)

/-- When `/target/a/` cannot be made, the path `/target/a/b` is left with a NUL for its last
character. -/
theorem directory_left_short :
    (bbMakeDirectory (refusing "/target/a/".toList) "/target/a/b".toList 0o40755 fileutilsRecur
      (.set 0o22) ()).1.buffer = "/target/a/\x00".toList ∧
    ¬ ((bbMakeDirectory (refusing "/target/a/".toList) "/target/a/b".toList 0o40755 fileutilsRecur
        (.set 0o22) ()).1.umask = .set 0o22 ∧
      (bbMakeDirectory (refusing "/target/a/".toList) "/target/a/b".toList 0o40755 fileutilsRecur
        (.set 0o22) ()).1.buffer = "/target/a/b".toList) := by
  decide

end CargosBuildroot.Makedevs
