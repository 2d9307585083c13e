import CargosBuildroot.Shell.Read

/-! The file operations of `makedevs`. The file system decides which of them succeed. -/

namespace CargosBuildroot.Makedevs

open Shell

inductive Call
  /-- `mkdir`, with what the umask leaves of the mode -/
  | mkdir (path : Text) (mode : UInt32)
  /-- whether `errno` is `EEXIST` or `EISDIR` after a `mkdir` that failed -/
  | mkdirExists (path : Text)
  /-- `stat`, and whether it is a directory -/
  | statDirectory (path : Text)
  /-- `stat`, and whether it is a regular file -/
  | statRegular (path : Text)
  | chown (path : Text) (uid gid : UInt32)
  | chmod (path : Text) (mode : UInt32)
  | mknod (path : Text) (mode major minor : UInt32)
  | setXattr (path xattr : Text)
  deriving DecidableEq

/-- The file system: whether a call succeeds, and the state after it. -/
abbrev System (σ : Type) := Call → σ → Bool × σ

variable {σ : Type}

/-- Calls one after the other, up to the first that fails. -/
def attempt (k : System σ) : List Call → σ → List Call × Bool × σ
  | [], s => ([], true, s)
  | c :: cs, s =>
    match k c s with
    | (true, s) =>
      let (calls, ok, s) := attempt k cs s
      (c :: calls, ok, s)
    | (false, s) => ([c], false, s)

/-- Every group of calls in turn, whether or not the one before failed. -/
def attemptEach (k : System σ) : List (List Call) → σ → List Call × Bool × σ
  | [], s => ([], true, s)
  | group :: groups, s =>
    let (calls, ok, s) := attempt k group s
    let (calls', ok', s) := attemptEach k groups s
    (calls ++ calls', ok && ok', s)

section

variable {k : System σ} {s : σ}

theorem attempt_calls (c : Call) (cs : List Call) :
    (attempt k (c :: cs) s).1 = [c] ∨
      (attempt k (c :: cs) s).1 = c :: (attempt k cs (k c s).2).1 := by
  rw [attempt]
  rcases k c s with ⟨_ | _, s'⟩
  · exact .inl rfl
  · exact .inr rfl

theorem attempt_subset (cs : List Call) : (attempt k cs s).1 ⊆ cs := by
  induction cs generalizing s with
  | nil => exact List.Subset.refl _
  | cons c cs ih =>
    rcases attempt_calls (k := k) (s := s) c cs with h | h
    · rw [h]
      exact List.cons_subset_cons _ (List.nil_subset _)
    · rw [h]
      exact List.cons_subset_cons _ ih

theorem attemptEach_subset (groups : List (List Call)) :
    (attemptEach k groups s).1 ⊆ groups.flatten := by
  induction groups generalizing s with
  | nil => exact List.Subset.refl _
  | cons group groups ih =>
    rw [attemptEach, List.flatten_cons]
    refine List.append_subset.mpr ⟨?_, ?_⟩
    · exact List.Subset.trans (attempt_subset group) (List.subset_append_left _ _)
    · exact List.Subset.trans ih (List.subset_append_right _ _)

end

/-- The owner that a call sets. -/
def Call.owner : Call → Option (UInt32 × UInt32)
  | .chown _ uid gid => some (uid, gid)
  | _ => none

/-! ### Strings -/

/-- The string in a buffer ends at the first NUL. -/
def stringOf (buffer : Text) : Text := buffer.takeWhile (· ≠ '\x00')

theorem nul_not_mem_stringOf (buffer : Text) : '\x00' ∉ stringOf buffer := fun h => by
  simpa using List.mem_takeWhile_imp h

theorem stringOf_eq_self {t : Text} (h : '\x00' ∉ t) : stringOf t = t := by
  rw [stringOf, List.takeWhile_eq_self_iff]
  intro c hc
  exact decide_eq_true fun heq => h (heq ▸ hc)

end CargosBuildroot.Makedevs
