import CargosBuildroot.Download.CheckHash
import CargosBuildroot.Transition.Run

/-! Concurrent runs of the download wrapper (`support/download/dl-wrapper`) for
one output name and one hash file. The store is the file under the output name;
every process has a temporary directory and a temporary output of its own.
Each command is one step that may fail, except that the backend and the append
also take steps in the middle of their work, and a process may be killed
between any two steps. -/

namespace CargosBuildroot.Download

open Shell Transition

/-- What the processes have in common: the checksum tools, the variable
`BR_NO_CHECK_HASH_FOR`, the hash file and the base name of the output. -/
structure Config where
  sum : Text → Text → Text
  noCheck : Text
  hfile : Option Text
  base : Text
  base_ne : base ≠ []

/-- The verdict of `check-hash` on a file. -/
def Config.check (cfg : Config) (file : Option Text) : ℕ :=
  checkHash cfg.sum cfg.noCheck file cfg.base cfg.hfile

/-- The next command of a process, in the order of `main`; the last five are the
cleanups after a failure and the ends of a process. -/
inductive Pc
  | testOutput | checkOutput | rmOutput
  | mktempDir | cdTmpd | backend | cdBack | checkTmpf
  | mktempOutput | chmod | append | rmTmpd | mv
  | failTmpd | failBoth | failOutput
  | exited (code : ℕ) | killed
  deriving DecidableEq

/-- A process: whether `tmpd` exists, and the contents of `tmpf` and `tmp_output`. -/
structure Proc where
  pc : Pc := .testOutput
  tmpd : Bool := false
  tmpf : Option Text := none
  tmpOutput : Option Text := none

/-- What happens to the next command: it succeeds, fails, or is `check-hash` with
its exit code; the backend writes `tmpf`, `cat` copies `n` bytes. -/
inductive Event
  | ok | fail | kill
  | check (code : ℕ)
  | write (content : Text)
  | copy (n : ℕ)
  deriving DecidableEq

def Proc.goto (q : Proc) (pc : Pc) : Proc := { q with pc := pc }

@[simp] theorem Proc.goto_pc (q : Proc) (pc : Pc) : (q.goto pc).pc = pc := rfl
@[simp] theorem Proc.goto_tmpf (q : Proc) (pc : Pc) : (q.goto pc).tmpf = q.tmpf := rfl
@[simp] theorem Proc.goto_tmpOutput (q : Proc) (pc : Pc) : (q.goto pc).tmpOutput = q.tmpOutput := rfl

/-- `check-hash` returns its verdict, or fails with a code other than 0. -/
def Config.mayReturn (cfg : Config) (file : Option Text) (code : ℕ) : Prop :=
  code = 0 → cfg.check file = 0

instance (cfg : Config) (file : Option Text) (code : ℕ) : Decidable (cfg.mayReturn file code) := by
  unfold Config.mayReturn; infer_instance

/-- One step of `main` with the output file `out`. Under `set -e` an unguarded
command that fails ends the process with no cleanup. -/
def step (cfg : Config) (out : Option Text) (q : Proc) (e : Event) : Option (Option Text × Proc) :=
  match q.pc, e with
  | .exited _, _ | .killed, _ => none
  | _, .kill => some (out, q.goto .killed)
  | .testOutput, .ok => some (out, q.goto (if out.isSome then .checkOutput else .mktempDir))
  | .checkOutput, .check code =>
    if cfg.mayReturn out code then
      some (out, q.goto (if code = 0 then .exited 0 else if code = 2 then .rmOutput else .exited 1))
    else none
  | .rmOutput, .ok => some (none, q.goto .mktempDir)
  | .rmOutput, .fail => some (out, q.goto (.exited 1))
  | .mktempDir, .ok => some (out, { q with pc := .cdTmpd, tmpd := true })
  | .mktempDir, .fail => some (out, q.goto (.exited 1))
  | .cdTmpd, .ok => some (out, q.goto .backend)
  | .cdTmpd, .fail => some (out, q.goto (.exited 1))
  | .backend, .write content => some (out, { q with tmpf := some content })
  | .backend, .ok => some (out, q.goto .cdBack)
  | .backend, .fail => some (out, q.goto .failTmpd)
  | .cdBack, .ok => some (out, q.goto .checkTmpf)
  | .cdBack, .fail => some (out, q.goto (.exited 1))
  | .checkTmpf, .check code =>
    if cfg.mayReturn q.tmpf code then
      some (out, q.goto (if code = 0 then .mktempOutput else .failTmpd))
    else none
  | .mktempOutput, .ok => some (out, { q with pc := .chmod, tmpOutput := some [] })
  | .mktempOutput, .fail => some (out, q.goto (.exited 1))
  | .chmod, .ok => some (out, q.goto .append)
  | .chmod, .fail => some (out, q.goto (.exited 1))
  | .append, .copy n => q.tmpf.map fun c => (out, { q with tmpOutput := some (c.take n) })
  | .append, .ok => q.tmpf.map fun c => (out, { q with pc := .rmTmpd, tmpOutput := some c })
  | .append, .fail => some (out, q.goto .failBoth)
  | .rmTmpd, .ok => some (out, { q with pc := .mv, tmpd := false, tmpf := none })
  | .rmTmpd, .fail => some (out, q.goto (.exited 1))
  | .mv, .ok => some (q.tmpOutput, { q with pc := .exited 0, tmpOutput := none })
  | .mv, .fail => some (out, q.goto .failOutput)
  | .failTmpd, .ok => some (out, { q with pc := .exited 1, tmpd := false, tmpf := none })
  | .failBoth, .ok =>
    some (out, { q with pc := .exited 1, tmpd := false, tmpf := none, tmpOutput := none })
  | .failOutput, .ok => some (out, { q with pc := .exited 1, tmpOutput := none })
  | .failTmpd, .fail | .failBoth, .fail | .failOutput, .fail => some (out, q.goto (.exited 1))
  | _, _ => none

variable {P : Type*} [DecidableEq P]

/-- The processes and the file under the output name. -/
abbrev State (P : Type*) := Shared (Option Text) P Proc

def next (cfg : Config) : State P → P × Event → Option (State P) :=
  interleave fun _ => step cfg

/-- Every process is about to take its first step. -/
def Initial (s : State P) : Prop := ∀ p, s.proc p = {}

/-- The output file is there with a content that `check-hash` accepts. -/
def Accepted (cfg : Config) (out : Option Text) : Prop :=
  ∃ c, out = some c ∧ cfg.check (some c) = 0

instance (cfg : Config) (out : Option Text) : Decidable (Accepted cfg out) :=
  match out with
  | none => .isFalse (by simp [Accepted])
  | some c => decidable_of_iff (cfg.check (some c) = 0) (by simp [Accepted])

end CargosBuildroot.Download
