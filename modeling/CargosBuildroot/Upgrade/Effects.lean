import CargosBuildroot.Shell.Script
import CargosBuildroot.Shell.Words

/-! What a run of the upgrade script (`cargos-upgrade`) changes, with each of its
options. The commands of the script are at places; a choice function says which of
them fail, and before which of them a trapped signal arrives. A run is the list of
the changes it makes, the exit trap included. Commands that only read or report
(`id`, `uname`, `which`, `pvs`, `dialog`, `wget -O -`) change nothing. -/

namespace CargosBuildroot.Upgrade

open Shell

/-- A change of a file or of a mount. `exec` stands for a command that changes
what its documentation says. -/
inductive Effect
  | create (path : Text) | write (path : Text) | remove (path : Text)
  | mount (disk : Text) | umount
  | exec (command : List Text)
  deriving DecidableEq

/-- The commands that can fail or be interrupted; in the loops with the numbers
of the turns. -/
inductive Place
  | arch | pidTest | writePid
  | seccheck | osRelease | updateMsg | updateClear | updateAsk | upgradeRun
  | tools | lookup | upToDate | upToDateClear | ask | clear | openCfg
  | wgetRootfs (i : ℕ) | wgetKernel (i : ℕ)
  | pvs | fsck (i : ℕ) | mountBoot (i : ℕ) | cfgTest (i : ℕ)
  | refuseUmount (i : ℕ) | refuseMsg (i : ℕ) | refuseClear (i : ℕ)
  | paxctl (i : ℕ) | grubInstall (i : ℕ) | paxctlAgain (i : ℕ) | cpCfg (i : ℕ)
  | cpRootfs (i j : ℕ) | cpKernel (i j : ℕ) | findOld (i : ℕ) | umountBoot (i : ℕ)
  | rmImages | rmTmpdir | rmPid
  deriving DecidableEq

/-- What a run finds: the user, the answer of `mktemp -d`, the arguments, the files
it looks for, the releases, the physical volumes, and how many file systems are
mounted on `/boot` and can be unmounted by force. -/
structure World where
  root : Bool := true
  tmpdir : Option Text
  args : List Text
  /-- The files that are there at the start. -/
  file : Text → Bool
  wget : Bool := true
  grubInstall : Bool := true
  paxctl : Bool := true
  version : Text
  cver : Text
  rver : Text
  volumes : List Text
  boot : ℕ
  succeeds : Place → Bool
  signal : Place → Bool

structure Sys where
  boot : ℕ
  /-- `$? = 0` -/
  status : Bool
  effects : List Effect

def Sys.record (s : Sys) (e : Effect) : Sys := { s with effects := s.effects ++ [e] }

/-- How the script ends before its last line. -/
inductive Ending
  | exit | signal
  deriving DecidableEq

abbrev Command := Script Ending Sys

/-! ### Options -/

structure Flags where
  check : Bool := false
  dryrun : Bool := false
  force : Bool := false
  seccheck : Bool := false
  upgrade : Bool := false

def Flags.set (f : Flags) : Char → Option Flags
  | 'c' => some { f with check := true }
  | 'n' => some { f with dryrun := true }
  | 'f' => some { f with force := true }
  | 's' => some { f with seccheck := true }
  | 'u' => some { f with upgrade := true }
  | _ => none

/-- The letters of one argument. -/
def optionWord : Text → Flags → Option Flags
  | [], f => some f
  | c :: cs, f => (f.set c).bind (optionWord cs)

/-- The loop over `getopts` and the test that no operand is left; `none` when the
script calls `usage`. -/
def getopts : List Text → Flags → Option Flags
  | [], f => some f
  | ('-' :: c :: cs) :: as, f =>
    if c = '-' ∧ cs = [] then (if as = [] then some f else none)
    else (optionWord (c :: cs) f).bind (getopts as)
  | _ :: _, _ => none

/-! ### Commands -/

def exit : Command := .fail .exit

/-- `pr_error` prints its message and exits. -/
def prError : Command := exit

def usage : Command := exit

/-- A command; what it changes is the same whether it reports success or not. -/
def command (w : World) (p : Place) (act : Sys → Sys) : Command := fun s =>
  if w.signal p then .fail .signal s else .ok { act s with status := w.succeeds p }

/-- A command that changes nothing. -/
def report (w : World) (p : Place) : Command := command w p id

/-- The shell opens the target of `>` for writing, before it runs the command. -/
def redirect (w : World) (p : Place) (path : Text) : Command :=
  command w p fun s => if w.succeeds p then s.record (.write path) else s

/-- `cmd_exe`: with `-n` the command is not run, and the status is 0. -/
def cmdExe (w : World) (f : Flags) (p : Place) (act : Sys → Sys) : Command :=
  if f.dryrun then
    fun s => if w.signal p then .fail .signal s else .ok { s with status := true }
  else command w p act

/-- `[ $? -eq 0 ] && echo 'done.' || pr_error 'FAILED'` -/
def orFail : Command := fun s => if s.status then .ok s else prError s

/-- `[ $? -gt 0 ] && exit 0` -/
def exitUnlessOk : Command := fun s => if s.status then .ok s else exit s

/-- `clear && exit` -/
def clearAndExit (w : World) (p : Place) : Command :=
  (report w p).andThen fun s => if s.status then exit s else .ok s

/-- A command under a condition. -/
def when (b : Bool) (m : Command) : Command := if b then m else Script.skip

def mountOn (w : World) (p : Place) (disk : Text) (s : Sys) : Sys :=
  if w.succeeds p then { s.record (.mount disk) with boot := s.boot + 1 } else s

/-- `umount` does something only when there is something on `/boot`. -/
def umountBoot (s : Sys) : Sys :=
  if s.boot = 0 then s else { s.record .umount with boot := s.boot - 1 }

/-! ### The script -/

def pidPath : Text := "/var/run/cargos-upgrade.pid".toList

/-- `rm -rf ${_TMPDIR}`: without quotes the name of the directory is split at blanks.
For names without characters special in patterns. -/
def rmTmpdir (w : World) (tmpdir : Text) (s : Sys) : Sys :=
  ((words tmpdir).filter fun p => p = tmpdir || w.file p).foldl (fun s p => s.record (.remove p)) s

/-- The exit trap. -/
def byeBye (w : World) (tmpdir : Text) (s : Sys) : Sys :=
  (rmTmpdir w tmpdir (umountBoot s)).record (.remove pidPath)

def cargosSeccheck (w : World) : Command := (report w .seccheck).andThen exit

/-- The dot command on a file that cannot be read ends the shell. -/
def osRelease (w : World) : Command := (report w .osRelease).andThen exitUnlessOk

def cargosCheckUpgrade (w : World) : Command := (osRelease w).andThen exit

def cargosUpgrade (w : World) (f : Flags) : Command :=
  Script.seq [osRelease w,
    when (w.version = w.cver) ((report w .updateMsg).andThen (clearAndExit w .updateClear)),
    report w .updateAsk, exitUnlessOk,
    cmdExe w f .upgradeRun (·.record (.exec ["upgrade".toList, w.version, w.cver])), orFail, exit]

/-- The script up to the line before `clear`: the PID file, the jobs of `-s`, `-c`
and `-u`, the required tools, the release lookup and the dialog. -/
def prologue (w : World) (f : Flags) : Command :=
  Script.seq [report w .pidTest, when (w.file pidPath) prError, redirect w .writePid pidPath,
    when f.seccheck (cargosSeccheck w), when f.check (cargosCheckUpgrade w),
    when f.upgrade (cargosUpgrade w f), report w .tools,
    when (!w.wget) prError, when (!w.grubInstall || !w.paxctl) prError, report w .lookup,
    if w.rver = w.cver then (report w .upToDate).andThen (clearAndExit w .upToDateClear)
    else (report w .ask).andThen exitUnlessOk]

def rootfs (version : Text) : Text := "rootfs.squashfs-noinst-".toList ++ version

def bzImage (version : Text) : Text := "bzImage-".toList ++ version

def tmpPath (file : Text) : Text := "/tmp/".toList ++ file

def bootPath (file : Text) : Text := "/boot/".toList ++ file

/-- `${_rver} ${_cver}`, numbered. -/
def World.versions (w : World) : List (Text × ℕ) := (words w.rver ++ words w.cver).zipIdx

def cfgPath : Text := tmpPath "grub.cfg".toList

def writeCfg (w : World) : Command := redirect w .openCfg cfgPath

def download (w : World) (f : Flags) (v : Text × ℕ) : Command :=
  Script.seq [cmdExe w f (.wgetRootfs v.2) (·.record (.write (tmpPath (rootfs v.1)))), orFail,
    cmdExe w f (.wgetKernel v.2) (·.record (.write (tmpPath (bzImage v.1)))), orFail]

def install (w : World) (f : Flags) (i : ℕ) (v : Text × ℕ) : Command :=
  Script.seq [cmdExe w f (.cpRootfs i v.2) (·.record (.write (bootPath (rootfs v.1)))), orFail,
    cmdExe w f (.cpKernel i v.2) (·.record (.write (bootPath (bzImage v.1)))), orFail]

/-- `echo $i | tr -d '[[:digit:]]'` -/
def diskOf (volume : Text) : Text := volume.filter fun c => !(c.isDigit || c = '[' || c = ']')

def paxctlTargets : List Text :=
  ["/usr/pkg/sbin/grub-probe".toList, "/usr/pkg/sbin/grub-bios-setup".toList]

/-- A disk that is not configured to boot. -/
def refuse (w : World) (f : Flags) (i : ℕ) : Command :=
  Script.seq [cmdExe w f (.refuseUmount i) umountBoot, report w (.refuseMsg i),
    clearAndExit w (.refuseClear i)]

def onDisk (w : World) (f : Flags) (v : Text × ℕ) : Command :=
  let disk := diskOf v.1
  let i := v.2
  Script.seq [cmdExe w f (.fsck i) (·.record (.exec ["fsck.ext4".toList, disk ++ ['1']])), orFail,
    cmdExe w f (.mountBoot i) (mountOn w (.mountBoot i) (disk ++ ['1'])),
    when (!f.dryrun && !f.force && !w.succeeds (.cfgTest i)) (refuse w f i),
    cmdExe w f (.paxctl i) (·.record (.exec ("paxctl".toList :: paxctlTargets))),
    cmdExe w f (.grubInstall i) (·.record (.exec ["grub-install".toList, disk])),
    cmdExe w f (.paxctlAgain i) (·.record (.exec ("paxctl".toList :: paxctlTargets))), orFail,
    cmdExe w f (.cpCfg i) (·.record (.write (bootPath "grub/grub.cfg".toList))),
    Script.forEach w.versions (install w f i),
    when (!f.dryrun) (command w (.findOld i) (·.record (.exec ["find".toList, "/boot".toList]))),
    cmdExe w f (.umountBoot i) umountBoot]

def removeImages (w : World) (s : Sys) : Sys :=
  ((s.record (.remove (tmpPath (bzImage w.cver)))).record (.remove (tmpPath (rootfs w.cver)))).record
    (.remove cfgPath)

/-- The script from the downloads to its last line. -/
def epilogue (w : World) (f : Flags) (tmpdir : Text) : Command :=
  Script.seq [Script.forEach w.versions (download w f), report w .pvs,
    Script.forEach w.volumes.zipIdx (onDisk w f), cmdExe w f .rmImages (removeImages w),
    command w .rmTmpdir (rmTmpdir w tmpdir), command w .rmPid (·.record (.remove pidPath))]

def main (w : World) (tmpdir : Text) : Command :=
  match getopts w.args {} with
  | none => usage
  | some f => Script.seq [prologue w f, report w .clear, writeCfg w, epilogue w f tmpdir]

/-- After a trapped signal the trap runs, and once more when it exits. -/
def leave (w : World) (tmpdir : Text) : Exit Ending Sys → Sys
  | .ok s | .fail .exit s => byeBye w tmpdir s
  | .fail .signal s => byeBye w tmpdir (byeBye w tmpdir s)

/-- The changes of a run. The trap is set after the directory is made. -/
def effects (w : World) : List Effect :=
  if w.root then
    match w.tmpdir with
    | none => []
    | some tmpdir =>
      if w.signal .arch then [.create tmpdir]
      else (leave w tmpdir (main w tmpdir ⟨w.boot, true, [.create tmpdir]⟩)).effects
  else []

end CargosBuildroot.Upgrade
