import CargosBuildroot.Shell.Words
import CargosBuildroot.Transition.Run
import Mathlib.Data.List.Infix
import Mathlib.Tactic.SplitIfs

/-! The boot partitions during a run of the upgrade script (`cargos-upgrade`,
from the release lookup to the final clean-up). A run is a sequence of steps of
one process: each command succeeds or fails, the writes of `grub.cfg` and of the
images can be seen and cut half way, and a signal or a power cut may come
between any two steps. -/

namespace CargosBuildroot.Upgrade

open Shell Transition

/-! ### The generated configuration -/

/-- The four lines of a menu entry below its title. -/
def entryLines (version args : Text) : List Text :=
  ["    set background_color=black".toList,
    "    linux    /bzImage-".toList ++ version ++ args ++
      " root=/dev/ram0 ramdisk_size=131072 quiet".toList,
    "    initrd   /rootfs.squashfs-noinst-".toList ++ version,
    "\x7d".toList]

def menuEntry (version title args : Text) : List Text :=
  ("menuentry 'CargOS-".toList ++ version ++ title ++ "' \x7b".toList) :: entryLines version args

/-- The lines of `/tmp/grub.cfg`. -/
def cfgLines (rver cver : Text) : List Text :=
  ["set menu_color_normal=cyan/blue".toList, "set menu_color_highlight=white/blue".toList,
    "set timeout=10".toList, []] ++
  menuEntry rver [] [] ++ menuEntry cver [] [] ++
  menuEntry rver " with serial console on ttyS0".toList " console=ttyS0".toList ++
  menuEntry cver " with serial console on ttyS0".toList " console=ttyS0".toList

def cfgText (rver cver : Text) : Text := (cfgLines rver cver).flatMap (· ++ ['\n'])

/-- The files that a line of `grub.cfg` tells grub to load. -/
def loads (line : Text) : List Text :=
  match words line with
  | cmd :: file :: more =>
    if cmd = "linux".toList then [file.dropWhile (· = '/')]
    else if cmd = "initrd".toList then (file :: more).map (·.dropWhile (· = '/'))
    else []
  | _ => []

/-- The kernels and initrds named by a `grub.cfg`. -/
def named (cfg : Text) : List Text := (lines cfg).flatMap loads

/-! ### Disks and runs -/

/-- A file of a boot partition. -/
inductive Image
  | absent | truncated | complete
  deriving DecidableEq

/-- A boot partition: its `/grub/grub.cfg` and the files at its top. -/
structure Partition where
  cfg : Option Text
  image : Text → Image

/-- Every kernel and initrd named by the `grub.cfg` of the partition is there. -/
def Partition.Bootable (b : Partition) : Prop :=
  ∀ cfg, b.cfg = some cfg → ∀ f ∈ named cfg, b.image f = .complete

instance (b : Partition) : Decidable b.Bootable :=
  decidable_of_iff (∀ f ∈ b.cfg.elim [] named, b.image f = .complete) (by
    unfold Partition.Bootable
    cases b.cfg <;> simp)

/-- What a run works on: the release on the server (empty when the lookup
fails), the release of the system, the disks with a physical volume, and the
flags `-n` and `-f`. -/
structure Params where
  rver : Text
  cver : Text
  disks : List Text
  dryrun : Bool := false
  force : Bool := false

/-- The files of `${_rver} ${_cver}`, in the order in which they are copied. -/
def Params.images (u : Params) : List Text :=
  (words u.rver ++ words u.cver).flatMap fun v =>
    ["rootfs.squashfs-noinst-".toList ++ v, "bzImage-".toList ++ v]

/-- The commands of the loop over the disks. -/
inductive Stage
  | fsck | mount | requireCfg | refuseUmount | refuseClear | grub | cpCfg
  | cpImages (todo : List Text) | cleanup | umount
  deriving DecidableEq

/-- The next command of the script; `byeBye` is its exit trap. -/
inductive BootPc
  | compare | dialog | writeCfg
  | wget (todo : List Text)
  | onDisk (disk : Text) (stage : Stage) (rest : List Text)
  | finish | byeBye | stopped
  deriving DecidableEq

/-- What happens to the next command: it succeeds or fails, the first `n`
characters of a configuration are written, a copy has begun, `find` removes the
file `f`, or the test of `/boot/grub/grub.cfg` on an unmounted `/boot` has the
result `b`. -/
inductive BootEvent
  | ok | fail | signal | kill
  | part (n : ℕ) | start | remove (f : Text) | found (b : Bool)
  deriving DecidableEq

/-- The disks, what is mounted on `/boot` (the last first), the text of
`/tmp/grub.cfg`, and the disk whose configuration and images are being replaced. -/
structure BootState where
  pc : BootPc
  disk : Text → Partition
  mounts : List Text
  tmpCfg : Text
  exposed : Option Text

namespace BootState

def goto (s : BootState) (pc : BootPc) : BootState := { s with pc := pc }

/-- Change the partition on `/boot`, if there is one. -/
def onBoot (s : BootState) (f : Partition → Partition) : BootState :=
  match s.mounts with
  | [] => s
  | d :: _ => { s with disk := fun d' => if d' = d then f (s.disk d) else s.disk d' }

def umount (s : BootState) : BootState := { s with mounts := s.mounts.tail }

end BootState

def Partition.setImage (b : Partition) (f : Text) (i : Image) : Partition :=
  { b with image := fun f' => if f' = f then i else b.image f' }

/-- The next disk, or the end of the loop. -/
def diskPc : List Text → BootPc
  | [] => .finish
  | d :: rest => .onDisk d .fsck rest

/-- The next download, or the first disk. -/
def Params.wgetPc (u : Params) : List Text → BootPc
  | [] => diskPc u.disks
  | todo => .wget todo

/-- The next image to copy, or the clean-up. -/
def copyStage : List Text → Stage
  | [] => .cleanup
  | todo => .cpImages todo

/-- The disk on `/boot` as long as there are images left to copy. -/
def exposedBy (todo : List Text) (mounts : List Text) : Option Text :=
  if todo = [] then none else mounts.head?

/-- Whether `find ! -name "*${_cver}*" -a ! -name "*${_rver}*"` selects a file;
for releases without characters special in patterns. -/
def Params.old (u : Params) (f : Text) : Prop := ¬ u.cver <:+: f ∧ ¬ u.rver <:+: f

instance (u : Params) (f : Text) : Decidable (u.old f) := by unfold Params.old; infer_instance

/-- A step at a command of the loop over the disks, in a real run. -/
def stageStep (u : Params) (s : BootState) (d : Text) (rest : List Text) :
    Stage → BootEvent → Option BootState
  | .fsck, .ok => some (s.goto (.onDisk d .mount rest))
  | .fsck, .fail => some (s.goto .byeBye)
  | .mount, .ok =>
    some { s with pc := .onDisk d .requireCfg rest, mounts := d :: s.mounts }
  | .mount, .fail => some (s.goto (.onDisk d .requireCfg rest))
  | .requireCfg, .found b =>
    let there := match s.mounts with
      | [] => b
      | m :: _ => (s.disk m).cfg.isSome
    some (s.goto (.onDisk d (if u.force || there then .grub else .refuseUmount) rest))
  | .refuseUmount, .ok => some (s.umount.goto (.onDisk d .refuseClear rest))
  | .refuseUmount, .fail => some (s.goto (.onDisk d .refuseClear rest))
  | .refuseClear, .ok => some (s.goto .byeBye)
  | .refuseClear, .fail => some (s.goto (.onDisk d .grub rest))
  | .grub, .ok => some (s.goto (.onDisk d .cpCfg rest))
  | .grub, .fail => some (s.goto .byeBye)
  | .cpCfg, .part n =>
    some { s.onBoot fun b => { b with cfg := some (s.tmpCfg.take n) } with exposed := s.mounts.head? }
  | .cpCfg, .ok =>
    some { s.onBoot fun b => { b with cfg := some s.tmpCfg } with
      pc := .onDisk d (copyStage u.images) rest, exposed := exposedBy u.images s.mounts }
  | .cpCfg, .fail => some (s.goto (.onDisk d (copyStage u.images) rest))
  | .cpImages (f :: _), .start => some (s.onBoot (·.setImage f .truncated))
  | .cpImages (f :: todo), .ok =>
    some { s.onBoot (·.setImage f .complete) with
      pc := .onDisk d (copyStage todo) rest, exposed := exposedBy todo s.mounts }
  | .cpImages _, .fail => some (s.goto .byeBye)
  | .cleanup, .remove f => if u.old f then some (s.onBoot (·.setImage f .absent)) else none
  | .cleanup, .ok | .cleanup, .fail => some (s.goto (.onDisk d .umount rest))
  | .umount, .ok => some (s.umount.goto (diskPc rest))
  | .umount, .fail => some (s.goto (diskPc rest))
  | _, _ => none

/-- A step at a command of the loop with `-n`: `cmd_exe` runs nothing and returns
0, and the test of `grub.cfg` and the clean-up are skipped. -/
def dryStep (u : Params) (s : BootState) (d : Text) (rest : List Text) :
    Stage → BootEvent → Option BootState
  | .fsck, .ok => some (s.goto (.onDisk d .mount rest))
  | .mount, .ok => some (s.goto (.onDisk d .grub rest))
  | .grub, .ok => some (s.goto (.onDisk d .cpCfg rest))
  | .cpCfg, .ok => some (s.goto (.onDisk d (copyStage u.images) rest))
  | .cpImages (_ :: todo), .ok => some (s.goto (.onDisk d (copyStage todo) rest))
  | .cleanup, .ok => some (s.goto (.onDisk d .umount rest))
  | .umount, .ok => some (s.goto (diskPc rest))
  | _, _ => none

/-- One step of the script. The shell opens `/tmp/grub.cfg` for `cmd_exe cat` even
when nothing runs; a failed download ends the run. With nothing to upgrade the script goes on
where `clear` fails. -/
def bootNext (u : Params) (s : BootState) (e : BootEvent) : Option BootState :=
  match s.pc, e with
  | .stopped, _ => none
  | _, .kill => some (s.goto .stopped)
  | .byeBye, .ok => some (s.umount.goto .stopped)
  | .byeBye, .fail => some (s.goto .stopped)
  | _, .signal => some (s.goto .byeBye)
  | .compare, .ok => some (s.goto (if u.rver = u.cver then .byeBye else .dialog))
  | .compare, .fail => if u.rver = u.cver then some (s.goto .writeCfg) else none
  | .dialog, .ok => some (s.goto .writeCfg)
  | .dialog, .fail => some (s.goto .byeBye)
  | .writeCfg, .part n =>
    if u.dryrun then none else some { s with tmpCfg := (cfgText u.rver u.cver).take n }
  | .writeCfg, .ok =>
    some { s with pc := u.wgetPc u.images, tmpCfg := if u.dryrun then [] else cfgText u.rver u.cver }
  | .writeCfg, .fail => some (s.goto (u.wgetPc u.images))
  | .wget (_ :: todo), .ok => some (s.goto (u.wgetPc todo))
  | .wget _, .fail => if u.dryrun then none else some (s.goto .byeBye)
  | .onDisk d stage rest, e =>
    if u.dryrun then dryStep u s d rest stage e else stageStep u s d rest stage e
  | .finish, .ok | .finish, .fail => some (s.goto .byeBye)
  | _, _ => none

/-- The state in which the release lookup has just returned. -/
structure BootStart (s : BootState) : Prop where
  pc : s.pc = .compare
  exposed : s.exposed = none

end CargosBuildroot.Upgrade
