import CargosBuildroot.Upgrade.Effects

/-! What a dry run of the upgrade script changes. Every command behind `cmd_exe` is
skipped, but the shell opens the target of a redirection before `cmd_exe` is called,
and the exit trap unmounts `/boot` with every option. -/

namespace CargosBuildroot.Upgrade

open Shell

variable {w : World} {f : Flags} {tmpdir : Text} {I : Sys → Prop}

/-- The temporary directory and the PID file of the run. -/
def Own (w : World) (e : Effect) : Prop :=
  e = .write pidPath ∨ e = .remove pidPath ∨
    ∃ tmpdir, w.tmpdir = some tmpdir ∧ (e = .create tmpdir ∨ e = .remove tmpdir)

/-! ### Invariants of dry runs -/

/-- Properties that a dry run keeps, apart from its writing of `/tmp/grub.cfg` and from
the trap. -/
structure DryInv (w : World) (tmpdir : Text) (I : Sys → Prop) : Prop where
  status : ∀ s b, I s → I { s with status := b }
  writePid : ∀ s, I s → I (s.record (.write pidPath))
  rmTmpdir : ∀ s, I s → I (rmTmpdir w tmpdir s)
  rmPid : ∀ s, I s → I (s.record (.remove pidPath))

theorem keeps_command (h : DryInv w tmpdir I) (p : Place) {act : Sys → Sys}
    (hact : ∀ s, I s → I (act s)) : Script.Keeps I (command w p act) := by
  intro s hs
  unfold command
  split
  · exact hs
  · exact h.status _ _ (hact s hs)

theorem keeps_report (h : DryInv w tmpdir I) (p : Place) : Script.Keeps I (report w p) :=
  keeps_command h p fun _ hs => hs

theorem keeps_cmdExe (h : DryInv w tmpdir I) (hf : f.dryrun = true) (p : Place) (act : Sys → Sys) :
    Script.Keeps I (cmdExe w f p act) := by
  intro s hs
  rw [cmdExe, if_pos hf]
  split
  · exact hs
  · exact h.status s true hs

theorem keeps_exit : Script.Keeps I exit := Script.keeps_fail _

theorem keeps_orFail : Script.Keeps I orFail := by
  intro s hs
  unfold orFail
  split
  · exact hs
  · exact hs

theorem keeps_exitUnlessOk : Script.Keeps I exitUnlessOk := by
  intro s hs
  unfold exitUnlessOk
  split
  · exact hs
  · exact hs

theorem keeps_clearAndExit (h : DryInv w tmpdir I) (p : Place) :
    Script.Keeps I (clearAndExit w p) := by
  apply (keeps_report h p).andThen
  intro s hs
  beta_reduce
  split
  · exact hs
  · exact hs

theorem keeps_when {m : Command} (b : Bool) (hm : Script.Keeps I m) :
    Script.Keeps I (when b m) :=
  Script.keeps_ite hm Script.keeps_skip

theorem keeps_osRelease (h : DryInv w tmpdir I) : Script.Keeps I (osRelease w) :=
  (keeps_report h _).andThen keeps_exitUnlessOk

theorem keeps_cargosUpgrade (h : DryInv w tmpdir I) (hf : f.dryrun = true) :
    Script.Keeps I (cargosUpgrade w f) := by
  apply Script.keeps_seq
  simp only [List.forall_mem_cons]
  exact ⟨keeps_osRelease h, keeps_when _ ((keeps_report h _).andThen (keeps_clearAndExit h _)),
    keeps_report h _, keeps_exitUnlessOk, keeps_cmdExe h hf _ _, keeps_orFail, keeps_exit, by simp⟩

theorem keeps_prologue (h : DryInv w tmpdir I) (hf : f.dryrun = true) :
    Script.Keeps I (prologue w f) := by
  have hpid : Script.Keeps I (redirect w .writePid pidPath) := by
    refine keeps_command h _ fun s hs => ?_
    split
    · exact h.writePid s hs
    · exact hs
  apply Script.keeps_seq
  simp only [List.forall_mem_cons]
  exact ⟨keeps_report h _, keeps_when _ keeps_exit, hpid,
    keeps_when _ ((keeps_report h _).andThen keeps_exit),
    keeps_when _ ((keeps_osRelease h).andThen keeps_exit),
    keeps_when _ (keeps_cargosUpgrade h hf), keeps_report h _, keeps_when _ keeps_exit,
    keeps_when _ keeps_exit, keeps_report h _,
    Script.keeps_ite ((keeps_report h _).andThen (keeps_clearAndExit h _))
      ((keeps_report h _).andThen keeps_exitUnlessOk), by simp⟩

theorem keeps_download (h : DryInv w tmpdir I) (hf : f.dryrun = true) (v : Text × ℕ) :
    Script.Keeps I (download w f v) := by
  apply Script.keeps_seq
  simp only [List.forall_mem_cons]
  exact ⟨keeps_cmdExe h hf _ _, keeps_orFail, keeps_cmdExe h hf _ _, keeps_orFail, by simp⟩

theorem keeps_install (h : DryInv w tmpdir I) (hf : f.dryrun = true) (i : ℕ) (v : Text × ℕ) :
    Script.Keeps I (install w f i v) := by
  apply Script.keeps_seq
  simp only [List.forall_mem_cons]
  exact ⟨keeps_cmdExe h hf _ _, keeps_orFail, keeps_cmdExe h hf _ _, keeps_orFail, by simp⟩

theorem keeps_onDisk (h : DryInv w tmpdir I) (hf : f.dryrun = true) (v : Text × ℕ) :
    Script.Keeps I (onDisk w f v) := by
  have hcmd : ∀ p act, Script.Keeps I (cmdExe w f p act) := fun p act => keeps_cmdExe h hf p act
  apply Script.keeps_seq
  -- the test of `grub.cfg` and the clean-up have a guard of their own
  simp only [hf, Bool.not_true, Bool.false_and, List.forall_mem_cons]
  exact ⟨hcmd _ _, keeps_orFail, hcmd _ _, Script.keeps_skip, hcmd _ _, hcmd _ _, hcmd _ _,
    keeps_orFail, hcmd _ _, Script.keeps_forEach fun v _ => keeps_install h hf _ v,
    Script.keeps_skip, hcmd _ _, by simp⟩

theorem keeps_epilogue (h : DryInv w tmpdir I) (hf : f.dryrun = true) :
    Script.Keeps I (epilogue w f tmpdir) := by
  apply Script.keeps_seq
  simp only [List.forall_mem_cons]
  exact ⟨Script.keeps_forEach fun v _ => keeps_download h hf v, keeps_report h _,
    Script.keeps_forEach fun v _ => keeps_onDisk h hf v, keeps_cmdExe h hf _ _,
    keeps_command h _ h.rmTmpdir, keeps_command h _ h.rmPid, by simp⟩

/-! ### Which runs get to the configuration -/

/-- No signal arrives at one of the places. -/
def Quiet (w : World) (places : List Place) : Prop := ∀ p ∈ places, w.signal p = false

instance (w : World) (places : List Place) : Decidable (Quiet w places) :=
  List.decidableBAll _ places

/-- The run gets past the dialog: its options ask for nothing else, no PID file is
there, the tools are, and there is a new release that the user wants, or the screen
could not be cleared after the message that there is none. -/
def Proceeds (w : World) (f : Flags) : Prop :=
  (w.file pidPath = false ∧ f.seccheck = false ∧ f.check = false ∧ f.upgrade = false ∧
    w.wget = true ∧ w.grubInstall = true ∧ w.paxctl = true) ∧
  Quiet w [.pidTest, .writePid, .tools, .lookup] ∧
  if w.rver = w.cver then Quiet w [.upToDate, .upToDateClear] ∧ w.succeeds .upToDateClear = false
  else Quiet w [.ask] ∧ w.succeeds .ask = true

theorem passes_command (p : Place) (act : Sys → Sys) :
    Script.Passes (command w p act) (w.signal p = false) := by
  intro s
  unfold command
  cases w.signal p <;> simp

theorem passes_report (p : Place) : Script.Passes (report w p) (w.signal p = false) :=
  passes_command p id

theorem passes_exit : Script.Passes exit False := Script.passes_fail _

/-- A condition under which the script ends. -/
theorem passes_when {m : Command} (b : Bool) (hm : Script.Passes m False) :
    Script.Passes (when b m) (b = false) := by
  refine (Script.passes_ite hm Script.passes_skip).congr ?_
  cases b <;> simp

theorem passes_ask : Script.Passes ((report w .ask).andThen exitUnlessOk)
    (w.signal .ask = false ∧ w.succeeds .ask = true) := by
  intro s
  cases hsignal : w.signal .ask <;> cases hok : w.succeeds .ask <;>
    simp [Script.andThen, report, command, exitUnlessOk, exit, hsignal, hok]

theorem passes_clearAndExit (p : Place) : Script.Passes (clearAndExit w p)
    (w.signal p = false ∧ w.succeeds p = false) := by
  intro s
  cases hsignal : w.signal p <;> cases hok : w.succeeds p <;>
    simp [clearAndExit, Script.andThen, report, command, exit, hsignal, hok]

theorem passes_cargosUpgrade : Script.Passes (cargosUpgrade w f) False := by
  intro s
  simp only [cargosUpgrade, Script.seq, Script.andThen_ok]
  constructor
  · rintro ⟨_, _, -, _, -, _, -, _, -, _, -, _, -, _, h, -⟩
    cases h
  · exact False.elim

theorem passes_then_exit {m : Command} : Script.Passes (m.andThen exit) False := by
  intro s
  simp only [Script.andThen_ok]
  constructor
  · rintro ⟨_, _, -, h⟩
    cases h
  · exact False.elim

theorem passes_prologue : Script.Passes (prologue w f) (Proceeds w f) := by
  have hsame := (passes_report (w := w) .upToDate).andThen (passes_clearAndExit (w := w) .upToDateClear)
  have hend := Script.passes_ite (c := w.rver = w.cver) hsame (passes_ask (w := w))
  refine ((passes_command _ _).andThen <| (passes_when _ passes_exit).andThen <|
    (passes_command _ _).andThen <| (passes_when _ passes_then_exit).andThen <|
    (passes_when _ passes_then_exit).andThen <| (passes_when _ passes_cargosUpgrade).andThen <|
    (passes_command _ _).andThen <| (passes_when _ passes_exit).andThen <|
    (passes_when _ passes_exit).andThen <| (passes_command _ _).andThen <|
    hend.andThen Script.passes_skip).congr ?_
  unfold Proceeds Quiet
  split <;> simp <;> tauto

/-! ### The changes of a dry run -/

/-- What keeps a dry run from changing anything but its own files: when the trap is
set, the name of the temporary directory is one word or its parts name nothing,
nothing is mounted on `/boot`, and the run does not come to the redirection to
`/tmp/grub.cfg` or cannot open it. -/
def Spared (w : World) : Prop :=
  ∀ tmpdir, w.root = true → w.tmpdir = some tmpdir → w.signal .arch = false →
    (∀ p ∈ words tmpdir, Own w (.remove p) ∨ w.file p = false) ∧ w.boot = 0 ∧
      ∀ f, getopts w.args {} = some f → Proceeds w f → Quiet w [.clear, .openCfg] →
        w.succeeds .openCfg = false

theorem foldl_record {α : Type*} (g : α → Effect) (l : List α) (s : Sys) :
    l.foldl (fun s a => s.record (g a)) s = { s with effects := s.effects ++ l.map g } := by
  induction l generalizing s with
  | nil => simp
  | cons a l ih =>
    rw [List.foldl_cons, ih]
    simp [Sys.record]

/-- The paths that `rm -rf ${_TMPDIR}` removes. -/
def removed (w : World) (tmpdir : Text) : List Text :=
  (words tmpdir).filter fun p => p = tmpdir || w.file p

theorem rmTmpdir_eq (s : Sys) : rmTmpdir w tmpdir s =
    { s with effects := s.effects ++ (removed w tmpdir).map .remove } :=
  foldl_record _ _ _

/-- The mounts stay and every change satisfies `P`. -/
def Limited (w : World) (P : Effect → Prop) (s : Sys) : Prop :=
  s.boot = w.boot ∧ ∀ e ∈ s.effects, P e

theorem limited_record {P : Effect → Prop} {s : Sys} {e : Effect} (hs : Limited w P s) (he : P e) :
    Limited w P (s.record e) := by
  refine ⟨hs.1, fun e' he' => ?_⟩
  rcases List.mem_append.mp he' with he' | he'
  · exact hs.2 e' he'
  · exact List.mem_singleton.mp he' ▸ he

theorem dryInv_limited {P : Effect → Prop} (hwrite : P (.write pidPath))
    (hpid : P (.remove pidPath)) (hrm : ∀ p ∈ removed w tmpdir, P (.remove p)) :
    DryInv w tmpdir (Limited w P) where
  status _ _ hs := hs
  writePid _ hs := limited_record hs hwrite
  rmPid _ hs := limited_record hs hpid
  rmTmpdir s hs := by
    rw [rmTmpdir_eq]
    refine ⟨hs.1, fun e he => ?_⟩
    rcases List.mem_append.mp he with he | he
    · exact hs.2 e he
    · obtain ⟨p, hp, rfl⟩ := List.mem_map.mp he
      exact hrm p hp

/-- A change that has been made stays in the list. -/
theorem dryInv_mem (e : Effect) : DryInv w tmpdir (e ∈ ·.effects) where
  status _ _ hs := hs
  writePid _ hs := List.mem_append_left _ hs
  rmPid _ hs := List.mem_append_left _ hs
  rmTmpdir s hs := by
    rw [rmTmpdir_eq]
    exact List.mem_append_left _ hs

theorem byeBye_eq (s : Sys) : byeBye w tmpdir s =
    { s with
      boot := s.boot - 1
      effects := s.effects ++ ((if s.boot = 0 then [] else [.umount]) ++
        (removed w tmpdir).map .remove ++ [.remove pidPath]) } := by
  unfold byeBye umountBoot
  rw [rmTmpdir_eq]
  by_cases hb : s.boot = 0 <;> simp [hb, Sys.record]

/-- The changes of the trap. -/
theorem leave_mem {e : Effect} (x : Exit Ending Sys)
    (he : e ∈ x.state.effects ∨ e ∈ (removed w tmpdir).map .remove ∨
      x.state.boot ≠ 0 ∧ e = .umount) : e ∈ (leave w tmpdir x).effects := by
  have hbye : e ∈ (byeBye w tmpdir x.state).effects := by
    rw [byeBye_eq]
    simp only [List.mem_append]
    rcases he with he | he | ⟨hb, rfl⟩
    · exact .inl he
    · exact .inr (.inl (.inr he))
    · exact .inr (.inl (.inl (by simp [hb])))
  match x with
  | .ok s | .fail .exit s => exact hbye
  | .fail .signal s =>
    rw [leave, byeBye_eq]
    exact List.mem_append_left _ hbye

theorem byeBye_limited {P : Effect → Prop} (hpid : P (.remove pidPath))
    (hrm : ∀ p ∈ removed w tmpdir, P (.remove p)) (hboot : w.boot = 0) {s : Sys}
    (hs : Limited w P s) : Limited w P (byeBye w tmpdir s) := by
  have hb : s.boot = 0 := hs.1.trans hboot
  rw [byeBye_eq]
  refine ⟨by simp [hb, hboot], fun e he => ?_⟩
  simp only [hb, if_true, List.nil_append, List.mem_append, List.mem_map, List.mem_singleton] at he
  rcases he with he | ⟨p, hp, rfl⟩ | rfl
  · exact hs.2 e he
  · exact hrm p hp
  · exact hpid

theorem keeps_main (h : DryInv w tmpdir I) (hopt : getopts w.args {} = some f)
    (hf : f.dryrun = true)
    (hcfg : Proceeds w f → Quiet w [.clear, .openCfg] → w.succeeds .openCfg = true →
      ∀ s, I s → I (s.record (.write cfgPath))) : Script.Keeps I (main w tmpdir) := by
  have hmain : main w tmpdir =
      Script.seq [prologue w f, report w .clear, writeCfg w, epilogue w f tmpdir] := by
    simp only [main, hopt]
  rw [hmain, Script.seq, Script.seq]
  by_cases hp : Proceeds w f
  · apply (keeps_prologue h hf).andThen
    by_cases hc : w.signal .clear = false
    · apply (keeps_report h _).andThen
      refine Script.Keeps.andThen ?_ ((keeps_epilogue h hf).andThen Script.keeps_skip)
      intro s hs
      unfold writeCfg redirect command
      split
      · exact hs
      · next hsig =>
        split
        · next hok => exact h.status _ _ (hcfg hp (by simp [Quiet, hc, hsig]) hok s hs)
        · exact h.status _ _ hs
    · rw [(passes_report _).andThen_eq hc]
      exact keeps_report h _
  · rw [passes_prologue.andThen_eq hp]
    exact keeps_prologue h hf

theorem writeCfg_mem (hopt : getopts w.args {} = some f) (hf : f.dryrun = true)
    (hp : Proceeds w f) (hq : Quiet w [.clear, .openCfg]) (hok : w.succeeds .openCfg = true)
    (s : Sys) : .write cfgPath ∈ (main w tmpdir s).state.effects := by
  obtain ⟨t, ht⟩ := (passes_prologue s).mpr hp
  have hclear : w.signal .clear = false := hq _ (by simp)
  have hopen : w.signal .openCfg = false := hq _ (by simp)
  simp only [main, hopt, Script.seq, Script.andThen, ht, report, writeCfg, redirect, command, hclear,
    hopen, hok, if_true, Bool.false_eq_true, if_false]
  have hinv : DryInv w tmpdir (.write cfgPath ∈ ·.effects) := dryInv_mem _
  have hepilogue := (keeps_epilogue hinv hf).andThen Script.keeps_skip
  exact hepilogue _ (List.mem_append_right _ (.head _))

theorem not_own_umount : ¬ Own w .umount := by
  rintro (h | h | ⟨_, _, h | h⟩) <;> cases h

theorem not_own_cfg : ¬ Own w (.write cfgPath) := by
  rintro (h | h | ⟨_, _, h | h⟩)
  · exact absurd (Effect.write.inj h) (by decide)
  all_goals cases h

/-- The state after `mktemp -d`. -/
def World.start (w : World) (tmpdir : Text) : Sys := ⟨w.boot, true, [.create tmpdir]⟩

/-- What the script does before the trap, for changes that it is allowed. -/
theorem main_limited {P : Effect → Prop} (hdry : ∀ f, getopts w.args {} = some f → f.dryrun = true)
    (hcreate : P (.create tmpdir)) (hwrite : P (.write pidPath)) (hpid : P (.remove pidPath))
    (hrm : ∀ p ∈ removed w tmpdir, P (.remove p))
    (hcfg : ∀ f, getopts w.args {} = some f → Proceeds w f → Quiet w [.clear, .openCfg] →
      w.succeeds .openCfg = true → P (.write cfgPath)) :
    Limited w P (main w tmpdir (w.start tmpdir)).state := by
  have hstart : Limited w P (w.start tmpdir) :=
    ⟨rfl, fun e he => List.mem_singleton.mp he ▸ hcreate⟩
  cases hopt : getopts w.args {} with
  | none =>
    simp only [main, hopt]
    exact hstart
  | some f =>
    exact keeps_main (dryInv_limited hwrite hpid hrm) hopt (hdry f hopt)
      (fun hp hq hok _ hs => limited_record hs (hcfg f hopt hp hq hok)) _ hstart

/-- A run ends in one or two calls of `bye_bye`. -/
theorem leave_limited {P : Effect → Prop}
    (hbye : ∀ s, Limited w P s → Limited w P (byeBye w tmpdir s)) {x : Exit Ending Sys}
    (hx : Limited w P x.state) : Limited w P (leave w tmpdir x) := by
  cases x with
  | ok s => exact hbye s hx
  | fail ending s =>
    cases ending with
    | exit => exact hbye s hx
    | signal => exact hbye _ (hbye s hx)

theorem spared_of_own (hdry : ∀ f, getopts w.args {} = some f → f.dryrun = true)
    (hall : ∀ e ∈ effects w, Own w e) : Spared w := by
  intro tmpdir hroot ht harch
  have heffects : effects w = (leave w tmpdir (main w tmpdir (w.start tmpdir))).effects := by
    simp [effects, hroot, ht, harch, World.start]
  rw [heffects] at hall
  refine ⟨fun p hp => ?_, ?_, fun f hopt hp hq => ?_⟩
  · cases hfile : w.file p with
    | false => exact .inr rfl
    | true =>
      have hmem : p ∈ removed w tmpdir := List.mem_filter.mpr ⟨hp, by simp [hfile]⟩
      exact .inl (hall _ (leave_mem _ (.inr (.inl (List.mem_map_of_mem hmem)))))
  · by_contra hb
    have hmain : Limited w (fun _ => True) (main w tmpdir (w.start tmpdir)).state :=
      main_limited hdry trivial trivial trivial (fun _ _ => trivial) (fun _ _ _ _ _ => trivial)
    rw [← hmain.1] at hb
    exact not_own_umount (hall _ (leave_mem _ (.inr (.inr ⟨hb, rfl⟩))))
  · by_contra hok
    have hmem : .write cfgPath ∈ (main w tmpdir (w.start tmpdir)).state.effects :=
      writeCfg_mem hopt (hdry f hopt) hp hq (by simpa using hok) _
    exact not_own_cfg (hall _ (leave_mem _ (.inl hmem)))

theorem Spared.leave_limited (hspared : Spared w)
    (hdry : ∀ f, getopts w.args {} = some f → f.dryrun = true) (hroot : w.root = true)
    (ht : w.tmpdir = some tmpdir) (harch : w.signal .arch = false) :
    Limited w (Own w) (leave w tmpdir (main w tmpdir (w.start tmpdir))) := by
  obtain ⟨hwords, hboot, hcfg⟩ := hspared tmpdir hroot ht harch
  have hcreate : Own w (.create tmpdir) := .inr (.inr ⟨tmpdir, ht, .inl rfl⟩)
  have hpid : Own w (.remove pidPath) := .inr (.inl rfl)
  have hrm : ∀ p ∈ removed w tmpdir, Own w (.remove p) := by
    intro p hp
    obtain ⟨hp, hor⟩ := List.mem_filter.mp hp
    rcases hwords p hp with h | hfile
    · exact h
    · have heq : p = tmpdir := by simpa [hfile] using hor
      exact .inr (.inr ⟨tmpdir, ht, .inr (heq ▸ rfl)⟩)
  refine Upgrade.leave_limited (fun s hs => byeBye_limited hpid hrm hboot hs) ?_
  exact main_limited hdry hcreate (.inl rfl) hpid hrm
    fun f hopt hp hq hok => absurd (hcfg f hopt hp hq) (by simp [hok])

/-- A dry run changes nothing but its temporary directory and its PID file if and only
if it is spared the redirection and has nothing to unmount. -/
theorem dryRun_harmless_iff (w : World)
    (hdry : ∀ f, getopts w.args {} = some f → f.dryrun = true) :
    (∀ e ∈ effects w, Own w e) ↔ Spared w := by
  refine ⟨spared_of_own hdry, fun hspared e he => ?_⟩
  unfold effects at he
  split at he
  · next hroot =>
    split at he
    · cases he
    · next tmpdir ht =>
      split at he
      · exact List.mem_singleton.mp he ▸ .inr (.inr ⟨tmpdir, ht, .inl rfl⟩)
      · next harch => exact (hspared.leave_limited hdry hroot ht (by simpa using harch)).2 e he
  · cases he

/-- One disk, with nothing mounted on `/boot`; every command succeeds. -/
def sampleWorld (rver : Text) : World where
  tmpdir := some "/tmp/tmp.x".toList
  args := ["-n".toList]
  file := fun _ => false
  version := "2017.01".toList
  cver := "2017.01".toList
  rver := rver
  volumes := ["/dev/sda2".toList]
  boot := 0
  succeeds := fun _ => true
  signal := fun _ => false

theorem sampleWorld_dry (rver : Text) (f : Flags)
    (h : getopts (sampleWorld rver).args {} = some f) : f.dryrun = true := by
  cases h
  rfl

/-- A dry run that finds no new release. -/
theorem dryRun_upToDate : Spared (sampleWorld "2017.01".toList) ∧
    ∀ e ∈ effects (sampleWorld "2017.01".toList), Own (sampleWorld "2017.01".toList) e := by
  have hspared : Spared (sampleWorld "2017.01".toList) := by
    intro tmpdir _ ht _
    obtain rfl : "/tmp/tmp.x".toList = tmpdir := Option.some.inj ht
    refine ⟨fun p hp => .inr rfl, rfl, fun f _ hp _ => ?_⟩
    -- the run ends when the screen has been cleared
    have hend := hp.2.2
    rw [if_pos (by rfl)] at hend
    exact hend.2
  exact ⟨hspared, (dryRun_harmless_iff _ (sampleWorld_dry _)).mpr hspared⟩

/-- A dry run that finds a new release writes `/tmp/grub.cfg`. -/
theorem dryRun_writes_cfg : ∃ w : World,
    (∀ f, getopts w.args {} = some f → f.dryrun = true) ∧ ¬ ∀ e ∈ effects w, Own w e := by
  refine ⟨sampleWorld "2017.02".toList, sampleWorld_dry _, fun h => ?_⟩
  have hproceeds : Proceeds (sampleWorld "2017.02".toList) { dryrun := true } := by
    refine ⟨by decide, fun _ _ => rfl, ?_⟩
    rw [if_neg (by decide)]
    exact ⟨fun _ _ => rfl, rfl⟩
  let w := sampleWorld "2017.02".toList
  have hmem : .write cfgPath ∈
      (main w "/tmp/tmp.x".toList (w.start "/tmp/tmp.x".toList)).state.effects :=
    writeCfg_mem (by rfl) rfl hproceeds (fun _ _ => rfl) rfl _
  exact not_own_cfg (h _ (leave_mem _ (.inl hmem)))

end CargosBuildroot.Upgrade
