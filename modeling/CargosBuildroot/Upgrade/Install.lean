import CargosBuildroot.Upgrade.Boot

/-! What a run of the upgrade script leaves bootable. The new configuration is
copied to a disk before the images it names, so the disk is exposed from the
start of the first copy to the end of the last one, and stays so when the run
ends in between. Every other disk is bootable at every point, for releases that
are plain words and as long as the two writes of the configuration that the
script does not check succeed. -/

namespace CargosBuildroot.Upgrade

open Shell Transition

/-! ### The files named by the generated configuration -/

/-- A release string of letters, digits, dots, dashes and underscores. -/
def PlainVersion (v : Text) : Prop :=
  v ≠ [] ∧ ∀ c ∈ v, c.isAlphanum = true ∨ c = '.' ∨ c = '-' ∨ c = '_'

instance (v : Text) : Decidable (PlainVersion v) :=
  @instDecidableAnd _ _ inferInstance (List.decidableBAll _ v)

theorem PlainVersion.not_space {v : Text} (h : PlainVersion v) : ∀ c ∈ v, isSpace c = false := by
  intro c hc
  by_contra hs
  simp only [isSpace, Bool.or_eq_true, decide_eq_true_eq, Bool.not_eq_false] at hs
  rcases hs with (rfl | rfl) | rfl <;> simpa using h.2 _ hc

theorem PlainVersion.words {v : Text} (h : PlainVersion v) : words v = [v] :=
  words_of_word h.1 h.not_space

theorem PlainVersion.no_newline {v : Text} (h : PlainVersion v) : '\n' ∉ v := by
  intro hc
  simpa [isSpace] using h.not_space _ hc

variable {u : Params}

theorem Params.images_plain (hr : PlainVersion u.rver) (hc : PlainVersion u.cver) :
    u.images = ["rootfs.squashfs-noinst-".toList ++ u.rver, "bzImage-".toList ++ u.rver,
      "rootfs.squashfs-noinst-".toList ++ u.cver, "bzImage-".toList ++ u.cver] := by
  simp [Params.images, hr.words, hc.words]

/-- The path of a file of the release `v`, as grub reads it. -/
theorem path_plain {v : Text} (h : PlainVersion v) (file : Text)
    (hf : ∀ c ∈ file, isSpace c = false) :
    ('/' :: (file ++ v)) ≠ [] ∧ ∀ c ∈ '/' :: (file ++ v), isSpace c = false := by
  refine ⟨List.cons_ne_nil _ _, fun c hc => ?_⟩
  rcases List.mem_cons.mp hc with rfl | hc
  · rfl
  · rcases List.mem_append.mp hc with hc | hc
    · exact hf c hc
    · exact h.not_space c hc

theorem loads_linux {v : Text} (h : PlainVersion v) (rest : Text) :
    loads ("    linux    /bzImage-".toList ++ v ++ ' ' :: rest) = ["bzImage-".toList ++ v] := by
  obtain ⟨hne, hw⟩ := path_plain h "bzImage-".toList (no_space rfl)
  have hline : "    linux    /bzImage-".toList ++ v ++ ' ' :: rest =
      "    linux   ".toList ++ ' ' :: ('/' :: ("bzImage-".toList ++ v) ++ ' ' :: rest) := by
    simp
  have hcmd : words "    linux   ".toList = ["linux".toList] := by decide
  rw [loads, hline, words_append_space _ _ rfl, hcmd, words_word_space rest hne hw rfl]
  simp

theorem loads_initrd {v : Text} (h : PlainVersion v) :
    loads ("    initrd   /rootfs.squashfs-noinst-".toList ++ v) =
      ["rootfs.squashfs-noinst-".toList ++ v] := by
  obtain ⟨hne, hw⟩ := path_plain h "rootfs.squashfs-noinst-".toList (no_space rfl)
  have hline : "    initrd   /rootfs.squashfs-noinst-".toList ++ v =
      "    initrd  ".toList ++ ' ' :: ('/' :: ("rootfs.squashfs-noinst-".toList ++ v)) := by
    simp
  have hcmd : words "    initrd  ".toList = ["initrd".toList] := by decide
  rw [loads, hline, words_append_space _ _ rfl, hcmd, words_of_word hne hw]
  simp

theorem lines_cfgText {r c : Text} (hr : '\n' ∉ r) (hc : '\n' ∉ c) :
    lines (cfgText r c) = cfgLines r c ++ [[]] := by
  have h := lines_unlines_append (cfgLines r c) [] ?_ List.not_mem_nil
  · simpa [cfgText] using h
  · simp [cfgLines, menuEntry, entryLines, hr, hc]

/-- A line with another command than `linux` and `initrd` loads nothing. -/
theorem loads_other {cmd : Text} (rest : Text) (hne : cmd ≠ [])
    (hw : ∀ c ∈ cmd, isSpace c = false) (hl : cmd ≠ "linux".toList) (hi : cmd ≠ "initrd".toList) :
    loads (cmd ++ ' ' :: rest) = [] := by
  rw [loads, words_word_space rest hne hw rfl]
  cases words rest with
  | nil => rfl
  | cons file more => simp only [if_neg hl, if_neg hi]

theorem loads_menuEntry {v : Text} (h : PlainVersion v) (title args : Text)
    (hargs : args = [] ∨ ∃ more, args = ' ' :: more) :
    (menuEntry v title args).flatMap loads =
      ["bzImage-".toList ++ v, "rootfs.squashfs-noinst-".toList ++ v] := by
  have htitle : loads ("menuentry 'CargOS-".toList ++ v ++ title ++ "' \x7b".toList) = [] := by
    have hcmd : loads ("menuentry".toList ++ ' ' :: ("'CargOS-".toList ++ v ++ title ++ "' \x7b".toList)) =
        [] := loads_other _ (by decide) (no_space rfl) (by decide) (by decide)
    simpa using hcmd
  have hlinux : loads ("    linux    /bzImage-".toList ++ v ++ args ++
      " root=/dev/ram0 ramdisk_size=131072 quiet".toList) = ["bzImage-".toList ++ v] := by
    rcases hargs with rfl | ⟨more, rfl⟩
    · have := loads_linux h "root=/dev/ram0 ramdisk_size=131072 quiet".toList
      simpa using this
    · have := loads_linux h (more ++ " root=/dev/ram0 ramdisk_size=131072 quiet".toList)
      simpa using this
  have hbackground : loads "    set background_color=black".toList = [] := by decide
  have hend : loads "\x7d".toList = [] := by decide
  simp only [menuEntry, entryLines, List.flatMap_cons, List.flatMap_nil, htitle, hlinux,
    loads_initrd h, hbackground, hend, List.nil_append, List.append_nil, List.cons_append]

/-- The generated configuration names no file that is not copied. -/
theorem named_cfgText (hr : PlainVersion u.rver) (hc : PlainVersion u.cver) {f : Text}
    (hf : f ∈ named (cfgText u.rver u.cver)) : f ∈ u.images := by
  have hhead : (["set menu_color_normal=cyan/blue".toList,
      "set menu_color_highlight=white/blue".toList, "set timeout=10".toList, []] :
      List Text).flatMap loads = [] := by decide
  have hserial : " console=ttyS0".toList = ' ' :: "console=ttyS0".toList := by decide
  have hlast : ([[]] : List Text).flatMap loads = [] := rfl
  rw [named, lines_cfgText hr.no_newline hc.no_newline, List.flatMap_append, cfgLines] at hf
  simp only [List.flatMap_append, hhead, loads_menuEntry hr _ _ (.inl rfl),
    loads_menuEntry hc _ _ (.inl rfl), loads_menuEntry hr _ _ (.inr ⟨_, hserial⟩),
    loads_menuEntry hc _ _ (.inr ⟨_, hserial⟩)] at hf
  rw [hlast] at hf
  rw [u.images_plain hr hc]
  generalize "bzImage-".toList ++ u.rver = rescueKernel, "bzImage-".toList ++ u.cver = kernel,
    "rootfs.squashfs-noinst-".toList ++ u.rver = rescueRoot,
    "rootfs.squashfs-noinst-".toList ++ u.cver = root at hf ⊢
  simp only [List.mem_append, List.mem_cons, List.not_mem_nil, or_false, false_or] at hf ⊢
  tauto

/-! ### The partition on `/boot` -/

section OnBoot

variable (s : BootState) (g : Partition → Partition)

theorem onBoot_disk (d : Text) :
    (s.onBoot g).disk d = if s.mounts.head? = some d then g (s.disk d) else s.disk d := by
  unfold BootState.onBoot
  cases hm : s.mounts with
  | nil => simp
  | cons m ms => by_cases hd : d = m <;> simp [hd, eq_comm]

@[simp] theorem onBoot_mounts : (s.onBoot g).mounts = s.mounts := by
  unfold BootState.onBoot
  split <;> rfl

@[simp] theorem onBoot_pc : (s.onBoot g).pc = s.pc := by
  unfold BootState.onBoot
  split <;> rfl

@[simp] theorem onBoot_tmpCfg : (s.onBoot g).tmpCfg = s.tmpCfg := by
  unfold BootState.onBoot
  split <;> rfl

@[simp] theorem onBoot_exposed : (s.onBoot g).exposed = s.exposed := by
  unfold BootState.onBoot
  split <;> rfl

end OnBoot

/-- The new configuration is on the partition, and the images but for those in
`todo`. -/
def Params.Copied (u : Params) (todo : List Text) (b : Partition) : Prop :=
  b.cfg = some (cfgText u.rver u.cver) ∧ ∀ f ∈ u.images, f ∉ todo → b.image f = .complete

theorem Params.Copied.bootable {b : Partition} (hr : PlainVersion u.rver)
    (hc : PlainVersion u.cver) (h : u.Copied [] b) : b.Bootable := by
  intro cfg hcfg f hf
  obtain rfl : cfgText u.rver u.cver = cfg := Option.some.inj (h.1.symm.trans hcfg)
  exact h.2 f (named_cfgText hr hc hf) List.not_mem_nil

theorem Params.Copied.start {b : Partition} {f : Text} {todo : List Text}
    (h : u.Copied (f :: todo) b) : u.Copied (f :: todo) (b.setImage f .truncated) := by
  refine ⟨h.1, fun f' hf' hnot => ?_⟩
  have hne : f' ≠ f := fun heq => hnot (heq ▸ List.mem_cons_self)
  simpa [Partition.setImage, hne] using h.2 f' hf' hnot

theorem Params.Copied.complete {b : Partition} {f : Text} {todo : List Text}
    (h : u.Copied (f :: todo) b) : u.Copied todo (b.setImage f .complete) := by
  refine ⟨h.1, fun f' hf' hnot => ?_⟩
  by_cases heq : f' = f
  · simp [Partition.setImage, heq]
  · have := h.2 f' hf' (by simp [heq, hnot])
    simpa [Partition.setImage, heq] using this

/-- The clean-up removes no image of the two releases. -/
theorem Params.Copied.remove {b : Partition} {f : Text} (hr : PlainVersion u.rver)
    (hc : PlainVersion u.cver) (h : u.Copied [] b) (hf : u.old f) :
    u.Copied [] (b.setImage f .absent) := by
  refine ⟨h.1, fun f' hf' hnot => ?_⟩
  have hne : f' ≠ f := by
    rintro rfl
    rw [u.images_plain hr hc] at hf'
    obtain ⟨hcv, hrv⟩ := hf
    simp only [List.mem_cons, List.not_mem_nil, or_false] at hf'
    rcases hf' with rfl | rfl | rfl | rfl
    · exact hrv (List.suffix_append _ _).isInfix
    · exact hrv (List.suffix_append _ _).isInfix
    · exact hcv (List.suffix_append _ _).isInfix
    · exact hcv (List.suffix_append _ _).isInfix
  simpa [Partition.setImage, hne] using h.2 f' hf' hnot

/-! ### The runs -/

/-- What holds of the configuration and of the partition on `/boot` before the
next command; in the exit trap and after it nothing is known. -/
def Params.AtPc (u : Params) (s : BootState) : Prop :=
  match s.pc with
  | .compare | .dialog | .writeCfg => s.exposed = none
  | .byeBye | .stopped => True
  | .onDisk _ .cpCfg _ =>
    s.tmpCfg = cfgText u.rver u.cver ∧ ∀ d, s.exposed = some d → s.mounts.head? = some d
  | .onDisk _ (.cpImages todo) _ =>
    s.tmpCfg = cfgText u.rver u.cver ∧ s.exposed = s.mounts.head? ∧ todo ≠ [] ∧
      ∀ d, s.mounts.head? = some d → u.Copied todo (s.disk d)
  | .onDisk _ .cleanup _ =>
    s.tmpCfg = cfgText u.rver u.cver ∧ s.exposed = none ∧
      ∀ d, s.mounts.head? = some d → u.Copied [] (s.disk d)
  | _ => s.tmpCfg = cfgText u.rver u.cver ∧ s.exposed = none

/-- Every disk but the exposed one is bootable. -/
structure Params.Safe (u : Params) (s : BootState) : Prop where
  bootable : ∀ d, s.exposed ≠ some d → (s.disk d).Bootable
  at_pc : u.AtPc s

/-- The two writes of the configuration, which the script does not check, succeed. -/
def ConfigWritten (s : BootState) (e : BootEvent) : Prop :=
  match s.pc with
  | .writeCfg | .onDisk _ .cpCfg _ => e ≠ .fail
  | _ => True

instance (s : BootState) (e : BootEvent) : Decidable (ConfigWritten s e) := by
  unfold ConfigWritten; split <;> infer_instance

theorem Params.Safe.keep {s t : BootState} (hs : u.Safe s) (hdisk : t.disk = s.disk)
    (hexp : t.exposed = s.exposed) (hat : u.AtPc t) : u.Safe t :=
  ⟨by simpa only [hdisk, hexp] using hs.bootable, hat⟩

/-- A step that changes the partition on `/boot` while it is exposed, or leaves it
bootable. -/
theorem Params.Safe.onBoot {s t : BootState} {g : Partition → Partition} (hs : u.Safe s)
    (hexp : ∀ d, s.exposed = some d → s.mounts.head? = some d)
    (hdisk : t.disk = (s.onBoot g).disk)
    (htop : ∀ d, s.mounts.head? = some d → t.exposed = some d ∨ (g (s.disk d)).Bootable)
    (hat : u.AtPc t) : u.Safe t := by
  refine ⟨fun d hd => ?_, hat⟩
  rw [hdisk, onBoot_disk]
  by_cases hm : s.mounts.head? = some d
  · rw [if_pos hm]
    exact (htop d hm).resolve_left hd
  · rw [if_neg hm]
    exact hs.bootable d fun he => hm (hexp d he)

/-- The next disk, the next download and the end of the loops start with no disk
exposed. -/
theorem atPc_diskPc {s : BootState} (rest : List Text) (hpc : s.pc = diskPc rest)
    (htmp : s.tmpCfg = cfgText u.rver u.cver) (hexp : s.exposed = none) : u.AtPc s := by
  cases rest <;> simp [Params.AtPc, hpc, diskPc, htmp, hexp]

theorem atPc_wgetPc {s : BootState} (todo : List Text) (hpc : s.pc = u.wgetPc todo)
    (htmp : s.tmpCfg = cfgText u.rver u.cver) (hexp : s.exposed = none) : u.AtPc s := by
  cases todo with
  | nil => exact atPc_diskPc u.disks hpc htmp hexp
  | cons f todo => simp [Params.AtPc, hpc, Params.wgetPc, htmp, hexp]

section Stages

variable {s t : BootState} {d : Text} {rest : List Text} {e : BootEvent}

/-- The copy of `grub.cfg` exposes the disk until the images it names are there. -/
theorem cpCfg_safe (hne : u.images ≠ []) (hs : u.Safe s) (hpc : s.pc = .onDisk d .cpCfg rest)
    (he : ConfigWritten s e) (h : stageStep u s d rest .cpCfg e = some t) : u.Safe t := by
  have hat := hs.at_pc
  simp only [Params.AtPc, hpc, ConfigWritten] at hat he
  obtain ⟨htmp, hexp⟩ := hat
  cases e <;> simp only [stageStep, Option.some.injEq, reduceCtorEq] at h <;> subst h
  case ok =>
    have hcopy : copyStage u.images = .cpImages u.images := by simp [copyStage]
    have hwin : exposedBy u.images s.mounts = s.mounts.head? := if_neg hne
    refine hs.onBoot hexp rfl (fun d hd => .inl (hwin.trans hd)) ?_
    simp only [Params.AtPc, hcopy, hwin, onBoot_tmpCfg, onBoot_mounts]
    refine ⟨htmp, trivial, hne, fun d hd => ⟨?_, fun f hf hnot => absurd hf hnot⟩⟩
    simp only [onBoot_disk, if_pos hd, htmp]
  case fail => exact absurd rfl he
  case part n =>
    refine hs.onBoot hexp rfl (fun d hd => .inl hd) ?_
    simp [Params.AtPc, hpc, htmp]

/-- The copy of the last image ends the exposure. -/
theorem cpImages_safe {todo : List Text} (hr : PlainVersion u.rver) (hc : PlainVersion u.cver)
    (hs : u.Safe s) (hpc : s.pc = .onDisk d (.cpImages todo) rest)
    (h : stageStep u s d rest (.cpImages todo) e = some t) : u.Safe t := by
  have hat := hs.at_pc
  simp only [Params.AtPc, hpc] at hat
  obtain ⟨htmp, hexp, htodo, hcop⟩ := hat
  have hexp' : ∀ d, s.exposed = some d → s.mounts.head? = some d := fun d hd => hexp ▸ hd
  cases e <;> simp only [stageStep, Option.some.injEq, reduceCtorEq] at h
  case fail =>
    subst h
    exact hs.keep rfl rfl trivial
  all_goals obtain ⟨f, todo, rfl⟩ := List.exists_cons_of_ne_nil htodo
  all_goals simp only [Option.some.injEq] at h
  all_goals subst h
  case ok =>
    have htop : ∀ d, s.mounts.head? = some d →
        u.Copied todo ((s.disk d).setImage f .complete) := fun d hd => (hcop d hd).complete
    cases todo with
    | nil =>
      refine hs.onBoot hexp' rfl (fun d hd => .inr ((htop d hd).bootable hr hc)) ?_
      refine ⟨by simpa using htmp, rfl, fun d hd => ?_⟩
      simp only [onBoot_mounts] at hd
      simpa only [onBoot_disk, if_pos hd] using htop d hd
    | cons f' todo =>
      refine hs.onBoot hexp' rfl (fun d hd => .inl hd) ?_
      refine ⟨by simpa using htmp, by simp [exposedBy], List.cons_ne_nil _ _, fun d hd => ?_⟩
      simp only [onBoot_mounts] at hd
      simpa only [onBoot_disk, if_pos hd] using htop d hd
  case start =>
    refine hs.onBoot hexp' rfl (fun d hd => .inl (by simpa [hexp] using hd)) ?_
    simp only [Params.AtPc, onBoot_pc, hpc, onBoot_tmpCfg, onBoot_exposed, onBoot_mounts]
    refine ⟨htmp, hexp, htodo, fun d hd => ?_⟩
    simpa only [onBoot_disk, if_pos hd] using (hcop d hd).start

/-- Only images that the configuration does not name are removed. -/
theorem cleanup_safe (hr : PlainVersion u.rver) (hc : PlainVersion u.cver) (hs : u.Safe s)
    (hpc : s.pc = .onDisk d .cleanup rest) (h : stageStep u s d rest .cleanup e = some t) :
    u.Safe t := by
  have hat := hs.at_pc
  simp only [Params.AtPc, hpc] at hat
  obtain ⟨htmp, hexp, hcop⟩ := hat
  cases e <;> simp only [stageStep, Option.some.injEq, reduceCtorEq] at h
  case ok | fail =>
    subst h
    exact hs.keep rfl rfl ⟨htmp, hexp⟩
  case remove f =>
    split_ifs at h with hold
    obtain rfl := Option.some.inj h
    have htop : ∀ d, s.mounts.head? = some d →
        u.Copied [] ((s.disk d).setImage f .absent) :=
      fun d hd => (hcop d hd).remove hr hc hold
    refine hs.onBoot (by simp [hexp]) rfl (fun d hd => .inr ((htop d hd).bootable hr hc)) ?_
    simp only [Params.AtPc, onBoot_pc, hpc, onBoot_tmpCfg, onBoot_exposed, onBoot_mounts]
    refine ⟨htmp, hexp, fun d hd => ?_⟩
    simpa only [onBoot_disk, if_pos hd] using htop d hd

theorem stageStep_safe {stage : Stage} (hr : PlainVersion u.rver) (hc : PlainVersion u.cver)
    (hs : u.Safe s) (hpc : s.pc = .onDisk d stage rest) (he : ConfigWritten s e)
    (h : stageStep u s d rest stage e = some t) : u.Safe t := by
  have hat := hs.at_pc
  simp only [Params.AtPc, hpc] at hat
  cases stage with
  | cpCfg =>
    have hne : u.images ≠ [] := by
      rw [u.images_plain hr hc]
      exact List.cons_ne_nil _ _
    exact cpCfg_safe hne hs hpc he h
  | cpImages todo => exact cpImages_safe hr hc hs hpc h
  | cleanup => exact cleanup_safe hr hc hs hpc h
  | umount =>
    cases e <;> simp only [stageStep, Option.some.injEq, reduceCtorEq] at h <;> subst h
    all_goals exact hs.keep rfl rfl (atPc_diskPc rest rfl hat.1 hat.2)
  | _ =>
    -- the commands before the copies change neither a disk nor the exposed one
    cases e <;> simp only [stageStep, Option.some.injEq, reduceCtorEq] at h <;> subst h
    all_goals refine hs.keep rfl rfl ?_
    all_goals try split_ifs
    all_goals simp_all [Params.AtPc, BootState.goto, BootState.umount]

end Stages

theorem bootNext_safe {s t : BootState} {e : BootEvent} (hdry : u.dryrun = false)
    (hr : PlainVersion u.rver) (hc : PlainVersion u.cver) (hs : u.Safe s)
    (he : ConfigWritten s e) (h : bootNext u s e = some t) : u.Safe t := by
  have hat := hs.at_pc
  cases hpc : s.pc with
  | onDisk d stage rest =>
    cases e
    case signal | kill =>
      simp only [bootNext, hpc, Option.some.injEq] at h
      subst h
      exact hs.keep rfl rfl trivial
    all_goals simp only [bootNext, hpc, hdry, Bool.false_eq_true, if_false] at h
    all_goals exact stageStep_safe hr hc hs hpc he h
  | wget todo =>
    simp only [Params.AtPc, hpc] at hat
    cases todo <;> cases e <;>
      simp only [bootNext, hpc, hdry, Bool.false_eq_true, if_false, Option.some.injEq,
        reduceCtorEq] at h <;> subst h
    case cons.ok f todo => exact hs.keep rfl rfl (atPc_wgetPc todo rfl hat.1 hat.2)
    all_goals exact hs.keep rfl rfl trivial
  | writeCfg =>
    simp only [Params.AtPc, hpc] at hat
    cases e <;>
      simp only [bootNext, hpc, hdry, Bool.false_eq_true, if_false, Option.some.injEq,
        reduceCtorEq] at h <;> subst h
    case ok => exact hs.keep rfl rfl (atPc_wgetPc u.images rfl rfl hat)
    case fail => simp [ConfigWritten, hpc] at he
    case part n => exact hs.keep rfl rfl (by simpa [Params.AtPc, hpc] using hat)
    all_goals exact hs.keep rfl rfl trivial
  | compare =>
    simp only [Params.AtPc, hpc] at hat
    cases e <;> simp only [bootNext, hpc, Option.some.injEq, reduceCtorEq] at h
    case fail =>
      obtain ⟨-, hgo⟩ := Option.ite_none_right_eq_some.mp h
      obtain rfl := Option.some.inj hgo
      exact hs.keep rfl rfl hat
    all_goals subst h
    all_goals refine hs.keep rfl rfl ?_
    all_goals try split_ifs
    all_goals simp_all [Params.AtPc, BootState.goto]
  | _ =>
    simp only [Params.AtPc, hpc] at hat
    cases e <;> simp only [bootNext, hpc, Option.some.injEq, reduceCtorEq] at h <;> subst h
    all_goals refine hs.keep rfl rfl ?_
    all_goals simp_all [Params.AtPc, BootState.goto, BootState.umount]

/-- A disk is being changed over: the copy of its `grub.cfg` has begun and that of
the last image has not ended. -/
def BootPc.copying : BootPc → Bool
  | .onDisk _ .cpCfg _ | .onDisk _ (.cpImages _) _ => true
  | _ => false

theorem Params.Safe.copying {s : BootState} (hs : u.Safe s) {d : Text} (hd : s.exposed = some d) :
    s.pc = .byeBye ∨ s.pc = .stopped ∨ s.pc.copying = true ∧ s.mounts.head? = some d := by
  have hat := hs.at_pc
  unfold Params.AtPc at hat
  split at hat
  all_goals simp_all [BootPc.copying]

/-- In a real run in which the two unchecked writes of the configuration succeed,
every disk is bootable at every point, but for the disk on `/boot` from the start
of the copy of `grub.cfg` to the end of that of the last image, and after a run
that ends in between. -/
theorem bootable_unless_exposed {s t : BootState} {l : List BootEvent} (hdry : u.dryrun = false)
    (hr : PlainVersion u.rver) (hc : PlainVersion u.cver) (hs : BootStart s)
    (hboot : ∀ d, (s.disk d).Bootable) (h : Run (bootNext u) ConfigWritten s l t) :
    (∀ d, t.exposed ≠ some d → (t.disk d).Bootable) ∧
      ∀ d, t.exposed = some d →
        t.pc = .byeBye ∨ t.pc = .stopped ∨ t.pc.copying = true ∧ t.mounts.head? = some d := by
  have hsafe : u.Safe t := by
    refine h.inv (fun _ v => u.Safe v) ⟨fun d _ => hboot d, ?_⟩ fun _ v _ _ _ hv he hn =>
      bootNext_safe hdry hr hc hv he hn
    simp [Params.AtPc, hs.pc, hs.exposed]
  exact ⟨hsafe.bootable, fun d hd => hsafe.copying hd⟩

/-- An upgrade from 2016.08 to the release `rver` on one disk. -/
def oneDisk (rver : String) : Params := ⟨rver.toList, "2016.08".toList, ["/dev/sda".toList], false, false⟩

/-- The boot partition of an installed system. -/
def installed : Partition where
  cfg := some (cfgText "2016.08".toList "2016.08".toList)
  image f := if f ∈ ["rootfs.squashfs-noinst-2016.08".toList, "bzImage-2016.08".toList] then
    .complete else .absent

def beforeUpgrade : BootState := ⟨.compare, fun _ => installed, [], [], none⟩

theorem bootable_unless_exposed_sda :
    ∃ l t, Run (bootNext (oneDisk "2017.01")) ConfigWritten beforeUpgrade l t ∧
      t.exposed = some "/dev/sda".toList ∧
      (∀ d, t.exposed ≠ some d → (t.disk d).Bootable) ∧
      ∀ d, t.exposed = some d →
        t.pc = .byeBye ∨ t.pc = .stopped ∨ t.pc.copying = true ∧ t.mounts.head? = some d := by
  obtain ⟨t, ht, h⟩ := exists_run_guarded (bootNext (oneDisk "2017.01")) ConfigWritten beforeUpgrade
    (List.replicate 9 .ok ++ [.found true, .ok, .ok, .start, .ok, .start])
    (fun t => t.exposed == some "/dev/sda".toList) (by decide +kernel)
  exact ⟨_, t, ht, by simpa using h,
    bootable_unless_exposed rfl (by decide +kernel) (by decide +kernel) ⟨rfl, rfl⟩ (fun d => by
      show installed.Bootable
      decide +kernel) ht⟩

/-- The steps from the start to the copy of `grub.cfg`, with `n` downloads. -/
def untilCopy (n : ℕ) : List BootEvent := List.replicate (n + 5) .ok ++ [.found true, .ok]

/-- The run is over and its disk does not boot. -/
def bricked (s : BootState) : Bool :=
  decide (s.pc = .stopped ∧ ¬ (s.disk "/dev/sda".toList).Bootable)

/-- A power cut after the copy of `grub.cfg`, an empty release string, and a copy
of `grub.cfg` that fails half way leave a disk unbootable, the last two at the end
of a complete run. -/
theorem upgrade_leaves_unbootable :
    (∀ d, (beforeUpgrade.disk d).Bootable) ∧
    ∀ rl ∈ [("2017.01", untilCopy 4 ++ [.ok, .kill]),
        ("", untilCopy 2 ++ List.replicate 7 .ok),
        ("2017.01", untilCopy 4 ++ [.part 166, .fail] ++ List.replicate 8 .ok)],
      ∃ t, Run (bootNext (oneDisk rl.1)) anyStep beforeUpgrade rl.2 t ∧
        t.pc = .stopped ∧ ¬ (t.disk "/dev/sda".toList).Bootable := by
  refine ⟨fun d => ?_, fun rl hrl => ?_⟩
  · show installed.Bootable
    decide +kernel
  · have hrun : (exec (bootNext (oneDisk rl.1)) beforeUpgrade rl.2).any bricked = true := by
      revert rl
      decide +kernel
    obtain ⟨t, ht, h⟩ := exists_run (bootNext (oneDisk rl.1)) beforeUpgrade rl.2 bricked hrun
    exact ⟨t, ht, of_decide_eq_true h⟩

end CargosBuildroot.Upgrade
