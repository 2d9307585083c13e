import CargosBuildroot.Make.Clear
import CargosBuildroot.Stamps.Ordered

/-! Steps that are run again: after `reinstall`, `rebuild` and `reconfigure`, after `dirclean`, and when
a configuration file has been edited. They are those of the one package, and only those that follow. -/

namespace CargosBuildroot.Stamps

open Make Relation
open Packages (Kind)

variable {P : Type*} [DecidableEq P]

/-- The ways in which steps of a package are asked for again. -/
inductive Again
  | reinstall
  | rebuild
  | reconfigure

def Again.goal : Again → Goal
  | .reinstall => .reinstall
  | .rebuild => .rebuild
  | .reconfigure => .reconfigure

/-- The goal that removes the stamps. -/
def Again.clean : Again → Goal
  | .reinstall => .cleanForReinstall
  | .rebuild => .cleanForRebuild
  | .reconfigure => .cleanForReconfigure

/-- The steps that follow on the `.config` of a kconfig package. -/
def Stamp.configures : Stamp → Bool
  | .downloaded | .extracted | .rsynced | .patched => false
  | _ => true

namespace Tree

variable (T : Tree P)

/-- The stamps that are removed. -/
def removed (p : P) : Again → List Stamp
  | .reinstall => unplaced
  | .rebuild => .built :: unplaced
  | .reconfigure =>
    .configured :: .built :: (if (T.package p).kconfigFiles.isSome then [.kconfigFixupDone] else []) ++ unplaced
where
  unplaced := (if (T.package p).overrideSrcdir then [.rsynced] else []) ++
    [.stagingInstalled, .targetInstalled, .imagesInstalled, .hostInstalled]

/-- The goals that remove them. -/
def cleans (p : P) : Again → List Goal
  | .reinstall => [.cleanForReinstall]
  | .rebuild => [.cleanForRebuild, .cleanForReinstall]
  | .reconfigure =>
    [.cleanForReconfigure, .cleanForRebuild, .cleanForReinstall] ++
      if (T.package p).kconfigFiles.isSome then [.cleanKconfigForReconfigure] else []

/-- What is considered of the package itself when it is asked for. -/
def Part (p : P) : Target P → Prop
  | .stamp s q => q = p ∧ s ∈ T.steps p
  | .dotconfig q | .goal .patch q => q = p ∧ (T.package p).kconfigFiles.isSome = true ∧ T.installed p ≠ []
  | .configFile i q => q = p ∧ (∃ n, (T.package p).kconfigFiles = some n ∧ i < n) ∧ T.installed p ≠ []
  | .goal .rsync q => q = p ∧ (T.package p).overrideSrcdir = true ∧ T.installed p ≠ []
  | .goal .pkg q | .goal .install q => q = p
  | .goal .installHost q => q = p ∧ (T.package p).kind = .host
  | .goal .installStaging q | .goal .installTarget q | .goal .installImages q =>
    q = p ∧ (T.package p).kind = .target
  | _ => False

variable {T} {t u : Target P} {o : Bool} {p q : P} {s : Stamp}

omit [DecidableEq P] in
theorem mem_steps_of_installed (h : s ∈ T.installed p) : s ∈ T.steps p :=
  mem_steps.mpr ⟨List.ne_nil_of_mem h, .inr (.inr (.inr h))⟩

theorem Part.edge (ht : T.Part p t) (h : T.Edge t u o) : T.Part p u ∨ T.rank u ≤ 32 * T.level p := by
  cases h with
  | dirs | prepare => exact .inr (Nat.zero_le _)
  | dependencies hs hp =>
    obtain ⟨rfl, -⟩ := ht
    have := top_lt_level hp
    exact .inr (by simp only [rank]; omega)
  | patchDependency _ hd =>
    obtain ⟨rfl, -⟩ := ht
    have := level_lt (mem_allDependencies_of_mem_patch hd)
    exact .inr (by simp only [rank, Goal.height]; omega)
  | dependency hd =>
    obtain ⟨rfl, -⟩ := ht
    exact .inr (rank_pkg_lt hd).le
  | core | hostPrereq | build | configure | extract | extractRsync | depends | source | dirclean | reinstallClean
  | reinstall | cleanForRebuild | rebuildClean | rebuild | cleanForReconfigure | cleanKconfig
  | reconfigureClean | reconfigure => cases ht
  | downloaded hsrc | extracted hsrc | rsynced hsrc | patched hsrc =>
    obtain ⟨rfl, hs⟩ := ht
    have hinstalled := (mem_steps.mp hs).1
    exact .inl ⟨rfl, mem_steps.mpr ⟨hinstalled, .inl (mem_prepared.mpr (.inl (mem_sourced.mpr (by simp [hsrc]))))⟩⟩
  | patch hsrc =>
    obtain ⟨rfl, -, hinstalled⟩ := ht
    exact .inl ⟨rfl, mem_steps.mpr ⟨hinstalled, .inl (mem_prepared.mpr (.inl (mem_sourced.mpr (by simp [hsrc]))))⟩⟩
  | rsync hsrc =>
    obtain ⟨rfl, -, hinstalled⟩ := ht
    exact .inl ⟨rfl, mem_steps.mpr ⟨hinstalled, .inl (mem_prepared.mpr (.inl (mem_sourced.mpr (by simp [hsrc]))))⟩⟩
  | patchRsync hsrc =>
    obtain ⟨rfl, -, hinstalled⟩ := ht
    exact .inl ⟨rfl, hsrc, hinstalled⟩
  | configFile hn hi =>
    obtain ⟨rfl, -, hinstalled⟩ := ht
    exact .inl ⟨rfl, ⟨_, hn, hi⟩, hinstalled⟩
  | dotconfigPatch hk | configFilePatch hk =>
    obtain ⟨rfl, -, hinstalled⟩ := ht
    exact .inl ⟨rfl, hk, hinstalled⟩
  | dotconfig hk =>
    obtain ⟨rfl, hs⟩ := ht
    exact .inl ⟨rfl, hk, (mem_steps.mp hs).1⟩
  | fixup hk =>
    obtain ⟨rfl, hs⟩ := ht
    exact .inl ⟨rfl, mem_steps.mpr ⟨(mem_steps.mp hs).1, .inl (mem_prepared.mpr (.inr ⟨rfl, hk⟩))⟩⟩
  | configured | hostBuilt | stagingBuilt | imagesBuilt | targetBuilt =>
    obtain ⟨rfl, hs⟩ := ht
    exact .inl ⟨rfl, mem_steps.mpr ⟨(mem_steps.mp hs).1, by simp⟩⟩
  | @targetStaging p h =>
    obtain ⟨rfl, hs⟩ := ht
    have hkind : (T.package p).kind = .target ∧ (T.package p).installTarget = true := by
      simpa [mem_prepared, mem_sourced, mem_installed] using (mem_steps.mp hs).2
    exact .inl ⟨rfl, mem_steps_of_installed (mem_installed.mpr (.inr (.inl ⟨rfl, hkind.1, h⟩)))⟩
  | install => exact .inl ht
  | host h | staging h | target h | images h => exact .inl ⟨ht, by obtain rfl := ht; exact h⟩
  | installHost =>
    obtain ⟨rfl, hkind⟩ := ht
    exact .inl ⟨rfl, mem_steps_of_installed (mem_installed.mpr (by simp [hkind]))⟩
  | installStaging h | installTarget h | installImages h =>
    obtain ⟨rfl, hkind⟩ := ht
    exact .inl ⟨rfl, mem_steps_of_installed (mem_installed.mpr (by simp [hkind, h]))⟩

theorem part_of_reach (h : T.rules.Reach (.goal .pkg p) t) : T.Part p t ∨ T.rank t ≤ 32 * T.level p := by
  induction h with
  | refl => exact .inl rfl
  | @tail t u _ hneeds ih =>
    obtain ⟨o, hedge⟩ := edge_of_needs hneeds
    rcases ih with ih | ih
    · exact ih.edge hedge
    · exact .inr (hedge.rank_lt.le.trans ih)

/-- The steps of the package are what its goal considers of its stamps. -/
theorem reach_stamp_iff : T.rules.Reach (.goal .pkg p) (.stamp s p) ↔ s ∈ T.steps p := by
  refine ⟨fun h => ?_, reach_steps⟩
  rcases part_of_reach h with h | h
  · exact h.2
  · simp only [rank] at h
    omega

theorem reach_dotconfig_iff : T.rules.Reach (.goal .pkg p) (.dotconfig p) ↔
    (T.package p).kconfigFiles.isSome = true ∧ T.installed p ≠ [] := by
  refine ⟨fun h => ?_, fun ⟨hk, hinstalled⟩ => ?_⟩
  · rcases part_of_reach h with h | h
    · exact h.2
    · simp only [rank] at h
      omega
  · have hfixup : .kconfigFixupDone ∈ T.steps p :=
      mem_steps.mpr ⟨hinstalled, .inl (mem_prepared.mpr (.inr ⟨rfl, hk⟩))⟩
    exact (reach_steps hfixup).trans (reach_dotconfig hk)

/-! ### Cleaning -/

theorem reach_cleanForReinstall (h : T.rules.Reach (.goal .cleanForReinstall p) u) :
    u = .goal .cleanForReinstall p := by
  rcases ReflTransGen.cases_head h with rfl | ⟨d, hd, -⟩
  · rfl
  · obtain ⟨o, hedge⟩ := edge_of_needs hd
    cases hedge

theorem reach_cleanKconfig (h : T.rules.Reach (.goal .cleanKconfigForReconfigure p) u) :
    u = .goal .cleanKconfigForReconfigure p := by
  rcases ReflTransGen.cases_head h with rfl | ⟨d, hd, -⟩
  · rfl
  · obtain ⟨o, hedge⟩ := edge_of_needs hd
    cases hedge

theorem reach_cleanForRebuild (h : T.rules.Reach (.goal .cleanForRebuild p) u) :
    u = .goal .cleanForRebuild p ∨ u = .goal .cleanForReinstall p := by
  rcases ReflTransGen.cases_head h with rfl | ⟨d, hd, h⟩
  · exact .inl rfl
  · obtain ⟨o, hedge⟩ := edge_of_needs hd
    cases hedge
    exact .inr (reach_cleanForReinstall h)

theorem exists_clean_of_reach {a : Again} (h : T.rules.Reach (.goal a.clean p) u) :
    ∃ g ∈ T.cleans p a, u = .goal g p := by
  cases a with
  | reinstall => exact ⟨.cleanForReinstall, by simp [cleans], reach_cleanForReinstall h⟩
  | rebuild =>
    rcases reach_cleanForRebuild h with rfl | rfl
    · exact ⟨.cleanForRebuild, by simp [cleans], rfl⟩
    · exact ⟨.cleanForReinstall, by simp [cleans], rfl⟩
  | reconfigure =>
    rcases ReflTransGen.cases_head h with rfl | ⟨d, hd, h⟩
    · exact ⟨.cleanForReconfigure, by simp [cleans], rfl⟩
    · obtain ⟨o, hedge⟩ := edge_of_needs hd
      cases hedge with
      | cleanForReconfigure =>
        rcases reach_cleanForRebuild h with rfl | rfl
        · exact ⟨.cleanForRebuild, by simp [cleans], rfl⟩
        · exact ⟨.cleanForReinstall, by simp [cleans], rfl⟩
      | cleanKconfig hk => exact ⟨.cleanKconfigForReconfigure, by simp [cleans, hk], reach_cleanKconfig h⟩

omit [DecidableEq P] in
theorem not_keeps_of_mem_cleans {a : Again} {g : Goal} (hg : g ∈ T.cleans p a) : g.keeps = false := by
  cases a with
  | reinstall => exact List.mem_singleton.mp hg ▸ rfl
  | rebuild =>
    simp only [cleans, List.mem_cons, List.not_mem_nil, or_false] at hg
    rcases hg with rfl | rfl
    all_goals rfl
  | reconfigure =>
    simp only [cleans, List.mem_append, List.mem_cons, List.not_mem_nil, or_false] at hg
    rcases hg with (rfl | rfl | rfl) | hg
    · rfl
    · rfl
    · rfl
    · split at hg
      · exact List.mem_singleton.mp hg ▸ rfl
      · cases hg

theorem reach_of_mem_cleans {a : Again} {g : Goal} (hg : g ∈ T.cleans p a) :
    T.rules.Reach (.goal a.clean p) (.goal g p) := by
  have hreinstall : T.rules.Reach (.goal .cleanForRebuild p) (.goal .cleanForReinstall p) :=
    reach_needed _ (by simp [prereqs, goalPrereqs])
  have hrebuild : T.rules.Reach (.goal .cleanForReconfigure p) (.goal .cleanForRebuild p) :=
    reach_needed _ (by simp [prereqs, goalPrereqs])
  cases a with
  | reinstall => exact List.mem_singleton.mp hg ▸ .refl
  | rebuild =>
    simp only [cleans, List.mem_cons, List.not_mem_nil, or_false] at hg
    rcases hg with rfl | rfl
    · exact .refl
    · exact hreinstall
  | reconfigure =>
    simp only [cleans, List.mem_append, List.mem_cons, List.not_mem_nil, or_false] at hg
    rcases hg with (rfl | rfl | rfl) | hg
    · exact .refl
    · exact hrebuild
    · exact hrebuild.trans hreinstall
    · split at hg
      next hk =>
        obtain rfl := List.mem_singleton.mp hg
        exact reach_needed _ (by simp [prereqs, Again.clean, goalPrereqs, hk])
      · cases hg

theorem clearing (a : Again) (p : P) : T.rules.Clearing (.goal a.clean p) := by
  intro u hu
  obtain ⟨g, hg, rfl⟩ := exists_clean_of_reach hu
  cases g with
  | _ => rfl

theorem removes_iff {a : Again} :
    T.rules.Removes (.goal a.clean p) u ↔ ∃ s ∈ T.removed p a, u = .stamp s p := by
  have hiff : T.rules.Removes (.goal a.clean p) u ↔
      ∃ g ∈ T.cleans p a, ∃ ts, T.recipe (.goal g p) = .remove ts ∧ u ∈ ts := by
    constructor
    · rintro ⟨v, ts, hreach, hrecipe, hu⟩
      obtain ⟨g, hg, rfl⟩ := exists_clean_of_reach hreach
      exact ⟨g, hg, ts, hrecipe, hu⟩
    · rintro ⟨g, hg, ts, hrecipe, hu⟩
      exact ⟨_, ts, reach_of_mem_cleans hg, hrecipe, hu⟩
  rw [hiff]
  cases a <;> cases hsrc : (T.package p).overrideSrcdir <;> cases hk : (T.package p).kconfigFiles.isSome <;>
    simp [cleans, removed, removed.unplaced, recipe, hsrc, hk, or_assoc, or_comm, or_left_comm]

theorem edge_of_normal (h : u ∈ T.rules.normal t) : T.Edge t u false := by
  obtain ⟨d, hd, rfl⟩ := List.mem_map.mp h
  obtain ⟨hmem, horder⟩ := List.mem_filter.mp hd
  have hedge := edge_of_prereqs hmem
  rwa [show d.orderOnly = false by simpa using horder] at hedge

/-- What is compared with a stamp that is removed is removed too. -/
theorem removed_of_edge {a : Again} (hs : s ∈ T.removed p a) (h : T.Edge t (.stamp s p) false)
    (ht : T.rules.isFile t = true) : ∃ s' ∈ T.removed p a, t = .stamp s' p := by
  cases h with
  | downloaded | extracted | patched => cases a <;> simp [removed, removed.unplaced] at hs
  | fixup =>
    refine ⟨_, ?_, rfl⟩
    cases a <;> simp [removed, removed.unplaced] at hs ⊢
  | configured =>
    refine ⟨_, ?_, rfl⟩
    cases a <;> simp [removed, removed.unplaced] at hs ⊢
  | hostBuilt | stagingBuilt | imagesBuilt | targetBuilt | targetStaging =>
    refine ⟨_, ?_, rfl⟩
    cases a <;> simp [removed, removed.unplaced]
  | installHost | installStaging | installTarget | installImages | build | configure | patch | extract | source
  | rsync => cases ht

/-! ### Reinstalling, rebuilding and reconfiguring -/

variable {V : Type*} {produce : Target P → List (Option V) → V} {cut cut' cut'' : Target P → Option (Cut V)}
  {goals : List (Target P)} {f : Files (Target P) V} {n : ℕ} {b b' b'' : Build (Target P) V}

/-- After a call that has succeeded for a package, the steps that are asked for again are run, with
those that follow them, and no step of another package. -/
theorem runs_again {a : Again} (hgoals : ∀ g ∈ goals, g.keeps = true) (hp : .goal .pkg p ∈ goals)
    (htimes : ∀ t x, f t = some x → x.time ≤ n) (hok : T.rules.make produce cut goals f n = .ok b)
    (hagain : T.rules.make produce cut' [.goal a.goal p] b.files b.now = .ok b') (s : Stamp) (q : P) :
    (.stamp s q ∈ b'.ran ↔ q = p ∧ s ∈ T.steps p ∧ s ∈ T.removed p a) ∧ .dotconfig q ∉ b'.ran ∧
      (q ≠ p → b'.files (.stamp s q) = b.files (.stamp s q)) ∧
      (s ∈ T.steps p → b'.files (.stamp s p) ≠ none) := by
  have hbuilding : ∀ g ∈ goals, T.rules.Building g := fun g hg => building (hgoals g hg)
  have htracks := (tracks_of_ok hbuilding htimes hok).1
  have hprereqs : T.rules.prereqs (.goal a.goal p) = [⟨.goal a.clean p, false⟩, ⟨.goal .pkg p, false⟩] := by
    cases a <;> rfl
  have hrecipe : T.rules.recipe (.goal a.goal p) = .remove [] := by cases a <;> rfl
  have hdisjoint : ∀ t, T.rules.Reach (.goal .pkg p) t → ¬ T.rules.Reach (.goal a.clean p) t := by
    intro t ht hclean
    have hkeeps := keeps_of_reach ht rfl
    obtain ⟨g, hg, rfl⟩ := exists_clean_of_reach hclean
    rw [Target.keeps, not_keeps_of_mem_cleans hg] at hkeeps
    cases hkeeps
  have hup : ∀ t d, T.rules.Reach (.goal .pkg p) t → T.rules.isFile t = true → d ∈ T.rules.normal t →
      T.rules.Removes (.goal a.clean p) d → T.rules.Removes (.goal a.clean p) t := by
    intro t d _ ht hd hremoves
    obtain ⟨s, hs, rfl⟩ := removes_iff.mp hremoves
    exact removes_iff.mpr (removed_of_edge hs (edge_of_normal hd) ht)
  have hall := fun (t : Target P) (ht : T.rules.isFile t = true) =>
    ran_iff_removed hprereqs hrecipe (clearing a p) (building rfl) hdisjoint htracks.times
      (fun t ht hfile => current_of_ok hbuilding htimes hok hp ht hfile) hup hagain ht
  have hran := fun s q => (hall (.stamp s q) rfl).1
  have hremoves : ∀ s q, T.rules.Removes (.goal a.clean p) (.stamp s q) ↔ q = p ∧ s ∈ T.removed p a := by
    intro s q
    rw [removes_iff]
    exact ⟨fun ⟨s', hs', h⟩ => by cases h; exact ⟨rfl, hs'⟩, fun ⟨hq, hs⟩ => ⟨s, hs, by rw [hq]⟩⟩
  refine ⟨?_, fun hmem => ?_, fun hq => ?_, fun hs => ?_⟩
  · rw [hran, hremoves]
    constructor
    · rintro ⟨hreach, rfl, hs⟩
      exact ⟨rfl, reach_stamp_iff.mp hreach, hs⟩
    · rintro ⟨rfl, hstep, hs⟩
      exact ⟨reach_steps hstep, rfl, hs⟩
  · obtain ⟨s', -, h⟩ := removes_iff.mp ((hall (.dotconfig q) rfl).1.mp hmem).2
    cases h
  · refine (hall (.stamp s q) rfl).2.2 (fun hmem => ?_) fun h => hq ((hremoves s q).mp h).1
    exact hq ((hremoves s q).mp ((hran s q).mp hmem).2).1
  · obtain ⟨x, hx, -⟩ := (hall (.stamp s p) rfl).2.1 (reach_steps hs)
    exact hx ▸ Option.some_ne_none x

theorem runs_again_busybox : ∃ b b',
    sampleTree.rules.make sampleContent (fun _ => none) [.goal .pkg .busybox] sampleFiles 0 = .ok b ∧
    sampleTree.rules.make sampleContent (fun _ => none) [.goal Again.rebuild.goal .busybox] b.files b.now = .ok b' ∧
    .stamp .targetInstalled .busybox ∈ b'.ran ∧ .stamp .configured .busybox ∉ b'.ran ∧
    .stamp .stagingInstalled .skeleton ∉ b'.ran := by
  obtain ⟨b, hb, htest⟩ := Shell.Exit.exists_of_any
    (sampleTree.rules.make sampleContent (fun _ => none) [.goal .pkg .busybox] sampleFiles 0)
    (fun b => (sampleTree.rules.make sampleContent (fun _ => none) [.goal Again.rebuild.goal .busybox] b.files b.now).any
      fun _ => true) (by decide +kernel)
  obtain ⟨b', hb', -⟩ := Shell.Exit.exists_of_any _ _ htest
  have hruns := fun s q => runs_again (T := sampleTree) (a := .rebuild) (p := .busybox) (f := sampleFiles)
    (by decide) (by decide) sampleFiles_times hb hb' s q
  exact ⟨b, b', hb, hb', (hruns .targetInstalled .busybox).1.mpr (by decide),
    fun h => absurd ((hruns .configured .busybox).1.mp h) (by decide),
    fun h => absurd ((hruns .stagingInstalled .skeleton).1.mp h) (by decide)⟩

/-! ### Starting a package over -/

theorem reach_dirclean (h : T.rules.Reach (.goal .dirclean p) u) : u = .goal .dirclean p ∨ u = .dircleaned p := by
  rcases ReflTransGen.cases_head h with rfl | ⟨d, hd, h⟩
  · exact .inl rfl
  · obtain ⟨o, hedge⟩ := edge_of_needs hd
    cases hedge
    rcases ReflTransGen.cases_head h with rfl | ⟨e, he, -⟩
    · exact .inr rfl
    · obtain ⟨o, hedge⟩ := edge_of_needs he
      cases hedge

theorem dirclean_removes_iff : T.rules.Removes (.goal .dirclean p) u ↔ u = .dotconfig p ∨ ∃ s, u = .stamp s p := by
  constructor
  · rintro ⟨v, ts, hreach, hrecipe, hu⟩
    rcases reach_dirclean hreach with rfl | rfl
    · obtain rfl := Recipe.remove.inj hrecipe
      cases hu
    · obtain rfl := Recipe.remove.inj hrecipe
      rcases List.mem_cons.mp hu with rfl | hu
      · exact .inl rfl
      · obtain ⟨s, -, rfl⟩ := List.mem_map.mp hu
        exact .inr ⟨s, rfl⟩
  · intro hu
    refine ⟨.dircleaned p, _, reach_needed _ (by simp [prereqs, goalPrereqs]), rfl, ?_⟩
    rcases hu with rfl | ⟨s, rfl⟩
    · exact List.mem_cons_self
    · exact List.mem_cons_of_mem _ (List.mem_map_of_mem (by cases s <;> decide))

/-- What is compared with a file of a package belongs to the package. -/
theorem own_of_edge (hu : u = .dotconfig p ∨ ∃ s, u = .stamp s p) (h : T.Edge t u false)
    (ht : T.rules.isFile t = true) : t = .dotconfig p ∨ ∃ s, t = .stamp s p := by
  rcases hu with rfl | ⟨s, rfl⟩
  · cases h
    exact .inr ⟨_, rfl⟩
  · cases h with
    | installHost | installStaging | installTarget | installImages | build | configure | patch | extract
    | source | rsync => cases ht
    | _ => exact .inr ⟨_, rfl⟩

/-- The directory of a package is removed, and the package is asked for: all its steps are run, and no
step of another package. -/
theorem runs_all_after_dirclean (hgoals : ∀ g ∈ goals, g.keeps = true) (hp : .goal .pkg p ∈ goals)
    (htimes : ∀ t x, f t = some x → x.time ≤ n) (hok : T.rules.make produce cut goals f n = .ok b)
    (hclean : T.rules.make produce cut' [.goal .dirclean p] b.files b.now = .ok b')
    (hbuild : T.rules.make produce cut'' [.goal .pkg p] b'.files b'.now = .ok b'') (s : Stamp) (q : P) :
    (.stamp s q ∈ b''.ran ↔ q = p ∧ s ∈ T.steps p) ∧
      (.dotconfig q ∈ b''.ran ↔ q = p ∧ .kconfigFixupDone ∈ T.steps p) := by
  have hbuilding : ∀ g ∈ goals, T.rules.Building g := fun g hg => building (hgoals g hg)
  have htracks := (tracks_of_ok hbuilding htimes hok).1
  have hclearing : T.rules.Clearing (.goal .dirclean p) := by
    intro u hu
    rcases reach_dirclean hu with rfl | rfl
    all_goals rfl
  obtain ⟨hclears, hseen⟩ := clears_of_ok hclearing hclean
  have htimes' : ∀ t x, b'.files t = some x → x.time ≤ b'.now := hclears.now ▸ hclears.times htracks.times
  have hup : ∀ t d, T.rules.Reach (.goal .pkg p) t → T.rules.isFile t = true → d ∈ T.rules.normal t →
      T.rules.Removes (.goal .dirclean p) d → T.rules.Removes (.goal .dirclean p) t := by
    intro t d _ ht hd hremoves
    exact dirclean_removes_iff.mpr (own_of_edge (dirclean_removes_iff.mp hremoves) (edge_of_normal hd) ht)
  have hran : ∀ t, T.rules.isFile t = true →
      (t ∈ b''.ran ↔ T.rules.Reach (.goal .pkg p) t ∧ (t = .dotconfig p ∨ ∃ s, t = .stamp s p)) := by
    intro t ht
    rw [ran_iff (by simpa using building rfl) htimes' hbuild, ← dirclean_removes_iff]
    simp only [List.mem_singleton, exists_eq_left]
    exact and_congr_right fun hreach => hclears.outdated_iff hseen
      (fun t ht hfile => current_of_ok hbuilding htimes hok hp ht hfile) hup hreach ht
  have hfixup : .kconfigFixupDone ∈ T.steps p ↔
      (T.package p).kconfigFiles.isSome = true ∧ T.installed p ≠ [] := by
    simp [mem_steps, mem_prepared, mem_sourced, mem_installed, and_comm]
  rw [hran _ rfl, hran _ rfl, hfixup]
  constructor
  · constructor
    · rintro ⟨hreach, h | ⟨s', h⟩⟩
      · cases h
      · cases h
        exact ⟨rfl, reach_stamp_iff.mp hreach⟩
    · rintro ⟨rfl, hs⟩
      exact ⟨reach_steps hs, .inr ⟨s, rfl⟩⟩
  · constructor
    · rintro ⟨hreach, h | ⟨s', h⟩⟩
      · cases h
        exact ⟨rfl, reach_dotconfig_iff.mp hreach⟩
      · cases h
    · rintro ⟨rfl, h⟩
      exact ⟨reach_dotconfig_iff.mpr h, .inl rfl⟩

theorem runs_all_after_dirclean_busybox : ∃ b b' b'',
    sampleTree.rules.make sampleContent (fun _ => none) [.goal .pkg .busybox] sampleFiles 0 = .ok b ∧
    sampleTree.rules.make sampleContent (fun _ => none) [.goal .dirclean .busybox] b.files b.now = .ok b' ∧
    sampleTree.rules.make sampleContent (fun _ => none) [.goal .pkg .busybox] b'.files b'.now = .ok b'' ∧
    .stamp .extracted .busybox ∈ b''.ran ∧ .dotconfig .busybox ∈ b''.ran ∧ .stamp .extracted .skeleton ∉ b''.ran := by
  obtain ⟨b, hb, htest⟩ := Shell.Exit.exists_of_any
    (sampleTree.rules.make sampleContent (fun _ => none) [.goal .pkg .busybox] sampleFiles 0)
    (fun b => (sampleTree.rules.make sampleContent (fun _ => none) [.goal .dirclean .busybox] b.files b.now).any
      fun b' => (sampleTree.rules.make sampleContent (fun _ => none) [.goal .pkg .busybox] b'.files b'.now).any
        fun _ => true) (by decide +kernel)
  obtain ⟨b', hb', htest⟩ := Shell.Exit.exists_of_any _ _ htest
  obtain ⟨b'', hb'', -⟩ := Shell.Exit.exists_of_any _ _ htest
  have hruns := runs_all_after_dirclean (p := .busybox) (by decide) (by decide) sampleFiles_times hb hb' hb''
  exact ⟨b, b', b'', hb, hb', hb'', (hruns .extracted .busybox).1.mpr (by decide),
    (hruns .extracted .busybox).2.mpr (by decide), fun h => absurd ((hruns .extracted .skeleton).1.mp h) (by decide)⟩

/-! ### Editing a configuration file -/

theorem mem_normal (h : needed u ∈ T.prereqs t) : u ∈ T.rules.normal t :=
  List.mem_map.mpr ⟨_, List.mem_filter.mpr ⟨h, rfl⟩, rfl⟩

theorem configures_of_transGen {i : ℕ} (h : TransGen (fun t d => d ∈ T.rules.normal t) t (.configFile i p))
    (ht : T.rules.isFile t = true) : t = .dotconfig p ∨ ∃ s : Stamp, s.configures = true ∧ t = .stamp s p := by
  induction h using TransGen.head_induction_on with
  | @single t hd =>
    cases edge_of_normal hd
    exact .inl rfl
  | @head t d hd _ ih =>
    have hedge := edge_of_normal hd
    rcases ih (Rules.isFile_of_normal ht hd) with rfl | ⟨s, hs, rfl⟩
    · cases hedge
      exact .inr ⟨.kconfigFixupDone, rfl, rfl⟩
    · cases hedge with
      | downloaded | extracted | patched => cases hs
      | fixup => exact .inr ⟨.configured, rfl, rfl⟩
      | configured => exact .inr ⟨.built, rfl, rfl⟩
      | hostBuilt => exact .inr ⟨.hostInstalled, rfl, rfl⟩
      | stagingBuilt => exact .inr ⟨.stagingInstalled, rfl, rfl⟩
      | imagesBuilt => exact .inr ⟨.imagesInstalled, rfl, rfl⟩
      | targetBuilt | targetStaging => exact .inr ⟨.targetInstalled, rfl, rfl⟩
      | installHost | installStaging | installTarget | installImages | build | configure | patch | extract
      | source | rsync => cases ht

theorem transGen_dotconfig {k i : ℕ} (hk : (T.package p).kconfigFiles = some k) (hi : i < k) :
    TransGen (fun t d => d ∈ T.rules.normal t) (.dotconfig p) (.configFile i p) :=
  .single (mem_normal (by simpa [prereqs, hk, needed] using .inl hi))

theorem transGen_of_configures {k i : ℕ} (hk : (T.package p).kconfigFiles = some k) (hi : i < k)
    (hs : s ∈ T.steps p) (hconf : s.configures = true) :
    TransGen (fun t d => d ∈ T.rules.normal t) (.stamp s p) (.configFile i p) := by
  have hsome : (T.package p).kconfigFiles.isSome = true := hk ▸ rfl
  have hfixup := (transGen_dotconfig hk hi).head (mem_normal (t := .stamp .kconfigFixupDone p)
    (by simp [prereqs, stampPrereqs, hsome]))
  have hconfigured := hfixup.head (mem_normal (t := .stamp .configured p) (by simp [prereqs, stampPrereqs, hsome]))
  have hbuilt := hconfigured.head (mem_normal (t := .stamp .built p) (by simp [prereqs, stampPrereqs]))
  rcases (mem_steps.mp hs).2 with hs | rfl | rfl | hs
  · rcases mem_prepared.mp hs with hs | ⟨rfl, -⟩
    · rcases mem_sourced.mp hs with ⟨rfl, -⟩ | ⟨rfl | rfl | rfl, -⟩
      all_goals cases hconf
    · exact hfixup
  · exact hconfigured
  · exact hbuilt
  · refine hbuilt.head (mem_normal ?_)
    rcases mem_installed.mp hs with ⟨rfl, -⟩ | ⟨rfl, -, h⟩ | ⟨rfl, -, h⟩ | ⟨rfl, -, h⟩
    · simp [prereqs, stampPrereqs]
    all_goals simp [prereqs, stampPrereqs, h]

/-- A configuration file of a package is edited, and the package is asked for: its `.config` is made
again, the steps that follow on it are run, and no other step is. -/
theorem runs_after_edit (hgoals : ∀ g ∈ goals, g.keeps = true) (hp : .goal .pkg p ∈ goals)
    (htimes : ∀ t x, f t = some x → x.time ≤ n) (hok : T.rules.make produce cut goals f n = .ok b)
    {k i : ℕ} (hk : (T.package p).kconfigFiles = some k) (hi : i < k) (v : V)
    (hbuild : T.rules.make produce cut' [.goal .pkg p] (b.store.edit (.configFile i p) v).files
      (b.store.edit (.configFile i p) v).now = .ok b') (s : Stamp) (q : P) :
    (.stamp s q ∈ b'.ran ↔ q = p ∧ s ∈ T.steps p ∧ s.configures = true) ∧
      (.dotconfig q ∈ b'.ran ↔ q = p ∧ T.installed p ≠ []) := by
  have hbuilding : ∀ g ∈ goals, T.rules.Building g := fun g hg => building (hgoals g hg)
  have htracks := (tracks_of_ok hbuilding htimes hok).1
  have htimes' : ∀ t x, (b.store.edit (.configFile i p) v).files t = some x → x.time ≤ b.now + 1 := by
    intro t x hx
    rw [Store.edit] at hx
    dsimp only at hx
    by_cases ht : t = .configFile i p
    · rw [ht, Function.update_self, Option.some_inj] at hx
      exact hx ▸ le_rfl
    · rw [Function.update_of_ne ht] at hx
      exact (htracks.times t x hx).trans (Nat.le_succ _)
  have hnormal : T.rules.normal (.configFile i p) = [] := by simp [Rules.normal, rules, prereqs, hk, first]
  have hran : ∀ t, T.rules.isFile t = true → (t ∈ b'.ran ↔ T.rules.Reach (.goal .pkg p) t ∧
      TransGen (fun t d => d ∈ T.rules.normal t) t (.configFile i p)) := by
    intro t ht
    rw [ran_iff (by simpa using building rfl) htimes' hbuild]
    simp only [List.mem_singleton, exists_eq_left]
    refine and_congr_right fun hreach => outdated_edit_iff hnormal (fun u hu hfile => ?_) htracks.times ht
    exact current_of_ok hbuilding htimes hok hp (hreach.trans hu) hfile
  rw [hran _ rfl, hran _ rfl]
  constructor
  · constructor
    · rintro ⟨hreach, htrans⟩
      rcases configures_of_transGen htrans rfl with h | ⟨s', hs', h⟩
      · cases h
      · cases h
        exact ⟨rfl, reach_stamp_iff.mp hreach, hs'⟩
    · rintro ⟨rfl, hs, hconf⟩
      exact ⟨reach_steps hs, transGen_of_configures hk hi hs hconf⟩
  · constructor
    · rintro ⟨hreach, htrans⟩
      rcases configures_of_transGen htrans rfl with h | ⟨s', -, h⟩
      · cases h
        exact ⟨rfl, (reach_dotconfig_iff.mp hreach).2⟩
      · cases h
    · rintro ⟨rfl, hinstalled⟩
      exact ⟨reach_dotconfig_iff.mpr ⟨hk ▸ rfl, hinstalled⟩, transGen_dotconfig hk hi⟩

theorem runs_after_edit_busybox : ∃ b b',
    sampleTree.rules.make sampleContent (fun _ => none) [.goal .pkg .busybox] sampleFiles 0 = .ok b ∧
    sampleTree.rules.make sampleContent (fun _ => none) [.goal .pkg .busybox]
      (b.store.edit (.configFile 1 .busybox) [7]).files (b.store.edit (.configFile 1 .busybox) [7]).now = .ok b' ∧
    .stamp .built .busybox ∈ b'.ran ∧ .stamp .extracted .busybox ∉ b'.ran := by
  obtain ⟨b, hb, htest⟩ := Shell.Exit.exists_of_any
    (sampleTree.rules.make sampleContent (fun _ => none) [.goal .pkg .busybox] sampleFiles 0)
    (fun b => (sampleTree.rules.make sampleContent (fun _ => none) [.goal .pkg .busybox]
      (b.store.edit (.configFile 1 .busybox) [7]).files
      (b.store.edit (.configFile 1 .busybox) [7]).now).any fun _ => true) (by decide +kernel)
  obtain ⟨b', hb', -⟩ := Shell.Exit.exists_of_any _ _ htest
  have hruns := runs_after_edit (p := .busybox) (k := 2) (i := 1) (by decide) (by decide) sampleFiles_times hb rfl
    (by decide) [7] hb'
  exact ⟨b, b', hb, hb', (hruns .built .busybox).1.mpr (by decide),
    fun h => absurd ((hruns .extracted .busybox).1.mp h) (by decide)⟩

/-! ### What the steps are made from -/

/-- The lines of the configuration files that a step is made from: for `.config` those of all files in
their order, for a step after it those of what it was compared with last. -/
def madeFrom {L : Type*} : Target P → List (Option (List L)) → List L
  | .dotconfig _, vs => vs.flatMap (·.getD [])
  | _, vs => vs.getLast?.join.getD []

/-- The lines of the configuration files of a package, as they are. -/
def configLines {L : Type*} (f : Files (Target P) (List L)) (p : P) (k : ℕ) : List L :=
  (List.range k).flatMap fun i => ((f (.configFile i p)).map File.content).getD []

/-- All files but the `.config` of other packages. -/
def notOther (p : P) : Target P → Prop
  | .dotconfig q => q = p
  | _ => True

/-- Calls for any goals that may end at any point, but not after they have begun to write the `.config` of a
package, edits of configuration files, and then a call for the package that succeeds: its `.config` and the
steps after it were made from the files as they are. -/
theorem made_from_present {L : Type*} {s₀ : Store (Target P) (List L)} {l : List (Action (Target P) (List L))}
    (hrun : Transition.Run (T.rules.next madeFrom) (T.rules.wholeStep (notOther p)) .empty l s₀)
    {cut : Target P → Option (Cut (List L))} {b : Build (Target P) (List L)}
    (hgoals : ∀ g ∈ goals, g.keeps = true) (hp : .goal .pkg p ∈ goals)
    (hok : T.rules.make madeFrom cut goals s₀.files s₀.now = .ok b) {k : ℕ}
    (hk : (T.package p).kconfigFiles = some k) (hinstalled : T.installed p ≠ []) :
    (b.files (.dotconfig p)).map File.content = some (configLines b.files p k) ∧
      ∀ s ∈ T.steps p, s.configures = true →
        (b.files (.stamp s p)).map File.content = some (configLines b.files p k) := by
  have hhonest₀ := honest_empty.run hrun
  have hhonest := hhonest₀.make_ok hok
  have hbuilding : ∀ g ∈ goals, T.rules.Building g := fun g hg => building (hgoals g hg)
  have hmade : ∀ t, T.rules.Reach (.goal .pkg p) t → notOther p t → T.rules.recipe t = .create →
      (b.files t).map File.content =
        some (madeFrom t ((T.rules.normal t).map fun d => (b.files d).map File.content)) := by
    intro t hreach hnot hcreate
    have hfile : T.rules.isFile t = true := by rw [Rules.isFile, hcreate]; rfl
    exact hhonest.made hnot hcreate (current_of_ok hbuilding hhonest₀.times hok hp hreach hfile)
  have hsome : (T.package p).kconfigFiles.isSome = true := hk ▸ rfl
  have hdotconfig : (b.files (.dotconfig p)).map File.content = some (configLines b.files p k) := by
    have hnormal : T.rules.normal (.dotconfig p) = (List.range k).map (.configFile · p) := by
      simp [Rules.normal, rules, prereqs, hk, needed, first, List.filter_map, Function.comp_def]
    rw [hmade _ (reach_dotconfig_iff.mpr ⟨hsome, hinstalled⟩) rfl rfl, hnormal, List.map_map, madeFrom,
      List.flatMap_map]
    rfl
  -- a step is made from what the last of the files that it is compared with was made from
  have hstep : ∀ {s u}, s ∈ T.steps p → (T.rules.normal (.stamp s p)).getLast? = some u →
      (b.files u).map File.content = some (configLines b.files p k) →
      (b.files (.stamp s p)).map File.content = some (configLines b.files p k) := by
    intro s u hs hlast hu
    rw [hmade _ (reach_steps hs) trivial rfl]
    change some ((List.getLast? _).join.getD []) = _
    rw [List.getLast?_map, hlast, Option.map_some, hu]
    rfl
  have hmem : ∀ {s}, s ∈ T.prepared p ∨ s = .configured ∨ s = .built ∨ s ∈ T.installed p → s ∈ T.steps p :=
    fun h => mem_steps.mpr ⟨hinstalled, h⟩
  have hfixup := hstep (s := .kconfigFixupDone) (hmem (.inl (mem_prepared.mpr (.inr ⟨rfl, hsome⟩))))
    (by simp [Rules.normal, rules, prereqs, stampPrereqs, hsome, needed]) hdotconfig
  have hconfigured := hstep (s := .configured) (hmem (by simp))
    (by simp [Rules.normal, rules, prereqs, stampPrereqs, hsome, needed]) hfixup
  have hbuilt := hstep (s := .built) (hmem (by simp))
    (by simp [Rules.normal, rules, prereqs, stampPrereqs, needed]) hconfigured
  refine ⟨hdotconfig, fun s hs hconf => ?_⟩
  rcases (mem_steps.mp hs).2 with h | rfl | rfl | h
  · rcases mem_prepared.mp h with h | ⟨rfl, -⟩
    · rcases mem_sourced.mp h with ⟨rfl, -⟩ | ⟨rfl | rfl | rfl, -⟩
      all_goals cases hconf
    · exact hfixup
  · exact hconfigured
  · exact hbuilt
  · rcases mem_installed.mp h with ⟨rfl, -⟩ | ⟨rfl, -, hi⟩ | ⟨rfl, hkind, hi⟩ | ⟨rfl, -, hi⟩
    · exact hstep hs (by simp [Rules.normal, rules, prereqs, stampPrereqs, needed]) hbuilt
    · exact hstep hs (by simp [Rules.normal, rules, prereqs, stampPrereqs, hi, needed]) hbuilt
    · cases hstaging : (T.package p).installStaging with
      | false => exact hstep hs (by simp [Rules.normal, rules, prereqs, stampPrereqs, hi, hstaging, needed]) hbuilt
      | true =>
        have hplaced := hstep (s := .stagingInstalled)
          (mem_steps_of_installed (mem_installed.mpr (.inr (.inl ⟨rfl, hkind, hstaging⟩))))
          (by simp [Rules.normal, rules, prereqs, stampPrereqs, hstaging, needed]) hbuilt
        exact hstep hs (by simp [Rules.normal, rules, prereqs, stampPrereqs, hi, hstaging, needed]) hplaced
    · exact hstep hs (by simp [Rules.normal, rules, prereqs, stampPrereqs, hi, needed]) hbuilt

theorem whole_notOther_iff {L : Type*} {cut : Target P → Option (Cut L)} :
    T.rules.Whole (notOther p) cut ↔ (cut (.dotconfig p)).bind Cut.written = none := by
  rw [Option.bind_eq_none_iff]
  constructor
  · exact fun h c hc => h (.dotconfig p) c rfl rfl hc
  · rintro h t c hnot hearly hc
    cases t with
    | dotconfig q =>
      obtain rfl : q = p := hnot
      exact h c hc
    | _ => cases hearly

instance decidableWholeStep {L : Type*} (s : Store (Target P) L) :
    (a : Action (Target P) L) → Decidable (T.rules.wholeStep (notOther p) s a)
  | .call _ cut => decidable_of_iff ((cut (.dotconfig p)).bind Cut.written |>.isNone)
      (by rw [Option.isNone_iff_eq_none]; exact whole_notOther_iff.symm)
  | .edit _ _ => .isTrue trivial

/-- A first call fails after `.config` has been made; then the fragment file is edited, and a second call
fails before it is made again. -/
def editedHistory : List (Action (Target Sample) (List ℕ)) :=
  [.edit (.configFile 0 .busybox) [0], .edit (.configFile 1 .busybox) [1],
    .call [.goal .pkg .busybox] fun t => if t = .stamp .configured .busybox then some ⟨0, none⟩ else none,
    .edit (.configFile 1 .busybox) [5, 6],
    .call [.goal .pkg .busybox] fun t => if t = .dotconfig .busybox then some ⟨0, none⟩ else none]

theorem made_from_present_busybox : ∃ s₀ b,
    Transition.Run (sampleTree.rules.next madeFrom) (sampleTree.rules.wholeStep (notOther .busybox)) .empty
      editedHistory s₀ ∧
    sampleTree.rules.make madeFrom (fun _ => none) [.goal .pkg .busybox] s₀.files s₀.now = .ok b ∧
    (b.files (.stamp .targetInstalled .busybox)).map File.content = some (configLines b.files .busybox 2) := by
  obtain ⟨s₀, hrun, htest⟩ := Transition.exists_run_guarded (sampleTree.rules.next madeFrom)
    (sampleTree.rules.wholeStep (notOther .busybox)) .empty editedHistory
    (fun s => (sampleTree.rules.make madeFrom (fun _ => none) [.goal .pkg .busybox] s.files s.now).any
      fun _ => true) (by decide +kernel)
  obtain ⟨b, hb, -⟩ := Shell.Exit.exists_of_any _ _ htest
  exact ⟨s₀, b, hrun, hb, (made_from_present hrun (by decide) (by decide) hb rfl (by decide)).2
    .targetInstalled (by decide) rfl⟩

end Tree

end CargosBuildroot.Stamps
