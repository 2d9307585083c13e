import CargosBuildroot.Make.History
import CargosBuildroot.Stamps.Rules

/-! The order of the steps. When a step of a package begins, the steps in front of it are done, and so
are those of the packages that it depends on, whatever was asked for and however the call ends. -/

namespace CargosBuildroot.Stamps

open Make Relation Transition
open Packages (Kind)

variable {P : Type*}

/-- Goals for which nothing is removed. -/
def Goal.keeps : Goal → Bool
  | .dirclean | .cleanForReinstall | .reinstall | .cleanForRebuild | .rebuild | .cleanForReconfigure
  | .cleanKconfigForReconfigure | .reconfigure => false
  | _ => true

def Target.keeps : Target P → Bool
  | .dircleaned _ => false
  | .goal g _ => g.keeps
  | _ => true

namespace Tree

variable [DecidableEq P] (T : Tree P)

/-- The steps that put something into place for a package. -/
def installed (p : P) : List Stamp :=
  match (T.package p).kind with
  | .host => [.hostInstalled]
  | .target =>
    (if (T.package p).installStaging then [.stagingInstalled] else []) ++
      (if (T.package p).installTarget then [.targetInstalled] else []) ++
      if (T.package p).installImages then [.imagesInstalled] else []

/-- The steps after which the sources of a package are there. -/
def sourced (p : P) : List Stamp :=
  if (T.package p).overrideSrcdir then [.rsynced] else [.downloaded, .extracted, .patched]

/-- The steps in front of its configuration. -/
def prepared (p : P) : List Stamp :=
  T.sourced p ++ if (T.package p).kconfigFiles.isSome then [.kconfigFixupDone] else []

/-- The steps that goals of the package can ask for. -/
def stamped (p : P) : List Stamp := T.prepared p ++ [.configured, .built] ++ T.installed p

/-- The steps that the package asks for; there are none if it installs nothing. -/
def steps (p : P) : List Stamp := if T.installed p = [] then [] else T.stamped p

/-- The steps of the package that a step of it waits for. -/
def earlier (p : P) : Stamp → List Stamp
  | .downloaded | .rsynced => []
  | .extracted => [.downloaded]
  | .patched => [.downloaded, .extracted]
  | .kconfigFixupDone => T.sourced p
  | .configured => T.prepared p
  | .built => T.prepared p ++ [.configured]
  | .hostInstalled | .stagingInstalled | .imagesInstalled => T.prepared p ++ [.configured, .built]
  | .targetInstalled =>
    T.prepared p ++ [.configured, .built] ++
      if (T.package p).installStaging then [.stagingInstalled] else []

variable {T} {t u : Target P} {o : Bool} {p d : P} {s s' : Stamp}

omit [DecidableEq P] in
theorem mem_installed : s ∈ T.installed p ↔
    (s = .hostInstalled ∧ (T.package p).kind = .host) ∨
    (s = .stagingInstalled ∧ (T.package p).kind = .target ∧ (T.package p).installStaging = true) ∨
    (s = .targetInstalled ∧ (T.package p).kind = .target ∧ (T.package p).installTarget = true) ∨
    (s = .imagesInstalled ∧ (T.package p).kind = .target ∧ (T.package p).installImages = true) := by
  rw [installed]
  cases hkind : (T.package p).kind with
  | host => simp
  | target =>
    cases hstaging : (T.package p).installStaging <;> cases htarget : (T.package p).installTarget <;>
      cases himages : (T.package p).installImages <;> simp

omit [DecidableEq P] in
theorem mem_sourced : s ∈ T.sourced p ↔
    (s = .rsynced ∧ (T.package p).overrideSrcdir = true) ∨
    ((s = .downloaded ∨ s = .extracted ∨ s = .patched) ∧ (T.package p).overrideSrcdir = false) := by
  rw [sourced]
  cases hsrc : (T.package p).overrideSrcdir <;> simp

omit [DecidableEq P] in
theorem mem_prepared : s ∈ T.prepared p ↔
    s ∈ T.sourced p ∨ s = .kconfigFixupDone ∧ (T.package p).kconfigFiles.isSome = true := by
  rw [prepared]
  cases hk : (T.package p).kconfigFiles.isSome <;> simp

omit [DecidableEq P] in
theorem mem_stamped : s ∈ T.stamped p ↔
    s ∈ T.prepared p ∨ s = .configured ∨ s = .built ∨ s ∈ T.installed p := by
  simp [stamped]

omit [DecidableEq P] in
theorem mem_steps : s ∈ T.steps p ↔
    T.installed p ≠ [] ∧ (s ∈ T.prepared p ∨ s = .configured ∨ s = .built ∨ s ∈ T.installed p) := by
  rw [steps, ← mem_stamped]
  split
  next h => simp [h]
  next h => simp [h]

/-! ### Goals for which nothing is removed -/

omit [DecidableEq P] in
theorem Edge.keeps (h : T.Edge t u o) (ht : t.keeps = true) : u.keeps = true := by
  cases h with
  | dirclean | reinstallClean | reinstall | cleanForRebuild | rebuildClean | rebuild | cleanForReconfigure
  | cleanKconfig | reconfigureClean | reconfigure => cases ht
  | _ => rfl

theorem edge_of_needs (h : u ∈ T.rules.needs t) : ∃ o, T.Edge t u o := by
  obtain ⟨d, hd, rfl⟩ := Rules.mem_needs.mp h
  exact ⟨_, edge_of_prereqs hd⟩

theorem keeps_of_reach (h : T.rules.Reach t u) (ht : t.keeps = true) : u.keeps = true := by
  induction h with
  | refl => exact ht
  | tail _ hneeds ih =>
    obtain ⟨o, hedge⟩ := edge_of_needs hneeds
    exact hedge.keeps ih

theorem building (ht : t.keeps = true) : T.rules.Building t := by
  intro u hu ts hrecipe
  have hkeeps := keeps_of_reach hu ht
  change T.recipe u = .remove ts at hrecipe
  cases u with
  | dirs | prepare | coreDependencies | dependencies => exact (Recipe.remove.inj hrecipe).symm
  | stamp | dotconfig | configFile => cases hrecipe
  | dircleaned => cases hkeeps
  | goal g p =>
    cases g with
    | dirclean | cleanForReinstall | reinstall | cleanForRebuild | rebuild | cleanForReconfigure
    | cleanKconfigForReconfigure | reconfigure => cases hkeeps
    | _ => exact (Recipe.remove.inj hrecipe).symm

/-! ### What a step waits for -/

theorem reach_needed (u : Target P) (h : needed u ∈ T.prereqs t) : T.rules.Reach t u :=
  .single (Rules.mem_needs.mpr ⟨_, h, rfl⟩)

theorem reach_first (u : Target P) (h : first u ∈ T.prereqs t) : T.rules.Reach t u :=
  .single (Rules.mem_needs.mpr ⟨_, h, rfl⟩)

theorem reach_dependency (h : d ∈ (T.package p).finalDependencies) :
    T.rules.Reach (.stamp .configured p) (.goal .pkg d) :=
  reach_first (.goal .pkg d) (List.mem_append_left _ (List.mem_append_left _ (List.mem_map_of_mem h)))

theorem reach_patchDependency (hsrc : (T.package p).overrideSrcdir = false)
    (h : d ∈ (T.package p).finalPatchDependencies) : T.rules.Reach (.stamp .patched p) (.goal .patch d) := by
  refine reach_first (.goal .patch d) ?_
  rw [prereqs, stampPrereqs, hsrc]
  exact List.mem_cons_of_mem _ (List.mem_map_of_mem h)

theorem reach_configured : T.rules.Reach (.stamp .built p) (.stamp .configured p) :=
  reach_needed (.stamp .configured p) (by simp [prereqs, stampPrereqs])

theorem reach_patched (hsrc : (T.package p).overrideSrcdir = false) :
    T.rules.Reach (.goal .patch p) (.stamp .patched p) :=
  reach_needed (.stamp .patched p) (by simp [prereqs, goalPrereqs, hsrc])

theorem reach_rsynced (hsrc : (T.package p).overrideSrcdir = true) :
    T.rules.Reach (.goal .patch p) (.stamp .rsynced p) :=
  (reach_needed (t := .goal .patch p) (.goal .rsync p) (by simp [prereqs, goalPrereqs, hsrc])).trans
    (reach_needed (.stamp .rsynced p) (by simp [prereqs, goalPrereqs, hsrc]))

theorem reach_extracted (hsrc : (T.package p).overrideSrcdir = false) :
    T.rules.Reach (.stamp .patched p) (.stamp .extracted p) :=
  reach_needed (.stamp .extracted p) (by simp [prereqs, stampPrereqs, hsrc])

theorem reach_downloaded (hsrc : (T.package p).overrideSrcdir = false) :
    T.rules.Reach (.stamp .extracted p) (.stamp .downloaded p) :=
  reach_needed (.stamp .downloaded p) (by simp [prereqs, stampPrereqs, hsrc])

theorem reach_sourced (hs : s ∈ T.sourced p) : T.rules.Reach (.goal .patch p) (.stamp s p) := by
  rcases mem_sourced.mp hs with ⟨rfl, hsrc⟩ | ⟨rfl | rfl | rfl, hsrc⟩
  · exact reach_rsynced hsrc
  · exact (reach_patched hsrc).trans ((reach_extracted hsrc).trans (reach_downloaded hsrc))
  · exact (reach_patched hsrc).trans (reach_extracted hsrc)
  · exact reach_patched hsrc

theorem reach_dotconfig (hk : (T.package p).kconfigFiles.isSome = true) :
    T.rules.Reach (.stamp .kconfigFixupDone p) (.dotconfig p) :=
  reach_needed (.dotconfig p) (by simp [prereqs, stampPrereqs, hk])

theorem reach_dotconfig_patch (hk : (T.package p).kconfigFiles.isSome = true) :
    T.rules.Reach (.dotconfig p) (.goal .patch p) := by
  obtain ⟨n, hn⟩ := Option.isSome_iff_exists.mp hk
  exact reach_first (.goal .patch p) (by simp [prereqs, hn])

theorem reach_fixup (hk : (T.package p).kconfigFiles.isSome = true) :
    T.rules.Reach (.stamp .configured p) (.stamp .kconfigFixupDone p) :=
  reach_needed (.stamp .kconfigFixupDone p) (by simp [prereqs, stampPrereqs, hk])

/-- A kconfig package needs its sources for its `.config` already. -/
theorem reach_prepared (hs : s ∈ T.prepared p) : T.rules.Reach (.stamp .configured p) (.stamp s p) := by
  have hpatched : (T.package p).overrideSrcdir = false → T.rules.Reach (.stamp .configured p) (.stamp .patched p) :=
    fun hsrc => reach_needed (.stamp .patched p) (by simp [prereqs, stampPrereqs, hsrc])
  rcases mem_prepared.mp hs with hs | ⟨rfl, hk⟩
  · rcases mem_sourced.mp hs with ⟨rfl, hsrc⟩ | ⟨rfl | rfl | rfl, hsrc⟩
    · exact reach_first (.stamp .rsynced p) (by simp [prereqs, stampPrereqs, hsrc])
    · exact (hpatched hsrc).trans ((reach_extracted hsrc).trans (reach_downloaded hsrc))
    · exact (hpatched hsrc).trans (reach_extracted hsrc)
    · exact hpatched hsrc
  · exact reach_fixup hk

theorem reach_built (hs : s ∈ T.installed p) : T.rules.Reach (.stamp s p) (.stamp .built p) := by
  refine reach_needed (.stamp .built p) ?_
  rcases mem_installed.mp hs with ⟨rfl, -⟩ | ⟨rfl, -, h⟩ | ⟨rfl, -, h⟩ | ⟨rfl, -, h⟩
  · simp [prereqs, stampPrereqs]
  all_goals simp [prereqs, stampPrereqs, h]

theorem reach_install (g : Goal) (h : needed (.goal g p) ∈ T.prereqs (.goal .install p))
    (hs : needed (.stamp s p) ∈ T.prereqs (.goal g p)) : T.rules.Reach (.goal .pkg p) (.stamp s p) :=
  (reach_needed (.goal .install p) (by simp [prereqs, goalPrereqs])).trans
    ((reach_needed (.goal g p) h).trans (reach_needed (.stamp s p) hs))

theorem reach_installed (hs : s ∈ T.installed p) : T.rules.Reach (.goal .pkg p) (.stamp s p) := by
  rcases mem_installed.mp hs with ⟨rfl, hkind⟩ | ⟨rfl, hkind, h⟩ | ⟨rfl, hkind, h⟩ | ⟨rfl, hkind, h⟩
  · exact reach_install .installHost (by simp [prereqs, goalPrereqs, hkind]) (by simp [prereqs, goalPrereqs])
  · exact reach_install .installStaging (by simp [prereqs, goalPrereqs, hkind]) (by simp [prereqs, goalPrereqs, h])
  · exact reach_install .installTarget (by simp [prereqs, goalPrereqs, hkind]) (by simp [prereqs, goalPrereqs, h])
  · exact reach_install .installImages (by simp [prereqs, goalPrereqs, hkind]) (by simp [prereqs, goalPrereqs, h])

theorem reach_steps (hs : s ∈ T.steps p) : T.rules.Reach (.goal .pkg p) (.stamp s p) := by
  obtain ⟨hinstalled, hs⟩ := mem_steps.mp hs
  obtain ⟨i, hi⟩ := List.exists_mem_of_ne_nil _ hinstalled
  have hbuilt := (reach_installed hi).trans (reach_built hi)
  rcases hs with hs | rfl | rfl | hs
  · exact hbuilt.trans (reach_configured.trans (reach_prepared hs))
  · exact hbuilt.trans reach_configured
  · exact hbuilt
  · exact reach_installed hs

omit [DecidableEq P] in
theorem height_of_earlier (h : s' ∈ T.earlier p s) : s'.height < s.height := by
  have hsourced : ∀ {s}, s ∈ T.sourced p → s.height ≤ 2 := by
    intro s hs
    rcases mem_sourced.mp hs with ⟨rfl, -⟩ | ⟨rfl | rfl | rfl, -⟩
    all_goals decide
  have hprepared : ∀ {s}, s ∈ T.prepared p → s.height ≤ 6 := by
    intro s hs
    rcases mem_prepared.mp hs with hs | ⟨rfl, -⟩
    · exact (hsourced hs).trans (by decide)
    · decide
  cases s with
  | downloaded | rsynced => cases h
  | extracted => exact List.mem_singleton.mp h ▸ by decide
  | patched =>
    simp only [earlier, List.mem_cons, List.not_mem_nil, or_false] at h
    rcases h with rfl | rfl
    all_goals decide
  | kconfigFixupDone => exact Nat.lt_of_le_of_lt (hsourced h) (by decide)
  | configured => exact Nat.lt_of_le_of_lt (hprepared h) (by decide)
  | built =>
    rcases List.mem_append.mp h with h | h
    · exact Nat.lt_of_le_of_lt (hprepared h) (by decide)
    · exact List.mem_singleton.mp h ▸ by decide
  | hostInstalled | stagingInstalled | imagesInstalled =>
    simp only [earlier, List.mem_append, List.mem_cons, List.not_mem_nil, or_false] at h
    rcases h with h | rfl | rfl
    · exact Nat.lt_of_le_of_lt (hprepared h) (by decide)
    all_goals decide
  | targetInstalled =>
    simp only [earlier, List.mem_append, List.mem_cons, List.not_mem_nil, or_false] at h
    rcases h with (h | rfl | rfl) | h
    · exact Nat.lt_of_le_of_lt (hprepared h) (by decide)
    · decide
    · decide
    · split at h
      · exact List.mem_singleton.mp h ▸ by decide
      · cases h

theorem reach_earlier (hs : s ∈ T.stamped p) (h : s' ∈ T.earlier p s) :
    T.rules.Reach (.stamp s p) (.stamp s' p) := by
  have hbuilt : s' ∈ T.prepared p ++ [.configured] → T.rules.Reach (.stamp .built p) (.stamp s' p) := by
    intro h
    rcases List.mem_append.mp h with h | h
    · exact reach_configured.trans (reach_prepared h)
    · exact List.mem_singleton.mp h ▸ reach_configured
  have hinstall : s ∈ T.installed p → s' ∈ T.prepared p ++ [.configured, .built] →
      T.rules.Reach (.stamp s p) (.stamp s' p) := by
    intro hs h
    simp only [List.mem_append, List.mem_cons, List.not_mem_nil, or_false] at h
    rcases h with h | rfl | rfl
    · exact (reach_built hs).trans (hbuilt (List.mem_append_left _ h))
    · exact (reach_built hs).trans (hbuilt (by simp))
    · exact reach_built hs
  rcases mem_stamped.mp hs with hs | rfl | rfl | hs
  · rcases mem_prepared.mp hs with hs | ⟨rfl, hk⟩
    · rcases mem_sourced.mp hs with ⟨rfl, -⟩ | ⟨rfl | rfl | rfl, hsrc⟩
      · cases h
      · cases h
      · exact List.mem_singleton.mp h ▸ reach_downloaded hsrc
      · simp only [earlier, List.mem_cons, List.not_mem_nil, or_false] at h
        rcases h with rfl | rfl
        · exact (reach_extracted hsrc).trans (reach_downloaded hsrc)
        · exact reach_extracted hsrc
    · exact (reach_dotconfig hk).trans ((reach_dotconfig_patch hk).trans (reach_sourced h))
  · exact reach_prepared h
  · exact hbuilt h
  · rcases mem_installed.mp hs with ⟨rfl, -⟩ | ⟨rfl, -⟩ | ⟨rfl, -⟩ | ⟨rfl, -⟩
    · exact hinstall hs h
    · exact hinstall hs h
    · rcases List.mem_append.mp h with h | h
      · exact hinstall hs h
      · split at h
        next hstaging =>
          obtain rfl := List.mem_singleton.mp h
          exact reach_needed (.stamp .stagingInstalled p) (by simp [prereqs, stampPrereqs, hstaging])
        · cases h
    · exact hinstall hs h

omit [DecidableEq P] in
theorem not_override_of_patched (hs : s ∈ T.stamped p) (h : .patched ∈ s :: T.earlier p s) :
    (T.package p).overrideSrcdir = false := by
  have hmem : .patched ∈ T.sourced p := by
    rcases List.mem_cons.mp h with rfl | h
    · simpa [mem_prepared, mem_installed] using mem_stamped.mp hs
    · cases s with
      | downloaded | rsynced => cases h
      | extracted | patched => simp [earlier] at h
      | kconfigFixupDone => exact h
      | configured => simpa [earlier, mem_prepared] using h
      | built | hostInstalled | stagingInstalled | imagesInstalled => simpa [earlier, mem_prepared] using h
      | targetInstalled =>
        rw [earlier] at h
        split at h
        all_goals simpa [mem_prepared] using h
  simpa [mem_sourced] using hmem

/-- A package that the others do not wait for has its sources after all those that they wait for. -/
theorem reach_hostPrereq (hs : s ∈ T.stamped p) (hp : p ∉ T.hostPrereq) (hd : d ∈ T.hostPrereq) :
    T.rules.Reach (.stamp s p) (.goal .pkg d) := by
  have hsource : ∃ s', (s' = .downloaded ∨ s' = .rsynced) ∧ (s' = s ∨ s' ∈ T.earlier p s) := by
    have hsourced : ∃ s', (s' = .downloaded ∨ s' = .rsynced) ∧ s' ∈ T.sourced p := by
      rw [sourced]
      split
      · exact ⟨.rsynced, by simp⟩
      · exact ⟨.downloaded, by simp⟩
    obtain ⟨s', hs', hmem⟩ := hsourced
    have hprepared : s' ∈ T.prepared p := List.mem_append_left _ hmem
    cases s with
    | downloaded => exact ⟨.downloaded, by simp⟩
    | rsynced => exact ⟨.rsynced, by simp⟩
    | extracted | patched => exact ⟨.downloaded, by simp [earlier]⟩
    | kconfigFixupDone => exact ⟨s', hs', .inr hmem⟩
    | configured => exact ⟨s', hs', .inr hprepared⟩
    | built | hostInstalled | stagingInstalled | imagesInstalled | targetInstalled =>
      exact ⟨s', hs', .inr (by simp [earlier, hprepared])⟩
  obtain ⟨s', hs', hmem⟩ := hsource
  have hreach : T.rules.Reach (.stamp s p) (.stamp s' p) := by
    rcases hmem with rfl | hmem
    · exact .refl
    · exact reach_earlier hs hmem
  have hdependencies : T.rules.Reach (.stamp s' p) .dependencies := by
    refine reach_first .dependencies ?_
    rcases hs' with rfl | rfl
    all_goals simp [prereqs, stampPrereqs, hp]
  refine hreach.trans (hdependencies.trans (reach_needed (.goal .pkg d) ?_))
  exact List.mem_cons_of_mem _ (List.mem_map_of_mem hd)

/-! ### The order -/

variable {V : Type*} {produce : Target P → List (Option V) → V} {cut : Target P → Option (Cut V)}
  {goals goals' : List (Target P)} {f : Files (Target P) V} {n : ℕ} {b : Build (Target P) V}

/-- A step begins when the steps in front of it are done, also those of the packages that it depends
on, and it begins once. -/
theorem step_ready (hgoals : ∀ g ∈ goals, g.keeps = true) (htimes : ∀ t x, f t = some x → x.time ≤ n) :
    (T.rules.make produce cut goals f n).state.ran.Nodup ∧
      ∀ e ∈ (T.rules.make produce cut goals f n).state.log, ∀ p, ∀ s ∈ T.stamped p, e.1 = .stamp s p →
        (∀ s' ∈ T.earlier p s, e.2 (.stamp s' p) ≠ none) ∧
        (.configured ∈ s :: T.earlier p s → ∀ d ∈ (T.package p).finalDependencies,
          ∀ s' ∈ T.installed d, e.2 (.stamp s' d) ≠ none) ∧
        (.patched ∈ s :: T.earlier p s → ∀ d ∈ (T.package p).finalPatchDependencies,
          ∀ s' ∈ T.sourced d, e.2 (.stamp s' d) ≠ none) ∧
        (p ∉ T.hostPrereq → ∀ d ∈ T.hostPrereq, ∀ s' ∈ T.installed d, e.2 (.stamp s' d) ≠ none) := by
  obtain ⟨-, horder, hready⟩ := started produce cut (fun g hg => building (hgoals g hg)) htimes
  refine ⟨horder.imp fun {t u} h (heq : t = u) => h (by rw [heq]; exact .refl), ?_⟩
  intro e he p s hs hstep
  have hfile : ∀ s' d, T.rules.Reach (.stamp s p) (.stamp s' d) → Target.stamp s' d ≠ .stamp s p →
      e.2 (.stamp s' d) ≠ none :=
    fun s' d hreach hne => hready e he _ (hstep ▸ hreach) (hstep ▸ hne) rfl
  have hmem : ∀ s', s' ∈ s :: T.earlier p s → T.rules.Reach (.stamp s p) (.stamp s' p) := by
    intro s' h
    rcases List.mem_cons.mp h with rfl | h
    · exact .refl
    · exact reach_earlier hs h
  have hother : ∀ s' d, d ∈ (T.package p).finalAllDependencies → Target.stamp s' d ≠ .stamp s p := by
    rintro s' d hd ⟨⟩
    exact Nat.lt_irrefl _ (level_lt hd)
  refine ⟨fun s' hs' => ?_, fun hconf d hd s' hs' => ?_, fun hpatch d hd s' hs' => ?_, fun hp d hd s' hs' => ?_⟩
  · refine hfile s' p (reach_earlier hs hs') fun heq => ?_
    have hheight := height_of_earlier hs'
    rw [Target.stamp.inj heq |>.1] at hheight
    exact Nat.lt_irrefl _ hheight
  · exact hfile s' d ((hmem _ hconf).trans ((reach_dependency hd).trans (reach_installed hs')))
      (hother s' d (mem_allDependencies_of_mem hd))
  · have hsrc := not_override_of_patched hs hpatch
    exact hfile s' d ((hmem _ hpatch).trans ((reach_patchDependency hsrc hd).trans (reach_sourced hs')))
      (hother s' d (mem_allDependencies_of_mem_patch hd))
  · refine hfile s' d ((reach_hostPrereq hs hp hd).trans (reach_installed hs')) ?_
    rintro ⟨⟩
    exact hp hd

/-- What the files of the sample are made from does not matter to the order. -/
def sampleContent : Target Sample → List (Option (List ℕ)) → List ℕ := fun _ _ => []

theorem sampleFiles_times : ∀ t x, sampleFiles t = some x → x.time ≤ 0 := by
  intro t x hx
  unfold sampleFiles at hx
  split at hx
  · split at hx
    · rw [← Option.some.inj hx]
    · cases hx
  · cases hx

theorem step_ready_busybox :
    .stamp .configured .busybox ∈
      (sampleTree.rules.make sampleContent (fun _ => none) [.goal .pkg .busybox] sampleFiles 0).state.ran ∧
    ∀ e ∈ (sampleTree.rules.make sampleContent (fun _ => none) [.goal .pkg .busybox] sampleFiles 0).state.log,
      e.1 = .stamp .configured .busybox → e.2 (.stamp .targetInstalled .skeleton) ≠ none := by
  refine ⟨by decide +kernel, fun e he hstep => ?_⟩
  exact ((step_ready (T := sampleTree) (by decide) sampleFiles_times).2 e he .busybox .configured (by decide)
    hstep).2.1 (by decide) .skeleton (by decide) .targetInstalled (by decide)

/-! ### Calls that are repeated -/

/-- After a call that has succeeded there is nothing left to do for its goals, nor for any goal with no
other files than theirs. -/
theorem nothing_left (hgoals : ∀ g ∈ goals, g.keeps = true) (htimes : ∀ t x, f t = some x → x.time ≤ n)
    (hok : T.rules.make produce cut goals f n = .ok b) (hgoals' : ∀ g ∈ goals', g.keeps = true)
    (hbelow : ∀ g ∈ goals', ∀ t, T.rules.Reach g t → T.rules.isFile t = true → ∃ g₀ ∈ goals, T.rules.Reach g₀ t)
    (cut' : Target P → Option (Cut V)) (s : Stamp) (p : P) :
    .stamp s p ∉ (T.rules.make produce cut' goals' b.files b.now).state.ran ∧
      .dotconfig p ∉ (T.rules.make produce cut' goals' b.files b.now).state.ran := by
  have hbuilding : ∀ g ∈ goals, T.rules.Building g := fun g hg => building (hgoals g hg)
  have htracks := (tracks_of_ok hbuilding htimes hok).1
  have hnot : ∀ t, T.rules.isFile t = true →
      t ∉ (T.rules.make produce cut' goals' b.files b.now).state.ran := by
    intro t ht hmem
    obtain ⟨hout, g, hg, hreach⟩ := (started produce cut' (fun g hg => building (hgoals' g hg)) htracks.times).1 t hmem
    refine not_outdated (fun u hu hfile => ?_) ht hout
    obtain ⟨g₀, hg₀, hreach₀⟩ := hbelow g hg u (hreach.trans hu) hfile
    exact current_of_ok hbuilding htimes hok hg₀ hreach₀ hfile
  exact ⟨hnot _ rfl, hnot _ rfl⟩

theorem nothing_left_busybox : ∃ b,
    sampleTree.rules.make sampleContent (fun _ => none) [.goal .pkg .busybox] sampleFiles 0 = .ok b ∧
    .stamp .built .busybox ∉ (sampleTree.rules.make sampleContent (fun _ => some ⟨0, none⟩) [.goal .build .busybox]
      b.files b.now).state.ran := by
  obtain ⟨b, hb, -⟩ := Shell.Exit.exists_of_any
    (sampleTree.rules.make sampleContent (fun _ => none) [.goal .pkg .busybox] sampleFiles 0) (fun _ => true)
    (by decide +kernel)
  refine ⟨b, hb, (nothing_left (by decide) sampleFiles_times hb (by decide) ?_ (fun _ => some ⟨0, none⟩) .built .busybox).1⟩
  intro g hg t hreach ht
  obtain rfl := List.mem_singleton.mp hg
  refine ⟨.goal .pkg .busybox, by decide, ?_⟩
  rcases ReflTransGen.cases_head hreach with rfl | ⟨d, hd, hreach⟩
  · cases ht
  · obtain rfl := List.mem_singleton.mp hd
    exact (reach_steps (T := sampleTree) (p := .busybox) (s := .built) (by decide)).trans hreach

theorem normal_configFile (i : ℕ) (p : P) : T.rules.normal (.configFile i p) = [] := by
  simp only [Rules.normal, rules, prereqs]
  split
  all_goals rfl

/-- Calls for any goals that may end at any point, and edits, and then a call in which no recipe fails:
it succeeds if the configuration files are there, and every step that it has to do with is done and no
older than what it is compared with. -/
theorem completes {s₀ : Store (Target P) V} {l : List (Action (Target P) V)}
    (hrun : Run (T.rules.next produce) anyStep .empty l s₀)
    (hgoals : ∀ g ∈ goals, ∃ a p, g = .goal a p ∧ a.keeps = true)
    (hconfig : ∀ p k i, (T.package p).kconfigFiles = some k → i < k → s₀.files (.configFile i p) ≠ none)
    (hcut : ∀ t, cut t = none) :
    ∃ b, T.rules.make produce cut goals s₀.files s₀.now = .ok b ∧ ∀ p, .goal .pkg p ∈ goals → ∀ s ∈ T.steps p,
      T.rules.Current b.files (.stamp s p) ∧ ∀ d ∈ (T.package p).finalDependencies, ∀ s' ∈ T.installed d,
        b.files (.stamp s' d) ≠ none := by
  have htimes := times_of_run hrun
  have hbuilding : ∀ g ∈ goals, T.rules.Building g := by
    intro g hg
    obtain ⟨a, p, rfl, ha⟩ := hgoals g hg
    exact building ha
  have habsent : ∀ g ∈ goals, ∀ t, T.rules.Reach g t → T.rules.recipe t = .absent →
      s₀.files t ≠ none ∧ T.rules.normal t = [] := by
    intro g hg t hreach hrecipe
    obtain ⟨a, p, rfl, -⟩ := hgoals g hg
    change T.recipe t = .absent at hrecipe
    rcases ReflTransGen.cases_tail hreach with rfl | ⟨u, -, hneeds⟩
    · cases a <;> cases hrecipe
    · obtain ⟨o, hedge⟩ := edge_of_needs hneeds
      cases hedge with
      | @configFile p k i hk hi => exact ⟨hconfig p k i hk hi, normal_configFile i p⟩
      | _ => cases hrecipe
  obtain ⟨b, hok⟩ := exists_ok produce hbuilding htimes hcut habsent
  refine ⟨b, hok, fun p hp s hs => ⟨current_of_ok hbuilding htimes hok hp (reach_steps hs) rfl, fun d hd s' hs' => ?_⟩⟩
  have hconf : .configured ∈ T.steps p := mem_steps.mpr ⟨(mem_steps.mp hs).1, by simp⟩
  obtain ⟨x, hx, -⟩ := current_of_ok hbuilding htimes hok hp
    ((reach_steps hconf).trans ((reach_dependency hd).trans (reach_installed hs'))) rfl
  exact hx ▸ Option.some_ne_none x

/-- The files are written, a call fails and leaves stamps behind, another one removes some of them. -/
def sampleHistory : List (Action (Target Sample) (List ℕ)) :=
  [.edit (.configFile 0 .busybox) [0], .edit (.configFile 1 .busybox) [1],
    .call [.goal .pkg .busybox] fun t => if t = .stamp .targetInstalled .busybox then some ⟨0, none⟩ else none,
    .call [.goal .dirclean .skeleton] fun t => if t = .dircleaned .skeleton then some ⟨3, none⟩ else none]

theorem completes_busybox : ∃ s₀ b,
    Run (sampleTree.rules.next sampleContent) anyStep .empty sampleHistory s₀ ∧
    sampleTree.rules.make sampleContent (fun _ => none) [.goal .pkg .busybox] s₀.files s₀.now = .ok b ∧
    b.files (.stamp .stagingInstalled .skeleton) ≠ none := by
  obtain ⟨s₀, hrun, hfiles⟩ := exists_run (sampleTree.rules.next sampleContent) .empty sampleHistory
    (fun s => (s.files (.configFile 0 .busybox)).isSome && (s.files (.configFile 1 .busybox)).isSome)
    (by decide +kernel)
  have hconfig : ∀ p k i, (sampleTree.package p).kconfigFiles = some k → i < k →
      s₀.files (.configFile i p) ≠ none := by
    intro p k i hk hi
    rw [Bool.and_eq_true, Option.isSome_iff_ne_none, Option.isSome_iff_ne_none] at hfiles
    cases p with
    | hostTar | skeleton => cases hk
    | busybox =>
      obtain rfl := Option.some.inj hk
      rcases i with _ | _ | i
      · exact hfiles.1
      · exact hfiles.2
      · omega
  have hcut : ∀ t : Target Sample, (fun _ => none : Target Sample → Option (Cut (List ℕ))) t = none := fun _ => rfl
  obtain ⟨b, hok, hdone⟩ := completes hrun
    (fun g (hg : g ∈ [.goal .pkg .busybox]) => ⟨.pkg, .busybox, List.mem_singleton.mp hg, rfl⟩) hconfig hcut
  exact ⟨s₀, b, hrun, hok, (hdone .busybox (by decide) .built (by decide)).2 .skeleton (by decide) .stagingInstalled
    (by decide)⟩

/-- A call of make in which nothing is removed. -/
def onlyBuilds : Store (Target P) V → Action (Target P) V → Prop
  | _, .call goals _ => ∀ g ∈ goals, g.keeps = true
  | _, .edit _ _ => False

theorem settled_run {s s' : Store (Target P) V} {l : List (Action (Target P) V)}
    (hsettled : Settled T.rules s.files) (htimes : ∀ t x, s.files t = some x → x.time ≤ s.now)
    (hrun : Run (T.rules.next produce) onlyBuilds s l s') :
    (Settled T.rules s'.files ∧ ∀ t x, s'.files t = some x → x.time ≤ s'.now) ∧
      ∀ t, s.files t ≠ none → T.rules.isFile t = true → s'.files t = s.files t := by
  refine hrun.inv (fun _ s' => (Settled T.rules s'.files ∧ ∀ t x, s'.files t = some x → x.time ≤ s'.now) ∧
    ∀ t, s.files t ≠ none → T.rules.isFile t = true → s'.files t = s.files t)
    ⟨⟨hsettled, htimes⟩, fun _ _ _ => rfl⟩ ?_
  rintro _ s' (⟨goals, cut⟩ | ⟨t, v⟩) s'' - ⟨⟨hsettled, htimes⟩, hsame⟩ hallow hnext
  · obtain rfl := Option.some.inj hnext
    have hbuilding : ∀ g ∈ goals, T.rules.Building g := fun g hg => building (hallow g hg)
    obtain ⟨hsettled', hkept⟩ := hsettled.make produce cut hbuilding htimes
    refine ⟨⟨hsettled', ?_⟩, fun t hthere ht => ?_⟩
    · have hholds := holds_tracks produce cut hbuilding htimes
      revert hholds
      simp only [Build.store]
      cases T.rules.make produce cut goals s'.files s'.now with
      | ok b => exact fun h => h.1.times
      | fail e b =>
        exact Stopped.times
    · have hthere' : s'.files t ≠ none := hsame t hthere ht ▸ hthere
      exact ((hkept t hthere' ht).2).trans (hsame t hthere ht)
  · cases hallow

/-- Calls that only build, of which any may fail anywhere, starting with nothing but the
configuration files: a step that has once left its stamp is never begun again. -/
theorem step_never_repeated {f₀ : Files (Target P) V} {n₀ : ℕ}
    (hf₀ : ∀ t, f₀ t ≠ none → ∃ i p, t = .configFile i p) (htimes₀ : ∀ t x, f₀ t = some x → x.time ≤ n₀)
    {s₁ s₂ : Store (Target P) V} {l₁ l₂ : List (Action (Target P) V)}
    (hrun₁ : Run (T.rules.next produce) onlyBuilds ⟨f₀, n₀⟩ l₁ s₁)
    (hrun₂ : Run (T.rules.next produce) onlyBuilds s₁ l₂ s₂) (hgoals : ∀ g ∈ goals, g.keeps = true)
    (hthere : s₁.files (.stamp s p) ≠ none) :
    s₂.files (.stamp s p) = s₁.files (.stamp s p) ∧
      .stamp s p ∉ (T.rules.make produce cut goals s₂.files s₂.now).state.ran := by
  have hsettled₀ : Settled T.rules f₀ := by
    intro t x hx ht
    obtain ⟨i, q, rfl⟩ := hf₀ t (hx ▸ Option.some_ne_none x)
    refine ⟨x, hx, fun d hd => ?_⟩
    rw [normal_configFile] at hd
    cases hd
  obtain ⟨⟨hsettled₁, htimes₁⟩, -⟩ := settled_run hsettled₀ htimes₀ hrun₁
  obtain ⟨⟨hsettled₂, htimes₂⟩, hsame⟩ := settled_run hsettled₁ htimes₁ hrun₂
  have hsame := hsame (.stamp s p) hthere rfl
  have hthere₂ : s₂.files (.stamp s p) ≠ none := hsame ▸ hthere
  exact ⟨hsame, ((hsettled₂.make produce cut (fun g hg => building (hgoals g hg)) htimes₂).2 _ hthere₂ rfl).1⟩

instance decidableOnlyBuilds (s : Store (Target P) V) :
    (a : Action (Target P) V) → Decidable (onlyBuilds s a)
  | .call goals _ => inferInstanceAs (Decidable (∀ g ∈ goals, g.keeps = true))
  | .edit _ _ => inferInstanceAs (Decidable False)

theorem exists_run_call (T : Tree P) (produce : Target P → List (Option V) → V) (s : Store (Target P) V)
    (hgoals : ∀ g ∈ goals, g.keeps = true) : ∃ s', Run (T.rules.next produce) onlyBuilds s
      [.call goals fun _ => none] s' :=
  ⟨_, .snoc (l := []) .nil hgoals (Rules.next_call goals _ s)⟩

/-- A call that fails when busybox is to be installed, and a second one. -/
theorem step_never_repeated_busybox : ∃ s₁ s₂ : Store (Target Sample) (List ℕ),
    s₁.files (.stamp .built .busybox) ≠ none ∧
    s₂.files (.stamp .built .busybox) = s₁.files (.stamp .built .busybox) ∧
    .stamp .built .busybox ∉
      (sampleTree.rules.make sampleContent (fun _ => none) [.goal .pkg .busybox] s₂.files s₂.now).state.ran := by
  obtain ⟨s₁, hrun₁, h₁⟩ := exists_run_guarded (sampleTree.rules.next sampleContent) onlyBuilds ⟨sampleFiles, 0⟩
    [.call [.goal .pkg .busybox] fun t => if t = .stamp .targetInstalled .busybox then some ⟨0, none⟩ else none]
    (fun s => (s.files (.stamp .built .busybox)).isSome) (by decide +kernel)
  have hthere := Option.isSome_iff_ne_none.mp h₁
  have hkeeps : ∀ g ∈ [Target.goal .pkg Sample.busybox], g.keeps = true := by decide
  obtain ⟨s₂, hrun₂⟩ := exists_run_call sampleTree sampleContent s₁ hkeeps
  have hsample : ∀ t, sampleFiles t ≠ none → ∃ i p, t = .configFile i p := by
    intro t ht
    unfold sampleFiles at ht
    split at ht
    · exact ⟨_, _, rfl⟩
    · exact absurd rfl ht
  obtain ⟨hsame, hnot⟩ := step_never_repeated hsample sampleFiles_times hrun₁ hrun₂ hkeeps hthere
  exact ⟨s₁, s₂, hthere, hsame, hnot⟩

end Tree

end CargosBuildroot.Stamps
