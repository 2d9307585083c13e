import CargosBuildroot.Make.Update
import CargosBuildroot.Packages.Declared
import Mathlib.Algebra.Order.Group.Nat

/-! The rules that `inner-generic-package` and `inner-kconfig-package` write for a package: each of
its steps leaves a stamp in the build directory of the package, which the next steps depend on. -/

namespace CargosBuildroot.Stamps

open Make
open Packages (Kind)

/-- The stamps of a package, `.stamp_downloaded` to `.stamp_target_installed`. -/
inductive Stamp
  | downloaded
  | extracted
  | rsynced
  | patched
  | kconfigFixupDone
  | configured
  | built
  | hostInstalled
  | stagingInstalled
  | imagesInstalled
  | targetInstalled
  deriving DecidableEq

/-- The phony targets of a package, by what stands behind its name. -/
inductive Goal
  | pkg
  | install
  | installHost
  | installStaging
  | installTarget
  | installImages
  | build
  | configure
  | patch
  | extract
  | depends
  | source
  | rsync
  | dirclean
  | cleanForReinstall
  | reinstall
  | cleanForRebuild
  | rebuild
  | cleanForReconfigure
  | cleanKconfigForReconfigure
  | reconfigure
  deriving DecidableEq

inductive Target (P : Type*)
  | dirs
  | prepare
  | coreDependencies
  | dependencies
  | goal (g : Goal) (p : P)
  | stamp (s : Stamp) (p : P)
  | dotconfig (p : P)
  /-- The configuration file of the package and the fragment files, in their order. -/
  | configFile (i : ℕ) (p : P)
  | dircleaned (p : P)
  deriving DecidableEq

/-- The variables of a package that its rules depend on. A kconfig package has a number of
configuration files. -/
structure Package (P : Type*) where
  kind : Kind
  overrideSrcdir : Bool
  installStaging : Bool
  installImages : Bool
  installTarget : Bool
  finalDependencies : List P
  finalPatchDependencies : List P
  kconfigFiles : Option ℕ

variable {P : Type*}

def Package.finalAllDependencies (v : Package P) : List P :=
  v.finalDependencies ++ v.finalPatchDependencies

/-- The packages of a configuration. None depends on itself, and what is needed by a package that
all others wait for waits for none. -/
structure Tree (P : Type*) where
  package : P → Package P
  hostPrereq : List P
  depth : P → ℕ
  depth_lt : ∀ p, ∀ d ∈ (package p).finalAllDependencies, depth d < depth p
  hostPrereq_closed : ∀ p ∈ hostPrereq, ∀ d ∈ (package p).finalAllDependencies, d ∈ hostPrereq

/-- A prerequisite in front of the bar. -/
def needed {T : Type*} (t : T) : Prereq T := ⟨t, false⟩

/-- A prerequisite behind the bar. -/
def first {T : Type*} (t : T) : Prereq T := ⟨t, true⟩

namespace Tree

variable [DecidableEq P] (T : Tree P)

def stampPrereqs (p : P) : Stamp → List (Prereq (Target P))
  | .downloaded | .rsynced =>
    [first .dirs, first .prepare] ++ if p ∈ T.hostPrereq then [] else [first .dependencies]
  | .extracted => if (T.package p).overrideSrcdir then [] else [needed (.stamp .downloaded p)]
  | .patched =>
    if (T.package p).overrideSrcdir then []
    else needed (.stamp .extracted p) ::
      (T.package p).finalPatchDependencies.map fun d => first (.goal .patch d)
  | .kconfigFixupDone =>
    if (T.package p).kconfigFiles.isSome then [needed (.dotconfig p)] else []
  | .configured =>
    (T.package p).finalDependencies.map (fun d => first (.goal .pkg d)) ++
      (if (T.package p).overrideSrcdir then [first (.stamp .rsynced p)]
        else [needed (.stamp .patched p)]) ++
      if (T.package p).kconfigFiles.isSome then [needed (.stamp .kconfigFixupDone p)] else []
  | .built => [needed (.stamp .configured p)]
  | .hostInstalled => [needed (.stamp .built p)]
  | .stagingInstalled => if (T.package p).installStaging then [needed (.stamp .built p)] else []
  | .imagesInstalled => if (T.package p).installImages then [needed (.stamp .built p)] else []
  | .targetInstalled =>
    (if (T.package p).installTarget then [needed (.stamp .built p)] else []) ++
      -- some packages use what they install to staging
      if (T.package p).installStaging then [needed (.stamp .stagingInstalled p)] else []

def goalPrereqs (p : P) : Goal → List (Prereq (Target P))
  | .pkg => [needed (.goal .install p)]
  | .install =>
    match (T.package p).kind with
    | .host => [needed (.goal .installHost p)]
    | .target =>
      [needed (.goal .installStaging p), needed (.goal .installTarget p), needed (.goal .installImages p)]
  | .installHost => [needed (.stamp .hostInstalled p)]
  | .installStaging =>
    if (T.package p).installStaging then [needed (.stamp .stagingInstalled p)] else []
  | .installTarget =>
    if (T.package p).installTarget then [needed (.stamp .targetInstalled p)] else []
  | .installImages =>
    if (T.package p).installImages then [needed (.stamp .imagesInstalled p)] else []
  | .build => [needed (.stamp .built p)]
  | .configure => [needed (.stamp .configured p)]
  | .patch =>
    if (T.package p).overrideSrcdir then [needed (.goal .rsync p)] else [needed (.stamp .patched p)]
  | .extract =>
    if (T.package p).overrideSrcdir then [needed (.goal .rsync p)] else [needed (.stamp .extracted p)]
  | .depends => (T.package p).finalDependencies.map fun d => needed (.goal .pkg d)
  | .source => if (T.package p).overrideSrcdir then [] else [needed (.stamp .downloaded p)]
  | .rsync => if (T.package p).overrideSrcdir then [needed (.stamp .rsynced p)] else []
  | .dirclean => [needed (.dircleaned p)]
  | .cleanForReinstall => []
  | .reinstall => [needed (.goal .cleanForReinstall p), needed (.goal .pkg p)]
  | .cleanForRebuild => [needed (.goal .cleanForReinstall p)]
  | .rebuild => [needed (.goal .cleanForRebuild p), needed (.goal .pkg p)]
  | .cleanForReconfigure =>
    needed (.goal .cleanForRebuild p) ::
      if (T.package p).kconfigFiles.isSome then [needed (.goal .cleanKconfigForReconfigure p)] else []
  | .cleanKconfigForReconfigure => []
  | .reconfigure => [needed (.goal .cleanForReconfigure p), needed (.goal .pkg p)]

def prereqs : Target P → List (Prereq (Target P))
  | .dirs | .prepare | .coreDependencies => []
  | .dependencies =>
    needed .coreDependencies :: T.hostPrereq.map fun p => needed (.goal .pkg p)
  | .goal g p => T.goalPrereqs p g
  | .stamp s p => T.stampPrereqs p s
  | .dotconfig p =>
    match (T.package p).kconfigFiles with
    | none => []
    | some n => (List.range n).map (fun i => needed (.configFile i p)) ++ [first (.goal .patch p)]
  | .configFile _ p =>
    if (T.package p).kconfigFiles.isSome then [first (.goal .patch p)] else []
  | .dircleaned _ => []

def stamps : List Stamp :=
  [.downloaded, .extracted, .rsynced, .patched, .kconfigFixupDone, .configured, .built, .hostInstalled,
    .stagingInstalled, .imagesInstalled, .targetInstalled]

def recipe : Target P → Recipe (Target P)
  | .stamp _ _ | .dotconfig _ => .create
  | .configFile _ _ => .absent
  | .dircleaned p => .remove (.dotconfig p :: stamps.map fun s => .stamp s p)
  | .goal .cleanForReinstall p =>
    .remove ((if (T.package p).overrideSrcdir then [.stamp .rsynced p] else []) ++
      [.stamp .stagingInstalled p, .stamp .targetInstalled p, .stamp .imagesInstalled p,
        .stamp .hostInstalled p])
  | .goal .cleanForRebuild p => .remove [.stamp .built p]
  | .goal .cleanForReconfigure p => .remove [.stamp .configured p]
  | .goal .cleanKconfigForReconfigure p => .remove [.stamp .kconfigFixupDone p]
  | .goal _ _ | .dirs | .prepare | .coreDependencies | .dependencies => .remove []

/-- The configuration file is installed as `.config` before the fragments are merged into it; a stamp is
touched at the end. -/
def early : Target P → Bool
  | .dotconfig _ => true
  | _ => false

end Tree

/-! ### No target depends on itself -/

/-- The place of a step among those of its package. -/
def Stamp.height : Stamp → ℕ
  | .downloaded | .rsynced => 0
  | .extracted => 1
  | .patched => 2
  | .kconfigFixupDone => 6
  | .configured => 7
  | .built => 8
  | .hostInstalled | .stagingInstalled | .imagesInstalled => 9
  | .targetInstalled => 10

def Goal.height : Goal → ℕ
  | .depends | .cleanForReinstall | .cleanKconfigForReconfigure => 0
  | .source | .rsync | .dirclean | .cleanForRebuild => 1
  | .extract | .cleanForReconfigure => 2
  | .patch => 3
  | .configure => 8
  | .build => 9
  | .installHost | .installStaging | .installTarget | .installImages => 11
  | .install => 12
  | .pkg => 13
  | .reinstall | .rebuild | .reconfigure => 14

theorem Stamp.height_le (s : Stamp) : s.height ≤ 10 := by cases s <;> decide

theorem Goal.height_le (g : Goal) : g.height ≤ 14 := by cases g <;> decide

namespace Tree

variable [DecidableEq P] (T : Tree P)

/-- Above all packages that the others wait for. -/
def top : ℕ := T.hostPrereq.foldr (fun p n => T.depth p + 1 + n) 0

def level (p : P) : ℕ := if p ∈ T.hostPrereq then T.depth p else T.top + T.depth p + 1

def rank : Target P → ℕ
  | .dirs | .prepare | .coreDependencies => 0
  | .dependencies => 32 * T.top + 20
  | .goal g p => 32 * T.level p + g.height + 1
  | .stamp s p => 32 * T.level p + s.height + 1
  | .dotconfig p => 32 * T.level p + 6
  | .configFile _ p => 32 * T.level p + 5
  | .dircleaned p => 32 * T.level p + 1

variable {T} {p d : P}

theorem level_lt_top (h : p ∈ T.hostPrereq) : T.level p < T.top := by
  rw [level, if_pos h, top]
  generalize T.hostPrereq = l at h
  induction l with
  | nil => cases h
  | cons d l ih =>
    rw [List.foldr_cons]
    rcases List.mem_cons.mp h with rfl | h
    · omega
    · have hlt := ih h
      omega

theorem top_lt_level (h : p ∉ T.hostPrereq) : T.top < T.level p := by
  rw [level, if_neg h]
  omega

theorem level_lt (h : d ∈ (T.package p).finalAllDependencies) : T.level d < T.level p := by
  have hdepth := T.depth_lt p d h
  by_cases hp : p ∈ T.hostPrereq
  · rw [level, level, if_pos hp, if_pos (T.hostPrereq_closed p hp d h)]
    exact hdepth
  · by_cases hd : d ∈ T.hostPrereq
    · exact (level_lt_top hd).trans (top_lt_level hp)
    · rw [level, level, if_neg hp, if_neg hd]
      omega

omit [DecidableEq P] in
theorem mem_allDependencies_of_mem (h : d ∈ (T.package p).finalDependencies) :
    d ∈ (T.package p).finalAllDependencies :=
  List.mem_append_left _ h

omit [DecidableEq P] in
theorem mem_allDependencies_of_mem_patch (h : d ∈ (T.package p).finalPatchDependencies) :
    d ∈ (T.package p).finalAllDependencies :=
  List.mem_append_right _ h

theorem rank_pkg_lt (h : d ∈ (T.package p).finalDependencies) :
    T.rank (.goal .pkg d) < 32 * T.level p := by
  have := level_lt (mem_allDependencies_of_mem h)
  simp only [rank, Goal.height]
  omega

variable (T) in
/-- What a target may wait for, rule by rule. -/
inductive Edge : Target P → Target P → Bool → Prop
  | dirs {s : Stamp} {p : P} (hs : s = .downloaded ∨ s = .rsynced) : Edge (.stamp s p) .dirs true
  | prepare {s : Stamp} {p : P} (hs : s = .downloaded ∨ s = .rsynced) : Edge (.stamp s p) .prepare true
  | dependencies {s : Stamp} {p : P} (hs : s = .downloaded ∨ s = .rsynced) (hp : p ∉ T.hostPrereq) :
      Edge (.stamp s p) .dependencies true
  | core : Edge .dependencies .coreDependencies false
  | hostPrereq {p : P} (hp : p ∈ T.hostPrereq) : Edge .dependencies (.goal .pkg p) false
  | downloaded {p : P} (hsrc : (T.package p).overrideSrcdir = false) :
      Edge (.stamp .extracted p) (.stamp .downloaded p) false
  | extracted {p : P} (hsrc : (T.package p).overrideSrcdir = false) :
      Edge (.stamp .patched p) (.stamp .extracted p) false
  | patchDependency {p d : P} (hsrc : (T.package p).overrideSrcdir = false)
      (hd : d ∈ (T.package p).finalPatchDependencies) : Edge (.stamp .patched p) (.goal .patch d) true
  | configFile {p : P} {n i : ℕ} (hn : (T.package p).kconfigFiles = some n) (hi : i < n) :
      Edge (.dotconfig p) (.configFile i p) false
  | dotconfigPatch {p : P} (hk : (T.package p).kconfigFiles.isSome = true) :
      Edge (.dotconfig p) (.goal .patch p) true
  | configFilePatch {p : P} {i : ℕ} (hk : (T.package p).kconfigFiles.isSome = true) :
      Edge (.configFile i p) (.goal .patch p) true
  | dotconfig {p : P} (hk : (T.package p).kconfigFiles.isSome = true) :
      Edge (.stamp .kconfigFixupDone p) (.dotconfig p) false
  | dependency {p d : P} (hd : d ∈ (T.package p).finalDependencies) :
      Edge (.stamp .configured p) (.goal .pkg d) true
  | rsynced {p : P} (hsrc : (T.package p).overrideSrcdir = true) :
      Edge (.stamp .configured p) (.stamp .rsynced p) true
  | patched {p : P} (hsrc : (T.package p).overrideSrcdir = false) :
      Edge (.stamp .configured p) (.stamp .patched p) false
  | fixup {p : P} (hk : (T.package p).kconfigFiles.isSome = true) :
      Edge (.stamp .configured p) (.stamp .kconfigFixupDone p) false
  | configured {p : P} : Edge (.stamp .built p) (.stamp .configured p) false
  | hostBuilt {p : P} : Edge (.stamp .hostInstalled p) (.stamp .built p) false
  | stagingBuilt {p : P} (h : (T.package p).installStaging = true) :
      Edge (.stamp .stagingInstalled p) (.stamp .built p) false
  | imagesBuilt {p : P} (h : (T.package p).installImages = true) :
      Edge (.stamp .imagesInstalled p) (.stamp .built p) false
  | targetBuilt {p : P} (h : (T.package p).installTarget = true) :
      Edge (.stamp .targetInstalled p) (.stamp .built p) false
  | targetStaging {p : P} (h : (T.package p).installStaging = true) :
      Edge (.stamp .targetInstalled p) (.stamp .stagingInstalled p) false
  | install {p : P} : Edge (.goal .pkg p) (.goal .install p) false
  | host {p : P} (h : (T.package p).kind = .host) : Edge (.goal .install p) (.goal .installHost p) false
  | staging {p : P} (h : (T.package p).kind = .target) : Edge (.goal .install p) (.goal .installStaging p) false
  | target {p : P} (h : (T.package p).kind = .target) : Edge (.goal .install p) (.goal .installTarget p) false
  | images {p : P} (h : (T.package p).kind = .target) : Edge (.goal .install p) (.goal .installImages p) false
  | installHost {p : P} : Edge (.goal .installHost p) (.stamp .hostInstalled p) false
  | installStaging {p : P} (h : (T.package p).installStaging = true) :
      Edge (.goal .installStaging p) (.stamp .stagingInstalled p) false
  | installTarget {p : P} (h : (T.package p).installTarget = true) :
      Edge (.goal .installTarget p) (.stamp .targetInstalled p) false
  | installImages {p : P} (h : (T.package p).installImages = true) :
      Edge (.goal .installImages p) (.stamp .imagesInstalled p) false
  | build {p : P} : Edge (.goal .build p) (.stamp .built p) false
  | configure {p : P} : Edge (.goal .configure p) (.stamp .configured p) false
  | patch {p : P} (hsrc : (T.package p).overrideSrcdir = false) :
      Edge (.goal .patch p) (.stamp .patched p) false
  | patchRsync {p : P} (hsrc : (T.package p).overrideSrcdir = true) : Edge (.goal .patch p) (.goal .rsync p) false
  | extract {p : P} (hsrc : (T.package p).overrideSrcdir = false) :
      Edge (.goal .extract p) (.stamp .extracted p) false
  | extractRsync {p : P} (hsrc : (T.package p).overrideSrcdir = true) :
      Edge (.goal .extract p) (.goal .rsync p) false
  | depends {p d : P} (hd : d ∈ (T.package p).finalDependencies) : Edge (.goal .depends p) (.goal .pkg d) false
  | source {p : P} (hsrc : (T.package p).overrideSrcdir = false) :
      Edge (.goal .source p) (.stamp .downloaded p) false
  | rsync {p : P} (hsrc : (T.package p).overrideSrcdir = true) : Edge (.goal .rsync p) (.stamp .rsynced p) false
  | dirclean {p : P} : Edge (.goal .dirclean p) (.dircleaned p) false
  | reinstallClean {p : P} : Edge (.goal .reinstall p) (.goal .cleanForReinstall p) false
  | reinstall {p : P} : Edge (.goal .reinstall p) (.goal .pkg p) false
  | cleanForRebuild {p : P} : Edge (.goal .cleanForRebuild p) (.goal .cleanForReinstall p) false
  | rebuildClean {p : P} : Edge (.goal .rebuild p) (.goal .cleanForRebuild p) false
  | rebuild {p : P} : Edge (.goal .rebuild p) (.goal .pkg p) false
  | cleanForReconfigure {p : P} : Edge (.goal .cleanForReconfigure p) (.goal .cleanForRebuild p) false
  | cleanKconfig {p : P} (hk : (T.package p).kconfigFiles.isSome = true) :
      Edge (.goal .cleanForReconfigure p) (.goal .cleanKconfigForReconfigure p) false
  | reconfigureClean {p : P} : Edge (.goal .reconfigure p) (.goal .cleanForReconfigure p) false
  | reconfigure {p : P} : Edge (.goal .reconfigure p) (.goal .pkg p) false

theorem edge_of_stampPrereqs {s : Stamp} {t : Prereq (Target P)} (h : t ∈ T.stampPrereqs p s) :
    T.Edge (.stamp s p) t.target t.orderOnly := by
  cases s with
  | downloaded | rsynced =>
    simp only [stampPrereqs, List.mem_append, List.mem_cons, List.not_mem_nil, or_false] at h
    rcases h with (rfl | rfl) | h
    · exact .dirs (by simp)
    · exact .prepare (by simp)
    · split at h
      · cases h
      next hp =>
        obtain rfl := List.mem_singleton.mp h
        exact .dependencies (by simp) hp
  | extracted =>
    rw [stampPrereqs] at h
    split at h
    · cases h
    next hsrc =>
      obtain rfl := List.mem_singleton.mp h
      exact .downloaded (Bool.not_eq_true _ ▸ hsrc)
  | patched =>
    rw [stampPrereqs] at h
    split at h
    · cases h
    next hsrc =>
      rcases List.mem_cons.mp h with rfl | h
      · exact .extracted (Bool.not_eq_true _ ▸ hsrc)
      · obtain ⟨d, hd, rfl⟩ := List.mem_map.mp h
        exact .patchDependency (Bool.not_eq_true _ ▸ hsrc) hd
  | kconfigFixupDone =>
    rw [stampPrereqs] at h
    split at h
    next hk =>
      obtain rfl := List.mem_singleton.mp h
      exact .dotconfig hk
    · cases h
  | configured =>
    rw [stampPrereqs, List.mem_append, List.mem_append] at h
    rcases h with (h | h) | h
    · obtain ⟨d, hd, rfl⟩ := List.mem_map.mp h
      exact .dependency hd
    · split at h
      next hsrc =>
        obtain rfl := List.mem_singleton.mp h
        exact .rsynced hsrc
      next hsrc =>
        obtain rfl := List.mem_singleton.mp h
        exact .patched (Bool.not_eq_true _ ▸ hsrc)
    · split at h
      next hk =>
        obtain rfl := List.mem_singleton.mp h
        exact .fixup hk
      · cases h
  | built =>
    obtain rfl := List.mem_singleton.mp h
    exact .configured
  | hostInstalled =>
    obtain rfl := List.mem_singleton.mp h
    exact .hostBuilt
  | stagingInstalled =>
    rw [stampPrereqs] at h
    split at h
    next hinstall =>
      obtain rfl := List.mem_singleton.mp h
      exact .stagingBuilt hinstall
    · cases h
  | imagesInstalled =>
    rw [stampPrereqs] at h
    split at h
    next hinstall =>
      obtain rfl := List.mem_singleton.mp h
      exact .imagesBuilt hinstall
    · cases h
  | targetInstalled =>
    rw [stampPrereqs, List.mem_append] at h
    rcases h with h | h
    · split at h
      next hinstall =>
        obtain rfl := List.mem_singleton.mp h
        exact .targetBuilt hinstall
      · cases h
    · split at h
      next hinstall =>
        obtain rfl := List.mem_singleton.mp h
        exact .targetStaging hinstall
      · cases h

omit [DecidableEq P] in
theorem edge_of_goalPrereqs {g : Goal} {t : Prereq (Target P)} (h : t ∈ T.goalPrereqs p g) :
    T.Edge (.goal g p) t.target t.orderOnly := by
  cases g with
  | pkg => exact List.mem_singleton.mp h ▸ .install
  | install =>
    rw [goalPrereqs] at h
    split at h
    next hkind => exact List.mem_singleton.mp h ▸ .host hkind
    next hkind =>
      simp only [List.mem_cons, List.not_mem_nil, or_false] at h
      rcases h with rfl | rfl | rfl
      · exact .staging hkind
      · exact .target hkind
      · exact .images hkind
  | installHost => exact List.mem_singleton.mp h ▸ .installHost
  | installStaging =>
    rw [goalPrereqs] at h
    split at h
    next hinstall => exact List.mem_singleton.mp h ▸ .installStaging hinstall
    · cases h
  | installTarget =>
    rw [goalPrereqs] at h
    split at h
    next hinstall => exact List.mem_singleton.mp h ▸ .installTarget hinstall
    · cases h
  | installImages =>
    rw [goalPrereqs] at h
    split at h
    next hinstall => exact List.mem_singleton.mp h ▸ .installImages hinstall
    · cases h
  | build => exact List.mem_singleton.mp h ▸ .build
  | configure => exact List.mem_singleton.mp h ▸ .configure
  | patch =>
    rw [goalPrereqs] at h
    split at h
    next hsrc => exact List.mem_singleton.mp h ▸ .patchRsync hsrc
    next hsrc => exact List.mem_singleton.mp h ▸ .patch (Bool.not_eq_true _ ▸ hsrc)
  | extract =>
    rw [goalPrereqs] at h
    split at h
    next hsrc => exact List.mem_singleton.mp h ▸ .extractRsync hsrc
    next hsrc => exact List.mem_singleton.mp h ▸ .extract (Bool.not_eq_true _ ▸ hsrc)
  | depends =>
    obtain ⟨d, hd, rfl⟩ := List.mem_map.mp h
    exact .depends hd
  | source =>
    rw [goalPrereqs] at h
    split at h
    · cases h
    next hsrc => exact List.mem_singleton.mp h ▸ .source (Bool.not_eq_true _ ▸ hsrc)
  | rsync =>
    rw [goalPrereqs] at h
    split at h
    next hsrc => exact List.mem_singleton.mp h ▸ .rsync hsrc
    · cases h
  | dirclean => exact List.mem_singleton.mp h ▸ .dirclean
  | cleanForReinstall | cleanKconfigForReconfigure => cases h
  | cleanForRebuild => exact List.mem_singleton.mp h ▸ .cleanForRebuild
  | reinstall =>
    simp only [goalPrereqs, List.mem_cons, List.not_mem_nil, or_false] at h
    rcases h with rfl | rfl
    · exact .reinstallClean
    · exact .reinstall
  | rebuild =>
    simp only [goalPrereqs, List.mem_cons, List.not_mem_nil, or_false] at h
    rcases h with rfl | rfl
    · exact .rebuildClean
    · exact .rebuild
  | reconfigure =>
    simp only [goalPrereqs, List.mem_cons, List.not_mem_nil, or_false] at h
    rcases h with rfl | rfl
    · exact .reconfigureClean
    · exact .reconfigure
  | cleanForReconfigure =>
    rw [goalPrereqs] at h
    rcases List.mem_cons.mp h with rfl | h
    · exact .cleanForReconfigure
    · split at h
      next hk => exact List.mem_singleton.mp h ▸ .cleanKconfig hk
      · cases h

theorem edge_of_prereqs {u : Target P} {t : Prereq (Target P)} (h : t ∈ T.prereqs u) :
    T.Edge u t.target t.orderOnly := by
  cases u with
  | dirs | prepare | coreDependencies | dircleaned => cases h
  | dependencies =>
    rcases List.mem_cons.mp h with rfl | h
    · exact .core
    · obtain ⟨p, hp, rfl⟩ := List.mem_map.mp h
      exact .hostPrereq hp
  | goal g p => exact edge_of_goalPrereqs h
  | stamp s p => exact edge_of_stampPrereqs h
  | dotconfig p =>
    rw [prereqs] at h
    split at h
    · cases h
    next n hn =>
      rcases List.mem_append.mp h with h | h
      · obtain ⟨i, hi, rfl⟩ := List.mem_map.mp h
        exact .configFile hn (List.mem_range.mp hi)
      · exact List.mem_singleton.mp h ▸ .dotconfigPatch (hn ▸ rfl)
  | configFile i p =>
    rw [prereqs] at h
    split at h
    next hk => exact List.mem_singleton.mp h ▸ .configFilePatch hk
    · cases h

variable {t u : Target P} {o : Bool}

theorem Edge.rank_lt (h : T.Edge t u o) : T.rank u < T.rank t := by
  cases h with
  | dependencies hs hp =>
    have := top_lt_level hp
    simp only [rank]
    omega
  | hostPrereq hp =>
    have := level_lt_top hp
    simp only [rank, Goal.height]
    omega
  | patchDependency _ hd =>
    have := level_lt (mem_allDependencies_of_mem_patch hd)
    simp only [rank, Goal.height, Stamp.height]
    omega
  | dependency hd =>
    have := rank_pkg_lt hd
    simp only [rank, Stamp.height] at this ⊢
    omega
  | depends hd =>
    have := rank_pkg_lt hd
    simp only [rank] at this ⊢
    omega
  | _ => simp [rank, Goal.height, Stamp.height]

omit [DecidableEq P] in
/-- The stamps and the configuration files are compared with such files only. -/
theorem Edge.isFile (h : T.Edge t u false) (ht : (T.recipe t).isFile = true) : (T.recipe u).isFile = true := by
  cases h with
  | core | hostPrereq | install | host | staging | target | images | installHost | installStaging
  | installTarget | installImages | build | configure | patch | patchRsync | extract | extractRsync | depends
  | source | rsync | dirclean | reinstallClean | reinstall | cleanForRebuild | rebuildClean | rebuild
  | cleanForReconfigure | cleanKconfig | reconfigureClean | reconfigure => cases ht
  | _ => rfl

variable (T) in
/-- The rules of all packages. -/
def rules : Rules (Target P) where
  prereqs := T.prereqs
  recipe := T.recipe
  early := early
  rank := T.rank
  rank_lt := fun _ _ h => (edge_of_prereqs h).rank_lt
  solid := fun _ ht _ h horder => Edge.isFile (horder ▸ edge_of_prereqs h) ht

end Tree

/-! ### A configuration -/

inductive Sample
  | hostTar
  | skeleton
  | busybox
  deriving DecidableEq

/-- A host package that the others wait for, and two target packages. -/
def sampleTree : Tree Sample where
  package
    | .hostTar => ⟨.host, false, false, false, true, [], [], none⟩
    | .skeleton => ⟨.target, false, true, false, true, [], [], none⟩
    | .busybox => ⟨.target, false, false, false, true, [.skeleton], [], some 2⟩
  hostPrereq := [.hostTar]
  depth
    | .busybox => 1
    | _ => 0
  depth_lt := by
    intro p d hd
    cases p with
    | hostTar | skeleton => cases hd
    | busybox =>
      obtain rfl := List.mem_singleton.mp hd
      decide
  hostPrereq_closed := by
    intro p hp d hd
    obtain rfl := List.mem_singleton.mp hp
    cases hd

/-- The configuration file of busybox and a fragment file, each with one line. -/
def sampleFiles : Files (Target Sample) (List ℕ)
  | .configFile i .busybox => if i < 2 then some ⟨0, [i]⟩ else none
  | _ => none

end CargosBuildroot.Stamps
