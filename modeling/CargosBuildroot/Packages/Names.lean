import CargosBuildroot.Shell.Printf
import Mathlib.Data.Bool.AllAny

/-! Package names and the make variables that belong to a package. The upper-cased name of a
package is put in front of the names of its variables, and upper-casing makes `-`, `.` and `_`
the same. -/

namespace CargosBuildroot.Packages

open Shell

/-! ### `UPPERCASE` -/

def caseFrom : Text := "abcdefghijklmnopqrstuvwxyz-.".toList

def caseTo : Text := "ABCDEFGHIJKLMNOPQRSTUVWXYZ__".toList

/-- The body of a macro that `caseconvert-helper` defines: one substitution after the other. -/
def caseconvert (pairs : List (Char × Char)) (t : Text) : Text :=
  pairs.foldl (fun tmp c => subst c.1 [c.2] tmp) t

def uppercase (t : Text) : Text := caseconvert (caseFrom.zip caseTo) t

/-- What a sequence of substitutions makes of one character. -/
def convertChar (pairs : List (Char × Char)) (c : Char) : Char :=
  pairs.foldl (fun c p => if c = p.1 then p.2 else c) c

theorem subst_singleton (a b : Char) (t : Text) :
    subst a [b] t = t.map fun c => if c = a then b else c := by
  rw [subst, List.map_eq_flatMap]
  congr 1
  funext c
  split_ifs <;> rfl

theorem caseconvert_eq (pairs : List (Char × Char)) (t : Text) :
    caseconvert pairs t = t.map (convertChar pairs) := by
  induction pairs generalizing t with
  | nil => exact (List.map_id t).symm
  | cons p pairs ih =>
    have hstep : caseconvert (p :: pairs) t = caseconvert pairs (subst p.1 [p.2] t) := rfl
    rw [hstep, ih, subst_singleton, List.map_map]
    rfl

def upperChar (c : Char) : Char := convertChar (caseFrom.zip caseTo) c

theorem uppercase_eq (t : Text) : uppercase t = t.map upperChar := caseconvert_eq _ t

theorem uppercase_append (s t : Text) : uppercase (s ++ t) = uppercase s ++ uppercase t := by
  rw [uppercase_eq, uppercase_eq, uppercase_eq, List.map_append]

/-! ### Names -/

/-- The characters of package names. -/
def nameChars : Text := "abcdefghijklmnopqrstuvwxyz0123456789-_.+".toList

structure PkgName where
  text : Text
  chars : ∀ c ∈ text, c ∈ nameChars

theorem chars_of_all {t : Text} (h : (t.all fun c => c ∈ nameChars) = true) :
    ∀ c ∈ t, c ∈ nameChars := List.all_iff_forall_prop.mp h

def unifiedChar (c : Char) : Char := if c = '-' ∨ c = '.' then '_' else c

/-- The name with `-` and `.` read as `_`. -/
def unified (t : Text) : Text := t.map unifiedChar

theorem upperChar_unifiedChar : ∀ c ∈ nameChars,
    (upperChar c).toLower = unifiedChar c ∧ upperChar (unifiedChar c) = upperChar c :=
  List.all_iff_forall_prop.mp (by decide +kernel)

theorem toLower_uppercase {t : Text} (h : ∀ c ∈ t, c ∈ nameChars) :
    (uppercase t).map Char.toLower = unified t := by
  rw [uppercase_eq, unified, List.map_map]
  refine List.map_congr_left fun c hc => ?_
  rw [Function.comp_apply, (upperChar_unifiedChar c (h c hc)).1]

theorem uppercase_unified {t : Text} (h : ∀ c ∈ t, c ∈ nameChars) :
    uppercase (unified t) = uppercase t := by
  rw [uppercase_eq, uppercase_eq, unified, List.map_map]
  refine List.map_congr_left fun c hc => ?_
  rw [Function.comp_apply, (upperChar_unifiedChar c (h c hc)).2]

/-- Upper-casing loses the difference between `-`, `.` and `_`, and nothing else. -/
theorem uppercase_eq_append_iff {a b g : Text} (ha : ∀ c ∈ a, c ∈ nameChars)
    (hb : ∀ c ∈ b, c ∈ nameChars) (hg : ∀ c ∈ g, c ∈ nameChars) (hunified : unified g = g) :
    uppercase b = uppercase a ++ uppercase g ↔ unified b = unified a ++ g := by
  constructor
  · intro h
    rw [← toLower_uppercase hb, h, List.map_append, toLower_uppercase ha, toLower_uppercase hg,
      hunified]
  · intro h
    rw [← uppercase_unified hb, h, uppercase_append, uppercase_unified ha]

/-! ### Variables -/

/-- The steps that have hooks. -/
def hookSteps : List String :=
  ["DOWNLOAD", "EXTRACT", "RSYNC", "PATCH", "CONFIGURE", "BUILD", "INSTALL", "INSTALL_STAGING",
    "INSTALL_TARGET", "INSTALL_IMAGES", "LEGAL_INFO"]

/-- The steps that leave a stamp file. -/
def stampSteps : List String :=
  ["INSTALL_TARGET", "INSTALL_STAGING", "INSTALL_IMAGES", "INSTALL_HOST", "BUILD", "CONFIGURE",
    "RSYNC", "PATCH", "EXTRACT", "SOURCE", "ACTUAL_SOURCE", "DIRCLEAN"]

/-- The variables with options whose old names are refused. -/
def deprecatedOptions : List String :=
  ["MAKE", "INSTALL", "INSTALL_TARGET", "INSTALL_STAGING", "INSTALL_HOST", "AUTORECONF", "CONF",
    "BUILD", "GETTEXTIZE", "KCONFIG"]

/-- What stands behind the upper-cased name in the variables of a package: first those that
`inner-generic-package` sets or gives a default, in the order of the source, then those that
the macro, the rules of the steps and the downloads only read. -/
def suffixes : List Text :=
  ["_TYPE", "_NAME", "_RAWNAME", "_PKGDIR", "_DL_VERSION", "_VERSION", "_OVERRIDE_SRCDIR",
    "_BASE_NAME", "_RAW_BASE_NAME", "_DL_DIR", "_DIR", "_SUBDIR", "_STRIP_COMPONENTS", "_SRCDIR",
    "_BUILDDIR", "_SOURCE", "_ACTUAL_SOURCE_TARBALL", "_ACTUAL_SOURCE_SITE", "_PATCH",
    "_ALL_DOWNLOADS", "_SITE", "_SITE_METHOD", "_LICENSE", "_LICENSE_FILES", "_REDISTRIBUTE",
    "_REDIST_SOURCES_DIR", "_ADD_TOOLCHAIN_DEPENDENCY", "_DEPENDENCIES", "_FINAL_DEPENDENCIES",
    "_FINAL_PATCH_DEPENDENCIES", "_FINAL_ALL_DEPENDENCIES", "_INSTALL_STAGING",
    "_INSTALL_IMAGES", "_INSTALL_TARGET"].map String.toList ++
  stampSteps.map (fun s => "_TARGET_".toList ++ s.toList) ++ ["_EXTRACT_CMDS".toList] ++
  hookSteps.flatMap (fun s => ["_PRE_".toList ++ s.toList ++ "_HOOKS".toList,
    "_POST_".toList ++ s.toList ++ "_HOOKS".toList]) ++
  ["_TARGET_FINALIZE_HOOKS", "_KCONFIG_VAR", "_MANIFEST_LICENSE_FILES"].map String.toList ++
  ["_EXTRA_DOWNLOADS", "_GIT_SUBMODULES", "_PATCH_DEPENDENCIES", "_EXCLUDES", "_RDEPENDENCIES",
    "_PROVIDES", "_PERMISSIONS", "_DEVICES", "_USERS", "_HELP_CMDS", "_CONFIGURE_CMDS",
    "_BUILD_CMDS", "_INSTALL_CMDS", "_INSTALL_STAGING_CMDS", "_INSTALL_IMAGES_CMDS",
    "_INSTALL_TARGET_CMDS", "_INSTALL_INIT_SYSTEMD", "_INSTALL_INIT_SYSV", "_CONFIG_SCRIPTS",
    "_DL_OPTS"].map String.toList ++
  deprecatedOptions.flatMap fun s =>
    ["_".toList ++ s.toList ++ "_OPT".toList, "_".toList ++ s.toList ++ "_OPTS".toList]

/-- The words by which a name may continue another one so that the two share a variable, each
with the end of a variable that they share. -/
def sharedEnds : List (String × String) :=
  [("", "_TYPE"), ("_dl", "_VERSION"), ("_override", "_SRCDIR"), ("_base", "_NAME"),
    ("_raw_base", "_NAME"), ("_raw", "_BASE_NAME"), ("_actual_source", "_SITE"),
    ("_redist_sources", "_DIR"), ("_final", "_DEPENDENCIES"), ("_final_patch", "_DEPENDENCIES"),
    ("_final_all", "_DEPENDENCIES"), ("_patch", "_DEPENDENCIES"), ("_target", "_PATCH"),
    ("_target_actual", "_SOURCE"), ("_manifest", "_LICENSE_FILES")]

def gaps : List Text := sharedEnds.map fun p => p.1.toList

theorem gaps_unified {g : Text} (hg : g ∈ gaps) : unified g = g ∧ ∀ c ∈ g, c ∈ nameChars := by
  have hgaps : ∀ g ∈ gaps, unified g = g ∧ (g.all fun c => c ∈ nameChars) = true := by
    decide +kernel
  exact ⟨(hgaps g hg).1, chars_of_all (hgaps g hg).2⟩

/-- The table is right and complete: the kernel compares all pairs of suffixes. -/
theorem sharedEnds_exact :
    (∀ p ∈ sharedEnds,
      p.2.toList ∈ suffixes ∧ uppercase p.1.toList ++ p.2.toList ∈ suffixes) ∧
    ∀ s ∈ suffixes, ∀ r ∈ suffixes, s.reverse <+: r.reverse →
      r.take (r.length - s.length) ∈ gaps.map uppercase := by
  decide +kernel

/-- Two suffixes differ by a word in front only if the word is one of the gaps. -/
theorem exists_gap_iff {g : Text} :
    (∃ s ∈ suffixes, g ++ s ∈ suffixes) ↔ g ∈ gaps.map uppercase := by
  constructor
  · rintro ⟨s, hs, hr⟩
    have hsuffix : s.reverse <+: (g ++ s).reverse :=
      List.reverse_prefix.mpr (List.suffix_append g s)
    have h := sharedEnds_exact.2 s hs (g ++ s) hr hsuffix
    rw [List.length_append, Nat.add_sub_cancel, List.take_left] at h
    exact h
  · intro h
    obtain ⟨g, hg, rfl⟩ := List.mem_map.mp h
    obtain ⟨p, hp, rfl⟩ := List.mem_map.mp hg
    exact ⟨p.2.toList, sharedEnds_exact.1 p hp⟩

/-- The variables of the package whose upper-cased name is `u`. -/
def variablesOf (u : Text) : List Text := suffixes.map (u ++ ·)

/-- Two packages have no variable in common if neither name continues the other one by one of
the gaps. -/
theorem disjoint_variablesOf {a b : Text} (ha : ∀ c ∈ a, c ∈ nameChars)
    (hb : ∀ c ∈ b, c ∈ nameChars) :
    (variablesOf (uppercase a)).Disjoint (variablesOf (uppercase b)) ↔
      ∀ g ∈ gaps, unified b ≠ unified a ++ g ∧ unified a ≠ unified b ++ g := by
  constructor
  · intro h g hg
    obtain ⟨hunified, hchars⟩ := gaps_unified hg
    obtain ⟨s, hs, hr⟩ := exists_gap_iff.mpr (List.mem_map_of_mem hg)
    constructor
    · intro hgap
      have hupper := (uppercase_eq_append_iff ha hb hchars hunified).mpr hgap
      refine h (List.mem_map_of_mem hr) (List.mem_map.mpr ⟨s, hs, ?_⟩)
      rw [hupper, List.append_assoc]
    · intro hgap
      have hupper := (uppercase_eq_append_iff hb ha hchars hunified).mpr hgap
      refine h (List.mem_map.mpr ⟨s, hs, ?_⟩) (List.mem_map_of_mem hr)
      rw [hupper, List.append_assoc]
  · intro h x hx hy
    obtain ⟨s, hs, rfl⟩ := List.mem_map.mp hx
    obtain ⟨r, hr, heq⟩ := List.mem_map.mp hy
    rcases List.append_eq_append_iff.mp heq with ⟨w, hw, rfl⟩ | ⟨w, hw, rfl⟩
    · obtain ⟨g, hg, rfl⟩ := List.mem_map.mp (exists_gap_iff.mp ⟨s, hs, hr⟩)
      obtain ⟨hunified, hchars⟩ := gaps_unified hg
      exact (h g hg).2 ((uppercase_eq_append_iff hb ha hchars hunified).mp hw)
    · obtain ⟨g, hg, rfl⟩ := List.mem_map.mp (exists_gap_iff.mp ⟨r, hr, hs⟩)
      obtain ⟨hunified, hchars⟩ := gaps_unified hg
      exact (h g hg).1 ((uppercase_eq_append_iff ha hb hchars hunified).mp hw)

end CargosBuildroot.Packages
