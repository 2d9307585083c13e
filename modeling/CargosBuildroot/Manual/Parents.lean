import CargosBuildroot.Sed.Replace
import CargosBuildroot.Shell.Words
import CargosBuildroot.Store.Dict

/-! The parent packages in the lists of the manual, from `gen-manual-lists.py`. The search drops
the last component of a name again and again, and stops at a package or at `BR2`. A name that does
not begin with the component `BR2` has no such end. -/

namespace CargosBuildroot.Manual

open Shell Sed Store

/-! ### The configuration -/

/-- A symbol of `kconfiglib`, for which `is_symbol()` is true; `selects` are the names of
`get_selected_symbols()`. -/
structure Symbol where
  name : Text
  prompts : List Text
  selects : List Text
  deriving DecidableEq

/-- All symbols by their names, and those that are defined, in the order of the files. -/
structure Config where
  syms : Dict Text Symbol
  named : ∀ e ∈ syms.entries, e.2.name = e.1
  kconfigSyms : List Symbol
  defined : ∀ s ∈ kconfigSyms, (s.name, s) ∈ syms.entries

def Config.getSymbol (config : Config) (name : Text) : Option Symbol := config.syms.get? name

theorem Config.name_of_getSymbol {config : Config} {name : Text} {s : Symbol}
    (h : config.getSymbol name = some s) : s.name = name :=
  config.named _ (Dict.mem_of_get? h)

/-- The object of the script: the configuration, the files below the package directory, and
`re.compile(pattern, re.IGNORECASE).match(text)` for patterns that compile. -/
structure Buildroot where
  config : Config
  files : List Text
  reMatch : Text → Text → Bool

/-! ### Packages -/

def packagePrefix : Text := "BR2_PACKAGE_".toList

/-- `re.sub("BR2_PACKAGE_(HOST_)?(.*)", r"\2", name)`, for a name with the prefix -/
def getPkgName (symbol : Symbol) : Text :=
  let name := symbol.name.drop packagePrefix.length
  if "HOST_".toList <+: name then name.drop "HOST_".toList.length else name

/-- `re.sub("_", ".", pattern)` -/
def dotted (pattern : Text) : Text := pattern.map fun c => if c = '_' then '.' else c

namespace Buildroot

variable (b : Buildroot)

/-- `re.sub(r"(.*?)\.mk", r"\1", file)` for the `.mk` files, which takes out every `.mk`. -/
def packageList : List Text :=
  (b.files.filter fun f => ".mk".toList <:+ f).map (replaceAll ".mk".toList [])

def existsVirtSymbol (pkgName : Text) : Bool :=
  let virtPattern := dotted ("BR2_PACKAGE_HAS_".toList ++ pkgName ++ ['$'])
  b.config.kconfigSyms.any fun sym => b.reMatch virtPattern sym.name

/-- `_is_package` with the type `real`; one prefix begins with the other. -/
def isRealPackage (symbol : Symbol) : Bool :=
  if symbol.prompts = [] then false
  else if ¬ packagePrefix <+: symbol.name then false
  else
    let pattern := dotted ("^(HOST_)?".toList ++ getPkgName symbol ++ ['$'])
    b.packageList.any fun pkg => b.reMatch pattern pkg && !b.existsVirtSymbol pkg

end Buildroot

/-! ### The search -/

/-- `name.rsplit("_", 1)[0]` -/
def rsplit : Text → Text
  | [] => []
  | c :: name => if '_' ∈ name then c :: rsplit name else if c = '_' then [] else c :: name

def root : Text := "BR2".toList

/-- The loop, with at most `n` tests of its condition; `none` if it has not ended then. -/
def Buildroot.parentLoop (b : Buildroot) : ℕ → Text → Option (Option Symbol)
  | 0, _ => none
  | n + 1, name =>
    if name = root then some none
    else
      match b.config.getSymbol (rsplit name) with
      | none => b.parentLoop n (rsplit name)
      | some s => if b.isRealPackage s then some (some s) else b.parentLoop n (rsplit name)

def Buildroot.getParentPackage (b : Buildroot) (n : ℕ) (sym : Symbol) : Option (Option Symbol) :=
  if b.isRealPackage sym then some none else b.parentLoop n sym.name

/-! ### Components -/

def firstComponent (name : Text) : Text := name.takeWhile (· ≠ '_')

theorem rsplit_append {a b : Text} (hb : '_' ∉ b) : rsplit (a ++ '_' :: b) = a := by
  induction a with
  | nil => rw [List.nil_append, rsplit, if_neg hb, if_pos rfl]
  | cons c a ih => rw [List.cons_append, rsplit, if_pos (by simp), ih]

theorem rsplit_of_not_mem {name : Text} (h : '_' ∉ name) : rsplit name = name := by
  cases name with
  | nil => rfl
  | cons c name =>
    rw [List.mem_cons, not_or] at h
    rw [rsplit, if_neg h.2, if_neg fun hc => h.1 hc.symm]

theorem firstComponent_of_not_mem {name : Text} (h : '_' ∉ name) : firstComponent name = name := by
  rw [firstComponent, List.takeWhile_eq_self_iff]
  exact fun c hc => decide_eq_true fun heq => h (heq ▸ hc)

theorem firstComponent_append (a b : Text) :
    firstComponent (a ++ '_' :: b) = firstComponent a := by
  induction a with
  | nil => rfl
  | cons c a ih =>
    unfold firstComponent at ih ⊢
    rw [List.cons_append, List.takeWhile_cons, List.takeWhile_cons, ih]

theorem firstComponent_rsplit (name : Text) : firstComponent (rsplit name) = firstComponent name := by
  by_cases h : '_' ∈ name
  · obtain ⟨a, b, rfl, hb⟩ := exists_last h
    rw [rsplit_append hb, firstComponent_append]
  · rw [rsplit_of_not_mem h]

theorem firstComponent_root : firstComponent root = root := by decide

theorem underscore_mem_of_ne_root {name : Text} (h : firstComponent name = root) (hne : name ≠ root) :
    '_' ∈ name := by
  by_contra hmem
  exact hne ((firstComponent_of_not_mem hmem).symm.trans h)

/-- A prefix of a name with an underscore behind it is all but the last component, or such a
prefix of that. -/
theorem prefix_iff_of_last {p a b : Text} (hb : '_' ∉ b) :
    p ++ ['_'] <+: a ++ '_' :: b ↔ p = a ∨ p ++ ['_'] <+: a := by
  constructor
  · rintro ⟨r, hr⟩
    rw [List.append_assoc, List.singleton_append] at hr
    rcases List.append_eq_append_iff.mp hr with ⟨c, rfl, hc⟩ | ⟨c, rfl, hc⟩
    · cases c with
      | nil => exact .inl (List.append_nil p).symm
      | cons d c =>
        obtain ⟨rfl, -⟩ := List.cons.inj hc
        exact .inr ⟨c, by simp⟩
    · cases c with
      | nil => exact .inl (List.append_nil a)
      | cons d c =>
        obtain ⟨-, hc⟩ := List.cons.inj hc
        exact absurd (by rw [hc]; simp) hb
  · rintro (rfl | ⟨r, hr⟩)
    · exact ⟨b, by simp⟩
    · exact ⟨r ++ '_' :: b, by rw [← hr]; simp⟩

/-! ### What the search finds -/

namespace Buildroot

variable {b : Buildroot} {name : Text} {s : Symbol}

theorem prefix_of_isRealPackage (h : b.isRealPackage s = true) : packagePrefix <+: s.name := by
  unfold isRealPackage at h
  split_ifs at h with _ hprefix
  exact hprefix

theorem firstComponent_of_isRealPackage (h : b.isRealPackage s = true) :
    firstComponent s.name = root := by
  obtain ⟨r, hr⟩ := prefix_of_isRealPackage h
  have hname : s.name = root ++ '_' :: ("PACKAGE_".toList ++ r) := hr.symm
  rw [hname, firstComponent_append, firstComponent_root]

/-- A real package whose name is some of the components of the name, but not all of them. -/
structure Ancestor (b : Buildroot) (name : Text) (s : Symbol) : Prop where
  found : b.config.getSymbol s.name = some s
  real : b.isRealPackage s = true
  before : s.name ++ ['_'] <+: name

/-- The parent is the real package with the longest name, if there is one. -/
def IsParent (b : Buildroot) (name : Text) : Option Symbol → Prop
  | none => ∀ s, ¬ b.Ancestor name s
  | some s => b.Ancestor name s ∧ ∀ s', b.Ancestor name s' → s'.name.length ≤ s.name.length

theorem not_ancestor_root : ¬ b.Ancestor root s := by
  intro h
  have hmem := h.before.subset (List.mem_append_right _ (.head _))
  exact absurd hmem (by decide)

section

variable {a c : Text} (hc : '_' ∉ c)
include hc

theorem ancestor_iff_of_last : b.Ancestor (a ++ '_' :: c) s ↔
    (s.name = a ∧ b.config.getSymbol a = some s ∧ b.isRealPackage s = true) ∨ b.Ancestor a s := by
  constructor
  · intro h
    rcases (prefix_iff_of_last hc).mp h.before with rfl | hbefore
    · exact .inl ⟨rfl, h.found, h.real⟩
    · exact .inr ⟨h.found, h.real, hbefore⟩
  · rintro (⟨rfl, hfound, hreal⟩ | h)
    · exact ⟨hfound, hreal, (prefix_iff_of_last hc).mpr (.inl rfl)⟩
    · exact ⟨h.found, h.real, (prefix_iff_of_last hc).mpr (.inr h.before)⟩

/-- A real package just before the last component is the parent. -/
theorem isParent_of_real (hfound : b.config.getSymbol a = some s)
    (hreal : b.isRealPackage s = true) : b.IsParent (a ++ '_' :: c) (some s) := by
  have hname := Config.name_of_getSymbol hfound
  refine ⟨(ancestor_iff_of_last hc).mpr (.inl ⟨hname, hfound, hreal⟩), fun s' hs' => ?_⟩
  rcases (ancestor_iff_of_last hc).mp hs' with ⟨rfl, -⟩ | hbefore
  · rw [hname]
  · have hle := hbefore.before.length_le
    rw [List.length_append] at hle
    rw [hname]
    omega

/-- Otherwise the parent is that of the name without the last component. -/
theorem isParent_of_not_real {parent : Option Symbol}
    (hnot : ∀ s, b.config.getSymbol a = some s → ¬ b.isRealPackage s = true)
    (h : b.IsParent a parent) : b.IsParent (a ++ '_' :: c) parent := by
  have hiff (s : Symbol) : b.Ancestor (a ++ '_' :: c) s ↔ b.Ancestor a s := by
    rw [ancestor_iff_of_last hc]
    exact or_iff_right fun ⟨_, hfound, hreal⟩ => hnot s hfound hreal
  cases parent with
  | none => exact fun s hs => h s ((hiff s).mp hs)
  | some s => exact ⟨(hiff s).mpr h.1, fun s' hs' => h.2 s' ((hiff s').mp hs')⟩

end

/-! ### The run of the loop -/

theorem parentLoop_root (n : ℕ) : b.parentLoop (n + 1) root = some none := by
  rw [parentLoop, if_pos rfl]

theorem parentLoop_real (hne : name ≠ root) (hfound : b.config.getSymbol (rsplit name) = some s)
    (hreal : b.isRealPackage s = true) (n : ℕ) : b.parentLoop (n + 1) name = some (some s) := by
  rw [parentLoop, if_neg hne, hfound]
  exact if_pos hreal

theorem parentLoop_not_real (hne : name ≠ root)
    (hnot : ∀ s, b.config.getSymbol (rsplit name) = some s → ¬ b.isRealPackage s = true) (n : ℕ) :
    b.parentLoop (n + 1) name = b.parentLoop n (rsplit name) := by
  rw [parentLoop, if_neg hne]
  cases hfound : b.config.getSymbol (rsplit name) with
  | none => rfl
  | some s => exact if_neg (hnot s hfound)

/-- From a name that begins with `BR2` the loop ends, since each round drops a component. -/
theorem exists_parent (hname : firstComponent name = root) :
    ∃ parent, b.IsParent name parent ∧ ∃ n, ∀ k, n ≤ k → b.parentLoop k name = some parent := by
  induction hn : name.length using Nat.strong_induction_on generalizing name with
  | _ n ih =>
    subst hn
    by_cases hroot : name = root
    · subst hroot
      refine ⟨none, fun s => not_ancestor_root, 1, fun k hk => ?_⟩
      obtain ⟨k, rfl⟩ := Nat.exists_eq_add_of_le' hk
      exact parentLoop_root k
    obtain ⟨a, c, rfl, hc⟩ := exists_last (underscore_mem_of_ne_root hname hroot)
    have hrsplit : rsplit (a ++ '_' :: c) = a := rsplit_append hc
    by_cases hreal : ∃ s, b.config.getSymbol a = some s ∧ b.isRealPackage s = true
    · obtain ⟨s, hfound, hreal⟩ := hreal
      refine ⟨some s, isParent_of_real hc hfound hreal, 1, fun k hk => ?_⟩
      obtain ⟨k, rfl⟩ := Nat.exists_eq_add_of_le' hk
      exact parentLoop_real hroot (hrsplit.symm ▸ hfound) hreal k
    · have hnot (s : Symbol) (hs : b.config.getSymbol a = some s) :
          ¬ b.isRealPackage s = true := fun h => hreal ⟨s, hs, h⟩
      rw [firstComponent_append] at hname
      obtain ⟨parent, hparent, n, hloop⟩ := ih a.length (by simp) hname rfl
      refine ⟨parent, isParent_of_not_real hc hnot hparent, n + 1, fun k hk => ?_⟩
      obtain ⟨k, rfl⟩ := Nat.exists_eq_add_of_le' (show 1 ≤ k by omega)
      rw [parentLoop_not_real hroot (hrsplit.symm ▸ hnot), hrsplit]
      exact hloop k (by omega)

/-- No name that the loop comes to from another name is `BR2` or that of a real package. -/
theorem parentLoop_never (hname : firstComponent name ≠ root) (n : ℕ) :
    b.parentLoop n name = none := by
  induction n generalizing name with
  | zero => rfl
  | succ n ih =>
    have hne : name ≠ root := by
      rintro rfl
      exact hname firstComponent_root
    have hrsplit : firstComponent (rsplit name) ≠ root := by rwa [firstComponent_rsplit]
    rw [parentLoop_not_real hne, ih hrsplit]
    intro s hfound hreal
    rw [← Config.name_of_getSymbol hfound, firstComponent_of_isRealPackage hreal] at hrsplit
    exact hrsplit rfl

/-- The search ends, and the loop with the parent of the name; a real package has no parent. -/
structure Ends (b : Buildroot) (sym : Symbol) (parent : Option Symbol) : Prop where
  isParent : b.IsParent sym.name parent
  loop : ∃ n, ∀ k, n ≤ k → b.parentLoop k sym.name = some parent
  result : ∃ n, ∀ k, n ≤ k →
    b.getParentPackage k sym = some (if b.isRealPackage sym then none else parent)

/-- The search ends, as it should, exactly for the names with the first component `BR2`. -/
theorem ends_iff (b : Buildroot) (sym : Symbol) :
    (∃ parent, b.Ends sym parent) ↔ firstComponent sym.name = root := by
  constructor
  · rintro ⟨parent, -, ⟨n, hloop⟩, -⟩
    by_contra hname
    have hnone := hloop n le_rfl
    rw [parentLoop_never hname] at hnone
    cases hnone
  · intro hname
    obtain ⟨parent, hparent, n, hloop⟩ := exists_parent (b := b) hname
    refine ⟨parent, hparent, ⟨n, hloop⟩, n, fun k hk => ?_⟩
    rw [getParentPackage, hloop k hk]
    split_ifs <;> rfl

end Buildroot

/-! ### An external tree -/

def libgl : Symbol := ⟨"BR2_PACKAGE_HAS_LIBGL".toList, [], []⟩

/-- An option of an external tree that selects a virtual package. -/
def fooGl : Symbol := ⟨"FOO_GL".toList, ["foo GL".toList], [libgl.name]⟩

def external : Buildroot where
  config := ⟨⟨[(libgl.name, libgl), (fooGl.name, fooGl)], by decide⟩, by decide, [libgl, fooGl], by decide⟩
  files := []
  reMatch _ _ := false

/-- The search for the parent of the option never ends. -/
theorem not_ends_fooGl : external.config.getSymbol "FOO_GL".toList = some fooGl ∧
    (∀ n, external.getParentPackage n fooGl = none) ∧ ¬ ∃ parent, external.Ends fooGl parent := by
  have hnever (n : ℕ) : external.parentLoop n fooGl.name = none :=
    Buildroot.parentLoop_never (by decide) n
  refine ⟨by decide, fun n => ?_, ?_⟩
  · rw [Buildroot.getParentPackage, if_neg (by decide), hnever]
  · rintro ⟨parent, -, ⟨n, hloop⟩, -⟩
    have hnone := hloop n le_rfl
    rw [hnever] at hnone
    cases hnone

end CargosBuildroot.Manual
