import CargosBuildroot.Packages.Names
import CargosBuildroot.Shell.Words
import Mathlib.Data.List.Nodup
import Mathlib.Data.List.Pairwise

/-! The declaration of packages by `inner-generic-package` in `package/pkg-generic.mk`: the
registry of the names and the first variables that the macro sets. Packages are registered by
their names and keep their variables under their upper-cased names. -/

namespace CargosBuildroot.Packages

open Shell

/-! ### Declarations -/

inductive Kind
  | target
  | host
  deriving DecidableEq

def Kind.text : Kind → Text
  | .target => "target".toList
  | .host => "host".toList

/-- A call of `generic-package` or `host-generic-package` in the directory of a package. -/
structure Declaration where
  kind : Kind
  pkgname : PkgName
  pkgdir : Text

/-- The first argument of the macro. -/
def Declaration.name (d : Declaration) : Text :=
  match d.kind with
  | .target => d.pkgname.text
  | .host => "host-".toList ++ d.pkgname.text

/-- The second argument, which is put in front of the variables. -/
def Declaration.upperName (d : Declaration) : Text := uppercase d.name

/-- The third argument. -/
def Declaration.targetName (d : Declaration) : Text := uppercase d.pkgname.text

/-- `$(patsubst host-%,%,name)` -/
def rawname (name : Text) : Text :=
  if "host-".toList <+: name then name.drop "host-".length else name

def strip (t : Text) : Text := [' '].intercalate (words t)

def sanitize (t : Text) : Text := subst ' ' ['_'] (subst ':' ['_'] (subst '/' ['_'] (strip t)))

/-- The variables of make with the values that they expand to; a variable without a value is
empty, as it is for `ifdef`. -/
structure Make where
  packagesAll : List Text
  vars : Text → Text

def Make.set (m : Make) (x value : Text) : Make := { m with vars := Function.update m.vars x value }

/-- The variables that a declaration sets from its arguments, by their suffixes. -/
def Declaration.definitions (d : Declaration) : List (Text × Text) :=
  [("_TYPE".toList, d.kind.text), ("_NAME".toList, d.name), ("_RAWNAME".toList, rawname d.name),
    ("_PKGDIR".toList, d.pkgdir)]

/-- The version that is downloaded: the package's own, or that of the target package. -/
def Make.setDlVersion (m : Make) (u v : Text) : Make :=
  if m.vars (u ++ "_VERSION".toList) = [] then
    if m.vars (v ++ "_DL_VERSION".toList) ≠ [] then
      m.set (u ++ "_DL_VERSION".toList) (m.vars (v ++ "_DL_VERSION".toList))
    else if m.vars (v ++ "_VERSION".toList) ≠ [] then
      m.set (u ++ "_DL_VERSION".toList) (m.vars (v ++ "_VERSION".toList))
    else m
  else m.set (u ++ "_DL_VERSION".toList) (strip (m.vars (u ++ "_VERSION".toList)))

def Make.setVersion (m : Make) (u : Text) : Make :=
  m.set (u ++ "_VERSION".toList) (sanitize (m.vars (u ++ "_DL_VERSION".toList)))

def Make.define (m : Make) (u : Text) (definitions : List (Text × Text)) : Make :=
  definitions.foldl (fun m p => m.set (u ++ p.1) p.2) m

/-- The beginning of `inner-generic-package`. -/
def declare (m : Make) (d : Declaration) : Except Text Make :=
  if d.name ∈ m.packagesAll then
    .error ("Package '".toList ++ d.name ++ "' defined a second time in '".toList ++ d.pkgdir ++
      "'; previous definition was in '".toList ++ m.vars (d.upperName ++ "_PKGDIR".toList) ++
      ['\''])
  else
    .ok ((({ m with packagesAll := m.packagesAll ++ [d.name] }.define d.upperName
      d.definitions).setDlVersion d.upperName d.targetName).setVersion d.upperName)

/-- The declarations in the order in which make reads them. -/
def declareAll (m : Make) (ds : List Declaration) : Except Text Make := ds.foldlM declare m

/-- Before the first package, with any variables. -/
def Make.initial (vars : Text → Text) : Make := ⟨[], vars⟩

/-! ### What is wanted -/

def Declaration.ownVars (d : Declaration) : List Text := variablesOf d.upperName

/-- No two declarations have the same upper-cased name or a variable in common, and at the end
every one has what it has defined. -/
structure Separate (m : Make) (ds : List Declaration) : Prop where
  upperNames : ds.Pairwise fun a b => a.upperName ≠ b.upperName
  ownVars : ds.Pairwise fun a b => a.ownVars.Disjoint b.ownVars
  kept : ∀ d ∈ ds, ∀ p ∈ d.definitions, m.vars (d.upperName ++ p.1) = p.2

/-- With `-` and `.` read as `_`, neither name is the other one continued by one of the gaps;
the empty gap makes them different. -/
def Apart (a b : Text) : Prop :=
  ∀ g ∈ gaps, unified b ≠ unified a ++ g ∧ unified a ≠ unified b ++ g

theorem Declaration.name_chars (d : Declaration) : ∀ c ∈ d.name, c ∈ nameChars := by
  intro c hc
  rw [name] at hc
  cases hkind : d.kind with
  | target =>
    rw [hkind] at hc
    exact d.pkgname.chars c hc
  | host =>
    rw [hkind] at hc
    rcases List.mem_append.mp hc with hc | hc
    · have hhost : ∀ c ∈ "host-".toList, c ∈ nameChars :=
        chars_of_all (by decide)
      exact hhost c hc
    · exact d.pkgname.chars c hc

theorem disjoint_ownVars_iff (a b : Declaration) :
    a.ownVars.Disjoint b.ownVars ↔ Apart a.name b.name :=
  disjoint_variablesOf a.name_chars b.name_chars

theorem variablesOf_ne_nil (u : Text) : variablesOf u ≠ [] := by
  intro h
  rw [variablesOf, List.map_eq_nil_iff] at h
  have hnil : suffixes ≠ [] := by
    simp only [suffixes, List.append_assoc]
    exact List.append_ne_nil_of_left_ne_nil (by simp) _
  exact hnil h

theorem upperName_ne_of_disjoint {a b : Declaration} (h : a.ownVars.Disjoint b.ownVars) :
    a.upperName ≠ b.upperName := by
  intro heq
  obtain ⟨x, hx⟩ := List.exists_mem_of_ne_nil _ (variablesOf_ne_nil a.upperName)
  exact h hx (by rwa [Declaration.ownVars, ← heq])

/-! ### Runs -/

@[simp] theorem define_packagesAll (m : Make) (u : Text) (defs : List (Text × Text)) :
    (m.define u defs).packagesAll = m.packagesAll := by
  induction defs generalizing m with
  | nil => rfl
  | cons p defs ih => exact ih _

@[simp] theorem setDlVersion_packagesAll (m : Make) (u v : Text) :
    (m.setDlVersion u v).packagesAll = m.packagesAll := by
  rw [Make.setDlVersion]
  split_ifs <;> rfl

@[simp] theorem setVersion_packagesAll (m : Make) (u : Text) :
    (m.setVersion u).packagesAll = m.packagesAll := rfl

/-- A declaration that is accepted is new, and it is registered. -/
theorem declare_ok {m m' : Make} {d : Declaration} (h : declare m d = .ok m') :
    d.name ∉ m.packagesAll ∧ m'.packagesAll = m.packagesAll ++ [d.name] := by
  unfold declare at h
  split_ifs at h with hmem
  refine ⟨hmem, ?_⟩
  rw [← Except.ok.inj h, setVersion_packagesAll, setDlVersion_packagesAll, define_packagesAll]

theorem declareAll_cons_ok {m m' : Make} {d : Declaration} {ds : List Declaration}
    (h : declareAll m (d :: ds) = .ok m') :
    ∃ m₁, declare m d = .ok m₁ ∧ declareAll m₁ ds = .ok m' := by
  rw [declareAll, List.foldlM_cons] at h
  cases hd : declare m d with
  | error e =>
    rw [hd] at h
    cases h
  | ok m₁ =>
    rw [hd] at h
    exact ⟨m₁, rfl, h⟩

theorem declareAll_names {m m' : Make} {ds : List Declaration}
    (h : declareAll m ds = .ok m') (hm : m.packagesAll.Nodup) :
    m'.packagesAll = m.packagesAll ++ ds.map Declaration.name ∧ m'.packagesAll.Nodup := by
  induction ds generalizing m with
  | nil =>
    cases h
    exact ⟨(List.append_nil _).symm, hm⟩
  | cons d ds ih =>
    obtain ⟨m₁, hd, hrest⟩ := declareAll_cons_ok h
    obtain ⟨hnew, hall⟩ := declare_ok hd
    have hnodup : m₁.packagesAll.Nodup := by
      rw [hall]
      exact List.nodup_append.mpr ⟨hm, List.nodup_singleton d.name, by
        rintro a ha b hb rfl
        exact hnew (List.mem_singleton.mp hb ▸ ha)⟩
    obtain ⟨heq, hfinal⟩ := ih hrest hnodup
    refine ⟨?_, hfinal⟩
    rw [heq, hall, List.map_cons, List.append_assoc, List.singleton_append]

/-- The names of the declarations that make accepts are distinct. -/
theorem names_nodup {vars : Text → Text} {ds : List Declaration} {m : Make}
    (h : declareAll (Make.initial vars) ds = .ok m) : (ds.map Declaration.name).Nodup := by
  obtain ⟨heq, hnodup⟩ := declareAll_names h List.nodup_nil
  rw [heq] at hnodup
  exact hnodup

/-! ### The variables of accepted packages -/

theorem define_frame {x u : Text} {defs : List (Text × Text)} (m : Make)
    (hx : ∀ p ∈ defs, x ≠ u ++ p.1) : (m.define u defs).vars x = m.vars x := by
  induction defs generalizing m with
  | nil => rfl
  | cons p defs ih =>
    have hstep : m.define u (p :: defs) = (m.set (u ++ p.1) p.2).define u defs := rfl
    rw [hstep, ih _ fun q hq => hx q (.tail _ hq)]
    exact Function.update_of_ne (hx p (.head _)) _ _

theorem define_vars {u : Text} {defs : List (Text × Text)} (m : Make)
    (hdefs : (defs.map Prod.fst).Nodup) :
    ∀ p ∈ defs, (m.define u defs).vars (u ++ p.1) = p.2 := by
  induction defs generalizing m with
  | nil => simp
  | cons q defs ih =>
    rw [List.map_cons, List.nodup_cons] at hdefs
    have hstep : m.define u (q :: defs) = (m.set (u ++ q.1) q.2).define u defs := rfl
    intro p hp
    rw [hstep]
    rcases List.mem_cons.mp hp with rfl | hp
    · rw [define_frame]
      · exact Function.update_self _ _ _
      · intro r hr heq
        rw [List.append_cancel_left_eq] at heq
        exact hdefs.1 (heq ▸ List.mem_map_of_mem hr)
    · exact ih _ hdefs.2 p hp

theorem setDlVersion_frame {x u v : Text} (m : Make) (hx : x ≠ u ++ "_DL_VERSION".toList) :
    (m.setDlVersion u v).vars x = m.vars x := by
  unfold Make.setDlVersion
  split_ifs
  · exact Function.update_of_ne hx _ _
  · exact Function.update_of_ne hx _ _
  · rfl
  · exact Function.update_of_ne hx _ _

theorem setVersion_frame {x u : Text} (m : Make) (hx : x ≠ u ++ "_VERSION".toList) :
    (m.setVersion u).vars x = m.vars x := Function.update_of_ne hx _ _

theorem first_suffixes : ∀ s ∈ ["_TYPE", "_NAME", "_RAWNAME", "_PKGDIR", "_DL_VERSION",
    "_VERSION"], s.toList ∈ suffixes := by
  intro s hs
  simp only [suffixes, List.append_assoc]
  refine List.mem_append_left _ (List.mem_map_of_mem ?_)
  exact List.IsPrefix.subset ⟨_, rfl⟩ hs

theorem mem_ownVars (d : Declaration) {s : Text} (hs : s ∈ suffixes) :
    d.upperName ++ s ∈ d.ownVars := by
  rw [Declaration.ownVars, variablesOf]
  exact List.mem_map_of_mem hs

/-- A declaration changes only the variables of its own package. -/
theorem declare_frame {m m' : Make} {d : Declaration} {x : Text} (h : declare m d = .ok m')
    (hx : x ∉ d.ownVars) : m'.vars x = m.vars x := by
  have hne : ∀ s ∈ ["_TYPE", "_NAME", "_RAWNAME", "_PKGDIR", "_DL_VERSION", "_VERSION"],
      x ≠ d.upperName ++ s.toList := by
    intro s hs heq
    rw [heq] at hx
    exact hx (mem_ownVars d (first_suffixes s hs))
  unfold declare at h
  split_ifs at h
  rw [← Except.ok.inj h, setVersion_frame _ (hne _ (by simp)),
    setDlVersion_frame _ (hne _ (by simp)), define_frame]
  intro p hp
  simp only [Declaration.definitions, List.mem_cons, List.not_mem_nil, or_false] at hp
  rcases hp with rfl | rfl | rfl | rfl <;> exact hne _ (by simp)

theorem declare_vars {m m' : Make} {d : Declaration} (h : declare m d = .ok m') :
    ∀ p ∈ d.definitions, m'.vars (d.upperName ++ p.1) = p.2 := by
  intro p hp
  have hversions : p.1 ≠ "_DL_VERSION".toList ∧ p.1 ≠ "_VERSION".toList := by
    simp only [Declaration.definitions, List.mem_cons, List.not_mem_nil, or_false] at hp
    rcases hp with rfl | rfl | rfl | rfl <;> simp
  have hnodup : (d.definitions.map Prod.fst).Nodup := by
    simp [Declaration.definitions]
  unfold declare at h
  split_ifs at h
  rw [← Except.ok.inj h, setVersion_frame _ (by simpa using hversions.2),
    setDlVersion_frame _ (by simpa using hversions.1)]
  exact define_vars _ hnodup p hp

theorem declareAll_frame {m m' : Make} {ds : List Declaration} {x : Text}
    (h : declareAll m ds = .ok m') (hx : ∀ d ∈ ds, x ∉ d.ownVars) : m'.vars x = m.vars x := by
  induction ds generalizing m with
  | nil =>
    cases h
    rfl
  | cons d ds ih =>
    obtain ⟨m₁, hd, hrest⟩ := declareAll_cons_ok h
    rw [ih hrest fun e he => hx e (.tail _ he), declare_frame hd (hx d (.head _))]

/-- Declarations without a common variable do not overwrite each other. -/
theorem vars_of_disjoint {m m' : Make} {ds : List Declaration} (h : declareAll m ds = .ok m')
    (hown : ds.Pairwise fun a b => a.ownVars.Disjoint b.ownVars) :
    ∀ d ∈ ds, ∀ p ∈ d.definitions, m'.vars (d.upperName ++ p.1) = p.2 := by
  induction ds generalizing m with
  | nil => simp
  | cons d ds ih =>
    obtain ⟨m₁, hd, hrest⟩ := declareAll_cons_ok h
    rw [List.pairwise_cons] at hown
    intro e he p hp
    rcases List.mem_cons.mp he with rfl | he
    · have hmem : e.upperName ++ p.1 ∈ e.ownVars := by
        refine mem_ownVars e ?_
        simp only [Declaration.definitions, List.mem_cons, List.not_mem_nil, or_false] at hp
        rcases hp with rfl | rfl | rfl | rfl <;> exact first_suffixes _ (by simp)
      rw [declareAll_frame hrest fun f hf hf' => hown.1 f hf hmem hf']
      exact declare_vars hd p hp
    · exact ih hrest hown.2 e he p hp

/-! ### Separate packages -/

theorem separate_iff_pairwise {m m' : Make} {ds : List Declaration}
    (h : declareAll m ds = .ok m') :
    Separate m' ds ↔ ds.Pairwise fun a b => Apart a.name b.name := by
  constructor
  · intro hs
    exact hs.ownVars.imp fun hab => (disjoint_ownVars_iff _ _).mp hab
  · intro hapart
    have hvars := hapart.imp fun hab => (disjoint_ownVars_iff _ _).mpr hab
    exact ⟨hvars.imp upperName_ne_of_disjoint, hvars, vars_of_disjoint h hvars⟩

theorem Apart.symm {a b : Text} (h : Apart a b) : Apart b a := fun g hg => (h g hg).symm

/-- Accepted packages are separate exactly if the names of any two of them are apart. -/
theorem separate_iff (vars : Text → Text) (ds : List Declaration) (m : Make)
    (h : declareAll (Make.initial vars) ds = .ok m) :
    Separate m ds ↔ ∀ a ∈ ds, ∀ b ∈ ds, a.name ≠ b.name → Apart a.name b.name := by
  have hnodup : ds.Pairwise fun a b => a.name ≠ b.name := List.pairwise_map.mp (names_nodup h)
  rw [separate_iff_pairwise h]
  constructor
  · intro hpair a ha b hb hne
    have : Std.Symm fun a b : Declaration => Apart a.name b.name := ⟨fun _ _ => Apart.symm⟩
    exact hpair.forall ha hb fun heq => hne (congrArg _ heq)
  · intro hall
    exact hnodup.imp_of_mem fun ha hb hne => hall _ ha _ hb hne

/-- The declarations of the target package `foo` and of its host package. -/
def fooDeclarations : List Declaration :=
  [⟨.target, ⟨"foo".toList, chars_of_all (by decide)⟩, "package/foo".toList⟩,
    ⟨.host, ⟨"foo".toList, chars_of_all (by decide)⟩, "package/foo".toList⟩]

theorem separate_iff_foo : ∃ m, declareAll (Make.initial fun _ => []) fooDeclarations = .ok m ∧
    (Separate m fooDeclarations ↔
      ∀ a ∈ fooDeclarations, ∀ b ∈ fooDeclarations, a.name ≠ b.name → Apart a.name b.name) :=
  ⟨_, rfl, separate_iff (fun _ => []) fooDeclarations _ rfl⟩

/-- Two packages that make takes for different ones and whose variables are the same. -/
def mergedDeclarations : List Declaration :=
  [⟨.target, ⟨"foo-bar".toList, chars_of_all (by decide)⟩, "package/foo-bar".toList⟩,
    ⟨.target, ⟨"foo_bar".toList, chars_of_all (by decide)⟩, "package/foo_bar".toList⟩]

theorem not_separate_merged :
    ∃ m, declareAll (Make.initial fun _ => []) mergedDeclarations = .ok m ∧
      ¬ Separate m mergedDeclarations := by
  refine ⟨_, rfl, fun h => ?_⟩
  have hne := List.rel_of_pairwise_cons h.upperNames (.head _)
  exact hne (by decide)

end CargosBuildroot.Packages
