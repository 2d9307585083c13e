import CargosBuildroot.Graph.Reduction
import CargosBuildroot.Shell.Words
import CargosBuildroot.Store.Dict

/-! The elimination of dependencies in `graph-depends`. A package loses every
dependency that another of its dependencies reaches. Whether a package reaches
another is found by a recursive search whose answers are kept in a cache; the
cache lives on while the lists of the dictionary are replaced one after the other.
The depth of the recursion is bounded by a fuel. -/

namespace CargosBuildroot.Depends

open Relation Shell Store CargosBuildroot.Graph

/-- `{ 'pkg': [dep1, dep2, ...] }` -/
abbrev Deps := Dict Text (List Text)

/-- The answers of `is_dep`, by `pkg` and then by `pkg2`. -/
abbrev Cache := Dict Text (Dict Text Bool)

def isDepCacheInsert (cache : Cache) (pkg pkg2 : Text) (val : Bool) : Cache :=
  match cache.get? pkg with
  | some answers => cache.set pkg (answers.set pkg2 val)
  | none => cache.set pkg (Dict.empty.set pkg2 val)

def isDepCacheLookup (cache : Cache) (pkg pkg2 : Text) : Option Bool :=
  (cache.get? pkg).bind (·.get? pkg2)

/-- The loop of `is_dep_uncached` over the dependencies of `pkg2`. -/
def isDepLoop (isDep : Text → Cache → Option (Bool × Cache)) (pkg : Text) :
    List Text → Cache → Option (Bool × Cache)
  | [], cache => some (false, cache)
  | p :: ps, cache =>
    if pkg = p then some (true, cache)
    else do
      let (val, cache) ← isDep p cache
      if val then some (true, cache) else isDepLoop isDep pkg ps cache

/-- Whether `pkg` is a dependency of `pkg2`, direct or transitive; `none` when the
fuel is too small. -/
def isDep (deps : Deps) : ℕ → Text → Text → Cache → Option (Bool × Cache)
  | 0, _, _, _ => none
  | fuel + 1, pkg, pkg2, cache =>
    match isDepCacheLookup cache pkg pkg2 with
    | some val => some (val, cache)
    | none => do
      -- a package without an entry has no dependencies
      let ps := (deps.get? pkg2).getD []
      let (val, cache) ← isDepLoop (isDep deps fuel pkg) pkg ps cache
      some (val, isDepCacheInsert cache pkg pkg2 val)

/-- The inner loop of `remove_transitive_deps`, over `j`; it does not stop at the
first dependency that covers `x`. -/
def keepMe (deps : Deps) (fuel : ℕ) (x : Text) (i : ℕ) :
    List (Text × ℕ) → Bool → Cache → Option (Bool × Cache)
  | [], keep, cache => some (keep, cache)
  | (y, j) :: rest, keep, cache =>
    if j = i then keepMe deps fuel x i rest keep cache
    else do
      let (val, cache) ← isDep deps fuel x y cache
      keepMe deps fuel x i rest (if val then false else keep) cache

/-- The outer loop of `remove_transitive_deps`, over `i`. -/
def newDeps (deps : Deps) (fuel : ℕ) (d : List Text) :
    List (Text × ℕ) → Cache → Option (List Text × Cache)
  | [], cache => some ([], cache)
  | (x, i) :: rest, cache => do
    let (keep, cache) ← keepMe deps fuel x i d.zipIdx true cache
    let (kept, cache) ← newDeps deps fuel d rest cache
    some (if keep then x :: kept else kept, cache)

def removeTransitiveDeps (fuel : ℕ) (pkg : Text) (deps : Deps) (cache : Cache) :
    Option (List Text × Cache) := do
  let d ← deps.get? pkg
  newDeps deps fuel d d.zipIdx cache

def removeToolchainDeps (pkg : Text) (deps : Deps) : Option (List Text) := do
  let d ← deps.get? pkg
  some (d.filter (· ≠ "toolchain".toList))

/-- The first loop of `remove_extra_deps`. -/
def toolchainLoop : List Text → Deps → Option Deps
  | [], deps => some deps
  | pkg :: pkgs, deps =>
    if pkg = "all".toList then toolchainLoop pkgs deps
    else do
      let d ← removeToolchainDeps pkg deps
      toolchainLoop pkgs (deps.set pkg d)

/-- The second loop of `remove_extra_deps`. -/
def transitiveLoop (fuel : ℕ) (transitive : Bool) :
    List Text → Deps → Cache → Option (Deps × Cache)
  | [], deps, cache => some (deps, cache)
  | pkg :: pkgs, deps, cache =>
    if !transitive || pkg = "all".toList then do
      let (d, cache) ← removeTransitiveDeps fuel pkg deps cache
      transitiveLoop fuel transitive pkgs (deps.set pkg d) cache
    else transitiveLoop fuel transitive pkgs deps cache

def removeExtraDeps (fuel : ℕ) (transitive : Bool) (deps : Deps) : Option Deps := do
  let deps ← toolchainLoop deps.keys deps
  let (deps, _) ← transitiveLoop fuel transitive deps.keys deps Dict.empty
  some deps

/-! ### The cache -/

theorem lookup_insert (cache : Cache) (pkg pkg2 x y : Text) (val : Bool) :
    isDepCacheLookup (isDepCacheInsert cache pkg pkg2 val) x y =
      if x = pkg ∧ y = pkg2 then some val else isDepCacheLookup cache x y := by
  by_cases hx : x = pkg
  · subst hx
    unfold isDepCacheLookup isDepCacheInsert
    cases h : cache.get? x with
    | none => simp [Dict.get?_set]
    | some answers => simp [Dict.get?_set]
  · unfold isDepCacheLookup isDepCacheInsert
    cases h : cache.get? pkg with
    | none => simp [Dict.get?_set, hx]
    | some answers => simp [Dict.get?_set, hx]

/-- The edges of the dictionary. -/
def DependsOn (deps : Deps) (p q : Text) : Prop := ∃ d, deps.get? p = some d ∧ q ∈ d

/-- Reachability along the edges. -/
abbrev Reaches (deps : Deps) : Text → Text → Prop := TransGen (DependsOn deps)

/-- Every answer in the cache is the one that the graph `G` gives. -/
def Right (G : Text → Text → Prop) (cache : Cache) : Prop :=
  ∀ x y val, isDepCacheLookup cache x y = some val → (val = true ↔ G y x)

variable {G : Text → Text → Prop} {cache : Cache}

theorem right_empty (G : Text → Text → Prop) : Right G Dict.empty := by
  intro x y val h
  cases h

theorem Right.insert (h : Right G cache) {pkg pkg2 : Text} {val : Bool}
    (hval : val = true ↔ G pkg2 pkg) : Right G (isDepCacheInsert cache pkg pkg2 val) := by
  intro x y v hv
  rw [lookup_insert] at hv
  split at hv
  · next hxy =>
    obtain ⟨rfl, rfl⟩ := hxy
    cases hv
    exact hval
  · exact h x y v hv

/-- The search ends with the answer `P` and a right cache. -/
def Answers {β : Type*} (G : Text → Text → Prop) (P : β → Prop) (r : Option (β × Cache)) : Prop :=
  ∃ b cache', r = some (b, cache') ∧ P b ∧ Right G cache'

/-! ### The search -/

theorem reaches_iff (deps : Deps) (p x : Text) :
    Reaches deps p x ↔ ∃ q ∈ (deps.get? p).getD [], x = q ∨ Reaches deps q x := by
  unfold Reaches
  rw [TransGen.head'_iff]
  constructor
  · rintro ⟨q, ⟨d, hd, hq⟩, hqx⟩
    refine ⟨q, by simpa [hd] using hq, ?_⟩
    exact reflTransGen_iff_eq_or_transGen.mp hqx
  · rintro ⟨q, hq, hqx⟩
    refine ⟨q, ?_, reflTransGen_iff_eq_or_transGen.mpr hqx⟩
    cases hd : deps.get? p with
    | none => simp [hd] at hq
    | some d => exact ⟨d, hd, by simpa [hd] using hq⟩

theorem isDepLoop_spec {search : Text → Cache → Option (Bool × Cache)} (pkg : Text) {ps : List Text}
    (hsearch : ∀ p ∈ ps, ∀ cache, Right G cache →
      Answers G (fun b => b = true ↔ G p pkg) (search p cache))
    (hcache : Right G cache) :
    Answers G (fun b => b = true ↔ ∃ p ∈ ps, pkg = p ∨ G p pkg) (isDepLoop search pkg ps cache) := by
  induction ps generalizing cache with
  | nil => exact ⟨false, cache, rfl, by simp, hcache⟩
  | cons p ps ih =>
    unfold isDepLoop
    by_cases hp : pkg = p
    · exact ⟨true, cache, if_pos hp, by simp [hp], hcache⟩
    · rw [if_neg hp]
      obtain ⟨val, cache', hval, hiff, hcache'⟩ := hsearch p (.head _) cache hcache
      cases val with
      | true =>
        refine ⟨true, cache', by simp [hval], ?_, hcache'⟩
        simpa using Or.inl (Or.inr (hiff.mp rfl))
      | false =>
        have hnot : ¬ G p pkg := fun h => Bool.false_ne_true (hiff.mpr h)
        obtain ⟨val, cache'', hrest, hiff', hcache''⟩ :=
          ih (fun q hq => hsearch q (.tail _ hq)) hcache'
        refine ⟨val, cache'', by simpa [hval] using hrest, ?_, hcache''⟩
        simpa [hp, hnot] using hiff'

/-- With enough fuel for the rank of `pkg2` the search finds out whether `pkg2` reaches
`pkg`, whatever reduced dictionary with the same reachability the cache was filled on. -/
theorem isDep_spec {deps : Deps} {rank : Text → ℕ} (hrank : Ranked (DependsOn deps) rank)
    (hreach : ∀ p q, Reaches deps p q ↔ G p q) (pkg : Text) {fuel : ℕ} {pkg2 : Text}
    (hfuel : rank pkg2 < fuel) (hcache : Right G cache) :
    Answers G (fun b => b = true ↔ G pkg2 pkg) (isDep deps fuel pkg pkg2 cache) := by
  induction fuel generalizing pkg2 cache with
  | zero => omega
  | succ fuel ih =>
    unfold isDep
    cases hlookup : isDepCacheLookup cache pkg pkg2 with
    | some val => exact ⟨val, cache, rfl, hcache _ _ _ hlookup, hcache⟩
    | none =>
      have hsearch : ∀ p ∈ (deps.get? pkg2).getD [], ∀ cache, Right G cache →
          Answers G (fun b => b = true ↔ G p pkg) (isDep deps fuel pkg p cache) := by
        intro p hp cache hcache
        have hedge : DependsOn deps pkg2 p := by
          cases hd : deps.get? pkg2 with
          | none => simp [hd] at hp
          | some d => exact ⟨d, hd, by simpa [hd] using hp⟩
        have hlt := hrank hedge
        exact ih (by omega) hcache
      obtain ⟨val, cache', hval, hiff, hcache'⟩ := isDepLoop_spec pkg hsearch hcache
      have hanswer : val = true ↔ G pkg2 pkg := by
        rw [hiff, ← hreach, reaches_iff]
        simp only [hreach]
      exact ⟨val, _, by simp [hval], hanswer, hcache'.insert hanswer⟩

end CargosBuildroot.Depends
