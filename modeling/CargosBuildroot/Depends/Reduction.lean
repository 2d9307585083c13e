import CargosBuildroot.Depends.GraphDepends

/-! `remove_extra_deps` without transitive dependencies computes a transitive
reduction. Reachability is the same before and after each package, so the answers
that the cache got from an earlier dictionary stay right for the later ones. -/

namespace CargosBuildroot.Depends

open Relation Shell Store CargosBuildroot.Graph

variable {G : Text → Text → Prop} {cache : Cache} {deps : Deps} {rank : Text → ℕ} {fuel : ℕ}

/-! ### One package -/

theorem keepMe_spec (hrank : Ranked (DependsOn deps) rank)
    (hreach : ∀ p q, Reaches deps p q ↔ G p q) (hfuel : ∀ p, rank p < fuel) (x : Text) (i : ℕ)
    (rest : List (Text × ℕ)) (keep : Bool) (hcache : Right G cache) :
    Answers G (fun b => b = true ↔ keep = true ∧ ∀ e ∈ rest, e.2 ≠ i → ¬ G e.1 x)
      (keepMe deps fuel x i rest keep cache) := by
  induction rest generalizing keep cache with
  | nil => exact ⟨keep, cache, rfl, by simp, hcache⟩
  | cons e rest ih =>
    obtain ⟨y, j⟩ := e
    unfold keepMe
    by_cases hj : j = i
    · obtain ⟨b, cache', hb, hiff, hcache'⟩ := ih keep hcache
      exact ⟨b, cache', by rw [if_pos hj, hb], by simpa [hj] using hiff, hcache'⟩
    · rw [if_neg hj]
      obtain ⟨val, cache', hval, hiff, hcache'⟩ := isDep_spec hrank hreach x (hfuel y) hcache
      obtain ⟨b, cache'', hb, hiff', hcache''⟩ := ih (if val then false else keep) hcache'
      refine ⟨b, cache'', by simpa [hval] using hb, hiff'.trans ?_, hcache''⟩
      cases val with
      | true => simp [hj, hiff.mp rfl]
      | false =>
        have hnot : ¬ G y x := fun h => Bool.false_ne_true (hiff.mpr h)
        simp [hj, hnot]

/-- No entry of the list, `x` itself left out, reaches `x`. -/
def Uncovered (G : Text → Text → Prop) (d : List Text) (x : Text) : Prop := ∀ y ∈ d, ¬ G y x

theorem uncovered_iff (hacyclic : ∀ x, ¬ G x x) {d : List Text} {x : Text} {i : ℕ}
    (hx : (x, i) ∈ d.zipIdx) : Uncovered G d x ↔ ∀ e ∈ d.zipIdx, e.2 ≠ i → ¬ G e.1 x := by
  constructor
  · intro h e he _
    exact h e.1 (List.fst_mem_of_mem_zipIdx he)
  · intro h y hy hyx
    obtain ⟨j, hj⟩ := List.mem_iff_getElem?.mp hy
    rw [← List.mk_mem_zipIdx_iff_getElem?] at hj
    by_cases hij : j = i
    · subst hij
      have hsame : y = x := by
        rw [List.mk_mem_zipIdx_iff_getElem?] at hj hx
        exact Option.some.inj (hj.symm.trans hx)
      exact hacyclic x (hsame ▸ hyx)
    · exact h (y, j) hj hij hyx

theorem newDeps_spec (hrank : Ranked (DependsOn deps) rank)
    (hreach : ∀ p q, Reaches deps p q ↔ G p q) (hfuel : ∀ p, rank p < fuel) (d : List Text)
    (rest : List (Text × ℕ)) (hrest : ∀ e ∈ rest, e ∈ d.zipIdx) (hcache : Right G cache) :
    Answers G (fun kept => ∀ x, x ∈ kept ↔ x ∈ rest.map Prod.fst ∧ Uncovered G d x)
      (newDeps deps fuel d rest cache) := by
  have hacyclic : ∀ x, ¬ G x x := fun x hx => hrank.acyclic x ((hreach x x).mpr hx)
  induction rest generalizing cache with
  | nil => exact ⟨[], cache, rfl, by simp, hcache⟩
  | cons e rest ih =>
    obtain ⟨x, i⟩ := e
    unfold newDeps
    obtain ⟨keep, cache', hkeep, hiff, hcache'⟩ :=
      keepMe_spec hrank hreach hfuel x i d.zipIdx true hcache
    obtain ⟨kept, cache'', hkept, hmem, hcache''⟩ :=
      ih (fun e he => hrest e (.tail _ he)) hcache'
    have hun : keep = true ↔ Uncovered G d x := by
      rw [hiff, uncovered_iff hacyclic (hrest _ (.head _))]
      simp
    refine ⟨if keep then x :: kept else kept, cache'', by simp [hkeep, hkept], ?_, hcache''⟩
    intro z
    cases keep with
    | true =>
      simp only [if_true, List.mem_cons, List.map_cons, hmem]
      have hx := hun.mp rfl
      constructor
      · rintro (rfl | ⟨hz, hu⟩)
        · exact ⟨.inl rfl, hx⟩
        · exact ⟨.inr hz, hu⟩
      · rintro ⟨rfl | hz, hu⟩
        · exact .inl rfl
        · exact .inr ⟨hz, hu⟩
    | false =>
      simp only [Bool.false_eq_true, if_false, List.mem_cons, List.map_cons, hmem]
      have hx : ¬ Uncovered G d x := fun h => Bool.false_ne_true (hun.mpr h)
      constructor
      · exact fun h => ⟨.inr h.1, h.2⟩
      · rintro ⟨rfl | hz, hu⟩
        · exact absurd hu hx
        · exact ⟨hz, hu⟩

/-- What is left of the list of a package: the dependencies that no other one reaches. -/
theorem removeTransitiveDeps_spec (hrank : Ranked (DependsOn deps) rank)
    (hreach : ∀ p q, Reaches deps p q ↔ G p q) (hfuel : ∀ p, rank p < fuel) {pkg : Text}
    (hpkg : pkg ∈ deps.keys) (hcache : Right G cache) :
    Answers G (fun kept => ∀ x, x ∈ kept ↔ DependsOn deps pkg x ∧
        ∀ y, DependsOn deps pkg y → ¬ G y x) (removeTransitiveDeps fuel pkg deps cache) := by
  obtain ⟨d, hd⟩ := Dict.exists_get?_iff.mpr hpkg
  obtain ⟨kept, cache', hkept, hmem, hcache'⟩ :=
    newDeps_spec hrank hreach hfuel d d.zipIdx (fun _ h => h) hcache
  refine ⟨kept, cache', by simp [removeTransitiveDeps, hd, hkept], ?_, hcache'⟩
  intro x
  rw [hmem, List.zipIdx_map_fst]
  simp [DependsOn, Uncovered, hd]

/-! ### All packages -/

/-- Between two packages of the second loop: `G` is still the reachability, the edges
are edges of the first dictionary, and the packages done have no covered dependency. -/
structure Reduced (start : Deps) (done : List Text) (deps : Deps) : Prop where
  keys : deps.keys = start.keys
  edges : ∀ p q, DependsOn deps p q → DependsOn start p q
  reach : ∀ p q, Reaches deps p q ↔ Reaches start p q
  minimal : ∀ p ∈ done, ∀ q r, DependsOn deps p q → DependsOn deps p r → ¬ Reaches start r q

theorem reduced_nil (start : Deps) : Reduced start [] start where
  keys := rfl
  edges _ _ h := h
  reach _ _ := Iff.rfl
  minimal := by simp

theorem dependsOn_set_of_ne {deps : Deps} {pkg p q : Text} {d : List Text} (hp : p ≠ pkg) :
    DependsOn (deps.set pkg d) p q ↔ DependsOn deps p q := by
  simp only [DependsOn, Dict.get?_set_of_ne hp]

theorem dependsOn_set_self {deps : Deps} {pkg q : Text} {d : List Text} :
    DependsOn (deps.set pkg d) pkg q ↔ q ∈ d := by
  simp only [DependsOn, Dict.get?_set_self, Option.some.injEq, exists_eq_left']

/-- Replacing the list of one package by its uncovered dependencies. -/
theorem Reduced.set {start : Deps} {done : List Text} (h : Reduced start done deps)
    (hrank : Ranked (DependsOn start) rank) {pkg : Text} (hpkg : pkg ∈ deps.keys) {kept : List Text}
    (hkept : ∀ x, x ∈ kept ↔ DependsOn deps pkg x ∧
      ∀ y, DependsOn deps pkg y → ¬ Reaches start y x) :
    Reduced start (pkg :: done) (deps.set pkg kept) := by
  have hrank' : Ranked (DependsOn deps) rank := hrank.mono h.edges
  have hle : ∀ p q, DependsOn (deps.set pkg kept) p q → DependsOn deps p q := by
    intro p q hpq
    by_cases hp : p = pkg
    · subst hp
      exact ((hkept q).mp (dependsOn_set_self.mp hpq)).1
    · exact (dependsOn_set_of_ne hp).mp hpq
  have hcover : ∀ q, DependsOn deps pkg q →
      ∃ k, DependsOn (deps.set pkg kept) pkg k ∧ ReflTransGen (DependsOn deps) k q := by
    intro q hq
    obtain ⟨d, hd, hqd⟩ := hq
    obtain ⟨k, hk, hun, hkq⟩ := hrank'.exists_unreached hqd
    refine ⟨k, dependsOn_set_self.mpr ((hkept k).mpr ⟨⟨d, hd, hk⟩, ?_⟩), hkq⟩
    rintro y ⟨d', hd', hy⟩ hyk
    rw [hd] at hd'
    cases hd'
    exact hun y hy ((h.reach y k).mpr hyk)
  constructor
  · rw [Dict.keys_set_of_mem hpkg, h.keys]
  · exact fun p q hpq => h.edges p q (hle p q hpq)
  · intro p q
    rw [← h.reach]
    exact transGen_replace hrank'.acyclic hle
      (fun p q hp hpq => (dependsOn_set_of_ne hp).mpr hpq) hcover p q
  · intro p hp q r hq hr
    by_cases hpp : p = pkg
    · subst hpp
      exact ((hkept q).mp (dependsOn_set_self.mp hq)).2 r (hle p r hr)
    · rcases List.mem_cons.mp hp with rfl | hp
      · exact absurd rfl hpp
      · exact h.minimal p hp q r (hle p q hq) (hle p r hr)

theorem transitiveLoop_spec {start : Deps} (hrank : Ranked (DependsOn start) rank)
    (hfuel : ∀ p, rank p < fuel) (pkgs done : List Text) (hpkgs : ∀ p ∈ pkgs, p ∈ start.keys)
    (h : Reduced start done deps) (hcache : Right (Reaches start) cache) :
    ∃ deps' cache', transitiveLoop fuel false pkgs deps cache = some (deps', cache') ∧
      Reduced start (pkgs.reverse ++ done) deps' := by
  induction pkgs generalizing done deps cache with
  | nil => exact ⟨deps, cache, rfl, by simpa using h⟩
  | cons pkg pkgs ih =>
    have hpkg : pkg ∈ deps.keys := by
      rw [h.keys]
      exact hpkgs pkg (.head _)
    obtain ⟨kept, cache', hkept, hmem, hcache'⟩ :=
      removeTransitiveDeps_spec (hrank.mono h.edges) h.reach hfuel hpkg hcache
    obtain ⟨deps', cache'', hrest, hdone⟩ := ih (pkg :: done)
      (fun p hp => hpkgs p (.tail _ hp)) (h.set hrank hpkg hmem) hcache'
    refine ⟨deps', cache'', by simp [transitiveLoop, hkept, hrest], ?_⟩
    simpa using hdone

/-- The edges that the first loop keeps: the toolchain stays a dependency of `all` only. -/
def ToolchainFree (deps : Deps) (p q : Text) : Prop :=
  DependsOn deps p q ∧ (p = "all".toList ∨ q ≠ "toolchain".toList)

theorem toolchainLoop_spec (pkgs : List Text) (deps : Deps) (hpkgs : ∀ p ∈ pkgs, p ∈ deps.keys) :
    ∃ deps', toolchainLoop pkgs deps = some deps' ∧ deps'.keys = deps.keys ∧
      ∀ p q, DependsOn deps' p q ↔ DependsOn deps p q ∧
        (p ∈ pkgs → p = "all".toList ∨ q ≠ "toolchain".toList) := by
  induction pkgs generalizing deps with
  | nil => exact ⟨deps, rfl, rfl, by simp⟩
  | cons pkg pkgs ih =>
    have hrest : ∀ p ∈ pkgs, p ∈ deps.keys := fun p hp => hpkgs p (.tail _ hp)
    by_cases hall : pkg = "all".toList
    · obtain ⟨deps', hdeps', hkeys, hedges⟩ := ih deps hrest
      refine ⟨deps', by rw [toolchainLoop, if_pos hall, hdeps'], hkeys, ?_⟩
      intro p q
      rw [hedges]
      constructor
      · rintro ⟨hpq, h⟩
        refine ⟨hpq, fun hp => ?_⟩
        rcases List.mem_cons.mp hp with rfl | hp
        · exact .inl hall
        · exact h hp
      · exact fun ⟨hpq, h⟩ => ⟨hpq, fun hp => h (.tail _ hp)⟩
    · have hpkg := hpkgs pkg (.head _)
      obtain ⟨d, hd⟩ := Dict.exists_get?_iff.mpr hpkg
      have hkeys := Dict.keys_set_of_mem (v := d.filter (· ≠ "toolchain".toList)) hpkg
      obtain ⟨deps', hdeps', hkeys', hedges⟩ := ih _ (by rw [hkeys]; exact hrest)
      refine ⟨deps', ?_, hkeys'.trans hkeys, ?_⟩
      · rw [toolchainLoop, if_neg hall, removeToolchainDeps, hd]
        exact hdeps'
      · intro p q
        rw [hedges]
        by_cases hp : p = pkg
        · subst hp
          rw [dependsOn_set_self, List.mem_filter, decide_eq_true_iff]
          constructor
          · rintro ⟨⟨hq, hne⟩, -⟩
            exact ⟨⟨d, hd, hq⟩, fun _ => .inr hne⟩
          · rintro ⟨⟨d', hd', hq⟩, h⟩
            rw [hd] at hd'
            cases hd'
            exact ⟨⟨hq, (h (.head _)).resolve_left hall⟩, fun _ => h (.head _)⟩
        · rw [dependsOn_set_of_ne hp, List.mem_cons, or_iff_right hp]

/-- For every dictionary, in every order of its keys, whose edges apart from those to
the toolchain form no cycle: with a fuel above the number of packages the elimination
ends, leaves the reachability along these edges as it is, and leaves no edge to a
package that a remaining dependency reaches. -/
theorem removeExtraDeps_reduction (deps : Deps)
    (hacyclic : ∀ p, ¬ TransGen (ToolchainFree deps) p p) (fuel : ℕ)
    (hfuel : deps.keys.length < fuel) :
    ∃ deps', removeExtraDeps fuel false deps = some deps' ∧
      (∀ p q, Reaches deps' p q ↔ TransGen (ToolchainFree deps) p q) ∧
      ∀ p q r, DependsOn deps' p q → DependsOn deps' p r → ¬ Reaches deps' r q := by
  obtain ⟨start, hloop, hkeys, hedges⟩ := toolchainLoop_spec deps.keys deps (fun _ h => h)
  have hsources : ∀ p q, DependsOn start p q → p ∈ start.keys :=
    fun p q hpq => Dict.exists_get?_iff.mp (hpq.imp fun _ h => h.1)
  have hfree : DependsOn start = ToolchainFree deps := by
    funext p q
    apply propext
    rw [hedges]
    constructor
    · exact fun ⟨hpq, h⟩ => ⟨hpq, h (Dict.exists_get?_iff.mp (hpq.imp fun _ h => h.1))⟩
    · exact fun ⟨hpq, h⟩ => ⟨hpq, fun _ => h⟩
  rw [← hfree] at hacyclic ⊢
  obtain ⟨rank, hrank, hbound⟩ := exists_ranked start.keys hsources hacyclic
  have hlt : ∀ p, rank p < fuel := by
    intro p
    have hle := hbound p
    rw [hkeys] at hle
    omega
  obtain ⟨deps', cache, hrun, hred⟩ := transitiveLoop_spec hrank hlt start.keys []
    (fun _ h => h) (reduced_nil start) (right_empty _)
  refine ⟨deps', by simp [removeExtraDeps, hloop, hrun], hred.reach, ?_⟩
  intro p q r hq hr
  rw [hred.reach]
  apply hred.minimal p _ q r hq hr
  simpa using hsources p q (hred.edges p q hq)

/-- `A -> {C, B, toolchain}`, `B -> {C}` -/
def chain : Deps where
  entries := [("A".toList, ["C".toList, "B".toList, "toolchain".toList]),
    ("B".toList, ["C".toList])]
  nodup := by decide

theorem chain_edges {p q : Text} (h : DependsOn chain p q) :
    p = "A".toList ∧ q ∈ ["C".toList, "B".toList, "toolchain".toList] ∨
      p = "B".toList ∧ q = "C".toList := by
  obtain ⟨d, hd, hq⟩ := h
  have hmem := Dict.mem_of_get? hd
  simp only [chain, List.mem_cons, List.not_mem_nil, or_false, Prod.mk.injEq] at hmem
  rcases hmem with ⟨rfl, rfl⟩ | ⟨rfl, rfl⟩
  · exact .inl ⟨rfl, hq⟩
  · exact .inr ⟨rfl, List.mem_singleton.mp hq⟩

theorem removeExtraDeps_chain :
    ∃ deps', removeExtraDeps 3 false chain = some deps' ∧
      (∀ p q, Reaches deps' p q ↔ TransGen (ToolchainFree chain) p q) ∧
      ∀ p q r, DependsOn deps' p q → DependsOn deps' p r → ¬ Reaches deps' r q := by
  refine removeExtraDeps_reduction chain ?_ 3 (by decide)
  let rank (p : Text) : ℕ := if p = "A".toList then 2 else if p = "B".toList then 1 else 0
  have hrank : Ranked (ToolchainFree chain) rank := by
    rintro p q ⟨hpq, -⟩
    rcases chain_edges hpq with ⟨rfl, hq⟩ | ⟨rfl, rfl⟩
    · simp only [List.mem_cons, List.not_mem_nil, or_false] at hq
      rcases hq with rfl | rfl | rfl <;> decide
    · decide
  exact hrank.acyclic

end CargosBuildroot.Depends
