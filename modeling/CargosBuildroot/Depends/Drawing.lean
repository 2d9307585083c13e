import CargosBuildroot.Depends.GraphDepends
import CargosBuildroot.Graph.Walks

/-! The drawing of `graph-depends`. The packages are drawn depth first, and the option `-d`
cuts the traversal off at a depth. A package is done once it has been met, at the depth it
was met at. -/

namespace CargosBuildroot.Depends

open Relation Shell Store CargosBuildroot.Graph

/-! ### Printed text -/

inductive Mode
  | full
  | pkg
deriving DecidableEq

/-- What `print_attrs` reads. -/
structure Settings where
  mode : Mode
  rootpkg : Text
  rootColour : Text
  targetColour : Text
  hostColour : Text
  dictVersion : Dict Text Text

def pkgNodeName (pkg : Text) : Text := pkg.filter (· ≠ '-')

def Settings.colour (s : Settings) (pkg : Text) : Text :=
  if pkg = "all".toList ∨ (s.mode = .pkg ∧ pkg = s.rootpkg) then s.rootColour
  else if "host".toList <+: pkg ∨ "toolchain".toList <+: pkg ∨ "rootfs".toList <+: pkg then
    s.hostColour
  else s.targetColour

def printAttrs (s : Settings) (pkg : Text) : List Text :=
  let name := pkgNodeName pkg
  let label := if pkg = "all".toList then "ALL".toList else pkg
  let version := s.dictVersion.get? pkg
  [if version = some "virtual".toList then
      name ++ " [label = <<I>".toList ++ label ++ "</I>>]".toList
    else name ++ " [label = \"".toList ++ label ++ "\"]".toList,
    name ++ " [color=".toList ++ s.colour pkg ++ ",style=filled]".toList]

/-- The attributes of a package, or an edge. -/
inductive Printed
  | attrs (pkg : Text)
  | edge (pkg d : Text)
deriving DecidableEq

def Printed.lines (s : Settings) : Printed → List Text
  | .attrs pkg => printAttrs s pkg
  | .edge pkg d => [pkgNodeName pkg ++ " -> ".toList ++ pkgNodeName d]

/-! ### Traversal -/

/-- The list `done_deps` and what has been printed. -/
structure Drawing where
  doneDeps : List Text
  printed : List Printed

/-- `print_pkg_deps`; `none` when the fuel for the depth of the recursion is used up. -/
def printPkgDeps (dictDeps : Deps) (maxDepth : ℤ) : ℕ → ℕ → Text → Drawing → Option Drawing
  | 0, _, _, _ => none
  | fuel + 1, depth, pkg, s =>
    if pkg ∈ s.doneDeps then some s
    else
      let s : Drawing := ⟨s.doneDeps ++ [pkg], s.printed ++ [.attrs pkg]⟩
      match dictDeps.get? pkg with
      | none => some s
      | some ds =>
        if maxDepth = 0 ∨ depth < maxDepth then
          ds.foldlM (fun s d => printPkgDeps dictDeps maxDepth fuel (depth + 1) d
            ⟨s.doneDeps, s.printed ++ [.edge pkg d]⟩) s
        else some s

def Settings.draw (s : Settings) (dictDeps : Deps) (maxDepth : ℤ) (fuel : ℕ) : Option (List Text) := do
  let drawing ← printPkgDeps dictDeps maxDepth fuel 0 s.rootpkg ⟨[], []⟩
  some ("digraph G \x7b".toList :: drawing.printed.flatMap (Printed.lines s) ++ ["\x7d".toList])

/-- The dependencies in the dictionary; a package without an entry has none. -/
def dependencies (deps : Deps) (p : Text) : List Text := (deps.get? p).getD []

theorem mem_dependencies {deps : Deps} {p q : Text} : q ∈ dependencies deps p ↔ DependsOn deps p q := by
  unfold dependencies DependsOn
  cases deps.get? p with
  | none => simp
  | some d => simp

/-- What is printed for a package that is visited at a depth. -/
def drawn (deps : Deps) (limit : ℕ) (e : Text × ℕ) : List Printed :=
  .attrs e.1 :: if e.2 < limit then (dependencies deps e.1).map (.edge e.1) else []

variable {deps : Deps} {limit : ℕ}

/-- A call draws the packages that it visits. -/
def Draws (deps : Deps) (limit : ℕ) (s : Drawing) (edges : List Printed)
    (added : List (Text × ℕ)) (r : Option Drawing) : Prop :=
  ∃ new, r = some ⟨s.doneDeps ++ added.map Prod.fst, s.printed ++ new⟩ ∧
    new.Perm (edges ++ added.flatMap (drawn deps limit))

theorem draws_nil (s : Drawing) : Draws deps limit s [] [] (some s) :=
  ⟨[], by simp only [List.map_nil, List.append_nil], .refl _⟩

theorem draws_loop {visit : Text → List (Text × ℕ) → List (Text × ℕ)}
    {draw : Text → Drawing → Option Drawing} {pkg : Text} {ds : List Text}
    (hdraw : ∀ d s seen, s.doneDeps = seen.map Prod.fst →
      ∃ added, visit d seen = seen ++ added ∧ Draws deps limit s [] added (draw d s))
    {s : Drawing} {seen : List (Text × ℕ)} (hs : s.doneDeps = seen.map Prod.fst) :
    ∃ added, ds.foldl (fun seen d => visit d seen) seen = seen ++ added ∧
      Draws deps limit s (ds.map (.edge pkg)) added
        (ds.foldlM (fun s d => draw d ⟨s.doneDeps, s.printed ++ [.edge pkg d]⟩) s) := by
  induction ds generalizing s seen with
  | nil => exact ⟨[], (List.append_nil _).symm, [], by simp, .refl _⟩
  | cons d ds ih =>
    obtain ⟨added, hvisit, new, hnew, hperm⟩ :=
      hdraw d ⟨s.doneDeps, s.printed ++ [.edge pkg d]⟩ seen hs
    obtain ⟨added', hloop, new', hnew', hperm'⟩ :=
      @ih ⟨s.doneDeps ++ added.map Prod.fst, s.printed ++ [.edge pkg d] ++ new⟩
        (seen ++ added) (by rw [List.map_append, ← hs])
    refine ⟨added ++ added', ?_, .edge pkg d :: (new ++ new'), ?_, ?_⟩
    · rw [List.foldl_cons, hvisit, hloop, List.append_assoc]
    · rw [List.foldlM_cons, hnew, Option.bind_eq_bind, Option.bind_some, hnew']
      simp
    · rw [List.map_cons, List.cons_append, List.perm_cons, List.flatMap_append]
      refine (hperm.append hperm').trans ?_
      rw [List.nil_append, ← List.append_assoc, ← List.append_assoc]
      exact (List.perm_append_comm).append_right _

/-- A call visits what the traversal to the limit visits. -/
theorem printPkgDeps_draws (hlimit : 0 < limit) {n k fuel : ℕ} (hnk : n + k = limit)
    (hfuel : n < fuel) (pkg : Text) (s : Drawing) (seen : List (Text × ℕ))
    (hs : s.doneDeps = seen.map Prod.fst) :
    ∃ added, visits (dependencies deps) n k pkg seen = seen ++ added ∧
      Draws deps limit s [] added (printPkgDeps deps limit fuel k pkg s) := by
  induction n generalizing k fuel pkg s seen with
  | zero =>
    obtain ⟨fuel, rfl⟩ := Nat.exists_eq_succ_of_ne_zero (Nat.ne_of_gt hfuel)
    rw [visits, record, printPkgDeps, hs]
    by_cases hmem : pkg ∈ seen.map Prod.fst
    · rw [if_pos hmem, if_pos hmem]
      exact ⟨[], (List.append_nil _).symm, draws_nil s⟩
    · rw [if_neg hmem, if_neg hmem]
      have hdepth : ¬ ((limit : ℤ) = 0 ∨ (k : ℤ) < limit) := by omega
      refine ⟨[(pkg, k)], rfl, [.attrs pkg], ?_, ?_⟩
      · cases deps.get? pkg with
        | none => simp [hs]
        | some ds => simp only [if_neg hdepth]; simp [hs]
      · have hk : ¬ k < limit := by omega
        simp [drawn, hk]
  | succ n ih =>
    obtain ⟨fuel, rfl⟩ := Nat.exists_eq_succ_of_ne_zero (Nat.ne_of_gt (Nat.zero_lt_of_lt hfuel))
    rw [visits, printPkgDeps, hs]
    by_cases hmem : pkg ∈ seen.map Prod.fst
    · rw [if_pos hmem, if_pos hmem]
      exact ⟨[], (List.append_nil _).symm, draws_nil s⟩
    rw [if_neg hmem, if_neg hmem]
    have hdepth : (limit : ℤ) = 0 ∨ (k : ℤ) < limit := by omega
    have hk : k < limit := by omega
    cases hdeps : deps.get? pkg with
    | none =>
      have hnil : dependencies deps pkg = [] := by rw [dependencies, hdeps]; rfl
      refine ⟨[(pkg, k)], by rw [hnil]; rfl, [.attrs pkg], by simp [hs], ?_⟩
      simp [drawn, hk, hnil]
    | some ds =>
      have hds : dependencies deps pkg = ds := by rw [dependencies, hdeps]; rfl
      obtain ⟨added, hvisits, new, hnew, hperm⟩ := @draws_loop deps limit _ _ pkg ds
        (@ih (k + 1) fuel (by omega) (by omega))
        ⟨seen.map Prod.fst ++ [pkg], s.printed ++ [.attrs pkg]⟩ (seen ++ [(pkg, k)])
        (by rw [List.map_append]; rfl)
      refine ⟨(pkg, k) :: added, ?_, .attrs pkg :: new, ?_, ?_⟩
      · rw [hds, hvisits, List.append_assoc, List.singleton_append]
      · simp only [if_pos hdepth]
        rw [hnew]
        simp [hs]
      · simpa [drawn, hk, hds] using hperm

/-! ### The limit -/

/-- The package is at most, or less than, so many steps from the root. -/
def Within (deps : Deps) (root : Text) (n : ℕ) (p : Text) : Prop :=
  ∃ k ≤ n, Steps (dependencies deps) k root p

def Inside (deps : Deps) (root : Text) (n : ℕ) (p : Text) : Prop :=
  ∃ k < n, Steps (dependencies deps) k root p

/-- What is printed is exactly the graph up to the limit. -/
structure Exact (deps : Deps) (root : Text) (limit : ℕ) (printed : List Printed) : Prop where
  attrs_once : ∀ p, Within deps root limit p → printed.count (.attrs p) = 1
  attrs_only : ∀ p, .attrs p ∈ printed → Within deps root limit p
  edge_once : ∀ p d, Inside deps root limit p → DependsOn deps p d → printed.count (.edge p d) = 1
  edge_only : ∀ p d, .edge p d ∈ printed → Inside deps root limit p ∧ DependsOn deps p d

/-- Among the paths of at most `limit` steps from the root, in depth-first order, the first
to the package is shorter than the limit. -/
def MetInside (deps : Deps) (root : Text) (limit : ℕ) (p : Text) : Prop :=
  ∃ k < limit, (walks (dependencies deps) limit 0 root).find? (·.1 = p) = some (p, k)

theorem within_iff {root p : Text} :
    Within deps root limit p ↔ p ∈ (walks (dependencies deps) limit 0 root).map Prod.fst := by
  rw [List.mem_map]
  constructor
  · rintro ⟨k, hk, hsteps⟩
    exact ⟨(p, k), mem_walks.mpr ⟨k, hk, (Nat.zero_add k).symm, hsteps⟩, rfl⟩
  · rintro ⟨⟨p, j⟩, hmem, rfl⟩
    obtain ⟨k, hk, -, hsteps⟩ := mem_walks.mp hmem
    exact ⟨k, hk, hsteps⟩

theorem inside_iff {root p : Text} :
    Inside deps root limit p ↔ ∃ k < limit, (p, k) ∈ walks (dependencies deps) limit 0 root := by
  constructor
  · rintro ⟨k, hk, hsteps⟩
    exact ⟨k, hk, mem_walks.mpr ⟨k, Nat.le_of_lt hk, (Nat.zero_add k).symm, hsteps⟩⟩
  · rintro ⟨j, hj, hmem⟩
    obtain ⟨k, -, rfl, hsteps⟩ := mem_walks.mp hmem
    exact ⟨k, by omega, hsteps⟩

theorem count_attrs_drawn (p : Text) (e : Text × ℕ) :
    (drawn deps limit e).count (.attrs p) = if e.1 = p then 1 else 0 := by
  have hnot : Printed.attrs p ∉
      if e.2 < limit then (dependencies deps e.1).map (Printed.edge e.1) else [] := by
    split
    · simp
    · exact List.not_mem_nil
  rw [drawn, List.count_cons, List.count_eq_zero_of_not_mem hnot]
  simp

theorem count_edge_drawn (p d : Text) (e : Text × ℕ) :
    (drawn deps limit e).count (.edge p d) =
      if e.1 = p ∧ e.2 < limit then (dependencies deps p).count d else 0 := by
  have hinj : Function.Injective (Printed.edge p) := fun _ _ h => (Printed.edge.inj h).2
  rw [drawn, List.count_cons_of_ne (by simp)]
  by_cases hlt : e.2 < limit
  · rw [if_pos hlt]
    by_cases hp : e.1 = p
    · rw [hp, List.count_map_of_injective _ _ hinj, if_pos ⟨rfl, hlt⟩]
    · rw [if_neg (fun h => hp h.1), List.count_eq_zero]
      simp [hp]
  · rw [if_neg hlt, if_neg (fun h => hlt h.2), List.count_nil]

/-- The sum over entries that have distinct keys. -/
theorem sum_map_of_nodup {v : List (Text × ℕ)} (h : (v.map Prod.fst).Nodup) (f : Text × ℕ → ℕ)
    {e : Text × ℕ} (he : e ∈ v) (hf : ∀ e', e'.1 ≠ e.1 → f e' = 0) : (v.map f).sum = f e := by
  induction v with
  | nil => exact absurd he List.not_mem_nil
  | cons w v ih =>
    rw [List.map_cons, List.nodup_cons] at h
    rw [List.map_cons, List.sum_cons]
    rcases List.mem_cons.mp he with rfl | he
    · have hzero : (v.map f).sum = 0 := by
        rw [List.sum_eq_zero_iff_forall_eq_nat]
        intro n hn
        obtain ⟨e', he', rfl⟩ := List.mem_map.mp hn
        exact hf e' fun heq => h.1 (List.mem_map.mpr ⟨e', he', heq⟩)
      omega
    · have hw : f w = 0 := hf w fun heq => h.1 (List.mem_map.mpr ⟨e, he, heq.symm⟩)
      rw [hw, ih h.2 he, Nat.zero_add]

variable {v : List (Text × ℕ)}

theorem count_attrs (h : (v.map Prod.fst).Nodup) {p : Text} (hp : p ∈ v.map Prod.fst) :
    (v.flatMap (drawn deps limit)).count (.attrs p) = 1 := by
  obtain ⟨e, he, rfl⟩ := List.mem_map.mp hp
  rw [List.count_flatMap, sum_map_of_nodup h _ he]
  · simp [count_attrs_drawn]
  · intro e' hne
    simp [count_attrs_drawn, hne]

theorem count_edge (h : (v.map Prod.fst).Nodup) {p : Text} {k : ℕ} (hp : (p, k) ∈ v) (d : Text) :
    (v.flatMap (drawn deps limit)).count (.edge p d) =
      if k < limit then (dependencies deps p).count d else 0 := by
  rw [List.count_flatMap, sum_map_of_nodup h _ hp]
  · simp [count_edge_drawn]
  · intro e' hne
    simp [count_edge_drawn, hne]

theorem mem_attrs {p : Text} : .attrs p ∈ v.flatMap (drawn deps limit) ↔ p ∈ v.map Prod.fst := by
  rw [List.mem_flatMap, List.mem_map]
  refine exists_congr fun e => and_congr_right fun _ => ?_
  rw [← List.count_pos_iff, count_attrs_drawn]
  split
  · simp_all
  · simp_all

theorem mem_edge {p d : Text} : .edge p d ∈ v.flatMap (drawn deps limit) ↔
    (∃ k < limit, (p, k) ∈ v) ∧ d ∈ dependencies deps p := by
  rw [List.mem_flatMap]
  constructor
  · rintro ⟨⟨q, k⟩, he, hmem⟩
    rw [← List.count_pos_iff, count_edge_drawn] at hmem
    split at hmem
    next h =>
      obtain ⟨rfl, hk⟩ := h
      exact ⟨⟨k, hk, he⟩, List.count_pos_iff.mp hmem⟩
    next => exact absurd hmem (Nat.lt_irrefl 0)
  · rintro ⟨⟨k, hk, he⟩, hd⟩
    refine ⟨_, he, ?_⟩
    rw [← List.count_pos_iff, count_edge_drawn, if_pos ⟨rfl, hk⟩]
    exact List.count_pos_iff.mpr hd

/-! ### Exactness -/

variable {root : Text}

/-- A late package is drawn as if it had no dependencies. -/
theorem not_exact_of_late {printed : List Printed} {p : Text}
    (hprinted : printed.Perm (v.flatMap (drawn deps limit))) (hnodup : (v.map Prod.fst).Nodup)
    (hlate : Late (dependencies deps) limit (walks (dependencies deps) limit 0 root) p)
    (hp : (p, limit) ∈ v) : ¬ Exact deps root limit printed := by
  intro hexact
  obtain ⟨d, hd⟩ := List.exists_mem_of_ne_nil _ hlate.successors
  have hone := hexact.edge_once p d (inside_iff.mpr hlate.early) (mem_dependencies.mp hd)
  rw [hprinted.count_eq, count_edge hnodup hp, if_neg (Nat.lt_irrefl limit)] at hone
  exact absurd hone (by decide)

theorem metInside_iff {p : Text} (hinside : Inside deps root limit p)
    (hsucc : dependencies deps p ≠ []) :
    MetInside deps root limit p ↔
      ¬ Late (dependencies deps) limit (walks (dependencies deps) limit 0 root) p := by
  have hearly := inside_iff.mp hinside
  constructor
  · rintro ⟨k, hk, hfind⟩ hlate
    have hfirst := mem_recordAll_nil_iff.mp hlate.first
    rw [hfind] at hfirst
    have heq : k = limit := congrArg Prod.snd (Option.some.inj hfirst)
    omega
  · intro hnot
    obtain ⟨j, -, hj⟩ := id hearly
    obtain ⟨⟨q, k⟩, hmem, heq⟩ := List.mem_map.mp (@mem_recordAll_keys _ _ [] _ _ hj)
    obtain rfl : q = p := heq
    have hk : k ≤ limit := by
      obtain ⟨i, hi, hki, -⟩ := mem_walks.mp ((mem_recordAll hmem).resolve_left List.not_mem_nil)
      omega
    refine ⟨k, Nat.lt_of_le_of_ne hk ?_, mem_recordAll_nil_iff.mp hmem⟩
    rintro rfl
    exact hnot ⟨hsucc, hearly, hmem⟩

/-- An edge out of a package is drawn, so the package was visited inside the limit. -/
theorem drawn_of_exact {printed : List Printed} {p d : Text}
    (hprinted : printed.Perm (v.flatMap (drawn deps limit))) (hnodup : (v.map Prod.fst).Nodup)
    (hexact : Exact deps root limit printed) (hinside : Inside deps root limit p)
    (hd : d ∈ dependencies deps p) :
    (∃ k < limit, (p, k) ∈ v) ∧ (dependencies deps p).count d = 1 := by
  have hone := hexact.edge_once p d hinside (mem_dependencies.mp hd)
  have hmem : .edge p d ∈ printed := List.count_pos_iff.mp (hone ▸ Nat.zero_lt_one)
  obtain ⟨⟨k, hk, hpk⟩, -⟩ := mem_edge.mp (hprinted.mem_iff.mp hmem)
  rw [hprinted.count_eq, count_edge hnodup hpk, if_pos hk] at hone
  exact ⟨⟨k, hk, hpk⟩, hone⟩

/-- What is drawn of the walks is exact, if every package with dependencies is met inside. -/
theorem exact_of_metInside {printed : List Printed} (hprinted : printed.Perm
      ((recordAll [] (walks (dependencies deps) limit 0 root)).flatMap (drawn deps limit)))
    (hall : ∀ p, Inside deps root limit p → (dependencies deps p).Nodup ∧
      (dependencies deps p ≠ [] → MetInside deps root limit p)) : Exact deps root limit printed := by
  have hnodup : ((recordAll [] (walks (dependencies deps) limit 0 root)).map Prod.fst).Nodup :=
    nodup_recordAll List.nodup_nil
  constructor
  · intro p hp
    obtain ⟨e, he, rfl⟩ := List.mem_map.mp (within_iff.mp hp)
    rw [hprinted.count_eq, count_attrs hnodup (mem_recordAll_keys he)]
  · intro p hp
    obtain ⟨e, he, rfl⟩ := List.mem_map.mp (mem_attrs.mp (hprinted.mem_iff.mp hp))
    have hwalk := (mem_recordAll he).resolve_left List.not_mem_nil
    exact within_iff.mpr (List.mem_map_of_mem hwalk)
  · intro p d hp hd
    obtain ⟨hlist, hmet⟩ := hall p hp
    rw [← mem_dependencies] at hd
    obtain ⟨k, hk, hfind⟩ := hmet (List.ne_nil_of_mem hd)
    rw [hprinted.count_eq, count_edge hnodup (mem_recordAll_nil_iff.mpr hfind), if_pos hk]
    exact List.count_eq_one_of_mem hlist hd
  · intro p d hp
    obtain ⟨⟨k, hk, hpk⟩, hd⟩ := mem_edge.mp (hprinted.mem_iff.mp hp)
    have hwalk := (mem_recordAll hpk).resolve_left List.not_mem_nil
    exact ⟨inside_iff.mpr ⟨k, hk, hwalk⟩, mem_dependencies.mp hd⟩

/-- For every acyclic dictionary, every root and every limit, `print_pkg_deps` ends, and what
it prints is exactly the graph up to the limit if and only if no list of a package less than
`limit` steps from the root has a repetition, and every such package that has dependencies is
met inside the limit. -/
theorem printPkgDeps_exact_iff (deps : Deps) (hacyclic : ∀ p, ¬ Reaches deps p p) (root : Text)
    (limit fuel : ℕ) (hlimit : 0 < limit) (hfuel : limit < fuel) :
    ∃ s, printPkgDeps deps limit fuel 0 root ⟨[], []⟩ = some s ∧
      (Exact deps root limit s.printed ↔
        ∀ p, Inside deps root limit p → (dependencies deps p).Nodup ∧
          (dependencies deps p ≠ [] → MetInside deps root limit p)) := by
  obtain ⟨v, hvisits, new, hrun, hperm⟩ :=
    @printPkgDeps_draws deps _ hlimit _ _ _ (Nat.add_zero limit) hfuel root ⟨[], []⟩ [] rfl
  rw [List.nil_append] at hvisits hperm
  have hnodup : (v.map Prod.fst).Nodup := by
    rw [← hvisits]
    exact nodup_visits _ _ _ List.nodup_nil
  have hgraph : ∀ p, ¬ TransGen (fun p q => q ∈ dependencies deps p) p p := by
    simpa only [mem_dependencies] using hacyclic
  have hcases := visits_eq_or_late hgraph limit root
  rw [hvisits] at hcases
  refine ⟨_, hrun, ?_⟩
  dsimp only
  rw [List.nil_append]
  constructor
  · intro hexact p hinside
    constructor
    · rw [List.nodup_iff_count_le_one]
      intro d
      by_cases hd : d ∈ dependencies deps p
      · exact Nat.le_of_eq (drawn_of_exact hperm hnodup hexact hinside hd).2
      · rw [List.count_eq_zero_of_not_mem hd]
        exact Nat.zero_le 1
    · intro hsucc
      obtain ⟨d, hd⟩ := List.exists_mem_of_ne_nil _ hsucc
      obtain ⟨k, hk, hpk⟩ := (drawn_of_exact hperm hnodup hexact hinside hd).1
      rcases hcases with rfl | ⟨b, hb, hmem⟩
      · exact ⟨k, hk, mem_recordAll_nil_iff.mp hpk⟩
      · exact absurd hexact (not_exact_of_late hperm hnodup hb hmem)
  · intro hall
    rcases hcases with rfl | ⟨b, hb, -⟩
    · exact exact_of_metInside hperm hall
    · have hinside := inside_iff.mpr hb.early
      exact absurd hb ((metInside_iff hinside hb.successors).mp ((hall b hinside).2 hb.successors))

/-- `root -> {a, c}`, `a -> {c}`, `c -> {e}` -/
def diamond : Deps where
  entries := [("root".toList, ["a".toList, "c".toList]), ("a".toList, ["c".toList]),
    ("c".toList, ["e".toList])]
  nodup := by decide

theorem diamond_edges {p q : Text} (h : DependsOn diamond p q) :
    p = "root".toList ∧ q ∈ ["a".toList, "c".toList] ∨ p = "a".toList ∧ q = "c".toList ∨
      p = "c".toList ∧ q = "e".toList := by
  obtain ⟨d, hd, hq⟩ := h
  have hmem := Dict.mem_of_get? hd
  simp only [diamond, List.mem_cons, List.not_mem_nil, or_false, Prod.mk.injEq] at hmem
  rcases hmem with ⟨rfl, rfl⟩ | ⟨rfl, rfl⟩ | ⟨rfl, rfl⟩
  · exact .inl ⟨rfl, hq⟩
  · exact .inr (.inl ⟨rfl, List.mem_singleton.mp hq⟩)
  · exact .inr (.inr ⟨rfl, List.mem_singleton.mp hq⟩)

theorem diamond_acyclic (p : Text) : ¬ Reaches diamond p p := by
  let rank (p : Text) : ℕ :=
    if p = "root".toList then 3 else if p = "a".toList then 2 else if p = "c".toList then 1 else 0
  have hrank : Ranked (DependsOn diamond) rank := by
    intro p q hpq
    rcases diamond_edges hpq with ⟨rfl, hq⟩ | ⟨rfl, rfl⟩ | ⟨rfl, rfl⟩
    · simp only [List.mem_cons, List.not_mem_nil, or_false] at hq
      rcases hq with rfl | rfl <;> decide
    · decide
    · decide
  exact hrank.acyclic p

/-- The package `c` is met at depth 2 first, so its edge to `e` is not drawn. -/
theorem printPkgDeps_diamond : (∀ p, ¬ Reaches diamond p p) ∧
    ∃ s, printPkgDeps diamond 2 3 0 "root".toList ⟨[], []⟩ = some s ∧
      ¬ Exact diamond "root".toList 2 s.printed := by
  refine ⟨diamond_acyclic, _, rfl, fun hexact => ?_⟩
  have hinside : Inside diamond "root".toList 2 "c".toList := ⟨1, by decide, "c".toList, by decide, rfl⟩
  have hone := hexact.edge_once "c".toList "e".toList hinside ⟨["e".toList], by decide, .head _⟩
  exact absurd hone (by decide)

theorem printPkgDeps_exact_diamond :
    ∃ s, printPkgDeps diamond 3 4 0 "root".toList ⟨[], []⟩ = some s ∧
      (Exact diamond "root".toList 3 s.printed ↔
        ∀ p, Inside diamond "root".toList 3 p → (dependencies diamond p).Nodup ∧
          (dependencies diamond p ≠ [] → MetInside diamond "root".toList 3 p)) :=
  printPkgDeps_exact_iff diamond diamond_acyclic "root".toList 3 4 (by decide) (by decide)

end CargosBuildroot.Depends
