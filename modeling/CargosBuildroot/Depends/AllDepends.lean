import CargosBuildroot.Shell.Words
import CargosBuildroot.Store.Dict
import Mathlib.Data.List.Dedup
import Mathlib.Data.Set.Finite.Basic
import Mathlib.Logic.Relation

/-! `get_all_depends` of `graph-depends` asks `make` for the dependencies of one level of
packages after the other, and keeps the packages that it has asked for in a list. -/

namespace CargosBuildroot.Depends

open Relation Shell Store

/-! ### The dependencies of some packages -/

/-- `_get_depends` of `pkgutil.py`; `make` gives no output when it fails. -/
def getDepends (make : List Text → Option Text) (rule : Text) (pkgs : List Text) :
    Option (Dict Text (List Text)) :=
  match make (pkgs.map fun pkg => pkg ++ '-' :: rule) with
  | none => none
  | some output =>
    let output := lines output
    if output.length ≠ pkgs.length + 1 then none
    else some <| (pkgs.zip output).foldl (fun deps e =>
      let pkgDeps := e.2.splitOn ' '
      deps.set e.1 (if pkgDeps = [[]] then [] else pkgDeps)) Dict.empty

/-! ### All dependencies -/

/-- An order in which Python goes through a set, given by the elements that were added. -/
structure SetOrder where
  order : List Text → List Text
  perm : ∀ l, (order l).Perm l.dedup

/-- The first loop: the packages that are not in `allpkgs` yet, and the new `allpkgs`. -/
def filterPkgs : List Text → List Text → List Text → List Text × List Text
  | [], filtered, allpkgs => (filtered, allpkgs)
  | pkg :: pkgs, filtered, allpkgs =>
    if pkg ∈ allpkgs then filterPkgs pkgs filtered allpkgs
    else filterPkgs pkgs (filtered ++ [pkg]) (allpkgs ++ [pkg])

/-- The second loop, over the answer of `get_depends_func`. -/
def addDependencies (depends : Dict Text (List Text)) :
    List Text → List (Text × Text) → Option (List (Text × Text))
  | [], dependencies => some dependencies
  | pkg :: pkgs, dependencies => do
    let pkgDeps ← depends.get? pkg
    addDependencies depends pkgs (dependencies ++ pkgDeps.map (pkg, ·))

/-- What a call returns, the list `allpkgs` after it, and the packages that it has asked for. -/
structure Collected where
  dependencies : List (Text × Text)
  allpkgs : List Text
  asked : List Text

/-- `get_all_depends`; `none` when a question is not answered, or the fuel for the depth
of the recursion is used up. -/
def getAllDepends (getDependsFunc : List Text → Option (Dict Text (List Text))) (set : SetOrder) :
    ℕ → List Text → List Text → Option Collected
  | 0, _, _ => none
  | fuel + 1, pkgs, allpkgs =>
    let (filteredPkgs, allpkgs) := filterPkgs pkgs [] allpkgs
    if filteredPkgs = [] then some ⟨[], allpkgs, []⟩
    else do
      let depends ← getDependsFunc filteredPkgs
      let dependencies ← addDependencies depends filteredPkgs []
      let deps := dependencies.map Prod.snd
      if deps = [] then some ⟨dependencies, allpkgs, filteredPkgs⟩
      else do
        let rest ← getAllDepends getDependsFunc set fuel (set.order deps) allpkgs
        some ⟨dependencies ++ rest.dependencies, rest.allpkgs, filteredPkgs ++ rest.asked⟩

/-! ### One level -/

theorem filterPkgs_spec (pkgs filtered allpkgs : List Text) :
    ∃ new, filterPkgs pkgs filtered allpkgs = (filtered ++ new, allpkgs ++ new) ∧ new.Nodup ∧
      ∀ p, p ∈ new ↔ p ∈ pkgs ∧ p ∉ allpkgs := by
  induction pkgs generalizing filtered allpkgs with
  | nil => exact ⟨[], by simp [filterPkgs], List.nodup_nil, by simp⟩
  | cons pkg pkgs ih =>
    unfold filterPkgs
    split
    next hmem =>
      obtain ⟨new, hnew, hnodup, hiff⟩ := ih filtered allpkgs
      refine ⟨new, hnew, hnodup, fun p => ?_⟩
      rw [hiff, List.mem_cons]
      constructor
      · rintro ⟨hp, hnot⟩
        exact ⟨.inr hp, hnot⟩
      · rintro ⟨rfl | hp, hnot⟩
        · exact absurd hmem hnot
        · exact ⟨hp, hnot⟩
    next hmem =>
      obtain ⟨new, hnew, hnodup, hiff⟩ := ih (filtered ++ [pkg]) (allpkgs ++ [pkg])
      refine ⟨pkg :: new, by simp [hnew], ?_, fun p => ?_⟩
      · rw [List.nodup_cons, hiff]
        exact ⟨fun h => h.2 (by simp), hnodup⟩
      · rw [List.mem_cons, hiff, List.mem_append, List.mem_singleton, List.mem_cons]
        by_cases hp : p = pkg
        · simp [hp, hmem]
        · simp [hp]

/-- The pairs of some packages. -/
def pairs (d : Text → List Text) (pkgs : List Text) : List (Text × Text) :=
  pkgs.flatMap fun p => (d p).map (p, ·)

/-- The function answers for the dependencies `d` of packages that are known, when it is asked for
at least one of them and for each once. -/
def Supplies (getDependsFunc : List Text → Option (Dict Text (List Text))) (known : Text → Prop)
    (d : Text → List Text) : Prop :=
  ∀ pkgs : List Text, pkgs.Nodup → pkgs ≠ [] → (∀ p ∈ pkgs, known p) →
    ∃ depends, getDependsFunc pkgs = some depends ∧ ∀ p ∈ pkgs, depends.get? p = some (d p)

variable {d : Text → List Text}

theorem addDependencies_eq {depends : Dict Text (List Text)} {pkgs : List Text}
    (h : ∀ p ∈ pkgs, depends.get? p = some (d p)) (acc : List (Text × Text)) :
    addDependencies depends pkgs acc = some (acc ++ pairs d pkgs) := by
  induction pkgs generalizing acc with
  | nil => simp [addDependencies, pairs]
  | cons pkg pkgs ih =>
    rw [List.forall_mem_cons] at h
    simp only [addDependencies, h.1, Option.bind_eq_bind, Option.bind_some]
    rw [ih h.2, pairs, pairs, List.flatMap_cons, List.append_assoc]

theorem snd_mem_pairs {pkgs : List Text} {q : Text} :
    q ∈ (pairs d pkgs).map Prod.snd ↔ ∃ p ∈ pkgs, q ∈ d p := by
  simp only [pairs, List.mem_map, List.mem_flatMap]
  constructor
  · rintro ⟨_, ⟨p, hp, q', hq', rfl⟩, rfl⟩
    exact ⟨p, hp, hq'⟩
  · rintro ⟨p, hp, hq⟩
    exact ⟨(p, q), ⟨p, hp, q, hq, rfl⟩, rfl⟩

/-! ### All levels -/

/-- The package is reached from one of the roots along dependencies. -/
def ReachedFrom (d : Text → List Text) (roots : List Text) (p : Text) : Prop :=
  ∃ r ∈ roots, ReflTransGen (fun p q => q ∈ d p) r p

/-- What a call does to the packages that are in `allpkgs` before it. -/
structure Collects (d : Text → List Text) (pkgs before : List Text) (c : Collected) : Prop where
  dependencies : c.dependencies = pairs d c.asked
  allpkgs : c.allpkgs = before ++ c.asked
  nodup : c.asked.Nodup
  fresh : ∀ p ∈ c.asked, p ∉ before
  roots : ∀ p ∈ pkgs, p ∈ c.allpkgs
  closed : ∀ p ∈ c.asked, ∀ q ∈ d p, q ∈ c.allpkgs
  reached : ∀ p ∈ c.asked, ReachedFrom d pkgs p

section Level

variable {pkgs before new : List Text} (hiff : ∀ p, p ∈ new ↔ p ∈ pkgs ∧ p ∉ before)

include hiff

theorem root_mem_append {p : Text} (hp : p ∈ pkgs) : p ∈ before ++ new := by
  rw [List.mem_append, hiff]
  by_cases hmem : p ∈ before
  · exact .inl hmem
  · exact .inr ⟨hp, hmem⟩

theorem reachedFrom_of_new {p : Text} (hp : p ∈ new) : ReachedFrom d pkgs p :=
  ⟨p, ((hiff p).mp hp).1, .refl⟩

/-- A level without dependencies is the last one. -/
theorem Collects.last (hnodup : new.Nodup) (hdeps : (pairs d new).map Prod.snd = []) :
    Collects d pkgs before ⟨pairs d new, before ++ new, new⟩ where
  dependencies := rfl
  allpkgs := rfl
  nodup := hnodup
  fresh p hp := ((hiff p).mp hp).2
  roots p := root_mem_append hiff
  closed p hp q hq := by
    have hmem : q ∈ (pairs d new).map Prod.snd := snd_mem_pairs.mpr ⟨p, hp, hq⟩
    rw [hdeps] at hmem
    exact absurd hmem List.not_mem_nil
  reached p := reachedFrom_of_new hiff

/-- The levels below are those of the dependencies. -/
theorem Collects.level (hnodup : new.Nodup) {below : List Text}
    (hbelow : ∀ q, q ∈ below ↔ ∃ p ∈ new, q ∈ d p) {c : Collected}
    (h : Collects d below (before ++ new) c) :
    Collects d pkgs before ⟨pairs d new ++ c.dependencies, c.allpkgs, new ++ c.asked⟩ where
  dependencies := by
    dsimp only
    rw [h.dependencies, pairs, pairs, pairs, List.flatMap_append]
  allpkgs := by
    dsimp only
    rw [h.allpkgs, List.append_assoc]
  nodup := by
    refine List.Nodup.append hnodup h.nodup ?_
    intro p hp hasked
    exact h.fresh p hasked (List.mem_append_right _ hp)
  fresh p hp := by
    rcases List.mem_append.mp hp with hp | hp
    · exact ((hiff p).mp hp).2
    · exact fun hmem => h.fresh p hp (List.mem_append_left _ hmem)
  roots p hp := by
    dsimp only
    rw [h.allpkgs]
    exact List.mem_append_left _ (root_mem_append hiff hp)
  closed p hp q hq := by
    rcases List.mem_append.mp hp with hp | hp
    · exact h.roots q ((hbelow q).mpr ⟨p, hp, hq⟩)
    · exact h.closed p hp q hq
  reached p hp := by
    rcases List.mem_append.mp hp with hp | hp
    · exact reachedFrom_of_new hiff hp
    · obtain ⟨q, hq, hqp⟩ := h.reached p hp
      obtain ⟨r, hr, hrq⟩ := (hbelow q).mp hq
      exact ⟨r, ((hiff r).mp hr).1, .head hrq hqp⟩

/-- A package of this level is no longer left. -/
theorem card_left_lt {U : Finset Text} (hpkgs : ∀ p ∈ pkgs, p ∈ U) (hne : new ≠ []) :
    (U.filter (· ∉ before ++ new)).card < (U.filter (· ∉ before)).card := by
  obtain ⟨p, hp⟩ := List.exists_mem_of_ne_nil new hne
  obtain ⟨hpkg, hnot⟩ := (hiff p).mp hp
  apply Finset.card_lt_card
  rw [Finset.ssubset_iff_of_subset]
  · refine ⟨p, by simp [hpkgs p hpkg, hnot], by simp [hp]⟩
  · intro q hq
    simp only [Finset.mem_filter, List.mem_append, not_or] at hq ⊢
    exact ⟨hq.1, hq.2.1⟩

end Level

/-- With more fuel than packages that are left, the recursion ends and has collected all
of them. -/
theorem getAllDepends_spec {ask : List Text → Option (Dict Text (List Text))} (set : SetOrder)
    {U : Finset Text} (hask : Supplies ask (· ∈ U) d) (hU : ∀ p ∈ U, ∀ q ∈ d p, q ∈ U) {fuel : ℕ}
    {pkgs allpkgs : List Text} (hpkgs : ∀ p ∈ pkgs, p ∈ U)
    (hfuel : (U.filter (· ∉ allpkgs)).card < fuel) :
    ∃ c, getAllDepends ask set fuel pkgs allpkgs = some c ∧ Collects d pkgs allpkgs c := by
  induction fuel generalizing pkgs allpkgs with
  | zero => exact absurd hfuel (Nat.not_lt_zero _)
  | succ fuel ih =>
    obtain ⟨new, hnew, hnodup, hiff⟩ := filterPkgs_spec pkgs [] allpkgs
    simp only [getAllDepends, hnew, List.nil_append]
    by_cases hnil : new = []
    · subst hnil
      exact ⟨_, if_pos rfl, .last hiff hnodup rfl⟩
    · obtain ⟨depends, hdepends, hget⟩ := hask new hnodup hnil fun p hp => hpkgs p ((hiff p).mp hp).1
      rw [if_neg hnil, hdepends]
      simp only [Option.bind_eq_bind, Option.bind_some, addDependencies_eq hget, List.nil_append]
      by_cases hdeps : (pairs d new).map Prod.snd = []
      · exact ⟨_, if_pos hdeps, .last hiff hnodup hdeps⟩
      · have horder : ∀ q, q ∈ set.order ((pairs d new).map Prod.snd) ↔ ∃ p ∈ new, q ∈ d p := by
          intro q
          rw [(set.perm _).mem_iff, List.mem_dedup, snd_mem_pairs]
        have hU' : ∀ q ∈ set.order ((pairs d new).map Prod.snd), q ∈ U := by
          intro q hq
          obtain ⟨p, hp, hpq⟩ := (horder q).mp hq
          exact hU p (hpkgs p ((hiff p).mp hp).1) q hpq
        have hless := card_left_lt hiff hpkgs hnil
        obtain ⟨c, hc, hcollects⟩ := ih hU' (Nat.lt_of_lt_of_le hless (Nat.le_of_lt_succ hfuel))
        rw [if_neg hdeps, hc]
        exact ⟨_, rfl, hcollects.level hiff hnodup horder⟩

theorem count_pairs {pkgs : List Text} (h : pkgs.Nodup) (p q : Text) :
    (pairs d pkgs).count (p, q) = if p ∈ pkgs then (d p).count q else 0 := by
  induction pkgs with
  | nil => simp [pairs]
  | cons r pkgs ih =>
    rw [List.nodup_cons] at h
    have hrest := ih h.2
    have hinj : Function.Injective (Prod.mk r : Text → Text × Text) := fun _ _ h => (Prod.mk.inj h).2
    rw [pairs] at hrest ⊢
    rw [List.flatMap_cons, List.count_append, hrest]
    by_cases hpr : p = r
    · subst hpr
      rw [List.count_map_of_injective _ _ hinj, if_neg h.1, if_pos (.head _), Nat.add_zero]
    · have hnot : (p, q) ∉ (d r).map (r, ·) := by
        intro hm
        obtain ⟨_, -, heq⟩ := List.mem_map.mp hm
        exact hpr (Prod.mk.inj heq).1.symm
      rw [List.count_eq_zero_of_not_mem hnot, Nat.zero_add]
      simp [hpr]

/-! ### Answers of `make` -/

theorem get?_foldl_set (v : Text → List Text) (pkgs : List Text) (deps : Dict Text (List Text))
    (p : Text) : (pkgs.foldl (fun deps q => deps.set q (v q)) deps).get? p =
      if p ∈ pkgs then some (v p) else deps.get? p := by
  induction pkgs generalizing deps with
  | nil => rfl
  | cons q pkgs ih =>
    rw [List.foldl_cons, ih, Dict.get?_set]
    by_cases hq : p = q
    · simp [hq]
    · simp [hq]

/-- `make` prints the dependencies of known packages in its targets, one line for each. -/
def Prints (make : List Text → Option Text) (rule : Text) (known : Text → Prop)
    (d : Text → List Text) : Prop :=
  ∀ pkgs : List Text, pkgs.Nodup → pkgs ≠ [] → (∀ p ∈ pkgs, known p) → make (pkgs.map fun pkg => pkg ++ '-' :: rule) =
    some (unlines (pkgs.map fun pkg => [' '].intercalate (d pkg)))

/-- The printed lines are read back. -/
theorem supplies_getDepends {make : List Text → Option Text} {rule : Text} {known : Text → Prop}
    (hmake : Prints make rule known d)
    (hnames : ∀ p, known p → ∀ q ∈ d p, q ≠ [] ∧ ' ' ∉ q ∧ '\n' ∉ q) :
    Supplies (getDepends make rule) known d := by
  intro pkgs hnodup hne hknown
  have hline : ∀ l ∈ pkgs.map fun pkg => [' '].intercalate (d pkg), '\n' ∉ l := by
    intro l hl hm
    obtain ⟨p, hp, rfl⟩ := List.mem_map.mp hl
    rcases mem_intercalate hm with hc | ⟨q, hq, hc⟩
    · exact absurd hc (by decide)
    · exact (hnames p (hknown p hp) q hq).2.2 hc
  have hlines : lines (unlines (pkgs.map fun pkg => [' '].intercalate (d pkg))) =
      (pkgs.map fun pkg => [' '].intercalate (d pkg)) ++ [[]] := by
    have h := lines_unlines hline []
    rw [List.append_nil, lines_nil] at h
    exact h
  have hread : ∀ p ∈ pkgs, (if ([' '].intercalate (d p)).splitOn ' ' = [[]] then []
      else ([' '].intercalate (d p)).splitOn ' ') = d p := by
    intro p hp
    have hwords := hnames p (hknown p hp)
    by_cases hnil : d p = []
    · rw [hnil]
      rfl
    · have hsplit := List.splitOn_intercalate ' ' (fun q hq => (hwords q hq).2.1) hnil
      rw [hsplit, if_neg]
      intro hempty
      exact (hwords [] (hempty ▸ .head _)).1 rfl
  have hzip : pkgs.zip ((pkgs.map fun pkg => [' '].intercalate (d pkg)) ++ [[]]) =
      pkgs.map fun p => (p, [' '].intercalate (d p)) := by
    have hpairs : ∀ ps : List Text, ps.zip ((ps.map fun p => [' '].intercalate (d p)) ++ [[]]) =
        ps.map fun p => (p, [' '].intercalate (d p)) := by
      intro ps
      induction ps with
      | nil => rfl
      | cons p ps ih => rw [List.map_cons, List.cons_append, List.zip_cons_cons, ih, List.map_cons]
    exact hpairs pkgs
  unfold getDepends
  rw [hmake pkgs hnodup hne hknown]
  dsimp only
  rw [hlines, if_neg (by simp), hzip, List.foldl_map]
  refine ⟨_, rfl, fun p hp => ?_⟩
  rw [get?_foldl_set, if_pos hp, hread p hp]

/-! ### The whole graph -/

/-- `get_all_depends` with an empty list `allpkgs` ends, asks for each package that is
reached from the roots once, and returns one pair for each dependency of each of them. -/
theorem getAllDepends_collects (d : Text → List Text)
    (ask : List Text → Option (Dict Text (List Text))) (set : SetOrder) (roots : List Text)
    (hask : Supplies ask (ReachedFrom d roots) d) (hfinite : {p | ReachedFrom d roots p}.Finite) (fuel : ℕ)
    (hfuel : hfinite.toFinset.card < fuel) :
    ∃ c, getAllDepends ask set fuel roots [] = some c ∧ c.asked.Nodup ∧
      (∀ p, p ∈ c.asked ↔ ReachedFrom d roots p) ∧
      (∀ p q, ReachedFrom d roots p → c.dependencies.count (p, q) = (d p).count q) ∧
      ∀ e ∈ c.dependencies, ReachedFrom d roots e.1 := by
  have hU : ∀ p ∈ hfinite.toFinset, ∀ q ∈ d p, q ∈ hfinite.toFinset := by
    intro p hp q hq
    obtain ⟨r, hr, hrp⟩ := hfinite.mem_toFinset.mp hp
    exact hfinite.mem_toFinset.mpr ⟨r, hr, hrp.tail hq⟩
  have hroots : ∀ p ∈ roots, p ∈ hfinite.toFinset :=
    fun p hp => hfinite.mem_toFinset.mpr ⟨p, hp, .refl⟩
  have hleft : (hfinite.toFinset.filter (· ∉ [])).card < fuel :=
    (Finset.card_filter_le _ _).trans_lt hfuel
  have hknown : Supplies ask (· ∈ hfinite.toFinset) d := fun pkgs hnodup hne hpkgs =>
    hask pkgs hnodup hne fun p hp => hfinite.mem_toFinset.mp (hpkgs p hp)
  obtain ⟨c, hc, hcollects⟩ := getAllDepends_spec set hknown hU hroots hleft
  have hall : c.allpkgs = c.asked := hcollects.allpkgs
  have hasked : ∀ p, p ∈ c.asked ↔ ReachedFrom d roots p := by
    intro p
    refine ⟨hcollects.reached p, ?_⟩
    rintro ⟨r, hr, hrp⟩
    induction hrp with
    | refl => exact hall ▸ hcollects.roots r hr
    | tail _ hpq ih => exact hall ▸ hcollects.closed _ ih _ hpq
  refine ⟨c, hc, hcollects.nodup, hasked, ?_, ?_⟩
  · intro p q hp
    rw [hcollects.dependencies, count_pairs hcollects.nodup, if_pos ((hasked p).mpr hp)]
  · intro e he
    rw [hcollects.dependencies, pairs, List.mem_flatMap] at he
    obtain ⟨p, hp, he⟩ := he
    obtain ⟨q, -, rfl⟩ := List.mem_map.mp he
    exact (hasked p).mp hp

/-- The package `a` depends on `b`, which depends on `a`, on itself and on `b` once more. -/
def loopDeps (p : Text) : List Text :=
  if p = "a".toList then ["b".toList, "a".toList, "b".toList]
  else if p = "b".toList then ["a".toList] else []

/-- `make` for these packages; there are no rules for others. -/
def loopMake (targets : List Text) : Option Text :=
  let pkgs := targets.map fun t => t.take (t.length - 13)
  if pkgs ≠ [] ∧ ∀ p ∈ pkgs, p ∈ ["a".toList, "b".toList] then
    some (unlines (pkgs.map fun p => [' '].intercalate (loopDeps p)))
  else none

def dedupOrder : SetOrder := ⟨List.dedup, fun _ => .refl _⟩

theorem mem_loopDeps {p q : Text} (hq : q ∈ loopDeps p) :
    p ∈ ["a".toList, "b".toList] ∧ q ∈ ["a".toList, "b".toList] := by
  have hlists : (∀ q ∈ ["b".toList, "a".toList, "b".toList], q ∈ ["a".toList, "b".toList]) ∧
      ∀ q ∈ ["a".toList], q ∈ ["a".toList, "b".toList] := by decide
  unfold loopDeps at hq
  split at hq
  next h => exact ⟨h ▸ .head _, hlists.1 q hq⟩
  next =>
    split at hq
    next h => exact ⟨h ▸ .tail _ (.head _), hlists.2 q hq⟩
    next => exact absurd hq List.not_mem_nil

theorem mem_of_reached {p : Text} (h : ReachedFrom loopDeps ["a".toList] p) :
    p ∈ ["a".toList, "b".toList] := by
  obtain ⟨r, hr, hrp⟩ := h
  cases hrp with
  | refl => exact List.mem_singleton.mp hr ▸ .head _
  | tail _ hq => exact (mem_loopDeps hq).2

theorem prints_loopMake :
    Prints loopMake "show-depends".toList (ReachedFrom loopDeps ["a".toList]) loopDeps := by
  intro pkgs _ hne hknown
  have htake : (pkgs.map fun p => p ++ '-' :: "show-depends".toList).map
      (fun t => t.take (t.length - 13)) = pkgs := by
    rw [List.map_map]
    refine (List.map_congr_left fun p _ => ?_).trans (List.map_id _)
    have hlength : (p ++ '-' :: "show-depends".toList).length - 13 = p.length := by simp
    rw [Function.comp, hlength, List.take_left, id]
  rw [loopMake, htake]
  exact if_pos ⟨hne, fun p hp => mem_of_reached (hknown p hp)⟩

theorem getAllDepends_loop :
    ∃ c, getAllDepends (getDepends loopMake "show-depends".toList) dedupOrder 3 ["a".toList] [] = some c ∧
      c.asked.Nodup ∧ c.dependencies.count ("a".toList, "b".toList) = 2 := by
  have hnames : ∀ p, ReachedFrom loopDeps ["a".toList] p → ∀ q ∈ loopDeps p, q ≠ [] ∧ ' ' ∉ q ∧ '\n' ∉ q := by
    intro p _ q hq
    have hall : ∀ q ∈ ["a".toList, "b".toList], q ≠ [] ∧ ' ' ∉ q ∧ '\n' ∉ q := by decide
    exact hall q (mem_loopDeps hq).2
  have hsubset : {p | ReachedFrom loopDeps ["a".toList] p} ⊆ ["a".toList, "b".toList].toFinset := by
    intro p hp
    rw [List.coe_toFinset]
    exact mem_of_reached hp
  have hfinite := (List.finite_toSet _).subset hsubset
  have hcard : hfinite.toFinset.card < 3 := by
    have hle := Finset.card_le_card (s := hfinite.toFinset) (t := ["a".toList, "b".toList].toFinset)
      fun p hp => Finset.mem_coe.mp (hsubset (hfinite.mem_toFinset.mp hp))
    exact Nat.lt_succ_of_le (hle.trans (List.toFinset_card_le _))
  obtain ⟨c, hc, hnodup, -, hcount, -⟩ := getAllDepends_collects loopDeps _ dedupOrder ["a".toList]
    (supplies_getDepends prints_loopMake hnames) hfinite 3 hcard
  exact ⟨c, hc, hnodup, hcount _ _ ⟨_, .head _, .refl⟩⟩

end CargosBuildroot.Depends
