import Mathlib.Data.Finset.Card
import CargosBuildroot.Scancpan.Needs

/-! The whole search of `scancpan`: it ends, since every call within another one adds a
distribution, and after harmless steps the flags are closed under dependencies. -/

namespace CargosBuildroot.Scancpan

open Shell Relation

variable {c : Cpan}

/-! ### The search ends -/

/-- Every distribution that the search can come to. -/
def candidates (c : Cpan) (args : List Name) : List Name :=
  args ++ "Module-Build".toList :: c.distributions

theorem distnames_subset (c : Cpan) (phase : Text → Bool) (name : Name) :
    ∀ d ∈ distnames c phase name, d ∈ c.distributions := by
  intro d hd
  obtain ⟨dep, -, rfl⟩ := List.mem_map.mp (List.mem_dedup.mp hd)
  exact c.distribution_mem _

theorem buildNames_subset (c : Cpan) (name : Name) :
    ∀ d ∈ buildNames c name, d ∈ "Module-Build".toList :: c.distributions := by
  intro d hd
  unfold buildNames at hd
  dsimp only at hd
  split at hd
  · rcases List.mem_insert_iff.mp hd with rfl | hd
    · exact .head _
    · exact .tail _ (distnames_subset c _ name d hd)
  · exact .tail _ (distnames_subset c _ name d hd)

/-- The number of distributions that are not fetched yet. -/
def unfetched (names : List Name) (dist : List Name) : ℕ := (names.toFinset \ dist.toFinset).card

theorem unfetched_mono {names dist dist' : List Name} (h : dist ⊆ dist') :
    unfetched names dist' ≤ unfetched names dist := by
  apply Finset.card_le_card
  apply Finset.sdiff_subset_sdiff (Finset.Subset.refl _)
  intro n hn
  exact List.mem_toFinset.mpr (h (List.mem_toFinset.mp hn))

theorem unfetched_cons {names dist : List Name} {name : Name} (hname : name ∈ names)
    (hnew : name ∉ dist) : unfetched names (name :: dist) < unfetched names dist := by
  apply Finset.card_lt_card
  rw [Finset.ssubset_iff_of_subset]
  · exact ⟨name, by simp [hname, hnew], by simp⟩
  · apply Finset.sdiff_subset_sdiff (Finset.Subset.refl _)
    intro n hn
    simp only [List.mem_toFinset] at hn ⊢
    exact .tail _ hn

theorem each_isSome (body : Name → State → Option (State × List Step)) (names : List Name)
    (P : State → Prop) (hbody : ∀ d ∈ names, ∀ s, P s → ∃ s' steps, body d s = some (s', steps) ∧ P s')
    {s : State} (hs : P s) : ∃ s' steps, each body names s = some (s', steps) ∧ P s' := by
  induction names generalizing s with
  | nil => exact ⟨s, [], rfl, hs⟩
  | cons name names ih =>
    obtain ⟨s₁, steps₁, h₁, hs₁⟩ := hbody name (.head _) s hs
    obtain ⟨s₂, steps₂, h₂, hs₂⟩ := ih (fun d hd => hbody d (.tail _ hd)) hs₁
    refine ⟨s₂, steps₁ ++ steps₂, ?_, hs₂⟩
    rw [each, h₁]
    dsimp only
    rw [h₂]
    rfl

/-- With more fuel than distributions that are left, `fetch` returns. -/
theorem fetch_isSome (k : KeyOrder c) {args : List Name} {n : ℕ} :
    ∀ active name target host s, name ∈ candidates c args → unfetched (candidates c args) s.dist < n →
      ∃ s' steps, fetch k n active name target host s = some (s', steps) ∧ s.dist ⊆ s'.dist := by
  induction n with
  | zero => intro _ _ _ _ _ _ h; exact absurd h (Nat.not_lt_zero _)
  | succ n ih =>
    intro active name target host s hname hfuel
    rw [fetch]
    dsimp only
    by_cases hmem : name ∈ s.dist
    · have hmem' : name ∈ (s.need name target host).dist := hmem
      exact ⟨_, _, if_pos hmem', List.Subset.refl _⟩
    · have hmem' : ¬ name ∈ (s.need name target host).dist := hmem
      have hleft : unfetched (candidates c args) (name :: s.dist) < n := by
        have h := unfetched_cons hname hmem
        omega
      have hcall : ∀ d ∈ candidates c args, ∀ target host s', name :: s.dist ⊆ s'.dist →
          ∃ s'' steps, fetch k n (name :: active) d target host s' = some (s'', steps) ∧
            name :: s.dist ⊆ s''.dist := by
        intro d hd target host s' hs'
        obtain ⟨s'', steps, h, hsub⟩ := ih (name :: active) d target host s' hd
          (lt_of_le_of_lt (unfetched_mono hs') hleft)
        exact ⟨s'', steps, h, List.Subset.trans hs' hsub⟩
      have hdep : ∀ d ∈ "Module-Build".toList :: c.distributions, d ∈ candidates c args :=
        fun d hd => List.mem_append_right _ hd
      obtain ⟨s₁, built, h₁, hs₁⟩ := each_isSome _ (k.depsBuild name)
        (fun s' => name :: s.dist ⊆ s'.dist)
        (fun d hd s' hs' => hcall d (hdep d (buildNames_subset c name d ((k.build_perm name).mem_iff.mp hd)))
          false true s' hs')
        (s := (s.need name target host).add name (isXs (c.manifest name))) (List.Subset.refl _)
      obtain ⟨s₂, ran, h₂, hs₂⟩ := each_isSome
        (fun distname s => (fetch k n (name :: active) distname target host s).map fun r =>
          (r.1.merge name distname, r.2 ++ [.merge r.1 (name :: active) name distname]))
        (k.depsRuntime name) (fun s' => name :: s.dist ⊆ s'.dist)
        (fun d hd s' hs' => by
          have hmem := distnames_subset c _ name d ((k.runtime_perm name).mem_iff.mp hd)
          obtain ⟨s'', steps, h, hsub⟩ := hcall d (hdep d (.tail _ hmem)) target host s' hs'
          exact ⟨s''.merge name d, steps ++ [.merge s'' (name :: active) name d], by rw [h]; rfl, hsub⟩)
        hs₁
      refine ⟨s₂, .call s name target host :: built ++ ran, ?_,
        List.Subset.trans (List.subset_cons_self _ _) hs₂⟩
      rw [if_neg hmem', h₁]
      dsimp only
      rw [h₂]
      rfl

theorem fetchAll_isSome (k : KeyOrder c) (target host : Bool) (args : List Name) :
    ∃ s steps, fetchAll k target host args = some (s, steps) := by
  have hbound : ∀ s : State,
      unfetched (candidates c args) s.dist < args.length + c.distributions.length + 2 := by
    intro s
    have hcard : unfetched (candidates c args) s.dist ≤ (candidates c args).length :=
      (Finset.card_le_card Finset.sdiff_subset).trans (List.toFinset_card_le _)
    rw [candidates, List.length_append, List.length_cons] at hcard
    unfold candidates
    omega
  obtain ⟨s, steps, h, -⟩ := each_isSome
    (fun distname => fetch k (args.length + c.distributions.length + 2) [] distname target host)
    args (fun _ => True)
    (fun d hd s _ => by
      obtain ⟨s', steps, h, -⟩ :=
        fetch_isSome k [] d target host s (List.mem_append_left _ hd) (hbound s)
      exact ⟨s', steps, h, trivial⟩)
    (s := State.init) trivial
  exact ⟨s, steps, h⟩

/-- The search ends, and if all its steps are harmless then the flags are closed under
dependencies. -/
theorem fetchAll_closed (c : Cpan) (k : KeyOrder c) (target host : Bool) (args : List Name) :
    ∃ s steps, fetchAll k target host args = some (s, steps) ∧
      ((∀ step ∈ steps, step.Harmless c) → NeedsClosed c s) := by
  obtain ⟨s, steps, h⟩ := fetchAll_isSome k target host args
  refine ⟨s, steps, h, fun hharmless => ?_⟩
  have hflagged : Flagged State.init := fun n hn => by rcases hn with hn | hn <;> cases hn
  have hsound : Sound c State.init := fun n hn => by cases hn
  have hcomplete : Complete c [] State.init := fun n hn => absurd hn List.not_mem_nil
  obtain ⟨hk, -⟩ := callLoop_kept (fetch_kept k _) hflagged hcomplete h hharmless
  have hfetched := hk.flagged hflagged
  have hclosed : ∀ n ∈ s.dist, Pending c false false s n := fun n hn =>
    hk.closed n hn List.not_mem_nil
  refine ⟨fun n hn => ?_, fun n hn => ?_, fun n hn => ⟨hk.sound hsound n, ?_⟩⟩
  · exact ((hclosed n (hfetched n (.inl hn))).target hn).resolve_left Bool.false_ne_true
  · exact ((hclosed n (hfetched n (.inr hn))).host hn).resolve_left Bool.false_ne_true
  · exact hk.complete hcomplete n hn List.not_mem_nil

/-! ### Two graphs -/

/-- The keys in the order in which the dependencies are listed. -/
def listed (c : Cpan) : KeyOrder c where
  depsBuild := buildNames c
  depsRuntime := runtimeNames c
  build_perm _ := .refl _
  runtime_perm _ := .refl _

def requires (module phase : String) : Dependency :=
  ⟨module.toList, phase.toList, "requires".toList⟩

/-- `App` needs `Tool` for its build and `Lib` at run time; `Tool` needs `Lib` and `Base`, and `Lib`
needs `Base` too. `Ring` and `Loop` need each other, and `Ring` needs the native `Core`. -/
def sample : Cpan where
  manifest n := if n = "Core".toList then "core.xs\n".toList else "MANIFEST\n".toList
  dependency n :=
    if n = "App".toList then [requires "Tool" "build", requires "Lib" "runtime"]
    else if n = "Tool".toList then [requires "Lib" "runtime", requires "Base" "runtime"]
    else if n = "Lib".toList then [requires "Base" "runtime"]
    else if n = "Ring".toList then [requires "Loop" "runtime", requires "Core" "runtime"]
    else if n = "Loop".toList then [requires "Ring" "runtime"]
    else []
  distribution m :=
    if m ∈ ["Tool".toList, "Lib".toList, "Base".toList, "Ring".toList, "Loop".toList] then m
    else "Core".toList
  distributions :=
    ["Tool".toList, "Lib".toList, "Base".toList, "Ring".toList, "Loop".toList, "Core".toList]
  distribution_mem m := by
    split
    next h => exact List.mem_append_left ["Core".toList] h
    next => simp
  isCore _ := false
  recommend := false
  test := false

/-- The distribution is met for the first time, or has the flags already. -/
def Step.isKnown : Step → Bool
  | .call s name target host =>
    name ∉ s.dist || ((!target || s.needTarget name) && (!host || s.needHost name))
  | .merge _ active _ distname => distname ∉ active

theorem harmless_of_isKnown {step : Step} (h : step.isKnown = true) : step.Harmless c := by
  cases step with
  | call s name target host =>
    intro hmem
    rw [Step.isKnown, Bool.or_eq_true, decide_eq_true_eq] at h
    have hflags := h.resolve_left (not_not_intro hmem)
    rw [Bool.and_eq_true] at hflags
    constructor
    · rintro rfl hnot
      rw [hnot] at hflags
      cases hflags.1
    · rintro rfl hnot
      rw [hnot] at hflags
      cases hflags.2
  | merge s active name distname => exact fun hmem => absurd hmem (of_decide_eq_true h)

/-- `Base` is met twice. -/
theorem fetchAll_closed_tool :
    ∃ s steps, fetchAll (listed sample) true true ["Tool".toList] = some (s, steps) ∧
      NeedsClosed sample s := by
  obtain ⟨s, steps, h, hclosed⟩ := fetchAll_closed sample (listed sample) true true ["Tool".toList]
  refine ⟨s, steps, h, hclosed fun step hstep => ?_⟩
  have hknown : (fetchAll (listed sample) true true ["Tool".toList]).all
      (fun r => r.2.all Step.isKnown) = true := by decide
  rw [h] at hknown
  exact harmless_of_isKnown (List.all_eq_true.mp hknown step hstep)

/-- `Lib` is met as a dependency of `Tool` first, so `Base` is not needed for the target;
`Loop` is given the flag of `Ring` before `Core` is known. -/
theorem fetchAll_misses :
    (∃ s steps, fetchAll (listed sample) true false ["App".toList] = some (s, steps) ∧
      s.needTarget "Lib".toList = true ∧ s.needTarget "Base".toList = false ∧
      ¬ NeedsClosed sample s) ∧
    ∃ s steps, fetchAll (listed sample) true false ["Ring".toList] = some (s, steps) ∧
      s.needDlopen "Ring".toList = true ∧ s.needDlopen "Loop".toList = false ∧
      ¬ NeedsClosed sample s := by
  constructor
  · obtain ⟨s, steps, h⟩ := fetchAll_isSome (listed sample) true false ["App".toList]
    have hflags : (fetchAll (listed sample) true false ["App".toList]).map
        (fun r => (r.1.needTarget "Lib".toList, r.1.needTarget "Base".toList)) = some (true, false) := by
      decide
    rw [h, Option.map_some, Option.some.injEq, Prod.mk.injEq] at hflags
    refine ⟨s, steps, h, hflags.1, hflags.2, fun hclosed => ?_⟩
    have hbase := hclosed.target "Lib".toList hflags.1 "Base".toList (by decide)
    rw [hflags.2] at hbase
    cases hbase
  · obtain ⟨s, steps, h⟩ := fetchAll_isSome (listed sample) true false ["Ring".toList]
    have hflags : (fetchAll (listed sample) true false ["Ring".toList]).map
        (fun r => (r.1.needDlopen "Ring".toList, r.1.needDlopen "Loop".toList,
          decide ("Loop".toList ∈ r.1.dist))) = some (true, false, true) := by decide
    rw [h, Option.map_some, Option.some.injEq, Prod.mk.injEq, Prod.mk.injEq] at hflags
    obtain ⟨hring, hloop, hmem⟩ := hflags
    refine ⟨s, steps, h, hring, hloop, fun hclosed => ?_⟩
    have hpath : ReflTransGen (fun a b => b ∈ runtimeNames sample a) "Loop".toList "Core".toList :=
      (ReflTransGen.single (b := "Ring".toList) (by decide)).tail (by decide)
    have hnative : isXs (sample.manifest "Core".toList) = true := by decide
    have hset := (hclosed.dlopen "Loop".toList (of_decide_eq_true hmem)).mpr ⟨_, hpath, hnative⟩
    rw [hloop] at hset
    cases hset

end CargosBuildroot.Scancpan
