import Mathlib.Logic.Relation
import CargosBuildroot.Scancpan.Fetch

/-! What `scancpan` knows after the search. A flag that reaches a distribution after its
first visit is not handed on, and `need_dlopen` of a dependency is copied when its own
`fetch` may still be running. Where neither does harm, the flags are closed under
dependencies. -/

namespace CargosBuildroot.Scancpan

open Shell Relation

variable {c : Cpan}

/-- The distribution, or one that it depends on at run time, has native sources. -/
def NativeReachable (c : Cpan) (name : Name) : Prop :=
  ∃ m, ReflTransGen (fun a b => b ∈ runtimeNames c a) name m ∧ isXs (c.manifest m) = true

/-- The flags are closed under dependencies. -/
structure NeedsClosed (c : Cpan) (s : State) : Prop where
  target : ∀ n, s.needTarget n = true → ∀ d ∈ runtimeNames c n, s.needTarget d = true
  host : ∀ n, s.needHost n = true → ∀ d, d ∈ buildNames c n ∨ d ∈ runtimeNames c n →
    s.needHost d = true
  dlopen : ∀ n ∈ s.dist, s.needDlopen n = true ↔ NativeReachable c n

/-- The step misses nothing: a flag that is new to a distribution fetched before is one
that its dependencies have, and a flag copied from a distribution that is still being
fetched is set already, or need not be. -/
def Step.Harmless (c : Cpan) : Step → Prop
  | .call s name target host => name ∈ s.dist →
      (target = true → s.needTarget name = false →
        ∀ d ∈ runtimeNames c name, s.needTarget d = true) ∧
      (host = true → s.needHost name = false →
        ∀ d, d ∈ buildNames c name ∨ d ∈ runtimeNames c name → s.needHost d = true)
  | .merge s active name distname => distname ∈ active →
      s.needDlopen distname = true ∨ s.needDlopen name = true ∨ distname = name ∨
        ¬ NativeReachable c distname

/-! ### What a part of a run keeps -/

/-- What is known stays known. -/
structure Grows (s s' : State) : Prop where
  dist : ∀ n ∈ s.dist, n ∈ s'.dist
  target : ∀ n, s.needTarget n = true → s'.needTarget n = true
  host : ∀ n, s.needHost n = true → s'.needHost n = true
  dlopen : ∀ n ∈ s.dist, s.needDlopen n = true → s'.needDlopen n = true

/-- The flags of a distribution are those of its dependencies, but for the flags that its
own `fetch` hands on. -/
structure Pending (c : Cpan) (target host : Bool) (s : State) (n : Name) : Prop where
  target : s.needTarget n = true →
    target = true ∨ ∀ d ∈ runtimeNames c n, s.needTarget d = true
  host : s.needHost n = true →
    host = true ∨ ∀ d, d ∈ buildNames c n ∨ d ∈ runtimeNames c n → s.needHost d = true

/-- Only distributions that are fetched have flags. -/
def Flagged (s : State) : Prop :=
  ∀ n, s.needTarget n = true ∨ s.needHost n = true → n ∈ s.dist

def Sound (c : Cpan) (s : State) : Prop := ∀ n, s.needDlopen n = true → NativeReachable c n

/-- The distributions that are completely fetched have their flag. -/
def Complete (c : Cpan) (active : List Name) (s : State) : Prop :=
  ∀ n ∈ s.dist, n ∉ active → NativeReachable c n → s.needDlopen n = true

/-- What a part of a run between two states keeps. -/
structure Kept (c : Cpan) (active : List Name) (s s' : State) : Prop where
  grows : Grows s s'
  flagged : Flagged s → Flagged s'
  pending : ∀ target host, ∀ n ∈ s.dist, Pending c target host s n → Pending c target host s' n
  closed : ∀ n ∈ s'.dist, n ∉ s.dist → Pending c false false s' n
  sound : Sound c s → Sound c s'
  complete : Complete c active s → Complete c active s'

theorem Grows.trans {s s' s'' : State} (h : Grows s s') (h' : Grows s' s'') : Grows s s'' where
  dist n hn := h'.dist n (h.dist n hn)
  target n hn := h'.target n (h.target n hn)
  host n hn := h'.host n (h.host n hn)
  dlopen n hn hd := h'.dlopen n (h.dist n hn) (h.dlopen n hn hd)

theorem Kept.refl (active : List Name) (s : State) : Kept c active s s where
  grows := ⟨fun _ h => h, fun _ h => h, fun _ h => h, fun _ _ h => h⟩
  flagged h := h
  pending _ _ _ _ h := h
  closed _ h h' := absurd h h'
  sound h := h
  complete h := h

theorem Kept.trans {active : List Name} {s s' s'' : State} (h : Kept c active s s')
    (h' : Kept c active s' s'') : Kept c active s s'' where
  grows := h.grows.trans h'.grows
  flagged hs := h'.flagged (h.flagged hs)
  pending target host n hn hp := h'.pending target host n (h.grows.dist n hn) (h.pending _ _ n hn hp)
  closed n hn hnot := by
    by_cases hmem : n ∈ s'.dist
    · exact h'.pending _ _ n hmem (h.closed n hmem hnot)
    · exact h'.closed n hn hmem
  sound hs := h'.sound (h.sound hs)
  complete hs := h'.complete (h.complete hs)

/-- A loop keeps what its body keeps. -/
theorem each_kept {active : List Name} {P : State → Prop} {Q : Name → State → Prop}
    {body : Name → State → Option (State × List Step)} {names : List Name} {s s' : State}
    {steps : List Step} (hP : ∀ s s', Kept c active s s' → P s → P s')
    (hQ : ∀ d s s', Kept c active s s' → Q d s → Q d s')
    (hbody : ∀ d ∈ names, ∀ s s' steps, P s → body d s = some (s', steps) →
      (∀ step ∈ steps, step.Harmless c) → Kept c active s s' ∧ Q d s')
    (hs : P s) (h : each body names s = some (s', steps))
    (hharmless : ∀ step ∈ steps, step.Harmless c) :
    Kept c active s s' ∧ ∀ d ∈ names, Q d s' := by
  induction names generalizing s steps with
  | nil =>
    cases h
    exact ⟨Kept.refl active _, fun d hd => absurd hd List.not_mem_nil⟩
  | cons name names ih =>
    rw [each] at h
    split at h
    · cases h
    next s₁ steps₁ h₁ =>
      obtain ⟨⟨s₂, steps₂⟩, h₂, heq⟩ := Option.map_eq_some_iff.mp h
      cases heq
      have hsteps := List.forall_mem_append.mp hharmless
      obtain ⟨hkept, hname⟩ := hbody name (.head _) s s₁ steps₁ hs h₁ hsteps.1
      obtain ⟨hkept', hnames⟩ :=
        ih (fun d hd => hbody d (.tail _ hd)) (hP _ _ hkept hs) h₂ hsteps.2
      refine ⟨hkept.trans hkept', fun d hd => ?_⟩
      rcases List.mem_cons.mp hd with rfl | hd
      · exact hQ _ _ _ hkept' hname
      · exact hnames d hd

/-! ### The steps -/

theorem grows_need (s : State) (name : Name) (target host : Bool) : Grows s (s.need name target host) where
  dist _ h := h
  target _ h := setIf_eq_true.mpr (.inl h)
  host _ h := setIf_eq_true.mpr (.inl h)
  dlopen _ _ h := h

/-- Flags of other distributions do not make a distribution wrong. -/
theorem Pending.mono {target host : Bool} {s s' : State} {n : Name} (h : Pending c target host s n)
    (hg : Grows s s') (ht : s'.needTarget n = true → s.needTarget n = true)
    (hh : s'.needHost n = true → s.needHost n = true) : Pending c target host s' n where
  target hn := (h.target (ht hn)).imp_right fun hd d hmem => hg.target d (hd d hmem)
  host hn := (h.host (hh hn)).imp_right fun hd d hmem => hg.host d (hd d hmem)

/-- A call for a distribution that was fetched before. -/
theorem kept_need {s : State} {name : Name} {target host : Bool} (active : List Name)
    (hmem : name ∈ s.dist) (h : (Step.call s name target host).Harmless c) :
    Kept c active s (s.need name target host) where
  grows := grows_need s name target host
  flagged hs n hn := by
    simp only [State.need, setIf_eq_true] at hn ⊢
    rcases hn with (hn | ⟨-, rfl⟩) | (hn | ⟨-, rfl⟩)
    · exact hs n (.inl hn)
    · exact hmem
    · exact hs n (.inr hn)
    · exact hmem
  pending target' host' n hn hp := by
    have hg := grows_need s name target host
    constructor
    · intro hflag
      rcases setIf_eq_true.mp hflag with hold | ⟨ht, rfl⟩
      · exact (hp.target hold).imp_right fun hd d hd' => hg.target d (hd d hd')
      · cases hold : s.needTarget n with
        | true => exact (hp.target hold).imp_right fun hd d hd' => hg.target d (hd d hd')
        | false => exact .inr fun d hd => hg.target d ((h hmem).1 ht hold d hd)
    · intro hflag
      rcases setIf_eq_true.mp hflag with hold | ⟨ht, rfl⟩
      · exact (hp.host hold).imp_right fun hd d hd' => hg.host d (hd d hd')
      · cases hold : s.needHost n with
        | true => exact (hp.host hold).imp_right fun hd d hd' => hg.host d (hd d hd')
        | false => exact .inr fun d hd => hg.host d ((h hmem).2 ht hold d hd)
  closed n hn hnot := absurd hn hnot
  sound hs := hs
  complete hs := hs

/-- The flag of a dependency is copied. -/
theorem kept_merge (s : State) {active : List Name} {name distname : Name} (hactive : name ∈ active)
    (hdep : distname ∈ runtimeNames c name) : Kept c active s (s.merge name distname) where
  grows := by
    refine ⟨fun _ h => h, fun _ h => h, fun _ h => h, fun n _ h => ?_⟩
    rw [needDlopen_merge]
    split
    next hn => rw [← hn, h, Bool.true_or]
    next => exact h
  flagged hs := hs
  pending _ _ _ _ hp := ⟨hp.target, hp.host⟩
  closed n hn hnot := absurd hn hnot
  sound hs n hn := by
    rw [needDlopen_merge] at hn
    split at hn
    next heq =>
      rcases Bool.or_eq_true_iff.mp hn with hn | hn
      · exact heq ▸ hs name hn
      · obtain ⟨m, hpath, hm⟩ := hs distname hn
        exact ⟨m, hpath.head (heq ▸ hdep), hm⟩
    next => exact hs n hn
  complete hs n hn hnot hreach := by
    have hne : n ≠ name := fun h => hnot (h ▸ hactive)
    rw [needDlopen_merge, if_neg hne]
    exact hs n hn hnot hreach

/-- Native sources are in the distribution itself or behind another dependency. -/
theorem nativeReachable_cases {n : Name} (h : NativeReachable c n) :
    isXs (c.manifest n) = true ∨ ∃ d ∈ runtimeNames c n, d ≠ n ∧ NativeReachable c d := by
  obtain ⟨m, hpath, hm⟩ := h
  -- a path that comes back to `n` is cut there
  have hcut : ∀ a, ReflTransGen (fun a b => b ∈ runtimeNames c a) a m → a = n →
      isXs (c.manifest n) = true ∨ ∃ d ∈ runtimeNames c n, d ≠ n ∧ NativeReachable c d := by
    intro a ha
    induction ha using ReflTransGen.head_induction_on with
    | refl => exact fun heq => .inl (heq ▸ hm)
    | @head b d hstep hrest ih =>
      rintro rfl
      by_cases hd : d = b
      · exact ih hd
      · exact .inr ⟨d, hstep, hd, m, hrest, hm⟩
  exact hcut n hpath rfl

/-- What a call of `fetch` has done for its distribution. -/
structure Fetched (name : Name) (target host : Bool) (s : State) : Prop where
  mem : name ∈ s.dist
  target : target = true → s.needTarget name = true
  host : host = true → s.needHost name = true

theorem Fetched.grows {name : Name} {target host : Bool} {s s' : State}
    (h : Fetched name target host s) (hg : Grows s s') : Fetched name target host s' :=
  ⟨hg.dist _ h.mem, fun ht => hg.target _ (h.target ht), fun hh => hg.host _ (h.host hh)⟩

theorem fetched_need {s : State} {name : Name} (target host : Bool) (h : name ∈ s.dist) :
    Fetched name target host (s.need name target host) :=
  ⟨h, fun ht => setIf_eq_true.mpr (.inr ⟨ht, rfl⟩), fun hh => setIf_eq_true.mpr (.inr ⟨hh, rfl⟩)⟩

/-- The flags of a dependency, after its `fetch` and the copy. -/
structure Handed (c : Cpan) (name : Name) (target host : Bool) (d : Name) (s : State) : Prop where
  mem : name ∈ s.dist
  fetched : Fetched d target host s
  dlopen : d ≠ name → NativeReachable c d → s.needDlopen name = true

/-- The state in which the loops of a new distribution start. -/
theorem grows_add {s : State} {name : Name} (hmem : name ∉ s.dist) (target host xs : Bool) :
    Grows s ((s.need name target host).add name xs) where
  dist _ h := .tail _ h
  target _ h := setIf_eq_true.mpr (.inl h)
  host _ h := setIf_eq_true.mpr (.inl h)
  dlopen n hn h := by
    have hne : n ≠ name := by
      rintro rfl
      exact hmem hn
    rw [needDlopen_add, if_neg hne]
    exact h

/-! ### The search -/

/-- A call of `fetch` keeps what `Kept` says, and leaves its distribution fetched. -/
def FetchKept (k : KeyOrder c) (n : ℕ) : Prop :=
  ∀ active name target host s s' steps, fetch k n active name target host s = some (s', steps) →
    (∀ step ∈ steps, step.Harmless c) → Flagged s → Complete c active s →
    Kept c active s s' ∧ Fetched name target host s'

/-- The loops whose body is a call of `fetch`. -/
theorem callLoop_kept {k : KeyOrder c} {n : ℕ} (hfetch : FetchKept k n) {active : List Name}
    {target host : Bool} {names : List Name} {s s' : State} {steps : List Step} (hs : Flagged s)
    (hcomplete : Complete c active s)
    (h : each (fun distname => fetch k n active distname target host) names s = some (s', steps))
    (hharmless : ∀ step ∈ steps, step.Harmless c) :
    Kept c active s s' ∧ ∀ d ∈ names, Fetched d target host s' :=
  each_kept (P := fun s => Flagged s ∧ Complete c active s)
    (fun _ _ hk hs => ⟨hk.flagged hs.1, hk.complete hs.2⟩) (fun _ _ _ hk hf => hf.grows hk.grows)
    (fun _ _ _ _ _ hs hd hok => hfetch _ _ _ _ _ _ _ hd hok hs.1 hs.2) ⟨hs, hcomplete⟩ h hharmless

theorem runtimeLoop_kept {k : KeyOrder c} {n : ℕ} (hfetch : FetchKept k n) {active : List Name}
    {name : Name} {target host : Bool} {names : List Name} (hnames : ∀ d ∈ names, d ∈ runtimeNames c name)
    {s s' : State} {steps : List Step} (hs : Flagged s) (hmem : name ∈ s.dist)
    (hcomplete : Complete c (name :: active) s)
    (h : each (fun distname s => (fetch k n (name :: active) distname target host s).map fun r =>
      (r.1.merge name distname, r.2 ++ [.merge r.1 (name :: active) name distname])) names s =
        some (s', steps))
    (hharmless : ∀ step ∈ steps, step.Harmless c) :
    Kept c (name :: active) s s' ∧ ∀ d ∈ names, Handed c name target host d s' := by
  apply each_kept (P := fun s => Flagged s ∧ name ∈ s.dist ∧ Complete c (name :: active) s) _ _ _
    ⟨hs, hmem, hcomplete⟩ h hharmless
  · rintro s s' hk ⟨hf, hm, hc⟩
    exact ⟨hk.flagged hf, hk.grows.dist _ hm, hk.complete hc⟩
  · intro d s s' hk hd
    exact ⟨hk.grows.dist _ hd.mem, hd.fetched.grows hk.grows, fun hne hr =>
      hk.grows.dlopen _ hd.mem (hd.dlopen hne hr)⟩
  · rintro d hd s s' steps ⟨hf, hm, hc⟩ hbody hok
    obtain ⟨⟨s₁, steps₁⟩, h₁, heq⟩ := Option.map_eq_some_iff.mp hbody
    cases heq
    rw [List.forall_mem_append, List.forall_mem_singleton] at hok
    obtain ⟨hok, hmerge⟩ := hok
    obtain ⟨hk, hfetched⟩ := hfetch _ _ _ _ _ _ _ h₁ hok hf hc
    have hk' : Kept c (name :: active) s₁ (s₁.merge name d) := kept_merge s₁ (.head _) (hnames d hd)
    refine ⟨hk.trans hk', hk'.grows.dist _ (hk.grows.dist _ hm), hfetched.grows hk'.grows, ?_⟩
    intro hne hreach
    rw [needDlopen_merge, if_pos rfl, Bool.or_eq_true]
    by_cases hactive : d ∈ name :: active
    · rcases hmerge hactive with hset | hset | heq | hnot
      · exact .inr hset
      · exact .inl hset
      · exact absurd heq hne
      · exact absurd hreach hnot
    · exact .inr (hk.complete hc d hfetched.mem hactive hreach)

theorem flagged_add {s : State} (hs : Flagged s) (name : Name) (target host xs : Bool) :
    Flagged ((s.need name target host).add name xs) := by
  intro n hn
  simp only [State.add, State.need, setIf_eq_true] at hn ⊢
  rcases hn with (hn | ⟨-, rfl⟩) | (hn | ⟨-, rfl⟩)
  · exact .tail _ (hs n (.inl hn))
  · exact .head _
  · exact .tail _ (hs n (.inr hn))
  · exact .head _

theorem complete_add {active : List Name} {s : State} {name : Name} (hs : Complete c active s)
    (target host xs : Bool) : Complete c (name :: active) ((s.need name target host).add name xs) := by
  intro n hn hnot hreach
  rw [List.mem_cons, not_or] at hnot
  rw [needDlopen_add, if_neg hnot.1]
  exact hs n ((List.mem_cons.mp hn).resolve_left hnot.1) hnot.2 hreach

/-- The flags of other distributions do not change when a distribution is new. -/
theorem pending_add {target' host' : Bool} {s : State} {name n : Name} (hmem : name ∉ s.dist)
    (hn : n ∈ s.dist) (h : Pending c target' host' s n) (target host xs : Bool) :
    Pending c target' host' ((s.need name target host).add name xs) n := by
  have hne : n ≠ name := by
    rintro rfl
    exact hmem hn
  apply h.mono (grows_add hmem target host xs)
  · intro hflag
    exact (setIf_eq_true.mp hflag).resolve_right fun h => hne h.2
  · intro hflag
    exact (setIf_eq_true.mp hflag).resolve_right fun h => hne h.2

/-- The flags of a new distribution are those of the call. -/
theorem pending_new {s : State} (hs : Flagged s) {name : Name} (hmem : name ∉ s.dist)
    (target host xs : Bool) :
    Pending c target host ((s.need name target host).add name xs) name where
  target hflag := by
    rcases setIf_eq_true.mp hflag with hold | ⟨ht, -⟩
    · exact absurd (hs name (.inl hold)) hmem
    · exact .inl ht
  host hflag := by
    rcases setIf_eq_true.mp hflag with hold | ⟨hh, -⟩
    · exact absurd (hs name (.inr hold)) hmem
    · exact .inl hh

/-- The flags that are handed on are no longer pending when the dependencies have them. -/
theorem Pending.resolve {target host : Bool} {s : State} {name : Name}
    (h : Pending c target host s name)
    (htarget : target = true → ∀ d ∈ runtimeNames c name, s.needTarget d = true)
    (hbuild : ∀ d ∈ buildNames c name, s.needHost d = true)
    (hhost : host = true → ∀ d ∈ runtimeNames c name, s.needHost d = true) :
    Pending c false false s name where
  target hflag := .inr ((h.target hflag).elim htarget id)
  host hflag := by
    refine .inr fun d hd => ?_
    rcases hd with hd | hd
    · exact hbuild d hd
    · rcases h.host hflag with hh | hall
      · exact hhost hh d hd
      · exact hall d (.inr hd)

/-- The visit of a new distribution. -/
theorem fetch_new {k : KeyOrder c} {n : ℕ} (hfetch : FetchKept k n) {active : List Name} {name : Name}
    {target host : Bool} {s s₁ s₂ : State} {built ran : List Step} (hs : Flagged s)
    (hcomplete : Complete c active s) (hmem : name ∉ s.dist)
    (hbuild : each (fun distname => fetch k n (name :: active) distname false true) (k.depsBuild name)
      ((s.need name target host).add name (isXs (c.manifest name))) = some (s₁, built))
    (hruntime : each (fun distname s =>
      (fetch k n (name :: active) distname target host s).map fun r =>
        (r.1.merge name distname, r.2 ++ [.merge r.1 (name :: active) name distname]))
      (k.depsRuntime name) s₁ = some (s₂, ran))
    (hharmless : ∀ step ∈ built ++ ran, step.Harmless c) :
    Kept c active s s₂ ∧ Fetched name target host s₂ := by
  rw [List.forall_mem_append] at hharmless
  have hgrows := grows_add hmem target host (isXs (c.manifest name))
  have hfetched : Fetched name target host
      ((s.need name target host).add name (isXs (c.manifest name))) :=
    ⟨.head _, fun ht => setIf_eq_true.mpr (.inr ⟨ht, rfl⟩), fun hh => setIf_eq_true.mpr (.inr ⟨hh, rfl⟩)⟩
  have hflagged := flagged_add hs name target host (isXs (c.manifest name))
  obtain ⟨hkb, hb⟩ := callLoop_kept hfetch hflagged
    (complete_add hcomplete target host (isXs (c.manifest name))) hbuild hharmless.1
  obtain ⟨hkr, hr⟩ := runtimeLoop_kept hfetch (fun d hd => (k.runtime_perm name).mem_iff.mp hd)
    (hkb.flagged hflagged) (hkb.grows.dist _ hfetched.mem)
    (hkb.complete (complete_add hcomplete target host _)) hruntime hharmless.2
  have hk := hkb.trans hkr
  -- the dependencies have what the call hands on
  have hdeps : Pending c false false s₂ name := by
    have hp := hk.pending _ _ name hfetched.mem (pending_new hs hmem target host _)
    refine hp.resolve (fun ht d hd => ?_) (fun d hd => ?_) (fun hh d hd => ?_)
    · exact (hr d ((k.runtime_perm name).mem_iff.mpr hd)).fetched.target ht
    · exact hkr.grows.host d ((hb d ((k.build_perm name).mem_iff.mpr hd)).host rfl)
    · exact (hr d ((k.runtime_perm name).mem_iff.mpr hd)).fetched.host hh
  refine ⟨⟨hgrows.trans hk.grows, fun _ => hk.flagged hflagged, ?_, ?_, ?_, ?_⟩,
    hfetched.grows hk.grows⟩
  · intro target' host' m hm hp
    exact hk.pending _ _ m (hgrows.dist m hm) (pending_add hmem hm hp target host _)
  · intro m hm hnot
    by_cases hname : m = name
    · exact hname ▸ hdeps
    · exact hk.closed m hm fun h => (List.mem_cons.mp h).elim hname hnot
  · intro hsound
    apply hk.sound
    intro m hflag
    rw [needDlopen_add] at hflag
    split at hflag
    next heq => exact ⟨m, .refl, heq ▸ hflag⟩
    next => exact hsound m hflag
  · intro _ m hm hnot hreach
    by_cases hname : m = name
    · subst hname
      rcases nativeReachable_cases hreach with hxs | ⟨d, hd, hne, hreach⟩
      · apply hk.grows.dlopen m hfetched.mem
        rw [needDlopen_add, if_pos rfl]
        exact hxs
      · exact (hr d ((k.runtime_perm m).mem_iff.mpr hd)).dlopen hne hreach
    · have hnot' : m ∉ name :: active := fun h => (List.mem_cons.mp h).elim hname hnot
      exact hk.complete (complete_add hcomplete target host _) m hm hnot' hreach

theorem fetch_kept (k : KeyOrder c) (n : ℕ) : FetchKept k n := by
  induction n with
  | zero => intro active name target host s s' steps h; cases h
  | succ n ih =>
    intro active name target host s s' steps h hharmless hs hcomplete
    rw [fetch] at h
    dsimp only at h
    by_cases hmem : name ∈ s.dist
    · have hmem' : name ∈ (s.need name target host).dist := hmem
      rw [if_pos hmem'] at h
      cases h
      exact ⟨kept_need active hmem (hharmless _ (.head _)), fetched_need target host hmem⟩
    · have hmem' : ¬ name ∈ (s.need name target host).dist := hmem
      rw [if_neg hmem'] at h
      split at h
      · cases h
      next s₁ built hbuild =>
        obtain ⟨⟨s₂, ran⟩, hruntime, heq⟩ := Option.map_eq_some_iff.mp h
        cases heq
        exact fetch_new ih hs hcomplete hmem hbuild hruntime
          fun step hstep => hharmless step (.tail _ hstep)

end CargosBuildroot.Scancpan
