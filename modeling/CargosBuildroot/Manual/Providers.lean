import CargosBuildroot.Manual.Parents

/-! The providers of a virtual package in the manual. A symbol without a prompt stands for its own
providers, and each provider with a prompt is listed under its parent package, so that the list
ends only if the searches for all parents do. -/

namespace CargosBuildroot.Manual

open Shell

/-- `_symbol_is_legacy` -/
def symbolIsLegacy (symbol : Symbol) : Bool := symbol.selects.contains "BR2_LEGACY".toList

/-- The label of a provider, behind that of its parent package if it has one. -/
def providerLabel (l : Text) : Option Symbol → Text
  | none => l
  | some parent => parent.prompts.headD [] ++ " (w/ ".toList ++ l ++ [')']

/-- A loop over symbols that adds to the list; `none` if one of its rounds does not end. -/
def extendAll (round : Symbol → Option (List Text)) : List Symbol → Option (List Text)
  | [] => some []
  | sym :: syms =>
    match round sym with
    | none => none
    | some ls => (extendAll round syms).map (ls ++ ·)

/-- What a symbol adds to the providers of another one, with `below` for the recursive call. -/
def Buildroot.providersRound (b : Buildroot) (n : ℕ) (below : Symbol → Option (List Text))
    (symbol sym : Symbol) : Option (List Text) :=
  if symbolIsLegacy sym || !sym.selects.contains symbol.name then some []
  else
    match sym.prompts with
    | [] => below sym
    | l :: _ => (b.getParentPackage n sym).map fun parent => [providerLabel l parent]

/-- `_get_providers`, at most `n` calls deep, with searches of less than `n` tests. -/
def Buildroot.getProviders (b : Buildroot) : ℕ → Symbol → Option (List Text)
  | 0, _ => none
  | n + 1, symbol =>
    extendAll (b.providersRound n (b.getProviders n) symbol) b.config.kconfigSyms

/-! ### Loops -/

theorem isSome_extendAll {round : Symbol → Option (List Text)} {syms : List Symbol} :
    (extendAll round syms).isSome ↔ ∀ sym ∈ syms, (round sym).isSome := by
  induction syms with
  | nil => simp [extendAll]
  | cons sym syms ih =>
    rw [List.forall_mem_cons, ← ih, extendAll]
    cases round sym with
    | none => simp
    | some ls => simp

theorem exists_bound {P : Symbol → ℕ → Prop} {syms : List Symbol}
    (h : ∀ sym ∈ syms, ∃ n, ∀ k, n ≤ k → P sym k) : ∃ n, ∀ k, n ≤ k → ∀ sym ∈ syms, P sym k := by
  induction syms with
  | nil => exact ⟨0, fun _ _ _ hsym => absurd hsym List.not_mem_nil⟩
  | cons sym syms ih =>
    rw [List.forall_mem_cons] at h
    obtain ⟨n, hn⟩ := h.1
    obtain ⟨m, hm⟩ := ih h.2
    refine ⟨max n m, fun k hk => List.forall_mem_cons.mpr ⟨hn k ?_, hm k ?_⟩⟩ <;> omega

/-! ### The end of the list -/

namespace Buildroot

variable (b : Buildroot) {symbol sym mid : Symbol}

/-- The second symbol is one that selects the first. -/
structure Selected (symbol sym : Symbol) : Prop where
  mem : sym ∈ b.config.kconfigSyms
  legacy : symbolIsLegacy sym = false
  selects : symbol.name ∈ sym.selects

/-- The symbols with a prompt that select a symbol, or one without a prompt that does. -/
inductive Provider : Symbol → Symbol → Prop
  | prompted {symbol sym : Symbol} (selected : b.Selected symbol sym) (prompt : sym.prompts ≠ []) :
      Provider symbol sym
  | through {symbol mid sym : Symbol} (selected : b.Selected symbol mid) (prompt : mid.prompts = [])
      (provider : Provider mid sym) : Provider symbol sym

/-- No symbol without a prompt selects itself through others of this kind. -/
def Acyclic : Prop :=
  ∃ rank : Symbol → ℕ, ∀ symbol mid, b.Selected symbol mid → mid.prompts = [] → rank mid < rank symbol

variable {b}

theorem selected_iff_not_skipped : b.Selected symbol sym ↔ sym ∈ b.config.kconfigSyms ∧
    ¬ (symbolIsLegacy sym || !sym.selects.contains symbol.name) = true := by
  rw [Bool.or_eq_true, not_or, Bool.not_eq_true, Bool.not_eq_true', Bool.not_eq_false,
    List.contains_iff_mem]
  exact ⟨fun h => ⟨h.mem, h.legacy, h.selects⟩, fun h => ⟨h.1, h.2.1, h.2.2⟩⟩

theorem providersRound_skipped {n : ℕ} {below : Symbol → Option (List Text)}
    (hmem : sym ∈ b.config.kconfigSyms) (h : ¬ b.Selected symbol sym) :
    b.providersRound n below symbol sym = some [] := by
  rw [selected_iff_not_skipped, not_and, not_not] at h
  exact if_pos (h hmem)

theorem providersRound_through {n : ℕ} {below : Symbol → Option (List Text)}
    (h : b.Selected symbol sym) (hprompts : sym.prompts = []) :
    b.providersRound n below symbol sym = below sym := by
  rw [providersRound, if_neg (selected_iff_not_skipped.mp h).2, hprompts]

theorem isSome_providersRound_prompted {n : ℕ} {below : Symbol → Option (List Text)}
    (h : b.Selected symbol sym) (hprompts : sym.prompts ≠ []) :
    (b.providersRound n below symbol sym).isSome = (b.getParentPackage n sym).isSome := by
  obtain ⟨l, ls, hprompts⟩ := List.exists_cons_of_ne_nil hprompts
  rw [providersRound, if_neg (selected_iff_not_skipped.mp h).2, hprompts]
  exact Option.isSome_map

theorem firstComponent_of_getParentPackage {n : ℕ} (h : (b.getParentPackage n sym).isSome) :
    firstComponent sym.name = root := by
  by_contra hname
  rw [getParentPackage, parentLoop_never hname] at h
  split_ifs at h with hreal
  · exact hname (firstComponent_of_isRealPackage hreal)
  · cases h

/-- A list that ends has searched for the parents of all providers. -/
theorem Provider.firstComponent (hprovider : b.Provider symbol sym) {n : ℕ}
    (h : (b.getProviders n symbol).isSome) : firstComponent sym.name = root := by
  induction hprovider generalizing n with
  | @prompted symbol sym selected prompt =>
    cases n with
    | zero => cases h
    | succ n =>
      rw [getProviders, isSome_extendAll] at h
      have hround := h sym selected.mem
      rw [isSome_providersRound_prompted selected prompt] at hround
      exact firstComponent_of_getParentPackage hround
  | @through symbol mid sym selected prompt _ ih =>
    cases n with
    | zero => cases h
    | succ n =>
      rw [getProviders, isSome_extendAll] at h
      have hround := h mid selected.mem
      rw [providersRound_through selected prompt] at hround
      exact ih hround

/-- Induction on the rank: the calls for the symbols without a prompt end. -/
theorem exists_getProviders (hacyclic : b.Acyclic) (symbol : Symbol)
    (h : ∀ sym, b.Provider symbol sym → firstComponent sym.name = root) :
    ∃ n, ∀ k, n ≤ k → (b.getProviders k symbol).isSome := by
  obtain ⟨rank, hrank⟩ := hacyclic
  induction hn : rank symbol using Nat.strong_induction_on generalizing symbol with
  | _ n ih =>
    subst hn
    have hrounds : ∀ sym ∈ b.config.kconfigSyms, ∃ n, ∀ k, n ≤ k →
        (b.providersRound k (b.getProviders k) symbol sym).isSome := by
      intro sym hmem
      by_cases hselected : b.Selected symbol sym
      · by_cases hprompts : sym.prompts = []
        · simp only [providersRound_through hselected hprompts]
          exact ih (rank sym) (hrank symbol sym hselected hprompts) sym
            (fun s hs => h s (.through hselected hprompts hs)) rfl
        · simp only [isSome_providersRound_prompted hselected hprompts]
          obtain ⟨parent, -, m, hloop⟩ :=
            exists_parent (b := b) (h sym (.prompted hselected hprompts))
          refine ⟨m, fun k hk => ?_⟩
          rw [getParentPackage, hloop k hk]
          split_ifs <;> rfl
      · exact ⟨0, fun k _ => by rw [providersRound_skipped hmem hselected]; rfl⟩
    obtain ⟨m, hm⟩ := exists_bound hrounds
    refine ⟨m + 1, fun k hk => ?_⟩
    obtain ⟨k, rfl⟩ := Nat.exists_eq_add_of_le' (show 1 ≤ k by omega)
    rw [getProviders, isSome_extendAll]
    exact hm k (by omega)

/-- The list of providers ends exactly if the names of all providers begin with `BR2`. -/
theorem getProviders_ends_iff (hacyclic : b.Acyclic) (symbol : Symbol) :
    (∃ n, ∀ k, n ≤ k → (b.getProviders k symbol).isSome) ↔
      ∀ sym, b.Provider symbol sym → firstComponent sym.name = root :=
  ⟨fun ⟨n, hn⟩ _ hprovider => hprovider.firstComponent (hn n le_rfl), exists_getProviders hacyclic symbol⟩

end Buildroot

/-- The option of an external tree is a provider of the package that it selects. -/
theorem not_getProviders_ends_external : ¬ ∃ n, ∀ k, n ≤ k → (external.getProviders k libgl).isSome := by
  have hacyclic : external.Acyclic := by
    refine ⟨fun _ => 0, fun symbol mid hselected hprompts => ?_⟩
    have hmem : mid = libgl ∨ mid = fooGl := by simpa [external] using hselected.mem
    rcases hmem with rfl | rfl
    · cases hselected.selects
    · cases hprompts
  rw [Buildroot.getProviders_ends_iff hacyclic libgl]
  intro h
  have hprovider : external.Provider libgl fooGl := .prompted ⟨by decide, by decide, by decide⟩ (by decide)
  exact absurd (h fooGl hprovider) (by decide)

end CargosBuildroot.Manual
