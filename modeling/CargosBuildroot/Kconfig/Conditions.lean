import CargosBuildroot.Kconfig.Menu

/-! The values of the conditions that `menu_finalize` gives an entry. Where no tristate symbol and no condition
is `m`, each one has the value of its own condition joined with that of the menu, and what is added for a
value of a choice changes nothing. -/

namespace CargosBuildroot.Kconfig

open Ternary

variable {σ : Type*} [DecidableEq σ] {K : Symbols σ}

/-- The values of the conditions of an entry. -/
structure Mark (σ : Type*) where
  self : ℕ
  sym : Option σ
  dep : Tristate
  prompt : Option Tristate
  props : List Tristate
  deriving DecidableEq

section

variable (V : Values K)

def Entry.mark (e : Entry σ) : Mark σ where
  self := e.self
  sym := e.sym
  dep := calcDep V e.dep
  prompt := e.prompt.map (calcDep V)
  props := e.props.map (calcDep V)

/-- The values where that is the value of the condition above. -/
def Entry.markBelow (above : Tristate) (e : Entry σ) : Mark σ :=
  let own := Junction.and.op above (calcDep V e.dep)
  { self := e.self
    sym := e.sym
    dep := own
    prompt := e.prompt.map fun dep => Junction.and.op own (calcDep V dep)
    props := e.props.map fun dep => Junction.and.op own (calcDep V dep) }

/-- The value of the condition for what is in the list of the entry. -/
def Entry.below (above : Tristate) (e : Entry σ) : Tristate :=
  let own := Junction.and.op above (calcDep V e.dep)
  let rest := e.prompt.elim own fun dep => Junction.and.op own (calcDep V dep)
  match e.sym with
  | some s => if e.isChoice then V.tri s else rest
  | none => rest

/-- What the files say about the entries: each condition is joined with those of all menus around it. -/
def Menu.shown : Tristate → Menu σ → List (Mark σ)
  | _, nil => []
  | above, entry e list next =>
    e.markBelow V above :: (list.shown (e.below V above) ++ next.shown above)

/-- None of the tristate symbols is `m`. -/
def Values.Definite : Prop := ∀ s, K.type s = .tristate → V.tri s ≠ .mod

/-- None of the conditions of an entry is `m`. -/
structure Entry.Definite (e : Entry σ) : Prop where
  dep : calcDep V e.dep ≠ .mod
  prompt : ∀ d ∈ e.prompt, calcDep V d ≠ .mod
  props : ∀ d ∈ e.props, calcDep V d ≠ .mod
  choice : ∀ s ∈ e.sym, e.isChoice = true → V.tri s ≠ .mod

/-- The conditions are joined with a value already. -/
structure Entry.Under (a : Tristate) (e : Entry σ) : Prop where
  definite : e.Definite V
  dep : Junction.and.Absorbs (calcDep V e.dep) a
  prompt : ∀ d ∈ e.prompt, Junction.and.Absorbs (calcDep V d) a
  props : ∀ d ∈ e.props, Junction.and.Absorbs (calcDep V d) a

end

variable {V : Values K}

theorem and_ne_mod {a b : Tristate} (ha : a ≠ .mod) (hb : b ≠ .mod) : Junction.and.op a b ≠ .mod := by
  cases a <;> cases b <;> first | exact absurd rfl ha | exact absurd rfl hb | decide

omit [DecidableEq σ] in
theorem calcDep_allocAnd (a b : Option (Expr σ)) :
    calcDep V (exprAllocAnd a b) = Junction.and.op (calcDep V a) (calcDep V b) := by
  cases a with
  | none => exact (Junction.unit_op .and _).symm
  | some a =>
    cases b with
    | none => exact (Junction.op_unit .and _).symm
    | some b => rfl

theorem calcDep_joinDep {basedep dep : Option (Expr σ)} (hbase : calcDep V basedep ≠ .mod)
    (hdep : calcDep V dep ≠ .mod) :
    calcDep V (joinDep K basedep dep) = Junction.and.op (calcDep V basedep) (calcDep V dep) := by
  have htransform : calcDep V (dep.map (exprTransform K)) = calcDep V dep := by
    cases dep with
    | none => rfl
    | some e => exact (exprTransform_spec K e).2.2.1 V
  have hand := calcDep_allocAnd (V := V) basedep (dep.map (exprTransform K))
  rw [htransform] at hand
  rw [joinDep]
  generalize exprAllocAnd basedep (dep.map (exprTransform K)) = e at hand ⊢
  rw [← hand]
  cases e with
  | none => rfl
  | some e =>
    refine (exprEliminateDups_spec K e).2.1 V ?_
    rw [calcDep] at hand
    rw [hand]
    exact and_ne_mod hbase hdep

/-- A tristate symbol that is not `m` is yes where it is not no. -/
theorem calcValue_transBool (hV : V.Definite) (e : Expr σ) : (exprTransBool K e).calcValue V = e.calcValue V := by
  induction e with
  | symbol s => rfl
  | not e ih => rw [exprTransBool, Expr.calcValue, ih, Expr.calcValue]
  | two j l r ihl ihr => rw [exprTransBool, Expr.calcValue, ihl, ihr, Expr.calcValue]
  | comp type s t =>
    cases type with
    | equal => rfl
    | unequal =>
      rw [exprTransBool]
      split
      next h =>
        have hmod := hV s h.1
        rw [h.2, Expr.calcValue, Expr.calcValue, V.text_eq s (.inr h.1), V.text_no]
        generalize V.tri s = a at hmod
        cases a <;> first | exact absurd rfl hmod | rfl
      next => rfl

omit [DecidableEq σ] in
/-- A tristate symbol that is not `m` is `y` where it is on. -/
theorem calcValue_equal_yes (hV : V.Definite) {s : σ} (hs : K.type s = .tristate) :
    (Expr.comp .equal s K.yes).calcValue V = V.tri s := by
  have hmod := hV s hs
  rw [Expr.calcValue, V.text_eq s (.inr hs), V.text_yes]
  generalize V.tri s = a at hmod
  cases a <;> first | exact absurd rfl hmod | rfl

theorem calcDep_visibleDep (hV : V.Definite) (sym : Option σ) {basedep dep : Option (Expr σ)}
    (hbase : calcDep V basedep ≠ .mod) (hdep : calcDep V dep ≠ .mod) :
    calcDep V (visibleDep K sym basedep dep) = Junction.and.op (calcDep V basedep) (calcDep V dep) := by
  have hbool : ∀ d : Option (Expr σ), calcDep V (d.map (exprTransBool K)) = calcDep V d := by
    intro d
    cases d with
    | none => rfl
    | some e => exact calcValue_transBool hV e
  rw [← calcDep_joinDep hbase hdep]
  unfold visibleDep
  split
  · split
    · exact hbool _
    · rfl
  · rfl

namespace Entry

section

variable {e : Entry σ} {parentdep : Option (Expr σ)} (hV : V.Definite)
  (habove : calcDep V parentdep ≠ .mod) (he : e.Definite V)
include hV habove he

theorem Definite.mark_propagate : (e.propagate K parentdep).mark V = e.markBelow V (calcDep V parentdep) := by
  have hown := calcDep_joinDep (K := K) habove he.dep
  have hbase : calcDep V (joinDep K parentdep e.dep) ≠ .mod := by
    rw [hown]
    exact and_ne_mod habove he.dep
  rw [mark, markBelow, propagate]
  simp only [Option.map_map, List.map_map, ← hown, Mark.mk.injEq, true_and]
  constructor
  · cases hp : e.prompt with
    | none => rfl
    | some d => exact congrArg some (calcDep_visibleDep hV e.sym hbase (he.prompt d hp))
  · exact List.map_congr_left fun d hd => calcDep_visibleDep hV e.sym hbase (he.props d hd)

/-- An entry that has got its conditions. -/
theorem Definite.under_propagate : (e.propagate K parentdep).Under V (calcDep V parentdep) := by
  have hown := calcDep_joinDep (K := K) habove he.dep
  have hbase : calcDep V (joinDep K parentdep e.dep) ≠ .mod := by
    rw [hown]
    exact and_ne_mod habove he.dep
  have hvisible : ∀ d, calcDep V d ≠ .mod →
      calcDep V (visibleDep K e.sym (joinDep K parentdep e.dep) d) ≠ .mod ∧
        Junction.and.Absorbs (calcDep V (visibleDep K e.sym (joinDep K parentdep e.dep) d)) (calcDep V parentdep) := by
    intro d hd
    rw [calcDep_visibleDep hV e.sym hbase hd]
    refine ⟨and_ne_mod hbase hd, ?_⟩
    rw [hown, Junction.op_assoc]
    exact Junction.absorbs_op_left
  have hprompt : ∀ d ∈ (e.propagate K parentdep).prompt, calcDep V d ≠ .mod ∧
      Junction.and.Absorbs (calcDep V d) (calcDep V parentdep) := by
    intro d hd
    obtain ⟨d', hd', rfl⟩ := Option.map_eq_some_iff.mp hd
    exact hvisible d' (he.prompt d' hd')
  have hprops : ∀ d ∈ (e.propagate K parentdep).props, calcDep V d ≠ .mod ∧
      Junction.and.Absorbs (calcDep V d) (calcDep V parentdep) := by
    intro d hd
    obtain ⟨d', hd', rfl⟩ := List.mem_map.mp hd
    exact hvisible d' (he.props d' hd')
  have hdep : Junction.and.Absorbs (calcDep V (joinDep K parentdep e.dep)) (calcDep V parentdep) := by
    rw [hown]
    exact Junction.absorbs_op_left
  exact ⟨⟨hbase, fun d hd => (hprompt d hd).1, fun d hd => (hprops d hd).1, he.choice⟩, hdep,
    fun d hd => (hprompt d hd).2, fun d hd => (hprops d hd).2⟩

theorem Definite.below_propagate :
    calcDep V (e.propagate K parentdep).parentDep = e.below V (calcDep V parentdep) := by
  have hown := calcDep_joinDep (K := K) habove he.dep
  have hbase : calcDep V (joinDep K parentdep e.dep) ≠ .mod := by
    rw [hown]
    exact and_ne_mod habove he.dep
  have hrest : calcDep V ((e.prompt.map (visibleDep K e.sym (joinDep K parentdep e.dep))).getD
        (joinDep K parentdep e.dep)) =
      e.prompt.elim (Junction.and.op (calcDep V parentdep) (calcDep V e.dep))
        (fun dep => Junction.and.op (Junction.and.op (calcDep V parentdep) (calcDep V e.dep)) (calcDep V dep)) := by
    cases hp : e.prompt with
    | none => exact hown
    | some d => exact (calcDep_visibleDep hV e.sym hbase (he.prompt d hp)).trans (by rw [hown]; rfl)
  rw [propagate, parentDep, below]
  cases hs : e.sym with
  | none =>
    rw [hs] at hrest
    exact hrest
  | some s =>
    rw [hs] at hrest
    dsimp only
    split
    · rfl
    · exact hrest

end

variable {a b : Tristate} {e : Entry σ}

omit [DecidableEq σ] in
theorem Under.mono (h : e.Under V a) (hab : Junction.and.Absorbs a b) : e.Under V b :=
  ⟨h.definite, h.dep.trans hab, fun d hd => (h.prompt d hd).trans hab, fun d hd => (h.props d hd).trans hab⟩

omit [DecidableEq σ] in
theorem Under.parent (h : e.Under V a) (p : Option ℕ) : { e with parent := p }.Under V a :=
  ⟨⟨h.definite.dep, h.definite.prompt, h.definite.props, h.definite.choice⟩, h.dep, h.prompt, h.props⟩

omit [DecidableEq σ] in
theorem Definite.under (h : e.Definite V) : e.Under V .yes :=
  ⟨h, Junction.op_unit .and _, fun _ _ => Junction.op_unit .and _, fun _ _ => Junction.op_unit .and _⟩

omit [DecidableEq σ] in
theorem parentDep_choice {s : σ} (hs : e.sym = some s) (hchoice : e.isChoice = true) :
    e.parentDep = some (.symbol s) := by
  rw [parentDep, hs]
  exact if_pos hchoice

omit [DecidableEq σ] in
/-- The condition for what is in the list. -/
theorem Under.parentDep (h : e.Under V a) : calcDep V e.parentDep ≠ .mod ∧
    ((∀ s ∈ e.sym, e.isChoice = false) → Junction.and.Absorbs (calcDep V e.parentDep) a) := by
  have hrest : calcDep V (e.prompt.getD e.dep) ≠ .mod ∧
      Junction.and.Absorbs (calcDep V (e.prompt.getD e.dep)) a := by
    cases hp : e.prompt with
    | none => exact ⟨h.definite.dep, h.dep⟩
    | some d => exact ⟨h.definite.prompt d hp, h.prompt d hp⟩
  rw [Entry.parentDep]
  cases hs : e.sym with
  | none => exact ⟨hrest.1, fun _ => hrest.2⟩
  | some s =>
    cases hchoice : e.isChoice with
    | false => exact ⟨hrest.1, fun _ => hrest.2⟩
    | true => exact ⟨h.definite.choice s hs hchoice, fun hnot => by cases hnot s rfl⟩

/-- What the values of a choice are asked for holds of them already. -/
theorem mark_choiceValue (hV : V.Definite) {choice : σ} {values : List σ}
    (h : ∀ v ∈ e.sym, v ∉ values → K.type choice = .tristate → e.Under V (V.tri choice)) :
    (e.choiceValue K choice values).mark V = e.mark V := by
  rw [choiceValue]
  split
  next hvalue =>
    obtain ⟨v, hv, hnot, htype, -⟩ := hvalue
    have hunder := h v hv hnot htype
    have hsame : ∀ d, Junction.and.Absorbs (calcDep V d) (V.tri choice) →
        calcDep V (exprAllocAnd (some (.comp .equal choice K.yes)) d) = calcDep V d := by
      intro d hd
      rw [calcDep_allocAnd, calcDep, calcValue_equal_yes hV htype, Junction.op_comm]
      exact hd
    rw [mark, mark]
    simp only [Option.map_map, List.map_map, Mark.mk.injEq, true_and]
    refine ⟨hsame _ hunder.dep, ?_, List.map_congr_left fun d hd => hsame d (hunder.props d hd)⟩
    cases hp : e.prompt with
    | none => rfl
    | some d => exact congrArg some (hsame d (hunder.prompt d hp))
  next => rfl

section

variable (choice : σ) (values : List σ) (e : Entry σ)

@[simp] theorem self_choiceValue : (e.choiceValue K choice values).self = e.self := by
  unfold choiceValue
  split <;> rfl

@[simp] theorem parent_choiceValue : (e.choiceValue K choice values).parent = e.parent := by
  unfold choiceValue
  split <;> rfl

@[simp] theorem sym_choiceValue : (e.choiceValue K choice values).sym = e.sym := by
  unfold choiceValue
  split <;> rfl

theorem prompt_choiceValue : (e.choiceValue K choice values).prompt = none ↔ e.prompt = none := by
  unfold choiceValue
  split
  · exact Option.map_eq_none_iff
  · rfl

end

end Entry

end CargosBuildroot.Kconfig
