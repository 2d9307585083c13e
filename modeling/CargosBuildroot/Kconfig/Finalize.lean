import CargosBuildroot.Kconfig.Conditions

/-! `menu_finalize` ends for every tree. No entry is lost, repeated or moved in front of another one, each refers
to its parent, and each gets the conditions of the menus it stood in. -/

namespace CargosBuildroot.Kconfig

open Ternary

variable {σ : Type*} [DecidableEq σ] {K : Symbols σ} {V : Values K}

/-! ### Trees -/

namespace Menu

/-- The entries, each in front of those in its list. -/
def entries : Menu σ → List (Entry σ)
  | nil => []
  | entry e list next => e :: (list.entries ++ next.entries)

/-- The entries, by their addresses and symbols. -/
def places (m : Menu σ) : List (ℕ × Option σ) := m.entries.map fun e => (e.self, e.sym)

variable (V) in
/-- The values of the conditions of all entries. -/
def marks (m : Menu σ) : List (Mark σ) := m.entries.map (Entry.mark V)

variable (V) in
/-- The values that will be in a list that has its conditions, but not yet what is below it. -/
def due : Menu σ → List (Mark σ)
  | nil => []
  | entry e list next => e.mark V :: (list.shown V (calcDep V e.parentDep) ++ next.due)

/-- What is left of a list after some of its entries. -/
def IsTail (m : Menu σ) : Menu σ → Prop
  | nil => m = nil
  | entry e list next => m = entry e list next ∨ m.IsTail next

/-- Each entry of a list refers to that parent, and each below to the one above it. -/
def ParentIs : Option ℕ → Menu σ → Prop
  | _, nil => True
  | p, entry e list next => e.parent = p ∧ list.ParentIs (some e.self) ∧ next.ParentIs p

variable (V) in
/-- The entries as the files give them: no condition is `m`, and no tristate choice is empty. -/
def Given : Menu σ → Prop
  | nil => True
  | entry e list next =>
    e.Definite V ∧ (list = nil → e.isChoice = true → ∀ s ∈ e.sym, K.type s ≠ .tristate) ∧
      list.Given ∧ next.Given

variable (V) in
/-- A list with conditions that are joined with a value, and what is below as it is given. -/
def Ready (a : Tristate) : Menu σ → Prop
  | nil => True
  | entry e list next =>
    e.Under V a ∧ (list = nil → e.isChoice = true → ∀ s ∈ e.sym, K.type s ≠ .tristate) ∧
      list.Given V ∧ next.Ready a

variable (V) in
/-- A list that is done. The conditions of its entries are joined with a value, those of the values of choices
apart, and there is nothing below an entry without a prompt. -/
def Level (a : Tristate) (values : List σ) : Menu σ → Prop
  | nil => True
  | entry e list next =>
    (∀ v ∈ e.sym, v ∉ values → e.Under V a) ∧ (e.prompt = none → list = nil) ∧ next.Level a values

variable (V) in
/-- A list with all below it done. -/
def Sound (a : Tristate) (values : List σ) : Menu σ → Prop
  | nil => True
  | entry e list next => e.Under V a ∧ list.Level V a values ∧ next.Sound a values

section

variable {a b : Tristate} {values values' : List σ} {p q : Option ℕ} {m m' after : Menu σ}

omit [DecidableEq σ] in
theorem length_places (m : Menu σ) : m.places.length = m.entries.length := List.length_map _

omit [DecidableEq σ] in
theorem places_entry (e : Entry σ) (list next : Menu σ) :
    (entry e list next).places = (e.self, e.sym) :: (list.places ++ next.places) := by
  rw [places, entries, List.map_cons, List.map_append]
  rfl

omit [DecidableEq σ] in
theorem marks_entry (e : Entry σ) (list next : Menu σ) :
    (entry e list next).marks V = e.mark V :: (list.marks V ++ next.marks V) := by
  rw [marks, entries, List.map_cons, List.map_append]
  rfl

theorem places_propagate (parentdep : Option (Expr σ)) (m : Menu σ) :
    (m.propagate K parentdep).places = m.places := by
  induction m with
  | nil => rfl
  | entry e list next ihlist ihnext =>
    rw [propagate, places_entry, places_entry, ihnext]
    rfl

theorem parentIs_propagate (parentdep : Option (Expr σ)) (h : m.ParentIs p) :
    (m.propagate K parentdep).ParentIs p := by
  induction m with
  | nil => trivial
  | entry e list next ihlist ihnext => exact ⟨h.1, h.2.1, ihnext h.2.2⟩

/-- What a list gets from the menu that it stands in. -/
theorem Given.propagate (hV : V.Definite) {parentdep : Option (Expr σ)} (habove : calcDep V parentdep ≠ .mod)
    (h : m.Given V) :
    (m.propagate K parentdep).Ready V (calcDep V parentdep) ∧
      (m.propagate K parentdep).due V = m.shown V (calcDep V parentdep) := by
  induction m with
  | nil => exact ⟨trivial, rfl⟩
  | entry e list next ihlist ihnext =>
    obtain ⟨he, hfilled, hlist, hnext⟩ := h
    obtain ⟨hready, hdue⟩ := ihnext hnext
    refine ⟨⟨he.under_propagate hV habove, hfilled, hlist, hready⟩, ?_⟩
    rw [Menu.propagate, due, he.mark_propagate hV habove, he.below_propagate hV habove, hdue, shown]

omit [DecidableEq σ] in
theorem Ready.mono (h : m.Ready V a) (hab : Junction.and.Absorbs a b) : m.Ready V b := by
  induction m with
  | nil => trivial
  | entry e list next ihlist ihnext => exact ⟨h.1.mono hab, h.2.1, h.2.2.1, ihnext h.2.2.2⟩

omit [DecidableEq σ] in
theorem Level.mono (h : m.Level V a values) (hab : Junction.and.Absorbs a b) (hvalues : values ⊆ values') :
    m.Level V b values' := by
  induction m with
  | nil => trivial
  | entry e list next ihlist ihnext =>
    exact ⟨fun v hv hnot => (h.1 v hv (mt (@hvalues v) hnot)).mono hab, h.2.1, ihnext h.2.2⟩

/-! ### Tails -/

omit [DecidableEq σ] in
theorem IsTail.refl (m : Menu σ) : m.IsTail m := by
  cases m with
  | nil => rfl
  | entry e list next => exact .inl rfl

omit [DecidableEq σ] in
theorem IsTail.trans {m₁ m₂ m₃ : Menu σ} (h : m₁.IsTail m₂) (h' : m₂.IsTail m₃) : m₁.IsTail m₃ := by
  induction m₃ with
  | nil =>
    obtain rfl : m₂ = nil := h'
    exact h
  | entry e list next ihlist ihnext =>
    rcases h' with rfl | h'
    · exact h
    · exact .inr (ihnext h')

omit [DecidableEq σ] in
theorem IsTail.parentIs (h : m'.IsTail m) (hm : m.ParentIs p) : m'.ParentIs p := by
  induction m with
  | nil =>
    obtain rfl : m' = nil := h
    trivial
  | entry e list next ihlist ihnext =>
    rcases h with rfl | h
    · exact hm
    · exact ihnext h hm.2.2

omit [DecidableEq σ] in
theorem IsTail.ready (h : m'.IsTail m) (hm : m.Ready V a) : m'.Ready V a := by
  induction m with
  | nil =>
    obtain rfl : m' = nil := h
    trivial
  | entry e list next ihlist ihnext =>
    rcases h with rfl | h
    · exact hm
    · exact ihnext h hm.2.2.2

/-! ### The last loop -/

omit [DecidableEq σ] in
theorem places_flatten (parent : ℕ) (moved : Bool) (m after : Menu σ) :
    (m.flatten parent moved after).places = m.places ++ after.places := by
  induction m generalizing moved after with
  | nil => rfl
  | entry e list next ihlist ihnext =>
    rw [flatten]
    split
    · rw [places_entry, places_entry, ihlist, ihnext, List.cons_append, List.append_assoc]
      rfl
    · rw [places_entry, places_entry, ihnext, List.cons_append, List.append_assoc]

omit [DecidableEq σ] in
theorem marks_flatten (parent : ℕ) (moved : Bool) (m after : Menu σ) :
    (m.flatten parent moved after).marks V = m.marks V ++ after.marks V := by
  induction m generalizing moved after with
  | nil => rfl
  | entry e list next ihlist ihnext =>
    have hmark : ∀ p, { e with parent := p }.mark V = e.mark V := fun p => rfl
    rw [flatten]
    split
    · rw [marks_entry, marks_entry, hmark, ihlist, ihnext, List.cons_append, List.append_assoc]
      rfl
    · rw [marks_entry, marks_entry, hmark, ihnext, List.cons_append, List.append_assoc]

omit [DecidableEq σ] in
/-- All that comes to stand in the list of the parent refers to it. -/
theorem ParentIs.flatten {parent : ℕ} {moved : Bool} (hm : m.ParentIs p) (hp : moved = false → p = some parent)
    (hafter : after.ParentIs (some parent)) : (m.flatten parent moved after).ParentIs (some parent) := by
  induction m generalizing moved after p with
  | nil => exact hafter
  | entry e list next ihlist ihnext =>
    obtain ⟨he, hlist, hnext⟩ := hm
    have hparent : (if moved then some parent else e.parent) = some parent := by
      cases moved with
      | true => rfl
      | false => exact he.trans (hp rfl)
    have hrest := ihnext hnext hp hafter
    rw [Menu.flatten]
    split
    · exact ⟨hparent, trivial, ihlist hlist (fun h => by cases h) hrest⟩
    · exact ⟨hparent, hlist, hrest⟩

omit [DecidableEq σ] in
theorem Level.flatten (parent : ℕ) (moved : Bool) (h : m.Level V a values) (hafter : after.Level V a values) :
    (m.flatten parent moved after).Level V a values := by
  induction m generalizing after with
  | nil => exact hafter
  | entry e list next ihlist ihnext =>
    obtain ⟨he, hprompt, hnext⟩ := h
    have hrest := ihnext hnext hafter
    rw [Menu.flatten]
    split
    next hnone =>
      -- nothing is left below it
      obtain rfl := hprompt (Option.isNone_iff_eq_none.mp hnone)
      exact ⟨fun v hv hnot => (he v hv hnot).parent _, fun _ => rfl, hrest⟩
    next => exact ⟨fun v hv hnot => (he v hv hnot).parent _, hprompt, hrest⟩

omit [DecidableEq σ] in
theorem Sound.flatten {parent : ℕ} {moved : Bool} (h : m.Sound V a values) (hafter : after.Level V a values) :
    (m.flatten parent moved after).Level V a values := by
  induction m generalizing after with
  | nil => exact hafter
  | entry e list next ihlist ihnext =>
    obtain ⟨he, hlist, hnext⟩ := h
    have hrest := ihnext hnext hafter
    rw [Menu.flatten]
    split
    next => exact ⟨fun v _ _ => he.parent _, fun _ => rfl, hlist.flatten parent true hrest⟩
    next hsome =>
      refine ⟨fun v _ _ => he.parent _, fun hnone => ?_, hrest⟩
      exact absurd (Option.isNone_iff_eq_none.mpr hnone) hsome

section

variable (choice : σ)

theorem places_choiceValues (values : List σ) (m : Menu σ) : (m.choiceValues K choice values).1.places = m.places := by
  induction m generalizing values with
  | nil => rfl
  | entry e list next ihlist ihnext =>
    rw [choiceValues, places_entry, places_entry, ihnext, Entry.self_choiceValue, Entry.sym_choiceValue]

theorem ParentIs.choiceValues (values : List σ) (h : m.ParentIs p) : (m.choiceValues K choice values).1.ParentIs p := by
  induction m generalizing values with
  | nil => trivial
  | entry e list next ihlist ihnext =>
    refine ⟨(Entry.parent_choiceValue ..).trans h.1, ?_, ihnext _ h.2.2⟩
    rw [Entry.self_choiceValue]
    exact h.2.1

theorem subset_choiceValues (values : List σ) (m : Menu σ) : values ⊆ (m.choiceValues K choice values).2 := by
  induction m generalizing values with
  | nil => exact List.Subset.refl _
  | entry e list next ihlist ihnext => exact List.Subset.trans (List.subset_append_right _ _) (ihnext _)

/-- The symbols of all entries are values of a choice afterwards. -/
theorem Level.choiceValues (h : m.Level V a values) (b : Tristate) :
    (m.choiceValues K choice values).1.Level V b (m.choiceValues K choice values).2 := by
  induction m generalizing values with
  | nil => trivial
  | entry e list next ihlist ihnext =>
    have hrest : next.Level V a (e.sym.toList ++ values) :=
      h.2.2.mono (Junction.op_self .and a) (List.subset_append_right _ _)
    refine ⟨fun v hv hnot => ?_, fun hnone => h.2.1 ((Entry.prompt_choiceValue ..).mp hnone), ihnext hrest⟩
    rw [Entry.sym_choiceValue] at hv
    exact absurd (subset_choiceValues choice _ next (List.mem_append_left _ (Option.mem_toList.mpr hv))) hnot

theorem Level.marks_choiceValues (hV : V.Definite)
    (h : K.type choice = .tristate → m.Level V (V.tri choice) values) :
    (m.choiceValues K choice values).1.marks V = m.marks V := by
  induction m generalizing values with
  | nil => rfl
  | entry e list next ihlist ihnext =>
    have hrest : K.type choice = .tristate → next.Level V (V.tri choice) (e.sym.toList ++ values) := fun htype =>
      (h htype).2.2.mono (Junction.op_self .and _) (List.subset_append_right _ _)
    have hmark : (e.choiceValue K choice values).mark V = e.mark V :=
      Entry.mark_choiceValue hV fun v hv hnot htype => (h htype).1 v hv hnot
    rw [Menu.choiceValues, marks_entry, marks_entry, ihnext hrest, hmark]

end

end

end Menu

/-! ### The whole of `menu_finalize` -/

namespace Menu

variable (K) in
/-- The entries of a list, up to those that are left, and all below them done. -/
structure Done (p q : Option ℕ) (values : List σ) (m : Menu σ) (x : Finalized σ) : Prop where
  tail : x.next.IsTail m
  places : x.list.places ++ x.next.places = m.places
  values : values ⊆ x.values
  parents : m.ParentIs p → x.list.ParentIs q
  marks : ∀ V : Values K, V.Definite → ∀ a, m.Ready V a →
    x.list.marks V ++ x.next.due V = m.due V ∧ x.list.Sound V a x.values

variable (K) in
/-- What `menu_finalize` has done for an entry. -/
structure Outcome (p : Option ℕ) (values : List σ) (e : Entry σ) (list next : Menu σ) (x : Finalized σ) : Prop where
  tail : x.next.IsTail next
  places : x.list.places ++ x.next.places = list.places ++ next.places
  values : values ⊆ x.values
  parents : list.ParentIs (some e.self) → next.ParentIs p → x.list.ParentIs (some e.self)
  marks : ∀ V : Values K, V.Definite → ∀ a, (entry e list next).Ready V a →
    x.list.marks V ++ x.next.due V = list.shown V (calcDep V e.parentDep) ++ next.due V ∧
      x.list.Level V a x.values

variable (K) in
/-- So many levels are enough where so many entries are left. -/
def Finalizes (finalize : Finalize σ) (n : ℕ) : Prop :=
  ∀ p values e list next, list.places.length + next.places.length < n →
    ∃ x, finalize values e list next = some x ∧ Outcome K p values e list next x

variable {p q r : Option ℕ} {values : List σ} {e : Entry σ} {list next m : Menu σ} {x y : Finalized σ}

omit [DecidableEq σ] in
/-- An entry in front of those that are done after it. -/
theorem Outcome.cons (hx : Outcome K p values e list next x) (hy : Done K p q x.values x.next y)
    (hr : e.parent = p → r = q) :
    Done K p q values (entry e list next) { y with list := entry { e with parent := r } x.list y.list } where
  tail := .inr (hy.tail.trans hx.tail)
  places := by
    rw [places_entry, places_entry, List.cons_append, List.append_assoc, hy.places, hx.places]
  values := List.Subset.trans hx.values hy.values
  parents h := ⟨hr h.1, hx.parents h.2.1 h.2.2, hy.parents (hx.tail.parentIs h.2.2)⟩
  marks V hV a h := by
    obtain ⟨hmarks, hlevel⟩ := hx.marks V hV a h
    obtain ⟨hrest, hsound⟩ := hy.marks V hV a (hx.tail.ready h.2.2.2)
    refine ⟨?_, h.1.parent r, hlevel.mono (Junction.op_self .and a) hy.values, hsound⟩
    rw [marks_entry, due, List.cons_append, List.append_assoc, hrest, hmarks]
    rfl

omit [DecidableEq σ] in
theorem Outcome.length_next (h : Outcome K p values e list next x) :
    x.next.places.length ≤ list.places.length + next.places.length := by
  have hlength := congrArg List.length h.places
  rw [List.length_append, List.length_append] at hlength
  omega

section

variable {finalize : Finalize σ} {n k : ℕ} (h : Finalizes K finalize n)
include h

omit [DecidableEq σ] in
theorem Finalizes.eachEntry (p : Option ℕ) (values : List σ) (m : Menu σ) (hm : m.places.length ≤ n)
    (hk : m.places.length < k) :
    ∃ x, eachEntry finalize k values m = some x ∧ x.next = nil ∧ Done K p p values m x := by
  induction k generalizing values m with
  | zero => omega
  | succ k ih =>
    cases m with
    | nil =>
      refine ⟨⟨nil, nil, values⟩, rfl, rfl, ?_⟩
      exact ⟨rfl, rfl, List.Subset.refl _, fun _ => trivial, fun _ _ _ _ => ⟨rfl, trivial⟩⟩
    | entry e list next =>
      rw [places_entry, List.length_cons, List.length_append] at hm hk
      obtain ⟨x, hx, hout⟩ := h p values e list next (by omega)
      have hlength := hout.length_next
      obtain ⟨y, hy, hnil, hdone⟩ := ih x.values x.next (by omega) (by omega)
      refine ⟨{ y with list := entry e x.list y.list }, ?_, hnil, hout.cons hdone id⟩
      rw [Menu.eachEntry, hx, Option.bind_some, hy]
      rfl

theorem Finalizes.subEntries (p : Option ℕ) (parent : Entry σ) (sym : σ) (values : List σ) (m : Menu σ)
    (hm : m.places.length ≤ n) (hk : m.places.length < k) :
    ∃ x, subEntries K finalize parent sym k values m = some x ∧ Done K p (some parent.self) values m x := by
  induction k generalizing values m with
  | zero => omega
  | succ k ih =>
    have hnone : Done K p (some parent.self) values m ⟨nil, m, values⟩ :=
      ⟨.refl m, rfl, List.Subset.refl _, fun _ => trivial, fun _ _ _ _ => ⟨rfl, trivial⟩⟩
    cases m with
    | nil => exact ⟨_, rfl, hnone⟩
    | entry e list next =>
      rw [Menu.subEntries]
      split
      next =>
        rw [places_entry, List.length_cons, List.length_append] at hm hk
        obtain ⟨x, hx, hout⟩ := h p values e list next (by omega)
        have hlength := hout.length_next
        obtain ⟨y, hy, hdone⟩ := ih x.values x.next (by omega) (by omega)
        refine ⟨_, ?_, hout.cons hdone fun _ => rfl⟩
        rw [hx, Option.bind_some, hy]
        rfl
      next => exact ⟨_, rfl, hnone⟩

end

/-! ### The last loop for an entry -/

section

variable (K) (e : Entry σ) (x : Finalized σ)

@[simp] theorem next_lastLoop : (lastLoop K e x).next = x.next := by
  unfold lastLoop
  split
  · split <;> rfl
  · rfl

theorem places_lastLoop : (lastLoop K e x).list.places = x.list.places := by
  have hflatten : (x.list.flatten e.self false nil).places = x.list.places := by
    rw [places_flatten]
    exact List.append_nil _
  unfold lastLoop
  split
  · split
    · exact (places_choiceValues ..).trans hflatten
    · exact hflatten
  · exact hflatten

theorem values_lastLoop : x.values ⊆ (lastLoop K e x).values := by
  unfold lastLoop
  split
  · split
    · exact subset_choiceValues ..
    · exact List.Subset.refl _
  · exact List.Subset.refl _

variable {e x}

theorem ParentIs.lastLoop (h : x.list.ParentIs (some e.self)) : (lastLoop K e x).list.ParentIs (some e.self) := by
  have hflatten : (x.list.flatten e.self false nil).ParentIs (some e.self) := h.flatten (fun _ => rfl) trivial
  unfold Menu.lastLoop
  split
  · split
    · exact hflatten.choiceValues ..
    · exact hflatten
  · exact hflatten

variable {K}

theorem Sound.lastLoop (hV : V.Definite) {a b : Tristate} (h : x.list.Sound V b x.values)
    (hchoice : e.isChoice = true → ∀ s ∈ e.sym, K.type s = .tristate → b = V.tri s)
    (hrest : (∀ s ∈ e.sym, e.isChoice = false) → Junction.and.Absorbs b a) :
    (lastLoop K e x).list.marks V = x.list.marks V ∧
      (lastLoop K e x).list.Level V a (lastLoop K e x).values := by
  have hlevel : (x.list.flatten e.self false nil).Level V b x.values := h.flatten trivial
  have hmarks : (x.list.flatten e.self false nil).marks V = x.list.marks V := by
    rw [marks_flatten]
    exact List.append_nil _
  unfold Menu.lastLoop
  split
  next s hs =>
    split
    next hyes =>
      refine ⟨(Level.marks_choiceValues s hV fun htype => ?_).trans hmarks, hlevel.choiceValues s a⟩
      rw [← hchoice hyes s hs htype]
      exact hlevel
    next hno =>
      refine ⟨hmarks, hlevel.mono (hrest fun _ _ => ?_) (List.Subset.refl _)⟩
      exact Bool.eq_false_iff.mpr hno
  next hs =>
    refine ⟨hmarks, hlevel.mono (hrest fun s hmem => ?_) (List.Subset.refl _)⟩
    rw [hs] at hmem
    cases hmem

end

/-! ### One call -/

/-- A symbol without a list of its own. -/
theorem Done.outcome_nil (h : Done K p (some e.self) values next x) :
    Outcome K p values e nil next (lastLoop K e x) where
  tail := by
    rw [next_lastLoop]
    exact h.tail
  places := by
    rw [places_lastLoop, next_lastLoop, h.places]
    rfl
  values := List.Subset.trans h.values (values_lastLoop ..)
  parents _ hnext := (h.parents hnext).lastLoop K
  marks V hV a hready := by
    obtain ⟨-, hfilled, -, hnext⟩ := hready
    obtain ⟨hmarks, hsound⟩ := h.marks V hV a hnext
    -- an empty choice is not tristate
    obtain ⟨hsame, hlevel⟩ := hsound.lastLoop hV (a := a) (e := e)
      (fun hchoice s hs htype => absurd htype (hfilled rfl hchoice s hs)) fun _ => Junction.op_self .and a
    rw [hsame, next_lastLoop, hmarks]
    exact ⟨rfl, hlevel⟩

/-- An entry with a list. -/
theorem Done.outcome_list (h : Done K (some e.self) (some e.self) values (list.propagate K e.parentDep) x)
    (hnil : x.next = nil) : Outcome K p values e list next (lastLoop K e { x with next := next }) where
  tail := by
    rw [next_lastLoop]
    exact .refl next
  places := by
    have hplaces := h.places
    rw [hnil, places_propagate] at hplaces
    rw [places_lastLoop, next_lastLoop, ← hplaces]
    exact congrArg (· ++ _) (List.append_nil _).symm
  values := List.Subset.trans h.values (values_lastLoop K e { x with next := next })
  parents hlist _ := ParentIs.lastLoop K (x := { x with next := next }) (h.parents (parentIs_propagate _ hlist))
  marks V hV a hready := by
    obtain ⟨he, -, hgiven, -⟩ := hready
    obtain ⟨hne, habsorbs⟩ := he.parentDep
    obtain ⟨hlist, hdue⟩ := hgiven.propagate hV hne
    obtain ⟨hmarks, hsound⟩ := h.marks V hV _ hlist
    -- in a choice the conditions are joined with the choice itself
    obtain ⟨hsame, hlevel⟩ := Sound.lastLoop (x := { x with next := next }) (a := a) (e := e) hV hsound
      (fun hchoice s hs _ => by rw [Entry.parentDep_choice hs hchoice]; rfl) habsorbs
    rw [hnil, hdue] at hmarks
    rw [hsame, next_lastLoop, ← hmarks]
    exact ⟨congrArg (· ++ _) (List.append_nil _).symm, hlevel⟩

theorem finalizes_finalizeN (n : ℕ) : Finalizes K (finalizeN K n) n := by
  induction n with
  | zero => exact fun _ _ _ _ _ hn => absurd hn (Nat.not_lt_zero _)
  | succ n ih =>
    intro p values parent list next hn
    cases list with
    | nil =>
      rw [finalizeN]
      split
      next s hs =>
        have hlength : next.places.length < n + 1 := by omega
        obtain ⟨x, hx, hdone⟩ := ih.subEntries p parent s values next (by omega) hlength
        exact ⟨lastLoop K parent x, by rw [hx]; rfl, hdone.outcome_nil⟩
      next =>
        refine ⟨_, rfl, .refl next, rfl, List.Subset.refl _, fun _ _ => trivial, fun _ _ _ _ => ⟨rfl, trivial⟩⟩
    | entry e list rest =>
      have hlength := congrArg List.length (places_propagate (K := K) parent.parentDep (entry e list rest))
      rw [places_entry e list rest, List.length_cons] at hlength hn
      obtain ⟨x, hx, hnil, hdone⟩ := ih.eachEntry (k := n + 1) (some parent.self) values
        ((entry e list rest).propagate K parent.parentDep) (by omega) (by omega)
      exact ⟨lastLoop K parent { x with next := next }, by rw [finalizeN, hx]; rfl, hdone.outcome_list hnil⟩

end Menu

/-- From the root of a tree, `menu_finalize` ends. The entries stay in the order of the files and refer to the
entries that they are below. Where no tristate symbol and no condition is `m` and tristate choices are not
empty, the conditions of each one have come to be joined with those of all menus around it. -/
theorem menuFinalize_spec (root : Entry σ) (list : Menu σ) {n : ℕ} (hn : list.entries.length < n) :
    ∃ x, Menu.finalizeN K n [] root list .nil = some x ∧ x.next = .nil ∧ x.list.places = list.places ∧
      (list.ParentIs (some root.self) → x.list.ParentIs (some root.self)) ∧
      ∀ V : Values K, V.Definite → (Menu.entry root list .nil).Given V →
        x.list.marks V = list.shown V (calcDep V root.parentDep) := by
  have hlength : list.places.length + (Menu.nil : Menu σ).places.length < n := by
    rw [Menu.length_places]
    exact hn
  obtain ⟨x, hx, hout⟩ := Menu.finalizes_finalizeN (K := K) n none [] root list .nil hlength
  have hnext : x.next = .nil := hout.tail
  have hplaces := hout.places
  rw [hnext] at hplaces
  refine ⟨x, hx, hnext, List.append_cancel_right hplaces, fun h => hout.parents h trivial, fun V hV hgiven => ?_⟩
  obtain ⟨hroot, hfilled, hlist, -⟩ := hgiven
  have hmarks := (hout.marks V hV .yes ⟨hroot.under, hfilled, hlist, trivial⟩).1
  rw [hnext] at hmarks
  exact List.append_cancel_right hmarks

/-- A tristate choice, and boolean symbols. -/
def choiceSymbols : Symbols ℕ :=
  { sampleSymbols with
    type := fun s => if s < 3 then .unknown else if s = 3 then .tristate else .boolean
    type_yes := rfl
    type_mod := rfl
    type_no := rfl }

def choiceSymbolValues (on : ℕ → Bool) : Values choiceSymbols where
  tri := sampleTri on
  text s := tristateText (sampleTri on s)
  tri_yes := rfl
  tri_mod := rfl
  tri_no := rfl
  text_yes := rfl
  text_mod := rfl
  text_no := rfl
  text_eq _ _ := rfl
  boolean s hs := by
    refine sampleTri_ne_mod on ?_
    rintro rfl
    cases hs
  const s t hs ht h := (sampleValues on).const s t hs ht h

def sampleEntry (self : ℕ) (parent : Option ℕ) (sym : Option ℕ) (dep : Option (Expr ℕ)) : Entry ℕ :=
  ⟨self, parent, sym, false, dep, some none, []⟩

/-- A choice after a symbol. Its first value is in a menu without a prompt, which depends on the symbol. -/
def sampleMenus : Menu ℕ :=
  .entry (sampleEntry 1 (some 0) (some 5) none) .nil
    (.entry { sampleEntry 2 (some 0) (some 3) none with isChoice := true }
      (.entry { sampleEntry 3 (some 2) none (some (.symbol 5)) with prompt := none }
        (.entry (sampleEntry 4 (some 3) (some 4) none) .nil .nil)
        (.entry (sampleEntry 5 (some 2) (some 6) none) .nil .nil)) .nil)

/-- With the symbol off. -/
theorem menuFinalize_spec_choice :
    ∃ x, Menu.finalizeN choiceSymbols 6 [] (sampleEntry 0 none none none) sampleMenus .nil = some x ∧
      x.next = .nil ∧ x.list.places = [(1, some 5), (2, some 3), (3, none), (4, some 4), (5, some 6)] ∧
      x.list.ParentIs (some 0) ∧
      x.list.marks (choiceSymbolValues fun n => n ≠ 2) =
        [⟨1, some 5, .yes, some .yes, []⟩, ⟨2, some 3, .yes, some .yes, []⟩, ⟨3, none, .no, none, []⟩,
          ⟨4, some 4, .no, some .no, []⟩, ⟨5, some 6, .yes, some .yes, []⟩] := by
  obtain ⟨x, hx, hnext, hplaces, hparents, hmarks⟩ := menuFinalize_spec (K := choiceSymbols) (n := 6)
    (sampleEntry 0 none none none) sampleMenus (by decide)
  have hparent : sampleMenus.ParentIs (some 0) :=
    ⟨rfl, trivial, rfl, ⟨rfl, ⟨rfl, trivial, trivial⟩, rfl, trivial, trivial⟩, trivial⟩
  refine ⟨x, hx, hnext, hplaces, hparents hparent, ?_⟩
  refine (hmarks _ (fun s hs => sampleTri_ne_mod _ ?_) ?_).trans (by decide)
  · rintro rfl
    cases hs
  · exact ⟨⟨by decide, by decide, by decide, by decide⟩, fun h => (by cases h),
      ⟨⟨by decide, by decide, by decide, by decide⟩, fun _ h => (by cases h), trivial,
        ⟨by decide, by decide, by decide, by decide⟩, fun h => (by cases h),
        ⟨⟨by decide, by decide, by decide, by decide⟩, fun h => (by cases h),
          ⟨⟨by decide, by decide, by decide, by decide⟩, fun _ h => (by cases h), trivial, trivial⟩,
          ⟨by decide, by decide, by decide, by decide⟩, fun _ h => (by cases h), trivial, trivial⟩, trivial⟩, trivial⟩

end CargosBuildroot.Kconfig
