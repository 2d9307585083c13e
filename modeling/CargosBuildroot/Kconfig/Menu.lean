import CargosBuildroot.Kconfig.Compare

/-! `menu_finalize` of `support/kconfig/menu.c` hands the conditions of menus down to the entries in them,
puts entries below the symbols that they depend on, and takes apart menus without a prompt. The types of the
symbols are those that they have in the end, and the property of a choice with the list of its values is left
out. -/

namespace CargosBuildroot.Kconfig

open Shell Ternary

/-- What is read and written of `struct menu`, with the properties of the symbol that belong to it. The
prompt and the properties are there with their conditions, and `self` is the address. -/
structure Entry (σ : Type*) where
  self : ℕ
  parent : Option ℕ
  sym : Option σ
  isChoice : Bool
  dep : Option (Expr σ)
  prompt : Option (Option (Expr σ))
  props : List (Option (Expr σ))

/-- An entry with the pointers `list` and `next`. -/
inductive Menu (σ : Type*)
  | nil
  | entry (e : Entry σ) (list next : Menu σ)

variable {σ : Type*} [DecidableEq σ] {K : Symbols σ}

/-- `expr_alloc_and` -/
def exprAllocAnd : Option (Expr σ) → Option (Expr σ) → Option (Expr σ)
  | none, e₂ => e₂
  | some e₁, none => some e₁
  | some e₁, some e₂ => some (.two .and e₁ e₂)

variable (K) in
/-- A condition that is added to the one from above. -/
def joinDep (basedep dep : Option (Expr σ)) : Option (Expr σ) :=
  (exprAllocAnd basedep (dep.map (exprTransform K))).map (exprEliminateDups K)

variable (K) in
/-- The condition of a property. -/
def visibleDep (sym : Option σ) (basedep dep : Option (Expr σ)) : Option (Expr σ) :=
  match sym with
  | some s => if K.type s ≠ .tristate then (joinDep K basedep dep).map (exprTransBool K) else joinDep K basedep dep
  | none => joinDep K basedep dep

variable (K) in
/-- An entry of a menu with that condition. -/
def Entry.propagate (parentdep : Option (Expr σ)) (e : Entry σ) : Entry σ :=
  let basedep := joinDep K parentdep e.dep
  { e with
    dep := basedep
    prompt := e.prompt.map (visibleDep K e.sym basedep)
    props := e.props.map (visibleDep K e.sym basedep) }

/-- `parentdep`: the condition for what is in the list of the entry. -/
def Entry.parentDep (e : Entry σ) : Option (Expr σ) :=
  let rest := e.prompt.getD e.dep
  match e.sym with
  | some s => if e.isChoice then some (.symbol s) else rest
  | none => rest

/-- The condition that decides about an entry below a symbol. -/
def Entry.condition (e : Entry σ) : Option (Expr σ) := e.prompt.getD e.dep

variable (K) in
/-- What is done to an entry of a choice, after those symbols that are values of one already. A value that is
not tristate needs a tristate choice to be `y`. -/
def Entry.choiceValue (choice : σ) (values : List σ) (e : Entry σ) : Entry σ :=
  if ∃ v ∈ e.sym, v ∉ values ∧ K.type choice = .tristate ∧ K.type v ≠ .tristate then
    let basedep := some (.comp .equal choice K.yes)
    { e with
      dep := exprAllocAnd basedep e.dep
      prompt := e.prompt.map (exprAllocAnd basedep)
      props := e.props.map (exprAllocAnd basedep) }
  else e

namespace Menu

variable (K) in
/-- The entries of one list. -/
def propagate (parentdep : Option (Expr σ)) : Menu σ → Menu σ
  | nil => nil
  | entry e list next => entry (e.propagate K parentdep) list (next.propagate parentdep)

/-- The last loop of `menu_finalize`, in front of another list: what is below an entry without a prompt comes
after it, gets its parent, and is gone through as well. -/
def flatten (parent : ℕ) : Bool → Menu σ → Menu σ → Menu σ
  | _, nil, after => after
  | moved, entry e list next, after =>
    let e' := { e with parent := if moved then some parent else e.parent }
    if e.prompt.isNone then entry e' nil (list.flatten parent true (next.flatten parent moved after))
    else entry e' list (next.flatten parent moved after)

variable (K) in
/-- The same loop, for the values of a choice. It gives all symbols that are values of one afterwards. -/
def choiceValues (choice : σ) : List σ → Menu σ → Menu σ × List σ
  | values, nil => (nil, values)
  | values, entry e list next =>
    let x := choiceValues choice (e.sym.toList ++ values) next
    (entry (e.choiceValue K choice values) list x.1, x.2)

/-- The list of an entry and what is after it, and the symbols that are values of a choice. -/
structure Finalized (σ : Type*) where
  list : Menu σ
  next : Menu σ
  values : List σ

/-- What `menu_finalize` does with an entry, its list and what is after it. -/
abbrev Finalize (σ : Type*) := List σ → Entry σ → Menu σ → Menu σ → Option (Finalized σ)

/-- Each entry of a list, as far as it is still there when it is its turn. -/
def eachEntry (finalize : Finalize σ) : ℕ → List σ → Menu σ → Option (Finalized σ)
  | 0, _, _ => none
  | _ + 1, values, nil => some ⟨nil, nil, values⟩
  | n + 1, values, entry e list next =>
    (finalize values e list next).bind fun x =>
      (eachEntry finalize n x.values x.next).map fun y => { y with list := entry e x.list y.list }

variable (K) in
/-- The entries after a symbol that are put below it, and those that are left. -/
def subEntries (finalize : Finalize σ) (parent : Entry σ) (sym : σ) : ℕ → List σ → Menu σ → Option (Finalized σ)
  | 0, _, _ => none
  | _ + 1, values, nil => some ⟨nil, nil, values⟩
  | n + 1, values, entry e list next =>
    if isSubEntry K sym parent.prompt.join e.condition then
      (finalize values e list next).bind fun x =>
        (subEntries finalize parent sym n x.values x.next).map fun y =>
          { y with list := entry { e with parent := some parent.self } x.list y.list }
    else some ⟨nil, entry e list next, values⟩

variable (K) in
/-- The last loop. What it does with values and with menus are two loops here: neither part reads what the
other one writes. -/
def lastLoop (parent : Entry σ) (x : Finalized σ) : Finalized σ :=
  let list := x.list.flatten parent.self false nil
  match parent.sym with
  | some s =>
    if parent.isChoice then ⟨(choiceValues K s x.values list).1, x.next, (choiceValues K s x.values list).2⟩
    else { x with list := list }
  | none => { x with list := list }

variable (K) in
/-- `menu_finalize`, for so many levels of calls and turns of its loops. -/
def finalizeN : ℕ → Finalize σ
  | 0, _, _, _, _ => none
  | n + 1, values, parent, nil, next =>
    match parent.sym with
    | some s => (subEntries K (finalizeN n) parent s (n + 1) values next).map (lastLoop K parent)
    | none => some ⟨nil, next, values⟩
  | n + 1, values, parent, entry e list rest, next =>
    (eachEntry (finalizeN n) (n + 1) values ((entry e list rest).propagate K parent.parentDep)).map fun x =>
      lastLoop K parent { x with next := next }

end Menu

end CargosBuildroot.Kconfig
