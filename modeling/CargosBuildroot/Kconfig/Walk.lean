import CargosBuildroot.Kconfig.Finalize
import CargosBuildroot.Kconfig.RoundTrip

/-! The walk of `conf_write` through the menus, and all of it: the tree that `menu_finalize` has left is
written, and read back. Where a list ends, the walk goes on by the parents that `menu_finalize` has set. -/

namespace CargosBuildroot.Kconfig

open Shell Ternary

variable {σ : Type*}

namespace Menu

/-- The entry at an address, with its list and what is after it. -/
def find (a : ℕ) : Menu σ → Option (Menu σ)
  | nil => none
  | entry e list next => if e.self = a then some (entry e list next) else (list.find a).or (next.find a)

/-- The inner loop of `conf_write`, for so many turns: up by the parents until there is something after
one. -/
def climb (root : Menu σ) : ℕ → Option ℕ → Option (Menu σ)
  | 0, _ => none
  | _ + 1, none => some nil
  | n + 1, some a =>
    match root.find a with
    | some (entry e _ nil) => climb root n e.parent
    | some (entry _ _ (entry d list rest)) => some (entry d list rest)
    | _ => none

/-- The loop of `conf_write`, for so many steps. -/
def walk (root : Menu σ) : ℕ → Menu σ → Option (List (Entry σ))
  | 0, _ => none
  | _ + 1, nil => some []
  | n + 1, entry e (entry d list rest) _ => (walk root n (entry d list rest)).map (e :: ·)
  | n + 1, entry e nil (entry d list rest) => (walk root n (entry d list rest)).map (e :: ·)
  | n + 1, entry e nil nil => ((climb root n e.parent).bind (walk root n)).map (e :: ·)

/-! ### Addresses -/

/-- A list of the tree, from one of its entries on. -/
def Inside (m : Menu σ) : Menu σ → Prop
  | nil => m = nil
  | entry e list next => m = entry e list next ∨ m.Inside list ∨ m.Inside next

variable {root m list next : Menu σ} {e : Entry σ}

theorem Inside.refl (m : Menu σ) : m.Inside m := by
  cases m with
  | nil => rfl
  | entry e list next => exact .inl rfl

theorem nil_inside (m : Menu σ) : nil.Inside m := by
  induction m with
  | nil => rfl
  | entry e list next ihlist ihnext => exact .inr (.inl ihlist)

theorem Inside.pointers (h : (entry e list next).Inside root) : list.Inside root ∧ next.Inside root := by
  induction root with
  | nil => cases h
  | entry r rlist rnext ihlist ihnext =>
    rcases h with h | h | h
    · obtain ⟨rfl, rfl, rfl⟩ := Menu.entry.inj h
      exact ⟨.inr (.inl (.refl list)), .inr (.inr (.refl next))⟩
    · exact ⟨.inr (.inl (ihlist h).1), .inr (.inl (ihlist h).2)⟩
    · exact ⟨.inr (.inr (ihnext h).1), .inr (.inr (ihnext h).2)⟩

theorem Inside.mem_entries (h : (entry e list next).Inside root) : e ∈ root.entries := by
  induction root with
  | nil => cases h
  | entry r rlist rnext ihlist ihnext =>
    rcases h with h | h | h
    · rw [(Menu.entry.inj h).1]
      exact List.mem_cons_self
    · exact List.mem_cons_of_mem _ (List.mem_append_left _ (ihlist h))
    · exact List.mem_cons_of_mem _ (List.mem_append_right _ (ihnext h))

theorem find_eq_none {a : ℕ} (h : ∀ e ∈ m.entries, e.self ≠ a) : m.find a = none := by
  induction m with
  | nil => rfl
  | entry e list next ihlist ihnext =>
    rw [entries, List.forall_mem_cons, List.forall_mem_append] at h
    rw [find, if_neg h.1, ihlist h.2.1, ihnext h.2.2]
    rfl

/-- With different addresses each entry is found by its own one. -/
theorem Inside.find (hroot : (root.entries.map Entry.self).Nodup) (h : (entry e list next).Inside root) :
    root.find e.self = some (entry e list next) := by
  induction root with
  | nil => cases h
  | entry r rlist rnext ihlist ihnext =>
    rw [entries, List.map_cons, List.map_append, List.nodup_cons, List.nodup_append, List.mem_append, not_or] at hroot
    obtain ⟨⟨hinlist, hinnext⟩, hlist, hnext, hdiff⟩ := hroot
    rw [Menu.find]
    rcases h with h | h | h
    · obtain ⟨rfl, rfl, rfl⟩ := Menu.entry.inj h
      exact if_pos rfl
    · have hmem : e.self ∈ rlist.entries.map Entry.self := List.mem_map_of_mem h.mem_entries
      have hne : r.self ≠ e.self := fun heq => hinlist (heq ▸ hmem)
      rw [if_neg hne, ihlist hlist h]
      rfl
    · have hmem : e.self ∈ rnext.entries.map Entry.self := List.mem_map_of_mem h.mem_entries
      have hne : r.self ≠ e.self := fun heq => hinnext (heq ▸ hmem)
      have hnone : rlist.find e.self = none :=
        find_eq_none fun d hd heq => hdiff d.self (List.mem_map_of_mem hd) e.self hmem heq
      rw [if_neg hne, hnone, ihnext hnext h]
      rfl

/-! ### The walk -/

/-- What is after the parents, from the one at that address on up. -/
inductive Above (root : Menu σ) : Option ℕ → List (Menu σ) → Prop
  | top : Above root none []
  | step {e : Entry σ} {list next : Menu σ} {after : List (Menu σ)} : (entry e list next).Inside root →
    next.ParentIs e.parent → Above root e.parent after → Above root (some e.self) (next :: after)

variable {p : Option ℕ} {after : List (Menu σ)} {n : ℕ}

/-- The parents lead to what is left, if there is something. -/
theorem Above.climb (hroot : (root.entries.map Entry.self).Nodup) (h : Above root p after) (hn : after.length < n) :
    ∃ m p' after', climb root n p = some m ∧ m.Inside root ∧ m.ParentIs p' ∧ Above root p' after' ∧
      after'.length ≤ after.length ∧ (m = nil → after'.flatMap entries = []) ∧
      after.flatMap entries = m.entries ++ after'.flatMap entries := by
  induction h generalizing n with
  | top =>
    obtain ⟨k, rfl⟩ : ∃ k, n = k + 1 := ⟨n - 1, by omega⟩
    exact ⟨nil, none, [], rfl, nil_inside root, trivial, .top, le_rfl, fun _ => rfl, rfl⟩
  | @step e list next after hinside hnext habove ih =>
    rw [List.length_cons] at hn ⊢
    obtain ⟨k, rfl⟩ : ∃ k, n = k + 1 := ⟨n - 1, by omega⟩
    have hfind := hinside.find hroot
    cases next with
    | nil =>
      obtain ⟨m, p', after', hclimb, hm, hparent, habove', hlength, hnil, hentries⟩ := ih (n := k) (by omega)
      refine ⟨m, p', after', ?_, hm, hparent, habove', by omega, hnil, hentries⟩
      rw [Menu.climb, hfind]
      exact hclimb
    | entry d dlist rest =>
      refine ⟨entry d dlist rest, e.parent, after, ?_, hinside.pointers.2, hnext, habove, Nat.le_succ _, ?_, rfl⟩
      · rw [Menu.climb, hfind]
      · intro h
        cases h

/-- The walk ends, and comes to every entry that is left, in their order. -/
theorem Above.walk (hroot : (root.entries.map Entry.self).Nodup) (hinside : m.Inside root) (hm : m.ParentIs p)
    (h : Above root p after) (hnil : m = nil → after.flatMap entries = [])
    (hn : 2 * (m.entries.length + (after.flatMap entries).length) + after.length < n) :
    walk root n m = some (m.entries ++ after.flatMap entries) := by
  induction n generalizing m p after with
  | zero => omega
  | succ n ih =>
    cases m with
    | nil =>
      rw [hnil rfl]
      rfl
    | entry e list next =>
      obtain ⟨rfl, hlist, hnext⟩ := hm
      rw [entries, List.length_cons, List.length_append] at hn
      cases list with
      | entry d dlist rest =>
        have hbelow : Above root (some e.self) (next :: after) := .step hinside hnext h
        have hsteps := ih hinside.pointers.1 hlist hbelow (fun h => by cases h)
          (by rw [List.flatMap_cons, List.length_append, List.length_cons]; omega)
        rw [Menu.walk, hsteps, List.flatMap_cons, ← List.append_assoc]
        rfl
      | nil =>
        cases next with
        | entry d dlist rest =>
          have hsteps := ih hinside.pointers.2 hnext h (fun h => by cases h) (by omega)
          rw [Menu.walk, hsteps]
          rfl
        | nil =>
          obtain ⟨m, p', after', hclimb, hm, hparent, habove, hlength, hend, hentries⟩ :=
            h.climb (n := n) hroot (by omega)
          rw [hentries, List.length_append] at hn
          have hsteps := ih hm hparent habove hend (by omega)
          rw [Menu.walk, hclimb, Option.bind_some, hsteps, hentries]
          rfl

end Menu

/-! ### The tree in the file -/

/-- What `conf_write` does about an entry. A menu without a prompt is not visible. -/
def Entry.item (visible : Entry σ → Bool) (text : ℕ → Text) (e : Entry σ) : Item σ :=
  match e.sym with
  | some s => .symbol s
  | none => .menu (visible e) (text e.self)

variable [DecidableEq σ]

/-- `conf_write` for a tree of menus, from the list of the root on. -/
def confWriteMenus (T : SymbolTable σ) (C : Current σ) (visible : Entry σ → Bool) (text : ℕ → Text) (title : Text)
    (n : ℕ) (root : Entry σ) (list : Menu σ) : Option Text :=
  ((Menu.entry root list .nil).walk n list).map fun es => confWrite T C title (es.map (Entry.item visible text))

variable {K : Symbols σ} {T : SymbolTable σ} {C : Current σ} {visible : Entry σ → Bool} {text : ℕ → Text} {title : Text}

omit [DecidableEq σ] in
theorem item_eq_symbol {e : Entry σ} {s : σ} : e.item visible text = .symbol s ↔ e.sym = some s := by
  rw [Entry.item]
  cases e.sym <;> simp

omit [DecidableEq σ] in
theorem symbol_mem_items {es : List (Entry σ)} {s : σ} :
    .symbol s ∈ es.map (Entry.item visible text) ↔ some s ∈ es.map Entry.sym := by
  rw [List.mem_map, List.mem_map]
  exact exists_congr fun e => and_congr_right fun _ => item_eq_symbol

omit [DecidableEq σ] in
/-- The addresses and the symbols of the menus that `menu_finalize` has left are those of the files. -/
theorem maps_of_places {m m' : Menu σ} (h : m.places = m'.places) :
    m.entries.map Entry.self = m'.entries.map Entry.self ∧ m.entries.map Entry.sym = m'.entries.map Entry.sym := by
  have hself := congrArg (List.map Prod.fst) h
  have hsym := congrArg (List.map Prod.snd) h
  rw [Menu.places, Menu.places, List.map_map, List.map_map] at hself hsym
  exact ⟨hself, hsym⟩

omit [DecidableEq σ] in
/-- From the list of the root the walk comes to all entries. -/
theorem Menu.walk_eq {root : Entry σ} {list : Menu σ} {n : ℕ} (hself : (root.self :: list.entries.map Entry.self).Nodup)
    (hroot : root.parent = none) (hlist : list.ParentIs (some root.self)) (hn : 2 * list.entries.length + 1 < n) :
    (entry root list nil).walk n list = some list.entries := by
  have hnodup : ((entry root list nil).entries.map Entry.self).Nodup := by
    rw [entries, entries, List.append_nil]
    exact hself
  have habove : Above (entry root list nil) (some root.self) [nil] := by
    refine .step (.refl _) trivial ?_
    rw [hroot]
    exact .top
  have hwalk := habove.walk hnodup (Inside.refl (entry root list nil)).pointers.1 hlist (fun _ => rfl) hn
  rw [hwalk]
  exact congrArg some (List.append_nil _)

variable (visible text title) in
/-- However `menu_finalize` arranges the menus, `conf_write` writes all of them, and `conf_read_simple` reads
the values of their symbols. -/
theorem confReadSimple_menus (root : Entry σ) (list : Menu σ) {n k : ℕ} (hn : list.entries.length < n)
    (hk : 2 * list.entries.length + 1 < k) (hself : (root.self :: list.entries.map Entry.self).Nodup)
    (hroot : root.parent = none) (hlist : list.ParentIs (some root.self))
    (htitle : ∀ l ∈ lines (headingText title), Remark T l)
    (htext : ∀ self, '\n' ∉ text self ∧ Remark T (text self))
    (hsymbol : ∀ s, some s ∈ list.entries.map Entry.sym → T.isChoice s = false → C.writes s = true →
      Storable T C s) :
    ∃ x file, Menu.finalizeN K n [] root list .nil = some x ∧
      confWriteMenus T C visible text title k root x.list = some file ∧
      ∀ s, T.isChoice s = false → confReadSimple T file s =
        if some s ∈ list.entries.map Entry.sym ∧ C.writes s = true ∧ ¬ Untyped T s then
          if T.type s = .boolean ∨ T.type s = .tristate then ⟨C.written s, none, none, true⟩
          else ⟨.no, some (C.val s), none, true⟩
        else ⟨.no, none, none, false⟩ := by
  obtain ⟨x, hfinalize, -, hplaces, hparents, -⟩ := menuFinalize_spec (K := K) root list hn
  obtain ⟨hselfs, hsyms⟩ := maps_of_places hplaces
  have hlength : x.list.entries.length = list.entries.length := by
    have hmap := congrArg List.length hselfs
    rwa [List.length_map, List.length_map] at hmap
  have hwalk := Menu.walk_eq (n := k) (by rw [hselfs]; exact hself) hroot (hparents hlist) (by rw [hlength]; exact hk)
  refine ⟨x, _, hfinalize, by rw [confWriteMenus, hwalk]; rfl, fun s hs => ?_⟩
  have hitems : ∀ s, .symbol s ∈ x.list.entries.map (Entry.item visible text) ↔
      some s ∈ list.entries.map Entry.sym := by
    intro s
    rw [symbol_mem_items, hsyms]
  have hwritable : Writable T C title (x.list.entries.map (Entry.item visible text)) := by
    refine ⟨htitle, fun v p hmem => ?_, fun s hmem => hsymbol s ((hitems s).mp hmem)⟩
    obtain ⟨e, -, he⟩ := List.mem_map.mp hmem
    rw [Entry.item] at he
    split at he
    · cases he
    · obtain ⟨-, rfl⟩ := Item.menu.inj he
      exact htext e.self
  rw [confReadSimple_spec hwritable s hs]
  simp only [hitems s]

/-- A boolean symbol, a menu with the string, and the choice with its value in a menu without a prompt. -/
def writtenMenus : Menu ℕ :=
  .entry (sampleEntry 1 (some 0) (some 0) none) .nil
    (.entry (sampleEntry 2 (some 0) none none) (.entry (sampleEntry 3 (some 2) (some 1) none) .nil .nil)
      (.entry { sampleEntry 4 (some 0) (some 2) none with isChoice := true }
        (.entry { sampleEntry 5 (some 4) none none with prompt := none }
          (.entry (sampleEntry 6 (some 5) (some 3) none) .nil .nil) .nil) .nil))

theorem confReadSimple_menus_string :
    ∃ x file, Menu.finalizeN sampleSymbols 7 [] (sampleEntry 0 none none none) writtenMenus .nil = some x ∧
      confWriteMenus sampleTable sampleCurrent (fun _ => true) (fun _ => ['M']) ['T'] 14 (sampleEntry 0 none none none)
        x.list = some file ∧
      confReadSimple sampleTable file 1 = ⟨.no, some ['a', '"', '\\'], none, true⟩ := by
  have hsyms : writtenMenus.entries.map Entry.sym = [some 0, none, some 1, some 2, none, some 3] := by decide
  have hlist : writtenMenus.ParentIs (some 0) :=
    ⟨rfl, trivial, rfl, ⟨rfl, trivial, trivial⟩, rfl, ⟨rfl, ⟨rfl, trivial, trivial⟩, trivial⟩, trivial⟩
  obtain ⟨x, file, hfinalize, hwrite, hread⟩ := confReadSimple_menus (K := sampleSymbols) (T := sampleTable)
    (C := sampleCurrent) (n := 7) (k := 14) (fun _ => true) (fun _ => ['M']) ['T'] (sampleEntry 0 none none none)
    writtenMenus (by decide) (by decide) (by decide) rfl hlist (by decide) (fun _ => by decide)
    fun s hmem hs _ => by
      refine writable_sample.symbol s ?_ hs rfl
      rw [hsyms] at hmem
      simp only [List.mem_cons, Option.some.injEq, List.not_mem_nil, or_false, reduceCtorEq, false_or] at hmem
      rcases hmem with rfl | rfl | rfl | rfl <;> decide
  exact ⟨x, file, hfinalize, hwrite, (hread 1 rfl).trans (by decide)⟩

end CargosBuildroot.Kconfig
