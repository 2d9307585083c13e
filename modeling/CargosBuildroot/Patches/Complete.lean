import CargosBuildroot.Patches.Selected

/-! A run of `apply-patches.sh` that ends without an error and whose steps are sound has applied
every selected patch. The invariant goes through the directories of the tree: a directory
that is being scanned stays as it is, since an archive in it has another name. -/

namespace CargosBuildroot.Patches

open Shell

variable {env : Env}

/-! ### Words -/

theorem Env.PlainWord.words {w : Text} (h : env.PlainWord w) : words w = [w] := words_of_word h.1 h.2.1

/-- Plain words stay as they are. -/
theorem flatMap_expand {ws : List Text} (h : ∀ w ∈ ws, env.PlainWord w) :
    ws.flatMap env.expand = ws := by
  induction ws with
  | nil => rfl
  | cons w ws ih =>
    rw [List.forall_mem_cons] at h
    rw [List.flatMap_cons, h.1.2.2, ih h.2, List.singleton_append]

theorem fields_plain {names : List Text} (h : ∀ n ∈ names, env.PlainWord n) :
    env.fields names = names := by
  induction names with
  | nil => rfl
  | cons n names ih =>
    rw [List.forall_mem_cons] at h
    rw [Env.fields] at ih ⊢
    rw [List.flatMap_cons, ih h.2, h.1.words, flatMap_expand (by simpa using h.1), List.singleton_append]

theorem seriesPatches_eq {series : Node} (h : env.SeriesSound series) :
    env.seriesPatches series = seriesNames series := by
  have hplain := h.plain
  have hfields := h.fields
  unfold Env.seriesPatches seriesNames Env.fields
  unfold seriesNames at hplain
  generalize seriesLines (series.output .cat).2 = ls at hplain hfields ⊢
  induction ls with
  | nil => rfl
  | cons line ls ih =>
    rw [List.forall_mem_cons] at hfields
    rw [List.flatMap_cons, List.forall_mem_append] at hplain
    rw [List.map_cons, List.flatMap_cons, List.flatMap_cons, ih hplain.2 hfields.2, hfields.1,
      flatMap_expand hplain.1]

theorem components_plain {n : Text} (h : env.PlainName n) : components n = [n] := by
  rw [components, List.splitOn_eq_singleton h.2.1]
  simp [h.1.1, h.2.2.2]

/-! ### Directories -/

/-- The directory has the entries `es`, and an archive of `active` around it if any. -/
structure Located (env : Env) (active : List Text) (es : Entries) (st : State) (d : Dir) : Prop where
  active : ∀ a, d.root = .unpacked a → a ∈ active
  entries : env.entriesAt st d = some es

section

variable {active : List Text} {es : Entries} {st st' : State} {d d' : Dir}

/-- A directory other than the root is the same with its whole path. -/
theorem absolute_eq (hne : d.text ≠ []) (hroot : d.text ≠ ['/']) :
    (env.absolute d).root = d.root ∧ (env.absolute d).rel = d.rel := by
  set text := if d.text.getLast? = some '/' then d.text.dropLast else d.text with htext
  have hnil : text ≠ [] := by
    rw [htext]
    split
    next hlast =>
      intro hnil
      have hslash := List.dropLast_append_getLast? '/' hlast
      rw [hnil] at hslash
      exact hroot hslash.symm
    next => exact hne
  have habsolute : env.absolute d =
      if text.head? = some '/' then { d with text := text }
      else { d with text := env.pwd ++ '/' :: text } := if_neg hnil
  rw [habsolute]
  split <;> exact ⟨rfl, rfl⟩

theorem Located.absolute (hne : d.text ≠ []) (hroot : d.text ≠ ['/']) (h : Located env active es st d) :
    Located env active es st (env.absolute d) := by
  obtain ⟨hroot, hrel⟩ := @absolute_eq env d hne hroot
  refine ⟨fun a ha => h.active a (hroot ▸ ha), ?_⟩
  rw [Env.entriesAt, hroot, hrel]
  exact h.entries

theorem Located.nodeAt (h : Located env active es st d) (name : Text) :
    env.nodeAt st d name = es.find (components name) := by
  rw [Env.nodeAt, h.entries, Option.bind_some]

/-- The directory stays as it is when the directories of the active archives do. -/
theorem Located.of_unpacked (h : Located env active es st d)
    (hst : ∀ a ∈ active, st'.unpacked a = st.unpacked a) : Located env active es st' d := by
  refine ⟨h.active, ?_⟩
  have hentries := h.entries
  rw [Env.entriesAt] at hentries ⊢
  cases hroot : d.root with
  | patchdir => rw [hroot] at hentries; exact hentries
  | cwd => rw [hroot] at hentries; exact hentries
  | unpacked a =>
    rw [hroot, Env.entries] at hentries
    rw [Env.entries, hst a (h.active a hroot)]
    exact hentries

/-! ### One patch -/

/-- What holds after every patch. -/
structure Good (st : State) : Prop where
  complete : ∀ p ∈ st.applied, p.ok = true
  unpacked : ∀ a ∈ st.archives, a.2 = true
  once : (st.applied.map Applied.name).Nodup
  recorded : ∀ p ∈ st.applied, ∃ t, t ++ '/' :: p.name ∈ st.list.lines

/-- What is fed to `patch`, by name. -/
def fed (st : State) : List (Text × Text) := st.applied.map fun p => (p.name, p.text)

/-- A part of the run applies the patches `sel`, at least and in this order, and leaves the
directories of the active archives as they are. -/
structure Extends (active : List Text) (sel : List (Text × Text)) (st st' : State) : Prop where
  good : Good st'
  unpacked : ∀ a ∈ active, st'.unpacked a = st.unpacked a
  fed : ∃ all, fed st' = fed st ++ all ∧ sel.Sublist all

theorem Extends.refl (h : Good st) : Extends active [] st st :=
  ⟨h, fun _ _ => rfl, [], (List.append_nil _).symm, .slnil⟩

theorem Extends.trans {sel sel' : List (Text × Text)} {st'' : State}
    (h : Extends active sel st st') (h' : Extends active sel' st' st'') :
    Extends active (sel ++ sel') st st'' where
  good := h'.good
  unpacked a ha := (h'.unpacked a ha).trans (h.unpacked a ha)
  fed := by
    obtain ⟨all, hall, hsel⟩ := h.fed
    obtain ⟨all', hall', hsel'⟩ := h'.fed
    exact ⟨all ++ all', by rw [hall', hall, List.append_assoc], hsel.append hsel'⟩

/-- The line of a patch is found by its own name. -/
theorem isListed_self {patch : Text} (h : NoRegex patch) (t : Text) :
    env.isListed patch (t ++ '/' :: patch) = true := by
  have hliteral : ∀ c ∈ '/' :: patch, Ere.isLiteral c = true := List.forall_mem_cons.mpr ⟨rfl, h⟩
  rw [Env.isListed, Ere.parse_literal hliteral, Ere.finds_iff, Ere.finds_literal]
  exact ⟨t, _, rfl, List.forall₂_same.mpr fun _ _ => .inr rfl⟩

/-- What a patch of a directory gives with a decompressor. -/
def patchText (es : Entries) (patch : Text) : Option Uncomp → List (Text × Text)
  | none => []
  | some uncomp =>
    match es.find (components patch) with
    | some node => [(patch, (node.output uncomp).2)]
    | none => []

/-- The patch is recorded and was not recorded before. -/
theorem good_append (h : Good st) (patch t text : Text) (hnew : st.list.lines.any (env.isListed patch) ≠ true)
    (honce : NoRegex patch ∨ patch ∉ st.applied.map Applied.name) :
    Good { st with
      list := st.list.add t patch, applied := st.applied ++ [⟨patch, text, true⟩] } where
  complete p hmem := by
    rcases List.mem_append.mp hmem with hmem | hmem
    · exact h.complete p hmem
    · rw [List.mem_singleton.mp hmem]
  unpacked := h.unpacked
  once := by
    have hnone : patch ∉ st.applied.map Applied.name := by
      refine honce.elim (fun hname hmem => ?_) id
      obtain ⟨p, hp, rfl⟩ := List.mem_map.mp hmem
      obtain ⟨t', ht'⟩ := h.recorded p hp
      exact hnew (List.any_eq_true.mpr ⟨_, ht', isListed_self hname t'⟩)
    rw [List.map_append, List.map_singleton]
    exact h.once.append (List.nodup_singleton _) (List.disjoint_singleton.mpr hnone)
  recorded p hmem := by
    rcases List.mem_append.mp hmem with hmem | hmem
    · obtain ⟨t', ht'⟩ := h.recorded p hmem
      exact ⟨t', List.mem_append_left _ ht'⟩
    · rw [List.mem_singleton.mp hmem]
      exact ⟨t, List.mem_append_right _ (.head _)⟩

theorem applyPatch_extends {patch : Text} {series : Bool} (hg : Good st) (hl : Located env active es st d)
    (hsound : env.PatchSound st d patch series) (h : env.applyPatch st d patch series = .ok (st', d')) :
    Located env active es st' d' ∧
      Extends active (patchText es patch (if series then some .cat else uncompOf patch)) st st' := by
  obtain ⟨hne, hroot, hread⟩ := hsound
  have hl' := hl.absolute hne hroot
  rw [Env.applyPatch] at h
  dsimp only at h
  rw [hl'.nodeAt] at h
  rw [hl.nodeAt] at hread
  cases huncomp : if series then some .cat else uncompOf patch with
  | none =>
    rw [huncomp] at h
    cases h
    exact ⟨hl', .refl hg⟩
  | some uncomp =>
    rw [huncomp] at h
    dsimp only at h
    split at h
    · cases h
    next node hnode =>
      split at h
      · cases h
      next hnew =>
        split at h
        next =>
          cases h
          obtain ⟨hok, honce⟩ := (hread uncomp huncomp node hnode).resolve_left hnew
          refine ⟨hl'.of_unpacked fun _ _ => rfl, ?_, fun _ _ => rfl, [(patch, (node.output uncomp).2)], ?_, ?_⟩
          · rw [hok]
            exact good_append hg _ _ _ hnew honce
          · rw [fed, fed, List.map_append]
            rfl
          · rw [patchText, hnode]
        next => cases h

/-! ### A directory -/

/-- A loop with sound rounds applies what its rounds apply. -/
theorem each_extends {body : Text → State → Dir → Except Stop (State × Dir)}
    {sound : Text → State → Dir → Prop} {sel : Text → List (Text × Text)} {ws : List Text}
    (hbody : ∀ i ∈ ws, ∀ st d st' d', Good st → Located env active es st d → sound i st d →
      body i st d = .ok (st', d') → Located env active es st' d' ∧ Extends active (sel i) st st')
    (hg : Good st) (hl : Located env active es st d) (hsound : Env.EachSound body sound ws st d)
    (h : Env.each body ws st d = .ok (st', d')) : Extends active (ws.flatMap sel) st st' := by
  induction ws generalizing st d with
  | nil =>
    cases h
    exact .refl hg
  | cons i ws ih =>
    obtain ⟨hi, hrest⟩ := hsound
    rw [Env.each] at h
    split at h
    · cases h
    next st₁ d₁ h₁ =>
      rw [h₁] at hrest
      obtain ⟨hl₁, he⟩ := hbody i (.head _) st d st₁ d₁ hg hl hi h₁
      exact he.trans (ih (fun j hj => hbody j (.tail _ hj)) he.good hl₁ hrest h)

theorem lookup_selections (archive : Text → Bool) (es : Entries) (n : Text) :
    (es.selections archive).lookup n = (es.get n).map (Node.selected archive n) := by
  induction es using Entries.entry_induction with
  | nil => rfl
  | cons name node rest ih =>
    rw [Entries.selections, Entries.get, List.lookup_cons]
    by_cases heq : name = n
    · subst heq
      simp
    · have hne : (n == name) = false := by simpa using fun h => heq h.symm
      rw [hne, if_neg heq]
      exact ih

/-- The names that the loop over a directory goes through. -/
theorem listing_eq {patterns : List (Text → Bool)} (hl : Located env active es st d)
    (hsound : env.ListingSound st d patterns) :
    env.listing st d patterns = sortNames (patterns.flatMap es.names.filter) ∧
      ∀ i ∈ sortNames (patterns.flatMap es.names.filter), env.PlainName i ∧ ∃ node, es.get i = some node := by
  obtain ⟨hreached, hnames⟩ := hsound
  rw [hl.entries, Option.getD_some] at hnames
  have hplain : ∀ n ∈ sortNames (patterns.flatMap es.names.filter), env.PlainName n := fun n hn =>
    hnames n ((List.mem_insertionSort _).mp hn)
  have hdash : (patterns.flatMap es.names.filter).any (·.head? = some '-') = false := by
    rw [List.any_eq_false]
    intro n hn
    rw [decide_eq_true_iff]
    exact (hnames n hn).2.2.1
  refine ⟨?_, fun i hi => ⟨hplain i hi, ?_⟩⟩
  · rw [Env.listing, if_pos hreached, hl.entries, Option.getD_some, Env.ls, hdash, if_neg Bool.false_ne_true,
      fields_plain fun n hn => (hplain n hn).1]
  · obtain ⟨p, -, hi⟩ := List.mem_flatMap.mp ((List.mem_insertionSort _).mp hi)
    exact Entries.get_of_mem_names (List.mem_filter.mp hi).1

/-! ### The scan -/

theorem located_enter {es' : Entries} {i : Text} (hl : Located env active es st d) (hi : env.PlainName i)
    (hnode : es.get i = some (.dir es')) : Located env active es' st (Env.enter d i) where
  active := hl.active
  entries := by
    have hentries := hl.entries
    rw [Env.entriesAt] at hentries ⊢
    obtain ⟨es₀, hroot, hsub⟩ := Option.bind_eq_some_iff.mp hentries
    rw [Env.enter, hroot, Option.bind_some, Entries.sub_append, hsub, Option.bind_some,
      components_plain hi, Entries.sub, hnode]
    rfl

theorem located_unpacked {i : Text} (hst : st.unpacked i = some es) :
    Located env (i :: active) es st (env.unpackedDir i) where
  active a ha := by
    cases ha
    exact .head _
  entries := by
    rw [Env.entriesAt, Env.unpackedDir, Env.entries, hst]
    rfl

/-- The state in which an archive that is not around the directory is scanned. -/
theorem unpack_eq {i : Text} {output : Uncomp → Bool × Text} {tarOk : Bool} {unpacked : Entries}
    (hl : Located env active es st d) (hi : env.PlainName i) (hnew : i ∉ active)
    (hnode : es.get i = some (.file output tarOk unpacked)) :
    env.unpack st d i =
      { st with
        unpacked := Function.update st.unpacked i (some unpacked)
        archives := st.archives ++ [(i, tarOk)] } := by
  have hl' : Located env active es
      { st with unpacked := Function.update st.unpacked i (some .nil) } d := by
    apply hl.of_unpacked
    intro a ha
    have hne : a ≠ i := by
      rintro rfl
      exact hnew ha
    exact Function.update_of_ne hne _ _
  have hfind : es.find (components i) = some (.file output tarOk unpacked) := by
    rw [components_plain hi]
    exact hnode
  rw [Env.unpack]
  dsimp only
  rw [hl'.nodeAt, hfind]
  dsimp only
  rw [Function.update_idem]

theorem exists_of_map_fst {x : Except Stop (State × Dir)} (h : x.map Prod.fst = .ok st) :
    ∃ d, x = .ok (st, d) := by
  cases x with
  | error => cases h
  | ok r =>
    cases h
    exact ⟨r.2, rfl⟩

theorem eq_of_map_mk {x : Except Stop State} (h : x.map (·, d) = .ok (st, d')) : x = .ok st ∧ d' = d := by
  cases x with
  | error => cases h
  | ok st' =>
    cases h
    exact ⟨rfl, rfl⟩

end

/-- A sound scan with a depth applies the patches of its directory. -/
def ScanExtends (env : Env) (n : ℕ) : Prop :=
  ∀ active es st st' d patterns, Good st → Located env active es st d →
    env.ScanSound n active d patterns st → env.scanPatchdir n d patterns st = .ok st' →
    Extends active (dirSelected es (sortNames (patterns.flatMap es.names.filter))
      (es.selections documentedArchive)) st st'

section

variable {n : ℕ} {active : List Text} {es : Entries} {st st' : State} {d d' : Dir} {i : Text}

theorem scan_visible (hscan : ScanExtends env n) (hg : Good st) (hl : Located env active es st d)
    (hsound : env.ScanSound n active d [visible] st) (h : env.scanPatchdir n d [visible] st = .ok st') :
    Extends active (dirSelected es es.listed (es.selections documentedArchive)) st st' := by
  have hext := hscan active es st st' d [visible] hg hl hsound h
  rwa [List.flatMap_singleton] at hext

/-- A file that is an archive. -/
theorem archive_extends (hscan : ScanExtends env n) {output : Uncomp → Bool × Text} {tarOk : Bool}
    {unpacked : Entries} (hg : Good st) (hl : Located env active es st d) (hi : env.PlainName i)
    (hnode : es.get i = some (.file output tarOk unpacked)) (hsound : env.ArchiveSound active st d i)
    (hscanned : env.ScanSound n (i :: active) (env.unpackedDir i) [visible] (env.unpack st d i))
    (h : env.scanPatchdir n (env.unpackedDir i) [visible] (env.unpack st d i) = .ok st') :
    Extends active (dirSelected unpacked unpacked.listed (unpacked.selections documentedArchive)) st st' := by
  have hunpack := unpack_eq hl hi hsound.around hnode
  rw [hunpack] at hscanned h
  have hat : env.nodeAt st d i = some (.file output tarOk unpacked) := by
    rw [hl.nodeAt, components_plain hi]
    exact hnode
  have htar : tarOk = true := hsound.tar _ hat
  have hg' : ∀ a ∈ st.archives ++ [(i, tarOk)], a.2 = true :=
    List.forall_mem_append.mpr ⟨hg.unpacked, List.forall_mem_singleton.mpr htar⟩
  set st₁ : State := { st with
    unpacked := Function.update st.unpacked i (some unpacked), archives := st.archives ++ [(i, tarOk)] }
  have hgood : Good st₁ := ⟨hg.complete, hg', hg.once, hg.recorded⟩
  have hself : st₁.unpacked i = some unpacked := Function.update_self i _ st.unpacked
  have hext := scan_visible hscan hgood (located_unpacked hself) hscanned h
  refine ⟨hext.good, fun a ha => ?_, hext.fed⟩
  have hne : a ≠ i := by
    rintro rfl
    exact hsound.around ha
  rw [hext.unpacked a (.tail _ ha)]
  exact Function.update_of_ne hne _ _

theorem isArchive_of_documented {name : Text} (h : documentedArchive name = true) :
    isArchive name = true := by
  simp only [documentedArchive, Bool.or_eq_true] at h
  simp only [isArchive, Bool.or_eq_true]
  tauto

/-- What an archive of the script stands for by the header's rules. -/
theorem archive_selected {output : Uncomp → Bool × Text} {tarOk : Bool} {unpacked : Entries}
    (h : documentedArchive i = true ∨ uncompOf i = none) :
    ((Node.file output tarOk unpacked).selected documentedArchive i).Sublist
      (dirSelected unpacked unpacked.listed (unpacked.selections documentedArchive)) := by
  rw [Node.selected]
  split
  next => exact List.Sublist.refl _
  next hnot =>
    rw [h.resolve_left hnot]
    exact List.nil_sublist _

theorem Extends.of_sublist {sel sel' : List (Text × Text)} (h : Extends active sel st st')
    (hsub : sel'.Sublist sel) : Extends active sel' st st' := by
  obtain ⟨all, hall, hsel⟩ := h.fed
  exact ⟨h.good, h.unpacked, all, hall, hsub.trans hsel⟩

/-- An entry of a listing. -/
theorem entry_extends (hscan : ScanExtends env n) {node : Node} (hg : Good st)
    (hl : Located env active es st d) (hi : env.PlainName i) (hnode : es.get i = some node)
    (hsound : env.EntrySound (fun active d st => env.ScanSound n active d [visible] st) active i st d)
    (h : env.scanEntry (fun d st => env.scanPatchdir n d [visible] st) i st d = .ok (st', d')) :
    Located env active es st' d' ∧ Extends active (node.selected documentedArchive i) st st' := by
  have hfind : es.find (components i) = some node := by
    rw [components_plain hi]
    exact hnode
  have hat := (hl.nodeAt i).trans hfind
  rw [Env.scanEntry, hat] at h
  rw [Env.EntrySound, hat] at hsound
  cases node with
  | dir es' =>
    obtain ⟨h, rfl⟩ := eq_of_map_mk h
    have hext := scan_visible hscan hg (located_enter hl hi hnode) hsound h
    rw [Node.selected]
    exact ⟨hl.of_unpacked hext.unpacked, hext⟩
  | file output tarOk unpacked =>
    dsimp only at h hsound
    by_cases harchive : isArchive i = true
    · rw [if_pos harchive] at h hsound
      obtain ⟨hsound, hrest⟩ := hsound
      obtain ⟨h, rfl⟩ := eq_of_map_mk h
      have hext := archive_extends hscan hg hl hi hnode hsound hrest h
      exact ⟨hl.of_unpacked hext.unpacked, hext.of_sublist (archive_selected hsound.documented)⟩
    · rw [if_neg harchive] at h hsound
      have hext := applyPatch_extends hg hl hsound h
      rw [if_neg Bool.false_ne_true] at hext
      rw [Node.selected, if_neg fun h => harchive (isArchive_of_documented h)]
      cases huncomp : uncompOf i with
      | none =>
        rw [huncomp] at hext
        exact hext
      | some uncomp =>
        rw [huncomp, patchText, hfind] at hext
        exact hext

theorem scan_extends (env : Env) (n : ℕ) : ScanExtends env n := by
  induction n with
  | zero => intro _ _ _ _ _ _ _ _ _ h; cases h
  | succ n ih =>
    intro active es st st' d patterns hg hl hsound h
    rw [Env.scanPatchdir, hl.nodeAt] at h
    rw [Env.ScanSound, hl.nodeAt] at hsound
    unfold dirSelected
    cases hseries : es.find (components "series".toList) with
    | some series =>
      rw [hseries] at h hsound
      dsimp only at h hsound ⊢
      obtain ⟨hseries, hsound⟩ := hsound
      obtain ⟨d', h⟩ := exists_of_map_fst h
      rw [seriesPatches_eq hseries] at h hsound
      refine each_extends (fun i _ st d st' d' hg hl hsound h => ?_) hg hl hsound h
      exact applyPatch_extends hg hl hsound h
    | none =>
      rw [hseries] at h hsound
      dsimp only at h hsound ⊢
      obtain ⟨hlisting, hsound⟩ := hsound
      obtain ⟨d', h⟩ := exists_of_map_fst h
      obtain ⟨hnames, hplain⟩ := listing_eq hl hlisting
      rw [hnames] at h hsound
      refine each_extends (fun i hi st d st' d' hg hl hsound h => ?_) hg hl hsound h
      obtain ⟨hi, node, hnode⟩ := hplain i hi
      rw [lookup_selections, hnode, Option.map_some, Option.getD_some]
      exact entry_extends ih hg hl hi hnode hsound h

end

end CargosBuildroot.Patches
