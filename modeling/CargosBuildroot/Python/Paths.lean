import CargosBuildroot.Python.Strings

/-! The names of files under `os.path`, and where an absolute name leads when no link is
followed. A text that begins another name need not lead to a directory above it: it may end
inside a component. -/

namespace CargosBuildroot.Python

open Shell

/-! ### Normal form -/

/-- The loop of `normpath`, on one component and those before it. -/
def pushComponent (rooted : Bool) (comps : List Text) (comp : Text) : List Text :=
  if comp = [] ∨ comp = ".".toList then comps
  else if comp ≠ "..".toList ∨ (rooted = false ∧ comps = []) ∨
      comps.getLast? = some "..".toList then comps ++ [comp]
  else comps.dropLast

def components (rooted : Bool) (path : Text) : List Text :=
  (path.splitOn '/').foldl (pushComponent rooted) []

/-- Two slashes at the start are kept, three or more are one. -/
def initialSlashes (path : Text) : ℕ :=
  if "//".toList.isPrefixOf path && !"///".toList.isPrefixOf path then 2
  else if path.head? = some '/' then 1 else 0

/-- `os.path.normpath(path)` -/
def normpath (path : Text) : Text :=
  let slashes := initialSlashes path
  let out := List.replicate slashes '/' ++ ['/'].intercalate (components (slashes != 0) path)
  if out = [] then ".".toList else out

/-- `os.path.abspath(path)` -/
def abspath (cwd path : Text) : Text :=
  normpath (if path.head? = some '/' then path else join cwd path)

/-- The absolute name `p` leads to `a` or to a directory above it. -/
def Within (a p : Text) : Prop := components true p <+: components true a

instance (a p : Text) : Decidable (Within a p) := inferInstanceAs (Decidable (_ <+: _))

/-- `p` begins the name `a` and ends inside a component of it. -/
def EndsInside (a p : Text) : Prop :=
  ∃ c rest, a = p ++ c :: rest ∧ c ≠ '/' ∧ p.getLast? ≠ some '/'

/-- No component of the name is a dot or two. -/
def Dotless (path : Text) : Prop :=
  ∀ c ∈ path.splitOn '/', c ≠ ".".toList ∧ c ≠ "..".toList

theorem Dotless.of_slash {a b : Text} (h : Dotless (a ++ '/' :: b)) : Dotless a := by
  intro c hc
  apply h
  rw [List.splitOn_append_cons_self]
  exact List.mem_append_left _ hc

theorem pushComponent_dotless {comps : List Text} {comp : Text}
    (h : comp ≠ ".".toList ∧ comp ≠ "..".toList) :
    pushComponent true comps comp = comps ++ [comp].filter (· ≠ []) := by
  by_cases hc : comp = []
  · simp [pushComponent, hc]
  · rw [pushComponent, if_neg (not_or.mpr ⟨hc, h.1⟩), if_pos (Or.inl h.2)]
    simp [hc]

theorem foldl_pushComponent {cs comps : List Text}
    (h : ∀ c ∈ cs, c ≠ ".".toList ∧ c ≠ "..".toList) :
    cs.foldl (pushComponent true) comps = comps ++ cs.filter (· ≠ []) := by
  induction cs generalizing comps with
  | nil => simp
  | cons c cs ih =>
    rw [List.forall_mem_cons] at h
    rw [List.foldl_cons, pushComponent_dotless h.1, ih h.2, List.append_assoc,
      ← List.filter_append, List.singleton_append]

theorem components_of_dotless {path : Text} (h : Dotless path) :
    components true path = (path.splitOn '/').filter (· ≠ []) := by
  rw [components, foldl_pushComponent h, List.nil_append]

/-- A text that begins a name without dots either leads to a directory above it or ends
inside a component. -/
theorem within_or_endsInside {a p : Text} (ha : Dotless a) (h : p <+: a) :
    Within a p ∨ EndsInside a p := by
  -- a cut at a slash leaves the components on its left
  have hcut : ∀ u v : Text, a = u ++ '/' :: v → components true u <+: components true a := by
    rintro u v rfl
    rw [components_of_dotless ha, components_of_dotless ha.of_slash, List.splitOn_append_cons_self,
      List.filter_append]
    exact List.prefix_append _ _
  obtain ⟨rest, rfl⟩ := h
  rcases rest with _ | ⟨c, rest⟩
  · left
    rw [List.append_nil]
    exact List.prefix_refl _
  · by_cases hc : c = '/'
    · subst hc
      exact Or.inl (hcut p rest rfl)
    by_cases hp : p.getLast? = some '/'
    · left
      obtain ⟨u, rfl⟩ := List.getLast?_eq_some_iff.mp hp
      have hsplit := hcut u (c :: rest) (by simp)
      have hu : components true (u ++ ['/']) = components true u := by
        rw [components, List.splitOn_append_cons_self, List.foldl_append]
        rfl
      rwa [Within, hu]
    · exact Or.inr ⟨c, rest, rfl, hc, hp⟩

/-! ### Absolute names are normal -/

/-- What `normpath` keeps of an absolute name. -/
def PlainComponent (c : Text) : Prop :=
  c ≠ [] ∧ c ≠ ".".toList ∧ c ≠ "..".toList ∧ '/' ∉ c

theorem pushComponent_plain {comps : List Text} {comp : Text}
    (h : ∀ c ∈ comps, PlainComponent c) (hcomp : '/' ∉ comp) :
    ∀ c ∈ pushComponent true comps comp, PlainComponent c := by
  rw [pushComponent]
  split_ifs with hdot hkeep
  · exact h
  · rw [not_or] at hdot
    have hne : comp ≠ "..".toList := by
      rcases hkeep with hne | ⟨hfalse, _⟩ | hlast
      · exact hne
      · exact absurd hfalse (by decide)
      · exact absurd rfl (h _ (List.mem_of_getLast? hlast)).2.2.1
    intro c hc
    rcases List.mem_append.mp hc with hc | hc
    · exact h c hc
    · obtain rfl := List.mem_singleton.mp hc
      exact ⟨hdot.1, hdot.2, hne, hcomp⟩
  · exact fun c hc => h c (List.dropLast_subset _ hc)

theorem components_plain (path : Text) : ∀ c ∈ components true path, PlainComponent c := by
  have hslash : ∀ c ∈ path.splitOn '/', '/' ∉ c := fun c hc hx => (mem_piece hc hx).2 rfl
  have hfold : ∀ (cs comps : List Text), (∀ c ∈ comps, PlainComponent c) →
      (∀ c ∈ cs, '/' ∉ c) → ∀ c ∈ cs.foldl (pushComponent true) comps, PlainComponent c := by
    intro cs
    induction cs with
    | nil => exact fun comps h _ => h
    | cons d cs ih =>
      intro comps h hcs
      rw [List.forall_mem_cons] at hcs
      exact ih _ (pushComponent_plain h hcs.1) hcs.2
  exact hfold _ [] (by simp) hslash

theorem splitOn_intercalate_mem {cs : List Text} (h : ∀ c ∈ cs, '/' ∉ c) :
    ∀ c ∈ (['/'].intercalate cs).splitOn '/', c = [] ∨ c ∈ cs := by
  intro c hc
  by_cases hcs : cs = []
  · subst hcs
    exact Or.inl (List.mem_singleton.mp hc)
  · rw [List.splitOn_intercalate _ h hcs] at hc
    exact Or.inr hc

theorem dotless_slashes {n : ℕ} {path : Text} (h : Dotless path) :
    Dotless (List.replicate n '/' ++ path) := by
  induction n with
  | zero => exact h
  | succ n ih =>
    intro c hc
    rw [List.replicate_succ, List.cons_append, ← List.nil_append ('/' :: _),
      List.splitOn_append_cons_self, List.splitOn_nil] at hc
    rcases List.mem_cons.mp hc with rfl | hc
    · decide
    · exact ih c hc

theorem initialSlashes_ne_zero {path : Text} (h : path.head? = some '/') :
    initialSlashes path ≠ 0 := by
  rw [initialSlashes]
  split_ifs <;> omega

theorem normpath_dotless {path : Text} (h : path.head? = some '/') :
    Dotless (normpath path) := by
  have hslashes := initialSlashes_ne_zero h
  have hplain := components_plain path
  have hout : Dotless (List.replicate (initialSlashes path) '/' ++
      ['/'].intercalate (components true path)) := by
    apply dotless_slashes
    intro c hc
    rcases splitOn_intercalate_mem (fun c hc => (hplain c hc).2.2.2) c hc with rfl | hc
    · decide
    · exact ⟨(hplain c hc).2.1, (hplain c hc).2.2.1⟩
  have hne : List.replicate (initialSlashes path) '/' ++
      ['/'].intercalate (components true path) ≠ [] := by
    simp [hslashes]
  rw [normpath]
  simp only [bne_iff_ne.mpr hslashes]
  rwa [if_neg hne]

theorem join_absolute {cwd : Text} (h : cwd.head? = some '/') (path : Text) :
    (join cwd path).head? = some '/' := by
  cases cwd with
  | nil => simp at h
  | cons c cwd =>
    rw [join]
    split_ifs with hpath
    · exact hpath
    · simpa using h
    · simpa using h

theorem abspath_dotless {cwd : Text} (h : cwd.head? = some '/') (path : Text) :
    Dotless (abspath cwd path) := by
  rw [abspath]
  split_ifs with hpath
  · exact normpath_dotless hpath
  · exact normpath_dotless (join_absolute h path)

end CargosBuildroot.Python
