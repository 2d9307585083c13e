import CargosBuildroot.Bootstrap.Assigned
import CargosBuildroot.Shell.Sections

/-! Documents of `#cloud-config`, made of sections with a key at the start of a line and an
indented body, and the lines of a body that the programs of `rc.bootstrap` reach. -/

namespace CargosBuildroot.Bootstrap

open Shell

/-- An empty line or one that begins with white space. -/
def Indented (l : Text) : Prop := ∀ c ∈ l.head?, isSpaceClass c = true

instance (l : Text) : Decidable (Indented l) :=
  decidable_of_iff (l.head?.all isSpaceClass = true) (by cases l <;> simp [Indented])

theorem not_wordChar_of_space {c : Char} (h : isSpaceClass c = true) :
    (c.isAlphanum || c = '_') = false := by
  simp only [isSpaceClass, isSpace, Bool.or_eq_true, decide_eq_true_eq] at h
  rcases h with (((((rfl | rfl) | rfl) | rfl) | rfl) | rfl) <;> rfl

/-- The keys of the sections that hold a list. -/
def listKeys : List Text := ["bootcmd".toList, "runcmd".toList, "groups".toList]

structure Section where
  key : Text
  value : Text
  body : List Text
  key_ne_nil : key ≠ []
  key_chars : ∀ c ∈ key, keyChar c = true
  value_space : ∀ c ∈ value.head?, c = ' '
  value_list : key ∈ listKeys → value = []
  indented : ∀ l ∈ body, Indented l

theorem value_space_nil : ∀ c ∈ ([] : Text).head?, c = ' ' := nofun

def Section.header (s : Section) : Text := s.key ++ ':' :: s.value

def documentLines (doc : List Section) : List Text :=
  "#cloud-config".toList :: doc.flatMap fun s => s.header :: s.body

variable {β : Type} (own : Text) (parse : Text → β) (nothing : β)

/-- The lines of a section, with what the lines of the body stand for if its key is `own`. -/
def Section.rows (s : Section) : List (Text × β) :=
  (s.header, nothing) :: s.body.map fun l => (l, if s.key = own then parse l else nothing)

def documentRows (doc : List Section) : List (Text × β) :=
  ("#cloud-config".toList, nothing) :: doc.flatMap (Section.rows own parse nothing)

theorem documentRows_fst (doc : List Section) :
    (documentRows own parse nothing doc).map Prod.fst = documentLines doc := by
  rw [documentRows, documentLines, List.map_cons, List.map_flatMap]
  congr 1
  refine List.flatMap_congr fun s _ => ?_
  rw [Section.rows, List.map_cons, List.map_map]
  exact congrArg _ (List.map_id _)

/-- A line that stands for something is a line of the section. -/
theorem eq_parse_of_mem {doc : List Section} {row : Text × β} (h : row ∈ documentRows own parse nothing doc)
    (hrow : row.2 ≠ nothing) : row.2 = parse row.1 := by
  rw [documentRows] at h
  rcases List.mem_cons.mp h with rfl | h
  · exact absurd rfl hrow
  · obtain ⟨s, -, hs⟩ := List.mem_flatMap.mp h
    rcases List.mem_cons.mp hs with rfl | hs
    · exact absurd rfl hrow
    · obtain ⟨l, -, rfl⟩ := List.mem_map.mp hs
      by_cases hkey : s.key = own
      · exact if_pos hkey
      · exact absurd (if_neg hkey) hrow

theorem exists_of_flatMap_eq {α γ : Type} {f : α → List γ} {l : List α} {a b : List γ} {x : γ}
    (h : l.flatMap f = a ++ x :: b) :
    ∃ l₁ y l₂ a' b', l = l₁ ++ y :: l₂ ∧ f y = a' ++ x :: b' ∧ a = l₁.flatMap f ++ a' := by
  induction l generalizing a with
  | nil => exact absurd h.symm (List.append_ne_nil_of_right_ne_nil a (List.cons_ne_nil x b))
  | cons y l ih =>
    rw [List.flatMap_cons] at h
    rcases List.append_eq_append_iff.mp h with ⟨c, rfl, hl⟩ | ⟨c, hy, hxb⟩
    · obtain ⟨l₁, z, l₂, a', b', rfl, hz, rfl⟩ := ih hl
      exact ⟨y :: l₁, z, l₂, a', b', rfl, hz, by simp⟩
    · rcases c with _ | ⟨x', c⟩
      · obtain ⟨l₁, z, l₂, a', b', rfl, hz, ha⟩ := ih (a := []) hxb.symm
        refine ⟨y :: l₁, z, l₂, a', b', rfl, hz, ?_⟩
        rw [List.flatMap_cons, List.append_assoc, ← ha, hy, List.append_nil, List.append_nil]
      · obtain ⟨rfl, rfl⟩ := List.cons.inj hxb
        exact ⟨[], y, l, a, c, rfl, hy, rfl⟩

/-- A line that stands for something comes in the body of its section, which is open then. -/
theorem opened_of_row {w : Switch Text} (hskips : w.skips (own ++ [':']) = false)
    (hsets : w.sets (own ++ [':']) = true) (hlist : own ∈ listKeys)
    (hclears : ∀ l, Indented l → w.clears l = false) {doc : List Section}
    {before after : List (Text × β)} {row : Text × β}
    (h : documentRows own parse nothing doc = before ++ row :: after) (hrow : row.2 ≠ nothing) :
    w.Opened (before.map Prod.fst) := by
  rw [documentRows] at h
  rcases before with _ | ⟨first, before⟩
  · obtain ⟨rfl, _⟩ := List.cons.inj h
    exact absurd rfl hrow
  obtain ⟨rfl, hdoc⟩ := List.cons.inj h
  obtain ⟨l₁, s, l₂, a, b, rfl, hrows, rfl⟩ := exists_of_flatMap_eq hdoc
  rw [Section.rows] at hrows
  rcases a with _ | ⟨header, a⟩
  · obtain ⟨rfl, _⟩ := List.cons.inj hrows
    exact absurd rfl hrow
  obtain ⟨rfl, hbody⟩ := List.cons.inj hrows
  obtain ⟨ls, rest, hsplit, rfl, hrest⟩ := List.map_eq_append_iff.mp hbody
  obtain ⟨l, rest, rfl, rfl, rfl⟩ := List.map_eq_cons_iff.mp hrest
  have hown : s.key = own := by
    by_contra hne
    exact hrow (if_neg hne)
  have hheader : s.header = own ++ [':'] := by
    rw [Section.header, s.value_list (hown ▸ hlist), hown]
  refine ⟨"#cloud-config".toList :: (l₁.flatMap (Section.rows own parse nothing)).map Prod.fst,
    s.header, ls, ?_, ?_, ?_, fun m hm hclear => ?_⟩
  · have hfst :
        (ls.map fun l => (l, if s.key = own then parse l else nothing)).map Prod.fst = ls := by
      rw [List.map_map]
      exact List.map_id _
    rw [List.map_cons, List.map_append, List.map_cons, hfst]
    rfl
  · rw [hheader]
    exact hskips
  · rw [hheader]
    exact hsets
  · have hindented : Indented m := s.indented m (by rw [hsplit]; exact List.mem_append_left _ hm)
    rw [hclears m hindented] at hclear
    cases hclear

open Transition in
/-- A program that prints a section of the document and a loop over its lines do what is expected
exactly when every line is clean. -/
theorem outputs_document_iff {w : Switch Text} {α τ : Type} {edit : Text → α}
    {next : τ → Option α → τ × β} (hnone : ∀ t, (next t none).2 = nothing) (t : τ)
    (hskips : w.skips (own ++ [':']) = false) (hsets : w.sets (own ++ [':']) = true)
    (hlist : own ∈ listKeys) (hclears : ∀ l, Indented l → w.clears l = false) (doc : List Section) :
    outputs next t (outputs (w.print edit) false (documentLines doc)) =
        (documentRows own parse nothing doc).map Prod.snd ↔
      ∀ before row rest, documentRows own parse nothing doc = before ++ row :: rest →
        w.Clean nothing (fun l => (next (after next t (outputs (w.print edit) false
          (before.map Prod.fst))) (some (edit l))).2) (before.map Prod.fst) row.1 row.2 := by
  rw [← documentRows_fst own parse nothing doc]
  exact w.outputs_print_iff edit hnone t fun _ _ _ hrows hrow =>
    opened_of_row own parse nothing hskips hsets hlist hclears hrows hrow

end CargosBuildroot.Bootstrap
