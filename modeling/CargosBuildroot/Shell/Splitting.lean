import CargosBuildroot.Shell.Echo

/-! Field splitting with any value of `IFS`, and which texts come out the same when their
fields are put together with blanks, as `eval $line` does. -/

namespace CargosBuildroot.Shell

/-- White space in `IFS`. -/
def ifsSpace (ifs : Text) (c : Char) : Bool := c ∈ ifs && isSpace c

/-- Any other character in `IFS`. -/
def ifsMark (ifs : Text) (c : Char) : Bool := c ∈ ifs && !isSpace c

def wordsOf (p : Char → Bool) (t : Text) : List Text := (t.splitOnP p).filter (· ≠ [])

/-- The fields of an unquoted expansion. Between two marks there is one at least, which may
be empty; behind the last one there may be none. -/
def splitIfs (ifs t : Text) : List Text :=
  let parts := (t.splitOnP (ifsMark ifs)).map (wordsOf (ifsSpace ifs))
  parts.dropLast.flatMap (fun ws => if ws = [] then [[]] else ws) ++ parts.getLastD []

def defaultIfs : Text := [' ', '\t', '\n']

/-- The characters of `IFS` in a text are single blanks, and what comes behind it is all in
`IFS`. -/
structure Unsplit (ifs t trail : Text) : Prop where
  marks : ∀ c ∈ t, c ∈ ifs → c = ' '
  trail : ∀ c ∈ trail, c ∈ ifs
  spaced : ' ' ∈ ifs → [] ∉ t.splitOn ' '

variable {ifs t trail w : Text} {p : Char → Bool}

theorem flatten_splitOnP (p : Char → Bool) (t : Text) : (t.splitOnP p).flatten = t.filter (!p ·) := by
  induction t with
  | nil => rfl
  | cons c t ih =>
    rw [List.splitOnP_cons_eq_if_modifyHead]
    by_cases hc : p c = true
    · rw [if_pos hc, List.flatten_cons, ih, List.nil_append, List.filter_cons_of_neg (by simpa using hc)]
    · obtain ⟨v, vs, hsplit⟩ := List.exists_cons_of_ne_nil (List.splitOnP_ne_nil p t)
      rw [hsplit, List.flatten_cons] at ih
      rw [if_neg hc, hsplit, List.modifyHead_cons, List.flatten_cons, List.cons_append, ih,
        List.filter_cons_of_pos (by simpa using hc)]

theorem flatten_wordsOf (p : Char → Bool) (t : Text) : (wordsOf p t).flatten = t.filter (!p ·) := by
  rw [wordsOf, ← flatten_splitOnP]
  exact List.flatten_filter_ne_nil

/-- An empty field between two marks adds nothing. -/
theorem flatten_parts (parts : List (List Text)) :
    (parts.dropLast.flatMap (fun ws => if ws = [] then [[]] else ws) ++ parts.getLastD []).flatten =
      (parts.map List.flatten).flatten := by
  induction parts with
  | nil => rfl
  | cons ws parts ih =>
    cases parts with
    | nil => simp
    | cons v parts =>
      have hempty : (if ws = [] then [[]] else ws).flatten = ws.flatten := by
        split
        next h => rw [h]; rfl
        next => rfl
      have hlast : (ws :: v :: parts).getLastD [] = (v :: parts).getLastD [] := by simp
      rw [List.dropLast_cons_cons, List.flatMap_cons, List.append_assoc, List.flatten_append, hlast, ih, hempty,
        List.map_cons (l := v :: parts), List.flatten_cons]

/-- The fields have the characters that are not in `IFS`. -/
theorem flatten_splitIfs (ifs t : Text) : (splitIfs ifs t).flatten = t.filter (· ∉ ifs) := by
  have hwords : List.flatten ∘ wordsOf (ifsSpace ifs) = List.filter (!ifsSpace ifs ·) :=
    funext fun t => flatten_wordsOf _ t
  rw [splitIfs, flatten_parts, List.map_map, hwords, ← List.filter_flatten, flatten_splitOnP, List.filter_filter]
  refine List.filter_congr fun c _ => ?_
  by_cases hc : c ∈ ifs <;> cases hs : isSpace c <;> simp [ifsSpace, ifsMark, hc, hs]

theorem not_mem_of_mem_splitIfs (hw : w ∈ splitIfs ifs t) : ∀ c ∈ w, c ∉ ifs := by
  intro c hc
  have hmem : c ∈ (splitIfs ifs t).flatten := List.mem_flatten.mpr ⟨w, hw, hc⟩
  rw [flatten_splitIfs] at hmem
  exact of_decide_eq_true (List.mem_filter.mp hmem).2

/-- Without marks the fields are the words between white space. -/
theorem splitIfs_of_space (h : ∀ c ∈ t, c ∈ ifs → isSpace c = true) : splitIfs ifs t = wordsOf (ifsSpace ifs) t := by
  have hmark : ∀ c ∈ t, ifsMark ifs c = false := by
    intro c hc
    by_cases hifs : c ∈ ifs
    · simp [ifsMark, h c hc hifs]
    · simp [ifsMark, hifs]
  rw [splitIfs, List.splitOnP_eq_singleton hmark]
  simp

theorem wordsOf_append_trail (h : ∀ c ∈ trail, p c = true) (t : Text) : wordsOf p (t ++ trail) = wordsOf p t := by
  cases trail with
  | nil => rw [List.append_nil]
  | cons c trail =>
    have hnil : wordsOf p trail = [] := by
      have hflat := flatten_wordsOf p trail
      rw [List.filter_eq_nil_iff.mpr fun c hc => by simp [h c (.tail _ hc)]] at hflat
      refine List.eq_nil_iff_forall_not_mem.mpr fun w hw => ?_
      exact of_decide_eq_true (List.mem_filter.mp hw).2 (List.flatten_eq_nil_iff.mp hflat w hw)
    rw [wordsOf, List.splitOnP_append_cons t trail (h c (.head _)), List.filter_append, ← wordsOf, ← wordsOf, hnil,
      List.append_nil]

theorem length_join {fs : List Text} (h : fs ≠ []) :
    ([' '].intercalate fs).length + 1 = fs.flatten.length + fs.length := by
  induction fs with
  | nil => exact absurd rfl h
  | cons f fs ih =>
    cases fs with
    | nil => simp
    | cons g fs =>
      have hrest := ih (List.cons_ne_nil g fs)
      rw [List.intercalate_cons_cons, List.flatten_cons, List.length_append, List.length_append, List.length_append,
        @List.length_cons _ f (g :: fs)]
      simp only [List.length_singleton]
      omega

/-- What is not a blank is in the fields. -/
theorem filter_join (hp : p ' ' = false) (fs : List Text) :
    ([' '].intercalate fs).filter p = fs.flatten.filter p := by
  induction fs with
  | nil => rfl
  | cons f fs ih =>
    cases fs with
    | nil => simp
    | cons g fs =>
      rw [List.intercalate_cons_cons, List.flatten_cons, List.filter_append, List.filter_append, ih,
        List.filter_append, List.filter_cons_of_neg (by simp [hp])]
      simp

theorem isSpace_of_isBlank {c : Char} (h : isBlank c = true) : isSpace c = true := by
  rw [isBlank] at h
  rw [isSpace, h, Bool.true_or]

/-- The first field of a text whose only separators are single blanks. -/
def firstField (ifs t : Text) : Text := if ' ' ∈ ifs then t.takeWhile (· ≠ ' ') else t

/-- The fields are the pieces between single blanks, or the text is the only one. -/
theorem Unsplit.splitIfs_eq (h : Unsplit ifs t trail) (ht : t ≠ []) (htrail : ∀ c ∈ trail, isBlank c = true) :
    splitIfs ifs (t ++ trail) = if ' ' ∈ ifs then t.splitOn ' ' else [t] := by
  obtain ⟨hmarks, htrailIfs, hspaced⟩ := h
  have hspace : ∀ c ∈ trail, isSpace c = true := fun c hc => isSpace_of_isBlank (htrail c hc)
  have hfields : splitIfs ifs (t ++ trail) = wordsOf (ifsSpace ifs) t := by
    rw [splitIfs_of_space, wordsOf_append_trail]
    · exact fun c hc => by simp [ifsSpace, htrailIfs c hc, hspace c hc]
    · intro c hc hifs
      rcases List.mem_append.mp hc with hc | hc
      · rw [hmarks c hc hifs]
        rfl
      · exact hspace c hc
  rw [hfields, wordsOf]
  split
  next hblank =>
    have hpieces : t.splitOnP (ifsSpace ifs) = t.splitOn ' ' := by
      refine splitOnP_blank (by simp [ifsSpace, hblank, isSpace]) fun c hc hsep => ?_
      rw [ifsSpace, Bool.and_eq_true, decide_eq_true_eq] at hsep
      exact hmarks c hc hsep.1
    rw [hpieces]
    refine List.filter_eq_self.mpr fun w hw => decide_eq_true ?_
    rintro rfl
    exact hspaced hblank hw
  next hblank =>
    have hone : t.splitOnP (ifsSpace ifs) = [t] := by
      refine List.splitOnP_eq_singleton fun c hc => ?_
      by_contra hsep
      rw [Bool.not_eq_false, ifsSpace, Bool.and_eq_true, decide_eq_true_eq] at hsep
      exact hblank (hmarks c hc hsep.1 ▸ hsep.1)
    simp [hone, ht]

theorem head_splitOn (x : Char) (t : Text) : ∃ ws, t.splitOn x = t.takeWhile (· ≠ x) :: ws := by
  by_cases hx : x ∈ t
  · obtain ⟨a, b, rfl, ha⟩ := List.eq_append_cons_of_mem hx
    have hne : ∀ c ∈ a, decide (c ≠ x) = true := fun c hc => decide_eq_true fun heq => ha (heq ▸ hc)
    rw [List.splitOn_append_cons_self_of_not_mem ha, List.takeWhile_append_of_pos hne,
      List.takeWhile_cons_of_neg (by simp), List.append_nil]
    exact ⟨_, rfl⟩
  · have hne : ∀ c ∈ t, decide (c ≠ x) = true := fun c hc => decide_eq_true fun heq => hx (heq ▸ hc)
    rw [List.splitOn_eq_singleton hx, List.takeWhile_eq_self_iff.mpr hne]
    exact ⟨[], rfl⟩

theorem Unsplit.head_fields (h : Unsplit ifs t trail) (ht : t ≠ []) (htrail : ∀ c ∈ trail, isBlank c = true) :
    ∃ fields, splitIfs ifs (t ++ trail) = firstField ifs t :: fields := by
  rw [h.splitIfs_eq ht htrail, firstField]
  split
  · exact head_splitOn ' ' t
  · exact ⟨[], rfl⟩

/-- A text is put together again from the fields of a line if its blanks are all that `IFS`
has of it, and single. -/
theorem join_splitIfs_iff (ht : t ≠ []) (htrail : ∀ c ∈ trail, isBlank c = true) :
    [' '].intercalate (splitIfs ifs (t ++ trail)) = t ↔ Unsplit ifs t trail := by
  have hspace : ∀ c ∈ trail, isSpace c = true := fun c hc => isSpace_of_isBlank (htrail c hc)
  constructor
  · intro h
    have hmarks : ∀ c ∈ t, c ∈ ifs → c = ' ' := by
      intro c hc hifs
      rw [← h] at hc
      rcases mem_intercalate hc with rfl | ⟨w, hw, hc⟩
      · rfl
      · exact absurd hifs (not_mem_of_mem_splitIfs hw c hc)
    have hne : splitIfs ifs (t ++ trail) ≠ [] := by
      intro hnil
      rw [hnil, List.intercalate_nil] at h
      exact ht h.symm
    have htrailIfs : ∀ c ∈ trail, c ∈ ifs := by
      have hnil : trail.filter (· ∉ ifs) = [] := by
        have hflat := flatten_splitIfs ifs (t ++ trail)
        rw [List.filter_append] at hflat
        by_cases hblank : ' ' ∈ ifs
        · have hkeep : decide (' ' ∉ ifs) = false := decide_eq_false (not_not.mpr hblank)
          have hfilter := @filter_join (decide <| · ∉ ifs) hkeep (splitIfs ifs (t ++ trail))
          rw [h, hflat, List.filter_append, List.filter_filter, List.filter_filter] at hfilter
          simpa using hfilter
        · -- nothing of the text is in `IFS`, so the lengths agree for one field only
          have hkeep : t.filter (· ∉ ifs) = t := by
            refine List.filter_eq_self.mpr fun c hc => decide_eq_true fun hifs => hblank ?_
            rwa [← hmarks c hc hifs]
          have hlength := length_join hne
          rw [h, hflat, hkeep, List.length_append] at hlength
          have hpos := List.length_pos_iff.mpr hne
          exact List.length_eq_zero_iff.mp (by omega)
      intro c hc
      by_contra hifs
      exact List.filter_eq_nil_iff.mp hnil c hc (decide_eq_true hifs)
    refine ⟨hmarks, htrailIfs, fun hblank hempty => ?_⟩
    have hfields : splitIfs ifs (t ++ trail) = wordsOf (ifsSpace ifs) (t ++ trail) := by
      refine splitIfs_of_space fun c hc hifs => ?_
      rcases List.mem_append.mp hc with hc | hc
      · rw [hmarks c hc hifs]
        rfl
      · exact hspace c hc
    have hpieces : t.splitOn ' ' = splitIfs ifs (t ++ trail) := by
      conv_lhs => rw [← h]
      exact List.splitOn_intercalate _ (fun w hw hc => not_mem_of_mem_splitIfs hw _ hc hblank) hne
    rw [hpieces, hfields] at hempty
    exact of_decide_eq_true (List.mem_filter.mp hempty).2 rfl
  · intro h
    rw [h.splitIfs_eq ht htrail]
    split
    · exact List.intercalate_splitOn ' '
    · exact List.intercalate_singleton

end CargosBuildroot.Shell
