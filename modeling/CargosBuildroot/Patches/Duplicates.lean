import CargosBuildroot.Patches.AllApplied
import Mathlib.Data.List.DropRight

/-! The check for duplicates. `apply_patch` looks for its patch in the list with `grep`, the name
as a pattern: a dot stands for any character, and a name that a series file gives with
directories is compared with them. -/

namespace CargosBuildroot.Patches

open Shell

/-! ### Names in the list -/

/-- The name of a file, without its directory. -/
def fileName (path : Text) : Text := path.rtakeWhile (· ≠ '/')

/-- A patch with this file name is in the list. -/
def AppliedList.HasName (list : AppliedList) (name : Text) : Prop :=
  ∃ line ∈ list.lines, fileName line = name

/-- The line ends in a slash and the name, or a text that differs from the name only where the
name has dots. -/
def LooksLike (patch line : Text) : Prop :=
  ∃ t w, line = t ++ '/' :: w ∧ List.Forall₂ (fun p c => p = '.' ∨ p = c) patch w

/-- The meaning of the pattern with the name is not left to the program. -/
def isDefined (patch : Text) : Bool :=
  match Ere.parse ('/' :: patch ++ ['$']) with
  | .error .other => false
  | _ => true

/-- The pattern with the name describes the end of the line. -/
def Fits (patch line : Text) : Prop :=
  (NoRegex patch → LooksLike patch line) ∧
    (¬ NoRegex patch → ∃ r, Ere.parse ('/' :: patch ++ ['$']) = .ok r ∧ r.Finds line)

/-- The patch has a suffix that is known, or stands in a series file, and the file is there. -/
def Applicable (env : Env) (st : State) (d : Dir) (patch : Text) (series : Bool) : Prop :=
  (if series then some .cat else uncompOf patch).isSome ∧
    (env.nodeAt st (env.absolute d) patch).isSome

theorem looksLike_iff {patch line : Text} (h : NoRegex patch) : LooksLike patch line ↔
    ∃ r, Ere.parse ('/' :: patch ++ ['$']) = .ok r ∧ r.Finds line := by
  have hliteral : ∀ c ∈ '/' :: patch, Ere.isLiteral c = true := List.forall_mem_cons.mpr ⟨rfl, h⟩
  rw [Ere.parse_literal hliteral]
  constructor
  · rintro ⟨t, w, rfl, hw⟩
    exact ⟨_, rfl, Ere.finds_literal.mpr ⟨t, '/' :: w, rfl, .cons (.inr rfl) hw⟩⟩
  · rintro ⟨r, hr, hfinds⟩
    cases hr
    obtain ⟨t, w, rfl, hw⟩ := Ere.finds_literal.mp hfinds
    obtain ⟨c, v, hc, hv, rfl⟩ := List.forall₂_cons_left_iff.mp hw
    obtain rfl : '/' = c := hc.resolve_left (by decide)
    exact ⟨t, v, rfl, hv⟩

theorem isListed_iff (env : Env) {patch : Text} (h : isDefined patch = true) (line : Text) :
    env.isListed patch line = true ↔ Fits patch line := by
  have hpattern : env.isListed patch line = true ↔
      ∃ r, Ere.parse ('/' :: patch ++ ['$']) = .ok r ∧ r.Finds line := by
    rw [Env.isListed]
    cases hparse : Ere.parse ('/' :: patch ++ ['$']) with
    | ok r => simp [Ere.finds_iff]
    | error fault =>
      cases fault with
      | invalid => simp
      | other =>
        rw [isDefined, hparse] at h
        cases h
  rw [hpattern, Fits]
  by_cases hregex : NoRegex patch
  · simp [hregex, looksLike_iff]
  · simp [hregex]

theorem fileName_append (t : Text) {name : Text} (h : '/' ∉ name) : fileName (t ++ '/' :: name) = name := by
  have hname : ∀ c ∈ name.reverse, decide (c ≠ '/') = true := by
    intro c hc
    rw [decide_eq_true_iff]
    rintro rfl
    exact h (List.mem_reverse.mp hc)
  rw [fileName, List.rtakeWhile, List.reverse_append, List.reverse_cons, List.append_assoc,
    List.takeWhile_append_of_pos hname]
  simp

theorem exists_append_fileName {line : Text} (h : '/' ∈ line) : ∃ t, line = t ++ '/' :: fileName line := by
  obtain ⟨b, a, hsplit, hb⟩ := List.eq_append_cons_of_mem (List.mem_reverse.mpr h)
  have hline : line = a.reverse ++ '/' :: b.reverse := by
    rw [← List.reverse_reverse line, hsplit]
    simp
  rw [hline, fileName_append _ (mt List.mem_reverse.mp hb)]
  exact ⟨_, rfl⟩

/-- A recorded name without slashes and special characters is found. -/
theorem AppliedList.HasName.fits {list : AppliedList} {patch : Text} (h : list.HasName (fileName patch))
    (hslash : '/' ∉ patch) (hregex : NoRegex patch) : ∃ line ∈ list.lines, Fits patch line := by
  obtain ⟨line, hline, hname⟩ := h
  obtain ⟨t, ht⟩ := exists_append_fileName (list.slash line hline)
  have hpatch : fileName patch = patch := by
    rw [fileName, List.rtakeWhile_eq_self_iff]
    rintro c hc
    rw [decide_eq_true_iff]
    rintro rfl
    exact hslash hc
  rw [hname, hpatch] at ht
  exact ⟨line, hline, fun _ => ⟨t, patch, ht, List.forall₂_same.mpr fun _ _ => .inr rfl⟩,
    fun hnot => absurd hregex hnot⟩

/-! ### Exactly the duplicates -/

theorem applyPatch_duplicate_iff (env : Env) (st : State) (d : Dir) {patch : Text} (series : Bool)
    (h : isDefined patch = true) : env.applyPatch st d patch series = .error (.refused .duplicate) ↔
      Applicable env st d patch series ∧ ∃ line ∈ st.list.lines, Fits patch line := by
  have hany : st.list.lines.any (env.isListed patch) = true ↔ ∃ line ∈ st.list.lines, Fits patch line := by
    rw [List.any_eq_true]
    exact exists_congr fun line => and_congr_right fun _ => isListed_iff env h line
  rw [← hany]
  unfold Env.applyPatch Applicable
  dsimp only
  cases if series then some .cat else uncompOf patch with
  | none => simp
  | some uncomp =>
    dsimp only
    cases env.nodeAt st (env.absolute d) patch with
    | none => simp
    | some node =>
      dsimp only
      split
      next h => simp [h]
      next h => split <;> simp [h]

/-- The state after a patch with this path. -/
def recordedState (line : String) (h : '/' ∈ line.toList) : State :=
  ⟨fun _ => none, ⟨[line.toList], List.forall_mem_singleton.mpr h⟩, [], []⟩

def patchesDir : Dir := ⟨.patchdir, [], "/patches".toList⟩

end CargosBuildroot.Patches
