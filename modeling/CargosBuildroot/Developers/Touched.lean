import CargosBuildroot.Developers.Selected

/-! The files of a patch. `analyze_patch` is to find the files that a patch modifies, adds or
removes, but it only looks at `+++ ` lines, wherever they stand: the name of a removed file is on
the line before, and any line of a message or a hunk may look like one. -/

namespace CargosBuildroot.Developers

open Shell Python

/-- A name that the script reads as it is: git does not put it in quotes, there is no white space
at its ends, and it is not `dev/null`. -/
structure Plain (name : Text) : Prop where
  unquoted : quoted name = false
  stripped : Stripped name
  not_null : name ≠ "dev/null".toList

/-- The file has a plain new name in a change with hunks. -/
def Patch.Names (p : Patch) (f : Text) : Prop :=
  ∃ d ∈ p.diffs, d.new = some f ∧ d.hunks ≠ none ∧ Plain f

/-- The file is read from a name that is not plain, or from another line. -/
def Patch.Mentions (p : Patch) (f : Text) : Prop :=
  (∃ d ∈ p.diffs, ∃ name, d.new = some name ∧ d.hunks ≠ none ∧ ¬ Plain name ∧
    f = strip (shown name) ∧ f ≠ "dev/null".toList) ∨ ∃ l ∈ p.otherLines, headerName l = some f

/-! ### Plain names -/

theorem strip_shown_of_plain {name : Text} (h : Plain name) : strip (shown name) = name := by
  have htab : ∀ d ∈ (if ' ' ∈ name then ['\t'] else []), isWhitespace d = true := by
    intro d hd
    split_ifs at hd
    · rw [List.mem_singleton.mp hd]
      decide
    · cases hd
  have hunquoted : ¬ quoted name = true := by
    rw [h.unquoted]
    exact Bool.false_ne_true
  rw [shown, if_neg hunquoted]
  exact strip_append (a := []) (by simp) h.stripped htab

/-! ### All and only the files -/

theorem reads_iff (p : Patch) (f : Text) : p.Reads f ↔ p.Names f ∨ p.Mentions f := by
  unfold Patch.Reads Patch.Names Patch.Mentions
  rw [← or_assoc]
  refine or_congr_left ⟨?_, ?_⟩
  · rintro ⟨d, hd, name, hnew, hhunks, rfl, hnull⟩
    by_cases hplain : Plain name
    · rw [strip_shown_of_plain hplain]
      exact .inl ⟨d, hd, hnew, hhunks, hplain⟩
    · exact .inr ⟨d, hd, name, hnew, hhunks, hplain, rfl, hnull⟩
  · rintro (⟨d, hd, hnew, hhunks, hplain⟩ | ⟨d, hd, name, hnew, hhunks, -, heq, hnull⟩)
    · exact ⟨d, hd, f, hnew, hhunks, (strip_shown_of_plain hplain).symm, hplain.not_null⟩
    · exact ⟨d, hd, name, hnew, hhunks, heq, hnull⟩

theorem Patch.Names.touches {p : Patch} {f : Text} (h : p.Names f) : p.Touches f := by
  obtain ⟨d, hd, hnew, -, -⟩ := h
  exact ⟨d, hd, .inr hnew⟩

/-- For every patch the script finds all and only the files that it touches if and only if every
file that it touches has a plain new name in a change with hunks or is mentioned elsewhere, and no
other file is mentioned. -/
theorem analyzePatch_iff (p : Patch) :
    (∀ f, f ∈ (analyzePatch p.text).1 ↔ p.Touches f) ↔
      (∀ f, p.Touches f → ¬ p.Names f → p.Mentions f) ∧ ∀ f, p.Mentions f → p.Touches f := by
  simp only [mem_analyzePatch_text, reads_iff]
  constructor
  · intro h
    exact ⟨fun f htouches hnot => ((h f).mpr htouches).resolve_left hnot, fun f hf => (h f).mp (.inr hf)⟩
  · rintro ⟨hall, honly⟩ f
    constructor
    · rintro (hnames | hmentions)
      · exact hnames.touches
      · exact honly f hmentions
    · intro htouches
      by_cases hnames : p.Names f
      · exact .inl hnames
      · exact .inr (hall f htouches hnames)

/-- A patch that removes a file. -/
def removePatch : Patch where
  message := ["Subject: foo: remove".toList]
  diffs := [{
    old := some "package/foo/foo.hash".toList
    new := none
    header := ["diff --git a/package/foo/foo.hash b/package/foo/foo.hash".toList,
      "deleted file mode 100644".toList, "index 8a2bd5e..0000000".toList]
    hunks := some ["@@ -1 +0,0 @@".toList, "-sha256 0".toList]
    header_lines := by decide
    hunks_lines := by decide }]
  trailer := ["-- ".toList]
  message_lines := by decide
  trailer_lines := newline_not_mem_dashes

/-- No file is found in it. -/
theorem analyzePatch_remove :
    removePatch.Touches "package/foo/foo.hash".toList ∧ (analyzePatch removePatch.text).1 = [] := by
  have hcopies : ∀ d ∈ removePatch.diffs, ¬ d.Copies := by
    rintro d hd ⟨l, hl, hcopy⟩
    rw [List.mem_singleton.mp hd] at hl
    revert l hl hcopy
    decide
  refine ⟨⟨_, .head _, .inl ⟨rfl, hcopies _ (.head _)⟩⟩, ?_⟩
  rw [List.eq_nil_iff_forall_not_mem]
  intro f hf
  rcases mem_analyzePatch_text.mp hf with ⟨d, hd, name, hnew, -⟩ | ⟨l, hl, hname⟩
  · rw [List.mem_singleton.mp hd] at hnew
    cases hnew
  · have hnone : ∀ l ∈ removePatch.otherLines, headerName l = none := by decide
    rw [hnone l hl] at hname
    cases hname

end CargosBuildroot.Developers
