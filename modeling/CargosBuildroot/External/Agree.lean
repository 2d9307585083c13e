import CargosBuildroot.External.Makefile

/-! The two outputs for the br2-external trees side by side. Kconfig reads a text
between double quotes and make reads it after an equal sign, and neither output escapes
anything, so both give the registered trees back exactly if no text has a character that
one of the two formats treats specially. -/

namespace CargosBuildroot.External

open Shell

/-- The outputs are well-formed, and both give the registered trees back. -/
structure OutputsAgree (trees : List Tree) : Prop where
  words : ∀ t ∈ trees, ValidName t.name
  distinct : (trees.map Tree.name).Nodup
  /-- Every double-quoted string ends where it was meant to. -/
  strings : Kconfig.read (doKconfig trees) = some (statements trees)
  closed : ∃ ss, Kconfig.read (doKconfig trees) = some ss ∧ Kconfig.menusClosed 0 ss = true
  symbols : (Kconfig.read (doKconfig trees)).map symbols = some (trees.map fun t => pathVar t.name)
  kconfig : (Kconfig.read (doKconfig trees)).bind kconfigTrees = some trees
  make : (Make.read (doMk trees)).bind mkTrees = some trees

/-- No double quote, backslash, `#`, `$` or newline, no white space at the start and no
carriage return at the end. -/
structure Plain (v : Text) : Prop where
  quotable : Kconfig.Quotable v
  verbatim : Make.Verbatim v
  newline : '\n' ∉ v

theorem noLeading_of_verbatim {v : Text} (h : Make.Verbatim v) : NoLeading v := by
  unfold NoLeading Kconfig.stripLeading
  cases v with
  | nil => rfl
  | cons c v =>
    apply List.dropWhile_cons_of_neg
    have hc := h.leading c rfl
    simpa [Make.isSpaceChar] using hc

theorem Plain.kconfigPlain {t : Tree} (hdesc : Plain t.desc) (hpath : Plain t.path) : KconfigPlain t :=
  ⟨hdesc.quotable, hpath.quotable, noLeading_of_verbatim hdesc.verbatim⟩

theorem not_mem_of_quotable {v : Text} (h : Kconfig.Quotable v) : '\\' ∉ v :=
  fun hmem => (h _ hmem).2 rfl

/-- For every accepted list of trees, the two outputs agree and are well-formed if and
only if all descriptions and paths are plain. -/
theorem outputs_agree_iff (dirs : List Dir) (trees : List Tree) (h : doValidate dirs = .ok trees) :
    OutputsAgree trees ↔ ∀ t ∈ trees, Plain t.desc ∧ Plain t.path := by
  have hr := doValidate_registered h
  constructor
  · intro hagree t ht
    have hk := (read_doKconfig_iff hr).mp hagree.strings
    have hm := (mkTrees_doMk_iff hr (fun t ht => (hk t ht).2) fun t ht =>
      ⟨not_mem_of_quotable (hk t ht).1.path, not_mem_of_quotable (hk t ht).1.desc⟩).mp hagree.make
    exact ⟨⟨(hk t ht).1.desc, (hm t ht).1, (hk t ht).2.1⟩, ⟨(hk t ht).1.path, (hm t ht).2, (hk t ht).2.2⟩⟩
  · intro hplain
    have hnewline : ∀ t ∈ trees, '\n' ∉ t.desc ∧ '\n' ∉ t.path := fun t ht =>
      ⟨(hplain t ht).1.newline, (hplain t ht).2.newline⟩
    have hback : ∀ t ∈ trees, '\\' ∉ t.path ∧ '\\' ∉ t.desc := fun t ht =>
      ⟨not_mem_of_quotable (hplain t ht).2.quotable, not_mem_of_quotable (hplain t ht).1.quotable⟩
    have hread := (read_doKconfig_iff hr).mpr fun t ht =>
      ⟨(hplain t ht).1.kconfigPlain (hplain t ht).2, hnewline t ht⟩
    have hmake := (mkTrees_doMk_iff hr hnewline hback).mpr fun t ht =>
      ⟨(hplain t ht).1.verbatim, (hplain t ht).2.verbatim⟩
    exact
      { words := hr.valid
        distinct := hr.distinct
        strings := hread
        closed := ⟨_, hread, menusClosed_statements trees⟩
        symbols := by rw [hread, Option.map_some, symbols_statements]
        kconfig := by rw [hread, Option.bind_some, kconfigTrees_statements]
        make := hmake }

/-- A directory with the name `TOOLS`. -/
def toolsDir (desc : Text) : Dir where
  arg := "tools".toList
  descFile := some ("name: TOOLS\ndesc: ".toList ++ desc ++ ['\n'])
  canonical := "/src/tools".toList
  absolute := rfl

def toolsTree (desc : Text) : Tree := ⟨"TOOLS".toList, "/src/tools".toList, desc⟩

/-- A directory without a description. -/
def fontsDir : Dir where
  arg := "fonts".toList
  descFile := some "name: FONTS\n".toList
  canonical := "/src/fonts".toList
  absolute := rfl

def fontsTree : Tree := ⟨"FONTS".toList, "/src/fonts".toList, "FONTS".toList⟩

/-- With two directories. -/
theorem outputs_agree_tools : OutputsAgree [toolsTree "Our tools".toList, fontsTree] ↔
    ∀ t ∈ [toolsTree "Our tools".toList, fontsTree], Plain t.desc ∧ Plain t.path :=
  outputs_agree_iff [toolsDir "Our tools".toList, fontsDir] _ rfl

/-- Make takes the text from a `#` on as a comment, Kconfig does not. -/
theorem outputs_differ_hash :
    doValidate [toolsDir "C# tools".toList] = .ok [toolsTree "C# tools".toList] ∧
      (Kconfig.read (doKconfig [toolsTree "C# tools".toList])).bind kconfigTrees =
        some [toolsTree "C# tools".toList] ∧
      (Make.read (doMk [toolsTree "C# tools".toList])).bind mkTrees = some [toolsTree "C".toList] ∧
      ¬ OutputsAgree [toolsTree "C# tools".toList] := by
  have hmake : (Make.read (doMk [toolsTree "C# tools".toList])).bind mkTrees =
      some [toolsTree "C".toList] := by decide
  refine ⟨rfl, by decide, hmake, fun h => ?_⟩
  have hback := h.make
  rw [hmake] at hback
  revert hback
  decide

end CargosBuildroot.External
