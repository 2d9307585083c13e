import CargosBuildroot.Shell.Fields
import CargosBuildroot.Shell.Echo
import Mathlib.Data.List.GetD
import Mathlib.Logic.Function.Basic
import Mathlib.Algebra.Group.Int.Defs

/-! `expunge-gconv-modules`. The program for `gawk` takes the directives of a `gconv-modules` file
apart into four tables, by the file, the charset or the source charset alone, and writes the
directives for the installed files from them. -/

namespace CargosBuildroot.Gconv

open Shell

/-! ### Directives -/

/-- The two directives of the format. -/
inductive Directive
  | alias (name real : Text)
  | module (source target file : Text) (cost : ℤ)
deriving DecidableEq

def internal : Text := "INTERNAL".toList

/-- `$n`; empty beyond the last field. -/
def nth (fields : List Text) (n : ℕ) : Text := fields.getD (n - 1) []

/-- The directive of a line, by its fields. -/
def directive (fields : List Text) : Option Directive :=
  if nth fields 1 = "alias".toList ∧ 3 ≤ fields.length then
    some (.alias (nth fields 2) (nth fields 3))
  else if nth fields 1 = "module".toList ∧ numeric (nth fields 5) = true then
    some (.module (nth fields 2) (nth fields 3) (nth fields 4) (awkInt (nth fields 5)))
  else none

def directives (t : Text) : List Directive := (lines t).filterMap fun l => directive (words l)

/-- A `gconv-modules` file: the lines that start with the word for a directive are directives,
and the costs are of the type `int`, in which `gawk` makes no error. -/
structure GconvModules where
  text : Text
  wellFormed : ∀ l ∈ lines text, nth (words l) 1 = "alias".toList ∨ nth (words l) 1 = "module".toList →
    (directive (words l)).isSome
  cost_bound : ∀ s t f c, .module s t f c ∈ directives text → -2 ^ 31 ≤ c ∧ c < 2 ^ 31

/-- The list of files; a backslash would be an escape in the assignment of `-v`. -/
structure FileList where
  text : Text
  plain : '\\' ∉ text

/-! ### The program -/

/-- The associative arrays, empty at first. -/
structure Tables where
  aliases : Text → Text
  file2internals : Text → Text
  file2cset : Text → Text
  mod2cost : Text → Text

def Tables.empty : Tables := ⟨fun _ => [], fun _ => [], fun _ => [], fun _ => []⟩

/-- `a[k] = a[k] " " t` -/
def appendWord (a : Text → Text) (k t : Text) : Text → Text := Function.update a k (a k ++ ' ' :: t)

namespace Tables

/-- The actions for a record. -/
def record (tab : Tables) (fields : List Text) : Tables :=
  if nth fields 1 = "alias".toList then
    { tab with aliases := appendWord tab.aliases (nth fields 3) (nth fields 2) }
  else if nth fields 1 = "module".toList ∧ nth fields 2 ≠ internal ∧ nth fields 3 = internal then
    { tab with
      file2internals := appendWord tab.file2internals (nth fields 4) (nth fields 2)
      mod2cost := Function.update tab.mod2cost (nth fields 2) (nth fields 5) }
  else if nth fields 1 = "module".toList ∧ nth fields 2 ≠ internal ∧ nth fields 3 ≠ internal then
    { tab with
      file2cset := appendWord tab.file2cset (nth fields 4) (nth fields 2 ++ ':' :: nth fields 3)
      mod2cost := Function.update tab.mod2cost (nth fields 2) (nth fields 5) }
  else tab

def ofLines (ls : List Text) : Tables := ls.foldl (fun tab l => tab.record (words l)) empty

end Tables

def aliasLine (name real : Text) : Text := "alias".toList ++ '\t' :: name ++ '\t' :: real

def moduleLine (source target file : Text) (cost : ℤ) : Text :=
  "module".toList ++ '\t' :: source ++ '\t' :: target ++ '\t' :: file ++ '\t' :: decimal cost

namespace Tables

variable (tab : Tables)

/-- The lines for a charset that a file converts to and from `INTERNAL`. -/
def internalLines (file mod : Text) : List Text :=
  let cost := awkInt (tab.mod2cost mod)
  (words (tab.aliases mod)).map (aliasLine · mod) ++
    [moduleLine mod internal file cost, moduleLine internal mod file cost, []]

/-- The line for two charsets with a colon between them. -/
def csetLine (file cset : Text) : Text :=
  let cs := cset.splitOn ':'
  moduleLine (nth cs 1) (nth cs 2) file (awkInt (tab.mod2cost (nth cs 1)))

/-- The lines for a file. -/
def fileLines (file : Text) : List Text :=
  let mods := words (tab.file2internals file)
  let csets := words (tab.file2cset file)
  ("# Modules and aliases for: ".toList ++ file) ::
    (mods.flatMap (tab.internalLines file) ++ (if mods = [] then [] else [[]]) ++
      csets.map (tab.csetLine file) ++ if csets = [] then [] else [[], []])

end Tables

def expunge (files : FileList) (input : Text) : Text :=
  unlines ((words files.text).flatMap (Tables.ofLines (lines input)).fileLines)

/-! ### The tables -/

/-- The costs of the directives with the source, in order. -/
def costs (ds : List Directive) (source : Text) : List ℤ :=
  ds.filterMap fun
    | .alias _ _ => none
    | .module s _ _ c => if s = source then some c else none

/-- What the tables hold of the directives. -/
structure Indexed (ds : List Directive) (tab : Tables) : Prop where
  aliases : ∀ real name, name ∈ words (tab.aliases real) ↔ .alias name real ∈ ds
  internals : ∀ file source, source ∈ words (tab.file2internals file) ↔
    source ≠ internal ∧ ∃ c, .module source internal file c ∈ ds
  csets : ∀ file cset, cset ∈ words (tab.file2cset file) ↔
    ∃ s t c, s ≠ internal ∧ t ≠ internal ∧ cset = s ++ ':' :: t ∧ .module s t file c ∈ ds
  cost : ∀ source c, source ≠ internal → (costs ds source).getLast? = some c →
    awkInt (tab.mod2cost source) = c

/-- One field. -/
def IsWord (w : Text) : Prop := w ≠ [] ∧ ∀ c ∈ w, isSpace c = false

theorem IsWord.colon {w w' : Text} (h : IsWord w) (h' : IsWord w') : IsWord (w ++ ':' :: w') := by
  refine ⟨by simp, fun c hc => ?_⟩
  rcases List.mem_append.mp hc with hc | hc
  · exact h.2 c hc
  · rcases List.mem_cons.mp hc with rfl | hc
    · decide
    · exact h'.2 c hc

def Directive.IsWords : Directive → Prop
  | .alias name real => IsWord name ∧ IsWord real
  | .module source target file _ => IsWord source ∧ IsWord target ∧ IsWord file

theorem words_appendWord (a : Text → Text) {k t : Text} (ht : IsWord t) (k' w : Text) :
    w ∈ words (appendWord a k t k') ↔ w ∈ words (a k') ∨ k' = k ∧ w = t := by
  unfold appendWord
  by_cases hk : k' = k
  · subst hk
    rw [Function.update_self, words_append_space _ _ (by decide), words_of_word ht.1 ht.2]
    simp
  · rw [Function.update_of_ne hk]
    simp [hk]

/-- A line with a directive, by its fields. -/
theorem directive_eq_some {fields : List Text} {d : Directive} (h : directive fields = some d) :
    (nth fields 1 = "alias".toList ∧ 3 ≤ fields.length ∧ d = .alias (nth fields 2) (nth fields 3)) ∨
      (nth fields 1 = "module".toList ∧ 5 ≤ fields.length ∧
        d = .module (nth fields 2) (nth fields 3) (nth fields 4) (awkInt (nth fields 5))) := by
  unfold directive at h
  split at h
  next halias => exact .inl ⟨halias.1, halias.2, (Option.some.inj h).symm⟩
  next =>
    split at h
    next hmodule =>
      refine .inr ⟨hmodule.1, ?_, (Option.some.inj h).symm⟩
      by_contra hlength
      have hnil : nth fields 5 = [] := List.getD_eq_default _ _ (by omega)
      rw [hnil] at hmodule
      exact absurd hmodule.2 (by decide)
    next => cases h

theorem isWord_nth {l : Text} {n : ℕ} (hpos : 1 ≤ n) (hn : n ≤ (words l).length) :
    IsWord (nth (words l) n) := by
  rw [nth, List.getD_eq_getElem _ _ (by omega : n - 1 < (words l).length)]
  exact word_of_mem_words (List.getElem_mem _)

theorem isWords_of_directive {l : Text} {d : Directive} (h : directive (words l) = some d) :
    d.IsWords := by
  obtain ⟨-, hlength, rfl⟩ | ⟨-, hlength, rfl⟩ := directive_eq_some h
  · exact ⟨isWord_nth (by omega) (by omega), isWord_nth (by omega) hlength⟩
  · exact ⟨isWord_nth (by omega) (by omega), isWord_nth (by omega) (by omega),
      isWord_nth (by omega) (by omega)⟩

theorem costs_append_module (ds : List Directive) (source target file : Text) (c : ℤ) (s : Text) :
    costs (ds ++ [.module source target file c]) s =
      if source = s then costs ds s ++ [c] else costs ds s := by
  rw [costs, List.filterMap_append, ← costs]
  split <;> simp [*]

namespace Indexed

variable {ds : List Directive} {tab : Tables} {fields : List Text}

theorem record_alias (h : Indexed ds tab) (hkeyword : nth fields 1 = "alias".toList)
    (hname : IsWord (nth fields 2)) :
    Indexed (ds ++ [.alias (nth fields 2) (nth fields 3)]) (tab.record fields) := by
  rw [Tables.record, if_pos hkeyword]
  constructor
  · intro real name
    rw [words_appendWord _ hname, h.aliases]
    simp [and_comm]
  · simpa using h.internals
  · simpa using h.csets
  · simpa [costs] using h.cost

variable {source target file cost : Text}

theorem cost_update (h : Indexed ds tab) {s : Text} {c : ℤ} (hs : s ≠ internal)
    (hc : (costs (ds ++ [.module source target file (awkInt cost)]) s).getLast? = some c) :
    awkInt (Function.update tab.mod2cost source cost s) = c := by
  rw [costs_append_module] at hc
  by_cases heq : source = s
  · subst heq
    rw [Function.update_self]
    simpa using hc
  · rw [if_neg heq] at hc
    rw [Function.update_of_ne (Ne.symm heq)]
    exact h.cost s c hs hc

/-- The tables hold nothing of a directive from `INTERNAL`. -/
theorem module_from (h : Indexed ds tab) (target file : Text) (c : ℤ) :
    Indexed (ds ++ [.module internal target file c]) tab := by
  refine ⟨by simpa using h.aliases, fun f s => ?_, fun f w => ?_, fun s c' hs hc => ?_⟩
  · rw [h.internals]
    refine and_congr_right fun hs => exists_congr fun c' => ?_
    simp [hs]
  · rw [h.csets]
    refine exists_congr fun s => exists_congr fun t => exists_congr fun c' =>
      and_congr_right fun hs => ?_
    simp [hs]
  · rw [costs_append_module, if_neg (Ne.symm hs)] at hc
    exact h.cost s c' hs hc

theorem module_to (h : Indexed ds tab) (hne : source ≠ internal) (hsource : IsWord source) :
    Indexed (ds ++ [.module source internal file (awkInt cost)])
      { tab with
        file2internals := appendWord tab.file2internals file source
        mod2cost := Function.update tab.mod2cost source cost } := by
  refine ⟨by simpa using h.aliases, fun f s => ?_, fun f w => ?_, fun s c => h.cost_update⟩
  · rw [words_appendWord _ hsource, h.internals]
    constructor
    · rintro (⟨hs, c, hmem⟩ | ⟨rfl, rfl⟩)
      · exact ⟨hs, c, List.mem_append_left _ hmem⟩
      · exact ⟨hne, awkInt cost, by simp⟩
    · rintro ⟨hs, c, hmem⟩
      rcases List.mem_append.mp hmem with hmem | hmem
      · exact .inl ⟨hs, c, hmem⟩
      · obtain ⟨rfl, -, rfl, -⟩ := Directive.module.inj (List.mem_singleton.mp hmem)
        exact .inr ⟨rfl, rfl⟩
  · rw [h.csets]
    refine exists_congr fun s => exists_congr fun t => exists_congr fun c =>
      and_congr_right fun hs => and_congr_right fun ht => ?_
    simp [ht]

theorem module_between (h : Indexed ds tab) (hs : source ≠ internal) (ht : target ≠ internal)
    (hsource : IsWord source) (htarget : IsWord target) :
    Indexed (ds ++ [.module source target file (awkInt cost)])
      { tab with
        file2cset := appendWord tab.file2cset file (source ++ ':' :: target)
        mod2cost := Function.update tab.mod2cost source cost } := by
  refine ⟨by simpa using h.aliases, fun f s => ?_, fun f w => ?_, fun s c => h.cost_update⟩
  · rw [h.internals]
    refine and_congr_right fun hs => exists_congr fun c => ?_
    simp [Ne.symm ht]
  · rw [words_appendWord _ (hsource.colon htarget), h.csets]
    constructor
    · rintro (⟨s, t, c, hs, ht, hw, hmem⟩ | ⟨rfl, rfl⟩)
      · exact ⟨s, t, c, hs, ht, hw, List.mem_append_left _ hmem⟩
      · exact ⟨source, target, awkInt cost, hs, ht, rfl, by simp⟩
    · rintro ⟨s, t, c, hs, ht, hw, hmem⟩
      rcases List.mem_append.mp hmem with hmem | hmem
      · exact .inl ⟨s, t, c, hs, ht, hw, hmem⟩
      · obtain ⟨rfl, rfl, rfl, -⟩ := Directive.module.inj (List.mem_singleton.mp hmem)
        exact .inr ⟨rfl, hw⟩

theorem record_module (h : Indexed ds tab) (hkeyword : nth fields 1 = "module".toList)
    (hsource : IsWord (nth fields 2)) (htarget : IsWord (nth fields 3)) :
    Indexed (ds ++ [.module (nth fields 2) (nth fields 3) (nth fields 4) (awkInt (nth fields 5))])
      (tab.record fields) := by
  have hnot : ¬ nth fields 1 = "alias".toList := by
    rw [hkeyword]
    decide
  rw [Tables.record, if_neg hnot]
  by_cases hs : nth fields 2 = internal
  · rw [if_neg (fun hand => hand.2.1 hs), if_neg (fun hand => hand.2.1 hs), hs]
    exact h.module_from _ _ _
  by_cases ht : nth fields 3 = internal
  · rw [if_pos ⟨hkeyword, hs, ht⟩, ht]
    exact h.module_to hs hsource
  · rw [if_neg (fun hand => ht hand.2.2), if_pos ⟨hkeyword, hs, ht⟩]
    exact h.module_between hs ht hsource htarget

end Indexed

theorem indexed_ofLines {ls : List Text} (h : ∀ l ∈ ls,
    nth (words l) 1 = "alias".toList ∨ nth (words l) 1 = "module".toList → (directive (words l)).isSome) :
    Indexed (ls.filterMap fun l => directive (words l)) (Tables.ofLines ls) := by
  induction ls using List.reverseRecOn with
  | nil => constructor <;> simp [Tables.ofLines, Tables.empty, words, costs]
  | append_singleton ls l ih =>
    obtain ⟨hls, hl⟩ := List.forall_mem_append.mp h
    have hindexed := ih hls
    rw [Tables.ofLines, List.foldl_append, List.foldl_cons, List.foldl_nil, List.filterMap_append,
      ← Tables.ofLines]
    cases hd : directive (words l) with
    | none =>
      have hkeyword := mt (hl l (.head _)) (by rw [hd]; exact Bool.false_ne_true)
      rw [not_or] at hkeyword
      have hsame : (Tables.ofLines ls).record (words l) = Tables.ofLines ls := by
        rw [Tables.record, if_neg hkeyword.1, if_neg (fun hand => hkeyword.2 hand.1),
          if_neg (fun hand => hkeyword.2 hand.1)]
      have hnone : List.filterMap (fun l => directive (words l)) [l] = [] := by simp [hd]
      rw [hsame, hnone, List.append_nil]
      exact hindexed
    | some d =>
      have hsome : List.filterMap (fun l => directive (words l)) [l] = [d] := by simp [hd]
      rw [hsome]
      have hwords := isWords_of_directive hd
      obtain ⟨hkeyword, -, rfl⟩ | ⟨hkeyword, -, rfl⟩ := directive_eq_some hd
      · exact hindexed.record_alias hkeyword hwords.1
      · exact hindexed.record_module hkeyword hwords.1 hwords.2.1

/-- What the program has in its tables at the end. -/
theorem GconvModules.indexed (input : GconvModules) :
    Indexed (directives input.text) (Tables.ofLines (lines input.text)) :=
  indexed_ofLines input.wellFormed

end CargosBuildroot.Gconv
