import CargosBuildroot.Make.Update
import Mathlib.Data.List.Pairwise
import Mathlib.Data.Nat.Basic
import Mathlib.Data.Option.Basic
import Mathlib.Order.Basic

/-! Runs in which nothing is removed. The recipes that are run are those of the targets that are out
of date with respect to the files at the beginning, each of them once and after its prerequisites;
every file that was considered is then as new as the files it is compared with. -/

namespace CargosBuildroot.Make

open Relation Shell

variable {T V : Type*}

namespace Rules

/-- For this target nothing is removed. -/
def Building (R : Rules T) (t : T) : Prop :=
  ∀ u, R.Reach t u → ∀ ts, R.recipe u = .remove ts → ts = []

/-- The target is out of date with these files. -/
inductive Outdated (R : Rules T) (f : Files T V) : T → Prop
  | phony {t : T} (h : R.isFile t = false) : Outdated R f t
  | missing {t : T} (h : f t = none) : Outdated R f t
  | newer {t d : T} {x y : File V} (hd : d ∈ R.normal t) (ht : f t = some x) (hfile : f d = some y)
      (h : x.time < y.time) : Outdated R f t
  | prereq {t d : T} (hd : d ∈ R.normal t) (h : Outdated R f d) : Outdated R f t

/-- Every file below the target is there. -/
def Ready (R : Rules T) (t : T) (f : Files T V) : Prop :=
  ∀ u, R.Reach t u → u ≠ t → R.isFile u = true → f u ≠ none

/-- The file is there and no older than the files that it is compared with. -/
def Current (R : Rules T) (f : Files T V) (t : T) : Prop :=
  ∃ x, f t = some x ∧ ∀ d ∈ R.normal t, ∃ y, f d = some y ∧ y.time ≤ x.time

end Rules

def Build.ran (b : Build T V) : List T := b.log.map Prod.fst

/-- The state of a run that began with the files `f` at the time `n`. -/
structure Tracks (R : Rules T) (goals : List T) (f : Files T V) (n : ℕ) (b : Build T V) : Prop where
  later : n ≤ b.now
  times : ∀ t x, b.files t = some x → x.time ≤ b.now
  wanted : ∀ t, b.seen t ≠ none → ∃ g ∈ goals, R.Reach g t
  closed : ∀ t, b.seen t ≠ none → ∀ d ∈ R.needs t, b.seen d ≠ none
  unseen : ∀ t ∈ b.ran, b.seen t ≠ none
  record : ∀ t, b.seen t ≠ none → R.isFile t = true → b.seen t = some ((b.files t).map File.time)
  kept : ∀ t, t ∉ b.ran → b.files t = f t
  made : ∀ t ∈ b.ran, R.isFile t = true → ∃ x, b.files t = some x ∧ n < x.time
  ran : ∀ t, b.seen t ≠ none → (t ∈ b.ran ↔ R.Outdated f t)
  current : ∀ t, b.seen t ≠ none → R.isFile t = true → R.Current b.files t
  order : b.ran.Pairwise fun t u => ¬ R.Reach t u
  ready : ∀ e ∈ b.log, R.Ready e.1 e.2

/-- The run has ended in the recipe of a target that was to be considered, which may have begun to
write the file. -/
def Stopped [DecidableEq T] (R : Rules T) (goals : List T) (f : Files T V) (n : ℕ) (b : Build T V) : Prop :=
  ∃ b₀ t, Tracks R goals f n b₀ ∧ b₀.seen t = none ∧ (∀ d ∈ R.needs t, b₀.seen d ≠ none) ∧
    (∃ g ∈ goals, R.Reach g t) ∧ R.outdated b₀ t = true ∧
    (b = b₀.start t ∨ R.recipe t = .create ∧ ∃ v, b = (b₀.start t).write t v)

namespace Tracks

variable {R : Rules T} {goals : List T} {f : Files T V} {n : ℕ} {b : Build T V} {t u d : T}

theorem seen_reach (h : Tracks R goals f n b) (ht : b.seen t ≠ none) (hreach : R.Reach t u) :
    b.seen u ≠ none := by
  induction hreach with
  | refl => exact ht
  | tail _ hneeds ih => exact h.closed _ ih _ hneeds

/-- What is not considered yet is below nothing that was. -/
theorem not_reach (h : Tracks R goals f n b) (hunseen : b.seen u = none) (ht : t ∈ b.ran) : ¬ R.Reach t u :=
  fun hreach => h.seen_reach (h.unseen t ht) hreach hunseen

theorem not_ran (h : Tracks R goals f n b) (hunseen : b.seen t = none) : t ∉ b.ran :=
  fun ht => h.unseen t ht hunseen

/-- The test that make does agrees with the one on the files at the beginning. -/
theorem outdated_iff (h : Tracks R goals f n b) (htimes : ∀ t x, f t = some x → x.time ≤ n)
    (hunseen : b.seen t = none) (hneeds : ∀ d ∈ R.needs t, b.seen d ≠ none) :
    R.outdated b t = true ↔ R.Outdated f t := by
  rw [Rules.outdated]
  cases hfile : R.isFile t with
  | false => exact iff_of_true rfl (.phony hfile)
  | true =>
    have hkept := h.kept t (h.not_ran hunseen)
    rw [Bool.not_true, Bool.false_or, hkept]
    cases hft : f t with
    | none => exact iff_of_true rfl (.missing hft)
    | some x =>
      have hx := htimes t x hft
      -- a prerequisite makes the target out of date with its file as it is now
      have hprereq : ∀ d ∈ R.normal t, ∃ y, b.files d = some y ∧ b.seen d = some (some y.time) := by
        intro d hd
        have hdfile := Rules.isFile_of_normal hfile hd
        have hseen := hneeds _ (Rules.needs_of_normal hd)
        obtain ⟨y, hy, -⟩ := h.current _ hseen hdfile
        exact ⟨y, hy, by rw [h.record _ hseen hdfile, hy, Option.map_some]⟩
      refine Iff.trans ?_ (?_ : (∃ d ∈ R.normal t, ∃ y, b.files d = some y ∧ x.time < y.time) ↔ R.Outdated f t)
      · rw [List.any_eq_true]
        refine exists_congr fun d => and_congr_right fun hd => ?_
        obtain ⟨y, hy, hseen⟩ := hprereq d hd
        simp [hy, hseen]
      refine ⟨?_, ?_⟩
      · rintro ⟨d, hd, y, hy, hlt⟩
        by_cases hran : d ∈ b.ran
        · exact .prereq hd ((h.ran d (h.unseen d hran)).mp hran)
        · exact .newer hd hft (h.kept d hran ▸ hy) hlt
      · intro hout
        cases hout with
        | phony hphony => rw [hfile] at hphony; cases hphony
        | missing hnone => rw [hft] at hnone; cases hnone
        | @newer _ d x' y hd hx' hy hlt =>
          obtain rfl : x = x' := Option.some.inj (hft.symm.trans hx')
          by_cases hran : d ∈ b.ran
          · obtain ⟨z, hz, hlate⟩ := h.made d hran (Rules.isFile_of_normal hfile hd)
            exact ⟨d, hd, z, hz, by omega⟩
          · exact ⟨d, hd, y, (h.kept d hran).trans hy, hlt⟩
        | @prereq _ d hd hout =>
          have hran := (h.ran d (hneeds d (Rules.needs_of_normal hd))).mpr hout
          obtain ⟨y, hy, hlate⟩ := h.made d hran (Rules.isFile_of_normal hfile hd)
          exact ⟨d, hd, y, hy, by omega⟩

theorem exists_normal (h : Tracks R goals f n b) (hneeds : ∀ d ∈ R.needs t, b.seen d ≠ none)
    (hfile : R.isFile t = true) (hd : d ∈ R.normal t) : ∃ y, b.files d = some y :=
  have ⟨y, hy, _⟩ := h.current d (hneeds d (Rules.needs_of_normal hd)) (Rules.isFile_of_normal hfile hd)
  ⟨y, hy⟩

theorem exists_file (h : Tracks R goals f n b) (hneeds : ∀ d ∈ R.needs t, b.seen d ≠ none) :
    R.Ready t b.files := by
  intro u hreach hne hfile
  rcases ReflTransGen.cases_head hreach with rfl | ⟨d, hd, hreach⟩
  · exact absurd rfl hne
  · obtain ⟨x, hx, -⟩ := h.current u (h.seen_reach (hneeds d hd) hreach) hfile
    exact hx ▸ Option.some_ne_none x

/-- One more target is considered. -/
theorem extend (h : Tracks R goals f n b) {b' : Build T V} (hunseen : b.seen t = none)
    (hneeds : ∀ d ∈ R.needs t, b.seen d ≠ none) (hwanted : ∃ g ∈ goals, R.Reach g t)
    (hnow : b.now ≤ b'.now) (hfiles : ∀ u, u ≠ t → b'.files u = b.files u)
    (htime : ∀ x, b'.files t = some x → x.time ≤ b'.now) (hother : ∀ u, u ≠ t → b'.seen u = b.seen u)
    (hseen : b'.seen t ≠ none)
    (hrecord : R.isFile t = true → b'.seen t = some ((b'.files t).map File.time))
    (hcurrent : R.isFile t = true → R.Current b'.files t)
    (hlog : (b'.log = b.log ∧ b'.files t = b.files t ∧ ¬ R.Outdated f t) ∨
      (b'.log = b.log ++ [(t, b.files)] ∧ R.Outdated f t ∧
        (R.isFile t = true → ∃ x, b'.files t = some x ∧ n < x.time))) :
    Tracks R goals f n b' := by
  have hran : ∀ u, u ≠ t → (u ∈ b'.ran ↔ u ∈ b.ran) := by
    intro u hne
    rcases hlog with ⟨hlog, -⟩ | ⟨hlog, -⟩
    · rw [Build.ran, hlog, Build.ran]
    · rw [Build.ran, hlog, List.map_append, List.mem_append, Build.ran]
      exact or_iff_left (by simpa using hne)
  have hrant : t ∈ b'.ran ↔ R.Outdated f t := by
    rcases hlog with ⟨hlog, -, hout⟩ | ⟨hlog, hout, -⟩
    · refine iff_of_false ?_ hout
      rw [Build.ran, hlog]
      exact h.not_ran hunseen
    · refine iff_of_true ?_ hout
      rw [Build.ran, hlog]
      simp
  constructor
  case later => exact h.later.trans hnow
  case times =>
    intro u x hx
    by_cases hut : u = t
    · exact htime x (hut ▸ hx)
    · exact (h.times u x (hfiles u hut ▸ hx)).trans hnow
  case wanted =>
    intro u hu
    by_cases hut : u = t
    · exact hut ▸ hwanted
    · exact h.wanted u (hother u hut ▸ hu)
  case closed =>
    intro u hu d hd
    by_cases hdt : d = t
    · exact hdt ▸ hseen
    · rw [hother d hdt]
      by_cases hut : u = t
      · exact hneeds d (hut ▸ hd)
      · exact h.closed u (hother u hut ▸ hu) d hd
  case unseen =>
    intro u hu
    by_cases hut : u = t
    · exact hut ▸ hseen
    · exact hother u hut ▸ h.unseen u ((hran u hut).mp hu)
  case record =>
    intro u hu hfile
    by_cases hut : u = t
    · subst hut
      exact hrecord hfile
    · rw [hother u hut, hfiles u hut]
      exact h.record u (hother u hut ▸ hu) hfile
  case kept =>
    intro u hu
    by_cases hut : u = t
    · subst hut
      rcases hlog with ⟨-, hsame, -⟩ | ⟨-, hout, -⟩
      · exact hsame.trans (h.kept u (h.not_ran hunseen))
      · exact absurd (hrant.mpr hout) hu
    · exact (hfiles u hut).trans (h.kept u (mt (hran u hut).mpr hu))
  case made =>
    intro u hu hfile
    by_cases hut : u = t
    · subst hut
      rcases hlog with ⟨-, -, hout⟩ | ⟨-, -, hmade⟩
      · exact absurd (hrant.mp hu) hout
      · exact hmade hfile
    · rw [hfiles u hut]
      exact h.made u ((hran u hut).mp hu) hfile
  case ran =>
    intro u hu
    by_cases hut : u = t
    · exact hut ▸ hrant
    · exact (hran u hut).trans (h.ran u (hother u hut ▸ hu))
  case current =>
    intro u hu hfile
    by_cases hut : u = t
    · subst hut
      exact hcurrent hfile
    · have hu := hother u hut ▸ hu
      obtain ⟨x, hx, hd⟩ := h.current u hu hfile
      refine ⟨x, (hfiles u hut).trans hx, fun d hdn => ?_⟩
      have hdt : d ≠ t := by
        rintro rfl
        exact h.closed u hu d (Rules.needs_of_normal hdn) hunseen
      exact hfiles d hdt ▸ hd d hdn
  case order =>
    rcases hlog with ⟨hlog, -⟩ | ⟨hlog, -⟩
    · rw [Build.ran, hlog]
      exact h.order
    · rw [Build.ran, hlog, List.map_append, List.pairwise_append]
      refine ⟨h.order, List.pairwise_singleton _ _, fun u hu v hv => ?_⟩
      exact List.mem_singleton.mp hv ▸ h.not_reach hunseen hu
  case ready =>
    intro e he
    rcases hlog with ⟨hlog, -⟩ | ⟨hlog, -⟩
    · exact h.ready e (hlog ▸ he)
    · rw [hlog, List.mem_append, List.mem_singleton] at he
      rcases he with he | rfl
      · exact h.ready e he
      · exact h.exists_file hneeds

theorem current_of_upToDate (h : Tracks R goals f n b) (hneeds : ∀ d ∈ R.needs t, b.seen d ≠ none)
    (hfile : R.isFile t = true) (hout : R.outdated b t = false) : R.Current b.files t := by
  rw [Rules.outdated, hfile, Bool.not_true, Bool.false_or] at hout
  cases hft : b.files t with
  | none => rw [hft] at hout; cases hout
  | some x =>
    rw [hft] at hout
    refine ⟨x, hft, fun d hd => ?_⟩
    have hseen := hneeds d (Rules.needs_of_normal hd)
    have hdfile := Rules.isFile_of_normal hfile hd
    obtain ⟨y, hy, -⟩ := h.current d hseen hdfile
    have hnot := List.any_eq_false.mp hout d hd
    rw [h.record d hseen hdfile, hy] at hnot
    exact ⟨y, hy, Nat.le_of_not_lt (by simpa using hnot)⟩

variable [DecidableEq T] {produce : T → List (Option V) → V} {cut : T → Option (Cut V)}

theorem finish (h : Tracks R goals f n b) (htimes : ∀ t x, f t = some x → x.time ≤ n)
    (hbuilding : ∀ ts, R.recipe t = .remove ts → ts = []) (hwanted : ∃ g ∈ goals, R.Reach g t)
    (hunseen : b.seen t = none) (hneeds : ∀ d ∈ R.needs t, b.seen d ≠ none) :
    (R.finish produce cut t b).Holds (Tracks R goals f n) (Stopped R goals f n) := by
  have hiff := h.outdated_iff htimes hunseen hneeds
  have hfinished := Rules.finished R produce cut b t
  revert hfinished
  generalize R.finish produce cut t b = x
  rintro (⟨hfile, hout⟩ | ⟨hrecipe, -, hout⟩ | ⟨hrecipe, -⟩ | ⟨hrecipe, -⟩ | ⟨hrecipe, -, -, -, hout⟩ | ⟨-, -, hout⟩)
  · have hseen := Rules.see_seen_self b t true
    exact h.extend hunseen hneeds hwanted le_rfl (fun _ _ => rfl) (h.times t)
      (fun u hne => Rules.see_seen_of_ne b true hne) (hseen ▸ Option.some_ne_none _) (fun _ => hseen)
      (fun _ => h.current_of_upToDate hneeds hfile hout)
      (.inl ⟨rfl, rfl, fun hf => by rw [hiff.mpr hf] at hout; cases hout⟩)
  · have hseen := Rules.see_seen_self (R.create produce (b.start t) t) t true
    have hnew : (R.create produce (b.start t) t).files t = some ⟨b.now + 1,
        produce t ((R.normal t).map fun d => (b.files d).map File.content)⟩ := Function.update_self ..
    have hold : ∀ u, u ≠ t → (R.create produce (b.start t) t).files u = b.files u :=
      fun u hne => Function.update_of_ne hne ..
    have hlater : b.now ≤ (R.create produce (b.start t) t).now := Nat.le_succ b.now
    refine h.extend hunseen hneeds hwanted hlater hold ?_
      (fun u hne => Rules.see_seen_of_ne _ true hne) (hseen ▸ Option.some_ne_none _) (fun _ => hseen) ?_
      (.inr ⟨rfl, hiff.mp hout, fun _ => ⟨_, hnew, Nat.lt_succ_of_le h.later⟩⟩)
    · intro x hx
      obtain rfl := Option.some.inj (hnew.symm.trans hx)
      exact le_rfl
    · intro hfile
      refine ⟨_, hnew, fun d hd => ?_⟩
      have hdt : d ≠ t := by
        rintro rfl
        have := Rules.rank_of_needs (Rules.needs_of_normal hd)
        omega
      obtain ⟨y, hy, -⟩ := h.current d (hneeds d (Rules.needs_of_normal hd)) (Rules.isFile_of_normal hfile hd)
      exact ⟨y, (hold d hdt).trans hy, (h.times d y hy).trans (Nat.le_succ b.now)⟩
  · obtain rfl := hbuilding _ hrecipe
    have hfile : R.isFile t = false := by rw [Rules.isFile, hrecipe]; rfl
    rw [Rules.remove_nil]
    refine h.extend hunseen hneeds hwanted le_rfl (fun _ _ => rfl) (h.times t)
      (fun u hne => Rules.see_seen_of_ne _ false hne)
      (Rules.see_seen_self (b.start t) t false ▸ Option.some_ne_none _) (fun ht => ?_) (fun ht => ?_)
      (.inr ⟨rfl, .phony hfile, fun ht => ?_⟩)
    all_goals rw [hfile] at ht; cases ht
  · obtain rfl := hbuilding _ hrecipe
    have hfile : R.isFile t = false := by rw [Rules.isFile, hrecipe]; rfl
    refine ⟨b, t, h, hunseen, hneeds, hwanted, hiff.mpr (.phony hfile), .inl ?_⟩
    rw [List.take_nil, Rules.remove_nil]
  · exact ⟨b, t, h, hunseen, hneeds, hwanted, hout, .inr ⟨hrecipe, _, rfl⟩⟩
  · exact ⟨b, t, h, hunseen, hneeds, hwanted, hout, .inl rfl⟩

end Tracks

/-! ### A call of make -/

section Call

variable [DecidableEq T] {R : Rules T} {produce : T → List (Option V) → V} {cut : T → Option (Cut V)}
  {goals : List T} {f : Files T V} {n : ℕ} {b : Build T V} {t u : T}

omit [DecidableEq T] in
theorem Tracks.initial (goals : List T) (htimes : ∀ t x, f t = some x → x.time ≤ n) :
    Tracks R goals f n ⟨f, n, fun _ => none, []⟩ where
  later := le_rfl
  times := htimes
  wanted := fun _ h => absurd rfl h
  closed := fun _ h => absurd rfl h
  unseen := fun _ h => absurd h List.not_mem_nil
  record := fun _ h => absurd rfl h
  kept := fun _ _ => rfl
  made := fun _ h => absurd h List.not_mem_nil
  ran := fun _ h => absurd rfl h
  current := fun _ h => absurd rfl h
  order := .nil
  ready := fun _ h => absurd h List.not_mem_nil

theorem holds_tracks (produce : T → List (Option V) → V) (cut : T → Option (Cut V))
    (hgoals : ∀ g ∈ goals, R.Building g) (htimes : ∀ t x, f t = some x → x.time ≤ n) :
    (R.make produce cut goals f n).Holds (fun b => Tracks R goals f n b ∧ ∀ g ∈ goals, b.seen g ≠ none)
      (Stopped R goals f n) := by
  refine Rules.holds_make ?_ (Tracks.initial goals htimes)
  intro g hg u b hreach h hunseen hneeds
  exact h.finish htimes (hgoals g hg u hreach) ⟨g, hg, hreach⟩ hunseen hneeds

/-- Whichever way the call ends, its recipes are those of targets that were out of date, in an
order in which no prerequisite comes later, and each one finds every file below its target. -/
theorem started (produce : T → List (Option V) → V) (cut : T → Option (Cut V))
    (hgoals : ∀ g ∈ goals, R.Building g) (htimes : ∀ t x, f t = some x → x.time ≤ n) :
    let b := (R.make produce cut goals f n).state
    (∀ t ∈ b.ran, R.Outdated f t ∧ ∃ g ∈ goals, R.Reach g t) ∧
      b.ran.Pairwise (fun t u => ¬ R.Reach t u) ∧ ∀ e ∈ b.log, R.Ready e.1 e.2 := by
  have h := holds_tracks produce cut hgoals htimes
  revert h
  cases R.make produce cut goals f n with
  | ok b =>
    rintro ⟨h, -⟩
    exact ⟨fun t ht => ⟨(h.ran t (h.unseen t ht)).mp ht, h.wanted t (h.unseen t ht)⟩, h.order, h.ready⟩
  | fail e b =>
    rintro ⟨b₀, t, h, hunseen, hneeds, hwanted, hout, hb⟩
    have hlog : b.log = b₀.log ++ [(t, b₀.files)] := by
      rcases hb with rfl | ⟨-, v, rfl⟩
      all_goals rfl
    have hran : b.ran = b₀.ran ++ [t] := by simp [Build.ran, hlog]
    refine ⟨fun u hu => ?_, ?_, fun e he => ?_⟩
    · rw [Exit.state, hran, List.mem_append, List.mem_singleton] at hu
      rcases hu with hu | rfl
      · exact ⟨(h.ran u (h.unseen u hu)).mp hu, h.wanted u (h.unseen u hu)⟩
      · exact ⟨(h.outdated_iff htimes hunseen hneeds).mp hout, hwanted⟩
    · rw [Exit.state, hran, List.pairwise_append]
      refine ⟨h.order, List.pairwise_singleton _ _, fun u hu v hv => ?_⟩
      exact List.mem_singleton.mp hv ▸ h.not_reach hunseen hu
    · rw [Exit.state, hlog] at he
      rcases List.mem_append.mp he with he | he
      · exact h.ready e he
      · rw [List.mem_singleton.mp he]
        exact h.exists_file hneeds

theorem Stopped.times (h : Stopped R goals f n b) : ∀ t x, b.files t = some x → x.time ≤ b.now := by
  obtain ⟨b₀, u, htracks, -, -, -, -, rfl | ⟨-, v, rfl⟩⟩ := h
  · exact htracks.times
  · intro t x hx
    by_cases htu : t = u
    · subst htu
      rw [Rules.write_files_self, Option.some_inj] at hx
      exact hx ▸ le_rfl
    · rw [Rules.write_files_of_ne _ v htu] at hx
      exact (htracks.times t x hx).trans (Nat.le_succ _)

theorem tracks_of_ok (hgoals : ∀ g ∈ goals, R.Building g) (htimes : ∀ t x, f t = some x → x.time ≤ n)
    (h : R.make produce cut goals f n = .ok b) : Tracks R goals f n b ∧ ∀ g ∈ goals, b.seen g ≠ none := by
  have hholds := holds_tracks produce cut hgoals htimes
  rw [h] at hholds
  exact hholds

/-- A call that succeeds runs the recipes of all targets that are out of date. -/
theorem ran_iff (hgoals : ∀ g ∈ goals, R.Building g) (htimes : ∀ t x, f t = some x → x.time ≤ n)
    (h : R.make produce cut goals f n = .ok b) :
    t ∈ b.ran ↔ (∃ g ∈ goals, R.Reach g t) ∧ R.Outdated f t := by
  obtain ⟨htracks, hseen⟩ := tracks_of_ok hgoals htimes h
  constructor
  · intro ht
    have hseen := htracks.unseen t ht
    exact ⟨htracks.wanted t hseen, (htracks.ran t hseen).mp ht⟩
  · rintro ⟨⟨g, hg, hreach⟩, hout⟩
    exact (htracks.ran t (htracks.seen_reach (hseen g hg) hreach)).mpr hout

theorem current_of_ok (hgoals : ∀ g ∈ goals, R.Building g) (htimes : ∀ t x, f t = some x → x.time ≤ n)
    (h : R.make produce cut goals f n = .ok b) {g : T} (hg : g ∈ goals) (hreach : R.Reach g t)
    (hfile : R.isFile t = true) : R.Current b.files t := by
  obtain ⟨htracks, hseen⟩ := tracks_of_ok hgoals htimes h
  exact htracks.current t (htracks.seen_reach (hseen g hg) hreach) hfile

omit [DecidableEq T] in
/-- Nothing is out of date where every file is current. -/
theorem not_outdated (h : ∀ u, R.Reach t u → R.isFile u = true → R.Current f u) (ht : R.isFile t = true) :
    ¬ R.Outdated f t := by
  intro hout
  induction hout with
  | phony hphony => rw [ht] at hphony; cases hphony
  | missing hnone =>
    obtain ⟨x, hx, -⟩ := h _ .refl ht
    rw [hnone] at hx
    cases hx
  | newer hd hft hfd hlt =>
    obtain ⟨x, hx, hcurrent⟩ := h _ .refl ht
    obtain ⟨y, hy, hle⟩ := hcurrent _ hd
    obtain rfl := Option.some.inj (hft.symm.trans hx)
    obtain rfl := Option.some.inj (hfd.symm.trans hy)
    omega
  | prereq hd _ ih =>
    have hneeds := Rules.needs_of_normal hd
    exact ih (fun u hu => h u (.head hneeds hu)) (Rules.isFile_of_normal ht hd)

omit [DecidableEq T] in
/-- If every file was current and some have changed since, what is out of date has changed or is
compared with something that has. -/
theorem changed_of_outdated {f' : Files T V} (changed : T → Prop)
    (hcurrent : ∀ u, R.Reach t u → R.isFile u = true → R.Current f u)
    (hkept : ∀ u, ¬ changed u → f' u = f u)
    (hup : ∀ u d, R.Reach t u → R.isFile u = true → d ∈ R.normal u → changed d → changed u)
    (hout : R.Outdated f' t) (ht : R.isFile t = true) : changed t := by
  induction hout with
  | phony hphony => rw [ht] at hphony; cases hphony
  | @missing t hnone =>
    by_contra hnot
    obtain ⟨x, hx, -⟩ := hcurrent t .refl ht
    rw [hkept t hnot, hx] at hnone
    cases hnone
  | @newer t d x y hd hx hy hlt =>
    by_contra hnot
    have hnotd : ¬ changed d := fun h => hnot (hup t d .refl ht hd h)
    obtain ⟨x', hx', hdeps⟩ := hcurrent t .refl ht
    obtain ⟨y', hy', hle⟩ := hdeps d hd
    rw [hkept t hnot, hx'] at hx
    rw [hkept d hnotd, hy'] at hy
    obtain rfl := Option.some.inj hx
    obtain rfl := Option.some.inj hy
    omega
  | @prereq t d hd _ ih =>
    have hneeds := Rules.needs_of_normal hd
    exact hup t d .refl ht hd (ih (fun u hu => hcurrent u (.head hneeds hu))
      (fun u e hu => hup u e (.head hneeds hu)) (Rules.isFile_of_normal ht hd))

/-- Nothing is cut off, and the files that are not made are there: the call succeeds. -/
theorem exists_ok (produce : T → List (Option V) → V) (hgoals : ∀ g ∈ goals, R.Building g)
    (htimes : ∀ t x, f t = some x → x.time ≤ n)
    (hcut : ∀ t, cut t = none)
    (habsent : ∀ g ∈ goals, ∀ t, R.Reach g t → R.recipe t = .absent → f t ≠ none ∧ R.normal t = []) :
    ∃ b, R.make produce cut goals f n = .ok b := by
  have h : (R.make produce cut goals f n).Holds
      (fun b => Tracks R goals f n b ∧ ∀ g ∈ goals, b.seen g ≠ none) (fun _ => False) := by
    refine Rules.holds_make ?_ (Tracks.initial goals htimes)
    intro g hg u b hreach h hunseen hneeds
    have hfinish : (R.finish produce cut u b).Holds (Tracks R goals f n) (Stopped R goals f n) :=
      h.finish htimes (hgoals g hg u hreach) ⟨g, hg, hreach⟩ hunseen hneeds
    have hiff := h.outdated_iff htimes hunseen hneeds
    have hfinished := Rules.finished R produce cut b u
    revert hfinish hfinished
    generalize R.finish produce cut u b = x
    intro hfinish hfinished
    cases hfinished with
    | upToDate => exact hfinish
    | created => exact hfinish
    | removed => exact hfinish
    | removing _ hk => rw [hcut] at hk; cases hk
    | begun _ _ hk => rw [hcut] at hk; cases hk
    | failed hfile hnone hout =>
      cases hrecipe : R.recipe u with
      | create => exact hnone hrecipe (hcut u)
      | remove ts => rw [Rules.isFile, hrecipe] at hfile; cases hfile
      | absent =>
        obtain ⟨hpresent, hnormal⟩ := habsent g hg u hreach hrecipe
        cases hiff.mp hout with
        | phony hphony => rw [hfile] at hphony; cases hphony
        | missing hmissing => exact hpresent hmissing
        | newer hd => rw [hnormal] at hd; cases hd
        | prereq hd => rw [hnormal] at hd; cases hd
  revert h
  cases R.make produce cut goals f n with
  | ok b => exact fun _ => ⟨b, rfl⟩
  | fail e b => exact False.elim

end Call

end CargosBuildroot.Make
