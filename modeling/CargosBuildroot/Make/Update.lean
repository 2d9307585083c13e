import CargosBuildroot.Shell.Script
import Mathlib.Logic.Function.Basic
import Mathlib.Logic.Relation

/-! Updating targets as make does it. A target is considered once, after its prerequisites; its
recipe is run if there is no such file, or if one of its prerequisites that are not order-only is
newer. Of a file only the time and the content matter. The prerequisites of a target have a lower
rank, so that none are circular. A recipe writes no file but that of its target. -/

namespace CargosBuildroot.Make

open Relation Shell

/-- A prerequisite, in front of the bar of a rule or behind it. -/
structure Prereq (T : Type*) where
  target : T
  orderOnly : Bool

/-- What the recipe of a target does. A target whose recipe removes files is none itself; it removes
them in their order. -/
inductive Recipe (T : Type*)
  | create
  | remove (files : List T)
  /-- The file is not made; the recipe reports that it is missing. -/
  | absent

def Recipe.isFile {T : Type*} : Recipe T → Bool
  | .remove _ => false
  | _ => true

/-- The rules of a makefile. What a file is compared with are files. A recipe is `early` if it begins
to write the file before its last command. -/
structure Rules (T : Type*) where
  prereqs : T → List (Prereq T)
  recipe : T → Recipe T
  early : T → Bool
  rank : T → ℕ
  rank_lt : ∀ t, ∀ d ∈ prereqs t, rank d.target < rank t
  solid : ∀ t, (recipe t).isFile = true → ∀ d ∈ prereqs t, d.orderOnly = false →
    (recipe d.target).isFile = true

structure File (V : Type*) where
  time : ℕ
  content : V

abbrev Files (T V : Type*) := T → Option (File V)

/-- How a recipe is cut off: how many files it has removed by then, or what it has written. -/
structure Cut (V : Type*) where
  removed : ℕ
  written : Option V

/-- The state of a run: the files and the clock, the targets that were considered, each with the
time that its file had then, and the recipes that were started, each with the files it has found. -/
structure Build (T V : Type*) where
  files : Files T V
  now : ℕ
  seen : T → Option (Option ℕ)
  log : List (T × Files T V)

variable {T V : Type*}

namespace Rules

variable (R : Rules T)

def needs (t : T) : List T := (R.prereqs t).map (·.target)

/-- The prerequisites in front of the bar. -/
def normal (t : T) : List T := ((R.prereqs t).filter (!·.orderOnly)).map (·.target)

def isFile (t : T) : Bool := (R.recipe t).isFile

/-- The targets that are considered for a target. -/
def Reach : T → T → Prop := ReflTransGen fun t d => d ∈ R.needs t

/-- The recipe is to be run: the prerequisites have been considered. -/
def outdated (b : Build T V) (t : T) : Bool :=
  !R.isFile t || match b.files t with
    | none => true
    | some f => (R.normal t).any fun d =>
      match b.seen d with
      | some (some time) => decide (f.time < time)
      | _ => true

end Rules

def Build.start (b : Build T V) (t : T) : Build T V := { b with log := b.log ++ [(t, b.files)] }

def Build.write [DecidableEq T] (b : Build T V) (t : T) (content : V) : Build T V :=
  { b with files := Function.update b.files t (some ⟨b.now + 1, content⟩), now := b.now + 1 }

def Build.remove [DecidableEq T] (b : Build T V) (ts : List T) : Build T V :=
  { b with files := fun u => if u ∈ ts then none else b.files u }

/-- The time of the file at the moment is the one that is compared from now on. -/
def Build.see [DecidableEq T] (b : Build T V) (t : T) (isFile : Bool) : Build T V :=
  let time := if isFile then (b.files t).map File.time else none
  { b with seen := Function.update b.seen t (some time) }

namespace Rules

section

variable [DecidableEq T] (R : Rules T)

/- What a recipe makes of the contents of its prerequisites, and which recipes are cut off in the
run. What one of them has written to the file stays there, as nothing tells make to delete it. -/
variable (produce : T → List (Option V) → V) (cut : T → Option (Cut V))

def create (b : Build T V) (t : T) : Build T V :=
  b.write t (produce t ((R.normal t).map fun d => (b.files d).map File.content))

def begun (b : Build T V) (t : T) (written : Option V) : Build T V :=
  match written with
  | some v => if R.early t then b.write t v else b
  | none => b

def run (t : T) : Script T (Build T V) := fun b =>
  match R.recipe t, cut t with
  | .create, none => .ok (R.create produce (b.start t) t)
  | .create, some c => .fail t (R.begun (b.start t) t c.written)
  | .remove ts, none => .ok ((b.start t).remove ts)
  | .remove ts, some c => .fail t ((b.start t).remove (ts.take c.removed))
  | .absent, _ => .fail t (b.start t)

/-- The end of the consideration of a target, after its prerequisites. -/
def finish (t : T) : Script T (Build T V) := fun b =>
  if R.outdated b t then
    ((R.run produce cut t).andThen (Script.update fun b => b.see t (R.isFile t))) b
  else .ok (b.see t (R.isFile t))

/-- The depth of the recursion is bounded; a bound above the rank of the target is enough. -/
def update : ℕ → T → Script T (Build T V)
  | 0, t => Exit.fail t
  | n + 1, t => fun b =>
    if (b.seen t).isSome then .ok b
    else ((Script.forEach (R.prereqs t) fun d => update n d.target).andThen
      (R.finish produce cut t)) b

/-- A call of make. -/
def make (goals : List T) (files : Files T V) (now : ℕ) : Exit T (Build T V) :=
  Script.forEach goals (fun t => R.update produce cut (R.rank t + 1) t) ⟨files, now, fun _ => none, []⟩

end

/-! ### What a run keeps -/

variable {R : Rules T} {produce : T → List (Option V) → V} {cut : T → Option (Cut V)} {t u d : T}
  {b b' : Build T V}

theorem mem_needs : d ∈ R.needs t ↔ ∃ p ∈ R.prereqs t, p.target = d := List.mem_map

theorem needs_of_normal (h : d ∈ R.normal t) : d ∈ R.needs t := by
  obtain ⟨p, hp, rfl⟩ := List.mem_map.mp h
  exact mem_needs.mpr ⟨p, (List.mem_filter.mp hp).1, rfl⟩

theorem isFile_of_normal (ht : R.isFile t = true) (h : d ∈ R.normal t) : R.isFile d = true := by
  obtain ⟨p, hp, rfl⟩ := List.mem_map.mp h
  obtain ⟨hmem, horder⟩ := List.mem_filter.mp hp
  exact R.solid t ht p hmem (by simpa using horder)

theorem rank_of_needs (h : d ∈ R.needs t) : R.rank d < R.rank t := by
  obtain ⟨p, hp, rfl⟩ := mem_needs.mp h
  exact R.rank_lt t p hp

theorem rank_of_reach (h : R.Reach t u) : R.rank u ≤ R.rank t := by
  induction h with
  | refl => exact Nat.le_refl _
  | tail _ hneeds ih => exact Nat.le_trans (Nat.le_of_lt (rank_of_needs hneeds)) ih

variable [DecidableEq T]

@[simp] theorem see_files (b : Build T V) (t : T) (isFile : Bool) : (b.see t isFile).files = b.files := rfl

@[simp] theorem see_now (b : Build T V) (t : T) (isFile : Bool) : (b.see t isFile).now = b.now := rfl

@[simp] theorem see_log (b : Build T V) (t : T) (isFile : Bool) : (b.see t isFile).log = b.log := rfl

@[simp] theorem write_now (b : Build T V) (t : T) (v : V) : (b.write t v).now = b.now + 1 := rfl

theorem write_files_self (b : Build T V) (t : T) (v : V) : (b.write t v).files t = some ⟨b.now + 1, v⟩ :=
  Function.update_self ..

theorem write_files_of_ne (b : Build T V) (v : V) (h : u ≠ t) : (b.write t v).files u = b.files u :=
  Function.update_of_ne h ..

@[simp] theorem remove_nil (b : Build T V) : b.remove [] = b := by simp [Build.remove]

theorem see_seen_self (b : Build T V) (t : T) (isFile : Bool) :
    (b.see t isFile).seen t = some (if isFile then (b.files t).map File.time else none) :=
  Function.update_self ..

theorem see_seen_of_ne (b : Build T V) (isFile : Bool) (h : u ≠ t) :
    (b.see t isFile).seen u = b.seen u :=
  Function.update_of_ne h ..

theorem begun_cases (R : Rules T) (b : Build T V) (t : T) (written : Option V) :
    (∃ v, R.early t = true ∧ written = some v ∧ R.begun b t written = b.write t v) ∨
      R.begun b t written = b := by
  cases written with
  | none => exact .inr rfl
  | some v =>
    cases hearly : R.early t with
    | false => exact .inr (if_neg (by simp [hearly]))
    | true => exact .inl ⟨v, rfl, rfl, if_pos hearly⟩

/-- How the consideration of a target ends. -/
inductive Finished (R : Rules T) (produce : T → List (Option V) → V) (cut : T → Option (Cut V)) (b : Build T V)
    (t : T) : Exit T (Build T V) → Prop
  | upToDate (hfile : R.isFile t = true) (h : R.outdated b t = false) :
      Finished R produce cut b t (.ok (b.see t true))
  | created (hrecipe : R.recipe t = .create) (hcut : cut t = none) (h : R.outdated b t = true) :
      Finished R produce cut b t (.ok ((R.create produce (b.start t) t).see t true))
  | removed {ts : List T} (hrecipe : R.recipe t = .remove ts) (hcut : cut t = none) :
      Finished R produce cut b t (.ok (((b.start t).remove ts).see t false))
  | removing {ts : List T} {c : Cut V} (hrecipe : R.recipe t = .remove ts) (hcut : cut t = some c) :
      Finished R produce cut b t (.fail t ((b.start t).remove (ts.take c.removed)))
  | begun {c : Cut V} {v : V} (hrecipe : R.recipe t = .create) (hearly : R.early t = true)
      (hcut : cut t = some c) (hwritten : c.written = some v) (h : R.outdated b t = true) :
      Finished R produce cut b t (.fail t ((b.start t).write t v))
  | failed (hfile : R.isFile t = true) (hcut : R.recipe t = .create → cut t ≠ none)
      (h : R.outdated b t = true) : Finished R produce cut b t (.fail t (b.start t))

theorem finished (R : Rules T) (produce : T → List (Option V) → V) (cut : T → Option (Cut V)) (b : Build T V)
    (t : T) : Finished R produce cut b t (R.finish produce cut t b) := by
  rw [finish]
  cases hrecipe : R.recipe t with
  | create =>
    have hfile : R.isFile t = true := by rw [isFile, hrecipe]; rfl
    cases hout : R.outdated b t with
    | false =>
      rw [if_neg Bool.false_ne_true, hfile]
      exact .upToDate hfile hout
    | true =>
      rw [if_pos rfl, Script.andThen, run, hrecipe]
      cases hcut : cut t with
      | none =>
        dsimp only [Script.update]
        rw [hfile]
        exact .created hrecipe hcut hout
      | some c =>
        have hnone : R.recipe t = .create → cut t ≠ none := fun _ => hcut ▸ Option.some_ne_none c
        rcases begun_cases R (b.start t) t c.written with ⟨v, hearly, hwritten, hbegun⟩ | hbegun
        · dsimp only
          rw [hbegun]
          exact .begun hrecipe hearly hcut hwritten hout
        · dsimp only
          rw [hbegun]
          exact .failed hfile hnone hout
  | remove ts =>
    have hfile : R.isFile t = false := by rw [isFile, hrecipe]; rfl
    have hout : R.outdated b t = true := by rw [outdated, hfile]; rfl
    rw [if_pos hout, Script.andThen, run, hrecipe]
    cases hcut : cut t with
    | none =>
      dsimp only [Script.update]
      rw [hfile]
      exact .removed hrecipe hcut
    | some c => exact .removing hrecipe hcut
  | absent =>
    have hfile : R.isFile t = true := by rw [isFile, hrecipe]; rfl
    cases hout : R.outdated b t with
    | false =>
      rw [if_neg Bool.false_ne_true, hfile]
      exact .upToDate hfile hout
    | true =>
      rw [if_pos rfl, Script.andThen, run, hrecipe]
      exact .failed hfile (fun h => by rw [hrecipe] at h; cases h) hout

theorem Finished.seen_of_ne {x : Exit T (Build T V)} (h : Finished R produce cut b t x) (hne : u ≠ t) :
    x.state.seen u = b.seen u := by
  cases h with
  | upToDate => exact see_seen_of_ne _ _ hne
  | created => exact see_seen_of_ne _ _ hne
  | removed => exact see_seen_of_ne _ _ hne
  | removing => rfl
  | begun => rfl
  | failed => rfl

theorem Finished.seen_self (h : Finished R produce cut b t (.ok b')) : b'.seen t ≠ none := by
  cases h with
  | upToDate => exact see_seen_self b t true ▸ Option.some_ne_none _
  | created => exact see_seen_self _ t true ▸ Option.some_ne_none _
  | removed => exact see_seen_self _ t false ▸ Option.some_ne_none _

theorem Finished.seen_mono (h : Finished R produce cut b t (.ok b')) (hu : b.seen u ≠ none) :
    b'.seen u ≠ none := by
  by_cases hut : u = t
  · exact hut ▸ h.seen_self
  · exact (h.seen_of_ne hut).symm ▸ hu

theorem finished_of_eq {x : Exit T (Build T V)} (h : R.finish produce cut t b = x) :
    Finished R produce cut b t x :=
  h ▸ finished R produce cut b t

/-- The rule for the update of a target: what every target that is considered for it keeps when
its prerequisites have been considered, and what holds when one of them fails. -/
theorem holds_update {n : ℕ} (hn : R.rank t < n) {I E : Build T V → Prop}
    (hfinish : ∀ u b, R.Reach t u → I b → b.seen u = none → (∀ d ∈ R.needs u, b.seen d ≠ none) →
      (R.finish produce cut u b).Holds I E)
    (h : I b) : (R.update produce cut n t b).Holds (fun b' => I b' ∧ b'.seen t ≠ none) E := by
  induction n generalizing t b I with
  | zero => omega
  | succ n ih =>
    rw [update]
    dsimp only
    split
    next hseen => exact ⟨h, Option.isSome_iff_ne_none.mp hseen⟩
    next hseen =>
      have hnone : b.seen t = none := Option.not_isSome_iff_eq_none.mp hseen
      -- the prerequisites that are done stay considered, and the target is not yet
      refine Script.holds_andThen (Script.holds_forEach
        (fun done b => I b ∧ b.seen t = none ∧ ∀ p ∈ done, b.seen p.target ≠ none)
        ⟨h, hnone, by simp⟩ ?_) ?_
      · rintro done p b hp hinv
        have hneeds : p.target ∈ R.needs t := List.mem_map_of_mem hp
        have hrank := rank_of_needs hneeds
        refine (ih (I := fun b => I b ∧ b.seen t = none ∧ ∀ p ∈ done, b.seen p.target ≠ none) (by omega)
          ?_ hinv).mono ?_ fun _ => id
        · rintro u b hreach ⟨hI, hnone, hdone⟩ hunseen hneeded
          have hne : t ≠ u := by
            rintro rfl
            have := rank_of_reach hreach
            omega
          refine (hfinish u b (.head hneeds hreach) hI hunseen hneeded).and fun b' hfin _ => ?_
          have hfinished := finished_of_eq hfin
          exact ⟨(hfinished.seen_of_ne hne).trans hnone, fun q hq => hfinished.seen_mono (hdone q hq)⟩
        · rintro b' ⟨⟨hI, hnone, hdone⟩, hseen⟩
          exact ⟨hI, hnone, fun q hq => (List.mem_append.mp hq).elim (hdone q)
            fun hq => List.mem_singleton.mp hq ▸ hseen⟩
      · rintro b ⟨hI, hnone, hdone⟩
        have hneeded : ∀ d ∈ R.needs t, b.seen d ≠ none := by
          intro d hd
          obtain ⟨p, hp, rfl⟩ := mem_needs.mp hd
          exact hdone p hp
        exact (hfinish t b .refl hI hnone hneeded).and fun _ hfin _ =>
          (finished_of_eq hfin).seen_self

/-- The rule for a call of make. -/
theorem holds_make {goals : List T} {files : Files T V} {now : ℕ} {I E : Build T V → Prop}
    (hfinish : ∀ g ∈ goals, ∀ u b, R.Reach g u → I b → b.seen u = none →
      (∀ d ∈ R.needs u, b.seen d ≠ none) → (R.finish produce cut u b).Holds I E)
    (h : I ⟨files, now, fun _ => none, []⟩) :
    (R.make produce cut goals files now).Holds (fun b => I b ∧ ∀ g ∈ goals, b.seen g ≠ none) E := by
  refine Script.holds_forEach (fun done b => I b ∧ ∀ g ∈ done, b.seen g ≠ none) ⟨h, by simp⟩ ?_
  rintro done g b hg hinv
  refine (holds_update (I := fun b => I b ∧ ∀ g ∈ done, b.seen g ≠ none) (Nat.lt_succ_self (R.rank g))
    ?_ hinv).mono ?_ fun _ => id
  · rintro u b hreach ⟨hI, hdone⟩ hunseen hneeded
    exact (hfinish g hg u b hreach hI hunseen hneeded).and fun _ hfin _ q hq =>
      (finished_of_eq hfin).seen_mono (hdone q hq)
  · rintro b' ⟨⟨hI, hdone⟩, hseen⟩
    exact ⟨hI, fun q hq => (List.mem_append.mp hq).elim (hdone q)
      fun hq => List.mem_singleton.mp hq ▸ hseen⟩

end Rules

end CargosBuildroot.Make
