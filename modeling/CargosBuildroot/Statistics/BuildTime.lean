import CargosBuildroot.Python.Csv
import CargosBuildroot.Store.Dict
import Mathlib.Algebra.BigOperators.Group.Finset.Basic
import Mathlib.Data.Bool.AllAny
import Mathlib.Algebra.Ring.Int.Defs

/-! The build times of the packages. A hook of `pkg-generic.mk` writes a line to
`build-time.log` at the start and at the end of every step, and `graph-build-time` adds the
durations up again, for a package over the steps it has read and for the graphs over its own
list of steps. -/

namespace CargosBuildroot.Statistics

open Shell Python Store

/-! ### The hook -/

/-- The steps that `step_start` and `step_end` are called with. -/
inductive Step
  | extract
  | patch
  | configure
  | build
  | installHost
  | installStaging
  | installImage
  | installTarget
deriving DecidableEq

namespace Step

def text : Step → Text
  | .extract => "extract".toList
  | .patch => "patch".toList
  | .configure => "configure".toList
  | .build => "build".toList
  | .installHost => "install-host".toList
  | .installStaging => "install-staging".toList
  | .installImage => "install-image".toList
  | .installTarget => "install-target".toList

def all : List Step :=
  [.extract, .patch, .configure, .build, .installTarget, .installStaging, .installImage, .installHost]

theorem mem_all (s : Step) : s ∈ all := by cases s <;> decide

theorem text_injective : Function.Injective text := by
  intro s s'
  cases s <;> cases s' <;> decide

end Step

inductive Call
  | stepStart
  | stepEnd
deriving DecidableEq

def Call.text : Call → Text
  | .stepStart => "start".toList
  | .stepEnd => "end".toList

/-- The name of a package, which make takes from a list of words and puts between double
quotes. -/
structure PkgName where
  text : Text
  plain : ∀ c ∈ text, isWhitespace c = false ∧ c ∉ [':', '\x22', '\\', '$', '\x60', '\x00']

/-- A call of the hook. -/
structure Record where
  time : ℕ
  call : Call
  step : Step
  pkg : PkgName

/-- `printf "%-w.ps"` -/
def padded (w p : ℕ) (t : Text) : Text := (t.take p).rightpad w ' '

/-- The line that `step_time` writes, without its newline. -/
def stepTime (e : Record) : Text :=
  Nat.toDigits 10 e.time ++ ':' :: (padded 5 5 e.call.text ++ ':' :: (padded 20 20 e.step.text ++
    ':' :: ' ' :: e.pkg.text))

def buildTimeLog (log : List Record) : Text := unlines (log.map stepTime)

/-! ### The graphs -/

/-- The list `steps` of `graph-build-time`. -/
def steps : List Text :=
  ["extract".toList, "patch".toList, "configure".toList, "build".toList, "install-target".toList,
    "install-staging".toList, "install-images".toList, "install-host".toList]

structure Package where
  name : Text
  stepsDuration : Dict Text ℤ
  stepsStart : Dict Text ℤ
  stepsEnd : Dict Text ℤ

namespace Package

def init (name : Text) : Package := ⟨name, Dict.empty, Dict.empty, Dict.empty⟩

def addStep (p : Package) (step state : Text) (time : ℤ) : Package :=
  let p :=
    if state = "start".toList then { p with stepsStart := p.stepsStart.set step time }
    else { p with stepsEnd := p.stepsEnd.set step time }
  match p.stepsStart.get? step, p.stepsEnd.get? step with
  | some start, some stop => { p with stepsDuration := p.stepsDuration.set step (stop - start) }
  | _, _ => p

def getDuration (p : Package) : Option Text → ℤ
  | none => (p.stepsDuration.entries.map Prod.snd).sum
  | some step => (p.stepsDuration.get? step).getD 0

end Package

/-- The package is looked up by its name, or added at the end, and gets the step. -/
def addRow (pkg step state : Text) (time : ℤ) : List Package → List Package
  | [] => [(Package.init pkg).addStep step state time]
  | p :: ps =>
    if p.name = pkg then p.addStep step state time :: ps else p :: addRow pkg step state time ps

/-- The body of the loop of `read_data`; `none` is an exception. -/
def readRow (pkgs : List Package) : List Text → Option (List Package)
  | time :: state :: step :: pkg :: _ => do
    let time ← int (strip time)
    some (addRow (strip pkg) (strip step) (strip state) time pkgs)
  | _ => none

def readData (input : Text) : Option (List Package) := do
  let rows ← csvReader ':' input
  rows.foldlM readRow []

/-! ### Reading the log -/

/-- The packages after the calls of the hook. -/
def packages (log : List Record) : List Package :=
  log.foldl (fun pkgs e => addRow e.pkg.text e.step.text e.call.text e.time pkgs) []

theorem plainField_of_all {f : Text}
    (h : f.all (fun c => c ≠ ':' && c ≠ '\n' && c ≠ '\r' && c ≠ '\x00' && c ≠ '\x22') = true) :
    PlainField ':' f := by
  intro c hc
  simpa [and_assoc] using List.all_eq_true.mp h c hc

theorem plainField_digits (n : ℕ) : PlainField ':' (Nat.toDigits 10 n) := by
  intro c hc
  have hdigit : c.isDigit = true := Nat.isDigit_of_mem_toDigits (by decide) (by decide) hc
  refine ⟨?_, ?_, ?_, ?_, ?_⟩ <;>
  · rintro rfl
    exact absurd hdigit (by decide)

theorem PkgName.plainField (name : PkgName) : PlainField ':' (' ' :: name.text) := by
  rw [PlainField, List.forall_mem_cons]
  refine ⟨by decide, fun c hc => ?_⟩
  obtain ⟨hspace, hnot⟩ := name.plain c hc
  simp only [List.mem_cons, List.not_mem_nil, or_false, not_or] at hnot
  refine ⟨hnot.1, ?_, ?_, hnot.2.2.2.2.2, hnot.2.1⟩ <;>
  · rintro rfl
    exact absurd hspace (by decide)

theorem PkgName.stripped (name : PkgName) : Stripped name.text :=
  ⟨fun c hc => (name.plain c (List.mem_of_head? hc)).1,
    fun c hc => (name.plain c (List.mem_of_getLast? hc)).1⟩

/-- The fields of a line. -/
def row (e : Record) : List Text × Text :=
  ([Nat.toDigits 10 e.time, padded 5 5 e.call.text, padded 20 20 e.step.text], ' ' :: e.pkg.text)

theorem readRow_row (pkgs : List Package) (e : Record) :
    readRow pkgs ((row e).1 ++ [(row e).2]) =
      some (addRow e.pkg.text e.step.text e.call.text e.time pkgs) := by
  have htime : int (strip (Nat.toDigits 10 e.time)) = some (e.time : ℤ) := by
    rw [strip_of_stripped (stripped_digits fun c hc =>
      Nat.isDigit_of_mem_toDigits (by decide) (by decide) hc), int_toDigits]
  have hcall : strip (padded 5 5 e.call.text) = e.call.text := by cases e.call <;> decide
  have hstep : strip (padded 20 20 e.step.text) = e.step.text := by cases e.step <;> decide
  have hpkg : strip (' ' :: e.pkg.text) = e.pkg.text := by
    simpa using strip_append (a := [' ']) (b := []) (by simp [isWhitespace]) e.pkg.stripped (by simp)
  simp only [row, List.cons_append, List.nil_append, readRow, htime, hcall, hstep, hpkg,
    Option.bind_eq_bind, Option.bind_some]

theorem foldlM_readRow (log : List Record) (pkgs : List Package) :
    ((log.map row).map fun r => r.1 ++ [r.2]).foldlM readRow pkgs =
      some (log.foldl (fun pkgs e => addRow e.pkg.text e.step.text e.call.text e.time pkgs) pkgs) := by
  induction log generalizing pkgs with
  | nil => rfl
  | cons e log ih =>
    rw [List.map_cons, List.map_cons, List.foldlM_cons, readRow_row, Option.bind_eq_bind,
      Option.bind_some, ih, List.foldl_cons]

theorem readData_buildTimeLog (log : List Record) : readData (buildTimeLog log) = some (packages log) := by
  have hlines : log.map stepTime =
      (log.map row).map fun row => row.1.flatMap (· ++ [':']) ++ row.2 := by
    rw [List.map_map]
    refine List.map_congr_left fun e _ => ?_
    simp [stepTime, row]
  have hrows : ∀ r ∈ log.map row, r.1 ≠ [] ∧ (∀ g ∈ r.1, PlainField ':' g) ∧ PlainField ':' r.2 := by
    intro r hr
    obtain ⟨e, -, rfl⟩ := List.mem_map.mp hr
    have hcall : PlainField ':' (padded 5 5 e.call.text) := by
      cases e.call <;> exact plainField_of_all (by decide)
    have hstep : PlainField ':' (padded 20 20 e.step.text) := by
      cases e.step <;> exact plainField_of_all (by decide)
    refine ⟨List.cons_ne_nil _ _, ?_, e.pkg.plainField⟩
    simpa [row] using ⟨plainField_digits e.time, hcall, hstep⟩
  rw [readData, buildTimeLog, hlines, csvReader_unlines (by decide) hrows]
  exact foldlM_readRow log []

/-! ### The durations -/

/-- The time of the last call of the hook with these arguments. -/
def lastTime (log : List Record) (name : Text) (step : Step) (call : Call) : Option ℤ :=
  (log.filter fun e => e.pkg.text = name ∧ e.step = step ∧ e.call = call).getLast?.map fun e => (e.time : ℤ)

/-- The time between the last start and the last end. -/
def lastDuration (log : List Record) (name : Text) (step : Step) : Option ℤ := do
  let start ← lastTime log name step .stepStart
  let stop ← lastTime log name step .stepEnd
  some (stop - start)

theorem lastTime_append (log : List Record) (e : Record) (name : Text) (step : Step) (call : Call) :
    lastTime (log ++ [e]) name step call =
      if e.pkg.text = name ∧ e.step = step ∧ e.call = call then some (e.time : ℤ)
      else lastTime log name step call := by
  rw [lastTime, List.filter_append]
  by_cases he : e.pkg.text = name ∧ e.step = step ∧ e.call = call
  · rw [if_pos he, List.filter_cons_of_pos (by simpa using he)]
    simp
  · rw [if_neg he, List.filter_cons_of_neg (by simpa using he), List.filter_nil, List.append_nil,
      lastTime]

theorem lastTime_append_of_ne {log : List Record} {e : Record} {name : Text} (h : e.pkg.text ≠ name)
    (step : Step) (call : Call) : lastTime (log ++ [e]) name step call = lastTime log name step call := by
  rw [lastTime_append, if_neg (fun he => h he.1)]

/-- What a package holds after the calls of the hook. -/
structure Recorded (log : List Record) (p : Package) : Prop where
  start : ∀ s : Step, p.stepsStart.get? s.text = lastTime log p.name s .stepStart
  stop : ∀ s : Step, p.stepsEnd.get? s.text = lastTime log p.name s .stepEnd
  duration : ∀ s : Step, p.stepsDuration.get? s.text = lastDuration log p.name s
  keys : ∀ k ∈ p.stepsDuration.keys, ∃ s : Step, k = s.text

variable {log : List Record} {p : Package}

theorem keys_set_subset {d : Dict Text ℤ} {k : Text} {v : ℤ} {k' : Text} (h : k' ∈ (d.set k v).keys) :
    k' = k ∨ k' ∈ d.keys := by
  obtain ⟨w, hw⟩ := Dict.exists_get?_iff.mpr h
  rw [Dict.get?_set] at hw
  split at hw
  next hk => exact .inl hk
  next => exact .inr (Dict.exists_get?_iff.mp ⟨w, hw⟩)

/-- The duration of a step is computed again once its times are right. -/
theorem recorded_update {step : Step}
    (hstart : ∀ s : Step, p.stepsStart.get? s.text = lastTime log p.name s .stepStart)
    (hstop : ∀ s : Step, p.stepsEnd.get? s.text = lastTime log p.name s .stepEnd)
    (hduration : ∀ s : Step, s ≠ step → p.stepsDuration.get? s.text = lastDuration log p.name s)
    (hnone : lastDuration log p.name step = none → p.stepsDuration.get? step.text = none)
    (hkeys : ∀ k ∈ p.stepsDuration.keys, ∃ s : Step, k = s.text) :
    Recorded log (match p.stepsStart.get? step.text, p.stepsEnd.get? step.text with
      | some start, some stop => { p with stepsDuration := p.stepsDuration.set step.text (stop - start) }
      | _, _ => p) := by
  have hall : lastDuration log p.name step = none →
      ∀ s : Step, p.stepsDuration.get? s.text = lastDuration log p.name s := by
    intro h s
    by_cases hs : s = step
    · rw [hs, h, hnone h]
    · exact hduration s hs
  rw [hstart step, hstop step]
  cases ha : lastTime log p.name step .stepStart with
  | none => exact ⟨hstart, hstop, hall (by simp [lastDuration, ha]), hkeys⟩
  | some a =>
    cases hb : lastTime log p.name step .stepEnd with
    | none => exact ⟨hstart, hstop, hall (by simp [lastDuration, ha, hb]), hkeys⟩
    | some b =>
      refine ⟨hstart, hstop, fun s => ?_, fun k hk => ?_⟩
      · dsimp only
        rw [Dict.get?_set]
        by_cases hs : s = step
        · subst hs
          rw [if_pos rfl]
          simp [lastDuration, ha, hb]
        · rw [if_neg (Step.text_injective.ne hs), hduration s hs]
      · rcases keys_set_subset hk with rfl | hk
        · exact ⟨step, rfl⟩
        · exact hkeys k hk

theorem recorded_addStep (h : Recorded log p) {e : Record} (he : e.pkg.text = p.name) :
    Recorded (log ++ [e]) (p.addStep e.step.text e.call.text e.time) := by
  have hother : ∀ s : Step, s ≠ e.step →
      p.stepsDuration.get? s.text = lastDuration (log ++ [e]) p.name s := by
    intro s hs
    have htimes : ∀ call, lastTime (log ++ [e]) p.name s call = lastTime log p.name s call := by
      intro call
      rw [lastTime_append, if_neg (fun h => hs h.2.1.symm)]
    rw [h.duration, lastDuration, lastDuration, htimes, htimes]
  have hnone : lastDuration (log ++ [e]) p.name e.step = none →
      p.stepsDuration.get? e.step.text = none := by
    intro hnew
    rw [h.duration]
    simp only [lastDuration, lastTime_append, he] at hnew ⊢
    cases hcall : e.call <;> simp_all [lastDuration]
  unfold Package.addStep
  cases hcall : e.call with
  | stepStart =>
    refine recorded_update (p := { p with stepsStart := p.stepsStart.set e.step.text e.time })
      (fun s => ?_) (fun s => ?_) hother hnone h.keys
    · dsimp only
      rw [Dict.get?_set, lastTime_append, h.start, he, hcall]
      simp [Step.text_injective.eq_iff, eq_comm]
    · dsimp only
      rw [lastTime_append, h.stop, hcall, if_neg (by simp)]
  | stepEnd =>
    refine recorded_update (p := { p with stepsEnd := p.stepsEnd.set e.step.text e.time })
      (fun s => ?_) (fun s => ?_) hother hnone h.keys
    · dsimp only
      rw [lastTime_append, h.start, hcall, if_neg (by simp)]
    · dsimp only
      rw [Dict.get?_set, lastTime_append, h.stop, he, hcall]
      simp [Step.text_injective.eq_iff, eq_comm]

theorem addStep_name (p : Package) (step state : Text) (time : ℤ) :
    (p.addStep step state time).name = p.name := by
  unfold Package.addStep
  split <;>
  · dsimp only
    split <;> rfl

variable {pkgs : List Package}

theorem names_addRow (pkg step state : Text) (time : ℤ) (pkgs : List Package) :
    (addRow pkg step state time pkgs).map Package.name =
      if pkg ∈ pkgs.map Package.name then pkgs.map Package.name
      else pkgs.map Package.name ++ [pkg] := by
  induction pkgs with
  | nil =>
    rw [addRow, List.map_singleton, addStep_name]
    rfl
  | cons p ps ih =>
    rw [addRow]
    by_cases hp : p.name = pkg
    · simp [hp, addStep_name]
    · rw [if_neg hp, List.map_cons, ih]
      have hne : pkg ≠ p.name := fun h => hp h.symm
      by_cases hmem : pkg ∈ ps.map Package.name
      · rw [if_pos hmem, List.map_cons, if_pos (.tail _ hmem)]
      · rw [if_neg hmem, List.map_cons, if_neg (by simpa [hne] using hmem), List.cons_append]

/-- A package after a row: another one, or the one of the row. -/
theorem mem_addRow {pkg step state : Text} {time : ℤ} (hnodup : (pkgs.map Package.name).Nodup)
    (hp : p ∈ addRow pkg step state time pkgs) :
    (p ∈ pkgs ∧ p.name ≠ pkg) ∨
      ∃ q, (q ∈ pkgs ∧ q.name = pkg ∨ pkg ∉ pkgs.map Package.name ∧ q = Package.init pkg) ∧
        p = q.addStep step state time := by
  induction pkgs with
  | nil =>
    rw [addRow, List.mem_singleton] at hp
    exact .inr ⟨_, .inr ⟨List.not_mem_nil, rfl⟩, hp⟩
  | cons q qs ih =>
    rw [List.map_cons, List.nodup_cons] at hnodup
    rw [addRow] at hp
    by_cases hq : q.name = pkg
    · rw [if_pos hq] at hp
      rcases List.mem_cons.mp hp with rfl | hp
      · exact .inr ⟨q, .inl ⟨.head _, hq⟩, rfl⟩
      · refine .inl ⟨.tail _ hp, ?_⟩
        rintro rfl
        exact hnodup.1 (hq ▸ List.mem_map_of_mem hp)
    · rw [if_neg hq] at hp
      rcases List.mem_cons.mp hp with rfl | hp
      · exact .inl ⟨.head _, hq⟩
      · rcases ih hnodup.2 hp with ⟨hp, hne⟩ | ⟨r, hr, heq⟩
        · exact .inl ⟨.tail _ hp, hne⟩
        · refine .inr ⟨r, hr.imp (fun h => ⟨.tail _ h.1, h.2⟩) (fun h => ⟨?_, h.2⟩), heq⟩
          rw [List.map_cons, List.mem_cons, not_or]
          exact ⟨fun h => hq h.symm, h.1⟩

/-- The packages after the calls of the hook. -/
structure AllRecorded (log : List Record) (pkgs : List Package) : Prop where
  nodup : (pkgs.map Package.name).Nodup
  recorded : ∀ p ∈ pkgs, Recorded log p
  named : ∀ name, name ∈ pkgs.map Package.name ↔ ∃ e ∈ log, e.pkg.text = name

theorem recorded_init {name : Text} (h : ¬ ∃ e ∈ log, e.pkg.text = name) :
    Recorded log (Package.init name) := by
  have hnone : ∀ step call, lastTime log name step call = none := by
    intro step call
    have hfilter : log.filter (fun e => e.pkg.text = name ∧ e.step = step ∧ e.call = call) = [] := by
      rw [List.filter_eq_nil_iff]
      intro e he hmatch
      exact h ⟨e, he, (of_decide_eq_true hmatch).1⟩
    rw [lastTime, hfilter]
    rfl
  constructor
  · exact fun s => (hnone s _).symm
  · exact fun s => (hnone s _).symm
  · intro s
    rw [lastDuration, Package.init, hnone]
    rfl
  · exact fun k hk => absurd hk List.not_mem_nil

theorem AllRecorded.addRow (h : AllRecorded log pkgs) (e : Record) :
    AllRecorded (log ++ [e]) (addRow e.pkg.text e.step.text e.call.text e.time pkgs) := by
  constructor
  · rw [names_addRow]
    split
    next => exact h.nodup
    next hnot => exact h.nodup.append (List.nodup_singleton _) (by simpa using hnot)
  · intro p hp
    rcases mem_addRow h.nodup hp with ⟨hp, hne⟩ | ⟨q, hq, rfl⟩
    · have hrecorded := h.recorded p hp
      have htimes := @lastTime_append_of_ne log e _ (fun h => hne h.symm)
      refine ⟨fun s => ?_, fun s => ?_, fun s => ?_, hrecorded.keys⟩
      · rw [htimes, hrecorded.start]
      · rw [htimes, hrecorded.stop]
      · rw [lastDuration, htimes, htimes, hrecorded.duration, lastDuration]
    · rcases hq with ⟨hq, hname⟩ | ⟨hnot, rfl⟩
      · exact recorded_addStep (h.recorded q hq) hname.symm
      · rw [h.named] at hnot
        exact recorded_addStep (recorded_init hnot) rfl
  · intro name
    rw [names_addRow]
    have hlog : (∃ e' ∈ log ++ [e], e'.pkg.text = name) ↔
        name ∈ pkgs.map Package.name ∨ name = e.pkg.text := by
      rw [h.named]
      simp [or_and_right, exists_or, eq_comm]
    rw [hlog]
    split
    next hmem => exact ⟨.inl, fun h => h.elim id (fun h => h ▸ hmem)⟩
    next => rw [List.mem_append, List.mem_singleton]

theorem allRecorded_packages (log : List Record) : AllRecorded log (packages log) := by
  induction log using List.reverseRecOn with
  | nil => exact ⟨List.nodup_nil, by simp [packages], by simp [packages]⟩
  | append_singleton log e ih =>
    rw [packages, List.foldl_append]
    exact ih.addRow e

/-! ### Totals -/

/-- The sum of the values, over any list that has all keys. -/
theorem sum_values (d : Dict Text ℤ) {l : List Text} (hl : l.Nodup) (hkeys : ∀ k ∈ d.keys, k ∈ l) :
    (d.entries.map Prod.snd).sum = (l.map fun k => (d.get? k).getD 0).sum := by
  have hvalues : d.entries.map Prod.snd = d.keys.map fun k => (d.get? k).getD 0 := by
    rw [Dict.keys, List.map_map]
    refine List.map_congr_left fun e he => ?_
    rw [Function.comp_apply, Dict.get?_of_mem he, Option.getD_some]
  have hnodup : d.keys.Nodup := d.nodup
  rw [hvalues, ← List.sum_toFinset _ hnodup, ← List.sum_toFinset _ hl]
  refine Finset.sum_subset (fun k hk => ?_) (fun k _ hk => ?_)
  · exact List.mem_toFinset.mpr (hkeys k (List.mem_toFinset.mp hk))
  · rw [List.mem_toFinset] at hk
    cases hget : d.get? k with
    | none => rfl
    | some v => exact absurd (Dict.exists_get?_iff.mp ⟨v, hget⟩) hk

/-- The list `steps` has another name for one of the steps. -/
theorem sum_steps {f : Text → ℤ} (h : f "install-images".toList = 0) :
    ((Step.all.map Step.text).map f).sum = (steps.map f).sum + f Step.installImage.text := by
  obtain ⟨a, b, hall, hsteps⟩ : ∃ a b, Step.all.map Step.text = a ++ Step.installImage.text :: b ∧
      steps = a ++ "install-images".toList :: b := ⟨steps.take 6, steps.drop 7, rfl, rfl⟩
  rw [hall, hsteps]
  simp only [List.map_append, List.map_cons, List.sum_append, List.sum_cons, h]
  omega

/-- The total of a package exceeds the sum over the list `steps` by the duration of
`install-image`. -/
theorem getDuration_none (h : Recorded log p) :
    p.getDuration none = (steps.map fun step => p.getDuration (some step)).sum +
      (lastDuration log p.name .installImage).getD 0 := by
  have hkeys : ∀ k ∈ p.stepsDuration.keys, k ∈ Step.all.map Step.text := by
    intro k hk
    obtain ⟨s, rfl⟩ := h.keys k hk
    exact List.mem_map_of_mem s.mem_all
  have hnodup : (Step.all.map Step.text).Nodup :=
    (List.nodup_map_iff Step.text_injective).mpr (by decide)
  have hunknown : p.stepsDuration.get? "install-images".toList = none := by
    by_contra hne
    obtain ⟨v, hv⟩ := Option.ne_none_iff_exists'.mp hne
    obtain ⟨s, hs⟩ := h.keys _ (Dict.exists_get?_iff.mp ⟨v, hv⟩)
    cases s <;> exact absurd hs (by decide)
  rw [Package.getDuration, sum_values _ hnodup hkeys, ← h.duration]
  exact sum_steps (by rw [hunknown, Option.getD_none])

/-- For every log, the log is read, and the total of every package is the sum over the list
`steps` if and only if no package has an `install-image` step of which the last start and
the last end differ in time. -/
theorem getDuration_sum_iff (log : List Record) :
    ∃ pkgs, readData (buildTimeLog log) = some pkgs ∧
      ((∀ p ∈ pkgs, p.getDuration none = (steps.map fun step => p.getDuration (some step)).sum) ↔
        ∀ name start stop, lastTime log name .installImage .stepStart = some start →
          lastTime log name .installImage .stepEnd = some stop → start = stop) := by
  have hall := allRecorded_packages log
  refine ⟨_, readData_buildTimeLog log, ?_, ?_⟩
  · intro hsum name start stop hstart hstop
    obtain ⟨e, he, -⟩ := Option.map_eq_some_iff.mp hstart
    obtain ⟨helog, hmatch⟩ := List.mem_filter.mp (List.mem_of_getLast? he)
    obtain ⟨p, hp, rfl⟩ := List.mem_map.mp ((hall.named name).mpr ⟨e, helog, (of_decide_eq_true hmatch).1⟩)
    have htotal := getDuration_none (hall.recorded p hp)
    rw [hsum p hp] at htotal
    simp only [lastDuration, hstart, hstop, Option.bind_eq_bind, Option.bind_some, Option.getD_some] at htotal
    omega
  · intro hequal p hp
    have hzero : (lastDuration log p.name .installImage).getD 0 = 0 := by
      unfold lastDuration
      cases hstart : lastTime log p.name .installImage .stepStart with
      | none => rfl
      | some start =>
        cases hstop : lastTime log p.name .installImage .stepEnd with
        | none => rfl
        | some stop =>
          rw [hequal p.name start stop hstart hstop]
          simp
    rw [getDuration_none (hall.recorded p hp), hzero, add_zero]

def linux : PkgName := ⟨"linux".toList, List.all_iff_forall_prop.mp rfl⟩

/-- Five seconds of `install-image` are in the total only. -/
theorem getDuration_linux :
    ∃ pkgs, readData (buildTimeLog [⟨10, .stepStart, .installImage, linux⟩,
        ⟨15, .stepEnd, .installImage, linux⟩]) = some pkgs ∧
      ¬ ∀ p ∈ pkgs, p.getDuration none = (steps.map fun step => p.getDuration (some step)).sum := by
  refine ⟨_, readData_buildTimeLog _, fun h => ?_⟩
  have hsum := h _ (.head _)
  exact absurd hsum (by decide)

end CargosBuildroot.Statistics
