import CargosBuildroot.Statistics.BuildTime

/-! Durations after interrupted builds. A build that is interrupted leaves a start without its
end in the log, and the step starts again when the build is resumed or repeated.
`graph-build-time` keeps the last start and the last end of a step apart, so the start of one
execution can meet the end of another. -/

namespace CargosBuildroot.Statistics

open Shell Store

/-- The records of a step of a package. -/
def recordsOf (log : List Record) (name : Text) (step : Step) : List Record :=
  log.filter fun e => e.pkg.text = name ∧ e.step = step

/-- A log in the order of time, in which an end comes after its start, with no other record of
the step in between. -/
structure History where
  log : List Record
  chronological : log.Pairwise (·.time ≤ ·.time)
  paired : ∀ name step before e after, recordsOf log name step = before ++ e :: after →
    e.call = .stepEnd → ∃ s, before.getLast? = some s ∧ s.call = .stepStart

/-- One execution of a step, from its start `a` to its end `b`. -/
def Execution (records : List Record) (a b : Record) : Prop :=
  ∃ before after, records = before ++ a :: b :: after ∧ a.call = .stepStart ∧ b.call = .stepEnd

/-- The duration is that of one execution of the step, and not negative. -/
def Measured (log : List Record) (name : Text) (step : Step) (duration : ℤ) : Prop :=
  0 ≤ duration ∧ ∃ a b, Execution (recordsOf log name step) a b ∧ duration = (b.time : ℤ) - a.time

/-- The last record of the step is not a start after an end; or it is one in the second of the
last end, and the step was executed within a second before. -/
def Settled (log : List Record) (name : Text) (step : Step) : Prop :=
  ∀ e stop, (recordsOf log name step).getLast? = some e → e.call = .stepStart →
    lastTime log name step .stepEnd = some stop →
      stop = e.time ∧ ∃ a b, Execution (recordsOf log name step) a b ∧ a.time = b.time

theorem lastTime_eq (log : List Record) (name : Text) (step : Step) (call : Call) :
    lastTime log name step call =
      ((recordsOf log name step).filter (·.call = call)).getLast?.map fun e => (e.time : ℤ) := by
  rw [lastTime, recordsOf, List.filter_filter]
  congr 2
  refine List.filter_congr fun e _ => ?_
  rw [← Bool.decide_and, decide_eq_decide]
  tauto

namespace History

variable (h : History) {name : Text} {step : Step}

theorem time_le_last {records : List Record} {e : Record}
    (hrecords : recordsOf h.log name step = records ++ [e]) :
    ∀ a ∈ recordsOf h.log name step, a.time ≤ e.time := by
  have hpairwise : (recordsOf h.log name step).Pairwise (·.time ≤ ·.time) := h.chronological.filter _
  rw [hrecords, List.pairwise_append] at hpairwise
  rw [hrecords, List.forall_mem_append, List.forall_mem_singleton]
  exact ⟨fun a ha => hpairwise.2.2 a ha e (.head _), le_rfl⟩

theorem lastTime_last {records : List Record} {e : Record} {call : Call}
    (hrecords : recordsOf h.log name step = records ++ [e]) (he : e.call = call) :
    lastTime h.log name step call = some (e.time : ℤ) := by
  rw [lastTime_eq, hrecords]
  simp [he]

/-- After an end the duration is that of the execution that ended last. -/
theorem measured_of_stepEnd {records : List Record} {e : Record}
    (hrecords : recordsOf h.log name step = records ++ [e]) (he : e.call = .stepEnd) :
    ∃ duration, lastDuration h.log name step = some duration ∧ Measured h.log name step duration := by
  obtain ⟨s, hlast, hs⟩ := h.paired name step records e [] hrecords he
  obtain ⟨before, rfl⟩ := List.getLast?_eq_some_iff.mp hlast
  have hle := h.time_le_last hrecords s (by rw [hrecords]; simp)
  have hstart : lastTime h.log name step .stepStart = some (s.time : ℤ) := by
    rw [lastTime_eq, hrecords]
    simp [hs, he]
  have hstop := h.lastTime_last hrecords he
  refine ⟨e.time - s.time, by rw [lastDuration, hstart, hstop]; rfl, by omega, s, e, ?_, rfl⟩
  exact ⟨before, [], by rw [hrecords, List.append_assoc]; rfl, hs, he⟩

/-- After a start the duration is the time from the start back to the last end. -/
theorem measured_iff_of_stepStart {records : List Record} {e : Record}
    (hrecords : recordsOf h.log name step = records ++ [e]) (he : e.call = .stepStart) :
    (∀ duration, lastDuration h.log name step = some duration → Measured h.log name step duration) ↔
      Settled h.log name step := by
  have hstart := h.lastTime_last hrecords he
  have hlast : (recordsOf h.log name step).getLast? = some e := by rw [hrecords, List.getLast?_concat]
  constructor
  · intro hmeasured e' stop hlast' _ hstop
    rw [hlast, Option.some_inj] at hlast'
    subst hlast'
    obtain ⟨hnonneg, a, b, hexecution, hduration⟩ :=
      hmeasured (stop - e.time) (by rw [lastDuration, hstart, hstop]; rfl)
    -- no end is later than the last record
    have hle : stop ≤ e.time := by
      rw [lastTime_eq] at hstop
      obtain ⟨b, hb, rfl⟩ := Option.map_eq_some_iff.mp hstop
      exact Int.ofNat_le.mpr (h.time_le_last hrecords b (List.mem_filter.mp (List.mem_of_getLast? hb)).1)
    exact ⟨by omega, a, b, hexecution, by omega⟩
  · intro hsettled duration hduration
    rw [lastDuration, hstart] at hduration
    cases hstop : lastTime h.log name step .stepEnd with
    | none =>
      rw [hstop] at hduration
      cases hduration
    | some stop =>
      rw [hstop] at hduration
      obtain ⟨rfl, a, b, hexecution, htime⟩ := hsettled e stop hlast he hstop
      have hzero : duration = 0 := by simpa using hduration.symm
      exact ⟨hzero.ge, a, b, hexecution, by omega⟩

theorem measured_iff_settled :
    (∀ duration, lastDuration h.log name step = some duration → Measured h.log name step duration) ↔
      Settled h.log name step := by
  rcases List.eq_nil_or_concat' (recordsOf h.log name step) with hnil | ⟨records, e, hrecords⟩
  · constructor
    · intro _ e stop hlast
      rw [hnil] at hlast
      cases hlast
    · intro _ duration hduration
      rw [lastDuration, lastTime_eq, hnil] at hduration
      cases hduration
  · cases he : e.call with
    | stepStart => exact h.measured_iff_of_stepStart hrecords he
    | stepEnd =>
      obtain ⟨duration, hduration, hmeasured⟩ := h.measured_of_stepEnd hrecords he
      constructor
      · intro _ e' stop hlast hstart
        rw [hrecords, List.getLast?_concat, Option.some_inj] at hlast
        rw [← hlast, he] at hstart
        cases hstart
      · intro _ duration' hduration'
        rw [hduration, Option.some_inj] at hduration'
        exact hduration' ▸ hmeasured

end History

/-- For every history the log is read, and the durations of the packages are not negative and
those of single executions if and only if no step was started again after its last end, the
seconds that do not show apart. -/
theorem measured_durations_iff (h : History) :
    ∃ pkgs, readData (buildTimeLog h.log) = some pkgs ∧
      ((∀ p ∈ pkgs, ∀ e ∈ p.stepsDuration.entries,
          ∃ step : Step, e.1 = step.text ∧ Measured h.log p.name step e.2) ↔
        ∀ name step, Settled h.log name step) := by
  have hall := allRecorded_packages h.log
  refine ⟨_, readData_buildTimeLog h.log, ?_, ?_⟩
  · intro hmeasured name step
    rw [← h.measured_iff_settled]
    intro duration hduration
    have hname : ∃ e ∈ h.log, e.pkg.text = name := by
      unfold lastDuration at hduration
      obtain ⟨start, hstart, -⟩ := Option.bind_eq_some_iff.mp hduration
      obtain ⟨e, he, -⟩ := Option.map_eq_some_iff.mp hstart
      obtain ⟨helog, hmatch⟩ := List.mem_filter.mp (List.mem_of_getLast? he)
      exact ⟨e, helog, (of_decide_eq_true hmatch).1⟩
    obtain ⟨p, hp, rfl⟩ := List.mem_map.mp ((hall.named name).mpr hname)
    have hget := (hall.recorded p hp).duration step
    rw [hduration] at hget
    obtain ⟨step', hstep, hthis⟩ := hmeasured p hp _ (Dict.mem_of_get? hget)
    rwa [Step.text_injective hstep]
  · rintro hsettled p hp ⟨k, duration⟩ he
    obtain ⟨step, rfl⟩ := (hall.recorded p hp).keys k (List.mem_map_of_mem he)
    have hget := Dict.get?_of_mem he
    rw [(hall.recorded p hp).duration] at hget
    exact ⟨step, rfl, h.measured_iff_settled.mpr (hsettled p.name step) duration hget⟩

/-- A step of five seconds that is started again and interrupted. -/
def interrupted : History where
  log := [⟨10, .stepStart, .build, linux⟩, ⟨15, .stepEnd, .build, linux⟩,
    ⟨100, .stepStart, .build, linux⟩]
  chronological := by decide
  paired := by
    intro name step before e after hrecords he
    by_cases hstep : linux.text = name ∧ Step.build = step
    · rw [recordsOf, List.filter_eq_self.mpr (by simpa using hstep)] at hrecords
      -- the end is the second of the three records
      rcases before with _ | ⟨first, _ | ⟨second, _ | ⟨third, before⟩⟩⟩
      · obtain ⟨rfl, -⟩ := List.cons.inj hrecords
        cases he
      · obtain ⟨rfl, -⟩ := List.cons.inj hrecords
        exact ⟨_, rfl, rfl⟩
      · obtain ⟨rfl, -⟩ := List.cons.inj (List.cons.inj (List.cons.inj hrecords).2).2
        cases he
      · simp at hrecords
    · rw [recordsOf, List.filter_eq_nil_iff.mpr (by simpa using hstep)] at hrecords
      exact absurd hrecords (by simp)

/-- It has a duration of -85 seconds. -/
theorem interrupted_duration :
    ∃ pkgs, readData (buildTimeLog interrupted.log) = some pkgs ∧
      (∃ p ∈ pkgs, (Step.build.text, -85) ∈ p.stepsDuration.entries) ∧
      ¬ ∀ p ∈ pkgs, ∀ e ∈ p.stepsDuration.entries,
        ∃ step : Step, e.1 = step.text ∧ Measured interrupted.log p.name step e.2 := by
  refine ⟨_, readData_buildTimeLog _, ⟨_, .head _, .head _⟩, fun h => ?_⟩
  obtain ⟨step, -, hnonneg, -⟩ := h _ (.head _) _ (.head _)
  exact absurd hnonneg (by decide)

end CargosBuildroot.Statistics
