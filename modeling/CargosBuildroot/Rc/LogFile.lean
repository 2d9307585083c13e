import CargosBuildroot.Rc.Stream

/-! The log file. What was logged is in the file or in the buffer, and all of it is in the file at the end
unless the last write fails. The file is not touched until it may be written. -/

namespace CargosBuildroot.Rc

open Shell

variable {S : Settings} {s s₀ t : State}

theorem state_map {v : State → State} (x : Exit Text State) : (x.map v).state = v x.state := by
  cases x <;> rfl

theorem appendBuffer_written (s : State) :
    (S.appendBuffer s).rcLogBuffer = [] ∨ S.writes ((S.appendBuffer s).attempts - 1) = false := by
  rw [Settings.appendBuffer]
  split
  next h => exact .inl h
  next =>
    split
    · exact .inl rfl
    next h => exact .inr (by simpa using h)

/-- The file has not been touched, and may not be. -/
structure Early (s₀ s : State) : Prop where
  logFile : s.logFile = s₀.logFile
  attempts : s.attempts = s₀.attempts
  rcLogFlushOk : s.rcLogFlushOk = false

theorem Early.rcLogFlush (h : Early s₀ s) : Early s₀ (S.rcLogFlush .none s) := by
  unfold Settings.rcLogFlush
  rw [h.rcLogFlushOk]
  exact h

theorem Early.rcLogMessage (h : Early s₀ s) (msg : Text) : Early s₀ (S.rcLogMessage msg s) :=
  Early.rcLogFlush ⟨h.logFile, h.attempts, h.rcLogFlushOk⟩

theorem Early.rcLogMessageN (h : Early s₀ s) (msg : Text) : Early s₀ (S.rcLogMessageN msg s) :=
  Early.rcLogFlush ⟨h.logFile, h.attempts, h.rcLogFlushOk⟩

theorem Early.print (h : Early s₀ s) (msg : Text) : Early s₀ (S.print msg s) := by
  rw [Settings.print]
  split
  · exact h
  · exact ⟨h.logFile, h.attempts, h.rcLogFlushOk⟩

theorem Early.printf (h : Early s₀ s) (msg : Text) : Early s₀ (s.printf msg) :=
  ⟨h.logFile, h.attempts, h.rcLogFlushOk⟩

theorem Early.cmdStatus (h : Early s₀ s) {name : Text} (hname : ¬ mountcritlocal <:+ name) (status : Text) :
    Early s₀ (S.cmdStatus name status s) := by
  rw [Settings.cmdStatus, if_neg hname]
  split
  · have hfailures : Early s₀
        { s with rcFailures := s.rcFailures ++ (if s.rcFailures = [] then [] else [' ']) ++ name } :=
      ⟨h.logFile, h.attempts, h.rcLogFlushOk⟩
    exact (hfailures.rcLogMessage _).print _
  · exact h

theorem Early.reportFailures (h : Early s₀ s) : Early s₀ (S.reportFailures s) := by
  rw [Settings.reportFailures]
  split
  · exact ((h.rcLogMessage _).rcLogMessage _).printf _
  · exact h

theorem keeps_metadata {m : Text} (hm : ¬ mountcritlocal <:+ arg 1 m) :
    Script.Keeps (Early s₀) (S.rcPostprocessMetadata m) := by
  intro s h
  unfold Settings.rcPostprocessMetadata
  split
  · exact (h.rcLogMessage _).print _
  split
  · exact h.rcLogMessage _
  split
  · exact h.cmdStatus hm _
  split
  · exact h
  split
  · exact h.rcLogMessage _
  split
  · exact (h.reportFailures.rcLogMessage _).printf _
  split
  · exact h.rcLogMessage _
  split
  · exact (h.rcLogMessage _).printf _
  · exact h.rcLogMessage _

theorem infix_intercalate (sep : Char) {ws : List Text} {w : Text} (h : w ∈ ws) : w <:+: [sep].intercalate ws := by
  induction ws with
  | nil => cases h
  | cons x ws ih =>
    cases ws with
    | nil =>
      obtain rfl := List.mem_singleton.mp h
      simp
    | cons y ws =>
      rw [List.intercalate_cons_cons]
      rcases List.mem_cons.mp h with rfl | h
      · exact ⟨[], [sep] ++ [sep].intercalate (y :: ws), by simp⟩
      · exact (ih h).trans (List.suffix_append _ _).isInfix

theorem infix_of_mem_fields {line w : Text} (h : w ∈ fields line) : w <:+: line := by
  have hjoin : [':'].intercalate (fields line) = line := List.intercalate_splitOn ':'
  have hocc := infix_intercalate ':' h
  rwa [hjoin] at hocc

theorem args_suffix (m : Text) : args m <:+ m := by
  rw [args]
  split
  · exact (List.tail_suffix _).trans (List.dropWhile_suffix _)
  · exact List.suffix_rfl

theorem arg_isInfix (n : ℕ) (m : Text) : arg n m <:+: m := by
  have hpiece : ∀ w ∈ positional (args m), w <:+: m := by
    intro w hw
    refine (infix_of_mem_fields ?_).trans (args_suffix m).isInfix
    rw [positional] at hw
    split at hw
    · exact List.mem_of_mem_dropLast hw
    · exact hw
  rw [arg, List.getD_eq_getElem?_getD]
  cases h : (positional (args m))[n - 1]? with
  | none => exact List.nil_infix
  | some w => exact hpiece w (List.mem_of_getElem? h)

theorem keeps_line {line : Text} (hline : ¬ mountcritlocal <:+: line) :
    Script.Keeps (Early s₀) (S.rcPostprocessLine line) := by
  have hupdate : ∀ {f : State → State}, (∀ s, Early s₀ s → Early s₀ (f s)) →
      Script.Keeps (Early s₀) (Script.update f : Script Text State) := fun hf s h => hf s h
  unfold Settings.rcPostprocessLine
  split
  next x before' after before y hfirst hlast =>
    have hm : ¬ mountcritlocal <:+ arg 1 after := by
      intro h
      refine hline (h.isInfix.trans ((arg_isInfix 1 after).trans ?_))
      rw [eq_of_splitFirst hfirst]
      exact (List.suffix_append _ _).isInfix
    split
    · exact keeps_metadata hm
    · exact (hupdate fun s h => (h.rcLogMessageN _).print _).andThen (keeps_metadata hm)
  · exact hupdate fun s h => (h.rcLogMessage _).print _

end CargosBuildroot.Rc
