import CargosBuildroot.Rc.Postprocess

/-! What is logged, wherever it is kept. The functions append to the log and to the console and look at
neither of them, so that it does not matter to what is logged which of the writes succeed. -/

namespace CargosBuildroot.Rc

open Shell

/-- The log in the file and in the buffer, the console, and the list of the failures. -/
@[ext] structure Seen where
  log : Text
  console : Text
  failures : Text
  deriving DecidableEq

def State.seen (s : State) : Seen := ⟨s.logFile ++ s.rcLogBuffer, s.console, s.rcFailures⟩

variable {S : Settings} {s s' : State} {msg : Text}

@[simp] theorem seen_appendBuffer : (S.appendBuffer s).seen = s.seen := by
  rw [Settings.appendBuffer]
  split
  · rfl
  · split
    · simp [State.seen]
    · rfl

@[simp] theorem seen_rcLogFlush (arg : FlushArg) : (S.rcLogFlush arg s).seen = s.seen := by
  unfold Settings.rcLogFlush
  split
  · exact seen_appendBuffer
  · exact seen_appendBuffer
  · exact seen_appendBuffer
  · rfl

theorem seen_rcLogMessage :
    (S.rcLogMessage msg s).seen = { s.seen with log := s.seen.log ++ (msg ++ ['\n']) } := by
  rw [Settings.rcLogMessage, seen_rcLogFlush]
  simp [State.seen]

theorem seen_rcLogMessageN :
    (S.rcLogMessageN msg s).seen = { s.seen with log := s.seen.log ++ msg } := by
  rw [Settings.rcLogMessageN, seen_rcLogFlush]
  simp [State.seen]

theorem seen_print : (S.print msg s).seen =
    { s.seen with console := s.seen.console ++ if S.rcSilent then [] else msg } := by
  rw [Settings.print]
  split <;> simp [State.seen]

theorem seen_printf : (s.printf msg).seen = { s.seen with console := s.seen.console ++ msg } := rfl

/-- Adding to the list of failures. -/
theorem seen_rcFailures (t : Text) : State.seen { s with rcFailures := t } = { s.seen with failures := t } := rfl

/-- What is logged about the status of a command, and printed. -/
def statusMessage (name status : Text) : Text :=
  if status ≠ "0".toList then name ++ [' '] ++ humanExitCode (statusNumber status) ++ ['\n'] else []

theorem seen_cmdStatus (name status : Text) : (S.cmdStatus name status s).seen =
    ⟨s.seen.log ++ statusMessage name status,
      s.seen.console ++ (if S.rcSilent then [] else statusMessage name status),
      if status ≠ "0".toList then
        s.seen.failures ++ (if s.seen.failures = [] then [] else [' ']) ++ name else s.seen.failures⟩ := by
  have hreported : (if status ≠ "0".toList then
      S.print (name ++ [' '] ++ humanExitCode (statusNumber status) ++ ['\n'])
        (S.rcLogMessage (name ++ [' '] ++ humanExitCode (statusNumber status))
        { s with rcFailures := s.rcFailures ++ (if s.rcFailures = [] then [] else [' ']) ++ name })
      else s).seen =
    ⟨s.seen.log ++ statusMessage name status,
      s.seen.console ++ (if S.rcSilent then [] else statusMessage name status),
      if status ≠ "0".toList then
        s.seen.failures ++ (if s.seen.failures = [] then [] else [' ']) ++ name else s.seen.failures⟩ := by
    by_cases hstatus : status ≠ "0".toList
    · rw [if_pos hstatus, if_pos hstatus, statusMessage, if_pos hstatus, seen_print, seen_rcLogMessage,
        seen_rcFailures]
      rfl
    · rw [if_neg hstatus, if_neg hstatus, statusMessage, if_neg hstatus, List.append_nil, ite_self,
        List.append_nil]
  rw [Settings.cmdStatus]
  split
  · rw [seen_rcLogFlush]
    exact hreported
  · exact hreported

theorem seen_reportFailures : (S.reportFailures s).seen =
    { s.seen with
      log := s.seen.log ++ if s.seen.failures = [] then []
        else "[failures]\n".toList ++ S.failuresMessage s.seen.failures ++ ['\n']
      console := s.seen.console ++ if s.seen.failures = [] then []
        else S.failuresMessage s.seen.failures ++ ['\n'] } := by
  rw [Settings.reportFailures]
  split
  next h =>
    have hseen : s.seen.failures ≠ [] := h
    rw [if_neg hseen, if_neg hseen, seen_printf, seen_rcLogMessage, seen_rcLogMessage]
    simp only [List.append_assoc]
    rfl
  next h =>
    have hseen : s.seen.failures = [] := not_not.mp h
    rw [if_pos hseen, if_pos hseen, List.append_nil, List.append_nil]

/-! ### The writes -/

/-- The same settings with other writes to the log file that fail. -/
def Settings.withWrites (S : Settings) (writes : ℕ → Bool) : Settings := { S with writes }

variable (S) (writes : ℕ → Bool)

theorem agree_metadata (m : Text) : Script.Agree State.seen (S.rcPostprocessMetadata m)
    ((S.withWrites writes).rcPostprocessMetadata m) := by
  intro s s' h
  unfold Settings.rcPostprocessMetadata
  have hsame : ∀ msg, (S.rcLogMessage msg s).seen = ((S.withWrites writes).rcLogMessage msg s').seen := by
    intro msg
    rw [seen_rcLogMessage, seen_rcLogMessage, h]
  by_cases hstart : keyword m = "start".toList
  · rw [if_pos hstart, if_pos hstart, Exit.map, Exit.map, seen_print, seen_print, seen_rcLogMessage,
      seen_rcLogMessage, h]
    rfl
  rw [if_neg hstart, if_neg hstart]
  by_cases hname : keyword m = "cmd-name".toList
  · rw [if_pos hname, if_pos hname, Exit.map, Exit.map, hsame]
  rw [if_neg hname, if_neg hname]
  by_cases hstatus : keyword m = "cmd-status".toList
  · rw [if_pos hstatus, if_pos hstatus, Exit.map, Exit.map, seen_cmdStatus, seen_cmdStatus, h]
    rfl
  rw [if_neg hstatus, if_neg hstatus]
  by_cases hnop : keyword m = "nop".toList
  · rw [if_pos hnop, if_pos hnop, Exit.map, Exit.map, h]
  rw [if_neg hnop, if_neg hnop]
  by_cases hnote : keyword m = "note".toList
  · rw [if_pos hnote, if_pos hnote, Exit.map, Exit.map, hsame]
  rw [if_neg hnote, if_neg hnote]
  by_cases hend : keyword m = "end".toList
  · rw [if_pos hend, if_pos hend, Exit.map, Exit.map, seen_printf, seen_printf, seen_rcLogMessage,
      seen_rcLogMessage, seen_reportFailures, seen_reportFailures, h]
    rfl
  rw [if_neg hend, if_neg hend]
  by_cases hexit : keyword m = "exit".toList
  · rw [if_pos hexit, if_pos hexit, Exit.map, Exit.map, hsame]
    rfl
  rw [if_neg hexit, if_neg hexit]
  by_cases hinterrupted : keyword m = "interrupted".toList
  · rw [if_pos hinterrupted, if_pos hinterrupted, Exit.map, Exit.map, seen_printf, seen_printf, hsame]
  rw [if_neg hinterrupted, if_neg hinterrupted, Exit.map, Exit.map, hsame]

theorem agree_line (line : Text) : Script.Agree State.seen (S.rcPostprocessLine line)
    ((S.withWrites writes).rcPostprocessLine line) := by
  have hplain : Script.Agree State.seen
      (Script.update (S.rcPostprocessPlainLine line) : Script Text State)
      (Script.update ((S.withWrites writes).rcPostprocessPlainLine line)) := by
    refine Script.agree_update fun s t h => ?_
    rw [Settings.rcPostprocessPlainLine, Settings.rcPostprocessPlainLine, seen_print, seen_print,
      seen_rcLogMessage, seen_rcLogMessage, h]
    rfl
  have hpart : ∀ before : Text, Script.Agree State.seen
      (Script.update (S.rcPostprocessPartialLine before) : Script Text State)
      (Script.update ((S.withWrites writes).rcPostprocessPartialLine before)) := by
    refine fun before => Script.agree_update fun s t h => ?_
    rw [Settings.rcPostprocessPartialLine, Settings.rcPostprocessPartialLine, seen_print, seen_print,
      seen_rcLogMessageN, seen_rcLogMessageN, h]
    rfl
  have hpref : (S.withWrites writes).rcMetadataPrefix = S.rcMetadataPrefix := rfl
  unfold Settings.rcPostprocessLine
  rw [hpref]
  cases splitFirst S.rcMetadataPrefix line with
  | none => exact hplain
  | some first =>
    cases splitLast S.rcMetadataPrefix line with
    | none => exact hplain
    | some last =>
      have hmetadata := agree_metadata S writes first.2
      exact Script.agree_ite Iff.rfl hmetadata ((hpart last.1).andThen hmetadata)

/-- The log is written at the end in any case, which is not seen. -/
theorem map_seen_rcPostprocess (input : Text) (s : State) :
    (S.rcPostprocess input s).map State.seen =
      ((Script.forEach (readRaw input) S.rcPostprocessLine).andThen (Exit.fail "1".toList) s).map State.seen := by
  rw [Settings.rcPostprocess, Exit.map_map]
  congr 1
  funext t
  exact seen_rcLogFlush .force

/-- No part of the log is lost, or logged twice, whichever of the writes to the file fail. -/
theorem agree_rcPostprocess (input : Text) : Script.Agree State.seen (S.rcPostprocess input)
    ((S.withWrites writes).rcPostprocess input) := by
  intro s t h
  rw [map_seen_rcPostprocess, map_seen_rcPostprocess]
  have hlines : Script.Agree State.seen (Script.forEach (readRaw input) S.rcPostprocessLine)
      (Script.forEach (readRaw input) (S.withWrites writes).rcPostprocessLine) :=
    Script.agree_forEach fun line _ => agree_line S writes line
  have hexit : Script.Agree State.seen (Exit.fail "1".toList : Script Text State) (Exit.fail "1".toList) :=
    fun s t h => congrArg (Exit.fail "1".toList) h
  exact hlines.andThen hexit s t h

end CargosBuildroot.Rc
