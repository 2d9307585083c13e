import CargosBuildroot.Shell.Fields
import CargosBuildroot.Shell.Occurrence
import CargosBuildroot.Shell.Script
import Mathlib.Data.Nat.Basic

/-! `rc_postprocess` of `/etc/rc`: the output of the scripts that are run at boot, with lines of metadata
in it, is printed to the console and logged. The log is kept in a variable until it may be written. A write
that fails has written nothing. Left out are `rc_silent_cmd`, which is run for the lines that a silent
console does not show, and the expansion of words of metadata that are patterns of file names. -/

namespace CargosBuildroot.Rc

open Shell

/-- What the functions know: `$0` and `$$`, the name of the log file, whether the console is silent, and
which of the writes to the log file succeed. -/
structure Settings where
  self : Text
  pid : ℕ
  rcLogFile : Text
  rcSilent : Bool
  writes : ℕ → Bool

/-- What marks a line of metadata. -/
def Settings.rcMetadataPrefix (S : Settings) : Text :=
  S.self ++ ":".toList ++ Nat.toDigits 10 S.pid ++ ":metadata:".toList

/-- The variables of the subshell, the log file, the console, and the number of writes so far. -/
structure State where
  rcLogBuffer : Text
  rcLogFlushOk : Bool
  rcFailures : Text
  logFile : Text
  console : Text
  attempts : ℕ
  deriving DecidableEq

inductive FlushArg
  | none
  | ok
  | force

variable (S : Settings)

/-! ### The log -/

/-- The buffer is appended to the file; it is kept if that fails. -/
def Settings.appendBuffer (s : State) : State :=
  if s.rcLogBuffer = [] then s
  else if S.writes s.attempts then
    { s with logFile := s.logFile ++ s.rcLogBuffer, rcLogBuffer := [], attempts := s.attempts + 1 }
  else { s with attempts := s.attempts + 1 }

def Settings.rcLogFlush (arg : FlushArg) (s : State) : State :=
  match arg, s.rcLogFlushOk with
  | .ok, _ => S.appendBuffer { s with rcLogFlushOk := true }
  | .force, _ => S.appendBuffer s
  | .none, true => S.appendBuffer s
  -- it is too early in the boot sequence
  | .none, false => s

def Settings.rcLogMessage (msg : Text) (s : State) : State :=
  S.rcLogFlush .none { s with rcLogBuffer := s.rcLogBuffer ++ msg ++ ['\n'] }

def Settings.rcLogMessageN (msg : Text) (s : State) : State :=
  S.rcLogFlush .none { s with rcLogBuffer := s.rcLogBuffer ++ msg }

/-- The console, unless it is silent. -/
def Settings.print (msg : Text) (s : State) : State :=
  if S.rcSilent then s else { s with console := s.console ++ msg }

/-- The console in any case. -/
def State.printf (msg : Text) (s : State) : State := { s with console := s.console ++ msg }

def Settings.rcPostprocessPlainLine (line : Text) (s : State) : State :=
  S.print (line ++ ['\n']) (S.rcLogMessage line s)

def Settings.rcPostprocessPartialLine (line : Text) (s : State) : State :=
  S.print line (S.rcLogMessageN line s)

/-! ### Metadata -/

def humanExitCode (n : ℕ) : Text :=
  if n < 127 then "exited with code ".toList ++ Nat.toDigits 10 n
  else if n % 256 = 127 then "stopped with signal ".toList ++ Nat.toDigits 10 (n / 256)
  else "terminated with signal ".toList ++ Nat.toDigits 10 (n - 128)

/-- The words of `set -- $args` where the separator is a colon. -/
def positional (args : Text) : List Text :=
  if (fields args).getLast? = some [] then (fields args).dropLast else fields args

/-- The number in the text of an exit status; 0 where that is none, which the shell would report. -/
def statusNumber (t : Text) : ℕ := (leadingInt t).toNat

/-- The name of the command that the log may be written after. -/
def mountcritlocal : Text := "/mountcritlocal".toList

def Settings.failuresMessage (failures : Text) : Text :=
  "The following components reported failures:\n    ".toList ++ failures ++ "\nSee ".toList ++
    S.rcLogFile ++ " for more information.".toList

def keyword (metadata : Text) : Text := metadata.takeWhile (· ≠ ':')

def args (metadata : Text) : Text :=
  if ':' ∈ metadata then (metadata.dropWhile (· ≠ ':')).tail else metadata

def arg (n : ℕ) (metadata : Text) : Text := (positional (args metadata)).getD (n - 1) []

/-- A failure is reported and put on the list. After the script that mounts the file systems the log may
be written. -/
def Settings.cmdStatus (name status : Text) (s : State) : State :=
  let msg := name ++ [' '] ++ humanExitCode (statusNumber status)
  let reported :=
    if status ≠ "0".toList then
      S.print (msg ++ ['\n']) (S.rcLogMessage msg
        { s with rcFailures := s.rcFailures ++ (if s.rcFailures = [] then [] else [' ']) ++ name })
    else s
  if mountcritlocal <:+ name then S.rcLogFlush .ok reported else reported

def Settings.reportFailures (s : State) : State :=
  if s.rcFailures ≠ [] then
    (S.rcLogMessage (S.failuresMessage s.rcFailures) (S.rcLogMessage "[failures]".toList s)).printf
      (S.failuresMessage s.rcFailures ++ ['\n'])
  else s

def Settings.rcPostprocessMetadata (metadata : Text) : Script Text State := fun s =>
  if keyword metadata = "start".toList then
    .ok (S.print (args metadata ++ ['\n'])
      (S.rcLogMessage ("[".toList ++ S.self ++ " starting at ".toList ++ args metadata ++ "]".toList) s))
  else if keyword metadata = "cmd-name".toList then
    .ok (S.rcLogMessage ("[running ".toList ++ arg 1 metadata ++ "]".toList) s)
  else if keyword metadata = "cmd-status".toList then .ok (S.cmdStatus (arg 1 metadata) (arg 2 metadata) s)
  -- the lines of partial output in front of it have been printed
  else if keyword metadata = "nop".toList then .ok s
  else if keyword metadata = "note".toList then
    .ok (S.rcLogMessage ("[NOTE: ".toList ++ args metadata ++ "]".toList) s)
  else if keyword metadata = "end".toList then
    .ok ((S.rcLogMessage ("[".toList ++ S.self ++ " finished at ".toList ++ args metadata ++ "]".toList)
      (S.reportFailures s)).printf (args metadata ++ ['\n']))
  else if keyword metadata = "exit".toList then
    .fail (arg 1 metadata)
      (S.rcLogMessage ("[".toList ++ S.self ++ " exiting with status ".toList ++ arg 1 metadata ++ "]".toList) s)
  else if keyword metadata = "interrupted".toList then
    .ok ((S.rcLogMessage (args metadata) s).printf (args metadata ++ ['\n']))
  else .ok (S.rcLogMessage ("[metadata:".toList ++ metadata ++ "]".toList) s)

/-! ### The lines -/

def Settings.rcPostprocessLine (line : Text) : Script Text State :=
  match splitFirst S.rcMetadataPrefix line, splitLast S.rcMetadataPrefix line with
  | some (_, after), some (before, _) =>
    if S.rcMetadataPrefix <+: line then S.rcPostprocessMetadata after
    else (Script.update (S.rcPostprocessPartialLine before)).andThen (S.rcPostprocessMetadata after)
  | _, _ => Script.update (S.rcPostprocessPlainLine line)

/-- The lines that `read -r` returns: no NUL, and no last line without its newline. -/
def readRaw (input : Text) : List Text := (lines (input.filter (· ≠ '\x00'))).dropLast

/-- A script that comes to its end without metadata of an exit has exited uncleanly. The trap writes the
log in any case. -/
def Settings.rcPostprocess (input : Text) : Script Text State := fun s =>
  ((Script.forEach (readRaw input) S.rcPostprocessLine).andThen (Exit.fail "1".toList) s).map
    (S.rcLogFlush .force)

end CargosBuildroot.Rc
