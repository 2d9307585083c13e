import CargosBuildroot.Rc.Stream

/-! `rc_real_work` of `/etc/rc` runs the scripts one after another and writes metadata in front of each one
and behind it. A whole boot is logged in that order, its failures are listed at the end, and it exits with
status 0. -/

namespace CargosBuildroot.Rc

open Shell

/-- A command that was run: its name, what it wrote, and its exit status. -/
structure Command where
  name : Text
  output : List Write
  status : ℕ
  deriving DecidableEq

def printRcMetadata (keyword args : Text) : Write := .metadata (keyword ++ ':' :: args)

/-- What is written for a command. -/
def Command.writes (c : Command) : List Write :=
  printRcMetadata "cmd-name".toList c.name :: c.output ++
    [printRcMetadata "cmd-status".toList (c.name ++ ':' :: Nat.toDigits 10 c.status)]

/-- A boot: the dates, the end of `rcorder`, the scripts in its order, and the exit status of the commands
that cloud-init has left for the first boot, whose output goes to another file. -/
structure Boot where
  started : Text
  rcorder : List Write × ℕ
  scripts : List Command
  runcmd : Option ℕ
  ended : Text

/-- The commands of a boot. -/
def Boot.commands (b : Boot) : List Command :=
  ⟨"rcorder".toList, b.rcorder.1, b.rcorder.2⟩ :: b.scripts ++
    b.runcmd.toList.map fun status => ⟨"cloud-init-runcmd".toList, [], status⟩

def Boot.rcRealWork (b : Boot) : List Write :=
  printRcMetadata "start".toList b.started :: b.commands.flatMap Command.writes ++
    [printRcMetadata "end".toList b.ended, printRcMetadata "exit".toList "0".toList]

/-! ### Metadata -/

theorem keyword_cons {k : Text} (hk : ':' ∉ k) (rest : Text) : keyword (k ++ ':' :: rest) = k := by
  have hall : ∀ c ∈ k, decide (c ≠ ':') = true := by
    intro c hc
    rw [decide_eq_true_eq]
    rintro rfl
    exact hk hc
  rw [keyword, List.takeWhile_append_of_pos hall]
  simp

theorem args_cons {k : Text} (hk : ':' ∉ k) (rest : Text) : args (k ++ ':' :: rest) = rest := by
  have hall : ∀ c ∈ k, decide (c ≠ ':') = true := by
    intro c hc
    rw [decide_eq_true_eq]
    rintro rfl
    exact hk hc
  rw [args, if_pos (by simp), List.dropWhile_append_of_pos hall]
  simp

theorem arg_one {k name : Text} (hk : ':' ∉ k) (hname : ':' ∉ name) : arg 1 (k ++ ':' :: name) = name := by
  rw [arg, args_cons hk, positional, fields_of_not_mem hname]
  cases name <;> rfl

theorem positional_pair {name status : Text} (hname : ':' ∉ name) (hstatus : ':' ∉ status) (hne : status ≠ []) :
    positional (name ++ ':' :: status) = [name, status] := by
  rw [positional, fields_cons hname, fields_of_not_mem hstatus, if_neg]
  rw [List.getLast?_cons_cons, List.getLast?_singleton, Option.some_inj]
  exact hne

theorem colon_not_mem_toDigits (n : ℕ) : ':' ∉ Nat.toDigits 10 n := fun h =>
  absurd (Nat.isDigit_of_mem_toDigits (by decide) (by decide) h) (by decide)

theorem args_status {k name : Text} (hk : ':' ∉ k) (hname : ':' ∉ name) (n : ℕ) :
    arg 1 (k ++ ':' :: (name ++ ':' :: Nat.toDigits 10 n)) = name ∧
      arg 2 (k ++ ':' :: (name ++ ':' :: Nat.toDigits 10 n)) = Nat.toDigits 10 n := by
  have hpair := positional_pair hname (colon_not_mem_toDigits n) Nat.toDigits_ne_nil
  rw [arg, arg, args_cons hk, hpair]
  exact ⟨rfl, rfl⟩

theorem statusNumber_toDigits (n : ℕ) : statusNumber (Nat.toDigits 10 n) = n := by
  have hdecimal : decimal n = Nat.toDigits 10 n := by
    rw [decimal, if_neg (by omega), Int.natAbs_natCast]
  rw [statusNumber, ← hdecimal, leadingInt_decimal, Int.toNat_natCast]

theorem toDigits_eq_zero {n : ℕ} : Nat.toDigits 10 n = "0".toList ↔ n = 0 := by
  constructor
  · intro h
    rw [← statusNumber_toDigits n, h]
    rfl
  · rintro rfl
    rfl

/-! ### What is logged of a command -/

/-- What a script may write: its output, and metadata that is logged as a note or does nothing. -/
def Write.Public : Write → Prop
  | .out _ => True
  | .metadata m => keyword m = "note".toList ∨ keyword m = "nop".toList

def Write.log : Write → Text
  | .out t => visible t
  | .metadata m => if keyword m = "note".toList then "[NOTE: ".toList ++ args m ++ "]\n".toList else []

def Write.printed : Write → Text
  | .out t => visible t
  | .metadata _ => []

def Command.message (c : Command) : Text := statusMessage c.name (Nat.toDigits 10 c.status)

def Command.log (c : Command) : Text :=
  "[running ".toList ++ c.name ++ "]\n".toList ++ c.output.flatMap Write.log ++ c.message

def Command.printed (c : Command) : Text := c.output.flatMap Write.printed ++ c.message

/-- The names of the commands that failed. -/
def failed (cs : List Command) : List Text := (cs.filter (·.status ≠ 0)).map Command.name

/-- The list of failures with another name. -/
def addFailure (failures name : Text) : Text := failures ++ (if failures = [] then [] else [' ']) ++ name

theorem foldl_addFailure {names : List Text} (h : ∀ name ∈ names, name ≠ []) :
    names.foldl addFailure [] = [' '].intercalate names := by
  induction names using List.reverseRecOn with
  | nil => rfl
  | append_singleton names name ih =>
    rw [List.forall_mem_append] at h
    rw [List.foldl_append, ih h.1, List.foldl_cons, List.foldl_nil, addFailure]
    cases names with
    | nil => simp
    | cons first names =>
      have hne : [' '].intercalate (first :: names) ≠ [] := by
        have hfirst : first ≠ [] := h.1 first (.head _)
        cases names <;> simp [List.intercalate, hfirst]
      rw [if_neg hne, intercalate_append (List.cons_ne_nil _ _) (List.cons_ne_nil _ _)]
      simp

/-- The writes are done to their end, and logged and printed like this. -/
def Settings.Shows (S : Settings) (ws : List Write) (log printed : Text) (names : List Text) : Prop :=
  ∀ s, (Script.forEach ws S.write s).map State.seen =
    .ok ⟨s.seen.log ++ log, s.seen.console ++ (if S.rcSilent then [] else printed),
      names.foldl addFailure s.seen.failures⟩

variable {S : Settings} {ws ws' : List Write} {log log' printed printed' : Text} {names names' : List Text}

theorem Settings.Shows.append (h : S.Shows ws log printed names) (h' : S.Shows ws' log' printed' names') :
    S.Shows (ws ++ ws') (log ++ log') (printed ++ printed') (names ++ names') := by
  intro s
  have hs := h s
  rw [Script.forEach_append, Script.andThen]
  cases hws : Script.forEach ws S.write s with
  | fail e t => rw [hws] at hs; cases hs
  | ok t =>
    rw [hws] at hs
    have hseen : t.seen = _ := Exit.ok.inj hs
    dsimp only
    rw [h' t, hseen, List.foldl_append]
    cases S.rcSilent <;> simp

theorem shows_nil : S.Shows [] [] [] [] := by
  intro s
  cases S.rcSilent <;> simp [Script.forEach, Script.skip, Exit.map]

theorem shows_singleton {w : Write} (h : ∀ s, (S.write w s).map State.seen =
    .ok ⟨s.seen.log ++ log, s.seen.console ++ (if S.rcSilent then [] else printed),
      names.foldl addFailure s.seen.failures⟩) : S.Shows [w] log printed names := by
  intro s
  rw [← h s, Script.forEach, Script.andThen]
  cases S.write w s <;> rfl

/-- Metadata that is logged and not printed. -/
theorem shows_logged {w : Write} (msg : Text) (h : ∀ s, S.write w s = .ok (S.rcLogMessage msg s)) :
    S.Shows [w] (msg ++ ['\n']) [] [] := by
  refine shows_singleton fun s => ?_
  rw [h s, Exit.map, seen_rcLogMessage, ite_self, List.append_nil, List.foldl_nil]

theorem shows_public {w : Write} (hw : w.Public) : S.Shows [w] w.log w.printed [] := by
  cases w with
  | out t =>
    refine shows_singleton fun s => ?_
    rw [Settings.write, Script.update, Exit.map, seen_partialLine]
    rfl
  | metadata m =>
    rcases hw with hnote | hnop
    · have hlogged := shows_logged (S := S) (w := .metadata m) ("[NOTE: ".toList ++ args m ++ "]".toList)
        fun s => by
          rw [Settings.write, Settings.rcPostprocessMetadata, hnote]
          rfl
      rw [List.append_assoc] at hlogged
      rw [Write.log, if_pos hnote]
      exact hlogged
    · refine shows_singleton fun s => ?_
      rw [Settings.write, Settings.rcPostprocessMetadata, Write.log, hnop]
      cases S.rcSilent <;> simp [Write.printed, Exit.map]

theorem shows_output {output : List Write} (h : ∀ w ∈ output, w.Public) :
    S.Shows output (output.flatMap Write.log) (output.flatMap Write.printed) [] := by
  induction output with
  | nil => exact shows_nil
  | cons w output ih =>
    rw [List.forall_mem_cons] at h
    exact (shows_public h.1).append (ih h.2)

theorem shows_name {name : Text} (hname : ':' ∉ name) :
    S.Shows [printRcMetadata "cmd-name".toList name] ("[running ".toList ++ name ++ "]\n".toList) [] [] := by
  have hkeyword : ':' ∉ "cmd-name".toList := by decide
  have hlogged := shows_logged (S := S) (w := printRcMetadata "cmd-name".toList name)
    ("[running ".toList ++ name ++ "]".toList) fun s => by
      rw [printRcMetadata, Settings.write, Settings.rcPostprocessMetadata, keyword_cons hkeyword,
        arg_one hkeyword hname]
      rfl
  rw [List.append_assoc] at hlogged
  exact hlogged

theorem shows_status {name : Text} (hname : ':' ∉ name) (n : ℕ) :
    S.Shows [printRcMetadata "cmd-status".toList (name ++ ':' :: Nat.toDigits 10 n)]
      (statusMessage name (Nat.toDigits 10 n)) (statusMessage name (Nat.toDigits 10 n))
      (if n ≠ 0 then [name] else []) := by
  have hkeyword : ':' ∉ "cmd-status".toList := by decide
  refine shows_singleton fun s => ?_
  rw [printRcMetadata, Settings.write, Settings.rcPostprocessMetadata, keyword_cons hkeyword,
    (args_status hkeyword hname n).1, (args_status hkeyword hname n).2]
  have hseen := seen_cmdStatus (S := S) (s := s) name (Nat.toDigits 10 n)
  refine (congrArg Exit.ok hseen).trans ?_
  by_cases hn : n = 0
  · simp [hn]
  · have hzero := toDigits_eq_zero.not.mpr hn
    rw [if_pos hzero, if_pos hn]
    rfl

theorem failed_singleton (c : Command) : failed [c] = if c.status ≠ 0 then [c.name] else [] := by
  unfold failed
  by_cases h : c.status = 0 <;> simp [h]

theorem failed_append (cs ds : List Command) : failed (cs ++ ds) = failed cs ++ failed ds := by
  rw [failed, List.filter_append, List.map_append]
  rfl

/-- A command whose name and output are read as they were written. -/
structure Command.Proper (S : Settings) (c : Command) : Prop where
  nonempty : c.name ≠ []
  colon : ':' ∉ c.name
  newline : '\n' ∉ c.name
  nul : '\x00' ∉ c.name
  allowed : ∀ w ∈ c.output, w.Public
  framed : Framed S.rcMetadataPrefix [] c.output

theorem shows_command {c : Command} (h : c.Proper S) : S.Shows c.writes c.log c.printed (failed [c]) := by
  have hwrites := (shows_name (S := S) h.colon).append (shows_output h.allowed)
  have hall := hwrites.append (shows_status h.colon c.status)
  rw [failed_singleton]
  exact hall

theorem shows_commands {cs : List Command} (h : ∀ c ∈ cs, c.Proper S) :
    S.Shows (cs.flatMap Command.writes) (cs.flatMap Command.log) (cs.flatMap Command.printed) (failed cs) := by
  induction cs with
  | nil => exact shows_nil
  | cons c cs ih =>
    rw [List.forall_mem_cons] at h
    rw [← List.singleton_append, failed_append]
    exact (shows_command h.1).append (ih h.2)

/-! ### A boot -/

/-- The text of a date. -/
structure Date (t : Text) : Prop where
  slash : '/' ∉ t
  newline : '\n' ∉ t
  nul : '\x00' ∉ t

structure Boot.Proper (S : Settings) (b : Boot) : Prop where
  started : Date b.started
  ended : Date b.ended
  commands : ∀ c ∈ b.commands, c.Proper S

theorem shows_start (started : Text) : S.Shows [printRcMetadata "start".toList started]
    ("[".toList ++ S.self ++ " starting at ".toList ++ started ++ "]\n".toList) (started ++ ['\n']) [] := by
  have hkeyword : ':' ∉ "start".toList := by decide
  refine shows_singleton fun s => ?_
  rw [printRcMetadata, Settings.write, Settings.rcPostprocessMetadata, keyword_cons hkeyword,
    args_cons hkeyword, if_pos rfl, Exit.map, seen_print, seen_rcLogMessage, List.append_assoc _ "]".toList]
  rfl

/-- The list of failures in the log and on the console, if there are any. -/
def Settings.logFailures (S : Settings) (failures : Text) : Text :=
  if failures = [] then [] else "[failures]\n".toList ++ S.failuresMessage failures ++ ['\n']

def Settings.printFailures (S : Settings) (failures : Text) : Text :=
  if failures = [] then [] else S.failuresMessage failures ++ ['\n']

theorem seen_end (s : State) (ended : Text) :
    (Script.forEach [printRcMetadata "end".toList ended, printRcMetadata "exit".toList "0".toList] S.write
      s).map State.seen = .fail "0".toList
    ⟨s.seen.log ++ (S.logFailures s.seen.failures ++ ("[".toList ++ S.self ++ " finished at ".toList ++ ended ++
        "]\n".toList ++ ("[".toList ++ S.self ++ " exiting with status 0]\n".toList))),
      s.seen.console ++ (S.printFailures s.seen.failures ++ (ended ++ ['\n'])), s.seen.failures⟩ := by
  have hend : ∀ s, S.write (printRcMetadata "end".toList ended) s =
      .ok ((S.rcLogMessage ("[".toList ++ S.self ++ " finished at ".toList ++ ended ++ "]".toList)
        (S.reportFailures s)).printf (ended ++ ['\n'])) := by
    intro s
    have hkeyword : ':' ∉ "end".toList := by decide
    rw [printRcMetadata, Settings.write, Settings.rcPostprocessMetadata, keyword_cons hkeyword,
      args_cons hkeyword]
    rfl
  have hexit : ∀ s, S.write (printRcMetadata "exit".toList "0".toList) s =
      .fail "0".toList (S.rcLogMessage
        ("[".toList ++ S.self ++ " exiting with status ".toList ++ "0".toList ++ "]".toList) s) := fun s => rfl
  rw [Script.forEach, Script.andThen, hend]
  dsimp only
  rw [Script.forEach, Script.andThen, hexit]
  dsimp only
  rw [Exit.map, seen_rcLogMessage, seen_printf, seen_rcLogMessage, seen_reportFailures]
  simp only [Settings.logFailures, Settings.printFailures, List.append_assoc]
  rfl

/-! ### The stream of a boot -/

theorem Framed.append_metadata {p acc m : Text} {ws rest : List Write} (h : Framed p acc ws) (hm : Plain p m)
    (hrest : Framed p [] rest) : Framed p acc (ws ++ .metadata m :: rest) := by
  induction ws generalizing acc with
  | nil => exact ⟨h, hm, hrest⟩
  | cons w ws ih =>
    cases w with
    | out t => exact @ih (acc ++ t) h
    | metadata m' => exact ⟨h.1, h.2.1, ih h.2.2⟩

theorem count_colon_rcMetadataPrefix : 3 ≤ S.rcMetadataPrefix.count ':' := by
  have hmark : ":metadata:".toList.count ':' = 2 := by decide
  have hfirst : ":".toList.count ':' = 1 := by decide
  rw [Settings.rcMetadataPrefix, List.count_append, List.count_append, List.count_append, hmark, hfirst]
  omega

/-- The mark has more colons than metadata about a command. -/
theorem plain_of_count {m : Text} (hnewline : '\n' ∉ m) (hnul : '\x00' ∉ m) (hcolon : m.count ':' ≤ 2) :
    Plain S.rcMetadataPrefix m := by
  refine ⟨hnewline, hnul, fun h => ?_⟩
  have hcount := h.sublist.count_le ':'
  have hmark := count_colon_rcMetadataPrefix (S := S)
  omega

theorem Command.Proper.plain_name {c : Command} (h : c.Proper S) :
    Plain S.rcMetadataPrefix ("cmd-name".toList ++ ':' :: c.name) := by
  refine plain_of_count (by simp [h.newline]) (by simp [h.nul]) ?_
  rw [List.count_append, List.count_cons, List.count_eq_zero_of_not_mem h.colon]
  decide

theorem Command.Proper.plain_status {c : Command} (h : c.Proper S) :
    Plain S.rcMetadataPrefix ("cmd-status".toList ++ ':' :: (c.name ++ ':' :: Nat.toDigits 10 c.status)) := by
  have hdigit : ∀ d : Char, d.isDigit = false → d ∉ Nat.toDigits 10 c.status := by
    intro d hd hmem
    rw [Nat.isDigit_of_mem_toDigits (by decide) (by decide) hmem] at hd
    cases hd
  refine plain_of_count ?_ ?_ ?_
  · simp [h.newline, hdigit '\n' (by decide)]
  · simp [h.nul, hdigit '\x00' (by decide)]
  · rw [List.count_append, List.count_cons, List.count_append, List.count_cons,
      List.count_eq_zero_of_not_mem h.colon, List.count_eq_zero_of_not_mem (hdigit ':' (by decide))]
    decide

theorem Command.Proper.writes {c : Command} (h : c.Proper S) (hmark : ¬ S.rcMetadataPrefix <:+: visible [])
    {rest : List Write} (hrest : Framed S.rcMetadataPrefix [] rest) :
    Framed S.rcMetadataPrefix [] (c.writes ++ rest) := by
  have houtput := h.framed.append_metadata h.plain_status hrest
  rw [Command.writes, List.cons_append, List.cons_append, List.append_assoc]
  exact ⟨hmark, h.plain_name, houtput⟩

theorem framed_commands (hmark : ¬ S.rcMetadataPrefix <:+: visible []) {cs : List Command}
    (h : ∀ c ∈ cs, c.Proper S) {rest : List Write} (hrest : Framed S.rcMetadataPrefix [] rest) :
    Framed S.rcMetadataPrefix [] (cs.flatMap Command.writes ++ rest) := by
  induction cs with
  | nil => exact hrest
  | cons c cs ih =>
    rw [List.forall_mem_cons] at h
    rw [List.flatMap_cons, List.append_assoc]
    exact h.1.writes hmark (ih h.2)

theorem Date.plain {t k : Text} (h : Date t) (hself : Called S.self) (hk : '\n' ∉ k ∧ '\x00' ∉ k ∧ '/' ∉ k) :
    Plain S.rcMetadataPrefix (k ++ ':' :: t) := by
  refine ⟨by simp [h.newline, hk.1], by simp [h.nul, hk.2.1], fun hocc => ?_⟩
  have hslash : '/' ∈ S.rcMetadataPrefix := by
    rw [Settings.rcMetadataPrefix]
    simp [List.mem_of_mem_head? hself.root]
  have hmem := hocc.subset hslash
  simp [h.slash, hk.2.2] at hmem

theorem Boot.Proper.framed {b : Boot} (h : b.Proper S) (hself : Called S.self) :
    Framed S.rcMetadataPrefix [] b.rcRealWork := by
  have hmark : ¬ S.rcMetadataPrefix <:+: visible [] := by
    intro hocc
    have hmem := hocc.subset (colon_mem_rcMetadataPrefix (S := S))
    cases hmem
  have hexit : Plain S.rcMetadataPrefix ("exit".toList ++ ':' :: "0".toList) :=
    plain_of_count (by decide) (by decide) (by decide)
  have hend := h.ended.plain hself (k := "end".toList) (by decide)
  have hstart := h.started.plain hself (k := "start".toList) (by decide)
  exact ⟨hmark, hstart, framed_commands hmark h.commands ⟨hmark, hend, hmark, hexit, hmark⟩⟩

theorem Boot.ended_rcRealWork (b : Boot) : Ended b.rcRealWork := by
  refine ⟨printRcMetadata "start".toList b.started :: b.commands.flatMap Command.writes ++
    [printRcMetadata "end".toList b.ended], "exit".toList ++ ':' :: "0".toList, ?_⟩
  rw [Boot.rcRealWork, List.append_assoc]
  rfl

/-- A boot where one of two scripts fails. -/
def sampleBoot : Boot where
  started := "Jan 1 00:00:01".toList
  rcorder := ([], 0)
  scripts := [⟨"/etc/rc.d/network".toList, [.out "up\n".toList], 0⟩,
    ⟨"/etc/rc.d/sshd".toList, [.out "Starting sshd".toList], 1⟩]
  runcmd := none
  ended := "Jan 1 00:00:02".toList

/-- The writes of that boot where a line was cut. -/
def sampleWrites : List Write :=
  [printRcMetadata "start".toList "Jan 1 00:00:01".toList,
    printRcMetadata "cmd-name".toList "rcorder".toList,
    printRcMetadata "cmd-status".toList "rcorder:0".toList,
    printRcMetadata "cmd-name".toList "/etc/rc.d/network".toList,
    .out "up\n".toList,
    printRcMetadata "cmd-status".toList "/etc/rc.d/network:0".toList,
    printRcMetadata "cmd-name".toList "/etc/rc.d/sshd".toList,
    .out "Starting".toList, .metadata "nop".toList, .out " sshd".toList,
    printRcMetadata "cmd-status".toList "/etc/rc.d/sshd:1".toList,
    printRcMetadata "end".toList "Jan 1 00:00:02".toList,
    printRcMetadata "exit".toList "0".toList]

theorem proper_sampleBoot : sampleBoot.Proper sampleSettings := by
  have hrcorder : Command.Proper sampleSettings ⟨"rcorder".toList, [], 0⟩ := by
    refine ⟨by decide, by decide, by decide, by decide, by simp, ?_⟩
    unfold Framed
    decide +kernel
  have hnetwork : Command.Proper sampleSettings ⟨"/etc/rc.d/network".toList, [.out "up\n".toList], 0⟩ := by
    refine ⟨by decide, by decide, by decide, by decide, by simp [Write.Public], ?_⟩
    unfold Framed Framed
    decide +kernel
  have hsshd : Command.Proper sampleSettings ⟨"/etc/rc.d/sshd".toList, [.out "Starting sshd".toList], 1⟩ := by
    refine ⟨by decide, by decide, by decide, by decide, by simp [Write.Public], ?_⟩
    unfold Framed Framed
    decide +kernel
  have hscripts : ∀ c ∈ sampleBoot.scripts, c.Proper sampleSettings :=
    List.forall_mem_cons.mpr ⟨hnetwork, List.forall_mem_cons.mpr ⟨hsshd, List.forall_mem_nil _⟩⟩
  exact ⟨⟨by decide, by decide, by decide⟩, ⟨by decide, by decide, by decide⟩,
    List.forall_mem_cons.mpr ⟨hrcorder, hscripts⟩⟩

theorem nops_sampleBoot : Nops sampleBoot.rcRealWork sampleWrites := by
  have hwhole : sampleBoot.rcRealWork =
      [printRcMetadata "start".toList "Jan 1 00:00:01".toList,
        printRcMetadata "cmd-name".toList "rcorder".toList,
        printRcMetadata "cmd-status".toList "rcorder:0".toList,
        printRcMetadata "cmd-name".toList "/etc/rc.d/network".toList,
        .out "up\n".toList,
        printRcMetadata "cmd-status".toList "/etc/rc.d/network:0".toList,
        printRcMetadata "cmd-name".toList "/etc/rc.d/sshd".toList,
        .out ("Starting".toList ++ " sshd".toList),
        printRcMetadata "cmd-status".toList "/etc/rc.d/sshd:1".toList,
        printRcMetadata "end".toList "Jan 1 00:00:02".toList,
        printRcMetadata "exit".toList "0".toList] := by decide +kernel
  rw [hwhole, sampleWrites]
  exact .write _ (.write _ (.write _ (.write _ (.write _ (.write _ (.write _ (.cut _ _
    (.nop (.write _ (.write _ (.write _ (.write _ .nil))))))))))))

end CargosBuildroot.Rc
