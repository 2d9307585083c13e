import CargosBuildroot.Rc.Log

/-! The pipe between `rc_real_work` and `rc_postprocess`. What the scripts write arrives in pieces, which
need not be lines, and the metadata of `print_rc_metadata` may stand between any two of them. It is found
again wherever it was written, and metadata that does nothing changes nothing. -/

namespace CargosBuildroot.Rc

open Shell

/-- What is written to the pipe: a part of the output of a script, or metadata in one write. -/
inductive Write
  | out (t : Text)
  | metadata (m : Text)
  deriving DecidableEq

/-- What is read from the pipe. -/
def Settings.stream (S : Settings) : List Write → Text
  | [] => []
  | .out t :: ws => t ++ S.stream ws
  | .metadata m :: ws => S.rcMetadataPrefix ++ m ++ ['\n'] ++ S.stream ws

/-- The shell reads no NUL. -/
def visible (t : Text) : Text := t.filter (· ≠ '\x00')

/-- What is done about a write if it comes alone. -/
def Settings.write (S : Settings) : Write → Script Text State
  | .out t => Script.update (S.rcPostprocessPartialLine (visible t))
  | .metadata m => S.rcPostprocessMetadata m

/-- Metadata that is read as one line. -/
structure Plain (p m : Text) : Prop where
  newline : '\n' ∉ m
  nul : '\x00' ∉ m
  unmarked : ¬ p <:+: m

/-- The mark is nowhere but in front of metadata, where the output `acc` came before the writes. -/
def Framed (p : Text) : Text → List Write → Prop
  | acc, [] => ¬ p <:+: visible acc
  | acc, .out t :: ws => Framed p (acc ++ t) ws
  | acc, .metadata m :: ws => ¬ p <:+: visible acc ∧ Plain p m ∧ Framed p [] ws

/-- The last write is metadata. -/
def Ended (ws : List Write) : Prop := ∃ before m, ws = before ++ [.metadata m]

/-- A mark that is found again. -/
structure Mark (p : Text) : Prop where
  newline : '\n' ∉ p
  nul : '\x00' ∉ p
  unbordered : Unbordered p

theorem visible_append (s t : Text) : visible (s ++ t) = visible s ++ visible t := List.filter_append _ _

theorem visible_of_not_mem {t : Text} (h : '\x00' ∉ t) : visible t = t :=
  List.filter_eq_self.mpr fun c hc => by
    simp only [ne_eq, decide_eq_true_eq]
    rintro rfl
    exact h hc

variable {S : Settings} {s t : State}

/-! ### The mark -/

/-- A path that the shell was called by. -/
structure Called (path : Text) : Prop where
  root : path.head? = some '/'
  colon : ':' ∉ path
  newline : '\n' ∉ path
  nul : '\x00' ∉ path

theorem colon_mem_rcMetadataPrefix : ':' ∈ S.rcMetadataPrefix := by
  rw [Settings.rcMetadataPrefix]
  simp

theorem not_mem_rcMetadataPrefix {c : Char} (hself : c ∉ S.self) (hdigit : c.isDigit = false)
    (hc : c ∉ ":metadata:".toList) : c ∉ S.rcMetadataPrefix := by
  have hpid : c ∉ Nat.toDigits 10 S.pid := by
    intro h
    rw [Nat.isDigit_of_mem_toDigits (by decide) (by decide) h] at hdigit
    cases hdigit
  have hcolon : c ∉ ":".toList := fun h => hc (by simp_all)
  rw [Settings.rcMetadataPrefix]
  simp only [List.mem_append, not_or]
  exact ⟨⟨⟨hself, hcolon⟩, hpid⟩, hc⟩

theorem mark_rcMetadataPrefix (h : Called S.self) : Mark S.rcMetadataPrefix := by
  refine ⟨not_mem_rcMetadataPrefix h.newline (by decide) (by decide),
    not_mem_rcMetadataPrefix h.nul (by decide) (by decide), ?_⟩
  have hslash : '/' ∉ ":".toList ++ (Nat.toDigits 10 S.pid ++ ":metadata:".toList) := by
    simp only [List.mem_append, not_or]
    refine ⟨by decide, fun hpid => ?_, by decide⟩
    exact absurd (Nat.isDigit_of_mem_toDigits (by decide) (by decide) hpid) (by decide)
  have hlast : (":".toList ++ (Nat.toDigits 10 S.pid ++ ":metadata:".toList)).getLast? = some ':' := by
    rw [← List.append_assoc, List.getLast?_append_of_ne_nil _ (by decide)]
    rfl
  rw [Settings.rcMetadataPrefix, List.append_assoc, List.append_assoc]
  exact unbordered_append h.root hslash hlast h.colon

/-! ### Lines -/

theorem readRaw_append {ls : List Text} (hls : ∀ l ∈ ls, '\n' ∉ l) {input t : Text}
    (h : visible input = unlines ls ++ visible t) : readRaw input = ls ++ readRaw t := by
  have hne : lines (visible t) ≠ [] := List.splitOn_ne_nil _ _
  rw [readRaw, ← visible, h, lines_unlines hls, List.dropLast_append_of_ne_nil hne]
  rfl

theorem rcPostprocessLine_plain {line : Text} (h : ¬ S.rcMetadataPrefix <:+: line) :
    S.rcPostprocessLine line = Script.update (S.rcPostprocessPlainLine line) := by
  unfold Settings.rcPostprocessLine
  rw [splitLast_of_absent h]
  cases splitFirst S.rcMetadataPrefix line <;> rfl

theorem seen_partialLine (line : Text) : (S.rcPostprocessPartialLine line s).seen =
    { s.seen with log := s.seen.log ++ line, console := s.seen.console ++ if S.rcSilent then [] else line } := by
  rw [Settings.rcPostprocessPartialLine, seen_print, seen_rcLogMessageN]

/-- A part of a line, as a command. -/
def Settings.put (S : Settings) (line : Text) : Script Text State := Script.update (S.rcPostprocessPartialLine line)

theorem agree_put (line : Text) : Script.Agree State.seen (S.put line) (S.put line) :=
  Script.agree_update fun s t h => by rw [seen_partialLine, seen_partialLine, h]

theorem agree_put_append (a b : Text) :
    Script.Agree State.seen (S.put (a ++ b)) ((S.put a).andThen (S.put b)) := by
  refine Script.agree_update fun s t h => ?_
  rw [seen_partialLine, seen_partialLine, seen_partialLine, h]
  cases S.rcSilent <;> simp

theorem agree_put_nil {a b : Script Text State} (h : Script.Agree State.seen a b) :
    Script.Agree State.seen a ((S.put []).andThen b) := by
  intro s t hst
  refine h s _ (hst.trans ?_)
  rw [seen_partialLine]
  simp

theorem agree_plainLine {line : Text} (h : ¬ S.rcMetadataPrefix <:+: line) :
    Script.Agree State.seen (S.rcPostprocessLine line) (S.put (line ++ ['\n'])) := by
  rw [rcPostprocessLine_plain h]
  refine Script.agree_update fun s t hst => ?_
  rw [Settings.rcPostprocessPlainLine, seen_print, seen_rcLogMessage, seen_partialLine, hst]

theorem agree_plainLines {ls : List Text} (h : ∀ l ∈ ls, ¬ S.rcMetadataPrefix <:+: l) :
    Script.Agree State.seen (Script.forEach ls S.rcPostprocessLine) (S.put (unlines ls)) := by
  induction ls with
  | nil =>
    refine Script.agree_update fun s t hst => ?_
    rw [seen_partialLine, hst]
    simp [unlines]
  | cons l ls ih =>
    rw [List.forall_mem_cons] at h
    refine ((agree_plainLine h.1).andThen (ih h.2)).trans ?_
    exact (agree_put_append (l ++ ['\n']) (unlines ls)).symm

/-- A line with metadata in it, after the part of another line. -/
theorem agree_markedLine (hmark : Mark S.rcMetadataPrefix) {last m : Text}
    (hlast : ¬ S.rcMetadataPrefix <:+: last) (hm : Plain S.rcMetadataPrefix m) :
    Script.Agree State.seen (S.rcPostprocessLine (last ++ S.rcMetadataPrefix ++ m))
      ((S.put last).andThen (S.rcPostprocessMetadata m)) := by
  have hmetadata := agree_metadata S S.writes m
  unfold Settings.rcPostprocessLine
  rw [hmark.unbordered.splitFirst_append hlast, hmark.unbordered.splitLast_eq hlast hm.unmarked]
  dsimp only
  split
  next hstart =>
    -- then there is nothing in front of it
    obtain rfl : last = [] := by
      obtain ⟨y, hy⟩ := hstart
      rw [List.append_assoc] at hy
      rcases hmark.unbordered.shift hy with hnil | ⟨w, rfl⟩
      · exact hnil
      · exact absurd (List.prefix_append _ _).isInfix hlast
    exact agree_put_nil hmetadata
  next => exact (agree_put last).andThen hmetadata

/-! ### The stream -/

variable (S) in
theorem agree_write (w : Write) : Script.Agree State.seen (S.write w) (S.write w) := by
  cases w with
  | out t => exact agree_put (visible t)
  | metadata m => exact agree_metadata S S.writes m

variable (S) in
theorem agree_writes (ws : List Write) :
    Script.Agree State.seen (Script.forEach ws S.write) (Script.forEach ws S.write) :=
  Script.agree_forEach fun w _ => agree_write S w

/-- The output so far, and the metadata after it. -/
theorem agree_marked (hmark : Mark S.rcMetadataPrefix) {acc m t : Text}
    (hacc : ¬ S.rcMetadataPrefix <:+: visible acc) (hm : Plain S.rcMetadataPrefix m) {a : Script Text State}
    (hrest : Script.Agree State.seen (Script.forEach (readRaw t) S.rcPostprocessLine) a) :
    Script.Agree State.seen
      (Script.forEach (readRaw (acc ++ (S.rcMetadataPrefix ++ m ++ ['\n'] ++ t))) S.rcPostprocessLine)
      ((S.put (visible acc)).andThen ((S.rcPostprocessMetadata m).andThen a)) := by
  obtain ⟨ls, last, heq, hls, hlast⟩ := exists_unlines (visible acc)
  have hmarked : '\n' ∉ last ++ S.rcMetadataPrefix ++ m := by
    simp only [List.mem_append, not_or]
    exact ⟨⟨hlast, hmark.newline⟩, hm.newline⟩
  have hread : readRaw (acc ++ (S.rcMetadataPrefix ++ m ++ ['\n'] ++ t)) =
      ls ++ (last ++ S.rcMetadataPrefix ++ m) :: readRaw t := by
    rw [List.append_cons ls]
    refine readRaw_append ?_ ?_
    · rw [List.forall_mem_append]
      exact ⟨hls, by simpa using hmarked⟩
    · rw [visible_append, visible_append, visible_append, visible_append, visible_of_not_mem hmark.nul,
        visible_of_not_mem hm.nul, heq]
      simp [unlines, visible]
  have hplain : ∀ l ∈ ls, ¬ S.rcMetadataPrefix <:+: l := by
    intro l hl h
    refine hacc (h.trans (infix_of_mem_lines ?_))
    rw [heq, lines_unlines hls]
    exact List.mem_append_left _ hl
  have hunmarked : ¬ S.rcMetadataPrefix <:+: last := by
    intro h
    rw [heq] at hacc
    exact hacc (h.trans (List.suffix_append _ _).isInfix)
  have hall := (agree_plainLines hplain).andThen ((agree_markedLine hmark hunmarked hm).andThen hrest)
  have hmetadata := (agree_write S (.metadata m)).andThen (hrest.symm.trans hrest)
  have hput := (agree_put_append (S := S) (unlines ls) last).symm.andThen hmetadata
  rw [Script.andThen_assoc, ← Script.andThen_assoc (S.put last)] at hput
  rw [hread, Script.forEach_append, heq]
  exact hall.trans hput

/-- The lines that are read are done like the writes, in whatever way the writes cut the lines. -/
theorem agree_stream (hmark : Mark S.rcMetadataPrefix) (m : Text) (ws : List Write) (acc : Text)
    (h : Framed S.rcMetadataPrefix acc (ws ++ [.metadata m])) :
    Script.Agree State.seen
      (Script.forEach (readRaw (acc ++ S.stream (ws ++ [.metadata m]))) S.rcPostprocessLine)
      ((S.put (visible acc)).andThen (Script.forEach (ws ++ [.metadata m]) S.write)) := by
  induction ws generalizing acc with
  | nil =>
    have hend : Script.Agree State.seen
        (Script.forEach (readRaw []) S.rcPostprocessLine) (Script.forEach [] S.write) :=
      Script.agree_update fun s t hst => hst
    exact agree_marked hmark h.1 h.2.1 hend
  | cons w ws ih =>
    cases w with
    | out t =>
      have hrest := ih (acc ++ t) h
      rw [visible_append] at hrest
      have happend := (agree_put_append (S := S) (visible acc) (visible t)).andThen (agree_writes S (ws ++ [.metadata m]))
      rw [Script.andThen_assoc] at happend
      rw [List.append_assoc] at hrest
      exact hrest.trans happend
    | metadata m' =>
      exact agree_marked hmark h.1 h.2.1 ((ih [] h.2.2).trans (agree_put_nil (agree_writes S _)).symm)

/-- The state of `rc_postprocess` at its start. -/
def State.initial : State := ⟨[], false, [], [], [], 0⟩

/-- The settings of a system where the first write to the log file fails. -/
def sampleSettings : Settings := ⟨"/etc/rc".toList, 7, "/var/run/rc.log".toList, false, fun n => decide (n ≠ 0)⟩

theorem called_sampleSettings : Called sampleSettings.self := ⟨by decide, by decide, by decide, by decide⟩

/-- The log, the console and the failures do not depend on how the output was cut into writes, nor on the
place of the metadata in a line. -/
theorem rcPostprocess_stream (hself : Called S.self) {ws : List Write} (hended : Ended ws)
    (h : Framed S.rcMetadataPrefix [] ws) (s : State) :
    (S.rcPostprocess (S.stream ws) s).map State.seen =
      ((Script.forEach ws S.write).andThen (Exit.fail "1".toList) s).map State.seen := by
  obtain ⟨ws, m, rfl⟩ := hended
  have hstream := (agree_stream (mark_rcMetadataPrefix hself) m ws [] h).trans (agree_put_nil (agree_writes S _)).symm
  have hexit : Script.Agree State.seen (Exit.fail "1".toList : Script Text State) (Exit.fail "1".toList) :=
    fun s t h => congrArg (Exit.fail "1".toList) h
  rw [map_seen_rcPostprocess]
  exact hstream.andThen hexit s s rfl

/-- A line that was written in two parts, and an exit. -/
def sampleOutput : List Write := [.out "up an".toList, .out "d running\n".toList, .metadata "exit:0".toList]

theorem framed_sampleOutput : Framed sampleSettings.rcMetadataPrefix [] sampleOutput := by
  refine ⟨?_, ⟨by decide, by decide, ?_⟩, ?_⟩
  · decide +kernel
  · decide +kernel
  · unfold Framed
    decide +kernel

theorem ended_sampleOutput : Ended sampleOutput :=
  ⟨[.out "up an".toList, .out "d running\n".toList], "exit:0".toList, rfl⟩

theorem rcPostprocess_stream_sample :
    (sampleSettings.rcPostprocess (sampleSettings.stream sampleOutput) State.initial).map State.seen =
      .fail "0".toList ⟨"up and running\n[/etc/rc exiting with status 0]\n".toList, "up and running\n".toList, []⟩ :=
  (rcPostprocess_stream called_sampleSettings ended_sampleOutput framed_sampleOutput _).trans (by decide +kernel)

/-! ### Metadata that does nothing -/

/-- The same writes with `nop` in between, which may cut the output in other places. -/
inductive Nops : List Write → List Write → Prop
  | nil : Nops [] []
  | nop {ws ws' : List Write} (h : Nops ws ws') : Nops ws (.metadata "nop".toList :: ws')
  | write {ws ws' : List Write} (w : Write) (h : Nops ws ws') : Nops (w :: ws) (w :: ws')
  | cut {ws ws' : List Write} (t u : Text) (h : Nops (.out u :: ws) ws') : Nops (.out (t ++ u) :: ws) (.out t :: ws')

theorem Nops.agree {ws ws' : List Write} (h : Nops ws ws') :
    Script.Agree State.seen (Script.forEach ws S.write) (Script.forEach ws' S.write) := by
  induction h with
  | nil => exact Script.agree_update fun s t hst => hst
  | nop h ih => exact ih
  | write w h ih => exact (agree_write S w).andThen ih
  | @cut ws ws' t u h ih =>
    have hcut : Script.Agree State.seen (S.write (.out (t ++ u)))
        ((S.write (.out t)).andThen (S.write (.out u))) := by
      have happend := agree_put_append (S := S) (visible t) (visible u)
      rwa [← visible_append] at happend
    have hrest := hcut.andThen (agree_writes S ws)
    rw [Script.andThen_assoc] at hrest
    exact hrest.trans ((agree_write S (.out t)).andThen ih)

theorem Framed.unmarked {p acc : Text} {ws : List Write} (h : Framed p acc ws) : ¬ p <:+: visible acc := by
  induction ws generalizing acc with
  | nil => exact h
  | cons w ws ih =>
    cases w with
    | out t =>
      have hacc := @ih (acc ++ t) h
      rw [visible_append] at hacc
      exact fun hp => hacc (hp.trans (List.prefix_append _ _).isInfix)
    | metadata m => exact h.1

/-- Less output in front of the writes. -/
theorem Framed.append {p s acc : Text} {ws : List Write} (h : Framed p (s ++ acc) ws) : Framed p acc ws := by
  induction ws generalizing acc with
  | nil =>
    rw [Framed, visible_append] at h
    exact fun hp => h (hp.trans (List.suffix_append _ _).isInfix)
  | cons w ws ih =>
    cases w with
    | out t =>
      rw [Framed, List.append_assoc] at h
      exact ih h
    | metadata m =>
      have hacc : ¬ p <:+: visible (s ++ acc) := h.1
      rw [visible_append] at hacc
      exact ⟨fun hp => hacc (hp.trans (List.suffix_append _ _).isInfix), h.2⟩

theorem Nops.framed {p : Text} (hcolon : ':' ∈ p) {ws ws' : List Write} (h : Nops ws ws') {acc : Text}
    (hws : Framed p acc ws) : Framed p acc ws' := by
  induction h generalizing acc with
  | nil => exact hws
  | nop h ih =>
    have hnop : Plain p "nop".toList :=
      ⟨by decide, by decide, fun hp => absurd (hp.subset hcolon) (by decide)⟩
    rw [← List.append_nil acc] at hws
    exact ⟨(List.append_nil acc ▸ hws).unmarked, hnop, ih hws.append⟩
  | write w h ih =>
    cases w with
    | out t => exact ih hws
    | metadata m => exact ⟨hws.1, hws.2.1, ih hws.2.2⟩
  | cut t u h ih =>
    rw [Framed, ← List.append_assoc] at hws
    exact ih hws

theorem Ended.cons {ws : List Write} (w : Write) (h : Ended ws) : Ended (w :: ws) := by
  obtain ⟨before, m, rfl⟩ := h
  exact ⟨w :: before, m, rfl⟩

theorem ended_cons {w : Write} {ws : List Write} (h : Ended (w :: ws)) :
    Ended ws ∨ ws = [] ∧ ∃ m, w = .metadata m := by
  obtain ⟨before, m, heq⟩ := h
  cases before with
  | nil =>
    obtain ⟨rfl, rfl⟩ := List.cons.inj heq
    exact .inr ⟨rfl, m, rfl⟩
  | cons w' before =>
    obtain ⟨-, rfl⟩ := List.cons.inj heq
    exact .inl ⟨before, m, rfl⟩

theorem Nops.ended_of_nil {ws : List Write} (h : Nops [] ws) : ws = [] ∨ Ended ws := by
  generalize hnil : ([] : List Write) = ws₀ at h
  induction h with
  | nil => exact .inl rfl
  | nop h ih =>
    rcases ih hnil with hempty | hended
    · exact .inr ⟨[], "nop".toList, by rw [hempty, ← hnil, List.nil_append]⟩
    · exact .inr (hended.cons _)
  | write w h ih => cases hnil
  | cut t u h ih => cases hnil

theorem Nops.ended {ws ws' : List Write} (h : Nops ws ws') (hws : Ended ws) : Ended ws' := by
  induction h with
  | nil => exact hws
  | nop h ih => exact (ih hws).cons _
  | write w h ih =>
    rcases ended_cons hws with hrest | ⟨rfl, m, rfl⟩
    · exact (ih hrest).cons w
    · rcases h.ended_of_nil with rfl | hended
      · exact ⟨[], m, rfl⟩
      · exact hended.cons _
  | cut t u h ih =>
    rcases ended_cons hws with hrest | ⟨-, m, hm⟩
    · exact (ih (hrest.cons _)).cons _
    · cases hm

/-- The log does not depend on when `nop` is written. -/
theorem rcPostprocess_nops (hself : Called S.self) {ws ws' : List Write} (h : Nops ws ws')
    (hended : Ended ws) (hws : Framed S.rcMetadataPrefix [] ws) (s : State) :
    (S.rcPostprocess (S.stream ws') s).map State.seen = (S.rcPostprocess (S.stream ws) s).map State.seen := by
  have hexit : Script.Agree State.seen (Exit.fail "1".toList : Script Text State) (Exit.fail "1".toList) :=
    fun s t h => congrArg (Exit.fail "1".toList) h
  rw [rcPostprocess_stream hself hended hws,
    rcPostprocess_stream hself (h.ended hended) (h.framed colon_mem_rcMetadataPrefix hws)]
  exact (h.agree.symm.andThen hexit) s s rfl

theorem rcPostprocess_nops_sample :
    (sampleSettings.rcPostprocess (sampleSettings.stream [.out "up".toList, .metadata "nop".toList,
      .out " an".toList, .out "d running\n".toList, .metadata "nop".toList, .metadata "exit:0".toList])
      State.initial).map State.seen =
    (sampleSettings.rcPostprocess (sampleSettings.stream sampleOutput) State.initial).map State.seen :=
  rcPostprocess_nops called_sampleSettings
    (.cut "up".toList " an".toList (.nop (.write _ (.write _ (.nop (.write _ .nil))))))
    ended_sampleOutput framed_sampleOutput _

end CargosBuildroot.Rc
