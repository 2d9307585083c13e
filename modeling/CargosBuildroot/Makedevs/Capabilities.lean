import CargosBuildroot.Makedevs.Independence
import CargosBuildroot.Makedevs.Nodes

/-! The `|xattr` lines of a device table. The file of such a line is whatever `full_name` holds,
the path of the last entry line that was scanned; an entry line that is rejected leaves it alone,
and one whose operations fail has changed it already. -/

namespace CargosBuildroot.Makedevs

open Shell

/-! ### Entry lines -/

/-- A blank line or a comment, indented or not. -/
def commentLine (line : Text) : Bool :=
  match line.dropWhile isspace with
  | [] => true
  | c :: _ => c = '#'

inductive Outcome
  | rejected
  /-- Accepted, and an operation failed, with `full_name` as it is then. -/
  | failed (fullName : Text)
  | done (e : Entry)

/-- `full_name` after an entry line that was accepted. -/
def Outcome.accepted : Outcome → Option Text
  | .rejected => none
  | .failed fullName => some fullName
  | .done e => some e.path

section

variable {σ : Type}

/-- All operations of the entry succeed, the making of a directory as well. -/
def succeeds (k : System σ) (e : Entry) (s : σ) : Bool :=
  (perform k e s).2.1 && (e.type ≠ 'd' || (e.makeDirectory k s).1.error.isNone)

/-- What becomes of an entry line; nothing for any other line. -/
def outcome (env : Env) (k : System σ) (line : Text) (st : State) (s : σ) : List Outcome :=
  if (scanXattr line).isSome || commentLine line then []
  else
    match (readEntry env st.buffers line).1 with
    | .entry e => [if succeeds k e s then .done e else .failed (e.fullName k s)]
    | _ => [.rejected]

/-- The entry lines of a run, up to the line at which the program exits. -/
def outcomes (env : Env) (k : System σ) : List Text → State → σ → List Outcome
  | [], _, _ => []
  | line :: lines, st, s =>
    outcome env k line st s ++
      match mainLine env k line st s with
      | (none, _, _) => []
      | (some st, _, s) => outcomes env k lines st s

/-- The files an entry is for: the nodes of a device line, or the one that is named. -/
def Entry.files (e : Entry) : List Text :=
  if (nodeType e.type).isSome then e.nodes.map e.nodePath else [e.path]

/-- `libcap` is correct: a text of capabilities is set on a file if it is a valid one and the file
is a regular one. -/
def Libcap (k : System σ) (valid : Text → Bool) (regular : Text → σ → Bool) : Prop :=
  ∀ path xattr s, (k (.setXattr path xattr) s).1 = (valid xattr && regular path s)

/-- The calls of an `|xattr` line are right for the entry lines before it: they set the capability
on the files of the nearest one, and on none if it was rejected or failed. -/
def RightTarget (k : System σ) (before : List Outcome) (xattr : Text) (s : σ) (calls : List Call) :
    Prop :=
  match before.getLast? with
  | some (.done e) => calls = e.files.map (.setXattr · xattr) ∧ (attempt k calls s).2.1 = true
  | _ => ∀ c ∈ calls, (k c s).1 = false

/-- A device line with a count of two or more. -/
def Entry.numbered (e : Entry) : Prop := (nodeType e.type).isSome ∧ 2 ≤ e.count.toNat

/-- The nearest entry line is done and names one file, which is a regular one, and the text is
valid; or that line was rejected or failed, and the file of the last one that was accepted is not
a regular file, if there is one, or the text is not valid. -/
def Covered (valid : Text → Bool) (regular : Text → σ → Bool) (before : List Outcome)
    (xattr : Text) (s : σ) : Prop :=
  match before.getLast? with
  | some (.done e) => ¬ e.numbered ∧ valid xattr = true ∧ regular e.path s = true
  | _ => ∀ last ∈ (before.filterMap Outcome.accepted).getLast?,
    valid xattr = false ∨ regular last s = false

/-- In the run on `lines` an `|xattr` line is met after the lines `before`. -/
structure Meets (env : Env) (k : System σ) (b : Buffers) (s : σ) (lines before : List Text)
    (line xattr : Text) (st : State) (s' : σ) : Prop where
  met : before ++ [line] <+: lines
  scans : scanXattr line = some xattr
  state : ∃ calls, mainLoop env k before ⟨b, none, false⟩ s = (some st, calls, s')

end

/-! ### Comments -/

theorem sscanf_name (line : Text) : (sscanf line).name = (scanString 4095 line).map Prod.fst := by
  unfold sscanf tableFormat
  simp only [scan_conversion]
  repeat' split
  all_goals simp_all [scan]

theorem scanString_head {n : ℕ} (hn : n ≠ 0) {line w r : Text} {c : Char} (hc : isspace c = false)
    (hline : (line.dropWhile isspace).head? = some c) (h : scanString n line = some (w, r)) :
    w.head? = some c := by
  obtain ⟨n, rfl⟩ := Nat.exists_eq_succ_of_ne_zero hn
  obtain ⟨rest, hrest⟩ := List.head?_eq_some_iff.mp hline
  rw [scanString] at h
  simp only [hrest, reduceCtorEq, ↓reduceIte, Option.some_inj, Prod.mk.injEq] at h
  rw [← h.1, List.takeWhile_cons, hc]
  rfl

/-- A comment is never an entry, however many values it holds. -/
theorem readEntry_comment {env : Env} {b : Buffers} {line : Text} (h : commentLine line = true)
    (e : Entry) : (readEntry env b line).1 ≠ .entry e := by
  by_cases hr : rejected (sscanf line) = true
  · rw [readEntry, if_pos hr]
    dsimp only
    split <;> simp
  · obtain ⟨⟨name, hname⟩, _⟩ := exists_name_type hr
    obtain ⟨⟨w, r⟩, hscan, hw⟩ := Option.map_eq_some_iff.mp ((sscanf_name line).symm.trans hname)
    have hhead : (line.dropWhile isspace).head? = some '#' := by
      rw [commentLine] at h
      split at h
      next hnil =>
        rw [scanString] at hscan
        simp [hnil] at hscan
      next c rest hcons =>
        rw [hcons, List.head?_cons, of_decide_eq_true h]
    have hcomment : (b.store (sscanf line)).name.head? = some '#' := by
      rw [store_name b hname, ← hw]
      exact scanString_head (n := 4095) (by omega) (by decide) hhead hscan
    rw [readEntry_accepted env b hr, if_pos hcomment]
    exact Line.noConfusion

/-! ### The path that an `|xattr` line finds -/

theorem nul_not_mem_concatPathFile (path filename : Text) : '\x00' ∉ concatPathFile path filename := by
  rw [concatPathFile]
  simp only [List.mem_append, not_or]
  refine ⟨⟨nul_not_mem_stringOf _, by split <;> decide⟩, fun h => ?_⟩
  exact nul_not_mem_stringOf _ ((List.dropWhile_suffix _).subset h)

/-- The path of an accepted line is a string. -/
theorem nul_not_mem_path {env : Env} {b : Buffers} {line : Text} {e : Entry}
    (h : (readEntry env b line).1 = .entry e) : '\x00' ∉ e.path := by
  rw [(of_readEntry h).2.1]
  exact nul_not_mem_concatPathFile _ _

section

variable {env : Env} {σ : Type} {k : System σ}

/-- `full_name` is the path of an entry whose operations succeed. -/
theorem fullName_of_succeeds {e : Entry} {s : σ} (hnul : '\x00' ∉ e.path)
    (h : succeeds k e s = true) : e.fullName k s = e.path := by
  rw [Entry.fullName]
  split
  next hd =>
    rw [succeeds, Bool.and_eq_true, hd] at h
    have herror : (e.makeDirectory k s).1.error = none := by simpa using h.2
    rw [Entry.makeDirectory] at herror ⊢
    rw [(bbMakeDirectory_spec _ _ _ _ _ _).2.2 herror, stringOf_eq_self hnul]
  next => rfl

theorem mainLine_fullName {line : Text} {st st' : State} {s s' : σ} {calls : List Call}
    (h : mainLine env k line st s = (some st', calls, s')) :
    st'.fullName = ((outcome env k line st s).filterMap Outcome.accepted).getLast?.or st.fullName := by
  rw [mainLine] at h
  rw [outcome]
  rcases hx : scanXattr line with _ | xattr
  · rw [hx] at h
    dsimp only at h
    rcases hr : readEntry env st.buffers line with ⟨l, b⟩
    rw [hr] at h
    by_cases hc : commentLine line = true
    · have hentry (e : Entry) : (readEntry env st.buffers line).1 ≠ .entry e :=
        readEntry_comment hc e
      rw [hr] at hentry
      rw [if_pos (by simp [hc])]
      cases l with
      | entry e => exact absurd rfl (hentry e)
      | died => cases h
      | skipped => cases h; rfl
      | invalid => cases h; rfl
    · rw [if_neg (by simp [hc])]
      cases l with
      | entry e =>
        cases h
        dsimp only
        split
        next hsucceeds =>
          exact congrArg some (fullName_of_succeeds (nul_not_mem_path (congrArg Prod.fst hr)) hsucceeds)
        next => rfl
      | died => cases h
      | skipped => cases h; rfl
      | invalid => cases h; rfl
  · rw [hx] at h
    dsimp only at h
    rw [if_pos (by simp)]
    split at h
    · simp only [Prod.mk.injEq, Option.ite_none_right_eq_some, Option.some_inj] at h
      rw [← h.1.2]
      rfl
    · cases h

/-- `full_name` is the path of the last entry line that was accepted, or what is left of it. -/
theorem mainLoop_fullName {lines : List Text} {st st' : State} {s s' : σ} {calls : List Call}
    (h : mainLoop env k lines st s = (some st', calls, s')) :
    st'.fullName =
      ((outcomes env k lines st s).filterMap Outcome.accepted).getLast?.or st.fullName := by
  induction lines generalizing st s calls with
  | nil =>
    cases h
    rfl
  | cons line lines ih =>
    rw [mainLoop] at h
    rw [outcomes]
    rcases hline : mainLine env k line st s with ⟨_ | st₁, calls₁, s₁⟩
    · rw [hline] at h
      cases h
    · rw [hline] at h
      dsimp only at h ⊢
      rcases hloop : mainLoop env k lines st₁ s₁ with ⟨st₂, calls₂, s₂⟩
      rw [hloop] at h
      cases h
      rw [ih hloop, mainLine_fullName hline, List.filterMap_append, List.getLast?_append,
        Option.or_assoc]

theorem outcome_bounded {line : Text} {st : State} {s : σ} {e : Entry}
    (h : .done e ∈ outcome env k line st s) : Bounded e := by
  rw [outcome] at h
  split at h
  · cases h
  · rcases hr : readEntry env st.buffers line with ⟨l, b⟩
    rw [hr] at h
    cases l with
    | entry e' =>
      have heq := List.mem_singleton.mp h
      split at heq
      · obtain rfl := Outcome.done.inj heq
        exact bounded_of_readEntry hr
      · cases heq
    | _ => cases List.mem_singleton.mp h

theorem outcomes_bounded {lines : List Text} {st : State} {s : σ} {e : Entry}
    (h : .done e ∈ outcomes env k lines st s) : Bounded e := by
  induction lines generalizing st s with
  | nil => cases h
  | cons line lines ih =>
    rw [outcomes] at h
    rcases List.mem_append.mp h with h | h
    · exact outcome_bounded h
    · split at h
      · cases h
      · exact ih h

/-! ### The files of an entry -/

theorem files_eq_iff {e : Entry} (h : Bounded e) : [e.path] = e.files ↔ ¬ e.numbered := by
  rw [Entry.files, Entry.numbered]
  split_ifs with htype
  · have hnodes : e.nodes.map e.nodePath = (List.range e.nodeCount).map e.nodeName := by
      rw [nodes_eq h, List.map_map]
      exact List.map_congr_left fun j hj => nodePath_eq h (List.mem_range.mp hj)
    rw [hnodes]
    constructor
    · intro heq hcount
      have hlen := congrArg List.length heq
      rw [List.length_map, List.length_range, Entry.nodeCount, List.length_singleton] at hlen
      omega
    · intro hcount
      have hlt : ¬ 2 ≤ e.count.toNat := fun h => hcount ⟨htype, h⟩
      have hone : e.nodeCount = 1 := by
        rw [Entry.nodeCount]
        omega
      rw [hone, List.range_one, List.map_singleton, Entry.nodeName, if_neg hlt]
  · simp [htype]

theorem getLast?_accepted {os : List Outcome} {e : Entry} (h : os.getLast? = some (.done e)) :
    (os.filterMap Outcome.accepted).getLast? = some e.path := by
  obtain ⟨front, rfl⟩ := List.getLast?_eq_some_iff.mp h
  rw [List.filterMap_append, List.getLast?_append]
  rfl

theorem mainLine_xattr (henv : env.extendedAttributes = true) {line xattr : Text}
    (hline : scanXattr line = some xattr) (st : State) (s : σ) :
    (mainLine env k line st s).2.1 = st.fullName.toList.map (.setXattr · xattr) := by
  rw [mainLine, hline, henv]
  cases st.fullName <;> rfl

theorem rightTarget_iff (henv : env.extendedAttributes = true) {valid : Text → Bool}
    {regular : Text → σ → Bool} (hcap : Libcap k valid regular) {b : Buffers} {s s' : σ}
    {lines before : List Text} {line xattr : Text} {st : State}
    (h : Meets env k b s lines before line xattr st s') :
    RightTarget k (outcomes env k before ⟨b, none, false⟩ s) xattr s'
        (mainLine env k line st s').2.1 ↔
      Covered valid regular (outcomes env k before ⟨b, none, false⟩ s) xattr s' := by
  obtain ⟨calls, hloop⟩ := h.state
  have hbounded := @outcomes_bounded env σ k before ⟨b, none, false⟩ s
  have hname := mainLoop_fullName hloop
  rw [Option.or_none] at hname
  rw [mainLine_xattr henv h.scans, hname, RightTarget, Covered]
  generalize outcomes env k before ⟨b, none, false⟩ s = os at hbounded
  split
  next e hlast =>
    have hset : (attempt k [.setXattr e.path xattr] s').2.1 = (valid xattr && regular e.path s') := by
      rw [← hcap, attempt]
      rcases k (.setXattr e.path xattr) s' with ⟨_ | _, _⟩ <;> rfl
    rw [getLast?_accepted hlast, Option.toList_some, List.map_singleton, hset, Bool.and_eq_true,
      ← files_eq_iff (hbounded (List.mem_of_getLast? hlast)),
      ← List.map_inj_right fun _ _ heq => (Call.setXattr.inj heq).1, List.map_singleton]
  next hlast =>
    cases (os.filterMap Outcome.accepted).getLast? with
    | none => simp
    | some last => simp [hcap last xattr s', or_iff_not_imp_left]

/-- In a run every `|xattr` line sets the capability on the file of the entry line before it, and
on none if that line was rejected or failed, exactly when the line is covered each time. -/
theorem xattr_targets_iff (env : Env) (k : System σ) (valid : Text → Bool)
    (regular : Text → σ → Bool) (hcap : Libcap k valid regular) (b : Buffers) (s : σ)
    (lines : List Text) :
    let env := { env with extendedAttributes := true }
    (∀ before line xattr st s', Meets env k b s lines before line xattr st s' →
      RightTarget k (outcomes env k before ⟨b, none, false⟩ s) xattr s'
        (mainLine env k line st s').2.1) ↔
    ∀ before line xattr st s', Meets env k b s lines before line xattr st s' →
      Covered valid regular (outcomes env k before ⟨b, none, false⟩ s) xattr s' :=
  forall_congr' fun _ => forall_congr' fun _ => forall_congr' fun _ => forall_congr' fun _ =>
    forall_congr' fun _ => forall_congr' fun h => rightTarget_iff rfl hcap h

end

/-! ### Capabilities for `ping` -/

def attributeEnv : Env := { numericEnv with extendedAttributes := true }

def validCap (xattr : Text) : Bool :=
  xattr = "cap_net_raw+ep".toList || xattr = "cap_setuid+ep".toList

/-- The program for `ping` is a regular file, and everything else that is asked for works. -/
def pingSystem : System Unit
  | .setXattr path xattr, s => (validCap xattr && path = "/target/bin/ping".toList, s)
  | _, s => (true, s)

theorem libcap_ping :
    Libcap pingSystem validCap fun path _ => decide (path = "/target/bin/ping".toList) :=
  fun _ _ _ => rfl

def pingTable : List Text := ["/bin/ping f 4755 0 0".toList, "|xattr cap_net_raw+ep".toList]

theorem meets_pingTable {before : List Text} {line xattr : Text} {st : State} {s' : Unit}
    (h : Meets attributeEnv pingSystem noBuffers () pingTable before line xattr st s') :
    before = ["/bin/ping f 4755 0 0".toList] ∧ xattr = "cap_net_raw+ep".toList := by
  have hscans := h.scans
  obtain ⟨rest, hlines⟩ := h.met
  rcases before with _ | ⟨first, _ | ⟨second, before⟩⟩
  · rw [List.nil_append, List.singleton_append, pingTable] at hlines
    rw [(List.cons.inj hlines).1] at hscans
    have hnone : scanXattr "/bin/ping f 4755 0 0".toList = none := by decide
    rw [hnone] at hscans
    cases hscans
  · obtain ⟨rfl, hline⟩ := List.cons.inj hlines
    rw [(List.cons.inj hline).1] at hscans
    exact ⟨rfl, (Option.some.inj hscans).symm⟩
  · simp [pingTable] at hlines

/-- The capability of the table is set on `/bin/ping`. -/
theorem xattr_targets_ping :
    (mainLoop attributeEnv pingSystem pingTable ⟨noBuffers, none, false⟩ ()).2.1.getLast? =
      some (.setXattr "/target/bin/ping".toList "cap_net_raw+ep".toList) ∧
    ∀ before line xattr st s', Meets attributeEnv pingSystem noBuffers () pingTable before line
      xattr st s' → RightTarget pingSystem (outcomes attributeEnv pingSystem before
        ⟨noBuffers, none, false⟩ ()) xattr s' (mainLine attributeEnv pingSystem line st s').2.1 := by
  refine ⟨by decide, (xattr_targets_iff attributeEnv pingSystem validCap _ libcap_ping noBuffers ()
    pingTable).mpr fun before line xattr st s' h => ?_⟩
  obtain ⟨rfl, rfl⟩ := meets_pingTable h
  refine ⟨?_, by decide, by cases s'; decide⟩
  rintro ⟨hnode, -⟩
  exact absurd hnode (by decide)

/-- The second line has no type. -/
def strayTable : List Text :=
  ["/bin/ping f 755 0 0".toList, "/bin/su".toList, "|xattr cap_setuid+ep".toList]

/-- The capability that is written for `/bin/su` is set on `/bin/ping`. -/
theorem xattr_stray :
    (mainLoop attributeEnv pingSystem strayTable ⟨noBuffers, none, false⟩ ()).2.1.getLast? =
      some (.setXattr "/target/bin/ping".toList "cap_setuid+ep".toList) ∧
    ¬ ∀ before line xattr st s', Meets attributeEnv pingSystem noBuffers () strayTable before line
        xattr st s' → RightTarget pingSystem (outcomes attributeEnv pingSystem before
          ⟨noBuffers, none, false⟩ ()) xattr s' (mainLine attributeEnv pingSystem line st s').2.1 := by
  refine ⟨by decide, fun h => ?_⟩
  have hright := h ["/bin/ping f 755 0 0".toList, "/bin/su".toList] "|xattr cap_setuid+ep".toList
    "cap_setuid+ep".toList _ () ⟨⟨[], rfl⟩, by decide, _, rfl⟩
  exact absurd (hright (.setXattr "/target/bin/ping".toList "cap_setuid+ep".toList) (by decide))
    (by decide)

end CargosBuildroot.Makedevs
