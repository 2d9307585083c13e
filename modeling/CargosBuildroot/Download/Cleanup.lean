import CargosBuildroot.Download.Publish

/-! What the download wrapper leaves behind. The failures of the backend, of
`check-hash`, of the append and of the rename are followed by the removal of the
temporaries; those of the other commands end the process by `set -e` alone, and
what it has created by then stays. -/

namespace CargosBuildroot.Download

open Shell Transition

variable {cfg : Config} {out out' : Option Text} {q q' : Proc} {e : Event}

/-- Neither the temporary directory nor the temporary output is there. -/
def Proc.Clean (q : Proc) : Prop := q.tmpd = false ∧ q.tmpOutput = none

instance (q : Proc) : Decidable q.Clean := by unfold Proc.Clean; infer_instance

/-- The commands that run with temporaries in place and whose failure is followed by
no cleanup, and the cleanups themselves. -/
def Pc.unguarded : Pc → Bool
  | .cdTmpd | .cdBack | .mktempOutput | .chmod | .rmTmpd => true
  | .failTmpd | .failBoth | .failOutput => true
  | _ => false

/-- `tmpd` is there. -/
def Pc.hasTmpd : Pc → Bool
  | .cdTmpd | .backend | .cdBack | .checkTmpf | .mktempOutput | .chmod | .append | .rmTmpd => true
  | .failTmpd | .failBoth => true
  | _ => false

/-- `tmp_output` is there. -/
def Pc.hasTmpOutput : Pc → Bool
  | .chmod | .append | .rmTmpd | .mv | .failBoth | .failOutput => true
  | _ => false

/-- Unless the process was killed, its temporaries are those of its next command. -/
def Proc.Tracked (q : Proc) : Prop :=
  q.pc = .killed ∨ q.tmpd = q.pc.hasTmpd ∧ q.tmpOutput.isSome = q.pc.hasTmpOutput

theorem Proc.Tracked.clean {code : ℕ} (h : q.Tracked) (hpc : q.pc = .exited code) : q.Clean := by
  rcases h with hk | ⟨hd, ho⟩
  · simp [hpc] at hk
  · simpa [Clean, hpc, Pc.hasTmpd, Pc.hasTmpOutput] using And.intro hd ho

/-- A step keeps track of the temporaries, unless it is an unguarded failure, which
ends the process with temporaries left. -/
theorem step_tracked (hq : q.Tracked) (h : step cfg out q e = some (out', q')) :
    if e = .fail ∧ q.pc.unguarded = true then q'.pc = .exited 1 ∧ ¬ q'.Clean else q'.Tracked := by
  unfold step at h
  split at h <;> try split_ifs at h
  all_goals simp only [Option.some.injEq, Option.map_eq_some_iff, Prod.mk.injEq, reduceCtorEq] at h
  all_goals first
    | obtain ⟨rfl, rfl⟩ := h
    | obtain ⟨c, hc, rfl, rfl⟩ := h
  all_goals simp_all [Proc.Tracked, Proc.Clean, Pc.unguarded, Pc.hasTmpd, Pc.hasTmpOutput, Proc.goto,
    Option.isSome_iff_ne_none]

variable {P : Type*} [DecidableEq P]

/-- The process `p` has no failure without a cleanup. -/
def Guarded (p : P) (s : State P) (a : P × Event) : Prop :=
  a = (p, .fail) → (s.proc p).pc.unguarded = false

/-- In any run, a process that has exited leaves no temporaries exactly when none of
its failures was an unguarded one. -/
theorem exited_clean_iff {s t : State P} {l : List (P × Event)} (hs : Initial s)
    (h : Run (next cfg) anyStep s l t) {p : P} {code : ℕ} (hp : (t.proc p).pc = .exited code) :
    (t.proc p).Clean ↔ Run (next cfg) (Guarded p) s l t := by
  have hinit : (s.proc p).Tracked := by simp [hs p, Proc.Tracked, Pc.hasTmpd, Pc.hasTmpOutput]
  constructor
  · intro hclean
    -- the first unguarded failure would be the last step of the process
    have hrun := h.inv (fun l u => Run (next cfg) (Guarded p) s l u ∧ (u.proc p).Tracked ∨
      (u.proc p).pc = .exited 1 ∧ ¬ (u.proc p).Clean) (.inl ⟨.nil, hinit⟩) ?_
    · rcases hrun with ⟨hrun, -⟩ | ⟨-, hnot⟩
      · exact hrun
      · exact absurd hclean hnot
    · rintro l u ⟨r, e⟩ v - hI - hstep
      obtain ⟨hown, hothers⟩ := interleave_eq_some hstep
      by_cases hr : r = p
      · subst hr
        rcases hI with ⟨hrun, htracked⟩ | ⟨hexit, -⟩
        · have hspec := step_tracked htracked hown
          by_cases hfail : e = .fail ∧ (u.proc r).pc.unguarded = true
          · rw [if_pos hfail] at hspec
            exact .inr hspec
          · rw [if_neg hfail] at hspec
            refine .inl ⟨.snoc hrun (fun heq => ?_) hstep, hspec⟩
            simpa [(Prod.mk.inj heq).2] using hfail
        · simp [step, hexit] at hown
      · rw [hothers p (Ne.symm hr)]
        refine hI.imp_left fun ⟨hrun, htracked⟩ => ⟨.snoc hrun (fun heq => ?_) hstep, htracked⟩
        exact absurd (Prod.mk.inj heq).1 hr
  · intro hrun
    refine Proc.Tracked.clean (hrun.inv (fun _ u => (u.proc p).Tracked) hinit ?_) hp
    rintro l u ⟨r, e⟩ v - htracked hguard hstep
    obtain ⟨hown, hothers⟩ := interleave_eq_some hstep
    by_cases hr : r = p
    · subst hr
      have hspec := step_tracked htracked hown
      rwa [if_neg] at hspec
      rintro ⟨rfl, hun⟩
      simp [hguard rfl] at hun
    · rwa [hothers p (Ne.symm hr)]

theorem exited_clean_iff_foo :
    ∃ t l, Run (next fooConfig) anyStep (twoProcs none) l t ∧ (t.proc true).pc = .exited 1 ∧
      ((t.proc true).Clean ↔ Run (next fooConfig) (Guarded true) (twoProcs none) l t) ∧
      (t.proc true).Clean := by
  obtain ⟨t, ht, h⟩ := exists_run (next fooConfig) (twoProcs none)
    ([.ok, .ok, .ok, .write "1".toList, .fail, .ok].map (true, ·))
    (fun t => (t.proc true).pc == .exited 1 && decide (t.proc true).Clean) (by decide)
  simp only [Bool.and_eq_true, beq_iff_eq, decide_eq_true_eq] at h
  exact ⟨t, _, ht, h.1, exited_clean_iff (fun _ => rfl) ht h.1, h.2⟩

/-- When `chmod` fails, both temporaries stay. -/
theorem chmod_leaves_debris :
    ∃ (cfg : Config) (s t : State Bool) (l : List (Bool × Event)), Initial s ∧
      Run (next cfg) anyStep s l t ∧ (t.proc true).pc = .exited 1 ∧ (t.proc true).tmpd = true ∧
      (t.proc true).tmpOutput = some [] ∧ ¬ (t.proc true).Clean := by
  obtain ⟨t, ht, h⟩ := exists_run (next fooConfig) (twoProcs none)
    ([.ok, .ok, .ok, .write "1f".toList, .ok, .ok, .check 0, .ok, .fail].map (true, ·))
    (fun t => (t.proc true).pc == .exited 1 && ((t.proc true).tmpd == true &&
      ((t.proc true).tmpOutput == some [] && decide (¬ (t.proc true).Clean)))) (by decide)
  simp only [Bool.and_eq_true, beq_iff_eq, decide_eq_true_eq] at h
  exact ⟨_, _, t, _, fun _ => rfl, ht, h⟩

end CargosBuildroot.Download
