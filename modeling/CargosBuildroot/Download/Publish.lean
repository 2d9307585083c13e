import CargosBuildroot.Download.Wrapper

/-! What concurrent runs of the download wrapper show under the output name.
The file is absent, as it was at the start, or in full a content that was
checked; this holds in every run. A process that has exited 0 leaves an
accepted file behind as long as no process removes an accepted one, which the
test of the old file and its removal, being two steps, do not prevent. -/

namespace CargosBuildroot.Download

open Shell Transition

variable {cfg : Config} {out out' : Option Text} {q q' : Proc} {e : Event}

/-- What a process has in hand between the check of its download and the rename
has the property `V`: first the download, then the copy of it. -/
def Proc.Carries (V : Text → Prop) (q : Proc) : Prop :=
  match q.pc with
  | .mktempOutput | .chmod | .append => ∀ c, q.tmpf = some c → V c
  | .rmTmpd | .mv => ∃ c, q.tmpOutput = some c ∧ V c
  | _ => True

theorem Proc.Carries.mono {V W : Text → Prop} (h : q.Carries V) (hVW : ∀ c, V c → W c) :
    q.Carries W := by
  unfold Carries at *
  split at h
  · exact fun c hc => hVW c (h c hc)
  · exact fun c hc => hVW c (h c hc)
  · exact fun c hc => hVW c (h c hc)
  · exact h.imp fun c hc => ⟨hc.1, hVW c hc.2⟩
  · exact h.imp fun c hc => ⟨hc.1, hVW c hc.2⟩
  · trivial

/-- What one step does to the file under the output name: nothing, the removal
by `rm -f`, or the rename of what the process carries. -/
inductive Changes (q : Proc) (e : Event) (out : Option Text) : Option Text → Prop
  | keep : Changes q e out out
  | remove : q.pc = .rmOutput → e = .ok → Changes q e out none
  | rename : q.pc = .mv → Changes q e out q.tmpOutput

/-- What a step does, as far as the output file is concerned. -/
structure StepSpec (cfg : Config) (out : Option Text) (q : Proc) (e : Event)
    (out' : Option Text) (q' : Proc) : Prop where
  changes : Changes q e out out'
  /-- Exit code 0 comes from the check of the old file or from the rename. -/
  exit : q'.pc = .exited 0 →
    q.pc = .checkOutput ∧ out' = out ∧ cfg.check out = 0 ∨ q.pc = .mv ∧ out' = q.tmpOutput
  /-- The old file is checked by a process that has just seen one. -/
  seen : q'.pc = .checkOutput → out' = out ∧ out ≠ none
  /-- A download is `V` from the check that returns 0 on. -/
  carries : ∀ V : Text → Prop, q.Carries V →
    (q.pc = .checkTmpf → e = .check 0 → cfg.check q.tmpf = 0 → ∀ c, q.tmpf = some c → V c) →
    q'.Carries V

theorem step_spec (h : step cfg out q e = some (out', q')) : StepSpec cfg out q e out' q' := by
  unfold step at h
  split at h <;> try split_ifs at h
  all_goals simp only [Option.some.injEq, Option.map_eq_some_iff, Prod.mk.injEq, reduceCtorEq] at h
  all_goals first
    | obtain ⟨rfl, rfl⟩ := h
    | obtain ⟨c, hc, rfl, rfl⟩ := h
  all_goals constructor
  all_goals first
    | exact .keep
    | exact .remove ‹_› rfl
    | exact .rename ‹_›
    | simp_all [Proc.Carries, Config.mayReturn, ← Option.isSome_iff_ne_none]

variable {P : Type*} [DecidableEq P]

/-! ### Only verified content is published -/

/-- In a run from `s` with the steps `l`, `check-hash` returned 0 on a finished
download with the content `c`. -/
def Verified (cfg : Config) (s : State P) (l : List (P × Event)) (c : Text) : Prop :=
  ∃ l₁ l₂ p u, l = l₁ ++ (p, .check 0) :: l₂ ∧ Run (next cfg) anyStep s l₁ u ∧
    (u.proc p).pc = .checkTmpf ∧ (u.proc p).tmpf = some c ∧ cfg.check (some c) = 0

theorem Verified.snoc {s : State P} {l : List (P × Event)} {c : Text}
    (h : Verified cfg s l c) (a : P × Event) : Verified cfg s (l ++ [a]) c := by
  obtain ⟨l₁, l₂, p, u, rfl, hu⟩ := h
  exact ⟨l₁, l₂ ++ [a], p, u, by simp, hu⟩

/-- The file under the output name is absent, the initial one, or in full a
download on which `check-hash` returned 0, in every state of every run. -/
theorem output_verified (cfg : Config) {s t : State P} {l : List (P × Event)} (hs : Initial s)
    (h : Run (next cfg) anyStep s l t) :
    t.store = none ∨ t.store = s.store ∨ ∃ c, t.store = some c ∧ Verified cfg s l c := by
  refine (h.interleave_inv
    (fun l out => out = none ∨ out = s.store ∨ ∃ c, out = some c ∧ Verified cfg s l c)
    (fun l _ _ q => q.Carries (Verified cfg s l)) (.inr (.inl rfl))
    (fun p => by simp [hs p, Proc.Carries]) ?_ ?_).1
  · intro l u p e out' q' hrun hJ hK _ hstep
    have hsp := step_spec hstep
    refine ⟨?_, hsp.carries _ ((hK p).mono fun c hc => hc.snoc _) ?_⟩
    · rcases hsp.changes with _ | _ | hmv
      · exact hJ.imp_right (Or.imp_right fun ⟨c, hc, hv⟩ => ⟨c, hc, hv.snoc _⟩)
      · exact .inl rfl
      · have hc := hK p
        simp only [Proc.Carries, hmv] at hc
        exact .inr (.inr (hc.imp fun c hc => ⟨hc.1, hc.2.snoc _⟩))
    · rintro hpc rfl h0 c hc
      exact ⟨l, [], p, u, rfl, hrun, hpc, hc, hc ▸ h0⟩
  · intro l u p e out' q' r _ _ hK _ _
    exact (hK r).mono fun c hc => hc.snoc _

/-- A hash file with one entry, and a tool whose checksum is the content. -/
def fooConfig : Config :=
  ⟨fun _ c => c, [], some "sha256  1f  foo\n".toList, "foo".toList, by decide⟩

/-- The two processes `false` and `true` at the start. -/
def twoProcs (out : Option Text) : State Bool := ⟨out, fun _ => {}⟩

/-- The steps of process `p` from the temporary directory to the rename. -/
def fetch (p : Bool) (content : String) : List (Bool × Event) :=
  [.ok, .ok, .write content.toList, .ok, .ok, .check 0, .ok, .ok, .copy 1, .ok, .ok, .ok].map (p, ·)

theorem output_verified_foo :
    ∃ t l, Run (next fooConfig) anyStep (twoProcs none) l t ∧ t.store = some "1f".toList ∧
      (t.store = none ∨ t.store = none ∨
        ∃ c, t.store = some c ∧ Verified fooConfig (twoProcs none) l c) := by
  obtain ⟨t, ht, h⟩ := exists_run (next fooConfig) (twoProcs none)
    ((true, .ok) :: fetch true "1f") (fun t => t.store == some "1f".toList) (by decide)
  exact ⟨t, _, ht, by simpa using h, output_verified fooConfig (fun _ => rfl) ht⟩

/-! ### Files that stay -/

/-- No `rm -f` of an accepted output file. -/
def KeepsAccepted (cfg : Config) (s : State P) (a : P × Event) : Prop :=
  (s.proc a.1).pc = .rmOutput → a.2 = .ok → ¬ Accepted cfg s.store

instance (cfg : Config) (s : State P) (a : P × Event) : Decidable (KeepsAccepted cfg s a) := by
  unfold KeepsAccepted; infer_instance

/-- A hash file that accepts a missing file accepts any file that is there. -/
theorem Config.accepted_of_missing (cfg : Config) (h0 : cfg.check none = 0) (hne : out ≠ none) :
    Accepted cfg out := by
  obtain ⟨c, rfl⟩ := Option.ne_none_iff_exists'.mp hne
  exact ⟨c, rfl, checkHash_missing cfg.base_ne h0 c⟩

/-- In a run that removes no accepted file, the output file is there and accepted
from the first exit with code 0 on. -/
theorem exited_accepted (cfg : Config) {s t : State P} {l : List (P × Event)} (hs : Initial s)
    (h : Run (next cfg) (KeepsAccepted cfg) s l t) {p : P} (hp : (t.proc p).pc = .exited 0) :
    Accepted cfg t.store := by
  refine ((h.interleave_inv (fun _ _ => True)
    (fun _ out _ q => q.Carries (fun c => cfg.check (some c) = 0) ∧
      (q.pc = .exited 0 → Accepted cfg out) ∧
      (q.pc = .checkOutput → cfg.check none = 0 → out ≠ none))
    trivial (fun p => by simp [hs p, Proc.Carries]) ?_ ?_).2 p).2.1 hp
  · intro l u p e out' q' _ _ hK hkeep hstep
    obtain ⟨hc, hx, hm⟩ := hK p
    have hsp := step_spec hstep
    refine ⟨trivial, hsp.carries _ hc ?_, fun h0 => ?_, fun h0 _ => ?_⟩
    · rintro - - h0 c hc
      exact hc ▸ h0
    · rcases hsp.exit h0 with ⟨hpc, rfl, hacc⟩ | ⟨hmv, rfl⟩
      · by_cases hne : u.store = none
        · exact absurd hne (hm hpc (hne ▸ hacc))
        · obtain ⟨c, hc⟩ := Option.ne_none_iff_exists'.mp hne
          exact ⟨c, hc, hc ▸ hacc⟩
      · simpa only [Proc.Carries, hmv, Accepted] using hc
    · obtain ⟨rfl, hne⟩ := hsp.seen h0
      exact hne
  · intro l u p e out' q' r hrp _ hK hkeep hstep
    obtain ⟨hc, hx, hm⟩ := hK r
    refine ⟨hc, ?_⟩
    rcases (step_spec hstep).changes with _ | ⟨hrm, hok⟩ | hmv
    · exact ⟨hx, hm⟩
    · have hna := hkeep hrm hok
      exact ⟨fun h0 => absurd (hx h0) hna,
        fun hpc h0 => absurd (cfg.accepted_of_missing h0 (hm hpc h0)) hna⟩
    · have hcp := (hK p).1
      simp only [Proc.Carries, hmv] at hcp
      exact ⟨fun _ => hcp, fun _ _ => by obtain ⟨c, hc, -⟩ := hcp; simp [hc]⟩

theorem exited_accepted_foo :
    ∃ t l, Run (next fooConfig) (KeepsAccepted fooConfig) (twoProcs (some "1".toList)) l t ∧
      Accepted fooConfig t.store := by
  obtain ⟨t, ht, h⟩ := exists_run_guarded (next fooConfig) (KeepsAccepted fooConfig)
    (twoProcs (some "1".toList)) ([.ok, .check 2, .ok].map (true, ·) ++ fetch true "1f")
    (fun t => (t.proc true).pc == .exited 0) (by decide)
  exact ⟨t, _, ht, exited_accepted fooConfig (fun _ => rfl) ht (p := true) (by simpa using h)⟩

/-- A process that saw the old bad file removes the good one that another
process has published before it exited 0. -/
theorem exited_then_removed :
    ∃ (cfg : Config) (s t : State Bool) (l : List (Bool × Event)), Initial s ∧
      Run (next cfg) anyStep s l t ∧ (t.proc true).pc = .exited 0 ∧ ¬ Accepted cfg t.store := by
  obtain ⟨t, ht, h⟩ := exists_run (next fooConfig) (twoProcs (some "1".toList))
    ([(false, .ok), (false, .check 2), (true, .ok), (true, .check 2), (true, .ok)] ++
      fetch true "1f" ++ [(false, .ok)])
    (fun t => (t.proc true).pc == .exited 0 && decide (¬ Accepted fooConfig t.store)) (by decide)
  simp only [Bool.and_eq_true, beq_iff_eq, decide_eq_true_eq] at h
  exact ⟨_, _, t, _, fun _ => rfl, ht, h⟩

end CargosBuildroot.Download
