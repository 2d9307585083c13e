import CargosBuildroot.Transition.Run
import Mathlib.Data.Fintype.Basic
import Mathlib.Tactic.SplitIfs

/-! The PID file of the upgrade script (`cargos-upgrade`) under concurrent runs.
Instances share the PID file and the mount on `/boot`. The exit trap is armed
before the PID file is looked at, and it unmounts `/boot` and removes the PID
file for every instance that exits, so the file excludes other instances only
under the conditions of `Undisturbed`. -/

namespace CargosBuildroot.Upgrade

open Transition

/-- The next command of an instance. `work` stands for everything between the
PID file and the final clean-up. -/
inductive LockPc
  | start | options | test | write | work | cleanup | leave
  | trapUmount | trapRm | exit | exited
  deriving DecidableEq

/-- What happens to the next command; `signal` is one of the trapped signals
1, 2, 5 and 15, `kill` any other end. -/
inductive LockEvent
  | ok | fail | mount | umount | signal | kill
  deriving DecidableEq

/-- An instance: whether it has written the PID file, has removed it since, has
reported that another instance is running, and is in its exit trap. -/
structure Instance where
  pc : LockPc := .start
  wrote : Bool := false
  removed : Bool := false
  refused : Bool := false
  exiting : Bool := false
  deriving DecidableEq

/-- What the instances share: the PID file, and whether `/boot` is mounted. -/
@[ext] structure Locks (P : Type*) where
  pidFile : Option P
  boot : Bool
  deriving DecidableEq

/-- Between the write of the PID file and the exit. -/
def Instance.inside (q : Instance) : Prop := q.wrote = true ∧ q.pc ≠ .exited

instance (q : Instance) : Decidable q.inside := by unfold Instance.inside; infer_instance

section Step

variable {P : Type*}

/-- `exit` from the script: the trap for signal 0 runs `bye_bye`. -/
def Instance.exit (q : Instance) : Instance := { q with pc := .trapUmount, exiting := true }

/-- One step of instance `p`. A trapped signal runs `bye_bye`, whose `exit 1`
runs it once more through the trap for signal 0. -/
def lockStep (p : P) (g : Locks P) (q : Instance) (e : LockEvent) : Option (Locks P × Instance) :=
  match q.pc, e with
  | .exited, _ => none
  | _, .kill => some (g, { q with pc := .exited })
  | .start, .signal => some (g, { q with pc := .exited })
  | _, .signal => some (g, { q with pc := .trapUmount })
  | .start, .ok => some (g, { q with pc := .options })
  | .start, .fail => some (g, { q with pc := .exited })
  | .options, .ok => some (g, { q with pc := .test })
  | .options, .fail => some (g, q.exit)
  | .test, .ok =>
    some (g, if g.pidFile.isSome then { q.exit with refused := true } else { q with pc := .write })
  | .write, .ok => some ({ g with pidFile := some p }, { q with pc := .work, wrote := true })
  | .write, .fail => some (g, { q with pc := .work })
  | .work, .mount => some ({ g with boot := true }, q)
  | .work, .umount => some ({ g with boot := false }, q)
  | .work, .ok => some (g, { q with pc := .cleanup })
  | .work, .fail => some (g, q.exit)
  | .cleanup, .ok => some ({ g with pidFile := none }, { q with pc := .leave, removed := true })
  | .cleanup, .fail => some (g, { q with pc := .leave })
  | .leave, .ok => some (g, q.exit)
  | .trapUmount, .ok => some ({ g with boot := false }, { q with pc := .trapRm })
  | .trapUmount, .fail => some (g, { q with pc := .trapRm })
  | .trapRm, .ok => some ({ g with pidFile := none }, { q with pc := .exit, removed := true })
  | .trapRm, .fail => some (g, { q with pc := .exit })
  | .exit, .ok => some (g, if q.exiting then { q with pc := .exited } else q.exit)
  | _, _ => none

end Step

variable {P : Type*} [DecidableEq P]

abbrev LockState (P : Type*) := Shared (Locks P) P Instance

def lockNext : LockState P → P × LockEvent → Option (LockState P) := interleave lockStep

/-- No instance has started, and there is no PID file. -/
def Fresh (s : LockState P) : Prop := s.store.pidFile = none ∧ ∀ p, s.proc p = {}

/-! ### Mutual exclusion -/

/-- The instance is running without a PID file that tells of it: it has tested
for the file and not written it yet, or has removed it and not exited yet. -/
def Instance.unseen (q : Instance) : Prop :=
  q.pc = .write ∨ q.inside ∧ q.removed = true

instance (q : Instance) : Decidable q.unseen := by unfold Instance.unseen; infer_instance

/-- The conditions on a step under which the PID file excludes other instances:
a test finds no PID file and no unseen instance, and an instance that has not
written the PID file removes it only when no other instance is inside. Signals and commands that
fail are no such steps. -/
def Undisturbed (s : LockState P) (a : P × LockEvent) : Prop :=
  a.2 = .ok →
    ((s.proc a.1).pc = .test → s.store.pidFile = none ∧ ∀ r, r ≠ a.1 → ¬ (s.proc r).unseen) ∧
    ((s.proc a.1).pc = .cleanup ∨ (s.proc a.1).pc = .trapRm → (s.proc a.1).wrote = false →
      ∀ r, r ≠ a.1 → ¬ (s.proc r).inside)

instance [Fintype P] (s : LockState P) (a : P × LockEvent) : Decidable (Undisturbed s a) := by
  unfold Undisturbed; infer_instance

/-- About to write the PID file, or past the write. -/
def Instance.claims (q : Instance) : Prop := q.pc = .write ∨ q.inside

/-- What a step does to the claims of its own instance and to the PID file. -/
structure LockSpec (p : P) (g : Locks P) (q : Instance) (e : LockEvent) (g' : Locks P) (q' : Instance) : Prop where
  claims : q'.claims → q.claims ∨ (q.pc = .test ∧ e = .ok) ∧ g.pidFile = none
  refused : q'.refused = true → q.refused = true ∨ (q.pc = .test ∧ e = .ok) ∧ g.pidFile ≠ none
  /-- The PID file is kept, written, or removed by the clean-up or the trap. -/
  pidFile : g'.pidFile = g.pidFile ∨ q.pc = .write ∨ (q.pc = .cleanup ∨ q.pc = .trapRm) ∧ e = .ok
  /-- Past the write the PID file is there until the instance removes it. -/
  present : (q.inside → q.removed = false → g.pidFile ≠ none) →
    q'.inside → q'.removed = false → g'.pidFile ≠ none

omit [DecidableEq P] in
theorem lockStep_spec {p : P} {g g' : Locks P} {q q' : Instance} {e : LockEvent}
    (h : lockStep p g q e = some (g', q')) : LockSpec p g q e g' q' := by
  unfold lockStep at h
  split at h
  all_goals simp only [Option.some.injEq, Prod.mk.injEq, reduceCtorEq] at h
  all_goals obtain ⟨rfl, rfl⟩ := h
  all_goals try split_ifs
  all_goals constructor
  all_goals simp_all [Instance.claims, Instance.inside, Instance.exit, Option.isSome_iff_ne_none]

/-- At most one instance claims the PID file, which is there from the write to
the removal, and none has been refused. -/
structure Exclusive (s : LockState P) : Prop where
  unique : ∀ p r, (s.proc p).claims → (s.proc r).claims → p = r
  present : ∀ p, (s.proc p).inside → (s.proc p).removed = false → s.store.pidFile ≠ none
  refused : ∀ p, (s.proc p).refused = false

omit [DecidableEq P] in
theorem Fresh.exclusive {s : LockState P} (h : Fresh s) : Exclusive s := by
  constructor <;> simp [h.2, Instance.claims, Instance.inside]

omit [DecidableEq P] in
/-- An instance that finds no PID file in an undisturbed step is alone. -/
theorem Exclusive.alone {s : LockState P} (hs : Exclusive s) {p r : P}
    (hnone : s.store.pidFile = none) (hseen : ¬ (s.proc r).unseen) (hr : (s.proc r).claims) :
    p = r := by
  rcases hr with hw | hin
  · exact absurd (.inl hw) hseen
  · by_cases hrem : (s.proc r).removed = true
    · exact absurd (.inr ⟨hin, hrem⟩) hseen
    · exact absurd hnone (hs.present r hin (by simpa using hrem))

theorem Exclusive.step {s t : LockState P} {a : P × LockEvent} (hs : Exclusive s)
    (ha : Undisturbed s a) (h : lockNext s a = some t) : Exclusive t := by
  obtain ⟨p, e⟩ := a
  obtain ⟨hstep, hother⟩ := interleave_eq_some h
  have hsp := lockStep_spec hstep
  -- what claims the file after the step, claimed it before or has just found none
  have hclaims : ∀ r, (t.proc r).claims → (s.proc r).claims ∨ r = p ∧ ∀ q, q ≠ p → ¬ (s.proc q).claims := by
    intro r hr
    by_cases hrp : r = p
    · subst hrp
      refine (hsp.claims hr).imp_right fun ⟨⟨htest, hok⟩, hnone⟩ => ⟨rfl, fun q hq hc => hq ?_⟩
      exact (hs.alone hnone (((ha hok).1 htest).2 q hq) hc).symm
    · exact .inl (hother r hrp ▸ hr)
  refine ⟨fun q r hq hr => ?_, fun r hin hrem => ?_, fun r => ?_⟩
  · rcases hclaims q hq with hq' | ⟨rfl, halone⟩ <;> rcases hclaims r hr with hr' | ⟨rfl, halone'⟩
    · exact hs.unique q r hq' hr'
    · by_contra hne
      exact halone' q hne hq'
    · by_contra hne
      exact halone r (Ne.symm hne) hr'
    · rfl
  · by_cases hrp : r = p
    · subst hrp
      exact hsp.present (hs.present r) hin hrem
    · rw [hother r hrp] at hin hrem
      have hpres := hs.present r hin hrem
      -- an instance that writes or removes the file here would claim it beside `r`
      rcases hsp.pidFile with hk | hw | ⟨hrm, hok⟩
      · rwa [hk]
      · exact absurd (hs.unique r p (.inr hin) (.inl hw)) hrp
      · cases hwrote : (s.proc p).wrote with
        | false => exact absurd hin ((ha hok).2 hrm hwrote r hrp)
        | true =>
          have hp : (s.proc p).inside := ⟨hwrote, by rcases hrm with h | h <;> simp [h]⟩
          exact absurd (hs.unique r p (.inr hin) (.inr hp)) hrp
  · by_cases hrp : r = p
    · subst hrp
      by_contra href
      rcases hsp.refused (by simpa using href) with h | ⟨⟨htest, hok⟩, hne⟩
      · simp [hs.refused r] at h
      · exact hne ((ha hok).1 htest).1
    · rw [hother r hrp]
      exact hs.refused r

/-- In an undisturbed run at most one instance is between its write of the PID
file and its exit, and an instance that was refused changes neither the PID file
nor the mount on `/boot`. -/
theorem undisturbed_exclusive {s t : LockState P} {l : List (P × LockEvent)} (hs : Fresh s)
    (h : Run lockNext Undisturbed s l t) :
    (∀ p r, (t.proc p).inside → (t.proc r).inside → p = r) ∧
      ∀ p e u, (t.proc p).refused = true → lockNext t (p, e) = some u → u.store = t.store := by
  have ht : Exclusive t :=
    h.inv (fun _ u => Exclusive u) hs.exclusive fun _ _ _ _ _ hu ha hn => hu.step ha hn
  refine ⟨fun p r hp hr => ht.unique p r (.inr hp) (.inr hr), fun p e u href => ?_⟩
  simp [ht.refused p] at href

/-- Three instances at the start. -/
def threeInstances : LockState (Fin 3) := ⟨⟨none, false⟩, fun _ => {}⟩

theorem undisturbed_exclusive_three :
    ∃ l t, Run lockNext Undisturbed threeInstances l t ∧
      (∀ p r, (t.proc p).inside → (t.proc r).inside → p = r) ∧
      ∀ p e u, (t.proc p).refused = true → lockNext t (p, e) = some u → u.store = t.store := by
  obtain ⟨t, ht, -⟩ := exists_run_guarded lockNext Undisturbed threeInstances
    [(0, .ok), (0, .ok), (0, .ok), (0, .ok), (1, .ok), (0, .mount)]
    (fun t => (t.proc 0).pc == .work) (by decide)
  exact ⟨_, t, ht, undisturbed_exclusive ⟨rfl, fun _ => rfl⟩ ht⟩

/-- Instance 0 gets to work and mounts `/boot`, instance 1 finds its PID file. -/
def refusal : List (Fin 3 × LockEvent) :=
  [(0, .ok), (0, .ok), (0, .ok), (0, .ok), (0, .mount), (1, .ok), (1, .ok), (1, .ok)]

/-- The refused instance unmounts `/boot` and removes the PID file of the running
one, and lets a third instance in. -/
theorem refused_lets_third_in :
    (∃ t u, Run lockNext anyStep threeInstances refusal t ∧ (t.proc 1).refused = true ∧
      lockNext t (1, .ok) = some u ∧ u.store ≠ t.store) ∧
    ∃ l t, Run lockNext anyStep threeInstances l t ∧ (t.proc 0).inside ∧ (t.proc 2).inside := by
  constructor
  · obtain ⟨t, ht, h⟩ := exists_run lockNext threeInstances refusal
      (fun t => (t.proc 1).refused && (lockNext t (1, .ok)).any fun u =>
        decide (u.store ≠ t.store)) (by decide)
    simp only [Bool.and_eq_true, Option.any_eq_true, decide_eq_true_eq] at h
    obtain ⟨href, u, hu, hne⟩ := h
    exact ⟨t, u, ht, href, hu, hne⟩
  · obtain ⟨t, ht, h⟩ := exists_run lockNext threeInstances
      (refusal ++ [(1, .ok), (1, .ok), (2, .ok), (2, .ok), (2, .ok), (2, .ok)])
      (fun t => decide ((t.proc 0).inside ∧ (t.proc 2).inside)) (by decide)
    exact ⟨_, t, ht, by simpa using h⟩

end CargosBuildroot.Upgrade
