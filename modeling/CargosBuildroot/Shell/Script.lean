import Mathlib.Data.List.Basic
import Mathlib.Data.List.Induction

/-! Shell scripts under `set -e` as functions on the state they work on. A command
ends with the state it leaves, or ends the script; the state that a failed
command has reached stays as it is. Command substitutions read the state and do
not change it. -/

namespace CargosBuildroot.Shell

variable {ε σ α : Type*}

/-- How a command ends: the script goes on, or ends with an error. -/
inductive Exit (ε σ : Type*)
  | ok (s : σ)
  | fail (e : ε) (s : σ)
  deriving DecidableEq

/-- The script goes on, in a state that passes the test. -/
def Exit.any (test : σ → Bool) : Exit ε σ → Bool
  | .ok s => test s
  | .fail _ _ => false

theorem Exit.exists_of_any (x : Exit ε σ) (test : σ → Bool) (h : x.any test = true) :
    ∃ s, x = .ok s ∧ test s = true := by
  cases x with
  | ok s => exact ⟨s, rfl, h⟩
  | fail e s => simp [any] at h

/-- The state at the end, whichever way the command ends. -/
def Exit.state : Exit ε σ → σ
  | .ok s | .fail _ s => s

/-- The same end, with what is seen of the state. -/
def Exit.map {τ : Type*} (v : σ → τ) : Exit ε σ → Exit ε τ
  | .ok s => .ok (v s)
  | .fail e s => .fail e (v s)

theorem Exit.map_map {τ υ : Type*} (x : Exit ε σ) (v : σ → τ) (w : τ → υ) :
    (x.map v).map w = x.map fun s => w (v s) := by
  cases x <;> rfl

/-- What holds of the state when the script goes on, and when it ends. -/
def Exit.Holds (I E : σ → Prop) : Exit ε σ → Prop
  | .ok s => I s
  | .fail _ s => E s

theorem Exit.Holds.and {I J E : σ → Prop} {x : Exit ε σ} (h : x.Holds I E) (hJ : ∀ s, x = .ok s → I s → J s) :
    x.Holds (fun s => I s ∧ J s) E := by
  cases x with
  | ok s => exact ⟨h, hJ s rfl h⟩
  | fail e s => exact h

theorem Exit.Holds.mono {I J E F : σ → Prop} {x : Exit ε σ} (h : x.Holds I E) (hI : ∀ s, I s → J s)
    (hE : ∀ s, E s → F s) : x.Holds J F := by
  cases x with
  | ok s => exact hI s h
  | fail e s => exact hE s h

abbrev Script (ε σ : Type*) := σ → Exit ε σ

namespace Script

/-- The command that does nothing. -/
def skip : Script ε σ := .ok

/-- A command that cannot fail. -/
def update (f : σ → σ) : Script ε σ := fun s => .ok (f s)

/-- Two commands one after the other. -/
def andThen (a b : Script ε σ) : Script ε σ := fun s =>
  match a s with
  | .ok t => b t
  | .fail e t => .fail e t

/-- A command substitution, or a check, before the commands that use its value. -/
def capture (query : σ → Except ε α) (k : α → Script ε σ) : Script ε σ := fun s =>
  match query s with
  | .ok a => k a s
  | .error e => .fail e s

/-- A list of commands. -/
def seq : List (Script ε σ) → Script ε σ
  | [] => skip
  | m :: l => m.andThen (seq l)

/-- A `for` loop. -/
def forEach : List α → (α → Script ε σ) → Script ε σ
  | [], _ => skip
  | x :: l, body => (body x).andThen (forEach l body)

variable {a b : Script ε σ} {s t u : σ}

@[simp] theorem skip_ok : (skip : Script ε σ) s = .ok t ↔ s = t := by simp [skip]

@[simp] theorem update_ok {f : σ → σ} : (update f : Script ε σ) s = .ok t ↔ f s = t := by
  simp [update]

theorem andThen_ok : a.andThen b s = .ok u ↔ ∃ t, a s = .ok t ∧ b t = .ok u := by
  unfold andThen
  cases a s <;> simp

theorem andThen_assoc (a b c : Script ε σ) : (a.andThen b).andThen c = a.andThen (b.andThen c) := by
  funext s
  unfold andThen
  cases a s <;> rfl

theorem capture_ok {query : σ → Except ε α} {k : α → Script ε σ} :
    capture query k s = .ok t ↔ ∃ x, query s = .ok x ∧ k x s = .ok t := by
  unfold capture
  cases query s <;> simp

theorem forEach_nil_ok {body : α → Script ε σ} : forEach [] body s = .ok t ↔ s = t := by
  simp [forEach]

theorem forEach_cons_ok {x : α} {l : List α} {body : α → Script ε σ} :
    forEach (x :: l) body s = .ok u ↔ ∃ t, body x s = .ok t ∧ forEach l body t = .ok u :=
  andThen_ok

theorem forEach_append (l₁ l₂ : List α) (body : α → Script ε σ) :
    forEach (l₁ ++ l₂) body = (forEach l₁ body).andThen (forEach l₂ body) := by
  induction l₁ with
  | nil => rfl
  | cons x l₁ ih =>
    funext s
    simp only [List.cons_append, forEach, ih, andThen]
    cases body x s <;> rfl

theorem forEach_append_ok {l₁ l₂ : List α} {body : α → Script ε σ} :
    forEach (l₁ ++ l₂) body s = .ok u ↔ ∃ t, forEach l₁ body s = .ok t ∧ forEach l₂ body t = .ok u := by
  rw [forEach_append, andThen_ok]

/-- A loop whose body is skipped by `continue` but for some elements. -/
theorem forEach_continue (p : α → Bool) (l : List α) (body : α → Script ε σ) :
    forEach l (fun x => if p x then body x else skip) = forEach (l.filter p) body := by
  induction l with
  | nil => rfl
  | cons x l ih =>
    cases hx : p x with
    | true => rw [List.filter_cons_of_pos hx, forEach, forEach, ih, if_pos hx]
    | false =>
      have hx : ¬ p x = true := by simp [hx]
      rw [List.filter_cons_of_neg hx, forEach, ih, if_neg hx]
      rfl

/-- A nested loop runs over the concatenation of its inner lists. -/
theorem forEach_flatMap {β : Type*} (f : β → List α) (l : List β) (body : α → Script ε σ) :
    forEach l (fun y => forEach (f y) body) = forEach (l.flatMap f) body := by
  induction l with
  | nil => rfl
  | cons y l ih => rw [List.flatMap_cons, forEach_append, ← ih, forEach]

theorem forEach_map {β : Type*} (f : β → α) (l : List β) (body : α → Script ε σ) :
    forEach (l.map f) body = forEach l fun y => body (f y) := by
  induction l with
  | nil => rfl
  | cons y l ih => rw [List.map_cons, forEach, forEach, ih]

theorem forEach_congr {l : List α} {f g : α → Script ε σ} (h : ∀ x ∈ l, f x = g x) :
    forEach l f = forEach l g := by
  induction l with
  | nil => rfl
  | cons x l ih => rw [forEach, forEach, h x (by simp), ih fun y hy => h y (by simp [hy])]

/-- A loop whose turns cannot fail. -/
theorem forEach_update {l : List α} {body : α → Script ε σ} (f : α → σ → σ)
    (hbody : ∀ x ∈ l, body x = update (f x)) :
    forEach l body = update fun s => l.foldl (fun s x => f x s) s := by
  induction l with
  | nil => rfl
  | cons x l ih =>
    rw [forEach, hbody x (by simp), ih fun y hy => hbody y (by simp [hy])]
    rfl

/-- What holds at the start of a loop and is kept by every turn holds at the end;
the invariant may look at the elements that are done. -/
theorem forEach_inv {l : List α} {body : α → Script ε σ} (I : List α → σ → Prop) (h0 : I [] s)
    (hturn : ∀ done x u v, x ∈ l → I done u → body x u = .ok v → I (done ++ [x]) v)
    (h : forEach l body s = .ok t) : I l t := by
  induction l using List.reverseRecOn generalizing t with
  | nil => exact forEach_nil_ok.mp h ▸ h0
  | append_singleton l x ih =>
    obtain ⟨v, hv, hx⟩ := forEach_append_ok.mp h
    obtain ⟨w, hw, hwt⟩ := forEach_cons_ok.mp hx
    obtain rfl := forEach_nil_ok.mp hwt
    have hI := ih (fun done y u v hy => hturn done y u v (List.mem_append_left _ hy)) hv
    exact hturn l x v w (by simp) hI hw

/-- The same for an invariant that every turn keeps from the state that the turns before have
led to. -/
theorem forEach_reached {l : List α} {body : α → Script ε σ} (I : List α → σ → Prop) (h0 : I [] s)
    (hturn : ∀ done x later u v, l = done ++ x :: later → forEach done body s = .ok u → I done u →
      body x u = .ok v → I (done ++ [x]) v)
    (h : forEach l body s = .ok t) : I l t := by
  induction l using List.reverseRecOn generalizing t with
  | nil => exact forEach_nil_ok.mp h ▸ h0
  | append_singleton l x ih =>
    obtain ⟨v, hv, hx⟩ := forEach_append_ok.mp h
    obtain ⟨w, hw, hwt⟩ := forEach_cons_ok.mp hx
    obtain rfl := forEach_nil_ok.mp hwt
    have hI := ih (fun done y later u v hl => hturn done y (later ++ [x]) u v (by rw [hl]; simp)) hv
    exact hturn l x [] v w rfl hv hI hw

/-! ### Invariants of all ends -/

/-- The command keeps a property of the state, whether it ends the script or not. -/
def Keeps (I : σ → Prop) (m : Script ε σ) : Prop := ∀ s, I s → I (m s).state

variable {I : σ → Prop}

theorem keeps_skip : Keeps I (skip : Script ε σ) := fun _ h => h

theorem keeps_fail (e : ε) : Keeps I (Exit.fail e : Script ε σ) := fun _ h => h

theorem Keeps.andThen (ha : Keeps I a) (hb : Keeps I b) : Keeps I (a.andThen b) := by
  intro s hs
  have hs' := ha s hs
  unfold Script.andThen
  cases has : a s with
  | ok t =>
    rw [has] at hs'
    exact hb t hs'
  | fail e t =>
    rw [has] at hs'
    exact hs'

theorem keeps_ite {p : Prop} [Decidable p] (ha : Keeps I a) (hb : Keeps I b) :
    Keeps I (if p then a else b) := by
  split
  · exact ha
  · exact hb

theorem keeps_seq {l : List (Script ε σ)} (h : ∀ m ∈ l, Keeps I m) : Keeps I (seq l) := by
  induction l with
  | nil => exact keeps_skip
  | cons m l ih => exact (h m (.head _)).andThen (ih fun m hm => h m (.tail _ hm))

theorem keeps_forEach {l : List α} {body : α → Script ε σ} (h : ∀ x ∈ l, Keeps I (body x)) :
    Keeps I (forEach l body) := by
  induction l with
  | nil => exact keeps_skip
  | cons x l ih => exact (h x (.head _)).andThen (ih fun y hy => h y (.tail _ hy))

variable {J E : σ → Prop}

theorem holds_andThen (ha : Exit.Holds J E (a s)) (hb : ∀ t, J t → Exit.Holds I E (b t)) :
    Exit.Holds I E (a.andThen b s) := by
  unfold Script.andThen
  cases has : a s with
  | ok t =>
    rw [has] at ha
    exact hb t ha
  | fail e t =>
    rw [has] at ha
    exact ha

/-- The rule for a loop whose turns may end the script. -/
theorem holds_forEach {l : List α} {body : α → Script ε σ} (K : List α → σ → Prop) (h0 : K [] s)
    (hturn : ∀ done x u, x ∈ l → K done u → Exit.Holds (K (done ++ [x])) E (body x u)) :
    Exit.Holds (K l) E (forEach l body s) := by
  induction l using List.reverseRecOn with
  | nil => exact h0
  | append_singleton l x ih =>
    rw [forEach_append]
    refine holds_andThen (ih fun done y u hy => hturn done y u (List.mem_append_left _ hy)) fun t ht => ?_
    exact holds_andThen (hturn l x t (by simp) ht) fun u hu => hu

/-! ### Two scripts seen from outside -/

section

variable {τ : Type*} {v : σ → τ} {c d : Script ε σ}

/-- From states that look the same, two commands end in the same way and in states that look the same. -/
def Agree (v : σ → τ) (a b : Script ε σ) : Prop := ∀ s t, v s = v t → (a s).map v = (b t).map v

theorem agree_update {f g : σ → σ} (h : ∀ s t, v s = v t → v (f s) = v (g t)) :
    Agree v (update f : Script ε σ) (update g) := fun s t hst => congrArg Exit.ok (h s t hst)

theorem Agree.symm (h : Agree v a b) : Agree v b a := fun s t hst => (h t s hst.symm).symm

theorem Agree.trans (h : Agree v a b) (hbc : Agree v b c) : Agree v a c :=
  fun s t hst => (h s t hst).trans (hbc t t rfl)

theorem Agree.andThen (h : Agree v a b) (hcd : Agree v c d) : Agree v (a.andThen c) (b.andThen d) := by
  intro s t hst
  have hab := h s t hst
  unfold Script.andThen
  cases ha : a s <;> cases hb : b t <;> rw [ha, hb] at hab
  case ok.ok s' t' => exact hcd s' t' (Exit.ok.inj hab)
  case fail.fail => exact hab
  all_goals cases hab

theorem agree_ite {p q : Prop} [Decidable p] [Decidable q] (hpq : p ↔ q) (h : Agree v a b) (hcd : Agree v c d) :
    Agree v (if p then a else c) (if q then b else d) := by
  by_cases hp : p
  · rw [if_pos hp, if_pos (hpq.mp hp)]
    exact h
  · rw [if_neg hp, if_neg (hpq.not.mp hp)]
    exact hcd

theorem agree_forEach {l : List α} {f g : α → Script ε σ} (h : ∀ x ∈ l, Agree v (f x) (g x)) :
    Agree v (forEach l f) (forEach l g) := by
  induction l with
  | nil => exact agree_update fun s t hst => hst
  | cons x l ih => exact (h x (.head _)).andThen (ih fun y hy => h y (.tail _ hy))

end

/-! ### Whether the script goes on -/

/-- In every state the script goes on after the command if and only if `p` holds. -/
def Passes (m : Script ε σ) (p : Prop) : Prop := ∀ s, (∃ t, m s = .ok t) ↔ p

variable {p q : Prop}

theorem passes_skip : Passes (skip : Script ε σ) True := fun s => iff_true_intro ⟨s, rfl⟩

theorem passes_fail (e : ε) : Passes (Exit.fail e : Script ε σ) False := by
  intro s
  simp

theorem Passes.andThen (ha : Passes a p) (hb : Passes b q) : Passes (a.andThen b) (p ∧ q) := by
  intro s
  simp only [andThen_ok]
  rw [exists_comm]
  simp only [exists_and_left, hb _, ← ha s, exists_and_right]

theorem Passes.congr (ha : Passes a p) (h : p ↔ q) : Passes a q := fun s => (ha s).trans h

theorem passes_ite {c : Prop} [Decidable c] (ha : Passes a p) (hb : Passes b q) :
    Passes (if c then a else b) (if c then p else q) := by
  split
  · exact ha
  · exact hb

/-- A command that does not let the script go on hides the commands after it. -/
theorem Passes.andThen_eq (ha : Passes a p) (hp : ¬ p) : a.andThen b = a := by
  funext s
  have hs := (ha s).not.mpr hp
  unfold Script.andThen
  cases has : a s with
  | ok t => exact absurd ⟨t, has⟩ hs
  | fail e t => rfl

end Script

end CargosBuildroot.Shell
