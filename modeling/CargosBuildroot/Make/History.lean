import CargosBuildroot.Make.Rebuild
import CargosBuildroot.Transition.Run

/-! Histories of calls of make, with any goals, which may end at any point, and of changes of the
files that are not made. A file that is no older than what it is compared with holds what its recipe
makes of that, and a file that has been made is not made again until something else is changed. -/

namespace CargosBuildroot.Make

open Relation Shell Transition

variable {T V : Type*}

/-- The files with the clock. -/
structure Store (T V : Type*) where
  files : Files T V
  now : ℕ

def Store.empty : Store T V := ⟨fun _ => none, 0⟩

inductive Action (T V : Type*)
  /-- A call of make, in which some recipes are cut off. -/
  | call (goals : List T) (cut : T → Option (Cut V))
  /-- A file that is not made is written by hand. -/
  | edit (t : T) (content : V)

def Store.edit [DecidableEq T] (s : Store T V) (t : T) (content : V) : Store T V :=
  ⟨Function.update s.files t (some ⟨s.now + 1, content⟩), s.now + 1⟩

def Build.store (b : Build T V) : Store T V := ⟨b.files, b.now⟩

/-- What a history does to the files. -/
def Rules.next [DecidableEq T] (R : Rules T) (produce : T → List (Option V) → V) (s : Store T V) :
    Action T V → Option (Store T V)
  | .call goals cut => some (R.make produce cut goals s.files s.now).state.store
  | .edit t content =>
    match R.recipe t with
    | .absent => some (s.edit t content)
    | _ => none

/-- A file of `W` that is no older than what it is compared with is what its recipe makes of it. -/
structure Honest (R : Rules T) (produce : T → List (Option V) → V) (W : T → Prop) (f : Files T V)
    (n : ℕ) : Prop where
  times : ∀ t x, f t = some x → x.time ≤ n
  content : ∀ t x, W t → R.recipe t = .create → f t = some x →
    (∀ d ∈ R.normal t, ∃ y, f d = some y ∧ y.time ≤ x.time) →
    x.content = produce t ((R.normal t).map fun d => (f d).map File.content)

/-- The call is not cut off in the recipe of a target of `W` after it has begun to write the file. -/
def Rules.Whole (R : Rules T) (W : T → Prop) (cut : T → Option (Cut V)) : Prop :=
  ∀ t c, W t → R.early t = true → cut t = some c → c.written = none

/-- No call of the history is. -/
def Rules.wholeStep (R : Rules T) (W : T → Prop) : Store T V → Action T V → Prop
  | _, .call _ cut => R.Whole W cut
  | _, .edit _ _ => True

variable [DecidableEq T] {R : Rules T} {produce : T → List (Option V) → V} {W : T → Prop} {f f' : Files T V}
  {n : ℕ} {t u : T}

theorem Rules.next_call (goals : List T) (cut : T → Option (Cut V)) (s : Store T V) :
    R.next produce s (.call goals cut) = some (R.make produce cut goals s.files s.now).state.store := rfl

omit [DecidableEq T] in
theorem Honest.of_subset (h : Honest R produce W f n) (hsub : ∀ t x, f' t = some x → f t = some x) :
    Honest R produce W f' n where
  times := fun t x hx => h.times t x (hsub t x hx)
  content := by
    intro t x hW hcreate hx hcurrent
    have hsame : ∀ d ∈ R.normal t, f' d = f d := by
      intro d hd
      obtain ⟨y, hy, -⟩ := hcurrent d hd
      exact hy.trans (hsub d y hy).symm
    rw [h.content t x hW hcreate (hsub t x hx) fun d hd => hsame d hd ▸ hcurrent d hd]
    exact congrArg (produce t) (List.map_congr_left fun d hd => by rw [hsame d hd])

/-- A file that is written is newer than every other one, so nothing is said of the files that are
compared with it. -/
theorem Honest.write (h : Honest R produce W f n) {v : V}
    (hv : W t → R.recipe t = .create → v = produce t ((R.normal t).map fun d => (f d).map File.content)) :
    Honest R produce W (Function.update f t (some ⟨n + 1, v⟩)) (n + 1) where
  times := by
    intro u x hx
    by_cases hut : u = t
    · subst hut
      rw [Function.update_self, Option.some_inj] at hx
      exact hx ▸ le_rfl
    · rw [Function.update_of_ne hut] at hx
      exact (h.times u x hx).trans (Nat.le_succ n)
  content := by
    intro u x hW hcreate hx hcurrent
    have hother : ∀ d ∈ R.normal u, d ≠ u := by
      rintro d hd rfl
      have := Rules.rank_of_needs (Rules.needs_of_normal hd)
      omega
    by_cases hut : u = t
    · subst hut
      rw [Function.update_self, Option.some_inj] at hx
      rw [← hx, hv hW hcreate]
      exact congrArg (produce u) (List.map_congr_left fun d hd => by rw [Function.update_of_ne (hother d hd)])
    · rw [Function.update_of_ne hut] at hx
      have hold : ∀ d ∈ R.normal u, d ≠ t := by
        rintro d hd rfl
        obtain ⟨y, hy, hle⟩ := hcurrent d hd
        rw [Function.update_self, Option.some_inj] at hy
        have := h.times u x hx
        rw [← hy] at hle
        dsimp only at hle
        omega
      rw [h.content u x hW hcreate hx fun d hd => by
        obtain ⟨y, hy, hle⟩ := hcurrent d hd
        exact ⟨y, by rwa [Function.update_of_ne (hold d hd)] at hy, hle⟩]
      exact congrArg (produce u) (List.map_congr_left fun d hd => by rw [Function.update_of_ne (hold d hd)])

theorem Honest.finish {b : Build T V} {cut : T → Option (Cut V)} (h : Honest R produce W b.files b.now) :
    (R.finish produce cut t b).Holds (fun b => Honest R produce W b.files b.now)
      (fun b => R.Whole W cut → Honest R produce W b.files b.now) := by
  have hfinished := Rules.finished R produce cut b t
  have hremove : ∀ ts, Honest R produce W ((b.start t).remove ts).files ((b.start t).remove ts).now := by
    intro ts
    refine h.of_subset fun u x hx => ?_
    rw [Build.remove] at hx
    dsimp only at hx
    split at hx
    · cases hx
    · exact hx
  revert hfinished
  generalize R.finish produce cut t b = x
  rintro (_ | _ | _ | _ | @⟨c, v, -, hearly, hcut, hwritten, -⟩ | _)
  · exact h
  · exact h.write fun _ _ => rfl
  · exact hremove _
  · exact fun _ => hremove _
  · refine fun hwhole => h.write fun hW _ => ?_
    rw [hwhole t c hW hearly hcut] at hwritten
    cases hwritten
  · exact fun _ => h

theorem Honest.holds_make (h : Honest R produce W f n) (cut : T → Option (Cut V)) (goals : List T) :
    (R.make produce cut goals f n).Holds
      (fun b => Honest R produce W b.files b.now ∧ ∀ g ∈ goals, b.seen g ≠ none)
      (fun b => R.Whole W cut → Honest R produce W b.files b.now) :=
  Rules.holds_make (fun _ _ _ _ _ h _ _ => h.finish) h

/-- A call of make keeps the files honest, however it ends and whatever it removes, unless it leaves a
file that it has begun to write. -/
theorem Honest.make {cut : T → Option (Cut V)} (h : Honest R produce W f n) (hcut : R.Whole W cut)
    (goals : List T) :
    Honest R produce W (R.make produce cut goals f n).state.files (R.make produce cut goals f n).state.now := by
  have hholds := h.holds_make cut goals
  revert hholds
  cases R.make produce cut goals f n with
  | ok b => exact And.left
  | fail e b => exact fun h => h hcut

/-- A call that succeeds leaves none. -/
theorem Honest.make_ok {cut : T → Option (Cut V)} {goals : List T} {b : Build T V} (h : Honest R produce W f n)
    (hok : R.make produce cut goals f n = .ok b) : Honest R produce W b.files b.now := by
  have hholds := h.holds_make cut goals
  rw [hok] at hholds
  exact hholds.1

omit [DecidableEq T] in
theorem honest_empty : Honest R produce W (Store.empty : Store T V).files (Store.empty : Store T V).now where
  times := fun _ _ h => by cases h
  content := fun _ _ _ _ h => by cases h

theorem Honest.run {s s' : Store T V} {l : List (Action T V)} (h : Honest R produce W s.files s.now)
    (hrun : Run (R.next produce) (R.wholeStep W) s l s') : Honest R produce W s'.files s'.now := by
  refine hrun.inv (fun _ s => Honest R produce W s.files s.now) h ?_
  rintro _ s (⟨goals, cut⟩ | ⟨t, content⟩) s' - hs hallow hnext
  · obtain rfl := Option.some.inj hnext
    exact hs.make hallow goals
  · rw [Rules.next] at hnext
    cases hrecipe : R.recipe t with
    | create => rw [hrecipe] at hnext; cases hnext
    | remove ts => rw [hrecipe] at hnext; cases hnext
    | absent =>
      rw [hrecipe] at hnext
      obtain rfl := Option.some.inj hnext
      exact hs.write fun _ hcreate => by rw [hrecipe] at hcreate; cases hcreate

/-- No file is newer than the clock, wherever calls were cut off. -/
theorem times_of_run {s : Store T V} {l : List (Action T V)}
    (hrun : Run (R.next produce) anyStep .empty l s) : ∀ t x, s.files t = some x → x.time ≤ s.now := by
  have hnone : Run (R.next produce) (R.wholeStep fun _ => False) .empty l s := by
    refine hrun.mono fun s a _ => ?_
    cases a with
    | call goals cut => exact fun _ _ h => h.elim
    | edit t v => trivial
  exact (honest_empty.run hnone).times

omit [DecidableEq T] in
/-- What the recipe of a file that is current has made. -/
theorem Honest.made (h : Honest R produce W f n) (hW : W t) (hcreate : R.recipe t = .create)
    (hcurrent : R.Current f t) :
    (f t).map File.content = some (produce t ((R.normal t).map fun d => (f d).map File.content)) := by
  obtain ⟨x, hx, hdeps⟩ := hcurrent
  rw [hx, Option.map_some, h.content t x hW hcreate hx hdeps]

/-! ### Calls that are repeated -/

/-- Every file that is there is as new as what it is compared with. -/
def Settled (R : Rules T) (f : Files T V) : Prop :=
  ∀ t x, f t = some x → R.isFile t = true → R.Current f t

omit [DecidableEq T] in
theorem Settled.not_outdated (h : Settled R f) (ht : R.isFile t = true) (hthere : f t ≠ none) :
    ¬ R.Outdated f t := by
  intro hout
  have hcurrent : ∀ {u}, R.isFile u = true → f u ≠ none → R.Current f u := by
    intro u hu hthere
    obtain ⟨x, hx⟩ := Option.ne_none_iff_exists'.mp hthere
    exact h u x hx hu
  induction hout with
  | phony hphony => rw [ht] at hphony; cases hphony
  | missing hnone => exact hthere hnone
  | newer hd hft hfd hlt =>
    obtain ⟨x, hx, hdeps⟩ := hcurrent ht hthere
    obtain ⟨y, hy, hle⟩ := hdeps _ hd
    obtain rfl := Option.some.inj (hft.symm.trans hx)
    obtain rfl := Option.some.inj (hfd.symm.trans hy)
    omega
  | prereq hd _ ih =>
    obtain ⟨x, hx, hdeps⟩ := hcurrent ht hthere
    obtain ⟨y, hy, -⟩ := hdeps _ hd
    exact ih (Rules.isFile_of_normal ht hd) (hy ▸ Option.some_ne_none y)

omit [DecidableEq T] in
theorem Settled.tracks {goals : List T} {b : Build T V} (h : Settled R f) (htracks : Tracks R goals f n b) :
    Settled R b.files := by
  intro t x hx ht
  by_cases hran : t ∈ b.ran
  · exact htracks.current t (htracks.unseen t hran) ht
  · obtain ⟨x', hx', hdeps⟩ := h t x (htracks.kept t hran ▸ hx) ht
    refine ⟨x', (htracks.kept t hran).trans hx', fun d hd => ?_⟩
    obtain ⟨y, hy, hle⟩ := hdeps d hd
    have hnot : d ∉ b.ran := fun hmem =>
      h.not_outdated (Rules.isFile_of_normal ht hd) (hy ▸ Option.some_ne_none y)
        ((htracks.ran d (htracks.unseen d hmem)).mp hmem)
    exact ⟨y, (htracks.kept d hnot).trans hy, hle⟩

/-- A file is written that was missing. -/
theorem Settled.write {b : Build T V} {v : V} (h : Settled R b.files) (hmissing : b.files t = none)
    (htimes : ∀ t x, b.files t = some x → x.time ≤ b.now)
    (hthere : ∀ d ∈ R.normal t, ∃ y, b.files d = some y) : Settled R (b.write t v).files := by
  intro u x hx hu
  by_cases hut : u = t
  · subst hut
    refine ⟨_, Rules.write_files_self b u v, fun d hd => ?_⟩
    obtain ⟨y, hy⟩ := hthere d hd
    have hdu : d ≠ u := by
      rintro rfl
      rw [hmissing] at hy
      cases hy
    exact ⟨y, (Rules.write_files_of_ne b v hdu).trans hy, (htimes d y hy).trans (Nat.le_succ _)⟩
  · rw [Rules.write_files_of_ne b v hut] at hx
    obtain ⟨x, hx, hdeps⟩ := h u x hx hu
    refine ⟨x, (Rules.write_files_of_ne b v hut).trans hx, fun d hd => ?_⟩
    obtain ⟨y, hy, hle⟩ := hdeps d hd
    have hdt : d ≠ t := by
      rintro rfl
      rw [hmissing] at hy
      cases hy
    exact ⟨y, (Rules.write_files_of_ne b v hdt).trans hy, hle⟩

/-- A call in which nothing is removed only adds files, however it ends. -/
theorem Settled.make {goals : List T} (h : Settled R f) (produce : T → List (Option V) → V) (cut : T → Option (Cut V))
    (hgoals : ∀ g ∈ goals, R.Building g) (htimes : ∀ t x, f t = some x → x.time ≤ n) :
    Settled R (R.make produce cut goals f n).state.files ∧
      ∀ t, f t ≠ none → R.isFile t = true → t ∉ (R.make produce cut goals f n).state.ran ∧
        (R.make produce cut goals f n).state.files t = f t := by
  have hnot : ∀ t, f t ≠ none → R.isFile t = true → t ∉ (R.make produce cut goals f n).state.ran :=
    fun t hthere ht hmem => h.not_outdated ht hthere ((started produce cut hgoals htimes).1 t hmem).1
  have hholds := holds_tracks produce cut hgoals htimes
  revert hholds hnot
  cases R.make produce cut goals f n with
  | ok b =>
    rintro hnot ⟨htracks, -⟩
    exact ⟨h.tracks htracks, fun t hthere ht => ⟨hnot t hthere ht, htracks.kept t (hnot t hthere ht)⟩⟩
  | fail e b =>
    rintro hnot ⟨b₀, u, htracks, hunseen, hneeds, -, hout, hb⟩
    have hsettled : Settled R b₀.files := h.tracks htracks
    have hran : b.ran = b₀.ran ++ [u] := by
      rcases hb with rfl | ⟨-, v, rfl⟩
      all_goals exact List.map_append ..
    have hkept : ∀ t, f t ≠ none → R.isFile t = true → b₀.files t = f t := fun t hthere ht =>
      htracks.kept t fun hmem => hnot t hthere ht (hran ▸ List.mem_append_left _ hmem)
    rcases hb with rfl | ⟨hcreate, v, rfl⟩
    · exact ⟨hsettled, fun t hthere ht => ⟨hnot t hthere ht, hkept t hthere ht⟩⟩
    -- the file that was begun was not there before, so that no other one was compared with it
    · have hu : R.isFile u = true := by rw [Rules.isFile, hcreate]; rfl
      have hmissing : b₀.files u = none := by
        by_contra hthere
        rw [htracks.kept u (htracks.not_ran hunseen)] at hthere
        exact h.not_outdated hu hthere ((htracks.outdated_iff htimes hunseen hneeds).mp hout)
      refine ⟨hsettled.write hmissing htracks.times fun d hd => ?_, fun t hthere ht => ⟨hnot t hthere ht, ?_⟩⟩
      · exact htracks.exists_normal hneeds hu hd
      · have htu : t ≠ u := by
          rintro rfl
          exact hthere ((htracks.kept t (htracks.not_ran hunseen)).symm.trans hmissing)
        exact (Rules.write_files_of_ne _ v htu).trans (hkept t hthere ht)

/-! ### Files that are changed -/

/-- After a file has been written by hand, what is compared with it, directly or not, is out of date,
and nothing else. -/
theorem outdated_edit_iff {e : T} {v : V} (he : R.normal e = [])
    (hcurrent : ∀ u, R.Reach t u → R.isFile u = true → R.Current f u)
    (htimes : ∀ t x, f t = some x → x.time ≤ n) (ht : R.isFile t = true) :
    R.Outdated (Function.update f e (some ⟨n + 1, v⟩)) t ↔ TransGen (fun t d => d ∈ R.normal t) t e := by
  constructor
  · intro hout
    have hchanged := changed_of_outdated (fun u => ReflTransGen (fun t d => d ∈ R.normal t) u e)
      hcurrent (fun u hu => Function.update_of_ne (fun h : u = e => hu (by rw [h])) ..)
      (fun u d _ _ hd hchanged => .head hd hchanged) hout ht
    rcases reflTransGen_iff_eq_or_transGen.mp hchanged with rfl | h
    · cases hout with
      | phony hphony => rw [ht] at hphony; cases hphony
      | missing hnone => rw [Function.update_self] at hnone; cases hnone
      | newer hd => rw [he] at hd; cases hd
      | prereq hd => rw [he] at hd; cases hd
    · exact h
  · intro h
    induction h using TransGen.head_induction_on with
    | @single t hd =>
      have hne : t ≠ e := by
        rintro rfl
        rw [he] at hd
        cases hd
      obtain ⟨x, hx, -⟩ := hcurrent t .refl ht
      have hlt := Nat.lt_succ_of_le (htimes t x hx)
      exact .newer hd ((Function.update_of_ne hne ..).trans hx) (Function.update_self ..) hlt
    | @head t d hd _ ih =>
      exact .prereq hd (ih (fun u hu => hcurrent u (.head (Rules.needs_of_normal hd) hu))
        (Rules.isFile_of_normal ht hd))

end CargosBuildroot.Make
