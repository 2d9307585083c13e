import CargosBuildroot.Make.Rebuild

/-! Goals that remove files first and are built then. What is seen of one part of the rules does
not matter to the other, so that the second part goes as in a call of its own on what is left. -/

namespace CargosBuildroot.Make

open Relation Shell

variable {T V : Type*}

namespace Rules

/-- Below the target files are only removed. -/
def Clearing (R : Rules T) (t : T) : Prop := ∀ u, R.Reach t u → R.isFile u = false

/-- The file is removed below the target. -/
def Removes (R : Rules T) (t u : T) : Prop :=
  ∃ v ts, R.Reach t v ∧ R.recipe v = .remove ts ∧ u ∈ ts

end Rules

/-- Two states of runs that differ in what was seen outside of `W`, and in what one run did before. -/
structure Framed (W : T → Prop) (before : List (T × Files T V)) (b b' : Build T V) : Prop where
  files : b.files = b'.files
  now : b.now = b'.now
  seen : ∀ t, W t → b.seen t = b'.seen t
  log : b.log = before ++ b'.log

/-- The state while files are removed. -/
structure Clears (R : Rules T) (c : T) (f : Files T V) (n : ℕ) (b : Build T V) : Prop where
  now : b.now = n
  wanted : ∀ t, b.seen t ≠ none → R.Reach c t
  closed : ∀ t, b.seen t ≠ none → ∀ d ∈ R.needs t, b.seen d ≠ none
  ran : ∀ t ∈ b.ran, R.Reach c t
  removed : ∀ t ts, b.seen t ≠ none → R.recipe t = .remove ts → ∀ u ∈ ts, b.files u = none
  kept : ∀ u, ¬ R.Removes c u → b.files u = f u
  fewer : ∀ u, b.files u = none ∨ b.files u = f u

section

variable [DecidableEq T] {R : Rules T} {produce : T → List (Option V) → V} {cut : T → Option (Cut V)}
  {W : T → Prop} {before : List (T × Files T V)} {b b' : Build T V} {f : Files T V} {n : ℕ} {c t : T}

omit [DecidableEq T] in
theorem Framed.outdated (h : Framed W before b b') (hW : ∀ d ∈ R.normal t, W d) :
    R.outdated b t = R.outdated b' t := by
  rw [Rules.outdated, Rules.outdated, h.files]
  cases b'.files t with
  | none => rfl
  | some x =>
    refine congrArg (!R.isFile t || ·) (Bool.eq_iff_iff.mpr ?_)
    rw [List.any_eq_true, List.any_eq_true]
    exact exists_congr fun d => and_congr_right fun hd => by rw [h.seen d (hW d hd)]

theorem Framed.see (h : Framed W before b b') (t : T) (isFile : Bool) :
    Framed W before (b.see t isFile) (b'.see t isFile) where
  files := h.files
  now := h.now
  seen := by
    intro u hu
    by_cases hut : u = t
    · rw [hut, Rules.see_seen_self, Rules.see_seen_self, h.files]
    · rw [Rules.see_seen_of_ne b isFile hut, Rules.see_seen_of_ne b' isFile hut, h.seen u hu]
  log := h.log

omit [DecidableEq T] in
theorem Framed.start (h : Framed W before b b') (t : T) : Framed W before (b.start t) (b'.start t) where
  files := h.files
  now := h.now
  seen := h.seen
  log := by rw [Build.start, Build.start, h.log, h.files, List.append_assoc]

theorem Framed.remove (h : Framed W before b b') (ts : List T) :
    Framed W before (b.remove ts) (b'.remove ts) where
  files := by rw [Build.remove, Build.remove, h.files]
  now := h.now
  seen := h.seen
  log := h.log

theorem Framed.write (h : Framed W before b b') (t : T) (v : V) : Framed W before (b.write t v) (b'.write t v) where
  files := by rw [Build.write, Build.write, h.files, h.now]
  now := by rw [Build.write, Build.write, h.now]
  seen := h.seen
  log := h.log

theorem Framed.create (h : Framed W before b b') (t : T) :
    Framed W before (R.create produce b t) (R.create produce b' t) := by
  rw [Rules.create, Rules.create, h.files]
  exact h.write t _

theorem Framed.begun (h : Framed W before b b') (t : T) (written : Option V) :
    Framed W before (R.begun b t written) (R.begun b' t written) := by
  cases written with
  | none => exact h
  | some v =>
    rw [Rules.begun, Rules.begun]
    split
    · exact h.write t v
    · exact h

/-- A target ends in the one run as it ends in the other. -/
theorem Framed.finish {I E : Build T V → Prop} (h : Framed W before b b') (hW : ∀ d ∈ R.normal t, W d)
    (hI : (R.finish produce cut t b').Holds I E) :
    (R.finish produce cut t b).Holds (fun b => ∃ b', Framed W before b b' ∧ I b')
      (fun b => ∃ b', Framed W before b b' ∧ E b') := by
  rw [Rules.finish] at hI ⊢
  rw [h.outdated hW]
  cases hout : R.outdated b' t with
  | false =>
    rw [hout] at hI
    exact ⟨_, h.see t _, hI⟩
  | true =>
    rw [hout] at hI
    rw [if_pos rfl, Script.andThen, Rules.run] at hI ⊢
    cases hrecipe : R.recipe t with
    | create =>
      rw [hrecipe] at hI
      cases hcut : cut t with
      | none =>
        rw [hcut] at hI
        exact ⟨_, ((h.start t).create t).see t _, hI⟩
      | some c =>
        rw [hcut] at hI
        exact ⟨_, (h.start t).begun t _, hI⟩
    | remove ts =>
      rw [hrecipe] at hI
      cases hcut : cut t with
      | none =>
        rw [hcut] at hI
        exact ⟨_, ((h.start t).remove ts).see t _, hI⟩
      | some c =>
        rw [hcut] at hI
        exact ⟨_, (h.start t).remove _, hI⟩
    | absent =>
      rw [hrecipe] at hI
      exact ⟨_, h.start t, hI⟩

/-- The rule for the update of a target may be used on the run without what was done before. -/
theorem Framed.holds_update (produce : T → List (Option V) → V) (cut : T → Option (Cut V))
    {I E : Build T V → Prop} {k : ℕ} (hk : R.rank t < k)
    (h : Framed (R.Reach t) before b b') (hI : I b')
    (hfinish : ∀ u b, R.Reach t u → I b → b.seen u = none → (∀ d ∈ R.needs u, b.seen d ≠ none) →
      (R.finish produce cut u b).Holds I E) :
    (R.update produce cut k t b).Holds
      (fun b => ∃ b', Framed (R.Reach t) before b b' ∧ I b' ∧ b'.seen t ≠ none)
      (fun b => ∃ b', Framed (R.Reach t) before b b' ∧ E b') := by
  refine (Rules.holds_update (I := fun b => ∃ b', Framed (R.Reach t) before b b' ∧ I b') hk ?_
    ⟨b', h, hI⟩).mono ?_ fun _ => id
  · rintro u b hreach ⟨b', h, hI⟩ hunseen hneeds
    have hbelow : ∀ d ∈ R.needs u, R.Reach t d := fun d hd => hreach.tail hd
    refine h.finish (fun d hd => hbelow d (Rules.needs_of_normal hd)) ?_
    refine hfinish u b' hreach hI ((h.seen u hreach).symm.trans hunseen) fun d hd => ?_
    exact h.seen d (hbelow d hd) ▸ hneeds d hd
  · rintro b ⟨⟨b', h, hI⟩, hseen⟩
    exact ⟨b', h, hI, h.seen t .refl ▸ hseen⟩

/-! ### Removing -/

omit [DecidableEq T] in
theorem Clears.initial (R : Rules T) (c : T) (f : Files T V) (n : ℕ) :
    Clears R c f n ⟨f, n, fun _ => none, []⟩ where
  now := rfl
  wanted := fun _ h => absurd rfl h
  closed := fun _ h => absurd rfl h
  ran := fun _ h => absurd h List.not_mem_nil
  removed := fun _ _ h => absurd rfl h
  kept := fun _ _ => rfl
  fewer := fun _ => .inr rfl

theorem Clears.finish (h : Clears R c f n b) (hclearing : R.Clearing c) (hreach : R.Reach c t)
    (hneeds : ∀ d ∈ R.needs t, b.seen d ≠ none) :
    (R.finish produce cut t b).Holds (Clears R c f n) fun _ => True := by
  have hfile := hclearing t hreach
  have hfinished := Rules.finished R produce cut b t
  revert hfinished
  generalize R.finish produce cut t b = x
  rintro (⟨hfile', -⟩ | ⟨hrecipe, -, -⟩ | @⟨ts, hrecipe, hcut⟩ | _ | _ | _)
  · rw [hfile] at hfile'
    cases hfile'
  · rw [Rules.isFile, hrecipe] at hfile
    cases hfile
  · have hfiles : ∀ u, (((b.start t).remove ts).see t false).files u =
        if u ∈ ts then none else b.files u := fun _ => rfl
    have hseen : ∀ u, (((b.start t).remove ts).see t false).seen u ≠ none → u = t ∨ b.seen u ≠ none := by
      intro u hu
      by_cases hut : u = t
      · exact .inl hut
      · rw [Rules.see_seen_of_ne _ false hut] at hu
        exact .inr hu
    have hdone : Rules.Finished R produce cut b t (.ok (((b.start t).remove ts).see t false)) :=
      .removed hrecipe hcut
    have hmono : ∀ u, b.seen u ≠ none → (((b.start t).remove ts).see t false).seen u ≠ none :=
      fun u hu => hdone.seen_mono hu
    refine ⟨h.now, ?_, ?_, ?_, ?_, ?_, ?_⟩
    · intro u hu
      rcases hseen u hu with rfl | hu
      · exact hreach
      · exact h.wanted u hu
    · intro u hu d hd
      rcases hseen u hu with rfl | hu
      · exact hmono d (hneeds d hd)
      · exact hmono d (h.closed u hu d hd)
    · intro u hu
      have hran : (((b.start t).remove ts).see t false).ran = b.ran ++ [t] := by
        simp [Build.ran, Build.remove, Build.start]
      rw [hran, List.mem_append, List.mem_singleton] at hu
      rcases hu with hu | rfl
      · exact h.ran u hu
      · exact hreach
    · intro u us hu husrecipe v hv
      rw [hfiles]
      by_cases hvts : v ∈ ts
      · exact if_pos hvts
      · rw [if_neg hvts]
        rcases hseen u hu with rfl | hu
        · rw [hrecipe] at husrecipe
          obtain rfl := Recipe.remove.inj husrecipe
          exact absurd hv hvts
        · exact h.removed u us hu husrecipe v hv
    · intro u hu
      rw [hfiles, if_neg fun hmem => hu ⟨t, ts, hreach, hrecipe, hmem⟩]
      exact h.kept u hu
    · intro u
      rw [hfiles]
      split
      · exact .inl rfl
      · exact h.fewer u
  · trivial
  · trivial
  · trivial

omit [DecidableEq T] in
theorem Clears.seen_reach (h : Clears R c f n b) (hc : b.seen c ≠ none) (hreach : R.Reach c t) :
    b.seen t ≠ none := by
  induction hreach with
  | refl => exact hc
  | tail _ hneeds ih => exact h.closed _ ih _ hneeds

/-- A call that only removes files. -/
theorem clears_of_ok (hclearing : R.Clearing c) (hok : R.make produce cut [c] f n = .ok b) :
    Clears R c f n b ∧ b.seen c ≠ none := by
  have hclears : (R.make produce cut [c] f n).Holds
      (fun b => Clears R c f n b ∧ ∀ g ∈ [c], b.seen g ≠ none) fun _ => True := by
    refine Rules.holds_make ?_ (Clears.initial R c f n)
    intro g hg u b hreach hI _ hneeds
    obtain rfl := List.mem_singleton.mp hg
    exact hI.finish hclearing hreach hneeds
  rw [hok] at hclears
  exact ⟨hclears.1, hclears.2 c (by simp)⟩

omit [DecidableEq T] in
theorem Clears.missing (h : Clears R c f n b) (hc : b.seen c ≠ none) (ht : R.Removes c t) :
    b.files t = none := by
  obtain ⟨v, ts, hreach, hremove, hmem⟩ := ht
  exact h.removed v ts (h.seen_reach hc hreach) hremove t hmem

omit [DecidableEq T] in
theorem Clears.times (h : Clears R c f n b) (htimes : ∀ t x, f t = some x → x.time ≤ n) :
    ∀ t x, b.files t = some x → x.time ≤ n := by
  intro t x hx
  rcases h.fewer t with hnone | hsame
  · rw [hnone] at hx
    cases hx
  · exact htimes t x (hsame ▸ hx)

omit [DecidableEq T] in
/-- If every file below a target was current before the removal, and what is compared with a file that
is removed is removed itself, then what was removed is out of date, and nothing else. -/
theorem Clears.outdated_iff {h : T} (hclears : Clears R c f n b) (hc : b.seen c ≠ none)
    (hcurrent : ∀ t, R.Reach h t → R.isFile t = true → R.Current f t)
    (hup : ∀ t d, R.Reach h t → R.isFile t = true → d ∈ R.normal t → R.Removes c d → R.Removes c t)
    (hreach : R.Reach h t) (ht : R.isFile t = true) : R.Outdated b.files t ↔ R.Removes c t :=
  ⟨fun hout => changed_of_outdated (R.Removes c) (fun u hu => hcurrent u (hreach.trans hu)) hclears.kept
    (fun u d hu => hup u d (hreach.trans hu)) hout ht, fun hremoves => .missing (hclears.missing hc hremoves)⟩

/-! ### Removing and building -/

variable {g h u : T}

/-- A call for a target that removes files and is built then: the files are removed, and what is left
is built as by a call of its own. -/
theorem cleared_of_ok (hprereqs : R.prereqs g = [⟨c, false⟩, ⟨h, false⟩]) (hrecipe : R.recipe g = .remove [])
    (hclearing : R.Clearing c) (hbuilding : R.Building h) (hdisjoint : ∀ t, R.Reach h t → ¬ R.Reach c t)
    (htimes : ∀ t x, f t = some x → x.time ≤ n) (hok : R.make produce cut [g] f n = .ok b) :
    ∃ b₁ b₂, (Clears R c f n b₁ ∧ b₁.seen c ≠ none) ∧ (Tracks R [h] b₁.files n b₂ ∧ b₂.seen h ≠ none) ∧
      b.files = b₂.files ∧ b.now = b₂.now ∧ b.ran = b₁.ran ++ b₂.ran ++ [g] := by
  have hneeds : R.needs g = [c, h] := by rw [Rules.needs, hprereqs]; rfl
  have hc : R.rank c < R.rank g := Rules.rank_of_needs (by simp [hneeds])
  have hh : R.rank h < R.rank g := Rules.rank_of_needs (by simp [hneeds])
  rw [Rules.make, Script.forEach_cons_ok] at hok
  obtain ⟨b₃, hok, hnil⟩ := hok
  rw [Script.forEach_nil_ok, eq_comm] at hnil
  subst hnil
  rw [Rules.update, hprereqs] at hok
  dsimp only at hok
  rw [if_neg (by simp), Script.andThen_ok] at hok
  obtain ⟨b₂, hok, hfinish⟩ := hok
  obtain ⟨b₁, hclear, hok⟩ := Script.forEach_cons_ok.mp hok
  obtain ⟨b₂', hbuild, hnil⟩ := Script.forEach_cons_ok.mp hok
  rw [Script.forEach_nil_ok, eq_comm] at hnil
  subst hnil
  -- the files are removed
  have hclears : (R.update produce cut (R.rank g) c ⟨f, n, fun _ => none, []⟩).Holds
      (fun b => Clears R c f n b ∧ b.seen c ≠ none) fun _ => True :=
    Rules.holds_update hc (fun t b hreach hI _ hneeds => hI.finish hclearing hreach hneeds)
      (Clears.initial R c f n)
  rw [hclear] at hclears
  obtain ⟨hclears, hseen⟩ := hclears
  -- what is left is built as if nothing had been seen
  have hframed : Framed (R.Reach h) b₁.log b₁ ⟨b₁.files, n, fun _ => none, []⟩ := by
    refine ⟨rfl, hclears.now, fun t ht => ?_, by simp⟩
    by_contra hseen
    exact hdisjoint t ht (hclears.wanted t hseen)
  have htimes' := hclears.times htimes
  have hbuilds := hframed.holds_update produce cut hh (Tracks.initial [h] htimes') fun u b hreach hI hunseen hneeds =>
      hI.finish htimes' (hbuilding u hreach) ⟨h, by simp, hreach⟩ hunseen hneeds
  rw [hbuild] at hbuilds
  obtain ⟨b', hframed, htracks, hseenh⟩ := hbuilds
  have hend : b = (b₂.start g).see g false := by
    cases Rules.finished_of_eq hfinish with
    | upToDate hfile => rw [Rules.isFile, hrecipe] at hfile; cases hfile
    | created hcreate => rw [hrecipe] at hcreate; cases hcreate
    | removed hremove =>
      rw [hrecipe] at hremove
      obtain rfl := Recipe.remove.inj hremove
      rw [Rules.remove_nil]
  have hran : b.ran = b₂.ran ++ [g] := by simp [hend, Build.ran, Build.start]
  refine ⟨b₁, b', ⟨hclears, hseen⟩, ⟨htracks, hseenh⟩, ?_, ?_, ?_⟩
  · rw [hend, ← hframed.files]
    rfl
  · rw [hend, ← hframed.now]
    rfl
  · rw [hran, Build.ran, hframed.log, List.map_append, Build.ran, Build.ran]

/-- If nothing was out of date before, and what is compared with a file that is removed is removed
itself, then exactly the files that are removed are made again, and all are there at the end. -/
theorem ran_iff_removed (hprereqs : R.prereqs g = [⟨c, false⟩, ⟨h, false⟩])
    (hrecipe : R.recipe g = .remove []) (hclearing : R.Clearing c) (hbuilding : R.Building h)
    (hdisjoint : ∀ t, R.Reach h t → ¬ R.Reach c t) (htimes : ∀ t x, f t = some x → x.time ≤ n)
    (hcurrent : ∀ t, R.Reach h t → R.isFile t = true → R.Current f t)
    (hup : ∀ t d, R.Reach h t → R.isFile t = true → d ∈ R.normal t → R.Removes c d → R.Removes c t)
    (hok : R.make produce cut [g] f n = .ok b) (ht : R.isFile t = true) :
    (t ∈ b.ran ↔ R.Reach h t ∧ R.Removes c t) ∧ (R.Reach h t → R.Current b.files t) ∧
      (t ∉ b.ran → ¬ R.Removes c t → b.files t = f t) := by
  obtain ⟨b₁, b₂, ⟨hclears, hseenc⟩, ⟨htracks, hseen⟩, hfiles, -, hran⟩ :=
    cleared_of_ok hprereqs hrecipe hclearing hbuilding hdisjoint htimes hok
  have hlog : t ∈ b.ran ↔ t ∈ b₂.ran := by
    have hnot : t ∉ b₁.ran := fun hmem => by
      rw [hclearing t (hclears.ran t hmem)] at ht
      cases ht
    have hne : t ≠ g := by
      rintro rfl
      rw [Rules.isFile, hrecipe] at ht
      cases ht
    simp [hran, hnot, hne]
  rw [hlog, hfiles]
  refine ⟨⟨fun hmem => ?_, fun hrest => ?_⟩, fun hreach => ?_, fun hnot hkept => ?_⟩
  · have hseent := htracks.unseen t hmem
    obtain ⟨h', hh', hreach⟩ := htracks.wanted t hseent
    obtain rfl := List.mem_singleton.mp hh'
    exact ⟨hreach, (hclears.outdated_iff hseenc hcurrent hup hreach ht).mp ((htracks.ran t hseent).mp hmem)⟩
  · exact (htracks.ran t (htracks.seen_reach hseen hrest.1)).mpr
      ((hclears.outdated_iff hseenc hcurrent hup hrest.1 ht).mpr hrest.2)
  · exact htracks.current t (htracks.seen_reach hseen hreach) ht
  · exact (htracks.kept t hnot).trans (hclears.kept t hkept)

end

end CargosBuildroot.Make
