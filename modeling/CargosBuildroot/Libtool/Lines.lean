import CargosBuildroot.Libtool.Marks

/-! The fix-up of a line. The hidden line is a list of characters and marks, which tells where the
directories are found and is put back to the line. What follows a character of the pattern that no
directory goes over is hidden by itself. -/

namespace CargosBuildroot.Libtool

open Shell Sed

variable {dir : Mark → Text} {ds : List (Mark × Text)}

/-- The list with marks in the places of the directories. -/
def hidden (ds : List (Mark × Text)) (xs : List Sym) : List Sym :=
  ds.foldl (fun xs e => replaceAll (e.2.map .chr) [.mark e.1] xs) xs

theorem hidden_append_singleton (e : Mark × Text) (xs : List Sym) :
    hidden (ds ++ [e]) xs = replaceAll (e.2.map .chr) [.mark e.1] (hidden ds xs) := List.foldl_append

theorem restore_hidden (hds : ∀ e ∈ ds, PlainDir e.2) (hdir : ∀ e ∈ ds, e.2 = dir e.1)
    (xs : List Sym) : restore dir (hidden ds xs) = restore dir xs := by
  induction ds generalizing xs with
  | nil => rfl
  | cons e ds ih =>
    have hrest := ih (fun e he => hds e (.tail _ he)) (fun e he => hdir e (.tail _ he))
      (replaceAll (e.2.map .chr) [.mark e.1] xs)
    refine hrest.trans (restore_replaceAll ?_ ?_ xs)
    · exact mt List.map_eq_nil_iff.mp (hds e (.head _)).ne_nil
    · rw [restore_mark, restore_chr, hdir e (.head _)]

theorem mark_mem_hidden {m : Mark} {xs : List Sym} (h : .mark m ∈ hidden ds xs) :
    .mark m ∈ xs ∨ ∃ e ∈ ds, e.1 = m := by
  induction ds generalizing xs with
  | nil => exact .inl h
  | cons e ds ih =>
    rcases ih h with h | ⟨e', he', rfl⟩
    · rcases mem_replaceAll h with h | h
      · exact .inl h
      · exact .inr ⟨e, .head _, (Sym.mark.inj (List.mem_singleton.mp h)).symm⟩
    · exact .inr ⟨e', .tail _ he', rfl⟩

theorem mark_not_mem_chr (m : Mark) (w : Text) : Sym.mark m ∉ w.map .chr := by
  intro h
  obtain ⟨c, -, hc⟩ := List.mem_map.mp h
  exact Sym.noConfusion hc

/-! ### Directories that are found -/

theorem stands_cons_iff {e q w : Text} {es : List Text} :
    stands (e :: es) q w = true ↔
      stands es q w = true ∧ ∀ i < q.length, stands es e (w.drop i) = false := by
  rw [stands, Bool.and_eq_true, List.all_eq_true]
  refine and_congr_right fun _ => forall_congr' fun i => ?_
  rw [List.mem_range, Bool.not_eq_true']

/-- A text stands at the start of the hidden text when `stands` says so, and the text is
hidden behind it as by itself. -/
theorem hidden_stands (hds : ∀ e ∈ ds, PlainDir e.2) (q w : Text) :
    (q.map .chr <+: hidden ds (w.map .chr) ↔ stands (ds.map (·.2)).reverse q w = true) ∧
      (stands (ds.map (·.2)).reverse q w = true → ∀ i ≤ q.length,
        (hidden ds (w.map .chr)).drop i = hidden ds ((w.drop i).map .chr)) := by
  induction ds using List.reverseRecOn generalizing q w with
  | nil =>
    constructor
    · have hinj : Function.Injective Sym.chr := fun _ _ h => Sym.chr.inj h
      exact (List.prefix_map_iff_of_injective hinj).trans List.isPrefixOf_iff_prefix.symm
    · intro _ i _
      exact List.map_drop.symm
  | append_singleton ds e ih =>
    have hds' : ∀ e ∈ ds, PlainDir e.2 := fun e he => hds e (List.mem_append_left _ he)
    have hne : e.2.map Sym.chr ≠ [] :=
      mt List.map_eq_nil_iff.mp (hds e (List.mem_append_right _ (.head _))).ne_nil
    have hreverse : ((ds ++ [e]).map (·.2)).reverse = e.2 :: (ds.map (·.2)).reverse := by
      rw [List.map_append, List.map_singleton, List.reverse_append, List.reverse_singleton,
        List.singleton_append]
    -- Where `q` stands, the earlier directories leave the rest of the text alone.
    have hfound : stands (ds.map (·.2)).reverse q w = true → ∀ i < q.length,
        (e.2.map Sym.chr <+: (hidden ds (w.map .chr)).drop i ↔
          stands (ds.map (·.2)).reverse e.2 (w.drop i) = true) := by
      intro hq i hi
      rw [(ih hds' q w).2 hq i hi.le]
      exact (ih hds' e.2 (w.drop i)).1
    rw [hreverse, stands_cons_iff]
    constructor
    · rw [hidden_append_singleton, prefix_replaceAll hne (mark_not_mem_chr _ _), (ih hds' q w).1,
        List.length_map]
      refine and_congr_right fun hq => forall_congr' fun i => forall_congr' fun hi => ?_
      rw [hfound hq i hi, Bool.not_eq_true]
    · rintro ⟨hq, hnot⟩ i hi
      rw [hidden_append_singleton, hidden_append_singleton, ← (ih hds' q w).2 hq i hi]
      apply drop_replaceAll
      intro j hj
      rw [hfound hq j (by omega), hnot j (by omega)]
      exact Bool.false_ne_true

/-! ### Hidden lines -/

/-- The line is hidden as the list is. -/
theorem hide_eq (hds : ∀ e ∈ ds, PlainDir e.2) (hdir : ∀ e ∈ ds, e.2 = dir e.1) {t : Text}
    (h : ∀ b e a, ds = b ++ e :: a → Unbroken b e t) : hide ds t = render (hidden ds (t.map .chr)) := by
  induction ds using List.reverseRecOn with
  | nil => exact (render_chr t).symm
  | append_singleton ds e ih =>
    have hmem : ∀ e' ∈ ds, e' ∈ ds ++ [e] := fun e' he' => List.mem_append_left _ he'
    have hds' : ∀ e' ∈ ds, PlainDir e'.2 := fun e' he' => hds e' (hmem e' he')
    have hdir' : ∀ e' ∈ ds, e'.2 = dir e'.1 := fun e' he' => hdir e' (hmem e' he')
    have hhide : hide (ds ++ [e]) t = replaceAll e.2 e.1.text (hide ds t) := List.foldl_append
    have hrest := ih hds' hdir' fun b e' a hlist => h b e' (a ++ [e]) (by rw [hlist]; simp)
    rw [hhide, hrest, hidden_append_singleton]
    refine replaceAll_dir (hds e (by simp)) e.1 fun m p v hv hne hm hp => ?_
    -- the mark in it is that of a directory which has been hidden before
    have hmark : .mark m ∈ hidden ds (t.map .chr) := hp.subset (by simp)
    obtain ⟨e', he', rfl⟩ := (mark_mem_hidden hmark).resolve_left (mark_not_mem_chr m t)
    refine (h ds e [] rfl).ending e' he' p v hv hne hm ?_
    obtain ⟨a, b, hab⟩ := hp
    have hrestore := restore_hidden hds' hdir' (t.map .chr)
    rw [← hab, restore_append, restore_append, restore_append, restore_chr, restore_chr, restore_mark,
      ← hdir' e' he'] at hrestore
    exact ⟨restore dir a, restore dir b, hrestore⟩

/-- No directory goes over the character. -/
def Split (ds : List (Mark × Text)) (left : Text) (c : Char) (rest : Text) : Prop :=
  ∀ e ∈ ds, ∀ p q, e.2 = p ++ c :: q → p <:+ left → ¬ q <+: rest

/-- Then the two parts are hidden by themselves. -/
theorem hidden_split (hds : ∀ e ∈ ds, PlainDir e.2) (hdir : ∀ e ∈ ds, e.2 = dir e.1) {left rest : Text}
    {c : Char} (h : Split ds left c rest) :
    hidden ds ((left ++ c :: rest).map .chr) =
      hidden ds (left.map .chr) ++ .chr c :: hidden ds (rest.map .chr) := by
  induction ds using List.reverseRecOn with
  | nil => exact List.map_append
  | append_singleton ds e ih =>
    have hds' : ∀ e' ∈ ds, PlainDir e'.2 := fun e' he' => hds e' (List.mem_append_left _ he')
    have hdir' : ∀ e' ∈ ds, e'.2 = dir e'.1 := fun e' he' => hdir e' (List.mem_append_left _ he')
    have hrest := ih hds' hdir' fun e' he' => h e' (List.mem_append_left _ he')
    have hne : e.2.map Sym.chr ≠ [] := mt List.map_eq_nil_iff.mp (hds e (by simp)).ne_nil
    rw [hidden_append_singleton, hidden_append_singleton, hidden_append_singleton, hrest]
    refine replaceAll_append_cons_of_not hne fun u v huv hu hv => ?_
    obtain ⟨p, q', hpq, rfl, hq'⟩ := List.map_eq_append_iff.mp huv
    obtain ⟨c', q, rfl, hc, rfl⟩ := List.map_eq_cons_iff.mp hq'
    obtain rfl := Sym.chr.inj hc
    refine h e (by simp) p q hpq ?_ ?_
    · obtain ⟨a, ha⟩ := hu
      have hleft := restore_hidden hds' hdir' (left.map .chr)
      rw [← ha, restore_append, restore_chr, restore_chr] at hleft
      exact ⟨_, hleft⟩
    · obtain ⟨b, hb⟩ := hv
      have hright := restore_hidden hds' hdir' (rest.map .chr)
      rw [← hb, restore_append, restore_chr, restore_chr] at hright
      exact ⟨_, hright⟩

/-! ### The directories -/

/-- The directory behind a mark, nothing where there is none. -/
def Dirs.ofMark (d : Dirs) : Mark → Text
  | .base => d.base
  | .staging => d.staging
  | .toolchain => d.toolchain.getD []

theorem Dirs.mem_list {d : Dirs} {e : Mark × Text} (he : e ∈ d.list) : e.2 = d.ofMark e.1 := by
  rcases List.mem_append.mp he with he | he
  · rcases List.mem_cons.mp he with rfl | he
    · rfl
    · obtain rfl := List.mem_singleton.mp he
      rfl
  · obtain ⟨q, hq, rfl⟩ := List.mem_map.mp he
    rw [Dirs.ofMark, Option.mem_toList.mp hq]
    rfl

theorem Dirs.staging_mem (d : Dirs) : (.staging, d.staging) ∈ d.list := .tail _ (.head _)

variable {d : Dirs}

theorem PlainLine.part {line rest : Text} (h : PlainLine d line) (hrest : rest <:+ line) : PlainLine d rest where
  unbroken b e a hlist := (h.unbroken b e a hlist).part hrest.isInfix
  whole e he p c q hq hc r hr husr hp := h.whole e he p c q hq hc r hr husr (hp.trans hrest)

theorem PlainLine.split {left rest : Text} {c : Char} (h : PlainLine d (left ++ c :: rest))
    (hc : isDelim c = true) (husr : usr <+: rest) : Split d.list left c rest := by
  intro e he p q hpq hp hq
  refine h.whole e he p c q hpq hc rest hq husr ?_
  obtain ⟨a, rfl⟩ := hp
  exact ⟨a, (List.append_assoc _ _ _).symm⟩

/-- `/usr` at the start of a hidden text -/
theorem isPrefixOf_hide (hds : ∀ e ∈ d.list, PlainDir e.2) {t : Text} (h : PlainLine d t) :
    usr.isPrefixOf (hide d.list t) = clear d t := by
  rw [Bool.eq_iff_iff, List.isPrefixOf_iff_prefix, hide_eq hds (fun e he => Dirs.mem_list he) h.unbroken,
    prefix_render_iff (by decide)]
  exact (hidden_stands hds usr t).1

theorem prefix_of_stands {es : List Text} {q t : Text} (h : stands es q t = true) : q <+: t := by
  induction es with
  | nil => exact List.isPrefixOf_iff_prefix.mp h
  | cons e es ih => exact ih (stands_cons_iff.mp h).1

theorem unhide_hide (hds : ∀ e ∈ d.list, PlainDir e.2) {t : Text}
    (h : ∀ b e a, d.list = b ++ e :: a → Unbroken b e t) : unhide d.list (hide d.list t) = t := by
  have hdir : ∀ e ∈ d.list, e.2 = d.ofMark e.1 := fun e he => Dirs.mem_list he
  have hrestore : restore d.ofMark (hidden d.list (t.map .chr)) = t := by
    rw [restore_hidden hds hdir, restore_chr]
  rw [hide_eq hds hdir h, unhide_render hdir ?_ (by rw [hrestore]; exact h), hrestore]
  exact fun m hm => (mark_mem_hidden hm).resolve_left (mark_not_mem_chr m t)

end CargosBuildroot.Libtool
