import CargosBuildroot.Libtool.Fixup

/-! Hidden texts as lists of characters and marks. The replacements on the text are
replacements on these lists as long as no character is taken for a part of a marker, so
putting the directories back restores the text. -/

namespace CargosBuildroot.Libtool

open Shell Sed

/-- A character, or a marker in the place of a directory. -/
inductive Sym
  | chr (c : Char) | mark (m : Mark)
  deriving DecidableEq

/-- What stands in the text. -/
def Sym.text : Sym → Text
  | .chr c => [c]
  | .mark m => m.text

def render (xs : List Sym) : Text := xs.flatMap Sym.text

/-- The symbol with the directory put back. -/
def Sym.restored (dir : Mark → Text) : Sym → Text
  | .chr c => [c]
  | .mark m => dir m

/-- The text with the directories put back. -/
def restore (dir : Mark → Text) (xs : List Sym) : Text := xs.flatMap (Sym.restored dir)

variable {dir : Mark → Text}

theorem render_chr (t : Text) : render (t.map .chr) = t := by
  induction t with
  | nil => rfl
  | cons c t ih => exact congrArg (c :: ·) ih

theorem restore_chr (t : Text) : restore dir (t.map .chr) = t := by
  induction t with
  | nil => rfl
  | cons c t ih => exact congrArg (c :: ·) ih

theorem render_append (xs ys : List Sym) : render (xs ++ ys) = render xs ++ render ys :=
  List.flatMap_append

theorem restore_append (xs ys : List Sym) :
    restore dir (xs ++ ys) = restore dir xs ++ restore dir ys := List.flatMap_append

theorem render_of_no_mark {xs : List Sym} (h : ∀ m, .mark m ∉ xs) : render xs = restore dir xs := by
  induction xs with
  | nil => rfl
  | cons x xs ih =>
    have hxs := ih fun m hm => h m (.tail _ hm)
    cases x with
    | chr c => exact congrArg (c :: ·) hxs
    | mark m => exact absurd (.head _) (h m)

/-- A character that no marker has comes from the text. -/
theorem split_render {c : Char} (hc : ∀ m : Mark, c ∉ m.text) {a b : Text} {xs : List Sym}
    (h : render xs = a ++ c :: b) :
    ∃ ys zs, xs = ys ++ .chr c :: zs ∧ render ys = a ∧ render zs = b := by
  induction xs generalizing a with
  | nil => exact absurd h (by simp [render])
  | cons x xs ih =>
    cases x with
    | chr c' =>
      cases a with
      | nil =>
        obtain ⟨rfl, hb⟩ := List.cons.inj h
        exact ⟨[], xs, rfl, rfl, hb⟩
      | cons c'' a =>
        obtain ⟨rfl, hrest⟩ := List.cons.inj h
        obtain ⟨ys, zs, rfl, rfl, rfl⟩ := ih hrest
        exact ⟨.chr c' :: ys, zs, rfl, rfl, rfl⟩
    | mark m =>
      change m.text ++ render xs = a ++ c :: b at h
      rcases List.append_eq_append_iff.mp h with ⟨a', rfl, hrest⟩ | ⟨a', htext, hrest⟩
      · obtain ⟨ys, zs, rfl, rfl, rfl⟩ := ih hrest
        exact ⟨.mark m :: ys, zs, rfl, rfl, rfl⟩
      · cases a' with
        | nil =>
          obtain ⟨ys, zs, rfl, hys, rfl⟩ := ih (a := []) hrest.symm
          refine ⟨.mark m :: ys, zs, rfl, ?_, rfl⟩
          change m.text ++ render ys = a
          rw [hys, htext, List.append_nil, List.append_nil]
        | cons c' a' =>
          obtain ⟨rfl, -⟩ := List.cons.inj hrest
          exact absurd (htext ▸ List.mem_append_right _ (.head _)) (hc m)

/-! ### Names -/

theorem at_not_mem_name (m : Mark) : '@' ∉ m.name := by cases m <;> decide

theorem slash_not_mem_text (m : Mark) : '/' ∉ m.text := by cases m <;> decide

theorem text_ne_nil (m : Mark) : m.text ≠ [] := List.cons_ne_nil _ _

theorem eq_of_take_text {m m' : Mark} (h : m.text.take 2 = m'.text.take 2) : m = m' := by
  revert h
  cases m <;> cases m' <;> decide

theorem two_le_length_text (m : Mark) : 2 ≤ m.text.length := by cases m <;> decide

/-- No marker is the beginning of another one. -/
theorem text_prefix_inj {m m' : Mark} {t : Text} (h : m.text <+: m'.text ++ t) : m = m' := by
  obtain ⟨r, hr⟩ := h
  apply eq_of_take_text
  have htake := congrArg (List.take 2) hr
  rw [List.take_append_of_le_length (two_le_length_text m),
    List.take_append_of_le_length (two_le_length_text m')] at htake
  exact htake

/-! ### Directories in a hidden text -/

theorem PlainDir.ne_nil {q : Text} (h : PlainDir q) : q ≠ [] := by
  rintro rfl
  have hnone := h.absolute
  contradiction

/-- A text that has no marker in it, at the start of a hidden text, is not made of markers unless it goes
on into one. -/
theorem prefix_of_render {q : Text} (hq : ∀ m : Mark, ¬ m.text <:+: q) {xs : List Sym}
    (hend : ∀ m p v, q = p ++ v → v ≠ [] → v <+: m.text → ¬ p.map Sym.chr ++ [.mark m] <+: xs)
    (h : q <+: render xs) : q.map .chr <+: xs := by
  induction q generalizing xs with
  | nil => exact List.nil_prefix
  | cons c q ih =>
    cases xs with
    | nil => exact absurd (List.prefix_nil.mp h) (List.cons_ne_nil _ _)
    | cons x xs =>
      cases x with
      | chr c' =>
        obtain ⟨rfl, h'⟩ := List.cons_prefix_cons.mp h
        have htail : q.map Sym.chr <+: xs := by
          refine ih (fun m hm => hq m (hm.trans (List.suffix_cons _ _).isInfix)) ?_ h'
          rintro m p v rfl hne hv hp
          exact hend m (c :: p) v rfl hne hv (List.cons_prefix_cons.mpr ⟨rfl, hp⟩)
        exact List.cons_prefix_cons.mpr ⟨rfl, htail⟩
      | mark m =>
        rcases List.prefix_or_prefix_of_prefix h (List.prefix_append m.text _) with h | h
        · exact absurd ⟨xs, rfl⟩ (hend m [] (c :: q) rfl (List.cons_ne_nil _ _) h)
        · exact absurd h.isInfix (hq m)

theorem prefix_render_iff {q : Text} (hq : '@' ∉ q) {xs : List Sym} :
    q <+: render xs ↔ q.map .chr <+: xs := by
  have hat : ∀ m : Mark, '@' ∈ m.text := fun m => .head _
  constructor
  · refine prefix_of_render (fun m hm => hq (hm.subset (hat m))) ?_
    rintro m p v rfl hne hv -
    obtain ⟨c, v, rfl⟩ := List.exists_cons_of_ne_nil hne
    obtain ⟨rfl, -⟩ := List.cons_prefix_cons.mp hv
    exact hq (List.mem_append_right _ (.head _))
  · rintro ⟨r, rfl⟩
    exact ⟨render r, by rw [render_append, render_chr]⟩

/-- The directory does not go on into a mark of the list. -/
def NoEnd (q : Text) (xs : List Sym) : Prop :=
  ∀ (m : Mark) (p v : Text), q = p ++ v → v ≠ [] → v <+: m.text → ¬ p.map Sym.chr ++ [.mark m] <:+: xs

theorem NoEnd.suffix {q : Text} {us xs : List Sym} (h : NoEnd q (us ++ xs)) : NoEnd q xs :=
  fun m p v hv hne hm hp => h m p v hv hne hm (hp.trans (List.suffix_append _ _).isInfix)

/-- Hiding a directory puts marks in its places. -/
theorem replaceAll_dir {q : Text} (hq : PlainDir q) (m : Mark) {xs : List Sym} (hend : NoEnd q xs) :
    replaceAll q m.text (render xs) = render (replaceAll (q.map .chr) [.mark m] xs) := by
  have hcode : (q.map Sym.chr).flatMap Sym.text = q := render_chr q
  have hrep : [Sym.mark m].flatMap Sym.text = m.text := List.flatMap_singleton _ _
  have hskip : ∀ c t, NoEnd q (c :: t) → ¬ q.map Sym.chr <+: c :: t → ∀ v, v <:+ Sym.text c → v ≠ [] →
      ¬ (q.map Sym.chr).flatMap Sym.text <+: v ++ t.flatMap Sym.text := by
    intro c t hend hnot v hv hne h
    rw [hcode] at h
    cases c with
    | chr c =>
      rcases List.suffix_cons_iff.mp hv with rfl | hv
      · exact hnot (prefix_of_render hq.marker (fun m p v hv hne hm hp => hend m p v hv hne hm hp.isInfix) h)
      · exact hne (List.suffix_nil.mp hv)
    | mark m' =>
      obtain ⟨c, v, rfl⟩ := List.exists_cons_of_ne_nil hne
      obtain ⟨c', q, rfl⟩ := List.exists_cons_of_ne_nil hq.ne_nil
      obtain ⟨rfl, -⟩ := List.cons_prefix_cons.mp h
      obtain rfl := Option.some.inj hq.absolute
      exact slash_not_mem_text m' (hv.subset (.head _))
  have hne : (q.map Sym.chr).flatMap Sym.text ≠ [] := by
    rw [hcode]
    exact hq.ne_nil
  have hmap : replaceAll ((q.map Sym.chr).flatMap Sym.text) ([Sym.mark m].flatMap Sym.text)
      (xs.flatMap Sym.text) = (replaceAll (q.map .chr) [.mark m] xs).flatMap Sym.text :=
    replaceAll_flatMap (P := NoEnd q) (mt List.map_eq_nil_iff.mp hq.ne_nil) hne (fun _ _ h => h.suffix) hskip hend
  rw [hcode, hrep] at hmap
  exact hmap

/-! ### Markers in a hidden text -/

/-- A name in a hidden text that looks like the rest of a marker stands before `@` or a directory. -/
theorem prefix_of_render_at {q : Text} (hq : '@' ∉ q) {xs : List Sym} (h : q ++ ['@'] <+: render xs) :
    ∃ b, (b = ['@'] ∨ ∃ m, .mark m ∈ xs ∧ b = dir m) ∧ q ++ b <+: restore dir xs := by
  induction q generalizing xs with
  | nil =>
    cases xs with
    | nil => exact absurd (List.prefix_nil.mp h) (List.cons_ne_nil _ _)
    | cons x xs =>
      cases x with
      | chr c =>
        obtain ⟨rfl, -⟩ := List.cons_prefix_cons.mp h
        exact ⟨['@'], .inl rfl, restore dir xs, rfl⟩
      | mark m => exact ⟨dir m, .inr ⟨m, .head _, rfl⟩, restore dir xs, rfl⟩
  | cons c q ih =>
    cases xs with
    | nil => exact absurd (List.prefix_nil.mp h) (List.cons_ne_nil _ _)
    | cons x xs =>
      cases x with
      | chr c' =>
        obtain ⟨rfl, h'⟩ := List.cons_prefix_cons.mp h
        obtain ⟨b, hb, hp⟩ := ih (fun hm => hq (.tail _ hm)) h'
        exact ⟨b, hb.imp_right fun ⟨m, hm, hbm⟩ => ⟨m, .tail _ hm, hbm⟩, List.cons_prefix_cons.mpr ⟨rfl, hp⟩⟩
      | mark m =>
        obtain ⟨rfl, -⟩ := List.cons_prefix_cons.mp h
        exact absurd (.head _) hq

/-- A marker that begins with the end of a mark begins at its last character. -/
theorem eq_at_of_suffix_text {m : Mark} {v : Text} (h : '@' :: v <:+ m.name ++ ['@']) : v = [] := by
  rcases List.suffix_concat_iff.mp h with h | ⟨u, hu, hname⟩
  · exact absurd h (List.cons_ne_nil _ _)
  · cases u with
    | nil => exact (List.cons.inj hu).2
    | cons c u =>
      obtain ⟨rfl, -⟩ := List.cons.inj hu
      exact absurd (hname.subset (.head _)) (at_not_mem_name m)

/-- The name of the mark does not stand in between `@` and marks, except behind the mark itself. -/
def NoName (dir : Mark → Text) (m : Mark) (xs : List Sym) : Prop :=
  ∀ a, (a = ['@'] ∨ ∃ m', .mark m' ∈ xs ∧ m' ≠ m ∧ a = dir m') →
    ∀ b, (b = ['@'] ∨ ∃ m', .mark m' ∈ xs ∧ b = dir m') → ¬ a ++ m.name ++ b <:+: restore dir xs

theorem NoName.suffix {m : Mark} {us xs : List Sym} (h : NoName dir m (us ++ xs)) : NoName dir m xs := by
  intro a ha b hb hm
  refine h a (ha.imp_right fun ⟨m', hm', hne⟩ => ⟨m', List.mem_append_right _ hm', hne⟩)
    b (hb.imp_right fun ⟨m', hm', hbm⟩ => ⟨m', List.mem_append_right _ hm', hbm⟩) ?_
  rw [restore_append]
  exact hm.trans (List.suffix_append _ _).isInfix

/-- Putting a directory back puts it in the place of its marks. -/
theorem replaceAll_text (m : Mark) (t : Text) {xs : List Sym} (hxs : NoName dir m xs) :
    replaceAll m.text t (render xs) = render (replaceAll [.mark m] (t.map .chr) xs) := by
  have hcode : [Sym.mark m].flatMap Sym.text = m.text := List.flatMap_singleton _ _
  have hrep : (t.map Sym.chr).flatMap Sym.text = t := render_chr t
  have hskip : ∀ c t, NoName dir m (c :: t) → ¬ [Sym.mark m] <+: c :: t →
      ∀ v, v <:+ Sym.text c → v ≠ [] → ¬ [Sym.mark m].flatMap Sym.text <+: v ++ t.flatMap Sym.text := by
    intro c t hno hnot v hv hne h
    obtain ⟨c', v, rfl⟩ := List.exists_cons_of_ne_nil hne
    rw [hcode] at h
    obtain ⟨rfl, htail⟩ := List.cons_prefix_cons.mp h
    have hname : v = [] → ∃ b, (b = ['@'] ∨ ∃ m', .mark m' ∈ c :: t ∧ b = dir m') ∧
        m.name ++ b <+: restore dir t := by
      rintro rfl
      obtain ⟨b, hb, hp⟩ : ∃ b, (b = ['@'] ∨ ∃ m', .mark m' ∈ t ∧ b = dir m') ∧ m.name ++ b <+: restore dir t :=
        prefix_of_render_at (at_not_mem_name m) htail
      exact ⟨b, hb.imp_right fun ⟨m', hm', hbm⟩ => ⟨m', .tail _ hm', hbm⟩, hp⟩
    have hwhole : ∀ a b, m.name ++ b <+: restore dir t → c.restored dir = a → 
        a ++ m.name ++ b <:+: restore dir (c :: t) := by
      rintro a b hp rfl
      rw [List.append_assoc]
      exact ((List.prefix_append_right_inj _).mpr hp).isInfix
    cases c with
    | chr c =>
      obtain ⟨rfl, rfl⟩ : c = '@' ∧ v = [] := by
        rcases List.suffix_cons_iff.mp hv with hv | hv
        · exact ⟨(List.cons.inj hv).1.symm, (List.cons.inj hv).2⟩
        · exact absurd (List.suffix_nil.mp hv) hne
      obtain ⟨b, hb, hp⟩ := hname rfl
      exact hno ['@'] (.inl rfl) b hb (hwhole _ b hp rfl)
    | mark m' =>
      have hother : m' ≠ m := by
        rintro rfl
        exact hnot ⟨t, rfl⟩
      rcases List.suffix_cons_iff.mp hv with hv | hv
      · rw [hv] at h
        exact hother (text_prefix_inj h).symm
      · obtain ⟨b, hb, hp⟩ := hname (eq_at_of_suffix_text hv)
        exact hno (dir m') (.inr ⟨m', .head _, hother, rfl⟩) b hb (hwhole _ b hp rfl)
  have hne : [Sym.mark m].flatMap Sym.text ≠ [] := by
    rw [hcode]
    exact text_ne_nil m
  have hmap : replaceAll ([Sym.mark m].flatMap Sym.text) ((t.map Sym.chr).flatMap Sym.text)
      (xs.flatMap Sym.text) = (replaceAll [.mark m] (t.map .chr) xs).flatMap Sym.text :=
    replaceAll_flatMap (P := NoName dir m) (List.cons_ne_nil _ _) hne (fun _ _ h => h.suffix) hskip hxs
  rw [hcode, hrep] at hmap
  exact hmap

/-! ### Putting the directories back -/

/-- A replacement with the same text keeps the restored text. -/
theorem restore_replaceAll {pat rep : List Sym} (hpat : pat ≠ [])
    (h : restore dir rep = restore dir pat) (xs : List Sym) :
    restore dir (replaceAll pat rep xs) = restore dir xs := by
  induction xs using replaceAll_induction hpat with
  | nil => rfl
  | occurrence t ih => rw [replaceAll_match hpat, restore_append, restore_append, ih, h]
  | cons c t hnot ih =>
    rw [replaceAll_cons hnot]
    exact congrArg (c.restored dir ++ ·) ih

theorem restore_mark (m : Mark) : restore dir [.mark m] = dir m := List.flatMap_singleton _ _

theorem not_mem_replaceAll_mark (m : Mark) (t : Text) (xs : List Sym) :
    Sym.mark m ∉ replaceAll [.mark m] (t.map .chr) xs := by
  rw [replaceAll_singleton, List.mem_flatMap]
  rintro ⟨x, -, hx⟩
  split at hx
  next h =>
    obtain ⟨c, -, hc⟩ := List.mem_map.mp hx
    exact Sym.noConfusion hc
  next h => exact h (List.mem_singleton.mp hx).symm

/-! ### Directories hidden and put back -/

variable {ds before : List (Mark × Text)}

theorem Unbroken.part {e : Mark × Text} {s t : Text} (h : Unbroken before e t) (hs : s <:+: t) :
    Unbroken before e s where
  name a ha b hb hm := h.name a ha b hb (hm.trans hs)
  ending e' he' p v hv hne hp hm := h.ending e' he' p v hv hne hp (hm.trans hs)

/-- What is left after some directories are put back is the text of a list without their
marks. -/
theorem unhide_eq_render (hdir : ∀ e ∈ before ++ ds, e.2 = dir e.1) {xs : List Sym}
    (hmarks : ∀ m, .mark m ∈ xs → ∃ e ∈ before ++ ds, e.1 = m)
    (hno : ∀ b e a, before ++ ds = b ++ e :: a → Unbroken b e (restore dir xs)) :
    ∃ ys, unhide ds (render xs) = render ys ∧ restore dir ys = restore dir xs ∧
      ∀ m, .mark m ∈ ys → ∃ e ∈ before, e.1 = m := by
  induction ds generalizing before with
  | nil =>
    rw [List.append_nil] at hmarks
    exact ⟨xs, rfl, rfl, hmarks⟩
  | cons e ds ih =>
    have hlist : before ++ e :: ds = (before ++ [e]) ++ ds := by simp
    rw [hlist] at hdir hmarks hno
    obtain ⟨ys, hys, hrestore, hleft⟩ := ih hdir hmarks hno
    have hunbroken := hno before e ds (by simp)
    have hsame : ∀ e' ∈ before ++ [e], e'.2 = dir e'.1 := fun e' he' => hdir e' (List.mem_append_left _ he')
    have hname : NoName dir e.1 ys := by
      rintro a ha b hb hm
      rw [hrestore] at hm
      refine hunbroken.name a ?_ b ?_ hm
      · rcases ha with rfl | ⟨m', hm', hne, rfl⟩
        · exact .head _
        · obtain ⟨e', he', rfl⟩ := hleft m' hm'
          rw [← hsame e' he']
          refine .tail _ (List.mem_map_of_mem ((List.mem_append.mp he').resolve_right fun h => hne ?_))
          rw [List.mem_singleton.mp h]
      · rcases hb with rfl | ⟨m', hm', rfl⟩
        · exact .head _
        · obtain ⟨e', he', rfl⟩ := hleft m' hm'
          rw [← hsame e' he']
          rcases List.mem_append.mp he' with he' | he'
          · exact .tail _ (.tail _ (List.mem_map_of_mem he'))
          · rw [List.mem_singleton.mp he']
            exact .tail _ (.head _)
    refine ⟨replaceAll [.mark e.1] (e.2.map .chr) ys, ?_, ?_, ?_⟩
    · change replaceAll e.1.text e.2 (unhide ds (render xs)) = _
      rw [hys, replaceAll_text e.1 e.2 hname]
    · rw [restore_replaceAll (List.cons_ne_nil _ _), hrestore]
      rw [restore_chr, restore_mark, hsame e (by simp)]
    · intro m hm
      have hmem : .mark m ∈ ys := by
        rcases mem_replaceAll hm with hm | hm
        · exact hm
        · obtain ⟨c, -, hc⟩ := List.mem_map.mp hm
          exact Sym.noConfusion hc
      obtain ⟨e', he', rfl⟩ := hleft m hmem
      refine ⟨e', (List.mem_append.mp he').resolve_right fun h => ?_, rfl⟩
      rw [List.mem_singleton.mp h] at hm
      exact not_mem_replaceAll_mark _ _ _ hm

/-- Putting all directories back restores the text. -/
theorem unhide_render (hdir : ∀ e ∈ ds, e.2 = dir e.1) {xs : List Sym}
    (hmarks : ∀ m, .mark m ∈ xs → ∃ e ∈ ds, e.1 = m)
    (hno : ∀ b e a, ds = b ++ e :: a → Unbroken b e (restore dir xs)) :
    unhide ds (render xs) = restore dir xs := by
  obtain ⟨ys, hys, hrestore, hleft⟩ := @unhide_eq_render dir ds [] hdir xs hmarks hno
  have hnone : ∀ m, .mark m ∉ ys := by
    intro m hm
    obtain ⟨e, he, -⟩ := hleft m hm
    cases he
  rw [hys, ← hrestore]
  exact render_of_no_mark hnone

end CargosBuildroot.Libtool
