import CargosBuildroot.Shell.Read

/-! The base directory of the toolchain wrapper (`toolchain-wrapper.c`, the first part of `main`).
With a slash in `argv[0]` the kernel resolves a relative path; without one the name of the
executable is cut at its slashes, from the last to the first but without the first. -/

namespace CargosBuildroot.Toolchain

open Shell

/-! ### Resolution -/

/-- The directories and the other files of a tree without symbolic links, each by the components
of its path. -/
structure Tree where
  directory : List Text → Bool
  file : List Text → Bool

/-- Where the components lead from a directory. -/
def resolve (t : Tree) : List Text → List Text → Option (List Text)
  | node, [] => if t.directory node || t.file node then some node else none
  | node, c :: cs =>
    if t.directory node then
      if c = [] ∨ c = ".".toList then resolve t node cs
      else if c = "..".toList then resolve t node.dropLast cs
      else resolve t (node ++ [c]) cs
    else none

/-- A path with a slash before each component. -/
def slashed (comps : List Text) : Text := comps.flatMap ('/' :: ·)

/-- `realpath(path, NULL)` in the directory `cwd`, for paths within the limits of the system -/
def realpath (t : Tree) (cwd : List Text) (path : Text) : Option Text :=
  (resolve t (if path.head? = some '/' then [] else cwd) (path.splitOn '/')).map fun node =>
    if node = [] then ['/'] else slashed node

/-! ### The two branches -/

/-- What is before the last slash. -/
def beforeSlash (progpath : Text) : Text :=
  (progpath.reverse.dropWhile (· ≠ '/')).tail.reverse

/-- `for (i = ret; i > 0; i--)`, with `count` slashes found so far -/
def cutSlashes : ℕ → Text → ℕ → Text
  | 0, absbasedir, _ => absbasedir
  | i + 1, absbasedir, count =>
    if absbasedir[i + 1]? = some '/' then
      if count + 1 = 3 then absbasedir.set (i + 1) '\x00'
      else cutSlashes i (absbasedir.set (i + 1) '\x00') (count + 1)
    else cutSlashes i absbasedir count

/-- The text of a buffer, up to the first null character. -/
def cText (buffer : Text) : Text := buffer.takeWhile (· ≠ '\x00')

/-- `absbasedir`, where `exe` is what `readlink` has read, within the limits of the system. -/
def absbasedir (t : Tree) (cwd : List Text) (argv0 exe : Text) : Option Text :=
  if '/' ∈ argv0 then realpath t cwd (beforeSlash argv0 ++ "/../..".toList)
  else some (cText (cutSlashes exe.length (exe ++ ['\x00']) 0))

/-- A component of a normalised path. -/
structure Component (c : Text) : Prop where
  ne_nil : c ≠ []
  ne_dot : c ≠ ".".toList
  ne_dots : c ≠ "..".toList
  slash : '/' ∉ c
  null : '\x00' ∉ c

/-- The wrapper `name` is installed in the directory `dirs`. -/
structure Installed (t : Tree) (dirs : List Text) (name : Text) : Prop where
  component : ∀ c ∈ dirs ++ [name], Component c
  directory : ∀ k, t.directory (dirs.take k) = true

/-! ### Texts of paths -/

theorem slashed_append (a b : List Text) : slashed (a ++ b) = slashed a ++ slashed b :=
  List.flatMap_append

theorem slashed_singleton (c : Text) : slashed [c] = '/' :: c := by simp [slashed]

theorem splitOn_slashed {w : Text} (hw : '/' ∉ w) {comps : List Text} (h : ∀ c ∈ comps, '/' ∉ c) :
    (w ++ slashed comps).splitOn '/' = w :: comps := by
  induction comps generalizing w with
  | nil =>
    rw [slashed, List.flatMap_nil, List.append_nil]
    exact List.splitOn_eq_singleton hw
  | cons c comps ih =>
    have htext : w ++ slashed (c :: comps) = w ++ '/' :: (c ++ slashed comps) := rfl
    rw [htext, List.splitOn_append_cons_self, List.splitOn_eq_singleton hw,
      ih (h c (.head _)) fun c hc => h c (.tail _ hc)]
    rfl

theorem beforeSlash_append {dir name : Text} (hname : '/' ∉ name) :
    beforeSlash (dir ++ '/' :: name) = dir := by
  rw [beforeSlash, dropWhile_reverse_append dir hname, List.tail_cons, List.reverse_reverse]

/-! ### Resolution of the path -/

section

variable {t : Tree} {dirs : List Text}

theorem resolve_append {node comps : List Text} (rest : List Text)
    (hcomps : ∀ c ∈ comps, Component c) (hdir : ∀ k, t.directory (node ++ comps.take k) = true) :
    resolve t node (comps ++ rest) = resolve t (node ++ comps) rest := by
  induction comps generalizing node with
  | nil => rw [List.nil_append, List.append_nil]
  | cons c comps ih =>
    have hc := hcomps c (.head _)
    have hnode : t.directory node = true := by simpa using hdir 0
    rw [List.cons_append, resolve, if_pos hnode, if_neg (not_or.mpr ⟨hc.ne_nil, hc.ne_dot⟩),
      if_neg hc.ne_dots, ih (fun c h => hcomps c (.tail _ h)), List.append_assoc]
    · rfl
    · intro k
      have := hdir (k + 1)
      rwa [List.take_succ_cons, List.append_cons] at this

theorem resolve_up (hdir : ∀ k, t.directory (dirs.take k) = true) :
    resolve t dirs ["..".toList, "..".toList] = some (dirs.take (dirs.length - 2)) := by
  have hself : t.directory dirs = true := by
    have := hdir dirs.length
    rwa [List.take_length] at this
  have hup : dirs.dropLast.dropLast = dirs.take (dirs.length - 2) := by
    rw [List.dropLast_eq_take, List.dropLast_eq_take, List.length_take, List.take_take]
    congr 1
    omega
  have hone : t.directory dirs.dropLast = true := by
    rw [List.dropLast_eq_take]
    exact hdir _
  have hstep (node : List Text) (h : t.directory node = true) (rest : List Text) :
      resolve t node ("..".toList :: rest) = resolve t node.dropLast rest := by
    rw [resolve, if_pos h, if_neg (by decide), if_pos rfl]
  rw [hstep dirs hself, hstep _ hone, hup, resolve, hdir, Bool.true_or, if_pos rfl]

end

/-! ### The loop over the characters -/

theorem cutSlashes_skip {buffer : Text} {count n m : ℕ}
    (h : ∀ j, n < j → j ≤ n + m → buffer[j]? ≠ some '/') :
    cutSlashes (n + m) buffer count = cutSlashes n buffer count := by
  induction m with
  | zero => rfl
  | succ m ih =>
    rw [← Nat.add_assoc, cutSlashes, if_neg (h _ (by omega) (by omega)),
      ih fun j hn hj => h j hn (by omega)]

/-- The characters after a slash do not matter to the loop, up to the next one. -/
theorem cutSlashes_component {dir c junk : Text} {count : ℕ} (hc : '/' ∉ c) :
    cutSlashes (dir ++ '/' :: c).length (dir ++ '/' :: c ++ '\x00' :: junk) count =
      cutSlashes dir.length (dir ++ '/' :: c ++ '\x00' :: junk) count := by
  have hlen : (dir ++ '/' :: c).length = dir.length + (c.length + 1) := by simp
  rw [hlen]
  refine cutSlashes_skip fun j hn hj => ?_
  obtain ⟨j, rfl⟩ := Nat.exists_eq_add_of_lt hn
  have hget : (dir ++ '/' :: c ++ '\x00' :: junk)[dir.length + j + 1]? =
      (c ++ '\x00' :: junk)[j]? := by
    rw [List.append_assoc, Nat.add_assoc, List.getElem?_append_right (by omega),
      Nat.add_sub_cancel_left]
    rfl
  rw [hget]
  intro heq
  rcases Nat.lt_or_ge j c.length with hlt | hge
  · rw [List.getElem?_append_left hlt] at heq
    exact hc (List.mem_of_getElem? heq)
  · have hj : j = c.length := by omega
    rw [hj, List.getElem?_append_right le_rfl, Nat.sub_self] at heq
    exact absurd heq (by simp)

theorem cutSlashes_slash {dir rest : Text} {count : ℕ} (hdir : dir ≠ []) :
    cutSlashes dir.length (dir ++ '/' :: rest) count =
      if count + 1 = 3 then dir ++ '\x00' :: rest
      else cutSlashes dir.length (dir ++ '\x00' :: rest) (count + 1) := by
  obtain ⟨k, hk⟩ := Nat.exists_eq_succ_of_ne_zero (mt List.length_eq_zero_iff.mp hdir)
  have hset : (dir ++ '/' :: rest).set (k + 1) '\x00' = dir ++ '\x00' :: rest := by
    rw [← Nat.succ_eq_add_one, ← hk]
    simp
  have hslash : (dir ++ '/' :: rest)[k + 1]? = some '/' := by
    rw [← Nat.succ_eq_add_one, ← hk]
    simp
  have hnull : (dir ++ '\x00' :: rest)[k + 1]? ≠ some '/' := by
    rw [← Nat.succ_eq_add_one, ← hk]
    simp
  rw [hk, Nat.succ_eq_add_one, cutSlashes, if_pos hslash, hset, cutSlashes, if_neg hnull]

theorem cText_append {a : Text} (ha : '\x00' ∉ a) (rest : Text) :
    cText (a ++ '\x00' :: rest) = a := by
  rw [cText, List.takeWhile_append_of_pos, List.takeWhile_cons_of_neg (by simp), List.append_nil]
  exact fun c hc => decide_eq_true fun heq => ha (heq ▸ hc)

theorem null_not_mem_slashed {comps : List Text} (h : ∀ c ∈ comps, Component c) :
    '\x00' ∉ slashed comps := by
  intro hmem
  obtain ⟨c, hc, hmem⟩ := List.mem_flatMap.mp hmem
  rcases List.mem_cons.mp hmem with heq | hmem
  · exact absurd heq (by decide)
  · exact (h c hc).null hmem

theorem slashed_ne_nil {comps : List Text} (h : comps ≠ []) : slashed comps ≠ [] := by
  obtain ⟨c, rest, rfl⟩ := List.exists_cons_of_ne_nil h
  exact List.cons_ne_nil _ _

/-- The loop takes away the last components, but never the first. -/
theorem cutSlashes_slashed {m : ℕ} (hm : 1 ≤ m) {comps : List Text} (hne : comps ≠ [])
    (h : ∀ c ∈ comps, Component c) {count : ℕ} (hcount : count + m = 3) (junk : Text) :
    cText (cutSlashes (slashed comps).length (slashed comps ++ '\x00' :: junk) count) =
      slashed (comps.take (max 1 (comps.length - m))) := by
  induction m generalizing comps count junk with
  | zero => omega
  | succ m ih =>
    obtain ⟨init, c, rfl⟩ := (List.eq_nil_or_concat comps).resolve_left hne
    rw [List.concat_eq_append] at h hne ⊢
    have hinit : ∀ c ∈ init, Component c := fun c hc => h c (List.mem_append_left _ hc)
    have hc : '/' ∉ c := (h c (by simp)).slash
    have hnull := null_not_mem_slashed hinit
    have hlen : (init ++ [c]).length = init.length + 1 := by simp
    by_cases hfirst : init = []
    · subst hfirst
      have hall : ([] ++ [c]).take (max 1 (([] ++ [c]).length - (m + 1))) = [c] :=
        List.take_of_length_le (le_max_left _ _)
      have htext := null_not_mem_slashed h
      have hcut := @cutSlashes_component [] c junk count hc
      rw [hall]
      rw [List.nil_append, slashed_singleton] at htext ⊢
      rw [List.nil_append] at hcut
      rw [hcut, List.length_nil, cutSlashes, cText_append htext]
    · rw [slashed_append, slashed_singleton, cutSlashes_component hc, List.append_assoc,
        List.cons_append, cutSlashes_slash (slashed_ne_nil hfirst), hlen]
      have hpos : 1 ≤ init.length := List.length_pos_of_ne_nil hfirst
      rcases Nat.eq_zero_or_pos m with rfl | hm
      · rw [if_pos hcount, cText_append hnull, Nat.add_sub_cancel, max_eq_right hpos,
          List.take_left]
      · rw [if_neg (by omega), ih hm hfirst hinit (by omega), List.take_append_of_le_length]
        · congr 2
          omega
        · omega

/-- The branch for an absolute path takes two directories away. -/
theorem absbasedir_slashed {t : Tree} {dirs : List Text} {name : Text} (h : Installed t dirs name)
    (cwd : List Text) (exe : Text) : absbasedir t cwd (slashed (dirs ++ [name])) exe =
      some (if dirs.take (dirs.length - 2) = [] then ['/']
        else slashed (dirs.take (dirs.length - 2))) := by
  have hdirs : ∀ c ∈ dirs, Component c := fun c hc => h.component c (List.mem_append_left _ hc)
  have hname : Component name := h.component name (by simp)
  have hpath : slashed dirs ++ "/../..".toList = slashed (dirs ++ ["..".toList, "..".toList]) := by
    rw [slashed_append]
    rfl
  have hhead : (slashed (dirs ++ ["..".toList, "..".toList])).head? = some '/' := by
    cases dirs <;> rfl
  have hsplit : (slashed (dirs ++ ["..".toList, "..".toList])).splitOn '/' =
      [] :: (dirs ++ ["..".toList, "..".toList]) := by
    refine splitOn_slashed (w := []) (List.not_mem_nil) fun c hc => ?_
    rcases List.mem_append.mp hc with hc | hc
    · exact (hdirs c hc).slash
    · simp only [List.mem_cons, List.not_mem_nil, or_false, or_self] at hc
      rw [hc]
      decide
  have hroot : t.directory [] = true := h.directory 0
  rw [slashed_append, slashed_singleton, absbasedir, if_pos (by simp),
    beforeSlash_append hname.slash, hpath, realpath, if_pos hhead, hsplit, resolve, if_pos hroot,
    if_pos (.inl rfl), resolve_append _ hdirs h.directory, List.nil_append,
    resolve_up h.directory, Option.map_some]

/-- The branch for a name cuts three slashes from the path of the executable. -/
theorem absbasedir_exe {t : Tree} {dirs : List Text} {name prog : Text} (h : Installed t dirs name)
    (cwd : List Text) (hprog : '/' ∉ prog) : absbasedir t cwd prog (slashed (dirs ++ [name])) =
      some (slashed ((dirs ++ [name]).take (max 1 (dirs.length - 2)))) := by
  have hcut := cutSlashes_slashed (m := 3) (by omega) (by simp) h.component rfl []
  rw [List.length_append, List.length_singleton, Nat.add_sub_add_right dirs.length 1 2] at hcut
  rw [absbasedir, if_neg hprog, hcut]

/-- For every installed wrapper the two branches agree exactly when there are three directories
above it. -/
theorem base_agree_iff (t : Tree) (cwd dirs : List Text) (name prog exe : Text)
    (h : Installed t dirs name) (hprog : '/' ∉ prog) :
    absbasedir t cwd (slashed (dirs ++ [name])) exe =
      absbasedir t cwd prog (slashed (dirs ++ [name])) ↔ 3 ≤ dirs.length := by
  rw [absbasedir_slashed h, absbasedir_exe h cwd hprog, Option.some_inj]
  constructor
  · intro heq
    by_contra hlt
    have hzero : dirs.length - 2 = 0 := by omega
    rw [hzero, List.take_zero, if_pos rfl, max_eq_left (by omega)] at heq
    obtain ⟨c, rest, hcons⟩ := List.exists_cons_of_ne_nil (List.concat_ne_nil name dirs)
    have hc := h.component c (by rw [hcons]; exact .head _)
    rw [hcons, List.take_succ_cons, List.take_zero, slashed_singleton, List.cons.injEq] at heq
    exact hc.ne_nil heq.2.symm
  · intro hlen
    have hne : dirs.take (dirs.length - 2) ≠ [] := by
      rw [Ne, List.take_eq_nil_iff]
      rintro (hzero | rfl)
      · omega
      · simp at hlen
    rw [if_neg hne, max_eq_right (by omega), List.take_append_of_le_length (by omega)]

/-- A tree with nothing but one file and the directories above it. -/
def lone (dirs : List Text) (name : Text) : Tree where
  directory node := node.isPrefixOf dirs
  file node := node = dirs ++ [name]

theorem installed_lone {dirs : List Text} {name : Text} (h : ∀ c ∈ dirs ++ [name], Component c) :
    Installed (lone dirs name) dirs name :=
  ⟨h, fun _ => List.isPrefixOf_iff_prefix.mpr (List.take_prefix _ _)⟩

theorem component_letter {c : Char} (h : c.isAlpha = true) : Component [c] := by
  refine ⟨List.cons_ne_nil _ _, ?_, ?_, ?_, ?_⟩ <;> rintro heq
  · exact absurd h (by rw [List.singleton_inj.mp heq]; decide)
  · exact absurd (congrArg List.length heq) (by rw [List.length_singleton]; decide)
  · exact absurd h (by rw [← List.mem_singleton.mp heq]; decide)
  · exact absurd h (by rw [← List.mem_singleton.mp heq]; decide)

theorem installed_abc : Installed (lone [['a'], ['b'], ['c']] ['g']) [['a'], ['b'], ['c']] ['g'] := by
  refine installed_lone fun c hc => ?_
  simp only [List.cons_append, List.nil_append, List.mem_cons, List.not_mem_nil, or_false] at hc
  rcases hc with rfl | rfl | rfl | rfl <;> exact component_letter rfl

theorem installed_ab : Installed (lone [['a'], ['b']] ['g']) [['a'], ['b']] ['g'] := by
  refine installed_lone fun c hc => ?_
  simp only [List.cons_append, List.nil_append, List.mem_cons, List.not_mem_nil, or_false] at hc
  rcases hc with rfl | rfl | rfl <;> exact component_letter rfl

theorem base_agree_abc : absbasedir (lone [['a'], ['b'], ['c']] ['g']) [] "/a/b/c/g".toList [] =
    absbasedir (lone [['a'], ['b'], ['c']] ['g']) [] "g".toList "/a/b/c/g".toList :=
  (base_agree_iff _ [] [['a'], ['b'], ['c']] "g".toList "g".toList [] installed_abc
    (by decide)).mpr (by decide)

/-- Below two directories one branch is at the root, and the other stops at the first component. -/
theorem base_differs : Installed (lone [['a'], ['b']] ['g']) [['a'], ['b']] ['g'] ∧
    absbasedir (lone [['a'], ['b']] ['g']) [] "/a/b/g".toList [] = some "/".toList ∧
    absbasedir (lone [['a'], ['b']] ['g']) [] "g".toList "/a/b/g".toList = some "/a".toList :=
  ⟨installed_ab, by decide⟩

end CargosBuildroot.Toolchain
