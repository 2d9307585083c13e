import Mathlib.Data.List.Basic
import Mathlib.Data.List.Induction

/-! Files kept as lists of records that are looked up by a key. Writing a record
removes the records of its key and appends the new one, so a file that was
written many times holds the records that were never touched, in their old
order, and after them the last record of each key. -/

namespace CargosBuildroot.Store

variable {α κ : Type*} (has : κ → α → Bool)

/-- Replace the records of the key `k` by `a`, at the end. -/
def put (k : κ) (a : α) (file : List α) : List α := file.filter (!has k ·) ++ [a]

/-- A sequence of writes. -/
def puts (ops : List (κ × α)) (file : List α) : List α :=
  ops.foldl (fun file op => put has op.1 op.2 file) file

/-- The records that none of the writes touches. -/
def untouched (ops : List (κ × α)) (a : α) : Bool := ops.all (!has ·.1 a)

variable {has}

theorem mem_put {k : κ} {a b : α} {file : List α} :
    b ∈ put has k a file ↔ b ∈ file ∧ has k b = false ∨ b = a := by
  simp [put]

/-- The written record is the only one that a property of records with its key selects. -/
theorem filter_put_of_le {k : κ} {a : α} (file : List α) {p : α → Bool} (ha : p a = true)
    (hp : ∀ b, p b = true → has k b = true) : (put has k a file).filter p = [a] := by
  have hnone : ∀ b ∈ file, ¬ (p b && !has k b) = true := by
    intro b _
    simpa using hp b
  rw [put, List.filter_append, List.filter_filter, List.filter_eq_nil_iff.mpr hnone]
  simp [ha]

theorem filter_put_self {k : κ} {a : α} (file : List α) (ha : has k a = true) :
    (put has k a file).filter (has k) = [a] :=
  filter_put_of_le file ha fun _ => id

/-- The records that a property selects among other keys stay as they are. -/
theorem filter_put_other {k : κ} {a : α} (file : List α) {p : α → Bool} (ha : has k a = true)
    (hp : ∀ b, has k b = true → p b = false) : (put has k a file).filter p = file.filter p := by
  have hrest : ∀ b ∈ file, (p b && !has k b) = p b := by
    intro b _
    cases hb : has k b with
    | false => simp
    | true => simp [hp b hb]
  rw [put, List.filter_append, List.filter_filter, List.filter_congr hrest]
  simp [hp a ha]

@[simp] theorem puts_nil (file : List α) : puts has [] file = file := rfl

@[simp] theorem puts_cons (op : κ × α) (ops : List (κ × α)) (file : List α) :
    puts has (op :: ops) file = puts has ops (put has op.1 op.2 file) := rfl

theorem puts_append (ops₁ ops₂ : List (κ × α)) (file : List α) :
    puts has (ops₁ ++ ops₂) file = puts has ops₂ (puts has ops₁ file) := by
  simp [puts]

/-- What a sequence of writes leaves: the untouched records, and after them what
it writes into an empty file. -/
theorem puts_eq (ops : List (κ × α)) (file : List α) :
    puts has ops file = file.filter (untouched has ops) ++ puts has ops [] := by
  induction ops using List.reverseRecOn with
  | nil =>
    have hall : ∀ a ∈ file, untouched has [] a = true := fun _ _ => rfl
    simp [List.filter_eq_self.mpr hall]
  | append_singleton ops op ih =>
    simp only [puts_append, puts_cons, puts_nil, put]
    rw [ih, List.filter_append, List.filter_filter, List.append_assoc]
    congr 1
    refine List.filter_congr fun a _ => ?_
    simp [untouched, Bool.and_comm]

/-- Files that agree on the untouched records are the same after the writes. -/
theorem puts_congr {ops : List (κ × α)} {file file' : List α}
    (h : file.filter (untouched has ops) = file'.filter (untouched has ops)) :
    puts has ops file = puts has ops file' := by
  rw [puts_eq ops file, puts_eq ops file', h]

theorem mem_puts_nil {ops : List (κ × α)} {a : α} (h : a ∈ puts has ops []) :
    ∃ op ∈ ops, a = op.2 := by
  induction ops using List.reverseRecOn with
  | nil => simp at h
  | append_singleton ops op ih =>
    simp only [puts_append, puts_cons, puts_nil, mem_put] at h
    rcases h with ⟨h, -⟩ | rfl
    · obtain ⟨op', hop', rfl⟩ := ih h
      exact ⟨op', by simp [hop'], rfl⟩
    · exact ⟨op, by simp, rfl⟩

theorem filter_untouched_puts {ops : List (κ × α)} (file : List α)
    (hops : ∀ op ∈ ops, has op.1 op.2 = true) :
    (puts has ops file).filter (untouched has ops) = file.filter (untouched has ops) := by
  have hlast : (puts has ops []).filter (untouched has ops) = [] := by
    refine List.filter_eq_nil_iff.mpr fun a ha hun => ?_
    obtain ⟨op, hop, rfl⟩ := mem_puts_nil ha
    simpa [hops op hop] using List.all_eq_true.mp hun op hop
  rw [puts_eq, List.filter_append, hlast, List.filter_filter]
  simp

/-- Repeating a sequence of writes after edits that keep the keys and leave the
untouched records alone takes the edits back. -/
theorem puts_map_puts {ops : List (κ × α)} {file : List α} {f : α → α}
    (hops : ∀ op ∈ ops, has op.1 op.2 = true) (hkeep : ∀ op ∈ ops, ∀ a, has op.1 (f a) = has op.1 a)
    (hfix : ∀ a ∈ file, untouched has ops a = true → f a = a) :
    puts has ops ((puts has ops file).map f) = puts has ops file := by
  have huntouched : ∀ a, untouched has ops (f a) = untouched has ops a := by
    intro a
    rw [Bool.eq_iff_iff, untouched, untouched, List.all_eq_true, List.all_eq_true]
    exact forall₂_congr fun op hop => by rw [hkeep op hop]
  refine puts_congr ?_
  calc ((puts has ops file).map f).filter (untouched has ops)
      = ((puts has ops file).filter (untouched has ops)).map f := by
        rw [List.filter_map]
        exact congrArg (List.map f) (List.filter_congr fun a _ => huntouched a)
    _ = (file.filter (untouched has ops)).map f := by rw [filter_untouched_puts file hops]
    _ = file.filter (untouched has ops) := by
        refine (List.map_congr_left (g := id) fun a ha => ?_).trans (List.map_id _)
        exact hfix a (List.mem_filter.mp ha).1 (List.mem_filter.mp ha).2

/-- Repeating a sequence of writes changes nothing. -/
theorem puts_puts {ops : List (κ × α)} (file : List α)
    (hops : ∀ op ∈ ops, has op.1 op.2 = true) :
    puts has ops (puts has ops file) = puts has ops file :=
  puts_congr (filter_untouched_puts file hops)

/-- Records of other keys, after writes and edits that keep the keys: they are all there, in
their order, if and only if none of the writes touches them and the edits leave them alone. -/
theorem sublist_map_puts_iff {ops : List (κ × α)} {file : List α} {p : α → Bool} {f : α → α}
    (hwrites : ∀ op ∈ ops, p op.2 = false) (hkeep : ∀ a, p (f a) = p a) :
    (file.filter p).Sublist ((puts has ops file).map f) ↔
      ∀ a ∈ file, p a = true → untouched has ops a = true ∧ f a = a := by
  have hwritten : (puts has ops []).filter p = [] := by
    refine List.filter_eq_nil_iff.mpr fun a ha => ?_
    obtain ⟨op, hop, rfl⟩ := mem_puts_nil ha
    rw [hwrites op hop]
    exact Bool.false_ne_true
  have hleft : (file.filter (untouched has ops)).filter p = (file.filter p).filter (untouched has ops) := by
    simp only [List.filter_filter, Bool.and_comm]
  have hfilter : ((puts has ops file).map f).filter p = ((file.filter p).filter (untouched has ops)).map f := by
    have hcomp : p ∘ f = p := funext hkeep
    rw [List.filter_map, hcomp, puts_eq, List.filter_append, hleft, hwritten, List.append_nil]
  have hself : ∀ l : List α, l.map f = l ↔ ∀ a ∈ l, f a = a := by
    intro l
    have h := List.map_inj_left (l := l) (f := f) (g := id)
    rwa [List.map_id] at h
  constructor
  · intro h a ha hp
    have hsub := h.filter p
    rw [hfilter, List.filter_filter] at hsub
    simp only [Bool.and_self] at hsub
    have hlength := hsub.length_le
    rw [List.length_map] at hlength
    have hall : (file.filter p).filter (untouched has ops) = file.filter p :=
      List.filter_sublist.eq_of_length_le hlength
    rw [hall] at hsub
    have hmem : a ∈ file.filter p := List.mem_filter.mpr ⟨ha, hp⟩
    exact ⟨List.filter_eq_self.mp hall a hmem,
      (hself _).mp (hsub.eq_of_length (List.length_map f).symm).symm a hmem⟩
  · intro h
    have hall : (file.filter p).filter (untouched has ops) = file.filter p :=
      List.filter_eq_self.mpr fun a ha => (h a (List.mem_filter.mp ha).1 (List.mem_filter.mp ha).2).1
    have hfix := (hself (file.filter p)).mpr fun a ha =>
      (h a (List.mem_filter.mp ha).1 (List.mem_filter.mp ha).2).2
    rw [hall, hfix] at hfilter
    rw [← hfilter]
    exact List.filter_sublist

end CargosBuildroot.Store
