import Mathlib.Data.List.Nodup
import Mathlib.Logic.Relation

/-! Depth-first traversal to a bounded depth. The traversal keeps one list of visited
vertices, whatever the depth they were visited at; compared with it is the list of all
walks up to the bound, in the same order. On an acyclic graph the traversal visits the
vertices where the walks first meet them, as long as no vertex with successors is first met
at the bound and by a shorter walk later. -/

namespace CargosBuildroot.Graph

open Relation

variable {α : Type*} (succ : α → List α)

/-- The ends and the depths of the walks of at most `n` steps from a vertex at depth `k`. -/
def walks : ℕ → ℕ → α → List (α × ℕ)
  | 0, k, a => [(a, k)]
  | n + 1, k, a => (a, k) :: (succ a).flatMap (walks n (k + 1))

/-- A walk of `n` steps from `a` to `b`. -/
def Steps : ℕ → α → α → Prop
  | 0, a, b => a = b
  | n + 1, a, b => ∃ c ∈ succ a, Steps n c b

variable {succ}

theorem mem_walks {n k j : ℕ} {a b : α} :
    (b, j) ∈ walks succ n k a ↔ ∃ i ≤ n, j = k + i ∧ Steps succ i a b := by
  induction n generalizing k a with
  | zero =>
    rw [walks, List.mem_singleton]
    constructor
    · intro h
      obtain ⟨rfl, rfl⟩ := Prod.mk.inj h
      exact ⟨0, Nat.le_refl 0, rfl, rfl⟩
    · rintro ⟨i, hi, rfl, hsteps⟩
      obtain rfl := Nat.le_zero.mp hi
      exact Prod.ext hsteps.symm rfl
  | succ n ih =>
    rw [walks, List.mem_cons, List.mem_flatMap]
    constructor
    · rintro (h | ⟨c, hc, hmem⟩)
      · obtain ⟨rfl, rfl⟩ := Prod.mk.inj h
        exact ⟨0, Nat.zero_le _, rfl, rfl⟩
      · obtain ⟨i, hi, rfl, hsteps⟩ := ih.mp hmem
        exact ⟨i + 1, by omega, by omega, c, hc, hsteps⟩
    · rintro ⟨i, hi, rfl, hsteps⟩
      cases i with
      | zero => exact .inl (Prod.ext hsteps.symm rfl)
      | succ i =>
        obtain ⟨c, hc, hsteps⟩ := hsteps
        exact .inr ⟨c, hc, ih.mpr ⟨i, by omega, by omega, hsteps⟩⟩

theorem head_mem_walks (n k : ℕ) (a : α) : (a, k) ∈ walks succ n k a :=
  mem_walks.mpr ⟨0, Nat.zero_le n, rfl, rfl⟩

/-! ### First meetings -/

variable [DecidableEq α]

/-- The vertices that have been met, with their depths, and a new one if it has not. -/
def record (seen : List (α × ℕ)) (e : α × ℕ) : List (α × ℕ) :=
  if e.1 ∈ seen.map Prod.fst then seen else seen ++ [e]

def recordAll (seen ws : List (α × ℕ)) : List (α × ℕ) := ws.foldl record seen

variable {seen ws ws' : List (α × ℕ)}

theorem recordAll_append : recordAll seen (ws ++ ws') = recordAll (recordAll seen ws) ws' :=
  List.foldl_append

theorem prefix_record (e : α × ℕ) : seen <+: record seen e := by
  unfold record
  split
  · exact List.prefix_refl _
  · exact List.prefix_append _ _

theorem prefix_recordAll : seen <+: recordAll seen ws := by
  induction ws generalizing seen with
  | nil => exact List.prefix_refl _
  | cons e ws ih => exact (prefix_record e).trans ih

theorem mem_record_keys {e : α × ℕ} : e.1 ∈ (record seen e).map Prod.fst := by
  unfold record
  split
  · assumption
  · simp

theorem mem_recordAll_keys {e : α × ℕ} (he : e ∈ ws) : e.1 ∈ (recordAll seen ws).map Prod.fst := by
  obtain ⟨a, b, rfl⟩ := List.append_of_mem he
  rw [recordAll_append]
  have hmem : e.1 ∈ (record (recordAll seen a) e).map Prod.fst := mem_record_keys
  have hkeep : record (recordAll seen a) e <+: recordAll (recordAll seen a) (e :: b) :=
    prefix_recordAll
  exact (hkeep.map Prod.fst).subset hmem

theorem mem_recordAll {e : α × ℕ} (he : e ∈ recordAll seen ws) : e ∈ seen ∨ e ∈ ws := by
  induction ws generalizing seen with
  | nil => exact .inl he
  | cons w ws ih =>
    rcases ih he with he | he
    · unfold record at he
      split at he
      · exact .inl he
      · rcases List.mem_append.mp he with he | he
        · exact .inl he
        · exact .inr (List.mem_singleton.mp he ▸ .head _)
    · exact .inr (.tail _ he)

theorem recordAll_of_seen (h : ∀ e ∈ ws, e.1 ∈ seen.map Prod.fst) : recordAll seen ws = seen := by
  induction ws with
  | nil => rfl
  | cons w ws ih =>
    rw [List.forall_mem_cons] at h
    have hrecord : record seen w = seen := if_pos h.1
    change recordAll (record seen w) ws = seen
    rw [hrecord, ih h.2]

theorem nodup_recordAll (h : (seen.map Prod.fst).Nodup) : ((recordAll seen ws).map Prod.fst).Nodup := by
  induction ws generalizing seen with
  | nil => exact h
  | cons w ws ih =>
    apply ih
    unfold record
    split
    next => exact h
    next hnot =>
      rw [List.map_append]
      exact h.append (List.nodup_singleton _) (by simpa using hnot)

/-- The depth of a vertex that has been met stays. -/
theorem mem_recordAll_iff {a : α} {k : ℕ} (ha : a ∈ seen.map Prod.fst) :
    (a, k) ∈ recordAll seen ws ↔ (a, k) ∈ seen := by
  induction ws generalizing seen with
  | nil => rfl
  | cons w ws ih =>
    have hkeys : a ∈ (record seen w).map Prod.fst := ((prefix_record w).map Prod.fst).subset ha
    refine (ih hkeys).trans ?_
    unfold record
    split
    next => rfl
    next hnot =>
      rw [List.mem_append, List.mem_singleton]
      refine or_iff_left ?_
      rintro rfl
      exact hnot ha

/-- What is recorded is the first entry for each vertex. -/
theorem mem_recordAll_nil_iff {a : α} {k : ℕ} :
    (a, k) ∈ recordAll [] ws ↔ ws.find? (·.1 = a) = some (a, k) := by
  have hfind : ∀ seen : List (α × ℕ), a ∉ seen.map Prod.fst →
      ((a, k) ∈ recordAll seen ws ↔ ws.find? (·.1 = a) = some (a, k)) := by
    induction ws with
    | nil =>
      intro seen hnot
      refine iff_of_false (fun hmem => hnot ?_) (Option.some_ne_none _).symm
      exact List.mem_map.mpr ⟨(a, k), hmem, rfl⟩
    | cons w ws ih =>
      intro seen hnot
      change (a, k) ∈ recordAll (record seen w) ws ↔ _
      rw [List.find?_cons]
      by_cases hw : w.1 = a
      · subst hw
        have hrecord : record seen w = seen ++ [w] := if_neg hnot
        have hold : (w.1, k) ∉ seen := fun hmem => hnot (List.mem_map.mpr ⟨_, hmem, rfl⟩)
        rw [hrecord, mem_recordAll_iff (by simp), List.mem_append, List.mem_singleton,
          or_iff_right hold]
        simp [eq_comm]
      · have hnot' : a ∉ (record seen w).map Prod.fst := by
          unfold record
          split
          · exact hnot
          · simpa [Ne.symm hw] using hnot
        rw [ih _ hnot']
        simp [hw]
  exact hfind [] List.not_mem_nil

/-! ### The traversal -/

/-- The vertices visited, with their depths, when the call for `a` at depth `k` has returned. -/
def visits (succ : α → List α) : ℕ → ℕ → α → List (α × ℕ) → List (α × ℕ)
  | 0, k, a, seen => record seen (a, k)
  | n + 1, k, a, seen =>
    if a ∈ seen.map Prod.fst then seen
    else (succ a).foldl (fun seen b => visits succ n (k + 1) b seen) (seen ++ [(a, k)])

theorem prefix_visits (n k : ℕ) (a : α) : seen <+: visits succ n k a seen := by
  induction n generalizing k a seen with
  | zero => exact prefix_record _
  | succ n ih =>
    rw [visits]
    split
    · exact List.prefix_refl _
    · exact List.foldlRecOn _ _ (List.prefix_append _ _) fun seen' h b _ => h.trans (ih (k + 1) b)

/-- The successors of the vertices that were visited before the bound have been visited
too, but for the vertices whose calls have not returned. -/
def Closed (succ : α → List α) (bound : ℕ) (active : α → Prop) (seen : List (α × ℕ)) : Prop :=
  ∀ e ∈ seen, e.2 < bound → ¬ active e.1 → ∀ c ∈ succ e.1, c ∈ seen.map Prod.fst

/-- A vertex with successors that is met first at the bound, and not only there. -/
structure Late (succ : α → List α) (bound : ℕ) (ws : List (α × ℕ)) (a : α) : Prop where
  successors : succ a ≠ []
  early : ∃ j < bound, (a, j) ∈ ws
  first : (a, bound) ∈ recordAll [] ws

variable {bound : ℕ} {active : α → Prop}

/-- Below a visited vertex everything has been visited, if no vertex is late. -/
theorem walks_seen (hacyclic : ∀ a, ¬ TransGen (fun a b => b ∈ succ a) a a)
    (hclosed : Closed succ bound active seen) (hfirst : ∀ e ∈ seen, e ∈ recordAll [] ws)
    (hbound : ∀ e ∈ ws, e.2 ≤ bound) (hlate : ∀ a, Late succ bound ws a → (a, bound) ∉ seen)
    {n k : ℕ} {a : α} (hnk : n + k = bound) (hws : ∀ e ∈ walks succ n k a, e ∈ ws)
    (hactive : ∀ o, active o → TransGen (fun a b => b ∈ succ a) o a) (ha : a ∈ seen.map Prod.fst) :
    ∀ e ∈ walks succ n k a, e.1 ∈ seen.map Prod.fst := by
  induction n generalizing k a with
  | zero =>
    rw [walks, List.forall_mem_singleton]
    exact ha
  | succ n ih =>
    rw [walks, List.forall_mem_cons]
    refine ⟨ha, fun e he => ?_⟩
    obtain ⟨c, hc, hec⟩ := List.mem_flatMap.mp he
    obtain ⟨⟨a, j⟩, hj, rfl⟩ := List.mem_map.mp ha
    have hle : j ≤ bound := hbound _ ((mem_recordAll (hfirst _ hj)).resolve_left List.not_mem_nil)
    have hne : j ≠ bound := by
      intro heq
      rw [heq] at hj
      have hearly : ∃ i < bound, (a, i) ∈ ws := ⟨k, by omega, hws _ (head_mem_walks _ _ _)⟩
      exact hlate a ⟨List.ne_nil_of_mem hc, hearly, hfirst _ hj⟩ hj
    have hchild := hclosed _ hj (Nat.lt_of_le_of_ne hle hne) (fun h => hacyclic _ (hactive _ h)) c hc
    refine ih (k := k + 1) (by omega) (fun e he => hws e ?_)
      (fun o ho => (hactive o ho).tail hc) hchild e hec
    rw [walks]
    exact List.mem_cons_of_mem _ (List.mem_flatMap.mpr ⟨c, hc, he⟩)

/-- What has been visited agrees with the walks, or a late vertex has been visited. -/
def Agrees (succ : α → List α) (bound : ℕ) (active : α → Prop) (all pre seen : List (α × ℕ)) :
    Prop :=
  (seen = recordAll [] pre ∧ Closed succ bound active seen) ∨
    ∃ b, Late succ bound all b ∧ (b, bound) ∈ seen

variable {pre rest all : List (α × ℕ)}

theorem Agrees.mono {seen' : List (α × ℕ)} (h : seen <+: seen') {b : α}
    (hb : Late succ bound all b) (hmem : (b, bound) ∈ seen) :
    Agrees succ bound active all pre seen' :=
  .inr ⟨b, hb, h.subset hmem⟩

theorem agrees_loop {visit : α → List (α × ℕ) → List (α × ℕ)} {below : α → List (α × ℕ)}
    {bs : List α} (hvisit : ∀ b ∈ bs, ∀ pre rest seen, all = pre ++ below b ++ rest →
      Agrees succ bound active all pre seen →
      Agrees succ bound active all (pre ++ below b) (visit b seen))
    (hall : all = pre ++ bs.flatMap below ++ rest)
    (h : Agrees succ bound active all pre seen) :
    Agrees succ bound active all (pre ++ bs.flatMap below)
      (bs.foldl (fun seen b => visit b seen) seen) := by
  induction bs generalizing pre seen with
  | nil => simpa using h
  | cons b bs ih =>
    rw [List.forall_mem_cons] at hvisit
    rw [List.flatMap_cons, ← List.append_assoc] at hall ⊢
    exact ih hvisit.2 hall (hvisit.1 pre _ seen (by rw [hall, List.append_assoc]) h)

/-- At the bound a vertex is recorded, and its successors are not visited. -/
theorem Closed.record {a : α} (h : Closed succ bound active (recordAll [] pre)) :
    Closed succ bound active (record (recordAll [] pre) (a, bound)) := by
  intro e he hlt hnot c hc
  have hold : e ∈ recordAll [] pre := by
    have hsplit : e ∈ recordAll [] pre ∨ e ∈ [(a, bound)] := mem_recordAll he
    refine hsplit.resolve_right fun hnew => ?_
    obtain rfl := List.mem_singleton.mp hnew
    exact Nat.lt_irrefl _ hlt
  exact ((prefix_record _).map Prod.fst).subset (h e hold hlt hnot c hc)

omit [DecidableEq α] in
/-- The call for a new vertex is active in the loop over its successors. -/
theorem Closed.enter (h : Closed succ bound active seen) (a : α) (k : ℕ) :
    Closed succ bound (fun o => active o ∨ o = a) (seen ++ [(a, k)]) := by
  intro e he hlt hnot c hc
  rw [not_or] at hnot
  rcases List.mem_append.mp he with he | he
  · rw [List.map_append]
    exact List.mem_append_left _ (h e he hlt hnot.1 c hc)
  · exact absurd (congrArg Prod.fst (List.mem_singleton.mp he)) hnot.2

omit [DecidableEq α] in
/-- After the loop over its successors the call for a vertex returns. -/
theorem Closed.leave {a : α} (h : Closed succ bound (fun o => active o ∨ o = a) seen)
    (hsucc : ∀ c ∈ succ a, c ∈ seen.map Prod.fst) : Closed succ bound active seen := by
  intro e he hlt hnot c hc
  by_cases hea : e.1 = a
  · exact hsucc c (hea ▸ hc)
  · exact h e he hlt (not_or.mpr ⟨hnot, hea⟩) c hc

/-- One call of the traversal. -/
theorem Agrees.visits (hacyclic : ∀ a, ¬ TransGen (fun a b => b ∈ succ a) a a)
    (hbound : ∀ e ∈ all, e.2 ≤ bound) {n k : ℕ} {a : α} (hnk : n + k = bound)
    (hactive : ∀ o, active o → TransGen (fun a b => b ∈ succ a) o a)
    (hall : all = pre ++ walks succ n k a ++ rest) (h : Agrees succ bound active all pre seen) :
    Agrees succ bound active all (pre ++ walks succ n k a) (visits succ n k a seen) := by
  induction n generalizing k a pre rest seen active with
  | zero =>
    rcases h with ⟨rfl, hclosed⟩ | ⟨b, hb, hmem⟩
    · obtain rfl : k = bound := by omega
      left
      rw [recordAll_append]
      exact ⟨rfl, hclosed.record⟩
    · exact .mono (prefix_record _) hb hmem
  | succ n ih =>
    rcases h with ⟨hseen, hclosed⟩ | ⟨b, hb, hmem⟩
    swap
    · exact .mono (prefix_visits _ _ _) hb hmem
    by_cases hlate : ∃ b, Late succ bound all b ∧ (b, bound) ∈ seen
    · obtain ⟨b, hb, hmem⟩ := hlate
      exact .mono (prefix_visits _ _ _) hb hmem
    rw [Graph.visits]
    split
    next ha =>
      left
      have hmem : ∀ e ∈ walks succ (n + 1) k a, e ∈ all := by
        intro e he
        rw [hall]
        simp [he]
      have hfirst : ∀ e ∈ seen, e ∈ recordAll [] all := by
        rw [hseen, hall, List.append_assoc, recordAll_append]
        exact fun e he => prefix_recordAll.subset he
      have hbelow := walks_seen hacyclic hclosed hfirst hbound
        (fun b hb hmem => hlate ⟨b, hb, hmem⟩) hnk hmem hactive ha
      rw [recordAll_append, ← hseen, recordAll_of_seen hbelow]
      exact ⟨rfl, hclosed⟩
    next ha =>
      have hrecord : recordAll [] (pre ++ [(a, k)]) = seen ++ [(a, k)] := by
        rw [recordAll_append, ← hseen]
        exact if_neg ha
      have hstart : Agrees succ bound (fun o => active o ∨ o = a) all (pre ++ [(a, k)])
          (seen ++ [(a, k)]) := .inl ⟨hrecord.symm, hclosed.enter a k⟩
      have hactive' : ∀ c ∈ succ a, ∀ o, active o ∨ o = a →
          TransGen (fun a b => b ∈ succ a) o c := by
        rintro c hc o (ho | rfl)
        · exact (hactive o ho).tail hc
        · exact .single hc
      have hwalks : pre ++ walks succ (n + 1) k a =
          pre ++ [(a, k)] ++ (succ a).flatMap (walks succ n (k + 1)) := by
        rw [walks, List.append_assoc, List.singleton_append]
      rw [hwalks] at hall ⊢
      have hloop := agrees_loop
        (fun c hc pre rest seen hall h => ih (by omega) (hactive' c hc) hall h) hall hstart
      rcases hloop with ⟨hseen', hclosed'⟩ | hlate'
      · refine .inl ⟨hseen', hclosed'.leave fun c hc => ?_⟩
        rw [hseen']
        apply mem_recordAll_keys (e := (c, k + 1))
        exact List.mem_append_right _ (List.mem_flatMap.mpr ⟨c, hc, head_mem_walks _ _ _⟩)
      · exact .inr hlate'

/-- The traversal of an acyclic graph visits the vertices where the walks first meet them,
or it visits a late vertex. -/
theorem visits_eq_or_late (hacyclic : ∀ a, ¬ TransGen (fun a b => b ∈ succ a) a a)
    (bound : ℕ) (a : α) :
    visits succ bound 0 a [] = recordAll [] (walks succ bound 0 a) ∨
      ∃ b, Late succ bound (walks succ bound 0 a) b ∧ (b, bound) ∈ visits succ bound 0 a [] := by
  have hbound : ∀ e ∈ walks succ bound 0 a, e.2 ≤ bound := by
    rintro ⟨b, j⟩ he
    obtain ⟨i, hi, rfl, -⟩ := mem_walks.mp he
    omega
  have hstart : Agrees succ bound (fun _ => False) (walks succ bound 0 a) [] [] :=
    .inl ⟨rfl, fun e he => absurd he List.not_mem_nil⟩
  rcases hstart.visits hacyclic hbound (Nat.add_zero bound) (fun _ => False.elim)
    (by rw [List.nil_append, List.append_nil]) with ⟨hvisits, -⟩ | hlate
  · exact .inl hvisits
  · exact .inr hlate

/-- A vertex is visited once. -/
theorem nodup_visits (n k : ℕ) (a : α) (h : (seen.map Prod.fst).Nodup) :
    ((visits succ n k a seen).map Prod.fst).Nodup := by
  induction n generalizing k a seen with
  | zero =>
    show ((recordAll seen [(a, k)]).map Prod.fst).Nodup
    exact nodup_recordAll h
  | succ n ih =>
    rw [visits]
    split
    next => exact h
    next hnot =>
      refine List.foldlRecOn (motive := fun s : List (α × ℕ) => (s.map Prod.fst).Nodup) _ _ ?_
        fun seen' h b _ => ih (k + 1) b h
      rw [List.map_append]
      exact h.append (List.nodup_singleton _) (by simpa using hnot)

end CargosBuildroot.Graph
