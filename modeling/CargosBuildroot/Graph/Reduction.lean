import Mathlib.Data.Finset.Card
import Mathlib.Data.Finset.Filter
import Mathlib.Data.Finset.Max
import Mathlib.Logic.Relation

/-! Transitive reduction of a relation at one vertex. A rank that falls along every
edge rules out cycles and bounds the length of a path; an acyclic relation with
finitely many sources has one. The successors of a vertex that no other successor
reaches still reach all of them, so the edges to the others can be dropped without
a change of reachability. -/

namespace CargosBuildroot.Graph

open Relation

variable {α : Type*} {R R' : α → α → Prop} {rank : α → ℕ}

/-- The rank falls along every edge. -/
def Ranked (R : α → α → Prop) (rank : α → ℕ) : Prop := ∀ ⦃a b⦄, R a b → rank b < rank a

theorem Ranked.mono (h : Ranked R rank) (hle : ∀ ⦃a b⦄, R' a b → R a b) : Ranked R' rank :=
  fun _ _ hab => h (hle hab)

theorem Ranked.lt (h : Ranked R rank) {a b : α} (hab : TransGen R a b) : rank b < rank a := by
  induction hab with
  | single hab => exact h hab
  | tail _ hbc ih => exact (h hbc).trans ih

theorem Ranked.acyclic (h : Ranked R rank) (a : α) : ¬ TransGen R a a :=
  fun haa => lt_irrefl _ (h.lt haa)

/-- The number of sources below a vertex is a rank of an acyclic relation. -/
theorem exists_ranked (sources : List α) (hsources : ∀ a b, R a b → a ∈ sources)
    (hacyclic : ∀ a, ¬ TransGen R a a) :
    ∃ rank : α → ℕ, Ranked R rank ∧ ∀ a, rank a ≤ sources.length := by
  classical
  refine ⟨fun a => (sources.toFinset.filter (ReflTransGen R a)).card, ?_, ?_⟩
  · intro a b hab
    apply Finset.card_lt_card
    rw [Finset.ssubset_iff_of_subset]
    · refine ⟨a, ?_, ?_⟩
      · rw [Finset.mem_filter, List.mem_toFinset]
        exact ⟨hsources a b hab, .refl⟩
      · rw [Finset.mem_filter]
        rintro ⟨-, hba⟩
        exact hacyclic a (TransGen.head' hab hba)
    · intro c hc
      rw [Finset.mem_filter] at hc ⊢
      exact ⟨hc.1, .head hab hc.2⟩
  · intro a
    exact (Finset.card_filter_le _ _).trans sources.toFinset_card_le

/-- The members of a list that no member reaches still reach all its members. -/
theorem Ranked.exists_unreached (h : Ranked R rank) {l : List α} {a : α} (ha : a ∈ l) :
    ∃ b ∈ l, (∀ c ∈ l, ¬ TransGen R c b) ∧ ReflTransGen R b a := by
  classical
  -- the highest of the members that reach `a`
  obtain ⟨b, hb, hmax⟩ := (l.toFinset.filter (ReflTransGen R · a)).exists_max_image rank
    ⟨a, by simpa using ⟨ha, ReflTransGen.refl⟩⟩
  simp only [Finset.mem_filter, List.mem_toFinset] at hb hmax
  refine ⟨b, hb.1, ?_, hb.2⟩
  intro c hc hcb
  have hle := hmax c ⟨hc, hcb.to_reflTransGen.trans hb.2⟩
  have hlt := h.lt hcb
  omega

/-- A path that starts below `a` does not use an edge of `a`. -/
theorem reflTransGen_below (hacyclic : ∀ a, ¬ TransGen R a a) {a b c : α}
    (hsame : ∀ p q, p ≠ a → R p q → R' p q) (hab : TransGen R a b)
    (hbc : ReflTransGen R b c) : ReflTransGen R' b c := by
  induction hbc using ReflTransGen.head_induction_on with
  | refl => exact .refl
  | @head b d hbd _ ih =>
    have hne : b ≠ a := by
      rintro rfl
      exact hacyclic b hab
    exact .head (hsame b d hne hbd) (ih (hab.tail hbd))

/-- Dropping edges of `a` to vertices that its kept successors reach leaves
reachability unchanged. -/
theorem transGen_replace (hacyclic : ∀ a, ¬ TransGen R a a) {a : α}
    (hle : ∀ p q, R' p q → R p q) (hsame : ∀ p q, p ≠ a → R p q → R' p q)
    (hcover : ∀ q, R a q → ∃ k, R' a k ∧ ReflTransGen R k q) (p q : α) :
    TransGen R' p q ↔ TransGen R p q := by
  have hedge : ∀ p q, R p q → TransGen R' p q := by
    intro p q hpq
    by_cases hp : p = a
    · subst hp
      obtain ⟨k, hk, hkq⟩ := hcover q hpq
      exact TransGen.head' hk (reflTransGen_below hacyclic hsame (.single (hle _ _ hk)) hkq)
    · exact .single (hsame p q hp hpq)
  constructor
  · exact TransGen.mono hle p q
  · intro hpq
    exact TransGen.trans_induction_on hpq (fun h => hedge _ _ h) (fun _ _ => TransGen.trans)

end CargosBuildroot.Graph
