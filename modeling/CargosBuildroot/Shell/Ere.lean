import CargosBuildroot.Shell.Words
import Mathlib.Data.List.Forall2
import Mathlib.Data.List.Infix

/-! Extended regular expressions, as `grep -E` reads them. A pattern is read by a pass over its
characters, which keeps the groups that are open. What an expression describes is said for a
text between the beginning and the end of a line, so that the anchors have a meaning. -/

namespace CargosBuildroot.Shell

inductive Ere
  | empty
  | one (p : Char → Bool)
  | start
  | finish
  | seq (r s : Ere)
  | alt (r s : Ere)
  | star (r : Ere)

namespace Ere

/-- The expression describes the text, which begins a line or does not, and ends one or does not. -/
inductive Matches : Ere → Bool → Bool → Text → Prop
  | empty {first last : Bool} : Matches .empty first last []
  | one {p : Char → Bool} {c : Char} {first last : Bool} (h : p c = true) : Matches (.one p) first last [c]
  | start {last : Bool} : Matches .start true last []
  | finish {first : Bool} : Matches .finish first true []
  | seq {r s : Ere} {first last : Bool} {u v : Text} (hr : Matches r first (last && v.isEmpty) u)
      (hs : Matches s (first && u.isEmpty) last v) : Matches (.seq r s) first last (u ++ v)
  | left {r s : Ere} {first last : Bool} {u : Text} (hr : Matches r first last u) :
      Matches (.alt r s) first last u
  | right {r s : Ere} {first last : Bool} {u : Text} (hs : Matches s first last u) :
      Matches (.alt r s) first last u
  | nil {r : Ere} {first last : Bool} : Matches (.star r) first last []
  | more {r : Ere} {first last : Bool} {u v : Text} (hr : Matches r first (last && v.isEmpty) u)
      (hs : Matches (.star r) (first && u.isEmpty) last v) : Matches (.star r) first last (u ++ v)

/-- The expression describes a part of the line. -/
def Finds (r : Ere) (line : Text) : Prop :=
  ∃ a u b, line = a ++ u ++ b ∧ Matches r a.isEmpty b.isEmpty u

/-! ### Search -/

/-- What may be left after rounds of `rests` that take something. -/
def starRests (rests : Bool → Text → List Text) : ℕ → Bool → Text → List Text
  | 0, _, t => [t]
  | n + 1, first, t => t :: ((rests first t).filter (·.length < t.length)).flatMap (starRests rests n false)

/-- What may be left of a text after a part of it that the expression describes. -/
def rests : Ere → Bool → Text → List Text
  | .empty, _, t => [t]
  | .one p, _, c :: t => if p c then [t] else []
  | .one _, _, [] => []
  | .start, first, t => if first then [t] else []
  | .finish, _, t => if t = [] then [t] else []
  | .seq r s, first, t => (r.rests first t).flatMap fun t' => s.rests (first && t'.length = t.length) t'
  | .alt r s, first, t => r.rests first t ++ s.rests first t
  | .star r, first, t => starRests r.rests t.length first t

/-- `grep -E` selects the line. -/
def finds (r : Ere) (line : Text) : Bool :=
  line.tails.any fun t => r.rests (t.length = line.length) t ≠ []

/-- `rests` gives what is left after the parts that the expression describes. -/
def Sound (r : Ere) : Prop :=
  ∀ first t t', t' ∈ r.rests first t ↔ ∃ u, t = u ++ t' ∧ Matches r first t'.isEmpty u

variable {r s : Ere} {first last : Bool} {t t' u v : Text}

theorem isEmpty_append (u v : Text) : (u ++ v).isEmpty = (v.isEmpty && u.isEmpty) := by
  cases u <;> cases v <;> rfl

theorem decide_length_eq (u t : Text) : decide (t.length = (u ++ t).length) = u.isEmpty := by
  cases u with
  | nil => exact decide_eq_true rfl
  | cons c u =>
    refine decide_eq_false ?_
    rw [List.cons_append, List.length_cons, List.length_append]
    omega

theorem sound_seq (hr : Sound r) (hs : Sound s) : Sound (.seq r s) := by
  intro first t t''
  have hfirst (u t' : Text) : (first && decide (t'.length = (u ++ t').length)) = (first && u.isEmpty) := by
    rw [decide_length_eq]
  rw [rests, List.mem_flatMap]
  constructor
  · rintro ⟨t', hmem, hmem'⟩
    obtain ⟨u, rfl, hu⟩ := (hr first t t').mp hmem
    obtain ⟨v, rfl, hv⟩ := (hs _ t' t'').mp hmem'
    rw [hfirst] at hv
    rw [isEmpty_append] at hu
    exact ⟨u ++ v, (List.append_assoc _ _ _).symm, .seq hu hv⟩
  · rintro ⟨w, rfl, hw⟩
    cases hw with
    | @seq _ _ _ _ u v hu hv =>
      refine ⟨v ++ t'', (hr _ _ _).mpr ⟨u, List.append_assoc _ _ _, ?_⟩, (hs _ _ _).mpr ⟨v, rfl, ?_⟩⟩
      · rwa [isEmpty_append]
      · rwa [List.append_assoc, hfirst]

theorem mem_starRests_self (n : ℕ) : t ∈ starRests r.rests n first t := by
  cases n with
  | zero => exact List.mem_singleton_self t
  | succ n => exact List.mem_cons_self

/-- The rounds that take nothing can be left out. -/
theorem mem_starRests (hr : Sound r) {w : Text} (h : Matches (.star r) first last w) {n : ℕ}
    (hlast : last = t'.isEmpty) (hn : (w ++ t').length ≤ n) : t' ∈ starRests r.rests n first (w ++ t') := by
  generalize hs : Ere.star r = s at h
  induction h generalizing n with
  | empty | one | start | finish | seq | left | right => cases hs
  | nil => exact mem_starRests_self n
  | @more r' first last u v hu hv _ ih =>
    cases hs
    rcases u with _ | ⟨c, u⟩
    · rw [List.isEmpty_nil, Bool.and_true] at ih
      exact ih hlast hn rfl
    · rcases n with _ | n
      · simp at hn
      rw [starRests, List.mem_cons, List.mem_flatMap]
      refine .inr ⟨v ++ t', List.mem_filter.mpr ⟨(hr _ _ _).mpr ⟨c :: u, List.append_assoc _ _ _, ?_⟩, ?_⟩, ?_⟩
      · rwa [isEmpty_append, ← hlast]
      · refine decide_eq_true ?_
        simp only [List.length_append, List.length_cons]
        omega
      · rw [List.isEmpty_cons, Bool.and_false] at ih
        refine ih hlast ?_ rfl
        simp only [List.length_append, List.length_cons] at hn ⊢
        omega

theorem exists_of_mem_starRests (hr : Sound r) {n : ℕ} (h : t' ∈ starRests r.rests n first t) :
    ∃ u, t = u ++ t' ∧ Matches (.star r) first t'.isEmpty u := by
  induction n generalizing first t with
  | zero =>
    rw [List.mem_singleton.mp h]
    exact ⟨[], rfl, .nil⟩
  | succ n ih =>
    rw [starRests, List.mem_cons] at h
    rcases h with rfl | h
    · exact ⟨[], rfl, .nil⟩
    · obtain ⟨m, hm, hmem⟩ := List.mem_flatMap.mp h
      obtain ⟨hm, hlt⟩ := List.mem_filter.mp hm
      obtain ⟨u, rfl, hu⟩ := (hr first t m).mp hm
      obtain ⟨v, rfl, hv⟩ := ih hmem
      have hne : u.isEmpty = false := by
        cases u with
        | nil => simp at hlt
        | cons => rfl
      rw [isEmpty_append] at hu
      refine ⟨u ++ v, (List.append_assoc _ _ _).symm, .more hu ?_⟩
      rwa [hne, Bool.and_false]

theorem sound (r : Ere) : Sound r := by
  induction r with
  | empty =>
    intro first t t'
    rw [rests, List.mem_singleton]
    constructor
    · rintro rfl
      exact ⟨[], rfl, .empty⟩
    · rintro ⟨u, rfl, h⟩
      cases h
      rfl
  | one p =>
    intro first t t'
    constructor
    · intro h
      cases t with
      | nil => cases h
      | cons c t =>
        rw [rests] at h
        split at h
        next hc =>
          rw [List.mem_singleton.mp h]
          exact ⟨[c], rfl, .one hc⟩
        next => cases h
    · rintro ⟨u, rfl, h⟩
      cases h with
      | one h =>
        rw [List.singleton_append, rests, if_pos h]
        exact List.mem_singleton_self _
  | start =>
    intro first t t'
    rw [rests]
    constructor
    · intro h
      split at h
      next hfirst =>
        rw [List.mem_singleton.mp h, hfirst]
        exact ⟨[], rfl, .start⟩
      next => cases h
    · rintro ⟨u, rfl, h⟩
      cases h
      exact List.mem_singleton_self _
  | finish =>
    intro first t t'
    rw [rests]
    constructor
    · intro h
      split at h
      next hempty =>
        rw [List.mem_singleton.mp h, hempty]
        exact ⟨[], rfl, .finish⟩
      next => cases h
    · rintro ⟨u, rfl, h⟩
      generalize hlast : t'.isEmpty = last at h
      cases h
      rw [List.isEmpty_iff.mp hlast]
      exact List.mem_singleton_self _
  | seq r s hr hs => exact sound_seq hr hs
  | alt r s hr hs =>
    intro first t t'
    rw [rests, List.mem_append, hr, hs]
    constructor
    · rintro (⟨u, hu, h⟩ | ⟨u, hu, h⟩)
      · exact ⟨u, hu, .left h⟩
      · exact ⟨u, hu, .right h⟩
    · rintro ⟨u, hu, h⟩
      cases h with
      | left h => exact .inl ⟨u, hu, h⟩
      | right h => exact .inr ⟨u, hu, h⟩
  | star r hr =>
    intro first t t'
    refine ⟨exists_of_mem_starRests hr, ?_⟩
    rintro ⟨u, rfl, h⟩
    exact mem_starRests hr h rfl le_rfl

/-- The search finds what the expression describes. -/
theorem finds_iff (r : Ere) (line : Text) : r.finds line = true ↔ r.Finds line := by
  rw [finds, List.any_eq_true]
  constructor
  · rintro ⟨t, ht, hne⟩
    obtain ⟨a, rfl⟩ := (List.mem_tails t line).mp ht
    obtain ⟨b, hb⟩ := List.exists_mem_of_ne_nil _ (of_decide_eq_true hne)
    obtain ⟨u, rfl, hu⟩ := (sound r _ _ b).mp hb
    rw [decide_length_eq] at hu
    exact ⟨a, u, b, (List.append_assoc _ _ _).symm, hu⟩
  · rintro ⟨a, u, b, rfl, hu⟩
    refine ⟨u ++ b, (List.mem_tails _ _).mpr ⟨a, (List.append_assoc _ _ _).symm⟩, decide_eq_true ?_⟩
    refine List.ne_nil_of_mem ((sound r _ _ b).mpr ⟨u, rfl, ?_⟩)
    rwa [List.append_assoc, decide_length_eq]

/-! ### Patterns -/

/-- Why a pattern has no expression. -/
inductive Fault
  /-- A bracket or a parenthesis that is not closed. -/
  | invalid
  /-- An interval or a class, or something that is left to the program. -/
  | other
  deriving DecidableEq

/-- Where the pass is in a pattern. -/
inductive Mode
  | plain
  | escape
  | opened
  /-- In brackets, with the characters so far and the one that a range may begin at. -/
  | brackets (complement : Bool) (ranges : List (Char × Char)) (last : Option Char)
  | range (complement : Bool) (ranges : List (Char × Char)) (low : Char)

/-- The pieces of a branch, the last one first, the branches before it, and those of the groups
around it. -/
structure Reader where
  mode : Mode := .plain
  branch : List Ere := []
  branches : List Ere := []
  groups : List (List Ere × List Ere) := []

namespace Reader

/-- The expression of a group. -/
def close (p : Reader) : Ere :=
  p.branches.foldl (fun r s => .alt s r) (p.branch.reverse.foldr .seq .empty)

def add (p : Reader) (r : Ere) : Reader := { p with mode := .plain, branch := r :: p.branch }

/-- `*`, `+` and `?`, which need something to repeat. -/
def repeated (p : Reader) (f : Ere → Ere) : Except Fault Reader :=
  match p.branch with
  | [] | .start :: _ | .finish :: _ => .error .other
  | r :: rest => .ok { p with branch := f r :: rest }

def plain (p : Reader) (c : Char) : Except Fault Reader :=
  match c with
  | '.' => .ok (p.add (.one fun _ => true))
  | '^' => .ok (p.add .start)
  | '$' => .ok (p.add .finish)
  | '*' => p.repeated .star
  | '+' => p.repeated fun r => .seq r (.star r)
  | '?' => p.repeated fun r => .alt r .empty
  | '|' => .ok { p with branch := [], branches := p.branch.reverse.foldr .seq .empty :: p.branches }
  | '(' => .ok { p with branch := [], branches := [], groups := (p.branch, p.branches) :: p.groups }
  | ')' =>
    match p.groups with
    | [] => .error .other
    | (branch, branches) :: groups =>
      .ok { p with branch := p.close :: branch, branches := branches, groups := groups }
  | '[' => .ok { p with mode := .opened }
  | '\\' => .ok { p with mode := .escape }
  | '{' | '\n' => .error .other
  | c => .ok (p.add (.one (· = c)))

/-- A character in brackets. -/
def inBrackets (p : Reader) (complement : Bool) (ranges : List (Char × Char)) (last : Option Char)
    (c : Char) : Except Fault Reader :=
  if c = '-' ∧ last.isSome then .ok { p with mode := .range complement ranges (last.getD c) }
  else if c = '\n' ∨ (last = some '[' ∧ c ∈ ".:=".toList) then .error .other
  else .ok { p with mode := .brackets complement ((c, c) :: ranges) (some c) }

/-- The bracket that closes. -/
def inSet (p : Reader) (complement : Bool) (ranges : List (Char × Char)) : Reader :=
  p.add (.one fun c => (ranges.any fun e => e.1 ≤ c ∧ c ≤ e.2) != complement)

def step (p : Reader) (c : Char) : Except Fault Reader :=
  match p.mode with
  | .plain => p.plain c
  | .escape => if c ∈ "^.[$()|*+?\x7b\\".toList then .ok (p.add (.one (· = c))) else .error .other
  | .opened =>
    if c = '^' then .ok { p with mode := .brackets true [] none } else p.inBrackets false [] none c
  | .brackets complement ranges last =>
    if c = ']' ∧ ranges ≠ [] then .ok (p.inSet complement ranges) else p.inBrackets complement ranges last c
  | .range complement ranges low =>
    if c = ']' then .ok (p.inSet complement (('-', '-') :: ranges))
    else if c = '[' ∨ c = '-' ∨ c = '\n' ∨ c < low then .error .other
    else .ok { p with mode := .brackets complement ((low, c) :: ranges) none }

def finish (p : Reader) : Except Fault Ere :=
  match p.mode, p.groups with
  | .plain, [] => .ok p.close
  | .escape, _ => .error .other
  | _, _ => .error .invalid

end Reader

def parse (pattern : Text) : Except Fault Ere := (pattern.foldlM Reader.step {}).bind Reader.finish

/-! ### Characters and dots -/

/-- A character without a meaning, or a dot. -/
def isLiteral (c : Char) : Bool := c ∉ "^[$()|*+?\x7b\\\n".toList

def piece (c : Char) : Ere := if c = '.' then .one fun _ => true else .one (· = c)

/-- The characters in turn, and the end of the line. -/
def literal (pattern : Text) : Ere := (pattern.map piece).foldr seq (.seq .finish .empty)

theorem step_literal {p : Reader} {c : Char} (hmode : p.mode = .plain) (hc : isLiteral c = true) :
    p.step c = .ok (p.add (piece c)) := by
  have hstep : p.step c = p.plain c := by
    rw [Reader.step, hmode]
  rw [hstep]
  unfold Reader.plain piece
  split
  case h_1 => rfl
  case h_14 h _ _ _ _ _ _ _ _ _ _ _ _ => rw [if_neg h]
  all_goals cases hc

theorem foldlM_literal {pattern : Text} (h : ∀ c ∈ pattern, isLiteral c = true) (p : Reader)
    (hmode : p.mode = .plain) : pattern.foldlM Reader.step p =
      .ok { p with mode := .plain, branch := (pattern.map piece).reverse ++ p.branch } := by
  induction pattern generalizing p with
  | nil =>
    rw [← hmode]
    rfl
  | cons c pattern ih =>
    rw [List.foldlM_cons, step_literal hmode (h c (.head _))]
    refine (ih (fun c hc => h c (.tail _ hc)) _ rfl).trans ?_
    simp [Reader.add]

/-- A pattern of literal characters and dots at the end of the line. -/
theorem parse_literal {pattern : Text} (h : ∀ c ∈ pattern, isLiteral c = true) :
    parse (pattern ++ ['$']) = .ok (literal pattern) := by
  rw [parse, List.foldlM_append, foldlM_literal h _ rfl]
  simp [Reader.step, Reader.plain, Reader.add, Reader.finish, Reader.close, literal, bind, Except.bind, pure, Except.pure]

theorem matches_piece {c : Char} : Matches (.seq (piece c) r) first last u ↔
    ∃ d v, u = d :: v ∧ (c = '.' ∨ c = d) ∧ Matches r false last v := by
  have hpiece : ∀ {f l w}, Matches (piece c) f l w ↔ ∃ d, w = [d] ∧ (c = '.' ∨ c = d) := by
    intro f l w
    unfold piece
    split
    next hdot =>
      refine ⟨fun h => ?_, fun ⟨d, hw, _⟩ => hw ▸ .one rfl⟩
      cases h
      exact ⟨_, rfl, .inl hdot⟩
    next hdot =>
      refine ⟨fun h => ?_, fun ⟨d, hw, hd⟩ => hw ▸ .one (decide_eq_true (hd.resolve_left hdot).symm)⟩
      cases h with
      | one h => exact ⟨_, rfl, .inr (of_decide_eq_true h).symm⟩
  constructor
  · intro h
    cases h with
    | seq hc hr =>
      obtain ⟨d, rfl, hd⟩ := hpiece.mp hc
      rw [List.isEmpty_cons, Bool.and_false] at hr
      exact ⟨d, _, rfl, hd, hr⟩
  · rintro ⟨d, v, rfl, hd, hr⟩
    refine @Matches.seq _ _ _ _ [d] v (hpiece.mpr ⟨d, rfl, hd⟩) ?_
    rwa [List.isEmpty_cons, Bool.and_false]

theorem matches_finish : Matches (.seq .finish .empty) first last u ↔ last = true ∧ u = [] := by
  constructor
  · intro h
    cases h with
    | seq hr hs =>
      cases hs
      rw [List.isEmpty_nil, Bool.and_true] at hr
      cases hr
      exact ⟨rfl, rfl⟩
  · rintro ⟨rfl, rfl⟩
    exact @Matches.seq _ _ _ _ [] [] .finish .empty

theorem matches_literal {pattern : Text} :
    Matches (literal pattern) first last u ↔
      last = true ∧ List.Forall₂ (fun p c => p = '.' ∨ p = c) pattern u := by
  induction pattern generalizing first u with
  | nil =>
    rw [List.forall₂_nil_left_iff, ← matches_finish]
    rfl
  | cons p pattern ih =>
    rw [literal, List.map_cons, List.foldr_cons, matches_piece, List.forall₂_cons_left_iff]
    constructor
    · rintro ⟨d, v, rfl, hd, hr⟩
      obtain ⟨hlast, hall⟩ := ih.mp hr
      exact ⟨hlast, d, v, hd, hall, rfl⟩
    · rintro ⟨hlast, d, v, hd, hall, rfl⟩
      exact ⟨d, v, rfl, hd, ih.mpr ⟨hlast, hall⟩⟩

/-- The lines that a pattern of literal characters and dots finds. -/
theorem finds_literal {pattern line : Text} :
    Finds (literal pattern) line ↔
      ∃ a w, line = a ++ w ∧ List.Forall₂ (fun p c => p = '.' ∨ p = c) pattern w := by
  constructor
  · rintro ⟨a, u, b, rfl, h⟩
    obtain ⟨hlast, hall⟩ := matches_literal.mp h
    rw [List.isEmpty_iff.mp hlast, List.append_nil]
    exact ⟨a, u, rfl, hall⟩
  · rintro ⟨a, w, rfl, hall⟩
    exact ⟨a, w, [], (List.append_nil _).symm, matches_literal.mpr ⟨rfl, hall⟩⟩

end Ere

end CargosBuildroot.Shell
