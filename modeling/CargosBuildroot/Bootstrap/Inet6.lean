import CargosBuildroot.Bootstrap.CloudCommands
import CargosBuildroot.Sed.Substitute
import Mathlib.Data.List.Forall2

/-! The check of an IPv6 address in `rc.bootstrap`. The groups of the text are filled up with zeroes
to four digits, in a loop that ends when nothing changes any more, the two colons of `::` are
replaced by as many groups as are missing, and the result is right if it has 39 characters. -/

namespace CargosBuildroot.Bootstrap

open Shell Sed

/-! ### Patterns -/

/-- `[0-9a-f]` -/
def lowerHex (c : Char) : Bool := ('0' ≤ c && c ≤ '9') || ('a' ≤ c && c ≤ 'f')

/-- `\([0-9a-f]\{n\}\)`, and what follows it -/
def hexDigits (n : ℕ) (t : Text) : Option (Text × Text) :=
  if (t.take n).length = n ∧ (t.take n).all lowerHex = true then some (t.take n, t.drop n) else none

/-- The digits with zeroes before them. -/
def filled (g : Text) : Text := List.replicate (4 - g.length) '0' ++ g

theorem hexDigits_eq_some {n : ℕ} {t g r : Text} :
    hexDigits n t = some (g, r) ↔ t = g ++ r ∧ g.length = n ∧ ∀ c ∈ g, lowerHex c = true := by
  rw [hexDigits]
  constructor
  · intro h
    split_ifs at h with hif
    obtain ⟨rfl, rfl⟩ := Prod.mk.inj (Option.some_inj.mp h)
    exact ⟨(List.take_append_drop n t).symm, hif.1, List.all_eq_true.mp hif.2⟩
  · rintro ⟨rfl, rfl, hg⟩
    rw [List.take_left, List.drop_left, if_pos ⟨rfl, List.all_eq_true.mpr hg⟩]

/-- `s|:\([0-9a-f]\{n\}\):|:0…\1:|` -/
def findBetween (n : ℕ) : Text → Option (Text × ℕ)
  | ':' :: t =>
    match hexDigits n t with
    | some (g, ':' :: _) => some (':' :: (filled g ++ [':']), n + 2)
    | _ => none
  | _ => none

/-- `s|:\([0-9a-f]\{n\}\)$|:0…\1|` -/
def findLast (n : ℕ) : Text → Option (Text × ℕ)
  | ':' :: t =>
    match hexDigits n t with
    | some (g, []) => some (':' :: filled g, n + 1)
    | _ => none
  | _ => none

/-- `s|^\([0-9a-f]\{n\}\):|0…\1:|` -/
def findFirst (n : ℕ) (t : Text) : Option (Text × ℕ) :=
  match hexDigits n t with
  | some (g, ':' :: _) => some (filled g ++ [':'], n + 1)
  | _ => none

theorem findBetween_eq_some {n k : ℕ} {t rep : Text} :
    findBetween n t = some (rep, k) ↔
      ∃ g r, t = ':' :: (g ++ ':' :: r) ∧ g.length = n ∧ (∀ c ∈ g, lowerHex c = true) ∧
        rep = ':' :: (filled g ++ [':']) ∧ k = n + 2 := by
  constructor
  · intro h
    unfold findBetween at h
    split at h
    · split at h
      · rename_i t g r heq
        obtain ⟨rfl, hlength, hg⟩ := hexDigits_eq_some.mp heq
        obtain ⟨rfl, rfl⟩ := Prod.mk.inj (Option.some_inj.mp h)
        exact ⟨g, r, rfl, hlength, hg, rfl, rfl⟩
      · cases h
    · cases h
  · rintro ⟨g, r, rfl, hlength, hg, rfl, rfl⟩
    rw [findBetween, hexDigits_eq_some.mpr ⟨rfl, hlength, hg⟩]
    rfl

theorem findLast_eq_some {n k : ℕ} {t rep : Text} :
    findLast n t = some (rep, k) ↔
      ∃ g, t = ':' :: g ∧ g.length = n ∧ (∀ c ∈ g, lowerHex c = true) ∧
        rep = ':' :: filled g ∧ k = n + 1 := by
  constructor
  · intro h
    unfold findLast at h
    split at h
    · split at h
      · rename_i t g heq
        obtain ⟨rfl, hlength, hg⟩ := hexDigits_eq_some.mp heq
        obtain ⟨rfl, rfl⟩ := Prod.mk.inj (Option.some_inj.mp h)
        exact ⟨g, by rw [List.append_nil], hlength, hg, rfl, rfl⟩
      · cases h
    · cases h
  · rintro ⟨g, rfl, hlength, hg, rfl, rfl⟩
    rw [findLast, hexDigits_eq_some.mpr ⟨(List.append_nil g).symm, hlength, hg⟩]

theorem findFirst_eq_some {n k : ℕ} {t rep : Text} :
    findFirst n t = some (rep, k) ↔
      ∃ g r, t = g ++ ':' :: r ∧ g.length = n ∧ (∀ c ∈ g, lowerHex c = true) ∧
        rep = filled g ++ [':'] ∧ k = n + 1 := by
  constructor
  · intro h
    unfold findFirst at h
    split at h
    · rename_i g r heq
      obtain ⟨rfl, hlength, hg⟩ := hexDigits_eq_some.mp heq
      obtain ⟨rfl, rfl⟩ := Prod.mk.inj (Option.some_inj.mp h)
      exact ⟨g, r, rfl, hlength, hg, rfl, rfl⟩
    · cases h
  · rintro ⟨g, r, rfl, hlength, hg, rfl, rfl⟩
    rw [findFirst, hexDigits_eq_some.mpr ⟨rfl, hlength, hg⟩]
    rfl

def betweenColons (n : ℕ) : Pattern Char where
  find := findBetween n
  proper h := by
    obtain ⟨g, r, rfl, rfl, -, -, rfl⟩ := findBetween_eq_some.mp h
    simp only [List.length_cons, List.length_append]
    omega

def beforeEnd (n : ℕ) : Pattern Char where
  find := findLast n
  proper h := by
    obtain ⟨g, rfl, rfl, -, -, rfl⟩ := findLast_eq_some.mp h
    simp only [List.length_cons]
    omega

def atStart (n : ℕ) : Pattern Char where
  find := findFirst n
  proper h := by
    obtain ⟨g, r, rfl, rfl, -, -, rfl⟩ := findFirst_eq_some.mp h
    simp only [List.length_cons, List.length_append]
    omega

/-- `s|\(.\)::\(.\)|\1$_zeroes:\2|` -/
def innerPair (zeroes : Text) : Pattern Char where
  find
    | a :: ':' :: ':' :: b :: _ => some (a :: (zeroes ++ [':', b]), 4)
    | _ => none
  proper h := by
    split at h
    · obtain ⟨rfl, rfl⟩ := Prod.mk.inj (Option.some_inj.mp h)
      simp only [List.length_cons]
      omega
    · cases h

/-- `s|\(.\)::$|\1$_zeroes:0000|` -/
def lastPair (zeroes : Text) : Pattern Char where
  find
    | [a, ':', ':'] => some (a :: (zeroes ++ ":0000".toList), 3)
    | _ => none
  proper h := by
    split at h
    · obtain ⟨rfl, rfl⟩ := Prod.mk.inj (Option.some_inj.mp h)
      exact ⟨by decide, le_refl _⟩
    · cases h

/-- `s|^::\(.\)|$_zeroes:0000:\1|` -/
def firstPair (zeroes : Text) : Pattern Char where
  find
    | ':' :: ':' :: b :: _ => some (zeroes ++ ":0000:".toList ++ [b], 3)
    | _ => none
  proper h := by
    split at h
    · obtain ⟨rfl, rfl⟩ := Prod.mk.inj (Option.some_inj.mp h)
      simp only [List.length_cons]
      omega
    · cases h

/-- `s|^:||` -/
def leadingColon : Pattern Char where
  find
    | ':' :: _ => some ([], 1)
    | _ => none
  proper h := by
    split at h
    · obtain ⟨rfl, rfl⟩ := Prod.mk.inj (Option.some_inj.mp h)
      simp only [List.length_cons]
      omega
    · cases h

/-! ### The function -/

/-- The three commands for groups of `n` digits. -/
def fillWords (n : ℕ) (address : Text) : Text :=
  (atStart n).substituteHead ((beforeEnd n).substitute ((betweenColons n).substitute address))

/-- The body of the loop. -/
def fillBody (address : Text) : Text := fillWords 1 (fillWords 2 (fillWords 3 address))

/-- The loop, which ends at a text that the body does not change. -/
def fillLoop : ℕ → Text → Text
  | 0, address => address
  | n + 1, address => if fillBody address = address then address else fillLoop n (fillBody address)

/-- The expansion of `::`. -/
def expandPair (address : Text) : Text :=
  if "::".toList <:+: address then
    let _grps := (address.filter (!lowerHex ·)).length
    let _missing := 8 - _grps
    let _zeroes := (List.replicate _missing ":0000".toList).flatten
    let _address := (innerPair _zeroes).substitute address
    let _address := (lastPair _zeroes).substitute _address
    leadingColon.substituteHead ((firstPair _zeroes).substituteHead _address)
  else address

/-- What the loop and the expansion make of a text. -/
def expandInet6 (address : Text) : Text :=
  expandPair (fillLoop (4 * (address.length + 1)) address)

/-- What the shell makes of a word without quotes, and what `echo -e` prints for a text with or
without a newline. -/
structure Expansion where
  glob : Text → List Text
  interpreted : Bool → Text → Text

/-- The arguments of a command for a text without quotes. -/
def Expansion.arguments (x : Expansion) (line : Text) : List Text := (words line).flatMap x.glob

/-- What `echo` prints. -/
def echo (x : Expansion) (arguments : List Text) : Text := echoArguments x.interpreted arguments

def echoed (x : Expansion) (line : Text) : Text := echo x (x.arguments line)

/-- A shell where words without pattern characters are left alone and `echo -e` changes nothing
without a backslash. -/
structure PlainExpansion extends Expansion where
  glob_literal : ∀ w, (∀ c ∈ w, c ∉ "*?[\\".toList) → glob w = [w]
  interpreted_literal : ∀ newline t, '\\' ∉ t →
    interpreted newline t = t ++ if newline then ['\n'] else []

/-- `is_inet6`, where an expanded address has 39 characters and a newline. -/
def isInet6 (x : PlainExpansion) (address : Text) : Bool :=
  (echoed x.toExpansion (expandInet6 address)).length = 40

/-! ### Filling up -/

/-- A group of one to three digits is filled up, any other is left. -/
def fillGroup (g : Text) : Text :=
  if 1 ≤ g.length ∧ g.length ≤ 3 ∧ ∀ c ∈ g, lowerHex c = true then filled g else g

/-- A text with a colon, with its groups filled up. -/
def written (s : Text) : Text :=
  if ':' ∈ s then [':'].intercalate ((s.splitOn ':').map fillGroup) else s

theorem length_filled {g : Text} (h : g.length ≤ 4) : (filled g).length = 4 := by
  rw [filled, List.length_append, List.length_replicate]
  omega

theorem fillGroup_filled {g : Text} (h : g.length ≤ 4) : fillGroup (filled g) = filled g := by
  rw [fillGroup, if_neg]
  rw [length_filled h]
  omega

theorem fillGroup_fillGroup (g : Text) : fillGroup (fillGroup g) = fillGroup g := by
  by_cases h : 1 ≤ g.length ∧ g.length ≤ 3 ∧ ∀ c ∈ g, lowerHex c = true
  · have heq : fillGroup g = filled g := if_pos h
    rw [heq, fillGroup_filled (by omega)]
  · have heq : fillGroup g = g := if_neg h
    rw [heq, heq]

theorem length_fillGroup (g : Text) :
    g.length ≤ (fillGroup g).length ∧ (fillGroup g).length ≤ 4 * g.length := by
  rw [fillGroup]
  split_ifs with h
  · rw [length_filled (by omega)]
    omega
  · omega

theorem forall_filled {P : Char → Prop} (hzero : P '0') {g : Text} (hg : ∀ c ∈ g, P c) :
    ∀ c ∈ filled g, P c := by
  intro c hc
  rcases List.mem_append.mp hc with hc | hc
  · rw [List.eq_of_mem_replicate hc]
    exact hzero
  · exact hg c hc

theorem forall_fillGroup {P : Char → Prop} (hzero : P '0') {g : Text} (hg : ∀ c ∈ g, P c) :
    ∀ c ∈ fillGroup g, P c := by
  rw [fillGroup]
  split_ifs
  · exact forall_filled hzero hg
  · exact hg

theorem fillGroup_eq_filled {n : ℕ} {g : Text} (hn : 1 ≤ n ∧ n ≤ 3) (hlength : g.length = n)
    (hg : ∀ c ∈ g, lowerHex c = true) : fillGroup g = filled g :=
  if_pos ⟨by omega, by omega, hg⟩

theorem colon_not_mem {g : Text} (h : ∀ c ∈ g, lowerHex c = true) : ':' ∉ g :=
  fun hmem => absurd (h _ hmem) (by decide)

theorem length_splitOn (s : Text) (c : Char) : (s.splitOn c).length = s.count c + 1 := by
  induction s with
  | nil => rfl
  | cons d s ih =>
    rw [List.splitOn_cons_eq_if_modifyHead, List.count_cons]
    split_ifs
    · rw [List.length_cons, ih]
    · rw [List.length_modifyHead, ih, Nat.add_zero]

/-- Some of the groups are filled up. -/
structure Filling (s s' : Text) : Prop where
  plain : ':' ∉ s → s' = s
  groups : List.Forall₂ (fun g g' => g' = g ∨ g' = fillGroup g) (s.splitOn ':') (s'.splitOn ':')

theorem Filling.colon_mem {s s' : Text} (h : Filling s s') : ':' ∈ s' ↔ ':' ∈ s := by
  have hlength := h.groups.length_eq
  rw [length_splitOn, length_splitOn, Nat.add_right_cancel_iff] at hlength
  rw [← List.count_pos_iff, ← List.count_pos_iff, hlength]

theorem Filling.written {s s' : Text} (h : Filling s s') : written s' = written s := by
  have hgroups : (s'.splitOn ':').map fillGroup = (s.splitOn ':').map fillGroup := by
    have hfill := h.groups
    generalize s.splitOn ':' = gs, s'.splitOn ':' = gs' at hfill
    induction hfill with
    | nil => rfl
    | cons hg _ ih =>
      rw [List.map_cons, List.map_cons, ih]
      rcases hg with rfl | rfl
      · rfl
      · rw [fillGroup_fillGroup]
  rw [Bootstrap.written, Bootstrap.written, hgroups]
  by_cases hcolon : ':' ∈ s
  · rw [if_pos hcolon, if_pos (h.colon_mem.mpr hcolon)]
  · rw [if_neg hcolon, if_neg (mt h.colon_mem.mp hcolon), h.plain hcolon]

/-- Each match is a group after a colon, with what ends it, and the group is filled up. -/
def FillsGroups (p : Pattern Char) : Prop :=
  ∀ t rep k, p.find t = some (rep, k) → ∃ g rest, (∀ c ∈ g, lowerHex c = true) ∧
    ((t = ':' :: (g ++ ':' :: rest) ∧ rep = ':' :: (fillGroup g ++ [':']) ∧ t.drop k = rest) ∨
      (t = ':' :: g ∧ rep = ':' :: fillGroup g ∧ t.drop k = []))

theorem splitOn_colon_cons (t : Text) : (':' :: t).splitOn ':' = [] :: t.splitOn ':' := by
  rw [List.splitOn_cons_eq_if_modifyHead, if_pos (by decide)]

theorem splitOn_group {g : Text} (h : ∀ c ∈ g, lowerHex c = true) (t : Text) :
    (':' :: (g ++ ':' :: t)).splitOn ':' = [] :: g :: t.splitOn ':' := by
  rw [splitOn_colon_cons, List.splitOn_append_cons_self_of_not_mem (colon_not_mem h)]

theorem splitOn_last {g : Text} (h : ∀ c ∈ g, lowerHex c = true) :
    (':' :: g).splitOn ':' = [[], g] := by
  rw [splitOn_colon_cons, List.splitOn_eq_singleton (colon_not_mem h)]

/-- The group at the beginning stays, since no colon is before it. -/
theorem FillsGroups.exists_splitOn {p : Pattern Char} (h : FillsGroups p) (t : Text) :
    ∃ g gs gs', t.splitOn ':' = g :: gs ∧ (p.substitute t).splitOn ':' = g :: gs' ∧
      List.Forall₂ (fun g g' => g' = g ∨ g' = fillGroup g) gs gs' := by
  induction t using p.substitute_induction with
  | nil => exact ⟨[], [], [], rfl, rfl, .nil⟩
  | found t rep k hfind ih =>
    obtain ⟨g, rest, hg, ⟨rfl, rfl, hdrop⟩ | ⟨rfl, rfl, hdrop⟩⟩ := h _ _ _ hfind
    · have hfill := forall_fillGroup (P := fun c => lowerHex c = true) rfl hg
      obtain ⟨first, gs, gs', hsplit, hsplit', hgs⟩ := ih
      rw [hdrop] at hsplit hsplit'
      refine ⟨[], g :: first :: gs, fillGroup g :: first :: gs', ?_, ?_, ?_⟩
      · rw [splitOn_group hg, hsplit]
      · have htext : ':' :: (fillGroup g ++ [':']) ++ p.substitute rest =
            ':' :: (fillGroup g ++ ':' :: p.substitute rest) := by simp
        rw [Pattern.substitute_match hfind, hdrop, htext, splitOn_group hfill, hsplit']
      · exact .cons (.inr rfl) (.cons (.inl rfl) hgs)
    · have hfill := forall_fillGroup (P := fun c => lowerHex c = true) rfl hg
      refine ⟨[], [g], [fillGroup g], splitOn_last hg, ?_, .cons (.inr rfl) .nil⟩
      rw [Pattern.substitute_match hfind, hdrop, Pattern.substitute_nil, List.append_nil,
        splitOn_last hfill]
  | cons c t hfind ih =>
    obtain ⟨g, gs, gs', hsplit, hsplit', hgs⟩ := ih
    rw [Pattern.substitute_cons hfind, List.splitOn_cons_eq_if_modifyHead,
      List.splitOn_cons_eq_if_modifyHead, hsplit, hsplit']
    split_ifs
    · exact ⟨[], g :: gs, g :: gs', rfl, rfl, .cons (.inl rfl) hgs⟩
    · exact ⟨c :: g, gs, gs', rfl, rfl, hgs⟩

theorem FillsGroups.filling {p : Pattern Char} (h : FillsGroups p) (t : Text) :
    Filling t (p.substitute t) where
  plain hcolon := by
    refine Pattern.substitute_eq_self fun u hu => ?_
    cases hfind : p.find u with
    | none => rfl
    | some r =>
      obtain ⟨g, rest, -, ⟨rfl, -⟩ | ⟨rfl, -⟩⟩ := h _ _ _ hfind
      · exact absurd (hu.mem (.head _)) hcolon
      · exact absurd (hu.mem (.head _)) hcolon
  groups := by
    obtain ⟨g, gs, gs', hsplit, hsplit', hgs⟩ := h.exists_splitOn t
    rw [hsplit, hsplit']
    exact .cons (.inl rfl) hgs

section

variable {n : ℕ} (hn : 1 ≤ n ∧ n ≤ 3)
include hn

theorem betweenColons_fills : FillsGroups (betweenColons n) := by
  intro t rep k hfind
  obtain ⟨g, r, rfl, rfl, hg, rfl, rfl⟩ := findBetween_eq_some.mp hfind
  refine ⟨g, r, hg, .inl ⟨rfl, ?_, ?_⟩⟩
  · rw [fillGroup_eq_filled hn rfl hg]
  · have htext : ':' :: (g ++ ':' :: r) = ':' :: (g ++ [':']) ++ r := by simp
    rw [htext, List.drop_left' (by simp)]

theorem beforeEnd_fills : FillsGroups (beforeEnd n) := by
  intro t rep k hfind
  obtain ⟨g, rfl, rfl, hg, rfl, rfl⟩ := findLast_eq_some.mp hfind
  refine ⟨g, [], hg, .inr ⟨rfl, ?_, ?_⟩⟩
  · rw [fillGroup_eq_filled hn rfl hg]
  · exact List.drop_eq_nil_of_le (by simp)

theorem atStart_filling (t : Text) : Filling t ((atStart n).substituteHead t) := by
  cases hfind : (atStart n).find t with
  | none =>
    rw [Pattern.substituteHead_none hfind]
    exact ⟨fun _ => rfl, List.forall₂_same.mpr fun g _ => .inl rfl⟩
  | some r =>
    obtain ⟨g, r, rfl, rfl, hg, hrep, hk⟩ := findFirst_eq_some.mp hfind
    have hfill := forall_filled (P := fun c => lowerHex c = true) rfl hg
    have hhead : (atStart g.length).substituteHead (g ++ ':' :: r) = filled g ++ ':' :: r := by
      rw [Pattern.substituteHead_match hfind, hrep, hk, List.append_assoc, List.drop_append,
        List.drop_eq_nil_of_le (by omega)]
      simp
    refine ⟨fun hcolon => absurd (by simp) hcolon, ?_⟩
    rw [hhead, List.splitOn_append_cons_self_of_not_mem (colon_not_mem hg),
      List.splitOn_append_cons_self_of_not_mem (colon_not_mem hfill)]
    exact .cons (.inr (fillGroup_eq_filled hn rfl hg).symm)
      (List.forall₂_same.mpr fun g _ => .inl rfl)

theorem betweenColons_grows : (betweenColons n).Grows := by
  intro t rep k hfind
  obtain ⟨g, r, rfl, rfl, -, rfl, rfl⟩ := findBetween_eq_some.mp hfind
  rw [List.length_cons, List.length_append, length_filled (by omega)]
  simp only [List.length_cons, List.length_nil]
  omega

theorem beforeEnd_grows : (beforeEnd n).Grows := by
  intro t rep k hfind
  obtain ⟨g, rfl, rfl, -, rfl, rfl⟩ := findLast_eq_some.mp hfind
  rw [List.length_cons, length_filled (by omega)]
  omega

theorem atStart_grows : (atStart n).Grows := by
  intro t rep k hfind
  obtain ⟨g, r, rfl, rfl, -, rfl, rfl⟩ := findFirst_eq_some.mp hfind
  rw [List.length_append, length_filled (by omega)]
  simp only [List.length_cons, List.length_nil]
  omega

theorem written_fillWords (s : Text) : written (fillWords n s) = written s := by
  rw [fillWords, Filling.written (atStart_filling hn _),
    Filling.written ((beforeEnd_fills hn).filling _),
    Filling.written ((betweenColons_fills hn).filling _)]

theorem length_le_fillWords (s : Text) : s.length ≤ (fillWords n s).length := by
  have hbetween := (betweenColons_grows hn).length_le s
  have hend := (beforeEnd_grows hn).length_le ((betweenColons n).substitute s)
  have hstart := (atStart_grows hn).length_le_head
    ((beforeEnd n).substitute ((betweenColons n).substitute s))
  rw [fillWords]
  omega

/-- The commands keep the length only if there are no groups of `n` digits. -/
theorem fillWords_fixed {s : Text} (hkeep : (fillWords n s).length = s.length) :
    fillWords n s = s ∧ (∀ u, u <:+ s → findBetween n u = none ∧ findLast n u = none) ∧
      findFirst n s = none := by
  have hbetween := (betweenColons_grows hn).length_le s
  have hend := (beforeEnd_grows hn).length_le ((betweenColons n).substitute s)
  have hstart := (atStart_grows hn).length_le_head
    ((beforeEnd n).substitute ((betweenColons n).substitute s))
  rw [fillWords] at hkeep
  have hnone {u : Text} := (betweenColons_grows hn).find_eq_none (t := s) (u := u) (by omega)
  have hbetween : (betweenColons n).substitute s = s :=
    Pattern.substitute_eq_self fun u hu => hnone hu
  rw [hbetween] at hkeep hend hstart
  have hnone' {u : Text} := (beforeEnd_grows hn).find_eq_none (t := s) (u := u) (by omega)
  have hend : (beforeEnd n).substitute s = s := Pattern.substitute_eq_self fun u hu => hnone' hu
  rw [hend] at hkeep
  have hfirst := (atStart_grows hn).find_head_eq_none hkeep
  refine ⟨?_, fun u hu => ⟨hnone hu, hnone' hu⟩, hfirst⟩
  rw [fillWords, hbetween, hend, Pattern.substituteHead_none hfirst]

end

/-- A text that the body leaves as long as it is has no group that can be filled up. -/
theorem fillBody_fixed {s : Text} (hkeep : (fillBody s).length = s.length) :
    fillBody s = s ∧ written s = s := by
  have hthree := length_le_fillWords (n := 3) (by decide) s
  have htwo := length_le_fillWords (n := 2) (by decide) (fillWords 3 s)
  have hone := length_le_fillWords (n := 1) (by decide) (fillWords 2 (fillWords 3 s))
  rw [fillBody] at hkeep
  obtain ⟨heq₃, hnone₃, hfirst₃⟩ := fillWords_fixed (n := 3) (by decide) (s := s) (by omega)
  rw [heq₃] at hkeep htwo hone
  obtain ⟨heq₂, hnone₂, hfirst₂⟩ := fillWords_fixed (n := 2) (by decide) (s := s) (by omega)
  rw [heq₂] at hkeep hone
  obtain ⟨heq₁, hnone₁, hfirst₁⟩ := fillWords_fixed (n := 1) (by decide) hkeep
  have hnone {n : ℕ} (hn : 1 ≤ n ∧ n ≤ 3) :
      (∀ u, u <:+ s → findBetween n u = none ∧ findLast n u = none) ∧ findFirst n s = none := by
    obtain rfl | rfl | rfl : n = 1 ∨ n = 2 ∨ n = 3 := by omega
    · exact ⟨hnone₁, hfirst₁⟩
    · exact ⟨hnone₂, hfirst₂⟩
    · exact ⟨hnone₃, hfirst₃⟩
  refine ⟨by rw [fillBody, heq₃, heq₂, heq₁], ?_⟩
  rw [written]
  split_ifs with hcolon
  · have hgroups : (s.splitOn ':').map fillGroup = s.splitOn ':' := by
      refine (List.map_congr_left fun g hg => ?_).trans (List.map_id _)
      refine if_neg fun hshort => ?_
      obtain ⟨hbetween, hfirst⟩ := hnone ⟨hshort.1, hshort.2.1⟩
      rcases mem_splitOn_cases hg with rfl | ⟨r, rfl⟩ | ⟨a, rfl⟩ | ⟨a, r, rfl⟩
      · exact colon_not_mem hshort.2.2 hcolon
      · rw [findFirst_eq_some.mpr ⟨g, r, rfl, rfl, hshort.2.2, rfl, rfl⟩] at hfirst
        cases hfirst
      · have hlast := (hbetween (':' :: g) (List.suffix_append _ _)).2
        rw [findLast_eq_some.mpr ⟨g, rfl, rfl, hshort.2.2, rfl, rfl⟩] at hlast
        cases hlast
      · have hmiddle := (hbetween (':' :: (g ++ ':' :: r)) (List.suffix_append _ _)).1
        rw [findBetween_eq_some.mpr ⟨g, r, rfl, rfl, hshort.2.2, rfl, rfl⟩] at hmiddle
        cases hmiddle
    rw [hgroups]
    exact List.intercalate_splitOn ':'
  · rfl

theorem written_fillBody (s : Text) : written (fillBody s) = written s := by
  rw [fillBody, written_fillWords (by decide), written_fillWords (by decide),
    written_fillWords (by decide)]

theorem length_le_fillBody (s : Text) : s.length ≤ (fillBody s).length :=
  ((length_le_fillWords (by decide) s).trans (length_le_fillWords (by decide) _)).trans
    (length_le_fillWords (by decide) _)

/-! ### The end of the loop -/

theorem length_intercalate_fill {gs : List Text} (h : gs ≠ []) :
    ([':'].intercalate gs).length ≤ ([':'].intercalate (gs.map fillGroup)).length ∧
      ([':'].intercalate (gs.map fillGroup)).length < 4 * (([':'].intercalate gs).length + 1) := by
  induction gs with
  | nil => exact absurd rfl h
  | cons g gs ih =>
    have hg := length_fillGroup g
    by_cases hgs : gs = []
    · subst hgs
      rw [List.map_singleton, List.intercalate_singleton, List.intercalate_singleton]
      omega
    · have ih := ih hgs
      rw [List.map_cons, List.intercalate_cons_of_ne_nil hgs,
        List.intercalate_cons_of_ne_nil (mt List.map_eq_nil_iff.mp hgs)]
      simp only [List.length_append, List.length_singleton]
      omega

theorem length_written (s : Text) :
    s.length ≤ (written s).length ∧ (written s).length < 4 * (s.length + 1) := by
  rw [written]
  split_ifs
  · have hlength := length_intercalate_fill (List.splitOn_ne_nil ':' s)
    rwa [List.intercalate_splitOn] at hlength
  · omega

/-- With enough rounds the loop ends, with all groups filled up. -/
theorem fillLoop_eq {n : ℕ} {s : Text} (h : (written s).length < s.length + n) :
    fillLoop n s = written s := by
  induction n generalizing s with
  | zero => exact absurd (length_written s).1 (by omega)
  | succ n ih =>
    rw [fillLoop]
    split_ifs with hfixed
    · exact (fillBody_fixed (by rw [hfixed])).2.symm
    · have hlt : s.length < (fillBody s).length :=
        lt_of_le_of_ne (length_le_fillBody s) fun heq => hfixed (fillBody_fixed heq.symm).1
      rw [ih (by rw [written_fillBody]; omega), written_fillBody]

theorem expandInet6_eq (s : Text) : expandInet6 s = expandPair (written s) := by
  rw [expandInet6, fillLoop_eq]
  exact (length_written s).2.trans_le (Nat.le_add_left _ _)

end CargosBuildroot.Bootstrap
