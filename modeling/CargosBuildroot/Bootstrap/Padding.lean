import CargosBuildroot.Bootstrap.Addresses
import CargosBuildroot.Shell.Fields
import Mathlib.Data.Nat.Digits.Defs

/-! The loop of `is_inet6` that fills up the groups of an address, as the shell runs it: each
command gets the lines of the text, and the newlines at the end of what it prints are dropped. The
loop ends for every text of one line, and the text that is left stands for the same address. -/

namespace CargosBuildroot.Bootstrap

open Shell Sed

/-! ### The loop -/

/-- `$( sed command <<< "$_address" )`, for a command that changes each line. -/
def sedCommand (command : Text → Text) (_address : Text) : Text :=
  (unlines ((lines _address).map command)).rdropWhile (· = '\n')

/-- The three commands for groups of `n` digits. -/
def paddedWords (n : ℕ) (_address : Text) : Text :=
  let _address := sedCommand (betweenColons n).substitute _address
  let _address := sedCommand (beforeEnd n).substitute _address
  sedCommand (atStart n).substituteHead _address

def paddingRound (_address : Text) : Text :=
  paddedWords 1 (paddedWords 2 (paddedWords 3 _address))

/-- The loop, with at most `n` comparisons; `none` if it has not ended then. -/
def paddingLoop : ℕ → Text → Text → Option Text
  | 0, _, _ => none
  | n + 1, _o, _address =>
    if _o = _address then some _address else paddingLoop n _address (paddingRound _address)

/-! ### Texts of one line -/

theorem sedCommand_eq {command : Text → Text} {t : Text} (ht : ∀ c ∈ t, c ≠ '\n')
    (hcommand : ∀ c ∈ command t, c ≠ '\n') : sedCommand command t = command t := by
  have hlines : lines t = [t] := lines_of_no_newline fun h => ht _ h rfl
  have hunlines : unlines [command t] = command t ++ ['\n'] := List.append_nil _
  rw [sedCommand, hlines, List.map_singleton, hunlines,
    List.rdropWhile_concat_pos (fun c => decide (c = '\n')) _ _ (decide_eq_true rfl), List.rdropWhile_eq_self_iff]
  intro hne
  rw [decide_eq_true_iff]
  exact hcommand _ (List.getLast_mem hne)

section

variable {P : Char → Prop} (hzero : P '0') {n : ℕ} {t : Text} (ht : ∀ c ∈ t, P c)
include hzero ht

theorem forall_betweenColons : ∀ c ∈ (betweenColons n).substitute t, P c := by
  refine Pattern.forall_substitute (fun {t rep k} hfind ht => ?_) ht
  obtain ⟨g, r, rfl, -, -, rfl, -⟩ := findBetween_eq_some.mp hfind
  simp only [List.forall_mem_cons, List.forall_mem_append] at ht ⊢
  exact ⟨ht.1, forall_filled hzero ht.2.1, ht.1, by simp⟩

theorem forall_beforeEnd : ∀ c ∈ (beforeEnd n).substitute t, P c := by
  refine Pattern.forall_substitute (fun {t rep k} hfind ht => ?_) ht
  obtain ⟨g, rfl, -, -, rfl, -⟩ := findLast_eq_some.mp hfind
  rw [List.forall_mem_cons] at ht ⊢
  exact ⟨ht.1, forall_filled hzero ht.2⟩

theorem forall_atStart : ∀ c ∈ (atStart n).substituteHead t, P c := by
  refine Pattern.forall_substituteHead (fun {t rep k} hfind ht => ?_) ht
  obtain ⟨g, r, rfl, -, -, rfl, -⟩ := findFirst_eq_some.mp hfind
  simp only [List.forall_mem_cons, List.forall_mem_append] at ht ⊢
  exact ⟨forall_filled hzero ht.1, ht.2.1, by simp⟩

theorem forall_fillWords : ∀ c ∈ fillWords n t, P c :=
  forall_atStart hzero (forall_beforeEnd hzero (forall_betweenColons hzero ht))

end

theorem paddedWords_eq {n : ℕ} {t : Text} (ht : ∀ c ∈ t, c ≠ '\n') :
    paddedWords n t = fillWords n t := by
  have hzero : '0' ≠ '\n' := by decide
  have hbetween := forall_betweenColons (n := n) hzero ht
  have hend := forall_beforeEnd (n := n) hzero hbetween
  rw [paddedWords, sedCommand_eq ht hbetween, sedCommand_eq hbetween hend,
    sedCommand_eq hend (forall_atStart hzero hend), fillWords]

theorem paddingRound_eq {t : Text} (ht : ∀ c ∈ t, c ≠ '\n') :
    paddingRound t = fillBody t ∧ ∀ c ∈ fillBody t, c ≠ '\n' := by
  have hzero : '0' ≠ '\n' := by decide
  have hthree := forall_fillWords (n := 3) hzero ht
  have htwo := forall_fillWords (n := 2) hzero hthree
  constructor
  · rw [paddingRound, paddedWords_eq ht, paddedWords_eq hthree, paddedWords_eq htwo, fillBody]
  · exact forall_fillWords hzero htwo

/-- A round that changes the text makes it longer, and no round makes it longer than the text with
all groups filled up. -/
theorem paddingLoop_eq {n : ℕ} {t : Text} (ht : ∀ c ∈ t, c ≠ '\n')
    (h : (written t).length < t.length + n) :
    paddingLoop n t (paddingRound t) = some (written t) := by
  induction n generalizing t with
  | zero => exact absurd (length_written t).1 (by omega)
  | succ n ih =>
    obtain ⟨hround, hbody⟩ := paddingRound_eq ht
    rw [paddingLoop, hround]
    split_ifs with hfixed
    · rw [← hfixed, (fillBody_fixed (by rw [← hfixed])).2]
    · have hlt : t.length < (fillBody t).length :=
        lt_of_le_of_ne (length_le_fillBody t) fun heq =>
          hfixed (fillBody_fixed heq.symm).1.symm
      rw [ih hbody (by rw [written_fillBody]; omega), written_fillBody]

/-! ### What an address stands for -/

def hexDigit (c : Char) : ℕ :=
  if c ≤ '9' then c.toNat - '0'.toNat
  else if 'a' ≤ c then c.toNat - 'a'.toNat + 10
  else c.toNat - 'A'.toNat + 10

def hexValue (g : Text) : ℕ := Nat.ofDigits 16 (g.reverse.map hexDigit)

/-- The eight numbers of an address; a pair stands for as many zeroes as are missing. -/
inductive Denotes : Text → List ℕ → Prop
  | full {gs : List Text} (groups : ∀ g ∈ gs, HexGroup g) (eight : gs.length = 8) :
      Denotes ([':'].intercalate gs) (gs.map hexValue)
  | compressed {front back : List Text} (front_groups : ∀ g ∈ front, HexGroup g)
      (back_groups : ∀ g ∈ back, HexGroup g) (fewer : front.length + back.length < 8) :
      Denotes (compressed front back) (front.map hexValue ++
        List.replicate (8 - (front.length + back.length)) 0 ++ back.map hexValue)

theorem hexValue_replicate_append (k : ℕ) (g : Text) :
    hexValue (List.replicate k '0' ++ g) = hexValue g := by
  have hzero : hexDigit '0' = 0 := rfl
  rw [hexValue, List.reverse_append, List.map_append, List.reverse_replicate, List.map_replicate,
    hzero, Nat.ofDigits_append_replicate_zero, hexValue]

/-- Two groups are both none or stand for the same number. -/
structure SameGroup (g g' : Text) : Prop where
  nil : g = [] ↔ g' = []
  hex : HexGroup g ↔ HexGroup g'
  value : hexValue g = hexValue g'

theorem SameGroup.symm {g g' : Text} (h : SameGroup g g') : SameGroup g' g :=
  ⟨h.nil.symm, h.hex.symm, h.value.symm⟩

/-- One to three digits of lower case. -/
def Short (g : Text) : Prop := 1 ≤ g.length ∧ g.length ≤ 3 ∧ ∀ c ∈ g, lowerHex c = true

theorem sameGroup_fillGroup (g : Text) : SameGroup g (fillGroup g) := by
  by_cases hshort : Short g
  · have hfill : fillGroup g = filled g := if_pos hshort
    obtain ⟨hpos, hle, hg⟩ := hshort
    have hlength : (filled g).length = 4 := length_filled (by omega)
    have hdigits := forall_filled (P := fun c => lowerHex c = true) rfl hg
    rw [hfill]
    refine ⟨?_, iff_of_true ⟨hpos, by omega, fun c hc => .inl (hg c hc)⟩
      ⟨by omega, by omega, fun c hc => .inl (hdigits c hc)⟩, ?_⟩
    · rw [← List.length_eq_zero_iff, ← List.length_eq_zero_iff]
      omega
    · rw [filled, hexValue_replicate_append]
  · have hfill : fillGroup g = g := if_neg hshort
    rw [hfill]
    exact ⟨Iff.rfl, Iff.rfl, rfl⟩

/-! ### Texts with the same groups -/

theorem map_hexValue_of_same {gs gs' : List Text} (h : List.Forall₂ SameGroup gs' gs)
    (hgs : ∀ g ∈ gs, HexGroup g) :
    (∀ g ∈ gs', HexGroup g) ∧ gs'.length = gs.length ∧ gs'.map hexValue = gs.map hexValue := by
  induction h with
  | nil => exact ⟨hgs, rfl, rfl⟩
  | cons hsame _ ih =>
    rw [List.forall_mem_cons] at hgs
    obtain ⟨hhex, hlength, hvalue⟩ := ih hgs.2
    refine ⟨List.forall_mem_cons.mpr ⟨hsame.hex.mpr hgs.1, hhex⟩, ?_, ?_⟩
    · rw [List.length_cons, List.length_cons, hlength]
    · rw [List.map_cons, List.map_cons, hsame.value, hvalue]

/-- Groups that the pieces of a text agree with; the one piece of the empty text is no group. -/
theorem exists_groups_of_same {gs ps : List Text} (hgs : ∀ g ∈ gs, HexGroup g)
    (h : List.Forall₂ SameGroup ps (([':'].intercalate gs).splitOn ':')) :
    ∃ gs', [':'].intercalate ps = [':'].intercalate gs' ∧ (∀ g ∈ gs', HexGroup g) ∧
      gs'.length = gs.length ∧ gs'.map hexValue = gs.map hexValue := by
  by_cases hne : gs = []
  · subst hne
    have hnil : ([':'].intercalate ([] : List Text)).splitOn ':' = [[]] := rfl
    obtain ⟨p, ps', hsame, hps', rfl⟩ := List.forall₂_cons_right_iff.mp (hnil ▸ h)
    rw [hsame.nil.mpr rfl, List.forall₂_nil_right_iff.mp hps']
    exact ⟨[], rfl, hgs, rfl, rfl⟩
  · rw [(pieces_of_groups hgs).splitOn hne] at h
    exact ⟨ps, rfl, map_hexValue_of_same h hgs⟩

theorem Denotes.of_same {s t : Text} {ns : List ℕ} (hs : Denotes s ns)
    (h : List.Forall₂ SameGroup (t.splitOn ':') (s.splitOn ':')) : Denotes t ns := by
  have htext : [':'].intercalate (t.splitOn ':') = t := List.intercalate_splitOn ':'
  rw [← htext]
  generalize t.splitOn ':' = ps at h
  cases hs with
  | full groups eight =>
    have hne := List.ne_nil_of_length_eq_add_one eight
    rw [(pieces_of_groups groups).splitOn hne] at h
    obtain ⟨hhex, hlength, hvalue⟩ := map_hexValue_of_same h groups
    rw [← hvalue]
    exact .full hhex (hlength.trans eight)
  | @compressed front back front_groups back_groups fewer =>
    rw [splitOn_compressed] at h
    generalize hk : (([':'].intercalate front).splitOn ':').length = k
    have hfront := List.forall₂_take_append _ _ _ h
    have hback := List.forall₂_drop_append _ _ _ h
    rw [hk] at hfront hback
    obtain ⟨p, ps', hpair, hback, hdrop⟩ := List.forall₂_cons_right_iff.mp hback
    have hps : ps = ps.take k ++ [] :: ps' := by
      rw [← hpair.nil.mpr rfl, ← hdrop, List.take_append_drop]
    have htake : ps.take k ≠ [] := by
      rw [← List.length_pos_iff, hfront.length_eq]
      exact List.length_pos_of_ne_nil (List.splitOn_ne_nil _ _)
    have hne : ps' ≠ [] := by
      rw [← List.length_pos_iff, hback.length_eq]
      exact List.length_pos_of_ne_nil (List.splitOn_ne_nil _ _)
    obtain ⟨front', hfronts, hfront_groups, hfront_length, hfront_value⟩ :=
      exists_groups_of_same front_groups hfront
    obtain ⟨back', hbacks, hback_groups, hback_length, hback_value⟩ :=
      exists_groups_of_same back_groups hback
    have htext : [':'].intercalate ps = Bootstrap.compressed front' back' := by
      rw [hps, intercalate_append htake (List.cons_ne_nil _ _),
        List.intercalate_cons_of_ne_nil hne, hfronts, hbacks, Bootstrap.compressed]
      simp
    rw [htext, ← hfront_value, ← hback_value, ← hfront_length, ← hback_length]
    exact .compressed hfront_groups hback_groups (by omega)

theorem denotes_iff_of_same {s t : Text} {ns : List ℕ}
    (h : List.Forall₂ SameGroup (t.splitOn ':') (s.splitOn ':')) :
    Denotes t ns ↔ Denotes s ns :=
  ⟨fun ht => ht.of_same (h.flip.imp fun _ _ hsame => hsame.symm), fun hs => hs.of_same h⟩

/-! ### The end of the loop -/

/-- Zeroes are put before a short group, or nothing. -/
def Padded (g g' : Text) : Prop :=
  g' = g ∨ Short g ∧ ∃ k, g' = List.replicate k '0' ++ g

theorem padded_fillGroup (g : Text) : Padded g (fillGroup g) := by
  by_cases hshort : Short g
  · exact .inr ⟨hshort, 4 - g.length, if_pos hshort⟩
  · exact .inl (if_neg hshort)

theorem not_short_fillGroup (g : Text) : ¬ Short (fillGroup g) := by
  by_cases hshort : Short g
  · have hfill : fillGroup g = filled g := if_pos hshort
    rintro ⟨-, hle, -⟩
    rw [hfill, length_filled (by have := hshort.2.1; omega)] at hle
    omega
  · have hfill : fillGroup g = g := if_neg hshort
    rwa [hfill]

theorem splitOn_written {s : Text} (h : ':' ∈ s) :
    (written s).splitOn ':' = (s.splitOn ':').map fillGroup := by
  rw [written, if_pos h]
  refine List.splitOn_intercalate ':' (fun g hg hcolon => ?_)
    (mt List.map_eq_nil_iff.mp (List.splitOn_ne_nil _ _))
  obtain ⟨g, hpiece, rfl⟩ := List.mem_map.mp hg
  exact forall_fillGroup (P := (· ≠ ':')) (by decide)
    (fun c hc => (mem_piece hpiece hc).2) _ hcolon rfl

/-- What the loop makes of a text: no round changes it, and only zeroes are put before short
groups, all of which are gone if there is a colon. -/
structure Normalised (s t : Text) : Prop where
  fixed : paddingRound t = t
  plain : ':' ∉ s → t = s
  long : ':' ∈ s → ∀ g ∈ t.splitOn ':', ¬ Short g
  padded : List.Forall₂ Padded (s.splitOn ':') (t.splitOn ':')
  same : ∀ ns, Denotes t ns ↔ Denotes s ns

theorem forall₂_splitOn_written {R : Text → Text → Prop} {s : Text} (hsame : ∀ g, R g g)
    (hfill : ∀ g, R g (fillGroup g)) :
    List.Forall₂ R (s.splitOn ':') ((written s).splitOn ':') := by
  by_cases hcolon : ':' ∈ s
  · rw [splitOn_written hcolon, List.forall₂_map_right_iff]
    exact List.forall₂_same.mpr fun g _ => hfill g
  · rw [written, if_neg hcolon]
    exact List.forall₂_same.mpr fun g _ => hsame g

theorem filling_written (s : Text) : Filling s (written s) :=
  ⟨fun hcolon => if_neg hcolon, forall₂_splitOn_written (fun _ => .inl rfl) fun _ => .inr rfl⟩

theorem fillBody_written (s : Text) : fillBody (written s) = written s := by
  have hlower := length_le_fillBody (written s)
  have hupper := (length_written (fillBody (written s))).1
  rw [written_fillBody, (filling_written s).written] at hupper
  exact (fillBody_fixed (by omega)).1

theorem normalised_written {s : Text} (hs : ∀ c ∈ s, c ≠ '\n') : Normalised s (written s) where
  fixed := by
    rw [(paddingRound_eq (forall_written (by decide) hs)).1, fillBody_written]
  plain hcolon := if_neg hcolon
  long hcolon g hg := by
    rw [splitOn_written hcolon] at hg
    obtain ⟨g, -, rfl⟩ := List.mem_map.mp hg
    exact not_short_fillGroup g
  padded := forall₂_splitOn_written (fun _ => .inl rfl) padded_fillGroup
  same _ := denotes_iff_of_same <|
    (forall₂_splitOn_written (R := flip SameGroup) (fun _ => ⟨Iff.rfl, Iff.rfl, rfl⟩) fun g =>
      (sameGroup_fillGroup g).symm).flip

theorem paddingLoop_start {s : Text} (hs : ∀ c ∈ s, c ≠ '\n') {n : ℕ}
    (hn : 4 * (s.length + 1) < n) : paddingLoop n [] s = some (written s) := by
  obtain ⟨n, rfl⟩ := Nat.exists_eq_succ_of_ne_zero (Nat.ne_zero_of_lt hn)
  have hlength := (length_written s).2
  rw [paddingLoop]
  split_ifs with hempty
  · subst hempty
    rfl
  · exact paddingLoop_eq hs (by omega)

/-- The loop ends for every text of one line, however many more rounds are allowed, and its result
is normal. -/
theorem padding_normalises (s : Text) (h : '\n' ∉ s) :
    ∃ t, (∃ n, ∀ m, n ≤ m → paddingLoop m [] s = some t) ∧ Normalised s t := by
  have hs : ∀ c ∈ s, c ≠ '\n' := fun c hc heq => h (heq ▸ hc)
  exact ⟨written s, ⟨4 * (s.length + 1) + 1, fun m hm => paddingLoop_start hs hm⟩,
    normalised_written hs⟩

theorem padding_normalises_groups : ∃ t,
    (∃ n, ∀ m, n ≤ m → paddingLoop m [] "fe80::1:22:A:".toList = some t) ∧
      Normalised "fe80::1:22:A:".toList t :=
  padding_normalises "fe80::1:22:A:".toList (by decide)

end CargosBuildroot.Bootstrap
