import CargosBuildroot.Bootstrap.Inet6
import Mathlib.Data.Bool.AllAny
import Mathlib.Tactic.Linarith

/-! Which texts the check of an IPv6 address takes. What is printed has one character for each of
the filled-up text and those of the groups in the place of `::`, so that the check counts, and a
text that is no address passes if the count is right. -/

namespace CargosBuildroot.Bootstrap

open Shell Sed

/-! ### The count -/

/-- How many places with two colons between other characters are found, one after another. -/
def innerPairs : Text → ℕ
  | _ :: ':' :: ':' :: _ :: t => innerPairs t + 1
  | _ :: t => innerPairs t
  | [] => 0

/-- The characters that are not digits of lower case. -/
def others (t : Text) : ℕ := (t.filter (!lowerHex ·)).length

/-- The length of a filled-up text with groups for `::`. Between two characters five more are
written for each group that is missing from eight, and one colon is left out; at an end a group
more is written. A colon at the beginning is dropped. -/
def counted (t : Text) : ℤ :=
  if "::".toList <:+: t then
    let missing : ℤ := (8 - others t : ℕ)
    t.length + (5 * missing - 1) * innerPairs t
      + (if "::".toList <:+ t ∧ t ≠ "::".toList then 5 * missing + 3 else 0)
      + (if "::".toList <+: t ∧ t ≠ "::".toList then 5 * missing + 4 else 0)
      - (if t.head? = some ':' then 1 else 0)
  else t.length

/-! ### The places of pairs -/

def zeroes (n : ℕ) : Text := (List.replicate n ":0000".toList).flatten

theorem length_zeroes (n : ℕ) : (zeroes n).length = 5 * n := by
  induction n with
  | zero => rfl
  | succ n ih =>
    rw [zeroes, List.replicate_succ, List.flatten_cons, List.length_append, ← zeroes, ih]
    simp
    omega

theorem head?_zeroes (n : ℕ) (t : Text) : (zeroes n ++ ':' :: t).head? = some ':' := by
  cases n <;> rfl

theorem innerPair_eq_some {z t rep : Text} {k : ℕ} (h : (innerPair z).find t = some (rep, k)) :
    ∃ a b r, t = a :: ':' :: ':' :: b :: r ∧ rep = a :: (z ++ [':', b]) ∧ k = 4 := by
  unfold innerPair at h
  dsimp only at h
  split at h
  · obtain ⟨rfl, rfl⟩ := Prod.mk.inj (Option.some_inj.mp h)
    exact ⟨_, _, _, rfl, rfl, rfl⟩
  · cases h

theorem innerPair_eq_none {z t : Text} (h : (innerPair z).find t = none) (a b : Char) (r : Text) :
    t ≠ a :: ':' :: ':' :: b :: r := by
  rintro rfl
  cases h

theorem innerPairs_cons {c : Char} {t : Text} (h : ∀ b r, t ≠ ':' :: ':' :: b :: r) :
    innerPairs (c :: t) = innerPairs t := by
  rw [innerPairs]
  exact fun b r heq => h b r heq

section

variable (n : ℕ) (t : Text)

theorem length_innerPair :
    ((innerPair (zeroes n)).substitute t).length + 4 * innerPairs t =
      t.length + (5 * n + 3) * innerPairs t := by
  induction t using (innerPair (zeroes n)).substitute_induction with
  | nil => rfl
  | found t rep k hfind ih =>
    obtain ⟨a, b, r, rfl, rfl, rfl⟩ := innerPair_eq_some hfind
    have hdrop : (a :: ':' :: ':' :: b :: r).drop 4 = r := rfl
    rw [hdrop] at ih
    rw [Pattern.substitute_match hfind, innerPairs, hdrop, Nat.mul_add, Nat.mul_add]
    simp only [List.length_append, List.length_cons, List.length_nil, length_zeroes]
    omega
  | cons c t hfind ih =>
    rw [Pattern.substitute_cons hfind, innerPairs_cons fun b r h => ?_]
    · simp only [List.length_cons]
      omega
    · exact innerPair_eq_none hfind c b r (by rw [h])

theorem head?_innerPair : ((innerPair (zeroes n)).substitute t).head? = t.head? := by
  cases t with
  | nil => rfl
  | cons c t =>
    cases hfind : (innerPair (zeroes n)).find (c :: t) with
    | none =>
      rw [Pattern.substitute_cons hfind]
      rfl
    | some r =>
      obtain ⟨a, b, r, heq, hrep, -⟩ := innerPair_eq_some hfind
      rw [Pattern.substitute_match hfind, hrep, heq]
      rfl

theorem prefix_innerPair :
    "::".toList <+: (innerPair (zeroes n)).substitute t ↔ "::".toList <+: t := by
  have hpair (c : Char) (l : Text) : "::".toList <+: c :: l ↔ ':' = c ∧ l.head? = some ':' := by
    cases l <;> simp [List.cons_prefix_cons, eq_comm]
  cases t with
  | nil => rfl
  | cons c t =>
    cases hfind : (innerPair (zeroes n)).find (c :: t) with
    | none => rw [Pattern.substitute_cons hfind, hpair, hpair, head?_innerPair]
    | some r =>
      obtain ⟨a, b, r, heq, hrep, -⟩ := innerPair_eq_some hfind
      obtain ⟨rfl, rfl⟩ := List.cons.inj heq
      have hhead (l : Text) : (zeroes n ++ [':', b] ++ l).head? = some ':' := by
        rw [List.append_assoc]
        exact head?_zeroes n _
      rw [Pattern.substitute_match hfind, hrep, List.cons_append, hpair, hpair, hhead]
      rfl

theorem suffix_append_iff {l x t : Text} (h : l.length ≤ t.length) : l <:+ x ++ t ↔ l <:+ t :=
  ⟨fun hl => List.suffix_of_suffix_length_le hl (List.suffix_append x t) h,
    fun hl => hl.trans (List.suffix_append x t)⟩

theorem suffix_innerPair (x : Text) :
    "::".toList <:+ x ++ (innerPair (zeroes n)).substitute t ↔ "::".toList <:+ x ++ t := by
  induction t using (innerPair (zeroes n)).substitute_induction generalizing x with
  | nil => rfl
  | found t rep k hfind ih =>
    obtain ⟨a, b, r, rfl, rfl, rfl⟩ := innerPair_eq_some hfind
    have hend (y : Text) : "::".toList <:+ y ++ (':' :: b :: r) ↔ "::".toList <:+ ':' :: b :: r :=
      suffix_append_iff (by simp)
    have hdrop : (a :: ':' :: ':' :: b :: r).drop 4 = r := rfl
    have hafter := ih (x ++ a :: (zeroes n ++ [':', b]))
    have hfilled : x ++ a :: (zeroes n ++ [':', b]) ++ r =
        x ++ a :: zeroes n ++ (':' :: b :: r) := by simp
    have htext : x ++ a :: ':' :: ':' :: b :: r = x ++ [a, ':'] ++ (':' :: b :: r) := by simp
    rw [hdrop, hfilled, hend] at hafter
    rw [Pattern.substitute_match hfind, hdrop, htext, hend, ← hafter, List.append_assoc]
  | cons c t hfind ih =>
    have happend (l : Text) : x ++ c :: l = x ++ [c] ++ l := by simp
    rw [Pattern.substitute_cons hfind, happend, ih, ← happend]

theorem four_mul_innerPairs_le : 4 * innerPairs t ≤ t.length := by
  fun_induction innerPairs t with
  | case1 a b t ih =>
    simp only [List.length_cons]
    omega
  | case2 c t h ih =>
    rw [List.length_cons]
    omega
  | case3 => exact le_refl _

theorem innerPair_eq_pair :
    (innerPair (zeroes n)).substitute t = "::".toList ↔ t = "::".toList := by
  constructor
  · intro h
    have hbegin : "::".toList <+: t := (prefix_innerPair n t).mp (by rw [h])
    have hlength := length_innerPair n t
    have hle := four_mul_innerPairs_le t
    rw [h, Nat.add_mul, Nat.mul_assoc] at hlength
    have htwo : "::".toList.length = 2 := rfl
    refine (hbegin.eq_of_length_le ?_).symm
    omega
  · rintro rfl
    rfl

theorem lastPair_eq_some {z t rep : Text} {k : ℕ} (h : (lastPair z).find t = some (rep, k)) :
    ∃ a, t = [a, ':', ':'] ∧ rep = a :: (z ++ ":0000".toList) ∧ k = 3 := by
  unfold lastPair at h
  dsimp only at h
  split at h
  · obtain ⟨rfl, rfl⟩ := Prod.mk.inj (Option.some_inj.mp h)
    exact ⟨_, rfl, rfl, rfl⟩
  · cases h

variable {t}

/-- The text ends with a pair and has more than that. -/
theorem lastPair_suffix (h : "::".toList <:+ t) (hne : t ≠ "::".toList) :
    ∃ w a, t = w ++ [a, ':', ':'] ∧
      (lastPair (zeroes n)).substitute t = w ++ a :: (zeroes n ++ ":0000".toList) := by
  obtain ⟨front, rfl⟩ := h
  rcases List.eq_nil_or_concat front with rfl | ⟨w, a, rfl⟩
  · exact absurd rfl hne
  · have htext : w.concat a ++ "::".toList = w ++ [a, ':', ':'] := by simp
    refine ⟨w, a, htext, ?_⟩
    rw [htext]
    refine Pattern.substitute_append rfl (fun u hu => ?_) w
    cases hfind : (lastPair (zeroes n)).find u with
    | none => rfl
    | some r =>
      obtain ⟨b, rfl, -, -⟩ := lastPair_eq_some hfind
      exact absurd hu (lt_irrefl _)

theorem lastPair_none (h : ¬ ("::".toList <:+ t ∧ t ≠ "::".toList)) :
    (lastPair (zeroes n)).substitute t = t := by
  refine Pattern.substitute_eq_self fun u hu => ?_
  cases hfind : (lastPair (zeroes n)).find u with
  | none => rfl
  | some r =>
    obtain ⟨a, rfl, -, -⟩ := lastPair_eq_some hfind
    refine absurd ⟨(List.suffix_cons a _).trans hu, ?_⟩ h
    rintro rfl
    exact absurd hu.length_le (by simp)

theorem firstPair_prefix (h : "::".toList <+: t) (hne : t ≠ "::".toList) :
    ∃ b r, t = ':' :: ':' :: b :: r ∧
      (firstPair (zeroes n)).substituteHead t = zeroes n ++ ":0000:".toList ++ b :: r := by
  obtain ⟨rest, rfl⟩ := h
  cases rest with
  | nil => exact absurd rfl hne
  | cons b r =>
    refine ⟨b, r, rfl, ?_⟩
    have hfind : (firstPair (zeroes n)).find (':' :: ':' :: b :: r) =
        some (zeroes n ++ ":0000:".toList ++ [b], 3) := rfl
    exact (Pattern.substituteHead_match hfind).trans (List.append_assoc _ [b] r)

theorem firstPair_none (h : ¬ ("::".toList <+: t ∧ t ≠ "::".toList)) :
    (firstPair (zeroes n)).substituteHead t = t := by
  refine Pattern.substituteHead_none ?_
  unfold firstPair
  dsimp only
  split
  · exact absurd ⟨⟨_, rfl⟩, by simp⟩ h
  · rfl

/-! ### The length of the expansion -/

theorem length_lastPair : ((lastPair (zeroes n)).substitute t).length =
    t.length + if "::".toList <:+ t ∧ t ≠ "::".toList then 5 * n + 3 else 0 := by
  split_ifs with h
  · obtain ⟨w, a, rfl, heq⟩ := lastPair_suffix n h.1 h.2
    rw [heq]
    simp only [List.length_append, List.length_cons, length_zeroes]
    have hgroup : ":0000".toList.length = 5 := rfl
    have hnil : ([] : Text).length = 0 := rfl
    omega
  · rw [lastPair_none n h, Nat.add_zero]

theorem head?_lastPair : ((lastPair (zeroes n)).substitute t).head? = t.head? := by
  by_cases h : "::".toList <:+ t ∧ t ≠ "::".toList
  · obtain ⟨w, a, rfl, heq⟩ := lastPair_suffix n h.1 h.2
    rw [heq]
    cases w <;> rfl
  · rw [lastPair_none n h]

/-- The end of the text does not change what it begins with. -/
theorem prefix_lastPair : ("::".toList <+: (lastPair (zeroes n)).substitute t ∧
    (lastPair (zeroes n)).substitute t ≠ "::".toList) ↔ "::".toList <+: t ∧ t ≠ "::".toList := by
  by_cases h : "::".toList <:+ t ∧ t ≠ "::".toList
  · obtain ⟨w, a, rfl, heq⟩ := lastPair_suffix n h.1 h.2
    have hhead : (zeroes n ++ ":0000".toList).head? = some ':' := head?_zeroes n _
    obtain ⟨rest, hrest⟩ := List.head?_eq_some_iff.mp hhead
    have hne : rest ≠ [] := by
      rintro rfl
      have hlength := congrArg List.length hrest
      rw [List.length_append, length_zeroes] at hlength
      exact absurd hlength (by simp)
    rw [heq, hrest]
    match w with
    | [] => simp [List.cons_prefix_cons, hne]
    | [x] => simp [List.cons_prefix_cons]
    | x :: y :: w => simp [List.cons_prefix_cons]
  · rw [lastPair_none n h]

theorem length_firstPair : ((firstPair (zeroes n)).substituteHead t).length =
    t.length + if "::".toList <+: t ∧ t ≠ "::".toList then 5 * n + 4 else 0 := by
  split_ifs with h
  · obtain ⟨b, r, rfl, heq⟩ := firstPair_prefix n h.1 h.2
    have hgroup : ":0000:".toList.length = 6 := rfl
    rw [heq]
    simp only [List.length_append, List.length_cons, length_zeroes]
    omega
  · rw [firstPair_none n h, Nat.add_zero]

theorem head?_firstPair : ((firstPair (zeroes n)).substituteHead t).head? = t.head? := by
  by_cases h : "::".toList <+: t ∧ t ≠ "::".toList
  · obtain ⟨b, r, rfl, heq⟩ := firstPair_prefix n h.1 h.2
    rw [heq, List.append_assoc]
    exact head?_zeroes n _
  · rw [firstPair_none n h]

theorem leadingColon_eq (t : Text) :
    leadingColon.substituteHead t = if t.head? = some ':' then t.tail else t := by
  rcases t with _ | ⟨c, t⟩
  · rfl
  · by_cases hc : c = ':'
    · subst hc
      rfl
    · have hnone : leadingColon.find (c :: t) = none := by
        unfold leadingColon
        dsimp only
        split
        · rename_i heq
          exact absurd (List.cons.inj heq).1 hc
        · rfl
      rw [Pattern.substituteHead_none hnone, if_neg (by simpa using hc)]

theorem length_leadingColon (t : Text) :
    (leadingColon.substituteHead t).length + (if t.head? = some ':' then 1 else 0) = t.length := by
  rw [leadingColon_eq]
  split_ifs with h
  · obtain ⟨r, rfl⟩ := List.head?_eq_some_iff.mp h
    rfl
  · rfl

end

theorem expandPair_pair {t : Text} (h : "::".toList <:+: t) : expandPair t =
    leadingColon.substituteHead ((firstPair (zeroes (8 - others t))).substituteHead
      ((lastPair (zeroes (8 - others t))).substitute
        ((innerPair (zeroes (8 - others t))).substitute t))) := if_pos h

/-! ### The text that is meant -/

/-- Groups in the place of each pair between two characters, found one after another. -/
def innerFilled (groups : Text) : Text → Text
  | a :: ':' :: ':' :: b :: t => a :: (groups ++ ':' :: b :: innerFilled groups t)
  | c :: t => c :: innerFilled groups t
  | [] => []

/-- Groups in the place of a pair at the end. -/
def endFilled (groups t : Text) : Text :=
  if "::".toList <:+ t ∧ t ≠ "::".toList then t.dropLast.dropLast ++ groups ++ ":0000".toList else t

/-- Groups in the place of a pair at the beginning. -/
def startFilled (groups t : Text) : Text :=
  if "::".toList <+: t ∧ t ≠ "::".toList then groups ++ ":0000:".toList ++ t.drop 2 else t

/-- The text with its groups filled up, as many groups for a pair as are missing, and no colon at
the beginning if it has a pair. -/
def spelled (s : Text) : Text :=
  let t := written s
  if "::".toList <:+: t then
    let groups := zeroes (8 - others t)
    let t := startFilled groups (endFilled groups (innerFilled groups t))
    if t.head? = some ':' then t.tail else t
  else t

theorem innerPair_substitute (n : ℕ) (t : Text) :
    (innerPair (zeroes n)).substitute t = innerFilled (zeroes n) t := by
  induction t using (innerPair (zeroes n)).substitute_induction with
  | nil => rfl
  | found t rep k hfind ih =>
    obtain ⟨a, b, r, rfl, rfl, rfl⟩ := innerPair_eq_some hfind
    have hdrop : (a :: ':' :: ':' :: b :: r).drop 4 = r := rfl
    rw [hdrop] at ih
    rw [Pattern.substitute_match hfind, hdrop, ih, innerFilled]
    simp
  | cons c t hfind ih =>
    rw [Pattern.substitute_cons hfind, ih, innerFilled]
    exact fun b r heq => innerPair_eq_none hfind c b r (by rw [heq])

theorem lastPair_substitute (n : ℕ) (t : Text) :
    (lastPair (zeroes n)).substitute t = endFilled (zeroes n) t := by
  rw [endFilled]
  split_ifs with h
  · obtain ⟨w, a, rfl, heq⟩ := lastPair_suffix n h.1 h.2
    have htext : w ++ [a, ':', ':'] = w ++ [a] ++ [':'] ++ [':'] := by simp
    rw [heq, htext, List.dropLast_concat, List.dropLast_concat]
    simp
  · exact lastPair_none n h

theorem firstPair_substituteHead (n : ℕ) (t : Text) :
    (firstPair (zeroes n)).substituteHead t = startFilled (zeroes n) t := by
  rw [startFilled]
  split_ifs with h
  · obtain ⟨b, r, rfl, heq⟩ := firstPair_prefix n h.1 h.2
    exact heq
  · exact firstPair_none n h

theorem expandInet6_eq_spelled (s : Text) : expandInet6 s = spelled s := by
  rw [expandInet6_eq, spelled]
  dsimp only
  split_ifs with hpair hcolon
  · rw [expandPair_pair hpair, innerPair_substitute, lastPair_substitute, firstPair_substituteHead,
      leadingColon_eq, if_pos hcolon]
  · rw [expandPair_pair hpair, innerPair_substitute, lastPair_substitute, firstPair_substituteHead,
      leadingColon_eq, if_neg hcolon]
  · exact if_neg hpair

theorem length_expandPair (t : Text) : ((expandPair t).length : ℤ) = counted t := by
  by_cases hpair : "::".toList <:+: t
  · rw [expandPair_pair hpair, counted, if_pos hpair]
    generalize 8 - others t = n
    have hinner := congrArg (Nat.cast : ℕ → ℤ) (length_innerPair n t)
    have hlast := length_lastPair n (t := (innerPair (zeroes n)).substitute t)
    have hfirst := length_firstPair n
      (t := (lastPair (zeroes n)).substitute ((innerPair (zeroes n)).substitute t))
    have hcolon := length_leadingColon ((firstPair (zeroes n)).substituteHead
      ((lastPair (zeroes n)).substitute ((innerPair (zeroes n)).substitute t)))
    have hsuffix := suffix_innerPair n t []
    have hne := not_congr (innerPair_eq_pair n t)
    rw [List.nil_append, List.nil_append] at hsuffix
    rw [head?_firstPair, head?_lastPair, head?_innerPair] at hcolon
    simp only [and_congr hsuffix hne] at hlast
    simp only [prefix_lastPair, and_congr (prefix_innerPair n t) hne] at hfirst
    push_cast at hinner
    have hgrown : (((innerPair (zeroes n)).substitute t).length : ℤ) =
        t.length + (5 * n - 1) * innerPairs t := by linarith
    dsimp only
    split_ifs at hcolon hlast hfirst ⊢ <;> omega
  · rw [expandPair, if_neg hpair, counted, if_neg hpair]

/-! ### Characters -/

theorem forall_written {P : Char → Prop} (hzero : P '0') {s : Text} (hs : ∀ c ∈ s, P c) :
    ∀ c ∈ written s, P c := by
  rw [written]
  split_ifs with hcolon
  · intro c hc
    rcases mem_intercalate hc with rfl | ⟨g, hg, hc⟩
    · exact hs ':' hcolon
    · obtain ⟨g, hpiece, rfl⟩ := List.mem_map.mp hg
      exact forall_fillGroup hzero (fun d hd => hs d (mem_of_mem_splitOn hpiece hd)) c hc
  · exact hs

theorem forall_groups {P : Char → Prop} (hzero : P '0') (hcolon : P ':') (n : ℕ) :
    (∀ c ∈ zeroes n, P c) ∧ (∀ c ∈ ":0000".toList, P c) ∧ ∀ c ∈ ":0000:".toList, P c := by
  have hgroup : ∀ c ∈ ":0000".toList, P c := by
    intro c hc
    have hc : c ∈ [':', '0', '0', '0', '0'] := hc
    simp only [List.mem_cons, List.not_mem_nil, or_false, or_self] at hc
    rcases hc with rfl | rfl
    · exact hcolon
    · exact hzero
  refine ⟨fun c hc => ?_, hgroup, ?_⟩
  · obtain ⟨g, hg, hc⟩ := List.mem_flatten.mp hc
    rw [List.eq_of_mem_replicate hg] at hc
    exact hgroup c hc
  · have hlonger : ∀ c ∈ ":0000".toList ++ [':'], P c :=
      List.forall_mem_append.mpr ⟨hgroup, List.forall_mem_singleton.mpr hcolon⟩
    exact hlonger

theorem forall_expandPair {P : Char → Prop} (hzero : P '0') (hcolon : P ':') {t : Text}
    (ht : ∀ c ∈ t, P c) : ∀ c ∈ expandPair t, P c := by
  by_cases hpair : "::".toList <:+: t
  · rw [expandPair_pair hpair]
    generalize 8 - others t = n
    obtain ⟨hzeroes, hlast, hfirst⟩ := forall_groups hzero hcolon n
    have hinner : ∀ c ∈ (innerPair (zeroes n)).substitute t, P c := by
      refine Pattern.forall_substitute (fun {t rep k} hfind ht => ?_) ht
      obtain ⟨a, b, r, rfl, rfl, -⟩ := innerPair_eq_some hfind
      simp only [List.forall_mem_cons, List.forall_mem_append] at ht ⊢
      exact ⟨ht.1, hzeroes, ht.2.1, ht.2.2.2.1, by simp⟩
    generalize (innerPair (zeroes n)).substitute t = u at hinner
    have hend : ∀ c ∈ (lastPair (zeroes n)).substitute u, P c := by
      refine Pattern.forall_substitute (fun {t rep k} hfind ht => ?_) hinner
      obtain ⟨a, rfl, rfl, -⟩ := lastPair_eq_some hfind
      exact List.forall_mem_cons.mpr ⟨ht a (.head _), List.forall_mem_append.mpr ⟨hzeroes, hlast⟩⟩
    generalize (lastPair (zeroes n)).substitute u = v at hend
    have hstart : ∀ c ∈ (firstPair (zeroes n)).substituteHead v, P c := by
      by_cases h : "::".toList <+: v ∧ v ≠ "::".toList
      · obtain ⟨b, r, rfl, heq⟩ := firstPair_prefix n h.1 h.2
        rw [heq]
        simp only [List.forall_mem_cons, List.forall_mem_append] at hend ⊢
        exact ⟨⟨hzeroes, hfirst⟩, hend.2.2⟩
      · rwa [firstPair_none n h]
    rw [leadingColon_eq]
    split_ifs
    · exact fun c hc => hstart c (List.mem_of_mem_tail hc)
    · exact hstart
  · rwa [expandPair, if_neg hpair]

theorem forall_expandInet6 {P : Char → Prop} (hzero : P '0') (hcolon : P ':') {s : Text}
    (hs : ∀ c ∈ s, P c) : ∀ c ∈ expandInet6 s, P c := by
  rw [expandInet6_eq]
  exact forall_expandPair hzero hcolon (forall_written hzero hs)

/-! ### What is printed -/

/-- A word that is left alone is printed with a newline, unless it is an option. -/
theorem length_echoed {x : PlainExpansion} {e : Text} (hspace : ∀ c ∈ e, isSpace c = false)
    (hglob : x.glob e = [e]) :
    (echoed x.toExpansion e).length = 40 ↔ e.length = 39 ∧ isEchoOption e = false := by
  by_cases hnil : e = []
  · subst hnil
    have hprinted : echoed x.toExpansion [] = ['\n'] := rfl
    rw [hprinted]
    exact iff_of_false (by simp) (by simp)
  have hargs : x.toExpansion.arguments e = [e] := by
    rw [Expansion.arguments, words_of_word hnil hspace, List.flatMap_singleton, hglob]
  rw [echoed, echo, echoArguments, hargs]
  cases hoption : isEchoOption e with
  | true =>
    have hinterpreted (newline : Bool) := x.interpreted_literal newline [] List.not_mem_nil
    simp only [List.takeWhile_cons, List.dropWhile_cons, hoption, ↓reduceIte, List.takeWhile_nil,
      List.dropWhile_nil, List.intercalate_nil, hinterpreted]
    split_ifs <;> simp
  | false =>
    simp [hoption]

/-- A word that is a pattern for files is printed as their names. -/
theorem echoed_word {x : Expansion} {e : Text} (hnil : e ≠ []) (hspace : ∀ c ∈ e, isSpace c = false) :
    echoed x e = echo x (x.glob e) := by
  rw [echoed, Expansion.arguments, words_of_word hnil hspace, List.flatMap_singleton]

/-- The length of a line with the names. -/
def lineLength (names : List Text) : ℕ := names.foldr (fun name n => name.length + 1 + n) 0

theorem length_echo {x : Expansion} {name : Text} {names : List Text}
    (hname : isEchoOption name = false) :
    (echo x (name :: names)).length = lineLength (name :: names) := by
  have hline (name : Text) (names : List Text) :
      ([' '].intercalate (name :: names)).length + 1 = lineLength (name :: names) := by
    induction names generalizing name with
    | nil => rw [List.intercalate_singleton, lineLength, List.foldr_cons, List.foldr_nil]
    | cons next names ih =>
      rw [List.intercalate_cons_of_ne_nil (List.cons_ne_nil _ _), List.length_append,
        List.length_append, List.length_singleton, Nat.add_assoc _ _ 1, ih, lineLength, lineLength,
        List.foldr_cons (l := next :: names)]
  rw [← hline, echo, echoArguments, List.takeWhile_cons, List.dropWhile_cons, hname]
  simp

/-! ### Colons -/

theorem colon_mem_written {s : Text} (h : ':' ∈ s) : ':' ∈ written s := by
  have hlength := length_splitOn s ':'
  have hcount := List.count_pos_iff.mpr h
  rw [written, if_pos h]
  cases hpieces : s.splitOn ':' with
  | nil => simp [hpieces] at hlength
  | cons g gs =>
    rw [hpieces, List.length_cons] at hlength
    have hgs : gs ≠ [] := by
      rintro rfl
      rw [List.length_nil] at hlength
      omega
    rw [List.map_cons, List.intercalate_cons_of_ne_nil (mt List.map_eq_nil_iff.mp hgs)]
    simp

theorem colon_mem_innerPair (n : ℕ) {t : Text} (h : ':' ∈ t) :
    ':' ∈ (innerPair (zeroes n)).substitute t := by
  induction t using (innerPair (zeroes n)).substitute_induction with
  | nil => exact h
  | found t rep k hfind ih =>
    obtain ⟨a, b, r, rfl, rfl, rfl⟩ := innerPair_eq_some hfind
    rw [Pattern.substitute_match hfind]
    simp
  | cons c t hfind ih =>
    rw [Pattern.substitute_cons hfind]
    exact (List.mem_cons.mp h).elim (fun heq => heq ▸ .head _) fun hmem => .tail _ (ih hmem)

theorem colon_mem_tail_innerPair (n : ℕ) {t : Text} (h : ':' ∈ t.tail) :
    ':' ∈ ((innerPair (zeroes n)).substitute t).tail := by
  cases t with
  | nil => exact h
  | cons c t =>
    cases hfind : (innerPair (zeroes n)).find (c :: t) with
    | none =>
      rw [Pattern.substitute_cons hfind]
      exact colon_mem_innerPair n h
    | some r =>
      obtain ⟨a, b, r, heq, hrep, -⟩ := innerPair_eq_some hfind
      rw [Pattern.substitute_match hfind, hrep]
      simp

/-- A colon after the first character stays. -/
theorem colon_mem_expandPair {t : Text} (h : "::".toList <:+: t) : ':' ∈ expandPair t := by
  rw [expandPair_pair h]
  generalize 8 - others t = n
  have htail : ':' ∈ t.tail := by
    obtain ⟨a, b, rfl⟩ := h
    cases a <;> simp
  have hinner := colon_mem_tail_innerPair n htail
  generalize (innerPair (zeroes n)).substitute t = u at hinner
  have hlast : ':' ∈ ((lastPair (zeroes n)).substitute u).tail := by
    by_cases h : "::".toList <:+ u ∧ u ≠ "::".toList
    · obtain ⟨w, a, -, heq⟩ := lastPair_suffix n h.1 h.2
      rw [heq]
      cases w <;> simp
    · rwa [lastPair_none n h]
  generalize (lastPair (zeroes n)).substitute u = v at hlast
  have hfirst : ':' ∈ ((firstPair (zeroes n)).substituteHead v).tail := by
    by_cases h : "::".toList <+: v ∧ v ≠ "::".toList
    · obtain ⟨b, r, -, heq⟩ := firstPair_prefix n h.1 h.2
      have htext : zeroes n ++ ":0000:".toList ++ b :: r =
          zeroes n ++ ":0000".toList ++ ':' :: b :: r := by simp
      rw [heq, htext, List.tail_append_of_ne_nil (by simp)]
      simp
    · rwa [firstPair_none n h]
  rw [leadingColon_eq]
  split_ifs
  · exact hfirst
  · exact List.mem_of_mem_tail hfirst

theorem expandInet6_of_no_colon {s : Text} (h : ':' ∉ s) : expandInet6 s = s := by
  rw [expandInet6_eq, written, if_neg h, expandPair, if_neg]
  rintro ⟨a, b, rfl⟩
  simp at h

theorem colon_mem_expandInet6 {s : Text} (h : ':' ∈ s) : ':' ∈ expandInet6 s := by
  rw [expandInet6_eq]
  by_cases hpair : "::".toList <:+: written s
  · exact colon_mem_expandPair hpair
  · rw [expandPair, if_neg hpair]
    exact colon_mem_written h

theorem isEchoOption_colon {t : Text} (h : ':' ∈ t) : isEchoOption t = false := by
  unfold isEchoOption
  split
  · rename_i flags
    have hflags : ':' ∈ flags := (List.mem_cons.mp h).resolve_left (by decide)
    rw [Bool.and_eq_false_iff]
    exact .inr (List.all_eq_false.mpr ⟨':', hflags, by decide⟩)
  · rfl

theorem isEchoOption_expandInet6 (s : Text) : isEchoOption (expandInet6 s) = isEchoOption s := by
  by_cases h : ':' ∈ s
  · rw [isEchoOption_colon h, isEchoOption_colon (colon_mem_expandInet6 h)]
  · rw [expandInet6_of_no_colon h]

/-- The check takes a word that is no option and has the right count, if it is left alone. -/
theorem isInet6_iff {x : PlainExpansion} {s : Text} (hspace : ∀ c ∈ s, isSpace c = false)
    (hglob : x.glob (spelled s) = [spelled s]) :
    isInet6 x s = true ↔ counted (written s) = 39 ∧ isEchoOption s = false := by
  have hword := forall_expandInet6 (P := fun c => isSpace c = false) rfl rfl hspace
  have hcount := length_expandPair (written s)
  rw [← expandInet6_eq_spelled] at hglob
  rw [← expandInet6_eq] at hcount
  rw [isInet6, decide_eq_true_iff, length_echoed hword hglob, isEchoOption_expandInet6, ← hcount]
  norm_cast

/-! ### Addresses -/

def upperHex (c : Char) : Bool := 'A' ≤ c && c ≤ 'F'

/-- One to four digits of either case. -/
structure HexGroup (g : Text) : Prop where
  length_pos : 1 ≤ g.length
  length_le : g.length ≤ 4
  digits : ∀ c ∈ g, lowerHex c = true ∨ upperHex c = true

/-- Groups before and after a pair. -/
def compressed (front back : List Text) : Text :=
  [':'].intercalate front ++ "::".toList ++ [':'].intercalate back

/-- Eight groups, or fewer with one `::`. -/
inductive Inet6Address : Text → Prop
  | full {gs : List Text} (groups : ∀ g ∈ gs, HexGroup g) (eight : gs.length = 8) :
      Inet6Address ([':'].intercalate gs)
  | compressed {front back : List Text} (front_groups : ∀ g ∈ front, HexGroup g)
      (back_groups : ∀ g ∈ back, HexGroup g) (fewer : front.length + back.length < 8) :
      Inet6Address (compressed front back)

/-- A group of fewer than four digits with a capital. -/
def ShortCapital (gs : List Text) : Prop :=
  ∃ g ∈ gs, g.length < 4 ∧ ∃ c ∈ g, upperHex c = true

def Capital (gs : List Text) : Prop := ∃ g ∈ gs, ∃ c ∈ g, upperHex c = true

/-- The addresses that are not taken. A text with eight colons and a pair has seven groups. -/
inductive Rejected (s : Text) : Prop
  | unspecified (pair : s = "::".toList)
  | full (all : ¬ "::".toList <:+: s ∨ s.count ':' = 8) (short : ShortCapital (s.splitOn ':'))
  | compressed (pair : "::".toList <:+: s) (fewer : s.count ':' ≠ 8)
      (capital : ∃ c ∈ s, upperHex c = true)

/-! ### Groups -/

theorem not_upperHex {c : Char} (h : lowerHex c = true) : upperHex c = false := by
  rw [lowerHex, Bool.or_eq_true, Bool.and_eq_true, Bool.and_eq_true] at h
  simp only [decide_eq_true_eq] at h
  rw [upperHex, Bool.and_eq_false_iff, decide_eq_false_iff_not, decide_eq_false_iff_not]
  rcases h with ⟨-, h⟩ | ⟨h, -⟩
  · exact .inl fun hA => absurd (Char.le_trans hA h) (by decide)
  · exact .inr fun hF => absurd (Char.le_trans h hF) (by decide)

theorem others_append (a b : Text) : others (a ++ b) = others a + others b := by
  rw [others, List.filter_append, List.length_append, others, others]

theorem others_eq_zero {t : Text} (h : ∀ c ∈ t, lowerHex c = true) : others t = 0 := by
  rw [others, List.length_eq_zero_iff, List.filter_eq_nil_iff]
  intro c hc
  simp [h c hc]

theorem others_fillGroup (g : Text) : others (fillGroup g) = others g := by
  rw [fillGroup]
  split_ifs
  · rw [filled, others_append, others_eq_zero, Nat.zero_add]
    intro c hc
    rw [List.eq_of_mem_replicate hc]
    rfl
  · rfl

section

variable {g : Text} (h : HexGroup g)
include h

theorem HexGroup.colon_not_mem : ':' ∉ g := fun hmem => absurd (h.digits _ hmem) (by decide)

theorem HexGroup.ne_nil : g ≠ [] := by
  rintro rfl
  exact absurd h.length_pos (by decide)

theorem HexGroup.others_eq_zero : others g = 0 ↔ ¬ ∃ c ∈ g, upperHex c = true := by
  constructor
  · rintro hothers ⟨c, hc, hupper⟩
    rw [others, List.length_eq_zero_iff, List.filter_eq_nil_iff] at hothers
    have hlower : lowerHex c = true := by simpa using hothers c hc
    rw [not_upperHex hlower] at hupper
    cases hupper
  · exact fun hlower => Bootstrap.others_eq_zero fun c hc =>
      (h.digits c hc).resolve_right fun hupper => hlower ⟨c, hc, hupper⟩

theorem HexGroup.length_fillGroup_le : (fillGroup g).length ≤ 4 := by
  rw [fillGroup]
  split_ifs with hif
  · rw [length_filled h.length_le]
  · exact h.length_le

/-- A group is filled up to four digits unless it is short and has a capital. -/
theorem HexGroup.length_fillGroup :
    4 - (fillGroup g).length = 0 ↔ ¬ (g.length < 4 ∧ ∃ c ∈ g, upperHex c = true) := by
  have hpos := h.length_pos
  have hle := h.length_le
  rw [← not_iff_not, not_not]
  constructor
  · intro hshort
    rw [fillGroup] at hshort
    split_ifs at hshort with hif
    · rw [length_filled hle] at hshort
      exact absurd rfl hshort
    · refine ⟨by omega, ?_⟩
      by_contra hlower
      refine hif ⟨hpos, by omega, fun c hc => ?_⟩
      exact (h.digits c hc).resolve_right fun hupper => hlower ⟨c, hc, hupper⟩
  · rintro ⟨hshort, c, hc, hupper⟩
    rw [fillGroup, if_neg]
    · omega
    · rintro ⟨-, -, hlower⟩
      rw [not_upperHex (hlower c hc)] at hupper
      cases hupper

end

/-! ### Groups with colons between them -/

/-- Texts that a colon separates again. -/
def Pieces (gs : List Text) : Prop := ∀ g ∈ gs, g ≠ [] ∧ ':' ∉ g

/-- How many digits are missing to four after filling up. -/
def lacking (gs : List Text) : ℕ := (gs.map fun g => 4 - (fillGroup g).length).sum

def capitals (gs : List Text) : ℕ := (gs.map others).sum

theorem pieces_of_groups {gs : List Text} (h : ∀ g ∈ gs, HexGroup g) : Pieces gs :=
  fun g hg => ⟨(h g hg).ne_nil, (h g hg).colon_not_mem⟩

theorem pieces_fill {gs : List Text} (h : ∀ g ∈ gs, HexGroup g) : Pieces (gs.map fillGroup) := by
  intro filled hfilled
  obtain ⟨g, hg, rfl⟩ := List.mem_map.mp hfilled
  refine ⟨fun hnil => ?_, fun hmem => ?_⟩
  · have hlength := (length_fillGroup g).1
    have hpos := (h g hg).length_pos
    rw [hnil, List.length_nil] at hlength
    omega
  · exact absurd rfl (forall_fillGroup (P := (· ≠ ':')) (by decide)
      (fun c hc heq => (h g hg).colon_not_mem (heq ▸ hc)) _ hmem)

theorem Pieces.splitOn {gs : List Text} (h : Pieces gs) (hne : gs ≠ []) :
    ([':'].intercalate gs).splitOn ':' = gs :=
  List.splitOn_intercalate ':' (fun g hg => (h g hg).2) hne

/-- No colon stands at an end or beside another. -/
structure Free (t : Text) : Prop where
  ne_nil : t ≠ []
  head : t.head? ≠ some ':'
  last : t.getLast? ≠ some ':'
  pair : ¬ "::".toList <:+: t

theorem Pieces.free {gs : List Text} (h : Pieces gs) (hne : gs ≠ []) :
    Free ([':'].intercalate gs) := by
  have hnil : [] ∉ ([':'].intercalate gs).splitOn ':' := by
    rw [h.splitOn hne]
    exact fun hmem => (h [] hmem).1 rfl
  refine ⟨fun heq => ?_, fun hhead => ?_, fun hlast => ?_, fun ⟨x, y, heq⟩ => ?_⟩
  · rw [heq] at hnil
    exact hnil (.head _)
  · obtain ⟨v, heq⟩ := List.head?_eq_some_iff.mp hhead
    rw [heq] at hnil
    exact hnil (nil_mem_cons _ _)
  · obtain ⟨u, heq⟩ := List.getLast?_eq_some_iff.mp hlast
    rw [heq] at hnil
    exact hnil (nil_mem_append_cons u (by simp))
  · rw [← heq, List.append_assoc] at hnil
    exact hnil (nil_mem_append_cons x (nil_mem_cons _ _))

theorem count_intercalate {gs : List Text} (h : Pieces gs) :
    ([':'].intercalate gs).count ':' = gs.length - 1 := by
  by_cases hne : gs = []
  · subst hne
    rfl
  · have hlength := length_splitOn ([':'].intercalate gs) ':'
    rw [h.splitOn hne] at hlength
    omega

section

variable {gs : List Text} (h : ∀ g ∈ gs, HexGroup g)
include h

theorem length_fill :
    ([':'].intercalate (gs.map fillGroup)).length + lacking gs = 5 * gs.length - 1 := by
  induction gs with
  | nil => rfl
  | cons g gs ih =>
    have hle := (h g (.head _)).length_fillGroup_le
    by_cases hgs : gs = []
    · subst hgs
      simp only [List.map_singleton, List.intercalate_singleton, lacking, List.sum_singleton,
        List.length_singleton]
      omega
    · have hpos := List.length_pos_of_ne_nil hgs
      have ih := ih fun g hg => h g (.tail _ hg)
      rw [List.map_cons, List.intercalate_cons_of_ne_nil (mt List.map_eq_nil_iff.mp hgs)]
      rw [lacking] at ih ⊢
      simp only [List.length_append, List.map_cons, List.sum_cons, List.length_cons,
        List.length_nil]
      omega

theorem lacking_eq_zero : lacking gs = 0 ↔ ¬ ShortCapital gs := by
  rw [lacking, List.sum_eq_zero_iff_forall_eq_nat, ShortCapital]
  simp only [List.forall_mem_map, not_exists, not_and]
  exact forall₂_congr fun g hg => by rw [(h g hg).length_fillGroup]; simp

theorem capitals_eq_zero : capitals gs = 0 ↔ ¬ Capital gs := by
  rw [capitals, List.sum_eq_zero_iff_forall_eq_nat, Capital]
  simp only [List.forall_mem_map, not_exists, not_and]
  exact forall₂_congr fun g hg => by rw [(h g hg).others_eq_zero]; simp

theorem lacking_of_capitals (hcapitals : capitals gs = 0) : lacking gs = 0 := by
  rw [lacking_eq_zero h]
  rintro ⟨g, hg, -, hcapital⟩
  exact (capitals_eq_zero h).mp hcapitals ⟨g, hg, hcapital⟩

theorem others_fill :
    others ([':'].intercalate (gs.map fillGroup)) = capitals gs + (gs.length - 1) := by
  induction gs with
  | nil => rfl
  | cons g gs ih =>
    by_cases hgs : gs = []
    · subst hgs
      simp [capitals, others_fillGroup]
    · have hpos := List.length_pos_of_ne_nil hgs
      have ih := ih fun g hg => h g (.tail _ hg)
      have hcolon : others [':'] = 1 := rfl
      rw [List.map_cons, List.intercalate_cons_of_ne_nil (mt List.map_eq_nil_iff.mp hgs),
        others_append, others_append, others_fillGroup, ih, hcolon]
      simp only [capitals, List.map_cons, List.sum_cons, List.length_cons]
      omega

end

/-! ### The count of an address -/

theorem innerPairs_no_pair {t : Text} (h : ¬ "::".toList <:+: t) : innerPairs t = 0 := by
  fun_induction innerPairs t with
  | case1 a b t ih => exact absurd ⟨[a], b :: t, rfl⟩ h
  | case2 c t _ ih => exact ih fun hpair => h (hpair.trans (List.suffix_cons c t).isInfix)
  | case3 => rfl

/-- Before the first pair there is no place to find. -/
theorem innerPairs_append {u : Text} {a : Char} (ha : a ≠ ':') (h : ¬ "::".toList <:+: u ++ [a])
    (t : Text) : innerPairs (u ++ [a] ++ t) = innerPairs (a :: t) := by
  induction u with
  | nil => rfl
  | cons c u ih =>
    rw [List.cons_append, List.cons_append, innerPairs_cons]
    · exact ih fun hpair => h (hpair.trans (List.suffix_cons c _).isInfix)
    · intro b r heq
      match u with
      | [] => exact ha (List.cons.inj heq).1
      | [d] => exact ha (List.cons.inj (List.cons.inj heq).2).1
      | d :: e :: u =>
        obtain ⟨rfl, htail⟩ := List.cons.inj heq
        obtain ⟨rfl, -⟩ := List.cons.inj htail
        exact h ⟨[c], u ++ [a], rfl⟩

section

variable {u v : Text} (hu : Free u) (hv : Free v)

include hu in
theorem Free.exists_concat : ∃ w a, u = w ++ [a] ∧ a ≠ ':' := by
  obtain ⟨w, a, rfl⟩ := (List.eq_nil_or_concat' u).resolve_left hu.ne_nil
  refine ⟨w, a, rfl, ?_⟩
  rintro rfl
  exact hu.last List.getLast?_concat

include hv in
theorem Free.exists_cons : ∃ b w, v = b :: w ∧ b ≠ ':' := by
  obtain ⟨b, w, rfl⟩ := List.exists_cons_of_ne_nil hv.ne_nil
  refine ⟨b, w, rfl, ?_⟩
  rintro rfl
  exact hv.head rfl

include hu in
theorem Free.not_begin (t : Text) : ¬ "::".toList <+: u ++ t ∧ (u ++ t).head? ≠ some ':' := by
  obtain ⟨b, w, rfl, hb⟩ := hu.exists_cons
  refine ⟨fun h => ?_, fun h => hb (Option.some_inj.mp h)⟩
  exact hb (List.cons_prefix_cons.mp h).1.symm

include hv in
theorem Free.not_suffix (t : Text) : ¬ "::".toList <:+ t ++ v := by
  rintro ⟨w, h⟩
  have hlast := congrArg List.getLast? h
  rw [List.getLast?_append_of_ne_nil _ hv.ne_nil,
    List.getLast?_append_of_ne_nil _ (by simp)] at hlast
  exact hv.last hlast.symm

include hu hv in
theorem counted_middle : counted (u ++ "::".toList ++ v) =
    u.length + v.length + 1 + 5 * (8 - (others u + others v + 2) : ℕ) := by
  have hinner : innerPairs (u ++ "::".toList ++ v) = 1 := by
    obtain ⟨w, a, rfl, ha⟩ := hu.exists_concat
    obtain ⟨b, r, rfl, hb⟩ := hv.exists_cons
    have hrest : innerPairs r = 0 :=
      innerPairs_no_pair fun hpair => hv.pair (hpair.trans (List.suffix_cons b r).isInfix)
    rw [List.append_assoc, innerPairs_append ha hu.pair]
    exact (congrArg (· + 1) hrest)
  have hothers : others (u ++ "::".toList ++ v) = others u + others v + 2 := by
    rw [others_append, others_append]
    exact Nat.add_right_comm _ 2 _
  have hbegin := hu.not_begin ("::".toList ++ v)
  rw [← List.append_assoc] at hbegin
  have htwo : "::".toList.length = 2 := rfl
  rw [counted, if_pos ⟨_, _, rfl⟩, hinner, hothers]
  dsimp only
  rw [if_neg fun h => hv.not_suffix _ h.1, if_neg fun h => hbegin.1 h.1, if_neg hbegin.2,
    List.length_append, List.length_append]
  omega

include hu in
theorem counted_end : counted (u ++ "::".toList) =
    u.length + 5 + 5 * (8 - (others u + 2) : ℕ) := by
  have hinner : innerPairs (u ++ "::".toList) = 0 := by
    obtain ⟨w, a, rfl, ha⟩ := hu.exists_concat
    exact innerPairs_append ha hu.pair _
  have hothers : others (u ++ "::".toList) = others u + 2 := others_append _ _
  have hbegin := hu.not_begin "::".toList
  have hne : u ++ "::".toList ≠ "::".toList := mt List.append_left_eq_self.mp hu.ne_nil
  have htwo : "::".toList.length = 2 := rfl
  rw [counted, if_pos ⟨_, [], List.append_nil _⟩, hinner, hothers]
  dsimp only
  rw [if_pos ⟨List.suffix_append _ _, hne⟩, if_neg fun h => hbegin.1 h.1, if_neg hbegin.2,
    List.length_append]
  omega

include hv in
theorem counted_start : counted ("::".toList ++ v) =
    v.length + 5 + 5 * (8 - (others v + 2) : ℕ) := by
  have hinner : innerPairs ("::".toList ++ v) = 0 := by
    obtain ⟨b, r, rfl, hb⟩ := hv.exists_cons
    have hfirst : innerPairs ("::".toList ++ b :: r) = innerPairs (':' :: b :: r) :=
      innerPairs_cons fun c r heq => hb (List.cons.inj (List.cons.inj heq).2).1
    have hsecond : innerPairs (':' :: b :: r) = innerPairs (b :: r) :=
      innerPairs_cons fun c r heq => hb (List.cons.inj heq).1
    rw [hfirst, hsecond, innerPairs_no_pair hv.pair]
  have hothers : others ("::".toList ++ v) = others v + 2 :=
    (others_append _ _).trans (Nat.add_comm 2 _)
  have hne : "::".toList ++ v ≠ "::".toList := mt List.append_right_eq_self.mp hv.ne_nil
  have hhead : ("::".toList ++ v).head? = some ':' := rfl
  have htwo : "::".toList.length = 2 := rfl
  rw [counted, if_pos ⟨[], v, rfl⟩, hinner, hothers]
  dsimp only
  rw [if_neg fun h => hv.not_suffix _ h.1, if_pos ⟨List.prefix_append _ _, hne⟩, if_pos hhead,
    List.length_append]
  omega

end

section

variable {front back : List Text} (hfront : ∀ g ∈ front, HexGroup g)
  (hback : ∀ g ∈ back, HexGroup g)

theorem splitOn_compressed (front back : List Text) : (compressed front back).splitOn ':' =
    ([':'].intercalate front).splitOn ':' ++ [] :: ([':'].intercalate back).splitOn ':' := by
  have htext : compressed front back =
      [':'].intercalate front ++ ':' :: ':' :: [':'].intercalate back := by simp [compressed]
  rw [htext, List.splitOn_append_cons_self, splitOn_colon_cons]

theorem intercalate_map_splitOn {gs : List Text} (h : Pieces gs) :
    [':'].intercalate ((([':'].intercalate gs).splitOn ':').map fillGroup) =
      [':'].intercalate (gs.map fillGroup) := by
  by_cases hne : gs = []
  · subst hne
    rfl
  · rw [h.splitOn hne]

theorem mem_splitOn_intercalate {gs : List Text} (h : Pieces gs) {g : Text} (hg : g ≠ []) :
    g ∈ ([':'].intercalate gs).splitOn ':' ↔ g ∈ gs := by
  by_cases hne : gs = []
  · subst hne
    simp [hg]
  · rw [h.splitOn hne]

include hfront hback

theorem written_compressed : written (compressed front back) =
    compressed (front.map fillGroup) (back.map fillGroup) := by
  have hcolon : ':' ∈ compressed front back := by simp [compressed]
  have hmap (t : Text) : (t.splitOn ':').map fillGroup ≠ [] :=
    mt List.map_eq_nil_iff.mp (List.splitOn_ne_nil _ _)
  have hnil : fillGroup [] = [] := rfl
  rw [written, if_pos hcolon, splitOn_compressed, List.map_append, List.map_cons, hnil,
    intercalate_append (hmap _) (List.cons_ne_nil _ _), List.intercalate_cons_of_ne_nil (hmap _),
    intercalate_map_splitOn (pieces_of_groups hfront),
    intercalate_map_splitOn (pieces_of_groups hback), compressed]
  simp

theorem mem_splitOn_compressed {g : Text} (hg : g ≠ []) :
    g ∈ (compressed front back).splitOn ':' ↔ g ∈ front ++ back := by
  rw [splitOn_compressed, List.mem_append, List.mem_cons,
    mem_splitOn_intercalate (pieces_of_groups hfront) hg,
    mem_splitOn_intercalate (pieces_of_groups hback) hg, List.mem_append]
  simp [hg]

theorem shortCapital_compressed :
    ShortCapital ((compressed front back).splitOn ':') ↔ ShortCapital (front ++ back) := by
  have hmem {g : Text} (hg : g ≠ []) := mem_splitOn_compressed hfront hback hg
  constructor
  · rintro ⟨g, hg, hshort, c, hc, hupper⟩
    exact ⟨g, (hmem (List.ne_nil_of_mem hc)).mp hg, hshort, c, hc, hupper⟩
  · rintro ⟨g, hg, hshort, c, hc, hupper⟩
    exact ⟨g, (hmem (List.ne_nil_of_mem hc)).mpr hg, hshort, c, hc, hupper⟩

omit hfront hback in
theorem mem_compressed {c : Char} (hc : c ∈ compressed front back) :
    c = ':' ∨ ∃ g ∈ front ++ back, c ∈ g := by
  rw [compressed, List.mem_append, List.mem_append] at hc
  rcases hc with (hc | hc) | hc
  · refine (mem_intercalate hc).imp_right fun ⟨g, hg, hmem⟩ => ⟨g, List.mem_append_left _ hg, hmem⟩
  · have hc : c ∈ [':', ':'] := hc
    simp only [List.mem_cons, List.not_mem_nil, or_false, or_self] at hc
    exact .inl hc
  · refine (mem_intercalate hc).imp_right fun ⟨g, hg, hmem⟩ => ⟨g, List.mem_append_right _ hg, hmem⟩

theorem capital_compressed :
    (∃ c ∈ compressed front back, upperHex c = true) ↔ Capital (front ++ back) := by
  constructor
  · rintro ⟨c, hc, hupper⟩
    rcases mem_compressed hc with rfl | ⟨g, hg, hmem⟩
    · exact absurd hupper (by decide)
    · exact ⟨g, hg, c, hmem, hupper⟩
  · rintro ⟨g, hg, c, hc, hupper⟩
    have hpiece := (mem_splitOn_compressed hfront hback (List.ne_nil_of_mem hc)).mpr hg
    exact ⟨c, mem_of_mem_splitOn hpiece hc, hupper⟩

theorem count_compressed : (compressed front back).count ':' =
    (front.length - 1) + 2 + (back.length - 1) := by
  rw [compressed, List.count_append, List.count_append, count_intercalate (pieces_of_groups hfront),
    count_intercalate (pieces_of_groups hback)]
  rfl

/-- Seven groups with the pair at an end fill eight, also when capitals are taken for colons. -/
theorem counted_compressed (hne : front ≠ [] ∨ back ≠ [])
    (hfewer : front.length + back.length < 8) :
    counted (compressed (front.map fillGroup) (back.map fillGroup)) = 39 ↔
      if (compressed front back).count ':' = 8 then lacking (front ++ back) = 0
      else capitals (front ++ back) = 0 := by
  have hgroups : ∀ g ∈ front ++ back, HexGroup g := List.forall_mem_append.mpr ⟨hfront, hback⟩
  have hlacking := lacking_of_capitals hgroups
  have hlengthF := length_fill hfront
  have hlengthB := length_fill hback
  have hothersF := others_fill hfront
  have hothersB := others_fill hback
  have hsumL : lacking (front ++ back) = lacking front + lacking back := by
    simp only [lacking, List.map_append, List.sum_append]
  have hsumC : capitals (front ++ back) = capitals front + capitals back := by
    simp only [capitals, List.map_append, List.sum_append]
  rw [hsumL, hsumC] at hlacking ⊢
  rw [count_compressed hfront hback, compressed]
  by_cases hf : front = []
  · have hb := hne.resolve_left (not_not.mpr hf)
    have hpos := List.length_pos_of_ne_nil hb
    have hcount := counted_start ((pieces_fill hback).free (mt List.map_eq_nil_iff.mp hb))
    have hlackingF : lacking front = 0 := by rw [hf]; rfl
    have hcapitalsF : capitals front = 0 := by rw [hf]; rfl
    rw [hothersB] at hcount
    rw [hlackingF, hcapitalsF] at hlacking ⊢
    rw [hf, List.length_nil] at hfewer ⊢
    rw [List.map_nil, List.intercalate_nil, List.nil_append, hcount]
    split_ifs <;> omega
  · have hfreeF := (pieces_fill hfront).free (mt List.map_eq_nil_iff.mp hf)
    have hposF := List.length_pos_of_ne_nil hf
    by_cases hb : back = []
    · have hcount := counted_end hfreeF
      have hlackingB : lacking back = 0 := by rw [hb]; rfl
      have hcapitalsB : capitals back = 0 := by rw [hb]; rfl
      rw [hothersF] at hcount
      rw [hlackingB, hcapitalsB] at hlacking ⊢
      rw [hb, List.length_nil] at hfewer ⊢
      rw [List.map_nil, List.intercalate_nil, List.append_nil, hcount]
      split_ifs <;> omega
    · have hposB := List.length_pos_of_ne_nil hb
      have hcount := counted_middle hfreeF
        ((pieces_fill hback).free (mt List.map_eq_nil_iff.mp hb))
      rw [hothersF, hothersB] at hcount
      rw [hcount]
      split_ifs <;> omega

end

theorem counted_full {gs : List Text} (groups : ∀ g ∈ gs, HexGroup g) (eight : gs.length = 8) :
    counted (written ([':'].intercalate gs)) = 39 ↔ ¬ ShortCapital gs := by
  have hne : gs ≠ [] := List.ne_nil_of_length_pos (by omega)
  have hpieces := pieces_of_groups groups
  have hfill := (pieces_fill groups).free (mt List.map_eq_nil_iff.mp hne)
  have hlength := length_fill groups
  have hcolon : ':' ∈ [':'].intercalate gs := by
    rw [← List.count_pos_iff, count_intercalate hpieces]
    omega
  rw [← lacking_eq_zero groups, written, if_pos hcolon, hpieces.splitOn hne, counted,
    if_neg hfill.pair]
  omega

theorem rejected_full_iff {gs : List Text} (groups : ∀ g ∈ gs, HexGroup g) (hne : gs ≠ []) :
    Rejected ([':'].intercalate gs) ↔ ShortCapital gs := by
  have hpieces := pieces_of_groups groups
  have hpair := (hpieces.free hne).pair
  constructor
  · intro hrejected
    cases hrejected with
    | unspecified pair => exact absurd (pair ▸ List.infix_rfl) hpair
    | full _ short => rwa [hpieces.splitOn hne] at short
    | compressed pair => exact absurd pair hpair
  · intro hshort
    exact .full (.inl hpair) (by rwa [hpieces.splitOn hne])

section

variable {front back : List Text} (front_groups : ∀ g ∈ front, HexGroup g)
  (back_groups : ∀ g ∈ back, HexGroup g) (hne : front ≠ [] ∨ back ≠ [])
include front_groups back_groups hne

theorem compressed_ne_pair : compressed front back ≠ "::".toList := by
  intro heq
  have hlength := congrArg List.length heq
  have htwo : "::".toList.length = 2 := rfl
  rw [compressed, List.length_append, List.length_append, htwo] at hlength
  rcases hne with hne | hne
  · have hpos := List.length_pos_of_ne_nil ((pieces_of_groups front_groups).free hne).ne_nil
    omega
  · have hpos := List.length_pos_of_ne_nil ((pieces_of_groups back_groups).free hne).ne_nil
    omega

theorem rejected_compressed_iff : Rejected (compressed front back) ↔
    if (compressed front back).count ':' = 8 then ShortCapital ((compressed front back).splitOn ':')
    else ∃ c ∈ compressed front back, upperHex c = true := by
  have hpair : "::".toList <:+: compressed front back := ⟨_, _, rfl⟩
  have hlong := compressed_ne_pair front_groups back_groups hne
  split_ifs with hcount
  · refine ⟨fun hrejected => ?_, .full (.inr hcount)⟩
    cases hrejected with
    | unspecified pair => exact absurd pair hlong
    | full _ short => exact short
    | compressed _ fewer => exact absurd hcount fewer
  · refine ⟨fun hrejected => ?_, .compressed hpair hcount⟩
    cases hrejected with
    | unspecified pair => exact absurd pair hlong
    | full all _ => exact all.elim (absurd hpair) (absurd · hcount)
    | compressed _ _ capital => exact capital

end

/-- The count is right for the addresses that are not rejected. -/
theorem counted_address {s : Text} (h : Inet6Address s) :
    counted (written s) = 39 ↔ ¬ Rejected s := by
  cases h with
  | full groups eight =>
    rw [counted_full groups eight,
      rejected_full_iff groups (List.ne_nil_of_length_pos (by omega))]
  | @compressed front back front_groups back_groups fewer =>
    have hgroups : ∀ g ∈ front ++ back, HexGroup g :=
      List.forall_mem_append.mpr ⟨front_groups, back_groups⟩
    by_cases hne : front ≠ [] ∨ back ≠ []
    · rw [written_compressed front_groups back_groups,
        counted_compressed front_groups back_groups hne fewer,
        rejected_compressed_iff front_groups back_groups hne]
      split_ifs
      · rw [lacking_eq_zero hgroups, ← shortCapital_compressed front_groups back_groups]
      · rw [capitals_eq_zero hgroups, ← capital_compressed front_groups back_groups]
    · simp only [not_or, not_not] at hne
      obtain ⟨rfl, rfl⟩ := hne
      exact iff_of_false (by decide) (not_not.mpr (.unspecified rfl))

/-! ### The check -/

theorem address_chars {s : Text} (h : Inet6Address s) :
    ∀ c ∈ s, c = ':' ∨ lowerHex c = true ∨ upperHex c = true := by
  intro c hc
  cases h with
  | full groups =>
    exact (mem_intercalate hc).imp_right fun ⟨g, hg, hmem⟩ => (groups g hg).digits c hmem
  | compressed front_groups back_groups =>
    exact (mem_compressed hc).imp_right fun ⟨g, hg, hmem⟩ =>
      (List.forall_mem_append.mpr ⟨front_groups, back_groups⟩ g hg).digits c hmem

/-- A text without pattern characters is spelled without them. -/
theorem spelled_literal (x : PlainExpansion) {s : Text} (h : ∀ c ∈ s, c ∉ "*?[\\".toList) :
    x.glob (spelled s) = [spelled s] := by
  rw [← expandInet6_eq_spelled]
  exact x.glob_literal _ (forall_expandInet6 (by decide) (by decide) h)

/-- An address is left alone by the shell and is no option. -/
theorem address_literal (x : PlainExpansion) {s : Text} (h : Inet6Address s) :
    x.glob (spelled s) = [spelled s] ∧ isEchoOption s = false := by
  have hchars := address_chars h
  constructor
  · refine spelled_literal x fun c hc hmem => ?_
    have hmem : c ∈ ['*', '?', '[', '\\'] := hmem
    simp only [List.mem_cons, List.not_mem_nil, or_false] at hmem
    rcases hmem with rfl | rfl | rfl | rfl <;> exact absurd (hchars _ hc) (by decide)
  · unfold isEchoOption
    split
    · exact absurd (hchars '-' (.head _)) (by decide)
    · rfl

/-- The texts for which the check is wrong: an address that is not taken; any other text with the
right count; and a pattern for files whose names make a line of the right length, or that begin
with an option of `echo` and are printed at that length. -/
inductive Mistaken6 (x : PlainExpansion) (s : Text) : Prop
  | rejected (address : Inet6Address s) (rejected : Rejected s)
  | taken (other : ¬ Inet6Address s) (literal : x.glob (spelled s) = [spelled s])
      (option : isEchoOption s = false) (count : counted (written s) = 39)
  | matched (other : ¬ Inet6Address s) (name : Text) (names : List Text)
      (files : x.glob (spelled s) = name :: names) (pattern : name :: names ≠ [spelled s])
      (option : isEchoOption name = false) (count : lineLength (name :: names) = 40)
  | flagged (other : ¬ Inet6Address s) (name : Text) (names : List Text)
      (files : x.glob (spelled s) = name :: names) (pattern : name :: names ≠ [spelled s])
      (option : isEchoOption name = true) (count : (echo x.toExpansion (name :: names)).length = 40)

/-- A word that stands for names of files is taken if their line is as long as an address. -/
theorem isInet6_names {x : PlainExpansion} {s : Text} (hspace : ∀ c ∈ s, isSpace c = false)
    (hfiles : x.glob (spelled s) ≠ [spelled s]) : isInet6 x s = true ↔
      ∃ name names, x.glob (spelled s) = name :: names ∧
        (echo x.toExpansion (name :: names)).length = 40 := by
  have hword := forall_expandInet6 (P := fun c => isSpace c = false) rfl rfl hspace
  rw [isInet6, decide_eq_true_iff, expandInet6_eq_spelled]
  rw [expandInet6_eq_spelled] at hword
  by_cases hnil : spelled s = []
  · exact absurd (x.glob_literal _ (by simp [hnil])) hfiles
  · rw [echoed_word hnil hword]
    cases x.glob (spelled s) with
    | nil => simp [echo, echoArguments]
    | cons name names => simp

/-- The check takes exactly the addresses, of the texts that are not mistaken. -/
theorem isInet6_exact_iff (x : PlainExpansion) {s : Text} (hs : ∀ c ∈ s, isSpaceClass c = false) :
    (isInet6 x s = true ↔ Inet6Address s) ↔ ¬ Mistaken6 x s := by
  have hspace : ∀ c ∈ s, isSpace c = false := by
    intro c hc
    have hclass := hs c hc
    simp only [isSpaceClass, Bool.or_eq_false_iff] at hclass
    exact hclass.1.1.1
  by_cases haddress : Inet6Address s
  · obtain ⟨hliteral, hoption⟩ := address_literal x haddress
    rw [isInet6_iff hspace hliteral, counted_address haddress]
    refine ⟨fun hexact hmistaken => ?_,
      fun hright => iff_of_true ⟨fun hrejected => ?_, hoption⟩ haddress⟩
    · cases hmistaken with
      | rejected _ rejected => exact (hexact.mpr haddress).1 rejected
      | taken other => exact other haddress
      | matched other => exact other haddress
      | flagged other => exact other haddress
    · exact hright (.rejected haddress hrejected)
  · by_cases hliteral : x.glob (spelled s) = [spelled s]
    · rw [isInet6_iff hspace hliteral]
      refine ⟨fun hexact hmistaken => ?_, fun hright => iff_of_false (fun htaken => ?_) haddress⟩
      · cases hmistaken with
        | rejected address => exact haddress address
        | taken _ _ option count => exact haddress (hexact.mp ⟨count, option⟩)
        | matched _ _ _ files pattern => exact pattern (files.symm.trans hliteral)
        | flagged _ _ _ files pattern => exact pattern (files.symm.trans hliteral)
      · exact hright (.taken haddress hliteral htaken.2 htaken.1)
    · rw [isInet6_names hspace hliteral]
      refine ⟨fun hexact hmistaken => ?_, fun hright => iff_of_false ?_ haddress⟩
      · cases hmistaken with
        | rejected address => exact haddress address
        | taken _ literal => exact hliteral literal
        | matched _ name names files _ option count =>
          exact haddress (hexact.mp ⟨name, names, files, (length_echo option).trans count⟩)
        | flagged _ name names files _ _ count => exact haddress (hexact.mp ⟨name, names, files, count⟩)
      · rintro ⟨name, names, files, count⟩
        have hpattern : name :: names ≠ [spelled s] := fun heq => hliteral (files.trans heq)
        cases hoption : isEchoOption name with
        | false => exact hright (.matched haddress name names files hpattern hoption
            ((length_echo hoption).symm.trans count))
        | true => exact hright (.flagged haddress name names files hpattern hoption count)

/-- A shell in an empty directory. -/
def barePlainExpansion : PlainExpansion where
  glob w := [w]
  interpreted newline t := t ++ if newline then ['\n'] else []
  glob_literal _ _ := rfl
  interpreted_literal _ _ _ := rfl

theorem isInet6_exact_loopback : (isInet6 barePlainExpansion "::1".toList = true ↔
    Inet6Address "::1".toList) ↔ ¬ Mistaken6 barePlainExpansion "::1".toList :=
  isInet6_exact_iff barePlainExpansion (List.all_iff_forall_prop.mp rfl)

/-- An address with capitals is not taken, and 39 letters are. -/
theorem isInet6_mistaken :
    isInet6 barePlainExpansion "2001:DB8::1".toList = false ∧ Inet6Address "2001:DB8::1".toList ∧
      isInet6 barePlainExpansion (List.replicate 39 'x') = true ∧
      ¬ Inet6Address (List.replicate 39 'x') := by
  have hgroup {g : Text} (h : (1 ≤ g.length ∧ g.length ≤ 4) ∧
      g.all (fun c => lowerHex c || upperHex c) = true) : HexGroup g :=
    ⟨h.1.1, h.1.2, fun c hc => (Bool.or_eq_true _ _).mp (List.all_eq_true.mp h.2 c hc)⟩
  have haddress := @Inet6Address.compressed ["2001".toList, "DB8".toList] ["1".toList]
    (List.forall_mem_cons.mpr ⟨hgroup ⟨by decide, rfl⟩,
      List.forall_mem_singleton.mpr (hgroup ⟨by decide, rfl⟩)⟩)
    (List.forall_mem_singleton.mpr (hgroup ⟨by decide, rfl⟩)) (by decide)
  refine ⟨by decide, haddress, by decide, fun h => ?_⟩
  exact absurd (address_chars h 'x' (by decide)) (by decide)

end CargosBuildroot.Bootstrap
