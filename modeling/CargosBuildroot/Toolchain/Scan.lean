import CargosBuildroot.Toolchain.Wrapper

/-! The scan for unsafe paths. When an option has taken the next argument for its path, the
loop over the options goes on at that argument, so that a path that begins with a later option
is read as this option too. -/

namespace CargosBuildroot.Toolchain

open Shell

/-- A scanner from left to right: an option takes the next argument for its path, or has the
path behind it. -/
def pathOptions : List Text → List (Text × Text)
  | [] => []
  | arg :: rest =>
    if arg ∈ unsafeOpts then
      match rest with
      | [] => []
      | path :: rest => (arg, path) :: pathOptions rest
    else
      match unsafeOpts.find? (·.isPrefixOf arg) with
      | none => pathOptions rest
      | some opt => (opt, arg.drop opt.length) :: pathOptions rest

/-- The option and the path that `check_unsafe_path` is called for. -/
def PathCheck.pair (c : PathCheck) : Text × Text :=
  (if c.argHasPath then c.arg.take (c.arg.length - c.path.length) else c.arg, c.path)

/-- The options to which the scanner gives the next argument, with the arguments from there on. -/
def takes : List Text → List (Text × List Text)
  | [] => []
  | arg :: rest =>
    if arg ∈ unsafeOpts then
      match rest with
      | [] => []
      | path :: rest => (arg, path :: rest) :: takes rest
    else takes rest

/-- The options behind an option in the list. -/
def laterOpts (opt : Text) : List Text := (unsafeOpts.dropWhile (· ≠ opt)).tail

/-- The path that an option takes begins with a later option, and is not the first of an odd
number of copies of that option up to the end. -/
def Misread (args : List Text) : Prop :=
  ∃ opt path rest, (opt, path :: rest) ∈ takes args ∧ ∃ later ∈ laterOpts opt, later <+: path ∧
    ¬ (path = later ∧ ∃ n, rest = List.replicate (2 * n) later)

/-! ### The options -/

/-- An argument begins with one option at most. -/
theorem opt_unique {a b arg : Text} (ha : a ∈ unsafeOpts) (hb : b ∈ unsafeOpts) (hap : a <+: arg)
    (hbp : b <+: arg) : a = b := by
  have hapart : ∀ a ∈ unsafeOpts, ∀ b ∈ unsafeOpts, a <+: b → a = b := by decide
  rcases List.prefix_or_prefix_of_prefix hap hbp with h | h
  · exact hapart a ha b hb h
  · exact (hapart b hb a ha h).symm

theorem opt_ne_nil {opt : Text} (h : opt ∈ unsafeOpts) : opt ≠ [] := by
  have : ∀ o ∈ unsafeOpts, o ≠ [] := by decide
  exact this opt h

/-- The rest of the loop over the options and then of the arguments. -/
def checksFrom (opts : List Text) (arg : Text) (rest : List Text) : List PathCheck :=
  (scanOpts opts arg rest).1 ++ scanArgs (scanOpts opts arg rest).2.length (scanOpts opts arg rest).2

section

variable {opt arg path : Text} {opts rest : List Text}

theorem scanOpts_other (h : ¬ opt <+: arg) :
    scanOpts (opt :: opts) arg rest = scanOpts opts arg rest := by
  rw [← List.isPrefixOf_iff_prefix] at h
  conv_lhs => unfold scanOpts
  rw [if_neg h]

theorem scanOpts_behind (h : opt <+: arg) (hne : arg ≠ opt) :
    scanOpts (opt :: opts) arg rest =
      (⟨arg, arg.drop opt.length, true⟩ :: (scanOpts opts arg rest).1,
        (scanOpts opts arg rest).2) := by
  rw [← List.isPrefixOf_iff_prefix] at h
  conv_lhs => unfold scanOpts
  rw [if_pos h, if_neg hne]

theorem scanOpts_last : scanOpts (opt :: opts) opt [] = ([], []) := by
  unfold scanOpts
  rw [if_pos (List.isPrefixOf_iff_prefix.mpr (List.prefix_refl opt)), if_pos rfl]

theorem scanOpts_next : scanOpts (opt :: opts) opt (path :: rest) =
    (⟨opt, path, false⟩ :: (scanOpts opts path rest).1, (scanOpts opts path rest).2) := by
  conv_lhs => unfold scanOpts
  rw [if_pos (List.isPrefixOf_iff_prefix.mpr (List.prefix_refl opt)), if_pos rfl]

end

theorem scanOpts_length (opts : List Text) (arg : Text) (rest : List Text) :
    (scanOpts opts arg rest).2.length ≤ rest.length := by
  induction opts generalizing arg rest with
  | nil => exact le_rfl
  | cons opt opts ih =>
    by_cases hp : opt <+: arg
    · by_cases heq : arg = opt
      · subst heq
        cases rest with
        | nil => rw [scanOpts_last]
        | cons path rest =>
          rw [scanOpts_next, List.length_cons]
          exact (ih path rest).trans (Nat.le_succ _)
      · rw [scanOpts_behind hp heq]
        exact ih arg rest
    · rw [scanOpts_other hp]
      exact ih arg rest

/-- One round for each argument is enough. -/
theorem scanArgs_of_le {n : ℕ} {args : List Text} (h : args.length ≤ n) :
    scanArgs n args = scanArgs args.length args := by
  induction n using Nat.strong_induction_on generalizing args with
  | _ n ih =>
    cases args with
    | nil => cases n <;> rfl
    | cons arg rest =>
      obtain ⟨n, rfl⟩ : ∃ k, n = k + 1 := ⟨n - 1, by simp at h; omega⟩
      have hrest := scanOpts_length unsafeOpts arg rest
      simp only [List.length_cons] at h ⊢
      rw [scanArgs, scanArgs]
      simp only
      rw [ih n (by omega) (by omega), ih rest.length (by omega) hrest]

theorem scanArgs_cons (arg : Text) (rest : List Text) :
    scanArgs (arg :: rest).length (arg :: rest) = checksFrom unsafeOpts arg rest := by
  rw [List.length_cons, scanArgs, checksFrom]
  simp only
  rw [scanArgs_of_le (scanOpts_length unsafeOpts arg rest)]

/-! ### The loop at one argument -/

section

variable {opt arg path : Text} {opts rest : List Text}

theorem scanOpts_append_other {front : List Text} (h : ∀ o ∈ front, ¬ o <+: arg) :
    scanOpts (front ++ opts) arg rest = scanOpts opts arg rest := by
  induction front with
  | nil => rfl
  | cons o front ih =>
    rw [List.forall_mem_cons] at h
    rw [List.cons_append, scanOpts_other h.1, ih h.2]

theorem scanOpts_none (h : ∀ o ∈ opts, ¬ o <+: arg) : scanOpts opts arg rest = ([], rest) := by
  have := @scanOpts_append_other arg [] rest opts h
  rwa [List.append_nil] at this

/-- The options of the loop are the last ones in the list. -/
theorem exists_opts (hopts : opts <:+ unsafeOpts) (hopt : opt ∈ opts) (h : opt <+: arg) :
    ∃ front, opts = front ++ opt :: laterOpts opt ∧ (∀ o ∈ front, ¬ o <+: arg) ∧
      ∀ o ∈ laterOpts opt, ¬ o <+: arg := by
  obtain ⟨before, hbefore⟩ := hopts
  obtain ⟨front, back, rfl⟩ := List.append_of_mem hopt
  have hnodup : unsafeOpts.Nodup := by decide
  rw [← hbefore, ← List.append_assoc] at hnodup
  have hapart := List.nodup_append.mp hnodup
  have hback : back = laterOpts opt := by
    have hfront : ∀ o ∈ before ++ front, decide (o ≠ opt) = true :=
      fun o ho => decide_eq_true (hapart.2.2 o ho opt (.head _))
    rw [laterOpts, ← hbefore, ← List.append_assoc, List.dropWhile_append_of_pos hfront]
    simp
  have hother : ∀ o ∈ unsafeOpts, o ≠ opt → ¬ o <+: arg := fun o ho hne hp =>
    hne (opt_unique ho (hbefore ▸ List.mem_append_right _ hopt) hp h)
  refine ⟨front, by rw [← hback], fun o ho => hother o ?_ ?_, fun o ho => hother o ?_ ?_⟩
  · rw [← hbefore]
    exact List.mem_append_right _ (List.mem_append_left _ ho)
  · exact hapart.2.2 o (List.mem_append_right _ ho) opt (.head _)
  · rw [← hbefore]
    exact List.mem_append_right _ (List.mem_append_right _ (.tail _ (hback ▸ ho)))
  · rintro rfl
    exact (List.nodup_cons.mp hapart.2.1).1 (hback ▸ ho)

theorem checksFrom_none (h : ∀ o ∈ opts, ¬ o <+: arg) :
    checksFrom opts arg rest = scanArgs rest.length rest := by
  rw [checksFrom, scanOpts_none h, List.nil_append]

theorem checksFrom_behind (hopts : opts <:+ unsafeOpts) (hopt : opt ∈ opts) (h : opt <+: arg)
    (hne : arg ≠ opt) : checksFrom opts arg rest =
      ⟨arg, arg.drop opt.length, true⟩ :: scanArgs rest.length rest := by
  obtain ⟨front, rfl, hfront, hlater⟩ := exists_opts hopts hopt h
  rw [checksFrom, scanOpts_append_other hfront, scanOpts_behind h hne, scanOpts_none hlater]
  rfl

theorem checksFrom_last (hopts : opts <:+ unsafeOpts) (hopt : opt ∈ opts) :
    checksFrom opts opt [] = [] := by
  obtain ⟨front, rfl, hfront, _⟩ := exists_opts hopts hopt (List.prefix_refl opt)
  rw [checksFrom, scanOpts_append_other hfront, scanOpts_last]
  rfl

theorem checksFrom_next (hopts : opts <:+ unsafeOpts) (hopt : opt ∈ opts) :
    checksFrom opts opt (path :: rest) =
      ⟨opt, path, false⟩ :: checksFrom (laterOpts opt) path rest := by
  obtain ⟨front, rfl, hfront, _⟩ := exists_opts hopts hopt (List.prefix_refl opt)
  rw [checksFrom, scanOpts_append_other hfront, scanOpts_next]
  rfl

theorem laterOpts_suffix (opt : Text) : laterOpts opt <:+ unsafeOpts :=
  (List.tail_suffix _).trans (List.dropWhile_suffix _)

theorem not_prefix_of_later (hopt : opt ∈ unsafeOpts) : ∀ o ∈ laterOpts opt, ¬ o <+: opt := by
  have : ∀ opt ∈ unsafeOpts, ∀ o ∈ laterOpts opt, ¬ o <+: opt := by decide
  exact this opt hopt

end

/-! ### The scanner at one argument -/

section

variable {opt arg path : Text} {rest : List Text}

theorem pathOptions_next (h : opt ∈ unsafeOpts) (path : Text) (rest : List Text) :
    pathOptions (opt :: path :: rest) = (opt, path) :: pathOptions rest := by
  rw [pathOptions, if_pos h]

theorem pathOptions_last (h : opt ∈ unsafeOpts) : pathOptions [opt] = [] := by
  rw [pathOptions, if_pos h]

theorem pathOptions_none (h : ∀ o ∈ unsafeOpts, ¬ o <+: arg) (rest : List Text) :
    pathOptions (arg :: rest) = pathOptions rest := by
  have hne : arg ∉ unsafeOpts := fun hmem => h arg hmem (List.prefix_refl arg)
  have hfind : unsafeOpts.find? (·.isPrefixOf arg) = none := by
    rw [List.find?_eq_none]
    exact fun o ho hp => h o ho (List.isPrefixOf_iff_prefix.mp hp)
  conv_lhs => unfold pathOptions
  rw [if_neg hne, hfind]

theorem pathOptions_behind (hopt : opt ∈ unsafeOpts) (h : opt <+: arg) (hne : arg ≠ opt)
    (rest : List Text) :
    pathOptions (arg :: rest) = (opt, arg.drop opt.length) :: pathOptions rest := by
  have hmem : arg ∉ unsafeOpts := fun hmem => hne (opt_unique hmem hopt (List.prefix_refl arg) h)
  have hsome : (unsafeOpts.find? (·.isPrefixOf arg)).isSome = true :=
    List.find?_isSome.mpr ⟨opt, hopt, List.isPrefixOf_iff_prefix.mpr h⟩
  obtain ⟨found, hfound⟩ := Option.isSome_iff_exists.mp hsome
  have hfront := List.find?_some (p := fun o : Text => o.isPrefixOf arg) hfound
  have hsame : found = opt := opt_unique (List.mem_of_find?_eq_some hfound) hopt
    (List.isPrefixOf_iff_prefix.mp hfront) h
  conv_lhs => unfold pathOptions
  rw [if_neg hmem, hfound, hsame]

theorem takes_other (h : arg ∉ unsafeOpts) (rest : List Text) : takes (arg :: rest) = takes rest := by
  conv_lhs => unfold takes
  rw [if_neg h]

theorem takes_next (h : opt ∈ unsafeOpts) (path : Text) (rest : List Text) :
    takes (opt :: path :: rest) = (opt, path :: rest) :: takes rest := by
  rw [takes, if_pos h]

theorem takes_last (h : opt ∈ unsafeOpts) : takes [opt] = [] := by
  rw [takes, if_pos h]

/-- An argument in front adds one pair at most and takes none away. -/
theorem pathOptions_cons_length (arg : Text) (rest : List Text) :
    (pathOptions rest).length ≤ (pathOptions (arg :: rest)).length ∧
      (pathOptions (arg :: rest)).length ≤ (pathOptions rest).length + 1 := by
  induction rest generalizing arg with
  | nil =>
    by_cases h : ∃ o ∈ unsafeOpts, o <+: arg
    · obtain ⟨o, ho, hp⟩ := h
      by_cases hne : arg = o
      · rw [hne, pathOptions_last ho]
        exact ⟨le_rfl, Nat.le_succ _⟩
      · rw [pathOptions_behind ho hp hne]
        exact ⟨Nat.le_succ _, le_rfl⟩
    · rw [pathOptions_none fun o ho hp => h ⟨o, ho, hp⟩]
      exact ⟨le_rfl, Nat.le_succ _⟩
  | cons path rest ih =>
    by_cases h : ∃ o ∈ unsafeOpts, o <+: arg
    · obtain ⟨o, ho, hp⟩ := h
      by_cases hne : arg = o
      · have := ih path
        rw [hne, pathOptions_next ho, List.length_cons]
        omega
      · rw [pathOptions_behind ho hp hne]
        exact ⟨Nat.le_succ _, le_rfl⟩
    · rw [pathOptions_none fun o ho hp => h ⟨o, ho, hp⟩]
      exact ⟨le_rfl, Nat.le_succ _⟩

end

/-! ### The loop against the scanner -/

/-- How the loop goes on at an argument. -/
theorem checksFrom_cases {opts : List Text} (hopts : opts <:+ unsafeOpts) (arg : Text)
    (rest : List Text) :
    ((∀ o ∈ opts, ¬ o <+: arg) ∧ checksFrom opts arg rest = scanArgs rest.length rest) ∨
    (∃ o ∈ opts, o <+: arg ∧ arg ≠ o ∧ checksFrom opts arg rest =
      ⟨arg, arg.drop o.length, true⟩ :: scanArgs rest.length rest) ∨
    (arg ∈ opts ∧ rest = [] ∧ checksFrom opts arg rest = []) ∨
    ∃ path rest', arg ∈ opts ∧ rest = path :: rest' ∧
      checksFrom opts arg rest = ⟨arg, path, false⟩ :: checksFrom (laterOpts arg) path rest' := by
  by_cases h : ∃ o ∈ opts, o <+: arg
  · obtain ⟨o, ho, hp⟩ := h
    by_cases hne : arg = o
    · subst hne
      cases rest with
      | nil => exact .inr (.inr (.inl ⟨ho, rfl, checksFrom_last hopts ho⟩))
      | cons path rest =>
        exact .inr (.inr (.inr ⟨path, rest, ho, rfl, checksFrom_next hopts ho⟩))
    · exact .inr (.inl ⟨o, ho, hp, hne, checksFrom_behind hopts ho hp hne⟩)
  · have hnone : ∀ o ∈ opts, ¬ o <+: arg := fun o ho hp => h ⟨o, ho, hp⟩
    exact .inl ⟨hnone, checksFrom_none hnone⟩

theorem pathOptions_length_le_checksFrom (n : ℕ) {opts : List Text} (hopts : opts <:+ unsafeOpts)
    (arg : Text) (rest : List Text) (hn : rest.length ≤ n) :
    (pathOptions rest).length ≤ (checksFrom opts arg rest).length := by
  induction n using Nat.strong_induction_on generalizing opts arg rest with
  | _ n ih =>
    -- the arguments after this one, by the induction hypothesis
    have hloop : (pathOptions rest).length ≤ (scanArgs rest.length rest).length := by
      cases rest with
      | nil => exact le_rfl
      | cons next rest =>
        rw [List.length_cons] at hn
        have hrest : ∀ {o : List Text} (a : Text), o <:+ unsafeOpts →
            (pathOptions rest).length ≤ (checksFrom o a rest).length :=
          fun a ho => ih rest.length (by omega) ho a rest le_rfl
        rw [scanArgs_cons]
        rcases checksFrom_cases (List.suffix_refl unsafeOpts) next rest with
          ⟨hnone, heq⟩ | ⟨o, ho, hp, hne, heq⟩ | ⟨hmem, rfl, heq⟩ | ⟨path, rest', hmem, rfl, heq⟩
        · rw [pathOptions_none hnone]
          exact hrest next (List.suffix_refl _)
        · have := hrest next (List.nil_suffix)
          rw [checksFrom_none (by simp)] at this
          rw [heq, pathOptions_behind ho hp hne, List.length_cons, List.length_cons]
          omega
        · rw [pathOptions_last hmem, heq, List.length_nil, List.length_nil]
        · rw [heq, pathOptions_next hmem, List.length_cons, List.length_cons]
          rw [List.length_cons] at hn
          have := ih rest'.length (by omega) (laterOpts_suffix next) path rest' le_rfl
          omega
    rcases checksFrom_cases hopts arg rest with
      ⟨_, heq⟩ | ⟨_, _, _, _, heq⟩ | ⟨_, rfl, heq⟩ | ⟨path, rest', _, rfl, heq⟩
    · rw [heq]
      exact hloop
    · rw [heq, List.length_cons]
      omega
    · rw [heq]
      exact le_rfl
    · rw [List.length_cons] at hn
      have := ih rest'.length (by omega) (laterOpts_suffix arg) path rest' le_rfl
      have hcons := (pathOptions_cons_length path rest').2
      rw [heq, List.length_cons]
      omega

theorem pair_behind {opt arg : Text} (h : opt <+: arg) :
    PathCheck.pair ⟨arg, arg.drop opt.length, true⟩ = (opt, arg.drop opt.length) := by
  obtain ⟨path, rfl⟩ := h
  simp [PathCheck.pair]

theorem replicate_even_iff {later q r : Text} {rest : List Text} :
    (∃ n, q :: r :: rest = List.replicate (2 * n) later) ↔
      later = q ∧ q = r ∧ ∃ n, rest = List.replicate (2 * n) later := by
  constructor
  · rintro ⟨n, hn⟩
    cases n with
    | zero => simp at hn
    | succ n =>
      rw [Nat.mul_succ, List.replicate_succ, List.replicate_succ] at hn
      obtain ⟨rfl, hn⟩ := List.cons.inj hn
      obtain ⟨rfl, hn⟩ := List.cons.inj hn
      exact ⟨rfl, rfl, n, hn⟩
  · rintro ⟨rfl, rfl, n, rfl⟩
    exact ⟨n + 1, by rw [Nat.mul_succ, List.replicate_succ, List.replicate_succ]⟩

theorem head_eq_of_replicate {later q : Text} {rest : List Text}
    (h : ∃ n, q :: rest = List.replicate n later) : q = later := by
  obtain ⟨n, hn⟩ := h
  exact List.eq_of_mem_replicate (hn ▸ List.mem_cons_self)

/-- An option that is read as a path and again as an option: the pairs agree only when copies of
it follow, and the loop is back in step after two of them. -/
theorem checksFrom_again_iff {opt : Text} (hopt : opt ∈ unsafeOpts) (q : Text) (rest : List Text)
    (hagain : ∀ rest', rest = opt :: rest' →
      ((checksFrom unsafeOpts opt rest').map PathCheck.pair = pathOptions rest' ↔
        ∃ n, rest' = List.replicate (2 * n) opt)) :
    (opt, q) :: (checksFrom (laterOpts opt) q rest).map PathCheck.pair = pathOptions (q :: rest) ↔
      ∃ n, q :: rest = List.replicate (2 * n) opt := by
  have hlong := pathOptions_length_le_checksFrom rest.length (laterOpts_suffix opt) q rest le_rfl
  by_cases hq : ∃ o ∈ unsafeOpts, o <+: q
  · obtain ⟨o, ho, hp⟩ := hq
    by_cases hqo : q = o
    · subst hqo
      cases rest with
      | nil =>
        rw [pathOptions_last ho]
        refine iff_of_false (List.cons_ne_nil _ _) ?_
        rintro ⟨k, hk⟩
        have := congrArg List.length hk
        rw [List.length_replicate, List.length_singleton] at this
        omega
      | cons r rest =>
        rw [pathOptions_next ho, List.cons.injEq, Prod.mk.injEq, replicate_even_iff, and_assoc]
        refine and_congr_right fun hopq => and_congr_right fun hqr => ?_
        subst hopq hqr
        rw [checksFrom_none (not_prefix_of_later hopt), scanArgs_cons]
        exact hagain rest rfl
    · rw [pathOptions_behind ho hp hqo]
      refine iff_of_false ?_ ?_
      · -- the path behind an option is shorter than the argument
        intro h
        have hsame := congrArg List.length (Prod.mk.inj (List.cons.inj h).1).2
        have hpos := List.length_pos_of_ne_nil (opt_ne_nil ho)
        have hle := hp.length_le
        rw [List.length_drop] at hsame
        omega
      · rintro ⟨k, hk⟩
        have hqopt : q = opt := head_eq_of_replicate ⟨_, hk⟩
        exact hqo (opt_unique (hqopt ▸ hopt) ho (List.prefix_refl q) hp)
  · have hnone : ∀ o ∈ unsafeOpts, ¬ o <+: q := fun o ho hp => hq ⟨o, ho, hp⟩
    rw [pathOptions_none hnone]
    refine iff_of_false ?_ ?_
    · intro h
      have := congrArg List.length h
      rw [List.length_cons, List.length_map] at this
      omega
    · rintro ⟨k, hk⟩
      have hqopt : q = opt := head_eq_of_replicate ⟨_, hk⟩
      exact hnone opt hopt (hqopt ▸ List.prefix_refl opt)

/-- A path at which the loop goes on: no option is in front of it, or it is an option and all
that follows are copies of it, an even number. -/
theorem checksFrom_eq_iff (n : ℕ) {opts : List Text} (hopts : opts <:+ unsafeOpts) (path : Text)
    (rest : List Text) (hn : rest.length ≤ n) :
    (checksFrom opts path rest).map PathCheck.pair = pathOptions rest ↔
      ((∀ o ∈ opts, ¬ o <+: path) ∧
        (scanArgs rest.length rest).map PathCheck.pair = pathOptions rest) ∨
      (path ∈ opts ∧ ∃ n, rest = List.replicate (2 * n) path) := by
  induction n using Nat.strong_induction_on generalizing opts path rest with
  | _ n ih =>
    rcases checksFrom_cases hopts path rest with
      ⟨hnone, heq⟩ | ⟨o, ho, hp, hne, heq⟩ | ⟨hmem, rfl, heq⟩ | ⟨q, rest', hmem, rfl, heq⟩
    · have hnot : path ∉ opts := fun h => hnone path h (List.prefix_refl path)
      rw [heq]
      constructor
      · exact fun h => .inl ⟨hnone, h⟩
      · rintro (⟨_, h⟩ | ⟨hmem, _⟩)
        · exact h
        · exact absurd hmem hnot
    · -- one pair too many
      have hlong := pathOptions_length_le_checksFrom rest.length List.nil_suffix path rest le_rfl
      rw [checksFrom_none (by simp)] at hlong
      have hnot : path ∉ opts := fun h => hne (opt_unique (hopts.subset h) (hopts.subset ho)
        (List.prefix_refl path) hp)
      constructor
      · intro h
        have := congrArg List.length h
        rw [heq, List.map_cons, List.length_cons, List.length_map] at this
        omega
      · rintro (⟨hnone, _⟩ | ⟨hmem, _⟩)
        · exact absurd hp (hnone o ho)
        · exact absurd hmem hnot
    · rw [heq]
      exact iff_of_true rfl (.inr ⟨hmem, 0, rfl⟩)
    · have hopt := hopts.subset hmem
      have hmatch : ¬ ∀ o ∈ opts, ¬ o <+: path := fun h => h path hmem (List.prefix_refl path)
      have hagain : ∀ rest'', rest' = path :: rest'' →
          ((checksFrom unsafeOpts path rest'').map PathCheck.pair = pathOptions rest'' ↔
            ∃ n, rest'' = List.replicate (2 * n) path) := by
        rintro rest'' rfl
        simp only [List.length_cons] at hn
        rw [ih rest''.length (by omega) (List.suffix_refl _) path rest'' le_rfl]
        constructor
        · rintro (⟨hnone, _⟩ | ⟨_, h⟩)
          · exact absurd (List.prefix_refl path) (hnone path hopt)
          · exact h
        · exact fun h => .inr ⟨hopt, h⟩
      rw [heq, List.map_cons]
      simp only [hmatch, hmem, false_and, false_or, true_and]
      exact checksFrom_again_iff hopt q rest' hagain

/-! ### Misread arguments -/

section

variable {opt arg path : Text} {rest : List Text}

theorem misread_other (h : arg ∉ unsafeOpts) : Misread (arg :: rest) ↔ Misread rest := by
  rw [Misread, takes_other h, Misread]

theorem misread_next (h : opt ∈ unsafeOpts) : Misread (opt :: path :: rest) ↔
    (∃ later ∈ laterOpts opt, later <+: path ∧
      ¬ (path = later ∧ ∃ n, rest = List.replicate (2 * n) later)) ∨ Misread rest := by
  rw [Misread, takes_next h, Misread]
  constructor
  · rintro ⟨opt', path', rest', hmem, hlater⟩
    rcases List.mem_cons.mp hmem with heq | hmem
    · obtain ⟨rfl, hrest⟩ := Prod.mk.inj heq
      obtain ⟨rfl, rfl⟩ := List.cons.inj hrest
      exact .inl hlater
    · exact .inr ⟨opt', path', rest', hmem, hlater⟩
  · rintro (hlater | ⟨opt', path', rest', hmem, hlater⟩)
    · exact ⟨opt, path, rest, .head _, hlater⟩
    · exact ⟨opt', path', rest', .tail _ hmem, hlater⟩

/-- Copies of one option are read in step. -/
theorem not_misread_replicate (h : opt ∈ unsafeOpts) (n : ℕ) :
    ¬ Misread (List.replicate (2 * n) opt) := by
  induction n with
  | zero =>
    rintro ⟨_, _, _, hmem, _⟩
    exact absurd hmem List.not_mem_nil
  | succ n ih =>
    rw [Nat.mul_succ, List.replicate_succ, List.replicate_succ, misread_next h]
    rintro (⟨later, hlater, hp, _⟩ | hrest)
    · exact not_prefix_of_later h later hlater hp
    · exact ih hrest

end

/-- The pairs of the loop are those of the scanner just when nothing is misread. -/
theorem pairs_eq_iff (args : List Text) :
    (scanArgs args.length args).map PathCheck.pair = pathOptions args ↔ ¬ Misread args := by
  induction hn : args.length using Nat.strong_induction_on generalizing args with
  | _ n ih =>
    subst hn
    cases args with
    | nil =>
      refine iff_of_true rfl ?_
      rintro ⟨_, _, _, hmem, _⟩
      exact absurd hmem List.not_mem_nil
    | cons arg rest =>
      have hrest := ih rest.length (Nat.lt_succ_self _) rest rfl
      rw [scanArgs_cons]
      rcases checksFrom_cases (List.suffix_refl unsafeOpts) arg rest with
        ⟨hnone, heq⟩ | ⟨o, ho, hp, hne, heq⟩ | ⟨hmem, rfl, heq⟩ | ⟨path, rest', hmem, rfl, heq⟩
      · have hnot : arg ∉ unsafeOpts := fun h => hnone arg h (List.prefix_refl arg)
        rw [heq, pathOptions_none hnone, misread_other hnot]
        exact hrest
      · have hnot : arg ∉ unsafeOpts :=
          fun h => hne (opt_unique h ho (List.prefix_refl arg) hp)
        rw [heq, List.map_cons, pair_behind hp, pathOptions_behind ho hp hne, misread_other hnot,
          List.cons.injEq, and_iff_right rfl]
        exact hrest
      · rw [heq, pathOptions_last hmem]
        refine iff_of_true rfl ?_
        rintro ⟨_, _, _, htakes, _⟩
        rw [takes_last hmem] at htakes
        exact absurd htakes List.not_mem_nil
      · have hafter := ih rest'.length (by simp only [List.length_cons]; omega) rest' rfl
        have hpair : PathCheck.pair ⟨arg, path, false⟩ = (arg, path) := rfl
        rw [heq, List.map_cons, hpair, pathOptions_next hmem, List.cons.injEq, and_iff_right rfl,
          checksFrom_eq_iff rest'.length (laterOpts_suffix arg) path rest' le_rfl, misread_next hmem,
          not_or, hafter]
        have hsub := (laterOpts_suffix arg).subset
        constructor
        · rintro (⟨hnone, hok⟩ | ⟨hlater, k, rfl⟩)
          · exact ⟨fun ⟨later, hlater, hp, _⟩ => hnone later hlater hp, hok⟩
          · refine ⟨?_, not_misread_replicate (hsub hlater) k⟩
            rintro ⟨later, hl, hp, hnot⟩
            have hsame := opt_unique (hsub hlater) (hsub hl) (List.prefix_refl path) hp
            exact hnot ⟨hsame, k, hsame ▸ rfl⟩
        · rintro ⟨hhead, hok⟩
          by_cases hlater : ∃ later ∈ laterOpts arg, later <+: path
          · obtain ⟨later, hl, hp⟩ := hlater
            obtain ⟨rfl, hcopies⟩ := not_not.mp fun hnot => hhead ⟨later, hl, hp, hnot⟩
            exact .inr ⟨hl, hcopies⟩
          · exact .inl ⟨fun o ho hp => hlater ⟨o, ho, hp⟩, hok⟩

theorem main_exit_iff (m : Macros) (p : Paths) {env : Env} (h : env.paranoid = true) (argv : Argv) :
    main m p env argv = .exit 1 ↔
      ∃ c ∈ scanArgs argv.argc argv.args, ∃ dir ∈ unsafePaths, dir <+: c.path := by
  have hunsafe : (scanArgs argv.argc argv.args).any PathCheck.isUnsafe = true ↔
      ∃ c ∈ scanArgs argv.argc argv.args, ∃ dir ∈ unsafePaths, dir <+: c.path := by
    simp only [List.any_eq_true, PathCheck.isUnsafe, List.isPrefixOf_iff_prefix]
  rw [← hunsafe, main, h, Bool.true_and]
  split_ifs with hany
  · exact iff_of_true rfl hany
  · exact iff_of_false (by simp) hany

/-- The scan sees the options and paths that the scanner sees, and in paranoid mode the wrapper
stops over an unsafe one of these, exactly when no argument is misread. -/
theorem scan_sees_iff (argv : Argv) :
    ((scanArgs argv.argc argv.args).map PathCheck.pair = pathOptions argv.args ∧
      ∀ (m : Macros) (p : Paths) (env : Env), env.paranoid = true →
        (main m p env argv = .exit 1 ↔
          ∃ c ∈ pathOptions argv.args, ∃ dir ∈ unsafePaths, dir <+: c.2)) ↔
      ¬ Misread argv.args := by
  have hrounds : scanArgs argv.argc argv.args = scanArgs argv.args.length argv.args :=
    scanArgs_of_le (Nat.le_succ _)
  rw [← pairs_eq_iff, ← hrounds]
  refine and_iff_left_of_imp fun hpairs m p env hparanoid => ?_
  rw [main_exit_iff m p hparanoid, ← hpairs]
  simp only [List.mem_map, exists_exists_and_eq_and]
  rfl

/-- `-I` with a path that looks like an option. -/
def optionPath : Argv := ⟨"gcc".toList, ["-I".toList, "-L/lib".toList]⟩

/-- The path is read again as the option `-L`, with a path that is unsafe. -/
theorem scan_reads_twice :
    ¬ ((scanArgs optionPath.argc optionPath.args).map PathCheck.pair = pathOptions optionPath.args ∧
      ∀ (m : Macros) (p : Paths) (env : Env), env.paranoid = true →
        (main m p env optionPath = .exit 1 ↔
          ∃ c ∈ pathOptions optionPath.args, ∃ dir ∈ unsafePaths, dir <+: c.2)) := by
  intro h
  exact absurd h.1 (by decide)

end CargosBuildroot.Toolchain
