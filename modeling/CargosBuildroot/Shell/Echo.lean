import CargosBuildroot.Shell.Words
import Mathlib.Data.List.Infix

/-! What `echo` prints, and which texts an unquoted expansion leaves alone: those with single
blanks between their words, and none at either end. -/

namespace CargosBuildroot.Shell

def isEchoOption : Text → Bool
  | '-' :: flags => flags ≠ [] && flags.all fun c => c = 'n' || c = 'e' || c = 'E'
  | _ => false

/-- What `echo` prints, where `interpreted` is what it makes of a text with `-e`, with or without
a newline. -/
def echoArguments (interpreted : Bool → Text → Text) (arguments : List Text) : Text :=
  let flags := (arguments.takeWhile isEchoOption).flatten
  let text := [' '].intercalate (arguments.dropWhile isEchoOption)
  let newline := 'n' ∉ flags
  if (flags.filter fun c => c = 'e' || c = 'E').getLast? = some 'e' then interpreted newline text
  else text ++ if newline then ['\n'] else []

/-- One blank between two words, and nothing else around them. -/
structure SingleSpaced (t : Text) : Prop where
  space : ∀ c ∈ t, isSpace c = true → c = ' '
  head : t.head? ≠ some ' '
  last : t.getLast? ≠ some ' '
  double : ¬ [' ', ' '] <:+: t

/-- Where a piece of a text stands: at the beginning, at the end or between separators. -/
theorem mem_splitOn_cases {x : Char} {t w : Text} (h : w ∈ t.splitOn x) :
    t = w ∨ (∃ r, t = w ++ x :: r) ∨ (∃ a, t = a ++ x :: w) ∨
      ∃ a r, t = a ++ x :: (w ++ x :: r) := by
  induction hn : t.length using Nat.strong_induction_on generalizing t with
  | _ n ih =>
    by_cases hx : x ∈ t
    · obtain ⟨a, b, rfl, ha⟩ := List.eq_append_cons_of_mem hx
      rw [List.splitOn_append_cons_self_of_not_mem ha] at h
      rcases List.mem_cons.mp h with rfl | h
      · exact .inr (.inl ⟨b, rfl⟩)
      have hlt : b.length < n := by
        rw [← hn, List.length_append, List.length_cons]
        omega
      rcases ih _ hlt h rfl with rfl | ⟨r, rfl⟩ | ⟨a', rfl⟩ | ⟨a', r, rfl⟩
      · exact .inr (.inr (.inl ⟨a, rfl⟩))
      · exact .inr (.inr (.inr ⟨a, r, rfl⟩))
      · exact .inr (.inr (.inl ⟨a ++ x :: a', by simp⟩))
      · exact .inr (.inr (.inr ⟨a ++ x :: a', r, by simp⟩))
    · rw [List.splitOn_eq_singleton hx] at h
      exact .inl (List.mem_singleton.mp h).symm

theorem mem_of_mem_splitOn {x c : Char} {t w : Text} (h : w ∈ t.splitOn x) (hc : c ∈ w) :
    c ∈ t := by
  rcases mem_splitOn_cases h with rfl | ⟨r, rfl⟩ | ⟨a, rfl⟩ | ⟨a, r, rfl⟩ <;> simp [hc]

/-- A text has an empty piece where it has nothing before, after or between its separators. -/
theorem nil_mem_splitOn {x : Char} {t : Text} (h : [] ∈ t.splitOn x) :
    t = [] ∨ t.head? = some x ∨ t.getLast? = some x ∨ [x, x] <:+: t := by
  rcases mem_splitOn_cases h with rfl | ⟨r, rfl⟩ | ⟨a, rfl⟩ | ⟨a, r, rfl⟩
  · exact .inl rfl
  · exact .inr (.inl rfl)
  · exact .inr (.inr (.inl List.getLast?_concat))
  · exact .inr (.inr (.inr ⟨a, r, by simp⟩))

theorem nil_mem_append_cons {x : Char} (a : Text) {b : Text} (h : [] ∈ b.splitOn x) :
    [] ∈ (a ++ x :: b).splitOn x := by
  rw [List.splitOn_append_cons_self]
  exact List.mem_append_right _ h

theorem nil_mem_cons (x : Char) (b : Text) : [] ∈ (x :: b).splitOn x := by
  have h := List.splitOn_append_cons_self (a := x) [] b
  rw [List.nil_append, List.splitOn_nil] at h
  rw [h]
  exact .head _

theorem SingleSpaced.of_pieces {t : Text} (hspace : ∀ c ∈ t, isSpace c = true → c = ' ')
    (h : [] ∉ t.splitOn ' ') : SingleSpaced t where
  space := hspace
  head := by
    intro hhead
    obtain ⟨rest, rfl⟩ := List.head?_eq_some_iff.mp hhead
    exact h (nil_mem_cons _ _)
  last := by
    intro hlast
    obtain ⟨front, rfl⟩ := List.getLast?_eq_some_iff.mp hlast
    exact h (nil_mem_append_cons front (by simp))
  double := by
    rintro ⟨a, b, rfl⟩
    rw [List.append_assoc] at h
    exact h (nil_mem_append_cons a (nil_mem_cons _ _))

theorem splitOnP_blank {p : Char → Bool} {t : Text} (hp : p ' ' = true) (h : ∀ c ∈ t, p c = true → c = ' ') :
    t.splitOnP p = t.splitOn ' ' := by
  induction t with
  | nil => rfl
  | cons c t ih =>
    have hc : p c = (c == ' ') := by
      rw [Bool.eq_iff_iff, beq_iff_eq]
      exact ⟨h c (.head _), by rintro rfl; exact hp⟩
    rw [List.splitOn_cons_eq_if_modifyHead, List.splitOnP_cons_eq_if_modifyHead, hc,
      ih fun c hc => h c (.tail _ hc)]

theorem not_of_mem_splitOnP {p : Char → Bool} {t w : Text} (h : w ∈ t.splitOnP p) :
    ∀ c ∈ w, p c = false := by
  induction t generalizing w with
  | nil =>
    rw [List.splitOnP_nil, List.mem_singleton] at h
    rw [h]
    simp
  | cons c t ih =>
    rw [List.splitOnP_cons_eq_if_modifyHead] at h
    split_ifs at h with hc
    · rcases List.mem_cons.mp h with rfl | h
      · simp
      · exact ih h
    · obtain ⟨v, vs, hsplit⟩ := List.exists_cons_of_ne_nil (List.splitOnP_ne_nil p t)
      rw [hsplit, List.modifyHead_cons] at h
      rw [hsplit] at ih
      rcases List.mem_cons.mp h with rfl | h
      · intro d hd
        rcases List.mem_cons.mp hd with rfl | hd
        · exact Bool.eq_false_iff.mpr hc
        · exact ih (.head _) d hd
      · exact ih (.tail _ h)

theorem word_of_mem_words {t w : Text} (h : w ∈ words t) :
    w ≠ [] ∧ ∀ c ∈ w, isSpace c = false := by
  obtain ⟨hmem, hne⟩ := List.mem_filter.mp h
  exact ⟨of_decide_eq_true hne, not_of_mem_splitOnP hmem⟩

/-- An unquoted expansion prints the text as it is only if it is single-spaced. -/
theorem echo_eq_iff {t : Text} : echo t = t ↔ SingleSpaced t := by
  constructor
  · intro h
    rw [echo] at h
    rcases hwords : words t with _ | ⟨w, ws⟩
    · rw [hwords, List.intercalate_nil] at h
      rw [← h]
      exact ⟨by simp, by simp, by simp, by simp⟩
    · have hword : ∀ w ∈ words t, w ≠ [] ∧ ∀ c ∈ w, isSpace c = false :=
        fun w hw => word_of_mem_words hw
      rw [hwords] at h hword
      have hpieces : t.splitOn ' ' = w :: ws := by
        rw [← h]
        refine List.splitOn_intercalate _ (fun w hw hmem => ?_) (List.cons_ne_nil _ _)
        exact absurd ((hword w hw).2 _ hmem) (by decide)
      refine .of_pieces (fun c hc hspace => ?_) fun hnil => ?_
      · rw [← h] at hc
        rcases mem_intercalate hc with rfl | ⟨w, hw, hc⟩
        · rfl
        · rw [(hword w hw).2 c hc] at hspace
          cases hspace
      · rw [hpieces] at hnil
        exact (hword [] hnil).1 rfl
  · intro h
    by_cases hnil : t = []
    · rw [hnil]
      rfl
    · have hpieces : [] ∉ t.splitOn ' ' := by
        intro hmem
        rcases nil_mem_splitOn hmem with h' | h' | h' | h'
        · exact hnil h'
        · exact h.head h'
        · exact h.last h'
        · exact h.double h'
      have hwords : words t = t.splitOn ' ' := by
        rw [words, splitOnP_blank rfl h.space]
        refine List.filter_eq_self.mpr fun w hw => decide_eq_true ?_
        rintro rfl
        exact hpieces hw
      rw [echo, hwords]
      exact List.intercalate_splitOn ' '

end CargosBuildroot.Shell
