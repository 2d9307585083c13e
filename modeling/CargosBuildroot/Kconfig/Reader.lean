import CargosBuildroot.Shell.Read
import Mathlib.Data.List.Forall2

/-! Reading of Kconfig text: the lexer of `zconf.l` for the lines of a file, and the
statements that need no nesting (`menu`, `comment`, `config`, `source` and the options
of a string). A string that is not closed in its line, and a line that goes on in the
next one, are errors. -/

namespace CargosBuildroot.Kconfig

open Shell

/-! ### Tokens of a line -/

inductive Token
  | word (t : Text) | quoted (t : Text) | op (c : Char)
  deriving DecidableEq

/-- Where the lexer is: between tokens, after a single `&` or `|`, after a backslash, in
a word, in a string (with its quote), after a backslash in a string, in a comment. -/
inductive LexState
  | param | half (c : Char) | backslash
  | inWord (acc : Text) | inString (quote : Char) (acc : Text)
  | escape (quote : Char) (acc : Text) | comment

/-- `[A-Za-z0-9_]` -/
def isNameChar (c : Char) : Bool := c.isAlphanum || c = '_'

/-- The characters of a word in the state `PARAM`. -/
def isWordChar (c : Char) : Bool := isNameChar c || c = '-' || c = '/' || c = '.'

/-- A character between tokens. -/
def start (c : Char) : LexState × List Token :=
  if c = '\x22' ∨ c = '\x27' then (.inString c [], [])
  else if c = '#' then (.comment, [])
  else if c = '\\' then (.backslash, [])
  else if c = '&' ∨ c = '|' then (.half c, [])
  else if c = '(' ∨ c = ')' ∨ c = '!' ∨ c = '=' then (.param, [.op c])
  else if isWordChar c then (.inWord [c], [])
  else (.param, [])

/-- A word; three dashes are ignored. -/
def wordToken (t : Text) : List Token := if t = "---".toList then [] else [.word t]

/-- One character, with the tokens that it ends. -/
def step : LexState → Char → LexState × List Token
  | .param, c | .backslash, c => start c
  | .half d, c => if c = d then (.param, [.op c]) else start c
  | .inWord acc, c =>
    if isWordChar c then (.inWord (acc ++ [c]), [])
    else ((start c).1, wordToken acc ++ (start c).2)
  | .inString q acc, c =>
    if c = '\\' then (.escape q acc, [])
    else if c = q then (.param, [.quoted acc])
    else (.inString q (acc ++ [c]), [])
  | .escape q acc, c => (.inString q (acc ++ [c]), [])
  | .comment, _ => (.comment, [])

/-- The end of the line. -/
def finish : LexState → Option (List Token)
  | .inWord acc => some (wordToken acc)
  | .inString _ _ | .escape _ _ | .backslash => none
  | .param | .half _ | .comment => some []

def lex (s : LexState) : Text → Option (List Token)
  | [] => finish s
  | c :: t => (lex (step s c).1 t).map ((step s c).2 ++ ·)

/-! ### Statements -/

inductive Statement
  | menu (prompt : Text) | endmenu | comment (prompt : Text) | source (file : Text)
  | config (symbol : Text) | string (prompt : Option Text) | default (value : Text)
  deriving DecidableEq

/-- `prompt: T_WORD | T_WORD_QUOTE` -/
def Token.prompt : Token → Option Text
  | .word t | .quoted t => some t
  | .op _ => none

/-- Leading white space of a prompt is ignored. -/
def stripLeading (t : Text) : Text :=
  t.dropWhile fun c => c = ' ' || c = '\t' || c = '\n' || c = '\x0b' || c = '\x0c' || c = '\r'

/-- The statement of a keyword. -/
def parse (keyword : Text) : List Token → Option Statement
  | [] =>
    if keyword = "endmenu".toList then some .endmenu
    else if keyword = "string".toList then some (.string none)
    else none
  | [token] =>
    if keyword = "menu".toList then token.prompt.map fun t => .menu (stripLeading t)
    else if keyword = "comment".toList then token.prompt.map fun t => .comment (stripLeading t)
    else if keyword = "source".toList then token.prompt.map .source
    else if keyword = "string".toList then token.prompt.map fun t => .string (some (stripLeading t))
    else if keyword = "default".toList then token.prompt.map .default
    else match token with
      | .word t => if keyword = "config".toList then some (.config t) else none
      | _ => none
  | _ => none

/-- A line: nothing, a comment, or a keyword and the tokens after it. Other characters
before the keyword are skipped. -/
def readLine (line : Text) : Option (List Statement) :=
  let l := line.dropWhile isBlank
  let k := l.dropWhile (!isNameChar ·)
  if l.head? = some '#' ∨ k = [] then some []
  else ((lex .param (k.dropWhile isNameChar)).bind (parse (k.takeWhile isNameChar))).map ([·])

def readLines : List Text → Option (List Statement)
  | [] => some []
  | l :: ls =>
    match readLine l, readLines ls with
    | some s, some r => some (s ++ r)
    | _, _ => none

def read (t : Text) : Option (List Statement) := readLines (lines t)

/-- Every menu is closed, and nothing else is. -/
def menusClosed : ℕ → List Statement → Bool
  | n, [] => n = 0
  | n, .menu _ :: ss => menusClosed (n + 1) ss
  | n, .endmenu :: ss => n ≠ 0 && menusClosed (n - 1) ss
  | n, _ :: ss => menusClosed n ss

/-! ### Strings -/

/-- What the lexer keeps of a string: no quote and no backslash. -/
def Quotable (t : Text) : Prop := ∀ c ∈ t, c ≠ '\x22' ∧ c ≠ '\\'

instance (t : Text) : Decidable (Quotable t) := List.decidableBAll _ t

theorem quotable_append {s t : Text} : Quotable (s ++ t) ↔ Quotable s ∧ Quotable t :=
  List.forall_mem_append

theorem lex_quoted {t : Text} (ht : Quotable t) (acc : Text) :
    lex (.inString '\x22' acc) (t ++ ['\x22']) = some [.quoted (acc ++ t)] := by
  induction t generalizing acc with
  | nil => simp [lex, step, finish]
  | cons c t ih =>
    obtain ⟨hquote, hback⟩ := ht c (.head _)
    rw [List.cons_append, lex]
    simp only [step, if_neg hback, if_neg hquote]
    rw [ih fun d hd => ht d (.tail _ hd)]
    simp

/-- A string is shorter than its text. -/
theorem length_of_lex {s : LexState} {q : Char} {acc t : Text} {ts : List Token}
    (hs : s = .inString q acc ∨ s = .escape q acc) (h : lex s t = some ts) :
    ∃ v rest, ts = .quoted v :: rest ∧ v.length + 1 ≤ acc.length + t.length := by
  induction t generalizing s acc ts with
  | nil =>
    rcases hs with rfl | rfl
    · cases h
    · cases h
  | cons c t ih =>
    rw [lex, Option.map_eq_some_iff] at h
    obtain ⟨ts', hlex, rfl⟩ := h
    rcases hs with rfl | rfl
    · simp only [step] at hlex ⊢
      by_cases hback : c = '\\'
      · rw [if_pos hback] at hlex ⊢
        obtain ⟨v, rest, rfl, hv⟩ := ih (.inr rfl) hlex
        exact ⟨v, rest, rfl, by simp only [List.length_cons]; omega⟩
      · rw [if_neg hback] at hlex ⊢
        by_cases hquote : c = q
        · rw [if_pos hquote]
          exact ⟨acc, ts', rfl, by simp⟩
        · rw [if_neg hquote] at hlex ⊢
          obtain ⟨v, rest, rfl, hv⟩ := ih (.inl rfl) hlex
          refine ⟨v, rest, rfl, ?_⟩
          simp only [List.length_cons, List.length_append, List.length_nil] at hv ⊢
          omega
    · simp only [step] at hlex ⊢
      obtain ⟨v, rest, rfl, hv⟩ := ih (.inl rfl) hlex
      refine ⟨v, rest, rfl, ?_⟩
      simp only [List.length_cons, List.length_append, List.length_nil] at hv ⊢
      omega

/-- A string that keeps all its characters has no quote and no backslash. -/
theorem quotable_of_lex {t acc : Text} {rest : List Token}
    (h : lex (.inString '\x22' acc) (t ++ ['\x22']) = some (.quoted (acc ++ t) :: rest)) : Quotable t := by
  induction t generalizing acc with
  | nil => simp [Quotable]
  | cons c t ih =>
    have hlex := h
    rw [List.cons_append, lex, Option.map_eq_some_iff] at h
    obtain ⟨ts', hstep, hts⟩ := h
    simp only [step] at hstep hts
    by_cases hback : c = '\\'
    · rw [if_pos hback] at hstep hts
      obtain ⟨v, rest', rfl, hv⟩ := length_of_lex (.inr rfl) hstep
      simp only [List.nil_append, List.cons.injEq, Token.quoted.injEq] at hts
      rw [hts.1] at hv
      simp only [List.length_append, List.length_cons, List.length_nil] at hv
      omega
    · rw [if_neg hback] at hstep hts
      by_cases hquote : c = '\x22'
      · rw [if_pos hquote] at hts
        simp at hts
      · rw [if_neg hquote] at hstep hts
        rw [List.nil_append] at hts
        subst hts
        have hrest := @ih (acc ++ [c]) (by simpa using hstep)
        intro d hd
        rcases List.mem_cons.mp hd with rfl | hd
        · exact ⟨hquote, hback⟩
        · exact hrest d hd

theorem lex_string (t : Text) : lex .param (' ' :: '\x22' :: t) = lex (.inString '\x22' []) t := by
  have hblank : start ' ' = (.param, []) := rfl
  have hquote : start '\x22' = (.inString '\x22' [], []) := rfl
  simp [lex, step, hblank, hquote]

/-! ### Lines -/

theorem not_blank_of_nameChar {c : Char} (h : isNameChar c = true) : isBlank c = false ∧ c ≠ '#' := by
  constructor
  · by_contra hb
    simp only [Bool.not_eq_false, isBlank, Bool.or_eq_true, decide_eq_true_eq] at hb
    rcases hb with rfl | rfl <;> cases h
  · rintro rfl
    cases h

/-- A line that starts with a keyword. -/
theorem readLine_keyword {indent keyword : Text} (hindent : indent.all isBlank = true)
    (hne : keyword ≠ []) (hname : keyword.all isNameChar = true) {c : Char} (hc : isNameChar c = false)
    (rest : Text) : readLine (indent ++ keyword ++ c :: rest) =
      ((lex .param (c :: rest)).bind (parse keyword)).map ([·]) := by
  have hall := List.all_eq_true.mp hname
  obtain ⟨k, ks, rfl⟩ := List.exists_cons_of_ne_nil hne
  obtain ⟨hk, hhash⟩ := not_blank_of_nameChar (hall k (.head _))
  have hdrop : (indent ++ k :: ks ++ c :: rest).dropWhile isBlank = k :: ks ++ c :: rest := by
    rw [List.append_assoc, List.dropWhile_append_of_pos (List.all_eq_true.mp hindent)]
    exact List.dropWhile_cons_of_neg (by simp [hk])
  have hstart : (k :: ks ++ c :: rest).dropWhile (!isNameChar ·) = k :: ks ++ c :: rest :=
    List.dropWhile_cons_of_neg (by simp [hall k (.head _)])
  have htake : (k :: ks ++ c :: rest).takeWhile isNameChar = k :: ks := by
    rw [List.takeWhile_append_of_pos hall, List.takeWhile_cons_of_neg (by simp [hc]), List.append_nil]
  have hrest : (k :: ks ++ c :: rest).dropWhile isNameChar = c :: rest := by
    rw [List.dropWhile_append_of_pos hall, List.dropWhile_cons_of_neg (by simp [hc])]
  have hcond : ¬ ((k :: ks ++ c :: rest).head? = some '#' ∨ k :: ks ++ c :: rest = []) := by
    simp [hhash]
  rw [readLine, hdrop, hstart, if_neg hcond, htake, hrest]

theorem readLines_append (l l' : List Text) : readLines (l ++ l') =
    match readLines l, readLines l' with
    | some s, some s' => some (s ++ s')
    | _, _ => none := by
  induction l with
  | nil => cases h : readLines l' <;> simp [readLines, h]
  | cons a l ih =>
    rw [List.cons_append, readLines, readLines, ih]
    cases readLine a <;> cases readLines l <;> cases readLines l' <;> simp

theorem readLines_append_some {l l' : List Text} {s : List Statement} :
    readLines (l ++ l') = some s ↔
      ∃ a b, readLines l = some a ∧ readLines l' = some b ∧ s = a ++ b := by
  rw [readLines_append]
  cases readLines l <;> cases readLines l' <;> simp [eq_comm]

theorem readLines_cons_some {l : Text} {ls : List Text} {s : List Statement} :
    readLines (l :: ls) = some s ↔
      ∃ a b, readLine l = some a ∧ readLines ls = some b ∧ s = a ++ b := by
  rw [readLines]
  cases readLine l <;> cases readLines ls <;> simp [eq_comm]

/-- Lines that give one statement each, if they can be read at all. -/
theorem readLines_singles {ls : List Text} {ss : List Statement}
    (hone : ∀ l ∈ ls, ∀ s, readLine l = some s → s.length = 1) :
    readLines ls = some ss ↔ List.Forall₂ (fun l st => readLine l = some [st]) ls ss := by
  induction ls generalizing ss with
  | nil => simp [readLines, eq_comm]
  | cons l ls ih =>
    rw [readLines_cons_some]
    constructor
    · rintro ⟨s, r, hs, hr, rfl⟩
      obtain ⟨st, rfl⟩ := List.length_eq_one_iff.mp (hone l (.head _) s hs)
      exact .cons hs ((ih fun l' hl' => hone l' (.tail _ hl')).mp hr)
    · rintro (_ | ⟨hs, hr⟩)
      exact ⟨_, _, hs, (ih fun l' hl' => hone l' (.tail _ hl')).mpr hr, rfl⟩

/-- Groups of lines that have a known number of statements can be read one by one. -/
theorem readLines_flatMap {α : Type*} {f : α → List Text} {g : α → List Statement} {as : List α}
    (hlength : ∀ a ∈ as, ∀ s, readLines (f a) = some s → s.length = (g a).length) :
    readLines (as.flatMap f) = some (as.flatMap g) ↔ ∀ a ∈ as, readLines (f a) = some (g a) := by
  induction as with
  | nil => simp [readLines]
  | cons a as ih =>
    rw [List.flatMap_cons, List.flatMap_cons, readLines_append_some, List.forall_mem_cons,
      ← ih fun b hb => hlength b (.tail _ hb)]
    constructor
    · rintro ⟨s, s', hs, hs', heq⟩
      obtain ⟨rfl, rfl⟩ := List.append_inj heq (hlength a (.head _) s hs).symm
      exact ⟨hs, hs'⟩
    · exact fun ⟨hs, hs'⟩ => ⟨_, _, hs, hs', rfl⟩

/-- The string of a line is at most as long as what stands between its quotes. -/
theorem readLine_quoted (indent keyword content : Text) (hindent : indent.all isBlank = true)
    (hne : keyword ≠ []) (hname : keyword.all isNameChar = true) :
    readLine (indent ++ keyword ++ " \"".toList ++ content ++ ['\x22']) =
      ((lex (.inString '\x22' []) (content ++ ['\x22'])).bind (parse keyword)).map ([·]) := by
  have hline : indent ++ keyword ++ " \"".toList ++ content ++ ['\x22'] =
      indent ++ keyword ++ ' ' :: ('\x22' :: (content ++ ['\x22'])) := by
    simp
  rw [hline, readLine_keyword hindent hne hname rfl, lex_string]

/-- A line with a string gives one statement, if it can be read. -/
theorem length_of_quoted (indent : Text) {keyword content : Text} (hindent : indent.all isBlank = true)
    (hne : keyword ≠ []) (hname : keyword.all isNameChar = true) {s : List Statement}
    (h : readLine (indent ++ keyword ++ " \"".toList ++ content ++ ['\x22']) = some s) :
    s.length = 1 := by
  rw [readLine_quoted indent keyword content hindent hne hname] at h
  obtain ⟨st, -, rfl⟩ := Option.map_eq_some_iff.mp h
  rfl

/-- A statement made of a string: its text is all of the string if and only if nothing
of the string is special. -/
theorem parse_string_iff (keyword content : Text) (make : Text → Statement) (fix : Text → Text)
    (hmake : ∀ token, parse keyword [token] = token.prompt.map fun t => make (fix t))
    (hnone : parse keyword [] ≠ some (make content)) (hinj : ∀ s t, make s = make t → s = t)
    (hfix : ∀ t, fix t <:+ t) :
    (lex (.inString '\x22' []) (content ++ ['\x22'])).bind (parse keyword) = some (make content) ↔
      Quotable content ∧ fix content = content := by
  constructor
  · intro h
    obtain ⟨ts, hlex, hparse⟩ := Option.bind_eq_some_iff.mp h
    obtain ⟨v, rest, rfl, hv⟩ := length_of_lex (.inl rfl) hlex
    cases rest with
    | cons _ _ => cases hparse
    | nil =>
      rw [hmake] at hparse
      have heq : fix v = content := hinj _ _ (Option.some.inj hparse)
      have hsame : fix v = v := by
        apply (hfix v).eq_of_length_le
        rw [heq]
        simpa using hv
      rw [hsame] at heq
      subst heq
      exact ⟨quotable_of_lex hlex, hsame⟩
  · rintro ⟨hquotable, hsame⟩
    rw [lex_quoted hquotable, Option.bind_some, List.nil_append, hmake]
    simp [Token.prompt, hsame]

/-! ### Words and comments -/

theorem lex_inWord {t : Text} (ht : t.all isWordChar = true) (acc : Text) :
    lex (.inWord acc) t = some (wordToken (acc ++ t)) := by
  induction t generalizing acc with
  | nil => simp [lex, finish]
  | cons c t ih =>
    rw [List.all_cons, Bool.and_eq_true] at ht
    simp only [lex, step, ht.1, if_true]
    rw [ih ht.2]
    simp

theorem lex_word {c : Char} {t : Text} (hc : isNameChar c = true) (ht : t.all isWordChar = true) :
    lex .param (c :: t) = some [.word (c :: t)] := by
  have hne : ∀ d, isNameChar d = false → c ≠ d := by
    rintro d hd rfl
    rw [hc] at hd
    cases hd
  have hstart : start c = (.inWord [c], []) := by
    have hword : isWordChar c = true := by simp [isWordChar, hc]
    simp [start, hword, hne '\x22' rfl, hne '\x27' rfl, hne '#' rfl, hne '\\' rfl, hne '&' rfl,
      hne '|' rfl, hne '(' rfl, hne ')' rfl, hne '!' rfl, hne '=' rfl]
  have hdash : c :: t ≠ "---".toList := by
    intro h
    rw [(List.cons.inj h).1] at hc
    cases hc
  simp only [lex, step, hstart]
  rw [lex_inWord ht, List.singleton_append, wordToken, if_neg hdash]
  rfl

theorem lex_blank (t : Text) : lex .param (' ' :: t) = lex .param t := by
  have hblank : start ' ' = (.param, []) := rfl
  simp [lex, step, hblank]

theorem lex_comment (t : Text) : lex .comment t = some [] := by
  induction t with
  | nil => rfl
  | cons c t ih => simp [lex, step, ih]

/-! ### The characters of the statements -/

def Token.text : Token → Text
  | .word t | .quoted t => t
  | .op c => [c]

def LexState.acc : LexState → Text
  | .inWord acc | .inString _ acc | .escape _ acc => acc
  | _ => []

def Statement.text : Statement → Text
  | .menu t | .comment t | .source t | .config t | .default t => t
  | .string (some t) => t
  | .string none | .endmenu => []

theorem start_mem (c : Char) : (∀ d ∈ (start c).1.acc, d = c) ∧
    ∀ token ∈ (start c).2, ∀ d ∈ token.text, d = c := by
  unfold start
  repeat' split
  all_goals simp [LexState.acc, Token.text]

theorem wordToken_mem {t : Text} : ∀ token ∈ wordToken t, ∀ d ∈ token.text, d ∈ t := by
  unfold wordToken
  split <;> simp [Token.text]

theorem step_mem (s : LexState) (c : Char) : (∀ d ∈ (step s c).1.acc, d ∈ s.acc ∨ d = c) ∧
    ∀ token ∈ (step s c).2, ∀ d ∈ token.text, d ∈ s.acc ∨ d = c := by
  obtain ⟨hacc, htok⟩ := start_mem c
  have hstart : (∀ d ∈ (start c).1.acc, d ∈ s.acc ∨ d = c) ∧
      ∀ token ∈ (start c).2, ∀ d ∈ token.text, d ∈ s.acc ∨ d = c :=
    ⟨fun d hd => .inr (hacc d hd), fun token ht d hd => .inr (htok token ht d hd)⟩
  cases s with
  | param | backslash => exact hstart
  | half e =>
    simp only [step]
    split
    · simp [LexState.acc, Token.text]
    · exact hstart
  | inWord acc =>
    simp only [step]
    split
    · simp [LexState.acc]
    · refine ⟨hstart.1, fun token ht d hd => ?_⟩
      rcases List.mem_append.mp ht with ht | ht
      · exact .inl (wordToken_mem token ht d hd)
      · exact hstart.2 token ht d hd
  | inString q acc =>
    simp only [step]
    repeat' split
    all_goals simp +contextual [LexState.acc, Token.text]
  | escape q acc => simp [step, LexState.acc]
  | comment => simp [step, LexState.acc]

theorem lex_mem {s : LexState} {t : Text} {ts : List Token} (h : lex s t = some ts) :
    ∀ token ∈ ts, ∀ d ∈ token.text, d ∈ s.acc ∨ d ∈ t := by
  induction t generalizing s ts with
  | nil =>
    intro token ht d hd
    cases s with
    | inWord acc =>
      cases h
      exact .inl (wordToken_mem token ht d hd)
    | inString | escape | backslash => cases h
    | param | half | comment =>
      cases h
      cases ht
  | cons c t ih =>
    rw [lex, Option.map_eq_some_iff] at h
    obtain ⟨ts', hlex, rfl⟩ := h
    obtain ⟨hacc, htok⟩ := step_mem s c
    intro token ht d hd
    rcases List.mem_append.mp ht with ht | ht
    · exact (htok token ht d hd).imp_right fun heq => List.mem_cons.mpr (.inl heq)
    · rcases ih hlex token ht d hd with hd | hd
      · exact (hacc d hd).imp_right fun heq => List.mem_cons.mpr (.inl heq)
      · exact .inr (.tail _ hd)

theorem prompt_eq {token : Token} {t : Text} (h : token.prompt = some t) : t = token.text := by
  cases token with
  | word _ | quoted _ =>
    cases h
    rfl
  | op c => cases h

/-- The text of a statement is the text of its token, or what is left of it without
leading white space. -/
theorem parse_mem {keyword : Text} {ts : List Token} {st : Statement} (h : parse keyword ts = some st) :
    ∀ c ∈ st.text, ∃ token ∈ ts, c ∈ token.text := by
  have hstrip : ∀ t : Text, ∀ c ∈ stripLeading t, c ∈ t :=
    fun t c hc => (List.dropWhile_suffix _).subset hc
  unfold parse at h
  split at h
  · repeat' split at h
    all_goals cases h
    all_goals simp [Statement.text]
  next token =>
    intro c hc
    refine ⟨token, .head _, ?_⟩
    repeat' split at h
    all_goals try
      obtain ⟨t, ht, rfl⟩ := Option.map_eq_some_iff.mp h
      rw [← prompt_eq ht]
    all_goals try exact hstrip t c hc
    all_goals try exact hc
    all_goals cases h
    exact hc
  · cases h

theorem readLine_mem {l : Text} {ss : List Statement} (h : readLine l = some ss) :
    ∀ st ∈ ss, ∀ c ∈ st.text, c ∈ l := by
  unfold readLine at h
  dsimp only at h
  split at h
  · cases h
    simp
  · obtain ⟨st, hst, rfl⟩ := Option.map_eq_some_iff.mp h
    obtain ⟨ts, hlex, hparse⟩ := Option.bind_eq_some_iff.mp hst
    intro st' hst' c hc
    obtain rfl := List.mem_singleton.mp hst'
    obtain ⟨token, htoken, hct⟩ := parse_mem hparse c hc
    rcases lex_mem hlex token htoken c hct with hmem | hmem
    · cases hmem
    · exact ((List.dropWhile_suffix _).trans ((List.dropWhile_suffix _).trans
        (List.dropWhile_suffix _))).subset hmem

theorem readLines_mem {ls : List Text} {ss : List Statement} (h : readLines ls = some ss) :
    ∀ st ∈ ss, ∃ l ∈ ls, ∀ c ∈ st.text, c ∈ l := by
  induction ls generalizing ss with
  | nil =>
    cases h
    simp
  | cons l ls ih =>
    unfold readLines at h
    split at h
    next s r hs hr =>
      cases h
      intro st hst
      rcases List.mem_append.mp hst with hst | hst
      · exact ⟨l, .head _, readLine_mem hs st hst⟩
      · obtain ⟨l', hl', hmem⟩ := ih hr st hst
        exact ⟨l', .tail _ hl', hmem⟩
    next => cases h

/-- No statement has a newline in its text. -/
theorem read_no_newline {t : Text} {ss : List Statement} (h : read t = some ss) :
    ∀ st ∈ ss, '\n' ∉ st.text := by
  intro st hst hmem
  obtain ⟨l, hl, hsub⟩ := readLines_mem h st hst
  exact newline_not_mem_lines t l hl (hsub _ hmem)

end CargosBuildroot.Kconfig
