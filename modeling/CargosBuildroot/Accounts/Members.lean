import CargosBuildroot.Accounts.Mkusers

/-! The substitutions of `add_user_to_group` on the lines of a group file. Whatever
the line, its first field stays apart from its commas; in a line of four fields
only the list of members changes, and it loses no other member. -/

namespace CargosBuildroot.Accounts

open Shell Store

/-! ### Names -/

def nameStart (c : Char) : Bool := c.isAlpha || c = '_'

def nameChar (c : Char) : Bool := c.isAlphanum || c = '-' || c = '_'

/-- A name that starts with a letter or an underscore and goes on with letters,
digits, dashes and underscores. -/
def PlainName (name : Text) : Prop := ∃ c t, name = c :: t ∧ nameStart c = true ∧ t.all nameChar = true

instance (name : Text) : Decidable (PlainName name) :=
  match name with
  | [] => .isFalse (by simp [PlainName])
  | c :: t =>
    if h : nameStart c = true ∧ t.all nameChar = true then .isTrue ⟨c, t, rfl, h⟩
    else .isFalse (by
      rintro ⟨c', t', heq, h'⟩
      obtain ⟨rfl, rfl⟩ := List.cons.inj heq
      exact h h')

theorem PlainName.ne_nil {name : Text} (h : PlainName name) : name ≠ [] := by
  obtain ⟨c, t, rfl, -⟩ := h
  exact List.cons_ne_nil c t

theorem PlainName.not_mem {name : Text} (h : PlainName name) {c : Char}
    (hs : nameStart c = false) (hc : nameChar c = false) : c ∉ name := by
  obtain ⟨d, t, rfl, hd, ht⟩ := h
  rintro hmem
  rcases List.mem_cons.mp hmem with rfl | hmem
  · simp [hs] at hd
  · simp [List.all_eq_true.mp ht c hmem] at hc

theorem PlainName.no_colon {name : Text} (h : PlainName name) : ':' ∉ name :=
  h.not_mem (by decide) (by decide)

theorem PlainName.no_comma {name : Text} (h : PlainName name) : ',' ∉ name :=
  h.not_mem (by decide) (by decide)

theorem PlainName.no_newline {name : Text} (h : PlainName name) : '\n' ∉ name :=
  h.not_mem (by decide) (by decide)

/-! ### The substitutions on any line -/

theorem squeeze_of_no_comma {t : Text} (h : ',' ∉ t) : squeeze t = t := by
  induction t with
  | nil => rfl
  | cons c t ih =>
    simp only [List.mem_cons, not_or] at h
    rw [squeeze, if_neg (Ne.symm h.1), ih h.2]

theorem comma_mem_squeeze {t : Text} (h : ',' ∈ t) : ',' ∈ squeeze t := by
  induction t with
  | nil => simp at h
  | cons c t ih =>
    rw [squeeze]
    split
    · exact List.mem_cons_self
    · rcases List.mem_cons.mp h with hc | ht
      · exact absurd hc.symm ‹_›
      · exact List.mem_cons_of_mem _ (ih ht)

theorem squeeze_sublist (t : Text) : (squeeze t).Sublist t := by
  induction t with
  | nil => exact .slnil
  | cons c t ih =>
    rw [squeeze]
    split
    · rename_i hc
      subst hc
      exact (List.dropWhile_sublist _).cons_cons _
    · exact ih.cons_cons _

/-- The first run of commas lies on one side of a colon. -/
theorem squeeze_colon (a b : Text) :
    squeeze (a ++ ':' :: b) = if ',' ∈ a then squeeze a ++ ':' :: b else a ++ ':' :: squeeze b := by
  induction a with
  | nil => simp [squeeze]
  | cons c a ih =>
    by_cases hc : c = ','
    · have hrun : (a ++ ':' :: b).dropWhile (· = ',') = a.dropWhile (· = ',') ++ ':' :: b := by
        rw [List.dropWhile_append]
        split
        · rename_i h
          rw [List.isEmpty_iff.mp h]
          rfl
        · rfl
      subst hc
      rw [if_pos List.mem_cons_self, List.cons_append, squeeze, if_pos rfl, hrun, squeeze, if_pos rfl,
        List.cons_append]
    · have hmem : ',' ∈ c :: a ↔ ',' ∈ a := by simp [Ne.symm hc]
      rw [List.cons_append, squeeze, if_neg hc, ih]
      by_cases ha : ',' ∈ a
      · rw [if_pos ha, if_pos (hmem.mpr ha), squeeze, if_neg hc, List.cons_append]
      · rw [if_neg ha, if_neg (mt hmem.mp ha), List.cons_append]

theorem trim_cons {c : Char} (hc : c ≠ ':') (t : Text) : trim (c :: t) = c :: trim t := by
  rw [trim]
  rintro t' h
  exact absurd h hc

theorem trim_colon {t : Text} (ht : ∀ t', t ≠ ',' :: t') : trim (':' :: t) = ':' :: trim t := by
  rw [trim]
  rintro t' - h
  exact ht t' h

theorem trim_append {a : Text} (ha : ':' ∉ a) (b : Text) : trim (a ++ b) = a ++ trim b := by
  induction a with
  | nil => rfl
  | cons c a ih =>
    simp only [List.mem_cons, not_or] at ha
    rw [List.cons_append, trim_cons (Ne.symm ha.1), ih ha.2, List.cons_append]

theorem trim_of_no_colon {t : Text} (h : ':' ∉ t) : trim t = t := by
  simpa [trim] using trim_append h []

theorem exists_trim_colon (b : Text) : ∃ b', trim (':' :: b) = ':' :: b' := by
  match b with
  | ',' :: t => exact ⟨t, rfl⟩
  | [] => exact ⟨_, trim_colon (by simp)⟩
  | c :: t =>
    by_cases hc : c = ','
    · exact ⟨t, by rw [hc, trim]⟩
    · exact ⟨_, trim_colon (by simp [hc])⟩

theorem exists_dropMember (username group : Text) {a : Text} (ha : ':' ∉ a) (b : Text) :
    ∃ b', dropMember username group (a ++ ':' :: b) = a ++ ':' :: b' := by
  unfold dropMember
  split
  · rename_i h
    rw [fields_cons ha] at h ⊢
    obtain ⟨f, fs, hf⟩ : ∃ f fs, fields b = f :: fs := List.exists_cons_of_ne_nil (List.splitOn_ne_nil _ _)
    simp only [hf, List.dropLast_cons_cons, List.cons_append]
    cases hd : (f :: fs).dropLast ++ [[','].intercalate (blankLast username
      ((((a :: f :: fs).getLastD []).splitOn ',').reverse)).reverse] with
    | nil => simp at hd
    | cons x xs => exact ⟨_, by rw [List.intercalate_cons_cons]; simp; rfl⟩
  · exact ⟨b, rfl⟩

theorem exists_appendMember (username group a b : Text) :
    ∃ b', appendMember username group (a ++ ':' :: b) = a ++ ':' :: b' := by
  unfold appendMember
  split
  · exact ⟨b ++ ',' :: username, by simp⟩
  · exact ⟨b, rfl⟩

/-- The last two substitutions, in a line with a colon. -/
theorem exists_trim_squeeze {a : Text} (ha : ':' ∉ a) (b : Text) :
    ∃ b', trim (squeeze (a ++ ':' :: b)) = squeeze a ++ ':' :: b' := by
  obtain ⟨b₁, h₁⟩ : ∃ b', squeeze (a ++ ':' :: b) = squeeze a ++ ':' :: b' := by
    rw [squeeze_colon]
    by_cases hcomma : ',' ∈ a
    · exact ⟨b, if_pos hcomma⟩
    · exact ⟨squeeze b, by rw [if_neg hcomma, squeeze_of_no_comma hcomma]⟩
  have ha' : ':' ∉ squeeze a := fun h => ha ((squeeze_sublist a).mem h)
  obtain ⟨b₂, h₂⟩ := exists_trim_colon b₁
  exact ⟨b₂, by rw [h₁, trim_append ha', h₂]⟩

/-- Only the commas of the first field may change. -/
theorem exists_memberLine (username group : Text) {a : Text} (ha : ':' ∉ a) (b : Text) :
    ∃ b', memberLine username group (a ++ ':' :: b) = squeeze a ++ ':' :: b' := by
  obtain ⟨b₁, h₁⟩ := exists_dropMember username group ha b
  obtain ⟨b₂, h₂⟩ := exists_appendMember username group a b₁
  obtain ⟨b₃, h₃⟩ := exists_trim_squeeze ha b₂
  exact ⟨b₃, by rw [memberLine, h₁, h₂, h₃]⟩

theorem memberLine_of_no_colon (username group : Text) {l : Text} (h : ':' ∉ l) :
    memberLine username group l = squeeze l := by
  have hname : hasName group l = false := by
    by_contra hn
    obtain ⟨rest, rfl⟩ := hasName_iff.mp (by simpa using hn)
    simp at h
  have hs : ':' ∉ squeeze l := fun hm => h ((squeeze_sublist l).mem hm)
  simp [memberLine, dropMember, appendMember, hname, trim_of_no_colon hs]

theorem squeeze_eq_plain {t name : Text} (h : ',' ∉ name) : squeeze t = name ↔ t = name := by
  constructor
  · rintro rfl
    exact (squeeze_of_no_comma fun ht => h (comma_mem_squeeze ht)).symm
  · rintro rfl
    exact squeeze_of_no_comma h

theorem field_one_memberLine (username group l : Text) :
    field 1 (memberLine username group l) = squeeze (field 1 l) := by
  by_cases hl : ':' ∈ l
  · obtain ⟨a, b, rfl, ha⟩ := List.eq_append_cons_of_mem hl
    obtain ⟨b', hb'⟩ := exists_memberLine username group ha b
    have ha' : ':' ∉ squeeze a := fun h => ha ((squeeze_sublist a).mem h)
    rw [hb', field_one ha' (hasName_line _ _), field_one ha (hasName_line _ _)]
  · have hs : ':' ∉ squeeze l := fun hm => hl ((squeeze_sublist l).mem hm)
    rw [memberLine_of_no_colon _ _ hl]
    simp [field, fields_of_not_mem hl, fields_of_not_mem hs]

theorem hasName_memberLine (username group : Text) {name : Text} (hcolon : ':' ∉ name)
    (hcomma : ',' ∉ name) (l : Text) :
    hasName name (memberLine username group l) = hasName name l := by
  by_cases hl : ':' ∈ l
  · have hfield := field_one_memberLine username group l
    obtain ⟨a, b, rfl, ha⟩ := List.eq_append_cons_of_mem hl
    obtain ⟨b', hb'⟩ := exists_memberLine username group ha b
    have hl' : ':' ∈ memberLine username group (a ++ ':' :: b) := by simp [hb']
    rw [Bool.eq_iff_iff, hasName_iff_field_one hcolon hl, hasName_iff_field_one hcolon hl', hfield,
      squeeze_eq_plain hcomma]
  · have hnone : ∀ m, ':' ∉ m → hasName name m = false := by
      intro m hm
      by_contra h
      obtain ⟨rest, rfl⟩ := hasName_iff.mp (by simpa using h)
      simp at hm
    rw [memberLine_of_no_colon _ _ hl, hnone l hl, hnone _ fun hm => hl ((squeeze_sublist l).mem hm)]

/-! ### Lines of four fields -/

/-- A line of four fields; those of `/etc/group` are the name, the password, the
id and the members. -/
def quad (a b c d : Text) : Text := a ++ ':' :: b ++ ':' :: c ++ ':' :: d

theorem groupLine_eq (group : Text) (gid : ℤ) (members : Text) :
    groupLine group gid members = quad group "x".toList (decimal gid) members := by
  simp [groupLine, quad]

theorem gshadowLine_eq (group members : Text) :
    gshadowLine group members = quad group "*".toList [] members := by
  simp [gshadowLine, quad]

/-- The list of members after the first two substitutions. -/
def addText (username d : Text) : Text :=
  [','].intercalate (blankLast username (d.splitOn ',').reverse).reverse ++ ',' :: username

/-- The effect of `s/:,/:/` on the list of members. -/
def dropLead : Text → Text
  | ',' :: t => t
  | t => t

section Quad

variable {a b c d : Text} {username group : Text}

theorem fields_quad (ha : ':' ∉ a) (hb : ':' ∉ b) (hc : ':' ∉ c) (hd : ':' ∉ d) :
    fields (quad a b c d) = [a, b, c, d] := by
  have hquad : quad a b c d = a ++ ':' :: (b ++ ':' :: (c ++ ':' :: d)) := by simp [quad]
  rw [hquad, fields_cons ha, fields_cons hb, fields_cons hc, fields_of_not_mem hd]

theorem hasName_quad (ha : ':' ∉ a) (hg : ':' ∉ group) :
    hasName group (quad a b c d) = decide (a = group) := by
  have hquad : quad a b c d = a ++ ':' :: (b ++ ':' :: c ++ ':' :: d) := by simp [quad]
  have hmem : ':' ∈ quad a b c d := by simp [quad]
  rw [Bool.eq_iff_iff, hasName_iff_field_one hg hmem, hquad, field_one ha (hasName_line _ _),
    decide_eq_true_eq]

/-- The first two substitutions change the members of the line of the group. -/
theorem add_quad (ha : ':' ∉ a) (hb : ':' ∉ b) (hc : ':' ∉ c) (hd : ':' ∉ d) (hg : ':' ∉ group) :
    appendMember username group (dropMember username group (quad a b c d)) =
      quad a b c (if a = group then addText username d else d) := by
  by_cases hag : a = group
  · have hname : ∀ d, hasName group (quad a b c d) = true := fun d => by
      rw [hasName_quad ha hg, decide_eq_true hag]
    have hdrop : dropMember username group (quad a b c d) =
        quad a b c ([','].intercalate (blankLast username (d.splitOn ',').reverse).reverse) := by
      rw [dropMember, hname, fields_quad ha hb hc hd]
      simp [quad, List.intercalate_cons_cons]
    rw [hdrop, appendMember, hname, if_pos hag]
    simp [quad, addText]
  · have hname : hasName group (quad a b c d) = false := by
      rw [hasName_quad ha hg, decide_eq_false hag]
    simp [dropMember, appendMember, hname, hag]

theorem squeeze_quad (ha : ',' ∉ a) (hc : ',' ∉ c) :
    squeeze (quad a b c d) =
      if ',' ∈ b then quad a (squeeze b) c d else quad a b c (squeeze d) := by
  have hquad : ∀ b d, quad a b c d = a ++ ':' :: (b ++ ':' :: (c ++ ':' :: d)) := by simp [quad]
  rw [hquad, squeeze_colon, if_neg ha, squeeze_colon, squeeze_colon, if_neg hc]
  split <;> simp [quad]

theorem trim_text (hd : ':' ∉ d) : trim (':' :: d) = ':' :: dropLead d := by
  cases d with
  | nil => exact trim_colon (by simp)
  | cons x t =>
    by_cases hx : x = ','
    · rw [hx, trim, dropLead]
    · rw [trim_colon (by simp [hx]), trim_of_no_colon hd, dropLead]
      simp [hx]

theorem trim_quad (ha : ':' ∉ a) (hb : ':' ∉ b) (hc : ':' ∉ c) (hd : ':' ∉ d) (hc' : ',' ∉ c) :
    trim (quad a b c d) =
      if b.head? = some ',' then quad a b.tail c d else quad a b c (dropLead d) := by
  have hquad : ∀ b d, quad a b c d = a ++ (':' :: (b ++ ':' :: (c ++ ':' :: d))) := by simp [quad]
  have hlast : trim (b ++ ':' :: (c ++ ':' :: d)) = b ++ ':' :: (c ++ ':' :: dropLead d) := by
    have hcd : ∀ t', c ++ ':' :: d ≠ ',' :: t' := by
      cases c with
      | nil => simp
      | cons x c =>
        simp only [List.mem_cons, not_or] at hc'
        simp [Ne.symm hc'.1]
    rw [trim_append hb, trim_colon hcd, trim_append hc, trim_text hd]
  rw [hquad, trim_append ha]
  cases b with
  | nil => rw [List.nil_append, trim_colon (by simp)]; simpa [quad] using hlast
  | cons x b =>
    by_cases hx : x = ','
    · simp [hx, quad, trim]
    · rw [trim_colon (by simp [hx]), hlast]
      simp [hx, quad]

/-! ### The list of members -/

theorem mem_blankLast {m : Text} {ms : List Text} (h : m ∈ blankLast username ms) :
    m = [] ∨ m ∈ ms := by
  induction ms with
  | nil => simp [blankLast] at h
  | cons m' ms ih =>
    rw [blankLast] at h
    split at h
    · exact (List.mem_cons.mp h).imp_right (List.mem_cons_of_mem _)
    · rcases List.mem_cons.mp h with rfl | h
      · exact .inr List.mem_cons_self
      · exact (ih h).imp_right (List.mem_cons_of_mem _)

/-- No other member is blanked. -/
theorem mem_blankLast_of_ne {m : Text} {ms : List Text} (hm : m ≠ username) (h : m ∈ ms) :
    m ∈ blankLast username ms := by
  induction ms with
  | nil => simp at h
  | cons m' ms ih =>
    rw [blankLast]
    split
    · rename_i hm'
      rcases List.mem_cons.mp h with rfl | h
      · exact absurd hm'.1 hm
      · exact List.mem_cons_of_mem _ h
    · rcases List.mem_cons.mp h with rfl | h
      · exact List.mem_cons_self
      · exact List.mem_cons_of_mem _ (ih h)

theorem addText_no_colon (hu : ':' ∉ username) (hd : ':' ∉ d) : ':' ∉ addText username d := by
  intro h
  rcases List.mem_append.mp h with h | h
  · rcases mem_intercalate h with h | ⟨m, hm, hx⟩
    · exact absurd h (by decide)
    · rcases mem_blankLast (List.mem_reverse.mp hm) with rfl | hm
      · simp at hx
      · exact hd (mem_piece (List.mem_reverse.mp hm) hx).1
  · rcases List.mem_cons.mp h with h | h
    · exact absurd h (by decide)
    · exact hu h

theorem dropLead_sublist (d : Text) : (dropLead d).Sublist d := by
  unfold dropLead
  split
  · exact List.sublist_cons_self _ _
  · exact .refl _

/-- The list of members after all four substitutions, in a line whose first fields
have no commas; `here` for the line of the group. -/
def editList (username : Text) (here : Bool) (d : Text) : Text :=
  dropLead (squeeze (if here then addText username d else d))

theorem editList_no_colon (hu : ':' ∉ username) {here : Bool} (hd : ':' ∉ d) :
    ':' ∉ editList username here d := by
  intro h
  have := (squeeze_sublist _).mem ((dropLead_sublist _).mem h)
  split at this
  · exact addText_no_colon hu hd this
  · exact hd this

theorem memberLine_quad (ha : ':' ∉ a) (hb : ':' ∉ b) (hc : ':' ∉ c) (hd : ':' ∉ d)
    (ha' : ',' ∉ a) (hb' : ',' ∉ b) (hc' : ',' ∉ c) (hg : ':' ∉ group) (hu : ':' ∉ username) :
    memberLine username group (quad a b c d) = quad a b c (editList username (a = group) d) := by
  have hhead : b.head? ≠ some ',' := by
    intro h
    exact hb' (List.mem_of_head? h)
  have hd₁ : ':' ∉ squeeze (if a = group then addText username d else d) := by
    intro h
    have := (squeeze_sublist _).mem h
    split at this
    · exact addText_no_colon hu hd this
    · exact hd this
  rw [memberLine, add_quad ha hb hc hd hg, squeeze_quad ha' hc', if_neg hb',
    trim_quad ha hb hc hd₁ hc', if_neg hhead]
  simp [editList]

/-- With commas in the second field too, the name and the id stay. -/
theorem exists_memberLine_quad (ha : ':' ∉ a) (hb : ':' ∉ b) (hc : ':' ∉ c) (hd : ':' ∉ d)
    (ha' : ',' ∉ a) (hc' : ',' ∉ c) (hg : ':' ∉ group) (hu : ':' ∉ username) :
    ∃ b' d', ':' ∉ b' ∧ ':' ∉ d' ∧
      memberLine username group (quad a b c d) = quad a b' c d' := by
  have hd₁ : ':' ∉ if a = group then addText username d else d := by
    split
    · exact addText_no_colon hu hd
    · exact hd
  have hsq : ∀ {t : Text}, ':' ∉ t → ':' ∉ squeeze t := fun ht h => ht ((squeeze_sublist _).mem h)
  obtain ⟨b₁, d₂, hb₁, hd₂, h⟩ : ∃ b' d', ':' ∉ b' ∧ ':' ∉ d' ∧
      squeeze (quad a b c (if a = group then addText username d else d)) = quad a b' c d' := by
    rw [squeeze_quad ha' hc']
    split
    · exact ⟨_, _, hsq hb, hd₁, rfl⟩
    · exact ⟨_, _, hb, hsq hd₁, rfl⟩
  rw [memberLine, add_quad ha hb hc hd hg, h, trim_quad ha hb₁ hc hd₂ hc']
  split
  · exact ⟨_, _, fun hm => hb₁ (List.mem_of_mem_tail hm), hd₂, rfl⟩
  · exact ⟨_, _, hb₁, fun hm => hd₂ ((dropLead_sublist _).mem hm), rfl⟩

/-! ### Members -/

/-- `w` is a member of the list. -/
def IsMember (w d : Text) : Prop := w ∈ d.splitOn ','

instance (w d : Text) : Decidable (IsMember w d) := by unfold IsMember; infer_instance

theorem squeeze_comma {p : Text} (hp : ',' ∉ p) (q : Text) :
    squeeze (p ++ ',' :: q) = p ++ ',' :: q.dropWhile (· = ',') := by
  induction p with
  | nil => simp [squeeze]
  | cons c p ih =>
    simp only [List.mem_cons, not_or] at hp
    rw [List.cons_append, squeeze, if_neg (Ne.symm hp.1), ih hp.2, List.cons_append]

theorem isMember_dropWhile {w : Text} (hw : w ≠ []) (q : Text) :
    IsMember w (q.dropWhile (· = ',')) ↔ IsMember w q := by
  induction q with
  | nil => rfl
  | cons c q ih =>
    by_cases hc : c = ','
    · subst hc
      have hsplit : (',' :: q).splitOn ',' = [] :: q.splitOn ',' :=
        List.splitOn_append_cons_self_of_not_mem (List.not_mem_nil : ',' ∉ ([] : Text)) q
      simpa [IsMember, hsplit, hw] using ih
    · simp [hc]

theorem isMember_squeeze {w : Text} (hw : w ≠ []) : IsMember w (squeeze d) ↔ IsMember w d := by
  by_cases hd : ',' ∈ d
  · obtain ⟨p, q, rfl, hp⟩ := List.eq_append_cons_of_mem hd
    have hq := isMember_dropWhile hw q
    unfold IsMember at hq ⊢
    rw [squeeze_comma hp, List.splitOn_append_cons_self_of_not_mem hp,
      List.splitOn_append_cons_self_of_not_mem hp, List.mem_cons, List.mem_cons, hq]
  · rw [squeeze_of_no_comma hd]

theorem isMember_dropLead {w : Text} (hw : w ≠ []) : IsMember w (dropLead d) ↔ IsMember w d := by
  unfold dropLead
  split
  · rename_i t
    have hsplit : (',' :: t).splitOn ',' = [] :: t.splitOn ',' :=
      List.splitOn_append_cons_self_of_not_mem (List.not_mem_nil : ',' ∉ ([] : Text)) t
    simp [IsMember, hsplit, hw]
  · rfl

theorem isMember_addText_self (hu : ',' ∉ username) : IsMember username (addText username d) := by
  rw [IsMember, addText, List.splitOn_append_cons_self, List.splitOn_eq_singleton hu]
  simp

theorem isMember_addText {w : Text} (hw : w ≠ username) (h : IsMember w d) :
    IsMember w (addText username d) := by
  have hcomma : ∀ m ∈ (blankLast username (d.splitOn ',').reverse).reverse, ',' ∉ m := by
    intro m hm hc
    rcases mem_blankLast (List.mem_reverse.mp hm) with rfl | hm
    · simp at hc
    · exact (mem_piece (List.mem_reverse.mp hm) hc).2 rfl
  have hmem : w ∈ (blankLast username (d.splitOn ',').reverse).reverse :=
    List.mem_reverse.mpr (mem_blankLast_of_ne hw (List.mem_reverse.mpr h))
  rw [IsMember, addText, List.splitOn_append_cons_self,
    List.splitOn_intercalate _ hcomma (List.ne_nil_of_mem hmem)]
  exact List.mem_append_left _ hmem

/-- The edit makes `username` a member of its group, and no other member is lost. -/
theorem isMember_editList_self (hu : username ≠ []) (hu' : ',' ∉ username) :
    IsMember username (editList username true d) := by
  rw [editList, isMember_dropLead hu, isMember_squeeze hu]
  exact isMember_addText_self hu'

theorem isMember_editList {w : Text} (hw : w ≠ []) {here : Bool} (hne : here = true → w ≠ username)
    (h : IsMember w d) : IsMember w (editList username here d) := by
  rw [editList, isMember_dropLead hw, isMember_squeeze hw]
  split
  · exact isMember_addText (hne ‹_›) h
  · exact h

end Quad

end CargosBuildroot.Accounts
