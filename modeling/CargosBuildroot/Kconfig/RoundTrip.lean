import CargosBuildroot.Kconfig.Config

/-! What `conf_write` writes is read back by `conf_read_simple`: the symbols that are written get their
values, a choice gets the value that is set, and nothing else gets a value. -/

namespace CargosBuildroot.Kconfig

open Shell Ternary

variable {σ : Type*} [DecidableEq σ] {T : SymbolTable σ} {C : Current σ}

/-! ### Texts -/

theorem splitAtChar_append {c : Char} {a : Text} (h : c ∉ a) (b : Text) :
    splitAtChar c (a ++ c :: b) = some (a, b) := by
  have hdrop : (a ++ c :: b).dropWhile (· ≠ c) = c :: b := by
    rw [List.dropWhile_append_of_pos (by simpa using fun x hx => ne_of_mem_of_not_mem hx h)]
    simp
  have htake : (a ++ c :: b).takeWhile (· ≠ c) = a := by
    rw [List.takeWhile_append_of_pos (by simpa using fun x hx => ne_of_mem_of_not_mem hx h)]
    simp
  rw [splitAtChar, hdrop, htake]

/-- A string is read as it was before it was escaped. -/
theorem unescape_escape (t rest : Text) :
    unescape ((t.flatMap fun c => if c = '"' ∨ c = '\\' then ['\\', c] else [c]) ++ '"' :: rest) = some t := by
  induction t with
  | nil => rfl
  | cons c t ih =>
    rw [List.flatMap_cons, List.append_assoc]
    by_cases hc : c = '"' ∨ c = '\\'
    · rw [if_pos hc, List.cons_append, List.singleton_append, unescape, ih]
      rfl
    · rw [if_neg hc, List.singleton_append, unescape, ih]
      · rfl
      · exact fun h => hc (.inl h)
      · intro d u h
        exact fun h' => hc (.inr h)
      · exact fun h => fun _ => hc (.inr h)

theorem not_mem_of_intValid {t : Text} (h : intValid t = true) {c : Char} (hc : c.isDigit = false)
    (hne : c ≠ '-') : c ∉ t := by
  intro hmem
  unfold intValid at h
  split at h
  · cases h
  next d rest heq =>
    have hdigits : ∀ x ∈ d :: rest, x.isDigit = true := by
      rw [Bool.and_eq_true, Bool.and_eq_true, List.all_eq_true] at h
      intro x hx
      rcases List.mem_cons.mp hx with rfl | hx
      · exact h.1.1
      · exact h.2 x hx
    have hrest : c ∈ d :: rest := by
      rw [← heq]
      split
      next hminus =>
        cases t with
        | nil => cases hmem
        | cons x t =>
          obtain rfl := Option.some.inj hminus
          exact (List.mem_cons.mp hmem).resolve_left hne
      next => exact hmem
    rw [hdigits c hrest] at hc
    cases hc

theorem not_mem_of_hexValid {t : Text} (h : hexValid t = true) {c : Char} (hc : isHexDigit c = false)
    (hne : c ≠ 'x' ∧ c ≠ 'X') : c ∉ t := by
  intro hmem
  unfold hexValid at h
  dsimp only at h
  rw [Bool.and_eq_true, List.all_eq_true] at h
  split at h
  next hzero =>
    obtain ⟨h0, hx⟩ := hzero
    rcases t with _ | ⟨a, _ | ⟨b, t⟩⟩
    · cases hmem
    · rcases hx with hx | hx <;> cases hx
    · obtain rfl := Option.some.inj h0
      have hb : b = 'x' ∨ b = 'X' := hx.imp Option.some.inj Option.some.inj
      rcases List.mem_cons.mp hmem with rfl | hmem
      · exact absurd hc (by decide)
      rcases List.mem_cons.mp hmem with rfl | hmem
      · exact hb.elim hne.1 hne.2
      · rw [h.2 c hmem] at hc
        cases hc
  next =>
    rw [h.2 c hmem] at hc
    cases hc

/-! ### One line -/

/-- A comment that does not say that a symbol is not set. -/
def Remark (T : SymbolTable σ) (line : Text) : Prop :=
  ∀ x ∈ splitAtChar ' ' line, "is not set".toList.isPrefixOf x.2 = true → T.find x.1 = none

instance (line : Text) : Decidable (Remark T line) :=
  inferInstanceAs (Decidable (∀ x ∈ splitAtChar ' ' line,
    "is not set".toList.isPrefixOf x.2 = true → T.find x.1 = none))

/-- A symbol whose name is found again, with a value that it can have. -/
structure Storable (T : SymbolTable σ) (C : Current σ) (s : σ) : Prop where
  find : T.find (T.name s) = some s
  chars : ∀ c ∈ T.name s, c ≠ ' ' ∧ c ≠ '=' ∧ c ≠ '\n' ∧ c ≠ '#'
  boolean : T.type s = .boolean → C.tri s ≠ .mod
  string : T.type s = .string → '\n' ∉ C.val s
  valid : T.type s = .int ∨ T.type s = .hex → symStringValid (T.type s) (C.val s) = true

/-- The tristate value of a symbol without modules. -/
def Current.written (C : Current σ) (s : σ) : Tristate :=
  if C.tri s = .mod ∧ C.modules = .no then .no else C.tri s

/-- The value of a symbol as it is put into the file. -/
def saved (T : SymbolTable σ) (C : Current σ) (s : σ) (d : Saved σ) : Saved σ :=
  if T.type s = .boolean ∨ T.type s = .tristate then { d with tri := C.written s, hasValue := true }
  else { d with val := some (C.val s), hasValue := true }

/-- A symbol with its value, and its choice. -/
def assign (T : SymbolTable σ) (C : Current σ) (D : σ → Saved σ) (s : σ) : σ → Saved σ :=
  setSym T s (Function.update D s (saved T C s (D s)))

theorem confReadLine_remark {line : Text} (h : Remark T line) (ended : Bool) (D : σ → Saved σ) :
    confReadLine T ended D ('#' :: ' ' :: line) = D := by
  have hhead : ('#' :: ' ' :: line).head? = some '#' := rfl
  rw [confReadLine, if_pos hhead, List.drop_succ_cons, List.drop_succ_cons, List.drop_zero]
  split
  · rfl
  next name rest hsplit =>
    split
    next hset => rw [h (name, rest) hsplit hset]
    · rfl

theorem confReadLine_hash (ended : Bool) (D : σ → Saved σ) : confReadLine T ended D ['#'] = D := rfl

theorem confReadLine_nil (ended : Bool) (D : σ → Saved σ) : confReadLine T ended D [] = D := rfl

section

variable {s : σ} (h : Storable T C s)
include h

omit [DecidableEq σ] in
theorem Storable.not_mem {c : Char} (hc : c = ' ' ∨ c = '=' ∨ c = '\n' ∨ c = '#') : c ∉ T.name s := by
  intro hmem
  have hchars := h.chars c hmem
  rcases hc with rfl | rfl | rfl | rfl
  · exact hchars.1 rfl
  · exact hchars.2.1 rfl
  · exact hchars.2.2.1 rfl
  · exact hchars.2.2.2 rfl

/-- The line of a symbol that is not set. -/
theorem Storable.read_unset (htype : T.type s = .boolean ∨ T.type s = .tristate) (ended : Bool) (D : σ → Saved σ) :
    confReadLine T ended D ("# ".toList ++ T.name s ++ " is not set".toList) =
      setSym T s (Function.update D s { D s with tri := .no, hasValue := true }) := by
  have hsplit : splitAtChar ' ' (T.name s ++ " is not set".toList) = some (T.name s, "is not set".toList) :=
    splitAtChar_append (h.not_mem (.inl rfl)) _
  have hdrop : ("# ".toList ++ T.name s ++ " is not set".toList).drop 2 = T.name s ++ " is not set".toList := rfl
  have hset : "is not set".toList.isPrefixOf "is not set".toList = true := by decide
  have hhead : ("# ".toList ++ T.name s ++ " is not set".toList).head? = some '#' := rfl
  rw [confReadLine, if_pos hhead, hdrop, hsplit]
  dsimp only
  rw [if_pos hset, h.find]
  dsimp only
  rw [if_pos htype]

/-- The line of a symbol with a value. -/
theorem Storable.read_set {value : Text} {d : Saved σ} {D : σ → Saved σ} (hvalue : value.getLast? ≠ some '\r')
    (hd : confSetSymVal (T.type s) (D s) value = some d) :
    confReadLine T true D (T.name s ++ '=' :: value) = setSym T s (Function.update D s d) := by
  have hhead : (T.name s ++ '=' :: value).head? ≠ some '#' := by
    have hnot := h.not_mem (c := '#') (.inr (.inr (.inr rfl)))
    cases hname : T.name s with
    | nil => simp
    | cons c name =>
      rw [hname] at hnot
      intro heq
      exact hnot (by rw [← Option.some.inj heq]; exact List.mem_cons_self)
  rw [confReadLine, if_neg hhead, splitAtChar_append (h.not_mem (.inr (.inl rfl)))]
  dsimp only
  rw [if_neg (fun hreturn => hvalue hreturn.2), h.find]
  dsimp only
  rw [hd]

end

/-- The line of a symbol in the file. -/
def symbolLine (T : SymbolTable σ) (C : Current σ) (s : σ) : Text :=
  let value := if T.type s = .string then symEscapeStringValue (symGetStringValue T C s) else symGetStringValue T C s
  if (T.type s = .boolean ∨ T.type s = .tristate) ∧ value.head? = some 'n' then
    "# ".toList ++ T.name s ++ " is not set".toList
  else T.name s ++ '=' :: value

/-- Symbols of these types are not written. -/
def Untyped (T : SymbolTable σ) (s : σ) : Prop := T.type s = .unknown ∨ T.type s = .other

instance (s : σ) : Decidable (Untyped T s) := inferInstanceAs (Decidable (_ ∨ _))

omit [DecidableEq σ] in
theorem confWriteSymbol_eq (s : σ) :
    confWriteSymbol T C s = if Untyped T s then [] else symbolLine T C s ++ ['\n'] := by
  have hprint : ∀ value, kconfigPrintSymbol T s value =
      (if (T.type s = .boolean ∨ T.type s = .tristate) ∧ value.head? = some 'n' then
        "# ".toList ++ T.name s ++ " is not set".toList else T.name s ++ '=' :: value) ++ ['\n'] := by
    intro value
    rw [kconfigPrintSymbol]
    split
    · rw [List.append_assoc ("# ".toList ++ T.name s)]
      rfl
    · rfl
  have hrest : ¬ Untyped T s → T.type s ≠ .string → kconfigPrintSymbol T s (symGetStringValue T C s) =
      if Untyped T s then [] else symbolLine T C s ++ ['\n'] := by
    intro htyped hstring
    rw [if_neg htyped, hprint, symbolLine, if_neg hstring]
  have htyped : ∀ type, T.type s = type → type ≠ .unknown → type ≠ .other → ¬ Untyped T s := by
    rintro type rfl hunknown hother (h | h)
    · exact hunknown h
    · exact hother h
  unfold confWriteSymbol
  cases htype : T.type s with
  | unknown => exact (if_pos (.inl htype)).symm
  | other => exact (if_pos (.inr htype)).symm
  | string =>
    dsimp only
    rw [if_neg (htyped _ htype (by decide) (by decide)), hprint, symbolLine, if_pos htype]
  | boolean => exact hrest (htyped _ htype (by decide) (by decide)) (by rw [htype]; decide)
  | tristate => exact hrest (htyped _ htype (by decide) (by decide)) (by rw [htype]; decide)
  | int => exact hrest (htyped _ htype (by decide) (by decide)) (by rw [htype]; decide)
  | hex => exact hrest (htyped _ htype (by decide) (by decide)) (by rw [htype]; decide)

/-- The line of a symbol that is yes, no or a module. -/
theorem Storable.read_tri {s : σ} (h : Storable T C s) (htri : T.type s = .boolean ∨ T.type s = .tristate)
    (D : σ → Saved σ) : confReadLine T true D (symbolLine T C s) = assign T C D s := by
  have hstring : T.type s ≠ .string := by
    rintro heq
    rw [heq] at htri
    rcases htri with htri | htri <;> cases htri
  rw [assign, saved, if_pos htri, symbolLine, if_neg hstring, symGetStringValue, if_pos htri, Current.written]
  have hboolean := h.boolean
  cases hvalue : C.tri s with
  | no =>
    rw [if_pos ⟨htri, rfl⟩, ite_self]
    exact h.read_unset htri true D
  | mod =>
    by_cases hmodules : C.modules = .no
    · simp only [hmodules, and_self, if_true]
      rw [if_pos (by exact ⟨htri, rfl⟩)]
      exact h.read_unset htri true D
    · have htristate : T.type s = .tristate := htri.resolve_left fun hb => hboolean hb hvalue
      simp only [hmodules, and_false, if_false]
      rw [if_neg (fun hn => by cases hn.2)]
      exact h.read_set (by decide) (by rw [htristate]; rfl)
  | yes =>
    have hwritten : ¬ (Tristate.yes = .mod ∧ C.modules = .no) := fun hmod => by cases hmod.1
    rw [if_neg hwritten, if_neg (fun hn => by cases hn.2)]
    have hlast : (['y'] : Text).getLast? ≠ some '\r' := by decide
    refine h.read_set hlast ?_
    rcases htri with htri | htri <;> rw [htri] <;> rfl

theorem Storable.read_line {s : σ} (h : Storable T C s) (htype : ¬ Untyped T s) (D : σ → Saved σ) :
    confReadLine T true D (symbolLine T C s) = assign T C D s := by
  by_cases htri : T.type s = .boolean ∨ T.type s = .tristate
  · exact h.read_tri htri D
  rw [assign, saved, if_neg htri, symbolLine, symGetStringValue, if_neg htri, if_neg (fun hn => htri hn.1)]
  have hvalid := h.valid
  cases htypes : T.type s with
  | boolean => exact absurd (.inl htypes) htri
  | tristate => exact absurd (.inr htypes) htri
  | unknown => exact absurd (.inl htypes) htype
  | other => exact absurd (.inr htypes) htype
  | string =>
    rw [if_pos rfl]
    have hlast : (symEscapeStringValue (C.val s)).getLast? ≠ some '\r' := by
      rw [symEscapeStringValue, List.getLast?_concat]
      decide
    refine h.read_set hlast ?_
    have hread := unescape_escape (C.val s) []
    rw [htypes, symEscapeStringValue, List.cons_append]
    simp only [confSetSymVal, hread, Option.map_some]
  | int =>
    rw [htypes] at hvalid
    have hint := hvalid (.inl rfl)
    rw [if_neg (by decide)]
    refine h.read_set (fun hlast => ?_) (by rw [htypes, confSetSymVal, if_pos hint])
    exact not_mem_of_intValid hint (by decide) (by decide) (List.mem_of_getLast? hlast)
  | hex =>
    rw [htypes] at hvalid
    have hhex := hvalid (.inr rfl)
    rw [if_neg (by decide)]
    refine h.read_set (fun hlast => ?_) (by rw [htypes, confSetSymVal, if_pos hhex])
    exact not_mem_of_hexValid hhex (by decide) (by decide) (List.mem_of_getLast? hlast)

/-! ### The file -/

/-- The lines of the heading. -/
def headingLines (title : Text) : List Text :=
  (lines (headingText title)).map fun l => '#' :: (if l = [] then [] else ' ' :: l)

/-- The lines of the entries. -/
def itemLines (T : SymbolTable σ) (C : Current σ) : List (Item σ) → List σ → List Text
  | [], _ => []
  | .menu visible prompt :: items, written =>
    (if visible then [[], ['#'], '#' :: ' ' :: prompt, ['#']] else []) ++ itemLines T C items written
  | .symbol s :: items, written =>
    if T.isChoice s = false ∧ C.writes s = true ∧ s ∉ written then
      (if Untyped T s then [] else [symbolLine T C s]) ++ itemLines T C items (s :: written)
    else itemLines T C items written

/-- The symbols that have a line in the file. -/
def writtenSymbols (T : SymbolTable σ) (C : Current σ) : List (Item σ) → List σ → List σ
  | [], _ => []
  | .menu _ _ :: items, written => writtenSymbols T C items written
  | .symbol s :: items, written =>
    if T.isChoice s = false ∧ C.writes s = true ∧ s ∉ written then
      (if Untyped T s then [] else [s]) ++ writtenSymbols T C items (s :: written)
    else writtenSymbols T C items written

omit [DecidableEq σ] in
theorem kconfigPrintComment_heading (title : Text) :
    kconfigPrintComment (headingText title) = unlines (headingLines title) := by
  rw [kconfigPrintComment, unlines, headingLines, List.flatMap_map]

theorem confWriteItems_eq (items : List (Item σ)) (written : List σ) :
    confWriteItems T C items written = unlines (itemLines T C items written) := by
  induction items generalizing written with
  | nil => rfl
  | cons item items ih =>
    cases item with
    | menu visible prompt =>
      rw [confWriteItems, itemLines, unlines_append, ih]
      cases visible with
      | false => rfl
      | true =>
        refine congrArg (· ++ _) ?_
        simp [unlines]
    | symbol s =>
      rw [confWriteItems, itemLines]
      split
      · rw [unlines_append, ih, confWriteSymbol_eq]
        split
        · rfl
        · refine congrArg (· ++ _) ?_
          simp [unlines]
      · exact ih written

/-- What has to hold of the texts and of the symbols of a file. -/
structure Writable (T : SymbolTable σ) (C : Current σ) (title : Text) (items : List (Item σ)) : Prop where
  title : ∀ l ∈ lines (headingText title), Remark T l
  prompt : ∀ visible prompt, .menu visible prompt ∈ items → '\n' ∉ prompt ∧ Remark T prompt
  symbol : ∀ s, .symbol s ∈ items → T.isChoice s = false → C.writes s = true → Storable T C s

variable {title : Text} {items : List (Item σ)}

theorem foldl_headingLines (h : ∀ l ∈ lines (headingText title), Remark T l) (D : σ → Saved σ) :
    (headingLines title).foldl (confReadLine T true) D = D := by
  rw [headingLines]
  generalize lines (headingText title) = ls at h
  induction ls with
  | nil => rfl
  | cons l ls ih =>
    have hline : confReadLine T true D ('#' :: (if l = [] then [] else ' ' :: l)) = D := by
      split
      · exact confReadLine_hash true D
      · exact confReadLine_remark (h l List.mem_cons_self) true D
    rw [List.map_cons, List.foldl_cons, hline]
    exact ih fun l' hl' => h l' (List.mem_cons_of_mem _ hl')

theorem foldl_itemLines
    (hprompt : ∀ visible prompt, .menu visible prompt ∈ items → '\n' ∉ prompt ∧ Remark T prompt)
    (hsymbol : ∀ s, .symbol s ∈ items → T.isChoice s = false → C.writes s = true → Storable T C s)
    (written : List σ) (D : σ → Saved σ) :
    (itemLines T C items written).foldl (confReadLine T true) D =
      (writtenSymbols T C items written).foldl (assign T C) D := by
  induction items generalizing written D with
  | nil => rfl
  | cons item items ih =>
    have ih := ih (fun v p hp => hprompt v p (List.mem_cons_of_mem _ hp))
      (fun s hs => hsymbol s (List.mem_cons_of_mem _ hs))
    cases item with
    | menu visible prompt =>
      rw [itemLines, writtenSymbols, List.foldl_append, ih]
      cases visible with
      | false => rfl
      | true =>
        have hremark := confReadLine_remark (hprompt true prompt List.mem_cons_self).2 true D
        simp only [if_true, List.foldl_cons, List.foldl_nil, confReadLine_hash, confReadLine_nil, hremark]
    | symbol s =>
      rw [itemLines, writtenSymbols]
      split
      next hwrite =>
        rw [List.foldl_append, List.foldl_append, ih]
        split
        · rfl
        next htype =>
          rw [List.foldl_cons, List.foldl_nil, List.foldl_cons, List.foldl_nil,
            (hsymbol s List.mem_cons_self hwrite.1 hwrite.2.1).read_line htype]
      next => exact ih written D

theorem newline_not_mem_escape {t : Text} (h : '\n' ∉ t) : '\n' ∉ symEscapeStringValue t := by
  rw [symEscapeStringValue]
  intro hmem
  rw [List.mem_append, List.mem_cons, List.mem_flatMap] at hmem
  rcases hmem with (hmem | ⟨c, hc, hmem⟩) | hmem
  · exact absurd hmem (by decide)
  · split at hmem
    next hquote =>
      rcases List.mem_cons.mp hmem with hmem | hmem
      · exact absurd hmem (by decide)
      · exact h (by rwa [List.mem_singleton.mp hmem])
    next => exact h (by rwa [List.mem_singleton.mp hmem])
  · exact absurd hmem (by decide)

omit [DecidableEq σ] in
theorem Storable.newline_not_mem_value {s : σ} (h : Storable T C s) (htype : ¬ Untyped T s) :
    '\n' ∉ symGetStringValue T C s := by
  rw [symGetStringValue]
  split
  · cases C.tri s with
    | no =>
      dsimp only
      decide
    | yes =>
      dsimp only
      decide
    | mod =>
      dsimp only
      split <;> decide
  next htri =>
    have hvalid := h.valid
    cases htypes : T.type s with
    | boolean => exact absurd (.inl htypes) htri
    | tristate => exact absurd (.inr htypes) htri
    | unknown => exact absurd (.inl htypes) htype
    | other => exact absurd (.inr htypes) htype
    | string => exact h.string htypes
    | int =>
      rw [htypes] at hvalid
      exact not_mem_of_intValid (hvalid (.inl rfl)) (by decide) (by decide)
    | hex =>
      rw [htypes] at hvalid
      exact not_mem_of_hexValid (hvalid (.inr rfl)) (by decide) (by decide)

omit [DecidableEq σ] in
theorem Storable.newline_not_mem_line {s : σ} (h : Storable T C s) (htype : ¬ Untyped T s) :
    '\n' ∉ symbolLine T C s := by
  have hname := h.not_mem (c := '\n') (.inr (.inr (.inl rfl)))
  have hvalue : '\n' ∉ (if T.type s = .string then symEscapeStringValue (symGetStringValue T C s)
      else symGetStringValue T C s) := by
    split
    · exact newline_not_mem_escape (h.newline_not_mem_value htype)
    · exact h.newline_not_mem_value htype
  unfold symbolLine
  dsimp only
  generalize (if T.type s = .string then symEscapeStringValue (symGetStringValue T C s)
    else symGetStringValue T C s) = value at hvalue ⊢
  split
  · intro hmem
    rw [List.mem_append, List.mem_append] at hmem
    rcases hmem with (hmem | hmem) | hmem
    · exact absurd hmem (by decide)
    · exact hname hmem
    · exact absurd hmem (by decide)
  · intro hmem
    rw [List.mem_append, List.mem_cons] at hmem
    rcases hmem with hmem | hmem | hmem
    · exact hname hmem
    · exact absurd hmem (by decide)
    · exact hvalue hmem

theorem newline_not_mem_itemLines
    (hprompt : ∀ visible prompt, .menu visible prompt ∈ items → '\n' ∉ prompt ∧ Remark T prompt)
    (hsymbol : ∀ s, .symbol s ∈ items → T.isChoice s = false → C.writes s = true → Storable T C s)
    (written : List σ) :
    ∀ l ∈ itemLines T C items written, '\n' ∉ l := by
  induction items generalizing written with
  | nil => exact fun l hl => absurd hl List.not_mem_nil
  | cons item items ih =>
    have ih := ih (fun v p hp => hprompt v p (List.mem_cons_of_mem _ hp))
      (fun s hs => hsymbol s (List.mem_cons_of_mem _ hs))
    intro l hl
    cases item with
    | menu visible prompt =>
      have hnot := (hprompt visible prompt List.mem_cons_self).1
      rw [itemLines, List.mem_append] at hl
      rcases hl with hl | hl
      · split at hl
        · simp only [List.mem_cons, List.not_mem_nil, or_false] at hl
          rcases hl with rfl | rfl | rfl | rfl
          · exact List.not_mem_nil
          · decide
          · simpa using hnot
          · decide
        · cases hl
      · exact ih written l hl
    | symbol s =>
      rw [itemLines] at hl
      split at hl
      next hwrite =>
        rcases List.mem_append.mp hl with hl | hl
        · split at hl
          · cases hl
          next htype =>
            rw [List.mem_singleton.mp hl]
            exact (hsymbol s List.mem_cons_self hwrite.1 hwrite.2.1).newline_not_mem_line htype
        · exact ih (s :: written) l hl
      next => exact ih written l hl

/-- Reading what was written is giving the symbols their values one after the other. -/
theorem confReadSimple_confWrite (h : Writable T C title items) :
    confReadSimple T (confWrite T C title items) =
      (writtenSymbols T C items []).foldl (assign T C) (Saved.initial T) := by
  have hnewline : ∀ l ∈ headingLines title ++ itemLines T C items [], '\n' ∉ l := by
    intro l hl
    rcases List.mem_append.mp hl with hl | hl
    · obtain ⟨l', hl', rfl⟩ := List.mem_map.mp hl
      have hnot := newline_not_mem_lines _ l' hl'
      split
      · decide
      · simpa using hnot
    · exact newline_not_mem_itemLines h.prompt h.symbol [] l hl
  have hlines := lines_unlines hnewline []
  rw [List.append_nil, lines_nil] at hlines
  rw [confReadSimple, confWrite, kconfigPrintComment_heading, confWriteItems_eq, ← unlines_append, hlines,
    List.getLast?_concat, List.dropLast_concat, List.foldl_append, foldl_headingLines h.title,
    foldl_itemLines h.prompt h.symbol]
  rfl

/-! ### The values -/

theorem mem_writtenSymbols {s : σ} {written : List σ} : s ∈ writtenSymbols T C items written ↔
    .symbol s ∈ items ∧ (T.isChoice s = false ∧ C.writes s = true) ∧ ¬ Untyped T s ∧ s ∉ written := by
  induction items generalizing written with
  | nil => simp [writtenSymbols]
  | cons item items ih =>
    cases item with
    | menu visible prompt =>
      rw [writtenSymbols, ih]
      simp
    | symbol x =>
      rw [writtenSymbols]
      by_cases hsx : s = x
      · subst hsx
        split
        next h =>
          split
          next htype => simp [ih, htype]
          next htype => simp [htype, h]
        next h =>
          rw [ih]
          simp only [List.mem_cons, true_or, true_and]
          constructor
          · rintro ⟨-, h', htype, hnot⟩
            exact ⟨h', htype, hnot⟩
          · rintro ⟨h', htype, hnot⟩
            exact absurd ⟨h'.1, h'.2, hnot⟩ h
      · split
        · rw [List.mem_append, ih]
          have hnot : s ∉ (if Untyped T x then [] else [x]) := by
            split
            · exact List.not_mem_nil
            · rwa [List.mem_singleton]
          simp [hnot, hsx]
        · rw [ih]
          simp [hsx]

omit [DecidableEq σ] in
theorem saved_saved (s : σ) (d : Saved σ) : saved T C s (saved T C s d) = saved T C s d := by
  unfold saved
  split <;> rfl

/-- A value changes its symbol, and a choice. -/
theorem assign_apply {D : σ → Saved σ} {s x : σ} (hs : T.isChoice s = false) :
    assign T C D x s = if s = x then saved T C s (D s) else D s := by
  have hupdate : Function.update D x (saved T C x (D x)) s = if s = x then saved T C s (D s) else D s := by
    by_cases hsx : s = x
    · subst hsx
      rw [Function.update_self, if_pos rfl]
    · rw [Function.update_of_ne hsx, if_neg hsx]
  rw [assign, setSym]
  cases hcs : T.choice x with
  | none => exact hupdate
  | some cs =>
    have hne : s ≠ cs := by
      rintro rfl
      rw [T.isChoice_choice x s hcs] at hs
      cases hs
    dsimp only
    rw [Function.update_of_ne hne]
    exact hupdate

theorem foldl_assign_apply {D : σ → Saved σ} {s : σ} (hs : T.isChoice s = false) (l : List σ) :
    l.foldl (assign T C) D s = if s ∈ l then saved T C s (D s) else D s := by
  induction l generalizing D with
  | nil => rfl
  | cons x l ih =>
    rw [List.foldl_cons, ih, assign_apply hs]
    by_cases hsx : s = x
    · rw [if_pos hsx, saved_saved, ite_self, if_pos (by rw [hsx]; exact List.mem_cons_self)]
    · rw [if_neg hsx]
      simp only [List.mem_cons, hsx, false_or]

/-- What `conf_write` writes is read back by `conf_read_simple`: the symbols that were written have their
values, and no other symbol has got one. -/
theorem confReadSimple_spec (h : Writable T C title items) (s : σ) (hs : T.isChoice s = false) :
    confReadSimple T (confWrite T C title items) s =
      if .symbol s ∈ items ∧ C.writes s = true ∧ ¬ Untyped T s then
        if T.type s = .boolean ∨ T.type s = .tristate then ⟨C.written s, none, none, true⟩
        else ⟨.no, some (C.val s), none, true⟩
      else ⟨.no, none, none, false⟩ := by
  have hmem : s ∈ writtenSymbols T C items [] ↔ .symbol s ∈ items ∧ C.writes s = true ∧ ¬ Untyped T s := by
    rw [mem_writtenSymbols]
    simp [hs]
  rw [confReadSimple_confWrite h, foldl_assign_apply hs]
  by_cases hwritten : s ∈ writtenSymbols T C items []
  · rw [if_pos hwritten, if_pos (hmem.mp hwritten), saved, Saved.initial, hs]
  · rw [if_neg hwritten, if_neg (fun h' => hwritten (hmem.mpr h')), Saved.initial, hs]

section

variable {D : σ → Saved σ} {x cs : σ} (hne : cs ≠ x)
include hne

theorem assign_choice_of_ne (hchoice : T.choice x ≠ some cs) : assign T C D x cs = D cs := by
  rw [assign, setSym]
  cases hcs : T.choice x with
  | none => exact Function.update_of_ne hne _ _
  | some c =>
    have hc : cs ≠ c := by
      rintro rfl
      exact hchoice hcs
    dsimp only
    rw [Function.update_of_ne hc, Function.update_of_ne hne]

theorem assign_choice (hchoice : T.choice x = some cs) (htype : T.type x = .boolean ∨ T.type x = .tristate) :
    (C.written x = .no → assign T C D x cs = D cs) ∧
      (C.written x = .yes → assign T C D x cs = { D cs with tri := .yes, selected := some x }) := by
  have hsaved : (saved T C x (D x)).tri = C.written x := by rw [saved, if_pos htype]
  constructor
  · intro hno
    rw [assign, setSym, hchoice]
    dsimp only
    rw [Function.update_self, Function.update_self, hsaved, hno, Function.update_of_ne hne]
    cases hd : D cs with
    | mk tri val selected hasValue => cases tri <;> rfl
  · intro hyes
    rw [assign, setSym, hchoice]
    dsimp only
    rw [Function.update_self, Function.update_self, hsaved, hyes, Function.update_of_ne hne]
    cases hd : D cs with
    | mk tri val selected hasValue => cases tri <;> rfl

end

/-- A boolean symbol, a string, and a choice with one value. -/
def sampleTable : SymbolTable ℕ where
  name s := if s = 0 then ['A'] else if s = 1 then ['B'] else ['C']
  type s := if s = 1 then .string else .boolean
  isChoice s := s = 2
  choice s := if s = 3 then some 2 else none
  find t := if t = ['A'] then some 0 else if t = ['B'] then some 1 else if t = ['C'] then some 3 else none
  isChoice_choice s c h := by
    split at h
    · rw [← Option.some.inj h]
      decide
    · cases h

/-- The string has a quote and a backslash in it. -/
def sampleCurrent : Current ℕ where
  tri s := if s = 3 then .yes else .no
  val _ := ['a', '"', '\\']
  writes _ := true
  modules := .no

def sampleItems : List (Item ℕ) := [.menu true ['M'], .symbol 0, .symbol 1, .symbol 2, .symbol 3]

theorem writable_sample : Writable sampleTable sampleCurrent ['T'] sampleItems where
  title := by decide
  prompt visible prompt hmem := by
    simp only [sampleItems, List.mem_cons, Item.menu.injEq, List.not_mem_nil, or_false, reduceCtorEq] at hmem
    rw [hmem.2]
    decide
  symbol s hmem hs _ := by
    simp only [sampleItems, List.mem_cons, Item.symbol.injEq, List.not_mem_nil, or_false, reduceCtorEq,
      false_or] at hmem
    rcases hmem with rfl | rfl | rfl | rfl
    · exact ⟨rfl, by decide, by decide, by decide, by decide⟩
    · exact ⟨rfl, by decide, by decide, by decide, by decide⟩
    · exact absurd hs (by decide)
    · exact ⟨rfl, by decide, by decide, by decide, by decide⟩

theorem confReadSimple_spec_sample :
    confReadSimple sampleTable (confWrite sampleTable sampleCurrent ['T'] sampleItems) 1 =
      ⟨.no, some ['a', '"', '\\'], none, true⟩ :=
  (confReadSimple_spec writable_sample 1 rfl).trans (by decide)

/-- A choice stays as it is once the one value of it that is set has been read. -/
theorem foldl_assign_choice {s cs : σ} (hchoice : T.choice s = some cs)
    (htype : T.type s = .boolean ∨ T.type s = .tristate) (hyes : C.written s = .yes)
    (hother : ∀ x, T.choice x = some cs → x ≠ s →
      (T.type x = .boolean ∨ T.type x = .tristate) ∧ C.written x = .no)
    {l : List σ} (hl : ∀ x ∈ l, T.isChoice x = false) {D : σ → Saved σ}
    (hD : D cs = ⟨.no, none, none, true⟩ ∧ s ∈ l ∨ D cs = ⟨.yes, none, some s, true⟩) :
    l.foldl (assign T C) D cs = ⟨.yes, none, some s, true⟩ := by
  have hcs := T.isChoice_choice s cs hchoice
  induction l generalizing D with
  | nil => exact hD.resolve_left fun hnil => List.not_mem_nil hnil.2
  | cons x l ih =>
    have hx := hl x List.mem_cons_self
    have hne : cs ≠ x := by
      rintro rfl
      rw [hcs] at hx
      cases hx
    refine ih (fun y hy => hl y (List.mem_cons_of_mem _ hy)) ?_
    by_cases hxs : x = s
    · subst hxs
      refine .inr ?_
      rw [(assign_choice hne hchoice htype).2 hyes]
      rcases hD with hD | hD
      · rw [hD.1]
      · rw [hD]
    · have hsame : assign T C D x cs = D cs := by
        by_cases hxc : T.choice x = some cs
        · obtain ⟨htypex, hno⟩ := hother x hxc hxs
          exact (assign_choice hne hxc htypex).1 hno
        · exact assign_choice_of_ne hne hxc
      rw [hsame]
      refine hD.imp (fun hD => ⟨hD.1, ?_⟩) id
      exact (List.mem_cons.mp hD.2).resolve_left fun heq => hxs heq.symm

/-- Of a choice with one value that is set, that value is read back. -/
theorem selected_confReadSimple (h : Writable T C title items) {s cs : σ} (hmem : .symbol s ∈ items)
    (hwrites : C.writes s = true) (hchoice : T.choice s = some cs) (hs : T.isChoice s = false)
    (htype : T.type s = .boolean ∨ T.type s = .tristate) (hyes : C.written s = .yes)
    (hother : ∀ x, T.choice x = some cs → x ≠ s →
      (T.type x = .boolean ∨ T.type x = .tristate) ∧ C.written x = .no) :
    confReadSimple T (confWrite T C title items) cs = ⟨.yes, none, some s, true⟩ := by
  rw [confReadSimple_confWrite h]
  refine foldl_assign_choice hchoice htype hyes hother (fun x hx => (mem_writtenSymbols.mp hx).2.1.1)
    (.inl ⟨?_, ?_⟩)
  · rw [Saved.initial, T.isChoice_choice s cs hchoice]
  · refine mem_writtenSymbols.mpr ⟨hmem, ⟨hs, hwrites⟩, ?_, List.not_mem_nil⟩
    rintro (huntyped | huntyped) <;> rw [huntyped] at htype <;> rcases htype with htype | htype <;> cases htype

theorem selected_confReadSimple_sample :
    confReadSimple sampleTable (confWrite sampleTable sampleCurrent ['T'] sampleItems) 2 = ⟨.yes, none, some 3, true⟩ := by
  refine selected_confReadSimple writable_sample (s := 3) (by decide) rfl rfl rfl (.inl rfl) rfl fun x hx hne => ?_
  rw [sampleTable] at hx
  dsimp only at hx
  rw [if_neg hne] at hx
  cases hx

end CargosBuildroot.Kconfig
