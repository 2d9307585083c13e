import CargosBuildroot.Python.Strings

/-! `csv.reader` of Python 2 with the default dialect, apart from the delimiter. A record
ends with a line, unless a quoted field is open there. -/

namespace CargosBuildroot.Python

open Shell

inductive ParserState
  | startRecord
  | startField
  | inField
  | inQuotedField
  | quoteInQuotedField
  | eatCrnl
deriving DecidableEq

/-- The state of the reader with the field and the fields read so far. -/
structure Reader where
  state : ParserState
  field : Text
  fields : List Text

namespace Reader

def reset : Reader := ⟨.startRecord, [], []⟩

def addChar (r : Reader) (c : Char) (state : ParserState) : Reader :=
  { r with state, field := r.field ++ [c] }

def saveField (r : Reader) (state : ParserState) : Reader :=
  ⟨state, [], r.fields ++ [r.field]⟩

/-- A character at the start of a field, or in a field. -/
def fieldChar (delimiter : Char) (r : Reader) (c : Char) : Reader :=
  if c = '\n' ∨ c = '\r' then r.saveField .eatCrnl
  else if c = delimiter then r.saveField .startField
  else r.addChar c .inField

def startFieldChar (delimiter : Char) (r : Reader) (c : Char) : Reader :=
  if c = '\x22' then { r with state := .inQuotedField } else fieldChar delimiter r c

/-- A character of a line; `none` is a `csv.Error`. -/
def processChar (delimiter : Char) (r : Reader) (c : Char) : Option Reader :=
  if c = '\x00' then none
  else match r.state with
    | .startRecord =>
      if c = '\n' ∨ c = '\r' then some { r with state := .eatCrnl }
      else some (startFieldChar delimiter r c)
    | .startField => some (startFieldChar delimiter r c)
    | .inField => some (fieldChar delimiter r c)
    | .inQuotedField =>
      if c = '\x22' then some { r with state := .quoteInQuotedField }
      else some (r.addChar c .inQuotedField)
    | .quoteInQuotedField =>
      if c = '\x22' then some (r.addChar c .inQuotedField) else some (fieldChar delimiter r c)
    | .eatCrnl => if c = '\n' ∨ c = '\r' then some r else none

/-- The end of a line. -/
def processEnd (r : Reader) : Reader :=
  match r.state with
  | .startRecord | .inQuotedField => r
  | .eatCrnl => { r with state := .startRecord }
  | .startField | .inField | .quoteInQuotedField => r.saveField .startRecord

def processLine (delimiter : Char) (r : Reader) (line : Text) : Option Reader :=
  (line.foldlM (processChar delimiter) r).map processEnd

/-- The records of the lines. -/
def records (delimiter : Char) : List Text → Reader → Option (List (List Text))
  | [], r => if r.field ≠ [] ∨ r.state = .inQuotedField then some [r.fields ++ [r.field]] else some []
  | line :: ls, r => do
    let r ← processLine delimiter r line
    if r.state = .startRecord then
      let rest ← records delimiter ls reset
      some (r.fields :: rest)
    else records delimiter ls r

end Reader

/-- The rows of `csv.reader(file, delimiter)`. -/
def csvReader (delimiter : Char) (t : Text) : Option (List (List Text)) :=
  Reader.records delimiter (readlines t) Reader.reset

/-! ### Lines without quotes -/

/-- The field has no character with a meaning for the reader. -/
def PlainField (delimiter : Char) (f : Text) : Prop :=
  ∀ c ∈ f, c ≠ delimiter ∧ c ≠ '\n' ∧ c ≠ '\r' ∧ c ≠ '\x00' ∧ c ≠ '\x22'

variable {delimiter : Char}

theorem processChar_plain {r : Reader} {c : Char} (h : c ≠ '\n' ∧ c ≠ '\r' ∧ c ≠ '\x00' ∧ c ≠ '\x22')
    (hr : r.state = .startRecord ∨ r.state = .startField ∨ r.state = .inField) :
    Reader.processChar delimiter r c =
      some (if c = delimiter then r.saveField .startField else r.addChar c .inField) := by
  obtain ⟨hn, hr', h0, hq⟩ := h
  rcases hr with hr | hr | hr <;>
    simp [Reader.processChar, Reader.startFieldChar, Reader.fieldChar, hr, hn, hr', h0, hq]

theorem foldlM_field {f : Text} (h : PlainField delimiter f) {r : Reader}
    (hr : r.state = .startRecord ∨ r.state = .startField ∨ r.state = .inField) :
    ∃ state, (state = r.state ∨ state = .inField) ∧
      f.foldlM (Reader.processChar delimiter) r = some ⟨state, r.field ++ f, r.fields⟩ := by
  induction f generalizing r with
  | nil => exact ⟨r.state, .inl rfl, by simp⟩
  | cons c f ih =>
    rw [PlainField, List.forall_mem_cons] at h
    obtain ⟨state, hstate, hfold⟩ := ih h.2 (r := r.addChar c .inField) (.inr (.inr rfl))
    refine ⟨state, .inr (or_self_iff.mp hstate), ?_⟩
    rw [List.foldlM_cons, processChar_plain h.1.2 hr, if_neg h.1.1, Option.bind_eq_bind,
      Option.bind_some, hfold]
    simp [Reader.addChar]

/-- The fields of a line that has at least one delimiter. -/
theorem processLine_plain (hd : delimiter ≠ '\n' ∧ delimiter ≠ '\r' ∧ delimiter ≠ '\x00' ∧ delimiter ≠ '\x22')
    {fs : List Text} {f : Text} (hfs : ∀ g ∈ fs, PlainField delimiter g) (hne : fs ≠ [])
    (hf : PlainField delimiter f) :
    Reader.processLine delimiter Reader.reset (fs.flatMap (· ++ [delimiter]) ++ (f ++ ['\n'])) =
      some ⟨.startRecord, [], fs ++ [f]⟩ := by
  have hfields : ∀ (fs done : List Text) (state : ParserState), (∀ g ∈ fs, PlainField delimiter g) →
      (state = .startRecord ∨ state = .startField) → (fs = [] → state = .startField) →
      (fs.flatMap (· ++ [delimiter])).foldlM (Reader.processChar delimiter) ⟨state, [], done⟩ =
        some ⟨.startField, [], done ++ fs⟩ := by
    intro fs
    induction fs with
    | nil =>
      intro done state _ _ h
      rw [h rfl]
      simp
    | cons g fs ih =>
      intro done state hplain hstate _
      rw [List.forall_mem_cons] at hplain
      obtain ⟨state', hstate', hfold⟩ := foldlM_field hplain.1 (r := ⟨state, [], done⟩)
        (hstate.imp_right .inl)
      have hstate'' : state' = .startRecord ∨ state' = .startField ∨ state' = .inField := by
        rcases hstate' with rfl | rfl
        · exact hstate.imp_right .inl
        · exact .inr (.inr rfl)
      rw [List.flatMap_cons, List.append_assoc, List.foldlM_append, hfold, Option.bind_eq_bind,
        Option.bind_some, List.singleton_append, List.foldlM_cons, processChar_plain hd hstate'',
        if_pos rfl, Option.bind_eq_bind, Option.bind_some]
      have hrest := ih (done ++ [g]) .startField hplain.2 (.inr rfl) (fun _ => rfl)
      rw [List.append_assoc, List.singleton_append] at hrest
      simpa [Reader.saveField] using hrest
  obtain ⟨state, hstate, hfold⟩ := foldlM_field hf (r := ⟨.startField, [], fs⟩) (.inr (.inl rfl))
  rw [Reader.processLine, List.foldlM_append, Reader.reset,
    hfields fs [] .startRecord hfs (.inl rfl) (fun h => absurd h hne), Option.bind_eq_bind,
    Option.bind_some, List.nil_append, List.foldlM_append, hfold, Option.bind_eq_bind,
    Option.bind_some, List.foldlM_cons]
  rcases hstate with rfl | rfl <;>
    simp [Reader.processChar, Reader.startFieldChar, Reader.fieldChar, Reader.saveField, Reader.processEnd]

/-- A file of such lines is read as their fields. -/
theorem csvReader_unlines
    (hd : delimiter ≠ '\n' ∧ delimiter ≠ '\r' ∧ delimiter ≠ '\x00' ∧ delimiter ≠ '\x22')
    {rows : List (List Text × Text)}
    (h : ∀ row ∈ rows, row.1 ≠ [] ∧ (∀ g ∈ row.1, PlainField delimiter g) ∧ PlainField delimiter row.2) :
    csvReader delimiter (unlines (rows.map fun row => row.1.flatMap (· ++ [delimiter]) ++ row.2)) =
      some (rows.map fun row => row.1 ++ [row.2]) := by
  have hplain : ∀ f, PlainField delimiter f → '\n' ∉ f := fun f hf hmem => (hf _ hmem).2.1 rfl
  have hlines : ∀ l ∈ rows.map fun row => row.1.flatMap (· ++ [delimiter]) ++ row.2, '\n' ∉ l := by
    rintro l hl hmem
    obtain ⟨row, hrow, rfl⟩ := List.mem_map.mp hl
    obtain ⟨-, hfs, hf⟩ := h row hrow
    rcases List.mem_append.mp hmem with hmem | hmem
    · obtain ⟨g, hg, hmem⟩ := List.mem_flatMap.mp hmem
      rcases List.mem_append.mp hmem with hmem | hmem
      · exact hplain g (hfs g hg) hmem
      · exact hd.1 (List.mem_singleton.mp hmem).symm
    · exact hplain _ hf hmem
  rw [csvReader, readlines_unlines hlines]
  clear hlines
  induction rows with
  | nil => rfl
  | cons row rows ih =>
    rw [List.forall_mem_cons] at h
    obtain ⟨⟨hne, hfs, hf⟩, hrest⟩ := h
    rw [List.map_cons, List.map_cons, Reader.records, List.append_assoc, processLine_plain hd hfs hne hf,
      Option.bind_eq_bind, Option.bind_some, if_pos rfl, ih hrest]
    rfl

end CargosBuildroot.Python
