import CargosBuildroot.Developers.Patches

/-! The file `DEVELOPERS`. A record is a line with the name of a developer and the lines with
the patterns of the files; an empty line or the end of the file ends it. -/

namespace CargosBuildroot.Developers

open Shell Python

/-! ### DEVELOPERS file parsing functions -/

structure Developer where
  name : Text
  files : List Text

def Developer.hasfile (T : Tree) (dev : Developer) (f : Text) : Bool :=
  dev.files.any fun fs => fs.isPrefixOf (abspath T.cwd f)

/-- The match of `^package/pkg-([^.]*).mk$`, its group. The dot before `mk` is any character. -/
def infraOfFile (fname : Text) : Option Text :=
  match ((beforeDollar fname).dropPrefix? "package/pkg-".toList).bind
    (·.dropSuffix? "mk".toList) with
  | none => none
  | some m =>
    if m.getLast? = none ∨ m.getLast? = some '\n' ∨ '.' ∈ m.dropLast then none
    else some m.dropLast

def parseDeveloperInfras (fnames : List Text) : List Text :=
  fnames.foldl (fun infras fname => add infras (infraOfFile fname)) []

def Developer.infras (dev : Developer) : List Text := parseDeveloperInfras dev.files

/-- The variables of `parse_developers`, and the lines it prints. -/
structure Parse where
  developers : List Developer
  linen : ℕ
  files : List Text
  name : Option Text
  printed : List Text

def Parse.start : Parse := ⟨[], 0, [], none, []⟩

def syntaxError (linen : ℕ) : Text :=
  "Syntax error in DEVELOPERS file, line ".toList ++ decimal linen

/-- A pass of the loop. The error is what is printed when the function returns `None`. -/
def Parse.line (T : Tree) (st : Parse) (l : Text) : Except Text Parse :=
  let l := strip l
  if "#".toList.isPrefixOf l then .ok st
  else if "N:".toList.isPrefixOf l then
    .ok { st with
      printed := if st.name ≠ none ∨ st.files ≠ [] then st.printed ++ [syntaxError st.linen]
        else st.printed
      name := some (strip (l.drop 2))
      linen := st.linen + 1 }
  else if "F:".toList.isPrefixOf l then
    let fname := strip (l.drop 2)
    let devFiles := T.glob (join T.cwd fname)
    .ok { st with
      printed := if devFiles = [] then
          st.printed ++ ["WARNING: '".toList ++ fname ++ "' doesn't match any file".toList]
        else st.printed
      files := st.files ++ devFiles
      linen := st.linen + 1 }
  else if l = [] then
    match st.name with
    | none | some [] => .ok st
    | some name => .ok { st with
        developers := st.developers ++ [⟨name, st.files⟩]
        files := []
        name := none
        linen := st.linen + 1 }
  else .error (syntaxError st.linen ++ ": '".toList ++ l ++ ['\x27'])

/-- The developers after the last line. -/
def Parse.finish (st : Parse) : List Developer :=
  st.developers ++ st.name.elim [] fun name => [⟨name, st.files⟩]

def parseDevelopers (T : Tree) (text : Text) : Option (List Developer) :=
  (((readlines text).foldlM (Parse.line T) Parse.start).map Parse.finish).toOption

/-! ### Records -/

/-- A developer and the patterns of his files. -/
structure Record where
  name : Text
  entries : List Text

/-- The files that match the patterns. -/
def globbed (T : Tree) (entries : List Text) : List Text :=
  entries.flatMap fun e => T.glob (join T.cwd e)

def Record.paths (T : Tree) (r : Record) : List Text := globbed T r.entries

/-- The lines of patterns below a name, with comments between them. -/
inductive Entries : List Text → List Text → Prop
  | nil : Entries [] []
  | comment {l t : Text} {ls es : List Text} (h : strip l = '#' :: t) :
      Entries ls es → Entries (l :: ls) es
  | entry {l t : Text} {ls es : List Text} (h : strip l = 'F' :: ':' :: t) :
      Entries ls es → Entries (l :: ls) (strip t :: es)

/-- The lines of a file and its records. -/
inductive Records : List Text → List Record → Prop
  | nil : Records [] []
  | empty {l : Text} {ls : List Text} {rs : List Record} (h : strip l = []) :
      Records ls rs → Records (l :: ls) rs
  | comment {l t : Text} {ls : List Text} {rs : List Record} (h : strip l = '#' :: t) :
      Records ls rs → Records (l :: ls) rs
  | last {l t : Text} {body es : List Text} (h : strip l = 'N' :: ':' :: t) (hname : strip t ≠ []) :
      Entries body es → Records (l :: body) [⟨strip t, es⟩]
  | record {l t m : Text} {body es ls : List Text} {rs : List Record}
      (h : strip l = 'N' :: ':' :: t) (hname : strip t ≠ []) (hend : strip m = []) :
      Entries body es → Records ls rs → Records (l :: (body ++ m :: ls)) (⟨strip t, es⟩ :: rs)

/-! ### The records are read -/

section

variable {T : Tree} {st : Parse} {l t : Text}

theorem Parse.line_comment (h : strip l = '#' :: t) : st.line T l = .ok st := by
  simp [Parse.line, h]

theorem Parse.line_name (h : strip l = 'N' :: ':' :: t) : ∃ linen printed,
    st.line T l = .ok ⟨st.developers, linen, st.files, some (strip t), printed⟩ := by
  simp [Parse.line, h]

theorem Parse.line_entry (h : strip l = 'F' :: ':' :: t) : ∃ linen printed,
    st.line T l = .ok ⟨st.developers, linen, st.files ++ T.glob (join T.cwd (strip t)), st.name,
      printed⟩ := by
  simp [Parse.line, h]

theorem Parse.line_empty (h : strip l = []) (hname : st.name = none) : st.line T l = .ok st := by
  simp [Parse.line, h, hname]

theorem Parse.line_end (h : strip l = []) {name : Text} (hname : st.name = some name)
    (hne : name ≠ []) : ∃ linen,
    st.line T l = .ok ⟨st.developers ++ [⟨name, st.files⟩], linen, [], none, st.printed⟩ := by
  cases name with
  | nil => exact absurd rfl hne
  | cons c name => simp [Parse.line, h, hname]

end

theorem foldlM_ok_cons {α β ε : Type*} {f : β → α → Except ε β} {a : α} {b b' : β}
    (h : f b a = .ok b') (l : List α) : (a :: l).foldlM f b = l.foldlM f b' := by
  rw [List.foldlM_cons, h]
  rfl

theorem foldlM_ok_append {α β ε : Type*} {f : β → α → Except ε β} {l : List α} {b b' : β}
    (h : l.foldlM f b = .ok b') (l' : List α) : (l ++ l').foldlM f b = l'.foldlM f b' := by
  rw [List.foldlM_append, h]
  rfl

variable {T : Tree}

theorem foldlM_entries {body es : List Text} (h : Entries body es) (st : Parse) :
    ∃ linen printed, body.foldlM (Parse.line T) st = .ok ⟨st.developers, linen,
      st.files ++ globbed T es, st.name, printed⟩ := by
  induction h generalizing st with
  | nil =>
    refine ⟨st.linen, st.printed, ?_⟩
    rw [globbed, List.flatMap_nil, List.append_nil]
    rfl
  | comment h _ ih =>
    rw [foldlM_ok_cons (Parse.line_comment h)]
    exact ih st
  | @entry l t ls es h _ ih =>
    obtain ⟨linen, printed, hline⟩ := @Parse.line_entry T st l t h
    rw [foldlM_ok_cons hline, globbed, List.flatMap_cons, ← List.append_assoc, ← globbed]
    exact ih ⟨st.developers, linen, st.files ++ T.glob (join T.cwd (strip t)), st.name, printed⟩

def Record.developer (T : Tree) (r : Record) : Developer := ⟨r.name, r.paths T⟩

theorem foldlM_records {ls : List Text} {rs : List Record} (h : Records ls rs) (st : Parse)
    (hfiles : st.files = []) (hname : st.name = none) : ∃ st',
    ls.foldlM (Parse.line T) st = .ok st' ∧
      st'.finish = st.developers ++ rs.map (Record.developer T) := by
  induction h generalizing st with
  | nil => exact ⟨st, rfl, by simp [Parse.finish, hname]⟩
  | empty h _ ih =>
    rw [foldlM_ok_cons (Parse.line_empty h hname)]
    exact ih st hfiles hname
  | comment h _ ih =>
    rw [foldlM_ok_cons (Parse.line_comment h)]
    exact ih st hfiles hname
  | @last l t body es h _ hbody =>
    obtain ⟨linen, printed, hline⟩ := @Parse.line_name T st l t h
    obtain ⟨linen', printed', hrun⟩ := foldlM_entries (T := T) hbody
      ⟨st.developers, linen, st.files, some (strip t), printed⟩
    refine ⟨_, (foldlM_ok_cons hline body).trans hrun, ?_⟩
    simp [Parse.finish, hfiles, Record.developer, Record.paths]
  | @record l t m body es ls rs h hne hend hbody _ ih =>
    obtain ⟨linen, printed, hline⟩ := @Parse.line_name T st l t h
    obtain ⟨linen', printed', hrun⟩ := foldlM_entries (T := T) hbody
      ⟨st.developers, linen, st.files, some (strip t), printed⟩
    obtain ⟨linen'', hblank⟩ := @Parse.line_end T
      ⟨st.developers, linen', st.files ++ globbed T es, some (strip t), printed'⟩ m hend _ rfl hne
    obtain ⟨st', hrest, hfinish⟩ := ih
      ⟨st.developers ++ [⟨strip t, st.files ++ globbed T es⟩], linen'', [], none, printed'⟩ rfl rfl
    refine ⟨st', ?_, ?_⟩
    · rw [foldlM_ok_cons hline, foldlM_ok_append hrun, foldlM_ok_cons hblank]
      exact hrest
    · rw [hfinish, hfiles]
      simp [Record.developer, Record.paths]

/-- A file of records gives a developer for each of them, with the files of all its patterns. -/
theorem parseDevelopers_records {text : Text} {rs : List Record} (h : Records (readlines text) rs) :
    parseDevelopers T text = some (rs.map (Record.developer T)) := by
  obtain ⟨st, hrun, hfinish⟩ := foldlM_records (T := T) h Parse.start rfl rfl
  rw [parseDevelopers, hrun, Except.map, hfinish]
  rfl

end CargosBuildroot.Developers
