import CargosBuildroot.Statistics.BuildTime

/-! The list of installed files. A hook of `pkg-generic.mk` splits the output of `md5sum` with
`read` and writes a line for every file to `packages-file-list.txt`, and `size-stats` splits
these lines at the comma. `read` takes back the backslashes that `md5sum` puts in, but not all
names come back. -/

namespace CargosBuildroot.Statistics

open Shell Python Store

/-! ### The hook -/

/-- A file below the target directory, with the hash that `md5sum` prints; the name is
relative to the directory. -/
structure TargetFile where
  hash : Text
  name : Text
  hash_length : hash.length = 32
  hash_digits : ∀ c ∈ hash, c ∈ "0123456789abcdef".toList
  name_ne_nil : name ≠ []
  name_chars : ∀ c ∈ name, c ≠ '\n' ∧ c ≠ '\x00'

/-- The characters that `md5sum` escapes, in a carriage return only from coreutils 9 on. -/
def md5sumEscape (cr : Bool) (c : Char) : Text :=
  if c = '\\' then "\\\\".toList else if c = '\n' then "\\n".toList
  else if cr && c = '\r' then "\\r".toList else [c]

def md5sumLine (cr : Bool) (f : TargetFile) : Text :=
  let path := "./".toList ++ f.name
  let mark := if path.any (fun c => c = '\\' || c = '\n' || cr && c = '\r') then ['\\'] else []
  mark ++ f.hash ++ "  ".toList ++ path.flatMap (md5sumEscape cr)

/-- A package, and the files whose lines `comm` prints for it. -/
structure Install where
  pkg : PkgName
  files : List TargetFile

/-- What `while read hash file` echoes for a line. -/
def echoLine (pkg : Text) (line : List QChar) : Text := pkg ++ ',' :: (readVars 2 line).getD 1 []

/-- The text that `step_pkg_size_end` appends to the list. -/
def stepPkgSizeEnd (cr : Bool) (i : Install) : Text :=
  unlines ((readLines (unlines (i.files.map (md5sumLine cr)))).map (echoLine i.pkg.text))

def packagesFileList (cr : Bool) (installs : List Install) : Text :=
  installs.flatMap (stepPkgSizeEnd cr)

/-! ### The report -/

/-- What `size-stats` asks of the file system. -/
structure Files where
  pathExists : Text → Bool
  islink : Text → Bool
  size : Text → ℕ

/-- The packages and the sizes of the files, by relative path. -/
abbrev FilesDict := Dict Text (Text × ℕ)

def addFile (fs : Files) (filesdict : FilesDict) (relpath abspath pkg : Text) : FilesDict :=
  if !fs.pathExists abspath then filesdict
  else if fs.islink abspath then filesdict
  else filesdict.set relpath (pkg, fs.size abspath)

/-- The package and the path of a line; `none` is a `ValueError`. -/
def parseLine (l : Text) : Option (Text × Text) :=
  match l.splitOn ',' with
  | [pkg, fpath] => some (pkg, (strip fpath).drop 2)
  | _ => none

def buildPackageDict (fs : Files) (builddir fileList : Text) : Option FilesDict :=
  (readlines fileList).foldlM (fun filesdict l => do
    let (pkg, fpath) ← parseLine l
    let fullpath := join (join builddir "target".toList) fpath
    some (addFile fs filesdict fpath fullpath pkg)) Dict.empty

/-! ### Through `read` -/

/-- A character of a name, as `read` gets it from the escaped text. -/
def readChar (cr : Bool) (c : Char) : QChar :=
  if c = '\\' then ('\\', true) else if cr && c = '\r' then ('r', true) else (c, false)

theorem readLoop_escape_char {cr : Bool} {c : Char} (hc : c ≠ '\n' ∧ c ≠ '\x00') (u : Text)
    (acc : List QChar) :
    readLoop (md5sumEscape cr c ++ u) acc = readLoop u (acc ++ [readChar cr c]) := by
  by_cases hb : c = '\\'
  · subst hb
    rfl
  by_cases hr : (cr && c = '\r') = true
  · rw [md5sumEscape, if_neg hb, if_neg hc.1, if_pos hr, readChar, if_neg hb, if_pos hr]
    rfl
  · rw [md5sumEscape, if_neg hb, if_neg hc.1, if_neg hr, readChar, if_neg hb, if_neg hr]
    exact readLoop_char hc.1 hb hc.2 u acc

theorem readLoop_escape {cr : Bool} {t : Text} (ht : ∀ c ∈ t, c ≠ '\n' ∧ c ≠ '\x00') (u : Text)
    (acc : List QChar) :
    readLoop (t.flatMap (md5sumEscape cr) ++ u) acc = readLoop u (acc ++ t.map (readChar cr)) := by
  induction t generalizing acc with
  | nil => simp
  | cons c t ih =>
    rw [List.forall_mem_cons] at ht
    rw [List.flatMap_cons, List.append_assoc, readLoop_escape_char ht.1, ih ht.2, List.append_assoc,
      List.map_cons, List.singleton_append]

/-- The first character of the hash is quoted when the line starts with a backslash. -/
def readHash (quoted : Bool) : Text → List QChar
  | [] => []
  | c :: t => (c, quoted) :: unquoted t

theorem literal_hash (f : TargetFile) : Literal f.hash ∧ '\n' ∉ f.hash := by
  have hall : "0123456789abcdef".toList.all (fun c => c ≠ '\\' && c ≠ '\x00' && c ≠ '\n') = true := by
    decide
  have hchars : ∀ c ∈ f.hash, c ≠ '\\' ∧ c ≠ '\x00' ∧ c ≠ '\n' := by
    intro c hc
    simpa [and_assoc] using List.all_eq_true.mp hall c (f.hash_digits c hc)
  exact ⟨fun c hc => ⟨(hchars c hc).1, (hchars c hc).2.1⟩, fun h => (hchars _ h).2.2 rfl⟩

/-- The path as `md5sum` gets it from `find`. -/
def TargetFile.path (f : TargetFile) : Text := "./".toList ++ f.name

theorem TargetFile.path_chars (f : TargetFile) : ∀ c ∈ f.path, c ≠ '\n' ∧ c ≠ '\x00' := by
  intro c hc
  rcases List.mem_append.mp hc with hc | hc
  · have hall : "./".toList.all (fun c => c ≠ '\n' && c ≠ '\x00') = true := by decide
    simpa using List.all_eq_true.mp hall c hc
  · exact f.name_chars c hc

/-- What `read` gets from a line. -/
def readLine (cr : Bool) (f : TargetFile) : List QChar :=
  readHash (f.path.any fun c => c = '\\' || c = '\n' || cr && c = '\r') f.hash ++
    unquoted "  ".toList ++ f.path.map (readChar cr)

theorem readLoop_hash {hash : Text} (hliteral : Literal hash) (hnewline : '\n' ∉ hash) (hne : hash ≠ [])
    (quoted : Bool) (u : Text) :
    readLoop ((if quoted then ['\\'] else []) ++ hash ++ u) [] = readLoop u (readHash quoted hash) := by
  cases quoted with
  | false =>
    rw [if_neg Bool.false_ne_true, List.nil_append, readLoop_append _ _ _ hliteral hnewline]
    cases hash <;> rfl
  | true =>
    obtain ⟨h, hs, rfl⟩ := List.exists_cons_of_ne_nil hne
    rw [List.mem_cons, not_or] at hnewline
    have hquoted : readLoop ('\\' :: h :: (hs ++ u)) [] = readLoop (hs ++ u) [(h, true)] := by
      rw [readLoop]
      · rfl
      · exact fun heq => hnewline.1 heq.symm
    rw [if_pos rfl]
    change readLoop ('\\' :: h :: (hs ++ u)) [] = _
    rw [hquoted, readLoop_append _ _ _ (fun c hc => hliteral c (.tail _ hc)) hnewline.2]
    rfl

theorem no_nul_readLine (cr : Bool) (f : TargetFile) : cString (readLine cr f) = readLine cr f := by
  rw [cString, List.takeWhile_eq_self_iff]
  intro q hq
  rw [readLine, List.append_assoc, List.mem_append, List.mem_append] at hq
  rw [decide_eq_true_iff]
  rcases hq with hq | hq | hq
  · have hmem : q.1 ∈ f.hash := by
      cases hhash : f.hash with
      | nil =>
        rw [hhash] at hq
        exact absurd hq List.not_mem_nil
      | cons h hs =>
        rw [hhash] at hq
        rcases List.mem_cons.mp hq with rfl | hq
        · exact .head _
        · obtain ⟨c, hc, rfl⟩ := List.mem_map.mp hq
          exact .tail _ hc
    exact ((literal_hash f).1 _ hmem).2
  · obtain ⟨c, hc, rfl⟩ := List.mem_map.mp hq
    have hblanks : Literal "  ".toList := by decide
    exact (hblanks c hc).2
  · obtain ⟨c, hc, rfl⟩ := List.mem_map.mp hq
    unfold readChar
    split
    · decide
    · split
      · decide
      · exact (f.path_chars c hc).2

theorem readLoop_md5sumLine (cr : Bool) (f : TargetFile) (u : Text) :
    readLoop (md5sumLine cr f ++ '\n' :: u) [] = readLine cr f :: readLoop u [] := by
  obtain ⟨hliteral, hnewline⟩ := literal_hash f
  have hblanks : Literal "  ".toList ∧ '\n' ∉ "  ".toList := by decide
  have hne : f.hash ≠ [] := List.ne_nil_of_length_eq_add_one f.hash_length
  rw [md5sumLine, List.append_assoc, List.append_assoc, readLoop_hash hliteral hnewline hne,
    readLoop_append _ _ _ hblanks.1 hblanks.2, ← TargetFile.path, readLoop_escape f.path_chars,
    readLoop]
  exact congrArg (· :: readLoop u []) (no_nul_readLine cr f)

theorem readLines_md5sum (cr : Bool) (files : List TargetFile) :
    readLines (unlines (files.map (md5sumLine cr))) = files.map (readLine cr) := by
  induction files with
  | nil => rfl
  | cons f files ih =>
    rw [List.map_cons, unlines, List.flatMap_cons, List.append_assoc, List.singleton_append, readLines,
      readLoop_md5sumLine, ← unlines, ← readLines, ih, List.map_cons]

/-! ### The echoed line -/

theorem rdropWhile_map {α β : Type*} (p : β → Bool) (f : α → β) (l : List α) :
    (l.map f).rdropWhile p = (l.rdropWhile (p ∘ f)).map f := by
  rw [List.rdropWhile, List.rdropWhile, ← List.map_reverse, List.dropWhile_map, List.map_reverse]

theorem rdropWhile_append {p : Char → Bool} {a : Text} (ha : ∀ h : a ≠ [], p (a.getLast h) = false)
    (b : Text) : (a ++ b).rdropWhile p = a ++ b.rdropWhile p := by
  induction b using List.reverseRecOn with
  | nil =>
    rw [List.append_nil, List.rdropWhile_nil, List.append_nil, List.rdropWhile_eq_self_iff]
    intro hne
    rw [ha hne]
    exact Bool.false_ne_true
  | append_singleton b c ih =>
    rw [← List.append_assoc, List.rdropWhile_concat, List.rdropWhile_concat]
    split
    · exact ih
    · rw [List.append_assoc]

/-- A character of a name that `md5sum` writes and `read` reads. -/
def passed (cr : Bool) (c : Char) : Char := if cr && c = '\r' then 'r' else c

/-- A name in the list. -/
def listed (cr : Bool) (name : Text) : Text := (name.map (passed cr)).rdropWhile isBlank

theorem readChar_passed (cr : Bool) (c : Char) :
    (readChar cr c).1 = passed cr c ∧ separates (readChar cr c) = isBlank (passed cr c) := by
  unfold readChar passed
  by_cases hb : c = '\\'
  · subst hb
    cases cr <;> decide
  · rw [if_neg hb]
    split
    · decide
    · exact ⟨rfl, rfl⟩

theorem not_separates_hash (f : TargetFile) (quoted : Bool) :
    ∀ q ∈ readHash quoted f.hash, separates q = false := by
  have hall : "0123456789abcdef".toList.all (fun c => !isBlank c) = true := by decide
  have hblank : ∀ c ∈ f.hash, isBlank c = false := by
    intro c hc
    simpa using List.all_eq_true.mp hall c (f.hash_digits c hc)
  intro q hq
  cases hhash : f.hash with
  | nil =>
    rw [hhash] at hq
    exact absurd hq List.not_mem_nil
  | cons h hs =>
    rw [hhash] at hq hblank
    rw [List.forall_mem_cons] at hblank
    rcases List.mem_cons.mp hq with rfl | hq
    · rw [separates, hblank.1, Bool.and_false]
    · obtain ⟨c, hc, rfl⟩ := List.mem_map.mp hq
      rw [separates, hblank.2 c hc, Bool.and_false]

/-- The variable `file` for a line. -/
theorem readVars_readLine (cr : Bool) (f : TargetFile) :
    (readVars 2 (readLine cr f)).getD 1 [] = "./".toList ++ listed cr f.name := by
  obtain ⟨hash, hhash⟩ : ∃ hash, readHash
      (f.path.any fun c => c = '\\' || c = '\n' || cr && c = '\r') f.hash = hash := ⟨_, rfl⟩
  have hsep : ∀ q ∈ hash, separates q = false := hhash ▸ not_separates_hash f _
  have hne : hash ≠ [] := by
    rw [← hhash]
    obtain ⟨h, hs, heq⟩ := List.exists_cons_of_ne_nil (List.ne_nil_of_length_eq_add_one f.hash_length)
    rw [heq]
    exact List.cons_ne_nil _ _
  have hline : readLine cr f = hash ++ (unquoted "  ".toList ++ f.path.map (readChar cr)) := by
    rw [readLine, hhash, List.append_assoc]
  have hstart : (readLine cr f).dropWhile separates = readLine cr f := by
    obtain ⟨q, qs, rfl⟩ := List.exists_cons_of_ne_nil hne
    rw [hline, List.cons_append, List.dropWhile_cons_of_neg]
    rw [hsep q (.head _)]
    exact Bool.false_ne_true
  have hword : (readLine cr f).dropWhile (!separates ·) =
      unquoted "  ".toList ++ f.path.map (readChar cr) := by
    rw [hline, List.dropWhile_append_of_pos fun q hq => by rw [hsep q hq]; rfl]
    rfl
  have hrest : (unquoted "  ".toList ++ f.path.map (readChar cr)).dropWhile separates =
      f.path.map (readChar cr) := by cases cr <;> rfl
  have hpath : separates ∘ readChar cr = isBlank ∘ passed cr := by
    funext c
    exact (readChar_passed cr c).2
  have hdequote : dequote ∘ List.map (readChar cr) = List.map (passed cr) := by
    funext t
    rw [Function.comp_apply, dequote, List.map_map]
    exact List.map_congr_left fun c _ => (readChar_passed cr c).1
  rw [readVars, hstart, hword]
  change dequote (((unquoted "  ".toList ++ f.path.map (readChar cr)).dropWhile separates).rdropWhile
    separates) = _
  rw [hrest, rdropWhile_map, hpath, ← Function.comp_apply (f := dequote), hdequote, ← rdropWhile_map,
    TargetFile.path, List.map_append]
  have hdot : "./".toList.map (passed cr) = "./".toList := by cases cr <;> rfl
  rw [hdot, rdropWhile_append (by decide), listed]

/-- The lines of the list for a package. -/
theorem stepPkgSizeEnd_eq (cr : Bool) (i : Install) : stepPkgSizeEnd cr i =
    unlines (i.files.map fun f => i.pkg.text ++ ',' :: ("./".toList ++ listed cr f.name)) := by
  rw [stepPkgSizeEnd, readLines_md5sum, List.map_map]
  congr 1
  refine List.map_congr_left fun f _ => ?_
  rw [Function.comp_apply, echoLine, readVars_readLine]

/-! ### Reading the list -/

/-- The name comes back: no comma stands in the way, no white space at its end is lost, and
`md5sum` does not write a carriage return as a letter. -/
structure ReadsBack (cr : Bool) (pkg : PkgName) (f : TargetFile) : Prop where
  pkg_comma : ',' ∉ pkg.text
  name_comma : ',' ∉ f.name
  last : ∀ c, f.name.getLast? = some c → isWhitespace c = false
  carriage : cr = true → '\r' ∉ f.name

theorem comma_mem_listed {cr : Bool} {name : Text} : ',' ∈ listed cr name ↔ ',' ∈ name := by
  have hmap : ',' ∈ name.map (passed cr) ↔ ',' ∈ name := by
    rw [List.mem_map]
    constructor
    · rintro ⟨c, hc, heq⟩
      unfold passed at heq
      split at heq
      · exact absurd heq (by decide)
      · exact heq ▸ hc
    · intro h
      exact ⟨',', h, by cases cr <;> rfl⟩
  rw [← hmap, listed]
  induction name.map (passed cr) using List.reverseRecOn with
  | nil => rw [List.rdropWhile_nil]
  | append_singleton t c ih =>
    rw [List.rdropWhile_concat]
    split
    next hblank =>
      refine ih.trans ?_
      rw [List.mem_append, List.mem_singleton, or_iff_left]
      rintro rfl
      exact absurd hblank (by decide)
    next => rfl

theorem rdropWhile_rdropWhile {p q : Char → Bool} (h : ∀ c, p c = true → q c = true) (t : Text) :
    (t.rdropWhile p).rdropWhile q = t.rdropWhile q := by
  induction t using List.reverseRecOn with
  | nil => rw [List.rdropWhile_nil]
  | append_singleton t c ih =>
    by_cases hp : p c = true
    · rw [List.rdropWhile_concat_pos _ _ _ hp, ih, List.rdropWhile_concat_pos _ _ _ (h c hp)]
    · rw [List.rdropWhile_concat_neg _ _ _ hp]

theorem splitOn_of_mem {t : Text} (h : ',' ∈ t) : ∃ a b cs, t.splitOn ',' = a :: b :: cs := by
  obtain ⟨u, v, rfl⟩ := List.append_of_mem h
  obtain ⟨a, as, ha⟩ := List.exists_cons_of_ne_nil (List.splitOn_ne_nil ',' u)
  obtain ⟨b, bs, hb⟩ := List.exists_cons_of_ne_nil (List.splitOn_ne_nil ',' v)
  rw [List.splitOn_append_cons_self, ha, hb, List.cons_append]
  cases as with
  | nil => exact ⟨a, b, bs, rfl⟩
  | cons a' as => exact ⟨a, a', as ++ b :: bs, rfl⟩

theorem strip_path (t : Text) : strip ("./".toList ++ t ++ ['\n']) = "./".toList ++ t.rdropWhile isWhitespace := by
  have hstart : ("./".toList ++ t ++ ['\n']).dropWhile isWhitespace = "./".toList ++ t ++ ['\n'] := rfl
  rw [strip, hstart, List.rdropWhile_concat_pos _ _ _ (by decide), rdropWhile_append (by decide)]

/-- A line gives the package and the name without the white space at its end, or fails at
a comma. -/
theorem parseLine_line (cr : Bool) (pkg name : Text) :
    parseLine (pkg ++ ',' :: ("./".toList ++ listed cr name) ++ ['\n']) =
      if ',' ∈ pkg ∨ ',' ∈ name then none
      else some (pkg, (name.map (passed cr)).rdropWhile isWhitespace) := by
  have hrest : ',' ∈ "./".toList ++ listed cr name ++ ['\n'] ↔ ',' ∈ name := by
    rw [List.mem_append, List.mem_append, comma_mem_listed]
    simp
  rw [parseLine, List.append_assoc, List.cons_append]
  by_cases hpkg : ',' ∈ pkg
  · obtain ⟨a, b, cs, hsplit⟩ := splitOn_of_mem hpkg
    obtain ⟨d, ds, hd⟩ := List.exists_cons_of_ne_nil
      (List.splitOn_ne_nil ',' ("./".toList ++ listed cr name ++ ['\n']))
    rw [List.splitOn_append_cons_self, hsplit, hd, if_pos (.inl hpkg)]
    cases cs <;> rfl
  · rw [List.splitOn_append_cons_self_of_not_mem hpkg]
    by_cases hname : ',' ∈ name
    · obtain ⟨a, b, cs, hsplit⟩ := splitOn_of_mem (hrest.mpr hname)
      rw [hsplit, if_pos (.inr hname)]
    · rw [List.splitOn_eq_singleton (mt hrest.mp hname), if_neg (not_or.mpr ⟨hpkg, hname⟩)]
      dsimp only
      rw [strip_path, listed, rdropWhile_rdropWhile]
      · rfl
      · intro c hc
        simp only [isBlank, Bool.or_eq_true, decide_eq_true_eq] at hc
        rcases hc with rfl | rfl <;> rfl

theorem map_passed_eq_iff {cr : Bool} {t : Text} :
    t.map (passed cr) = t ↔ (cr = true → '\r' ∉ t) := by
  have hchar : ∀ c, passed cr c = c ↔ (cr = true → '\r' ≠ c) := by
    intro c
    unfold passed
    cases cr with
    | false => simp
    | true =>
      by_cases hc : c = '\r'
      · subst hc
        decide
      · simp [hc, Ne.symm hc]
  have hall : t.map (passed cr) = t ↔ ∀ c ∈ t, passed cr c = c := by
    have h := List.map_inj_left (l := t) (f := passed cr) (g := id)
    rwa [List.map_id] at h
  rw [hall]
  constructor
  · exact fun h hcr hmem => (hchar _).mp (h _ hmem) hcr rfl
  · exact fun h c hc => (hchar c).mpr fun hcr heq => h hcr (heq ▸ hc)

theorem parseLine_iff (cr : Bool) (pkg : PkgName) (f : TargetFile) :
    parseLine (pkg.text ++ ',' :: ("./".toList ++ listed cr f.name) ++ ['\n']) = some (pkg.text, f.name) ↔
      ReadsBack cr pkg f := by
  have hlength : ((f.name.map (passed cr)).rdropWhile isWhitespace).length ≤ f.name.length := by
    have hprefix := List.rdropWhile_prefix isWhitespace (f.name.map (passed cr))
    exact hprefix.length_le.trans_eq (List.length_map _)
  rw [parseLine_line]
  constructor
  · intro h
    split at h
    next => exact absurd h (by simp)
    next hcomma =>
      rw [not_or] at hcomma
      have hname : (f.name.map (passed cr)).rdropWhile isWhitespace = f.name :=
        (Prod.mk.inj (Option.some.inj h)).2
      -- nothing was dropped, as the lengths agree
      have hself : (f.name.map (passed cr)).rdropWhile isWhitespace = f.name.map (passed cr) := by
        refine (List.rdropWhile_prefix _ _).eq_of_length ?_
        rw [hname, List.length_map]
      have hmap : f.name.map (passed cr) = f.name := hself.symm.trans hname
      refine ⟨hcomma.1, hcomma.2, fun c hc => ?_, map_passed_eq_iff.mp hmap⟩
      rw [hmap, List.rdropWhile_eq_self_iff] at hself
      have hlast := hself f.name_ne_nil
      rw [List.getLast?_eq_some_getLast f.name_ne_nil, Option.some_inj] at hc
      rw [← hc]
      exact Bool.eq_false_iff.mpr hlast
  · intro h
    rw [if_neg (not_or.mpr ⟨h.pkg_comma, h.name_comma⟩), map_passed_eq_iff.mpr h.carriage]
    have hself : f.name.rdropWhile isWhitespace = f.name := by
      rw [List.rdropWhile_eq_self_iff]
      intro hne
      rw [h.last _ (List.getLast?_eq_some_getLast hne)]
      exact Bool.false_ne_true
    rw [hself]

/-- The packages with their files, in the order of the lines. -/
def records (installs : List Install) : List (PkgName × TargetFile) :=
  installs.flatMap fun i => i.files.map (i.pkg, ·)

/-- The line for a record, without its newline. -/
def recordLine (cr : Bool) (r : PkgName × TargetFile) : Text :=
  r.1.text ++ ',' :: ("./".toList ++ listed cr r.2.name)

theorem newline_not_mem_recordLine (cr : Bool) (r : PkgName × TargetFile) : '\n' ∉ recordLine cr r := by
  intro h
  rcases List.mem_append.mp h with h | h
  · exact absurd (r.1.plain _ h).1 (by decide)
  rcases List.mem_cons.mp h with h | h
  · exact absurd h (by decide)
  rcases List.mem_append.mp h with h | h
  · exact absurd h (by decide)
  obtain ⟨c, hc, heq⟩ := List.mem_map.mp ((List.rdropWhile_prefix _ _).subset h)
  unfold passed at heq
  split at heq
  · exact absurd heq (by decide)
  · exact (r.2.name_chars c hc).1 heq

theorem readlines_packagesFileList (cr : Bool) (installs : List Install) :
    readlines (packagesFileList cr installs) =
      (records installs).map fun r => recordLine cr r ++ ['\n'] := by
  have hlist : packagesFileList cr installs = unlines ((records installs).map (recordLine cr)) := by
    rw [packagesFileList, records, unlines, List.map_flatMap, List.flatMap_assoc]
    refine List.flatMap_congr fun i _ => ?_
    rw [stepPkgSizeEnd_eq, List.map_map]
    rfl
  rw [hlist, readlines_unlines, List.map_map]
  · rfl
  · exact List.forall_mem_map.mpr fun r _ => newline_not_mem_recordLine cr r

theorem foldlM_isSome_iff {α β : Type*} {f : β → α → Option β} {p : α → Prop}
    (h : ∀ b a, (f b a).isSome ↔ p a) (l : List α) (b : β) :
    (l.foldlM f b).isSome ↔ ∀ a ∈ l, p a := by
  induction l generalizing b with
  | nil => simp
  | cons a l ih =>
    rw [List.foldlM_cons, List.forall_mem_cons, ← h b a]
    cases hf : f b a with
    | none => simp
    | some b' => simpa using ih b'

/-- The report fails exactly at a comma. -/
theorem buildPackageDict_isSome_iff (cr : Bool) (fs : Files) (builddir : Text) (installs : List Install) :
    (buildPackageDict fs builddir (packagesFileList cr installs)).isSome ↔
      ∀ r ∈ records installs, ',' ∉ r.1.text ∧ ',' ∉ r.2.name := by
  rw [buildPackageDict, readlines_packagesFileList, foldlM_isSome_iff (p := fun l => (parseLine l).isSome)]
  · rw [List.forall_mem_map]
    refine forall₂_congr fun r _ => ?_
    rw [recordLine, parseLine_line]
    by_cases h : ',' ∈ r.1.text ∨ ',' ∈ r.2.name
    · rw [if_pos h]
      simpa [← not_or] using h
    · rw [if_neg h]
      simpa [← not_or] using h
  · intro filesdict l
    cases hparse : parseLine l with
    | none => simp
    | some r => simp

/-- For all packages and files, every line of the list is parsed to the package and the path
it was written for, and the report does not fail, if and only if all names read back. -/
theorem packagesFileList_iff (cr : Bool) (fs : Files) (builddir : Text) (installs : List Install) :
    ((readlines (packagesFileList cr installs)).map parseLine =
          (records installs).map (fun r => some (r.1.text, r.2.name)) ∧
        (buildPackageDict fs builddir (packagesFileList cr installs)).isSome) ↔
      ∀ r ∈ records installs, ReadsBack cr r.1 r.2 := by
  rw [readlines_packagesFileList, buildPackageDict_isSome_iff, List.map_map, List.map_inj_left]
  constructor
  · exact fun h r hr => (parseLine_iff cr r.1 r.2).mp (h.1 r hr)
  · intro h
    refine ⟨fun r hr => (parseLine_iff cr r.1 r.2).mpr (h r hr), fun r hr => ?_⟩
    exact ⟨(h r hr).pkg_comma, (h r hr).name_comma⟩

/-- A file `a,b` of the package `linux`. -/
def commaFile : TargetFile where
  hash := "d41d8cd98f00b204e9800998ecf8427e".toList
  name := "a,b".toList
  hash_length := by decide
  hash_digits := List.all_iff_forall_prop.mp rfl
  name_ne_nil := by decide
  name_chars := List.all_iff_forall_prop.mp rfl

/-- A target directory in which every path is an empty file. -/
def emptyFiles : Files := ⟨fun _ => true, fun _ => false, fun _ => 0⟩

/-- The report fails for the file `a,b`. -/
theorem packagesFileList_comma :
    ¬ ((readlines (packagesFileList false [⟨linux, [commaFile]⟩])).map parseLine =
          (records [⟨linux, [commaFile]⟩]).map (fun r => some (r.1.text, r.2.name)) ∧
        (buildPackageDict emptyFiles "output".toList (packagesFileList false [⟨linux, [commaFile]⟩])).isSome) := by
  rintro ⟨-, hsome⟩
  have hcomma := (buildPackageDict_isSome_iff _ _ _ _).mp hsome (linux, commaFile) (.head _)
  exact hcomma.2 (by decide)

end CargosBuildroot.Statistics
