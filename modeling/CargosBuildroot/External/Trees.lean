import CargosBuildroot.Shell.Read

/-! The br2-external trees: their validation, and the two files that
`br2-external` generates for them, a makefile fragment (`-m`) and a Kconfig snippet
(`-k`). Names are checked; descriptions and paths are written as they are. -/

namespace CargosBuildroot.External

open Shell

/-- A registered tree: its entry in `BR2_EXT_NAMES`, its path and its description. -/
structure Tree where
  name : Text
  path : Text
  desc : Text
  deriving DecidableEq

/-- A directory given as an argument, as the script finds it. -/
structure Dir where
  arg : Text
  isDir : Bool := true
  accessible : Bool := true
  /-- The contents of `external.desc`. -/
  descFile : Option Text
  externalMk : Bool := true
  configIn : Bool := true
  /-- `$( cd "${br2_ext}"; pwd )` -/
  canonical : Text
  absolute : canonical.head? = some '/'

/-! ### Validation -/

/-- The value of a line `key: value` of `external.desc`. -/
def fieldValue (key line : Text) : Option Text :=
  if (key ++ ": ".toList).isPrefixOf line then
    some ((line.drop (key.length + 1)).dropWhile (· = ' '))
  else none

/-- The output of `sed -r -e '/^key: +(.*)$/!d; s//\1/'`, in a command substitution. -/
def field (key t : Text) : Text :=
  ((unlines ((lines t).filterMap (fieldValue key))).filter (· ≠ '\x00')).rdropWhile (· = '\n')

/-- `[A-Za-z0-9_]` -/
def isNameChar (c : Char) : Bool := c.isAlphanum || c = '_'

/-- `${t//\$/\$\$}` -/
def escapeDollar (t : Text) : Text := t.flatMap fun c => if c = '$' then "$$".toList else [c]

def manualUrl : Text := "https://buildroot.org/manual.html\\#br2-external-converting".toList

/-- The name in `external.desc`, and its check. -/
def treeName (arg t : Text) : Except Text Text :=
  let name := field "name".toList t
  -- `sed` works line by line, and the newlines at the end are cut off
  let invalid := (name.filter (!isNameChar ·)).rdropWhile (· = '\n')
  if name = [] then .error ('\x27' :: arg ++ "/external.desc': does not define the name\n".toList)
  else if invalid ≠ [] then
    .error ('\x27' :: arg ++ "': name '".toList ++ escapeDollar name ++
      "' contains invalid chars: '".toList ++ escapeDollar invalid ++ "'\n".toList)
  else .ok name

/-- `${BR2_EXT_PATHS_name}` -/
def usedIn (registered : List Tree) (name : Text) : Text :=
  ((registered.find? (·.name = name)).map Tree.path).getD []

/-- `do_validate_one`, with the trees registered so far. An error is the message printed,
empty when the shell stops. -/
def doValidateOne (registered : List Tree) (d : Dir) : Except Text Tree :=
  if !d.isDir then .error ('\x27' :: d.arg ++ "': no such file or directory\n".toList)
  else if !d.accessible then .error ('\x27' :: d.arg ++ "': permission denied\n".toList)
  else match d.descFile with
  | none =>
    .error ('\x27' :: d.arg ++ "': does not have a name (in 'external.desc'). See ".toList ++
      manualUrl ++ ['\n'])
  | some t =>
    match treeName d.arg t with
    | .error e => .error e
    | .ok name =>
      -- `${BR2_EXT_PATHS_...}` with a newline in the name is a bad substitution
      if '\n' ∈ name then .error []
      else if usedIn registered name ≠ [] then
        .error ('\x27' :: d.arg ++ "': name '".toList ++ name ++ "' is already used in '".toList ++
          usedIn registered name ++ "'\n".toList)
      else if !d.externalMk then
        .error ('\x27' :: d.arg ++ "/external.mk': no such file or directory\n".toList)
      else if !d.configIn then
        .error ('\x27' :: d.arg ++ "/Config.in': no such file or directory\n".toList)
      else
        let desc := field "desc".toList t
        .ok ⟨name, d.canonical, if desc = [] then name else desc⟩

/-- The loop of `do_validate`. -/
def validateLoop : List Dir → List Tree → Except Text (List Tree)
  | [], registered => .ok registered
  | d :: ds, registered =>
    match doValidateOne registered d with
    | .ok tree => validateLoop ds (registered ++ [tree])
    | .error e => .error e

def doValidate (dirs : List Dir) : Except Text (List Tree) := validateLoop dirs []

/-! ### The generated files -/

def header : List Text :=
  ["#".toList, "# Automatically generated file; DO NOT EDIT.".toList, "#".toList, []]

def pathVar (name : Text) : Text := "BR2_EXTERNAL_".toList ++ name ++ "_PATH".toList

def descVar (name : Text) : Text := "BR2_EXTERNAL_".toList ++ name ++ "_DESC".toList

/-- The lines of one tree in the makefile fragment. -/
def mkLines (t : Tree) : List Text :=
  [[], "BR2_EXTERNAL_NAMES += ".toList ++ t.name, "BR2_EXTERNAL_DIRS += ".toList ++ t.path,
    "BR2_EXTERNAL_MKS += ".toList ++ t.path ++ "/external.mk".toList,
    "export ".toList ++ pathVar t.name ++ " = ".toList ++ t.path,
    "export ".toList ++ descVar t.name ++ " = ".toList ++ t.desc]

def doMk (trees : List Tree) : Text :=
  unlines (header ++ ["BR2_EXTERNAL ?=".toList ++ trees.flatMap (' ' :: ·.path),
    "BR2_EXTERNAL_NAMES = ".toList, "BR2_EXTERNAL_DIRS = ".toList, "BR2_EXTERNAL_MKS = ".toList] ++
    if trees = [] then [[], "# No br2-external tree defined.".toList] else trees.flatMap mkLines)

/-- A line with a double-quoted string. -/
def quotedLine (keyword content : Text) : Text := keyword ++ " \"".toList ++ content ++ ['\x22']

/-- The prompt of the comment of a tree. -/
def prompt (t : Tree) : Text := t.desc ++ " (in ".toList ++ t.path ++ [')']

/-- The lines of one tree in the Kconfig snippet; with several trees each has a menu. -/
def kconfigLines (several : Bool) (t : Tree) : List Text :=
  (if several then [quotedLine "menu".toList t.desc] else []) ++
  [quotedLine "comment".toList (prompt t), "config ".toList ++ pathVar t.name, "\tstring".toList,
    quotedLine "\tdefault".toList t.path,
    quotedLine "source".toList (t.path ++ "/Config.in".toList)] ++
  (if several then ["endmenu # ".toList ++ t.name] else []) ++ [[]]

def doKconfig (trees : List Tree) : Text :=
  unlines (header ++ if trees = [] then ["# No br2-external tree defined.".toList] else
    ["menu \"External options\"".toList, []] ++
      trees.flatMap (kconfigLines (1 < trees.length)) ++ ["endmenu # User-provided options".toList])

/-! ### The registered names -/

/-- The name is a word over `[A-Za-z0-9_]`. -/
def ValidName (name : Text) : Prop := name ≠ [] ∧ ∀ c ∈ name, isNameChar c = true

instance (name : Text) : Decidable (ValidName name) :=
  @instDecidableAnd _ _ inferInstance (List.decidableBAll _ name)

/-- The registered names are words and pairwise distinct. -/
structure Registered (trees : List Tree) : Prop where
  valid : ∀ t ∈ trees, ValidName t.name
  distinct : (trees.map Tree.name).Nodup
  path : ∀ t ∈ trees, t.path ≠ []
  desc : ∀ t ∈ trees, t.desc ≠ []

theorem treeName_ok {arg t name : Text} (h : treeName arg t = .ok name) (hnl : '\n' ∉ name) :
    ValidName name := by
  unfold treeName at h
  dsimp only at h
  split at h
  · cases h
  next hne =>
    split at h
    · cases h
    next hinvalid =>
      cases h
      refine ⟨hne, fun c hc => ?_⟩
      by_contra hbad
      have hmem : c ∈ (field "name".toList t).filter (!isNameChar ·) :=
        List.mem_filter.mpr ⟨hc, by simpa using hbad⟩
      have hnewline := List.rdropWhile_eq_nil_iff.mp (not_not.mp hinvalid) c hmem
      rw [decide_eq_true_iff] at hnewline
      exact hnl (hnewline ▸ hc)

theorem usedIn_ne_nil {registered : List Tree} {name : Text} (hpath : ∀ t ∈ registered, t.path ≠ [])
    (hmem : name ∈ registered.map Tree.name) : usedIn registered name ≠ [] := by
  obtain ⟨t, ht, rfl⟩ := List.mem_map.mp hmem
  unfold usedIn
  cases hfind : registered.find? (·.name = t.name) with
  | none => exact absurd (List.find?_eq_none.mp hfind t ht) (by simp)
  | some u => exact hpath u (List.mem_of_find?_eq_some hfind)

/-- What an accepted directory is registered as. -/
theorem doValidateOne_ok {registered : List Tree} {d : Dir} {t : Tree}
    (hpath : ∀ u ∈ registered, u.path ≠ []) (h : doValidateOne registered d = .ok t) :
    ValidName t.name ∧ t.name ∉ registered.map Tree.name ∧ t.path = d.canonical ∧ t.desc ≠ [] := by
  unfold doValidateOne at h
  split at h
  · cases h
  split at h
  · cases h
  split at h
  · cases h
  split at h
  · cases h
  next hname =>
    split at h
    · cases h
    next hnl =>
      split at h
      · cases h
      next hused =>
        split at h
        · cases h
        split at h
        · cases h
        cases h
        have hvalid := treeName_ok hname hnl
        refine ⟨hvalid, fun hmem => hused (usedIn_ne_nil hpath hmem), rfl, ?_⟩
        dsimp only
        split
        · exact hvalid.1
        next hdesc => exact hdesc

theorem validateLoop_registered {dirs : List Dir} {registered trees : List Tree}
    (hr : Registered registered) (h : validateLoop dirs registered = .ok trees) :
    Registered trees := by
  induction dirs generalizing registered with
  | nil =>
    cases h
    exact hr
  | cons d ds ih =>
    unfold validateLoop at h
    split at h
    next t hok =>
      obtain ⟨hvalid, hnew, hpath, hdesc⟩ := doValidateOne_ok hr.path hok
      apply ih _ h
      constructor
      · intro u hu
        rcases List.mem_append.mp hu with hu | hu
        · exact hr.valid u hu
        · exact List.mem_singleton.mp hu ▸ hvalid
      · rw [List.map_append, List.nodup_append]
        refine ⟨hr.distinct, by simp, ?_⟩
        rintro name hmem _ hlast rfl
        exact hnew (List.mem_singleton.mp hlast ▸ hmem)
      · have hne : t.path ≠ [] := by
          intro hnil
          have habs := d.absolute
          rw [← hpath, hnil] at habs
          cases habs
        intro u hu
        rcases List.mem_append.mp hu with hu | hu
        · exact hr.path u hu
        · exact List.mem_singleton.mp hu ▸ hne
      · intro u hu
        rcases List.mem_append.mp hu with hu | hu
        · exact hr.desc u hu
        · exact List.mem_singleton.mp hu ▸ hdesc
    next => cases h

/-- Accepted names are pairwise distinct words. -/
theorem doValidate_registered {dirs : List Dir} {trees : List Tree} (h : doValidate dirs = .ok trees) :
    Registered trees := by
  have hnone : Registered [] := ⟨by simp, by simp, by simp, by simp⟩
  exact validateLoop_registered hnone h

end CargosBuildroot.External
