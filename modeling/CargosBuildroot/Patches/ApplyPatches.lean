import CargosBuildroot.Patches.Tree

/-! `apply-patches.sh`. A patch is decompressed into a pipe whose status is that of
`patch`; an archive is unpacked into a directory that is named after it and removed
before. `path` is one variable for `scan_patchdir` and the `apply_patch` calls in it.
The build directory is one word that expansion leaves as it is. -/

namespace CargosBuildroot.Patches

open Shell

/-- What a patch is refused for. -/
inductive Refusal
  | missing | duplicate | failed
  deriving DecidableEq

/-- The end of the script with an error, or of the fuel. -/
inductive Stop
  | refused (why : Refusal)
  | rejects
  | fuel
  deriving DecidableEq

/-- A patch that was fed to `patch`: its name, the text, and whether it was read and
decompressed without error. -/
structure Applied where
  name : Text
  text : Text
  ok : Bool
  deriving DecidableEq

/-- Where a directory is. -/
inductive Root
  | patchdir | unpacked (archive : Text) | cwd
  deriving DecidableEq

/-- The variable `path`: the directory, and the text. -/
structure Dir where
  root : Root
  rel : List Text
  text : Text

/-- The lines of `.applied_patches_list`, which are paths. -/
structure AppliedList where
  lines : List Text
  slash : ∀ line ∈ lines, '/' ∈ line

def AppliedList.empty : AppliedList := ⟨[], List.forall_mem_nil _⟩

/-- `echo "${path}/${patch}" >> .applied_patches_list` -/
def AppliedList.add (list : AppliedList) (path patch : Text) : AppliedList where
  lines := list.lines ++ [path ++ '/' :: patch]
  slash := List.forall_mem_append.mpr ⟨list.slash, List.forall_mem_singleton.mpr (by simp)⟩

structure State where
  /-- The directories `.patches-...-unpacked` in the build directory. -/
  unpacked : Text → Option Entries
  list : AppliedList
  applied : List Applied
  /-- The archives that were unpacked, and whether `tar` succeeded. -/
  archives : List (Text × Bool)

structure Env where
  pwd : Text
  builddir : Text
  patchdir : Text
  tree : Entries
  /-- The current directory. -/
  cwd : Entries
  /-- Pathname expansion of a word with special characters. -/
  glob : Text → List Text
  /-- `ls -d` when a name starts with a dash. -/
  lsOptions : List Text → List Text
  /-- Where `cd` with these words goes, when they are not the path. -/
  elsewhere : (Text → Option Entries) → List Text → Entries
  /-- `grep -E` for a pattern that is left to the program. -/
  grep : Text → Text → Bool
  /-- Whether `patch` succeeds on a text, after the texts before it. -/
  patch : List Text → Text → Bool
  /-- Whether there are rejects after the texts. -/
  rejects : List Text → Bool
  builddir_plain : ∀ c ∈ builddir, isSpace c = false ∧ isGlobChar c = false

namespace Env

variable (env : Env)

/-! ### Directories -/

def entries (st : State) : Root → Option Entries
  | .patchdir => some env.tree
  | .unpacked archive => st.unpacked archive
  | .cwd => some env.cwd

def entriesAt (st : State) (d : Dir) : Option Entries :=
  (env.entries st d.root).bind (Entries.sub d.rel)

/-- What is at `${path}/name`. -/
def nodeAt (st : State) (d : Dir) (name : Text) : Option Node :=
  (env.entriesAt st d).bind (Entries.find (components name))

/-- `path="${1%%/}"`, and `$PWD` before it if it is relative. -/
def absolute (d : Dir) : Dir :=
  let text := if d.text.getLast? = some '/' then d.text.dropLast else d.text
  if text = [] then ⟨.cwd, [], env.pwd ++ ['/']⟩
  else if text.head? = some '/' then { d with text := text }
  else { d with text := env.pwd ++ '/' :: text }

def enter (d : Dir) (name : Text) : Dir :=
  ⟨d.root, d.rel ++ components name, d.text ++ '/' :: name⟩

def unpackedDir (archive : Text) : Dir :=
  ⟨.unpacked archive, [], env.builddir ++ "/.patches-".toList ++ archive ++ "-unpacked".toList⟩

/-! ### Words -/

/-- Pathname expansion. -/
def expand (word : Text) : List Text := if word.any isGlobChar then env.glob word else [word]

/-- The words of a command substitution that prints the lines. -/
def fields (ls : List Text) : List Text := ls.flatMap fun l => (words l).flatMap env.expand

def ls (names : List Text) : List Text :=
  if names.any (·.head? = some '-') then env.lsOptions names else sortNames names

/-- The words of `cd $path`. -/
def cdWords (d : Dir) : List Text := (words d.text).flatMap env.expand

/-- `cd $path` goes to the directory of the path. -/
def Reached (d : Dir) : Prop := env.cdWords d = [d.text] ∧ d.text.head? ≠ some '-'

instance (d : Dir) : Decidable (env.Reached d) := inferInstanceAs (Decidable (_ ∧ _))

/-- The words of `cd $path; ls -d $patches`. -/
def listing (st : State) (d : Dir) (patterns : List (Text → Bool)) : List Text :=
  let es := if env.Reached d then (env.entriesAt st d).getD env.cwd
    else env.elsewhere st.unpacked (env.cdWords d)
  env.fields (env.ls (patterns.flatMap es.names.filter))

/-- `$series_patches` -/
def seriesPatches (series : Node) : List Text :=
  env.fields ((seriesLines (series.output .cat).2).map cutField)

/-! ### Patches -/

/-- `grep -E "/${patch}\$"` finds the line. For an invalid pattern it prints nothing. -/
def isListed (patch line : Text) : Bool :=
  match Ere.parse ('/' :: patch ++ ['$']) with
  | .ok r => r.finds line
  | .error .invalid => false
  | .error .other => env.grep ('/' :: patch ++ ['$']) line

/-- `apply_patch`; the third argument is given for the patches of a series. -/
def applyPatch (st : State) (d : Dir) (patch : Text) (series : Bool) : Except Stop (State × Dir) :=
  let d := env.absolute d
  match if series then some .cat else uncompOf patch with
  | none => .ok (st, d)
  | some uncomp =>
    match env.nodeAt st d patch with
    | none => .error (.refused .missing)
    | some node =>
      if st.list.lines.any (env.isListed patch) then .error (.refused .duplicate)
      else
        let (ok, text) := node.output uncomp
        -- the status of the pipe is that of `patch`
        if env.patch (st.applied.map Applied.text) text then
          .ok ({ st with
            list := st.list.add d.text patch
            applied := st.applied ++ [⟨patch, text, ok⟩] }, d)
        else .error (.refused .failed)

/-! ### Directories of patches -/

/-- `rm -rf`, `mkdir` and `tar`; the status of `tar` is not looked at. -/
def unpack (st : State) (d : Dir) (archive : Text) : State :=
  let st := { st with unpacked := Function.update st.unpacked archive (some .nil) }
  match env.nodeAt st d archive with
  | some (.file _ tarOk unpacked) =>
    { st with
      unpacked := Function.update st.unpacked archive (some unpacked)
      archives := st.archives ++ [(archive, tarOk)] }
  | _ => { st with archives := st.archives ++ [(archive, false)] }

/-- A loop over words. -/
def each (body : Text → State → Dir → Except Stop (State × Dir)) :
    List Text → State → Dir → Except Stop (State × Dir)
  | [], st, d => .ok (st, d)
  | word :: ws, st, d =>
    match body word st d with
    | .error e => .error e
    | .ok (st, d) => each body ws st d

/-- A round of the loop over the listing, where `scan` is `scan_patchdir`. -/
def scanEntry (scan : Dir → State → Except Stop State) (i : Text) (st : State) (d : Dir) :
    Except Stop (State × Dir) :=
  match env.nodeAt st d i with
  | some (.dir _) => (scan (enter d i) st).map (·, d)
  | _ =>
    if isArchive i then (scan (env.unpackedDir i) (env.unpack st d i)).map (·, d)
    else env.applyPatch st d i false

/-- `scan_patchdir`, with `n` directories in one another at most. -/
def scanPatchdir : ℕ → Dir → List (Text → Bool) → State → Except Stop State
  | 0, _, _, _ => .error .fuel
  | n + 1, d, patterns, st =>
    match env.nodeAt st d "series".toList with
    | some series =>
      (each (fun i st d => env.applyPatch st d i true) (env.seriesPatches series) st d).map Prod.fst
    | none =>
      (each (env.scanEntry fun d st => scanPatchdir n d [visible] st) (env.listing st d patterns) st d).map
        Prod.fst

/-- The script, from the directories and the list that it finds. -/
def applyPatches (n : ℕ) (patterns : List (Text → Bool)) (unpacked : Text → Option Entries)
    (list : AppliedList) : Except Stop State :=
  match env.scanPatchdir n ⟨.patchdir, [], env.patchdir⟩ patterns ⟨unpacked, list, [], []⟩ with
  | .error e => .error e
  | .ok st => if env.rejects (st.applied.map Applied.text) then .error .rejects else .ok st

end Env

end CargosBuildroot.Patches
