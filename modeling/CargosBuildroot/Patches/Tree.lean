import Mathlib.Data.List.Sort
import CargosBuildroot.Shell.Ere
import Mathlib.Data.Char
import Mathlib.Data.List.Lex

/-! Patch trees: directories, patch files and archives. A file comes with what each
decompressor makes of it, and with what `tar` makes of it. -/

namespace CargosBuildroot.Patches

open Shell

/-- The commands that read a patch. -/
inductive Uncomp
  | cat | gunzip | bunzip | bunzip2 | unxz | unzip | uncompress
  deriving DecidableEq

mutual

/-- What a name in a directory stands for. -/
inductive Node
  /-- Whether a decompressor succeeds and what it prints, whether `tar` succeeds and what
  it leaves in the directory. -/
  | file (output : Uncomp → Bool × Text) (tarOk : Bool) (unpacked : Entries)
  | dir (entries : Entries)

inductive Entries
  | nil
  | cons (name : Text) (node : Node) (rest : Entries)

end

/-- The output of a decompressor; it fails on a directory. -/
def Node.output : Node → Uncomp → Bool × Text
  | .file output _ _, u => output u
  | .dir _, _ => (false, [])

/-- Whether `tar` unpacks the file without error. -/
def Node.tarOk : Node → Bool
  | .file _ tarOk _ => tarOk
  | .dir _ => false

namespace Entries

def names : Entries → List Text
  | .nil => []
  | .cons name _ rest => name :: rest.names

def get : Entries → Text → Option Node
  | .nil, _ => none
  | .cons name node rest, n => if name = n then some node else rest.get n

/-- The directory at a path. -/
def sub : List Text → Entries → Option Entries
  | [], es => some es
  | n :: ns, es =>
    match es.get n with
    | some (.dir es) => es.sub ns
    | _ => none

/-- What is at a path. -/
def find : List Text → Entries → Option Node
  | [], es => some (.dir es)
  | [n], es => es.get n
  | n :: n' :: ns, es =>
    match es.get n with
    | some (.dir es) => es.find (n' :: ns)
    | _ => none

theorem sub_append (a b : List Text) (es : Entries) :
    es.sub (a ++ b) = (es.sub a).bind (Entries.sub b) := by
  induction a generalizing es with
  | nil => rfl
  | cons n a ih =>
    rw [List.cons_append, sub, sub]
    cases es.get n with
    | none => rfl
    | some node =>
      cases node with
      | file => rfl
      | dir es' => exact ih es'

/-- Induction along one directory. -/
theorem entry_induction {motive : Entries → Prop} (nil : motive .nil)
    (cons : ∀ name node rest, motive rest → motive (.cons name node rest)) : ∀ es, motive es
  | .nil => nil
  | .cons name node rest => cons name node rest (entry_induction nil cons rest)

theorem get_of_mem_names {es : Entries} {n : Text} (h : n ∈ es.names) : ∃ node, es.get n = some node := by
  induction es using Entries.entry_induction with
  | nil => cases h
  | cons name node' rest ih =>
    rw [get]
    split
    next => exact ⟨_, rfl⟩
    next hne => exact ih ((List.mem_cons.mp h).resolve_left fun heq => hne heq.symm)

end Entries

/-! ### Names -/

/-- The components of a path below the directory. -/
def components (path : Text) : List Text :=
  (path.splitOn '/').filter fun name => name ≠ [] ∧ name ≠ ['.']

/-- The order of `ls` in the C locale. -/
def sortNames (names : List Text) : List Text := names.insertionSort (· ≤ ·)

/-- Characters that pathname expansion looks at. -/
def isGlobChar (c : Char) : Bool := c = '*' || c = '?' || c = '[' || c = '\\'

/-- The name is not listed by `ls` without `-a`. -/
def visible (name : Text) : Bool := name.head? ≠ some '.'

/-- A match of `\.tar(\..*)?$|\.tbz2?$|\.tgz$` -/
def isArchive (name : Text) : Bool :=
  ".tar".toList.isSuffixOf name || name.tails.any (".tar.".toList.isPrefixOf ·) ||
    ".tbz".toList.isSuffixOf name || ".tbz2".toList.isSuffixOf name || ".tgz".toList.isSuffixOf name

/-- The decompressor for a name. -/
def uncompOf (patch : Text) : Option Uncomp :=
  if ".gz".toList.isSuffixOf patch then some .gunzip
  else if ".bz".toList.isSuffixOf patch then some .bunzip
  else if ".bz2".toList.isSuffixOf patch then some .bunzip2
  else if ".xz".toList.isSuffixOf patch then some .unxz
  else if ".zip".toList.isSuffixOf patch then some .unzip
  else if ".Z".toList.isSuffixOf patch then some .uncompress
  else if patch.tails.any (".diff".toList.isPrefixOf ·) then some .cat
  else if patch.tails.any (".patch".toList.isPrefixOf ·) then some .cat
  else none

/-- The first field of a line of a series file, as `cut -d ' ' -f1` gives it. -/
def cutField (line : Text) : Text := line.takeWhile (· ≠ ' ')

/-- The lines of a series file that are not comments. -/
def seriesLines (text : Text) : List Text := (lines text).filter (·.head? ≠ some '#')

end CargosBuildroot.Patches
