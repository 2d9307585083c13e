import CargosBuildroot.Sed.Insert
import CargosBuildroot.Sed.Replace
import CargosBuildroot.Shell.Read

/-! The fix-up of libtool files after each installation to staging. The base, staging
and toolchain directories are hidden behind markers, `/usr` gets the staging directory
before it, and the directories are put back. Directories without characters that are
special for `sed` are literal patterns. -/

namespace CargosBuildroot.Libtool

open Shell Sed

inductive Mark
  | base | staging | toolchain
  deriving DecidableEq

def Mark.name : Mark → Text
  | .base => "BASE_DIR".toList
  | .staging => "STAGING_DIR".toList
  | .toolchain => "TOOLCHAIN_EXTERNAL_INSTALL_DIR".toList

/-- `@BASE_DIR@` and so on -/
def Mark.text (m : Mark) : Text := '@' :: m.name ++ ['@']

structure Dirs where
  base : Text
  staging : Text
  /-- None if `TOOLCHAIN_EXTERNAL_INSTALL_DIR` is empty. -/
  toolchain : Option Text

/-- The directories in the order in which they are hidden. -/
def Dirs.list (d : Dirs) : List (Mark × Text) :=
  [(.base, d.base), (.staging, d.staging)] ++ d.toolchain.toList.map (.toolchain, ·)

/-- `s:directory:@MARKER@:g` for each directory -/
def hide (ds : List (Mark × Text)) (t : Text) : Text :=
  ds.foldl (fun t e => replaceAll e.2 e.1.text t) t

/-- `s:@MARKER@:directory:g` for each directory, the last one first -/
def unhide (ds : List (Mark × Text)) (t : Text) : Text :=
  ds.foldr (fun e t => replaceAll e.1.text e.2 t) t

/-- `['= ]` -/
def isDelim (c : Char) : Bool := c = '\x27' || c = '=' || c = ' '

def usr : Text := "/usr".toList

/-- `s:\(['= ]\)/usr:\1@STAGING_DIR@/usr:g`; the next match starts behind `/usr`, where
the next of these characters is. -/
def prefixUsr (t : Text) : Text := insertBehind isDelim usr.isPrefixOf Mark.staging.text t

/-- The command on a line. -/
def fixLine (d : Dirs) (line : Text) : Text := unhide d.list (prefixUsr (hide d.list line))

def fixLa (d : Dirs) (t : Text) : Text := ['\n'].intercalate ((lines t).map (fixLine d))

/-! ### The meant result -/

/-- The directory is the path at the start of the text, or above it. The path ends before a quote, an
equal sign or a blank that is not in the directory. -/
def isBelow (dir rest : Text) : Bool :=
  dir.isPrefixOf rest &&
    (dir.getLast? = some '/' || rest[dir.length]?.all fun c => c = '/' || isDelim c)

/-- The path is `/usr` or below, and not one of the directories or below one. -/
def meant (d : Dirs) (rest : Text) : Bool :=
  isBelow usr rest && !d.list.any fun e => isBelow e.2 rest

/-- The line with the staging directory before every path that is meant. -/
def meantLine (d : Dirs) (line : Text) : Text := insertBehind isDelim (meant d) d.staging line

def meantLa (d : Dirs) (t : Text) : Text := ['\n'].intercalate ((lines t).map (meantLine d))

/-- One pass gives the meant result, and a second one changes nothing. -/
structure Exact (d : Dirs) (t : Text) : Prop where
  exact : fixLa d t = meantLa d t
  idempotent : fixLa d (fixLa d t) = fixLa d t

/-! ### Where it goes right -/

/-- The directory is found at the start of the text when the directories `earlier` are
hidden, the last one first. It is there, and none of them is found inside it. -/
def stands : List Text → Text → Text → Bool
  | [], dir, rest => dir.isPrefixOf rest
  | e :: earlier, dir, rest =>
    stands earlier dir rest &&
      (List.range dir.length).all fun i => !stands earlier e (rest.drop i)

/-- `/usr` is found at the start of the text. -/
def clear (d : Dirs) (rest : Text) : Bool := stands (d.list.map (·.2)).reverse usr rest

/-- `/usr` is found where it is meant, and nowhere in the meant text. -/
structure Placed (d : Dirs) (t : Text) : Prop where
  first : ∀ line ∈ lines t, ∀ rest ∈ rests isDelim line, clear d rest = meant d rest
  second : ∀ line ∈ lines t, ∀ rest ∈ rests isDelim (meantLine d line), clear d rest = false

/-! ### Plain inputs -/

/-- An absolute directory without a newline and without a marker. -/
structure PlainDir (dir : Text) : Prop where
  absolute : dir.head? = some '/'
  newline : '\n' ∉ dir
  marker : ∀ m : Mark, ¬ m.text <:+: dir

/-- No marker seems to stand where there is none when the directory is hidden or put back, where
`before` are those that are hidden before it: its name is not in between `@` or directories, and the
directory does not end, like the beginning of a marker, where one of them begins. -/
structure Unbroken (before : List (Mark × Text)) (e : Mark × Text) (line : Text) : Prop where
  name : ∀ a ∈ ['@'] :: before.map (·.2), ∀ b ∈ ['@'] :: e.2 :: before.map (·.2),
    ¬ a ++ e.1.name ++ b <:+: line
  ending : ∀ e' ∈ before, ∀ p v, e.2 = p ++ v → v ≠ [] → v <+: e'.1.text → ¬ p ++ e'.2 <:+: line

/-- No markers seem to stand in the line, and no directory goes on over a character that `/usr` follows. -/
structure PlainLine (d : Dirs) (line : Text) : Prop where
  unbroken : ∀ before e after, d.list = before ++ e :: after → Unbroken before e line
  whole : ∀ e ∈ d.list, ∀ p c q, e.2 = p ++ c :: q → isDelim c = true →
    ∀ rest, q <+: rest → usr <+: rest → ¬ p ++ c :: rest <:+ line

/-- The directories are plain, and so are the lines, as they are and as they are meant. -/
structure Plain (d : Dirs) (t : Text) : Prop where
  dirs : ∀ e ∈ d.list, PlainDir e.2
  lines : ∀ line ∈ lines t, PlainLine d line ∧ PlainLine d (meantLine d line)

end CargosBuildroot.Libtool
