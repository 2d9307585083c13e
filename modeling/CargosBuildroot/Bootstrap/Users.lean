import CargosBuildroot.Shell.Words
import Mathlib.Data.List.Infix
import Mathlib.Logic.Function.Basic

/-! The loop of `ci_users` in `rc.bootstrap` that creates the users of a
cloud-config, one for each of the files `/tmp/user.N`. Expansions without quotes are
taken to match no file names, and no word of theirs to be an option of `echo`. -/

namespace CargosBuildroot.Bootstrap

open Shell

/-! ### Data -/

/-- The variables `_home`, `_passwd` and so on, by the name in their `case` pattern. -/
inductive Key
  | home
  | passwd
  | shell
  | gecos
  | groups
  | sudo
  deriving DecidableEq

def Key.name : Key → Text
  | .home => "home".toList
  | .passwd => "passwd".toList
  | .shell => "shell".toList
  | .gecos => "gecos".toList
  | .groups => "groups".toList
  | .sudo => "sudo".toList

/-- The keys in the order of the patterns. -/
def keys : List Key := [.home, .passwd, .shell, .gecos, .groups, .sudo]

/-- Whether `adduser` succeeds with its arguments, after the calls with those that it has
accepted. -/
abbrev Accepts := List (List Text) → List Text → Bool

/-- The variables of the script, an unset one being empty, the lines of the files
`/tmp/groups.USER`, and the arguments of `adduser` for the users it has added. -/
structure State where
  var : Key → Text := fun _ => []
  sshAuthorizedKeys : ℕ → Text := fun _ => []
  cnt : ℕ := 0
  sudoStatus : Bool := false
  ciAnySudo : Bool := false
  groupFile : Text → Option (List Text)
  added : List (List Text) := []

/-- What `chpasswd` is given: the line with the encrypted password, or one with a
random password. -/
inductive Password
  | encrypted (line : Text)
  | random (user : Text)
  deriving DecidableEq

/-- A line for the file of the user in `sudoers.d`, which is appended or replaces it. -/
structure SudoLine where
  append : Bool
  line : Text
  deriving DecidableEq

/-- What is done for a user that was added. -/
structure Access where
  password : Password
  sudoers : List SudoLine
  authorizedKeys : List Text
  deriving DecidableEq

/-- What is done for a file: the arguments of `adduser`, and the rest if it succeeds. -/
structure Account where
  adduser : List Text
  access : Option Access
  deriving DecidableEq

/-! ### Reading a file -/

/-- The class `[:space:]`. -/
def isSpaceClass (c : Char) : Bool := isSpace c || c = '\x0b' || c = '\x0c' || c = '\r'

/-- `\w` -/
def isWordChar (c : Char) : Bool := c.isAlphanum || c = '_'

/-- `/^(\w)+:/` -/
def beginsWithKey (l : Text) : Bool :=
  l.takeWhile isWordChar ≠ [] && (l.dropWhile isWordChar).head? = some ':'

/-- `head -1 | tr -d '[[:space:]]'`, which deletes brackets too. -/
def userOf (file : List Text) : Text :=
  (file.headD []).filter fun c => !(isSpaceClass c || c = '[' || c = ']')

/-- The words of `$(cat FILE)`, split at newlines. -/
def items (file : List Text) : List Text := file.filter (· ≠ [])

def afterColon : Text → Option Text
  | ':' :: ' ' :: t => some t
  | _ :: t => afterColon t
  | [] => none

/-- `${i#*: }`. -/
def value (i : Text) : Text := (afterColon i).getD i

/-- `sed "s,^[ \t]*- ,,g"`. -/
def sshKey (i : Text) : Text :=
  if "- ".toList <+: i.dropWhile isBlank then (i.dropWhile isBlank).drop 2 else i

/-- The body of the loop over the lines. -/
def assign (s : State) (i : Text) : State :=
  if ':' ∈ i then
    match keys.find? fun k => k.name <:+: i with
    | some k => { s with var := Function.update s.var k (value i) }
    | none => s
  else if "- ssh-".toList <:+: i then
    { s with
      sshAuthorizedKeys := Function.update s.sshAuthorizedKeys s.cnt (sshKey i)
      cnt := s.cnt + 1 }
  else s

/-- Assigning the empty string to the array only clears its first element. -/
def readFile (s : State) (file : List Text) : State :=
  (items file).foldl assign
    { s with sshAuthorizedKeys := Function.update s.sshAuthorizedKeys 0 [], cnt := 0 }

/-- `"${_groups:+${_groups},}$(cat FILE | paste -s -d,)"`. -/
def joinGroups (groups : Text) : Option (List Text) → Text
  | none => groups
  | some file => (if groups = [] then [] else groups ++ [',']) ++ [','].intercalate file

def addGroups (user : Text) (s : State) : State :=
  { s with
    var := Function.update s.var .groups (joinGroups (s.var .groups) (s.groupFile user))
    groupFile := Function.update s.groupFile user none }

/-! ### Creating a user -/

/-- `${x:+flag "${x}"}`. -/
def option (flag : String) (x : Text) : List Text := if x = [] then [] else [flag.toList, x]

def adduserArgs (user : Text) (var : Key → Text) : List Text :=
  "-D".toList :: (option "-G" (var .groups) ++ (option "-h" (var .home) ++
    (option "-s" (var .shell) ++ (option "-g" (var .gecos) ++ [user]))))

def passwordOf (user passwd : Text) : Password :=
  if passwd = [] then .random user else .encrypted (echo (user ++ ':' :: passwd))

/-- `${t%c}`. -/
def dropLastChar (c : Char) (t : Text) : Text := if t.getLast? = some c then t.dropLast else t

/-- `${t#c}`. -/
def dropFirstChar (c : Char) (t : Text) : Text := if t.head? = some c then t.tail else t

def sudoEntry (entry : Text) : Text :=
  let entry := (echo entry).dropWhile isBlank
  let entry := dropFirstChar '[' (dropLastChar ']' entry)
  let entry := dropFirstChar '\x22' (dropLastChar '\x22' entry)
  dropFirstChar '\x27' (dropLastChar '\x27' entry)

def sudoLines (user _sudo : Text) : List SudoLine :=
  if _sudo = [] then []
  else if "[".toList <+: _sudo then
    (readArray ',' _sudo).map fun entry => ⟨true, user ++ ' ' :: sudoEntry entry⟩
  else [⟨false, user ++ ' ' :: _sudo⟩]

/-- The variables after the lines for `sudo`: a list has become an array, of which
`$_sudo` is the first element. -/
def grantSudo (s : State) : State :=
  if s.var .sudo = [] then s
  else
    let s := { s with sudoStatus := true, ciAnySudo := true }
    if "[".toList <+: s.var .sudo then
      { s with var := Function.update s.var .sudo ((readArray ',' (s.var .sudo)).headD []) }
    else s

/-- The body of the loop over the files. -/
def ciUser (accepts : Accepts) (s : State) (file : List Text) : State × Option Account :=
  let user := userOf file
  if user = [] then (s, none)
  else
    let s := addGroups user (readFile s file)
    let adduser := adduserArgs user s.var
    if accepts s.added adduser then
      ({ grantSudo s with added := s.added ++ [adduser] }, some ⟨adduser, some
        { password := passwordOf user (s.var .passwd)
          sudoers := sudoLines user (s.var .sudo)
          authorizedKeys := (List.range s.cnt).map fun i => echo (s.sshAuthorizedKeys i) }⟩)
    else (s, some ⟨adduser, none⟩)

end CargosBuildroot.Bootstrap
