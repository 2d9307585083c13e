import CargosBuildroot.Shell.Fields
import CargosBuildroot.Shell.Script
import CargosBuildroot.Store.Keyed

/-! The script `mkusers` that creates the users and groups of the packages in
`/etc/passwd`, `/etc/shadow`, `/etc/group` and, where it exists, `/etc/gshadow`
of the target directory. A file is the list of its lines, each ended by a
newline. Names are spliced into `sed` scripts as they are, so what is said here
of the scripts holds for names without characters special in patterns. The shell
computes with 64 bits, and awk with doubles. -/

namespace CargosBuildroot.Accounts

open Shell Store

/-! ### Data -/

/-- The accounts in the target directory, and the script for fakeroot that
`mkusers` writes to its output. -/
structure Target where
  passwd : List Text
  shadow : List Text
  group : List Text
  gshadow : Option (List Text) := none
  script : List Text := []
  deriving DecidableEq

/-- The fields of a line of the users table. An id is `none` where the field is
not an integer of 64 bits, so that every comparison of it with `[` fails. The text
of an id is left out: it is a plain decimal. -/
structure Entry where
  username : Text
  uid : Option ℤ
  uid_fits : ∀ n ∈ uid, Fits n := by decide
  group : Text
  gid : Option ℤ
  gid_fits : ∀ n ∈ gid, Fits n := by decide
  passwd : Text
  home : Text
  shell : Text
  groups : Text
  comment : Text
  deriving DecidableEq

/-- What the script calls: `mkpasswd -m METHOD`, and `mkdir -p` in the target
directory. -/
structure Env where
  mkpasswd : Text → Option Text
  mkdir : Text → Bool
  targetDir : Text

/-- The end of the script by `fail`, with its message, or by `set -e` after a
command with a non-zero status. -/
inductive Failure
  | message (text : Text)
  | status
  deriving DecidableEq

def minUid : ℤ := 1000
def maxUid : ℤ := 1999
def minGid : ℤ := 1000
def maxGid : ℤ := 1999

/-- `printf`, for `%s` and `%d`. -/
def printf : Text → List Text → Text
  | '%' :: 's' :: fmt, args => args.headD [] ++ printf fmt args.tail
  | '%' :: 'd' :: fmt, args => args.headD [] ++ printf fmt args.tail
  | c :: fmt, args => c :: printf fmt args
  | [], _ => []

def fail (fmt : String) (args : List Text) : Failure :=
  .message ("mkusers: ".toList ++ printf fmt.toList args)

/-! ### Queries -/

/-- The value of `n` fields `$n` of the lines whose first field is `name`. -/
def lookup (n : ℕ) (name : Text) (file : List Text) : List ℤ :=
  (file.filter (field 1 · = name)).map (awkInt <| field n ·)

def getUid (s : Target) (username : Text) : List ℤ := lookup 3 username s.passwd

def getUgid (s : Target) (username : Text) : List ℤ := lookup 4 username s.passwd

def getGid (s : Target) (group : Text) : List ℤ := lookup 3 group s.group

/-- The names of the lines whose third field is `id`. -/
def namesOf (id : ℤ) (file : List Text) : List Text :=
  (file.filter fun line => awkEq (field 3 line) id).map (field 1)

def getUsername (s : Target) (uid : ℤ) : List Text := namesOf uid s.passwd

def getGroup (s : Target) (gid : ℤ) : List Text := namesOf gid s.group

/-- More than one group id makes no number to compare with. -/
def getUgroup (s : Target) (username : Text) : List Text :=
  match getUgid s username with
  | [ugid] => getGroup s ugid
  | _ => []

/-- The text of a command substitution: the lines, without the newlines at the end. -/
def captured (out : List Text) : Text := (['\n'].intercalate out).rdropWhile (· = '\n')

/-- `[ -n "${x}" ] && [ ${x} -ne n ]`, which fails when `x` is more than one number. -/
def differs (x : List ℤ) (n : ℤ) : Bool :=
  match x with
  | [m] => m ≠ n
  | _ => false

/-! ### Groups -/

def checkUserValidity (username : Text) (uid : ℤ) (group : Text) (gid : Option ℤ) (s : Target) :
    Except Failure Unit := do
  if username = "root".toList then
    throw (fail "invalid username '%s\n'" [username])
  match gid with
  | none => pure ()
  | some gid =>
    let _group := captured (getGroup s gid)
    if gid < -1 ∨ gid = 0 then
      throw (fail "invalid gid '%d' for '%s'\n" [decimal gid, username])
    else if gid ≠ -1 then
      if _group ≠ [] ∧ _group ≠ group then
        throw (fail "gid '%d' for '%s' is already used by group '%s'\n"
          [decimal gid, username, _group])
      if differs (getGid s group) gid then
        throw (fail "group '%s' for '%s' already exists with gid '%d' (wants '%d')\n"
          ([group, username] ++ (getGid s group).map decimal ++ [decimal gid]))
      if differs (getUgid s username) gid then
        throw (fail "user '%s' already exists with gid '%d' (wants '%d')\n"
          ([username] ++ (getUgid s username).map decimal ++ [decimal gid]))
  let _username := captured (getUsername s uid)
  if uid < -1 ∨ uid = 0 then
    throw (fail "invalid uid '%d' for '%s'\n" [decimal uid, username])
  else if uid ≠ -1 then
    if _username ≠ [] ∧ _username ≠ username then
      throw (fail "uid '%d' for '%s' already used by user '%s'\n"
        [decimal uid, username, _username])
    if differs (getUid s username) uid then
      throw (fail "user '%s' already exists with uid '%d' (wants '%d')\n"
        ([username] ++ (getUid s username).map decimal ++ [decimal uid]))
  let _ugroup := captured (getUgroup s username)
  if _ugroup ≠ [] ∧ _ugroup ≠ group then
    throw (fail "user '%s' already exists with group '%s' (wants '%s')\n"
      [username, _ugroup, group])

/-- The id that `generate_gid` and `generate_uid` print: the one the name has, or
the least one in the range that no line has. -/
def generateId (ids : List ℤ) (names : ℤ → List Text) (min max : ℤ) (full : Failure) :
    Except Failure ℤ :=
  match ids with
  | [] =>
    match (List.range' 0 (max + 1 - min).toNat).find? fun (i : ℕ) => captured (names (min + i)) = [] with
    | some i => .ok (min + i)
    | none => .error full
  | [id] => .ok id
  | _ => .error .status

def generateGid (group : Text) (s : Target) : Except Failure ℤ :=
  generateId (getGid s group) (getGroup s) minGid maxGid
    (fail "can not allocate a GID for group '%s'\n" [group])

/-- The line of a group, without and with members. -/
def groupLine (group : Text) (gid : ℤ) (members : Text) : Text :=
  group ++ ":x:".toList ++ decimal gid ++ ':' :: members

def gshadowLine (group : Text) (members : Text) : Text := group ++ ":*::".toList ++ members

def addOneGroup (group : Text) (gid : ℤ) : Script Failure Target :=
  .capture (fun s => if gid = -1 then generateGid group s else .ok gid) fun gid =>
    .update fun s =>
      { s with
        group := put hasName group (groupLine group gid []) s.group
        gshadow := s.gshadow.map (put hasName group (gshadowLine group [])) }

/-! ### Members -/

/-- Blank the last member `username`, the list of members being reversed; a second
member after an empty first one is not found. -/
def blankLast (username : Text) : List Text → List Text
  | [] => []
  | m :: before =>
    if m = username ∧ before ≠ [[]] then [] :: before else m :: blankLast username before

/-- `s/^(group:.*:)(([^:]+,)?)username(,[^:]+*)?$/\1\2\4/`. -/
def dropMember (username group line : Text) : Text :=
  if hasName group line ∧ 3 ≤ (fields line).length then
    let members := ((fields line).getLastD []).splitOn ','
    [':'].intercalate ((fields line).dropLast ++
      [[','].intercalate (blankLast username members.reverse).reverse])
  else line

/-- `s/^(group:.*)$/\1,username/`. -/
def appendMember (username group line : Text) : Text :=
  if hasName group line then line ++ ',' :: username else line

/-- `s/,+/,/`. -/
def squeeze : Text → Text
  | [] => []
  | c :: t => if c = ',' then ',' :: t.dropWhile (· = ',') else c :: squeeze t

/-- `s/:,/:/`. -/
def trim : Text → Text
  | ':' :: ',' :: t => ':' :: t
  | c :: t => c :: trim t
  | [] => []

/-- The four substitutions; the last two are made in every line. -/
def memberLine (username group line : Text) : Text :=
  trim (squeeze (appendMember username group (dropMember username group line)))

def addUserToGroup (username group : Text) : Script Failure Target :=
  .update fun s =>
    { s with
      group := s.group.map (memberLine username group)
      gshadow := s.gshadow.map (·.map (memberLine username group)) }

/-! ### Users -/

def generateUid (username : Text) (s : Target) : Except Failure ℤ :=
  generateId (getUid s username) (getUsername s) minUid maxUid
    (fail "can not allocate a UID for user '%s'\n" [username])

def encodePassword (env : Env) (passwd : Text) : Except Failure Text :=
  match env.mkpasswd passwd with
  | some encoded => .ok encoded
  | none => .error .status

/-- `_home`. -/
def homeOf (home : Text) : Except Failure Text :=
  if home = "-".toList then .ok "/".toList
  else if home = "/".toList then .error (fail "home can not explicitly be '/'\n" [])
  else if "/".toList.isPrefixOf home then .ok home
  else .error (fail "home must be an absolute path\n" [])

/-- `_passwd`. -/
def passwdOf (env : Env) (passwd : Text) : Except Failure Text :=
  if passwd = "-".toList then .ok []
  else if "!=".toList.isPrefixOf passwd then
    (encodePassword env (passwd.drop 2)).map ('!' :: ·)
  else if "=".toList.isPrefixOf passwd then encodePassword env (passwd.drop 1)
  else .ok passwd

/-- The words of `${groups//,/ }`. -/
def groupList (groups : Text) : List Text := words (groups.map fun c => if c = ',' then ' ' else c)

def passwdLine (username : Text) (uid gid : ℤ) (comment home shell : Text) : Text :=
  username ++ ":x:".toList ++ decimal uid ++ ':' :: decimal gid ++ ':' :: comment ++ ':' :: home ++
    ':' :: shell

def shadowLine (username passwd : Text) : Text := username ++ ':' :: passwd ++ ":::::::".toList

def removeUser (username : Text) (s : Target) : Target :=
  { s with
    passwd := s.passwd.filter (!hasName username ·)
    shadow := s.shadow.filter (!hasName username ·) }

/-- `printf "%d"` prints the first of several numbers, and 0 for none, and fails if
there are several. -/
def addOneUser (env : Env) (username : Text) (uid : ℤ) (group : Text) (gid : Option ℤ)
    (passwd home shell groups comment : Text) : Script Failure Target :=
  .capture (checkUserValidity username uid group gid) fun _ =>
  .capture (fun s => if uid = -1 then generateUid username s else .ok uid) fun uid =>
  (Script.update (removeUser username)).andThen <|
  .capture (fun s => .ok (getGid s group)) fun _gid =>
  let _shell := if shell = "-".toList then "/bin/false".toList else shell
  .capture (fun _ => homeOf home) fun _home =>
  .capture (fun _ => passwdOf env passwd) fun _passwd =>
  (Script.update fun s =>
    { s with passwd := s.passwd ++ [passwdLine username uid (_gid.headD 0) comment _home _shell] }).andThen <|
  .capture (fun _ => if _gid.length ≤ 1 then .ok () else .error .status) fun _ =>
  (Script.update fun s =>
    { s with shadow := s.shadow ++ [shadowLine username _passwd] }).andThen <|
  (if groups ≠ "-".toList then
    Script.forEach (groupList groups) (addUserToGroup username ·)
  else .skip).andThen <|
  if home ≠ "-".toList then
    .capture (fun _ => if env.mkdir home then .ok () else .error .status) fun _ =>
    .update fun s =>
      { s with
        script := s.script ++ [printf "chown -h -R %d:%d '%s'".toList
          [decimal uid, decimal (_gid.headD 0), env.targetDir ++ '/' :: home]] }
  else .skip

/-! ### The passes over the table -/

def Entry.add (env : Env) (e : Entry) : Script Failure Target :=
  addOneUser env e.username (e.uid.getD 0) e.group e.gid e.passwd e.home e.shell e.groups e.comment

/-- `[ ${id} -ge 0 ]`. -/
def explicit (id : Option ℤ) : Bool := id.any (0 ≤ ·)

/-- `[ ${id} -eq -1 ]`. -/
def automatic (id : Option ℤ) : Bool := id = some (-1)

/-- The entry is for a user, not only for a group. -/
def Entry.real (e : Entry) : Bool := e.username ≠ "-".toList

def main (env : Env) (entries : List Entry) : Script Failure Target :=
  (Script.capture (fun _ =>
    if minUid ≤ 0 then .error (fail "MIN_UID must be >0 (currently %d)\n" [decimal minUid])
    else if minGid ≤ 0 then .error (fail "MIN_GID must be >0 (currently %d)\n" [decimal minGid])
    else .ok ()) fun _ => .skip).andThen <|
  (Script.forEach entries fun e =>
    if explicit e.gid then addOneGroup e.group (e.gid.getD 0) else .skip).andThen <|
  (Script.forEach entries fun e =>
    if automatic e.gid then addOneGroup e.group (e.gid.getD 0) else .skip).andThen <|
  (Script.forEach entries fun e =>
    if e.groups ≠ "-".toList then
      Script.forEach (groupList e.groups) fun g => addOneGroup g (-1)
    else .skip).andThen <|
  (Script.forEach entries fun e =>
    if e.real && explicit e.uid then e.add env else .skip).andThen <|
  Script.forEach entries fun e =>
    if e.real && automatic e.uid then e.add env else .skip

end CargosBuildroot.Accounts
