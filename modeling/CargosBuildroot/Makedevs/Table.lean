import CargosBuildroot.Makedevs.Directory
import CargosBuildroot.Makedevs.Scan

/-! The main loop of `makedevs`. The numbers of a line have their defaults before each
line is scanned; the text buffers hold what the line before left in them. -/

namespace CargosBuildroot.Makedevs

open Shell

/-! ### Names and ids -/

structure Env where
  rootdir : Text
  /-- The names and ids in `etc/passwd` and in `etc/group`. -/
  passwd : List (Text × UInt32)
  group : List (Text × UInt32)
  getuid : UInt32
  getgid : UInt32
  /-- Built with `EXTENDED_ATTRIBUTES`. -/
  extendedAttributes : Bool

/-- `my_getpwnam` and `my_getgrnam`; with no such name the program exits. -/
def getxxnam (file : List (Text × UInt32)) (name : Text) : Option ℕ :=
  (file.find? (·.1 = name)).map fun e => e.2.toNat

def getUgId (s : Text) (file : List (Text × UInt32)) : Option ℕ :=
  let r := strtoul 10 s
  if r.2 ≠ [] ∨ r.2 = s then getxxnam file s else some r.1

/-- The id for a buffer, `own` for an empty one. -/
def ownerId (buffer : Text) (file : List (Text × UInt32)) (own : UInt32) : Option UInt32 :=
  if buffer ≠ [] then (getUgId buffer file).map UInt32.ofNat else some own

def lastCharIs (s : Text) (c : Char) : Bool := s.getLast? = some c

def concatPathFile (path filename : Text) : Text :=
  let path := stringOf path
  path ++ (if lastCharIs path '/' then [] else ['/']) ++ (stringOf filename).dropWhile (· = '/')

/-! ### Entry lines -/

/-- The text buffers of `main`. -/
structure Buffers where
  name : Text
  type : Char
  user : Text
  group : Text
  deriving DecidableEq

/-- The buffers after a scan. -/
def Buffers.store (b : Buffers) (s : Scanned) : Buffers :=
  ⟨s.name.getD b.name, s.type.getD b.type, s.user.getD b.user, s.group.getD b.group⟩

section Store

variable {s : Scanned} (b : Buffers)

theorem store_name {name : Text} (h : s.name = some name) : (b.store s).name = name := by
  rw [Buffers.store, h, Option.getD_some]

theorem store_type {type : Char} (h : s.type = some type) : (b.store s).type = type := by
  rw [Buffers.store, h, Option.getD_some]

theorem store_user {user : Text} (h : s.user = some user) : (b.store s).user = user := by
  rw [Buffers.store, h, Option.getD_some]

theorem store_group {group : Text} (h : s.group = some group) : (b.store s).group = group := by
  rw [Buffers.store, h, Option.getD_some]

end Store

structure Entry where
  path : Text
  type : Char
  mode : UInt32
  uid : UInt32
  gid : UInt32
  major : UInt32
  minor : UInt32
  start : UInt32
  increment : UInt32
  count : UInt32
  deriving DecidableEq

inductive Line
  | skipped | invalid | died | entry (e : Entry)
  deriving DecidableEq

/-- Too few values, or one too large. -/
def rejected (s : Scanned) : Bool :=
  s.assigned < 2 || 0xfffff < (s.major.getD 0 ||| s.minor.getD 0 ||| s.start.getD 0 |||
    s.count.getD 0 ||| s.increment.getD 0)

/-- A line that is not an `xattr` line, with the buffers as it finds them. -/
def readEntry (env : Env) (b : Buffers) (line : Text) : Line × Buffers :=
  let s := sscanf line
  let b := b.store s
  if rejected s then
    (if line = [] || line.head? = some '#' || line.head?.any isspace then .skipped else .invalid, b)
  else if b.name.head? = some '#' then (.skipped, b)
  else
    match ownerId b.group env.group env.getgid with
    | none => (.died, b)
    | some gid =>
      match ownerId b.user env.passwd env.getuid with
      | none => (.died, b)
      | some uid =>
        (.entry ⟨concatPathFile env.rootdir b.name, b.type, s.mode.getD 0o755, uid, gid,
          s.major.getD 0, s.minor.getD 0, s.start.getD 0, s.increment.getD 0, s.count.getD 0⟩, b)

/-! ### File operations -/

variable {σ : Type}

/-- `for (i = start; i <= stop; i++)`, the first `n` rounds -/
def nodeLoop (stop : UInt32) : ℕ → UInt32 → List UInt32
  | 0, _ => []
  | n + 1, i => if i ≤ stop then i :: nodeLoop stop n (i + 1) else []

/-- `count`, after `if (count) count--` -/
def Entry.last (e : Entry) : UInt32 := if e.count ≠ 0 then e.count - 1 else e.count

def Entry.nodes (e : Entry) : List UInt32 := nodeLoop (e.start + e.last) (2 ^ 32) e.start

def Entry.nodePath (e : Entry) (i : UInt32) : Text :=
  if e.last ≠ 0 then e.path ++ (Nat.repr i.toNat).toList else e.path

/-- The calls for a node, with the type in the mode. -/
def Entry.nodeCalls (e : Entry) (mode i : UInt32) : List Call :=
  [.mknod (e.nodePath i) mode e.major (e.minor + (i - e.start) * e.increment),
    .chown (e.nodePath i) e.uid e.gid, .chmod (e.nodePath i) mode]

/-- `chown`, and `chmod` unless the mode is -1. -/
def Entry.ownerCalls (e : Entry) (path : Text) : List Call :=
  .chown path e.uid e.gid :: if e.mode ≠ 0xffffffff then [.chmod path e.mode] else []

def nodeType : Char → Option UInt32
  | 'p' => some 0o10000
  | 'c' => some 0o20000
  | 'b' => some 0o60000
  | _ => none

/-- The directory of an entry; the umask of the program is 0. -/
def Entry.makeDirectory (k : System σ) (e : Entry) (s : σ) : Made × σ :=
  bbMakeDirectory k e.path (e.mode ||| 0o40000).toUInt64.toInt64 fileutilsRecur (.set 0) s

/-- `full_name` after the operations of an entry. -/
def Entry.fullName (k : System σ) (e : Entry) (s : σ) : Text :=
  if e.type = 'd' then stringOf (e.makeDirectory k s).1.buffer else e.path

/-- The calls of an entry, whether they succeeded, and the state after them. -/
def perform (k : System σ) (e : Entry) (s : σ) : List Call × Bool × σ :=
  if e.type = 'd' then
    -- the result of `bb_make_directory` is not looked at
    let (made, s') := e.makeDirectory k s
    let (calls, ok, s) := attempt k (e.ownerCalls (e.fullName k s)) s'
    (made.calls ++ calls, ok, s)
  else if e.type = 'f' then attempt k (.statRegular e.path :: e.ownerCalls e.path) s
  else
    match nodeType e.type with
    | none => ([], false, s)
    | some t => attemptEach k (e.nodes.map (e.nodeCalls (e.mode ||| t))) s

/-! ### The table -/

structure State where
  buffers : Buffers
  fullName : Option Text := none
  failed : Bool := false

/-- A line of the table; no state after `exit`. -/
def mainLine (env : Env) (k : System σ) (line : Text) (st : State) (s : σ) :
    Option State × List Call × σ :=
  match scanXattr line with
  | some xattr =>
    match env.extendedAttributes, st.fullName with
    | true, some path =>
      let (ok, s) := k (.setXattr path xattr) s
      (if ok then some st else none, [.setXattr path xattr], s)
    | _, _ => (none, [], s)
  | none =>
    match readEntry env st.buffers line with
    | (.skipped, b) => (some { st with buffers := b }, [], s)
    | (.invalid, b) => (some { st with buffers := b, failed := true }, [], s)
    | (.died, _) => (none, [], s)
    | (.entry e, b) =>
      let (calls, ok, s') := perform k e s
      (some ⟨b, some (e.fullName k s), st.failed || !ok⟩, calls, s')

/-- The lines of the table, up to the one at which the program exits. -/
def mainLoop (env : Env) (k : System σ) : List Text → State → σ → Option State × List Call × σ
  | [], st, s => (some st, [], s)
  | line :: lines, st, s =>
    match mainLine env k line st s with
    | (none, calls, s) => (none, calls, s)
    | (some st, calls, s) =>
      let (st, calls', s) := mainLoop env k lines st s
      (st, calls ++ calls', s)

/-! ### Accepted lines -/

theorem or_le_iff {a b : UInt32} : a ||| b ≤ 0xfffff ↔ a ≤ 0xfffff ∧ b ≤ 0xfffff := by
  constructor
  · exact fun h => ⟨UInt32.le_trans UInt32.left_le_or h, UInt32.le_trans UInt32.right_le_or h⟩
  · rintro ⟨ha, hb⟩
    rw [UInt32.le_iff_toNat_le] at ha hb ⊢
    rw [UInt32.toNat_or]
    exact Nat.le_of_lt_succ (Nat.or_lt_two_pow (n := 20) (Nat.lt_succ_of_le ha) (Nat.lt_succ_of_le hb))

/-- The numbers of an accepted line have 20 bits. -/
theorem numbers_le_of_accepted {s : Scanned} (h : rejected s ≠ true) :
    s.minor.getD 0 ≤ 0xfffff ∧ s.start.getD 0 ≤ 0xfffff ∧ s.count.getD 0 ≤ 0xfffff ∧
      s.increment.getD 0 ≤ 0xfffff := by
  rw [rejected, ne_eq, Bool.or_eq_true, not_or, decide_eq_true_iff, decide_eq_true_iff,
    UInt32.not_lt, or_le_iff, or_le_iff, or_le_iff, or_le_iff] at h
  obtain ⟨-, ⟨⟨⟨-, hminor⟩, hstart⟩, hcount⟩, hincrement⟩ := h
  exact ⟨hminor, hstart, hcount, hincrement⟩

end CargosBuildroot.Makedevs
