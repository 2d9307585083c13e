import CargosBuildroot.Shell.Read
import CargosBuildroot.Store.Buffer
import Mathlib.Data.List.Infix

/-! The toolchain wrapper (`toolchain-wrapper.c`) from the filled-in paths to the
call of `execv`. The macros of the build fix the predefined arguments; the
arguments of the user follow them, and at most three more stand in between. -/

namespace CargosBuildroot.Toolchain

open Shell Store

/-! ### Configuration -/

/-- The `BR_*` macros, `none` or `false` where one is not defined. -/
structure Macros where
  ccache : Bool
  abi : Option Text
  fpu : Option Text
  softfloat : Bool
  mode : Option Text
  is64 : Bool
  omitLockPrefix : Bool
  binfmtFlat : Bool
  mipsTargetLittleEndian : Bool
  mipsTargetBigEndian : Bool
  arcTargetBigEndian : Bool
  additionalCflags : List Text
  floatAbi : Option Text
  arch : Option Text
  cpu : Option Text

/-- The buffers that `main` has filled with the paths. -/
structure Paths where
  ccachePath : Text
  path : Text
  sysroot : Text

/-- The environment: whether `BR_NO_CCACHE` is set, and
`BR_COMPILER_PARANOID_UNSAFE_PATH` is not empty. -/
structure Env where
  noCcache : Bool
  paranoid : Bool

/-- An argument that is there when its macro is. -/
def flag (defined : Bool) (arg : String) : List Text := if defined then [arg.toList] else []

/-- An argument made of a text and the value of a macro. -/
def valueArg (text : String) (value : Option Text) : List Text :=
  value.toList.map (text.toList ++ ·)

/-- The initialiser of `predef_args`. -/
def predefArgs (m : Macros) (p : Paths) : List Text :=
  (if m.ccache then [p.ccachePath] else []) ++
  [p.path, "--sysroot".toList, p.sysroot] ++
  valueArg "-mabi=" m.abi ++ valueArg "-mfpu=" m.fpu ++ flag m.softfloat "-msoft-float" ++
  valueArg "-m" m.mode ++ flag m.is64 "-m64" ++
  flag m.omitLockPrefix "-Wa,-momit-lock-prefix=yes" ++ flag m.binfmtFlat "-Wl,-elf2flt" ++
  flag m.mipsTargetLittleEndian "-EL" ++
  flag (m.mipsTargetBigEndian || m.arcTargetBigEndian) "-EB" ++ m.additionalCflags

/-- `EXCLUSIVE_ARGS`. -/
def exclusiveArgs : ℕ := 3

/-! ### The unsafe paths -/

def unsafePaths : List Text :=
  ["/lib".toList, "/usr/include".toList, "/usr/lib".toList, "/usr/local/include".toList,
    "/usr/local/lib".toList]

def unsafeOpts : List Text :=
  ["-I".toList, "-idirafter".toList, "-iquote".toList, "-isystem".toList, "-L".toList]

/-- The arguments of a call of `check_unsafe_path`. -/
structure PathCheck where
  arg : Text
  path : Text
  argHasPath : Bool
  deriving DecidableEq

/-- `check_unsafe_path` prints a message, and exits if it is paranoid. -/
def PathCheck.isUnsafe (c : PathCheck) : Bool := unsafePaths.any (·.isPrefixOf c.path)

/-- The loop over the options at an argument, with the calls it makes and the
arguments after it; it moves on to the next argument where the path is that one. -/
def scanOpts : List Text → Text → List Text → List PathCheck × List Text
  | [], _, rest => ([], rest)
  | opt :: opts, arg, rest =>
    if opt.isPrefixOf arg then
      if arg = opt then
        match rest with
        | [] => ([], [])
        | path :: rest =>
          let (checks, rest) := scanOpts opts path rest
          (⟨arg, path, false⟩ :: checks, rest)
      else
        let (checks, rest) := scanOpts opts arg rest
        (⟨arg, arg.drop opt.length, true⟩ :: checks, rest)
    else scanOpts opts arg rest

/-- The loop over at most `n` arguments. -/
def scanArgs : ℕ → List Text → List PathCheck
  | n + 1, arg :: rest =>
    let (checks, rest) := scanOpts unsafeOpts arg rest
    checks ++ scanArgs n rest
  | _, _ => []

/-! ### The arguments -/

/-- `argv[0]` and the arguments of the user; `argc` is at least 1. -/
structure Argv where
  progpath : Text
  args : List Text

def Argv.argc (a : Argv) : ℕ := a.args.length + 1

/-- The index at which a loop over the arguments from 1 on stops. -/
def Argv.find (a : Argv) (p : Text → Bool) : ℕ := a.args.findIdx p + 1

def overridesFloat (arg : Text) : Bool :=
  "-mfloat-abi=".toList.isPrefixOf arg || arg = "-msoft-float".toList || arg = "-mhard-float".toList

def overridesCpu (arg : Text) : Bool :=
  "-march=".toList.isPrefixOf arg || "-mtune=".toList.isPrefixOf arg || "-mcpu=".toList.isPrefixOf arg

/-- A pointer to a string, or `NULL`. -/
abbrev Ptr := Option Text

/-- The number of cells that are allocated for `args`. -/
def slots (m : Macros) (p : Paths) (argv : Argv) : ℕ :=
  (predefArgs m p).length + (argv.argc + exclusiveArgs)

/-- Add float abi if not overridden in args. -/
def addFloatAbi (m : Macros) (argv : Argv) (args : Buffer Ptr) : Buffer Ptr :=
  match m.floatAbi with
  | none => args
  | some abi =>
    if argv.find overridesFloat = argv.argc then args.push (some ("-mfloat-abi=".toList ++ abi))
    else args

/-- Add our -march/cpu flags. -/
def addCpu (m : Macros) (argv : Argv) (args : Buffer Ptr) : Buffer Ptr :=
  if m.arch.isSome || m.cpu.isSome then
    if argv.find overridesCpu = argv.argc then
      let args :=
        match m.arch with
        | none => args
        | some arch => args.push (some ("-march=".toList ++ arch))
      match m.cpu with
      | none => args
      | some cpu => args.push (some ("-mcpu=".toList ++ cpu))
    else args
  else args

/-- `args` with everything that is written to it. -/
def fillArgs (m : Macros) (p : Paths) (argv : Argv) : Buffer Ptr :=
  let args := (Buffer.alloc (slots m p argv)).pushAll ((predefArgs m p).map some)
  let args := addCpu m argv (addFloatAbi m argv args)
  let args := args.pushAll (argv.args.map some)
  args.store none

/-- What `execv` reads from the vector: the strings before the first `NULL`. -/
def vector : List (Option Ptr) → Option (List Text)
  | some (some s) :: cells => (vector cells).map (s :: ·)
  | some none :: _ => some []
  | _ => none

/-- How `main` ends: by `execv` with its vector, or by an exit before. -/
inductive Outcome
  | exec (args : Option (List Text))
  | exit (code : ℕ)
  deriving DecidableEq

def main (m : Macros) (p : Paths) (env : Env) (argv : Argv) : Outcome :=
  let args := fillArgs m p argv
  if env.paranoid && (scanArgs argv.argc argv.args).any PathCheck.isUnsafe then .exit 1
  else
    let execArgs := if m.ccache && env.noCcache then args.cells.drop 1 else args.cells
    .exec (vector execArgs)

end CargosBuildroot.Toolchain
