import Mathlib.Data.List.Dedup
import Mathlib.Logic.Function.Basic
import CargosBuildroot.Shell.Read

/-! `fetch` of `scancpan`: a search through the dependencies of CPAN distributions that
visits every distribution once. The flags that a distribution is needed are set at every
call, and handed on to the dependencies at the first one. -/

namespace CargosBuildroot.Scancpan

open Shell

abbrev Name := Text

/-! ### What MetaCPAN returns -/

structure Dependency where
  module : Text
  phase : Text
  relationship : Text
  deriving DecidableEq

/-- MetaCPAN and the options of the command line. -/
structure Cpan where
  manifest : Name → Text
  dependency : Name → List Dependency
  /-- The distribution of a module. -/
  distribution : Text → Name
  /-- The distributions that modules belong to. -/
  distributions : List Name
  distribution_mem : ∀ m, distribution m ∈ distributions
  /-- `Module::CoreList::is_core` -/
  isCore : Text → Bool
  recommend : Bool
  test : Bool

/-- A match of `\.(swg|xs|c|h|i)\n` -/
def isXs (manifest : Text) : Bool :=
  ["swg", "xs", "c", "h", "i"].any fun ext =>
    manifest.tails.any fun t => ('.' :: ext.toList ++ ['\n']).isPrefixOf t

variable (c : Cpan)

/-- The dependencies that the loop leaves out. -/
def skipped (d : Dependency) : Bool :=
  d.module = "perl".toList || "Alien".toList.isPrefixOf d.module ||
    "Win32".toList.isPrefixOf d.module || (!c.test && "Test".toList.isPrefixOf d.module) ||
    c.isCore d.module || d.phase = "develop".toList || (!c.test && d.phase = "test".toList) ||
    (!c.recommend && d.relationship ≠ "requires".toList)

/-- The distributions of the dependencies in some of the phases. -/
def distnames (phase : Text → Bool) (name : Name) : List Name :=
  (((c.dependency name).filter fun d => !skipped c d && phase d.phase).map (c.distribution ·.module)).dedup

/-- The keys of `%runtime`. -/
def runtimeNames (name : Name) : List Name := distnames c (· = "runtime".toList) name

/-- The keys of `%build`. -/
def buildNames (name : Name) : List Name :=
  let build := distnames c (· ≠ "runtime".toList) name
  if (c.dependency name).any (·.module = "Module::Build".toList) then
    build.insert "Module-Build".toList
  else build

/-- The order of the keys of the hashes. -/
structure KeyOrder where
  depsBuild : Name → List Name
  depsRuntime : Name → List Name
  build_perm : ∀ name, (depsBuild name).Perm (buildNames c name)
  runtime_perm : ∀ name, (depsRuntime name).Perm (runtimeNames c name)

variable {c}

/-! ### The search -/

structure State where
  dist : List Name
  needTarget : Name → Bool
  needHost : Name → Bool
  needDlopen : Name → Bool

def State.init : State := ⟨[], fun _ => false, fun _ => false, fun _ => false⟩

/-- `$need{$name} = $need if $need` -/
def setIf (flag : Bool) (need : Name → Bool) (name : Name) : Name → Bool :=
  if flag then Function.update need name true else need

/-- The assignments before `unless`. -/
def State.need (s : State) (name : Name) (target host : Bool) : State :=
  { s with needTarget := setIf target s.needTarget name, needHost := setIf host s.needHost name }

/-- The entries of a distribution that is fetched. -/
def State.add (s : State) (name : Name) (xs : Bool) : State :=
  { s with dist := name :: s.dist, needDlopen := Function.update s.needDlopen name xs }

/-- `$need_dlopen{$name} ||= $need_dlopen{$distname}` -/
def State.merge (s : State) (name distname : Name) : State :=
  { s with needDlopen :=
      Function.update s.needDlopen name (s.needDlopen name || s.needDlopen distname) }

theorem setIf_eq_true {flag : Bool} {need : Name → Bool} {name n : Name} :
    setIf flag need name n = true ↔ need n = true ∨ flag = true ∧ n = name := by
  cases flag with
  | false => simp [setIf]
  | true => by_cases hn : n = name <;> simp [setIf, hn]

theorem needDlopen_add (s : State) (name n : Name) (xs : Bool) :
    (s.add name xs).needDlopen n = if n = name then xs else s.needDlopen n :=
  Function.update_apply _ _ _ _

theorem needDlopen_merge (s : State) (name distname n : Name) :
    (s.merge name distname).needDlopen n =
      if n = name then s.needDlopen name || s.needDlopen distname else s.needDlopen n :=
  Function.update_apply _ _ _ _

/-- What a run does, with the state before it and the distributions whose `fetch` has not
returned yet. -/
inductive Step
  | call (s : State) (name : Name) (target host : Bool)
  | merge (s : State) (active : List Name) (name distname : Name)

/-- A loop over names. -/
def each (body : Name → State → Option (State × List Step)) :
    List Name → State → Option (State × List Step)
  | [], s => some (s, [])
  | name :: names, s =>
    match body name s with
    | none => none
    | some (s, steps) => (each body names s).map fun r => (r.1, steps ++ r.2)

/-- `fetch`, with `n` calls in one another at most. -/
def fetch (k : KeyOrder c) : ℕ → List Name → Name → Bool → Bool → State → Option (State × List Step)
  | 0, _, _, _, _, _ => none
  | n + 1, active, name, target, host, s =>
    let call := .call s name target host
    let s := s.need name target host
    if name ∈ s.dist then some (s, [call])
    else
      let active := name :: active
      let s := s.add name (isXs (c.manifest name))
      match each (fun distname => fetch k n active distname false true) (k.depsBuild name) s with
      | none => none
      | some (s, built) =>
        (each (fun distname s =>
          (fetch k n active distname target host s).map fun r =>
            (r.1.merge name distname, r.2 ++ [.merge r.1 active name distname]))
          (k.depsRuntime name) s).map fun r => (r.1, call :: built ++ r.2)

/-- The loop over the distributions of the command line. -/
def fetchAll (k : KeyOrder c) (target host : Bool) (args : List Name) : Option (State × List Step) :=
  each (fun distname => fetch k (args.length + c.distributions.length + 2) [] distname target host)
    args State.init

end CargosBuildroot.Scancpan
