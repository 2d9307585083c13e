import CargosBuildroot.Kconfig.Expr
import Mathlib.Logic.Function.Basic

/-! The `.config` file of kconfig: `conf_write` and `conf_read_simple` of `support/kconfig/confdata.c`, as
built for this repository, where `CONFIG_` is empty. -/

namespace CargosBuildroot.Kconfig

open Shell Ternary

/-- What is read of the symbols. A value of a choice knows its choice. -/
structure SymbolTable (σ : Type*) where
  name : σ → Text
  type : σ → SymbolType
  isChoice : σ → Bool
  choice : σ → Option σ
  /-- `sym_find` -/
  find : Text → Option σ
  isChoice_choice : ∀ s c, choice s = some c → isChoice c = true

/-- `def[S_DEF_USER]` of a symbol, and its flag. For a choice the value is a symbol. -/
structure Saved (σ : Type*) where
  tri : Tristate
  val : Option Text
  selected : Option σ
  hasValue : Bool
  deriving DecidableEq

/-- `curr` of the symbols with their flags `SYMBOL_WRITE`, and the value of `modules_sym`. -/
structure Current (σ : Type*) where
  tri : σ → Tristate
  val : σ → Text
  writes : σ → Bool
  modules : Tristate

/-- The entries of the menus in their order. -/
inductive Item (σ : Type*)
  | menu (visible : Bool) (prompt : Text)
  | symbol (s : σ)
  deriving DecidableEq

variable {σ : Type*} [DecidableEq σ] (T : SymbolTable σ)

/-! ### The reader -/

/-- What is in front of the first such character, and what is behind it. -/
def splitAtChar (c : Char) (t : Text) : Option (Text × Text) :=
  match t.dropWhile (· ≠ c) with
  | [] => none
  | _ :: rest => some (t.takeWhile (· ≠ c), rest)

def isHexDigit (c : Char) : Bool :=
  c.isDigit || ('a' ≤ c && c ≤ 'f') || ('A' ≤ c && c ≤ 'F')

/-- `S_INT` in `sym_string_valid` -/
def intValid (t : Text) : Bool :=
  match (if t.head? = some '-' then t.tail else t) with
  | [] => false
  | c :: rest => c.isDigit && !(c = '0' && rest ≠ []) && rest.all Char.isDigit

/-- `S_HEX` in `sym_string_valid` -/
def hexValid (t : Text) : Bool :=
  let digits := if t.head? = some '0' ∧ (t[1]? = some 'x' ∨ t[1]? = some 'X') then t.drop 2 else t
  digits ≠ [] && digits.all isHexDigit

/-- `sym_string_valid` -/
def symStringValid (type : SymbolType) (t : Text) : Bool :=
  match type with
  | .string => true
  | .int => intValid t
  | .hex => hexValid t
  | .boolean | .tristate => t.head?.any fun c => c ∈ "yYmMnN".toList
  | .unknown | .other => false

/-- The loop of `conf_set_sym_val` over a string behind its first quote. -/
def unescape : Text → Option Text
  | [] => none
  | '"' :: _ => some []
  | '\\' :: c :: rest => (unescape rest).map (c :: ·)
  | '\\' :: [] => none
  | c :: rest => (unescape rest).map (c :: ·)

/-- `conf_set_sym_val`, which may refuse the value. -/
def confSetSymVal (type : SymbolType) (d : Saved σ) (p : Text) : Option (Saved σ) :=
  let set (tri : Tristate) : Option (Saved σ) := some { d with tri := tri, hasValue := true }
  match type with
  | .tristate =>
    if p.head? = some 'm' then set .mod
    else if p.head? = some 'y' then set .yes
    else if p.head? = some 'n' then set .no
    else none
  | .boolean =>
    if p.head? = some 'y' then set .yes
    else if p.head? = some 'n' then set .no
    else none
  | .string =>
    match p with
    | '"' :: rest => (unescape rest).map fun v => { d with val := some v, hasValue := true }
    | _ => some d
  | .int | .hex => if symStringValid type p then some { d with val := some p, hasValue := true } else none
  | .unknown | .other => some d

/-- `setsym`: the choice of a symbol that has got a value. -/
def setSym (sym : σ) (D : σ → Saved σ) : σ → Saved σ :=
  match T.choice sym with
  | none => D
  | some cs =>
    let c := match (D sym).tri with
      | .no => D cs
      | .mod => if (D cs).tri = Tristate.yes then { D cs with hasValue := false } else D cs
      | .yes => { D cs with selected := some sym }
    Function.update D cs { c with tri := Junction.or.op c.tri (D sym).tri }

/-- A line of the file, which may be without a newline at its end. -/
def confReadLine (ended : Bool) (D : σ → Saved σ) (line : Text) : σ → Saved σ :=
  if line.head? = some '#' then
    match splitAtChar ' ' (line.drop 2) with
    | none => D
    | some (name, rest) =>
      if "is not set".toList.isPrefixOf rest then
        match T.find name with
        | none => D
        | some sym =>
          setSym T sym (if T.type sym = .boolean ∨ T.type sym = .tristate then
            Function.update D sym { D sym with tri := .no, hasValue := true } else D)
      else D
  else
    match splitAtChar '=' line with
    | none => D
    | some (name, p) =>
      let p := if ended ∧ p.getLast? = some '\r' then p.dropLast else p
      match T.find name with
      | none => D
      | some sym =>
        match confSetSymVal (T.type sym) (D sym) p with
        | none => D
        | some d => setSym T sym (Function.update D sym d)

/-- What the values are set to before a file is read. -/
def Saved.initial (s : σ) : Saved σ := ⟨.no, none, none, T.isChoice s⟩

/-- `conf_read_simple` for `S_DEF_USER` -/
def confReadSimple (file : Text) : σ → Saved σ :=
  let ls := lines file
  ls.getLast?.toList.foldl (confReadLine T false) (ls.dropLast.foldl (confReadLine T true) (Saved.initial T))

/-! ### The writer -/

variable (C : Current σ)

/-- `sym_escape_string_value` -/
def symEscapeStringValue (t : Text) : Text :=
  '"' :: (t.flatMap fun c => if c = '"' ∨ c = '\\' then ['\\', c] else [c]) ++ ['"']

/-- `sym_get_string_value` -/
def symGetStringValue (s : σ) : Text :=
  if T.type s = .boolean ∨ T.type s = .tristate then
    match C.tri s with
    | .no => ['n']
    | .mod => if C.modules = .no then ['n'] else ['m']
    | .yes => ['y']
  else C.val s

/-- `kconfig_print_symbol` -/
def kconfigPrintSymbol (s : σ) (value : Text) : Text :=
  if (T.type s = .boolean ∨ T.type s = .tristate) ∧ value.head? = some 'n' then
    "# ".toList ++ T.name s ++ " is not set\n".toList
  else T.name s ++ '=' :: value ++ ['\n']

/-- `conf_write_symbol` -/
def confWriteSymbol (s : σ) : Text :=
  match T.type s with
  | .other | .unknown => []
  | .string => kconfigPrintSymbol T s (symEscapeStringValue (symGetStringValue T C s))
  | _ => kconfigPrintSymbol T s (symGetStringValue T C s)

/-- `kconfig_print_comment` -/
def kconfigPrintComment (value : Text) : Text :=
  (lines value).flatMap fun l => '#' :: (if l = [] then [] else ' ' :: l) ++ ['\n']

/-- `buf` of `conf_write_heading` -/
def headingText (title : Text) : Text :=
  ("\nAutomatically generated file; DO NOT EDIT.\n".toList ++ title ++ ['\n']).take 255

/-- The loop of `conf_write`, with the symbols that have been written. -/
def confWriteItems : List (Item σ) → List σ → Text
  | [], _ => []
  | .menu visible prompt :: items, written =>
    (if visible then "\n#\n# ".toList ++ prompt ++ "\n#\n".toList else []) ++ confWriteItems items written
  | .symbol s :: items, written =>
    if T.isChoice s = false ∧ C.writes s = true ∧ s ∉ written then
      confWriteSymbol T C s ++ confWriteItems items (s :: written)
    else confWriteItems items written

/-- `conf_write` -/
def confWrite (title : Text) (items : List (Item σ)) : Text :=
  kconfigPrintComment (headingText title) ++ confWriteItems T C items []

end CargosBuildroot.Kconfig
