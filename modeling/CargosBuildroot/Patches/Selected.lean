import CargosBuildroot.Patches.ApplyPatches

/-! The patches of a tree by the rules in the header of `apply-patches.sh`: the patches
that a `series` file mentions, or else the names that match, in order; an archive stands
for what is in it. -/

namespace CargosBuildroot.Patches

open Shell

/-- The header's `.tar.*`, `.tbz2` and `.tgz`. -/
def documentedArchive (name : Text) : Bool :=
  name.tails.any (".tar.".toList.isPrefixOf ·) || ".tbz2".toList.isSuffixOf name ||
    ".tgz".toList.isSuffixOf name

/-- The names that a series file mentions. -/
def seriesNames (series : Node) : List Text :=
  (seriesLines (series.output .cat).2).flatMap fun line => (words line).take 1

/-- A patch of a series, with its text. -/
def seriesPatch (es : Entries) (i : Text) : List (Text × Text) :=
  match es.find (components i) with
  | some node => [(i, (node.output .cat).2)]
  | none => []

/-- The patches of a directory, from those of its entries. -/
def dirSelected (es : Entries) (listing : List Text) (selections : List (Text × List (Text × Text))) :
    List (Text × Text) :=
  match es.find (components "series".toList) with
  | some series => (seriesNames series).flatMap (seriesPatch es)
  | none => listing.flatMap fun n => (selections.lookup n).getD []

/-- The names that `*` stands for, in order. -/
def Entries.listed (es : Entries) : List Text := sortNames (es.names.filter visible)

mutual

/-- The patches that an entry stands for: their names and their texts. -/
def Node.selected (archive : Text → Bool) (name : Text) : Node → List (Text × Text)
  | .dir es => dirSelected es es.listed (es.selections archive)
  | .file output _ unpacked =>
    if archive name then dirSelected unpacked unpacked.listed (unpacked.selections archive)
    else
      match uncompOf name with
      | some uncomp => [(name, (output uncomp).2)]
      | none => []

def Entries.selections (archive : Text → Bool) : Entries → List (Text × List (Text × Text))
  | .nil => []
  | .cons name node rest => (name, node.selected archive name) :: rest.selections archive

end

/-- The names that match some pattern, each once and in order. -/
def matching (patterns : List (Text → Bool)) (es : Entries) : List Text :=
  (sortNames (patterns.flatMap es.names.filter)).dedup

/-- The selected patches of a tree. -/
def selected (patterns : List (Text → Bool)) (tree : Entries) : List (Text × Text) :=
  dirSelected tree (matching patterns tree) (tree.selections documentedArchive)

/-- Every selected patch was applied, once and in order, all that was applied was read and
decompressed without error, and so was every archive. -/
structure AllApplied (patterns : List (Text → Bool)) (tree : Entries) (st : State) : Prop where
  complete : ∀ p ∈ st.applied, p.ok = true
  unpacked : ∀ a ∈ st.archives, a.2 = true
  once : (st.applied.map Applied.name).Nodup
  ordered : (selected patterns tree).Sublist (st.applied.map fun p => (p.name, p.text))

/-! ### Steps at which nothing is swallowed -/

/-- No character that `grep` gives a meaning, other than dots. -/
def NoRegex (name : Text) : Prop := ∀ c ∈ name, Ere.isLiteral c = true

instance : DecidablePred NoRegex := fun name => inferInstanceAs (Decidable (∀ c ∈ name, _))

namespace Env

variable (env : Env)

/-- One word that pathname expansion leaves as it is. -/
def PlainWord (word : Text) : Prop :=
  word ≠ [] ∧ (∀ c ∈ word, isSpace c = false) ∧ env.expand word = [word]

instance : DecidablePred env.PlainWord := fun _ => inferInstanceAs (Decidable (_ ∧ _ ∧ _))

/-- A plain word that is no path, and no option of `ls`. -/
def PlainName (name : Text) : Prop :=
  env.PlainWord name ∧ '/' ∉ name ∧ name.head? ≠ some '-' ∧ name ≠ ['.']

instance : DecidablePred env.PlainName := fun _ => inferInstanceAs (Decidable (_ ∧ _ ∧ _ ∧ _))

/-- `cd` goes to the directory that is listed, and the loop goes through its names. -/
structure ListingSound (st : State) (d : Dir) (patterns : List (Text → Bool)) : Prop where
  reached : env.Reached d
  names : ∀ n ∈ patterns.flatMap ((env.entriesAt st d).getD .nil).names.filter, env.PlainName n

/-- The series file is read completely, and a line that is no comment starts with a plain word that
a blank ends. -/
structure SeriesSound (series : Node) : Prop where
  ok : (series.output .cat).1 = true
  fields : ∀ line ∈ seriesLines (series.output .cat).2, words (cutField line) = (words line).take 1
  plain : ∀ i ∈ seriesNames series, env.PlainWord i

/-- A patch that is found is read and decompressed without error, in a directory other than the root,
unless the check for duplicates stops the script, as it does for a name with special characters that
was applied before. -/
def PatchSound (st : State) (d : Dir) (patch : Text) (series : Bool) : Prop :=
  d.text ≠ [] ∧ d.text ≠ ['/'] ∧
    ∀ uncomp ∈ if series then some .cat else uncompOf patch, ∀ node ∈ env.nodeAt st d patch,
      st.list.lines.any (env.isListed patch) = true ∨
        (node.output uncomp).1 = true ∧ (NoRegex patch ∨ patch ∉ st.applied.map Applied.name)

/-- An archive unpacks without error, does not have the name of one of the archives around it, and is
one by the header or no patch. -/
structure ArchiveSound (active : List Text) (st : State) (d : Dir) (i : Text) : Prop where
  tar : ∀ node ∈ env.nodeAt st d i, node.tarOk = true
  around : i ∉ active
  documented : documentedArchive i = true ∨ uncompOf i = none

/-- Every round of a loop that is reached is sound. -/
def EachSound (body : Text → State → Dir → Except Stop (State × Dir)) (sound : Text → State → Dir → Prop) :
    List Text → State → Dir → Prop
  | [], _, _ => True
  | word :: ws, st, d => sound word st d ∧
    match body word st d with
    | .error _ => True
    | .ok (st, d) => EachSound body sound ws st d

/-- A round of the loop over the listing is sound, in the archives `active`, if `scan` is. -/
def EntrySound (scan : List Text → Dir → State → Prop) (active : List Text) (i : Text) (st : State) (d : Dir) :
    Prop :=
  match env.nodeAt st d i with
  | some (.dir _) => scan active (enter d i) st
  | _ =>
    if isArchive i then
      env.ArchiveSound active st d i ∧ scan (i :: active) (env.unpackedDir i) (env.unpack st d i)
    else env.PatchSound st d i false

/-- Every step of a scan is sound. -/
def ScanSound : ℕ → List Text → Dir → List (Text → Bool) → State → Prop
  | 0, _, _, _, _ => True
  | n + 1, active, d, patterns, st =>
    match env.nodeAt st d "series".toList with
    | some series => env.SeriesSound series ∧
      EachSound (fun i st d => env.applyPatch st d i true) (fun i st d => env.PatchSound st d i true)
        (env.seriesPatches series) st d
    | none => env.ListingSound st d patterns ∧
      EachSound (env.scanEntry fun d st => env.scanPatchdir n d [visible] st)
        (env.EntrySound (fun active d st => ScanSound n active d [visible] st) active)
        (env.listing st d patterns) st d

instance (st : State) (d : Dir) (patterns : List (Text → Bool)) : Decidable (env.ListingSound st d patterns) :=
  decidable_of_iff (_ ∧ _) ⟨fun h => ⟨h.1, h.2⟩, fun h => ⟨h.reached, h.names⟩⟩

instance (series : Node) : Decidable (env.SeriesSound series) :=
  decidable_of_iff (_ ∧ _ ∧ _) ⟨fun h => ⟨h.1, h.2.1, h.2.2⟩, fun h => ⟨h.ok, h.fields, h.plain⟩⟩

instance (st : State) (d : Dir) (patch : Text) (series : Bool) : Decidable (env.PatchSound st d patch series) :=
  inferInstanceAs (Decidable (_ ∧ _ ∧ _))

instance (active : List Text) (st : State) (d : Dir) (i : Text) : Decidable (env.ArchiveSound active st d i) :=
  decidable_of_iff (_ ∧ _ ∧ _) ⟨fun h => ⟨h.1, h.2.1, h.2.2⟩, fun h => ⟨h.tar, h.around, h.documented⟩⟩

def decidableEachSound {body : Text → State → Dir → Except Stop (State × Dir)}
    {sound : Text → State → Dir → Prop} (h : ∀ i st d, Decidable (sound i st d)) :
    ∀ ws st d, Decidable (EachSound body sound ws st d)
  | [], _, _ => .isTrue trivial
  | word :: ws, st, d =>
    @instDecidableAnd _ _ (h word st d) <|
      match body word st d with
      | .error _ => .isTrue trivial
      | .ok (st, d) => decidableEachSound h ws st d

instance decidableEntrySound {scan : List Text → Dir → State → Prop}
    [∀ active d st, Decidable (scan active d st)] (active : List Text) (i : Text) (st : State) (d : Dir) :
    Decidable (env.EntrySound scan active i st d) := by
  unfold EntrySound
  split <;> infer_instance

instance decidableScanSound : ∀ n active d patterns st, Decidable (env.ScanSound n active d patterns st)
  | 0, _, _, _, _ => .isTrue trivial
  | n + 1, active, d, patterns, st =>
    have hscan := fun active d st => decidableScanSound n active d [visible] st
    show Decidable (match env.nodeAt st d "series".toList with | some _ => _ | none => _) from
    match env.nodeAt st d "series".toList with
    | some _ => @instDecidableAnd _ _ _ (decidableEachSound (fun _ _ _ => inferInstance) _ _ _)
    | none => @instDecidableAnd _ _ _ (decidableEachSound (fun _ _ _ => inferInstance) _ _ _)

end Env

end CargosBuildroot.Patches
