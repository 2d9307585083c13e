import CargosBuildroot.Statistics.FileList
import Mathlib.Data.Rat.Defs
import Mathlib.Algebra.Order.BigOperators.Group.List
import Mathlib.Algebra.Order.Group.Nat

/-! The divisions of `size-stats`. The rows of its tables come from the list of files, the sizes
they are divided by from a walk over the target directory that counts every inode once, for the
package of the path that it meets first. -/

namespace CargosBuildroot.Statistics

open Shell Python Store

/-! ### The sizes -/

/-- The output directory, the inodes of the files, and the paths below the target directory in
the order in which `os.walk` meets them. -/
structure Target extends Files where
  builddir : Text
  inode : Text → ℕ
  walk : List Text
  walk_exists : ∀ path ∈ walk,
    islink (join (join builddir "target".toList) path) = false →
      pathExists (join (join builddir "target".toList) path) = true

namespace Target

variable (t : Target)

def fullpath (path : Text) : Text := join (join t.builddir "target".toList) path

/-- The loop of `build_package_size` on one file. -/
def countFile (filesdict : FilesDict) (s : List ℕ × Dict Text ℕ) (frelpath : Text) :
    List ℕ × Dict Text ℕ :=
  let (seeninodes, pkgsize) := s
  let fpath := t.fullpath frelpath
  if t.islink fpath then s
  else if t.inode fpath ∈ seeninodes then s
  else
    let pkg := match filesdict.get? frelpath with
      | none => "unknown".toList
      | some (pkg, _) => pkg
    (t.inode fpath :: seeninodes, pkgsize.set pkg ((pkgsize.get? pkg).getD 0 + t.size fpath))

def buildPackageSize (filesdict : FilesDict) : Dict Text ℕ :=
  (t.walk.foldl (t.countFile filesdict) ([], Dict.empty)).2

end Target

/-! ### The tables -/

/-- `float(size) / total * 100` before it is rounded to one digit; `none` is a
`ZeroDivisionError`. -/
def percent (size total : ℕ) : Option ℚ :=
  if total = 0 then none else some (size / total * 100)

/-- A row of the table of the files. -/
structure FileRow where
  file : Text
  pkgname : Text
  filesize : ℕ
  pkgsize : ℕ
  inPackage : ℚ
  inSystem : ℚ

/-- The rows below the header. A package that is missing is added with the size 0, and the
division that follows fails. -/
def genFilesCsv (filesdict : FilesDict) (pkgsizes : Dict Text ℕ) : Option (List FileRow) :=
  let total := (pkgsizes.entries.map Prod.snd).sum
  filesdict.entries.mapM fun (f, pkgname, filesize) => do
    let pkgsize := (pkgsizes.get? pkgname).getD 0
    some ⟨f, pkgname, filesize, pkgsize, ← percent filesize pkgsize, ← percent filesize total⟩

/-- A row of the table of the packages. -/
structure PackageRow where
  pkg : Text
  size : ℕ
  inSystem : ℚ

def genPackagesCsv (pkgsizes : Dict Text ℕ) : Option (List PackageRow) :=
  let total := (pkgsizes.entries.map Prod.snd).sum
  pkgsizes.entries.mapM fun (pkg, size) => do some ⟨pkg, size, ← percent size total⟩

/-- The script with both tables and without the graph. -/
def sizeStats (t : Target) (fileList : Text) : Option (List FileRow × List PackageRow) := do
  let pkgdict ← buildPackageDict t.toFiles t.builddir fileList
  let pkgsize := t.buildPackageSize pkgdict
  some (← genFilesCsv pkgdict pkgsize, ← genPackagesCsv pkgsize)

/-! ### Who owns what -/

/-- The package of the last line for the path. -/
def lastOwner (records : List (Text × Text)) (path : Text) : Option Text :=
  (records.filter (·.2 = path)).getLast?.map Prod.fst

namespace Target

variable (t : Target)

/-- The path is in the target directory and not a link. -/
def Regular (path : Text) : Prop :=
  t.pathExists (t.fullpath path) = true ∧ t.islink (t.fullpath path) = false

instance (path : Text) : Decidable (t.Regular path) := inferInstanceAs (Decidable (_ ∧ _))

/-- The walk meets the file, and no other name of it before. -/
def Counted (path : Text) : Prop :=
  ∃ before after, t.walk = before ++ path :: after ∧ t.islink (t.fullpath path) = false ∧
    ∀ q ∈ before, t.islink (t.fullpath q) = false → t.inode (t.fullpath q) ≠ t.inode (t.fullpath path)

/-- The package that the size of a file in the walk is added to. -/
def owner (records : List (Text × Text)) (path : Text) : Text :=
  (lastOwner records path).getD "unknown".toList

end Target

theorem lastOwner_append (records : List (Text × Text)) (r : Text × Text) (path : Text) :
    lastOwner (records ++ [r]) path = if r.2 = path then some r.1 else lastOwner records path := by
  rw [lastOwner, List.filter_append]
  by_cases hr : r.2 = path
  · rw [if_pos hr, List.filter_cons_of_pos (by simpa using hr)]
    simp
  · rw [if_neg hr, List.filter_cons_of_neg (by simpa using hr), List.filter_nil, List.append_nil,
      lastOwner]

/-- The dictionary of the files after the lines with these packages and paths. -/
def addFiles (t : Target) (records : List (Text × Text)) : FilesDict :=
  records.foldl (fun filesdict r => addFile t.toFiles filesdict r.2 (t.fullpath r.2) r.1) Dict.empty

theorem foldlM_addFile (t : Target) (lines : List Text) (filesdict : FilesDict) :
    lines.foldlM (fun filesdict l => do
        let (pkg, fpath) ← parseLine l
        let fullpath := join (join t.builddir "target".toList) fpath
        some (addFile t.toFiles filesdict fpath fullpath pkg)) filesdict =
      (lines.mapM parseLine).map fun records =>
        records.foldl (fun filesdict r => addFile t.toFiles filesdict r.2 (t.fullpath r.2) r.1)
          filesdict := by
  induction lines generalizing filesdict with
  | nil => rfl
  | cons l lines ih =>
    rw [List.foldlM_cons, List.mapM_cons]
    cases hl : parseLine l with
    | none => rfl
    | some r =>
      refine (ih _).trans ?_
      cases lines.mapM parseLine <;> rfl

theorem buildPackageDict_eq (t : Target) (fileList : Text) :
    buildPackageDict t.toFiles t.builddir fileList =
      ((readlines fileList).mapM parseLine).map (addFiles t) :=
  foldlM_addFile t _ _

theorem get?_addFiles (t : Target) (records : List (Text × Text)) (path : Text) :
    (addFiles t records).get? path =
      if t.Regular path then (lastOwner records path).map fun pkg => (pkg, t.size (t.fullpath path))
      else none := by
  induction records using List.reverseRecOn with
  | nil => split <;> rfl
  | append_singleton records r ih =>
    have hlast : addFiles t (records ++ [r]) =
        addFile t.toFiles (addFiles t records) r.2 (t.fullpath r.2) r.1 := by
      rw [addFiles, List.foldl_append]
      rfl
    have hadd : addFile t.toFiles (addFiles t records) r.2 (t.fullpath r.2) r.1 =
        if t.Regular r.2 then (addFiles t records).set r.2 (r.1, t.size (t.fullpath r.2))
        else addFiles t records := by
      by_cases hregular : t.Regular r.2
      · rw [if_pos hregular, addFile, hregular.1, hregular.2]
        rfl
      · rw [if_neg hregular, addFile]
        by_cases hexists : t.pathExists (t.fullpath r.2) = true
        · have hlink : t.islink (t.fullpath r.2) = true :=
            Bool.not_eq_false _ ▸ fun hlink => hregular ⟨hexists, hlink⟩
          rw [hexists, hlink]
          rfl
        · rw [Bool.eq_false_iff.mpr hexists]
          rfl
    rw [hlast, hadd, lastOwner_append]
    by_cases hr : r.2 = path
    · subst hr
      by_cases hregular : t.Regular r.2
      · rw [if_pos hregular, if_pos hregular, if_pos rfl, Dict.get?_set_self, Option.map_some]
      · rw [if_neg hregular, if_neg hregular, ih, if_neg hregular]
    · rw [if_neg hr, ← ih]
      split
      · exact Dict.get?_set_of_ne (Ne.symm hr)
      · rfl

/-! ### The counted files -/

/-- An entry with what stands before it is the first one, or is in the rest. -/
theorem exists_cons_split {α : Type*} {a b : α} {l : List α} {r : List α → Prop} :
    (∃ before after, a :: l = before ++ b :: after ∧ r before) ↔
      (a = b ∧ r []) ∨ ∃ before after, l = before ++ b :: after ∧ r (a :: before) := by
  constructor
  · rintro ⟨before, after, heq, hr⟩
    rcases List.cons_eq_append_iff.mp heq with ⟨rfl, hcons⟩ | ⟨before, rfl, hl⟩
    · exact .inl ⟨(List.cons.inj hcons).1.symm, hr⟩
    · exact .inr ⟨before, after, hl, hr⟩
  · rintro (⟨rfl, hr⟩ | ⟨before, after, rfl, hr⟩)
    · exact ⟨[], l, rfl, hr⟩
    · exact ⟨a :: before, after, rfl, hr⟩

namespace Target

variable (t : Target) {records : List (Text × Text)} {fileList : Text}

/-- The files whose inode is new. -/
def firsts : List ℕ → List Text → List Text
  | _, [] => []
  | seen, path :: walk =>
    if t.islink (t.fullpath path) ∨ t.inode (t.fullpath path) ∈ seen then firsts seen walk
    else path :: firsts (t.inode (t.fullpath path) :: seen) walk

theorem mem_firsts {seen : List ℕ} {walk : List Text} {path : Text} :
    path ∈ t.firsts seen walk ↔ ∃ before after, walk = before ++ path :: after ∧
      t.islink (t.fullpath path) = false ∧ t.inode (t.fullpath path) ∉ seen ∧
      ∀ q ∈ before, t.islink (t.fullpath q) = false →
        t.inode (t.fullpath q) ≠ t.inode (t.fullpath path) := by
  induction walk generalizing seen with
  | nil => simp [firsts]
  | cons p walk ih =>
    rw [exists_cons_split, firsts]
    split
    next hp =>
      rw [ih]
      constructor
      · rintro ⟨before, after, rfl, hlink, hseen, hbefore⟩
        refine .inr ⟨before, after, rfl, hlink, hseen, List.forall_mem_cons.mpr ⟨?_, hbefore⟩⟩
        intro hlink' heq
        rcases hp with hp | hp
        · rw [hlink'] at hp
          exact Bool.false_ne_true hp
        · exact hseen (heq ▸ hp)
      · rintro (⟨rfl, hlink, hseen, -⟩ | ⟨before, after, hwalk, hlink, hseen, hbefore⟩)
        · rw [hlink] at hp
          exact absurd hp (by simpa using hseen)
        · exact ⟨before, after, hwalk, hlink, hseen, (List.forall_mem_cons.mp hbefore).2⟩
    next hp =>
      rw [not_or, Bool.not_eq_true] at hp
      rw [List.mem_cons, ih]
      constructor
      · rintro (rfl | ⟨before, after, hwalk, hlink, hseen, hbefore⟩)
        · exact .inl ⟨rfl, hp.1, hp.2, nofun⟩
        · rw [List.mem_cons, not_or] at hseen
          exact .inr ⟨before, after, hwalk, hlink, hseen.2,
            List.forall_mem_cons.mpr ⟨fun _ => Ne.symm hseen.1, hbefore⟩⟩
      · rintro (⟨rfl, -⟩ | ⟨before, after, hwalk, hlink, hseen, hbefore⟩)
        · exact .inl rfl
        · obtain ⟨hfirst, hbefore⟩ := List.forall_mem_cons.mp hbefore
          refine .inr ⟨before, after, hwalk, hlink, ?_, hbefore⟩
          rw [List.mem_cons, not_or]
          exact ⟨Ne.symm (hfirst hp.1), hseen⟩

theorem mem_firsts_walk {path : Text} : path ∈ t.firsts [] t.walk ↔ t.Counted path := by
  rw [mem_firsts, Counted]
  simp

/-- The sizes of the files are added to those of their owners. -/
def addSizes (pkgOf : Text → Text) (pkgsize : Dict Text ℕ) (files : List Text) : Dict Text ℕ :=
  files.foldl (fun pkgsize f =>
    pkgsize.set (pkgOf f) ((pkgsize.get? (pkgOf f)).getD 0 + t.size (t.fullpath f))) pkgsize

theorem countFile_eq (filesdict : FilesDict) (seen : List ℕ) (pkgsize : Dict Text ℕ) (path : Text) :
    t.countFile filesdict (seen, pkgsize) path =
      if t.islink (t.fullpath path) ∨ t.inode (t.fullpath path) ∈ seen then (seen, pkgsize)
      else
        let pkg := ((filesdict.get? path).map Prod.fst).getD "unknown".toList
        (t.inode (t.fullpath path) :: seen,
          pkgsize.set pkg ((pkgsize.get? pkg).getD 0 + t.size (t.fullpath path))) := by
  unfold countFile
  dsimp only
  rw [← ite_or]
  cases filesdict.get? path <;> rfl

theorem foldl_countFile (filesdict : FilesDict) (walk : List Text) (seen : List ℕ)
    (pkgsize : Dict Text ℕ) :
    (walk.foldl (t.countFile filesdict) (seen, pkgsize)).2 =
      t.addSizes (fun f => ((filesdict.get? f).map Prod.fst).getD "unknown".toList) pkgsize
        (t.firsts seen walk) := by
  induction walk generalizing seen pkgsize with
  | nil => rfl
  | cons p walk ih =>
    rw [List.foldl_cons, countFile_eq, firsts]
    split
    · exact ih _ _
    · exact ih _ _

variable {t} {pkgOf : Text → Text}

/-- The size of a package is that of the files counted for it. -/
theorem get?_addSizes (pkgsize : Dict Text ℕ) (files : List Text) (pkg : Text) :
    ((t.addSizes pkgOf pkgsize files).get? pkg).getD 0 = (pkgsize.get? pkg).getD 0 +
      ((files.filter (pkgOf · = pkg)).map fun f => t.size (t.fullpath f)).sum := by
  induction files generalizing pkgsize with
  | nil => rfl
  | cons f files ih =>
    rw [addSizes, List.foldl_cons, ← addSizes, ih, Dict.get?_set]
    by_cases hf : pkg = pkgOf f
    · rw [if_pos hf, List.filter_cons_of_pos (by simpa using hf.symm), List.map_cons, List.sum_cons,
        Option.getD_some, hf, add_assoc]
    · rw [if_neg hf, List.filter_cons_of_neg (by simpa using Ne.symm hf)]

theorem sum_addSizes (pkgsize : Dict Text ℕ) (files : List Text) :
    ((t.addSizes pkgOf pkgsize files).entries.map Prod.snd).sum =
      (pkgsize.entries.map Prod.snd).sum + (files.map fun f => t.size (t.fullpath f)).sum := by
  induction files generalizing pkgsize with
  | nil => rfl
  | cons f files ih =>
    rw [addSizes, List.foldl_cons, ← addSizes, ih, Dict.sum_set_add, List.map_cons, List.sum_cons,
      add_assoc]

theorem mem_keys_addSizes (pkgsize : Dict Text ℕ) (files : List Text) (pkg : Text) :
    pkg ∈ (t.addSizes pkgOf pkgsize files).keys ↔ pkg ∈ pkgsize.keys ∨ ∃ f ∈ files, pkgOf f = pkg := by
  induction files generalizing pkgsize with
  | nil => simp [addSizes]
  | cons f files ih =>
    rw [addSizes, List.foldl_cons, ← addSizes, ih, Dict.mem_keys_set, or_assoc,
      @eq_comm _ pkg (pkgOf f)]
    simp

/-- A counted file is counted for the package of its last line. -/
theorem buildPackageSize_eq (records : List (Text × Text)) :
    t.buildPackageSize (addFiles t records) =
      t.addSizes (owner records) Dict.empty (t.firsts [] t.walk) := by
  rw [buildPackageSize, foldl_countFile, addSizes, addSizes]
  refine List.foldl_ext _ _ _ fun d f hf => ?_
  obtain ⟨before, after, hwalk, hlink, -⟩ := t.mem_firsts_walk.mp hf
  have hregular : t.Regular f := ⟨t.walk_exists f (hwalk ▸ by simp) hlink, hlink⟩
  rw [get?_addFiles, if_pos hregular, Option.map_map, owner]
  cases lastOwner records f <;> rfl

theorem sum_map_ne_zero {files : List Text} :
    (files.map fun f => t.size (t.fullpath f)).sum ≠ 0 ↔ ∃ f ∈ files, t.size (t.fullpath f) ≠ 0 := by
  rw [Ne, List.sum_eq_zero_iff]
  simp

/-- A package has a size if a file that is not empty is counted for it. -/
theorem size_ne_zero_iff (records : List (Text × Text)) (pkg : Text) :
    ((t.buildPackageSize (addFiles t records)).get? pkg).getD 0 ≠ 0 ↔
      ∃ f, t.Counted f ∧ owner records f = pkg ∧ t.size (t.fullpath f) ≠ 0 := by
  rw [buildPackageSize_eq, get?_addSizes, Dict.get?_empty, Option.getD_none, zero_add,
    sum_map_ne_zero]
  simp [mem_firsts_walk, and_assoc]

theorem total_ne_zero_iff (records : List (Text × Text)) :
    ((t.buildPackageSize (addFiles t records)).entries.map Prod.snd).sum ≠ 0 ↔
      ∃ f, t.Counted f ∧ t.size (t.fullpath f) ≠ 0 := by
  rw [buildPackageSize_eq, sum_addSizes, Dict.empty, List.map_nil, List.sum_nil, zero_add, sum_map_ne_zero]
  simp [mem_firsts_walk]

theorem entries_ne_nil_iff (records : List (Text × Text)) :
    (∃ e, e ∈ (t.buildPackageSize (addFiles t records)).entries) ↔ ∃ f, t.Counted f := by
  have hkeys : ∀ pkg, pkg ∈ (t.buildPackageSize (addFiles t records)).keys ↔
      ∃ f, t.Counted f ∧ owner records f = pkg := by
    intro pkg
    rw [buildPackageSize_eq, mem_keys_addSizes]
    simp [mem_firsts_walk, Dict.keys_empty]
  constructor
  · rintro ⟨e, he⟩
    obtain ⟨f, hf, -⟩ := (hkeys e.1).mp (List.mem_map_of_mem he)
    exact ⟨f, hf⟩
  · rintro ⟨f, hf⟩
    obtain ⟨e, he, -⟩ := List.mem_map.mp ((hkeys (owner records f)).mpr ⟨f, hf, rfl⟩)
    exact ⟨e, he⟩

end Target

/-! ### The divisions -/

theorem percent_isSome_iff (size total : ℕ) : (percent size total).isSome ↔ total ≠ 0 := by
  unfold percent
  split <;> simp [*]

theorem mapM_isSome_iff {α β : Type*} {f : α → Option β} (l : List α) :
    (l.mapM f).isSome ↔ ∀ a ∈ l, (f a).isSome := by
  induction l with
  | nil => simp
  | cons a l ih =>
    rw [List.mapM_cons, List.forall_mem_cons, ← ih]
    cases f a <;> cases l.mapM f <;> simp

theorem genFilesCsv_isSome_iff (filesdict : FilesDict) (pkgsizes : Dict Text ℕ) :
    (genFilesCsv filesdict pkgsizes).isSome ↔ ∀ e ∈ filesdict.entries,
      (pkgsizes.get? e.2.1).getD 0 ≠ 0 ∧ (pkgsizes.entries.map Prod.snd).sum ≠ 0 := by
  rw [genFilesCsv, mapM_isSome_iff]
  refine forall₂_congr fun e _ => ?_
  rw [← percent_isSome_iff e.2.2, ← percent_isSome_iff e.2.2]
  dsimp only
  cases percent e.2.2 _ <;> cases percent e.2.2 _ <;> simp

theorem genPackagesCsv_isSome_iff (pkgsizes : Dict Text ℕ) :
    (genPackagesCsv pkgsizes).isSome ↔
      ((∃ e, e ∈ pkgsizes.entries) → (pkgsizes.entries.map Prod.snd).sum ≠ 0) := by
  rw [genPackagesCsv, mapM_isSome_iff, forall_exists_index]
  refine forall₂_congr fun e _ => ?_
  rw [← percent_isSome_iff e.2]
  dsimp only
  cases percent e.2 _ <;> simp

/-- For every list and target directory both tables are written if and only if the lines of the
list can be split, for every listed file a file that is not empty is counted for its package, and
the files that are counted, if there are any, are not all empty. -/
theorem sizeStats_isSome_iff (t : Target) (fileList : Text) : (sizeStats t fileList).isSome ↔
    ∃ records, (readlines fileList).mapM parseLine = some records ∧
      (∀ path pkg, t.Regular path → lastOwner records path = some pkg →
        ∃ f, t.Counted f ∧ Target.owner records f = pkg ∧ t.size (t.fullpath f) ≠ 0) ∧
      ((∃ f, t.Counted f) → ∃ f, t.Counted f ∧ t.size (t.fullpath f) ≠ 0) := by
  unfold sizeStats
  rw [buildPackageDict_eq]
  cases (readlines fileList).mapM parseLine with
  | none => simp
  | some records =>
    simp only [Option.map_some, Option.bind_eq_bind, Option.bind_some, Option.some_inj,
      exists_eq_left']
    have hboth : ∀ {α β : Type} (a : Option α) (b : Option β),
        (a.bind fun x => b.bind fun y => some (x, y)).isSome ↔ a.isSome ∧ b.isSome := by
      intro α β a b
      cases a <;> cases b <;> simp
    rw [hboth, genFilesCsv_isSome_iff, genPackagesCsv_isSome_iff, Target.entries_ne_nil_iff,
      Target.total_ne_zero_iff]
    refine and_congr_left fun _ => ?_
    constructor
    · intro h path pkg hregular hlast
      have hget : (addFiles t records).get? path = some (pkg, t.size (t.fullpath path)) := by
        rw [get?_addFiles, if_pos hregular, hlast, Option.map_some]
      exact (Target.size_ne_zero_iff records pkg).mp (h _ (Dict.mem_of_get? hget)).1
    · rintro h ⟨path, pkg, size⟩ he
      have hget := Dict.get?_of_mem he
      rw [get?_addFiles] at hget
      split at hget
      next hregular =>
        obtain ⟨pkg', hlast, heq⟩ := Option.map_eq_some_iff.mp hget
        obtain ⟨rfl, -⟩ := Prod.mk.inj heq
        obtain ⟨f, hcounted, howner, hsize⟩ := h path pkg' hregular hlast
        exact ⟨(Target.size_ne_zero_iff records pkg').mpr ⟨f, hcounted, howner, hsize⟩, f, hcounted,
          hsize⟩
      next => cases hget

/-- A shell of busybox with 800 bytes, and an empty file of another package. -/
def emptyConfig : Target where
  pathExists _ := true
  islink _ := false
  size path := if path = "/o/target/bin/sh".toList then 800 else 0
  builddir := "/o".toList
  inode path := path.length
  walk := ["bin/sh".toList, "etc/empty.conf".toList]
  walk_exists _ _ _ := rfl

/-- A package with nothing but an empty file has the size 0. -/
theorem sizeStats_empty :
    (readlines "busybox,./bin/sh\nfoo,./etc/empty.conf\n".toList).mapM parseLine =
        some [("busybox".toList, "bin/sh".toList), ("foo".toList, "etc/empty.conf".toList)] ∧
      sizeStats emptyConfig "busybox,./bin/sh\nfoo,./etc/empty.conf\n".toList = none :=
  ⟨rfl, rfl⟩

end CargosBuildroot.Statistics
