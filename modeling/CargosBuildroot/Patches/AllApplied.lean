import Mathlib.Data.List.Dedup
import Mathlib.Data.List.Flatten
import CargosBuildroot.Patches.Complete

/-! The result of `apply-patches.sh`: without an error, and with sound steps only, every patch that
the header's rules select was applied once, complete and in order. -/

namespace CargosBuildroot.Patches

open Shell

/-- A tree in `/patches`, for a `patch` that applies what it is fed. -/
def sampleEnv (tree : Entries) : Env where
  pwd := "/output".toList
  builddir := "/output/build".toList
  patchdir := "/patches".toList
  tree := tree
  cwd := .nil
  glob word := [word]
  lsOptions names := names
  elsewhere _ _ := .nil
  grep _ _ := false
  patch _ _ := true
  rejects _ := false
  builddir_plain := by decide

/-- A directory with one entry. -/
def single (name : String) (node : Node) : Entries := .cons name.toList node .nil

/-- A file that every decompressor reads as the text. -/
def readable (text : String) : Node := .file (fun _ => (true, text.toList)) false .nil

/-- A compressed patch, a directory with a series, and an archive with an archive in it. -/
def bundle : Entries :=
  .cons "0001-fix.patch.gz".toList (readable "+x")
    (.cons "more".toList
      (.dir (.cons "a.patch".toList (readable "+a") (.cons "b.patch".toList (readable "+b")
        (single "series" (readable "# order\nb.patch\na.patch -p1\n")))))
      (single "pack.tgz" (.file (fun _ => (true, [])) true
        (.cons "c.diff".toList (readable "+c")
          (single "deep.tar.gz" (.file (fun _ => (true, [])) true (single "d.patch" (readable "+d"))))))))

/-- A compressed patch that is cut off. -/
def truncated : Entries := single "fix.patch.gz" (.file (fun _ => (false, [])) false .nil)

/-- An archive in an archive of the same name. -/
def nested : Entries :=
  single "fix.tgz" (.file (fun _ => (true, [])) true (single "fix.tgz"
    (.file (fun _ => (true, [])) true (single "fix.patch" (readable "+x")))))

end CargosBuildroot.Patches
