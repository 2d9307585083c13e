import Mathlib.Data.List.Nodup
import CargosBuildroot.Makedevs.Table

/-! The nodes of a device line. The numbers of an accepted line are at most `0xfffff`, so the
loop over the nodes ends and their names differ and fit the buffer, but the product that is
added to the minor number can be larger than a word. -/

namespace CargosBuildroot.Makedevs

open Shell

/-- `strlen(full_name) + sizeof(int)*3 + 2` -/
def Entry.bufferSize (e : Entry) : ℕ := e.path.length + 4 * 3 + 2

/-- The number of nodes that the line is for. -/
def Entry.nodeCount (e : Entry) : ℕ := max e.count.toNat 1

/-- The names are numbered from `start` on if there are two or more. -/
def Entry.nodeName (e : Entry) (j : ℕ) : Text :=
  if 2 ≤ e.count.toNat then e.path ++ Nat.toDigits 10 (e.start.toNat + j) else e.path

/-- The paths and the minor numbers in the calls of `mknod`. -/
def mknods (calls : List Call) : List (Text × UInt32) :=
  calls.filterMap fun
    | .mknod path _ _ minor => some (path, minor)
    | _ => none

/-- The loop ends, and makes the nodes of the line, whatever fails in between. -/
structure Exact (e : Entry) : Prop where
  ends : ∀ rounds, e.nodeCount ≤ rounds → nodeLoop (e.start + e.last) rounds e.start = e.nodes
  count : ∀ (σ : Type) (k : System σ) (s : σ), (mknods (perform k e s).1).length = e.nodeCount
  distinct : ∀ (σ : Type) (k : System σ) (s : σ), ((mknods (perform k e s).1).map Prod.fst).Nodup
  fits : ∀ (σ : Type) (k : System σ) (s : σ), ∀ node ∈ mknods (perform k e s).1,
    node.1.length + 1 ≤ e.bufferSize
  node : ∀ (σ : Type) (k : System σ) (s : σ), ∀ j < e.nodeCount, ∃ minor,
    (mknods (perform k e s).1)[j]? = some (e.nodeName j, minor) ∧
      minor.toNat = e.minor.toNat + j * e.increment.toNat

/-! ### The bounds of an accepted line -/

structure Bounded (e : Entry) : Prop where
  minor : e.minor.toNat ≤ 0xfffff
  start : e.start.toNat ≤ 0xfffff
  increment : e.increment.toNat ≤ 0xfffff
  count : e.count.toNat ≤ 0xfffff

theorem bounded_of_readEntry {env : Env} {b b' : Buffers} {line : Text} {e : Entry}
    (h : readEntry env b line = (.entry e, b')) : Bounded e := by
  rw [readEntry] at h
  split at h
  · split at h <;> cases h
  next hrejected =>
    obtain ⟨hminor, hstart, hcount, hincrement⟩ := numbers_le_of_accepted hrejected
    split at h
    · cases h
    · split at h
      · cases h
      · split at h
        · cases h
        · cases h
          exact ⟨hminor, hstart, hincrement, hcount⟩

/-! ### The loop -/

theorem nodeLoop_eq {stop : UInt32} (hstop : stop.toNat + 1 < 2 ^ 32) {rounds : ℕ} {i : UInt32}
    (h : stop.toNat + 1 - i.toNat ≤ rounds) :
    nodeLoop stop rounds i =
      (List.range (stop.toNat + 1 - i.toNat)).map fun j => i + UInt32.ofNat j := by
  induction rounds generalizing i with
  | zero =>
    rw [Nat.le_zero.mp h]
    rfl
  | succ rounds ih =>
    rw [nodeLoop]
    split_ifs with hi
    · have hle : i.toNat ≤ stop.toNat := UInt32.le_iff_toNat_le.mp hi
      have hnext : (i + 1).toNat = i.toNat + 1 := by
        rw [UInt32.toNat_add, UInt32.toNat_one]
        omega
      obtain ⟨n, hn⟩ : ∃ n, stop.toNat + 1 - i.toNat = n + 1 := ⟨stop.toNat - i.toNat, by omega⟩
      rw [ih (by omega), hn, hnext, List.range_succ_eq_map, List.map_cons, List.map_map]
      have hlen : stop.toNat + 1 - (i.toNat + 1) = n := by omega
      rw [hlen]
      congr 1
      · simp
      · refine List.map_congr_left fun j _ => ?_
        rw [Function.comp_apply, UInt32.add_assoc, Nat.succ_eq_add_one, Nat.add_comm j 1,
          UInt32.ofNat_add]
        rfl
    · have hlt : stop.toNat < i.toNat := by
        have := mt UInt32.le_iff_toNat_le.mpr hi
        omega
      rw [Nat.sub_eq_zero_of_le hlt]
      rfl

section

variable {e : Entry}

theorem last_toNat (e : Entry) : e.last.toNat = e.nodeCount - 1 := by
  rw [Entry.last, Entry.nodeCount]
  split_ifs with h
  · have hpos : 1 ≤ e.count.toNat := by
      have := mt UInt32.toNat_inj.mp h
      rw [UInt32.toNat_zero] at this
      omega
    have hle : 1 ≤ e.count := UInt32.le_iff_toNat_le.mpr hpos
    rw [UInt32.toNat_sub_of_le _ _ hle, UInt32.toNat_one]
    omega
  · rw [not_not.mp h]
    rfl

theorem stop_toNat (h : Bounded e) :
    (e.start + e.last).toNat = e.start.toNat + (e.nodeCount - 1) := by
  have hstart := h.start
  have hcount := h.count
  rw [UInt32.toNat_add, last_toNat, Entry.nodeCount]
  exact Nat.mod_eq_of_lt (by omega)

theorem nodeLoop_bounded (h : Bounded e) {rounds : ℕ} (hrounds : e.nodeCount ≤ rounds) :
    nodeLoop (e.start + e.last) rounds e.start =
      (List.range e.nodeCount).map fun j => e.start + UInt32.ofNat j := by
  have hstart := h.start
  have hcount := h.count
  have hpos : 1 ≤ e.nodeCount := le_max_right _ _
  have hle : e.nodeCount ≤ 0xfffff := max_le hcount (by omega)
  have hlen : (e.start + e.last).toNat + 1 - e.start.toNat = e.nodeCount := by
    rw [stop_toNat h]
    omega
  rw [nodeLoop_eq (by rw [stop_toNat h]; omega) (by rw [hlen]; exact hrounds), hlen]

theorem nodes_eq (h : Bounded e) :
    e.nodes = (List.range e.nodeCount).map fun j => e.start + UInt32.ofNat j := by
  have hcount := h.count
  exact nodeLoop_bounded h (max_le (by omega) (by omega))

theorem node_toNat (h : Bounded e) {j : ℕ} (hj : j < e.nodeCount) :
    (e.start + UInt32.ofNat j).toNat = e.start.toNat + j := by
  have hstart := h.start
  have hle : e.nodeCount ≤ 0xfffff := max_le h.count (by omega)
  rw [UInt32.toNat_add, UInt32.toNat_ofNat', Nat.mod_eq_of_lt (a := j) (by omega)]
  exact Nat.mod_eq_of_lt (by omega)

theorem nodePath_eq (h : Bounded e) {j : ℕ} (hj : j < e.nodeCount) :
    e.nodePath (e.start + UInt32.ofNat j) = e.nodeName j := by
  have hlast : e.last ≠ 0 ↔ 2 ≤ e.count.toNat := by
    rw [Ne, ← UInt32.toNat_inj, last_toNat, UInt32.toNat_zero, Entry.nodeCount]
    omega
  rw [Entry.nodePath, Entry.nodeName, node_toNat h hj, Nat.toList_repr]
  simp only [hlast]

/-- The minor number in the call, as a number of a word. -/
theorem minor_toNat (e : Entry) (j : ℕ) :
    (e.minor + (e.start + UInt32.ofNat j - e.start) * e.increment).toNat =
      (e.minor.toNat + j * e.increment.toNat) % 2 ^ 32 := by
  have hsub : e.start + UInt32.ofNat j - e.start = UInt32.ofNat j := by
    rw [UInt32.add_comm, UInt32.add_sub_cancel]
  rw [hsub, UInt32.toNat_add, UInt32.toNat_mul, UInt32.toNat_ofNat']
  simp [Nat.add_mod, Nat.mul_mod]

end

/-! ### The calls -/

section

variable {e : Entry} {σ : Type} {k : System σ} {s : σ}

theorem mknods_append (a b : List Call) : mknods (a ++ b) = mknods a ++ mknods b :=
  List.filterMap_append

theorem mknods_attempt (mode i : UInt32) :
    mknods (attempt k (e.nodeCalls mode i) s).1 =
      [(e.nodePath i, e.minor + (i - e.start) * e.increment)] := by
  have howner : ∀ s, mknods (attempt k [.chown (e.nodePath i) e.uid e.gid,
      .chmod (e.nodePath i) mode] s).1 = [] := by
    intro s
    refine List.filterMap_eq_nil_iff.mpr fun c hc => ?_
    have hmem := attempt_subset _ hc
    simp only [List.mem_cons, List.not_mem_nil, or_false] at hmem
    rcases hmem with rfl | rfl <;> rfl
  rw [Entry.nodeCalls]
  rcases attempt_calls (k := k) (s := s) (.mknod (e.nodePath i) mode e.major
      (e.minor + (i - e.start) * e.increment)) [.chown (e.nodePath i) e.uid e.gid,
      .chmod (e.nodePath i) mode] with h | h
  · rw [h]
    rfl
  · rw [h, ← List.singleton_append, mknods_append, howner]
    rfl

theorem mknods_attemptEach (mode : UInt32) (nodes : List UInt32) :
    mknods (attemptEach k (nodes.map (e.nodeCalls mode)) s).1 =
      nodes.map fun i => (e.nodePath i, e.minor + (i - e.start) * e.increment) := by
  induction nodes generalizing s with
  | nil => rfl
  | cons i nodes ih =>
    rw [List.map_cons, attemptEach]
    simp only [mknods_append, mknods_attempt, ih, List.map_cons, List.singleton_append]

theorem mknods_perform (hd : e.type ≠ 'd') (hf : e.type ≠ 'f') {t : UInt32}
    (ht : nodeType e.type = some t) : mknods (perform k e s).1 =
      e.nodes.map fun i => (e.nodePath i, e.minor + (i - e.start) * e.increment) := by
  rw [perform, if_neg hd, if_neg hf, ht]
  exact mknods_attemptEach _ _

end

theorem nodeName_inj {e : Entry} {i j : ℕ} (hi : i < e.nodeCount) (hj : j < e.nodeCount)
    (h : e.nodeName i = e.nodeName j) : i = j := by
  rw [Entry.nodeName, Entry.nodeName] at h
  rw [Entry.nodeCount] at hi hj
  split_ifs at h with hcount
  · have hdigits := congrArg (Nat.ofDigitChars 10 · 0) (List.append_cancel_left h)
    simp only [Nat.ofDigitChars_ten_toDigits] at hdigits
    omega
  · omega

theorem nodeName_length {e : Entry} (h : Bounded e) {j : ℕ} (hj : j < e.nodeCount) :
    (e.nodeName j).length + 1 ≤ e.bufferSize := by
  have hstart := h.start
  have hle : e.nodeCount ≤ 0xfffff := max_le h.count (by omega)
  rw [Entry.nodeName, Entry.bufferSize]
  split_ifs
  · have hdigits : (Nat.toDigits 10 (e.start.toNat + j)).length ≤ 10 :=
      (Nat.length_toDigits_le_iff (by omega) (by omega)).mpr (by omega)
    rw [List.length_append]
    omega
  · omega

/-- The nodes of an accepted device line are those it is for exactly when the last minor number
fits a word. -/
theorem nodes_exact_iff (env : Env) (b b' : Buffers) (line : Text) (e : Entry)
    (h : readEntry env b line = (.entry e, b')) (ht : e.type = 'c' ∨ e.type = 'b' ∨ e.type = 'p') :
    Exact e ↔ e.minor.toNat + (e.nodeCount - 1) * e.increment.toNat < 2 ^ 32 := by
  have hbound := bounded_of_readEntry h
  obtain ⟨hd, hf, t, hnode⟩ : e.type ≠ 'd' ∧ e.type ≠ 'f' ∧ ∃ t, nodeType e.type = some t := by
    rcases ht with ht | ht | ht <;> rw [ht] <;> exact ⟨by decide, by decide, _, rfl⟩
  have hmade : ∀ (σ : Type) (k : System σ) (s : σ), mknods (perform k e s).1 =
      (List.range e.nodeCount).map fun j => (e.nodeName j,
        e.minor + (e.start + UInt32.ofNat j - e.start) * e.increment) := by
    intro σ k s
    rw [mknods_perform hd hf hnode, nodes_eq hbound, List.map_map]
    refine List.map_congr_left fun j hj => ?_
    rw [Function.comp_apply, nodePath_eq hbound (List.mem_range.mp hj)]
  have hpos : 1 ≤ e.nodeCount := le_max_right _ _
  constructor
  · intro hexact
    obtain ⟨minor, hminor, heq⟩ := hexact.node Unit (fun _ s => (true, s)) () (e.nodeCount - 1)
      (by omega)
    rw [hmade, List.getElem?_map, List.getElem?_range (by omega), Option.map_some, Option.some_inj,
      Prod.mk.injEq] at hminor
    rw [← heq, ← hminor.2]
    exact UInt32.toNat_lt _
  · intro hlast
    refine ⟨fun rounds hrounds => ?_, fun σ k s => ?_, fun σ k s => ?_, fun σ k s => ?_,
      fun σ k s j hj => ?_⟩
    · rw [nodeLoop_bounded hbound hrounds, nodes_eq hbound]
    · rw [hmade, List.length_map, List.length_range]
    · rw [hmade, List.map_map]
      refine List.Nodup.map_on (fun i hi j hj hij => ?_) List.nodup_range
      exact nodeName_inj (List.mem_range.mp hi) (List.mem_range.mp hj) hij
    · intro node hmem
      rw [hmade] at hmem
      obtain ⟨j, hj, rfl⟩ := List.mem_map.mp hmem
      exact nodeName_length hbound (List.mem_range.mp hj)
    · refine ⟨_, by rw [hmade, List.getElem?_map, List.getElem?_range hj, Option.map_some], ?_⟩
      have hle : j * e.increment.toNat ≤ (e.nodeCount - 1) * e.increment.toNat :=
        Nat.mul_le_mul_right _ (by omega)
      rw [minor_toNat]
      exact Nat.mod_eq_of_lt (by omega)

/-- Every name is known by its number. -/
def numericEnv : Env :=
  { rootdir := "/target".toList, passwd := [], group := [], getuid := 0, getgid := 0,
    extendedAttributes := false }

def noBuffers : Buffers := ⟨[], ' ', [], []⟩

/-- The line for the partitions in the text of `bb_show_usage`. -/
def hdaEntry : Entry :=
  { path := "/target/dev/hda".toList, type := 'b', mode := 0o640, uid := 0, gid := 0, major := 3,
    minor := 1, start := 1, increment := 1, count := 15 }

theorem nodes_exact_hda : Exact hdaEntry :=
  (nodes_exact_iff numericEnv noBuffers ⟨"/dev/hda".toList, 'b', "0".toList, "0".toList⟩
    "/dev/hda b 640 0 0 3 1 1 1 15".toList hdaEntry (by decide) (by decide)).mpr (by decide)

def wideEntry : Entry :=
  { path := "/target/dev/x".toList, type := 'c', mode := 0o640, uid := 0, gid := 0, major := 3,
    minor := 0, start := 0, increment := 1048575, count := 4098 }

/-- The minor number of the last node of this line is 4097 times 1048575, which is more than
a word holds. -/
theorem nodes_wrap : readEntry numericEnv noBuffers
    "/dev/x c 640 0 0 3 0 0 1048575 4098".toList =
      (.entry wideEntry, ⟨"/dev/x".toList, 'c', "0".toList, "0".toList⟩) ∧ ¬ Exact wideEntry := by
  refine ⟨by decide, fun hexact => ?_⟩
  obtain ⟨minor, _, heq⟩ := hexact.node Unit (fun _ s => (true, s)) () 4097 (by decide)
  have hlt := minor.toNat_lt
  rw [heq] at hlt
  exact absurd hlt (by decide)

end CargosBuildroot.Makedevs
