import CargosBuildroot.Makedevs.Nodes
import CargosBuildroot.Makedevs.Independence
import CargosBuildroot.Sed.Replace

/-! The blank entries of a device table. The usage text allows a `-` for a number, but `sscanf`
stops there, and the numbers behind it are 0 as well. -/

namespace CargosBuildroot.Makedevs

open Shell

/-! ### Lines by columns -/

structure Gap where
  text : Text
  ne_nil : text ≠ []
  space : ∀ c ∈ text, isspace c = true

/-- A word that a buffer of `n + 1` characters holds. -/
structure Word (n : ℕ) where
  text : Text
  ne_nil : text ≠ []
  no_space : ∀ c ∈ text, isspace c = false
  length_le : text.length ≤ n

structure Number where
  digits : Text
  ne_nil : digits ≠ []
  isDigit : ∀ c ∈ digits, isDigit 10 c = true

/-- A number, or a `-` for none. -/
structure Column where
  gap : Gap
  number : Option Number

/-- The number as `%u` reads it. -/
def Number.value (n : Number) : UInt32 := UInt32.ofNat (signed false (digitsValue 10 n.digits))

def Number.zero : Number := ⟨['0'], by decide, List.forall_mem_singleton.mpr rfl⟩

namespace Column

def text (c : Column) : Text := c.gap.text ++ c.number.elim ['-'] Number.digits

/-- The number, 0 for a `-`. -/
def value (c : Column) : UInt32 := c.number.elim 0 Number.value

/-- 0 in place of a `-`. -/
def zeroed (c : Column) : Column := { c with number := some (c.number.getD .zero) }

end Column

/-- A line with a name, a type, a mode, an owner and five columns. -/
structure EntryLine where
  indent : Text
  name : Word 4095
  typeGap : Gap
  type : Char
  modeGap : Gap
  mode : Text
  userGap : Gap
  user : Word 40
  groupGap : Gap
  group : Word 40
  major : Column
  minor : Column
  start : Column
  increment : Column
  count : Column
  rest : Text
  indent_space : ∀ c ∈ indent, isspace c = true
  not_comment : name.text.head? ≠ some '#'
  not_xattr : ¬ "|xattr".toList <+: name.text
  type_not_space : isspace type = false
  mode_ne_nil : mode ≠ []
  mode_digits : ∀ c ∈ mode, isDigit 8 c = true
  rest_end : FieldEnd rest

/-- The values of the five columns. -/
structure Numbers where
  major : UInt32
  minor : UInt32
  start : UInt32
  increment : UInt32
  count : UInt32

/-- The check on the numbers. -/
def Numbers.tooLarge (n : Numbers) : Bool :=
  0xfffff < n.major ||| n.minor ||| n.start ||| n.count ||| n.increment

namespace EntryLine

def numbersText (l : EntryLine) : Text :=
  l.major.text ++ (l.minor.text ++ (l.start.text ++ (l.increment.text ++ (l.count.text ++ l.rest))))

def text (l : EntryLine) : Text :=
  l.indent ++ (l.name.text ++ (l.typeGap.text ++ l.type :: (l.modeGap.text ++ (l.mode ++
    (l.userGap.text ++ (l.user.text ++ (l.groupGap.text ++ (l.group.text ++ l.numbersText))))))))

/-- The line with a 0 in place of every `-`. -/
def zeroed (l : EntryLine) : EntryLine :=
  { l with
    major := l.major.zeroed
    minor := l.minor.zeroed
    start := l.start.zeroed
    increment := l.increment.zeroed
    count := l.count.zeroed }

def columns (l : EntryLine) : List Column := [l.major, l.minor, l.start, l.increment, l.count]

/-- The numbers of the line, 0 for every `-`. -/
def given (l : EntryLine) : Numbers :=
  ⟨l.major.value, l.minor.value, l.start.value, l.increment.value, l.count.value⟩

/-- The numbers before the first `-`, and 0 from there on. -/
def seen (l : EntryLine) : Numbers :=
  match l.major.number, l.minor.number, l.start.number, l.increment.number with
  | none, _, _, _ => ⟨0, 0, 0, 0, 0⟩
  | some _, none, _, _ => ⟨l.major.value, 0, 0, 0, 0⟩
  | some _, some _, none, _ => ⟨l.major.value, l.minor.value, 0, 0, 0⟩
  | some _, some _, some _, none => ⟨l.major.value, l.minor.value, l.start.value, 0, 0⟩
  | some _, some _, some _, some _ => l.given

end EntryLine

/-- The two lines do the same, whatever the environment, the file system and the lines before. -/
def SameEffect (line line' : Text) : Prop :=
  ∀ (env : Env) (σ : Type) (k : System σ) (st : State) (s : σ),
    mainLine env k line st s = mainLine env k line' st s

/-- There is a `-` before the count. -/
def EntryLine.BlankBeforeCount (l : EntryLine) : Prop :=
  ∃ c ∈ [l.major, l.minor, l.start, l.increment], c.number = none

/-- A number before the first `-` is too large, or none is too large and the numbers behind it
do not matter: the line is not for a device, or it is for one node, with the minor number 0 if
the major number is a `-`. -/
def EntryLine.Harmless (l : EntryLine) : Prop :=
  (∃ c ∈ l.columns.takeWhile (·.number.isSome), 0xfffff < c.value) ∨
    (∀ c ∈ l.columns, c.value ≤ 0xfffff) ∧
      ((nodeType l.type).isSome → (l.major.number = none → l.minor.value = 0) ∧
        (l.BlankBeforeCount → l.count.value ≤ 1))

/-! ### Scanning -/

theorem Gap.fieldEnd (g : Gap) (t : Text) : FieldEnd (g.text ++ t) := by
  rw [FieldEnd, head?_append g.ne_nil]
  exact fun c hc => g.space c (List.mem_of_head? hc)

theorem Column.fieldEnd (c : Column) (t : Text) : FieldEnd (c.text ++ t) := by
  rw [Column.text, List.append_assoc]
  exact c.gap.fieldEnd _

theorem scan_column (c : Column) (store : UInt32 → Scanned → Scanned) (cs : List Conversion)
    {rest : Text} (hend : FieldEnd rest) (s : Scanned) :
    scan (conversion (scanUnsigned 10) store :: cs) (c.text ++ rest) s = match c.number with
      | some n => scan cs rest { store n.value s with assigned := s.assigned + 1 }
      | none => s := by
  rw [scan_conversion, Column.text, List.append_assoc, scanUnsigned]
  cases c.number with
  | none =>
    have hnone := number_dash 10 c.gap.space hend
    rw [Option.elim_none, List.singleton_append, hnone]
    rfl
  | some n => rw [Option.elim_some, number_field c.gap.space n.ne_nil n.isDigit hend]; rfl

namespace EntryLine

variable (l : EntryLine)

/-- The line scanned up to the group. -/
def scannedHead : Scanned :=
  { assigned := 5
    name := some l.name.text
    type := some l.type
    mode := some (UInt32.ofNat (signed false (digitsValue 8 l.mode)))
    user := some l.user.text
    group := some l.group.text }

theorem numbersText_end : FieldEnd l.numbersText := l.major.fieldEnd _

theorem sscanf_text : sscanf l.text = scan (tableFormat.drop 5) l.numbersText l.scannedHead := by
  rw [sscanf, tableFormat, text, scan_conversion, scanString_field l.indent_space l.name.ne_nil
    l.name.no_space l.name.length_le (l.typeGap.fieldEnd _)]
  dsimp only
  rw [scan_conversion, scanChar_field l.typeGap.space l.type_not_space]
  dsimp only
  rw [scan_conversion, scanUnsigned, number_field l.modeGap.space l.mode_ne_nil l.mode_digits
    (l.userGap.fieldEnd _), Option.map_some]
  dsimp only
  rw [scan_conversion, scanString_field l.userGap.space l.user.ne_nil l.user.no_space
    l.user.length_le (l.groupGap.fieldEnd _)]
  dsimp only
  rw [scan_conversion, scanString_field l.groupGap.space l.group.ne_nil l.group.no_space
    l.group.length_le l.numbersText_end]
  rfl

/-- What a line of columns assigns. -/
structure Scans (s : Scanned) (n : Numbers) : Prop where
  assigned : 5 ≤ s.assigned
  name : s.name = some l.name.text
  type : s.type = some l.type
  mode : s.mode = l.scannedHead.mode
  user : s.user = some l.user.text
  group : s.group = some l.group.text
  major : s.major.getD 0 = n.major
  minor : s.minor.getD 0 = n.minor
  start : s.start.getD 0 = n.start
  increment : s.increment.getD 0 = n.increment
  count : s.count.getD 0 = n.count

theorem scans_seen : l.Scans (sscanf l.text) l.seen := by
  rw [sscanf_text, numbersText, tableFormat]
  simp only [List.drop_succ_cons, List.drop_zero]
  rw [scan_column _ _ _ (l.minor.fieldEnd _)]
  cases hmajor : l.major.number with
  | none => constructor <;> simp [scannedHead, seen, hmajor]
  | some major =>
    dsimp only
    rw [scan_column _ _ _ (l.start.fieldEnd _)]
    cases hminor : l.minor.number with
    | none => constructor <;> simp [scannedHead, seen, hmajor, hminor, Column.value]
    | some minor =>
      dsimp only
      rw [scan_column _ _ _ (l.increment.fieldEnd _)]
      cases hstart : l.start.number with
      | none => constructor <;> simp [scannedHead, seen, hmajor, hminor, hstart, Column.value]
      | some start =>
        dsimp only
        rw [scan_column _ _ _ (l.count.fieldEnd _)]
        cases hincrement : l.increment.number with
        | none =>
          constructor <;> simp [scannedHead, seen, hmajor, hminor, hstart, hincrement, Column.value]
        | some increment =>
          dsimp only
          rw [scan_column _ _ _ l.rest_end]
          cases hcount : l.count.number <;> constructor <;>
            simp [scannedHead, seen, given, hmajor, hminor, hstart, hincrement, hcount, Column.value,
              scan]

/-! ### What a line does -/

def buffers : Buffers := ⟨l.name.text, l.type, l.user.text, l.group.text⟩

def entry (env : Env) (uid gid : UInt32) (n : Numbers) : Entry :=
  ⟨concatPathFile env.rootdir l.name.text, l.type, l.scannedHead.mode.getD 0o755, uid, gid,
    n.major, n.minor, n.start, n.increment, n.count⟩

theorem buffers_store (b : Buffers) : b.store (sscanf l.text) = l.buffers := by
  have hscans := l.scans_seen
  simp only [Buffers.store, hscans.name, hscans.type, hscans.user, hscans.group, Option.getD_some,
    buffers]

theorem exists_text : ∃ c rest, l.text = c :: rest ∧ c ≠ '#' ∧ (isspace c = true ↔ l.indent ≠ []) := by
  rw [text]
  cases hindent : l.indent with
  | nil =>
    obtain ⟨c, rest, hname⟩ := List.exists_cons_of_ne_nil l.name.ne_nil
    refine ⟨c, _, by rw [hname]; rfl, ?_, ?_⟩
    · rintro rfl
      exact l.not_comment (by rw [hname]; rfl)
    · simp [l.name.no_space c (by rw [hname]; exact .head _)]
  | cons c rest =>
    have hspace : isspace c = true := l.indent_space c (by rw [hindent]; exact .head _)
    refine ⟨c, _, rfl, ?_, by simp [hspace]⟩
    rintro rfl
    exact absurd hspace (by decide)

theorem scanXattr_text : scanXattr l.text = none := by
  rw [scanXattr, if_neg]
  rw [List.isPrefixOf_iff_prefix]
  intro hprefix
  cases hindent : l.indent with
  | nil =>
    obtain ⟨c, gap, hgap⟩ := List.exists_cons_of_ne_nil l.typeGap.ne_nil
    have hspace : isspace c = true := l.typeGap.space c (by rw [hgap]; exact .head _)
    rw [text, hindent, List.nil_append, hgap, List.cons_append] at hprefix
    refine l.not_xattr (Sed.prefix_append_cons (d := c) ?_ hprefix)
    intro hmem
    have hall : "|xattr".toList.all (!isspace ·) = true := rfl
    have hnone := List.all_eq_true.mp hall c hmem
    rw [hspace] at hnone
    exact Bool.false_ne_true hnone
  | cons c rest =>
    have hspace : isspace c = true := l.indent_space c (by rw [hindent]; exact .head _)
    rw [text, hindent] at hprefix
    have hc : c = '|' := (List.cons_prefix_cons.mp hprefix).1.symm
    rw [hc] at hspace
    exact absurd hspace (by decide)

theorem readEntry_text (env : Env) (b : Buffers) : readEntry env b l.text =
    if l.seen.tooLarge then (if l.indent = [] then .invalid else .skipped, l.buffers)
    else match ownerId l.group.text env.group env.getgid, ownerId l.user.text env.passwd env.getuid with
      | some gid, some uid => (.entry (l.entry env uid gid l.seen), l.buffers)
      | _, _ => (.died, l.buffers) := by
  have hscans := l.scans_seen
  have hrejected : rejected (sscanf l.text) = l.seen.tooLarge := by
    have hassigned : ¬ (sscanf l.text).assigned < 2 := by
      have := hscans.assigned
      omega
    simp only [rejected, hassigned, decide_false, Bool.false_or, hscans.major, hscans.minor,
      hscans.start, hscans.count, hscans.increment, Numbers.tooLarge]
  unfold readEntry
  dsimp only
  rw [buffers_store, hrejected, hscans.mode, hscans.major, hscans.minor, hscans.start, hscans.count,
    hscans.increment]
  obtain ⟨c, rest, htext, hhash, hspace⟩ := l.exists_text
  have hskipped : (l.text = [] || l.text.head? = some '#' || l.text.head?.any isspace) =
      decide (l.indent ≠ []) := by
    rw [Bool.eq_iff_iff, htext]
    simp [hhash, hspace]
  have howners : l.buffers.group = l.group.text ∧ l.buffers.user = l.user.text := ⟨rfl, rfl⟩
  rw [hskipped, if_neg (show ¬ l.buffers.name.head? = some '#' from l.not_comment), howners.1,
    howners.2]
  cases l.seen.tooLarge with
  | true => by_cases hindent : l.indent = [] <;> simp [hindent]
  | false =>
    cases ownerId l.group.text env.group env.getgid with
    | none => rfl
    | some gid => cases ownerId l.user.text env.passwd env.getuid <;> rfl

variable {σ : Type}

/-- What the line does if it has the numbers `n`. -/
def run (env : Env) (k : System σ) (n : Numbers) (st : State) (s : σ) :
    Option State × List Call × σ :=
  if n.tooLarge then
    (some { st with buffers := l.buffers, failed := st.failed || l.indent = [] }, [], s)
  else match ownerId l.group.text env.group env.getgid, ownerId l.user.text env.passwd env.getuid with
    | some gid, some uid =>
      let e := l.entry env uid gid n
      let (calls, ok, s') := perform k e s
      (some ⟨l.buffers, some (e.fullName k s), st.failed || !ok⟩, calls, s')
    | _, _ => (none, [], s)

theorem mainLine_text (env : Env) (k : System σ) (st : State) (s : σ) :
    mainLine env k l.text st s = l.run env k l.seen st s := by
  rw [mainLine, scanXattr_text, readEntry_text, run]
  cases l.seen.tooLarge with
  | true => by_cases hindent : l.indent = [] <;> simp [hindent]
  | false =>
    cases ownerId l.group.text env.group env.getgid with
    | none => rfl
    | some gid => cases ownerId l.user.text env.passwd env.getuid <;> rfl

theorem seen_zeroed : l.zeroed.seen = l.given := by
  have hzero : Number.zero.value = 0 := by decide
  have hvalue : ∀ c : Column, c.zeroed.value = c.value := by
    intro c
    cases hc : c.number with
    | none => simp only [Column.value, Column.zeroed, hc, Option.getD_none, Option.elim_some,
        Option.elim_none, hzero]
    | some n => simp only [Column.value, Column.zeroed, hc, Option.getD_some, Option.elim_some]
  have hgiven : l.zeroed.seen = l.zeroed.given := rfl
  rw [hgiven, given, given]
  simp only [zeroed, hvalue]

theorem sameEffect_text : SameEffect l.text l.zeroed.text ↔
    ∀ (env : Env) (σ : Type) (k : System σ) (st : State) (s : σ),
      l.run env k l.seen st s = l.run env k l.given st s := by
  simp only [SameEffect, mainLine_text, seen_zeroed]
  exact Iff.rfl

end EntryLine

/-! ### Numbers that are too large -/

theorem Numbers.tooLarge_eq_false {n : Numbers} : n.tooLarge = false ↔ n.major ≤ 0xfffff ∧
    n.minor ≤ 0xfffff ∧ n.start ≤ 0xfffff ∧ n.increment ≤ 0xfffff ∧ n.count ≤ 0xfffff := by
  rw [tooLarge, decide_eq_false_iff_not, UInt32.not_lt, or_le_iff, or_le_iff, or_le_iff, or_le_iff]
  tauto

namespace EntryLine

variable {l : EntryLine}

theorem given_tooLarge : l.given.tooLarge = false ↔ ∀ c ∈ l.columns, c.value ≤ 0xfffff := by
  rw [Numbers.tooLarge_eq_false]
  simp [columns, given]

theorem value_of_none {c : Column} (h : c.number = none) : c.value = 0 := by
  rw [Column.value, h]
  rfl

theorem seen_tooLarge : l.seen.tooLarge = false ↔
    ∀ c ∈ l.columns.takeWhile (·.number.isSome), c.value ≤ 0xfffff := by
  rw [Numbers.tooLarge_eq_false, columns, seen]
  cases hmajor : l.major.number with
  | none => simp [hmajor]
  | some major =>
    cases hminor : l.minor.number with
    | none => simp [hmajor, hminor]
    | some minor =>
      cases hstart : l.start.number with
      | none => simp [hmajor, hminor, hstart]
      | some start =>
        cases hincrement : l.increment.number with
        | none => simp [hmajor, hminor, hstart, hincrement]
        | some increment =>
          cases hcount : l.count.number with
          | none => simp [hmajor, hminor, hstart, hincrement, hcount, given, value_of_none]
          | some count => simp [hmajor, hminor, hstart, hincrement, hcount, given]

/-- A `-` before the count takes the count away, and a `-` for the major number the minor
number as well. -/
theorem seen_cases : (¬ l.BlankBeforeCount ∧ l.seen = l.given) ∨
    (l.BlankBeforeCount ∧ l.seen.count = 0 ∧ l.seen.major = l.given.major ∧
      l.seen.minor = if l.major.number = none then 0 else l.given.minor) := by
  simp only [BlankBeforeCount, List.mem_cons, List.not_mem_nil, or_false, exists_eq_or_imp,
    exists_eq_left, seen]
  cases hmajor : l.major.number with
  | none => simp [given, value_of_none hmajor]
  | some major =>
    cases hminor : l.minor.number with
    | none => simp [given, value_of_none hminor]
    | some minor =>
      cases hstart : l.start.number with
      | none => simp [given]
      | some start =>
        cases hincrement : l.increment.number with
        | none => simp [given]
        | some increment => simp

end EntryLine

/-! ### The nodes of a line -/

/-- A count of 0 or 1 is for one node, whatever the start and the increment are. -/
theorem nodes_single {e : Entry} (h : Bounded e) (hcount : e.count ≤ 1) (mode : UInt32) :
    e.nodes.map (e.nodeCalls mode) = [[.mknod e.path mode e.major e.minor,
      .chown e.path e.uid e.gid, .chmod e.path mode]] := by
  have hle : e.count.toNat ≤ 1 := UInt32.le_iff_toNat_le.mp hcount
  have hone : e.nodeCount = 1 := by
    rw [Entry.nodeCount]
    omega
  have hpath : e.nodePath (e.start + UInt32.ofNat 0) = e.path := by
    rw [nodePath_eq h (by omega), Entry.nodeName, if_neg (by omega)]
  have hminor : e.minor + (e.start + UInt32.ofNat 0 - e.start) * e.increment = e.minor := by
    simp
  rw [nodes_eq h, hone, List.range_one, List.map_singleton, List.map_singleton, Entry.nodeCalls, hpath,
    hminor]

namespace EntryLine

variable {l : EntryLine} {σ : Type}

theorem entry_bounded (env : Env) (uid gid : UInt32) {n : Numbers} (h : n.tooLarge = false) :
    Bounded (l.entry env uid gid n) := by
  obtain ⟨-, hminor, hstart, hincrement, hcount⟩ := Numbers.tooLarge_eq_false.mp h
  exact ⟨hminor, hstart, hincrement, hcount⟩

/-- Lines that differ in the numbers only do the same if they are not for devices, or are for
the same nodes. -/
theorem run_congr {env : Env} {k : System σ} {n n' : Numbers} {st : State} {s : σ}
    (hn : n.tooLarge = false) (hn' : n'.tooLarge = false)
    (h : (nodeType l.type).isSome → ∀ uid gid mode,
      (l.entry env uid gid n).nodes.map ((l.entry env uid gid n).nodeCalls mode) =
        (l.entry env uid gid n').nodes.map ((l.entry env uid gid n').nodeCalls mode)) :
    l.run env k n st s = l.run env k n' st s := by
  have htype : ∀ uid gid n, (l.entry env uid gid n).type = l.type := fun _ _ _ => rfl
  have hperform : ∀ uid gid,
      perform k (l.entry env uid gid n) s = perform k (l.entry env uid gid n') s := by
    intro uid gid
    unfold perform
    simp only [htype]
    split
    · rfl
    · split
      · rfl
      · cases ht : nodeType l.type with
        | none => rfl
        | some t =>
          have hnodes := h (by rw [ht]; rfl) uid gid ((l.entry env uid gid n).mode ||| t)
          dsimp only
          rw [hnodes]
          rfl
  rw [run, run, hn, hn']
  cases ownerId l.group.text env.group env.getgid with
  | none => rfl
  | some gid =>
    cases ownerId l.user.text env.passwd env.getuid with
    | none => rfl
    | some uid =>
      dsimp only
      rw [hperform]
      rfl

/-- The user and the group of the line are known. -/
def knownEnv (l : EntryLine) : Env :=
  { rootdir := [], passwd := [(l.user.text, 0)], group := [(l.group.text, 0)], getuid := 0,
    getgid := 0, extendedAttributes := false }

theorem exists_ownerId {t : Text} (ht : t ≠ []) (own : UInt32) :
    ∃ id, ownerId t [(t, 0)] own = some id := by
  rw [ownerId, if_pos ht, getUgId]
  split
  · exact ⟨0, by simp [getxxnam]⟩
  · exact ⟨_, rfl⟩

/-- With known owners an accepted line performs its entry. -/
theorem exists_run (l : EntryLine) : ∃ uid gid, ∀ n : Numbers, n.tooLarge = false →
    ∃ st, l.run l.knownEnv allOk n ⟨l.buffers, none, false⟩ () =
        (some st, (perform allOk (l.entry l.knownEnv uid gid n) ()).1, ()) ∧ st.fullName ≠ none := by
  obtain ⟨gid, hgid⟩ := exists_ownerId l.group.ne_nil l.knownEnv.getgid
  obtain ⟨uid, huid⟩ := exists_ownerId l.user.ne_nil l.knownEnv.getuid
  have hgroup : ownerId l.group.text l.knownEnv.group l.knownEnv.getgid = some gid := hgid
  have huser : ownerId l.user.text l.knownEnv.passwd l.knownEnv.getuid = some uid := huid
  refine ⟨uid, gid, fun n hn => ?_⟩
  rw [run, hn, hgroup, huser]
  exact ⟨_, rfl, Option.some_ne_none _⟩

/-- The first node of a device line. -/
theorem mknods_head {e : Entry} (h : Bounded e) (htype : (nodeType e.type).isSome) :
    (mknods (perform allOk e ()).1).length = e.nodeCount ∧
      (mknods (perform allOk e ()).1).head?.map Prod.snd = some e.minor := by
  obtain ⟨t, ht⟩ := Option.isSome_iff_exists.mp htype
  have hd : e.type ≠ 'd' := by
    rintro heq
    rw [heq] at ht
    cases ht
  have hf : e.type ≠ 'f' := by
    rintro heq
    rw [heq] at ht
    cases ht
  have hpos : e.nodeCount ≠ 0 := by
    rw [Entry.nodeCount]
    omega
  obtain ⟨m, hm⟩ := Nat.exists_eq_succ_of_ne_zero hpos
  rw [mknods_perform hd hf ht, nodes_eq h, hm]
  refine ⟨by simp, ?_⟩
  rw [List.range_succ_eq_map]
  simp

theorem harmless_of_sameEffect {l : EntryLine} (hseen : l.seen.tooLarge = false)
    (h : l.run l.knownEnv allOk l.seen ⟨l.buffers, none, false⟩ () =
      l.run l.knownEnv allOk l.given ⟨l.buffers, none, false⟩ ()) :
    (∀ c ∈ l.columns, c.value ≤ 0xfffff) ∧
      ((nodeType l.type).isSome → (l.major.number = none → l.minor.value = 0) ∧
        (l.BlankBeforeCount → l.count.value ≤ 1)) := by
  obtain ⟨uid, gid, hrun⟩ := exists_run l
  obtain ⟨st, hst, hname⟩ := hrun l.seen hseen
  rw [hst] at h
  have hgiven : l.given.tooLarge = false := by
    by_contra hlarge
    rw [run, if_pos (by simpa using hlarge)] at h
    have hstate := Option.some_inj.mp (congrArg Prod.fst h)
    exact hname (congrArg State.fullName hstate)
  obtain ⟨st', hst', -⟩ := hrun l.given hgiven
  rw [hst'] at h
  have hcalls := congrArg (fun r => mknods r.2.1) h
  dsimp only at hcalls
  refine ⟨given_tooLarge.mp hgiven, fun htype => ?_⟩
  obtain ⟨hlength, hminor⟩ := mknods_head (entry_bounded l.knownEnv uid gid hseen) htype
  obtain ⟨hlength', hminor'⟩ := mknods_head (entry_bounded l.knownEnv uid gid hgiven) htype
  rw [hcalls, hlength'] at hlength
  rw [hcalls, hminor', Option.some_inj] at hminor
  change l.given.minor = l.seen.minor at hminor
  rcases l.seen_cases with ⟨hblank, -⟩ | ⟨hblank, hcount, -, hseenMinor⟩
  · exact ⟨fun hmajor => absurd ⟨l.major, .head _, hmajor⟩ hblank, fun h => absurd h hblank⟩
  · refine ⟨fun hmajor => ?_, fun _ => ?_⟩
    · rw [if_pos hmajor] at hseenMinor
      exact hminor.trans hseenMinor
    · have hone : max l.given.count.toNat 1 = max l.seen.count.toNat 1 := hlength
      rw [hcount] at hone
      exact UInt32.le_iff_toNat_le.mpr (le_of_le_of_eq (le_max_left _ _) hone)

end EntryLine

/-- An entry line has the same effect as with a 0 in place of every `-` if and only if a number
before the first `-` is too large, or none of all is and the numbers behind it do not matter. -/
theorem blank_zero_iff (l : EntryLine) : SameEffect l.text l.zeroed.text ↔ l.Harmless := by
  rw [EntryLine.sameEffect_text, EntryLine.Harmless]
  have hlarge : (∃ c ∈ l.columns.takeWhile (·.number.isSome), 0xfffff < c.value) ↔
      l.seen.tooLarge = true := by
    rw [← Bool.not_eq_false, EntryLine.seen_tooLarge]
    simp only [not_forall, UInt32.not_le, exists_prop]
  rw [hlarge]
  constructor
  · intro h
    cases hseen : l.seen.tooLarge with
    | true => exact .inl rfl
    | false => exact .inr (EntryLine.harmless_of_sameEffect hseen (h _ _ _ _ _))
  · have hseen_of_given : (∀ c ∈ l.columns, c.value ≤ 0xfffff) → l.seen.tooLarge = false :=
      fun hsmall => EntryLine.seen_tooLarge.mpr fun c hc =>
        hsmall c ((List.takeWhile_prefix _).subset hc)
    rintro (hseen | ⟨hsmall, hdevice⟩) env σ k st s
    · have hgiven : l.given.tooLarge = true := by
        rw [← Bool.not_eq_false, EntryLine.given_tooLarge]
        intro hsmall
        exact Bool.noConfusion (hseen.symm.trans (hseen_of_given hsmall))
      rw [EntryLine.run, EntryLine.run, if_pos hseen, if_pos hgiven]
    · have hseen := hseen_of_given hsmall
      have hgiven := EntryLine.given_tooLarge.mpr hsmall
      refine EntryLine.run_congr hseen hgiven fun htype uid gid mode => ?_
      rcases l.seen_cases with ⟨-, heq⟩ | ⟨hblank, hcount, hmajor, hminor⟩
      · rw [heq]
      · have hsame : l.seen.minor = l.given.minor := by
          rw [hminor]
          split
          next hnone => exact ((hdevice htype).1 hnone).symm
          next => rfl
        have hzero : (l.entry env uid gid l.seen).count ≤ 1 := by
          change l.seen.count ≤ 1
          rw [hcount]
          decide
        rw [nodes_single (EntryLine.entry_bounded env uid gid hseen) hzero,
          nodes_single (EntryLine.entry_bounded env uid gid hgiven) ((hdevice htype).2 hblank)]
        simp only [EntryLine.entry, hmajor, hsame]

/-- The line is for four nodes, but after the `-` the start, the increment and the count are not
read, and it makes one. -/
theorem blank_minor_one_node :
    mknods (mainLine plainEnv allOk "/dev/ram b 640 0 0 1 - 0 1 4".toList
        ⟨⟨[], 'd', [], []⟩, none, false⟩ ()).2.1 = [("/target/dev/ram".toList, 0)] ∧
      mknods (mainLine plainEnv allOk "/dev/ram b 640 0 0 1 0 0 1 4".toList
        ⟨⟨[], 'd', [], []⟩, none, false⟩ ()).2.1 =
          [("/target/dev/ram0".toList, 0), ("/target/dev/ram1".toList, 1),
            ("/target/dev/ram2".toList, 2), ("/target/dev/ram3".toList, 3)] ∧
      ¬ SameEffect "/dev/ram b 640 0 0 1 - 0 1 4".toList "/dev/ram b 640 0 0 1 0 0 1 4".toList := by
  refine ⟨by decide, by decide, fun h => ?_⟩
  have hcalls := congrArg (fun r => r.2.1.length)
    (h plainEnv Unit allOk ⟨⟨[], 'd', [], []⟩, none, false⟩ ())
  exact absurd hcalls (by decide)

end CargosBuildroot.Makedevs
