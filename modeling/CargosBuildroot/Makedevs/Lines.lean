import CargosBuildroot.Makedevs.Table

/-! How `makedevs` reads the lines of its table. The buffer of a line grows by 80 bytes when
the next byte and a terminator may not fit, and a line ends at a newline, at a NUL or at the
end of the file. That the allocation itself fails is left out: the program ends then. -/

namespace CargosBuildroot.Makedevs

open Shell

/-! ### The reader -/

/-- The largest `int`. -/
def intMax : ℤ := 2147483647

/-- `GROWBY` -/
def growBy : ℕ := 80

/-- A stream: the bytes that are left, and whether they end in a read error. -/
structure File where
  bytes : Text
  error : Bool

/-- The variables of the function. A cell of the buffer is `none` before it is written, and a
null pointer has no cells. The writes are kept with the size of the buffer at that moment. -/
structure Reader where
  idx : ℤ
  linebufsz : ℤ
  linebuf : List (Option Char)
  writes : List (ℤ × ℤ)

def Reader.start : Reader := ⟨0, 0, [], []⟩

/-- Grow the line buffer as necessary; `none` if the size overflows. -/
def Reader.grow (r : Reader) : Option Reader :=
  if r.idx > r.linebufsz - 2 then
    if r.linebufsz + growBy ≤ intMax then
      some { r with
        linebufsz := r.linebufsz + growBy
        linebuf := r.linebuf ++ List.replicate growBy none }
    else none
  else some r

/-- `linebuf[idx] = ch` -/
def Reader.store (r : Reader) (ch : Char) : Reader :=
  { r with
    linebuf := r.linebuf.set r.idx.toNat (some ch)
    writes := r.writes ++ [(r.idx, r.linebufsz)] }

/-- `linebuf[idx++] = ch` -/
def Reader.push (r : Reader) (ch : Char) : Reader := { r.store ch with idx := r.idx + 1 }

inductive Ending
  | nul
  | line
  | eof
  deriving DecidableEq

/-- The loop, with what ended it and the bytes that it leaves. -/
def readBytes (c : ℤ) : Reader → Text → Option (Reader × Ending × Text)
  | r, [] => some (r, .eof, [])
  | r, ch :: rest =>
    match r.grow with
    | none => none
    | some r =>
      if ch = '\x00' then some (r.push ch, .nul, rest)
      else if c < 2 ∧ ch = '\n' then
        some (if c ≠ 0 then { r.push ch with idx := (r.push ch).idx - 1 } else r.push ch,
          .line, rest)
      else readBytes c (r.push ch) rest

/-- The pointer that a call returns, `none` for a null pointer, with the stream after it and
the writes. -/
structure LineRead where
  line : Option (List (Option Char))
  file : File
  writes : List (ℤ × ℤ)

def privateGetLineFromFile (c : ℤ) (file : File) : Option LineRead :=
  (readBytes c Reader.start file.bytes).map fun (r, ending, rest) =>
    if ending = .nul then ⟨some r.linebuf, ⟨rest, file.error⟩, r.writes⟩
    else if r.linebuf = [] then ⟨none, ⟨rest, file.error⟩, r.writes⟩
    else if ending = .eof ∧ file.error then ⟨none, ⟨rest, file.error⟩, r.writes⟩
    else ⟨some (r.store '\x00').linebuf, ⟨rest, file.error⟩, (r.store '\x00').writes⟩

def bbGetChompedLineFromFile (file : File) : Option LineRead := privateGetLineFromFile 1 file

/-- The results of `n` calls one after the other, and all their writes. -/
def readLines : ℕ → File → Option (List (Option (List (Option Char))) × List (ℤ × ℤ))
  | 0, _ => some ([], [])
  | n + 1, file =>
    match bbGetChompedLineFromFile file with
    | none => none
    | some call =>
      (readLines n call.file).map fun r => (call.line :: r.1, call.writes ++ r.2)

/-- The string at a pointer: the written bytes up to the terminator. -/
def cString : List (Option Char) → Option Text
  | some c :: cells => if c = '\x00' then some [] else (cString cells).map (c :: ·)
  | _ => none

/-! ### The pieces of a stream -/

def isEnd (c : Char) : Bool := c = '\n' ∨ c = '\x00'

/-- What lies before each newline or NUL, and what is left after the last one if it is not
empty. -/
def pieces : Text → List Text
  | [] => []
  | c :: t =>
    if isEnd c then [] :: pieces t
    else
      match pieces t with
      | [] => [[c]]
      | p :: ps => (c :: p) :: ps

/-- The size of the buffer after `m` bytes of a line. -/
def sizeFor (m : ℕ) : ℕ := if m = 0 then 0 else growBy * (m / growBy + 1)

/-- The lines of the stream, with their terminators, are short enough for the size of the
buffer to be an `int`. -/
def Fits (bytes : Text) : Prop :=
  ∀ a c, (∀ d ∈ a, isEnd d = false) → a ++ [c] <:+: bytes → (sizeFor (a.length + 1) : ℤ) ≤ intMax

theorem sizeFor_mono {m n : ℕ} (h : m ≤ n) : sizeFor m ≤ sizeFor n := by
  unfold sizeFor growBy
  split_ifs <;> omega

theorem lt_sizeFor {m : ℕ} (h : m ≠ 0) : m < sizeFor m := by
  unfold sizeFor growBy
  rw [if_neg h]
  omega

/-- The test of the loop asks for more space just when the next byte needs it. -/
theorem sizeFor_succ (m : ℕ) : sizeFor (m + 1) =
    if (m : ℤ) > (sizeFor m : ℤ) - 2 then sizeFor m + growBy else sizeFor m := by
  unfold sizeFor growBy
  split_ifs <;> omega

/-! ### One line -/

/-- The variables after the bytes of a line have been read. -/
def Reader.after (a : Text) : Reader where
  idx := a.length
  linebufsz := sizeFor a.length
  linebuf := a.map some ++ List.replicate (sizeFor a.length - a.length) none
  writes := (List.range a.length).map fun i : ℕ => ((i : ℤ), ((sizeFor (i + 1) : ℕ) : ℤ))

theorem after_nil : Reader.after [] = Reader.start := rfl

theorem set_replicate (a : Text) {k : ℕ} (hk : k ≠ 0) (ch : Char) :
    (a.map some ++ List.replicate k none).set a.length (some ch) =
      (a ++ [ch]).map some ++ List.replicate (k - 1) none := by
  obtain ⟨k, rfl⟩ := Nat.exists_eq_succ_of_ne_zero hk
  rw [List.set_append_right _ _ (by simp), List.length_map, Nat.sub_self, List.replicate_succ,
    List.set_cons_zero, List.map_append, List.append_assoc]
  rfl

/-- The variables when there is room for one more byte. -/
def Reader.room (a : Text) : Reader where
  idx := a.length
  linebufsz := sizeFor (a.length + 1)
  linebuf := a.map some ++ List.replicate (sizeFor (a.length + 1) - a.length) none
  writes := (Reader.after a).writes

theorem after_grow {a : Text} (hfits : (sizeFor (a.length + 1) : ℤ) ≤ intMax) :
    (Reader.after a).grow = some (Reader.room a) := by
  have hsucc := sizeFor_succ a.length
  unfold Reader.grow Reader.room Reader.after
  split_ifs at hsucc ⊢ with hgrow hmax
  · have hle : a.length ≤ sizeFor a.length := by
      by_cases hzero : a.length = 0
      · omega
      · exact (lt_sizeFor hzero).le
    have hcells : List.replicate (sizeFor a.length - a.length) (none : Option Char) ++
        List.replicate growBy none = List.replicate (sizeFor (a.length + 1) - a.length) none := by
      rw [List.replicate_append_replicate, hsucc, Nat.sub_add_comm hle]
    rw [List.append_assoc, hcells, hsucc]
    rfl
  · rw [hsucc] at hfits
    exact absurd (by exact_mod_cast hfits) hmax
  · rw [hsucc]

theorem room_push (a : Text) (ch : Char) :
    (Reader.room a).push ch = Reader.after (a ++ [ch]) := by
  have hlt : a.length + 1 < sizeFor (a.length + 1) := lt_sizeFor (Nat.succ_ne_zero _)
  have hset := set_replicate a (k := sizeFor (a.length + 1) - a.length) (by omega) ch
  unfold Reader.push Reader.store Reader.room Reader.after
  simp only [List.length_append, List.length_singleton, Int.toNat_natCast, hset, Nat.sub_sub,
    List.range_succ, List.map_append, List.map_singleton]
  rfl

theorem not_isEnd {d : Char} (h : isEnd d = false) : d ≠ '\x00' ∧ d ≠ '\n' := by
  constructor <;> rintro rfl <;> cases h

/-- Bytes of a line that are not its last one are stored one after the other. -/
theorem readBytes_append {a b rest : Text} (ha : ∀ d ∈ a, isEnd d = false)
    (hfits : (sizeFor (b.length + a.length) : ℤ) ≤ intMax) :
    readBytes 1 (Reader.after b) (a ++ rest) = readBytes 1 (Reader.after (b ++ a)) rest := by
  induction a generalizing b with
  | nil => rw [List.append_nil, List.nil_append]
  | cons d a ih =>
    obtain ⟨hnul, hnewline⟩ := not_isEnd (ha d (.head _))
    have hle : sizeFor (b.length + 1) ≤ sizeFor (b.length + (d :: a).length) :=
      sizeFor_mono (by rw [List.length_cons]; omega)
    have hone : (sizeFor (b.length + 1) : ℤ) ≤ intMax := by omega
    have hmore : (sizeFor ((b ++ [d]).length + a.length) : ℤ) ≤ intMax := by
      rw [List.length_append, List.length_singleton, Nat.add_assoc, Nat.add_comm 1]
      exact hfits
    rw [List.cons_append, readBytes, after_grow hone]
    simp only [hnul, hnewline, and_false, if_false]
    rw [room_push, ih (fun e he => ha e (.tail _ he)) hmore, List.append_assoc,
      List.singleton_append]

/-- All writes are inside the buffer. -/
def InBounds (writes : List (ℤ × ℤ)) : Prop := ∀ w ∈ writes, 0 ≤ w.1 ∧ w.1 < w.2

theorem inBounds_after (a : Text) : InBounds (Reader.after a).writes := by
  intro w hw
  obtain ⟨i, -, rfl⟩ := List.mem_map.mp hw
  have hlt : i + 1 < sizeFor (i + 1) := lt_sizeFor (Nat.succ_ne_zero _)
  exact ⟨by omega, by simp only; omega⟩

theorem InBounds.append {ws vs : List (ℤ × ℤ)} (hws : InBounds ws) (hvs : InBounds vs) :
    InBounds (ws ++ vs) := fun w hw => (List.mem_append.mp hw).elim (hws w) (hvs w)

theorem cString_append {a : Text} (ha : '\x00' ∉ a) (cells : List (Option Char)) :
    cString (a.map some ++ some '\x00' :: cells) = some a := by
  induction a with
  | nil => rfl
  | cons c a ih =>
    rw [List.mem_cons, not_or] at ha
    rw [List.map_cons, List.cons_append, cString, if_neg fun h => ha.1 h.symm, ih ha.2]
    rfl

/-- A call has returned the line, and all its writes are inside the buffer. -/
structure Returns (call : Option LineRead) (line : Option Text) (rest : Text) : Prop where
  returned : ∃ result, call = some result ∧ result.line.map cString = line.map some ∧
    result.file = ⟨rest, false⟩ ∧ InBounds result.writes

/-- The terminator is written behind the line, where there is room for it. -/
theorem store_nul {a : Text} {r : Reader} {more : List (Option Char)} (ha : '\x00' ∉ a)
    (hidx : r.idx = a.length) (hcells : r.linebuf = a.map some ++ more) (hmore : more ≠ [])
    (hsize : (a.length : ℤ) < r.linebufsz) (hwrites : InBounds r.writes) :
    cString (r.store '\x00').linebuf = some a ∧ InBounds (r.store '\x00').writes := by
  obtain ⟨cell, more, rfl⟩ := List.exists_cons_of_ne_nil hmore
  constructor
  · have hset : (a.map some ++ cell :: more).set a.length (some '\x00') =
        a.map some ++ some '\x00' :: more := by
      rw [List.set_append_right _ _ (by simp), List.length_map, Nat.sub_self, List.set_cons_zero]
    rw [Reader.store, hidx, hcells, Int.toNat_natCast, hset, cString_append ha]
  · refine hwrites.append fun w hw => ?_
    rw [List.mem_singleton.mp hw, hidx]
    exact ⟨Int.natCast_nonneg _, hsize⟩

section Calls

variable {a rest : Text}

theorem returns_terminated {bytes : Text} {r : Reader} {ending : Ending}
    (hread : readBytes 1 Reader.start bytes = some (r, ending, rest)) (hending : ending ≠ .nul)
    (hstore : cString (r.store '\x00').linebuf = some a ∧ InBounds (r.store '\x00').writes) :
    Returns (bbGetChompedLineFromFile ⟨bytes, false⟩) (some a) rest := by
  have hne : r.linebuf ≠ [] := by
    intro hnil
    have hstring := hstore.1
    rw [Reader.store, hnil] at hstring
    cases hstring
  refine ⟨⟨some (r.store '\x00').linebuf, ⟨rest, false⟩, (r.store '\x00').writes⟩, ?_,
    congrArg some hstore.1, rfl, hstore.2⟩
  rw [bbGetChompedLineFromFile, privateGetLineFromFile, hread, Option.map_some]
  simp only [hending, hne, if_false, Bool.false_eq_true, and_false]

theorem nul_not_mem (ha : ∀ d ∈ a, isEnd d = false) : '\x00' ∉ a := fun h =>
  (not_isEnd (ha _ h)).1 rfl

/-- The bytes of a line up to its end. -/
theorem readBytes_line (ha : ∀ d ∈ a, isEnd d = false) (hfits : (sizeFor a.length : ℤ) ≤ intMax) :
    readBytes 1 Reader.start (a ++ rest) = readBytes 1 (Reader.after a) rest := by
  have hzero : (sizeFor (([] : Text).length + a.length) : ℤ) ≤ intMax := by
    rw [List.length_nil, Nat.zero_add]
    exact hfits
  rw [← after_nil, readBytes_append ha hzero, List.nil_append]

theorem fits_of_succ (hfits : (sizeFor (a.length + 1) : ℤ) ≤ intMax) :
    (sizeFor a.length : ℤ) ≤ intMax := by
  have hle : sizeFor a.length ≤ sizeFor (a.length + 1) := sizeFor_mono (by omega)
  omega

/-- The buffer after a line and one more byte. -/
theorem linebuf_concat (a : Text) (ch : Char) : (Reader.after (a ++ [ch])).linebuf =
    a.map some ++ some ch :: List.replicate
      (sizeFor (a ++ [ch]).length - (a ++ [ch]).length) none := by
  rw [Reader.after, List.map_append, List.append_assoc]
  rfl

theorem returns_nul (ha : ∀ d ∈ a, isEnd d = false)
    (hfits : (sizeFor (a.length + 1) : ℤ) ≤ intMax) :
    Returns (bbGetChompedLineFromFile ⟨a ++ '\x00' :: rest, false⟩) (some a) rest := by
  have hread : readBytes 1 Reader.start (a ++ '\x00' :: rest) =
      some (Reader.after (a ++ ['\x00']), .nul, rest) := by
    rw [readBytes_line ha (fits_of_succ hfits), readBytes, after_grow hfits]
    simp only [if_true, room_push]
  have hstring : cString (Reader.after (a ++ ['\x00'])).linebuf = some a := by
    rw [linebuf_concat, cString_append (nul_not_mem ha)]
  refine ⟨_, congrArg _ hread, ?_, rfl, inBounds_after _⟩
  exact congrArg some hstring

theorem returns_newline (ha : ∀ d ∈ a, isEnd d = false)
    (hfits : (sizeFor (a.length + 1) : ℤ) ≤ intMax) :
    Returns (bbGetChompedLineFromFile ⟨a ++ '\n' :: rest, false⟩) (some a) rest := by
  have hread : readBytes 1 Reader.start (a ++ '\n' :: rest) =
      some ({ Reader.after (a ++ ['\n']) with idx := a.length }, .line, rest) := by
    rw [readBytes_line ha (fits_of_succ hfits), readBytes, after_grow hfits]
    have hnul : ('\n' : Char) ≠ '\x00' := by decide
    have hidx : (Reader.after (a ++ ['\n'])).idx - 1 = a.length := by
      show ((a ++ ['\n']).length : ℤ) - 1 = a.length
      rw [List.length_append, List.length_singleton]
      omega
    simp only [hnul, if_false, room_push, hidx]
    rfl
  have hsize : (a.length : ℤ) < sizeFor (a ++ ['\n']).length := by
    have hlt : a.length + 1 < sizeFor (a.length + 1) := lt_sizeFor (Nat.succ_ne_zero _)
    rw [List.length_append, List.length_singleton]
    omega
  exact returns_terminated hread (by decide)
    (store_nul (nul_not_mem ha) rfl (linebuf_concat a '\n') (List.cons_ne_nil _ _) hsize
      (inBounds_after _))

theorem returns_last (ha : ∀ d ∈ a, isEnd d = false) (hne : a ≠ [])
    (hfits : (sizeFor a.length : ℤ) ≤ intMax) :
    Returns (bbGetChompedLineFromFile ⟨a, false⟩) (some a) [] := by
  have hread : readBytes 1 Reader.start a = some (Reader.after a, .eof, []) := by
    rw [← List.append_nil a, readBytes_line ha hfits, List.append_nil, readBytes]
  have hlt : a.length < sizeFor a.length := lt_sizeFor (mt List.length_eq_zero_iff.mp hne)
  have hmore : List.replicate (sizeFor a.length - a.length) (none : Option Char) ≠ [] := by
    rw [ne_eq, List.replicate_eq_nil_iff]
    omega
  exact returns_terminated hread (by decide)
    (store_nul (nul_not_mem ha) rfl rfl hmore (Int.ofNat_lt.mpr hlt) (inBounds_after _))

theorem returns_null : Returns (bbGetChompedLineFromFile ⟨[], false⟩) none [] :=
  ⟨_, rfl, rfl, rfl, fun _ hw => absurd hw List.not_mem_nil⟩

end Calls

/-! ### The whole stream -/

theorem pieces_cons_of_not {c : Char} {t p : Text} {ps : List Text} (hc : isEnd c = false)
    (h : pieces t = p :: ps) : pieces (c :: t) = (c :: p) :: ps := by
  rw [pieces, hc, h]
  rfl

theorem pieces_line {a rest : Text} {e : Char} (ha : ∀ d ∈ a, isEnd d = false)
    (he : isEnd e = true) : pieces (a ++ e :: rest) = a :: pieces rest := by
  induction a with
  | nil => rw [List.nil_append, pieces, if_pos he]
  | cons c a ih =>
    exact pieces_cons_of_not (ha c (.head _)) (ih fun d hd => ha d (.tail _ hd))

theorem pieces_last {a : Text} (ha : ∀ d ∈ a, isEnd d = false) (hne : a ≠ []) :
    pieces a = [a] := by
  induction a with
  | nil => exact absurd rfl hne
  | cons c a ih =>
    cases a with
    | nil => rw [pieces, ha c (.head _)]; rfl
    | cons d a =>
      exact pieces_cons_of_not (ha c (.head _))
        (ih (fun d hd => ha d (.tail _ hd)) (List.cons_ne_nil _ _))

theorem exists_line {bytes : Text} (h : ¬ ∀ d ∈ bytes, isEnd d = false) :
    ∃ a e rest, bytes = a ++ e :: rest ∧ (∀ d ∈ a, isEnd d = false) ∧ isEnd e = true := by
  induction bytes with
  | nil => exact absurd (by simp) h
  | cons c t ih =>
    cases hc : isEnd c with
    | true => exact ⟨[], c, t, rfl, by simp, hc⟩
    | false =>
      rw [List.forall_mem_cons, not_and] at h
      obtain ⟨a, e, rest, rfl, ha, he⟩ := ih (h hc)
      exact ⟨c :: a, e, rest, rfl, List.forall_mem_cons.mpr ⟨hc, ha⟩, he⟩

theorem Fits.infix {bytes part : Text} (h : Fits bytes) (hpart : part <:+: bytes) : Fits part :=
  fun a c ha hac => h a c ha (hac.trans hpart)

theorem fits_of_length {bytes : Text} (h : (sizeFor bytes.length : ℤ) ≤ intMax) : Fits bytes := by
  intro a c _ hinfix
  have hlength := hinfix.length_le
  rw [List.length_append, List.length_singleton] at hlength
  have hle := sizeFor_mono hlength
  omega

/-- A call returns the first piece and leaves a stream with the others, or a null pointer at
the end of the stream. -/
theorem call_spec {bytes : Text} (h : Fits bytes) : ∃ line rest,
    Returns (bbGetChompedLineFromFile ⟨bytes, false⟩) line rest ∧ Fits rest ∧
      line = (pieces bytes).head? ∧ pieces rest = (pieces bytes).tail := by
  by_cases hnil : bytes = []
  · subst hnil
    exact ⟨none, [], returns_null, h, rfl, rfl⟩
  by_cases hall : ∀ d ∈ bytes, isEnd d = false
  · have hpieces := pieces_last hall hnil
    have hfits : (sizeFor bytes.length : ℤ) ≤ intMax := by
      have hlast := h bytes.dropLast (bytes.getLast hnil)
        (fun d hd => hall d (List.dropLast_subset _ hd))
        ⟨[], [], by rw [List.nil_append, List.append_nil, List.dropLast_append_getLast]⟩
      have hlength : bytes.dropLast.length + 1 = bytes.length := by
        rw [List.length_dropLast]
        exact Nat.succ_pred_eq_of_pos (List.length_pos_of_ne_nil hnil)
      rwa [hlength] at hlast
    refine ⟨some bytes, [], returns_last hall hnil hfits, h.infix List.nil_infix, ?_, ?_⟩
    · rw [hpieces]
      rfl
    · rw [hpieces]
      rfl
  · obtain ⟨a, e, rest, rfl, ha, he⟩ := exists_line hall
    have hpieces : pieces (a ++ e :: rest) = a :: pieces rest := pieces_line ha he
    have hfits := h a e ha ⟨[], rest, by simp⟩
    refine ⟨some a, rest, ?_, h.infix ⟨a ++ [e], [], by simp⟩, ?_, ?_⟩
    · rcases of_decide_eq_true he with rfl | rfl
      · exact returns_newline ha hfits
      · exact returns_nul ha hfits
    · rw [hpieces]
      rfl
    · rw [hpieces]
      rfl

/-- The loop of `main` over the stream, with at most `n` calls. -/
def readTable {σ : Type} (env : Env) (k : System σ) :
    ℕ → File → State → σ → Option (Option State × List Call × σ)
  | 0, _, _, _ => none
  | n + 1, file, st, s =>
    match bbGetChompedLineFromFile file with
    | none => none
    | some call =>
      match call.line.map cString with
      | none => some (some st, [], s)
      | some none => none
      | some (some line) =>
        match mainLine env k line st s with
        | (none, calls, s) => some (none, calls, s)
        | (some st, calls, s) =>
          (readTable env k n call.file st s).map fun (st, calls', s) => (st, calls ++ calls', s)

/-- The loop ends, and works on the pieces of the stream one after another. -/
theorem readTable_eq {σ : Type} (env : Env) (k : System σ) {bytes : Text} (h : Fits bytes) {n : ℕ}
    (hn : (pieces bytes).length < n) (st : State) (s : σ) :
    readTable env k n ⟨bytes, false⟩ st s = some (mainLoop env k (pieces bytes) st s) := by
  induction n generalizing bytes st s with
  | zero => omega
  | succ n ih =>
    obtain ⟨line, rest, hreturns, hrest, rfl, htail⟩ := call_spec h
    obtain ⟨call, hcall, hline, hfile, -⟩ := hreturns.returned
    rw [readTable, hcall]
    simp only [hline]
    cases hpieces : pieces bytes with
    | nil => rfl
    | cons p ps =>
      rw [hpieces, List.tail_cons] at htail
      have hfuel : (pieces rest).length < n := by
        rw [htail]
        rw [hpieces, List.length_cons] at hn
        omega
      simp only [List.head?_cons, Option.map_some, mainLoop]
      rcases mainLine env k p st s with ⟨st', calls, s'⟩
      cases st' with
      | none => rfl
      | some st' =>
        simp only [hfile, ih hrest hfuel, htail, Option.map_some]

/-- Two lines, the last one without an end. -/
theorem readTable_eq_lines : pieces "/tmp d 1777\n/run d 755".toList = ["/tmp d 1777".toList, "/run d 755".toList] ∧
    readTable ⟨"/target".toList, [], [], 0, 0, false⟩ (fun _ (s : Unit) => (true, s)) 3
        ⟨"/tmp d 1777\n/run d 755".toList, false⟩ ⟨⟨[], 'd', [], []⟩, none, false⟩ () =
      some (mainLoop ⟨"/target".toList, [], [], 0, 0, false⟩ (fun _ (s : Unit) => (true, s))
        (pieces "/tmp d 1777\n/run d 755".toList) ⟨⟨[], 'd', [], []⟩, none, false⟩ ()) :=
  ⟨by decide, readTable_eq _ _ (fits_of_length (by decide)) (by decide) _ ()⟩

/-- The results of `n` calls: the pieces, and null pointers after the last one. -/
def results (ps : List Text) : ℕ → List (Option Text)
  | 0 => []
  | n + 1 => ps.head? :: results ps.tail n

/-- Repeated calls return the pieces of the stream in their order, and every write is inside
the buffer of that moment. -/
theorem readLines_exact (bytes : Text) (h : Fits bytes) (n : ℕ) :
    ∃ lines writes, readLines n ⟨bytes, false⟩ = some (lines, writes) ∧
      lines.map (·.map cString) = (results (pieces bytes) n).map (·.map some) ∧
      InBounds writes := by
  induction n generalizing bytes with
  | zero => exact ⟨[], [], rfl, rfl, fun _ hw => absurd hw List.not_mem_nil⟩
  | succ n ih =>
    obtain ⟨line, rest, hreturns, hrest, rfl, htail⟩ := call_spec h
    obtain ⟨call, hcall, hline, hfile, hwrites⟩ := hreturns.returned
    obtain ⟨lines, writes, hlines, heq, hbounds⟩ := ih rest hrest
    refine ⟨call.line :: lines, call.writes ++ writes, ?_, ?_, hwrites.append hbounds⟩
    · rw [readLines, hcall]
      simp only [hfile, hlines, Option.map_some]
    · rw [List.map_cons, hline, heq, htail, results, List.map_cons]

/-- A line, an empty line that a NUL ends, a line without an end, and the end of the stream. -/
theorem readLines_exact_short : ∃ lines writes,
    readLines 4 ⟨"ab\n\x00c".toList, false⟩ = some (lines, writes) ∧
      lines.map (·.map cString) =
        [some (some ['a', 'b']), some (some []), some (some ['c']), none] ∧
      InBounds writes :=
  readLines_exact "ab\n\x00c".toList (fits_of_length (by decide)) 4

end CargosBuildroot.Makedevs
