import CargosBuildroot.Shell.Read
import Mathlib.Data.List.Infix

/-! Command lines as `getopt_long` reads them: clusters of short options, long options that
may be abbreviated, arguments in the same word or in the next one, and operands at any
place. -/

namespace CargosBuildroot.Shell

/-- Whether an option has an argument. -/
inductive Arity
  | flag
  | required
  | optional
  deriving DecidableEq

/-- A long option with the option that it stands for. -/
structure LongOption (κ : Type*) where
  name : Text
  arity : Arity
  code : κ

structure Options (κ : Type*) where
  short : Char → Option (Arity × κ)
  long : List (LongOption κ)

/-- What a word of the command line is. -/
inductive ArgPart (κ : Type*)
  | cluster (flags : Text) (last : Option (Char × Text))
  | long (spelled : Text) (option : LongOption κ) (value : Option Text)
  | argument (word : Text)
  | stop
  | operand (word : Text)

namespace Options

variable {κ : Type*} [DecidableEq κ] (o : Options κ)

/-- The long option of a name that is written out or abbreviated; an abbreviation of several
names must mean the same for all of them. -/
def find (spelled : Text) : Option (LongOption κ) :=
  match o.long.find? (·.name = spelled) with
  | some e => some e
  | none =>
    match o.long.filter (spelled <+: ·.name) with
    | [] => none
    | e :: es => if ∀ e' ∈ es, e'.arity = e.arity ∧ e'.code = e.code then some e else none

/-- The letters of a cluster up to the one that takes the rest of the word. -/
def readCluster : Text → Option (Text × Option (Char × Text))
  | [] => some ([], none)
  | c :: t =>
    match o.short c with
    | none => none
    | some (.flag, _) => (readCluster t).map fun r => (c :: r.1, r.2)
    | some _ => some ([], some (c, t))

/-- The value behind the equals sign of a long option. -/
def valueOf (body : Text) : Option Text :=
  match body.dropWhile (· ≠ '=') with
  | [] => none
  | _ :: value => some value

def readLong (body : Text) : Option (ArgPart κ) :=
  match o.find (body.takeWhile (· ≠ '=')) with
  | none => none
  | some e =>
    if e.arity = .flag ∧ valueOf body ≠ none then none
    else some (.long (body.takeWhile (· ≠ '=')) e (valueOf body))

def readWord : Text → Option (ArgPart κ)
  | '-' :: '-' :: body => o.readLong body
  | '-' :: c :: t => (o.readCluster (c :: t)).map fun r => .cluster r.1 r.2
  | w => some (.operand w)

/-- The next word is the argument of the option. -/
def needsNext : ArgPart κ → Bool
  | .cluster _ (some (c, [])) => (o.short c).any (·.1 = .required)
  | .long _ e none => e.arity = .required
  | _ => false

/-- The words of a command line; the flag tells whether the next one is an argument. -/
def parse : Bool → List Text → Option (List (ArgPart κ))
  | false, [] => some []
  | true, [] => none
  | true, w :: ws => (parse false ws).map (.argument w :: ·)
  | false, w :: ws =>
    if w = ['-', '-'] then some (.stop :: ws.map .operand)
    else
      match o.readWord w with
      | none => none
      | some p => (parse (o.needsNext p) ws).map (p :: ·)

/-- The options that a part of the command line selects. -/
def codes : ArgPart κ → List κ
  | .cluster flags last => (flags ++ last.toList.map Prod.fst).filterMap fun c =>
      (o.short c).map Prod.snd
  | .long _ e _ => [e.code]
  | _ => []

end Options

/-! ### What is read -/

/-- The word of a part. -/
def ArgPart.word {κ : Type*} : ArgPart κ → Text
  | .cluster flags none => '-' :: flags
  | .cluster flags (some (c, value)) => '-' :: (flags ++ c :: value)
  | .long spelled _ none => '-' :: '-' :: spelled
  | .long spelled _ (some value) => '-' :: '-' :: (spelled ++ '=' :: value)
  | .argument w => w
  | .stop => ['-', '-']
  | .operand w => w

/-- The parts that a command line can have. -/
inductive ArgPart.Read {κ : Type*} (o : Options κ) : ArgPart κ → Prop
  | flags {flags : Text} (all : ∀ c ∈ flags, ∃ k, o.short c = some (.flag, k)) :
      ArgPart.Read o (.cluster flags none)
  | cluster {flags value : Text} {c : Char} {a : Arity} {k : κ}
      (all : ∀ c ∈ flags, ∃ k, o.short c = some (.flag, k)) (last : o.short c = some (a, k))
      (arity : a ≠ .flag) : ArgPart.Read o (.cluster flags (some (c, value)))
  | long {spelled : Text} {e : LongOption κ} {value : Option Text} (entry : e ∈ o.long)
      (abbreviated : spelled <+: e.name) (plain : '=' ∉ spelled) :
      ArgPart.Read o (.long spelled e value)
  | argument (w : Text) : ArgPart.Read o (.argument w)
  | stop : ArgPart.Read o .stop
  | operand (w : Text) : ArgPart.Read o (.operand w)

namespace Options

variable {κ : Type*} {o : Options κ}

theorem readCluster_sound {t flags : Text} {last : Option (Char × Text)}
    (h : o.readCluster t = some (flags, last)) :
    (ArgPart.cluster flags last : ArgPart κ).word = '-' :: t ∧
      (ArgPart.cluster flags last).Read o := by
  induction t generalizing flags with
  | nil =>
    cases h
    exact ⟨rfl, .flags (by simp)⟩
  | cons c t ih =>
    rw [readCluster] at h
    cases hc : o.short c with
    | none => simp [hc] at h
    | some p =>
      obtain ⟨a, k⟩ := p
      cases a with
      | flag =>
        simp only [hc, Option.map_eq_some_iff, Prod.mk.injEq] at h
        obtain ⟨⟨rest, _⟩, hrest, rfl, rfl⟩ := h
        obtain ⟨hword, hread⟩ := ih hrest
        have hflag : ∀ d ∈ c :: rest, (∀ d ∈ rest, ∃ k, o.short d = some (.flag, k)) →
            ∃ k, o.short d = some (.flag, k) := by
          intro d hd hall
          rcases List.mem_cons.mp hd with rfl | hd
          · exact ⟨k, hc⟩
          · exact hall d hd
        cases hread with
        | flags all =>
          refine ⟨?_, .flags fun d hd => hflag d hd all⟩
          rw [ArgPart.word] at hword ⊢
          rw [(List.cons.inj hword).2]
        | cluster all hlast harity =>
          refine ⟨?_, .cluster (fun d hd => hflag d hd all) hlast harity⟩
          rw [ArgPart.word] at hword ⊢
          rw [← (List.cons.inj hword).2, List.cons_append]
      | required =>
        simp only [hc] at h
        cases h
        exact ⟨rfl, .cluster (by simp) hc (by simp)⟩
      | optional =>
        simp only [hc] at h
        cases h
        exact ⟨rfl, .cluster (by simp) hc (by simp)⟩

variable [DecidableEq κ]

theorem find_sound {spelled : Text} {e : LongOption κ} (h : o.find spelled = some e) :
    e ∈ o.long ∧ spelled <+: e.name := by
  rw [find] at h
  cases hexact : o.long.find? (·.name = spelled) with
  | some e' =>
    rw [hexact] at h
    cases h
    have hname : e.name = spelled := of_decide_eq_true (List.find?_some hexact :)
    exact ⟨List.mem_of_find?_eq_some hexact, hname ▸ List.prefix_refl _⟩
  | none =>
    rw [hexact] at h
    cases hcandidates : o.long.filter (spelled <+: ·.name) with
    | nil =>
      rw [hcandidates] at h
      cases h
    | cons e' es =>
      simp only [hcandidates] at h
      split_ifs at h
      cases h
      have hmem : e ∈ o.long.filter (spelled <+: ·.name) := hcandidates ▸ .head es
      rw [List.mem_filter, decide_eq_true_iff] at hmem
      exact hmem

theorem takeWhile_valueOf (body : Text) :
    body = body.takeWhile (· ≠ '=') ++ (match valueOf body with
      | none => []
      | some value => '=' :: value) := by
  conv_lhs => rw [← List.takeWhile_append_dropWhile (p := (· ≠ '=')) (l := body)]
  rw [valueOf]
  cases hdrop : body.dropWhile (· ≠ '=') with
  | nil => rfl
  | cons c value =>
    have hhead := List.head?_dropWhile_not (· ≠ '=') body
    rw [hdrop] at hhead
    have hc : c = '=' := by simpa using hhead
    rw [hc]

theorem readLong_sound {body : Text} {p : ArgPart κ} (h : o.readLong body = some p) :
    p.word = '-' :: '-' :: body ∧ p.Read o := by
  rw [readLong] at h
  cases hfind : o.find (body.takeWhile (· ≠ '=')) with
  | none =>
    rw [hfind] at h
    cases h
  | some e =>
    rw [hfind] at h
    simp only [] at h
    split_ifs at h
    cases h
    obtain ⟨hmem, hprefix⟩ := find_sound hfind
    have hplain : '=' ∉ body.takeWhile (· ≠ '=') := fun hmem => by
      simpa using List.mem_takeWhile_imp hmem
    refine ⟨?_, .long hmem hprefix hplain⟩
    conv_rhs => rw [takeWhile_valueOf body]
    cases valueOf body <;> simp [ArgPart.word]

theorem readWord_sound {w : Text} {p : ArgPart κ} (h : o.readWord w = some p) :
    p.word = w ∧ p.Read o := by
  rw [readWord.eq_def] at h
  split at h
  · exact readLong_sound h
  · simp only [Option.map_eq_some_iff] at h
    obtain ⟨r, hr, rfl⟩ := h
    exact readCluster_sound hr
  · cases h
    exact ⟨rfl, .operand w⟩

omit [DecidableEq κ] in
theorem operands_sound (ws : List Text) :
    (ws.map (ArgPart.operand (κ := κ))).map ArgPart.word = ws ∧
      ∀ p ∈ ws.map (ArgPart.operand (κ := κ)), p.Read o := by
  constructor
  · rw [List.map_map]
    exact List.map_id ws
  · intro p hp
    obtain ⟨v, -, rfl⟩ := List.mem_map.mp hp
    exact .operand v

/-- The parts of a command line hold its words in their order. -/
theorem parse_sound {next : Bool} {args : List Text} {parts : List (ArgPart κ)}
    (h : o.parse next args = some parts) :
    parts.map ArgPart.word = args ∧ ∀ p ∈ parts, p.Read o := by
  induction args generalizing next parts with
  | nil =>
    cases next with
    | true => cases h
    | false =>
      cases h
      exact ⟨rfl, by simp⟩
  | cons w ws ih =>
    have hcons : ∀ {p : ArgPart κ} {next : Bool}, p.word = w → p.Read o →
        (o.parse next ws).map (p :: ·) = some parts →
        parts.map ArgPart.word = w :: ws ∧ ∀ p ∈ parts, p.Read o := by
      intro p next hword hread h
      rw [Option.map_eq_some_iff] at h
      obtain ⟨rest, hrest, rfl⟩ := h
      obtain ⟨hwords, hall⟩ := ih hrest
      exact ⟨by rw [List.map_cons, hword, hwords], List.forall_mem_cons.mpr ⟨hread, hall⟩⟩
    cases next with
    | true => exact hcons rfl (.argument w) h
    | false =>
      rw [parse] at h
      split_ifs at h with hstop
      · cases h
        obtain ⟨hwords, hread⟩ := operands_sound (o := o) ws
        refine ⟨?_, List.forall_mem_cons.mpr ⟨.stop, hread⟩⟩
        rw [List.map_cons, hwords, hstop]
        rfl
      · cases hword : o.readWord w with
        | none => simp [hword] at h
        | some p =>
          simp only [hword] at h
          obtain ⟨hpart, hread⟩ := readWord_sound hword
          exact hcons hpart hread h

end Options

end CargosBuildroot.Shell
