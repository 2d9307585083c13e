import CargosBuildroot.Bootstrap.Isolation
import CargosBuildroot.Shell.Echo

/-! What a line of a record does. The branch is chosen by the names that occur anywhere in the
line, in the order of the patterns, and a colon anywhere makes it the line of a key. -/

namespace CargosBuildroot.Bootstrap

open Shell

/-! ### Lines -/

def keyChar (c : Char) : Bool := c.isAlphanum || c = '_' || c = '-'

/-- `key: value`, or a key alone. -/
structure KeyLine (i indent key rest : Text) : Prop where
  line : i = indent ++ key ++ ':' :: rest
  indent : ∀ c ∈ indent, isBlank c = true
  key : key ≠ [] ∧ ∀ c ∈ key, keyChar c = true
  rest : rest = [] ∨ ∃ v, rest = ' ' :: v

/-- `- ssh-`, with the key from `ssh-` on. -/
structure SshLine (i indent text : Text) : Prop where
  line : i = indent ++ "- ".toList ++ text
  indent : ∀ c ∈ indent, isBlank c = true
  text : "ssh-".toList <+: text

/-- The field that a key names. -/
def fieldOf (key : Text) : Option Key :=
  if key = "homedir".toList then some .home else keys.find? (·.name = key)

def Sets (i : Text) (k : Key) (v : Text) : Prop :=
  ∀ s, assign s i = { s with var := Function.update s.var k v }

/-- The line adds a key, which is written as `text` later. -/
def AddsKey (i text : Text) : Prop :=
  ∀ s, ∃ stored, echo stored = text ∧ assign s i =
    { s with
      sshAuthorizedKeys := Function.update s.sshAuthorizedKeys s.cnt stored
      cnt := s.cnt + 1 }

/-- The line does what it says. -/
structure Exact (i : Text) : Prop where
  field : ∀ indent key v k, KeyLine i indent key (' ' :: v) → fieldOf key = some k → Sets i k v
  other : ∀ indent key rest, KeyLine i indent key rest → fieldOf key = none → ∀ s, assign s i = s
  ssh : ∀ indent text, SshLine i indent text → AddsKey i text

/-- The line has the name of a field in it that is tried before its own, or of any field if it
has none of its own, or it holds a login key with a colon or with blanks that are not single. -/
inductive Misdirected (i : Text) : Prop
  | field {indent key v : Text} {k k' : Key} (line : KeyLine i indent key (' ' :: v))
      (own : fieldOf key = some k) (before : k' ∈ keys.takeWhile (· ≠ k)) (name : k'.name <:+: i)
  | other {indent key rest : Text} {k' : Key} (line : KeyLine i indent key rest)
      (own : fieldOf key = none) (name : k'.name <:+: i)
  | ssh {indent text : Text} (line : SshLine i indent text)
      (wrong : ':' ∈ i ∨ ¬ SingleSpaced text)

/-! ### The branch -/

theorem find?_eq_iff {α : Type} [DecidableEq α] {p : α → Bool} {l : List α} {a : α} (hmem : a ∈ l)
    (ha : p a = true) : l.find? p = some a ↔ ∀ b ∈ l.takeWhile (· ≠ a), p b = false := by
  induction l with
  | nil => cases hmem
  | cons b l ih =>
    by_cases hb : b = a
    · subst hb
      simp [ha]
    · have hmem' : a ∈ l := (List.mem_cons.mp hmem).resolve_left (Ne.symm hb)
      rw [List.takeWhile_cons_of_pos (by simpa using hb), List.find?_cons]
      cases hpb : p b with
      | true => simp [hb, hpb]
      | false => simp [hpb, ih hmem']

theorem mem_keys (k : Key) : k ∈ keys := by cases k <;> decide

theorem exists_found {i : Text} {k : Key} (h : k.name <:+: i) :
    ∃ k', keys.find? (fun k => k.name <:+: i) = some k' := by
  rw [← Option.isSome_iff_exists, List.find?_isSome]
  exact ⟨k, mem_keys k, decide_eq_true h⟩

theorem name_infix_of_field {key : Text} {k : Key} (h : fieldOf key = some k) :
    k.name <:+: key := by
  rw [fieldOf] at h
  split_ifs at h with hdir
  · rw [hdir, ← Option.some_inj.mp h]
    decide
  · have hname : decide (k.name = key) = true :=
      List.find?_some (p := fun k : Key => k.name = key) h
    rw [of_decide_eq_true hname]

theorem KeyLine.colon {i indent key rest : Text} (h : KeyLine i indent key rest) : ':' ∈ i := by
  rw [h.line]
  simp

theorem KeyLine.key_inside {i indent key rest : Text} (h : KeyLine i indent key rest) :
    key <:+: i :=
  ⟨indent, ':' :: rest, h.line.symm⟩

theorem KeyLine.not_mem {i indent key rest : Text} (h : KeyLine i indent key rest) :
    ':' ∉ indent ++ key := by
  intro hmem
  rcases List.mem_append.mp hmem with hmem | hmem
  · exact absurd (h.indent _ hmem) (by decide)
  · exact absurd (h.key.2 _ hmem) (by decide)

theorem afterColon_append {a : Text} (ha : ':' ∉ a) (v : Text) :
    afterColon (a ++ ':' :: ' ' :: v) = some v := by
  induction a with
  | nil => rfl
  | cons c a ih =>
    have hc : c ≠ ':' := fun h => ha (h ▸ .head _)
    rw [List.cons_append, afterColon]
    · exact ih fun h => ha (.tail _ h)
    · intro t heq
      exact absurd heq hc

theorem KeyLine.value {i indent key v : Text} (h : KeyLine i indent key (' ' :: v)) :
    value i = v := by
  rw [Bootstrap.value, h.line, afterColon_append h.not_mem]
  rfl

theorem SshLine.sshKey {i indent text : Text} (h : SshLine i indent text) : sshKey i = text := by
  have hdrop : i.dropWhile isBlank = "- ".toList ++ text := by
    rw [h.line, List.append_assoc, List.dropWhile_append_of_pos h.indent]
    rfl
  rw [Bootstrap.sshKey, hdrop, if_pos (List.prefix_append _ _)]
  rfl

theorem SshLine.mark_inside {i indent text : Text} (h : SshLine i indent text) :
    "- ssh-".toList <:+: i := by
  obtain ⟨rest, hrest⟩ := h.text
  exact ⟨indent, rest, by rw [h.line, ← hrest]; simp⟩

theorem assign_colon {i : Text} (h : ':' ∈ i) (s : State) : assign s i =
    match keys.find? fun k => k.name <:+: i with
    | some k => { s with var := Function.update s.var k (value i) }
    | none => s := by
  rw [assign]
  exact if_pos h

theorem assign_ssh {i indent text : Text} (h : SshLine i indent text) (hcolon : ':' ∉ i)
    (s : State) : assign s i =
      { s with
        sshAuthorizedKeys := Function.update s.sshAuthorizedKeys s.cnt text
        cnt := s.cnt + 1 } := by
  rw [assign, if_neg hcolon, if_pos h.mark_inside, h.sshKey]

theorem keyLine_sets {i indent key v : Text} {k : Key} (hline : KeyLine i indent key (' ' :: v))
    (hown : fieldOf key = some k) :
    Sets i k v ↔ ∀ k' ∈ keys.takeWhile (· ≠ k), ¬ k'.name <:+: i := by
  have hname : k.name <:+: i := (name_infix_of_field hown).trans hline.key_inside
  have hfind := find?_eq_iff (mem_keys k) (p := fun k => decide (k.name <:+: i))
    (decide_eq_true hname)
  simp only [decide_eq_false_iff_not] at hfind
  rw [← hfind]
  constructor
  · intro hsets
    obtain ⟨k', hk'⟩ := exists_found hname
    rw [hk', Option.some_inj]
    by_contra hne
    -- a value that the line does not give shows which variable is set
    have hvar := congrArg (fun s => s.var k) (hsets { var := fun _ => 'x' :: v, groupFile := fun _ => none })
    rw [assign_colon hline.colon, hk'] at hvar
    simp only [Function.update_of_ne (Ne.symm hne), Function.update_self] at hvar
    exact List.cons_ne_self _ _ hvar
  · intro hk s
    rw [assign_colon hline.colon, hk, hline.value]

theorem keyLine_other {i indent key rest : Text} (hline : KeyLine i indent key rest) :
    (∀ s, assign s i = s) ↔ ∀ k, ¬ Key.name k <:+: i := by
  constructor
  · intro hsame k hname
    obtain ⟨k', hk'⟩ := exists_found hname
    have hvar := congrArg (fun s => s.var k') (hsame { var := fun _ => 'x' :: value i, groupFile := fun _ => none })
    rw [assign_colon hline.colon, hk'] at hvar
    simp only [Function.update_self] at hvar
    exact List.cons_ne_self _ _ hvar.symm
  · intro hnone s
    have hfind : keys.find? (fun k => decide (k.name <:+: i)) = none :=
      List.find?_eq_none.mpr fun k _ => by simpa using hnone k
    rw [assign_colon hline.colon, hfind]

theorem sshLine_adds {i indent text : Text} (hline : SshLine i indent text) :
    AddsKey i text ↔ ':' ∉ i ∧ SingleSpaced text := by
  constructor
  · intro hadds
    obtain ⟨stored, hecho, heq⟩ := hadds { groupFile := fun _ => none }
    have hcolon : ':' ∉ i := by
      intro hcolon
      have hcnt := congrArg State.cnt heq
      rw [assign_colon hcolon] at hcnt
      split at hcnt <;> simp at hcnt
    rw [assign_ssh hline hcolon, State.mk.injEq] at heq
    have hstored := congrFun heq.2.1 0
    simp only [Function.update_self] at hstored
    rw [← hstored] at hecho
    exact ⟨hcolon, echo_eq_iff.mp hecho⟩
  · rintro ⟨hcolon, hspaced⟩ s
    exact ⟨text, echo_eq_iff.mpr hspaced, assign_ssh hline hcolon s⟩

/-- A line does what it says exactly when it is not misdirected. -/
theorem assign_exact_iff (i : Text) : Exact i ↔ ¬ Misdirected i := by
  constructor
  · rintro hexact (⟨hline, hown, hbefore, hname⟩ | ⟨hline, hown, hname⟩ | ⟨hline, hwrong⟩)
    · exact (keyLine_sets hline hown).mp (hexact.field _ _ _ _ hline hown) _ hbefore hname
    · exact (keyLine_other hline).mp (hexact.other _ _ _ hline hown) _ hname
    · obtain ⟨hcolon, hspaced⟩ := (sshLine_adds hline).mp (hexact.ssh _ _ hline)
      exact hwrong.elim hcolon fun h => h hspaced
  · intro h
    refine ⟨fun indent key v k hline hown => ?_, fun indent key rest hline hown => ?_,
      fun indent text hline => ?_⟩
    · exact (keyLine_sets hline hown).mpr fun k' hbefore hname => h (.field hline hown hbefore hname)
    · exact (keyLine_other hline).mpr fun k' hname => h (.other hline hown hname)
    · refine (sshLine_adds hline).mpr ⟨fun hcolon => h (.ssh hline (.inl hcolon)), ?_⟩
      by_contra hspaced
      exact h (.ssh hline (.inr hspaced))

def emptyState : State := { groupFile := fun _ => none }

/-- The line that keeps the password locked sets it. -/
theorem lock_passwd_sets : ¬ Exact "  lock_passwd: true".toList ∧
    (assign emptyState "  lock_passwd: true".toList).var .passwd = "true".toList := by
  have hset : (assign emptyState "  lock_passwd: true".toList).var .passwd = "true".toList := by
    decide
  refine ⟨fun hexact => ?_, hset⟩
  have hsame := hexact.other "  ".toList "lock_passwd".toList " true".toList
    ⟨rfl, List.all_eq_true.mp rfl, ⟨by decide, List.all_eq_true.mp rfl⟩,
      .inr ⟨"true".toList, rfl⟩⟩ rfl
  rw [hsame emptyState] at hset
  exact absurd hset (by decide)

end CargosBuildroot.Bootstrap
