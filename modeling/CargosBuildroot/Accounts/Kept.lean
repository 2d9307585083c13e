import CargosBuildroot.Accounts.Patterns

/-! What a run of `mkusers` keeps of the initial files. Every file is written line by line
for the names of the table, and then the members are edited; the lines of other names are not
written, but a name with a dot in it selects them too, and the last two substitutions of the
edits are made in all of them. Nothing is assumed of the initial files. -/

namespace CargosBuildroot.Accounts

open Shell Store Spliced

variable {env : Env} {s t : Target} {es : List Entry}

/-! ### Edits of other lines -/

variable {ps : List (Text × Text)} {line : Text}

theorem head_edits (hps : ∀ p ∈ ps, ':' ∉ p.1) (line : Text) :
    (head (pattern.edits ps line)).Sublist (head line) := by
  induction ps generalizing line with
  | nil => exact .refl _
  | cons p ps ih =>
    rw [List.forall_mem_cons] at hps
    exact (ih hps.2 _).trans (head_memberMatch hps.1 p.2 line)

/-- Edits that give the head of the line back make the line shorter, or leave it. -/
theorem edits_sublist (hps : ∀ p ∈ ps, ':' ∉ p.1) (hline : ∀ p ∈ ps, hits p.2 line = false)
    (hhead : head (pattern.edits ps line) = head line) : (pattern.edits ps line).Sublist line := by
  induction ps generalizing line with
  | nil => exact .refl _
  | cons p ps ih =>
    rw [List.forall_mem_cons] at hps hline
    have hnext : pattern.edits (p :: ps) line = pattern.edits ps (memberMatch p.1 p.2 line) := rfl
    have hfirst := head_memberMatch hps.1 p.2 line
    have hrest := head_edits hps.2 (memberMatch p.1 p.2 line)
    rw [hnext] at hhead ⊢
    have hsame : head (memberMatch p.1 p.2 line) = head line :=
      hfirst.eq_of_length_le (by rw [← hhead]; exact hrest.length_le)
    refine (ih hps.2 (fun q hq => ?_) (hhead.trans hsame.symm)).trans ?_
    · rw [← hits_head, hsame, hits_head, hline.2 q hq]
    · rw [memberMatch_other hline.1]
      exact (trim_sublist _).trans (squeeze_sublist _)

/-- The line stays if there are no edits, or if it is clean. -/
theorem edits_eq_iff (hps : ∀ p ∈ ps, ':' ∉ p.1) (hline : ∀ p ∈ ps, hits p.2 line = false) :
    pattern.edits ps line = line ↔ ps = [] ∨ Clean line := by
  constructor
  · intro h
    cases ps with
    | nil => exact .inl rfl
    | cons p ps =>
      rw [List.forall_mem_cons] at hps hline
      have hnext : pattern.edits (p :: ps) line = pattern.edits ps (memberMatch p.1 p.2 line) := rfl
      rw [hnext] at h
      have hfirst := head_memberMatch hps.1 p.2 line
      have hrest := head_edits hps.2 (memberMatch p.1 p.2 line)
      rw [h] at hrest
      have hsame : head (memberMatch p.1 p.2 line) = head line := hfirst.eq_of_length_le hrest.length_le
      have hsub := @edits_sublist ps (memberMatch p.1 p.2 line) hps.2
        (fun q hq => by rw [← hits_head, hsame, hits_head, hline.2 q hq]) (by rw [h, hsame])
      rw [h, memberMatch_other hline.1] at hsub
      exact .inr (trim_squeeze_eq_iff.mp
        (((trim_sublist _).trans (squeeze_sublist line)).eq_of_length_le hsub.length_le))
  · rintro (rfl | h)
    · rfl
    · have hself := trim_squeeze_eq_iff.mpr h
      induction ps with
      | nil => rfl
      | cons p ps ih =>
        rw [List.forall_mem_cons] at hps hline
        have hnext : pattern.edits (p :: ps) line = pattern.edits ps (memberMatch p.1 p.2 line) := rfl
        rw [hnext, memberMatch_other hline.1, hself]
        exact ih hps.2 hline.2

/-! ### Unnamed lines -/

/-- The usernames, main groups and additional groups of the table. -/
def names (es : List Entry) : List Text :=
  (es.filter (·.real)).map (·.username) ++ es.map (·.group) ++ es.flatMap Entry.additional

/-- The name of the line is not in the table. -/
def unnamed (es : List Entry) (line : Text) : Bool := field 1 line ∉ names es

/-- The unnamed lines of a file are all there, in their order. -/
def Unchanged (es : List Entry) (file file' : List Text) : Prop := (file.filter (unnamed es)).Sublist file'

instance (es : List Entry) (file file' : List Text) : Decidable (Unchanged es file file') := by
  unfold Unchanged
  infer_instance

theorem mem_names_username {e : Entry} (he : e ∈ users es) : e.username ∈ names es := by
  obtain ⟨he, hreal, -⟩ := mem_users.mp he
  exact List.mem_append_left _ (List.mem_append_left _
    (List.mem_map.mpr ⟨e, List.mem_filter.mpr ⟨he, hreal⟩, rfl⟩))

theorem touched_subset_names {g : Text} (hg : g ∈ touched es) : g ∈ names es := by
  have hgroup : ∀ e ∈ es, e.group ∈ names es := fun e he =>
    List.mem_append_left _ (List.mem_append_right _ (List.mem_map_of_mem he))
  rcases List.mem_append.mp hg with hg | hg
  · obtain ⟨op, hop, rfl⟩ := List.mem_map.mp hg
    obtain ⟨e, he, rfl⟩ := List.mem_map.mp hop
    exact hgroup e (List.mem_filter.mp he).1
  · rcases List.mem_append.mp hg with hg | hg
    · obtain ⟨e, he, rfl⟩ := List.mem_map.mp hg
      exact hgroup e (List.mem_filter.mp he).1
    · exact List.mem_append_right _ hg

theorem PortableTable.names (hes : PortableTable es) : ∀ name ∈ names es, MemberName name := by
  intro name hname
  rcases List.mem_append.mp hname with hname | hname
  · rcases List.mem_append.mp hname with hname | hname
    · obtain ⟨e, he, rfl⟩ := List.mem_map.mp hname
      exact (hes.username e (List.mem_filter.mp he).1 (List.mem_filter.mp he).2).memberName
    · obtain ⟨e, he, rfl⟩ := List.mem_map.mp hname
      exact (hes.group e he).memberName
  · obtain ⟨e, he, hg⟩ := List.mem_flatMap.mp hname
    exact (hes.additional e he name hg).memberName

theorem named_of_hasName (hes : PortableTable es) {name line : Text} (hname : name ∈ names es)
    (h : hasName name line = true) : unnamed es line = false := by
  refine decide_eq_false (not_not_intro ?_)
  rwa [field_one (hes.names name hname).no_colon h]

/-- The edits keep a line named or unnamed. -/
theorem unnamed_edits (hes : PortableTable es) (ps : List (Text × Text)) (line : Text) :
    unnamed es (pattern.edits ps line) = unnamed es line := by
  have hstep : ∀ username group line, unnamed es (memberMatch username group line) = unnamed es line := by
    intro username group line
    have hmem : squeeze (field 1 line) ∈ names es ↔ field 1 line ∈ names es := by
      constructor
      · intro h
        have heq := (squeeze_eq_plain (hes.names _ h).no_comma).mp rfl
        rwa [← heq] at h
      · intro h
        rwa [squeeze_of_no_comma (hes.names _ h).no_comma]
    rw [unnamed, unnamed, field_one_memberMatch]
    simp only [hmem]
  induction ps generalizing line with
  | nil => rfl
  | cons p ps ih => exact (ih _).trans (hstep p.1 p.2 line)

theorem unnamed_writes (hes : PortableTable es) {ops : List (Text × Text)}
    (hops : ∀ op ∈ ops, op.1 ∈ names es ∧ hasName op.1 op.2 = true) :
    ∀ op ∈ ops, unnamed es op.2 = false :=
  fun op hop => named_of_hasName hes (hops op hop).1 (hops op hop).2

theorem untouched_iff {ops : List (Text × Text)} {ns : List Text} (hns : ops.map Prod.fst = ns) :
    untouched hits ops line = true ↔ ∀ name ∈ ns, hits name line = false := by
  subst hns
  rw [untouched, List.all_eq_true, List.forall_mem_map]
  simp only [Bool.not_eq_true']

theorem memberships_names {p : Text × Text} (hp : p ∈ memberships (users es)) :
    p.1 ∈ names es ∧ p.2 ∈ touched es := by
  obtain ⟨e, he, hp⟩ := List.mem_flatMap.mp hp
  obtain ⟨g, hg, rfl⟩ := List.mem_map.mp hp
  exact ⟨mem_names_username he, List.mem_append_right _ (List.mem_append_right _
    (List.mem_flatMap.mpr ⟨e, (mem_users.mp he).1, hg⟩))⟩

/-- The unnamed lines of a group file. -/
theorem unchanged_groups_iff (hes : PortableTable es) {ops : List (Text × Text)} {file : List Text}
    (hnames : ops.map Prod.fst = touched es) (hops : ∀ op ∈ ops, hasName op.1 op.2 = true) :
    Unchanged es file ((puts hits ops file).map (pattern.edits (memberships (users es)))) ↔
      ∀ line ∈ file, unnamed es line = true →
        (∀ g ∈ touched es, hits g line = false) ∧ (memberships (users es) = [] ∨ Clean line) := by
  have hmem : ∀ op ∈ ops, op.1 ∈ names es ∧ hasName op.1 op.2 = true := fun op hop =>
    ⟨touched_subset_names (hnames ▸ List.mem_map_of_mem hop), hops op hop⟩
  rw [Unchanged, sublist_map_puts_iff (unnamed_writes hes hmem) (unnamed_edits hes _)]
  refine forall₂_congr fun line _ => imp_congr_right fun _ => ?_
  rw [untouched_iff hnames]
  refine and_congr_right fun huntouched => edits_eq_iff ?_ ?_
  · exact fun p hp => (hes.names _ (memberships_names hp).1).no_colon
  · exact fun p hp => huntouched _ (memberships_names hp).2

theorem unchanged_users_iff (hes : PortableTable es) {ops : List (Text × Text)} {file : List Text}
    (hnames : ops.map Prod.fst = (users es).map (·.username)) (hops : ∀ op ∈ ops, hasName op.1 op.2 = true) :
    Unchanged es file (puts hits ops file) ↔
      ∀ line ∈ file, unnamed es line = true → ∀ e ∈ users es, hits e.username line = false := by
  have hmem : ∀ op ∈ ops, op.1 ∈ names es ∧ hasName op.1 op.2 = true := by
    intro op hop
    have hname : op.1 ∈ (users es).map (·.username) := hnames ▸ List.mem_map_of_mem hop
    obtain ⟨e, he, heq⟩ := List.mem_map.mp hname
    exact ⟨heq ▸ mem_names_username he, hops op hop⟩
  have hiff := @sublist_map_puts_iff _ _ hits _ file _ id (unnamed_writes hes hmem) fun _ => rfl
  rw [List.map_id] at hiff
  rw [Unchanged, hiff]
  refine forall₂_congr fun line _ => imp_congr_right fun _ => ?_
  rw [untouched_iff hnames, List.forall_mem_map]
  exact and_iff_left rfl

theorem memberships_eq_nil_iff : memberships es = [] ↔ ∀ e ∈ es, e.additional = [] := by
  rw [memberships, List.flatMap_eq_nil_iff]
  exact forall₂_congr fun e _ => List.map_eq_nil_iff

/-- No name of a user in the table selects the line. -/
def Apart (es : List Entry) (line : Text) : Prop := ∀ e ∈ users es, hits e.username line = false

/-- No name of a group in the table selects the line, and no edit changes it. -/
def GroupApart (es : List Entry) (line : Text) : Prop :=
  (∀ g ∈ touched es, hits g line = false) ∧ ((∀ e ∈ users es, e.additional = []) ∨ Clean line)

/-- A group file at the end of a run: a line without members for each group of the table, and
then the edits. -/
theorem main_lines (h : pattern.main env es s = .ok t) {f : File} {file : List Text}
    (hfile : s.lines f = some file) :
    ∃ ops : List (Text × Text), ops.map Prod.fst = touched es ∧
      (∀ op ∈ ops, ∃ b c, op.2 = quad op.1 b c [] ∧ ',' ∉ b ∧ ',' ∉ c) ∧
        t.lines f = some ((puts hits ops file).map (pattern.edits (memberships (users es)))) := by
  obtain ⟨ops, hnames, hg, hgs⟩ := main_groups h
  cases f with
  | group =>
    obtain rfl := Option.some.inj hfile
    refine ⟨groupOps ops, ?_, fun op hop => ?_, congrArg some hg⟩
    · rw [← hnames, groupOps, List.map_map]
      rfl
    · obtain ⟨op', -, rfl⟩ := List.mem_map.mp hop
      exact ⟨_, _, groupLine_eq _ _ _, by decide, not_mem_decimal (by decide) (by decide)⟩
  | gshadow =>
    have hlines : s.gshadow = some file := hfile
    refine ⟨gshadowOps ops, ?_, fun op hop => ?_, by rw [Target.lines, hgs, hlines]; rfl⟩
    · rw [← hnames, gshadowOps, List.map_map]
      rfl
    · obtain ⟨op', -, rfl⟩ := List.mem_map.mp hop
      exact ⟨_, _, gshadowLine_eq _ _, by decide, by decide⟩

/-- After a successful run the unnamed lines of all files are there, unchanged and in their order,
if and only if no unnamed line of `passwd` and `shadow` is selected by a username, no unnamed line of
`group` and `gshadow` is selected by a group, and, where users are added to additional groups, these
lines are clean. -/
theorem unnamed_unchanged_iff (hes : PortableTable es) (h : pattern.main env es s = .ok t) :
    (Unchanged es s.passwd t.passwd ∧ Unchanged es s.shadow t.shadow ∧
        ∀ f file, s.lines f = some file → ∃ file', t.lines f = some file' ∧ Unchanged es file file') ↔
      (∀ line ∈ s.passwd ++ s.shadow, unnamed es line = true → Apart es line) ∧
        ∀ f file, s.lines f = some file → ∀ line ∈ file, unnamed es line = true → GroupApart es line := by
  obtain ⟨pops, sops, hp, hs, hpops, hsops, hlines⟩ := main_users h
  have hpasswd : Unchanged es s.passwd t.passwd ↔ ∀ line ∈ s.passwd, unnamed es line = true → Apart es line :=
    hp ▸ unchanged_users_iff hes hpops fun op hop => hlines op (List.mem_append_left _ hop)
  have hshadow : Unchanged es s.shadow t.shadow ↔ ∀ line ∈ s.shadow, unnamed es line = true → Apart es line :=
    hs ▸ unchanged_users_iff hes hsops fun op hop => hlines op (List.mem_append_right _ hop)
  have hfile : ∀ f file, s.lines f = some file → ((∃ file', t.lines f = some file' ∧ Unchanged es file file') ↔
      ∀ line ∈ file, unnamed es line = true → GroupApart es line) := by
    intro f file hfile
    obtain ⟨ops, hnames, hops, hlines⟩ := main_lines h hfile
    have hhas : ∀ op ∈ ops, hasName op.1 op.2 = true := by
      intro op hop
      obtain ⟨b, c, heq, -⟩ := hops op hop
      rw [heq, quad_eq]
      exact hasName_line _ _
    simp only [GroupApart, ← memberships_eq_nil_iff]
    rw [← unchanged_groups_iff hes hnames hhas, hlines]
    constructor
    · rintro ⟨file', hfile', hun⟩
      obtain rfl := Option.some.inj hfile'
      exact hun
    · exact fun hun => ⟨_, rfl, hun⟩
  rw [hpasswd, hshadow, ← and_assoc, ← List.forall_mem_append]
  refine and_congr_right fun _ => ?_
  exact forall₃_congr hfile

/-- A table with a user whose name has a dot. -/
def dottedTable : List Entry :=
  [{ username := "a.b".toList, uid := some (-1), group := "ab".toList, gid := some (-1),
     passwd := "*".toList, home := "-".toList, shell := "-".toList, groups := "wheel".toList,
     comment := "-".toList }]

/-- Files with a user that the dotted name selects, and a group with an empty member. -/
def dottedFiles : Target where
  passwd := ["root:x:0:0:root:/root:/bin/sh".toList, "aab:x:7:7::/:/bin/false".toList]
  shadow := ["root:*:::::::".toList, "aab:*:::::::".toList]
  group := ["root:x:0:".toList, "adm:x:4:root,,daemon".toList]

theorem unnamed_unchanged_dotted :
    ∃ t, pattern.main plainEnv dottedTable dottedFiles = .ok t ∧
      ((Unchanged dottedTable dottedFiles.passwd t.passwd ∧ Unchanged dottedTable dottedFiles.shadow t.shadow ∧
          ∀ f file, dottedFiles.lines f = some file →
            ∃ file', t.lines f = some file' ∧ Unchanged dottedTable file file') ↔
        (∀ line ∈ dottedFiles.passwd ++ dottedFiles.shadow, unnamed dottedTable line = true →
            Apart dottedTable line) ∧
          ∀ f file, dottedFiles.lines f = some file → ∀ line ∈ file, unnamed dottedTable line = true →
            GroupApart dottedTable line) := by
  obtain ⟨t, ht, -⟩ := Exit.exists_of_any (pattern.main plainEnv dottedTable dottedFiles) (fun _ => true)
    (by decide +kernel)
  exact ⟨t, ht, unnamed_unchanged_iff ⟨by decide +kernel, by decide +kernel, by decide +kernel⟩ ht⟩

/-- Adding `a.b` to `wheel` removes the user `aab`, and the empty member of `adm`. -/
theorem unnamed_changed :
    ∃ t, pattern.main plainEnv dottedTable dottedFiles = .ok t ∧
      ¬ Unchanged dottedTable dottedFiles.passwd t.passwd ∧
      ¬ Unchanged dottedTable dottedFiles.shadow t.shadow ∧
      ¬ Unchanged dottedTable dottedFiles.group t.group := by
  obtain ⟨t, ht, hcond⟩ := Exit.exists_of_any (pattern.main plainEnv dottedTable dottedFiles)
    (fun t => ¬ Unchanged dottedTable dottedFiles.passwd t.passwd ∧
      ¬ Unchanged dottedTable dottedFiles.shadow t.shadow ∧
      ¬ Unchanged dottedTable dottedFiles.group t.group) (by decide +kernel)
  exact ⟨t, ht, of_decide_eq_true hcond⟩

end CargosBuildroot.Accounts
