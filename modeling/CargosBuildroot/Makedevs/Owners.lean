import CargosBuildroot.Makedevs.Independence

/-! The owners of an entry line by number. `strtoul` stops at the largest number of 64 bits, and
the ids have 32 bits: a number that does not fit is not an error but another id. -/

namespace CargosBuildroot.Makedevs

open Shell

/-- Decimal digits. -/
def Numeric (t : Text) : Prop := t ≠ [] ∧ ∀ c ∈ t, isDigit 10 c = true

/-- The owners in the calls of the line are the numbers that the line gives. -/
def FaceValue (env : Env) (line : Text) : Prop :=
  ∀ (σ : Type) (k : System σ) (st : State) (s : σ) (path : Text) (uid gid : UInt32),
    .chown path uid gid ∈ (mainLine env k line st s).2.1 →
      (∀ user ∈ (sscanf line).user, Numeric user → uid.toNat = digitsValue 10 user) ∧
        ∀ group ∈ (sscanf line).group, Numeric group → gid.toNat = digitsValue 10 group

/-- The line sets no owner: it is an `|xattr` line, it is rejected or a comment, its type is not
supported, or its user or its group is not known. -/
def Ownerless (env : Env) (line : Text) : Prop :=
  (scanXattr line).isSome ∨ Silent env line ∨
    ∃ group ∈ (sscanf line).group, ownerId group env.group env.getgid = none

/-! ### The id for a number -/

theorem ownerId_numeric {t : Text} (h : Numeric t) (file : List (Text × UInt32)) (own : UInt32) :
    ownerId t file own = some (UInt32.ofNat (signed false (digitsValue 10 t))) := by
  have hnumber : number 10 ([] ++ (t ++ [])) = _ :=
    number_field (by simp) h.1 h.2 (by simp [FieldEnd])
  rw [List.nil_append, List.append_nil] at hnumber
  rw [ownerId, if_pos h.1, getUgId, strtoul, hnumber, Option.getD_some, if_neg, Option.map_some]
  exact not_or.mpr ⟨not_not.mpr rfl, h.1.symm⟩

/-- The id is the number exactly if it fits. -/
theorem toNat_signed_iff (n : ℕ) : (UInt32.ofNat (signed false n)).toNat = n ↔ n < 2 ^ 32 := by
  rw [UInt32.toNat_ofNat', signed, ulongMax]
  split
  · omega
  · rw [if_neg Bool.false_ne_true]
    omega

/-! ### The owners of a line -/

/-- The owner in a call comes from the buffers of an entry line. -/
theorem exists_of_chown {env : Env} {σ : Type} {k : System σ} {line : Text} {st : State} {s : σ}
    {path : Text} {uid gid : UInt32} (h : .chown path uid gid ∈ (mainLine env k line st s).2.1) :
    ¬ Ownerless env line ∧
      ownerId (st.buffers.store (sscanf line)).user env.passwd env.getuid = some uid ∧
      ownerId (st.buffers.store (sscanf line)).group env.group env.getgid = some gid := by
  cases hx : scanXattr line with
  | some xattr =>
    rw [mainLine, hx] at h
    dsimp only at h
    split at h <;> simp at h
  | none =>
    rw [mainLine_calls hx] at h
    obtain ⟨hsilent, huid, hgid⟩ := of_chown h
    refine ⟨?_, huid, hgid⟩
    rintro (hxattr | hs | ⟨group, hgroup, hnone⟩)
    · rw [hx] at hxattr
      cases hxattr
    · exact hsilent hs
    · rw [store_group _ hgroup, hnone] at hgid
      cases hgid

/-- A line that is not ownerless sets an owner, after any line that leaves no names behind. -/
theorem chown_of_not_ownerless {env : Env} {line : Text} (h : ¬ Ownerless env line) :
    ∃ path uid gid, .chown path uid gid ∈
      (mainLine env allOk line ⟨⟨[], ' ', [], []⟩, none, false⟩ ()).2.1 := by
  simp only [Ownerless, not_or, not_exists, not_and] at h
  obtain ⟨hxattr, hsilent, hgroup⟩ := h
  rw [mainLine_calls (by simpa using hxattr)]
  set b : Buffers := ⟨[], ' ', [], []⟩ with hb
  have hgid : ∃ gid, ownerId (b.store (sscanf line)).group env.group env.getgid = some gid := by
    cases hg : (sscanf line).group with
    | none => exact ⟨env.getgid, by rw [Buffers.store, hg]; rfl⟩
    | some group =>
      rw [store_group b hg]
      exact Option.ne_none_iff_exists'.mp (hgroup group hg)
  obtain ⟨gid, hgid⟩ := hgid
  have hown : ownerId b.user env.passwd env.getuid = some env.getuid := rfl
  obtain ⟨uid, huid⟩ := exists_uid hsilent hown
  obtain ⟨path, hchown⟩ := exists_chown hsilent huid hgid
  exact ⟨path, uid, gid, hchown⟩

/-- For every line the numeric owners are taken at face value if and only if the line sets no
owner or they fit 32 bits. -/
theorem faceValue_iff (env : Env) (line : Text) : FaceValue env line ↔ Ownerless env line ∨
    ((∀ user ∈ (sscanf line).user, Numeric user → digitsValue 10 user < 2 ^ 32) ∧
      ∀ group ∈ (sscanf line).group, Numeric group → digitsValue 10 group < 2 ^ 32) := by
  have hid : ∀ {file own field id}, Numeric field → ownerId field file own = some id →
      (id.toNat = digitsValue 10 field ↔ digitsValue 10 field < 2 ^ 32) := by
    intro file own field id hnumeric hown
    rw [ownerId_numeric hnumeric, Option.some_inj] at hown
    rw [← hown]
    exact toNat_signed_iff _
  constructor
  · intro h
    by_contra hnot
    rw [not_or] at hnot
    obtain ⟨path, uid, gid, hchown⟩ := chown_of_not_ownerless hnot.1
    obtain ⟨-, huid, hgid⟩ := exists_of_chown hchown
    obtain ⟨hu, hg⟩ := h _ _ _ _ _ _ _ hchown
    refine hnot.2 ⟨fun user hmem hnumeric => ?_, fun group hmem hnumeric => ?_⟩
    · rw [store_user _ hmem] at huid
      exact (hid hnumeric huid).mp (hu user hmem hnumeric)
    · rw [store_group _ hmem] at hgid
      exact (hid hnumeric hgid).mp (hg group hmem hnumeric)
  · intro h σ k st s path uid gid hchown
    obtain ⟨howner, huid, hgid⟩ := exists_of_chown hchown
    obtain ⟨hu, hg⟩ := h.resolve_left howner
    refine ⟨fun user hmem hnumeric => ?_, fun group hmem hnumeric => ?_⟩
    · rw [store_user _ hmem] at huid
      exact (hid hnumeric huid).mpr (hu user hmem hnumeric)
    · rw [store_group _ hmem] at hgid
      exact (hid hnumeric hgid).mpr (hg group hmem hnumeric)

/-- The user 4294967296 is root. -/
theorem owner_wraps :
    (mainLine plainEnv allOk "/etc/shadow f 600 4294967296 0".toList
        ⟨⟨[], 'd', [], []⟩, none, false⟩ ()).2.1 =
      [.statRegular "/target/etc/shadow".toList, .chown "/target/etc/shadow".toList 0 0,
        .chmod "/target/etc/shadow".toList 0o600] ∧
    ¬ FaceValue plainEnv "/etc/shadow f 600 4294967296 0".toList := by
  refine ⟨by decide, fun h => ?_⟩
  have huser := (h Unit allOk ⟨⟨[], 'd', [], []⟩, none, false⟩ () "/target/etc/shadow".toList 0 0
    (by decide)).1 "4294967296".toList (by decide) ⟨by decide, List.all_eq_true.mp rfl⟩
  exact absurd huser (by decide)

end CargosBuildroot.Makedevs
