import CargosBuildroot.Toolchain.Wrapper

/-! The vector that the toolchain wrapper hands to `execv`. All writes go to the
cursor of one buffer, so its contents are the appended arguments, and their number
is what bounds the indices. -/

namespace CargosBuildroot.Toolchain

open Shell Store

variable {m : Macros} {p : Paths} {argv : Argv}

/-- The predefined float ABI, unless an argument of the user is about it. -/
def floatArgs (m : Macros) (args : List Text) : List Text :=
  if args.any overridesFloat then [] else valueArg "-mfloat-abi=" m.floatAbi

/-- The predefined architecture and processor, unless an argument of the user is about them. -/
def cpuArgs (m : Macros) (args : List Text) : List Text :=
  if args.any overridesCpu then [] else valueArg "-march=" m.arch ++ valueArg "-mcpu=" m.cpu

/-- The loop has not found an argument. -/
theorem find_eq_argc (a : Argv) (f : Text → Bool) : a.find f = a.argc ↔ a.args.any f = false := by
  rw [Argv.find, Argv.argc, Nat.add_right_cancel_iff, List.findIdx_eq_length, List.any_eq_false]
  simp

theorem valueArg_length_le (text : String) (value : Option Text) : (valueArg text value).length ≤ 1 := by
  cases value <;> simp [valueArg]

theorem floatArgs_length_le (m : Macros) (args : List Text) : (floatArgs m args).length ≤ 1 := by
  unfold floatArgs
  split
  · simp
  · exact valueArg_length_le _ _

theorem cpuArgs_length_le (m : Macros) (args : List Text) : (cpuArgs m args).length ≤ 2 := by
  have harch := valueArg_length_le "-march=" m.arch
  have hcpu := valueArg_length_le "-mcpu=" m.cpu
  unfold cpuArgs
  split
  · simp
  · rw [List.length_append]
    omega

/-- All arguments, without the `NULL`. -/
def contents (m : Macros) (p : Paths) (argv : Argv) : List Text :=
  predefArgs m p ++ floatArgs m argv.args ++ cpuArgs m argv.args ++ argv.args

theorem contents_length_lt (m : Macros) (p : Paths) (argv : Argv) :
    (contents m p argv).length < slots m p argv := by
  have hfloat := floatArgs_length_le m argv.args
  have hcpu := cpuArgs_length_le m argv.args
  simp only [contents, slots, Argv.argc, exclusiveArgs, List.length_append]
  omega

theorem addFloatAbi_eq (m : Macros) (argv : Argv) (b : Buffer Ptr) :
    addFloatAbi m argv b = b.pushAll ((floatArgs m argv.args).map some) := by
  unfold addFloatAbi floatArgs
  cases m.floatAbi <;> cases h : argv.args.any overridesFloat <;>
    simp [valueArg, find_eq_argc, h, Buffer.pushAll_singleton]

theorem addCpu_eq (m : Macros) (argv : Argv) (b : Buffer Ptr) :
    addCpu m argv b = b.pushAll ((cpuArgs m argv.args).map some) := by
  unfold addCpu cpuArgs
  cases m.arch <;> cases m.cpu <;> cases h : argv.args.any overridesCpu <;>
    simp [valueArg, find_eq_argc, h, Buffer.pushAll]

/-- What is written to `args`, in order. -/
theorem fillArgs_eq (m : Macros) (p : Paths) (argv : Argv) :
    fillArgs m p argv =
      ((Buffer.alloc (slots m p argv)).pushAll ((contents m p argv).map some)).store none := by
  simp only [fillArgs, addFloatAbi_eq, addCpu_eq, contents, List.map_append, Buffer.pushAll_append]

/-- The buffer at the end: the arguments, the `NULL`, and the cells never written. -/
theorem fillArgs_spec (m : Macros) (p : Paths) (argv : Argv) :
    ∃ rest, (fillArgs m p argv).cells = (contents m p argv).map (some ∘ some) ++ some none :: rest ∧
      (fillArgs m p argv).written = List.range ((contents m p argv).length + 1) := by
  have hlt := contents_length_lt m p argv
  obtain ⟨k, hk⟩ : ∃ k, slots m p argv - (contents m p argv).length = k + 1 :=
    ⟨slots m p argv - (contents m p argv).length - 1, by omega⟩
  have hle : ((contents m p argv).map (some : Text → Ptr)).length ≤ slots m p argv := by
    rw [List.length_map]
    exact hlt.le
  refine ⟨List.replicate k none, ?_⟩
  rw [fillArgs_eq, Buffer.pushAll_alloc hle, Buffer.store]
  simp [hk, List.replicate_succ, List.range_succ, List.set_append_right]

theorem vector_eq (l : List Text) (rest : List (Option Ptr)) :
    vector (l.map (some ∘ some) ++ some none :: rest) = some l := by
  induction l with
  | nil => rfl
  | cons s l ih => simp [vector, ih]

/-- All writes are within the allocation, and unless the wrapper exits over an unsafe
path, `execv` gets the predefined arguments, the wanted ones among the float ABI, the
architecture and the processor, and the arguments of the user. -/
theorem exec_vector (m : Macros) (p : Paths) (env : Env) (argv : Argv) :
    (∀ i ∈ (fillArgs m p argv).written, i < slots m p argv) ∧
      (env.paranoid = true ∧ main m p env argv = .exit 1 ∨
        main m p env argv = .exec (some
          ((if m.ccache = true ∧ env.noCcache = true then (predefArgs m p).tail else predefArgs m p) ++
            floatArgs m argv.args ++ cpuArgs m argv.args ++ argv.args))) := by
  obtain ⟨rest, hcells, hwritten⟩ := fillArgs_spec m p argv
  constructor
  · intro i hi
    have hlt := contents_length_lt m p argv
    rw [hwritten, List.mem_range] at hi
    omega
  · by_cases hexit : (env.paranoid && (scanArgs argv.argc argv.args).any PathCheck.isUnsafe) = true
    · refine .inl ⟨(Bool.and_eq_true_iff.mp hexit).1, ?_⟩
      rw [main, if_pos hexit]
    · refine .inr ?_
      rw [main, if_neg hexit]
      by_cases hskip : m.ccache = true ∧ env.noCcache = true
      · have hpredef : predefArgs m p = p.ccachePath :: (predefArgs m p).tail := by
          simp [predefArgs, hskip.1]
        have hdrop : (fillArgs m p argv).cells.drop 1 = ((predefArgs m p).tail ++ floatArgs m argv.args ++
            cpuArgs m argv.args ++ argv.args).map (some ∘ some) ++ some none :: rest := by
          rw [hcells, contents, hpredef]
          rfl
        rw [if_pos (by simpa using hskip), if_pos hskip, hdrop]
        exact congrArg Outcome.exec (vector_eq _ _)
      · rw [if_neg (by simpa using hskip), if_neg hskip, hcells]
        exact congrArg Outcome.exec (vector_eq _ _)

end CargosBuildroot.Toolchain
