import Sysforge.Abi.AbiCheck
import Sysforge.Toml.Basic
import Sysforge.Toolchain.SonameGate

/-!
# The LLVM target filter

The backends that a build of LLVM keeps come from `toolchain.toml`, the hardware profile or a live
detection, in that order. Whichever it is, the list is extended with the backend that mesa links and
with every backend whose initialization symbols an installed consumer of the system libLLVM imports.
The packages of the LLVM suite do not count as consumers.
-/

namespace Sysforge.Toolchain

open Abi (Tools Ref undefinedVersioned)

/-! ## The installed consumers -/

/-- What the scans of the installed system see. -/
structure Scan where
  tools : Tools
  packages : Installed LocalPackage
  /-- `is_file`, after links -/
  isFile : Text → Bool
  isSymlink : Text → Bool
  isElf : Text → Bool
  /-- the paths below `/usr/lib`, relative and in order -/
  usrLib : List Text

/-- The endings of `_RE_LLVM_INIT_TARGET`. -/
def initSuffixes : List Text :=
  ["Target".toList, "TargetInfo".toList, "TargetMCA".toList, "TargetMC".toList,
    "AsmPrinter".toList, "AsmParser".toList, "Disassembler".toList]

/-- `_llvm_init_target`: the lazy group takes the shortest name; a symbol holds no line break. -/
def llvmInitTarget (sym : Text) : Option String :=
  if "LLVMInitialize".toList.isPrefixOf sym then
    let rest := sym.drop "LLVMInitialize".toList.length
    ((List.range rest.length).find? fun i =>
      0 < i && (rest.take i).all Char.isAlphanum && decide (rest.drop i ∈ initSuffixes)).map
      fun i => String.ofList (rest.take i)
  else none

/-- `_links_libllvm`, for any version. -/
def linksAnyLibllvm (deps : List String) : Bool :=
  deps.any fun dep =>
    ((Re.matchAt sonameRe dep.toList 0).any fun m =>
      m.group dep.toList 1 = "libLLVM.so".toList) ||
    dep.toList.takeWhile (fun c => c ≠ '<' && c ≠ '>' && c ≠ '=') = "llvm-libs".toList

variable (sc : Scan)

/-- The regular ELF files of a package. -/
def elfFiles (p : LocalPackage) : List Text :=
  (p.files.map fun rel => '/' :: rel.toList).filter fun path =>
    sc.isFile path && !sc.isSymlink path && sc.isElf path

/-- `libllvm_consumer_files`. -/
def libllvmConsumerFiles (exclude : List String) : List (String × List Text) :=
  ((sc.packages.sorted.filter fun q => decide (q.1 ∉ exclude) && linksAnyLibllvm q.2.depends).map
    fun q => (q.1, elfFiles sc q.2)).filter fun q => q.2 ≠ []

/-- The reference is to the initialization of a backend of libLLVM. -/
def initImport (r : Ref) : Option String :=
  if "LLVM_".toList.isPrefixOf r.2 then llvmInitTarget r.1 else none

/-- The backends that the files of a package import, one entry for each import. -/
def fileTargets (path : Text) : List String :=
  (undefinedVersioned sc.tools path).filterMap initImport

/-- `consumer_required_targets`. -/
def consumerRequiredTargets (exclude : List String) : List (String × List String) :=
  let needed := (libllvmConsumerFiles sc exclude).flatMap fun q =>
    (q.2.flatMap (fileTargets sc)).map fun t => (t, q.1)
  ((needed.map Prod.fst).dedup.insertionSort (· ≤ ·)).map fun t =>
    (t, ((needed.filter fun p => p.1 = t).map Prod.snd).dedup.insertionSort (· ≤ ·))

/-! ## Resolving the list -/

/-- `SYSTEM_LIBLLVM_CONSUMER_TARGETS`. -/
def systemLibllvmConsumerTargets : List String := ["AMDGPU"]

/-- `_ensure_installed_consumer_targets`. -/
def ensureInstalledConsumerTargets (targets : List String) : List String :=
  targets ++ ((consumerRequiredTargets sc llvmLockstepSuite).map Prod.fst).filter (· ∉ targets)

/-- `_ensure_system_consumer_targets`. -/
def ensureSystemConsumerTargets (targets : List String) : List String :=
  ensureInstalledConsumerTargets sc
    (targets ++ systemLibllvmConsumerTargets.filter (· ∉ targets))

/-- `str(t)`; `other` renders floats, dates, arrays and tables. -/
def strOf (other : Toml.Value → String) : Toml.Value → String
  | .str s => s
  | .int n => toString n
  | .bool true => "True"
  | .bool false => "False"
  | v => other v

/-- What `toolchain.toml` says. -/
inductive Explicit
  | absent
  /-- `_DISABLE_FILTERING` -/
  | disableFiltering
  | targets (ts : List String)
  deriving DecidableEq

/-- The items of a table under a key. -/
def tableAt (doc : Toml.Table) (key : String) : Option Toml.Table :=
  match doc.lookup key with
  | some (.table items) => some items
  | _ => none

/-- The values of an array under a key. -/
def arrayAt (doc : Toml.Table) (key : String) : Option (List Toml.Value) :=
  match doc.lookup key with
  | some (.array vs) => some vs
  | _ => none

/-- The files and the detection; a file that is absent or cannot be read has no table. -/
structure Sources where
  toolchain : Option Toml.Table
  hardwareProfile : Option Toml.Table
  live : List String
  other : Toml.Value → String

variable (src : Sources)

/-- `_read_toolchain_targets`. -/
def readToolchainTargets : Explicit :=
  match (src.toolchain.bind fun doc => tableAt doc "llvm").bind fun s => arrayAt s "targets" with
  | none => .absent
  | some [] => .disableFiltering
  | some vs => .targets (vs.map (strOf src.other))

/-- `_read_hardware_targets`; it raises on a `hardware` that is no table. -/
def readHardwareTargets : Except Unit (Option (List String)) :=
  match src.hardwareProfile.bind fun doc => doc.lookup "hardware" with
  | none => .ok none
  | some (.table items) => .ok <| (arrayAt items "llvm_targets").bind fun vs =>
      if vs.isEmpty then none else some (vs.map (strOf src.other))
  | some _ => .error ()

/-- `resolve_llvm_targets`. -/
def resolveLlvmTargets : Except Unit (Option (List String)) :=
  match readToolchainTargets src with
  | .disableFiltering => .ok none
  | .targets ts => .ok (some (ensureSystemConsumerTargets sc ts))
  | .absent => (readHardwareTargets src).map fun hw => hw.map (ensureSystemConsumerTargets sc)

/-- `resolve_or_detect_llvm_targets`. -/
def resolveOrDetectLlvmTargets : Except Unit (Option (List String)) :=
  if readToolchainTargets src = .disableFiltering then .ok none
  else (resolveLlvmTargets sc src).map fun targets =>
    match targets.filter (· ≠ []) with
    | some targets => some targets
    | none => if src.live = [] then none else some (ensureSystemConsumerTargets sc src.live)

/-! ## What the list holds -/

/-- The list of the first source that has one. -/
def sourceTargets : List String :=
  match readToolchainTargets src with
  | .targets ts => ts
  | .disableFiltering => []
  | .absent =>
    match readHardwareTargets src with
    | .ok (some hw) => hw
    | _ => src.live

/-- An installed consumer outside the suite imports an initialization symbol of the backend. -/
def Imported (b : String) : Prop :=
  ∃ n p, sc.packages.get n = some p ∧ n ∉ llvmLockstepSuite ∧ linksAnyLibllvm p.depends = true ∧
    ∃ path ∈ elfFiles sc p, b ∈ fileTargets sc path

/-- The filter keeps the backend: a source lists it, mesa needs it, or an installed consumer
imports it. -/
def Kept (b : String) : Prop :=
  b ∈ sourceTargets src ∨ b ∈ systemLibllvmConsumerTargets ∨ Imported sc b

variable {sc src} {b : String} {targets exclude : List String}

theorem mem_libllvmConsumerFiles {q : String × List Text} :
    q ∈ libllvmConsumerFiles sc exclude ↔ ∃ p, sc.packages.get q.1 = some p ∧ q.1 ∉ exclude ∧
      linksAnyLibllvm p.depends = true ∧ q.2 = elfFiles sc p ∧ q.2 ≠ [] := by
  rw [libllvmConsumerFiles, List.mem_filter, List.mem_map, decide_eq_true_iff]
  constructor
  · rintro ⟨⟨⟨n, p⟩, hq, rfl⟩, hne⟩
    obtain ⟨hp, hq⟩ := List.mem_filter.mp hq
    obtain ⟨hn, hl⟩ := (Bool.and_eq_true _ _).mp hq
    exact ⟨p, Dict.mem_sorted.mp hp, of_decide_eq_true hn, hl, rfl, hne⟩
  · rintro ⟨p, hp, hn, hl, hfiles, hne⟩
    refine ⟨⟨(q.1, p), List.mem_filter.mpr ⟨Dict.mem_sorted.mpr hp, ?_⟩, ?_⟩, hne⟩
    · exact (Bool.and_eq_true _ _).mpr ⟨decide_eq_true hn, hl⟩
    · rw [← hfiles]

theorem mem_consumerRequiredTargets :
    b ∈ (consumerRequiredTargets sc exclude).map Prod.fst ↔
      ∃ n p, sc.packages.get n = some p ∧ n ∉ exclude ∧ linksAnyLibllvm p.depends = true ∧
        ∃ path ∈ elfFiles sc p, b ∈ fileTargets sc path := by
  rw [consumerRequiredTargets, List.map_map]
  simp only [Function.comp_def, List.map_id', List.mem_insertionSort, List.mem_dedup, List.mem_map,
    List.mem_flatMap]
  constructor
  · rintro ⟨_, ⟨⟨n, files⟩, hq, t, ⟨path, hpath, ht⟩, rfl⟩, rfl⟩
    obtain ⟨p, hp, hn, hl, hfiles, -⟩ := mem_libllvmConsumerFiles.mp hq
    exact ⟨n, p, hp, hn, hl, path, hfiles ▸ hpath, ht⟩
  · rintro ⟨n, p, hp, hn, hl, path, hpath, ht⟩
    refine ⟨_, ⟨(n, elfFiles sc p), mem_libllvmConsumerFiles.mpr ⟨p, hp, hn, hl, rfl, ?_⟩, b,
      ⟨path, hpath, ht⟩, rfl⟩, rfl⟩
    exact List.ne_nil_of_mem hpath

theorem mem_ensureSystemConsumerTargets : b ∈ ensureSystemConsumerTargets sc targets ↔
    b ∈ targets ∨ b ∈ systemLibllvmConsumerTargets ∨ Imported sc b := by
  have hadd : ∀ (l added : List String), b ∈ l ++ added.filter (· ∉ l) ↔ b ∈ l ∨ b ∈ added := by
    intro l added
    rw [List.mem_append, List.mem_filter, decide_eq_true_iff]
    by_cases hb : b ∈ l
    · exact iff_of_true (.inl hb) (.inl hb)
    · rw [or_iff_right hb, or_iff_right hb, and_iff_left hb]
  rw [ensureSystemConsumerTargets, ensureInstalledConsumerTargets, hadd, hadd, or_assoc,
    mem_consumerRequiredTargets, Imported]

/-- **What a resolved list holds.** -/
theorem mem_resolveOrDetectLlvmTargets
    (h : resolveOrDetectLlvmTargets sc src = .ok (some targets)) : b ∈ targets ↔ Kept sc src b := by
  have hsome : ∀ ts, (some (ensureSystemConsumerTargets sc ts)).filter (· ≠ []) =
      some (ensureSystemConsumerTargets sc ts) := fun ts =>
    Option.filter_some.trans (if_pos (decide_eq_true (List.ne_nil_of_mem
      (mem_ensureSystemConsumerTargets.mpr (.inr (.inl (List.mem_singleton_self "AMDGPU")))))))
  have hkept : targets = ensureSystemConsumerTargets sc (sourceTargets src) := by
    rw [resolveOrDetectLlvmTargets, resolveLlvmTargets] at h
    rw [sourceTargets]
    cases hex : readToolchainTargets src with
    | disableFiltering =>
      rw [hex, if_pos rfl] at h
      cases h
    | targets ts =>
      rw [hex, if_neg nofun] at h
      dsimp only [Except.map] at h ⊢
      rw [hsome ts] at h
      cases h
      rfl
    | absent =>
      rw [hex, if_neg nofun] at h
      dsimp only at h ⊢
      cases hhw : readHardwareTargets src with
      | error u =>
        rw [hhw] at h
        cases h
      | ok hw =>
        cases hw with
        | some hw =>
          rw [hhw] at h
          dsimp only [Except.map, Option.map_some] at h ⊢
          rw [hsome hw] at h
          cases h
          rfl
        | none =>
          rw [hhw] at h
          dsimp only [Except.map, Option.map_none, Option.filter_none] at h ⊢
          by_cases hl : src.live = []
          · rw [if_pos hl] at h
            cases h
          · rw [if_neg hl] at h
            cases h
            rfl
  rw [hkept, mem_ensureSystemConsumerTargets, Kept]

end Sysforge.Toolchain
