import Sysforge.Toolchain.LlvmTargets

/-!
# The consumer gate

Before a built libLLVM is installed, the gate compares what it exports with what the installed
consumers import. An import that it lacks is healed by rebuilding the consumer, unless it is the
initialization of a backend: then the backend was dropped, and the gate refuses the batch. The
filter of the targets is there so that this does not happen, and so that no package outside the batch
is left without a backend. Both read the packages outside the LLVM suite only, so a package of the
suite that is installed and not in the batch escapes both (`gate_agrees_iff`).
-/

namespace Sysforge.Toolchain

open Abi (Ref refLe undefinedVersioned exportedVersioned neededSonames listSosInPkg extractSos)

variable (sc : Scan)

/-! ## The candidates -/

/-- `_SYSTEM_LIBLLVM_CONSUMER_GLOBS`. -/
def systemLibllvmConsumerGlobs : List Text :=
  ["libgallium-*.so".toList, "dri/*.so".toList, "libvulkan_radeon.so".toList,
    "libvulkan_lvp.so".toList]

/-- A relative path matches a pattern with at most one star; a star stays within a name. -/
def globMatches (pattern rel : Text) : Bool :=
  match Text.split '*' pattern with
  | [lit] => rel = lit
  | [before, after] =>
    before.isPrefixOf rel && after.isSuffixOf rel && before.length + after.length ≤ rel.length &&
      '/' ∉ (rel.drop before.length).take (rel.length - before.length - after.length)
  | _ => false

/-- A file to check: its package, when it is not known by its path, and whether it is graphics. -/
structure Candidate where
  path : Text
  pkg : Option String
  graphics : Bool

/-- The files of the globs. -/
def graphicsFiles : List Text :=
  (systemLibllvmConsumerGlobs.flatMap fun pattern =>
    (sc.usrLib.filter (globMatches pattern)).map fun rel => "/usr/lib/".toList ++ rel).filter
      fun path => sc.isFile path && !sc.isSymlink path

/-- A consumer's file joins the candidates, unless its path is among them. -/
def addCandidate (out : List Candidate) (c : Candidate) : List Candidate :=
  if c.path ∈ out.map Candidate.path then out else out ++ [c]

/-- `_consumer_candidates`. -/
def consumerCandidates (exclude : List String) : List Candidate :=
  let consumers := (libllvmConsumerFiles sc (llvmLockstepSuite ++ exclude)).flatMap fun q =>
    q.2.map fun path => Candidate.mk path (some q.1) false
  consumers.foldl addCandidate ((graphicsFiles sc).map fun path => ⟨path, none, true⟩)

/-! ## The findings -/

/-- `ToolchainFinding`. -/
structure ToolchainFinding where
  severity : String
  checkId : String
  message : String
  remediation : String
  isBrick : Bool
  healable : Bool

/-- The exports of the other libraries that the file needs, as they are installed. -/
def provided (newSoname path : Text) : List Ref :=
  ((neededSonames sc.tools path).filter (· ≠ newSoname)).flatMap fun soname =>
    ((Abi.resolve sc.tools path soname).map (exportedVersioned sc.tools)).getD []

/-- `missing`. -/
def missingRefs (newSoname : Text) (exported : List Ref) (path : Text) : List Ref :=
  let missing := ((undefinedVersioned sc.tools path).filter fun r =>
    "LLVM_".toList.isPrefixOf r.2 && !exported.contains r).insertionSort fun p q => refLe p q
  missing.filter fun r => !(provided sc newSoname path).contains r

/-- `f"{s}@{v}"`. -/
def refText (r : Ref) : String := String.ofList r.1 ++ "@" ++ String.ofList r.2

/-- The finding of a candidate with missing symbols; `builtAfter` is
`_consumer_built_after_libllvm`. -/
def consumerFinding (sourceLabel : String) (builtAfter : Text → Bool) (newSoname : Text)
    (c : Candidate) (missing : List Ref) : ToolchainFinding :=
  let consumer := String.ofList (Text.baseName c.path)
  let name := match c.pkg with
    | some pkg => consumer ++ " (" ++ pkg ++ ")"
    | none => consumer
  let soname := String.ofList newSoname
  let impact := if c.graphics then "mesa EGL/GL would fail to load: the whole desktop black-screens."
    else c.pkg.getD consumer ++ " would fail to load."
  let targets := (missing.filterMap fun r => llvmInitTarget r.1).dedup.insertionSort (· ≤ ·)
  let shown := ", ".intercalate ((missing.take 6).map refText)
  let more := if missing.length ≤ 6 then ""
    else " (+" ++ toString (missing.length - 6) ++ " more)"
  let count := toString missing.length
  if targets ≠ [] then
    { severity := "error"
      checkId := "libllvm_consumer_symbols"
      message := name ++ " links " ++ soname ++ " but the " ++ sourceLabel ++
        " libLLVM does not export " ++ count ++ " symbol(s) it imports; dropped LLVM target(s): " ++
        ", ".intercalate targets ++ ": " ++ shown ++ more ++ ". " ++ impact
      remediation := "Rebuild the toolchain with the dropped target(s) kept in " ++
        "LLVM_TARGETS_TO_BUILD (sysforge keeps the AMDGPU baseline " ++
        "and every backend an installed package imports: check " ++
        "toolchain.toml [llvm] targets for an explicit override that " ++
        "omits them). To recover a system already in this state, " ++
        "reinstall the official llvm-libs."
      isBrick := c.graphics
      healable := false }
  else if sourceLabel = "installed" ∧ builtAfter c.path = true then
    { severity := "error"
      checkId := "libllvm_consumer_symbols"
      message := name ++ " links " ++ soname ++ " but imports " ++ count ++
        " libstdc++ symbol(s) from the LLVM version namespace that the installed libLLVM does not " ++
        "export: " ++ shown ++ more ++ ". Its package was built after this libLLVM " ++
        "was installed, so it was linked against a different build " ++
        "of libLLVM (e.g. the repo one inside a sandbox container). Until fixed, " ++ impact
      remediation := "Do not rebuild it the same way: check how it was built " ++
        "(a sandboxed build must inject the host's libLLVM; see " ++
        "[security] sandbox_builds). Meanwhile restore the stock " ++
        "package: sudo pacman -S <consumer package>."
      isBrick := c.graphics
      healable := false }
  else
    { severity := "error"
      checkId := "libllvm_consumer_symbols"
      message := name ++ " links " ++ soname ++ " but the " ++ sourceLabel ++
        " libLLVM no longer re-exports " ++ count ++
        " libstdc++ symbol(s) it imports from the LLVM version namespace: " ++ shown ++ more ++
        ". The PGO (-fprofile-use) libLLVM inlined away " ++
        "the weak std:: copies the stock build globbed into the " ++
        "LLVM_<ver> node; rebuilding the consumer re-links them to libstdc++. Until then, " ++ impact
      remediation := "Rebuild the affected libLLVM consumer(s) against the new " ++
        "libLLVM so they re-link these symbols to libstdc++ " ++
        "(@GLIBCXX_*). sysforge does this automatically per " ++
        "rebuild_soname_consumers (prompt|auto|off); or rebuild them " ++
        "yourself with: sysforge build <consumer pkgbases>."
      isBrick := c.graphics
      healable := true }

/-- `_diff_consumers_against_libllvm`. -/
def diffConsumersAgainstLibllvm (libllvm : Text) (sourceLabel : String) (builtAfter : Text → Bool)
    (exclude : List String) : List ToolchainFinding :=
  let newSoname := Text.baseName libllvm
  let exported := exportedVersioned sc.tools libllvm
  if exported = [] then []
  else (consumerCandidates sc exclude).filterMap fun c =>
    if newSoname ∉ neededSonames sc.tools c.path then none
    else
      let missing := missingRefs sc newSoname exported c.path
      if missing = [] then none
      else some (consumerFinding sourceLabel builtAfter newSoname c missing)

/-- The member is a system libLLVM. -/
def isSystemLibllvm (member : Text) : Bool :=
  "usr/lib/".toList.isPrefixOf member && "libLLVM.so.".toList.isPrefixOf (Text.baseName member)

/-- `_extract_system_libllvm`: the extracted library. -/
def extractSystemLibllvm (pkgFiles : List Text) : Option Text :=
  pkgFiles.findSome? fun pkg => (listSosInPkg sc.tools pkg).findSome? fun member =>
    if isSystemLibllvm member then (extractSos sc.tools pkg [member]).head? else none

/-- `shipped_pkgnames`; `pkgname` reads the `.PKGINFO` of an archive. -/
def shippedPkgnames (pkgname : Text → Option String) (pkgFiles : List Text) : List String :=
  (pkgFiles.filterMap pkgname).filter (· ≠ "")

/-- `check_system_consumer_symbols`. -/
def checkSystemConsumerSymbols (pkgname : Text → Option String) (builtAfter : Text → Bool)
    (pkgFiles : List Text) : List ToolchainFinding :=
  match extractSystemLibllvm sc pkgFiles with
  | none => []
  | some libllvm => diffConsumersAgainstLibllvm sc libllvm "freshly-built" builtAfter
      (shippedPkgnames pkgname pkgFiles)

/-! ## What the gate checks -/

variable {sc} {exclude : List String} {path libllvm newSoname : Text} {exported : List Ref}
  {r : Ref} {c : Candidate} {n b : String} {p : LocalPackage} {pkgname : Text → Option String}
  {builtAfter : Text → Bool} {pkgFiles : List Text}

theorem mem_paths_foldl (cs out : List Candidate) :
    path ∈ (cs.foldl addCandidate out).map Candidate.path ↔
      path ∈ out.map Candidate.path ∨ path ∈ cs.map Candidate.path := by
  induction cs generalizing out with
  | nil => exact (or_iff_left List.not_mem_nil).symm
  | cons c cs ih =>
    rw [List.foldl_cons, ih, List.map_cons, List.mem_cons, ← or_assoc]
    refine or_congr_left ?_
    rw [addCandidate]
    split_ifs with hc
    · exact ⟨.inl, fun h => h.elim id fun h => h ▸ hc⟩
    · rw [List.map_append, List.mem_append, List.map_singleton, List.mem_singleton]

/-- An installed package that links the system libLLVM, and is not left out. -/
def Consumer (sc : Scan) (exclude : List String) (n : String) (p : LocalPackage) : Prop :=
  sc.packages.get n = some p ∧ n ∉ exclude ∧ linksAnyLibllvm p.depends = true

/-- The gate checks the files of the globs, and those of the consumers outside the suite and the
batch. -/
theorem mem_candidates : path ∈ (consumerCandidates sc exclude).map Candidate.path ↔
    path ∈ graphicsFiles sc ∨
      ∃ n p, Consumer sc (llvmLockstepSuite ++ exclude) n p ∧ path ∈ elfFiles sc p := by
  rw [consumerCandidates, mem_paths_foldl]
  simp only [List.map_map, List.map_flatMap, Function.comp_def, List.map_id', List.mem_flatMap]
  refine or_congr_right ⟨?_, ?_⟩
  · rintro ⟨⟨n, files⟩, hq, hpath⟩
    obtain ⟨p, hp, hn, hl, hfiles, -⟩ := mem_libllvmConsumerFiles.mp hq
    exact ⟨n, p, ⟨hp, hn, hl⟩, hfiles ▸ hpath⟩
  · rintro ⟨n, p, ⟨hp, hn, hl⟩, hpath⟩
    exact ⟨(n, elfFiles sc p), mem_libllvmConsumerFiles.mpr
      ⟨p, hp, hn, hl, rfl, List.ne_nil_of_mem hpath⟩, hpath⟩

theorem mem_missingRefs : r ∈ missingRefs sc newSoname exported path ↔
    r ∈ undefinedVersioned sc.tools path ∧ "LLVM_".toList.isPrefixOf r.2 = true ∧ r ∉ exported ∧
      r ∉ provided sc newSoname path := by
  have hnot (l : List Ref) : (!l.contains r) = true ↔ r ∉ l := by
    rw [Bool.not_eq_true', ← Bool.not_eq_true, List.contains_iff_mem]
  rw [missingRefs, List.mem_filter, List.mem_insertionSort, List.mem_filter, Bool.and_eq_true,
    hnot, hnot, and_assoc, and_assoc]

theorem initImport_isSome : (initImport r).isSome = true ↔
    "LLVM_".toList.isPrefixOf r.2 = true ∧ ∃ b, llvmInitTarget r.1 = some b := by
  rw [initImport, ← Option.isSome_iff_exists]
  split_ifs with h
  · rw [and_iff_right h]
  · exact iff_of_false nofun fun h' => h h'.1

theorem initImport_eq_some : initImport r = some b ↔
    "LLVM_".toList.isPrefixOf r.2 = true ∧ llvmInitTarget r.1 = some b := by
  rw [initImport]
  split_ifs with h
  · rw [and_iff_right h]
  · exact iff_of_false nofun fun h' => h h'.1

/-- A finding before the install is healable unless a backend was dropped. -/
theorem healable_consumerFinding {missing : List Ref} :
    (consumerFinding "freshly-built" builtAfter newSoname c missing).healable = true ↔
      ∀ r ∈ missing, llvmInitTarget r.1 = none := by
  have hnil : (missing.filterMap fun r => llvmInitTarget r.1).dedup.insertionSort (· ≤ ·) = [] ↔
      ∀ r ∈ missing, llvmInitTarget r.1 = none := by
    rw [← List.length_eq_zero_iff, List.length_insertionSort, List.length_eq_zero_iff,
      List.dedup_eq_nil, List.filterMap_eq_nil_iff]
  have hlabel : ¬("freshly-built" = "installed" ∧ builtAfter c.path = true) :=
    fun h => absurd h.1 (by decide)
  rw [← hnil, consumerFinding]
  by_cases h : (missing.filterMap fun r => llvmInitTarget r.1).dedup.insertionSort (· ≤ ·) = []
  · rw [if_neg (not_not.mpr h), if_neg hlabel]
    exact iff_of_true rfl h
  · rw [if_pos h]
    exact iff_of_false nofun h

/-- The gate reports a dropped backend exactly for an initialization symbol that a checked file
takes from this libLLVM, and that it does not export. -/
theorem check_healable_iff (h : extractSystemLibllvm sc pkgFiles = some libllvm) :
    (∀ f ∈ checkSystemConsumerSymbols sc pkgname builtAfter pkgFiles, f.healable = true) ↔
      (exportedVersioned sc.tools libllvm ≠ [] →
        ∀ path ∈ (consumerCandidates sc (shippedPkgnames pkgname pkgFiles)).map Candidate.path,
          Text.baseName libllvm ∈ neededSonames sc.tools path →
          ∀ r ∈ undefinedVersioned sc.tools path, (initImport r).isSome = true →
            r ∈ exportedVersioned sc.tools libllvm ∨
              r ∈ provided sc (Text.baseName libllvm) path) := by
  rw [checkSystemConsumerSymbols, h]
  dsimp only
  rw [diffConsumersAgainstLibllvm]
  by_cases hex : exportedVersioned sc.tools libllvm = []
  · rw [if_pos hex]
    exact iff_of_true (fun f hf => nomatch hf) fun hne => absurd hex hne
  · rw [if_neg hex]
    constructor
    · intro hall _ path hpath hneed r hr hinit
      obtain ⟨c, hc, rfl⟩ := List.mem_map.mp hpath
      obtain ⟨hver, t, ht⟩ := initImport_isSome.mp hinit
      by_contra hno
      rw [not_or] at hno
      have hmiss : r ∈ missingRefs sc (Text.baseName libllvm)
          (exportedVersioned sc.tools libllvm) c.path := mem_missingRefs.mpr ⟨hr, hver, hno⟩
      have hf := healable_consumerFinding.mp (hall _ (List.mem_filterMap.mpr ⟨c, hc, (if_neg
        (not_not.mpr hneed)).trans (if_neg (List.ne_nil_of_mem hmiss))⟩)) r hmiss
      rw [ht] at hf
      cases hf
    · intro hall f hf
      obtain ⟨c, hc, hf⟩ := List.mem_filterMap.mp hf
      by_cases hneed : Text.baseName libllvm ∉ neededSonames sc.tools c.path
      · rw [if_pos hneed] at hf
        cases hf
      rw [if_neg hneed] at hf
      dsimp only at hf
      by_cases hmiss : missingRefs sc (Text.baseName libllvm)
          (exportedVersioned sc.tools libllvm) c.path = []
      · rw [if_pos hmiss] at hf
        cases hf
      rw [if_neg hmiss, Option.some_inj] at hf
      rw [← hf]
      refine healable_consumerFinding.mpr fun r hr => ?_
      obtain ⟨hund, hver, hout⟩ := mem_missingRefs.mp hr
      by_contra hsome
      obtain ⟨t, ht⟩ := Option.ne_none_iff_exists'.mp hsome
      exact not_or.mpr hout (hall hex c.path (List.mem_map_of_mem hc) (not_not.mp hneed) r hund
        (initImport_isSome.mpr ⟨hver, t, ht⟩))

/-! ## The filter and the gate -/

/-- The built libLLVM keeps the soname, exports of the initialization symbols those of the backends
of the list, among the ones that a libLLVM with every backend has, and all else as before. -/
structure Filtered (sc : Scan) (pkgFiles : List Text) (targets : List String) (old : Text)
    (full : List Ref) (libllvm : Text) : Prop where
  found : extractSystemLibllvm sc pkgFiles = some libllvm
  soname : Text.baseName libllvm = Text.baseName old
  inits : ∀ r b, llvmInitTarget r.1 = some b →
    (r ∈ exportedVersioned sc.tools libllvm ↔ r ∈ full ∧ b ∈ targets)
  others : ∀ r, llvmInitTarget r.1 = none →
    (r ∈ exportedVersioned sc.tools libllvm ↔ r ∈ exportedVersioned sc.tools old)

/-- Every backend that a consumer outside the batch imports is in the list. -/
def Loads (sc : Scan) (shipped targets : List String) : Prop :=
  ∀ n p, Consumer sc shipped n p → ∀ path ∈ elfFiles sc p,
    ∀ r ∈ undefinedVersioned sc.tools path, ∀ b, llvmInitTarget r.1 = some b → b ∈ targets

/-- The gate takes the import of the file to be one of the built libLLVM. -/
def Asks (sc : Scan) (libllvm path : Text) (r : Ref) (b : String) : Prop :=
  Text.baseName libllvm ∈ neededSonames sc.tools path ∧ r ∈ undefinedVersioned sc.tools path ∧
    initImport r = some b ∧ r ∉ provided sc (Text.baseName libllvm) path

/-- **What the filter and the gate rest on.** -/
structure Sees (sc : Scan) (src : Sources) (shipped : List String) (full : List Ref)
    (libllvm : Text) : Prop where
  /-- a backend that a graphics file asks for is kept, and libLLVM has the symbol -/
  graphics : exportedVersioned sc.tools libllvm ≠ [] → ∀ path ∈ graphicsFiles sc, ∀ r b,
    Asks sc libllvm path r b → r ∈ full ∧ Kept sc src b
  /-- libLLVM has the symbols that the consumers ask for -/
  consumers : exportedVersioned sc.tools libllvm ≠ [] → ∀ n p,
    Consumer sc (llvmLockstepSuite ++ shipped) n p → ∀ path ∈ elfFiles sc p, ∀ r b,
      Asks sc libllvm path r b → r ∈ full
  /-- a backend is kept that a package of the suite outside the batch imports, or a consumer at a
  version that is none of LLVM's -/
  unseen : ∀ n p, Consumer sc shipped n p → ∀ path ∈ elfFiles sc p,
    ∀ r ∈ undefinedVersioned sc.tools path, ∀ b, llvmInitTarget r.1 = some b →
      n ∈ llvmLockstepSuite ∨ "LLVM_".toList.isPrefixOf r.2 = false → Kept sc src b

/-- **When the filter and the gate agree**: the gate reports no dropped backend, and no consumer
outside the batch lacks one, exactly when they see every import. -/
theorem gate_agrees_iff {src : Sources} {targets : List String} {old : Text} {full : List Ref}
    (hres : resolveOrDetectLlvmTargets sc src = .ok (some targets))
    (hbuilt : Filtered sc pkgFiles targets old full libllvm) :
    ((∀ f ∈ checkSystemConsumerSymbols sc pkgname builtAfter pkgFiles, f.healable = true) ∧
        Loads sc (shippedPkgnames pkgname pkgFiles) targets) ↔
      Sees sc src (shippedPkgnames pkgname pkgFiles) full libllvm := by
  have hkept : ∀ b, b ∈ targets ↔ Kept sc src b := fun b => mem_resolveOrDetectLlvmTargets hres
  -- an import that no other library provides is in the built library
  have hasks : ∀ {path r b}, Asks sc libllvm path r b →
      (r ∈ exportedVersioned sc.tools libllvm ∨ r ∈ provided sc (Text.baseName libllvm) path ↔
        r ∈ full ∧ Kept sc src b) := by
    rintro path r b ⟨-, -, hinit, hno⟩
    rw [or_iff_left hno, hbuilt.inits r b (initImport_eq_some.mp hinit).2, hkept]
  have himported : ∀ {exclude n p path r b}, Consumer sc (llvmLockstepSuite ++ exclude) n p →
      path ∈ elfFiles sc p → r ∈ undefinedVersioned sc.tools path → initImport r = some b →
      Kept sc src b := by
    rintro exclude n p path r b ⟨hp, hn, hl⟩ hpath hr hinit
    exact .inr (.inr ⟨n, p, hp, fun h => hn (List.mem_append_left _ h), hl, path, hpath,
      List.mem_filterMap.mpr ⟨r, hr, hinit⟩⟩)
  rw [check_healable_iff hbuilt.found]
  constructor
  · rintro ⟨hgate, hloads⟩
    refine ⟨fun hex path hpath r b ha => ?_, fun hex n p hc path hpath r b ha => ?_,
      fun n p hc path hpath r hr b hb _ => (hkept b).mp (hloads n p hc path hpath r hr b hb)⟩
    · exact (hasks ha).mp (hgate hex path (mem_candidates.mpr (.inl hpath)) ha.1 r ha.2.1
        (Option.isSome_iff_exists.mpr ⟨b, ha.2.2.1⟩))
    · exact ((hasks ha).mp (hgate hex path (mem_candidates.mpr (.inr ⟨n, p, hc, hpath⟩)) ha.1 r
        ha.2.1 (Option.isSome_iff_exists.mpr ⟨b, ha.2.2.1⟩))).1
  · rintro ⟨hgraphics, hconsumers, hunseen⟩
    constructor
    · intro hex path hpath hneed r hr hinit
      obtain ⟨b, hb⟩ := Option.isSome_iff_exists.mp hinit
      by_cases hprov : r ∈ provided sc (Text.baseName libllvm) path
      · exact .inr hprov
      have ha : Asks sc libllvm path r b := ⟨hneed, hr, hb, hprov⟩
      rcases mem_candidates.mp hpath with hpath | ⟨n, p, hc, hpath⟩
      · exact (hasks ha).mpr (hgraphics hex path hpath r b ha)
      · exact (hasks ha).mpr ⟨hconsumers hex n p hc path hpath r b ha, himported hc hpath hr hb⟩
    · intro n p hc path hpath r hr b hb
      rw [hkept]
      by_cases hseen : n ∈ llvmLockstepSuite ∨ "LLVM_".toList.isPrefixOf r.2 = false
      · exact hunseen n p hc path hpath r hr b hb hseen
      · obtain ⟨hn, hver⟩ := not_or.mp hseen
        have hc' : Consumer sc (llvmLockstepSuite ++ []) n p :=
          ⟨hc.1, by rwa [List.append_nil], hc.2.2⟩
        exact himported hc' hpath hr
          (initImport_eq_some.mpr ⟨Bool.not_eq_false _ ▸ hver, hb⟩)

/-! ## A suite package outside the batch -/

/-- `nm -D` of a libLLVM with the backends. -/
def nmOf (backends : List String) : Text :=
  (String.join ((backends.map fun b => "1000 T LLVMInitialize" ++ b ++
    "Target@@LLVM_22.1\n") ++ ["2000 T LLVMContextCreate@@LLVM_22.1\n"])).toList

/-- The installed libLLVM has three backends, the built one two of them; the installed clang imports
the third. -/
def clangTools : Abi.Tools where
  listing _ := some "-rwxr-xr-x  0 root   root  100 Jan  1 00:00 usr/lib/libLLVM.so.22.1\n".toList
  extracted _ member := some ("/tmp/".toList ++ member)
  nm path :=
    some (if path = "/usr/bin/clang".toList then
        " U LLVMInitializeARMTarget@LLVM_22.1\n".toList
      else if path = "/usr/lib/libLLVM.so.22.1".toList then nmOf ["X86", "AMDGPU", "ARM"]
      else nmOf ["X86", "AMDGPU"])
  dynamic _ := some " 0x0000000000000001 (NEEDED) Shared library: [libLLVM.so.22.1]\n".toList
  versionInfo _ := none
  header _ := some "  Class:                             ELF64\n".toList
  ldconfig := some "\tlibLLVM.so.22.1 (libc6,x86-64) => /usr/lib/libLLVM.so.22.1\n".toList
  cxxfilt _ := none
  owner _ := none
  alnum _ := false
  printable _ := false

/-- clang is installed. -/
def clangScan : Scan where
  tools := clangTools
  packages := .ofItems [("clang", ⟨some "llvm", ["llvm-libs"], ["usr/bin/clang"]⟩)]
  isFile _ := true
  isSymlink _ := false
  isElf _ := true
  usrLib := []

/-- `toolchain.toml` asks for one backend. -/
def clangSources : Sources where
  toolchain := some [("llvm", .table [("targets", .array [.str "X86"])])]
  hardwareProfile := none
  live := []
  other _ := ""

/-- The initialization symbols of a libLLVM with every backend. -/
def fullInits : List Ref :=
  ["X86", "AMDGPU", "ARM"].map fun b =>
    (("LLVMInitialize" ++ b ++ "Target").toList, "LLVM_22.1".toList)

/-- The batch: the libraries of LLVM, without clang. -/
def llvmBatch : List Text := ["/build/llvm-libs-22.1.5-1-x86_64.pkg.tar.zst".toList]

theorem resolve_clang :
    resolveOrDetectLlvmTargets clangScan clangSources = .ok (some ["X86", "AMDGPU"]) := by
  decide

theorem extract_clang : extractSystemLibllvm clangScan llvmBatch =
    some "/tmp/usr/lib/libLLVM.so.22.1".toList := by
  decide

theorem exports_built : exportedVersioned clangTools "/tmp/usr/lib/libLLVM.so.22.1".toList =
    fullInits.take 2 ++ [("LLVMContextCreate".toList, "LLVM_22.1".toList)] := by
  decide +kernel

theorem exports_installed : exportedVersioned clangTools "/usr/lib/libLLVM.so.22.1".toList =
    fullInits ++ [("LLVMContextCreate".toList, "LLVM_22.1".toList)] := by
  decide +kernel

theorem filtered_clang : Filtered clangScan llvmBatch ["X86", "AMDGPU"]
    "/usr/lib/libLLVM.so.22.1".toList fullInits "/tmp/usr/lib/libLLVM.so.22.1".toList := by
  have hinits : (∀ r ∈ fullInits.take 2 ++ [("LLVMContextCreate".toList, "LLVM_22.1".toList)],
      (llvmInitTarget r.1).all (fun b => decide (r ∈ fullInits ∧ b ∈ ["X86", "AMDGPU"]))) ∧
      ∀ r ∈ fullInits, (llvmInitTarget r.1).all (fun b => decide (b ∈ ["X86", "AMDGPU"] →
        r ∈ fullInits.take 2 ++ [("LLVMContextCreate".toList, "LLVM_22.1".toList)])) := by
    decide
  have hothers : ∀ r ∈ fullInits ++ [("LLVMContextCreate".toList, "LLVM_22.1".toList)],
      llvmInitTarget r.1 = none →
        r ∈ fullInits.take 2 ++ [("LLVMContextCreate".toList, "LLVM_22.1".toList)] := by
    decide
  refine ⟨extract_clang, by decide, fun r b hb => ?_, fun r hr => ?_⟩
  · rw [show clangScan.tools = clangTools from rfl, exports_built]
    refine ⟨fun hmem => ?_, fun hmem => ?_⟩
    · have h := hinits.1 r hmem
      rw [hb] at h
      exact of_decide_eq_true h
    · have h := hinits.2 r hmem.1
      rw [hb] at h
      exact of_decide_eq_true h hmem.2
  · rw [show clangScan.tools = clangTools from rfl, exports_built, exports_installed]
    refine ⟨fun hmem => ?_, fun hmem => hothers r hmem hr⟩
    rcases List.mem_append.mp hmem with hmem | hmem
    · exact List.mem_append_left _ (List.mem_of_mem_take hmem)
    · exact List.mem_append_right _ hmem

/-- The filter drops a backend that the installed clang imports, and the gate lets the batch
through. -/
theorem clang_lacks_backend :
    resolveOrDetectLlvmTargets clangScan clangSources = .ok (some ["X86", "AMDGPU"]) ∧
      Filtered clangScan llvmBatch ["X86", "AMDGPU"] "/usr/lib/libLLVM.so.22.1".toList fullInits
        "/tmp/usr/lib/libLLVM.so.22.1".toList ∧
      checkSystemConsumerSymbols clangScan (fun _ => some "llvm-libs") (fun _ => false)
        llvmBatch = [] ∧
      ¬Loads clangScan (shippedPkgnames (fun _ => some "llvm-libs") llvmBatch)
        ["X86", "AMDGPU"] := by
  have hcandidates : (consumerCandidates clangScan (shippedPkgnames (fun _ => some "llvm-libs")
      llvmBatch)).length = 0 := by decide
  refine ⟨resolve_clang, filtered_clang, ?_, fun h => ?_⟩
  · rw [checkSystemConsumerSymbols, extract_clang]
    dsimp only
    rw [diffConsumersAgainstLibllvm, List.eq_nil_of_length_eq_zero hcandidates]
    exact ite_self []
  · have hmem : "ARM" ∈ ["X86", "AMDGPU"] :=
      h "clang" ⟨some "llvm", ["llvm-libs"], ["usr/bin/clang"]⟩
        ⟨by rfl, by decide, by decide⟩ "/usr/bin/clang".toList (by decide)
        ("LLVMInitializeARMTarget".toList, "LLVM_22.1".toList) (by decide) "ARM"
        (by decide)
    exact absurd hmem (by decide)

/-- The condition on that batch. -/
theorem gate_agrees_clang :
    ((∀ f ∈ checkSystemConsumerSymbols clangScan (fun _ => some "llvm-libs") (fun _ => false)
        llvmBatch, f.healable = true) ∧
      Loads clangScan (shippedPkgnames (fun _ => some "llvm-libs") llvmBatch) ["X86", "AMDGPU"]) ↔
      Sees clangScan clangSources (shippedPkgnames (fun _ => some "llvm-libs") llvmBatch) fullInits
        "/tmp/usr/lib/libLLVM.so.22.1".toList :=
  gate_agrees_iff resolve_clang filtered_clang

end Sysforge.Toolchain
