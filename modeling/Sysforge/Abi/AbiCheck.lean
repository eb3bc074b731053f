import Mathlib.Data.Char
import Mathlib.Data.List.Dedup
import Mathlib.Data.List.Lex
import Mathlib.Data.List.Sort
import Sysforge.Foundations.Dict
import Sysforge.Foundations.Lines
import Sysforge.Foundations.Regex

/-!
# The ABI check

Each shared object of a built package is checked against the libraries it needs as they are
installed: what `nm` lists as undefined at a symbol version must be exported by one of them. The
tools are functions from a path to their output, absent when they fail.
-/

namespace Sysforge.Abi

/-- What the tools answer, and two Unicode properties. -/
structure Tools where
  /-- `bsdtar -t -v -f pkg` -/
  listing : Text → Option Text
  /-- where a member of a package is extracted, when it is a file there -/
  extracted : Text → Text → Option Text
  /-- `nm -D` -/
  nm : Text → Option Text
  /-- `readelf -d` -/
  dynamic : Text → Option Text
  /-- `readelf --version-info` -/
  versionInfo : Text → Option Text
  /-- `readelf -h` -/
  header : Text → Option Text
  /-- `ldconfig -p` -/
  ldconfig : Option Text
  /-- `c++filt` -/
  cxxfilt : List Text → Option Text
  /-- `pacman -Qo` -/
  owner : Text → Option Text
  /-- the letters and digits beyond ASCII -/
  alnum : Char → Bool
  /-- `str.isprintable` -/
  printable : Char → Bool

/-- A symbol and the version it is required or exported at. -/
abbrev Ref := Text × Text

/-- `name.partition(sep)` without the separator. -/
def partition (sep name : Text) : Text × Text :=
  match Text.find sep name with
  | none => (name, [])
  | some i => (name.take i, name.drop (i + sep.length))

/-- `repr(s)`. -/
def repr (printable : Char → Bool) (s : Text) : Text :=
  let q : Char := if '\'' ∈ s ∧ '"' ∉ s then '"' else '\''
  let hex (n k : ℕ) : Text := List.leftpad n '0' (Nat.toDigits 16 k)
  q :: (s.flatMap fun c =>
    if c = q ∨ c = '\\' then ['\\', c]
    else if c = '\n' then ['\\', 'n']
    else if c = '\r' then ['\\', 'r']
    else if c = '\t' then ['\\', 't']
    else if c.toNat < 128 then
      if 32 ≤ c.toNat ∧ c.toNat < 127 then [c] else '\\' :: 'x' :: hex 2 c.toNat
    else if printable c then [c]
    else if c.toNat < 0x100 then '\\' :: 'x' :: hex 2 c.toNat
    else if c.toNat < 0x10000 then '\\' :: 'u' :: hex 4 c.toNat
    else '\\' :: 'U' :: hex 8 c.toNat) ++ [q]

/-! ## The shared objects of a package -/

/-- The pattern, repeated. -/
def times : ℕ → Re → Re
  | 0, _ => .empty
  | n + 1, r => .seq r (times n r)

/-- The patterns, one after the other. -/
def seqs : List Re → Re
  | [] => .empty
  | [r] => r
  | r :: rs => .seq r (seqs rs)

/-- `_RE_TV_LINE`. -/
def reTvLine : Re := seqs [.bol, .group 1 (.char fun c => c ∈ "-dlhcbps".toList),
  times 9 (.char fun c => c ∈ "rwxsStT-".toList), .star .nonSpace, .plus .space,
  times 7 (.seq (.plus .nonSpace) (.plus .space)), .group 2 (.plus .dot), .eol]

/-- `_RE_SO_NAME`. -/
def reSoName : Re := seqs [.lit ".so".toList,
  .star (.seq (.lit1 '.') (.plus (.char Text.isDecimal))), .eol]

/-- `_is_shared_object_name`. -/
def isSharedObjectName (name : Text) : Bool := (Re.search reSoName (Text.baseName name)).isSome

/-- The member a line of the listing names, links and directories apart. -/
def memberName (raw : Text) : Option Text :=
  match Re.matchAt reTvLine raw 0 with
  | some m =>
    if m.group raw 1 ≠ ['-'] then none
    else if Text.contains " link to ".toList (m.group raw 2) then none
    else some (m.group raw 2)
  | none => some raw

/-- `_list_sos_in_pkg`. -/
def listSosInPkg (t : Tools) (pkg : Text) : List Text :=
  match t.listing pkg with
  | none => []
  | some out => ((Text.splitlines out).filterMap fun raw =>
      (memberName raw).map fun name => name.rdropWhile fun c => c = '/').filter isSharedObjectName

/-- `_extract_sos`: the paths of the members that are there. -/
def extractSos (t : Tools) (pkg : Text) (members : List Text) : List Text :=
  members.filterMap (t.extracted pkg)

/-! ## Parsing what the tools print -/

/-- The reference of a line of `nm -D` that is strong and undefined at a version. -/
def undefinedOf (line : Text) : Option Ref :=
  match Text.words line with
  | [typ, name] =>
    if typ ≠ ['U'] then none
    else if '@' ∉ name ∨ Text.contains ['@', '@'] name then none
    else
      let p := partition ['@'] name
      if p.1 ≠ [] ∧ p.2 ≠ [] then some p else none
  | _ => none

/-- `_parse_nm_undefined`, as a list of the set's members. -/
def parseNmUndefined (out : Text) : List Ref := ((Text.splitlines out).filterMap undefinedOf).dedup

/-- `_undefined_versioned`. -/
def undefinedVersioned (t : Tools) (so : Text) : List Ref :=
  match t.nm so with
  | none => []
  | some out => parseNmUndefined out

/-- The definition of a line of `nm -D`, at its default version or at another. -/
def exportOf (line : Text) : Option Ref :=
  match Text.words line with
  | _ :: _ :: name :: _ =>
    let p := if Text.contains ['@', '@'] name then partition ['@', '@'] name
      else partition ['@'] name
    if p.1 ≠ [] ∧ p.2 ≠ [] then some p else none
  | _ => none

/-- `_parse_nm_exports`. -/
def parseNmExports (out : Text) : List Ref := (Text.splitlines out).filterMap exportOf

/-- `_exported_versioned`; its cache holds what the function would return. -/
def exportedVersioned (t : Tools) (lib : Text) : List Ref :=
  match t.nm lib with
  | none => []
  | some out => parseNmExports out

/-- `_RE_NEEDED`. -/
def reNeeded : Re := seqs [.lit "(NEEDED)".toList, .plus .space, .lit "Shared library:".toList,
  .plus .space, .lit1 '[', .group 1 (.plus (.char fun c => c ≠ ']')), .lit1 ']']

/-- `needed_sonames`. -/
def neededSonames (t : Tools) (so : Text) : List Text :=
  match t.dynamic so with
  | none => []
  | some out => (Re.finditer reNeeded out).map fun m => m.group out 1

/-- `_RE_VERNEED_FILE` and `_RE_VERNEED_NAME`. -/
def reVerneed (t : Tools) (field : Text) : Re :=
  seqs [.boundary (Re.isWord t.alnum), .lit field, .plus .space, .group 1 (.plus .nonSpace)]

/-- The first group of the first match. -/
def searchGroup (r : Re) (line : Text) : Option Text :=
  (Re.search r line).map fun m => m.group line 1

/-- The lines of `_parse_verneed`, from the values of `in_verneed` and `current_file` on. -/
def parseVerneedLines (t : Tools) : Bool → Option Text → List Text → List (Text × Text)
  | _, _, [] => []
  | inVerneed, currentFile, line :: lines =>
    if Text.contains "Version needs section".toList line then
      parseVerneedLines t true none lines
    else if Text.contains "Version definition section".toList line ∨
        Text.contains "Version symbols section".toList line then
      parseVerneedLines t false currentFile lines
    else if inVerneed = false then parseVerneedLines t inVerneed currentFile lines
    else
      match searchGroup (reVerneed t "File:".toList) line with
      | some file => parseVerneedLines t inVerneed (some file) lines
      | none =>
        match searchGroup (reVerneed t "Name:".toList) line, currentFile with
        | some name, some file => (name, file) :: parseVerneedLines t inVerneed currentFile lines
        | _, _ => parseVerneedLines t inVerneed currentFile lines

/-- `_parse_verneed`, as the list of its versions, each with one of the sonames it maps to. -/
def parseVerneed (t : Tools) (versionInfo : Text) : List (Text × Text) :=
  parseVerneedLines t false none (Text.splitlines versionInfo)

/-- `_verneed_map`. -/
def verneedMap (t : Tools) (so : Text) : List (Text × Text) :=
  match t.versionInfo so with
  | none => []
  | some out => parseVerneed t out

/-- `verneed.get(ver, set())`. -/
def bound (verneed : List (Text × Text)) (ver : Text) : List Text :=
  ((verneed.filter fun p => p.1 = ver).map Prod.snd).dedup

/-- `_RE_LLVM_TARGET_INIT`; the lazy `.+?` matches where the greedy one does. -/
def reLlvmTargetInit : Re := seqs [.bol, .lit "LLVMInitialize".toList, .plus .dot,
  .oneOf ["TargetInfo".toList, "TargetMC".toList, "Target".toList, "AsmParser".toList,
    "AsmPrinter".toList, "Disassembler".toList], .eol]

/-- `_is_optional_llvm_target_init`. -/
def isOptionalLlvmTargetInit (ref : Ref) : Bool :=
  "LLVM_".toList.isPrefixOf ref.2 && (Re.matchAt reLlvmTargetInit ref.1 0).isSome

/-- `_elf_class`, empty on failure. -/
def elfClass (t : Tools) (so : Text) : Text :=
  match t.header so with
  | none => []
  | some out =>
    (((Text.splitlines out).map Text.strip).findSome? fun line =>
      if "Class:".toList.isPrefixOf line ∧ 2 ≤ (Text.words line).length then
        (Text.words line).getLast?
      else none).getD []

/-- `_ldconfig_tag_class`. -/
def ldconfigTagClass (tag : Text) : Text :=
  if ["x86-64".toList, "AArch64".toList, "aarch64".toList, "64bit".toList].any
      fun m => Text.contains m tag then
    "ELF64".toList
  else "ELF32".toList

/-- `_RE_LDCONFIG`. -/
def reLdconfig : Re := seqs [.bol, .plus .space, .group 1 (.plus .nonSpace), .plus .space,
  .lit1 '(', .group 2 (.plus (.char fun c => c ≠ ')')), .lit1 ')', .plus .space,
  .lit "=>".toList, .plus .space, .group 3 (.plus .nonSpace), .eol]

/-- `_build_ldconfig_map`; of two entries of one key the first is looked up. -/
def buildLdconfigMap (t : Tools) : List ((Text × Text) × Text) :=
  match t.ldconfig with
  | none => []
  | some out => (Re.finditer reLdconfig out).map fun m =>
      ((m.group out 1, ldconfigTagClass (m.group out 2)), m.group out 3)

/-- `_demangle`. -/
def demangle (t : Tools) (symbols : List Text) : Dict Text Text :=
  if symbols = [] then .empty
  else
    match t.cxxfilt symbols with
    | none => .ofItems (symbols.map fun s => (s, s))
    | some out => .ofItems (symbols.zip (Text.splitlines out))

/-! ## Findings -/

/-- `AbiFinding.kind`. -/
inductive Kind
  | symbol
  | missingNeeded
  deriving DecidableEq

/-- `AbiFinding`. -/
structure AbiFinding where
  so : Text
  kind : Kind
  message : Text
  libs : List Text
  deriving DecidableEq

/-- `_ABI_CHECK_SHIM_LIBS`. -/
def shimLibs : List Text :=
  ["libnsl.so.1".toList, "libc_malloc_debug.so".toList, "libc_malloc_debug.so.0".toList]

/-- What the check reads of a shared object. -/
structure Linkage where
  undef : List Ref
  needed : List Text
  neededPaths : List (Text × Text)
  missingLibs : List Text
  /-- the resolved libraries, each with its exports -/
  exports : List (Text × List Ref)
  verneed : List (Text × Text)

/-- `so_class`. -/
def soClass (t : Tools) (so : Text) : Text :=
  if elfClass t so = [] then "ELF64".toList else elfClass t so

/-- `ldconfig_map.get((soname, so_class))`. -/
def resolve (t : Tools) (so soname : Text) : Option Text :=
  (buildLdconfigMap t).lookup (soname, soClass t so)

/-- A shared object's references, its libraries and their exports. -/
def linkage (t : Tools) (so : Text) : Linkage :=
  let needed := neededSonames t so
  let neededPaths := needed.dedup.filterMap fun soname =>
    (resolve t so soname).map fun p => (soname, p)
  { undef := undefinedVersioned t so
    needed := needed
    neededPaths := neededPaths
    missingLibs := needed.dedup.filter fun soname => (resolve t so soname).isNone
    exports := (neededPaths.map Prod.snd).dedup.map fun p => (p, exportedVersioned t p)
    verneed := verneedMap t so }

/-- What becomes of a reference. -/
inductive Verdict
  | pass
  | benign
  | hard
  /-- the sonames to report as missing -/
  | missing (sonames : List Text)
  deriving DecidableEq

namespace Linkage

variable (l : Linkage)

/-- `(sym, ver) in union_exports`. -/
def provides (ref : Ref) : Bool := l.exports.any fun p => ref ∈ p.2

/-- The libraries whose exports have the version: `ver in lib_versions[lib]`. -/
def definers (ver : Text) : List Text :=
  (l.exports.filter fun p => ver ∈ p.2.map Prod.snd).map Prod.fst

/-- The body of the loop over the undefined references. -/
def judge (ref : Ref) : Verdict :=
  if l.provides ref then .pass
  else if l.verneed ≠ [] ∧ (bound l.verneed ref.2).all (fun soname => soname ∉ l.needed) then .pass
  else
    let boundMissing := if l.verneed = [] then l.missingLibs
      else (bound l.verneed ref.2).filter fun soname => soname ∈ l.missingLibs
    if l.definers ref.2 ≠ [] then
      if isOptionalLlvmTargetInit ref then .benign else .hard
    else if boundMissing ≠ [] then .missing boundMissing
    else .hard

/-- The libraries a finding is attributed to: those that define the version, or those that the
version was bound to. -/
def libs (ver : Text) : List Text :=
  (if l.definers ver ≠ [] then l.definers ver
    else (bound l.verneed ver).filterMap fun soname => l.neededPaths.lookup soname).insertionSort
    (· ≤ ·)

/-- `hard`. -/
def hard : List Ref := l.undef.filter fun ref => l.judge ref = .hard

/-- `needed_missing`. -/
def neededMissing : List Text :=
  (l.undef.flatMap fun ref =>
    match l.judge ref with
    | .missing sonames => sonames
    | _ => []).dedup

/-- `label`. -/
def label (t : Tools) (sym : Text) : Text :=
  let readable := ((demangle t (l.hard.map Prod.fst)).get sym).getD sym
  if readable ≠ sym then readable ++ " (".toList ++ sym ++ ")".toList else sym

/-- The finding of a reference. -/
def symbolFinding (t : Tools) (name : Text) (ref : Ref) : AbiFinding where
  so := name
  kind := .symbol
  message := name ++ ": undefined versioned symbol not found in any NEEDED lib: ".toList ++
    l.label t ref.1 ++ "@".toList ++ ref.2
  libs := l.libs ref.2

end Linkage

/-- The finding of a needed library that is not installed. -/
def missingFinding (t : Tools) (name soname : Text) : AbiFinding where
  so := name
  kind := .missingNeeded
  message := name ++ ": NEEDED lib ".toList ++ repr t.printable soname ++
    " not found in ldconfig cache; may not be installed or ldconfig not yet run".toList
  libs := []

/-- The order of `sorted(hard)`. -/
def refLe (p q : Ref) : Bool := p.1 < q.1 || (p.1 = q.1 && p.2 ≤ q.2)

/-- The findings of one shared object. -/
def objectIssues (t : Tools) (so : Text) : List AbiFinding :=
  let l := linkage t so
  let name := Text.baseName so
  if name ∈ shimLibs ∨ l.undef = [] ∨ l.needed = [] then []
  else
    (l.hard.insertionSort fun p q => refLe p q).map (l.symbolFinding t name) ++
      (l.neededMissing.insertionSort (· ≤ ·)).map (missingFinding t name)

/-- What one shared object adds to `benign_sink`. -/
def objectBenign (t : Tools) (so : Text) : List Text :=
  let l := linkage t so
  let name := Text.baseName so
  if name ∈ shimLibs ∨ l.undef = [] ∨ l.needed = [] then []
  else
    (l.undef.filter fun ref => l.judge ref = .benign).map fun ref =>
      name ++ ": ".toList ++ ref.1 ++ "@".toList ++ ref.2

/-- `find_abi_issues`: the findings, and what it adds to `benign_sink`. -/
def findAbiIssues (t : Tools) (soPaths : List Text) : List AbiFinding × List Text :=
  (soPaths.flatMap (objectIssues t), soPaths.flatMap (objectBenign t))

/-- `package_abi_findings`. -/
def packageAbiFindings (t : Tools) (pkg : Text) : List AbiFinding :=
  (findAbiIssues t (extractSos t pkg (listSosInPkg t pkg))).1

/-- `source_built_skew_findings`. -/
def sourceBuiltSkewFindings (t : Tools) (pkgPaths sourceBuilt : List Text) : List AbiFinding :=
  if sourceBuilt = [] then []
  else
    let pkgs := pkgPaths.filter fun pkg => !".sig".toList.isSuffixOf (Text.baseName pkg)
    let candidates := pkgs.flatMap fun pkg =>
      (packageAbiFindings t pkg).filter fun f => f.kind = .symbol && f.libs ≠ []
    candidates.filter fun f => f.libs.any fun lib => (t.owner lib).any fun o => o ∈ sourceBuilt

end Sysforge.Abi
