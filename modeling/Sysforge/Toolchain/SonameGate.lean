import Sysforge.Foundations.Regex
import Sysforge.Toolchain.Install

/-!
# The libLLVM soname gate

Before a toolchain is built, the gate compares the soname of its libLLVM with the installed one and
names the installed packages that link the old soname, but for those whose pkgbase belongs to the
LLVM suite or is configured. The packages named are exactly what the run has to rebuild when every
such package that it leaves out is one that the run installs.
-/

namespace Sysforge.Toolchain

/-- What the local database records of a package. -/
structure LocalPackage where
  base : Option String
  depends : List String
  files : List String

/-- `\d`. -/
def digit : Re := .char Text.isDecimal

/-- `_LIBLLVM_SO_RE`; the version is group 1. -/
def libllvmSoRe : Re :=
  .seq (.alt .bol (Re.lit1 '/')) (.seq (Re.lit "libLLVM.so.".toList)
    (.seq (.group 1 (.seq (Re.plus digit) (.seq (Re.lit1 '.') (Re.plus digit)))) .eol))

/-- `_SONAME_RE`; the base is group 1 and the version group 2. -/
def sonameRe : Re :=
  .seq .bol (.seq (.group 1 (.seq (Re.plus Re.nonSpace) (Re.lit ".so".toList)))
    (.seq (Re.opt (.seq (Re.lit1 '=')
        (.group 2 (Re.plus (.char fun c => c ≠ '-' && c ≠ '=' && !Text.isSpace c)))))
      (.seq (Re.opt (.seq (Re.lit1 '-') (.group 3 (Re.plus digit)))) .eol)))

/-- The code points that `str.isdigit` takes beyond the decimal digits. -/
def digitRanges : List (ℕ × ℕ) :=
  [(0xb2, 0xb3), (0xb9, 0xb9), (0x1369, 0x1371), (0x19da, 0x19da), (0x2070, 0x2070),
    (0x2074, 0x2079), (0x2080, 0x2089), (0x2460, 0x2468), (0x2474, 0x247c), (0x2488, 0x2490),
    (0x24ea, 0x24ea), (0x24f5, 0x24fd), (0x24ff, 0x24ff), (0x2776, 0x277e), (0x2780, 0x2788),
    (0x278a, 0x2792), (0x10a40, 0x10a43), (0x10e60, 0x10e68), (0x11052, 0x1105a),
    (0x1f100, 0x1f10a)]

/-- `s.isdigit()`. -/
def isDigits (s : Text) : Bool :=
  s ≠ [] && s.all fun c => Text.isDecimal c || digitRanges.any fun q => q.1 ≤ c.toNat && c.toNat ≤ q.2

variable (host : Host LocalPackage) (sys : Installed LocalPackage)

/-- `_installed_libllvm_soname`, without `libLLVM.so.`. -/
def installedLibllvmVersion : Option Text :=
  (((sys.get "llvm-libs").map LocalPackage.files).getD []).findSome? fun path =>
    (Re.search libllvmSoRe path.toList).map fun m => m.group path.toList 1

/-- `_links_libllvm`, for a given version. -/
def linksLibllvm (deps : List String) (mm : Text) : Bool :=
  deps.any fun dep =>
    (match Re.matchAt sonameRe dep.toList 0 with
      | some m => m.group dep.toList 1 = "libLLVM.so".toList && m.group dep.toList 2 = mm
      | none => false) ||
    dep.toList.takeWhile (fun c => c ≠ '<' && c ≠ '>' && c ≠ '=') = "llvm-libs".toList

/-- `get_pkgbase(name) or name`. -/
def pkgbaseOr (p : LocalPackage) (n : String) : String :=
  if p.base.getD "" = "" then n else p.base.getD ""

/-- `libllvm_soname_consumers`. -/
def libllvmSonameConsumers (mm : Text) (exclude : List String) : List String :=
  (((sys.items.filter fun q => linksLibllvm q.2.depends mm).map fun q =>
    pkgbaseOr q.2 q.1).filter (· ∉ exclude)).dedup.insertionSort (· ≤ ·)

/-- `SonameImpact`. -/
structure SonameImpact where
  oldSoname : Text
  newSoname : Text
  consumers : List String

/-- The major and minor version of a pkgver. -/
def majorMinor (pkgver : Text) : Option Text :=
  match Text.split '.' pkgver with
  | major :: minor :: _ =>
    if isDigits major && isDigits minor then some (major ++ '.' :: minor) else none
  | _ => none

/-- `assess_libllvm_soname_impact`. -/
def assessLibllvmSonameImpact (targetPkgver : Text) (exclude : List String) :
    Option SonameImpact :=
  match majorMinor targetPkgver, installedLibllvmVersion sys with
  | some target, some old =>
    let consumers := libllvmSonameConsumers sys old exclude
    if old = target ∨ consumers = [] then none
    else some ⟨"libLLVM.so.".toList ++ old, "libLLVM.so.".toList ++ target, consumers⟩
  | _, _ => none

/-- `parse_pkgbuild_pkgvers`: the pkgvers of the configured names, when their PKGBUILDs have one;
`pkgver` is what `parse_pkgbuild` reads, and nothing on an error. -/
def parsePkgbuildPkgvers (pkgver : String → Option String) (built : Dict String String) :
    List (String × String) :=
  (built.items.map fun q => (q.1, (pkgver q.2).getD "")).filter fun q => q.2 ≠ ""

/-- The pkgver that the gate takes for the new libLLVM. -/
def targetVer (pkgver : String → Option String) (built : Dict String String) : String :=
  let pkgvers := parsePkgbuildPkgvers pkgver built
  match pkgvers.lookup "llvm" with
  | some v => v
  | none => ((pkgvers.find? fun q => q.1 ∈ llvmLockstepSuite).map Prod.snd).getD ""

/-- The modes of `rebuild_soname_consumers`. -/
inductive SonameMode
  | prompt
  | auto
  | off
  deriving DecidableEq

/-- What the gate asks its surroundings. -/
structure Asking where
  mode : SonameMode
  dryRun : Bool := false
  interactive : Bool := false
  /-- the answer to the prompt -/
  choice : String := "n"

/-- `gate_soname_consumers`: the consumers to rebuild, or the error it raises. -/
def gateSonameConsumers (pkgver : String → Option String) (built : Dict String String)
    (allNames : List String) (a : Asking) : Except String (List String) :=
  let target := targetVer pkgver built
  if target = "" then .ok []
  else match assessLibllvmSonameImpact sys target.toList (llvmLockstepSuite ++ allNames) with
    | none => .ok []
    | some impact =>
      if a.dryRun then .ok []
      else match a.mode with
        | .off => .ok []
        | .auto => .ok impact.consumers
        | .prompt =>
          if !a.interactive then
            .error ("[TOOLCHAIN] Building this libLLVM would change its soname and break " ++
              toString impact.consumers.length ++ " installed package(s), and this is a " ++
              "non-interactive run. Re-run with --rebuild-soname-consumers=auto to " ++
              "approve the rebuild, or =off to proceed without it.")
          else if a.choice ∉ ["y", "yes"] then
            .error ("[TOOLCHAIN] Aborted: libLLVM soname change not approved. Nothing " ++
              "was built or installed.")
          else .ok impact.consumers

/-! ## What the gate leaves out -/

variable {host sys} {pkgver : String → Option String} {built : Dict String String}
  {allNames result : List String} {a : Asking} {old target : Text} {n : String} {p : LocalPackage}

/-- The installed package links the libLLVM of the version. -/
def Links (sys : Installed LocalPackage) (old : Text) (n : String) (p : LocalPackage) : Prop :=
  sys.get n = some p ∧ linksLibllvm p.depends old = true

/-- The build changes the installed libLLVM's major and minor version, from `old`. -/
def Bumps (sys : Installed LocalPackage) (pkgver : String → Option String)
    (built : Dict String String) (old : Text) : Prop :=
  installedLibllvmVersion sys = some old ∧
    ∃ target, majorMinor (targetVer pkgver built).toList = some target ∧ old ≠ target

theorem mem_libllvmSonameConsumers {exclude : List String} {b : String} :
    b ∈ libllvmSonameConsumers sys old exclude ↔
      b ∉ exclude ∧ ∃ n p, Links sys old n p ∧ pkgbaseOr p n = b := by
  rw [libllvmSonameConsumers, List.mem_insertionSort, List.mem_dedup, List.mem_filter,
    decide_eq_true_iff, and_comm]
  refine and_congr_right fun _ => ?_
  rw [List.mem_map]
  constructor
  · rintro ⟨⟨n, p⟩, hp, rfl⟩
    obtain ⟨hmem, hlinks⟩ := List.mem_filter.mp hp
    exact ⟨n, p, ⟨Dict.mem_items.mp hmem, hlinks⟩, rfl⟩
  · rintro ⟨n, p, ⟨hget, hlinks⟩, rfl⟩
    exact ⟨(n, p), List.mem_filter.mpr ⟨Dict.mem_items.mpr hget, hlinks⟩, rfl⟩

/-- The impact of a bump: the consumers of the old soname, when there are any. -/
theorem assess_of_bumps (hb : Bumps sys pkgver built old) {exclude : List String} :
    assessLibllvmSonameImpact sys (targetVer pkgver built).toList exclude = none ∧
        libllvmSonameConsumers sys old exclude = [] ∨
      ∃ impact, assessLibllvmSonameImpact sys (targetVer pkgver built).toList exclude =
        some impact ∧ impact.consumers = libllvmSonameConsumers sys old exclude := by
  obtain ⟨hold, target, htarget, hne⟩ := hb
  unfold assessLibllvmSonameImpact
  rw [htarget, hold]
  simp only
  by_cases hnil : libllvmSonameConsumers sys old exclude = []
  · exact .inl ⟨if_pos (.inr hnil), hnil⟩
  · exact .inr ⟨_, if_neg (not_or.mpr ⟨hne, hnil⟩), rfl⟩

/-- A gate that lets a bump through, in mode `auto` or with an approved prompt, names exactly the
consumers of the old soname. -/
theorem gateSonameConsumers_eq (hb : Bumps sys pkgver built old) (hdry : a.dryRun = false)
    (hmode : a.mode ≠ .off) (hok : gateSonameConsumers sys pkgver built allNames a = .ok result) :
    result = libllvmSonameConsumers sys old (llvmLockstepSuite ++ allNames) := by
  have htarget : targetVer pkgver built ≠ "" := by
    intro hnil
    obtain ⟨-, target, hmm, -⟩ := hb
    have hempty : majorMinor "".toList = none := by decide
    rw [hnil, hempty] at hmm
    cases hmm
  rw [gateSonameConsumers, if_neg htarget] at hok
  rcases @assess_of_bumps sys pkgver built old hb (llvmLockstepSuite ++ allNames) with
    ⟨hnone, hnil⟩ | ⟨impact, himpact, hcons⟩
  · rw [hnone] at hok
    exact (Except.ok.inj hok).symm.trans hnil.symm
  · rw [himpact] at hok
    simp only [hdry, Bool.false_eq_true, if_false] at hok
    rw [← hcons]
    cases hm : a.mode with
    | off => exact absurd hm hmode
    | auto =>
      rw [hm] at hok
      exact (Except.ok.inj hok).symm
    | prompt =>
      rw [hm] at hok
      simp only at hok
      split_ifs at hok
      exact (Except.ok.inj hok).symm

/-- **No consumer is stranded exactly when the run installs those it leaves out**: a gate that lets a
bump through covers every consumer of the old soname if and only if each one whose pkgbase belongs to
the LLVM suite or is configured is a configured name or an installed member of a built PKGBUILD. -/
theorem consumers_covered (hb : Bumps sys pkgver built old) (hdry : a.dryRun = false)
    (hmode : a.mode ≠ .off) (hok : gateSonameConsumers sys pkgver built allNames a = .ok result) :
    (∀ n p, Links sys old n p → n ∈ installNames host sys built ∨ pkgbaseOr p n ∈ result) ↔
      ∀ n p, Links sys old n p → pkgbaseOr p n ∈ llvmLockstepSuite ++ allNames →
        n ∈ installNames host sys built := by
  rw [gateSonameConsumers_eq hb hdry hmode hok]
  simp only [mem_libllvmSonameConsumers]
  constructor
  · exact fun h n p hl hex => (h n p hl).resolve_right fun hr => hr.1 hex
  · intro h n p hl
    by_cases hex : pkgbaseOr p n ∈ llvmLockstepSuite ++ allNames
    · exact .inl (h n p hl hex)
    · exact .inr ⟨hex, n, p, hl, rfl⟩

/-! ## Concrete systems -/

/-- Packages of LLVM 18, clang from a PKGBUILD of its own, and a driver that links LLVM. -/
def llvm18 : Installed LocalPackage :=
  ((Dict.empty.set "llvm-libs" ⟨some "llvm", [], ["usr/lib/libLLVM.so.18.1"]⟩).set
    "clang" ⟨some "clang", ["llvm-libs"], []⟩).set
      "mesa" ⟨some "mesa", ["libLLVM.so=18.1-64"], []⟩

/-- The PKGBUILD that `/src/llvm` holds builds LLVM 19; `members` are its packages. -/
def llvm19Host (members : List String) : Host LocalPackage where
  version _ := ""
  pkgnames _ := some members
  packagelist _ := none
  cacheDirs := []

/-- The configured toolchain: only LLVM itself. -/
def llvmOnly : Dict String String :=
  (Dict.empty.set "llvm" "/src/llvm").set "llvm-libs" "/src/llvm"

/-- Every PKGBUILD has the pkgver of LLVM 19. -/
def pkgver19 (_ : String) : Option String := some "19.1.0"

theorem bumps_llvm18 : Bumps llvm18 pkgver19 llvmOnly "18.1".toList :=
  ⟨by decide, "19.1".toList, by decide, by decide⟩

theorem gate_llvm18 :
    gateSonameConsumers llvm18 pkgver19 llvmOnly ["llvm", "llvm-libs"] { mode := .auto } =
      .ok ["mesa"] := by
  rfl

/-- The witness: with clang among the packages of the LLVM PKGBUILD, or not. -/
theorem consumers_covered_llvm18 :
    ((∀ n p, Links llvm18 "18.1".toList n p →
        n ∈ installNames (llvm19Host ["llvm", "llvm-libs", "clang"]) llvm18 llvmOnly ∨
          pkgbaseOr p n ∈ ["mesa"]) ↔
      ∀ n p, Links llvm18 "18.1".toList n p →
        pkgbaseOr p n ∈ llvmLockstepSuite ++ ["llvm", "llvm-libs"] →
          n ∈ installNames (llvm19Host ["llvm", "llvm-libs", "clang"]) llvm18 llvmOnly) :=
  consumers_covered bumps_llvm18 rfl (by decide) gate_llvm18

/-- The counterexample: clang has a PKGBUILD of its own that is not configured; it links the old
libLLVM, is not installed anew and is not named. -/
theorem consumer_stranded :
    gateSonameConsumers llvm18 pkgver19 llvmOnly ["llvm", "llvm-libs"] { mode := .auto } =
      .ok ["mesa"] ∧
    Bumps llvm18 pkgver19 llvmOnly "18.1".toList ∧
    Links llvm18 "18.1".toList "clang" ⟨some "clang", ["llvm-libs"], []⟩ ∧
    "clang" ∉ installNames (llvm19Host ["llvm", "llvm-libs"]) llvm18 llvmOnly ∧
    pkgbaseOr ⟨some "clang", ["llvm-libs"], []⟩ "clang" ∉ ["mesa"] :=
  ⟨gate_llvm18, bumps_llvm18, ⟨rfl, by decide⟩, by decide, by decide⟩

end Sysforge.Toolchain
