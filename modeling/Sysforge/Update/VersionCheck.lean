import Sysforge.Foundations.Lines
import Sysforge.Foundations.Regex
import Sysforge.Update.Assemble

/-!
# The version check of an update

Phase 3 of `update` decides for one pkgbase whether a rebuild is pending. `checkOnePkgbase` is given
the packages of the pkgbase in the order in which the package set was filled, the entry of the first
one, and the upstream commit that the first record with one has. What the check compares is the
same for two orders of the packages (`prepare_perm`) when the newest versions that `checkupdates`
lists are one text.
-/

namespace Sysforge.VersionCheck

open BuildState OptOut Assemble

/-! ## What the check reads of the host -/

/-- `vercmp`, a total preorder. -/
structure Vercmp where
  cmp : String → String → ℤ
  swap : ∀ a b, 0 < cmp a b ↔ cmp b a < 0
  trans : ∀ a b c, cmp a b ≤ 0 → cmp b c ≤ 0 → cmp a c ≤ 0

/-- The globals of a parsed PKGBUILD. -/
structure Globals where
  pkgver : String := ""
  pkgrel : Option String := none
  epoch : Option String := none
  pkgname : Option (List String) := none
  source : List String := []

/-- What the check reads of the host, of the PKGBUILD directories and of the phases before. -/
structure Host where
  vercmp : Vercmp
  forceDevel : Bool
  skipSyncCheck : Bool
  /-- the statuses that blocked a pkgbase, with their messages -/
  syncFailures : Dict String (String × String)
  rpcVersion : Dict String String
  pacmanUpdates : Option (Dict String String)
  isDir : String → Bool
  /-- the PKGBUILD of a directory -/
  pkgbuild : String → Option String
  /-- the `PKGBUILD.sysforge` of a directory -/
  patched : String → Option String
  /-- `parse_pkgbuild`, without a result when it raises -/
  parse : String → Option Globals
  /-- the source freeze holds for the name -/
  frozen : String → Bool
  /-- the lines that `git ls-remote url ref` prints -/
  lsRemote : Text → Text → Option (List Text)
  /-- the letters and digits beyond ASCII -/
  alnum : Char → Bool
  /-- the commit that the source of a PKGBUILD directory resolves to -/
  sourceCommit : String → String
  /-- the version that `pkgver()` of a PKGBUILD gives at a commit -/
  pkgverAt : String → String → String
  /-- `makepkg` gets to the end of `pkgver()` -/
  resolves : String → Bool

/-! ## The upstream commit -/

/-- `s.partition(sep)`. -/
def partition (sep s : Text) : Text × Option Text :=
  match Text.find sep s with
  | some n => (s.take n, some (s.drop (n + sep.length)))
  | none => (s, none)

/-- A git source: the name of its clone, its URL and its fragment. -/
structure GitSource where
  cloneName : Text
  url : Text
  fragment : Text

/-- A source entry as a git source. -/
def gitSource (raw : Text) : Option GitSource :=
  let named := partition "::".toList raw
  let s := named.2.getD raw
  let bare := if "git+".toList.isPrefixOf s then some (s.drop 4)
    else if "git://".toList.isPrefixOf s then some s else none
  bare.map fun s =>
    let parts := partition "#".toList s
    let base := Text.baseName (parts.1.rdropWhile (· = '/'))
    { cloneName := if named.2.isSome then named.1
        else if ".git".toList.isSuffixOf base then base.take (base.length - 4) else base
      url := parts.1
      fragment := parts.2.getD [] }

/-- `_UNRESOLVED_BASH_VAR` is found in the text. -/
def unresolvedVar (alnum : Char → Bool) : Text → Bool
  | [] => false
  | c :: s =>
    c = '$' && (s.head? = some '\x7b' && decide ('\x7d' ∈ s) || s.head?.any (Re.isWord alnum)) ||
      unresolvedVar alnum s

/-- `_single_git_source`. -/
def singleGitSource (alnum : Char → Bool) (g : Globals) : Option GitSource :=
  match g.source.filterMap fun s => gitSource s.toList with
  | [src] =>
    if [src.cloneName, src.url, src.fragment].any (unresolvedVar alnum) then none else some src
  | _ => none

/-- `_SHA1`; `$` matches before a final newline too. -/
def isSha1 (s : Text) : Bool :=
  let s := if s.getLast? = some '\n' then s.dropLast else s
  s.length = 40 && s.all fun c => c.isDigit || 'a' ≤ c && c ≤ 'f'

/-- The loop over the parts of a fragment: the commit it pins, or the ref to ask for. -/
def fragmentRef : List Text → Text ⊕ Text
  | [] => .inr "HEAD".toList
  | part :: parts =>
    let kv := partition "=".toList part
    let val := kv.2.getD []
    if kv.1 = "commit".toList then if isSha1 val then .inl val else fragmentRef parts
    else if kv.1 ∈ ["tag".toList, "branch".toList, "fragment".toList] ∧ val ≠ [] then .inr val
    else fragmentRef parts

/-- The commit of a pin, or the first one that `git ls-remote` prints for a ref. -/
def refCommit (w : Host) (url : Text) : Text ⊕ Text → Option String
  | .inl sha => some (String.ofList sha)
  | .inr ref => (w.lsRemote url ref).bind fun lines =>
    ((lines.map fun line => Text.strip (line.takeWhile (· ≠ '\t'))).find? isSha1).map String.ofList

/-- `peek_upstream_commit`. -/
def peekUpstreamCommit (w : Host) (pkgbase dir : String) : Option String :=
  if w.frozen pkgbase then none
  else do
    let text ← w.pkgbuild dir
    let g ← w.parse text
    let src ← singleGitSource w.alnum g
    refCommit w src.url (if src.fragment = [] then .inr "HEAD".toList
      else fragmentRef (Text.split '&' src.fragment))

/-- `evaluate_vcs_pkgver`. -/
def evaluateVcsPkgver (w : Host) (pkgbase dir : String) : Option String :=
  if w.frozen pkgbase then none
  else (w.pkgbuild dir).bind fun text =>
    if w.resolves dir then some (w.pkgverAt text (w.sourceCommit dir)) else none

/-! ## Versions -/

/-- `is_vcs_pkgbase`. -/
def isVcsPkgbase (pkgbase : String) : Bool :=
  ["-git", "-svn", "-hg", "-bzr"].any fun s => s.toList.isSuffixOf (stockName pkgbase).toList

/-- A string, when it is not empty. -/
def truthy (s : Option String) : Option String := s.filter (· ≠ "")

/-- `[epoch:]pkgver-pkgrel`. -/
def versionText (epoch pkgver pkgrel : String) : String :=
  if epoch ≠ "" ∧ epoch ≠ "0" then epoch ++ ":" ++ pkgver ++ "-" ++ pkgrel
  else pkgver ++ "-" ++ pkgrel

/-- `format_version`. -/
def formatVersion (g : Globals) : String :=
  versionText (g.epoch.getD "0") g.pkgver (g.pkgrel.getD "1")

/-- `_recorded_ver`. -/
def recordedVer (e : Entry) : Option String :=
  match e.pkgver, e.pkgrel with
  | some pkgver, some pkgrel => some (versionText (e.epoch.getD "0") pkgver pkgrel)
  | _, _ => none

/-- The pkgrel and the epoch that the short-circuit compares. -/
def revision (pkgrel epoch : Option String) : String × String :=
  (pkgrel.getD "", (truthy epoch).getD "0")

/-- `_UNRESOLVED_EXPANSION` is found in the version. -/
def unresolvedExpansion (ver : String) : Bool := ver.toList.any (· ∈ ['$', '\x7b', '\x7d'])

/-- The installed versions of the packages, in their order. -/
def installedVers (installed : Dict String String) (pkgnames : List String) : List String :=
  pkgnames.filterMap installed.get

/-- `_oldest_installed_ver`. -/
def oldestInstalledVer (v : Vercmp) (installed : Dict String String) (pkgnames : List String) :
    Option String :=
  match installedVers installed (pkgnames.insertionSort (· ≤ ·)) with
  | [] => none
  | ver :: vers => some (vers.foldl (fun oldest ver => if v.cmp ver oldest < 0 then ver else oldest)
      ver)

/-- `_produced_pkgnames`. -/
def producedPkgnames (w : Host) (dir : String) (pkgnames : List String) : List String :=
  match (w.patched dir).bind w.parse with
  | none => pkgnames
  | some g =>
    let produced := pkgnames.filter (· ∈ g.pkgname.getD [])
    if produced = [] then pkgnames else produced

/-- The loop over the versions that `checkupdates` lists. -/
def newestVer (v : Vercmp) (vers : List String) : Option String :=
  vers.foldl (fun newest ver =>
    match newest with
    | none => some ver
    | some new => if 0 < v.cmp ver new then some ver else some new) none

/-- The version of the PKGBUILD, or the one of the AUR where the PKGBUILD's is not expanded. -/
def resolvedVer (w : Host) (pkgbase : String) (e : Entry) (g : Globals) : Option String :=
  if unresolvedExpansion (formatVersion g) then
    (truthy (w.rpcVersion.get pkgbase)).or
      ((truthy e.originPkgbase).bind fun origin => truthy (w.rpcVersion.get origin))
  else some (formatVersion g)

/-! ## The check -/

/-- The actions. -/
inductive Action
  | upToDate | needsRebuild | needsPacmanUpgrade | devel | develEvalFailed | downgrade | pullFailed
  | rateLimited | purgeRefused | frozen | aurDisabled | skippedNoCheckupdates
  deriving DecidableEq

/-- `_SYNC_STATUS_TO_ACTION.get(status, "PULL_FAILED")`. -/
def syncAction (status : String) : Action :=
  if status = "rate_limited" then .rateLimited
  else if status = "purge_refused" then .purgeRefused
  else if status = "frozen" then .frozen
  else if status = "skipped_aur_disabled" then .aurDisabled
  else .pullFailed

/-- What the check decides. -/
structure Verdict where
  action : Action
  installedVer : Option String
  pkgbuildVer : Option String
  pkgbuildPath : Option String := none
  deriving DecidableEq

/-- `_UpdateResult`, as the check fills it. -/
structure UpdateResult extends Verdict where
  pkgbase : String
  pkgnames : List String
  hasBuildRecord : Bool
  source : Option String
  deriving DecidableEq

/-- What ends the check with an exception. -/
inductive Crash
  | keyError (key : String)
  | assertionError
  deriving DecidableEq

/-- A PKGBUILD whose version is to be compared. -/
structure Checked where
  dir : String
  text : String
  globals : Globals
  pkgbuildVer : String
  installedVer : String

/-- The path of the PKGBUILD. -/
def Checked.path (c : Checked) : Option String := some (c.dir ++ "/PKGBUILD")

/-- Where the check gets to before it compares versions. -/
inductive Stage
  | done (r : Except Crash (Option Verdict))
  | compare (c : Checked)

section

variable (w : Host) (installed : Dict String String) (pkgbase : String) (pkgnames : List String)
  (p : Package)

/-- The pacman fast path. -/
def pacmanVerdict : Option Verdict :=
  (oldestInstalledVer w.vercmp installed pkgnames).map fun ver =>
    match w.pacmanUpdates with
    | none => { action := .skippedNoCheckupdates, installedVer := some ver, pkgbuildVer := none }
    | some updates =>
      match newestVer w.vercmp (pkgnames.filterMap updates.get) with
      | none => { action := .upToDate, installedVer := some ver, pkgbuildVer := some ver }
      | some new => { action := .needsPacmanUpgrade, installedVer := some ver,
                      pkgbuildVer := some new }

/-- The installed version that is compared with the PKGBUILD's. -/
def comparedVer (dir : String) : Option String :=
  oldestInstalledVer w.vercmp installed
    (if 1 < (installedVers installed pkgnames).dedup.length then producedPkgnames w dir pkgnames
    else pkgnames)

/-- The check of a parsed PKGBUILD with its version, if it has one. -/
def parsedStage (dir text : String) : Option (Globals × String) → Stage
  | none => .done (.ok none)
  | some (g, ver) =>
    match comparedVer w installed pkgnames dir with
    | none => .done (.error .assertionError)
    | some installedVer => .compare ⟨dir, text, g, ver, installedVer⟩

/-- The check up to the comparison. -/
def prepare : Stage :=
  if p.repoClass = some "pacman" then .done (.ok (pacmanVerdict w installed pkgnames))
  else if isVcsPkgbase pkgbase && !w.forceDevel then
    .done (.ok ((oldestInstalledVer w.vercmp installed pkgnames).map fun ver =>
      { action := .devel, installedVer := some ver, pkgbuildVer := none }))
  else match p.entry.pkgbuildDir with
    | none => .done (.error (.keyError "pkgbuild_dir"))
    | some dir =>
      if w.isDir dir then
        match w.pkgbuild dir with
        | none => .done (.ok none)
        | some text =>
          match if w.skipSyncCheck then none else w.syncFailures.get pkgbase with
          | some failure => .done (.ok (some
              { action := syncAction failure.1, installedVer := none, pkgbuildVer := none
                pkgbuildPath := some (dir ++ "/PKGBUILD") }))
          | none => parsedStage w installed pkgnames dir text
              ((w.parse text).bind fun g => (resolvedVer w pkgbase p.entry g).map (g, ·))
      else .done (.ok none)

/-- The condition of the short-circuit: the recorded build is installed, the PKGBUILD has its
revision, and upstream is where it was. -/
def upstreamUnmoved (builtCommit : Option String) (c : Checked) : Bool :=
  builtCommit.isSome && recordedVer p.entry = some c.installedVer &&
    revision c.globals.pkgrel c.globals.epoch = revision p.entry.pkgrel p.entry.epoch &&
    peekUpstreamCommit w pkgbase c.dir = builtCommit

/-- The action for a version against the installed one. -/
def compareAction (ver installedVer : String) : Action :=
  if 0 < w.vercmp.cmp ver installedVer then .needsRebuild
  else if w.vercmp.cmp ver installedVer = 0 then .upToDate
  else .downgrade

/-- The comparison of versions. -/
def compare (builtCommit : Option String) (c : Checked) : Verdict :=
  if isVcsPkgbase pkgbase then
    if upstreamUnmoved w pkgbase p builtCommit c then
      { action := .upToDate, installedVer := some c.installedVer
        pkgbuildVer := some c.installedVer, pkgbuildPath := c.path }
    else match evaluateVcsPkgver w pkgbase c.dir with
      | none => { action := .develEvalFailed, installedVer := some c.installedVer
                  pkgbuildVer := some c.pkgbuildVer, pkgbuildPath := c.path }
      | some ver => { action := compareAction w ver c.installedVer
                      installedVer := some c.installedVer, pkgbuildVer := some ver
                      pkgbuildPath := c.path }
  else
    { action := compareAction w c.pkgbuildVer c.installedVer, installedVer := some c.installedVer
      pkgbuildVer := some c.pkgbuildVer, pkgbuildPath := c.path }

/-- The verdict of the check. -/
def verdict (builtCommit : Option String) : Except Crash (Option Verdict) :=
  match prepare w installed pkgbase pkgnames p with
  | .done r => r
  | .compare c => .ok (some (compare w pkgbase p builtCommit c))

/-- `_check_one_pkgbase`. -/
def checkOnePkgbase (unrecordedNames : List String) (builtCommit : Option String) :
    Except Crash (Option UpdateResult) :=
  (verdict w installed pkgbase pkgnames p builtCommit).map fun r => r.map fun v =>
    { v with pkgbase := pkgbase, pkgnames := pkgnames, source := p.entry.source
             hasBuildRecord := !pkgnames.any (· ∈ unrecordedNames) }

end

/-! ## Orders of the packages -/

section

variable {w : Host} {installed : Dict String String} {pkgbase : String} {l l' : List String}
  {p p' : Package}

theorem oldestInstalledVer_perm (v : Vercmp) (h : l.Perm l') :
    oldestInstalledVer v installed l = oldestInstalledVer v installed l' := by
  have hsort : l.insertionSort (· ≤ ·) = l'.insertionSort (· ≤ ·) :=
    (((List.perm_insertionSort _ l).trans h).trans
      (List.perm_insertionSort _ l').symm).eq_of_sortedLE List.sortedLE_insertionSort
      List.sortedLE_insertionSort
  rw [oldestInstalledVer, hsort, ← oldestInstalledVer]

theorem oldestInstalledVer_isSome {v : Vercmp} {n : String} (hn : n ∈ l)
    (hi : (installed.get n).isSome) : (oldestInstalledVer v installed l).isSome := by
  rw [oldestInstalledVer]
  cases hv : installedVers installed (l.insertionSort (· ≤ ·)) with
  | nil =>
    rw [installedVers, List.filterMap_eq_nil_iff] at hv
    rw [hv n ((List.mem_insertionSort _).mpr hn)] at hi
    cases hi
  | cons ver vers => rfl

theorem producedPkgnames_perm {dir : String} (h : l.Perm l') :
    (producedPkgnames w dir l).Perm (producedPkgnames w dir l') := by
  unfold producedPkgnames
  cases (w.patched dir).bind w.parse with
  | none => exact h
  | some g =>
    have hf := h.filter (· ∈ g.pkgname.getD [])
    have hnil : l.filter (· ∈ g.pkgname.getD []) = [] ↔ l'.filter (· ∈ g.pkgname.getD []) = [] := by
      rw [← List.length_eq_zero_iff, hf.length_eq, List.length_eq_zero_iff]
    dsimp only
    by_cases he : l.filter (· ∈ g.pkgname.getD []) = []
    · rw [if_pos he, if_pos (hnil.mp he)]
      exact h
    · rw [if_neg he, if_neg fun he' => he (hnil.mpr he')]
      exact hf

theorem comparedVer_perm {dir : String} (h : l.Perm l') :
    comparedVer w installed l dir = comparedVer w installed l' dir := by
  have hvers : (installedVers installed l).Perm (installedVers installed l') := h.filterMap _
  rw [comparedVer, comparedVer, hvers.dedup.length_eq]
  by_cases hlen : 1 < (installedVers installed l').dedup.length
  · rw [if_pos hlen, if_pos hlen]
    exact oldestInstalledVer_perm _ (producedPkgnames_perm h)
  · rw [if_neg hlen, if_neg hlen]
    exact oldestInstalledVer_perm _ h

/-! ### The newest listed version -/

theorem Vercmp.cmp_self (v : Vercmp) (a : String) : v.cmp a a = 0 := by
  have h := v.swap a a
  omega

/-- The loop keeps the first version that no other one is newer than. -/
theorem foldl_newest (v : Vercmp) (new : String) (vers : List String) :
    ∃ m ∈ new :: vers, (∀ x ∈ new :: vers, v.cmp x m ≤ 0) ∧
      vers.foldl (fun newest ver =>
        match newest with
        | none => some ver
        | some new => if 0 < v.cmp ver new then some ver else some new) (some new) = some m := by
  induction vers generalizing new with
  | nil =>
    refine ⟨new, List.mem_cons_self, fun x hx => ?_, rfl⟩
    rw [List.mem_singleton.mp hx, v.cmp_self]
  | cons ver vers ih =>
    rw [List.foldl_cons]
    by_cases hver : 0 < v.cmp ver new
    · obtain ⟨m, hm, hmax, hfold⟩ := ih ver
      refine ⟨m, List.mem_cons_of_mem _ hm, fun x hx => ?_, ?_⟩
      swap
      · rw [← hfold]
        simp only [if_pos hver]
      rcases List.mem_cons.mp hx with rfl | hx
      · have hlt := (v.swap _ _).mp hver
        exact v.trans _ _ _ hlt.le (hmax ver List.mem_cons_self)
      · exact hmax x hx
    · obtain ⟨m, hm, hmax, hfold⟩ := ih new
      refine ⟨m, ?_, fun x hx => ?_, ?_⟩
      · rcases List.mem_cons.mp hm with rfl | hm
        · exact List.mem_cons_self
        · exact List.mem_cons_of_mem _ (List.mem_cons_of_mem _ hm)
      · rcases List.mem_cons.mp hx with rfl | hx
        · exact hmax x List.mem_cons_self
        · rcases List.mem_cons.mp hx with rfl | hx
          · exact v.trans _ _ _ (not_lt.mp hver) (hmax new List.mem_cons_self)
          · exact hmax x (List.mem_cons_of_mem _ hx)
      · rw [← hfold]
        simp only [if_neg hver]

theorem newestVer_cons (v : Vercmp) (ver : String) (vers : List String) :
    ∃ m ∈ ver :: vers, (∀ x ∈ ver :: vers, v.cmp x m ≤ 0) ∧
      newestVer v (ver :: vers) = some m := foldl_newest v ver vers

/-- A version that no other one is newer than, listed first, is the newest. -/
theorem newestVer_of_max {v : Vercmp} {m : String} {vers : List String}
    (h : ∀ x ∈ vers, v.cmp x m ≤ 0) : newestVer v (m :: vers) = some m := by
  rw [newestVer, List.foldl_cons]
  induction vers with
  | nil => rfl
  | cons ver vers ih =>
    rw [List.foldl_cons]
    simp only [if_neg (not_lt.mpr (h ver List.mem_cons_self))]
    exact ih fun x hx => h x (List.mem_cons_of_mem _ hx)

/-- The newest of the versions are one text. -/
def OneNewest (v : Vercmp) (vers : List String) : Prop :=
  ∀ a ∈ vers, ∀ b ∈ vers, (∀ x ∈ vers, v.cmp x a ≤ 0) → (∀ x ∈ vers, v.cmp x b ≤ 0) → a = b

theorem OneNewest.perm {v : Vercmp} {vers vers' : List String} (h : OneNewest v vers)
    (hp : vers.Perm vers') : OneNewest v vers' := fun a ha b hb hmax hmax' =>
  h a (hp.mem_iff.mpr ha) b (hp.mem_iff.mpr hb) (fun x hx => hmax x (hp.mem_iff.mp hx))
    fun x hx => hmax' x (hp.mem_iff.mp hx)

theorem newestVer_perm {v : Vercmp} (hone : OneNewest v l) (h : l.Perm l') :
    newestVer v l = newestVer v l' := by
  cases l with
  | nil => rw [List.nil_perm.mp h]
  | cons a l =>
    cases l' with
    | nil => exact absurd h.symm.nil_eq (List.cons_ne_nil _ _).symm
    | cons b l' =>
      obtain ⟨m, hm, hmax, heq⟩ := newestVer_cons v a l
      obtain ⟨m', hm', hmax', heq'⟩ := newestVer_cons v b l'
      rw [heq, heq', hone m hm m' (h.mem_iff.mpr hm') hmax fun x hx => hmax' x (h.mem_iff.mp hx)]

/-! ### The check -/

/-- The upstream pkgbase that the check falls back to, when it is another one. -/
def otherOrigin (pkgbase : String) (e : Entry) : Option String :=
  (truthy e.originPkgbase).filter (· ≠ pkgbase)

theorem resolvedVer_congr {e e' : Entry} (h : otherOrigin pkgbase e = otherOrigin pkgbase e')
    (g : Globals) : resolvedVer w pkgbase e g = resolvedVer w pkgbase e' g := by
  have hrpc : ∀ e : Entry, (truthy (w.rpcVersion.get pkgbase)).or
      ((truthy e.originPkgbase).bind fun origin => truthy (w.rpcVersion.get origin)) =
      (truthy (w.rpcVersion.get pkgbase)).or
        ((otherOrigin pkgbase e).bind fun origin => truthy (w.rpcVersion.get origin)) := by
    intro e
    cases hb : truthy (w.rpcVersion.get pkgbase) with
    | some ver => rfl
    | none =>
      rw [Option.none_or, Option.none_or, otherOrigin]
      cases truthy e.originPkgbase with
      | none => rfl
      | some origin =>
        by_cases ho : origin = pkgbase
        · rw [ho, Option.filter_some_neg (by simp), Option.bind_some, hb, Option.bind_none]
        · rw [Option.filter_some_pos (by simpa using ho)]
  rw [resolvedVer, resolvedVer, hrpc e, hrpc e', h]

/-- What of an entry decides how far the check gets. -/
structure SameTarget (pkgbase : String) (p p' : Package) : Prop where
  repoClass : p.repoClass = p'.repoClass
  pkgbuildDir : p.entry.pkgbuildDir = p'.entry.pkgbuildDir
  origin : p.repoClass ≠ some "pacman" → p.entry.pkgbuildDir ≠ none →
    otherOrigin pkgbase p.entry = otherOrigin pkgbase p'.entry

theorem prepare_perm (h : l.Perm l') (hp : SameTarget pkgbase p p')
    (hone : p.repoClass = some "pacman" → ∀ updates, w.pacmanUpdates = some updates →
      OneNewest w.vercmp (l.filterMap updates.get)) :
    prepare w installed pkgbase l p = prepare w installed pkgbase l' p' := by
  have hold := @oldestInstalledVer_perm installed l l' w.vercmp h
  unfold prepare
  rw [← hp.repoClass, ← hp.pkgbuildDir, ← hold]
  by_cases hc : p.repoClass = some "pacman"
  · rw [if_pos hc, if_pos hc]
    have hver : pacmanVerdict w installed l = pacmanVerdict w installed l' := by
      unfold pacmanVerdict
      rw [← hold]
      cases hu : w.pacmanUpdates with
      | none => rfl
      | some updates =>
        dsimp only
        rw [newestVer_perm (hone hc updates hu) (h.filterMap updates.get)]
    rw [hver]
  · rw [if_neg hc, if_neg hc]
    cases hd : p.entry.pkgbuildDir with
    | none => rfl
    | some dir =>
      have ho := resolvedVer_congr (w := w) (hp.origin hc (hd ▸ Option.some_ne_none dir))
      have hstage : ∀ text r, parsedStage w installed l dir text r =
          parsedStage w installed l' dir text r := by
        intro text r
        cases r with
        | none => rfl
        | some gv => rw [parsedStage, parsedStage, comparedVer_perm h]
      simp only [ho, hstage]

/-! ### The installed version and the upstream commit -/

theorem oldestInstalledVer_eq_some {v : Vercmp} {ver : String}
    (h : oldestInstalledVer v installed l = some ver) : ∃ n ∈ l, installed.get n = some ver := by
  have hfold : ∀ (vers : List String) (old : String),
      vers.foldl (fun oldest ver => if v.cmp ver oldest < 0 then ver else oldest) old ∈
        old :: vers := by
    intro vers
    induction vers with
    | nil => exact fun old => List.mem_cons_self
    | cons ver vers ih =>
      intro old
      rw [List.foldl_cons]
      by_cases hlt : v.cmp ver old < 0
      · rw [if_pos hlt]
        exact List.mem_cons_of_mem _ (ih ver)
      · rw [if_neg hlt]
        rcases List.mem_cons.mp (ih old) with heq | hmem
        · rw [heq]
          exact List.mem_cons_self
        · exact List.mem_cons_of_mem _ (List.mem_cons_of_mem _ hmem)
  rw [oldestInstalledVer] at h
  cases hv : installedVers installed (l.insertionSort (· ≤ ·)) with
  | nil =>
    rw [hv] at h
    cases h
  | cons old vers =>
    rw [hv] at h
    have hmem := hfold vers old
    rw [Option.some.inj h, ← hv] at hmem
    obtain ⟨n, hn, hget⟩ := List.mem_filterMap.mp hmem
    exact ⟨n, (List.mem_insertionSort _).mp hn, hget⟩

theorem producedPkgnames_subset {dir : String} : producedPkgnames w dir l ⊆ l := by
  unfold producedPkgnames
  cases (w.patched dir).bind w.parse with
  | none => exact List.Subset.refl _
  | some g =>
    dsimp only
    by_cases he : l.filter (· ∈ g.pkgname.getD []) = []
    · rw [if_pos he]
      exact List.Subset.refl _
    · rw [if_neg he]
      exact fun _ hn => (List.mem_filter.mp hn).1

theorem comparedVer_eq_some {dir ver : String} (h : comparedVer w installed l dir = some ver) :
    ∃ n ∈ l, installed.get n = some ver := by
  rw [comparedVer] at h
  obtain ⟨n, hn, hget⟩ := oldestInstalledVer_eq_some h
  by_cases hlen : 1 < (installedVers installed l).dedup.length
  · rw [if_pos hlen] at hn
    exact ⟨n, producedPkgnames_subset hn, hget⟩
  · rw [if_neg hlen] at hn
    exact ⟨n, hn, hget⟩

/-- The versions are compared for the PKGBUILD of the entry. -/
theorem prepare_compare {c : Checked} (h : prepare w installed pkgbase l p = .compare c) :
    p.repoClass ≠ some "pacman" ∧ p.entry.pkgbuildDir = some c.dir ∧
      w.pkgbuild c.dir = some c.text ∧ w.parse c.text = some c.globals ∧
      comparedVer w installed l c.dir = some c.installedVer := by
  unfold prepare at h
  by_cases hc : p.repoClass = some "pacman"
  · rw [if_pos hc] at h
    cases h
  rw [if_neg hc] at h
  by_cases hv : (isVcsPkgbase pkgbase && !w.forceDevel) = true
  · rw [if_pos hv] at h
    cases h
  rw [if_neg hv] at h
  cases hdir : p.entry.pkgbuildDir with
  | none =>
    rw [hdir] at h
    cases h
  | some dir =>
    rw [hdir] at h
    dsimp only at h
    by_cases hd : w.isDir dir = true
    swap
    · rw [if_neg hd] at h
      cases h
    rw [if_pos hd] at h
    cases htext : w.pkgbuild dir with
    | none =>
      rw [htext] at h
      cases h
    | some text =>
      rw [htext] at h
      dsimp only at h
      cases hf : (if w.skipSyncCheck then none else w.syncFailures.get pkgbase) with
      | some f =>
        rw [hf] at h
        cases h
      | none =>
        rw [hf] at h
        cases hg : (w.parse text).bind fun g => (resolvedVer w pkgbase p.entry g).map (g, ·) with
        | none =>
          rw [hg] at h
          cases h
        | some gv =>
          obtain ⟨g, hparse, hver⟩ := Option.bind_eq_some_iff.mp hg
          obtain ⟨ver, -, rfl⟩ := Option.map_eq_some_iff.mp hver
          rw [hg, parsedStage] at h
          cases hcmp : comparedVer w installed l dir with
          | none =>
            rw [hcmp] at h
            cases h
          | some inst =>
            rw [hcmp] at h
            cases h
            exact ⟨hc, rfl, htext, hparse, hcmp⟩

/-- The check of a PKGBUILD that is there and parses. -/
theorem prepare_of_parse {dir text : String} {g : Globals} (hc : p.repoClass ≠ some "pacman")
    (hf : w.forceDevel = true) (hd : p.entry.pkgbuildDir = some dir) (hdir : w.isDir dir = true)
    (htext : w.pkgbuild dir = some text) (hskip : w.skipSyncCheck = true)
    (hparse : w.parse text = some g) :
    (resolvedVer w pkgbase p.entry g = none →
      prepare w installed pkgbase l p = .done (.ok none)) ∧
    ∀ ver inst, resolvedVer w pkgbase p.entry g = some ver →
      comparedVer w installed l dir = some inst →
        prepare w installed pkgbase l p = .compare ⟨dir, text, g, ver, inst⟩ := by
  have hdevel : ¬ (isVcsPkgbase pkgbase && !w.forceDevel) = true := by
    rw [hf, Bool.not_true, Bool.and_false]
    exact Bool.false_ne_true
  have hprep : ∀ r,
      (w.parse text).bind (fun g => (resolvedVer w pkgbase p.entry g).map (g, ·)) = r →
      prepare w installed pkgbase l p = parsedStage w installed l dir text r := by
    rintro r rfl
    unfold prepare
    rw [if_neg hc, if_neg hdevel, hd]
    dsimp only
    rw [if_pos hdir, htext]
    dsimp only
    rw [if_pos hskip]
  rw [hparse] at hprep
  refine ⟨fun hv => hprep none ?_, fun ver inst hv hi => ?_⟩
  · rw [Option.bind_some, hv, Option.map_none]
  · rw [hprep (some (g, ver)) (by rw [Option.bind_some, hv, Option.map_some]), parsedStage, hi]

theorem fragmentRef_sha {parts : List Text} {sha : Text} (h : fragmentRef parts = .inl sha) :
    isSha1 sha = true := by
  induction parts with
  | nil => cases h
  | cons part parts ih =>
    rw [fragmentRef] at h
    by_cases hk : (partition "=".toList part).1 = "commit".toList
    · rw [if_pos hk] at h
      by_cases hs : isSha1 ((partition "=".toList part).2.getD []) = true
      · rw [if_pos hs] at h
        cases h
        exact hs
      · rw [if_neg hs] at h
        exact ih h
    · rw [if_neg hk] at h
      by_cases hr : (partition "=".toList part).1 ∈
          ["tag".toList, "branch".toList, "fragment".toList] ∧
            (partition "=".toList part).2.getD [] ≠ []
      · rw [if_pos hr] at h
        cases h
      · rw [if_neg hr] at h
        exact ih h

/-- The upstream commit is a full hash. -/
theorem peekUpstreamCommit_sha {dir sha : String}
    (h : peekUpstreamCommit w pkgbase dir = some sha) : isSha1 sha.toList = true := by
  unfold peekUpstreamCommit at h
  by_cases hf : w.frozen pkgbase = true
  · rw [if_pos hf] at h
    cases h
  rw [if_neg hf] at h
  obtain ⟨text, -, h⟩ := Option.bind_eq_some_iff.mp h
  obtain ⟨g, -, h⟩ := Option.bind_eq_some_iff.mp h
  obtain ⟨src, -, h⟩ := Option.bind_eq_some_iff.mp h
  cases hr : (if src.fragment = [] then .inr "HEAD".toList
      else fragmentRef (Text.split '&' src.fragment) : Text ⊕ Text) with
  | inl pin =>
    rw [hr, refCommit] at h
    cases h
    rw [String.toList_ofList]
    by_cases he : src.fragment = []
    · rw [if_pos he] at hr
      cases hr
    · rw [if_neg he] at hr
      exact fragmentRef_sha hr
  | inr ref =>
    rw [hr] at h
    obtain ⟨lines, -, h⟩ := Option.bind_eq_some_iff.mp h
    obtain ⟨line, hl, rfl⟩ := Option.map_eq_some_iff.mp h
    rw [String.toList_ofList]
    exact List.find?_some hl

end

end Sysforge.VersionCheck
