import Sysforge.Foundations.Run
import Sysforge.Kernel.BuiltConfig

/-!
# What Gate 2 has audited when a kernel is installed

A run of the kernel stage builds or reuses the packages of a kernel, audits a config, archives it and
installs the package files it finds. The histories are runs over any kernels, builds that fail and
runs that stop included. As long as builds of one release have one config, a run whose files are the
ones that it names has audited the config of the kernel that it installs. Without the one, a package
that Gate 2 refused is audited against the config of a later build; without the other, the files that
an earlier manifest names are installed in place of those built.
-/

namespace Sysforge.Kernel

open Text

/-! ## Builds -/

/-- What a build leaves of a `.config`: its text and release, and whether the file is written anew. -/
structure ConfigWrite where
  path : String
  text : Option Text
  release : Option String
  touched : Bool := true

/-- A package file that a build writes. -/
structure BuiltFile where
  name : String
  vmlinuz : Option String
  headers : Option (String × Text)

/-- What makepkg does: the configs of the tree that stay, those it writes, the config of the kernel and
the package files. -/
structure Build where
  keep : String → Bool := fun _ => true
  writes : List ConfigWrite
  config : Text
  outputs : List BuiltFile

/-- The `.config` is written. -/
def Disk.writeConfig (root : String) (d : Disk) (w : ConfigWrite) : Disk :=
  let mtime := if w.touched then d.clock
    else ((d.trees.get (root, w.path)).map TreeConfig.mtime).getD d.clock
  { d with
    trees := d.trees.set (root, w.path) ⟨w.text, w.release, mtime⟩
    clock := d.clock + 1 }

/-- The directory that makepkg writes packages to. -/
def KernelSetup.outDir (k : KernelSetup) : String := k.pkgdest.getD k.pkgbuildDir

/-- The items that the outputs of a build add to the packages. -/
def Build.items (b : Build) (dir : String) : List ((String × String) × PackageFile) :=
  b.outputs.map fun o => ((dir, o.name), ⟨o.vmlinuz, o.headers, b.config⟩)

/-- The disk before the writes of a build. -/
def Disk.cleaned (d : Disk) (k : KernelSetup) (b : Build) : Disk :=
  { d with trees := d.trees.filter fun p _ => p.1 ≠ k.buildDir || b.keep p.2 }

/-- The disk after a build. -/
def Disk.build (d : Disk) (k : KernelSetup) (b : Build) : Disk :=
  let d' := b.writes.foldl (Disk.writeConfig k.buildDir) (d.cleaned k b)
  { d' with
    packages := (b.items k.outDir).foldl (fun ps q => ps.set q.1 q.2) d'.packages }

/-! ## Runs of the stage -/

/-- How the build of a run ends: fresh, maybe after an AlreadyBuilt with its list of package files;
failed; or AlreadyBuilt and installed as built. -/
inductive BuildOutcome
  | fresh (b : Build) (refusal : Option (Option (List String)))
  | failed (b : Build)
  | alreadyBuilt

/-- The inputs of a run. -/
structure StageRun where
  outcome : BuildOutcome
  /-- `makepkg --packagelist` after the build; nothing when it fails -/
  packagelist : Option (List String)
  globals : Option PkgbuildGlobals
  allowBootAuditFailure : Bool := false
  /-- the run ends after the build -/
  crashed : Bool := false
  authenticated : Bool := true
  /-- `pacman -U` succeeds -/
  installs : Bool := true

/-- What a run has audited, and the files that it has handed to `pacman -U`. -/
structure Report where
  audited : Option Text := none
  handed : Option (List (String × PackageFile)) := none

/-- `_capture_built_manifest`. -/
def captureBuiltManifest (d : Disk) (k : KernelSetup) : Option (List String) → Disk
  | some (n :: ns) => { d with manifests := d.manifests.set k.pkgbuildDir (n :: ns) }
  | _ => d

/-- The manifest after an AlreadyBuilt. -/
def Disk.refuse (d : Disk) (k : KernelSetup) (packagelist : Option (List String)) : Disk :=
  if k.renamed then captureBuiltManifest d k packagelist
  else { d with manifests := d.manifests.erase k.pkgbuildDir }

/-- The disk after the build of a run. -/
def afterBuild (d : Disk) (k : KernelSetup) (r : StageRun) : Disk :=
  match r.outcome with
  | .fresh b refusal =>
    let d := ((refusal.map (d.refuse k)).getD d).build k b
    if k.renamed then captureBuiltManifest d k r.packagelist else d
  | .failed b => d.build k b
  | .alreadyBuilt => d.refuse k r.packagelist

/-- The build ended AlreadyBuilt. -/
def BuildOutcome.isReuse : BuildOutcome → Bool
  | .alreadyBuilt => true
  | _ => false

def BuildOutcome.isFailure : BuildOutcome → Bool
  | .failed _ => true
  | _ => false

/-- The stage after the build. -/
def finishStage (d : Disk) (k : KernelSetup) (r : StageRun) : Disk × Report :=
  let reuse := r.outcome.isReuse
  let reused := if reuse then resolveReusedConfig d k r.globals else none
  match gate2Audit d k r.allowBootAuditFailure reuse reused with
  | .error _ => (d, {})
  | .ok audited =>
    let d := recordKconfig d k (if reuse then none else some k.buildDir)
    if !r.authenticated then (d, { audited })
    else match artifactsForPkgbuild d k r.globals with
      | [] => (d, { audited })
      | files =>
        (if r.installs then { d with manifests := d.manifests.erase k.pkgbuildDir } else d,
          { audited, handed := some files })

/-- A run of the kernel stage. -/
def kernelStage (d : Disk) (k : KernelSetup) (r : StageRun) : Disk × Report :=
  let d := afterBuild d k r
  if r.outcome.isFailure || r.crashed then (d, {}) else finishStage d k r

/-- A step of a history. -/
def stageStep (d : Disk) (i : KernelSetup × StageRun) : Disk := (kernelStage d i.1 i.2).1

/-! ## The condition -/

/-- A build has the config of its release. -/
def Build.Labelled (cfg : String → Text) (b : Build) : Prop :=
  (∀ w ∈ b.writes, ∀ rel, w.release = some rel → w.text = some (cfg rel)) ∧
    ∀ o ∈ b.outputs, (∀ rel, o.vmlinuz = some rel → b.config = cfg rel) ∧
      ∀ rel t, o.headers = some (rel, t) → t = cfg rel

/-- The builds of a run have the configs of their releases. -/
def Labelled (cfg : String → Text) (_ : Disk) (i : KernelSetup × StageRun) : Prop :=
  match i.2.outcome with
  | .fresh b _ => b.Labelled cfg
  | .failed b => b.Labelled cfg
  | .alreadyBuilt => True

/-- The run names a package file: by the package list when names may differ, and by the names and the
version of the PKGBUILD otherwise. -/
def Names (k : KernelSetup) (r : StageRun) (name : String) : Bool :=
  if k.renamed then name ∈ r.packagelist.getD []
  else r.globals.any fun g => (versionOf g name).isSome && versionOf g name = g.version

/-- The files of a run are those that it names: a fresh build writes its own `.config` last, leaves no
earlier manifest in force, and has written every searched file that it names; a reused package is
named, and the kernels named have one release, whose archive file was written for it. -/
def Attributed (d : Disk) (k : KernelSetup) (r : StageRun) : Prop :=
  match r.outcome with
  | .fresh b refusal =>
    (∃ ws w, b.writes = ws ++ [w] ∧ w.touched = true ∧ w.text = some b.config) ∧
    (k.renamed = false → refusal = none → d.manifests.get k.pkgbuildDir = none) ∧
    (∃ o ∈ b.outputs, Names k r o.name = true) ∧
    ∀ p f, d.packages.get p = some f → p.1 = k.outDir ∨ p.1 = k.pkgbuildDir →
      Names k r p.2 = true → p.2 ∈ b.outputs.map BuiltFile.name
  | .failed _ => True
  | .alreadyBuilt =>
    (∃ q ∈ findArtifacts d k, Names k r q.1 = true) ∧
    ∃ rel, rel ≠ "unknown" ∧
      (∀ q ∈ findArtifacts d k, Names k r q.1 = true → ∀ rel', q.2.vmlinuz = some rel' → rel' = rel) ∧
      ∀ e, d.archive.get (archivePath k.pkgname rel) = some e → e.release = rel

/-! ## The invariant -/

/-- The configs of the trees, of the archive and of the packages are those of their releases. -/
structure OneConfig (cfg : String → Text) (d : Disk) : Prop where
  past : ∀ p c, d.trees.get p = some c → c.mtime < d.clock
  trees : ∀ p c rel, d.trees.get p = some c → c.release = some rel → c.text = some (cfg rel)
  archive : ∀ n e, d.archive.get n = some e → e.release ≠ "unknown" → e.text = cfg e.release
  packages : ∀ p f, d.packages.get p = some f → (∀ rel, f.vmlinuz = some rel → f.config = cfg rel) ∧
    ∀ rel t, f.headers = some (rel, t) → t = cfg rel

variable {cfg : String → Text} {d d' : Disk} {k : KernelSetup} {r : StageRun} {b : Build}
  {w : ConfigWrite} {p : String × String} {c : TreeConfig} {f : PackageFile} {root : String}

/-- What is on disk after a write: the new file, or one of before. -/
theorem get_writeConfig (hc : (d.writeConfig root w).trees.get p = some c) :
    (p = (root, w.path) ∧ c.text = w.text ∧ c.release = w.release ∧
        (w.touched = true → c.mtime = d.clock)) ∨
      d.trees.get p = some c := by
  rw [Disk.writeConfig, Dict.get_set] at hc
  by_cases hp : p = (root, w.path)
  · rw [if_pos hp, Option.some.injEq] at hc
    subst hc
    exact .inl ⟨hp, rfl, rfl, fun ht => if_pos ht⟩
  · rw [if_neg hp] at hc
    exact .inr hc

theorem oneConfig_writeConfig (h : OneConfig cfg d)
    (hw : ∀ rel, w.release = some rel → w.text = some (cfg rel)) :
    OneConfig cfg (d.writeConfig root w) where
  past p c hc := by
    rw [Disk.writeConfig, Dict.get_set] at hc
    refine Nat.lt_succ_of_le ?_
    by_cases hp : p = (root, w.path)
    · rw [if_pos hp, Option.some.injEq] at hc
      subst hc
      by_cases ht : w.touched = true
      · exact (if_pos ht).le
      · refine (if_neg ht).le.trans ?_
        cases hold : d.trees.get (root, w.path) with
        | none => exact le_rfl
        | some c => exact (h.past _ c hold).le
    · rw [if_neg hp] at hc
      exact (h.past p c hc).le
  trees p c rel hc hrel := by
    rcases get_writeConfig hc with ⟨-, ht, hr, -⟩ | hc
    · rw [ht]
      exact hw rel (hr ▸ hrel)
    · exact h.trees p c rel hc hrel
  archive := h.archive
  packages := h.packages

theorem oneConfig_writes (h : OneConfig cfg d) {ws : List ConfigWrite}
    (hw : ∀ w ∈ ws, ∀ rel, w.release = some rel → w.text = some (cfg rel)) :
    OneConfig cfg (ws.foldl (Disk.writeConfig root) d) := by
  induction ws generalizing d with
  | nil => exact h
  | cons w ws ih =>
    exact ih (oneConfig_writeConfig h (hw w List.mem_cons_self))
      fun w' hw' => hw w' (List.mem_cons_of_mem _ hw')

theorem oneConfig_cleaned (h : OneConfig cfg d) : OneConfig cfg (d.cleaned k b) := by
  have keep : ∀ p c, (d.cleaned k b).trees.get p = some c → d.trees.get p = some c := by
    intro p c hc
    rw [Disk.cleaned, Dict.get_filter] at hc
    exact (Option.filter_eq_some_iff.mp hc).1
  exact ⟨fun p c hc => h.past p c (keep p c hc), fun p c rel hc => h.trees p c rel (keep p c hc),
    h.archive, h.packages⟩

@[simp] theorem writes_packages (ws : List ConfigWrite) :
    (ws.foldl (Disk.writeConfig root) d).packages = d.packages := by
  induction ws generalizing d with
  | nil => rfl
  | cons w ws ih => exact ih

@[simp] theorem writes_manifests (ws : List ConfigWrite) :
    (ws.foldl (Disk.writeConfig root) d).manifests = d.manifests := by
  induction ws generalizing d with
  | nil => rfl
  | cons w ws ih => exact ih

theorem build_manifests : (d.build k b).manifests = d.manifests := writes_manifests _

/-- A package file after a build: one that it wrote, or another of before. -/
theorem get_build_packages (hf : (d.build k b).packages.get p = some f) :
    (p.1 = k.outDir ∧ f.config = b.config ∧
        ∃ o ∈ b.outputs, p.2 = o.name ∧ f.vmlinuz = o.vmlinuz ∧ f.headers = o.headers) ∨
      d.packages.get p = some f ∧ (p.1 = k.outDir → p.2 ∉ b.outputs.map BuiltFile.name) := by
  have hpk : (d.build k b).packages =
      (b.items k.outDir).foldl (fun ps q => ps.set q.1 q.2) d.packages := by
    rw [Disk.build, writes_packages, Disk.cleaned]
  rw [hpk] at hf
  rcases Dict.get_foldl_set (b.items k.outDir) d.packages p with ⟨hnot, hget⟩ | ⟨v, hv, hget⟩
  · refine .inr ⟨hget.symm.trans hf, fun hdir hmem => hnot ?_⟩
    obtain ⟨o, ho, hname⟩ := List.mem_map.mp hmem
    exact List.mem_map.mpr ⟨_, List.mem_map.mpr ⟨o, ho, rfl⟩, Prod.ext hdir.symm hname⟩
  · obtain rfl : v = f := Option.some.inj (hget.symm.trans hf)
    obtain ⟨o, ho, heq⟩ := List.mem_map.mp hv
    obtain ⟨rfl, rfl⟩ := Prod.mk.inj heq
    exact .inl ⟨rfl, rfl, o, ho, rfl, rfl, rfl⟩

/-- A file that a build writes is there. -/
theorem exists_build_packages {o : BuiltFile} (ho : o ∈ b.outputs) :
    ∃ f, (d.build k b).packages.get (k.outDir, o.name) = some f := by
  have hpk : (d.build k b).packages =
      (b.items k.outDir).foldl (fun ps q => ps.set q.1 q.2) d.packages := by
    rw [Disk.build, writes_packages, Disk.cleaned]
  rw [hpk]
  rcases Dict.get_foldl_set (b.items k.outDir) d.packages (k.outDir, o.name) with
    ⟨hnot, -⟩ | ⟨v, -, hget⟩
  · exact absurd (List.mem_map.mpr ⟨_, List.mem_map.mpr ⟨o, ho, rfl⟩, rfl⟩) hnot
  · exact ⟨v, hget⟩

theorem oneConfig_build (h : OneConfig cfg d) (hb : b.Labelled cfg) :
    OneConfig cfg (d.build k b) := by
  have hw : OneConfig cfg (b.writes.foldl (Disk.writeConfig k.buildDir) (d.cleaned k b)) :=
    oneConfig_writes (oneConfig_cleaned h) hb.1
  refine ⟨hw.past, hw.trees, hw.archive, fun p f hf => ?_⟩
  rcases get_build_packages hf with ⟨-, hconfig, o, ho, -, hv, hh⟩ | ⟨hf, -⟩
  · refine ⟨fun rel hrel => ?_, fun rel t hrel => (hb.2 o ho).2 rel t (hh ▸ hrel)⟩
    rw [hconfig]
    exact (hb.2 o ho).1 rel (hv ▸ hrel)
  · exact h.packages p f hf

/-- The manifests play no part. -/
theorem oneConfig_manifests (h : OneConfig cfg d) (ms : Dict String (List String)) :
    OneConfig cfg { d with manifests := ms } := ⟨h.past, h.trees, h.archive, h.packages⟩

theorem oneConfig_captureBuiltManifest (h : OneConfig cfg d) (l : Option (List String)) :
    OneConfig cfg (captureBuiltManifest d k l) := by
  unfold captureBuiltManifest
  split
  · exact oneConfig_manifests h _
  · exact h

theorem oneConfig_refuse (h : OneConfig cfg d) (l : Option (List String)) :
    OneConfig cfg (d.refuse k l) := by
  unfold Disk.refuse
  split
  · exact oneConfig_captureBuiltManifest h l
  · exact oneConfig_manifests h _

theorem oneConfig_afterBuild (h : OneConfig cfg d) (hr : Labelled cfg d (k, r)) :
    OneConfig cfg (afterBuild d k r) := by
  unfold afterBuild
  unfold Labelled at hr
  cases ho : r.outcome with
  | failed b =>
    simp only [ho] at hr ⊢
    exact oneConfig_build h hr
  | alreadyBuilt => exact oneConfig_refuse h r.packagelist
  | fresh b refusal =>
    simp only [ho] at hr ⊢
    have hd : OneConfig cfg ((refusal.map (d.refuse k)).getD d) := by
      cases refusal with
      | none => exact h
      | some l => exact oneConfig_refuse h l
    split
    · exact oneConfig_captureBuiltManifest (oneConfig_build hd hr) r.packagelist
    · exact oneConfig_build hd hr

theorem newestConfig_eq_some {roots : List String} {q : (String × String) × TreeConfig}
    (h : newestConfig d roots = some q) :
    d.trees.get q.1 = some q.2 ∧ q.1.1 ∈ roots ∧
      ∀ p c, d.trees.get p = some c → p.1 ∈ roots → c.mtime ≤ q.2.mtime := by
  obtain ⟨hmem, hroot⟩ := List.mem_filter.mp (List.argmax_mem h)
  refine ⟨Dict.mem_items.mp hmem, of_decide_eq_true hroot, fun p c hc hp => ?_⟩
  exact List.le_of_mem_argmax (a := (p, c))
    (List.mem_filter.mpr ⟨Dict.mem_items.mpr hc, decide_eq_true hp⟩) h

theorem oneConfig_archiveConfig (h : OneConfig cfg d) {text : Text} {release : String}
    (ht : release ≠ "unknown" → text = cfg release) :
    OneConfig cfg (archiveConfig d k text release) where
  past p c hc := (h.past p c hc).trans (Nat.lt_succ_self _)
  trees := h.trees
  archive n e he hrel := by
    have hset := he
    rw [archiveConfig, Dict.get_foldl_erase] at hset
    by_cases hstale : n ∈ ((archivesFor { d with
        archive := d.archive.set (archivePath k.pkgname release) ⟨text, d.clock, k.pkgname, release⟩
        clock := d.clock + 1 } k).drop 5).map Prod.fst
    · rw [if_pos hstale] at hset
      cases hset
    · rw [if_neg hstale, Dict.get_set] at hset
      by_cases hn : n = archivePath k.pkgname release
      · rw [if_pos hn, Option.some.injEq] at hset
        subst hset
        exact ht hrel
      · rw [if_neg hn] at hset
        exact h.archive n e hset hrel
  packages := h.packages

theorem oneConfig_recordKconfig (h : OneConfig cfg d) (buildDir : Option String) :
    OneConfig cfg (recordKconfig d k buildDir) := by
  unfold recordKconfig
  cases hq : resolveBuiltConfig d k buildDir with
  | none => exact h
  | some q =>
    cases ht : q.2.text with
    | none => simpa only [ht] using h
    | some t =>
      simp only [ht]
      refine oneConfig_archiveConfig h fun hrel => ?_
      cases hr : q.2.release with
      | none => exact absurd (by rw [hr]; rfl) hrel
      | some rel =>
        exact Option.some.inj (ht.symm.trans (h.trees q.1 q.2 rel (newestConfig_eq_some hq).1 hr))

theorem oneConfig_finishStage (h : OneConfig cfg d) : OneConfig cfg (finishStage d k r).1 := by
  unfold finishStage
  dsimp only
  split
  · exact h
  · have hrec := oneConfig_recordKconfig (k := k) h
      (if r.outcome.isReuse then none else some k.buildDir)
    split
    · exact hrec
    · split
      · exact hrec
      · split
        · exact oneConfig_manifests hrec _
        · exact hrec

/-- A run whose builds have the configs of their releases keeps the invariant. -/
theorem oneConfig_stageStep {i : KernelSetup × StageRun} (h : OneConfig cfg d)
    (hi : Labelled cfg d i) : OneConfig cfg (stageStep d i) := by
  have hb := oneConfig_afterBuild h hi
  unfold stageStep kernelStage
  dsimp only
  split
  · exact hb
  · exact oneConfig_finishStage hb

/-! ## The files of a run -/

/-- Only the files that the run names can be chosen: its manifest is in force, or there is none. -/
def InForce (d : Disk) (k : KernelSetup) (r : StageRun) : Prop :=
  (k.renamed = true → d.manifests.get k.pkgbuildDir = r.packagelist) ∧
    (k.renamed = false → d.manifests.get k.pkgbuildDir = none)

theorem filter_ne_nil_of_mem {α : Type*} {l : List α} {q : α → Bool} (h : ∃ a ∈ l, q a = true) :
    l.filter q ≠ [] := by
  obtain ⟨a, ha, hq⟩ := h
  exact List.ne_nil_of_mem (List.mem_filter.mpr ⟨ha, hq⟩)

/-- The files that are found are the ones the run names. -/
theorem artifactsForPkgbuild_eq (hf : InForce d k r)
    (hex : ∃ q ∈ findArtifacts d k, Names k r q.1 = true) :
    artifactsForPkgbuild d k r.globals = (findArtifacts d k).filter fun q => Names k r q.1 := by
  unfold artifactsForPkgbuild
  by_cases hren : k.renamed = true
  · have hnames : ∀ q : String × PackageFile,
        decide (q.1 ∈ (d.manifests.get k.pkgbuildDir).getD []) = Names k r q.1 := by
      intro q
      rw [hf.1 hren, Names, if_pos hren]
    simp only [hnames]
    rw [if_pos (filter_ne_nil_of_mem hex)]
  · have hnone := hf.2 (Bool.eq_false_iff.mpr hren)
    have hexact : (findArtifacts d k).filter
        (fun q => decide (q.1 ∈ (d.manifests.get k.pkgbuildDir).getD [])) = [] := by
      rw [hnone]
      exact List.filter_eq_nil_iff.mpr fun q _ h => List.not_mem_nil (of_decide_eq_true h)
    dsimp only
    rw [hexact, if_neg (not_not.mpr rfl)]
    obtain ⟨q₀, hq₀, hn₀⟩ := hex
    cases hg : r.globals with
    | none =>
      rw [Names, if_neg hren, hg] at hn₀
      exact absurd hn₀ Bool.false_ne_true
    | some g =>
      have hnames : ∀ q : String × PackageFile, Names k r q.1 =
          ((versionOf g q.1).isSome && decide (versionOf g q.1 = g.version)) := by
        intro q
        rw [Names, if_neg hren, hg]
        rfl
      have hne : g.pkgnames ≠ [] := by
        intro hnil
        rw [hnames, versionOf, hnil] at hn₀
        exact absurd hn₀ Bool.false_ne_true
      have hcur : ((findArtifacts d k).filter fun q => (versionOf g q.1).isSome).filter
          (fun q => decide (versionOf g q.1 = g.version)) =
            (findArtifacts d k).filter fun q => Names k r q.1 := by
        rw [List.filter_filter]
        exact List.filter_congr fun q _ => by rw [hnames, Bool.and_comm]
      dsimp only
      rw [if_neg hne, scopeByName, hcur, if_pos (filter_ne_nil_of_mem ⟨q₀, hq₀, hn₀⟩)]

theorem mem_filesIn {dir : String} {q : String × PackageFile} :
    q ∈ filesIn d dir ↔ d.packages.get (dir, q.1) = some q.2 := by
  rw [filesIn, List.mem_map]
  constructor
  · rintro ⟨⟨⟨dir', name⟩, f⟩, hmem, rfl⟩
    obtain ⟨hitem, hdir⟩ := List.mem_filter.mp hmem
    obtain rfl : dir' = dir := of_decide_eq_true hdir
    exact Dict.mem_items.mp hitem
  · intro h
    exact ⟨((dir, q.1), q.2), List.mem_filter.mpr ⟨Dict.mem_items.mpr h, decide_eq_true rfl⟩, rfl⟩

/-- A file that is found lies where makepkg writes, or beside the PKGBUILD with none of its name
there. -/
theorem mem_findArtifacts {q : String × PackageFile} (h : q ∈ findArtifacts d k) :
    d.packages.get (k.outDir, q.1) = some q.2 ∨
      d.packages.get (k.pkgbuildDir, q.1) = some q.2 ∧
        ∀ f, d.packages.get (k.outDir, q.1) ≠ some f := by
  unfold findArtifacts at h
  unfold KernelSetup.outDir
  cases hdest : k.pkgdest with
  | none =>
    rw [hdest] at h
    exact .inl (mem_filesIn.mp (List.mem_filter.mp (List.mem_append.mp h |>.resolve_left
      List.not_mem_nil)).1)
  | some dest =>
    rw [hdest] at h
    rcases List.mem_append.mp h with h | h
    · exact .inl (mem_filesIn.mp h)
    · obtain ⟨hmem, hnot⟩ := List.mem_filter.mp h
      refine .inr ⟨mem_filesIn.mp hmem, fun f hf => of_decide_eq_true hnot ?_⟩
      exact List.mem_map.mpr ⟨(q.1, f), mem_filesIn.mpr hf, rfl⟩

theorem mem_findArtifacts_of_get {name : String} (h : d.packages.get (k.outDir, name) = some f) :
    (name, f) ∈ findArtifacts d k := by
  unfold KernelSetup.outDir at h
  unfold findArtifacts
  cases hdest : k.pkgdest with
  | none =>
    rw [hdest] at h
    exact List.mem_append_right _ (List.mem_filter.mpr ⟨mem_filesIn.mpr h,
      decide_eq_true List.not_mem_nil⟩)
  | some dest =>
    rw [hdest] at h
    exact List.mem_append_left _ (mem_filesIn.mpr h)

/-! ## Manifests -/

theorem captureBuiltManifest_eq (l : Option (List String)) :
    ∃ ms, captureBuiltManifest d k l = { d with manifests := ms } := by
  unfold captureBuiltManifest
  split
  · exact ⟨_, rfl⟩
  · exact ⟨d.manifests, rfl⟩

theorem refuse_eq (l : Option (List String)) : ∃ ms, d.refuse k l = { d with manifests := ms } := by
  unfold Disk.refuse
  split
  · exact captureBuiltManifest_eq l
  · exact ⟨_, rfl⟩

theorem recordKconfig_eq (buildDir : Option String) :
    ∃ a c, recordKconfig d k buildDir = { d with archive := a, clock := c } := by
  unfold recordKconfig
  cases resolveBuiltConfig d k buildDir with
  | none => exact ⟨d.archive, d.clock, rfl⟩
  | some q =>
    cases ht : q.2.text with
    | none =>
      simp only [ht]
      exact ⟨d.archive, d.clock, rfl⟩
    | some t =>
      simp only [ht]
      exact ⟨_, _, rfl⟩

/-- A captured list that names a file is the manifest. -/
theorem get_captureBuiltManifest (hren : k.renamed = true) {name : String}
    (hname : Names k r name = true) :
    (captureBuiltManifest d k r.packagelist).manifests.get k.pkgbuildDir = r.packagelist := by
  rw [Names, if_pos hren] at hname
  cases hl : r.packagelist with
  | none =>
    rw [hl] at hname
    exact absurd (of_decide_eq_true hname) List.not_mem_nil
  | some l =>
    cases l with
    | nil =>
      rw [hl] at hname
      exact absurd (of_decide_eq_true hname) List.not_mem_nil
    | cons n ns =>
      unfold captureBuiltManifest
      exact (Dict.get_set _ _ _ _).trans (if_pos rfl)

theorem get_erase_self (ms : Dict String (List String)) (dir : String) :
    (ms.erase dir).get dir = none := (Dict.get_erase _ _ _).trans (if_pos rfl)

/-- After an AlreadyBuilt the manifest names the files of the run. -/
theorem inForce_refuse {name : String} (hname : Names k r name = true) :
    InForce (d.refuse k r.packagelist) k r := by
  refine ⟨fun hren => ?_, fun hren => ?_⟩
  · rw [Disk.refuse, if_pos hren]
    exact get_captureBuiltManifest hren hname
  · rw [Disk.refuse, if_neg (Bool.eq_false_iff.mp hren)]
    exact get_erase_self _ _

/-- After a fresh build as well, when no earlier manifest is left. -/
theorem inForce_fresh {refusal : Option (Option (List String))}
    (ho : r.outcome = .fresh b refusal) {name : String} (hname : Names k r name = true)
    (hold : k.renamed = false → refusal = none → d.manifests.get k.pkgbuildDir = none) :
    InForce (afterBuild d k r) k r := by
  unfold afterBuild
  simp only [ho]
  refine ⟨fun hren => ?_, fun hren => ?_⟩
  · rw [if_pos hren]
    exact get_captureBuiltManifest hren hname
  · rw [if_neg (Bool.eq_false_iff.mp hren), build_manifests]
    cases refusal with
    | none => exact hold hren rfl
    | some l =>
      rw [Option.map_some, Option.getD_some, Disk.refuse, if_neg (Bool.eq_false_iff.mp hren)]
      exact get_erase_self _ _

/-! ## The audit -/

theorem gate2AuditConfig_ok {text : Text} {source : String} {audited : Option Text}
    (h : gate2AuditConfig k false (some text) source = .ok audited) :
    audited = some text ∧ Boots k.topology (parseKconfigText text) := by
  unfold gate2AuditConfig at h
  dsimp only at h
  split at h
  · cases h
  next hno =>
    refine ⟨(Except.ok.inj h).symm, @boots_of_audit _ source _ ?_⟩
    by_contra hne
    exact hno ⟨hne, rfl⟩

/-- What a run that installs has audited and handed over. -/
theorem finishStage_handed {files : List (String × PackageFile)}
    (h : (finishStage d k r).2.handed = some files) :
    ∃ audited, gate2Audit d k r.allowBootAuditFailure r.outcome.isReuse
        (if r.outcome.isReuse then resolveReusedConfig d k r.globals else none) = .ok audited ∧
      (finishStage d k r).2.audited = audited ∧ files = artifactsForPkgbuild d k r.globals := by
  unfold finishStage at h ⊢
  dsimp only at h ⊢
  cases hg : gate2Audit d k r.allowBootAuditFailure r.outcome.isReuse
      (if r.outcome.isReuse then resolveReusedConfig d k r.globals else none) with
  | error e =>
    rw [hg] at h
    cases h
  | ok audited =>
    rw [hg] at h
    refine ⟨audited, rfl, ?_⟩
    obtain ⟨a, c, hrec⟩ := @recordKconfig_eq d k (if r.outcome.isReuse then none else some k.buildDir)
    simp only [hrec] at h ⊢
    have hart : artifactsForPkgbuild { d with archive := a, clock := c } k r.globals =
        artifactsForPkgbuild d k r.globals := rfl
    rw [hart] at h ⊢
    cases hauth : r.authenticated with
    | false =>
      rw [hauth] at h
      cases h
    | true =>
      rw [hauth] at h
      cases hfiles : artifactsForPkgbuild d k r.globals with
      | nil =>
        rw [hfiles] at h
        cases h
      | cons q qs =>
        rw [hfiles] at h
        exact ⟨rfl, (Option.some.inj h).symm⟩

/-- The newest `.config` after a build that writes its own last is its own. -/
theorem resolveBuiltConfig_build (h : OneConfig cfg d)
    (hw : ∀ w ∈ b.writes, ∀ rel, w.release = some rel → w.text = some (cfg rel))
    {ws : List ConfigWrite} (hlast : b.writes = ws ++ [w]) (ht : w.touched = true) :
    ∃ q, resolveBuiltConfig (d.build k b) k (some k.buildDir) = some q ∧ q.2.text = w.text := by
  have hpre : OneConfig cfg (ws.foldl (Disk.writeConfig k.buildDir) (d.cleaned k b)) :=
    oneConfig_writes (oneConfig_cleaned h) fun w' hw' =>
      hw w' (hlast ▸ List.mem_append_left _ hw')
  have htrees : (d.build k b).trees =
      ((ws.foldl (Disk.writeConfig k.buildDir) (d.cleaned k b)).writeConfig k.buildDir w).trees := by
    rw [Disk.build, hlast, List.foldl_append]
    rfl
  generalize ws.foldl (Disk.writeConfig k.buildDir) (d.cleaned k b) = d₁ at hpre htrees
  have hown : (d.build k b).trees.get (k.buildDir, w.path) =
      some ⟨w.text, w.release, d₁.clock⟩ := by
    rw [htrees, Disk.writeConfig, Dict.get_set, if_pos rfl, if_pos ht]
  have hroot : k.buildDir ∈ configRoots k (some k.buildDir) := List.mem_cons_self
  have hsome : newestConfig (d.build k b) (configRoots k (some k.buildDir)) ≠ none := by
    rw [newestConfig, ne_eq, List.argmax_eq_none]
    exact filter_ne_nil_of_mem ⟨_, Dict.mem_items.mpr hown, decide_eq_true hroot⟩
  obtain ⟨q, hq⟩ := Option.ne_none_iff_exists'.mp hsome
  obtain ⟨hget, -, hmax⟩ := newestConfig_eq_some hq
  refine ⟨q, hq, ?_⟩
  rw [htrees] at hget
  rcases get_writeConfig hget with ⟨-, htext, -⟩ | hold
  · exact htext
  · exact absurd (hmax _ _ hown hroot) (Nat.not_le.mpr (hpre.past _ _ hold))

/-- A reused config is the one of its release. -/
theorem resolveReusedConfig_text (h : OneConfig cfg d) {reused : ReusedConfig} {rel : String}
    (hres : resolveReusedConfig d k r.globals = some reused)
    (hrel : builtKernelArtifactRelease (artifactsForPkgbuild d k r.globals) = some rel)
    (hunknown : rel ≠ "unknown") (hpkg : ∀ q ∈ artifactsForPkgbuild d k r.globals,
      ∃ p, d.packages.get p = some q.2)
    (harch : ∀ e, d.archive.get (archivePath k.pkgname rel) = some e → e.release = rel) :
    reused.text = cfg rel := by
  unfold resolveReusedConfig at hres
  dsimp only at hres
  rw [hrel, Option.bind_some, Option.or_eq_some_iff, Option.or_eq_some_iff] at hres
  rcases hres with htree | ⟨-, harchive | ⟨-, hshipped⟩⟩
  · obtain ⟨q, hq, hthen⟩ := Option.bind_eq_some_iff.mp htree
    by_cases hqr : q.2.release = some rel
    · rw [if_pos hqr] at hthen
      obtain ⟨t, ht, rfl⟩ := Option.map_eq_some_iff.mp hthen
      have htext := (Option.filter_eq_some_iff.mp ht).1
      exact Option.some.inj (htext.symm.trans (h.trees _ _ rel (newestConfig_eq_some hq).1 hqr))
    · rw [if_neg hqr] at hthen
      cases hthen
  · obtain ⟨e, he, rfl⟩ := Option.map_eq_some_iff.mp harchive
    have hget := (Option.filter_eq_some_iff.mp he).1
    have hr := harch e hget
    rw [← hr]
    exact h.archive _ e hget (hr ▸ hunknown)
  · obtain ⟨t, ht, rfl⟩ := Option.map_eq_some_iff.mp hshipped
    obtain ⟨q, hq, hhead⟩ := List.exists_of_findSome?_eq_some ht
    obtain ⟨hd, hfilter, rfl⟩ := Option.map_eq_some_iff.mp hhead
    obtain ⟨hheaders, hcond⟩ := Option.filter_eq_some_iff.mp hfilter
    obtain ⟨p, hp⟩ := hpkg q hq
    obtain ⟨rfl, -⟩ := of_decide_eq_true hcond
    exact (h.packages p q.2 hp).2 hd.1 hd.2 hheaders

/-! ## Runs -/

/-- A fresh build: the audited config is the build's, and so is every file it names. -/
theorem audited_fresh (h : OneConfig cfg d) (hlab : Labelled cfg d (k, r))
    {refusal : Option (Option (List String))} (ho : r.outcome = .fresh b refusal)
    (hat : Attributed d k r) (hallow : r.allowBootAuditFailure = false)
    {files : List (String × PackageFile)}
    (hfiles : (finishStage (afterBuild d k r) k r).2.handed = some files) :
    ∃ t, (finishStage (afterBuild d k r) k r).2.audited = some t ∧
      Boots k.topology (parseKconfigText t) ∧ ∀ q ∈ files, q.2.config = t := by
  obtain ⟨audited, hgate, haud, rfl⟩ := finishStage_handed hfiles
  have hb : b.Labelled cfg := by
    unfold Labelled at hlab
    simpa only [ho] using hlab
  unfold Attributed at hat
  simp only [ho] at hat
  obtain ⟨⟨ws, w, hlast, htouch, htext⟩, hold, ⟨o, hoMem, hoName⟩, hown⟩ := hat
  have hforce := inForce_fresh (d := d) ho hoName hold
  -- before the manifest is captured, the disk is that of the build
  obtain ⟨ms, hms⟩ : ∃ ms, (refusal.map (d.refuse k)).getD d = { d with manifests := ms } := by
    cases refusal with
    | none => exact ⟨d.manifests, rfl⟩
    | some l => exact refuse_eq l
  obtain ⟨ms', hafter⟩ : ∃ ms', afterBuild d k r =
      { ({ d with manifests := ms } : Disk).build k b with manifests := ms' } := by
    unfold afterBuild
    simp only [ho, hms]
    split
    · exact captureBuiltManifest_eq r.packagelist
    · exact ⟨_, rfl⟩
  have hd : OneConfig cfg { d with manifests := ms } := oneConfig_manifests h ms
  obtain ⟨q, hq, hqt⟩ := resolveBuiltConfig_build (k := k) hd hb.1 hlast htouch
  have hq' : resolveBuiltConfig (afterBuild d k r) k (some k.buildDir) = some q := by
    rw [hafter]
    exact hq
  rw [ho, hallow] at hgate
  simp only [BuildOutcome.isReuse, gate2Audit, Bool.false_eq_true, if_false, hq'] at hgate
  rw [hqt, htext] at hgate
  obtain ⟨rfl, hboots⟩ := gate2AuditConfig_ok hgate
  refine ⟨b.config, haud, hboots, ?_⟩
  have hpkgs : (afterBuild d k r).packages =
      (({ d with manifests := ms } : Disk).build k b).packages := by rw [hafter]
  obtain ⟨fo, hfo⟩ := exists_build_packages (d := { d with manifests := ms }) (k := k) hoMem
  have hex : ∃ q ∈ findArtifacts (afterBuild d k r) k, Names k r q.1 = true :=
    ⟨(o.name, fo), mem_findArtifacts_of_get (hpkgs ▸ hfo), hoName⟩
  rw [artifactsForPkgbuild_eq hforce hex]
  intro f hf
  obtain ⟨hfound, hname⟩ := List.mem_filter.mp hf
  -- a named file that the build has not written would be one of before
  have old : ∀ dir, dir = k.outDir ∨ dir = k.pkgbuildDir → d.packages.get (dir, f.1) = some f.2 →
      f.1 ∈ b.outputs.map BuiltFile.name := fun dir hdir hget =>
    hown (dir, f.1) f.2 hget hdir hname
  rcases mem_findArtifacts hfound with hget | ⟨hget, hnone⟩
  · rw [hpkgs] at hget
    rcases get_build_packages hget with ⟨-, hconfig, -⟩ | ⟨hget, hnot⟩
    · exact hconfig
    · exact absurd (old _ (.inl rfl) hget) (hnot rfl)
  · have hmem : f.1 ∈ b.outputs.map BuiltFile.name := by
      rw [hpkgs] at hget
      rcases get_build_packages hget with ⟨-, -, o', ho', hname', -⟩ | ⟨hget, -⟩
      · exact List.mem_map.mpr ⟨o', ho', hname'.symm⟩
      · exact old _ (.inr rfl) hget
    obtain ⟨o', ho', hname'⟩ := List.mem_map.mp hmem
    obtain ⟨g, hg⟩ := exists_build_packages (d := { d with manifests := ms }) (k := k) ho'
    exact absurd (hpkgs ▸ hname' ▸ hg) (hnone g)

/-- A reused package: the audited config is that of its release. -/
theorem audited_reuse (h : OneConfig cfg d) (ho : r.outcome = .alreadyBuilt)
    (hat : Attributed d k r) (hallow : r.allowBootAuditFailure = false)
    {files : List (String × PackageFile)}
    (hfiles : (finishStage (afterBuild d k r) k r).2.handed = some files) :
    ∃ t, (finishStage (afterBuild d k r) k r).2.audited = some t ∧
      Boots k.topology (parseKconfigText t) ∧
      ∀ q ∈ files, q.2.vmlinuz.isSome = true → q.2.config = t := by
  obtain ⟨audited, hgate, haud, rfl⟩ := finishStage_handed hfiles
  unfold Attributed at hat
  simp only [ho] at hat
  obtain ⟨⟨q₀, hq₀, hn₀⟩, rel, hunknown, hone, harch⟩ := hat
  have hforce : InForce (afterBuild d k r) k r := by
    unfold afterBuild
    simp only [ho]
    exact inForce_refuse hn₀
  obtain ⟨ms, hafter⟩ : ∃ ms, afterBuild d k r = { d with manifests := ms } := by
    unfold afterBuild
    simp only [ho]
    exact refuse_eq r.packagelist
  have hfound : findArtifacts (afterBuild d k r) k = findArtifacts d k := by rw [hafter]; rfl
  have hart := artifactsForPkgbuild_eq hforce ⟨q₀, hfound.symm ▸ hq₀, hn₀⟩
  rw [hfound] at hart
  have hd : OneConfig cfg (afterBuild d k r) := by
    rw [hafter]
    exact oneConfig_manifests h ms
  rw [ho, hallow] at hgate
  simp only [BuildOutcome.isReuse, gate2Audit, if_true] at hgate
  cases hres : resolveReusedConfig (afterBuild d k r) k r.globals with
  | none =>
    rw [hres] at hgate
    cases hgate
  | some reused =>
    rw [hres] at hgate
    obtain ⟨rfl, hboots⟩ := gate2AuditConfig_ok hgate
    have hpkg : ∀ q ∈ artifactsForPkgbuild (afterBuild d k r) k r.globals,
        ∃ p, (afterBuild d k r).packages.get p = some q.2 := by
      intro q hq
      rw [hart] at hq
      rcases mem_findArtifacts (hfound.symm ▸ (List.mem_filter.mp hq).1 :
        q ∈ findArtifacts (afterBuild d k r) k) with hget | ⟨hget, -⟩
      · exact ⟨_, hget⟩
      · exact ⟨_, hget⟩
    obtain ⟨rel', hrel', -⟩ := Option.bind_eq_some_iff.mp hres
    obtain ⟨q₁, hq₁, hv₁⟩ := List.exists_of_findSome?_eq_some hrel'
    have hrel : rel' = rel := by
      rw [hart] at hq₁
      exact hone q₁ (List.mem_filter.mp hq₁).1 (List.mem_filter.mp hq₁).2 rel' hv₁
    subst hrel
    have htext := resolveReusedConfig_text hd hres hrel' hunknown hpkg (by
      rw [hafter]
      exact harch)
    refine ⟨reused.text, haud, hboots, fun q hq hv => ?_⟩
    obtain ⟨v, hv⟩ := Option.isSome_iff_exists.mp hv
    obtain ⟨p, hp⟩ := hpkg q hq
    rw [hart] at hq
    obtain rfl := hone q (List.mem_filter.mp hq).1 (List.mem_filter.mp hq).2 v hv
    rw [htext]
    exact (hd.packages p q.2 hp).1 v hv

/-- A config that boots any root of the default topology. -/
def bootingConfig : Text :=
  unlines ((coreBootKconfig ++ systemdKconfig).map fun q => (q.1 ++ "=y").toList)

/-- The same without its first line, that of `CONFIG_MODULES`. -/
def brickConfig : Text := unlines (splitlines bootingConfig).tail

/-- A renamed kernel. -/
def linuxSetup : KernelSetup where
  pkgname := "linux"
  pkgbuildDir := "/src/linux"
  buildDir := "/builds/linux-sysforge"
  builddir := none
  pkgdest := some "/pkgs"
  renamed := true
  topology := {}

/-- The package file of a version. -/
def linuxFile (v : String) : String := "linux-sysforge-" ++ v ++ "-1-x86_64.pkg.tar.zst"

/-- The build of a version, whose release is the version, with a config. -/
def linuxBuild (v : String) (config : Text) : Build where
  writes := [{ path := "linux/.config", text := some config, release := some v }]
  config := config
  outputs := [⟨linuxFile v, some v, none⟩]

/-- A run that builds a version, with the package list it captures. -/
def linuxRun (v : String) (config : Text) (packagelist : Option (List String)) : StageRun where
  outcome := .fresh (linuxBuild v config) none
  packagelist := packagelist
  globals := none

/-- The report of a run after some runs. -/
def linuxReport (rs : List StageRun) (r : StageRun) : Report :=
  (kernelStage (Run.run stageStep {} (rs.map fun r => (linuxSetup, r))) linuxSetup r).2

/-- What a run has audited, with the configs of the kernels that it hands over. -/
def auditedAndHanded (rs : List StageRun) (r : StageRun) : Option Text × Option (List Text) :=
  ((linuxReport rs r).audited, (linuxReport rs r).handed.map fun fs => fs.map fun q => q.2.config)

theorem labelled_linuxBuild {v : String} {config : Text} (h : config = cfg v) :
    (linuxBuild v config).Labelled cfg := by
  refine ⟨fun w hw rel hrel => ?_, fun o ho => ⟨fun rel hrel => ?_, fun rel t hrel => ?_⟩⟩
  · obtain rfl := List.mem_singleton.mp hw
    obtain rfl := Option.some.inj hrel
    rw [← h]
  · obtain rfl := List.mem_singleton.mp ho
    obtain rfl := Option.some.inj hrel
    exact h
  · obtain rfl := List.mem_singleton.mp ho
    cases hrel

end Sysforge.Kernel
