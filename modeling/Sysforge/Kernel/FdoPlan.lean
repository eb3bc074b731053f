import Sysforge.Kernel.FdoStores

/-!
# Planning, finishing and capturing a feedback-directed kernel

`plan_fdo_build` decides what a kernel build applies and installs as: a record build clears the
profiles of the round it starts and, in round 2, pins the AutoFDO profile; a use build checks its
profiles. `finish_fdo_build` writes the record of the round after the install, and
`run_fdo_capture` allows a capture when it finds the image of the running kernel.
-/

namespace Sysforge.Kernel

variable {F : Type*} (sha256 : F → String) (digest : String → String) (root : String)

/-- The modes of a kernel build with feedback. -/
inductive FdoMode
  | record
  | use
  deriving DecidableEq

/-- The make-variables of a build, by the stores whose files they name. -/
structure FdoEnv where
  autofdo : StoreKey
  propeller : Option StoreKey

/-- `FdoPlan`. -/
structure FdoPlan where
  mode : Option FdoMode
  propeller : Bool
  effPkgname : String
  env : Option FdoEnv := none
  buildMode : Option String := none
  roundStore : Option StoreKey := none
  afdoSha256 : Option String := none
  profileStore : Option StoreKey := none
  forceRebuild : Bool := false
  appliedFingerprint : Option String := none

/-- What goes wrong with the files of a record plan: the removal stops after some files, or the copy
leaves something else in the pinned file. -/
structure PlanFault (F : Type*) where
  unlink : Option (ℕ × String) := none
  pin : Option (Option F × String) := none

/-! ## Record -/

/-- The plan of a record build. -/
def recordPlan (pkgname : String) (propeller : Bool) (env : Option FdoEnv)
    (afdoSha256 : Option String) : FdoPlan where
  mode := some .record
  propeller := propeller
  effPkgname := recordPkgname pkgname
  env := env
  roundStore := some ⟨pkgname, propeller⟩
  afdoSha256 := afdoSha256
  forceRebuild := true

/-- `pin_autofdo_profile` with the plan of round 2. -/
def planPinned (ss : Stores F) (pkgname : String) (dryRun : Bool) (fault : PlanFault F) :
    Except String FdoPlan × Stores F :=
  let k : StoreKey := ⟨pkgname, true⟩
  let pinned (p : Option F) : Stores F := if dryRun then ss else ss.set k { ss k with afdo := p }
  match (ss ⟨pkgname, false⟩).afdo with
  | none =>
    (.error ("[KERNEL] --propeller is round 2 and needs round 1's AutoFDO profile at " ++
      autofdoProfilePath root ⟨pkgname, false⟩ ++ ". Complete round 1 first: " ++
      "\x60sysforge run kernel --autofdo=record\x60, reboot into the profiling kernel, run " ++
      "\x60--autofdo=capture\x60 and the commands it prints (the last one writes kernel.afdo). " ++
      "Round 1's \x60--autofdo=use\x60 is optional here."), ss)
  | some src =>
    match fault.pin with
    | some (left, e) =>
      (.error ("[KERNEL] cannot pin the AutoFDO profile into " ++ storePath root k ++ ": " ++ e),
        pinned left)
    | none => (.ok (recordPlan pkgname true (some ⟨k, none⟩) (some (sha256 src))), pinned (some src))

/-- `_plan_record`. -/
def planRecord (ss : Stores F) (propeller : Bool) (pkgname : String) (dryRun : Bool)
    (fault : PlanFault F) : Except String FdoPlan × Stores F :=
  let k : StoreKey := ⟨pkgname, propeller⟩
  let cleared (n : ℕ) : Stores F := ss.set k (clearRoundProfiles (ss k) propeller n)
  match fault.unlink, dryRun with
  | some (n, e), false =>
    (.error ("[KERNEL] cannot remove the previous round's profiles from " ++ storePath root k ++
      ": " ++ e), cleared n)
  | _, _ =>
    let ss := if dryRun then ss else cleared 2
    if propeller then planPinned sha256 root ss pkgname dryRun fault
    else (.ok (recordPlan pkgname false none none), ss)

/-! ## Use -/

/-- The plan of a use build, with `_applied_state`. -/
def usePlan (ss : Stores F) (k : StoreKey) : FdoPlan :=
  let fp := appliedFingerprint sha256 digest (ss k) k.propeller
  { mode := some .use
    propeller := k.propeller
    effPkgname := optimizedPkgname k.pkgname k.propeller
    env := some ⟨k, if k.propeller then some k else none⟩
    buildMode := some (if k.propeller then "propeller_kernel" else "autofdo_kernel")
    profileStore := some k
    forceRebuild := fp.isNone || readApplied (ss k) ≠ fp
    appliedFingerprint := fp }

/-- `_plan_autofdo`. -/
def planAutofdo (ss : Stores F) (pkgname : String) (explicit : Bool) : Except String FdoPlan :=
  let k : StoreKey := ⟨pkgname, false⟩
  match requireProfile sha256 root k (ss k) with
  | .error e =>
    .error (if explicit then e else
      "kernel.toml [fdo] mode applies the AutoFDO profile at " ++ autofdoProfilePath root k ++
        ", but there is none. Collect one: \x60sysforge run kernel --autofdo=record\x60, reboot " ++
        "into it, run \x60--autofdo=capture\x60 and the commands it prints, then a plain " ++
        "\x60sysforge run kernel\x60. Or set kernel.toml [fdo] mode = \"off\".")
  | .ok _ => .ok (usePlan sha256 digest ss k)

/-- `_plan_use`. -/
def planUse (ss : Stores F) (propeller : Bool) (pkgname : String) (explicit : Bool)
    (buildingPkgver : Option String) : Except String FdoPlan :=
  let k : StoreKey := ⟨pkgname, true⟩
  if !propeller then planAutofdo sha256 digest root ss pkgname explicit
  else match requireProfile sha256 root k (ss k) with
    | .error e =>
      .error (if explicit then e else e ++ " Or set kernel.toml [fdo] mode = \"autofdo\".")
    | .ok info =>
      match buildingPkgver, info.bind RoundInfo.pkgver with
      | none, _ =>
        if explicit then .ok (usePlan sha256 digest ss k)
        else planAutofdo sha256 digest root ss pkgname false
      | some building, some profiled =>
        if profiled = building then .ok (usePlan sha256 digest ss k)
        else if explicit then
          .error ("round 2 profiled " ++ profiled ++ " but this build is " ++ building ++
            "; Propeller profiles only match the exact build they sampled. Redo round 2, or " ++
            "build with \x60--autofdo=use\x60 (AutoFDO only).")
        else planAutofdo sha256 digest root ss pkgname false
      | some _, none => .ok (usePlan sha256 digest ss k)

/-- `plan_fdo_build`: the plan or the error, and the stores after it. -/
def planFdoBuild (ss : Stores F) (mode : Option FdoMode) (propeller : Bool) (pkgname : String)
    (explicit : Bool) (buildingPkgver : Option String) (dryRun : Bool) (fault : PlanFault F) :
    Except String FdoPlan × Stores F :=
  match mode with
  | some .record => planRecord sha256 root ss propeller pkgname dryRun fault
  | some .use =>
    ((planUse sha256 digest root ss propeller pkgname explicit buildingPkgver).mapError
      ("[KERNEL] " ++ ·), ss)
  | none => (.ok { mode := none, propeller := false, effPkgname := pkgname }, ss)

/-! ## After the install -/

/-- `finish_fdo_record`; `image` is the kernel that a fresh build has made, and an AlreadyBuilt build
has no tree. -/
def finishFdoRecord (ss : Stores F) (plan : FdoPlan) (image : Image F) (builtDir pkgver : Option String)
    (writeOk : Bool) : Stores F :=
  match plan.mode, plan.roundStore with
  | some .record, some k =>
    if !writeOk then ss
    else if builtDir.isSome then
      ss.set k { writeRound (ss k) pkgver builtDir plan.afdoSha256 with profiled := some image }
    else match (ss k).round.filter fun prev => prev.pkgver = pkgver with
      | some prev => ss.set k (writeRound (ss k) pkgver prev.buildDir prev.afdoSha256)
      | none => ss.set k (writeRound (ss k) pkgver none none)
  | _, _ => ss

/-- `finish_fdo_build`. -/
def finishFdoBuild (ss : Stores F) (plan : FdoPlan) (image : Image F)
    (builtDir pkgver : Option String) (writeOk : Bool) : Stores F :=
  match plan.mode, plan.profileStore, plan.appliedFingerprint with
  | some .use, some k, some fp =>
    if readApplied (ss k) = some fp ∨ fp = "" ∨ !writeOk then ss
    else ss.set k { ss k with applied := some fp }
  | _, _, _ => finishFdoRecord ss plan image builtDir pkgver writeOk

/-! ## The capture -/

/-- A vmlinux file: its path and what its bytes say. -/
structure Vmlinux where
  path : String
  text : String

/-- Where images are found: below the `src` of a build tree, and of a running release. -/
structure ImageFiles where
  trees : String → List Vmlinux
  modules : String → Option Vmlinux
  /-- `get_builddir` -/
  builddir : Option String

/-- The file has a text. -/
def Vmlinux.carries (v : Vmlinux) (t : String) : Bool := Text.contains t.toList v.text.toList

/-- The record command of a round. -/
def recordCommand (propeller : Bool) : String :=
  "\x60sysforge run kernel --autofdo=record" ++ (if propeller then " --propeller" else "") ++ "\x60"

/-- `resolve_vmlinux`. -/
def resolveVmlinux (files : ImageFiles) (pkgname : String) (recordedBuildDir : Option String)
    (banner running : String) (propeller : Bool) : Except String Vmlinux :=
  let roots := recordedBuildDir.toList ++ (files.builddir.map (· ++ "/" ++ pkgname)).toList
  let candidates := roots.flatMap files.trees ++ (files.modules running).toList
  if candidates = [] then
    .error ("the profiling kernel's build tree is gone (was ~/builds wiped?), so there is no " ++
      "vmlinux for " ++ pkgname ++ ". Re-run " ++ recordCommand propeller ++ ".")
  else if banner = "" then
    .error ("cannot read /proc/version to identify the running kernel, so the matching vmlinux " ++
      "cannot be chosen.")
  else match candidates.find? fun v => v.carries banner && v.carries ".debug_info" with
    | some v => .ok v
    | none => match candidates.find? (·.carries banner) with
      | some stripped =>
        .error ("the running kernel (" ++ running ++ ") matches only " ++ stripped.path ++
          ", which has no debug info (the -headers copy is stripped), so the converter cannot " ++
          "use it. If this is " ++ pkgname ++ ", its build tree is gone (was ~/builds wiped?): " ++
          "re-run " ++ recordCommand propeller ++ ". Otherwise reboot into " ++ pkgname ++
          " and re-run capture.")
      | none =>
        .error ("not booted into " ++ pkgname ++ " (running: " ++ running ++
          "). Reboot into the profiling kernel, then re-run capture.")

/-- `run_fdo_capture` on the running kernel: the image that its commands convert with. -/
def runFdoCapture (ss : Stores F) (files : ImageFiles) (running : Image F) (pkgname : String)
    (propeller : Bool) (missing : List String) : Except String Vmlinux :=
  if missing ≠ [] then
    .error ("[KERNEL] capture needs tools that are not on PATH:\n  " ++ "\n  ".intercalate missing)
  else
    (resolveVmlinux files (recordPkgname pkgname)
      ((ss ⟨pkgname, propeller⟩).round.bind RoundInfo.buildDir) running.banner running.release
      propeller).mapError ("[KERNEL] " ++ ·)

/-- The conversion that a capture prints, of samples of `image`. -/
def convert (ss : Stores F) (k : StoreKey) (image : Image F) (cc ld : F) : Stores F :=
  if k.propeller then ss.set k { ss k with cc := some ⟨cc, image⟩, ld := some ⟨ld, image⟩ }
  else ss.set k { ss k with afdo := some cc }

end Sysforge.Kernel
