import Sysforge.Foundations.Run
import Sysforge.Kernel.FdoPlan

/-!
# The rounds of Propeller

The runs are those of a machine whose kernels are planned, built, installed, booted and captured, in
any order. A Propeller capture is allowed on any running kernel whose image is found, and the two
rounds share the name and the tree of the profiling kernel, so that the pair can come from a kernel
that the round record does not describe. As long as a Propeller capture is taken on the kernel that
the record was written for, and none between the plan of a round and its record, a Propeller plan
uses a pair that was captured from a kernel built with the pinned profile, of the version recorded.
-/

namespace Sysforge.Kernel

/-- A run of the kernel stage under way. -/
structure KernelRun (F : Type*) where
  pkgname : String
  plan : FdoPlan
  /-- a Propeller capture of the kernel has been taken since the plan -/
  captured : Bool := false
  /-- the kernel to install, with its tree when the build was fresh -/
  built : Option (Image F × Option String) := none
  installed : Bool := false

/-- The stores, the image files, the packages built, the kernels installed, the running one, and the
run under way. -/
structure Machine (F : Type*) where
  stores : Stores F
  files : ImageFiles
  pkgdest : List (Image F)
  installed : String → Option (Image F)
  running : Image F
  run : Option (KernelRun F)

/-- What happens on the machine. -/
inductive FdoStep (F : Type*)
  | plan (mode : Option FdoMode) (propeller : Bool) (pkgname : String) (explicit : Bool)
      (buildingPkgver : Option String) (dryRun : Bool) (fault : PlanFault F)
  /-- the planned build succeeds fresh, in a tree with these images -/
  | build (banner release pkgver dir : String) (left : List Vmlinux)
  /-- the planned build ends AlreadyBuilt: a package built before -/
  | reuse (i : ℕ)
  /-- the build fails or is refused before the install, leaving a tree -/
  | stop (dir : String) (left : List Vmlinux)
  | install (headers : Option Vmlinux)
  /-- `finish_fdo_build`; the version may be unreadable and the write may fail -/
  | finish (known writeOk : Bool)
  | boot (pkgname : String)
  /-- a capture with its conversion, when it is allowed -/
  | capture (pkgname : String) (propeller : Bool) (missing : List String) (cc ld : F)

variable {F : Type*} (sha256 : F → String) (digest : String → String) (root : String)

/-- The images found below a tree are replaced. -/
def ImageFiles.setTree (files : ImageFiles) (dir : String) (left : List Vmlinux) : ImageFiles :=
  { files with trees := fun d => if d = dir then left else files.trees d }

/-- The kernel that a fresh build of a plan makes. -/
def KernelRun.image (r : KernelRun F) (ss : Stores F) (banner release pkgver : String) : Image F where
  banner := banner
  release := release
  pkgname := r.plan.effPkgname
  pkgver := pkgver
  profiling := r.plan.mode = some .record
  afdo := r.plan.env.bind fun e => (ss e.autofdo).afdo

/-- The machine after a step. -/
def Machine.step (m : Machine F) : FdoStep F → Machine F
  | .plan mode propeller pkgname explicit building dryRun fault =>
    let p := planFdoBuild sha256 digest root m.stores mode propeller pkgname explicit building dryRun
      fault
    { m with
      stores := p.2
      run := if dryRun then none else p.1.toOption.map fun plan => { pkgname, plan } }
  | .build banner release pkgver dir left =>
    match m.run with
    | some r =>
      if r.built.isSome then m else
      let image := r.image m.stores banner release pkgver
      { m with
        files := m.files.setTree dir left
        pkgdest := image :: m.pkgdest
        run := some { r with built := some (image, some dir) } }
    | none => m
  | .reuse i =>
    match m.run, m.pkgdest[i]? with
    | some r, some image =>
      if r.built.isSome ∨ image.pkgname ≠ r.plan.effPkgname then m
      else { m with run := some { r with built := some (image, none) } }
    | _, _ => m
  | .stop dir left => { m with files := m.files.setTree dir left, run := none }
  | .install headers =>
    match m.run.bind fun r => r.built.map fun b => (r, b.1) with
    | some (r, image) =>
      { m with
        installed := fun n => if n = image.pkgname then some image else m.installed n
        files := { m.files with
          modules := fun v => if v = image.release then headers else m.files.modules v }
        run := some { r with installed := true } }
    | none => m
  | .finish known writeOk =>
    match m.run.bind fun r => r.built.map fun b => (r, b) with
    | some (r, image, builtDir) =>
      if r.installed then
        { m with
          stores := finishFdoBuild m.stores r.plan image builtDir
            (if known then some image.pkgver else none) writeOk
          run := none }
      else m
    | none => m
  | .boot pkgname =>
    match m.installed pkgname with
    | some image => { m with running := image }
    | none => m
  | .capture pkgname propeller missing cc ld =>
    match runFdoCapture m.stores m.files m.running pkgname propeller missing with
    | .ok _ =>
      { m with
        stores := convert m.stores ⟨pkgname, propeller⟩ m.running cc ld
        run := m.run.map fun r =>
          if propeller ∧ r.pkgname = pkgname then { r with captured := true } else r }
    | .error _ => m

/-! ## The condition -/

/-- A Propeller capture is taken on the kernel of the round record, and a fresh round 2 is recorded
when none has been taken since its plan. -/
def RoundsApart (m : Machine F) : FdoStep F → Prop
  | .capture pkgname true missing _ _ =>
    (∃ v, runFdoCapture m.stores m.files m.running pkgname true missing = .ok v) →
      (m.stores ⟨pkgname, true⟩).profiled = some m.running
  | .finish _ true => ∀ r, m.run = some r → r.plan.mode = some .record → r.plan.propeller = true →
    (∃ image dir, r.built = some (image, some dir)) → r.captured = false
  | _ => True

/-! ## The invariant -/

/-- What a run of round 2 keeps: the store is cleared, the profile pinned, and the kernel built with
it. -/
structure RoundRun (ss : Stores F) (r : KernelRun F) (k : StoreKey) : Prop where
  pkgname : k.pkgname = r.pkgname
  propeller : r.plan.propeller = true
  cleared : r.captured = false → (ss k).cc = none ∧ (ss k).ld = none
  pinned : r.built = none → ∃ p, (ss k).afdo = some p ∧ r.plan.afdoSha256 = some (sha256 p) ∧
    r.plan.env = some ⟨k, none⟩
  image : ∀ i d, r.built = some (i, some d) →
    i.profiling = true ∧ i.afdo.map sha256 = r.plan.afdoSha256

/-- The pair comes from the kernel of the round record, and this kernel was built with the profile
whose hash is recorded. -/
structure RoundStore (s : Store F) : Prop where
  pair : ∀ c, s.cc = some c ∨ s.ld = some c → s.profiled = some c.image
  round : ∀ r h, s.round = some r → r.afdoSha256 = some h → ∃ image, s.profiled = some image ∧
    image.profiling = true ∧ image.afdo.map sha256 = some h ∧
    ∀ v, r.pkgver = some v → v = image.pkgver

/-- The invariant of the machine. -/
structure Consistent (m : Machine F) : Prop where
  stores : ∀ k, k.propeller = true → RoundStore sha256 (m.stores k)
  run : ∀ r k, m.run = some r → r.plan.mode = some .record → r.plan.roundStore = some k →
    k.propeller = true → RoundRun sha256 m.stores r k

/-! ## Plans -/

/-- A store with its record and with fewer captured files. -/
structure Trimmed (s s' : Store F) : Prop where
  cc : s'.cc = none ∨ s'.cc = s.cc
  ld : s'.ld = none ∨ s'.ld = s.ld
  round : s'.round = s.round
  profiled : s'.profiled = s.profiled

variable {sha256 digest root} {ss : Stores F} {s s' : Store F} {k k' : StoreKey} {r : KernelRun F}
  {m : Machine F}

theorem Trimmed.refl (s : Store F) : Trimmed s s := ⟨.inr rfl, .inr rfl, rfl, rfl⟩

theorem RoundStore.of_trimmed (h : RoundStore sha256 s) (ht : Trimmed s s') :
    RoundStore sha256 s' where
  pair c hc := by
    rw [ht.profiled]
    refine h.pair c (hc.imp (fun hc => ?_) fun hc => ?_)
    · rcases ht.cc with hn | he
      · exact absurd (hn.symm.trans hc) (by simp only [reduceCtorEq, not_false_eq_true])
      · exact he.symm.trans hc
    · rcases ht.ld with hn | he
      · exact absurd (hn.symm.trans hc) (by simp only [reduceCtorEq, not_false_eq_true])
      · exact he.symm.trans hc
  round r hh hr hsha := by
    rw [ht.profiled]
    exact h.round r hh (ht.round ▸ hr) hsha

theorem trimmed_clear (s : Store F) (n : ℕ) : Trimmed s (clearRoundProfiles s true n) := by
  refine ⟨?_, ?_, rfl, rfl⟩
  · by_cases h : 0 < n
    · exact .inl (if_pos h)
    · exact .inr (if_neg h)
  · by_cases h : 1 < n
    · exact .inl (if_pos h)
    · exact .inr (if_neg h)

/-- The Propeller stores after a replacement in one store. -/
theorem trimmed_set (ss : Stores F) (k : StoreKey) {s' : Store F}
    (h : k.propeller = true → Trimmed (ss k) s') (hk : k'.propeller = true) :
    Trimmed (ss k') (ss.set k s' k') := by
  by_cases he : k' = k
  · subst he
    rw [Stores.set_self]
    exact h hk
  · rw [Stores.set_of_ne ss he]
    exact .refl _

theorem trimmed_planPinned (pkgname : String) (dryRun : Bool) (fault : PlanFault F)
    (hk : k.propeller = true) :
    Trimmed (ss k) ((planPinned sha256 root ss pkgname dryRun fault).2 k) := by
  have pinned : ∀ p, Trimmed (ss k) ((if dryRun then ss else
      ss.set ⟨pkgname, true⟩ { ss ⟨pkgname, true⟩ with afdo := p }) k) := by
    intro p
    cases dryRun with
    | true => exact .refl _
    | false => exact trimmed_set ss _ (fun _ => ⟨.inr rfl, .inr rfl, rfl, rfl⟩) hk
  rw [planPinned]
  cases (ss ⟨pkgname, false⟩).afdo with
  | none => exact .refl _
  | some src =>
    cases fault.pin with
    | none => exact pinned (some src)
    | some q => exact pinned q.1

theorem Trimmed.trans {s₁ s₂ s₃ : Store F} (h : Trimmed s₁ s₂) (h' : Trimmed s₂ s₃) :
    Trimmed s₁ s₃ where
  cc := h'.cc.elim .inl fun e => e ▸ h.cc
  ld := h'.ld.elim .inl fun e => e ▸ h.ld
  round := h'.round.trans h.round
  profiled := h'.profiled.trans h.profiled

/-- A record plan keeps the records of the Propeller stores and captures nothing. -/
theorem trimmed_planRecord (propeller : Bool) (pkgname : String) (dryRun : Bool)
    (fault : PlanFault F) (hk : k.propeller = true) :
    Trimmed (ss k) ((planRecord sha256 root ss propeller pkgname dryRun fault).2 k) := by
  have cleared : ∀ n, Trimmed (ss k) (ss.set ⟨pkgname, propeller⟩
      (clearRoundProfiles (ss ⟨pkgname, propeller⟩) propeller n) k) := by
    intro n
    refine trimmed_set ss _ (fun hp => ?_) hk
    obtain rfl : propeller = true := hp
    exact trimmed_clear _ n
  have rest : ∀ ss' : Stores F, Trimmed (ss k) (ss' k) →
      Trimmed (ss k) ((if propeller then planPinned sha256 root ss' pkgname dryRun fault
        else (.ok (recordPlan pkgname false none none), ss')).2 k) := by
    intro ss' h
    cases propeller with
    | true => exact h.trans (trimmed_planPinned pkgname dryRun fault hk)
    | false => exact h
  unfold planRecord
  dsimp only
  cases dryRun with
  | true =>
    cases fault.unlink with
    | none => exact rest _ (.refl _)
    | some q => exact rest _ (.refl _)
  | false =>
    cases fault.unlink with
    | none => exact rest _ (cleared 2)
    | some q => exact cleared q.1

theorem trimmed_plan (mode : Option FdoMode) (propeller : Bool) (pkgname : String)
    (explicit : Bool) (building : Option String) (dryRun : Bool) (fault : PlanFault F)
    (hk : k.propeller = true) :
    Trimmed (ss k) ((planFdoBuild sha256 digest root ss mode propeller pkgname explicit building
      dryRun fault).2 k) := by
  cases mode with
  | none => exact .refl _
  | some mode =>
    cases mode with
    | record => exact trimmed_planRecord propeller pkgname dryRun fault hk
    | use => exact .refl _

/-- A round 2 that is planned has its store cleared and its profile pinned. -/
theorem planRecord_ok {propeller : Bool} {pkgname : String} {fault : PlanFault F} {plan : FdoPlan}
    (h : (planRecord sha256 root ss propeller pkgname false fault).1 = .ok plan)
    (hround : plan.roundStore = some k) (hk : k.propeller = true) :
    RoundRun sha256 (planRecord sha256 root ss propeller pkgname false fault).2
      { pkgname, plan } k := by
  unfold planRecord at h ⊢
  cases hu : fault.unlink with
  | some q => rw [hu] at h; cases h
  | none =>
    rw [hu] at h
    dsimp only at h ⊢
    cases propeller with
    | false =>
      simp only [Bool.false_eq_true, if_false, Except.ok.injEq] at h
      subst h
      obtain rfl : (⟨pkgname, false⟩ : StoreKey) = k := Option.some.inj hround
      exact absurd hk Bool.false_ne_true
    | true =>
      simp only [if_true, Bool.false_eq_true, if_false] at h ⊢
      rw [planPinned] at h ⊢
      cases ha : (ss.set ⟨pkgname, true⟩ (clearRoundProfiles (ss ⟨pkgname, true⟩) true 2)
          ⟨pkgname, false⟩).afdo with
      | none => rw [ha] at h; cases h
      | some src =>
        rw [ha] at h
        cases hp : fault.pin with
        | some q => rw [hp] at h; cases h
        | none =>
          rw [hp] at h
          simp only [Bool.false_eq_true, if_false, Except.ok.injEq] at h ⊢
          subst h
          obtain rfl : (⟨pkgname, true⟩ : StoreKey) = k := Option.some.inj hround
          refine ⟨rfl, rfl, fun _ => ?_, fun _ => ⟨src, ?_, rfl, rfl⟩, fun i d hb => ?_⟩
          · rw [Stores.set_self, Stores.set_self]
            exact ⟨rfl, rfl⟩
          · rw [Stores.set_self]
          · cases hb

theorem planAutofdo_ok {pkgname : String} {explicit : Bool} {plan : FdoPlan}
    (h : planAutofdo sha256 digest root ss pkgname explicit = .ok plan) :
    plan = usePlan sha256 digest ss ⟨pkgname, false⟩ := by
  unfold planAutofdo at h
  dsimp only at h
  cases hreq : requireProfile sha256 root ⟨pkgname, false⟩ (ss ⟨pkgname, false⟩) with
  | error e => rw [hreq] at h; cases h
  | ok info =>
    rw [hreq] at h
    exact (Except.ok.inj h).symm

/-- **A use plan**: for AutoFDO only, or for Propeller with the profiles checked and the versions,
when both are known, equal. -/
theorem planUse_ok {propeller explicit : Bool} {pkgname : String} {building : Option String}
    {plan : FdoPlan} (h : planUse sha256 digest root ss propeller pkgname explicit building = .ok plan) :
    plan = usePlan sha256 digest ss ⟨pkgname, false⟩ ∨
      plan = usePlan sha256 digest ss ⟨pkgname, true⟩ ∧
        ∃ info, requireProfile sha256 root ⟨pkgname, true⟩ (ss ⟨pkgname, true⟩) = .ok info ∧
          ∀ b v, building = some b → info.bind RoundInfo.pkgver = some v → v = b := by
  unfold planUse at h
  dsimp only at h
  by_cases hprop : (!propeller) = true
  · rw [if_pos hprop] at h
    exact .inl (planAutofdo_ok h)
  · rw [if_neg hprop] at h
    cases hreq : requireProfile sha256 root ⟨pkgname, true⟩ (ss ⟨pkgname, true⟩) with
    | error e => rw [hreq] at h; cases h
    | ok info =>
      rw [hreq] at h
      dsimp only at h
      cases building with
      | none =>
        dsimp only at h
        by_cases hexp : explicit = true
        · rw [if_pos hexp] at h
          exact .inr ⟨(Except.ok.inj h).symm, info, rfl, fun b v hb => absurd hb (by
            simp only [reduceCtorEq, not_false_eq_true])⟩
        · rw [if_neg hexp] at h
          exact .inl (planAutofdo_ok h)
      | some b =>
        cases hv : info.bind RoundInfo.pkgver with
        | none =>
          rw [hv] at h
          exact .inr ⟨(Except.ok.inj h).symm, info, rfl, fun b v _ hv' => absurd hv' (by
            simp only [hv, reduceCtorEq, not_false_eq_true])⟩
        | some v =>
          rw [hv] at h
          dsimp only at h
          by_cases hvb : v = b
          · rw [if_pos hvb] at h
            refine .inr ⟨(Except.ok.inj h).symm, info, rfl, fun b' v' hb' hv' => ?_⟩
            rw [← Option.some.inj hb', ← Option.some.inj (hv.symm.trans hv')]
            exact hvb
          · rw [if_neg hvb] at h
            by_cases hexp : explicit = true
            · rw [if_pos hexp] at h
              cases h
            · rw [if_neg hexp] at h
              exact .inl (planAutofdo_ok h)

/-- Only a record request plans a record. -/
theorem planFdoBuild_record {mode : Option FdoMode} {propeller explicit dryRun : Bool}
    {pkgname : String} {building : Option String} {fault : PlanFault F} {plan : FdoPlan}
    (h : (planFdoBuild sha256 digest root ss mode propeller pkgname explicit building dryRun
      fault).1 = .ok plan) (hmode : plan.mode = some .record) : mode = some .record := by
  cases mode with
  | none =>
    obtain rfl := Except.ok.inj h
    exact absurd hmode (by simp only [reduceCtorEq, not_false_eq_true])
  | some mode =>
    cases mode with
    | record => rfl
    | use =>
      have huse : (planUse sha256 digest root ss propeller pkgname explicit building).mapError
          ("[KERNEL] " ++ ·) = .ok plan := h
      cases hplan : planUse sha256 digest root ss propeller pkgname explicit building with
      | error e => rw [hplan] at huse; cases huse
      | ok plan' =>
        rw [hplan] at huse
        obtain rfl := Except.ok.inj huse
        rcases planUse_ok hplan with rfl | ⟨rfl, -⟩ <;>
        exact absurd hmode (by simp only [usePlan, Option.some.injEq, reduceCtorEq,
          not_false_eq_true])

/-! ## Records -/

/-- A write to the record or to the applied fingerprint keeps the other Propeller stores. -/
theorem roundStore_set (h : ∀ k, k.propeller = true → RoundStore sha256 (ss k)) (k : StoreKey)
    (h' : k.propeller = true → RoundStore sha256 s') (hk : k'.propeller = true) :
    RoundStore sha256 (ss.set k s' k') := by
  by_cases he : k' = k
  · subst he
    rw [Stores.set_self]
    exact h' hk
  · rw [Stores.set_of_ne ss he]
    exact h k' hk

theorem nonEmpty_eq_some {o : Option String} {v : String} (h : nonEmpty o = some v) : o = some v :=
  (Option.filter_eq_some_iff.mp h).1

variable {plan : FdoPlan} {image : Image F} {builtDir pkgver : Option String} {writeOk : Bool}

/-- Without a record plan there is no record. -/
theorem finishFdoRecord_of_not
    (h : ∀ k, plan.mode = some .record → plan.roundStore = some k → False) :
    finishFdoRecord ss plan image builtDir pkgver writeOk = ss := by
  unfold finishFdoRecord
  cases hmode : plan.mode with
  | none => rfl
  | some mode =>
    cases mode with
    | use => rfl
    | record =>
      cases hround : plan.roundStore with
      | none => rfl
      | some k => exact (h k hmode hround).elim

/-- The record of a fresh round 2 describes its kernel; that of a reused one repeats the record of
before or has no hash. -/
theorem roundStore_finishFdoRecord (h : ∀ k, k.propeller = true → RoundStore sha256 (ss k))
    (hver : ∀ v, pkgver = some v → v = image.pkgver)
    (hrun : ∀ k, plan.mode = some .record → plan.roundStore = some k → k.propeller = true →
      builtDir.isSome = true → writeOk = true → image.profiling = true ∧
        image.afdo.map sha256 = plan.afdoSha256 ∧ (ss k).cc = none ∧ (ss k).ld = none)
    (hk : k'.propeller = true) :
    RoundStore sha256 (finishFdoRecord ss plan image builtDir pkgver writeOk k') := by
  cases hround : plan.roundStore with
  | none =>
    rw [finishFdoRecord_of_not (fun k _ hk => Option.some_ne_none k (hk.symm.trans hround))]
    exact h k' hk
  | some k =>
    by_cases hmode : plan.mode = some .record
    · simp only [finishFdoRecord, hmode, hround]
      cases writeOk with
      | false => exact h k' hk
      | true =>
        simp only [Bool.not_true, Bool.false_eq_true, if_false]
        by_cases hdir : builtDir.isSome = true
        · rw [if_pos hdir]
          refine roundStore_set h k (fun hp => ?_) hk
          obtain ⟨hprof, hsha, hcc, hld⟩ := hrun k hmode hround hp hdir rfl
          refine ⟨fun c hc => ?_, fun r hh hr hrsha => ⟨image, rfl, hprof, ?_, fun v hv => ?_⟩⟩
          · rcases hc with hc | hc
            · exact absurd (hcc.symm.trans hc) (by simp only [reduceCtorEq, not_false_eq_true])
            · exact absurd (hld.symm.trans hc) (by simp only [reduceCtorEq, not_false_eq_true])
          · obtain rfl := Option.some.inj hr
            exact hsha.trans (nonEmpty_eq_some hrsha)
          · obtain rfl := Option.some.inj hr
            exact hver v (nonEmpty_eq_some hv)
        · rw [if_neg hdir]
          cases hprev : (ss k).round.filter fun prev => prev.pkgver = pkgver with
          | none =>
            refine roundStore_set h k (fun hp => ⟨(h k hp).pair, fun r hh hr hrsha => ?_⟩) hk
            obtain rfl := Option.some.inj hr
            exact (Option.some_ne_none hh hrsha.symm).elim
          | some prev =>
            obtain ⟨hprev, hpv⟩ := Option.filter_eq_some_iff.mp hprev
            refine roundStore_set h k (fun hp => ⟨(h k hp).pair, fun r hh hr hrsha => ?_⟩) hk
            obtain rfl := Option.some.inj hr
            obtain ⟨i, hi, hprof, hsha, hv⟩ := (h k hp).round prev hh hprev
              (nonEmpty_eq_some hrsha)
            refine ⟨i, hi, hprof, hsha, fun v hv' => hv v ?_⟩
            exact (of_decide_eq_true hpv).trans (nonEmpty_eq_some hv')
    · rw [finishFdoRecord_of_not fun _ hmode' _ => hmode hmode']
      exact h k' hk

/-- A use build keeps the round records; any other goes on to the record. -/
theorem finishFdoBuild_cases :
    (∃ k fp, finishFdoBuild ss plan image builtDir pkgver writeOk =
      ss.set k { ss k with applied := fp }) ∨
    finishFdoBuild ss plan image builtDir pkgver writeOk =
      finishFdoRecord ss plan image builtDir pkgver writeOk := by
  unfold finishFdoBuild
  cases plan.mode with
  | none => exact .inr rfl
  | some mode =>
    cases mode with
    | record => exact .inr rfl
    | use =>
      cases plan.profileStore with
      | none => exact .inr rfl
      | some k =>
        cases plan.appliedFingerprint with
        | none => exact .inr rfl
        | some fp =>
          dsimp only
          by_cases hkeep : readApplied (ss k) = some fp ∨ fp = "" ∨ !writeOk
          · rw [if_pos hkeep]
            refine .inl ⟨k, (ss k).applied, funext fun k' => ?_⟩
            by_cases he : k' = k
            · subst he
              rw [Stores.set_self]
            · rw [Stores.set_of_ne ss he]
          · rw [if_neg hkeep]
            exact .inl ⟨k, some fp, rfl⟩

theorem roundStore_finishFdoBuild (h : ∀ k, k.propeller = true → RoundStore sha256 (ss k))
    (hver : ∀ v, pkgver = some v → v = image.pkgver)
    (hrun : ∀ k, plan.mode = some .record → plan.roundStore = some k → k.propeller = true →
      builtDir.isSome = true → writeOk = true → image.profiling = true ∧
        image.afdo.map sha256 = plan.afdoSha256 ∧ (ss k).cc = none ∧ (ss k).ld = none)
    (hk : k'.propeller = true) :
    RoundStore sha256 (finishFdoBuild ss plan image builtDir pkgver writeOk k') := by
  rcases @finishFdoBuild_cases F ss plan image builtDir pkgver writeOk with ⟨k, fp, heq⟩ | heq
  · rw [heq]
    exact roundStore_set h k (fun hp => ⟨(h k hp).pair, (h k hp).round⟩) hk
  · rw [heq]
    exact roundStore_finishFdoRecord h hver hrun hk

/-! ## Captures -/

/-- A capture on the kernel of the record keeps the stores. -/
theorem roundStore_convert (h : ∀ k, k.propeller = true → RoundStore sha256 (ss k)) {cc ld : F}
    (hcap : k.propeller = true → (ss k).profiled = some image) (hk : k'.propeller = true) :
    RoundStore sha256 (convert ss k image cc ld k') := by
  unfold convert
  by_cases hp : k.propeller = true
  · rw [if_pos hp]
    refine roundStore_set h k (fun hp => ⟨fun c hc => ?_, (h k hp).round⟩) hk
    rcases hc with hc | hc <;>
    · obtain rfl := Option.some.inj hc
      exact hcap hp
  · rw [if_neg hp]
    exact roundStore_set h k (fun hp' => absurd hp' hp) hk

/-- A capture of another kernel name, or one that is counted, keeps what a run relies on. -/
theorem roundRun_convert {pkgname : String} {propeller : Bool} {cc ld : F}
    (h : RoundRun sha256 ss r k) (hk : k.propeller = true) :
    RoundRun sha256 (convert ss ⟨pkgname, propeller⟩ image cc ld)
      (if propeller ∧ r.pkgname = pkgname then { r with captured := true } else r) k := by
  by_cases hcount : propeller ∧ r.pkgname = pkgname
  · rw [if_pos hcount]
    refine ⟨h.pkgname, h.propeller, fun hc => absurd hc Bool.noConfusion, fun hb => ?_, h.image⟩
    obtain ⟨p, hp, hrest⟩ := h.pinned hb
    refine ⟨p, ?_, hrest⟩
    rw [convert, if_pos hcount.1]
    by_cases he : k = ⟨pkgname, propeller⟩
    · subst he
      rw [Stores.set_self]
      exact hp
    · rw [Stores.set_of_ne ss he]
      exact hp
  · rw [if_neg hcount]
    have hne : k ≠ ⟨pkgname, propeller⟩ := by
      rintro rfl
      exact hcount ⟨hk, h.pkgname.symm⟩
    have hsame : convert ss ⟨pkgname, propeller⟩ image cc ld k = ss k := by
      rw [convert]
      cases propeller with
      | true => exact Stores.set_of_ne ss hne _
      | false => exact Stores.set_of_ne ss hne _
    exact ⟨h.pkgname, h.propeller, fun hc => hsame ▸ h.cleared hc, fun hb => hsame ▸ h.pinned hb,
      h.image⟩

/-! ## Steps -/

/-- A run goes on: it keeps its plan, and its kernel is the one that it builds or reuses. -/
theorem RoundRun.built (h : RoundRun sha256 ss r k) (b : Image F × Option String)
    (hb : ∀ d, b.2 = some d → b.1.profiling = true ∧ b.1.afdo.map sha256 = r.plan.afdoSha256) :
    RoundRun sha256 ss { r with built := some b } k where
  pkgname := h.pkgname
  propeller := h.propeller
  cleared := h.cleared
  pinned hn := (Option.some_ne_none b hn).elim
  image i d hi := by
    obtain rfl := Option.some.inj hi
    exact hb d rfl

variable (sha256 digest root) in
/-- A step under the condition keeps the invariant. -/
theorem consistent_step (h : Consistent sha256 m) {i : FdoStep F} (hi : RoundsApart m i) :
    Consistent sha256 (m.step sha256 digest root i) := by
  cases i with
  | plan mode propeller pkgname explicit building dryRun fault =>
    refine ⟨fun k hk => (h.stores k hk).of_trimmed
      (trimmed_plan mode propeller pkgname explicit building dryRun fault hk),
      fun r k hr hmode hround hk => ?_⟩
    unfold Machine.step at hr ⊢
    dsimp only at hr ⊢
    cases dryRun with
    | true => exact absurd hr (by simp only [if_true, reduceCtorEq, not_false_eq_true])
    | false =>
      rw [if_neg Bool.false_ne_true] at hr
      obtain ⟨plan, hplan, rfl⟩ := Option.map_eq_some_iff.mp hr
      cases hres : (planFdoBuild sha256 digest root m.stores mode propeller pkgname explicit building
          false fault).1 with
      | error e => rw [hres] at hplan; cases hplan
      | ok plan' =>
        rw [hres] at hplan
        obtain rfl := Option.some.inj hplan
        obtain rfl := planFdoBuild_record hres hmode
        exact planRecord_ok hres hround hk
  | build banner release pkgver dir left =>
    unfold Machine.step
    cases hrun : m.run with
    | none => exact h
    | some r =>
      dsimp only
      by_cases hb : r.built.isSome = true
      · rw [if_pos hb]
        exact h
      · rw [if_neg hb]
        refine ⟨h.stores, fun r' k hr' hmode hround hk => ?_⟩
        obtain rfl := Option.some.inj hr'
        have hold := h.run r k hrun hmode hround hk
        obtain ⟨p, hp, hsha, henv⟩ := hold.pinned (Option.not_isSome_iff_eq_none.mp hb)
        refine hold.built _ fun d _ => ⟨decide_eq_true hmode, ?_⟩
        have hmode' : r.plan.env = some ⟨k, none⟩ := henv
        simp only [KernelRun.image, hmode', Option.bind_some, hp, Option.map_some, hsha]
  | reuse i =>
    unfold Machine.step
    dsimp only
    cases hrun : m.run with
    | none => exact h
    | some r =>
      cases hpkg : m.pkgdest[i]? with
      | none => exact h
      | some image =>
        dsimp only
        by_cases hb : r.built.isSome ∨ image.pkgname ≠ r.plan.effPkgname
        · rw [if_pos hb]
          exact h
        · rw [if_neg hb]
          refine ⟨h.stores, fun r' k hr' hmode hround hk => ?_⟩
          obtain rfl := Option.some.inj hr'
          exact (h.run r k hrun hmode hround hk).built _ fun d hd =>
            (Option.some_ne_none d hd.symm).elim
  | stop dir left =>
    exact ⟨h.stores, fun r k hr => (Option.some_ne_none r hr.symm).elim⟩
  | install headers =>
    unfold Machine.step
    dsimp only
    cases hrun : m.run with
    | none => exact h
    | some r =>
      cases hb : r.built with
      | none => simpa only [Option.bind_some, hb, Option.map_none] using h
      | some b =>
        simp only [Option.bind_some, hb, Option.map_some]
        refine ⟨h.stores, fun r' k hr' hmode hround hk => ?_⟩
        obtain rfl := Option.some.inj hr'
        have hold := h.run r k hrun hmode hround hk
        exact ⟨hold.pkgname, hold.propeller, hold.cleared, fun hn => hold.pinned (hb.trans hn),
          fun i d hi => hold.image i d (hb.trans hi)⟩
  | finish known writeOk =>
    unfold Machine.step
    dsimp only
    cases hrun : m.run with
    | none => exact h
    | some r =>
      cases hb : r.built with
      | none => simpa only [Option.bind_some, hb, Option.map_none] using h
      | some b =>
        obtain ⟨image, builtDir⟩ := b
        simp only [Option.bind_some, hb, Option.map_some]
        by_cases hinst : r.installed = true
        · rw [if_pos hinst]
          refine ⟨fun k hk => roundStore_finishFdoBuild h.stores (fun v hv => ?_)
            (fun k hmode hround hk hdir hok => ?_) hk,
            fun r' k hr' => (Option.some_ne_none r' hr'.symm).elim⟩
          · cases known with
            | true => exact (Option.some.inj hv).symm
            | false => exact (Option.some_ne_none v hv.symm).elim
          · obtain ⟨d, rfl⟩ := Option.isSome_iff_exists.mp hdir
            subst hok
            have hold := h.run r k hrun hmode hround hk
            obtain ⟨hprof, hsha⟩ := hold.image image d hb
            obtain ⟨hcc, hld⟩ := hold.cleared (hi r hrun hmode hold.propeller ⟨image, d, hb⟩)
            exact ⟨hprof, hsha, hcc, hld⟩
        · rw [if_neg hinst]
          exact h
  | boot pkgname =>
    unfold Machine.step
    dsimp only
    cases m.installed pkgname with
    | none => exact h
    | some image => exact ⟨h.stores, h.run⟩
  | capture pkgname propeller missing cc ld =>
    unfold Machine.step
    dsimp only
    cases hcap : runFdoCapture m.stores m.files m.running pkgname propeller missing with
    | error e => exact h
    | ok v =>
      refine ⟨fun k hk => roundStore_convert h.stores (fun hp => ?_) hk,
        fun r k hr hmode hround hk => ?_⟩
      · obtain rfl : propeller = true := hp
        exact hi ⟨v, hcap⟩
      · obtain ⟨r₀, hr₀, rfl⟩ := Option.map_eq_some_iff.mp hr
        have hplan : (if propeller ∧ r₀.pkgname = pkgname then { r₀ with captured := true }
            else r₀).plan = r₀.plan := by
          by_cases hc : propeller ∧ r₀.pkgname = pkgname
          · rw [if_pos hc]
          · rw [if_neg hc]
        rw [hplan] at hmode hround
        exact roundRun_convert (h.run r₀ k hr₀ hmode hround hk) hk

/-! ## Runs -/

/-- A machine before any round: its Propeller stores are empty and no run is under way. -/
def Fresh (m : Machine F) : Prop := (∀ k, k.propeller = true → m.stores k = {}) ∧ m.run = none

theorem Fresh.consistent (h : Fresh m) : Consistent sha256 m where
  stores k hk := by
    rw [h.1 k hk]
    refine ⟨fun c hc => ?_, fun r hh hr => (Option.some_ne_none r hr.symm).elim⟩
    exact (hc.elim (Option.some_ne_none c ·.symm) (Option.some_ne_none c ·.symm)).elim
  run r k hr := (Option.some_ne_none r (hr.symm.trans h.2)).elim

/-- **Propeller rounds stay consistent.** In a run from a machine before any round in which every
Propeller capture is taken on the kernel of the round record, and none between the plan of a fresh
round 2 and its record, a Propeller plan uses a pair captured from a profiling kernel that was built
with the pinned profile, and if the building and the recorded version are known, they are the version
of this kernel. -/
theorem propeller_plan_consistent (hsha : Function.Injective sha256) (hm : Fresh m)
    {is : List (FdoStep F)} (his : Run.Each (Machine.step sha256 digest root) RoundsApart m is)
    {propeller explicit : Bool} {pkgname : String} {building : Option String} {plan : FdoPlan}
    (hplan : planUse sha256 digest root (Run.run (Machine.step sha256 digest root) m is).stores
      propeller pkgname explicit building = .ok plan) (hprop : plan.propeller = true) :
    ∃ s c l image p, s = (Run.run (Machine.step sha256 digest root) m is).stores ⟨pkgname, true⟩ ∧
      s.cc = some c ∧ s.ld = some l ∧ c.image = image ∧ l.image = image ∧
      image.profiling = true ∧ s.afdo = some p ∧ image.afdo = some p ∧
      ∀ b v, building = some b → s.round.bind RoundInfo.pkgver = some v →
        b = image.pkgver ∧ v = image.pkgver := by
  have hinv : Consistent sha256 (Run.run (Machine.step sha256 digest root) m is) :=
    his.invariant hm.consistent fun m i _ h hi => consistent_step sha256 digest root h hi
  generalize Run.run (Machine.step sha256 digest root) m is = m' at hplan hinv
  rcases planUse_ok hplan with rfl | ⟨rfl, info, hreq, hver⟩
  · exact absurd hprop Bool.false_ne_true
  · obtain ⟨rfl, r, p, c, l, hr, hp, hrsha, hc, hl⟩ := requireProfile_ok sha256 root rfl hreq
    have hstore := hinv.stores ⟨pkgname, true⟩ rfl
    obtain ⟨image, hprofiled, hprof, hafdo, hv⟩ := hstore.round r (sha256 p) hr hrsha
    have hci : c.image = image :=
      Option.some.inj ((hstore.pair c (.inl hc)).symm.trans hprofiled)
    have hli : l.image = image :=
      Option.some.inj ((hstore.pair l (.inr hl)).symm.trans hprofiled)
    refine ⟨_, c, l, image, p, rfl, hc, hl, hci, hli, hprof, hp, ?_, fun b v hb hbv => ?_⟩
    · obtain ⟨p', hp', heq⟩ := Option.map_eq_some_iff.mp hafdo
      rw [hp', hsha heq]
    · rw [hr, Option.bind_some] at hbv
      have hvb : v = b := hver b v hb (by rw [hr, Option.bind_some, hbv])
      exact ⟨hvb ▸ hv v hbv, hv v hbv⟩

/-! ## Both sides of the condition -/

/-- A machine with a stock kernel. -/
def stockMachine : Machine String where
  stores _ := {}
  files := ⟨fun _ => [], fun _ => none, none⟩
  pkgdest := []
  installed _ := none
  running := ⟨"Linux version 6.9 #0", "6.9-arch", "linux", "6.9-1", false, none⟩
  run := none

/-- A record round to its end, and the reboot into its kernel; the banner tells the builds apart. -/
def recordRound (propeller : Bool) (banner : String) : List (FdoStep String) :=
  [.plan (some .record) propeller "linux" true none false {},
    .build banner "6.9-sysforge" "6.9-1" "/builds/linux-sysforge-profiling"
      [⟨"/builds/linux-sysforge-profiling/src/linux/vmlinux", banner ++ " .debug_info"⟩],
    .install none, .finish true true, .boot "linux-sysforge-profiling"]

/-- Round 1 with its capture, then round 2 up to the reboot. -/
def twoRounds : List (FdoStep String) :=
  recordRound false "#1" ++ .capture "linux" false [] "afdo" "" :: recordRound true "#2"

/-- The stores after some steps. -/
def storesAfter (is : List (FdoStep String)) : Stores String :=
  (Run.run (Machine.step id id "/profiles") stockMachine is).stores

/-- Round 1 is recorded again after round 2, and the Propeller capture is allowed on its kernel, which
was built without the pinned profile: the Propeller plan takes the pair. -/
theorem propeller_plan_stale :
    let is := twoRounds ++ recordRound false "#3" ++ [.capture "linux" true [] "cc" "ld"]
    ((planUse id id "/profiles" (storesAfter is) true "linux" true (some "6.9-1")).toOption.map
      FdoPlan.propeller = some true ∧
    (storesAfter is ⟨"linux", true⟩).cc.map (fun c => c.image.afdo) = some none ∧
    (storesAfter is ⟨"linux", true⟩).afdo = some "afdo") := by
  decide

theorem roundsApart_finish {known writeOk : Bool} (h : m.run.map KernelRun.captured = some false) :
    RoundsApart m (.finish known writeOk) := by
  cases writeOk with
  | false => trivial
  | true =>
    intro r hr _ _ _
    rw [hr] at h
    exact Option.some.inj h

theorem propeller_plan_consistent_linux :
    ∃ s c l image p,
      s = storesAfter (twoRounds ++ [.capture "linux" true [] "cc" "ld"]) ⟨"linux", true⟩ ∧
      s.cc = some c ∧ s.ld = some l ∧ c.image = image ∧ l.image = image ∧
      image.profiling = true ∧ s.afdo = some p ∧ image.afdo = some p ∧
      ∀ b v, some "6.9-1" = some b → s.round.bind RoundInfo.pkgver = some v →
        b = image.pkgver ∧ v = image.pkgver := by
  have hplan : ∃ plan, planUse id id "/profiles"
      (storesAfter (twoRounds ++ [.capture "linux" true [] "cc" "ld"])) true "linux" true
        (some "6.9-1") = .ok plan ∧ plan.propeller = true := by
    have h : (planUse id id "/profiles"
        (storesAfter (twoRounds ++ [.capture "linux" true [] "cc" "ld"])) true "linux" true
        (some "6.9-1")).toOption.map FdoPlan.propeller = some true := by decide
    obtain ⟨plan, hplan, hprop⟩ := Option.map_eq_some_iff.mp h
    refine ⟨plan, ?_, hprop⟩
    cases hres : planUse id id "/profiles"
        (storesAfter (twoRounds ++ [.capture "linux" true [] "cc" "ld"])) true "linux" true
        (some "6.9-1") with
    | error e => rw [hres] at hplan; cases hplan
    | ok plan' => rw [hres] at hplan; exact congrArg _ (Option.some.inj hplan)
  obtain ⟨plan, hplan, hprop⟩ := hplan
  refine @propeller_plan_consistent String id id "/profiles" stockMachine Function.injective_id
    ⟨fun _ _ => rfl, rfl⟩ _ ?_ true true "linux" _ plan hplan hprop
  refine ⟨trivial, trivial, trivial, roundsApart_finish (by decide), trivial, trivial, trivial,
    trivial, trivial, roundsApart_finish (by decide), trivial, fun _ => ?_, trivial⟩
  decide

end Sysforge.Kernel
