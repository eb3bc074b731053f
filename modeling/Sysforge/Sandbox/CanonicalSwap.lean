import Sysforge.Foundations.Run

/-!
# The swap that presents a sidecar as the PKGBUILD

`as_canonical_pkgbuild` parks the upstream PKGBUILD under the stash name, moves the patched sidecar
to its place while the build runs, and moves both back. A rename happens or fails without effect, a
build changes or deletes the canonical file, and a crash leaves the directory where it is.

The upstream PKGBUILD is what the stash holds, else what the canonical name holds. It is kept at
every moment (`upstream_moments`). A block that ends has put everything back, except where the build
has deleted the canonical file: the first rename back then fails, and the second is not tried
(`restored_iff`).
-/

namespace Sysforge.Sandbox.CanonicalSwap

/-! ## Directories -/

/-- A package directory: what each name holds. -/
abbrev Directory (C : Type*) := String → Option C

/-- `REQUIRED_PKGBUILD_NAME`. -/
def requiredName : String := "PKGBUILD"

/-- `UPSTREAM_STASH_NAME`. -/
def stashName : String := ".sysforge-upstream-PKGBUILD"

theorem stashName_ne : stashName ≠ requiredName := by decide

variable {C : Type*}

/-- A name is given a content, or none. -/
def Directory.put (d : Directory C) (n : String) (c : Option C) : Directory C :=
  fun m => if m = n then c else d m

/-- `src.rename(dst)`; nothing when the system does not allow it or there is no such file. -/
def Directory.rename (d : Directory C) (src dst : String) (allowed : Bool) : Option (Directory C) :=
  if allowed && (d src).isSome then some ((d.put src none).put dst (d src)) else none

@[simp] theorem Directory.put_self (d : Directory C) (n : String) (c : Option C) :
    d.put n c n = c := if_pos rfl

theorem Directory.put_of_ne (d : Directory C) {n m : String} (h : m ≠ n) (c : Option C) :
    d.put n c m = d m := if_neg h

/-- What a rename does. -/
structure Renamed (d d' : Directory C) (src dst : String) : Prop where
  there : (d src).isSome
  moved : d' dst = d src
  gone : src ≠ dst → d' src = none
  other : ∀ n, n ≠ src → n ≠ dst → d' n = d n

theorem renamed {d d' : Directory C} {src dst : String} {allowed : Bool}
    (h : d.rename src dst allowed = some d') : Renamed d d' src dst := by
  rw [Directory.rename] at h
  split_ifs at h with hcond
  obtain rfl := Option.some.inj h
  refine ⟨(Bool.and_eq_true_iff.mp hcond).2, Directory.put_self .., fun hne => ?_,
    fun n hs hd => ?_⟩
  · rw [Directory.put_of_ne _ hne, Directory.put_self]
  · rw [Directory.put_of_ne _ hd, Directory.put_of_ne _ hs]

theorem rename_isSome {d : Directory C} {src : String} (h : (d src).isSome) (dst : String) :
    ∃ d', d.rename src dst true = some d' := by
  rw [Directory.rename, h]
  exact ⟨_, rfl⟩

theorem rename_eq_none {d : Directory C} {src dst : String} {allowed : Bool} (h : d src = none) :
    d.rename src dst allowed = none := by
  rw [Directory.rename, h, Option.isSome_none, Bool.and_false]
  rfl

/-! ## The block -/

/-- The directories passed through, the one before the last first, and where they led. -/
structure Trail (C : Type*) where
  past : List (Directory C)
  now : Directory C

/-- The next directory. -/
def Trail.to (t : Trail C) (d : Directory C) : Trail C := ⟨t.now :: t.past, d⟩

/-- Every directory of a trail. -/
def Trail.moments (t : Trail C) : List (Directory C) := t.now :: t.past

/-- `src.rename(dst)` on the way. -/
def Trail.rename (t : Trail C) (src dst : String) (allowed : Bool) : Option (Trail C) :=
  (t.now.rename src dst allowed).map t.to

/-- The canonical file takes one content after another. -/
def Trail.build (t : Trail C) (contents : List (Option C)) : Trail C :=
  contents.foldl (fun t c => t.to (t.now.put requiredName c)) t

/-- A block over a file: which renames the system allows, and what the canonical file holds, one
content after another, while the build runs. -/
structure Block (C : Type*) where
  /-- the name of `pkgbuild_path` -/
  sidecar : String
  stashes : Bool
  swaps : Bool
  undoes : Bool
  returns : Bool
  restores : Bool
  build : List (Option C)

/-- How a block ends. -/
inductive Ending
  /-- `SandboxUnavailable` -/
  | refused (message : String)
  /-- an `OSError` before the block is entered -/
  | failed
  | exited
  deriving DecidableEq

/-- The text of the refusal to swap over a stash. -/
def stashRefusal (directory : String) : String :=
  let stash := directory ++ "/" ++ stashName
  "refusing to sandbox: " ++ stash ++ " is left over from an interrupted build, and swapping " ++
    "over it would lose the upstream PKGBUILD; restore it with: mv " ++ stash ++ " " ++
    directory ++ "/" ++ requiredName

/-- The first rename: the upstream PKGBUILD is parked, when there is one. -/
def park (b : Block C) (t : Trail C) : Option (Bool × Trail C) :=
  if (t.now requiredName).isSome then
    (t.rename requiredName stashName b.stashes).map fun t => (true, t)
  else some (false, t)

/-- The checkout is not left half-swapped when the second rename fails. -/
def undo (b : Block C) (stashed : Bool) (t : Trail C) : Trail C :=
  if stashed then (t.rename stashName requiredName b.undoes).getD t else t

/-- The `finally`, with its errors suppressed. -/
def leave (b : Block C) (stashed : Bool) (t : Trail C) : Trail C :=
  match t.rename requiredName b.sidecar b.returns with
  | none => t
  | some t => if stashed then (t.rename stashName requiredName b.restores).getD t else t

/-- `as_canonical_pkgbuild` around a build. -/
def asCanonicalPkgbuild (directory : String) (d : Directory C) (b : Block C) : Ending × Trail C :=
  if b.sidecar = requiredName then (.exited, Trail.build ⟨[], d⟩ b.build)
  else if (d stashName).isSome then (.refused (stashRefusal directory), ⟨[], d⟩)
  else match park b ⟨[], d⟩ with
    | none => (.failed, ⟨[], d⟩)
    | some (stashed, t) =>
      match t.rename b.sidecar requiredName b.swaps with
      | none => (.failed, undo b stashed t)
      | some t => (.exited, leave b stashed (t.build b.build))

/-- `preflight` for an enabled policy: the refusal, if there is one. -/
def preflight (makechrootpkg : Bool) (chrootDir : Option String) (rootThere : Bool)
    (directory : String) (d : Directory C) : Option String :=
  if !makechrootpkg then
    some ("[security] sandbox_builds is on but makechrootpkg is not installed; " ++
      "install it with: pacman -S devtools")
  else if chrootDir.isNone || !rootThere then
    let shown := chrootDir.getD "<unset>"
    some ("[security] sandbox_builds is on but no clean chroot exists at " ++ shown ++
      "/root; create it with: mkarchroot " ++ shown ++ "/root base-devel " ++
      "(or point [security] sandbox_chroot_dir at an existing one)")
  else if (d stashName).isSome then some (stashRefusal directory)
  else none

/-! ## Blocks one after another -/

/-- A block, and where a crash ends it if one does. -/
abbrev Step (C : Type*) := Block C × Option ℕ

/-- The directory after a block or its crash. -/
def after (directory : String) (d : Directory C) (s : Step C) : Directory C :=
  let t := (asCanonicalPkgbuild directory d s.1).2
  match s.2 with
  | none => t.now
  | some n => t.moments.getD n t.now

/-- The upstream PKGBUILD: what the stash holds, else what the canonical name holds. -/
def upstream (d : Directory C) : Option C := (d stashName).or (d requiredName)

/-- What the canonical file holds when the build is over. -/
def finalContent (d : Directory C) (b : Block C) : Option C := b.build.getLast?.getD (d b.sidecar)

/-- Everything is back in its place. -/
structure Restored (d : Directory C) (b : Block C) (d' : Directory C) : Prop where
  canonical : d' requiredName = d requiredName
  stash : d' stashName = none
  sidecar : d' b.sidecar = finalContent d b

/-- The block ends without a crash, and its renames back are allowed. -/
def Exits (directory : String) (d : Directory C) (b : Block C) : Prop :=
  (asCanonicalPkgbuild directory d b).1 = .exited ∧ b.returns = true ∧ b.restores = true

/-- The names keep apart: the block is not over the stash, and a build of the upstream PKGBUILD
itself leaves it as it is. -/
def Apart (d : Directory C) (b : Block C) : Prop :=
  b.sidecar ≠ stashName ∧
    (b.sidecar = requiredName → d stashName = none ∧ ∀ c ∈ b.build, c = d requiredName)

/-- The build has not deleted the canonical file from over a parked upstream PKGBUILD. -/
def Leaves (d : Directory C) (b : Block C) : Prop :=
  d requiredName = none ∨ finalContent d b ≠ none

variable {directory : String} {d : Directory C} {b : Block C} {t : Trail C} {stashed : Bool} {u : C}

/-! ## Each stage of a block -/

theorem trail_rename {t' : Trail C} {src dst : String} {allowed : Bool}
    (h : t.rename src dst allowed = some t') : Renamed t.now t'.now src dst ∧ t' = t.to t'.now := by
  obtain ⟨d', hd, rfl⟩ := Option.map_eq_some_iff.mp h
  exact ⟨renamed hd, rfl⟩

theorem build_cons (t : Trail C) (c : Option C) (cs : List (Option C)) :
    t.build (c :: cs) = (t.to (t.now.put requiredName c)).build cs := rfl

/-- A build changes the canonical file only, and leaves its last content. -/
theorem build_now (t : Trail C) (cs : List (Option C)) :
    (t.build cs).now requiredName = cs.getLast?.getD (t.now requiredName) ∧
      ∀ n, n ≠ requiredName → (t.build cs).now n = t.now n := by
  induction cs generalizing t with
  | nil => exact ⟨rfl, fun n _ => rfl⟩
  | cons c cs ih =>
    obtain ⟨h₁, h₂⟩ := ih (t.to (t.now.put requiredName c))
    rw [build_cons]
    refine ⟨h₁.trans ?_, fun n hn => (h₂ n hn).trans (Directory.put_of_ne _ hn c)⟩
    have hput : (t.to (t.now.put requiredName c)).now requiredName = c :=
      Directory.put_self t.now requiredName c
    rw [List.getLast?_cons, Option.getD_some, hput]

/-- The upstream PKGBUILD is there at every moment of a trail. -/
def Keeps (u : C) (t : Trail C) : Prop := ∀ m ∈ t.moments, upstream m = some u

theorem Keeps.to (h : Keeps u t) {d : Directory C} (hd : upstream d = some u) :
    Keeps u (t.to d) := by
  intro m hm
  obtain rfl | hm := List.mem_cons.mp hm
  · exact hd
  · exact h m hm

theorem upstream_of_stash {d : Directory C} (h : d stashName = some u) : upstream d = some u := by
  rw [upstream, h, Option.some_or]

theorem upstream_of_none {d : Directory C} (h : d stashName = none) :
    upstream d = d requiredName := by
  rw [upstream, h, Option.none_or]

/-- A build over a parked upstream PKGBUILD. -/
theorem Keeps.build (h : Keeps u t) (hs : t.now stashName = some u) (cs : List (Option C)) :
    Keeps u (t.build cs) := by
  induction cs generalizing t with
  | nil => exact h
  | cons c cs ih =>
    have hput : (t.now.put requiredName c) stashName = some u :=
      (Directory.put_of_ne _ stashName_ne c).trans hs
    rw [build_cons]
    exact ih (h.to (upstream_of_stash hput)) hput

/-- A rename between other names than the stash, over a parked upstream PKGBUILD. -/
theorem Keeps.rename {t' : Trail C} {src dst : String} {allowed : Bool} (h : Keeps u t)
    (hs : t.now stashName = some u) (hsrc : stashName ≠ src) (hdst : stashName ≠ dst)
    (hr : t.rename src dst allowed = some t') : Keeps u t' ∧ t'.now stashName = some u := by
  obtain ⟨hren, ht⟩ := trail_rename hr
  have hs' : t'.now stashName = some u := (hren.other _ hsrc hdst).trans hs
  exact ⟨ht ▸ h.to (upstream_of_stash hs'), hs'⟩

/-- The stash moves back to its place. -/
theorem Keeps.restore {t' : Trail C} {allowed : Bool} (h : Keeps u t)
    (hs : t.now stashName = some u) (hr : t.rename stashName requiredName allowed = some t') :
    Keeps u t' := by
  obtain ⟨hren, ht⟩ := trail_rename hr
  have hback : upstream t'.now = some u :=
    (upstream_of_none (hren.gone stashName_ne)).trans (hren.moved.trans hs)
  exact ht ▸ h.to hback

theorem Keeps.restoreIf {allowed : Bool} (h : Keeps u t) (hs : t.now stashName = some u) :
    Keeps u (if stashed then (t.rename stashName requiredName allowed).getD t else t) := by
  split_ifs
  · cases hr : t.rename stashName requiredName allowed with
    | none => exact h
    | some t' => exact h.restore hs hr
  · exact h

theorem Keeps.leave (h : Keeps u t) (hs : t.now stashName = some u) (hne : b.sidecar ≠ stashName) :
    Keeps u (leave b stashed t) := by
  rw [CanonicalSwap.leave]
  split
  next => exact h
  next t' hr =>
    obtain ⟨h', hs'⟩ := h.rename hs stashName_ne hne.symm hr
    exact h'.restoreIf hs'

/-- What the first rename leaves. -/
structure Parked (d : Directory C) (stashed : Bool) (t : Trail C) : Prop where
  stashed : stashed = (d requiredName).isSome
  stash : t.now stashName = d requiredName
  canonical : t.now requiredName = none
  other : ∀ n, n ≠ stashName → n ≠ requiredName → t.now n = d n
  moments : ∀ m ∈ t.moments, m = d ∨ m = t.now

theorem parked_park (hs : d stashName = none) (h : park b ⟨[], d⟩ = some (stashed, t)) :
    Parked d stashed t := by
  rw [park] at h
  split_ifs at h with hc
  · obtain ⟨t', hr, he⟩ := Option.map_eq_some_iff.mp h
    obtain ⟨rfl, rfl⟩ := Prod.mk.inj he
    obtain ⟨hren, ht⟩ := trail_rename hr
    refine ⟨hc.symm, hren.moved, hren.gone stashName_ne.symm, fun n h₁ h₂ => hren.other n h₂ h₁,
      fun m hm => ?_⟩
    rw [ht] at hm
    obtain rfl | hm := List.mem_cons.mp hm
    · exact .inr rfl
    · exact .inl (List.mem_singleton.mp hm)
  · obtain ⟨rfl, rfl⟩ := Prod.mk.inj (Option.some.inj h)
    have hnone : d requiredName = none := Option.not_isSome_iff_eq_none.mp hc
    exact ⟨by rw [hnone]; rfl, hs.trans hnone.symm, hnone, fun n _ _ => rfl,
      fun m hm => .inl (List.mem_singleton.mp hm)⟩

/-! ## The upstream PKGBUILD is kept -/

/-- A build of the upstream PKGBUILD itself, which leaves it as it is. -/
theorem keeps_build_of_same (h : Keeps u t) (hs : t.now stashName = none) {cs : List (Option C)}
    (hcs : ∀ c ∈ cs, c = some u) : Keeps u (t.build cs) := by
  induction cs generalizing t with
  | nil => exact h
  | cons c cs ih =>
    have hput : (t.now.put requiredName c) stashName = none :=
      (Directory.put_of_ne _ stashName_ne c).trans hs
    have hup : upstream (t.now.put requiredName c) = some u :=
      (upstream_of_none hput).trans
        ((Directory.put_self ..).trans (hcs c List.mem_cons_self))
    rw [build_cons]
    exact ih (h.to hup) hput fun c hc => hcs c (List.mem_cons_of_mem _ hc)

/-- **The upstream PKGBUILD** is under the stash name, else under its own, at every moment of a
block. -/
theorem upstream_moments (hb : Apart d b) (hu : upstream d = some u) :
    Keeps u (asCanonicalPkgbuild directory d b).2 := by
  have hstart : Keeps u ⟨[], d⟩ := fun m hm => List.mem_singleton.mp hm ▸ hu
  rw [asCanonicalPkgbuild]
  split_ifs with hname hstash
  · obtain ⟨hs, hcs⟩ := hb.2 hname
    exact keeps_build_of_same hstart hs fun c hc =>
      (hcs c hc).trans ((upstream_of_none hs).symm.trans hu)
  · exact hstart
  · have hs : d stashName = none := Option.not_isSome_iff_eq_none.mp hstash
    split
    next => exact hstart
    next stashed t hpark =>
      have hp := parked_park hs hpark
      have hst : t.now stashName = some u := hp.stash.trans ((upstream_of_none hs).symm.trans hu)
      have hk : Keeps u t := fun m hm => by
        obtain rfl | rfl := hp.moments m hm
        · exact hu
        · exact upstream_of_stash hst
      split
      next => exact hk.restoreIf hst
      next t' hr =>
        obtain ⟨hk', hst'⟩ := hk.rename hst hb.1.symm stashName_ne hr
        have hst'' : (t'.build b.build).now stashName = some u :=
          ((build_now t' b.build).2 _ stashName_ne).trans hst'
        exact (hk'.build hst' b.build).leave hst'' hb.1

/-! ## A block that ends -/

/-- The directory when the build is over. -/
structure Built (d : Directory C) (b : Block C) (t : Trail C) : Prop where
  canonical : t.now requiredName = finalContent d b
  stash : t.now stashName = d requiredName
  sidecar : t.now b.sidecar = none

theorem built_of_swapped {t' : Trail C} (hname : b.sidecar ≠ requiredName)
    (hne : b.sidecar ≠ stashName) (hp : Parked d stashed t)
    (hr : t.rename b.sidecar requiredName b.swaps = some t') : Built d b (t'.build b.build) := by
  obtain ⟨hren, -⟩ := trail_rename hr
  obtain ⟨hcan, hother⟩ := build_now t' b.build
  refine ⟨?_, ?_, ?_⟩
  · rw [hcan, hren.moved, hp.other _ hne hname]
    rfl
  · exact (hother _ stashName_ne).trans ((hren.other _ hne.symm stashName_ne).trans hp.stash)
  · exact (hother _ hname).trans (hren.gone hname)

/-- The way out puts everything back, unless there is nothing to put back in the sidecar's place. -/
theorem restored_leave (hname : b.sidecar ≠ requiredName) (hne : b.sidecar ≠ stashName)
    (hb : Built d b t) (hret : b.returns = true) (hres : b.restores = true) :
    Restored d b (leave b (d requiredName).isSome t).now ↔ Leaves d b := by
  rw [leave, hret, hres]
  cases hfinal : finalContent d b with
  | none =>
    rw [Trail.rename, rename_eq_none (hb.canonical.trans hfinal)]
    constructor
    · exact fun h => .inl (hb.stash.symm.trans h.stash)
    · rintro (h | h)
      · exact ⟨(hb.canonical.trans hfinal).trans h.symm, hb.stash.trans h,
          hb.sidecar.trans hfinal.symm⟩
      · exact absurd hfinal h
  | some c =>
    have hcan : t.now requiredName = some c := hb.canonical.trans hfinal
    obtain ⟨d₁, hd₁⟩ := rename_isSome (hcan ▸ rfl : (t.now requiredName).isSome) b.sidecar
    have hren := renamed hd₁
    have hside : d₁ b.sidecar = finalContent d b := (hren.moved.trans hcan).trans hfinal.symm
    have hst : d₁ stashName = d requiredName :=
      (hren.other _ stashName_ne hne.symm).trans hb.stash
    have hgone : d₁ requiredName = none := hren.gone hname.symm
    refine iff_of_true ?_ (.inr (by rw [hfinal]; exact Option.some_ne_none c))
    rw [Trail.rename, hd₁, Option.map_some]
    dsimp only
    split_ifs with hup
    · obtain ⟨d₂, hd₂⟩ := rename_isSome (hst ▸ hup : (d₁ stashName).isSome) requiredName
      have hren₂ := renamed hd₂
      rw [Trail.rename, show (t.to d₁).now = d₁ from rfl, hd₂, Option.map_some, Option.getD_some]
      exact ⟨hren₂.moved.trans hst, hren₂.gone stashName_ne,
        (hren₂.other _ hne hname).trans hside⟩
    · have hnone : d requiredName = none := Option.not_isSome_iff_eq_none.mp hup
      exact ⟨hgone.trans hnone.symm, hst.trans hnone, hside⟩

/-- **A block that ends** has put everything back, if and only if the build has not deleted the
canonical file from over a parked upstream PKGBUILD. -/
theorem restored_iff (hb : Apart d b) (h : Exits directory d b) :
    Restored d b (asCanonicalPkgbuild directory d b).2.now ↔ Leaves d b := by
  obtain ⟨hend, hret, hres⟩ := h
  rw [asCanonicalPkgbuild] at hend ⊢
  by_cases hname : b.sidecar = requiredName
  · obtain ⟨hs, hcs⟩ := hb.2 hname
    obtain ⟨hcan, hother⟩ := build_now ⟨[], d⟩ b.build
    have hfinal : finalContent d b = d requiredName := by
      rw [finalContent, hname]
      cases hl : b.build.getLast? with
      | none => rfl
      | some c => exact hcs c (List.mem_of_getLast? hl)
    have hcan' : (Trail.build ⟨[], d⟩ b.build).now requiredName = d requiredName := by
      rw [hcan, ← hfinal, finalContent, hname]
    rw [if_pos hname]
    refine iff_of_true ⟨hcan', (hother _ stashName_ne).trans hs, ?_⟩ ?_
    · rw [hname, hcan', hfinal]
    · rw [Leaves, hfinal]
      exact Decidable.em _
  · rw [if_neg hname] at hend ⊢
    by_cases hstash : (d stashName).isSome
    · rw [if_pos hstash] at hend
      cases hend
    · rw [if_neg hstash] at hend ⊢
      have hs : d stashName = none := Option.not_isSome_iff_eq_none.mp hstash
      cases hpark : park b ⟨[], d⟩ with
      | none =>
        rw [hpark] at hend
        cases hend
      | some p =>
        obtain ⟨stashed, t⟩ := p
        have hp := parked_park hs hpark
        rw [hpark] at hend
        dsimp only at hend ⊢
        cases hr : t.rename b.sidecar requiredName b.swaps with
        | none =>
          rw [hr] at hend
          cases hend
        | some t' =>
          dsimp only
          rw [hp.stashed]
          exact restored_leave hname hb.1 (built_of_swapped hname hb.1 hp hr) hret hres

/-- A preflight that passes leaves the block no stash to refuse. -/
theorem not_refused_of_preflight {makechrootpkg rootThere : Bool} {chrootDir : Option String}
    (h : preflight makechrootpkg chrootDir rootThere directory d = none) (message : String) :
    (asCanonicalPkgbuild directory d b).1 ≠ .refused message := by
  have hstash : ¬ (d stashName).isSome := fun hs => by
    rw [preflight] at h
    split_ifs at h
  rw [asCanonicalPkgbuild, if_neg hstash]
  split_ifs
  · exact Ending.noConfusion
  · split
    · exact Ending.noConfusion
    · split <;> exact Ending.noConfusion

/-! ## A run of blocks -/

/-- A step whose block keeps its names apart, and whose build leaves the canonical file. -/
def Sound (d : Directory C) (s : Step C) : Prop := Apart d s.1 ∧ Leaves d s.1

theorem after_mem (directory : String) (d : Directory C) (s : Step C) :
    after directory d s ∈ (asCanonicalPkgbuild directory d s.1).2.moments := by
  rw [after]
  cases s.2 with
  | none => exact List.mem_cons_self
  | some n =>
    dsimp only
    rw [List.getD_eq_getElem?_getD]
    cases h : (asCanonicalPkgbuild directory d s.1).2.moments[n]? with
    | none => exact List.mem_cons_self
    | some m => exact List.mem_of_getElem? h

/-- **The swap loses nothing** in a run of such blocks, with a crash at any moment of any of them:
the upstream PKGBUILD is there at every moment, and a block that ends has put everything back. -/
theorem swap_loses_nothing (directory : String) (d : Directory C) (steps : List (Step C))
    (h : Run.Each (after directory) Sound d steps) :
    ∀ before b crash rest, steps = before ++ (b, crash) :: rest →
      (∀ u, upstream d = some u →
        ∀ m ∈ (asCanonicalPkgbuild directory (Run.run (after directory) d before) b).2.moments,
          upstream m = some u) ∧
      (Exits directory (Run.run (after directory) d before) b →
        Restored (Run.run (after directory) d before) b
          (asCanonicalPkgbuild directory (Run.run (after directory) d before) b).2.now) := by
  rintro before b crash rest rfl
  obtain ⟨hbefore, hstep, -⟩ := Run.each_append.mp h
  refine ⟨fun u hu => ?_, fun hexit => (restored_iff hstep.1 hexit).mpr hstep.2⟩
  have hup : upstream (Run.run (after directory) d before) = some u :=
    hbefore.invariant (I := fun d => upstream d = some u) hu fun d s _ hd hs =>
      upstream_moments hs.1 hd _ (after_mem directory d s)
  exact upstream_moments hstep.1 hup

/-- A checkout with its patched sidecar. -/
def checkout : Directory String := fun n =>
  if n = requiredName then some "# upstream"
  else if n = "PKGBUILD.sysforge" then some "# patched" else none

/-- A block over the sidecar whose build does this to the canonical file. -/
def swapped (build : List (Option String)) : Block String where
  sidecar := "PKGBUILD.sysforge"
  stashes := true
  swaps := true
  undoes := true
  returns := true
  restores := true
  build := build

/-- A block that ends, and behind it one that crashes while its build runs. -/
theorem swap_loses_nothing_checkout :
    (∀ m ∈ (asCanonicalPkgbuild "/aur/foo" checkout (swapped [some "# built"])).2.moments,
      upstream m = some "# upstream") ∧
    Restored checkout (swapped [some "# built"])
      (asCanonicalPkgbuild "/aur/foo" checkout (swapped [some "# built"])).2.now := by
  have hstash : "PKGBUILD.sysforge" ≠ stashName := by decide
  have hname : "PKGBUILD.sysforge" ≠ requiredName := by decide
  have hsound : ∀ (d : Directory String) (crash : Option ℕ),
      Sound d (swapped [some "# built"], crash) := fun _ _ =>
    ⟨⟨hstash, fun h => absurd h hname⟩, .inr (Option.some_ne_none _)⟩
  obtain ⟨hup, hrestored⟩ := swap_loses_nothing "/aur/foo" checkout
    [(swapped [some "# built"], none), (swapped [some "# built"], some 2)]
    ⟨hsound _ _, hsound _ _, trivial⟩ [] (swapped [some "# built"]) none
    [(swapped [some "# built"], some 2)] rfl
  exact ⟨hup _ (by decide), hrestored ⟨by decide, rfl, rfl⟩⟩

/-- A build that deletes the canonical file ends with the upstream PKGBUILD still under the stash
name. -/
theorem not_swap_restores : Exits "/aur/foo" checkout (swapped [none]) ∧
    ¬ Restored checkout (swapped [none])
      (asCanonicalPkgbuild "/aur/foo" checkout (swapped [none])).2.now ∧
    (asCanonicalPkgbuild "/aur/foo" checkout (swapped [none])).2.now stashName =
      some "# upstream" := by
  have hstash : (asCanonicalPkgbuild "/aur/foo" checkout (swapped [none])).2.now stashName =
      some "# upstream" := by decide
  refine ⟨⟨by decide, rfl, rfl⟩, fun h => ?_, hstash⟩
  have hnone := h.stash
  rw [hstash] at hnone
  cases hnone

end Sysforge.Sandbox.CanonicalSwap
