import Sysforge.Aur.Requirers
import Sysforge.Foundations.Worklist

/-!
# Refused dependencies

When the review of the AUR dependencies of a batch refuses some of them, `prepare_deps` takes out
every dependency and target that requires one: it follows `required_by` upward from the refused
ones. The chain breaks at a batch target, which is no longer in the list of dependencies, and at a
package whose requirers were forgotten. Without the second, `refusesRequirers_iff` says when the
refusal reaches everyone it should.
-/

namespace Sysforge.Aur

/-! ## The refusal arm -/

/-- A batch target of `target_from_pkgbuild`. -/
structure Target (env : Env) where
  pkgbuildPath : String
  globals : PkgMeta
  parsed : env.parsePkgbuild pkgbuildPath = some globals

/-- The pkgbase of a target, which is how the resolver names it. -/
def Target.pkgbase {env : Env} (t : Target env) : String := getPkgname t.globals

/-- The pkgnames of a target. -/
def Target.pkgnames {env : Env} (t : Target env) : List String :=
  match t.globals.pkgname with
  | none => []
  | some (.str s) => [s]
  | some (.arr l) => l

/-- `by_name[n].required_by`, empty without an entry. -/
def parents (deps : List ResolvedDep) (n : String) : List String :=
  (((Dict.ofItems (deps.map fun d => (d.name, d))).get n).map ResolvedDep.requiredBy).getD []

/-- `_requirer_closure`; the bound counts the names there are. -/
def requirerClosure (deps : List ResolvedDep) (seeds : List String) : List String :=
  Worklist.closure (parents deps) (seeds ++ deps.flatMap ResolvedDep.requiredBy).length seeds

/-- The dependencies the review is asked about: those with a clone. -/
def buildable (deps : List ResolvedDep) : List ResolvedDep :=
  deps.filter fun d => d.source = .aur && d.pkgbuildPath.isSome

/-- What a refusal leaves: the dependencies to build, and the names refused with the reason. -/
structure Refusal where
  deps : List ResolvedDep
  refused : List (String × String)

/-- The refusal arm of `prepare_deps`. -/
def refuseDeps (deps : List ResolvedDep) (changed : List String) : Refusal :=
  let affected := requirerClosure deps changed
  let reason := "needs " ++ ", ".intercalate (changed.insertionSort (· ≤ ·)) ++
    ", whose source changed"
  { deps := deps.filter fun d => d.name ∉ affected
    refused := affected.map fun n => (n, reason) }

/-- The resolved dependencies that are no batch target. -/
def besides {env : Env} (targets : List (Target env)) (deps : List ResolvedDep) :
    List ResolvedDep :=
  deps.filter fun d => d.name ∉ targets.map Target.pkgbase

/-- The dependencies of a batch. -/
def batchDeps (env : Env) (fuel : ℕ) (targets : List (Target env)) :
    Except Failure (List ResolvedDep) :=
  resolveAurDepsBatch env true fuel (targets.map Target.pkgbuildPath)

/-- The targets `build_and_install` goes on with: those none of whose names is refused. -/
def dropRefused {env : Env} (targets : List (Target env)) (r : Refusal) : List (Target env) :=
  targets.filter fun t => (t.pkgbase :: t.pkgnames).all fun n => n ∉ Assoc.keys r.refused

/-! ## Who requires whom -/

section Requires

variable (env : Env) (targets : List (Target env)) (deps : List ResolvedDep)

/-- `x`, a resolved dependency or a batch target, names `n` among its dependencies. -/
def Requires (x n : String) : Prop :=
  x ∈ deps.map ResolvedDep.name ∧ Names (depsOf env true x) n ∨
    ∃ t ∈ targets, t.pkgbase = x ∧ Names (rootSpecs env t.pkgbuildPath) n

/-- `x` transitively requires a refused dependency. -/
def RequiresRefused (changed : List String) (x : String) : Prop :=
  ∃ s ∈ changed, Relation.TransGen (Requires env targets deps) x s

/-- `x` requires a refused dependency through resolved dependencies that are no batch target. -/
def PlainlyRequiresRefused (changed : List String) (x : String) : Prop :=
  ∃ s ∈ changed, Relation.TransGen
    (fun x n => Requires env targets deps x n ∧ n ∈ (besides targets deps).map ResolvedDep.name) x s

/-- The refusal takes out everyone who requires a refused dependency. -/
def RefusesRequirers (changed : List String) : Prop :=
  ∀ x, RequiresRefused env targets deps changed x →
    x ∈ Assoc.keys (refuseDeps (besides targets deps) changed).refused

end Requires

/-! ## The closure -/

section Closure

variable {env : Env} {fuel : ℕ} {targets : List (Target env)} {deps : List ResolvedDep}
  {changed : List String} {t t' : Tables} {x n : String} {s' : Walk.State String}

/-- A root is resolved under the name of its target. -/
theorem resolveRoot_target (r : Target env) : resolveRoot env true fuel t r.pkgbuildPath =
    resolveDeps env true fuel t (rootSpecs env r.pkgbuildPath) 0 r.pkgbase := by
  rw [resolveRoot, rootSpecs, r.parsed]
  rfl

/-- What the roots of the batch name. -/
def rootNames (targets : List (Target env)) (x n : String) : Prop :=
  ∃ r ∈ targets, r.pkgbase = x ∧ Names (rootSpecs env r.pkgbuildPath) n

theorem foldlM_roots_records
    (ha : Walk.ApartCalls (graph env true) (t.view env)
      (targets.map fun r => batch env (rootSpecs env r.pkgbuildPath)) s')
    (h : (targets.map Target.pkgbuildPath).foldlM (resolveRoot env true fuel) t = .ok t') :
    Recorded env true t t' ∧
      ∀ r ∈ targets, Tables.Records env t' r.pkgbase (rootSpecs env r.pkgbuildPath) := by
  induction targets generalizing t with
  | nil =>
    cases h
    exact ⟨⟨.refl, fun m hm => .inl hm⟩, nofun⟩
  | cons r targets ih =>
    rw [List.map_cons, List.foldlM_cons] at h
    obtain ⟨t₁, hroot, h⟩ := bind_ok h
    rw [resolveRoot_target] at hroot
    cases ha with
    | cons ha₁ ha =>
      obtain ⟨rfl, hrec₁, hown⟩ := resolveDeps_isRecorder _ _ _ _ _ _ hroot ha₁
      obtain ⟨hrec, hroots⟩ := ih ha h
      refine ⟨hrec₁.trans hrec, fun q hq => ?_⟩
      obtain rfl | hq := List.mem_cons.mp hq
      · exact hown.mono hrec.grows
      · exact hroots q hq

theorem foldlM_roots_justified {all : List (Target env)} (hall : ∀ r ∈ targets, r ∈ all)
    (ht : t.Justified env true (rootNames all))
    (h : (targets.map Target.pkgbuildPath).foldlM (resolveRoot env true fuel) t = .ok t') :
    t'.Justified env true (rootNames all) := by
  induction targets generalizing t with
  | nil =>
    cases h
    exact ht
  | cons r targets ih =>
    rw [List.map_cons, List.foldlM_cons] at h
    obtain ⟨t₁, hroot, h⟩ := bind_ok h
    rw [resolveRoot_target] at hroot
    refine ih (fun q hq => hall q (List.mem_cons_of_mem _ hq)) ?_ h
    exact resolveDeps_justified
      (fun n hn => .inr ⟨r, hall r List.mem_cons_self, rfl, hn⟩) ht hroot

/-- What is in the order is built by the AUR. -/
theorem isAur_of_mem_order (h : Walk.Calls (graph env true) ⟨∅, []⟩
    (targets.map fun r => batch env (rootSpecs env r.pkgbuildPath)) s') :
    ∀ n ∈ s'.order, isAur env n = true := by
  have hw : ∀ specs, ∀ n ∈ Walk.wanted (batch env specs), isAur env n = true := fun specs n hn =>
    (needs_batch.mp (Walk.needs_of_mem_wanted hn)).1
  refine h.forall_order (fun y => hw _) (fun b hb => ?_) (by simp)
  obtain ⟨r, -, rfl⟩ := List.mem_map.mp hb
  exact hw _

/-- Without a package resolved anew after it was met, the requirers noted for the packages of the
list are those that require them. -/
theorem mem_parents_iff (h : batchDeps env fuel targets = .ok deps)
    (ha : Walk.Apart (graph env true)
      (targets.map fun r => batch env (rootSpecs env r.pkgbuildPath))) :
    x ∈ parents (besides targets deps) n ↔
      n ∈ (besides targets deps).map ResolvedDep.name ∧ Requires env targets deps x n := by
  rw [batchDeps, resolveAurDepsBatch] at h
  split at h
  · cases h
  next t ht =>
    cases h
    obtain ⟨s', ha⟩ := ha
    obtain ⟨hcalls, hnamed, hprog⟩ := foldlM_calls rfl named_empty ht
    have hv : ({} : Tables).view env = ⟨∅, []⟩ := by
      refine Walk.State.ext (Set.ext fun n => ?_) rfl
      exact ⟨fun hn => (by cases hn.2), fun hn => (by cases hn)⟩
    rw [List.map_map] at hcalls
    rw [hv] at hcalls
    rw [← hv] at ha
    obtain ⟨hrec, hroots⟩ := foldlM_roots_records ha ht
    have hjust := foldlM_roots_justified (fun r hr => hr)
      (show Tables.Justified env true (rootNames targets) {} from fun n _ r hr => (by cases hr)) ht
    have hsub : ∀ d ∈ besides targets (t.order.filterMap t.visited.get),
        d.name ∈ t.order ∧ t.visited.get d.name = some d := by
      intro d hd
      obtain ⟨m, hm, hd⟩ := List.mem_filterMap.mp (List.mem_of_mem_filter hd)
      obtain rfl := hnamed.name m d hd
      exact ⟨hm, hd⟩
    have hkeys : Assoc.keys ((besides targets (t.order.filterMap t.visited.get)).map
        fun d => (d.name, d)) =
        (besides targets (t.order.filterMap t.visited.get)).map ResolvedDep.name := by
      simp [Assoc.keys]
    have hpar : parents (besides targets (t.order.filterMap t.visited.get)) n =
        if n ∈ (besides targets (t.order.filterMap t.visited.get)).map ResolvedDep.name
        then t.requirers n else [] := by
      rw [parents, Dict.get_ofItems (f := t.visited.get), hkeys]
      · split <;> rfl
      · intro p hp
        obtain ⟨d, hd, rfl⟩ := List.mem_map.mp hp
        exact (hsub d hd).2
    rw [hpar]
    split
    next hn =>
      obtain ⟨d, hd, rfl⟩ := List.mem_map.mp hn
      have haur := isAur_of_mem_order hcalls _ (hsub d hd).1
      rw [Requires, hnamed.names, and_iff_right hn]
      constructor
      · intro hx
        refine (hjust _ haur x hx).imp_left fun hx => ⟨hx.1.resolve_right ?_, hx.2⟩
        simp [hprog]
      · intro hx
        rcases hx with ⟨hx, hnm⟩ | ⟨r, hr, rfl, hnm⟩
        · exact (hrec.order x hx).resolve_left (by simp) _ haur hnm
        · exact hroots r hr _ haur hnm
    next hn => simp [hn]

/-- Whom the closure reaches from the refused dependencies. -/
theorem mem_refused_iff (h : batchDeps env fuel targets = .ok deps)
    (ha : Walk.Apart (graph env true)
      (targets.map fun r => batch env (rootSpecs env r.pkgbuildPath))) :
    x ∈ Assoc.keys (refuseDeps (besides targets deps) changed).refused ↔
      x ∈ changed ∨ PlainlyRequiresRefused env targets deps changed x := by
  have hkeys : Assoc.keys (refuseDeps (besides targets deps) changed).refused =
      requirerClosure (besides targets deps) changed := by
    rw [Assoc.keys, refuseDeps, List.map_map]
    exact List.map_id _
  have hstep : ∀ a b, Worklist.Step (parents (besides targets deps)) a b ↔
      Requires env targets deps b a ∧ a ∈ (besides targets deps).map ResolvedDep.name :=
    fun a b => (mem_parents_iff h ha).trans and_comm
  -- The names there are: the refused ones and the requirers noted.
  have hU : ∀ a ∈ changed ++ (besides targets deps).flatMap ResolvedDep.requiredBy,
      ∀ b ∈ parents (besides targets deps) a,
        b ∈ changed ++ (besides targets deps).flatMap ResolvedDep.requiredBy := by
    intro a _ b hb
    rw [parents] at hb
    cases hd : (Dict.ofItems ((besides targets deps).map fun d => (d.name, d))).get a with
    | none =>
      rw [hd] at hb
      cases hb
    | some d =>
      rw [hd] at hb
      obtain ⟨d', hd', he⟩ := List.mem_map.mp (Dict.mem_of_get_ofItems hd)
      obtain rfl := (Prod.mk.inj he).2
      exact List.mem_append_right _ (List.mem_flatMap.mpr ⟨d', hd', hb⟩)
  have hpath : ∀ s, Relation.ReflTransGen (Worklist.Step (parents (besides targets deps))) s x ↔
      x = s ∨ Relation.TransGen (fun x n => Requires env targets deps x n ∧
        n ∈ (besides targets deps).map ResolvedDep.name) x s := by
    intro s
    have hrel : Worklist.Step (parents (besides targets deps)) =
        Function.swap fun x n => Requires env targets deps x n ∧
          n ∈ (besides targets deps).map ResolvedDep.name :=
      funext fun a => funext fun b => propext (hstep a b)
    rw [hrel, Relation.reflTransGen_swap, Relation.reflTransGen_iff_eq_or_transGen, eq_comm]
  rw [hkeys, requirerClosure, Worklist.mem_closure_iff hU
    (fun a ha => List.mem_append_left _ ha) le_rfl]
  simp only [hpath, and_or_left, exists_or, exists_eq_right', PlainlyRequiresRefused]

/-- **Whom a refusal takes out.** Where no package is resolved anew after it was met, a refusal takes
out everyone who requires a refused dependency exactly when each of them is refused itself or
requires one through resolved dependencies that are no batch target. -/
theorem refusesRequirers_iff (h : batchDeps env fuel targets = .ok deps)
    (ha : Walk.Apart (graph env true)
      (targets.map fun r => batch env (rootSpecs env r.pkgbuildPath))) :
    RefusesRequirers env targets deps changed ↔ ∀ x, RequiresRefused env targets deps changed x →
      x ∈ changed ∨ PlainlyRequiresRefused env targets deps changed x :=
  forall_congr' fun x => by rw [mem_refused_iff h ha]

/-- Where a refusal takes out everyone it should, nothing that is built requires what it refused. -/
theorem RefusesRequirers.built (h : RefusesRequirers env targets deps changed) :
    (∀ d ∈ (refuseDeps (besides targets deps) changed).deps,
      ¬RequiresRefused env targets deps changed d.name) ∧
    ∀ r ∈ dropRefused targets (refuseDeps (besides targets deps) changed),
      ¬RequiresRefused env targets deps changed r.pkgbase := by
  refine ⟨fun d hd hr => ?_, fun r hr hq => ?_⟩
  · have hk := h d.name hr
    simp only [refuseDeps, List.mem_filter, decide_eq_true_eq] at hd
    rw [Assoc.keys, refuseDeps, List.map_map] at hk
    obtain ⟨n, hn, he⟩ := List.mem_map.mp hk
    exact hd.2 (he ▸ hn)
  · have hall := (List.mem_filter.mp hr).2
    rw [List.all_eq_true] at hall
    exact of_decide_eq_true (hall r.pkgbase List.mem_cons_self) (h _ hq)

end Closure

/-! ## Chains and siblings -/

/-- Every package has a PKGBUILD with these dependencies; the AUR has those in `aur`. -/
def pkgbuilds (deps : String → List String) (aur : List String) : Env where
  satisfied _ := false
  inRepo _ := false
  aurInfo n := if n ∈ aur then some {} else none
  findPkgbuild n := some n
  parsePkgbuild p := some { pkgname := some (.str p), depends := deps p }

/-- The target of one of them. -/
def pkgbuildTarget (deps : String → List String) (aur : List String) (p : String) :
    Target (pkgbuilds deps aur) := ⟨p, { pkgname := some (.str p), depends := deps p }, rfl⟩

/-- `app` needs `l`, and `a` needs `b`. -/
def siblings (l : List String) (p : String) : List String :=
  if p = "app" then l else if p = "a" then ["b"] else []

/-- `app` needs the target `lib`, and `lib` needs `b`. -/
def chain (p : String) : List String :=
  if p = "app" then ["lib"] else if p = "lib" then ["b"] else []

/-- The names resolved, those a review may refuse and those refused. -/
def refusalNames {env : Env} (targets : List (Target env)) (changed : List String)
    (r : Except Failure (List ResolvedDep)) : Option (List String × List String × List String) :=
  r.toOption.map fun deps => (deps.map ResolvedDep.name,
    (buildable (besides targets deps)).map ResolvedDep.name,
    Assoc.keys (refuseDeps (besides targets deps) changed).refused)

theorem exists_of_refusalNames {env : Env} {targets : List (Target env)} {changed : List String}
    {r : Except Failure (List ResolvedDep)} {names clones refused : List String}
    (h : refusalNames targets changed r = some (names, clones, refused)) :
    ∃ deps, r = .ok deps ∧ deps.map ResolvedDep.name = names ∧
      (buildable (besides targets deps)).map ResolvedDep.name = clones ∧
      Assoc.keys (refuseDeps (besides targets deps) changed).refused = refused := by
  cases r with
  | error e => cases h
  | ok deps =>
    have h := Option.some.inj h
    simp only [Prod.mk.injEq] at h
    exact ⟨deps, rfl, h⟩

/-- The targets of `siblings`. -/
def siblingTargets (l : List String) : List (Target (pkgbuilds (siblings l) ["a", "b"])) :=
  [pkgbuildTarget _ _ "app"]

/-- The targets of `chain`. -/
def chainTargets : List (Target (pkgbuilds chain ["lib", "b"])) :=
  [pkgbuildTarget _ _ "app", pkgbuildTarget _ _ "lib"]

/-- With `a` listed before `b`, the second resolution of `b` forgets that `a` needs it; and nobody
looks for those who need the target `lib`. -/
theorem refusesRequirers_not_always :
    (∃ deps, batchDeps _ 3 (siblingTargets ["a", "b"]) = .ok deps ∧
      "b" ∈ (buildable (besides (siblingTargets ["a", "b"]) deps)).map ResolvedDep.name ∧
        ¬RefusesRequirers _ (siblingTargets ["a", "b"]) deps ["b"]) ∧
    ∃ deps, batchDeps _ 3 chainTargets = .ok deps ∧
      "b" ∈ (buildable (besides chainTargets deps)).map ResolvedDep.name ∧
        ¬RefusesRequirers _ chainTargets deps ["b"] := by
  constructor
  · have h : refusalNames (siblingTargets ["a", "b"]) ["b"]
        (batchDeps _ 3 (siblingTargets ["a", "b"])) =
          some (["b", "a", "b"], ["b", "a", "b"], ["app", "b"]) := by decide
    obtain ⟨deps, hd, hn, hb, hr⟩ := exists_of_refusalNames h
    refine ⟨deps, hd, by simp [hb], fun hall => ?_⟩
    have ha := hall "a" ⟨"b", by simp, .single (.inl ⟨by simp [hn], "b", by decide,
      by decide, by decide, by decide⟩)⟩
    rw [hr] at ha
    exact absurd ha (by decide)
  · have h : refusalNames chainTargets ["b"] (batchDeps _ 3 chainTargets) =
        some (["b", "lib"], ["b"], ["lib", "b"]) := by decide
    obtain ⟨deps, hd, hn, hb, hr⟩ := exists_of_refusalNames h
    refine ⟨deps, hd, by simp [hb], fun hall => ?_⟩
    have hlib : Requires _ chainTargets deps "lib" "b" :=
      .inl ⟨by simp [hn], "b", by decide, by decide, by decide,
        by decide⟩
    have happ : Requires _ chainTargets deps "app" "lib" :=
      .inr ⟨pkgbuildTarget _ _ "app", by simp [chainTargets], rfl, "lib", by decide,
        by decide, by decide, by decide⟩
    have ha := hall "app" ⟨"b", by simp, .head happ (.single hlib)⟩
    rw [hr] at ha
    exact absurd ha (by decide)

/-- With `b` listed first, no package is resolved twice. -/
theorem apart_siblings : Walk.Apart (graph (pkgbuilds (siblings ["b", "a"]) ["a", "b"]) true)
    ((siblingTargets ["b", "a"]).map fun r =>
      batch (pkgbuilds (siblings ["b", "a"]) ["a", "b"])
        (rootSpecs (pkgbuilds (siblings ["b", "a"]) ["a", "b"]) r.pkgbuildPath)) := by
  generalize hg : graph (pkgbuilds (siblings ["b", "a"]) ["a", "b"]) true = g
  have hb : g "b" = [] := by
    subst hg
    decide
  have ha : g "a" = [("b", true)] := by
    subst hg
    decide
  have hroot : batch (pkgbuilds (siblings ["b", "a"]) ["a", "b"])
      (rootSpecs (pkgbuilds (siblings ["b", "a"]) ["a", "b"]) "app") = [("b", true), ("a", true)] := by
    decide
  have hmark : ∀ s : Walk.State String, s.mark [("b", true), ("a", true)] = s := by
    refine fun s => Walk.State.ext (Set.ext fun x => ?_) rfl
    rw [Walk.State.mem_mark, Assoc.lookup_cons_eq, Assoc.lookup_cons_eq]
    split_ifs <;> simp
  have hmark' : ∀ s : Walk.State String, s.mark [("b", true)] = s := by
    refine fun s => Walk.State.ext (Set.ext fun x => ?_) rfl
    rw [Walk.State.mem_mark, Assoc.lookup_cons_eq]
    split_ifs <;> simp
  have hmark₀ : ∀ s : Walk.State String, s.mark [] = s := fun s =>
    Walk.State.ext (Set.ext fun x => by simp [Walk.State.mem_mark]) rfl
  let s₁ : Walk.State String := Walk.State.finish ⟨∅, []⟩ "b"
  have hvisit_b : Walk.ApartLoop g (∅ : Set String) (Walk.State.mark ⟨∅, []⟩ (g "b"))
      (Walk.wanted (g "b")) ⟨∅, []⟩ := by
    rw [hb, hmark₀]
    exact .nil
  have hvisit_a : Walk.ApartLoop g s₁.closed (s₁.mark (g "a")) (Walk.wanted (g "a")) s₁ := by
    rw [ha, hmark']
    exact .skip (.inl rfl) .nil
  have hloop : Walk.ApartLoop g ∅ ⟨∅, []⟩ ["b", "a"] (s₁.finish "a") :=
    .visit (by simp) hvisit_b (by simp) (.visit (by simp) hvisit_a (by simp [s₁, Walk.State.finish])
      .nil)
  refine ⟨s₁.finish "a", .cons ?_ (.nil _)⟩
  show Walk.ApartCall g ⟨∅, []⟩ (batch _ (rootSpecs _ "app")) _
  rw [hroot, Walk.ApartCall, hmark]
  exact hloop

theorem refusesRequirers_siblings : ∃ deps, batchDeps _ 3 (siblingTargets ["b", "a"]) = .ok deps ∧
    (RefusesRequirers _ (siblingTargets ["b", "a"]) deps ["b"] ↔
      ∀ x, RequiresRefused _ (siblingTargets ["b", "a"]) deps ["b"] x →
        x ∈ ["b"] ∨ PlainlyRequiresRefused _ (siblingTargets ["b", "a"]) deps ["b"] x) := by
  have h : refusalNames (siblingTargets ["b", "a"]) ["b"]
      (batchDeps _ 3 (siblingTargets ["b", "a"])) =
        some (["b", "a"], ["b", "a"], ["a", "app", "b"]) := by decide
  obtain ⟨deps, hd, -⟩ := exists_of_refusalNames h
  exact ⟨deps, hd, refusesRequirers_iff hd apart_siblings⟩

end Sysforge.Aur
