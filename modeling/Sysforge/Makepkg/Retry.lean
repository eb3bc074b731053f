import Sysforge.Makepkg.EmitConf

/-!
# The build retry loop

One makepkg run ends with an exit code and its output; `invokeMakepkg` classifies it into an
exception. In batch mode `_invoke_with_retry` passes a toolchain mismatch on and turns every other
`CalledProcessError` into the `[build_failed]` `RuntimeError`. The loop of `_run_build` around it
retries once after a mismatch, with the GCC flag guard forced on, and has a handler for
`CalledProcessError` that walks the repair registry.

That handler is never entered: what could reach it has become a `RuntimeError` one level below.
The loop therefore keeps its protocol (`Protocol`) exactly on the builds whose last failure no
scenario would repair (`runBuild_protocol`).
-/

namespace Sysforge.Retry

open Text EmitConf

/-! ## One run of makepkg -/

/-- How a run of makepkg ends: the exit code and the lines of its output, escapes stripped. -/
structure Ended where
  returncode : ℤ
  lines : List Text

/-- What leaves an invocation. `ToolchainMismatchError` is a `CalledProcessError`; the
`[build_failed]` error is a `RuntimeError`, and so is none of the others. -/
inductive Exn
  | alreadyBuilt
  | toolchainMismatch (captured : List Text)
  | calledProcess (captured : List Text)
  | buildFailed (captured : List Text)

/-- `captured_output`, which `AlreadyBuilt` does not have. -/
def Exn.captured : Exn → Option (List Text)
  | .alreadyBuilt => none
  | .toolchainMismatch c | .calledProcess c | .buildFailed c => some c

/-- `TOOLCHAIN_MISMATCH_PATTERNS`. -/
def toolchainMismatchPatterns : List Text :=
  ["unrecognized argument to '-flto=' option".toList,
    "unrecognized command-line option '-flto=thin'".toList]

/-- GCC's curly quotes as apostrophes. -/
def normalizeQuotes (line : Text) : Text :=
  replaceChar (Char.ofNat 0x2019) [Char.ofNat 39]
    (replaceChar (Char.ofNat 0x2018) [Char.ofNat 39] line)

/-- The lines that `_on_line` looks for before it looks for an earlier package. -/
def failureLines : List Text :=
  ["A failure occurred in prepare().".toList, "A failure occurred in build().".toList,
    "A failure occurred in package().".toList, "target not found:".toList]

/-- The line reports a package that is already built. -/
def isAlreadyBuilt (line : Text) : Bool :=
  !failureLines.any (contains · line) && contains "A package has already been built".toList line

/-- The line reports a flag of clang that GCC rejects. -/
def isMismatch (line : Text) : Bool :=
  toolchainMismatchPatterns.any (contains · (normalizeQuotes line))

/-- `invoke_makepkg`. An interactive run inherits the terminal, and captures nothing. -/
def invokeMakepkg (interactive : Bool) (e : Ended) : Except Exn Unit :=
  if e.returncode = 0 then .ok ()
  else if interactive then
    if e.returncode = 13 then .error .alreadyBuilt else .error (.calledProcess [])
  else if e.returncode = 13 || e.lines.any isAlreadyBuilt then .error .alreadyBuilt
  else if e.lines.any isMismatch then .error (.toolchainMismatch e.lines)
  else .error (.calledProcess e.lines)

/-- `_invoke_with_retry` in batch mode. -/
def invokeWithRetry : Except Exn Unit → Except Exn Unit
  | .error (.calledProcess c) => .error (.buildFailed c)
  | o => o

/-! ## The repair registry -/

/-- `RetryPhase`. -/
inductive RetryPhase
  | incremental
  | fromScratch
  | preflight

/-- `RepairScenario`: `δ` is what is on disk, `ι` what a detection hands to the repair. A repair
that raises leaves its error. -/
structure RepairScenario (δ ι : Type) where
  name : String
  detect : δ → List Text → Option ι
  repair : δ → ι → δ × Except String Unit
  retryPhase : RetryPhase
  behaviourKey : String

/-- `RepairResult`. -/
structure RepairResult where
  scenario : String
  retryPhase : RetryPhase
  repaired : Bool
  aborted : Bool := false
  skippedReason : Option String := none

/-- The behaviours of a scenario. -/
inductive Behaviour
  | autoRepair
  | autoRepairWithWarning
  | promptUser
  | abort
  deriving DecidableEq

/-- `_normalise_behaviour`. -/
def normaliseBehaviour : Option String → Behaviour
  | some "auto_repair" => .autoRepair
  | some "auto_repair_with_warning" => .autoRepairWithWarning
  | some "prompt_user" => .promptUser
  | _ => .abort

/-- The repair is applied unasked. -/
def Behaviour.isAuto (b : Behaviour) : Bool := b = .autoRepair || b = .autoRepairWithWarning

/-- What `apply_first_match` returns, with the disk and `already_repaired` after it. -/
structure Applied (δ : Type) where
  disk : δ
  alreadyRepaired : List String
  result : Option RepairResult

section Registry

variable {δ ι : Type}

/-- `apply_first_match`. -/
def applyFirstMatch (disk : δ) (lines : List Text) (behaviourFor : String → Option String)
    (batch : Bool) (alreadyRepaired : List String) : List (RepairScenario δ ι) → Applied δ
  | [] => ⟨disk, alreadyRepaired, none⟩
  | s :: scenarios =>
    if s.name ∈ alreadyRepaired then
      applyFirstMatch disk lines behaviourFor batch alreadyRepaired scenarios
    else match s.detect disk lines with
      | none => applyFirstMatch disk lines behaviourFor batch alreadyRepaired scenarios
      | some info =>
        let behaviour := normaliseBehaviour (behaviourFor s.behaviourKey)
        if behaviour = .abort then
          ⟨disk, alreadyRepaired, some ⟨s.name, s.retryPhase, false, true, none⟩⟩
        else if behaviour = .promptUser && batch then
          ⟨disk, alreadyRepaired, some ⟨s.name, s.retryPhase, false, true, some "batch-no-prompt"⟩⟩
        else match s.repair disk info with
          | (disk, .error e) =>
            ⟨disk, alreadyRepaired, some ⟨s.name, s.retryPhase, false, false, some e⟩⟩
          | (disk, .ok ()) =>
            ⟨disk, s.name :: alreadyRepaired, some ⟨s.name, s.retryPhase, true, false, none⟩⟩

/-- A detection with its repair. -/
abbrev Mend (δ ι : Type) := (δ → List Text → Option ι) × (δ → ι → δ × Except String Unit)

/-- The detections and repairs of the registry. -/
structure Mends (δ ι : Type) where
  vendoredDeps : Mend δ ι
  pgpKey : Mend δ ι
  checksumMismatch : Mend δ ι

/-- `REGISTRY`. -/
def registry (m : Mends δ ι) : List (RepairScenario δ ι) :=
  [⟨"vendored_deps_missing", m.vendoredDeps.1, m.vendoredDeps.2, .incremental,
      "vendored_deps_missing"⟩,
    ⟨"pgp_key_missing", m.pgpKey.1, m.pgpKey.2, .fromScratch, "pgp_key_missing"⟩,
    ⟨"checksum_mismatch", m.checksumMismatch.1, m.checksumMismatch.2, .fromScratch,
      "checksum_mismatch"⟩]

end Registry

/-- The scenarios of `SCENARIOS` that the registry reads: their values and default. -/
def scenarioTable : List (String × List String × String) :=
  [("vendored_deps_missing", ["auto_repair", "auto_repair_with_warning", "abort"], "auto_repair"),
    ("pgp_key_missing", ["auto_repair", "auto_repair_with_warning", "abort"], "auto_repair"),
    ("checksum_mismatch", ["prompt_user", "abort"], "prompt_user")]

/-- `resolve_failure_handling(table).get(key)`; the table holds the values that are strings. -/
def failureHandling (table : Dict String String) (key : String) : Option String :=
  (scenarioTable.lookup key).map fun row =>
    let value := (table.get key).getD row.2
    if value ∈ row.1 then value else row.2

/-! ## The loop -/

/-- A build in batch mode: what makepkg does on a disk with a conf, the repairs, the failure
handling table and the arguments of the conf. -/
structure Build (δ ι : Type) where
  makepkg : δ → Args → δ × Ended
  mends : Mends δ ι
  table : Dict String String
  interactive : Bool := false
  args : Args

/-- What happens during a build. -/
inductive Event (δ : Type)
  | invoked (conf : Args) (disk : δ) (outcome : Except Exn Unit)
  | repair (scenario : String) (repaired : Bool)

/-- The variables of the loop. -/
structure Vars (δ : Type) where
  disk : δ
  reactiveRetryUsed : Bool := false
  repairedScenarios : List String := []

section Loop

variable {δ ι : Type}

namespace Build

/-- The arguments of the conf of an iteration. -/
def conf (b : Build δ ι) (reactive : Bool) : Args := { b.args with reactiveGccFallback := reactive }

/-- One invocation: the disk after it and how it ends. -/
def invoke (b : Build δ ι) (disk : δ) (reactive : Bool) : δ × Except Exn Unit :=
  let r := b.makepkg disk (b.conf reactive)
  (r.1, invokeMakepkg b.interactive r.2)

end Build

/-- The event of a repair that was run. -/
def repairEvent : Option RepairResult → List (Event δ)
  | none => []
  | some r => if r.aborted then [] else [.repair r.scenario r.repaired]

/-- A further event of a run. -/
def after (evs : List (Event δ)) (r : Option (List (Event δ) × Except Exn Unit)) :
    Option (List (Event δ) × Except Exn Unit) := r.map fun t => (evs ++ t.1, t.2)

/-- The `while True` loop of `_run_build` in batch mode; `none` is a loop that goes on. -/
def retryLoop (b : Build δ ι) : ℕ → Vars δ → Option (List (Event δ) × Except Exn Unit)
  | 0, _ => none
  | fuel + 1, v =>
    let o := b.invoke v.disk v.reactiveRetryUsed
    let ev := Event.invoked (b.conf v.reactiveRetryUsed) o.1 o.2
    match invokeWithRetry o.2 with
    | .ok () => some ([ev], .ok ())
    | .error (.toolchainMismatch c) =>
      if v.reactiveRetryUsed then some ([ev], .error (.buildFailed c))
      else after [ev] (retryLoop b fuel { v with disk := o.1, reactiveRetryUsed := true })
    | .error (.calledProcess c) =>
      let a := applyFirstMatch o.1 c (failureHandling b.table) true v.repairedScenarios
        (registry b.mends)
      let evs := ev :: repairEvent a.result
      -- A result that is `None`, aborted or not repaired re-raises.
      if a.result.any fun r => r.repaired && !r.aborted then
        after evs
          (retryLoop b fuel { v with disk := a.disk, repairedScenarios := a.alreadyRepaired })
      else some (evs, .error (.calledProcess c))
    | .error e => some ([ev], .error e)

/-- The retry loop of `_run_build`, with fuel for `2 + len(REGISTRY)` invocations. -/
def runBuild (b : Build δ ι) (disk : δ) : Option (List (Event δ) × Except Exn Unit) :=
  retryLoop b (2 + (registry b.mends).length) { disk := disk }

/-! ## The protocol -/

/-- The events that are invocations of makepkg. -/
def Event.isInvocation : Event δ → Bool
  | .invoked .. => true
  | .repair .. => false

/-- The output of an invocation that failed. -/
def Event.failedOutput : Event δ → Option (List Text)
  | .invoked _ _ (.error e) => e.captured
  | _ => none

/-- The invocation ended in a toolchain mismatch. -/
def Event.isMismatch : Event δ → Bool
  | .invoked _ _ (.error (.toolchainMismatch _)) => true
  | _ => false

/-- The scenario that an event repaired. -/
def Event.repairedScenario : Event δ → Option String
  | .repair s true => some s
  | _ => none

/-- The behaviour of a scenario. -/
def Build.behaviour (b : Build δ ι) (s : RepairScenario δ ι) : Behaviour :=
  normaliseBehaviour (failureHandling b.table s.behaviourKey)

/-- The first scenario that is not repaired yet, matches the output and is repaired unasked. -/
def Build.firstAuto (b : Build δ ι) (repaired : List String) (disk : δ) (output : List Text) :
    Option (RepairScenario δ ι) :=
  (registry b.mends).find? fun s =>
    s.name ∉ repaired && (s.detect disk output).isSome && (b.behaviour s).isAuto

/-- **The retry protocol** of a build that ends. -/
structure Protocol (b : Build δ ι) (events : List (Event δ)) (result : Except Exn Unit) : Prop where
  invocations : (events.filter Event.isInvocation).length ≤ 2 + (registry b.mends).length
  /-- The first scenario to repair unasked is repaired, and makepkg invoked again. -/
  repairs : ∀ before conf disk output rest s,
    events = before ++ .invoked conf disk (.error (.calledProcess output)) :: rest →
    b.firstAuto (before.filterMap Event.repairedScenario) disk output = some s →
    ∃ ok rest', rest = .repair s.name ok :: rest' ∧
      (ok = true → ∃ e rest'', rest' = e :: rest'' ∧ e.isInvocation = true)
  once : (events.filterMap Event.repairedScenario).Nodup
  asked : ∀ name ok, .repair name ok ∈ events →
    ∃ s ∈ registry b.mends, s.name = name ∧ (b.behaviour s).isAuto = true
  /-- The first mismatch is followed by an invocation with the guard, the next one ends the run. -/
  mismatch : ∀ before e rest, events = before ++ e :: rest → e.isMismatch = true →
    if before.any Event.isMismatch then rest = [] else
      ∃ conf disk o rest', rest = .invoked conf disk o :: rest' ∧ conf.reactiveGccFallback = true
  raises : ∀ e, result = .error e →
    e = .alreadyBuilt ∨ e.captured = (events.filterMap Event.failedOutput).getLast?

/-! ## The runs -/

/-- The outcome is a toolchain mismatch. -/
def mismatched : Except Exn Unit → Bool
  | .error (.toolchainMismatch _) => true
  | _ => false

/-- How the loop ends with the last outcome: a failure becomes the `[build_failed]` error. -/
def finish : Except Exn Unit → Except Exn Unit
  | .error (.toolchainMismatch c) | .error (.calledProcess c) => .error (.buildFailed c)
  | o => o

/-- The event of an invocation. -/
def Build.event (b : Build δ ι) (disk : δ) (reactive : Bool) : Event δ :=
  .invoked (b.conf reactive) (b.invoke disk reactive).1 (b.invoke disk reactive).2

/-- The invocation that ends the build: the first one, or the one after a mismatch. -/
def Build.last (b : Build δ ι) (disk : δ) : δ × Except Exn Unit :=
  if mismatched (b.invoke disk false).2 then b.invoke (b.invoke disk false).1 true
  else b.invoke disk false

/-- The events of a build. -/
def Build.events (b : Build δ ι) (disk : δ) : List (Event δ) :=
  if mismatched (b.invoke disk false).2 then
    [b.event disk false, b.event (b.invoke disk false).1 true]
  else [b.event disk false]

/-- The failure that ends the build matches no scenario that is repaired unasked. -/
def Unmatched (b : Build δ ι) (disk : δ) : Prop :=
  ∀ output, (b.last disk).2 = .error (.calledProcess output) →
    b.firstAuto [] (b.last disk).1 output = none

variable {b : Build δ ι} {disk : δ} {v : Vars δ} {events : List (Event δ)}
  {result : Except Exn Unit}

/-- **One iteration**: only a first mismatch leads to another one. -/
theorem retryLoop_succ (fuel : ℕ) : retryLoop b (fuel + 1) v =
    if mismatched (b.invoke v.disk v.reactiveRetryUsed).2 && !v.reactiveRetryUsed then
      after [b.event v.disk v.reactiveRetryUsed] (retryLoop b fuel
        { v with disk := (b.invoke v.disk v.reactiveRetryUsed).1, reactiveRetryUsed := true })
    else some ([b.event v.disk v.reactiveRetryUsed],
      finish (b.invoke v.disk v.reactiveRetryUsed).2) := by
  rw [retryLoop, Build.event]
  dsimp only
  cases (b.invoke v.disk v.reactiveRetryUsed).2 with
  | ok _ => rfl
  | error e =>
    cases e with
    | toolchainMismatch c =>
      cases v.reactiveRetryUsed with
      | false => rfl
      | true => rfl
    | alreadyBuilt => rfl
    | calledProcess c => rfl
    | buildFailed c => rfl

/-- **The build ends** after its first invocation, or after the retry of a mismatch. -/
theorem runBuild_eq : runBuild b disk = some (b.events disk, finish (b.last disk).2) := by
  show retryLoop b (3 + 1 + 1) { disk := disk } = _
  rw [retryLoop_succ, Build.events, Build.last]
  by_cases h : mismatched (b.invoke disk false).2 = true
  · rw [if_pos h, if_pos h, if_pos (by rw [h]; rfl), retryLoop_succ, if_neg (by simp)]
    rfl
  · rw [if_neg h, if_neg h, if_neg (by simp [h])]

theorem isInvocation_of_mem {e : Event δ} (h : e ∈ b.events disk) : e.isInvocation = true := by
  rw [Build.events] at h
  split at h
  · simp only [List.mem_cons, List.not_mem_nil, or_false] at h
    rcases h with rfl | rfl <;> rfl
  · rw [List.mem_singleton.mp h]
    rfl

/-- Nothing is repaired. -/
theorem not_repaired {es : List (Event δ)} (h : ∀ e ∈ es, e ∈ b.events disk) :
    es.filterMap Event.repairedScenario = [] := by
  refine List.filterMap_eq_nil_iff.mpr fun e he => ?_
  have hi := isInvocation_of_mem (h e he)
  cases e with
  | invoked => rfl
  | repair => cases hi

/-- The error that ends a build carries the output of the invocation that ended it. -/
theorem failedOutput_finish {o : Except Exn Unit} {e : Exn} (h : finish o = .error e) (conf : Args)
    (d : δ) : e = .alreadyBuilt ∨ (Event.invoked conf d o).failedOutput = e.captured ∧
      e.captured ≠ none := by
  cases o with
  | ok _ => cases h
  | error x =>
    cases x with
    | alreadyBuilt =>
      cases h
      exact .inl rfl
    | toolchainMismatch c | calledProcess c | buildFailed c =>
      cases h
      exact .inr ⟨rfl, Option.some_ne_none c⟩

theorem isMismatch_event {r : Bool} :
    (b.event disk r).isMismatch = mismatched (b.invoke disk r).2 := by
  rw [Build.event]
  cases (b.invoke disk r).2 with
  | ok _ => rfl
  | error e => cases e <;> rfl

/-- The invocations before the last one ended in a mismatch. -/
theorem events_eq : ∃ first r d, b.events disk = first ++ [b.event d r] ∧
    b.last disk = b.invoke d r ∧
    (first = [] ∧ (b.event d r).isMismatch = false ∨
      ∃ e, first = [e] ∧ e.isMismatch = true ∧ r = true) := by
  rw [Build.events, Build.last]
  by_cases h : mismatched (b.invoke disk false).2 = true
  · rw [if_pos h, if_pos h]
    exact ⟨[b.event disk false], true, _, rfl, rfl, .inr ⟨_, rfl, isMismatch_event.trans h, rfl⟩⟩
  · rw [if_neg h, if_neg h]
    exact ⟨[], false, disk, rfl, rfl, .inl ⟨rfl, isMismatch_event.trans (Bool.eq_false_iff.mpr h)⟩⟩

/-- An element of a list of one or two is the last one, or it is the first of two. -/
theorem split_short {α : Type} {first before rest : List α} {e x : α} (hf : first.length ≤ 1)
    (h : first ++ [x] = before ++ e :: rest) :
    before = first ∧ e = x ∧ rest = [] ∨ before = [] ∧ first = [e] ∧ rest = [x] := by
  have hlen := congrArg List.length h
  simp only [List.length_append, List.length_cons, List.length_nil] at hlen
  rcases Nat.lt_or_ge before.length first.length with hb | hb
  · have hnil : before = [] := List.length_eq_zero_iff.mp (by omega)
    obtain ⟨y, rfl⟩ : ∃ y, first = [y] := List.length_eq_one_iff.mp (by omega)
    rw [hnil, List.nil_append, List.singleton_append, List.cons.injEq] at h
    exact .inr ⟨hnil, by rw [h.1], h.2.symm⟩
  · have hrest : rest = [] := List.length_eq_zero_iff.mp (by omega)
    rw [hrest] at h
    obtain ⟨h₁, h₂⟩ := List.append_inj' h rfl
    exact .inl ⟨h₁.symm, (List.singleton_inj.mp h₂).symm, hrest⟩

/-- **The retry loop keeps its protocol** exactly on the builds whose last failure matches no
scenario that is repaired unasked: the registry is never walked. -/
theorem runBuild_protocol (b : Build δ ι) (disk : δ) :
    (∃ events result, runBuild b disk = some (events, result) ∧ Protocol b events result) ↔
      Unmatched b disk := by
  obtain ⟨first, r, d, he, hl, hfirst⟩ := @events_eq _ _ b disk
  have hlen : first.length ≤ 1 := by
    rcases hfirst with ⟨rfl, -⟩ | ⟨e, rfl, -⟩
    · exact Nat.zero_le 1
    · exact le_rfl
  have hrepaired {es : List (Event δ)} (h : es ⊆ first) :
      es.filterMap Event.repairedScenario = [] :=
    not_repaired fun e hes => he ▸ List.mem_append_left _ (h hes)
  have hmismatch {e : Event δ} (h : e ∈ first) : e.isMismatch = true := by
    rcases hfirst with ⟨rfl, -⟩ | ⟨e', rfl, hm, -⟩
    · cases h
    · exact List.mem_singleton.mp h ▸ hm
  rw [Unmatched, hl]
  constructor
  · rintro ⟨events, result, h, hp⟩ output ho
    rw [runBuild_eq, he, Option.some_inj, Prod.mk.injEq] at h
    obtain ⟨rfl, -⟩ := h
    by_contra hno
    obtain ⟨s, hs⟩ := Option.ne_none_iff_exists'.mp hno
    have hev : b.event d r =
        .invoked (b.conf r) (b.invoke d r).1 (.error (.calledProcess output)) := by
      rw [Build.event, ho]
    have hs' : b.firstAuto (first.filterMap Event.repairedScenario) (b.invoke d r).1 output =
        some s := by rwa [hrepaired (List.Subset.refl _)]
    obtain ⟨ok, rest', h, -⟩ := hp.repairs first _ _ output [] s (by rw [hev]) hs'
    cases h
  · intro hu
    refine ⟨_, _, runBuild_eq, ?_⟩
    rw [he, hl]
    refine ⟨?_, ?_, ?_, ?_, ?_, ?_⟩
    · refine (List.length_filter_le _ _).trans ?_
      rw [List.length_append, List.length_singleton]
      omega
    · intro before conf disk' output rest s h hs
      rcases split_short hlen h with ⟨rfl, hev, rfl⟩ | ⟨rfl, hf, rfl⟩
      · rw [Build.event, Event.invoked.injEq] at hev
        obtain ⟨-, hd, ho⟩ := hev
        rw [hrepaired (List.Subset.refl _), hd, hu output ho.symm] at hs
        cases hs
      · have hm := hmismatch (hf ▸ List.mem_singleton_self _)
        cases hm
    · rw [← he, not_repaired fun e h => h]
      exact List.nodup_nil
    · intro name ok h
      cases isInvocation_of_mem (he ▸ h)
    · intro before e rest h hm
      rcases split_short hlen h with ⟨rfl, rfl, rfl⟩ | ⟨rfl, hf, rfl⟩
      · rcases hfirst with ⟨rfl, hno⟩ | ⟨e, rfl, he, -⟩
        · exact absurd hm (Bool.eq_false_iff.mp hno)
        · rw [if_pos (by rw [List.any_cons, he]; rfl)]
      · rcases hfirst with ⟨rfl, -⟩ | ⟨-, -, -, hr⟩
        · cases hf
        · rw [if_neg (by rw [List.any_nil]; exact Bool.false_ne_true), hr]
          exact ⟨_, _, _, [], rfl, rfl⟩
    · intro e h
      rcases failedOutput_finish h (b.conf r) (b.invoke d r).1 with h | ⟨h, hne⟩
      · exact .inl h
      · obtain ⟨c, hc⟩ := Option.ne_none_iff_exists'.mp hne
        rw [hc] at h
        have hlast : [b.event d r].filterMap Event.failedOutput = [c] :=
          List.filterMap_cons_some h
        rw [List.filterMap_append, hlast, List.getLast?_concat]
        exact .inr hc

end Loop

/-- A build whose source is signed with a key that is not imported: on disk is whether it is. -/
def keyMissing : Build Bool Unit where
  makepkg imported _ := (imported, if imported then ⟨0, []⟩ else
    ⟨1, ["foo-1.0.tar.gz ... FAILED (unknown public key 4AEE18F83AFDEB23)".toList]⟩)
  mends :=
    { vendoredDeps := (fun _ _ => none, fun d _ => (d, .ok ()))
      pgpKey := (fun _ lines => if lines.any (contains "(unknown public key ".toList) then some ()
        else none, fun _ _ => (true, .ok ()))
      checksumMismatch := (fun _ _ => none, fun d _ => (d, .ok ())) }
  table := Dict.empty
  args := {}

/-- The key is not fetched, although `pgp_key_missing` is to be repaired. -/
theorem runBuild_keyMissing : ¬ ∃ events result,
    runBuild keyMissing false = some (events, result) ∧ Protocol keyMissing events result := by
  rintro ⟨events, result, h, hp⟩
  have hout : (keyMissing.invoke false false).2 = .error (.calledProcess
      ["foo-1.0.tar.gz ... FAILED (unknown public key 4AEE18F83AFDEB23)".toList]) := by
    rfl
  have hlast : keyMissing.events false = [keyMissing.event false false] := by
    rw [Build.events, hout]
    rfl
  rw [runBuild_eq, hlast, Option.some_inj, Prod.mk.injEq] at h
  obtain ⟨rfl, -⟩ := h
  obtain ⟨s, hs⟩ : ∃ s, keyMissing.firstAuto [] false
      ["foo-1.0.tar.gz ... FAILED (unknown public key 4AEE18F83AFDEB23)".toList] = some s :=
    ⟨_, rfl⟩
  obtain ⟨ok, rest', h, -⟩ := hp.repairs [] _ false _ [] s (by rw [Build.event, hout]; rfl) hs
  cases h

end Sysforge.Retry
