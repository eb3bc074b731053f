import Sysforge.Foundations.Run
import Sysforge.State.BuildStateRoundTrip

/-!
# Runs that survive the state file

`Op.Admissible` says what any caller gives: package names outside the reserved namespaces and
timestamps from the clock. `Op.Encodable` says when a call stores only what the file keeps.
`clean_step` is the step lemma and `roundTrips_of_encodable` the run. Two admissible runs that are
not encodable lose the file or change a value.
-/

namespace Sysforge.BuildState

open Toml

/-! ## Texts of a record -/

/-- An optional text that is kept. -/
def OptOk (o : Option String) : Prop := ∀ v ∈ o, ValueOk v

instance (o : Option String) : Decidable (OptOk o) :=
  match o with
  | none => isTrue fun _ h => by cases h
  | some v => decidable_of_iff (ValueOk v) (by simp [OptOk])

theorem OptOk.or {o o' : Option String} (h : OptOk o) (h' : OptOk o') : OptOk (o.or o') := by
  cases o with
  | none => exact h'
  | some v => exact h

theorem optOk_none : OptOk none := by decide

theorem optOk_some {v : String} : OptOk (some v) ↔ ValueOk v := by simp [OptOk]

namespace Entry

/-- The texts a record holds. -/
def texts (e : Entry) : List (Option String) :=
  [e.pkgver, e.pkgrel, e.epoch, e.pkgbase, e.pkgbuildDir, e.buildMode, e.flagsString, e.builtAt,
    e.builtUpstreamCommit, e.source, e.ownerStage, e.toolchainVariant, e.toolchainFingerprint,
    e.reviewedCommit, e.originPkgbase, e.buildSeconds, e.buildInputs]

theorem ok_iff {e : Entry} : e.Ok ↔ ∀ o ∈ e.texts, OptOk o := by
  have hfields : e.Ok ↔ ∀ p ∈ e.fields, ∀ x ∈ p.2, x.Ok := by
    constructor
    · intro h p hp x hx
      exact h (p.1, x) (List.mem_filterMap.2 ⟨p, hp, by rw [Option.mem_def.1 hx]; rfl⟩)
    · intro h q hq
      obtain ⟨p, hp, hq⟩ := List.mem_filterMap.1 hq
      obtain ⟨x, hx, rfl⟩ := Option.map_eq_some_iff.1 hq
      exact h p hp x hx
  have hstr : ∀ o : Option String, (∀ x ∈ o.map Scalar.str, x.Ok) ↔ OptOk o := by
    intro o
    cases o <;> simp [OptOk, Scalar.Ok]
  have hbool : ∀ o : Option Bool, (∀ x ∈ o.map Scalar.bool, x.Ok) ↔ True := by
    intro o
    cases o <;> simp [Scalar.Ok]
  simp only [hfields, fields, texts, List.forall_mem_cons, List.not_mem_nil, false_implies,
    implies_true, hstr, hbool, true_and, and_true]

end Entry

/-! ## Calls -/

/-- The texts a call of `record` gives for the entry. -/
def RecordArgs.texts (a : RecordArgs) : List (Option String) :=
  [some a.pkgver, some a.pkgrel, some a.epoch, some a.pkgbase, some a.pkgbuildDir, a.buildMode,
    a.flagsString, a.builtAt, a.builtUpstreamCommit, a.source, a.ownerStage, a.toolchainVariant,
    a.toolchainFingerprint, a.reviewedCommit, a.originPkgbase, a.buildInputs]

/-- The texts a call of `record_failure` gives for the entry; the error is stored truncated. -/
def FailureArgs.texts (a : FailureArgs) : List (Option String) :=
  [a.failedAt, a.kind, a.pkgver, a.signature, a.fixCmd, some (truncateError a.error)]

/-- What every caller gives: package names outside the reserved namespaces, clock readings. -/
def Op.Admissible : Op → Prop
  | .record a now => a.pkgname ∉ reservedKeys ∧ IsTimestamp now
  | .revertRecord n _ _ => n ∉ reservedKeys
  | .recordFailure _ now => IsTimestamp now
  | .syncWithInstalled installed => ∀ n ∈ installed.keys, n ∉ reservedKeys
  | _ => True

instance (op : Op) : Decidable op.Admissible := by
  cases op <;> unfold Op.Admissible <;> infer_instance

/-- A call that stores only what the file keeps: every name and text it stores is one its quoting
helper encodes, and it stashes no record with a boolean. -/
def Op.Encodable (s : BuildState) : Op → Prop
  | .record a _ => NameOk a.pkgname ∧ ∀ o ∈ a.texts, OptOk o
  | .revertRecord n prior artifact =>
    (∀ p, prior = some p → NameOk n ∧ (carried ((s.data.get n).getD {}) p).Ok) ∧
      (stashed s n prior artifact ≠ none → (∀ a, artifact = some a → NameOk a) ∧
        ∀ e, s.data.get n = some e → e.sandboxed = none ∧ e.compiles = none)
  | .recordFailure a _ => NameOk a.pkgbase ∧ ∀ o ∈ a.texts, OptOk o
  | .setReviewed b c => NameOk b ∧ ValueOk c
  | .syncWithInstalled installed =>
    ∀ p ∈ installed.items, p.1 ∉ s.data.keys → NameOk p.1 ∧ ValueOk p.2
  | .setBuildMode n m => n ∈ s.data.keys → ValueOk m
  | _ => True

/-! ## What each call stores -/

theorem valueOk_of_timestamp {v : String} (h : IsTimestamp v) : ValueOk v := fun c hc => by
  rcases h c hc with hd | rfl | rfl | rfl | rfl
  · exact Or.inl (isLegal_of_isAlphanum (by simp [Char.isAlphanum, hd]))
  all_goals exact Or.inl (by decide)

theorem valueOk_stampOr {t : Option String} {now : String} (ht : OptOk t) (hn : IsTimestamp now) :
    ValueOk (stampOr t now) := by
  cases t with
  | none => exact valueOk_of_timestamp hn
  | some v =>
    rw [stampOr]
    split_ifs
    · exact valueOk_of_timestamp hn
    · exact ht v rfl

theorem optOk_ring {prior : Option String} (h : OptOk prior) (n : Option ℤ) :
    OptOk (ring prior n) := by
  have hold : ∀ l ∈ (Text.split ',' (prior.getD "").toList).filter (· ≠ []), ∀ c ∈ l,
      isLegal c ∨ c = '\r' := fun l hl c hc => by
    have hc := Text.mem_of_mem_split (List.mem_filter.1 hl).1 hc
    cases prior with
    | none => simp at hc
    | some v => exact h v rfl c hc
  intro v hv
  simp only [ring] at hv
  split_ifs at hv
  · cases hv
  · obtain rfl := Option.some_inj.1 hv
    intro c hm
    rw [String.toList_ofList] at hm
    rcases Text.mem_of_mem_intercalate hm with hc | ⟨l, hl, hc⟩
    · rw [List.mem_singleton.1 hc]
      exact Or.inl (by decide)
    · cases n with
      | none => exact hold l hl c hc
      | some n =>
        rcases List.mem_append.1 (Text.mem_of_mem_takeLast hl) with hl | hl
        · exact hold l hl c hc
        · rw [List.mem_singleton.1 hl] at hc
          rcases Text.mem_ofInt hc with hd | rfl
          · exact Or.inl (isLegal_of_isAlphanum (by simp [Char.isAlphanum, hd]))
          · exact Or.inl (by decide)

theorem recordEntry_ok {a : RecordArgs} {prior : Entry} {now : String}
    (ha : ∀ o ∈ a.texts, OptOk o) (hp : prior.Ok) (hn : IsTimestamp now) :
    (recordEntry a prior now).Ok := by
  rw [Entry.ok_iff] at hp ⊢
  simp only [RecordArgs.texts, Entry.texts, recordEntry, List.forall_mem_cons, List.not_mem_nil,
    false_implies, implies_true, and_true] at ha hp ⊢
  obtain ⟨h₁, h₂, h₃, h₄, h₅, h₆, h₇, h₈, h₉, h₁₀, h₁₁, h₁₂, h₁₃, h₁₄, h₁₅, h₁₆⟩ := ha
  obtain ⟨-, -, -, -, -, -, -, -, -, p₁₀, p₁₁, p₁₂, p₁₃, p₁₄, p₁₅, p₁₆, p₁₇⟩ := hp
  exact ⟨h₁, h₂, h₃, h₄, h₅, h₆, h₇, optOk_some.2 (valueOk_stampOr h₈ hn), h₉, h₁₀.or p₁₀,
    h₁₁.or p₁₁, h₁₂.or p₁₂, h₁₃.or p₁₃, h₁₄.or p₁₄, h₁₅.or p₁₅, optOk_ring p₁₆ _, h₁₆.or p₁₇⟩

theorem OptOk.nonEmpty {o : Option String} (h : OptOk o) : OptOk (nonEmpty o) := fun v hv =>
  h v (Option.mem_filter_iff.1 hv).1

theorem failureEntry_ok {a : FailureArgs} {now : String} (ha : ∀ o ∈ a.texts, OptOk o)
    (hn : IsTimestamp now) : (failureEntry a now).Ok := by
  simp only [FailureArgs.texts, List.forall_mem_cons, List.not_mem_nil, false_implies,
    implies_true, and_true] at ha
  obtain ⟨h₁, h₂, h₃, h₄, h₅, h₆⟩ := ha
  intro q hq
  obtain ⟨p, hp, hq⟩ := List.mem_filterMap.1 hq
  obtain ⟨v, hv, rfl⟩ := Option.map_eq_some_iff.1 hq
  have hall : ∀ p ∈ [("failed_at", some (stampOr a.failedAt now)), ("kind", nonEmpty a.kind),
      ("pkgver", nonEmpty a.pkgver), ("signature", nonEmpty a.signature),
      ("fix_cmd", nonEmpty a.fixCmd), ("error", some (truncateError a.error))], OptOk p.2 := by
    simp only [List.forall_mem_cons, List.not_mem_nil, false_implies, implies_true, and_true]
    exact ⟨optOk_some.2 (valueOk_stampOr h₁ hn), h₂.nonEmpty, h₃.nonEmpty, h₄.nonEmpty,
      h₅.nonEmpty, h₆⟩
  exact hall p hp v hv

theorem parsePacmanVersion_ok {v : String} (h : ValueOk v) :
    ValueOk (parsePacmanVersion v).1 ∧ ValueOk (parsePacmanVersion v).2.1 ∧
      ValueOk (parsePacmanVersion v).2.2 := by
  have hofList : ∀ {t : Text}, (∀ c ∈ t, isLegal c ∨ c = '\r') → ValueOk (String.ofList t) := by
    intro t ht c hc
    exact ht c (by rwa [String.toList_ofList] at hc)
  have hepoch : ∀ c, c ∈ (splitEpoch v.toList).1 ∨ c ∈ (splitEpoch v.toList).2 →
      isLegal c ∨ c = '\r' := by
    intro c hc
    unfold splitEpoch at hc
    split_ifs at hc
    · rcases hc with hc | hc
      · exact h c ((List.takeWhile_sublist _).subset hc)
      · exact h c ((List.dropWhile_suffix _).subset (List.mem_of_mem_tail hc))
    · rcases hc with hc | hc
      · rw [List.mem_singleton.1 hc]
        exact Or.inl (by decide)
      · exact h c hc
  have hrel : ∀ {t : Text}, (∀ c ∈ t, isLegal c ∨ c = '\r') → ∀ c,
      c ∈ (splitRel t).1 ∨ c ∈ (splitRel t).2 → isLegal c ∨ c = '\r' := by
    intro t ht c hc
    unfold splitRel at hc
    split_ifs at hc
    · rcases hc with hc | hc <;> rw [List.mem_reverse] at hc
      · exact ht c (List.mem_reverse.1 ((List.dropWhile_suffix _).subset (List.mem_of_mem_tail hc)))
      · exact ht c (List.mem_reverse.1 ((List.takeWhile_sublist _).subset hc))
    · rcases hc with hc | hc
      · exact ht c hc
      · rw [List.mem_singleton.1 hc]
        exact Or.inl (by decide)
  unfold parsePacmanVersion
  split_ifs
  · decide
  · have hr := hrel fun c hc => hepoch c (Or.inr hc)
    exact ⟨hofList fun c hc => hepoch c (Or.inl hc), hofList fun c hc => hr c (Or.inl hc),
      hofList fun c hc => hr c (Or.inr hc)⟩

theorem pacmanEntry_ok {v : String} (h : ValueOk v) : (pacmanEntry v).Ok := by
  obtain ⟨he, hv, hr⟩ := parsePacmanVersion_ok h
  rw [Entry.ok_iff]
  simp only [Entry.texts, pacmanEntry, List.forall_mem_cons, List.not_mem_nil, false_implies,
    implies_true, and_true, optOk_some, optOk_none, hv, hr, he, true_and]
  decide

theorem pacmanMarker_ok {e : Entry} (h : e.Ok) : (pacmanMarker e).Ok := by
  rw [Entry.ok_iff] at h ⊢
  simp only [Entry.texts, pacmanMarker, List.forall_mem_cons, List.not_mem_nil, false_implies,
    implies_true, and_true, optOk_some, optOk_none, true_and] at h ⊢
  exact ⟨h.1, h.2.1, h.2.2.1, h.2.2.2.1, by decide⟩

/-! ## The step lemma -/

variable {s : BuildState}

theorem Clean.data_set (h : Clean s) {n : String} {e : Entry} (hn : NameOk n)
    (hr : n ∉ reservedKeys) (he : e.Ok) : Clean { s with data := s.data.set n e } :=
  { h with
    data := fun n' e' hg => by
      rw [Dict.get_set] at hg
      split_ifs at hg with heq
      · cases hg
        exact ⟨heq ▸ hn, heq ▸ hr, he⟩
      · exact h.data n' e' hg }

theorem Clean.data_erase (h : Clean s) (n : String) : Clean { s with data := s.data.erase n } :=
  { h with
    data := fun n' e' hg => by
      rw [Dict.get_erase] at hg
      split_ifs at hg
      exact h.data n' e' hg }

theorem Clean.failures_set (h : Clean s) {b : String} {f : Failure} (hb : NameOk b) (hf : f.Ok) :
    Clean { s with failures := s.failures.set b f } :=
  { h with
    failures := fun b' f' hg => by
      rw [Dict.get_set] at hg
      split_ifs at hg with heq
      · cases hg
        exact ⟨heq ▸ hb, hf⟩
      · exact h.failures b' f' hg }

theorem Clean.failures_erase (h : Clean s) (b : String) :
    Clean { s with failures := s.failures.erase b } :=
  { h with
    failures := fun b' f' hg => by
      rw [Dict.get_erase] at hg
      split_ifs at hg
      exact h.failures b' f' hg }

theorem Clean.reverted_set (h : Clean s) {a : String} {e : Stash} (ha : NameOk a) (he : e.Ok) :
    Clean { s with reverted := s.reverted.set a e } :=
  { h with
    reverted := fun a' e' hg => by
      rw [Dict.get_set] at hg
      split_ifs at hg with heq
      · cases hg
        exact ⟨heq ▸ ha, he⟩
      · exact h.reverted a' e' hg }

theorem Clean.reverted_erase (h : Clean s) (a : String) :
    Clean { s with reverted := s.reverted.erase a } :=
  { h with
    reverted := fun a' e' hg => by
      rw [Dict.get_erase] at hg
      split_ifs at hg
      exact h.reverted a' e' hg }

theorem Clean.dropReverted (h : Clean s) (n : String) : Clean (dropReverted s n) :=
  { h with
    reverted := fun a e hg => by
      rw [BuildState.dropReverted, Dict.get_filter, Option.filter_eq_some_iff] at hg
      exact h.reverted a e hg.1 }

theorem entry_getD_ok (h : Clean s) (n : String) : ((s.data.get n).getD {}).Ok := by
  cases hg : s.data.get n with
  | none => exact fun q hq => absurd hq (by simp [Entry.items, Entry.fields])
  | some e => exact (h.data n e hg).2.2

theorem clean_empty : Clean empty where
  data _ _ h := by cases h
  failures _ _ h := by cases h
  reverted _ _ h := by cases h
  reviewed _ _ h := by cases h

theorem clean_record (h : Clean s) {a : RecordArgs} {now : String}
    (ha : Op.Admissible (.record a now)) (he : Op.Encodable s (.record a now)) :
    Clean (s.record a now) :=
  ((h.data_set he.1 ha.1 (recordEntry_ok he.2 (entry_getD_ok h _) ha.2)).dropReverted
    _).failures_erase _

theorem stashed_some {n : String} {prior : Option Entry} {artifact : Option String}
    {x : String × Stash} (h : stashed s n prior artifact = some x) :
    ∃ a e, artifact = some a ∧ s.data.get n = some e ∧ x = (a, ⟨n, e⟩) := by
  unfold stashed at h
  cases artifact with
  | none => cases h
  | some a =>
    simp only at h
    split_ifs at h with hc
    cases hg : s.data.get n with
    | none =>
      rw [hg] at hc
      exact absurd hc.2.1 (by decide)
    | some e =>
      rw [hg] at h
      exact ⟨a, e, rfl, rfl, (Option.some_inj.1 h).symm⟩

theorem clean_revertRecord (h : Clean s) {n : String} {prior : Option Entry}
    {artifact : Option String} (ha : Op.Admissible (.revertRecord n prior artifact))
    (he : Op.Encodable s (.revertRecord n prior artifact)) :
    Clean (s.revertRecord n prior artifact) := by
  have hrev : Clean (addStash s (stashed s n prior artifact)) := by
    cases hst : stashed s n prior artifact with
    | none => exact h
    | some x =>
      obtain ⟨a, e, rfl, hg, rfl⟩ := stashed_some hst
      obtain ⟨hname, hbool⟩ := he.2 (by rw [hst]; exact Option.some_ne_none _)
      obtain ⟨hn, hr, hok⟩ := h.data n e hg
      exact h.reverted_set (e := ⟨n, e⟩) (hname a rfl) ⟨hn, hr, hok, hbool e hg⟩
  cases prior with
  | none => exact hrev.data_erase n
  | some p => exact hrev.data_set (he.1 p rfl).1 ha (he.1 p rfl).2

theorem clean_restoreReverted (h : Clean s) (a : String) : Clean (s.restoreReverted a) := by
  unfold restoreReverted
  cases hg : s.reverted.get a with
  | none => exact h
  | some e =>
    obtain ⟨-, he⟩ := h.reverted a e hg
    dsimp only
    split_ifs
    · exact h.reverted_erase a
    · exact (h.reverted_erase a).data_set he.name he.free he.entry

theorem clean_demote (h : Clean s) (n : String) : Clean (demote s n) := by
  unfold demote
  cases hg : s.data.get n with
  | none => exact h
  | some e =>
    obtain ⟨hn, hr, he⟩ := h.data n e hg
    dsimp only
    split_ifs
    · exact h
    · exact h.data_set hn hr (pacmanMarker_ok he)

theorem clean_foldl {α : Type*} {f : BuildState → α → BuildState} {l : List α}
    (hf : ∀ s, Clean s → ∀ a ∈ l, Clean (f s a)) (h : Clean s) : Clean (l.foldl f s) := by
  induction l generalizing s with
  | nil => exact h
  | cons a l ih =>
    exact ih (fun s hs b hb => hf s hs b (List.mem_cons_of_mem _ hb)) (hf s h a List.mem_cons_self)

theorem clean_syncWithInstalled (h : Clean s) {installed : Dict String String}
    (ha : Op.Admissible (.syncWithInstalled installed))
    (he : Op.Encodable s (.syncWithInstalled installed)) :
    Clean (s.syncWithInstalled installed) := by
  refine clean_foldl (fun s' hs p hp => ?_)
    (clean_foldl (fun s' hs n _ => (hs.data_erase n).dropReverted n) h)
  obtain ⟨hp, hnew⟩ := List.mem_filter.1 hp
  obtain ⟨hn, hv⟩ := he p hp (by simpa using hnew)
  exact hs.data_set hn (ha p.1 (List.mem_map_of_mem hp)) (pacmanEntry_ok hv)

theorem clean_setBuildMode (h : Clean s) {n m : String} (he : Op.Encodable s (.setBuildMode n m)) :
    Clean (s.setBuildMode n m) := by
  unfold setBuildMode
  cases hg : s.data.get n with
  | none => exact h
  | some e =>
    obtain ⟨hn, hr, hok⟩ := h.data n e hg
    refine h.data_set hn hr ?_
    have hm : ValueOk m := he (List.mem_map_of_mem (Dict.mem_items.2 hg))
    rw [Entry.ok_iff] at hok ⊢
    simp only [Entry.texts, List.forall_mem_cons, optOk_some] at hok ⊢
    exact ⟨hok.1, hok.2.1, hok.2.2.1, hok.2.2.2.1, hok.2.2.2.2.1, hm, hok.2.2.2.2.2.2⟩

/-- Admissible calls that store only what the file keeps leave a clean state clean. -/
theorem clean_step (h : Clean s) {op : Op} (ha : op.Admissible) (he : op.Encodable s) :
    Clean (step s op) := by
  cases op with
  | record a now => exact clean_record h ha he
  | revertRecord n prior artifact => exact clean_revertRecord h ha he
  | restoreReverted a => exact clean_restoreReverted h a
  | delete n => exact h.data_erase n
  | reconcileExternalInstalls ns => exact clean_foldl (fun s hs n _ => clean_demote hs n) h
  | recordFailure a now => exact h.failures_set he.1 (failureEntry_ok he.2 ha)
  | clearFailure b => exact h.failures_erase b
  | setReviewed b c =>
    exact { h with
      reviewed := fun b' c' hg => by
        rw [step, setReviewed, Dict.get_set] at hg
        split_ifs at hg with heq
        · cases hg
          exact ⟨heq ▸ he.1, he.2⟩
        · exact h.reviewed b' c' hg }
  | syncWithInstalled installed => exact clean_syncWithInstalled h ha he
  | setBuildMode n m => exact clean_setBuildMode h he

/-! ## Runs -/

/-- **Every state of an encodable run survives its file**: when every call is admissible and
stores only what the file keeps, each state the run reaches is written to a valid file that gives
back the same records, failures, reverted builds and review baselines. -/
theorem roundTrips_of_encodable {ops pre : List Op} (ha : ∀ op ∈ ops, op.Admissible)
    (he : Run.Each step Op.Encodable empty ops) (hp : pre <+: ops) :
    RoundTrips (Run.run step empty pre) :=
  roundTrips_of_clean <| (he.of_prefix hp).invariant clean_empty fun _ op hop hs h =>
    clean_step hs (ha op (hp.subset hop)) h

/-- The record of a sandboxed build. -/
def sandboxedBuild : RecordArgs where
  pkgname := "mesa"
  pkgver := "25.1"
  pkgrel := "1"
  epoch := "0"
  pkgbase := "mesa"
  pkgbuildDir := "/src/mesa"
  sandboxed := some 1

/-- A sandboxed build with quoted, many-line flags, a failure and a review. -/
def savedRun : List Op :=
  [.record { sandboxedBuild with flagsString := some "CFLAGS=\"-O3\"\nLDFLAGS=-s" }
      "2026-01-02T03:04:05Z",
    .recordFailure { pkgbase := "linux", error := "make: *** [all]\nError 2" }
      "2026-01-02T03:04:06Z",
    .setReviewed "mesa" "0a1b2c3d"]

theorem roundTrips_savedRun : RoundTrips (Run.run step empty savedRun) :=
  roundTrips_of_encodable (show ∀ op ∈ savedRun, op.Admissible by decide)
    ⟨⟨by decide, by decide⟩, ⟨by decide, by decide⟩, ⟨by decide, by decide⟩, trivial⟩
    (List.prefix_refl _)

/-- A build fails with terminal colours in its output. -/
def colouredFailure : List Op :=
  [.recordFailure { pkgbase := "mesa", error := "\x1b[31merror:\x1b[0m ld returned 1" }
    "2026-01-02T03:04:05Z"]

/-- A sandboxed build is recorded and its install refused. -/
def refusedSandboxed : List Op :=
  [.record sandboxedBuild "2026-01-02T03:04:05Z",
    .revertRecord "mesa" none (some "mesa-25.1-1-x86_64.pkg.tar.zst")]

/-- The field of a reverted build, as it is read back. -/
def revertedField (artifact key : String) (l : Loaded) : Option Value :=
  match l.reverted.lookup artifact with
  | some (.table t) => t.lookup key
  | _ => none

/-- Whether a field was read back as this string. -/
def readAs (s : String) : Option Value → Bool
  | some (.str t) => t = s
  | _ => false

theorem RoundTrips.revertedField {s : BuildState} (h : RoundTrips s) {a k : String}
    {e : Stash} {x : Scalar} (he : s.reverted.get a = some e) (hx : e.items.lookup k = some x) :
    (load s.serialize).bind (revertedField a k) = some x.value := by
  have hsome : ∀ {β γ : Type} {r : β → γ → Prop} {o : Option β} {y : γ},
      Option.Rel r o (some y) → ∃ v, o = some v ∧ r v y := by
    intro β γ r o y h
    cases h with
    | some hr => exact ⟨_, rfl, hr⟩
  obtain ⟨l, hl, -, -, hr, -⟩ := h
  obtain ⟨v, hv, t, rfl, ht⟩ := hsome ((show s.reverted.items.lookup a = some e from he) ▸ hr a)
  obtain ⟨w, hw, rfl⟩ := hsome (hx ▸ ht k)
  rw [hl, Option.bind_some, BuildState.revertedField, hv]
  exact hw

/-- Two admissible runs do not survive: colours in a compiler error make the file unreadable, and
the stash of a sandboxed build reads its boolean back as the string `"True"`. -/
theorem admissible_not_roundTrips :
    ((∀ op ∈ colouredFailure, op.Admissible) ∧
      ¬ RoundTrips (Run.run step empty colouredFailure)) ∧
    (∀ op ∈ refusedSandboxed, op.Admissible) ∧
      ¬ RoundTrips (Run.run step empty refusedSandboxed) := by
  refine ⟨⟨by decide, ?_⟩, by decide, ?_⟩
  · intro h
    obtain ⟨l, hl, -⟩ := h
    have : (load (Run.run step empty colouredFailure).serialize).isNone = true := by
      decide +kernel
    rw [hl] at this
    cases this
  · intro h
    have hread := h.revertedField (a := "mesa-25.1-1-x86_64.pkg.tar.zst")
      (k := "sandboxed") (x := .bool true)
      (e := ⟨"mesa", recordEntry sandboxedBuild {} "2026-01-02T03:04:05Z"⟩) rfl rfl
    have hstr : readAs "True" ((load (Run.run step empty refusedSandboxed).serialize).bind
        (revertedField "mesa-25.1-1-x86_64.pkg.tar.zst" "sandboxed")) = true := by
      decide +kernel
    rw [hread] at hstr
    cases hstr

end Sysforge.BuildState
