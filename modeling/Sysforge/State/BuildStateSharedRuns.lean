import Sysforge.State.BuildStateShared

/-!
# What the lost-update warning catches

Over any interleaving of copies of one file, a copy knows the signature of the file as it last saw
it and the `built_at` of the entries it held then (`Copy.Tracks`). So a save is silent when nobody
else saved in between, and otherwise it names exactly the entries on disk that were built later
than the copy's own or that the copy never held (`warned_newer`). A change that stamps no newer
`built_at` goes unnoticed: a restamped build mode, a demotion, a build older than the copy's.
-/

namespace Sysforge.BuildState

variable {ι : Type*} {stat : ℕ → Sig} {w : Shared ι} {c : Copy} {n : String}
  {e : Entry}

/-! ## What a copy knows of the file -/

/-- A copy holds the signature and the stamps of what it last loaded or saved. -/
structure Copy.Tracks (stat : ℕ → Sig) (w : Shared ι) (c : Copy) : Prop where
  loaded : c.loadedBuiltAt = builtAts c.base
  seen : c.seen ≤ w.saves
  sig : c.diskSig = some (stat c.seen) ∧ w.file.isSome = true ∨
    c.diskSig = none ∧ c.seen = 0 ∧ (w.saves = 0 → w.file = none)

/-- Every copy tracks the file, which is there once anyone saved. -/
structure Shared.Tracked (stat : ℕ → Sig) (w : Shared ι) : Prop where
  file : 0 < w.saves → w.file.isSome = true
  copies : ∀ i c, w.copies i = some c → c.Tracks stat w

theorem tracks_load (hw : w.Tracked stat) {i : Instance}
    (hi : Instance.init w.file (w.sig stat) = some i) :
    Copy.Tracks stat w ⟨i, w.saves, i.state.data⟩ := by
  cases hf : w.file with
  | none =>
    rw [hf] at hi
    obtain rfl := Option.some.inj hi
    have h₀ : w.saves = 0 := by
      by_contra h
      have := hw.file (Nat.pos_of_ne_zero h)
      rw [hf] at this
      cases this
    exact ⟨rfl, le_refl _, .inr ⟨by rw [Shared.sig, hf]; rfl, h₀, fun _ => hf⟩⟩
  | some txt =>
    rw [hf] at hi
    obtain ⟨s, -, rfl⟩ := Option.map_eq_some_iff.mp hi
    exact ⟨rfl, le_refl _, .inl ⟨by rw [Shared.sig, hf]; rfl, by rw [hf]; rfl⟩⟩

/-- A save of one copy leaves what the others know of the past. -/
theorem Copy.Tracks.save (hc : c.Tracks stat w) {w' : Shared ι} (hf : w'.file.isSome = true)
    (hs : w'.saves = w.saves + 1) : c.Tracks stat w' where
  loaded := hc.loaded
  seen := by have := hc.seen; omega
  sig := by
    obtain ⟨h, -⟩ | ⟨h, h₀, -⟩ := hc.sig
    · exact .inl ⟨h, hf⟩
    · exact .inr ⟨h, h₀, fun h => by omega⟩

section Step

variable [DecidableEq ι]

theorem Shared.Tracked.setCopy (hw : w.Tracked stat) {i : ι} {o : Option Copy}
    (ho : ∀ c, o = some c → c.Tracks stat w) : (w.setCopy i o).Tracked stat where
  file := hw.file
  copies j c hj := by
    have h : c.Tracks stat w := by
      simp only [Shared.setCopy] at hj
      split at hj
      · exact ho c hj
      · exact hw.copies j c hj
    exact ⟨h.loaded, h.seen, h.sig⟩

theorem Shared.Tracked.step (hw : w.Tracked stat) (a : ι × Action) :
    (w.step stat a).Tracked stat := by
  obtain ⟨i, a⟩ := a
  cases a with
  | load =>
    refine hw.setCopy fun c hc => ?_
    obtain ⟨i, hi, rfl⟩ := Option.map_eq_some_iff.mp hc
    exact tracks_load hw hi
  | edit op =>
    cases hi : w.copies i with
    | none => simpa only [Shared.step, hi] using hw
    | some c =>
      simp only [Shared.step, hi]
      refine hw.setCopy fun c' hc => ?_
      obtain rfl := Option.some.inj hc
      have h := hw.copies i c hi
      exact ⟨h.loaded, h.seen, h.sig⟩
  | save =>
    cases hi : w.copies i with
    | none => simpa only [Shared.step, hi] using hw
    | some c =>
      simp only [Shared.step, hi]
      have hw' : Tracked stat { w with file := some c.state.serialize, saves := w.saves + 1 } :=
        ⟨fun _ => rfl, fun j d hd => (hw.copies j d hd).save rfl rfl⟩
      refine hw'.setCopy fun c' hc => ?_
      obtain rfl := Option.some.inj hc
      exact ⟨rfl, le_refl _, .inl ⟨rfl, rfl⟩⟩

theorem tracked_run (s : Option BuildState) (acts : List (ι × Action)) :
    (Run.run (Shared.step stat) (.start s) acts).Tracked stat := by
  have h₀ : (Shared.start (ι := ι) s).Tracked stat := ⟨fun h => absurd h (lt_irrefl 0), nofun⟩
  generalize Shared.start s = w at h₀
  induction acts generalizing w with
  | nil => exact h₀
  | cons a acts ih => exact ih _ (h₀.step a)

end Step

/-! ## The warning -/

/-- The signature has changed just when somebody else saved. -/
theorem sig_ne_iff (hstat : Function.Injective stat) (hc : c.Tracks stat w)
    (hf : 0 < w.saves → w.file.isSome = true) : w.sig stat ≠ c.diskSig ↔ c.seen ≠ w.saves := by
  obtain ⟨h, hs⟩ | ⟨h, h₀, hs⟩ := hc.sig
  · obtain ⟨txt, ht⟩ := Option.isSome_iff_exists.mp hs
    rw [h, Shared.sig, ht, Option.map_some, ne_eq, Option.some_inj, hstat.eq_iff, eq_comm]
  · rw [h, Shared.sig, h₀]
    cases hw : w.saves with
    | zero => simp [hs hw]
    | succ k =>
      obtain ⟨txt, ht⟩ := Option.isSome_iff_exists.mp (hf (by omega))
      simp [ht]

/-- The entry on disk was built later than the copy's own, or than the one it held when it last
loaded or saved if it has dropped it since; or the copy held none. -/
def Copy.Regresses (c : Copy) (n : String) (e : Entry) : Prop :=
  ∀ mine, (c.state.data.get n).or (c.base.get n) = some mine →
    later e.builtAtOr mine.builtAtOr = true

theorem lostEntry_name {i : Instance} {l : Lost} (h : i.lostEntry n e = some l) : l.name = n := by
  rw [Instance.lostEntry] at h
  split at h
  · obtain rfl := Option.some.inj h
    rfl
  · split at h
    · obtain rfl := Option.some.inj h
      rfl
    · cases h

theorem lostEntry_isSome (hc : c.loadedBuiltAt = builtAts c.base) :
    (c.lostEntry n e).isSome = true ↔ c.Regresses n e := by
  have hb : c.loadedBuiltAt.get n = (c.base.get n).map Entry.builtAtOr := by
    rw [hc, builtAts, Dict.get_map]
  rw [Instance.lostEntry, hb, Copy.Regresses, ← Option.map_or]
  cases (c.state.data.get n).or (c.base.get n) with
  | none => simp
  | some mine =>
    simp only [Option.map_some, Option.some.injEq, forall_eq']
    split <;> simp_all

/-- What a save by this copy would say of the entries on disk. -/
structure WarnsOfNewer (stat : ℕ → Sig) (w : Shared ι) (c : Copy) : Prop where
  /-- Nobody else has saved: no warning. -/
  silent : c.seen = w.saves → w.warned stat c = []
  /-- Somebody else has: the warning names an entry just when it is newer or was never held. -/
  names : c.seen ≠ w.saves → ∀ disk, w.file.bind readState = some disk →
    ∀ n e, disk.data.get n = some e → (n ∈ w.warned stat c ↔ c.Regresses n e)

theorem mem_warned {disk : BuildState} (hs : w.sig stat ≠ c.diskSig)
    (hd : w.file.bind readState = some disk) (he : disk.data.get n = some e) :
    n ∈ w.warned stat c ↔ (c.lostEntry n e).isSome = true := by
  rw [Shared.warned, Instance.warned, if_pos hs, Instance.lostUpdates, hd]
  simp only [List.mem_map, List.mem_filterMap]
  constructor
  · rintro ⟨l, ⟨p, hp, hl⟩, hn⟩
    rw [lostEntry_name hl] at hn
    subst hn
    obtain rfl : p.2 = e := Option.some.inj ((Dict.mem_sorted.mp hp).symm.trans he)
    rw [hl]
    rfl
  · intro h
    obtain ⟨l, hl⟩ := Option.isSome_iff_exists.mp h
    exact ⟨l, ⟨(n, e), Dict.mem_sorted.mpr he, hl⟩, lostEntry_name hl⟩

/-- **The lost-update warning**: in every interleaving of loads, changes and saves over one file, a
save with no save of another copy in between is silent, and any other names exactly the entries on
disk that are newer than the copy's or that the copy never held. -/
theorem warned_newer [DecidableEq ι] (hstat : Function.Injective stat) (s : Option BuildState)
    (acts : List (ι × Action)) (i : ι) (c : Copy)
    (hc : (Run.run (Shared.step stat) (.start s) acts).copies i = some c) :
    WarnsOfNewer stat (Run.run (Shared.step stat) (.start s) acts) c := by
  have hw := @tracked_run ι stat _ s acts
  generalize Run.run (Shared.step stat) (.start s) acts = w at hw hc
  have ht := hw.copies i c hc
  have hsig := sig_ne_iff hstat ht hw.file
  refine ⟨fun h => ?_, fun h disk hd n e he => ?_⟩
  · rw [Shared.warned, Instance.warned, if_neg fun hs => hsig.mp hs h]
    rfl
  · rw [mem_warned (hsig.mpr h) hd he, lostEntry_isSome ht.loaded]

/-! ## Two writers -/

/-- A signature for every save. -/
def countingStat (n : ℕ) : Sig := ⟨n, n, 0⟩

theorem countingStat_injective : Function.Injective countingStat := fun _ _ h => (Sig.mk.inj h).1

/-- A build of `htop`. -/
def htopBuild (pkgver : String) : Op :=
  .record { pkgname := "htop", pkgver := pkgver, pkgrel := "1", epoch := "0", pkgbase := "htop"
            pkgbuildDir := "/src/htop", buildMode := some "source_built" } "2026-09-28T16:19:00Z"

/-- Another writer records a build of `htop` after this one loaded an absent file. -/
def htopAdded : List (Bool × Action) :=
  [(false, .load), (true, .load), (true, .edit ⟨htopBuild "3.4.1", rfl⟩), (true, .save)]

theorem warned_newer_htopAdded :
    WarnsOfNewer countingStat (Run.run (Shared.step countingStat) (.start none) htopAdded)
      ⟨⟨.empty, none, builtAts .empty⟩, 0, .empty⟩ :=
  warned_newer countingStat_injective none htopAdded false _ rfl

/-- The next save of a copy replaces or drops an entry that another copy wrote after this one last
loaded or saved, and does not name it. -/
def Shared.losesSilently (stat : ℕ → Sig) (w : Shared ι) (i : ι) (n : String) : Bool :=
  match w.copies i, w.file.bind readState with
  | some c, some disk =>
    match disk.data.get n with
    | some e => c.seen ≠ w.saves && c.state.data.get n ≠ some e && n ∉ w.warned stat c
    | none => false
  | _, _ => false

/-- The file two writers load, with a build of `htop`. -/
def htopState : BuildState := BuildState.empty.step (htopBuild "3.4.1")

/-- Both load, then the second makes a change and saves. -/
def changedBy (op : {op : Op // op.editsInstalls = true}) : List (Bool × Action) :=
  [(false, .load), (true, .load), (true, .edit op), (true, .save)]

/-- A restamped build mode, a demotion, and a build in the second of the recorded one, each rolled
back in silence. -/
theorem warned_not_complete :
    (Run.run (Shared.step countingStat) (.start (some htopState))
      (changedBy ⟨.setBuildMode "htop" "bolt_llvm", rfl⟩)).losesSilently countingStat false
        "htop" = true ∧
    (Run.run (Shared.step countingStat) (.start (some htopState))
      (changedBy ⟨.reconcileExternalInstalls ["htop"], rfl⟩)).losesSilently countingStat false
        "htop" = true ∧
    (Run.run (Shared.step countingStat) (.start (some htopState))
      (changedBy ⟨htopBuild "3.4.2", rfl⟩)).losesSilently countingStat false "htop" = true := by
  refine ⟨by decide +kernel, by decide +kernel, by decide +kernel⟩

end Sysforge.BuildState
