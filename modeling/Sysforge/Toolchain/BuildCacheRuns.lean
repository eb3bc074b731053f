import Sysforge.Foundations.Run
import Sysforge.Toolchain.BuildCache

/-!
# What a reused build stages

The histories of the shelf are turns of the final pass, other builds, deletions and losses of the
cache. As long as every recorded build writes an artifact of each of its names where the search looks
first, and no other write puts a further artifact of a recorded name beside the recorded one, a
PKGBUILD that is skipped has, for each name that its entry records, an artifact of a build with its
fingerprint, and that is the one staged. Each of the conditions is needed: a newer artifact beside the
recorded one is staged in its place, and a name that the entry does not record is not looked at.
-/

namespace Sysforge.Toolchain

/-- A step of a history. -/
inductive ShelfStep
  | turn (t : Turn) (m : MakepkgRun)
  | otherBuild (outs : List Output)
  | delete (p : Location)
  | loseCache

/-- The shelf after a step. -/
def ShelfStep.apply (s : Shelf) : ShelfStep → Shelf
  | .turn t m => t.build s m
  | .otherBuild outs => s.writeAll none outs
  | .delete p => { s with files := s.files.erase p }
  | .loseCache => { s with cache := .empty }

/-! ## The condition -/

/-- The files put no artifact of a recorded name beside the recorded one, but for artifacts of the
name with the fingerprint of the entry. -/
def Spares (fingerprint : Option String) (outs : List Output) (e : CacheEntry) : Prop :=
  ∀ o ∈ outs, ∀ a ∈ e.artifacts, o.path.1 = a.artifact.1 → isArtifactOf a.pkgname o.path.2 = true →
    o.path = a.artifact ∨ o.pkgname = a.pkgname ∧ fingerprint = some e.fingerprint

/-- The files spare every entry whose recorded artifacts are all there, but for the entry of `key`. -/
def SparesAll (s : Shelf) (key fingerprint : Option String) (outs : List Output) : Prop :=
  ∀ k e, s.cache.get k = some e → e.artifacts.all (present s) = true → key ≠ some k →
    Spares fingerprint outs e

/-- The files have an artifact of the name in the first searched directory that has one, and only the
name's own artifacts match there. -/
def Produces (s : Shelf) (searchDirs : List String) (outs : List Output) (n : String) : Prop :=
  ∃ d, searchDirs.find? (fun d => holds s n d ||
      outs.any fun o => o.path.1 = d && isArtifactOf n o.path.2) = some d ∧
    (∃ o ∈ outs, o.path.1 = d ∧ isArtifactOf n o.path.2 = true) ∧
    ∀ o ∈ outs, o.path.1 = d → isArtifactOf n o.path.2 = true → o.pkgname = n

/-- The condition on a step: a recorded build produces all its names, and no write puts a further
artifact beside a recorded one. -/
def Orderly (s : Shelf) : ShelfStep → Prop
  | .turn t m => t.skips s = false →
      if m.ok then (∀ n ∈ t.members, Produces s t.searchDirs m.outputs n) ∧
        SparesAll s (some t.key) (some t.fp) m.outputs
      else SparesAll s none (some t.fp) m.outputs
  | .otherBuild outs => SparesAll s none none outs
  | .delete _ => True
  | .loseCache => True

/-- The entry of the turn records the names of its PKGBUILD, where the search looks first. -/
def Turn.Recorded (t : Turn) (s : Shelf) : Prop :=
  ∀ e ∈ s.cache.get t.key, ∀ n ∈ t.members, ∃ a ∈ e.artifacts,
    a.pkgname = n ∧ t.searchDirs.find? (holds s n) = some a.artifact.1

/-! ## Writes -/

variable {s : Shelf} {fp : Option String} {outs : List Output} {o : Output} {e : CacheEntry}
  {a : Artifact} {p : Location} {f : ArtifactFile} {n d : String}

theorem present_iff :
    present s a = true ↔
      ∃ f, s.files.get a.artifact = some f ∧ f.mtime = a.mtime ∧ f.size = a.size := by
  simp only [present, Option.any_eq_true, Bool.and_eq_true, decide_eq_true_eq]

@[simp] theorem writeAll_nil : s.writeAll fp [] = s := rfl

@[simp] theorem writeAll_cons : s.writeAll fp (o :: outs) = (s.write fp o).writeAll fp outs := rfl

@[simp] theorem writeAll_cache : (s.writeAll fp outs).cache = s.cache := by
  induction outs generalizing s with
  | nil => rfl
  | cons o outs ih => exact ih

@[simp] theorem write_clock : (s.write fp o).clock = s.clock + 1 := rfl

theorem get_write :
    (s.write fp o).files.get p =
      if p = o.path then some ⟨o.size, s.clock, ⟨o.pkgname, fp⟩⟩ else s.files.get p :=
  Dict.get_set _ _ _ _

theorem clock_le_writeAll : s.clock ≤ (s.writeAll fp outs).clock := by
  induction outs generalizing s with
  | nil => exact le_rfl
  | cons o outs ih => exact (Nat.le_succ s.clock).trans (ih (s := s.write fp o))

/-- The other paths keep their files. -/
theorem get_writeAll_of_ne (h : ∀ o ∈ outs, o.path ≠ p) :
    (s.writeAll fp outs).files.get p = s.files.get p := by
  induction outs generalizing s with
  | nil => rfl
  | cons o outs ih =>
    rw [writeAll_cons, ih fun q hq => h q (List.mem_cons_of_mem _ hq), get_write,
      if_neg (h o List.mem_cons_self).symm]

/-- A file after the writes is one of them, not older than they are, or was there. -/
theorem get_writeAll (h : (s.writeAll fp outs).files.get p = some f) :
    (s.clock ≤ f.mtime ∧ f.mtime < (s.writeAll fp outs).clock ∧
        ∃ o ∈ outs, o.path = p ∧ f.writer = ⟨o.pkgname, fp⟩) ∨
      s.files.get p = some f ∧ ∀ o ∈ outs, o.path ≠ p := by
  induction outs generalizing s with
  | nil => exact .inr ⟨h, fun o ho => absurd ho List.not_mem_nil⟩
  | cons o outs ih =>
    rcases ih h with ⟨hle, hlt, o', ho', hp, hwriter⟩ | ⟨hget, hne⟩
    · exact .inl ⟨(Nat.le_succ _).trans hle, hlt, o', List.mem_cons_of_mem _ ho', hp, hwriter⟩
    · rw [get_write] at hget
      by_cases hp : p = o.path
      · rw [if_pos hp, Option.some.injEq] at hget
        subst hget
        exact .inl ⟨le_rfl, clock_le_writeAll (s := s.write fp o), o, List.mem_cons_self, hp.symm,
          rfl⟩
      · rw [if_neg hp] at hget
        refine .inr ⟨hget, fun o' ho' => ?_⟩
        rcases List.mem_cons.mp ho' with rfl | ho'
        · exact fun h => hp h.symm
        · exact hne o' ho'

/-- A written path holds a file that the writes made. -/
theorem exists_get_writeAll (h : ∃ o ∈ outs, o.path = p) :
    ∃ f, (s.writeAll fp outs).files.get p = some f ∧ s.clock ≤ f.mtime := by
  induction outs generalizing s with
  | nil => exact absurd h fun ⟨_, ho, _⟩ => List.not_mem_nil ho
  | cons q outs ih =>
    by_cases hrest : ∃ o ∈ outs, o.path = p
    · obtain ⟨f, hf, hle⟩ := ih (s := s.write fp q) hrest
      exact ⟨f, hf, (Nat.le_succ _).trans hle⟩
    · push Not at hrest
      obtain ⟨o, ho, rfl⟩ := h
      rcases List.mem_cons.mp ho with rfl | ho
      · refine ⟨⟨o.size, s.clock, ⟨o.pkgname, fp⟩⟩, ?_, le_rfl⟩
        rw [writeAll_cons, get_writeAll_of_ne hrest, get_write, if_pos rfl]
      · exact absurd rfl (hrest o ho)

/-- A directory has an artifact after the writes when it had one or one is written there. -/
theorem holds_writeAll :
    holds (s.writeAll fp outs) n d =
      (holds s n d || outs.any fun o => o.path.1 = d && isArtifactOf n o.path.2) := by
  rw [Bool.eq_iff_iff, Bool.or_eq_true, holds_iff, holds_iff, List.any_eq_true]
  simp only [Bool.and_eq_true, decide_eq_true_eq]
  constructor
  · rintro ⟨p, f, hf, hd, ha⟩
    rcases get_writeAll hf with ⟨-, -, o, ho, rfl, -⟩ | ⟨hf, -⟩
    · exact .inr ⟨o, ho, hd, ha⟩
    · exact .inl ⟨p, f, hf, hd, ha⟩
  · rintro (⟨p, f, hf, hd, ha⟩ | ⟨o, ho, hd, ha⟩)
    · by_cases hp : ∃ o ∈ outs, o.path = p
      · obtain ⟨g, hg, -⟩ := @exists_get_writeAll s fp outs p hp
        exact ⟨p, g, hg, hd, ha⟩
      · push Not at hp
        exact ⟨p, f, (get_writeAll_of_ne hp).trans hf, hd, ha⟩
    · obtain ⟨g, hg, -⟩ := @exists_get_writeAll s fp outs o.path ⟨o, ho, rfl⟩
      exact ⟨o.path, g, hg, hd, ha⟩

/-! ## The invariant -/

/-- Beside a recorded artifact there is no newer one of its name, but of the same fingerprint. -/
def Newest (s : Shelf) (e : CacheEntry) : Prop :=
  ∀ a ∈ e.artifacts, isArtifactOf a.pkgname a.artifact.2 = true ∧
    ∀ p f, s.files.get p = some f → p.1 = a.artifact.1 → isArtifactOf a.pkgname p.2 = true →
      a.mtime ≤ f.mtime → f.writer = ⟨a.pkgname, some e.fingerprint⟩

/-- The invariant: times lie in the past, and an entry whose artifacts are all there has the newest
ones. -/
structure Sound (s : Shelf) : Prop where
  written : ∀ p f, s.files.get p = some f → f.mtime < s.clock
  recorded : ∀ k e, s.cache.get k = some e → ∀ a ∈ e.artifacts, a.mtime < s.clock
  newest : ∀ k e, s.cache.get k = some e → e.artifacts.all (present s) = true → Newest s e

/-- Writes never bring a recorded artifact back. -/
theorem present_of_writeAll (ha : a.mtime < s.clock) (h : present (s.writeAll fp outs) a = true) :
    present s a = true ∧ ∀ o ∈ outs, o.path ≠ a.artifact := by
  obtain ⟨f, hf, hm, hs⟩ := present_iff.mp h
  rcases get_writeAll hf with ⟨hle, -⟩ | ⟨hf, hne⟩
  · exact absurd ha (by rw [← hm]; exact Nat.not_lt.mpr hle)
  · exact ⟨present_iff.mpr ⟨f, hf, hm, hs⟩, hne⟩

/-- Writes that spare the entries keep the invariant, but for the entry of `key`. -/
theorem newest_writeAll (h : Sound s) {key : Option String} (hs : SparesAll s key fp outs)
    {k : String} (hk : s.cache.get k = some e) (hne : key ≠ some k)
    (hp : e.artifacts.all (present (s.writeAll fp outs)) = true) :
    Newest (s.writeAll fp outs) e := by
  rw [List.all_eq_true] at hp
  have before := fun a ha => present_of_writeAll (h.recorded k e hk a ha) (hp a ha)
  have hall : e.artifacts.all (present s) = true := List.all_eq_true.mpr fun a ha => (before a ha).1
  intro a ha
  obtain ⟨hname, hnew⟩ := h.newest k e hk hall a ha
  refine ⟨hname, fun p f hf hd hart hle => ?_⟩
  rcases get_writeAll hf with ⟨-, -, o, ho, rfl, hwriter⟩ | ⟨hf, -⟩
  · rcases hs k e hk hall hne o ho a ha hd hart with hpath | ⟨hpkg, rfl⟩
    · exact absurd hpath ((before a ha).2 o ho)
    · rw [hwriter, hpkg]
  · exact hnew p f hf hd hart hle

theorem written_writeAll (h : Sound s) (hf : (s.writeAll fp outs).files.get p = some f) :
    f.mtime < (s.writeAll fp outs).clock := by
  rcases get_writeAll hf with ⟨-, hlt, -⟩ | ⟨hf, -⟩
  · exact hlt
  · exact (h.written p f hf).trans_le clock_le_writeAll

/-- Writes that spare every entry keep the invariant. -/
theorem sound_writeAll (h : Sound s) (hs : SparesAll s none fp outs) :
    Sound (s.writeAll fp outs) where
  written p f hf := written_writeAll h hf
  recorded k e hk a ha :=
    (h.recorded k e (writeAll_cache ▸ hk) a ha).trans_le clock_le_writeAll
  newest k e hk hp := newest_writeAll h hs (writeAll_cache ▸ hk) (by simp only [ne_eq, reduceCtorEq,
    not_false_eq_true]) hp

/-! ## Records -/

/-- What is recorded after a build that produces the name. -/
theorem recordOf_writeAll (h : Sound s) {dirs : List String} {fingerprint : String}
    (hp : Produces s dirs outs n)
    (ha : recordOf (s.writeAll (some fingerprint) outs) dirs n = some a) :
    a.pkgname = n ∧ a.mtime < (s.writeAll (some fingerprint) outs).clock ∧
      isArtifactOf n a.artifact.2 = true ∧
      ∀ p f, (s.writeAll (some fingerprint) outs).files.get p = some f → p.1 = a.artifact.1 →
        isArtifactOf n p.2 = true → a.mtime ≤ f.mtime → f.writer = ⟨n, some fingerprint⟩ := by
  obtain ⟨d, hfirst, ⟨o, ho, hod, hoart⟩, hown⟩ := hp
  simp only [← @holds_writeAll s (some fingerprint) outs] at hfirst
  obtain ⟨art, hart, hrest⟩ := Option.bind_eq_some_iff.mp ha
  obtain ⟨g, hg, rfl⟩ := Option.map_eq_some_iff.mp hrest
  rw [newestArtifact_eq hfirst] at hart
  obtain ⟨hd, hname, g', hg', hmax⟩ := newestIn_eq_some hart
  obtain rfl : g' = g := Option.some.inj (hg'.symm.trans hg)
  refine ⟨rfl, written_writeAll h hg, hname, fun p f hf hpd hpart hle => ?_⟩
  -- the artifact that the build wrote is not newer than the recorded one, so `f` is of the build
  obtain ⟨fo, hfo, hclock⟩ := @exists_get_writeAll s (some fingerprint) outs o.path
    ⟨o, ho, rfl⟩
  have hge : s.clock ≤ f.mtime := (hclock.trans (hmax o.path fo hfo hod hoart)).trans hle
  rcases get_writeAll hf with ⟨-, -, o', ho', rfl, hwriter⟩ | ⟨hf, -⟩
  · rw [hwriter, hown o' ho' (hpd.trans hd) hpart]
  · exact absurd (h.written p f hf) (Nat.not_lt.mpr hge)

/-- A name that the build produces is recorded. -/
theorem recordOf_isSome {dirs : List String} (hp : Produces s dirs outs n) :
    (recordOf (s.writeAll fp outs) dirs n).isSome = true := by
  obtain ⟨d, hfirst, ⟨o, ho, hod, hoart⟩, -⟩ := hp
  simp only [← @holds_writeAll s fp outs] at hfirst
  obtain ⟨art, hart⟩ := Option.isSome_iff_exists.mp
    (newestIn_isSome.trans (List.find?_some hfirst))
  obtain ⟨-, -, g, hg, -⟩ := newestIn_eq_some hart
  rw [recordOf, newestArtifact_eq hfirst, hart, Option.bind_some, hg]
  rfl

/-- A build that produces its names and spares the other entries keeps the invariant. -/
theorem sound_recordBuild (h : Sound s) {key fingerprint : String} {dirs names : List String}
    (hnames : names ≠ []) (hp : ∀ n ∈ names, Produces s dirs outs n)
    (hs : SparesAll s (some key) (some fingerprint) outs) :
    Sound (recordBuild (s.writeAll (some fingerprint) outs) key fingerprint dirs names) := by
  obtain ⟨n, hn⟩ := List.exists_mem_of_ne_nil names hnames
  obtain ⟨a₀, ha₀⟩ := Option.isSome_iff_exists.mp
    (@recordOf_isSome s (some fingerprint) outs n dirs (hp n hn))
  have hne : names.filterMap (recordOf (s.writeAll (some fingerprint) outs) dirs) ≠ [] :=
    List.ne_nil_of_mem (List.mem_filterMap.mpr ⟨n, hn, ha₀⟩)
  rw [recordBuild, if_neg hne]
  -- an entry after the build is the recorded one or one of before, under another key
  have entry : ∀ k e, ((s.writeAll (some fingerprint) outs).cache.set key
      ⟨fingerprint, names.filterMap (recordOf (s.writeAll (some fingerprint) outs) dirs)⟩).get k =
        some e →
      e = ⟨fingerprint, names.filterMap (recordOf (s.writeAll (some fingerprint) outs) dirs)⟩ ∨
        s.cache.get k = some e ∧ some key ≠ some k := by
    intro k e hk
    rw [Dict.get_set, writeAll_cache] at hk
    by_cases hkey : k = key
    · rw [if_pos hkey, Option.some.injEq] at hk
      exact .inl hk.symm
    · rw [if_neg hkey] at hk
      exact .inr ⟨hk, fun heq => hkey (Option.some.inj heq).symm⟩
  refine ⟨fun p f hf => written_writeAll h hf, fun k e hk a ha => ?_, fun k e hk hpres => ?_⟩
  · rcases entry k e hk with rfl | ⟨hk, -⟩
    · obtain ⟨n, hn, ha⟩ := List.mem_filterMap.mp ha
      exact (recordOf_writeAll h (hp n hn) ha).2.1
    · exact (h.recorded k e hk a ha).trans_le clock_le_writeAll
  · rcases entry k e hk with rfl | ⟨hk, hne⟩
    · intro a ha
      obtain ⟨n, hn, ha⟩ := List.mem_filterMap.mp ha
      obtain ⟨rfl, -, hrest⟩ := recordOf_writeAll h (hp n hn) ha
      exact hrest
    · exact newest_writeAll h hs hk hne hpres

/-! ## Runs -/

theorem Turn.name_mem_members (t : Turn) : t.name ∈ t.members :=
  List.mem_map.mpr ⟨(t.name, t.pkgDir), List.mem_filter.mpr
    ⟨Dict.mem_items.mpr t.mem, decide_eq_true rfl⟩, rfl⟩

/-- A step under the condition keeps the invariant. -/
theorem sound_apply (h : Sound s) {i : ShelfStep} (hi : Orderly s i) : Sound (i.apply s) := by
  cases i with
  | turn t m =>
    rw [ShelfStep.apply, Turn.build]
    by_cases hskip : t.skips s = true
    · rwa [if_pos hskip]
    · rw [if_neg hskip]
      have hi := hi (Bool.eq_false_iff.mpr hskip)
      by_cases hok : m.ok = true
      · rw [if_pos hok] at hi ⊢
        exact sound_recordBuild h (List.ne_nil_of_mem t.name_mem_members) hi.1 hi.2
      · rw [if_neg hok] at hi ⊢
        exact sound_writeAll h hi
  | otherBuild outs => exact sound_writeAll h hi
  | delete p =>
    have keep : ∀ p' f, (s.files.erase p).get p' = some f → s.files.get p' = some f := by
      intro p' f hf
      rw [Dict.get_erase] at hf
      by_cases hp : p' = p
      · rw [if_pos hp] at hf
        exact absurd hf (by simp only [reduceCtorEq, not_false_eq_true])
      · rwa [if_neg hp] at hf
    refine ⟨fun p' f hf => h.written p' f (keep p' f hf), h.recorded, fun k e hk hpres a ha => ?_⟩
    have hpres' : e.artifacts.all (present s) = true := by
      rw [List.all_eq_true] at hpres ⊢
      intro a ha
      obtain ⟨f, hf, hrest⟩ := present_iff.mp (hpres a ha)
      exact present_iff.mpr ⟨f, keep _ f hf, hrest⟩
    obtain ⟨hname, hnew⟩ := h.newest k e hk hpres' a ha
    exact ⟨hname, fun p' f hf => hnew p' f (keep p' f hf)⟩
  | loseCache =>
    have none_get : ∀ k e, ({ s with cache := .empty } : Shelf).cache.get k ≠ some e := by
      intro k e hk
      rw [Dict.get_empty] at hk
      exact absurd hk (by simp only [reduceCtorEq, not_false_eq_true])
    exact ⟨h.written, fun k e hk => absurd hk (none_get k e), fun k e hk => absurd hk (none_get k e)⟩

/-- A history under the condition keeps the invariant. -/
theorem sound_run {is : List ShelfStep} (h : Run.Each ShelfStep.apply Orderly {} is) :
    Sound (Run.run ShelfStep.apply {} is) := by
  refine h.invariant ⟨?_, ?_, ?_⟩ fun s i _ hs hi => sound_apply hs hi
  all_goals
    intro _ _ hget
    rw [Dict.get_empty] at hget
    exact absurd hget (by simp only [reduceCtorEq, not_false_eq_true])

theorem skips_iff {t : Turn} :
    t.skips s = true ↔ t.consult = true ∧ ∃ e, s.cache.get t.key = some e ∧
      e.fingerprint = t.fp ∧ e.artifacts ≠ [] ∧ e.artifacts.all (present s) = true := by
  rw [Turn.skips, Bool.and_eq_true, cacheHit]
  refine and_congr_right fun _ => ?_
  cases s.cache.get t.key with
  | none => simp only [Option.isSome_none, Bool.false_eq_true, reduceCtorEq, false_and, exists_false]
  | some e =>
    simp only [Option.some.injEq, exists_eq_left']
    by_cases hbad : e.fingerprint ≠ t.fp ∨ e.artifacts = []
    · rw [if_pos hbad]
      refine ⟨fun h => absurd h Bool.false_ne_true, fun ⟨h₁, h₂, _⟩ => ?_⟩
      exact absurd hbad (not_or.mpr ⟨not_not.mpr h₁, h₂⟩)
    · rw [if_neg hbad]
      obtain ⟨h₁, h₂⟩ := not_or.mp hbad
      by_cases hall : e.artifacts.all (present s) = true
      · rw [if_pos hall]
        exact ⟨fun _ => ⟨not_not.mp h₁, h₂, hall⟩, fun _ => rfl⟩
      · rw [if_neg hall]
        exact ⟨fun h => absurd h Bool.false_ne_true, fun h => absurd h.2.2 hall⟩

/-- **A reused build is the one staged.** After a history under the condition, a PKGBUILD that a pass
skips has, for each of its names, an artifact of the name by a build with the fingerprint of the
pass, and this one is staged for the name. -/
theorem reused_staged {is : List ShelfStep} (h : Run.Each ShelfStep.apply Orderly {} is) {t : Turn}
    (hskip : t.skips (Run.run ShelfStep.apply {} is) = true)
    (hrec : t.Recorded (Run.run ShelfStep.apply {} is)) :
    ∀ n ∈ t.members, ∃ art f,
      (Run.run ShelfStep.apply {} is).files.get art = some f ∧ f.writer = ⟨n, some t.fp⟩ ∧
      stagedArtifact (t.build (Run.run ShelfStep.apply {} is) ⟨[], true⟩) t.pkgdest n t.pkgDir =
        .ok art := by
  intro n hn
  generalize hs : Run.run ShelfStep.apply {} is = s at *
  have hsound : Sound s := hs ▸ sound_run h
  obtain ⟨-, e, he, hfp, -, hall⟩ := skips_iff.mp hskip
  obtain ⟨a, ha, rfl, hfirst⟩ := hrec e he n hn
  obtain ⟨g, hg, hm, -⟩ := present_iff.mp (List.all_eq_true.mp hall a ha)
  obtain ⟨hname, hnew⟩ := hsound.newest _ e he hall a ha
  obtain ⟨art, hart⟩ := Option.isSome_iff_exists.mp
    (newestIn_isSome.trans (List.find?_some hfirst))
  obtain ⟨hd, hartName, f, hf, hmax⟩ := newestIn_eq_some hart
  refine ⟨art, f, hf, ?_, ?_⟩
  · rw [← hfp]
    exact hnew art f hf hd hartName (hm ▸ hmax a.artifact g hg rfl hname)
  · rw [Turn.build, if_pos hskip, stagedArtifact]
    rw [@newestArtifact_eq s a.pkgname a.artifact.1 (t.pkgdest.toList ++ [t.pkgDir]) hfirst, hart]

/-! ## Both sides of the condition -/

/-- The turn of a pass for clang, with its split package `clang-libs` configured or not. -/
def clangTurn (libs : Bool) : Turn where
  passId := "build-nonpgo"
  pkgbuildMap := .ofItems (("clang", "/src/clang") ::
    if libs then [("clang-libs", "/src/clang")] else [])
  pkgdest := some "/pkgs"
  consult := true
  pkgFingerprint _ _ := ("clang", "fp")
  name := "clang"
  pkgDir := "/src/clang"
  mem := by cases libs <;> rfl

/-- The artifact of a package at a version, in PKGDEST. -/
def clangOutput (n v : String) : Output :=
  ⟨("/pkgs", n ++ "-" ++ v ++ "-1-x86_64.pkg.tar.zst"), 7, n⟩

/-- The first build of clang, after another build of an older version, recorded. -/
def clangHistory (libs : Bool) (outs : List Output) : List ShelfStep :=
  [.otherBuild [clangOutput "clang" "21"], .turn (clangTurn libs) ⟨outs, true⟩]

def clangShelf (libs : Bool) (outs : List Output) (then_ : List ShelfStep) : Shelf :=
  Run.run ShelfStep.apply {} (clangHistory libs outs ++ then_)

/-- What is staged for a name when the turn skips its PKGBUILD, with who wrote it. -/
def stagedOnSkip (s : Shelf) (t : Turn) (n : String) : Option (Option Writer) :=
  if t.skips s then
    some ((stagedArtifact s t.pkgdest n t.pkgDir).toOption.bind fun p =>
      (s.files.get p).map ArtifactFile.writer)
  else none

/-- With nothing cached there is no entry to spare. -/
theorem sparesAll_of_empty {key : Option String} (h : s.cache.items = []) :
    SparesAll s key fp outs := by
  intro k e hk
  exact absurd (Dict.mem_items.mpr hk) (by rw [h]; exact List.not_mem_nil)

theorem reused_staged_clang :
    ∃ art f,
      (clangShelf true [clangOutput "clang" "22", clangOutput "clang-libs" "22"] []).files.get art =
        some f ∧ f.writer = ⟨"clang-libs", some "fp"⟩ ∧
      stagedArtifact ((clangTurn true).build (clangShelf true
        [clangOutput "clang" "22", clangOutput "clang-libs" "22"] []) ⟨[], true⟩)
        (some "/pkgs") "clang-libs" "/src/clang" = .ok art := by
  refine @reused_staged (clangHistory true [clangOutput "clang" "22", clangOutput "clang-libs" "22"])
    ⟨sparesAll_of_empty rfl, fun _ => ⟨fun n hn => ?_, sparesAll_of_empty rfl⟩, trivial⟩
    (clangTurn true) (by decide) ?_ "clang-libs" (by decide)
  · have hmem : (clangTurn true).members = ["clang", "clang-libs"] := by decide
    simp only [hmem, List.mem_cons, List.not_mem_nil, or_false] at hn
    rcases hn with rfl | rfl
    · exact ⟨"/pkgs", by decide, ⟨_, List.mem_cons_self, by decide⟩,
        by decide⟩
    · exact ⟨"/pkgs", by decide, ⟨_, List.mem_cons_of_mem _ List.mem_cons_self,
        by decide⟩, by decide⟩
  · unfold Turn.Recorded
    decide

/-- Skipped PKGBUILDs whose staged artifact is another build's, or missing: another build has written
a newer version since; the map has gained a name since; the build did not produce a name. -/
theorem reused_unstaged :
    stagedOnSkip (clangShelf false [clangOutput "clang" "22"]
      [.otherBuild [clangOutput "clang" "23"]]) (clangTurn false) "clang" =
        some (some ⟨"clang", none⟩) ∧
    stagedOnSkip (clangShelf false [clangOutput "clang" "22"]
      [.otherBuild [clangOutput "clang-libs" "21"]]) (clangTurn true) "clang-libs" =
        some (some ⟨"clang-libs", none⟩) ∧
    stagedOnSkip (clangShelf true [clangOutput "clang" "22"] []) (clangTurn true) "clang-libs" =
      some none := by
  decide

end Sysforge.Toolchain
