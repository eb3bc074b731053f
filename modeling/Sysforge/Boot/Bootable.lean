import Sysforge.Boot.RoundTrip
import Sysforge.Boot.SyncPlan

/-!
# Boot-entry sync keeps the machine bootable

A sync keeps the operator's entries, keeps every installed kernel bootable, gives every wanted
kernel an entry or reports it as skipped, and leaves nothing to do for a second sync. It does so
exactly when no managed entry that was edited to boot another kernel has the file name of an entry
the sync writes (`Unswapped`): such an entry is written for one kernel and deleted for the other,
and the deletes come last.
-/

namespace Sysforge.Boot

open Text

/-- Some entry of the directory boots the kernel. -/
def Boots (files : Files) (kernel : Text) : Prop :=
  ∃ e ∈ loadEntries files, bootsKernel e kernel = true

/-- What a sync from `files` to `files'` by `plan` promises. -/
structure Bootable (r : Request) (files files' : Files) (plan : SyncPlan) : Prop where
  /-- what is not sysforge's is byte-identical -/
  operator : ∀ name text, files.get name = some text → ".conf".toList <:+ name →
    isManaged (parseEntry name text) = false → files'.get name = some text
  /-- an installed kernel that some entry booted is still booted -/
  booted : ∀ k ∈ r.images, Boots files k → Boots files' k
  /-- a wanted kernel is booted or reported -/
  wanted : ∀ w ∈ r.wanted, Boots files' w.kernel ∨ w.kernel ∈ plan.skipped
  /-- no managed entry boots a missing image -/
  installed : ∀ e ∈ loadEntries files', isManaged e = true → ∀ k, bootsKernel e k = true →
    k ∈ r.images
  /-- no name is written and deleted -/
  disjoint : ∀ name ∈ plan.writes.map Prod.fst, name ∉ plan.deletes
  /-- a second plan changes nothing -/
  again : (planSync (loadEntries files') r).deletes = [] ∧
    ∀ p ∈ (planSync (loadEntries files') r).writes, files'.get p.1 = some p.2

/-- The inputs of a sync: kernels have names of files, what is wanted is installed, the template was
read from a file, and the other texts fit in a line. -/
structure Sound (r : Request) : Prop where
  images : ∀ k ∈ r.images, KernelName k
  wanted : ∀ w ∈ r.wanted, w.kernel ∈ r.images ∧ RoleName w.role ∧
    ∀ v, w.version = some v → OneLine v
  template : ∃ text, r.template.entry = parseEntry r.template.entry.filename text
  name : OneLine r.template.entry.filename ∧ ¬ ", role: ".toList <:+: r.template.entry.filename
  namePrefix : ValidPrefix r.namePrefix
  prettyName : OneLine r.prettyName

/-! ## What becomes of a kernel -/

section Fate

variable (es : List LoaderEntry) (r : Request) (k : Text)

/-- The kernel is wanted, or installed and booted by a managed entry. -/
def Target : Prop :=
  (∃ w ∈ r.wanted, w.kernel = k) ∨
    k ∈ r.images ∧ ∃ e ∈ es, isManaged e = true ∧ managedKernel e = some k

/-- An entry of the operator boots the kernel. -/
def Covered : Prop := ∃ e ∈ es, isManaged e = false ∧ bootsKernel e k = true

/-- The operator has an entry of the name that the kernel's entry gets. -/
def Taken : Prop := ∃ e ∈ es, isManaged e = false ∧ e.filename = nameFor r k

/-- A path of the kernel's entry does not exist. -/
def Unresolved : Prop :=
  ∃ path ∈ references r.template.entry r.template.kernel k, resolves r k path = false

/-- The kernel's entry is written. -/
def Written : Prop := Target es r k ∧ ¬ Covered es k ∧ ¬ Taken es r k ∧ ¬ Unresolved r k

/-- The kernel is left as it is. -/
def Skipped : Prop := Target es r k ∧ ¬ Covered es k ∧ (Taken es r k ∨ Unresolved r k)

end Fate

/-- Where a managed entry has the name of an entry that is written, it boots that entry's kernel, or
a kernel that is left as it is and that another entry still boots. -/
def Unswapped (es : List LoaderEntry) (r : Request) : Prop :=
  ∀ e ∈ es, isManaged e = true → ∀ k, Written es r k → e.filename = nameFor r k →
    managedKernel e = some k ∨ ∃ k', managedKernel e = some k' ∧ Skipped es r k' ∧
      (bootsKernel e k' = true → ∃ e' ∈ es, isManaged e' = true ∧ bootsKernel e' k' = true ∧
        ∀ k'', Written es r k'' → e'.filename ≠ nameFor r k'')

variable {es : List LoaderEntry} {r : Request} {k role n : Text} {version : Option Text}
  {e : LoaderEntry} {files files' : Files}

/-! ## The entries of a directory -/

theorem mem_loadEntries : e ∈ loadEntries files ↔
    ∃ n text, files.get n = some text ∧ ".conf".toList <:+ n ∧ e = parseEntry n text := by
  rw [loadEntries, List.mem_map]
  constructor
  · rintro ⟨⟨n, text⟩, hp, rfl⟩
    obtain ⟨hmem, hconf⟩ := List.mem_filter.mp hp
    exact ⟨n, text, Dict.mem_sorted.mp hmem, List.isSuffixOf_iff_suffix.mp hconf, rfl⟩
  · rintro ⟨n, text, hget, hconf, rfl⟩
    exact ⟨(n, text), List.mem_filter.mpr ⟨Dict.mem_sorted.mpr hget,
      List.isSuffixOf_iff_suffix.mpr hconf⟩, rfl⟩

/-- Two entries of one name are the same entry. -/
theorem eq_of_filename {e' : LoaderEntry} (he : e ∈ loadEntries files)
    (he' : e' ∈ loadEntries files) (h : e.filename = e'.filename) : e = e' := by
  obtain ⟨n, text, hget, -, rfl⟩ := mem_loadEntries.mp he
  obtain ⟨n', text', hget', -, rfl⟩ := mem_loadEntries.mp he'
  change n = n' at h
  subst h
  rw [Option.some.inj (hget.symm.trans hget')]

theorem managedKernel_of_bootsKernel (h : bootsKernel e k = true) : managedKernel e = some k := by
  have hbase : e.linuxBasename = some ("vmlinuz-".toList ++ k) := of_decide_eq_true h
  rw [managedKernel, hbase, Option.map_some,
    if_pos (List.isPrefixOf_iff_prefix.mpr (List.prefix_append _ _))]
  exact congrArg some (List.drop_left' rfl)

theorem nameFor_inj {k' : Text} (h : nameFor r k = nameFor r k') : k = k' := entryFilename_inj h

theorem roleName_of_roleAt {s : Text} (h : roleAt s = some role) : RoleName role := by
  rw [roleAt] at h
  split_ifs at h with hpre
  dsimp only at h
  split_ifs at h with hrole
  obtain rfl := Option.some.inj h
  exact ⟨hrole.1, fun c hc => List.mem_takeWhile_imp hc⟩

theorem roleName_of_scanTemplate {s : Text} {p : Text × Text} (h : scanTemplate s = some p) :
    RoleName p.2 := by
  induction s generalizing p with
  | nil => cases h
  | cons c s ih =>
    rw [scanTemplate] at h
    cases hrole : roleAt (c :: s) with
    | some role =>
      rw [hrole] at h
      obtain rfl := Option.some.inj h
      exact roleName_of_roleAt hrole
    | none =>
      rw [hrole] at h
      dsimp only at h
      split_ifs at h
      obtain ⟨q, hq, rfl⟩ := Option.map_eq_some_iff.mp h
      exact @ih q hq

theorem roleName_of_header {header : Option Text} {m : ManagedMeta}
    (h : parseManagedHeader header = some m) : RoleName m.role := by
  cases header with
  | none => cases h
  | some line =>
    rw [parseManagedHeader] at h
    split_ifs at h
    obtain ⟨p, hp, rfl⟩ := Option.map_eq_some_iff.mp h
    exact roleName_of_scanTemplate hp

/-! ## The targets -/

/-- What the wanted kernels make of the role and the version of one kernel. -/
def wantedFor (ws : List WantedKernel) (k : Text) (b : Option (Text × Option Text)) :
    Option (Text × Option Text) :=
  ws.foldl (fun b w => if w.kernel = k then
    some (w.role, (truthy w.version).or (b.bind Prod.snd)) else b) b

theorem get_foldl_wantedTarget (ws : List WantedKernel) (d : Dict Text (Text × Option Text))
    (k : Text) : (ws.foldl wantedTarget d).get k = wantedFor ws k (d.get k) := by
  induction ws generalizing d with
  | nil => rfl
  | cons w ws ih =>
    rw [List.foldl_cons, ih, wantedTarget, Dict.get_set, wantedFor, wantedFor, List.foldl_cons]
    by_cases hk : k = w.kernel
    · rw [if_pos hk, if_pos hk.symm, hk]
    · rw [if_neg hk, if_neg fun h => hk h.symm]

/-- A kernel is not wanted, or its wanted version is fixed, or it keeps the version it has. -/
theorem wantedFor_cases (ws : List WantedKernel) (k : Text) :
    ((∀ w ∈ ws, w.kernel ≠ k) ∧ ∀ b, wantedFor ws k b = b) ∨
      ∃ w ∈ ws, w.kernel = k ∧
        ((∃ w' ∈ ws, ∃ v, w'.version = some v ∧ ∀ b, wantedFor ws k b = some (w.role, some v)) ∨
          ∀ b, wantedFor ws k b = some (w.role, b.bind Prod.snd)) := by
  induction ws with
  | nil => exact .inl ⟨nofun, fun b => rfl⟩
  | cons w ws ih =>
    have hcons : ∀ b, wantedFor (w :: ws) k b = wantedFor ws k (if w.kernel = k then
        some (w.role, (truthy w.version).or (b.bind Prod.snd)) else b) := fun b => rfl
    by_cases hw : w.kernel = k
    · simp only [hcons, if_pos hw]
      right
      obtain ⟨-, hid⟩ | ⟨w₁, hw₁, hk₁, ⟨w₂, hw₂, v, hv, hconst⟩ | hkeep⟩ := ih
      · simp only [hid]
        cases hv : truthy w.version with
        | some v =>
          exact ⟨w, List.mem_cons_self, hw,
            .inl ⟨w, List.mem_cons_self, v, (truthy_eq_some hv).1, fun b => rfl⟩⟩
        | none => exact ⟨w, List.mem_cons_self, hw, .inr fun b => rfl⟩
      · exact ⟨w₁, List.mem_cons_of_mem _ hw₁, hk₁,
          .inl ⟨w₂, List.mem_cons_of_mem _ hw₂, v, hv, fun b => hconst _⟩⟩
      · simp only [hkeep, Option.bind_some]
        cases hv : truthy w.version with
        | some v =>
          exact ⟨w₁, List.mem_cons_of_mem _ hw₁, hk₁,
            .inl ⟨w, List.mem_cons_self, v, (truthy_eq_some hv).1, fun b => rfl⟩⟩
        | none => exact ⟨w₁, List.mem_cons_of_mem _ hw₁, hk₁, .inr fun b => rfl⟩
    · simp only [hcons, if_neg hw]
      obtain ⟨hno, hid⟩ | ⟨w₁, hw₁, hk₁, ⟨w₂, hw₂, v, hv, hconst⟩ | hkeep⟩ := ih
      · refine .inl ⟨fun w' hw' => ?_, hid⟩
        rcases List.mem_cons.mp hw' with rfl | hw'
        · exact hw
        · exact hno w' hw'
      · exact .inr ⟨w₁, List.mem_cons_of_mem _ hw₁, hk₁,
          .inl ⟨w₂, List.mem_cons_of_mem _ hw₂, v, hv, hconst⟩⟩
      · exact .inr ⟨w₁, List.mem_cons_of_mem _ hw₁, hk₁, .inr hkeep⟩

/-- The targets that the managed entries give. -/
def managedTargets (es : List LoaderEntry) (images : List Text) : Dict Text (Text × Option Text) :=
  (es.filter isManaged).foldl (managedTarget images) .empty

theorem get_managedTarget (images : List Text) (d : Dict Text (Text × Option Text))
    (hm : isManaged e = true) (k : Text) :
    (managedKernel e ≠ some k ∨ k ∉ images) ∧ (managedTarget images d e).get k = d.get k ∨
      managedKernel e = some k ∧ k ∈ images ∧ ∃ m, parseManagedHeader e.header = some m ∧
        (managedTarget images d e).get k = some (m.role, e.get "version") := by
  rw [isManaged, Bool.and_eq_true] at hm
  obtain ⟨m, hmeta⟩ := Option.isSome_iff_exists.mp hm.2
  rw [managedTarget, hmeta]
  cases hk : managedKernel e with
  | none => exact .inl ⟨.inl (Option.some_ne_none k).symm, rfl⟩
  | some k' =>
    dsimp only
    by_cases hin : k' ∈ images
    · rw [if_pos hin, Dict.get_set]
      by_cases hkk : k = k'
      · subst hkk
        exact .inr ⟨rfl, hin, m, rfl, if_pos rfl⟩
      · exact .inl ⟨.inl fun h => hkk (Option.some.inj h).symm, if_neg hkk⟩
    · rw [if_neg hin]
      by_cases hkk : k = k'
      · exact .inl ⟨.inr (hkk ▸ hin), rfl⟩
      · exact .inl ⟨.inl fun h => hkk (Option.some.inj h).symm, rfl⟩

/-- The target of a kernel comes from a managed entry that boots it, if there is one. -/
theorem get_managedTargets (es : List LoaderEntry) (images : List Text) (k : Text) :
    (∀ e ∈ es, isManaged e = true → managedKernel e = some k → k ∉ images) ∧
        (managedTargets es images).get k = none ∨
      ∃ e ∈ es, isManaged e = true ∧ managedKernel e = some k ∧ k ∈ images ∧
        ∃ m, parseManagedHeader e.header = some m ∧
          (managedTargets es images).get k = some (m.role, e.get "version") := by
  rw [managedTargets]
  induction es using List.reverseRecOn with
  | nil => exact .inl ⟨nofun, rfl⟩
  | append_singleton es e ih =>
    by_cases hm : isManaged e = true
    · rw [List.filter_append, List.filter_cons_of_pos hm, List.filter_nil, List.foldl_append,
        List.foldl_cons, List.foldl_nil]
      obtain ⟨hno, hget⟩ | ⟨hk, hin, m, hmeta, hget⟩ := get_managedTarget images
        ((es.filter isManaged).foldl (managedTarget images) .empty) hm k
      · rw [hget]
        obtain ⟨hall, hnone⟩ | ⟨e', he', hrest⟩ := ih
        · refine .inl ⟨fun e' he' hm' hk' hin => ?_, hnone⟩
          rcases List.mem_append.mp he' with he' | he'
          · exact hall e' he' hm' hk' hin
          · rw [List.mem_singleton.mp he'] at hk'
            exact hno.elim (fun h => h hk') fun h => h hin
        · exact .inr ⟨e', List.mem_append_left _ he', hrest⟩
      · exact .inr ⟨e, List.mem_append_right _ (List.mem_singleton_self e), hm, hk, hin, m, hmeta,
          hget⟩
    · rw [List.filter_append, List.filter_cons_of_neg hm, List.filter_nil, List.append_nil]
      obtain ⟨hall, hnone⟩ | ⟨e', he', hrest⟩ := ih
      · refine .inl ⟨fun e' he' hm' hk' hin => ?_, hnone⟩
        rcases List.mem_append.mp he' with he' | he'
        · exact hall e' he' hm' hk' hin
        · exact hm (List.mem_singleton.mp he' ▸ hm')
      · exact .inr ⟨e', List.mem_append_left _ he', hrest⟩

theorem get_targets (es : List LoaderEntry) (r : Request) (k : Text) :
    (targets es r).get k = wantedFor r.wanted k ((managedTargets es r.images).get k) :=
  get_foldl_wantedTarget _ _ _

theorem target_iff : Target es r k ↔ ∃ p, (targets es r).get k = some p := by
  rw [get_targets]
  obtain ⟨hno, hid⟩ | ⟨w, hw, hk, hcase⟩ := wantedFor_cases r.wanted k
  · rw [hid]
    obtain ⟨hall, hnone⟩ | ⟨e, he, hm, hke, hin, m, -, hget⟩ := get_managedTargets es r.images k
    · rw [hnone]
      refine iff_of_false ?_ nofun
      rintro (⟨w, hw, hk⟩ | ⟨hin, e, he, hm, hke⟩)
      · exact hno w hw hk
      · exact hall e he hm hke hin
    · exact iff_of_true (.inr ⟨hin, e, he, hm, hke⟩) ⟨_, hget⟩
  · refine iff_of_true (.inl ⟨w, hw, hk⟩) ?_
    obtain ⟨w', -, v, -, hconst⟩ | hkeep := hcase
    · exact ⟨_, hconst _⟩
    · exact ⟨_, hkeep _⟩

/-! ## The plan -/

section Plan

variable (hs : Sound r)
include hs

theorem Sound.legible : Legible r.template.entry := by
  obtain ⟨text, htext⟩ := hs.template
  refine ⟨fun p hp => ?_, hs.name.1, hs.name.2⟩
  rw [htext] at hp
  exact clean_of_mem_lines hp

theorem Sound.validPrefix : ValidPrefix (effectivePrefix r.template r.namePrefix) := by
  rw [effectivePrefix]
  split_ifs
  · exact nofun
  · exact hs.namePrefix

theorem Target.mem_images (h : Target es r k) : k ∈ r.images := by
  obtain ⟨w, hw, rfl⟩ | ⟨hin, -⟩ := h
  · exact (hs.wanted w hw).1
  · exact hin

omit hs in
theorem oneLine_roleTitle (hk : KernelName k) (role : Text) : OneLine (roleTitle role k) := by
  rw [roleTitle]
  split_ifs
  · decide
  · decide
  · decide
  · decide
  · exact OneLine.append (by decide) hk.oneLine

theorem oneLine_titleFor (hk : KernelName k) (role : Text) :
    OneLine (titleFor r.prettyName role k) :=
  ((hs.prettyName.append (by decide)).append (oneLine_roleTitle hk role)).append (by decide)

/-- A target's entry can be rendered. -/
theorem renderable_of_targets (hget : (targets (loadEntries files) r).get k = some (role, version)) :
    Renderable k role (titleFor r.prettyName role k) version := by
  have hk : KernelName k := hs.images k ((target_iff.mpr ⟨_, hget⟩).mem_images hs)
  have hold : ∀ p, (managedTargets (loadEntries files) r.images).get k = some p →
      RoleName p.1 ∧ ∀ v, p.2 = some v → OneLine v := by
    intro p hp
    obtain ⟨-, hnone⟩ | ⟨e, he, -, -, -, m, hmeta, hsome⟩ :=
      get_managedTargets (loadEntries files) r.images k
    · exact absurd (hnone.symm.trans hp) nofun
    · obtain rfl := Option.some.inj (hsome.symm.trans hp)
      refine ⟨roleName_of_header hmeta, fun v hv => ?_⟩
      obtain ⟨n, text, -, -, rfl⟩ := mem_loadEntries.mp he
      exact (clean_of_mem_lines (LoaderEntry.mem_of_get hv)).1
  suffices h : RoleName role ∧ ∀ v, version = some v → OneLine v from
    ⟨hk, h.1, oneLine_titleFor hs hk role, h.2⟩
  rw [get_targets] at hget
  obtain ⟨-, hid⟩ | ⟨w, hw, -, ⟨w', hw', v, hv, hconst⟩ | hkeep⟩ := wantedFor_cases r.wanted k
  · exact hold _ ((hid _).symm.trans hget)
  · obtain ⟨rfl, rfl⟩ := Prod.mk.inj (Option.some.inj ((hconst _).symm.trans hget))
    refine ⟨(hs.wanted w hw).2.1, fun x hx => ?_⟩
    exact Option.some.inj hx ▸ (hs.wanted w' hw').2.2 v hv
  · obtain ⟨rfl, hver⟩ := Prod.mk.inj (Option.some.inj ((hkeep _).symm.trans hget))
    refine ⟨(hs.wanted w hw).2.1, fun x hx => ?_⟩
    rw [hx] at hver
    obtain ⟨p, hp, hpx⟩ := Option.bind_eq_some_iff.mp hver
    exact (hold p hp).2 x hpx

theorem missingReferences_eq_nil (h : Renderable k role (titleFor r.prettyName role k) version) :
    missingReferences r (renderFor r k role version) k = [] ↔ ¬ Unresolved r k := by
  rw [missingReferences, renderFor, references_renderEntry hs.legible h, List.filter_eq_nil_iff,
    Unresolved, not_exists]
  refine forall_congr' fun path => ?_
  rw [not_and, Bool.not_eq_true', Bool.not_eq_false]

omit hs in
theorem covered_iff : ((es.filter fun e => !isManaged e).any fun e => bootsKernel e k) = true ↔
    Covered es k := by
  rw [List.any_eq_true, Covered]
  refine exists_congr fun e => ?_
  rw [List.mem_filter, Bool.not_eq_true', and_assoc]

omit hs in
theorem taken_iff : (es.any fun e => e.filename = nameFor r k && !isManaged e) = true ↔
    Taken es r k := by
  rw [List.any_eq_true, Taken]
  refine exists_congr fun e => ?_
  rw [Bool.and_eq_true, decide_eq_true_iff, Bool.not_eq_true', @and_comm _ (isManaged e = false)]

omit hs in
theorem mem_ours : n ∈ ((es.filter isManaged).filter fun e => managedKernel e = some k).map
    (·.filename) ↔ ∃ e ∈ es, isManaged e = true ∧ managedKernel e = some k ∧ e.filename = n := by
  rw [List.mem_map]
  refine exists_congr fun e => ?_
  rw [List.mem_filter, List.mem_filter, decide_eq_true_iff, and_assoc, and_assoc]

/-- What the loop does with one target. -/
theorem planKernel_cases (ht : Target es r k)
    (h : Renderable k role (titleFor r.prettyName role k) version) :
    Covered es k ∧ (planKernel es r k role version).writes = [] ∧
        (planKernel es r k role version).skipped = [] ∧
        (∀ n, n ∈ (planKernel es r k role version).deletes ↔
          ∃ e ∈ es, isManaged e = true ∧ managedKernel e = some k ∧ e.filename = n) ∨
      Skipped es r k ∧ (planKernel es r k role version).writes = [] ∧
        (planKernel es r k role version).skipped = [k] ∧
        (planKernel es r k role version).deletes = [] ∨
      Written es r k ∧
        (planKernel es r k role version).writes = [(nameFor r k, renderFor r k role version)] ∧
        (planKernel es r k role version).skipped = [] ∧
        (∀ n, n ∈ (planKernel es r k role version).deletes ↔
          (∃ e ∈ es, isManaged e = true ∧ managedKernel e = some k ∧ e.filename = n) ∧
            n ≠ nameFor r k) := by
  have hmiss := missingReferences_eq_nil hs h
  by_cases hcov : Covered es k
  · rw [planKernel, if_pos (covered_iff.mpr hcov)]
    exact .inl ⟨hcov, rfl, rfl, fun n => mem_ours⟩
  right
  rw [planKernel, if_neg fun h => hcov (covered_iff.mp h)]
  by_cases htaken : Taken es r k
  · rw [if_pos (taken_iff.mpr htaken)]
    exact .inl ⟨⟨ht, hcov, .inl htaken⟩, rfl, rfl, rfl⟩
  rw [if_neg fun h => htaken (taken_iff.mp h)]
  by_cases hun : Unresolved r k
  · rw [if_pos fun h => hmiss.mp h hun]
    exact .inl ⟨⟨ht, hcov, .inr hun⟩, rfl, rfl, rfl⟩
  · rw [if_neg fun h => h (hmiss.mpr hun)]
    refine .inr ⟨⟨ht, hcov, htaken, hun⟩, rfl, rfl, fun n => ?_⟩
    rw [List.mem_filter, mem_ours, decide_eq_true_iff]

omit hs in
theorem Written.not_skipped (h : Written es r k) : ¬ Skipped es r k := fun hsk =>
  hsk.2.2.elim h.2.2.1 h.2.2.2

/-- A managed entry that the plan deletes: its image is not installed, the operator boots its
kernel, or its kernel's entry is written under another name. -/
def Dropped (es : List LoaderEntry) (r : Request) (e : LoaderEntry) : Prop :=
  (∀ k ∈ r.images, managedKernel e ≠ some k) ∨
    ∃ k, Target es r k ∧ managedKernel e = some k ∧
      (Covered es k ∨ Written es r k ∧ e.filename ≠ nameFor r k)

variable {files : Files}

theorem mem_writes {p : Text × Text} : p ∈ (planSync (loadEntries files) r).writes ↔
    ∃ k role version, (targets (loadEntries files) r).get k = some (role, version) ∧
      Written (loadEntries files) r k ∧ p = (nameFor r k, renderFor r k role version) := by
  rw [planSync, List.flatMap_map, List.mem_flatMap]
  constructor
  · rintro ⟨⟨k, role, version⟩, hmem, hp⟩
    have hget := Dict.mem_sorted.mp hmem
    refine ⟨k, role, version, hget, ?_⟩
    obtain ⟨-, hw, -⟩ | ⟨-, hw, -⟩ | ⟨hwr, hw, -⟩ := planKernel_cases hs (target_iff.mpr ⟨_, hget⟩)
      (renderable_of_targets hs hget)
    · exact absurd (hw ▸ hp) List.not_mem_nil
    · exact absurd (hw ▸ hp) List.not_mem_nil
    · exact ⟨hwr, List.mem_singleton.mp (hw ▸ hp)⟩
  · rintro ⟨k, role, version, hget, hwr, rfl⟩
    refine ⟨(k, role, version), Dict.mem_sorted.mpr hget, ?_⟩
    obtain ⟨hcov, -⟩ | ⟨hsk, -⟩ | ⟨-, hw, -⟩ := planKernel_cases hs (target_iff.mpr ⟨_, hget⟩)
      (renderable_of_targets hs hget)
    · exact absurd hcov hwr.2.1
    · exact absurd hsk hwr.not_skipped
    · exact hw ▸ List.mem_singleton_self _

theorem mem_writes_names : n ∈ (planSync (loadEntries files) r).writes.map Prod.fst ↔
    ∃ k, Written (loadEntries files) r k ∧ n = nameFor r k := by
  rw [List.mem_map]
  constructor
  · rintro ⟨p, hp, rfl⟩
    obtain ⟨k, role, version, -, hwr, rfl⟩ := (mem_writes hs).mp hp
    exact ⟨k, hwr, rfl⟩
  · rintro ⟨k, hwr, rfl⟩
    obtain ⟨⟨role, version⟩, hget⟩ := target_iff.mp hwr.1
    exact ⟨_, (mem_writes hs).mpr ⟨k, role, version, hget, hwr, rfl⟩, rfl⟩

theorem mem_skipped : k ∈ (planSync (loadEntries files) r).skipped ↔
    Skipped (loadEntries files) r k := by
  rw [planSync]
  dsimp only
  rw [List.flatMap_map, List.mem_flatMap]
  constructor
  · rintro ⟨⟨k', role, version⟩, hmem, hp⟩
    have hget := Dict.mem_sorted.mp hmem
    obtain ⟨-, -, hsk, -⟩ | ⟨hskip, -, hsk, -⟩ | ⟨-, -, hsk, -⟩ :=
      planKernel_cases hs (target_iff.mpr ⟨_, hget⟩) (renderable_of_targets hs hget)
    · exact absurd (hsk ▸ hp) List.not_mem_nil
    · exact List.mem_singleton.mp (hsk ▸ hp) ▸ hskip
    · exact absurd (hsk ▸ hp) List.not_mem_nil
  · intro hskip
    obtain ⟨⟨role, version⟩, hget⟩ := target_iff.mp hskip.1
    refine ⟨(k, role, version), Dict.mem_sorted.mpr hget, ?_⟩
    obtain ⟨hcov, -⟩ | ⟨-, -, hsk, -⟩ | ⟨hwr, -⟩ := planKernel_cases hs
      (target_iff.mpr ⟨_, hget⟩) (renderable_of_targets hs hget)
    · exact absurd hcov hskip.2.1
    · exact hsk ▸ List.mem_singleton_self _
    · exact absurd hskip hwr.not_skipped

omit hs in
theorem mem_planPrune : n ∈ planPrune es r.images ↔
    ∃ e ∈ es, isManaged e = true ∧ e.filename = n ∧ ∀ k ∈ r.images, managedKernel e ≠ some k := by
  rw [planPrune, List.mem_map]
  refine exists_congr fun e => ?_
  have himg : ((managedKernel e).all fun k => k ∉ r.images) = true ↔
      ∀ k ∈ r.images, managedKernel e ≠ some k := by
    cases managedKernel e with
    | none => exact iff_of_true rfl fun k hk => nofun
    | some k =>
      rw [Option.all_some, decide_eq_true_iff]
      exact ⟨fun h k' hk' he => h (Option.some.inj he ▸ hk'), fun h hk => h k hk rfl⟩
  rw [List.mem_filter, Bool.and_eq_true, himg]
  tauto

theorem mem_deletes : n ∈ (planSync (loadEntries files) r).deletes ↔
    ∃ e ∈ loadEntries files, isManaged e = true ∧ e.filename = n ∧
      Dropped (loadEntries files) r e := by
  rw [planSync, List.mem_eraseDups, List.mem_append, mem_planPrune, List.flatMap_map,
    List.mem_flatMap]
  constructor
  · rintro (⟨e, he, hm, hn, hno⟩ | ⟨⟨k, role, version⟩, hmem, hp⟩)
    · exact ⟨e, he, hm, hn, .inl hno⟩
    · have hget := Dict.mem_sorted.mp hmem
      have ht : Target (loadEntries files) r k := target_iff.mpr ⟨_, hget⟩
      obtain ⟨hcov, -, -, hdel⟩ | ⟨-, -, -, hdel⟩ | ⟨hwr, -, -, hdel⟩ :=
        planKernel_cases hs ht (renderable_of_targets hs hget)
      · obtain ⟨e, he, hm, hk, hn⟩ := (hdel n).mp hp
        exact ⟨e, he, hm, hn, .inr ⟨k, ht, hk, .inl hcov⟩⟩
      · exact absurd (hdel ▸ hp) List.not_mem_nil
      · obtain ⟨⟨e, he, hm, hk, hn⟩, hne⟩ := (hdel n).mp hp
        exact ⟨e, he, hm, hn, .inr ⟨k, ht, hk, .inr ⟨hwr, hn ▸ hne⟩⟩⟩
  · rintro ⟨e, he, hm, hn, hno | ⟨k, ht, hk, hwhy⟩⟩
    · exact .inl ⟨e, he, hm, hn, hno⟩
    · obtain ⟨⟨role, version⟩, hget⟩ := target_iff.mp ht
      refine .inr ⟨(k, role, version), Dict.mem_sorted.mpr hget, ?_⟩
      obtain ⟨hcov, -, -, hdel⟩ | ⟨hskip, -, -, hdel⟩ | ⟨hwr, -, -, hdel⟩ :=
        planKernel_cases hs ht (renderable_of_targets hs hget)
      · exact (hdel n).mpr ⟨e, he, hm, hk, hn⟩
      · obtain hcov | ⟨hwr, -⟩ := hwhy
        · exact absurd hcov hskip.2.1
        · exact absurd hskip hwr.not_skipped
      · obtain hcov | ⟨-, hne⟩ := hwhy
        · exact absurd hcov hwr.2.1
        · exact (hdel n).mpr ⟨⟨e, he, hm, hk, hn⟩, hn ▸ hne⟩

end Plan

/-! ## The directory after the sync -/

/-- The directory after the writes and the deletes. -/
def synced (files : Files) (plan : SyncPlan) : Files :=
  plan.deletes.foldl (fun d name => d.erase name)
    (plan.writes.foldl (fun d p => d.set p.1 p.2) files)

section Applied

variable (hs : Sound r)
include hs

theorem filename_of_mem_deletes (h : n ∈ (planSync (loadEntries files) r).deletes) :
    ∃ text, files.get n = some text ∧ isManaged (parseEntry n text) = true := by
  obtain ⟨e, he, hm, rfl, -⟩ := (mem_deletes hs).mp h
  obtain ⟨n, text, hget, -, rfl⟩ := mem_loadEntries.mp he
  exact ⟨text, hget, hm⟩

omit hs in
theorem Written.free (h : Written (loadEntries files) r k) {text : Text}
    (hget : files.get (nameFor r k) = some text) :
    isManaged (parseEntry (nameFor r k) text) = true := by
  by_contra hm
  exact h.2.2.1 ⟨_, mem_loadEntries.mpr ⟨_, text, hget, conf_suffix_entryFilename, rfl⟩,
    Bool.eq_false_iff.mpr hm, rfl⟩

/-- The ownership checks pass. -/
theorem applyPlan_eq : applyPlan (planSync (loadEntries files) r) false files =
    .ok ([], synced files (planSync (loadEntries files) r)) := by
  have hdel : (planSync (loadEntries files) r).deletes.find? (ownedByOperator files) = none := by
    refine List.find?_eq_none.mpr fun n hn hown => ?_
    obtain ⟨text, hget, hm⟩ := filename_of_mem_deletes hs hn
    rw [ownedByOperator, hget, Option.any_some, hm] at hown
    cases hown
  have hwr : ((planSync (loadEntries files) r).writes.map Prod.fst).find?
      (ownedByOperator files) = none := by
    refine List.find?_eq_none.mpr fun n hn hown => ?_
    obtain ⟨k, hk, rfl⟩ := (mem_writes_names hs).mp hn
    rw [ownedByOperator] at hown
    cases hget : files.get (nameFor r k) with
    | none =>
      rw [hget] at hown
      cases hown
    | some text =>
      rw [hget, Option.any_some, hk.free hget] at hown
      cases hown
  rw [applyPlan, hdel]
  dsimp only
  rw [hwr]
  rfl

/-- A file after the sync. -/
theorem get_synced : (synced files (planSync (loadEntries files) r)).get n =
      none ∧ n ∈ (planSync (loadEntries files) r).deletes ∨
    n ∉ (planSync (loadEntries files) r).deletes ∧
      ((∃ k role version, (targets (loadEntries files) r).get k = some (role, version) ∧
          Written (loadEntries files) r k ∧ n = nameFor r k ∧
          (synced files (planSync (loadEntries files) r)).get n =
            some (renderFor r k role version)) ∨
        (∀ k, Written (loadEntries files) r k → n ≠ nameFor r k) ∧
          (synced files (planSync (loadEntries files) r)).get n = files.get n) := by
  rw [synced, Dict.get_foldl_erase]
  by_cases hn : n ∈ (planSync (loadEntries files) r).deletes
  · exact .inl ⟨if_pos hn, hn⟩
  rw [if_neg hn]
  refine .inr ⟨hn, ?_⟩
  obtain ⟨hno, hget⟩ | ⟨text, hmem, hget⟩ :=
    Dict.get_foldl_set (planSync (loadEntries files) r).writes files n
  · exact .inr ⟨fun k hk h => hno ((mem_writes_names hs).mpr ⟨k, hk, h⟩), hget⟩
  · obtain ⟨k, role, version, ht, hk, hp⟩ := (mem_writes hs).mp hmem
    obtain ⟨rfl, rfl⟩ := Prod.mk.inj hp
    exact .inl ⟨k, role, version, ht, hk, rfl, hget⟩

/-- An entry after the sync is one that was written, or one that was there and is left alone. -/
theorem mem_synced : e ∈ loadEntries (synced files (planSync (loadEntries files) r)) ↔
    (∃ k role version, (targets (loadEntries files) r).get k = some (role, version) ∧
        Written (loadEntries files) r k ∧
        nameFor r k ∉ (planSync (loadEntries files) r).deletes ∧
        e = parseEntry (nameFor r k) (renderFor r k role version)) ∨
      e ∈ loadEntries files ∧ e.filename ∉ (planSync (loadEntries files) r).deletes ∧
        ∀ k, Written (loadEntries files) r k → e.filename ≠ nameFor r k := by
  rw [mem_loadEntries]
  constructor
  · rintro ⟨n, text, hget, hconf, rfl⟩
    obtain ⟨hnone, -⟩ | ⟨hn, ⟨k, role, version, ht, hk, rfl, hsome⟩ | ⟨hno, hsame⟩⟩ :=
      @get_synced r n files hs
    · exact absurd (hnone.symm.trans hget) nofun
    · obtain rfl := Option.some.inj (hsome.symm.trans hget)
      exact .inl ⟨k, role, version, ht, hk, hn, rfl⟩
    · exact .inr ⟨mem_loadEntries.mpr ⟨n, text, hsame ▸ hget, hconf, rfl⟩, hn, hno⟩
  · rintro (⟨k, role, version, ht, hk, hn, rfl⟩ | ⟨he, hn, hno⟩)
    · refine ⟨nameFor r k, renderFor r k role version, ?_, conf_suffix_entryFilename, rfl⟩
      obtain ⟨-, hdel⟩ | ⟨-, ⟨k', role', version', ht', -, hname, hsome⟩ | ⟨hno, -⟩⟩ :=
        @get_synced r (nameFor r k) files hs
      · exact absurd hdel hn
      · obtain rfl := nameFor_inj hname
        obtain ⟨rfl, rfl⟩ := Prod.mk.inj (Option.some.inj (ht'.symm.trans ht))
        exact hsome
      · exact absurd rfl (hno k hk)
    · obtain ⟨n, text, hget, hconf, rfl⟩ := mem_loadEntries.mp he
      refine ⟨n, text, ?_, hconf, rfl⟩
      obtain ⟨-, hdel⟩ | ⟨-, ⟨k, role, version, -, hk, hname, -⟩ | ⟨-, hsame⟩⟩ :=
        @get_synced r n files hs
      · exact absurd hdel hn
      · exact absurd hname (hno k hk)
      · exact hsame.trans hget

/-- The entry of the operator is left alone. -/
theorem operator_kept (he : e ∈ loadEntries files) (hm : isManaged e = false) :
    e.filename ∉ (planSync (loadEntries files) r).deletes ∧
      ∀ k, Written (loadEntries files) r k → e.filename ≠ nameFor r k := by
  refine ⟨fun hdel => ?_, fun k hk hname => hk.2.2.1 ⟨e, he, hm, hname⟩⟩
  obtain ⟨e', he', hm', hname, -⟩ := (mem_deletes hs).mp hdel
  rw [eq_of_filename he' he hname, hm] at hm'
  cases hm'

/-- What the written entry of a kernel is. -/
theorem written_entry (ht : (targets (loadEntries files) r).get k = some (role, version)) :
    isManaged (parseEntry (nameFor r k) (renderFor r k role version)) = true ∧
      managedKernel (parseEntry (nameFor r k) (renderFor r k role version)) = some k ∧
      ∀ k', bootsKernel (parseEntry (nameFor r k) (renderFor r k role version)) k' = true ↔
        k' = k :=
  have h := renderable_of_targets hs ht
  ⟨isManaged_renderEntry hs.legible h hs.validPrefix, managedKernel_renderEntry hs.legible h,
    fun _ => bootsKernel_renderEntry hs.legible h⟩

end Applied

/-! ## A second plan -/

section Again

variable (hs : Sound r)
include hs

theorem mem_synced_of_operator (he : e ∈ loadEntries files) (hm : isManaged e = false) :
    e ∈ loadEntries (synced files (planSync (loadEntries files) r)) :=
  (mem_synced hs).mpr (.inr ⟨he, operator_kept hs he hm⟩)

theorem operator_of_mem_synced
    (he : e ∈ loadEntries (synced files (planSync (loadEntries files) r)))
    (hm : isManaged e = false) : e ∈ loadEntries files := by
  obtain ⟨k, role, version, ht, -, -, rfl⟩ | ⟨he, -⟩ := (mem_synced hs).mp he
  · exact absurd ((written_entry hs ht).1.symm.trans hm) nofun
  · exact he

theorem covered_synced :
    Covered (loadEntries (synced files (planSync (loadEntries files) r))) k ↔
      Covered (loadEntries files) k :=
  ⟨fun ⟨e, he, hm, hb⟩ => ⟨e, operator_of_mem_synced hs he hm, hm, hb⟩,
    fun ⟨e, he, hm, hb⟩ => ⟨e, mem_synced_of_operator hs he hm, hm, hb⟩⟩

theorem taken_synced :
    Taken (loadEntries (synced files (planSync (loadEntries files) r))) r k ↔
      Taken (loadEntries files) r k :=
  ⟨fun ⟨e, he, hm, hb⟩ => ⟨e, operator_of_mem_synced hs he hm, hm, hb⟩,
    fun ⟨e, he, hm, hb⟩ => ⟨e, mem_synced_of_operator hs he hm, hm, hb⟩⟩

theorem target_of_synced
    (h : Target (loadEntries (synced files (planSync (loadEntries files) r))) r k) :
    Target (loadEntries files) r k := by
  obtain hw | ⟨hin, e, he, hm, hk⟩ := h
  · exact .inl hw
  · obtain ⟨k', role, version, ht, hwr, -, rfl⟩ | ⟨he, -⟩ := (mem_synced hs).mp he
    · obtain rfl := Option.some.inj ((written_entry hs ht).2.1.symm.trans hk)
      exact hwr.1
    · exact .inr ⟨hin, e, he, hm, hk⟩

theorem written_of_synced
    (h : Written (loadEntries (synced files (planSync (loadEntries files) r))) r k) :
    Written (loadEntries files) r k :=
  ⟨target_of_synced hs h.1, fun hc => h.2.1 ((covered_synced hs).mpr hc),
    fun ht => h.2.2.1 ((taken_synced hs).mpr ht), h.2.2.2⟩

/-- The only managed entry left of a kernel whose entry was written is that entry. -/
theorem eq_written (he : e ∈ loadEntries (synced files (planSync (loadEntries files) r)))
    (hm : isManaged e = true) (hk : managedKernel e = some k)
    (hwr : Written (loadEntries files) r k) :
    ∃ role version, (targets (loadEntries files) r).get k = some (role, version) ∧
      e = parseEntry (nameFor r k) (renderFor r k role version) := by
  obtain ⟨k', role, version, ht, -, -, rfl⟩ | ⟨he, hn, hno⟩ := (mem_synced hs).mp he
  · obtain rfl := Option.some.inj ((written_entry hs ht).2.1.symm.trans hk)
    exact ⟨role, version, ht, rfl⟩
  · refine absurd ((mem_deletes hs).mpr ⟨e, he, hm, rfl, .inr ⟨k, hwr.1, hk, .inr ⟨hwr, ?_⟩⟩⟩) hn
    exact hno k hwr

theorem deletes_synced :
    (planSync (loadEntries (synced files (planSync (loadEntries files) r))) r).deletes = [] := by
  refine List.eq_nil_iff_forall_not_mem.mpr fun n hn => ?_
  obtain ⟨e, he, hm, -, hdrop⟩ := (mem_deletes hs).mp hn
  obtain hno | ⟨k, ht, hk, hwhy⟩ := hdrop
  · obtain ⟨k, role, version, ht, hwr, -, rfl⟩ | ⟨he, hn, -⟩ := (mem_synced hs).mp he
    · exact hno k (hwr.1.mem_images hs) (written_entry hs ht).2.1
    · exact hn ((mem_deletes hs).mpr ⟨e, he, hm, rfl, .inl hno⟩)
  · obtain hcov | ⟨hwr, hname⟩ := hwhy
    · have hcov := (covered_synced hs).mp hcov
      obtain ⟨k', role, version, ht', hwr, -, rfl⟩ | ⟨he, hn, -⟩ := (mem_synced hs).mp he
      · obtain rfl := Option.some.inj ((written_entry hs ht').2.1.symm.trans hk)
        exact hwr.2.1 hcov
      · exact hn ((mem_deletes hs).mpr
          ⟨e, he, hm, rfl, .inr ⟨k, target_of_synced hs ht, hk, .inl hcov⟩⟩)
    · obtain ⟨role, version, -, rfl⟩ := eq_written hs he hm hk (written_of_synced hs hwr)
      exact hname rfl

omit hs in
/-- The version line of an entry that is read back is written the same again. -/
theorem shownVersion_again {t : LoaderEntry} {version : Option Text}
    (h : ∀ v, version = some v → strip v = v) :
    shownVersion t ((shownVersion t version).map strip) = shownVersion t version := by
  have hstrip : (shownVersion t version).map strip = shownVersion t version := by
    rw [shownVersion]
    split_ifs
    · cases hv : truthy version with
      | none => rfl
      | some v => rw [Option.map_some, h v (truthy_eq_some hv).1]
    · rfl
  rw [hstrip, shownVersion, shownVersion]
  split_ifs
  · cases version with
    | none => rfl
    | some v => cases v <;> rfl
  · rfl

/-- A second plan keeps the role and the version line of a written entry. -/
theorem targets_again {role' : Text} {version' : Option Text}
    (hwr : Written (loadEntries files) r k)
    (hdel : nameFor r k ∉ (planSync (loadEntries files) r).deletes)
    (ht : (targets (loadEntries files) r).get k = some (role, version))
    (ht' : (targets (loadEntries (synced files (planSync (loadEntries files) r))) r).get k =
      some (role', version')) :
    role' = role ∧
      shownVersion r.template.entry version' = shownVersion r.template.entry version := by
  have h := renderable_of_targets hs ht
  -- the second plan reads the role and the version from the written entry
  have hbase : (managedTargets (loadEntries (synced files (planSync (loadEntries files) r)))
      r.images).get k = some (role, (shownVersion r.template.entry version).map strip) := by
    obtain ⟨hno, -⟩ | ⟨e, he, hm, hk, -, m, hmeta, hget⟩ := get_managedTargets
      (loadEntries (synced files (planSync (loadEntries files) r))) r.images k
    · refine absurd (hwr.1.mem_images hs) (hno _ ((mem_synced hs).mpr
        (.inl ⟨k, role, version, ht, hwr, hdel, rfl⟩)) (written_entry hs ht).1
          (written_entry hs ht).2.1)
    · obtain ⟨role₁, version₁, ht₁, rfl⟩ := eq_written hs he hm hk hwr
      obtain ⟨rfl, rfl⟩ := Prod.mk.inj (Option.some.inj (ht₁.symm.trans ht))
      rw [renderFor, parseManagedHeader_renderEntry hs.legible h] at hmeta
      rw [hget, renderFor, get_version_renderEntry hs.legible h, ← Option.some.inj hmeta]
  have hold : ∀ p, (managedTargets (loadEntries files) r.images).get k = some p →
      ∀ v, p.2 = some v → strip v = v := by
    intro p hp v hv
    obtain ⟨-, hnone⟩ | ⟨e, he, -, -, -, m, -, hsome⟩ :=
      get_managedTargets (loadEntries files) r.images k
    · exact absurd (hnone.symm.trans hp) nofun
    · obtain rfl := Option.some.inj (hsome.symm.trans hp)
      obtain ⟨n, text, -, -, rfl⟩ := mem_loadEntries.mp he
      exact (clean_of_mem_lines (LoaderEntry.mem_of_get hv)).2
  rw [get_targets] at ht ht'
  rw [hbase] at ht'
  obtain ⟨-, hid⟩ | ⟨w, -, -, ⟨w', -, v, -, hconst⟩ | hkeep⟩ := wantedFor_cases r.wanted k
  · rw [hid] at ht ht'
    obtain ⟨rfl, rfl⟩ := Prod.mk.inj (Option.some.inj ht')
    exact ⟨rfl, shownVersion_again (hold _ ht)⟩
  · rw [hconst] at ht ht'
    obtain ⟨rfl, rfl⟩ := Prod.mk.inj (Option.some.inj ht)
    obtain ⟨rfl, rfl⟩ := Prod.mk.inj (Option.some.inj ht')
    exact ⟨rfl, rfl⟩
  · rw [hkeep] at ht ht'
    obtain ⟨rfl, hver⟩ := Prod.mk.inj (Option.some.inj ht)
    obtain ⟨rfl, rfl⟩ := Prod.mk.inj (Option.some.inj ht')
    refine ⟨rfl, shownVersion_again fun v hv => ?_⟩
    obtain ⟨p, hp, hpv⟩ := Option.bind_eq_some_iff.mp (hver.trans hv)
    exact hold p hp v hpv

omit hs in
theorem renderFor_congr {version' : Option Text}
    (h : shownVersion r.template.entry version' = shownVersion r.template.entry version) :
    renderFor r k role version' = renderFor r k role version := by
  rw [renderFor, renderFor, renderEntry, renderEntry, renderFields, renderFields, h]

theorem writes_synced (hdel : ∀ k, Written (loadEntries files) r k →
      nameFor r k ∉ (planSync (loadEntries files) r).deletes) :
    ∀ p ∈ (planSync (loadEntries (synced files (planSync (loadEntries files) r))) r).writes,
      (synced files (planSync (loadEntries files) r)).get p.1 = some p.2 := by
  intro p hp
  obtain ⟨k, role', version', ht', hwr', rfl⟩ := (mem_writes hs).mp hp
  have hwr := written_of_synced hs hwr'
  obtain ⟨⟨role, version⟩, ht⟩ := target_iff.mp hwr.1
  obtain ⟨rfl, hshown⟩ := targets_again hs hwr (hdel k hwr) ht ht'
  obtain ⟨-, hin⟩ | ⟨-, ⟨k', role₁, version₁, ht₁, -, hname, hsome⟩ | ⟨hno, -⟩⟩ :=
    @get_synced r (nameFor r k) files hs
  · exact absurd hin (hdel k hwr)
  · obtain rfl := nameFor_inj hname
    obtain ⟨rfl, rfl⟩ := Prod.mk.inj (Option.some.inj (ht₁.symm.trans ht))
    rw [hsome, renderFor_congr hshown]
  · exact absurd rfl (hno k hwr)

end Again

/-! ## The main theorem -/

section Main

variable (hs : Sound r)
include hs

theorem not_mem_deletes_of_unswapped (h : Unswapped (loadEntries files) r)
    (hwr : Written (loadEntries files) r k) :
    nameFor r k ∉ (planSync (loadEntries files) r).deletes := by
  intro hdel
  obtain ⟨e, he, hm, hname, hdrop⟩ := (mem_deletes hs).mp hdel
  obtain hk | ⟨k', hk', hsk, -⟩ := h e he hm k hwr hname
  · obtain hno | ⟨k₁, -, hk₁, hwhy⟩ := hdrop
    · exact hno k (hwr.1.mem_images hs) hk
    · obtain rfl := Option.some.inj (hk.symm.trans hk₁)
      obtain hcov | ⟨-, hne⟩ := hwhy
      · exact hwr.2.1 hcov
      · exact hne hname
  · obtain hno | ⟨k₁, -, hk₁, hwhy⟩ := hdrop
    · exact hno k' (hsk.1.mem_images hs) hk'
    · obtain rfl := Option.some.inj (hk'.symm.trans hk₁)
      obtain hcov | ⟨hwr', -⟩ := hwhy
      · exact hsk.2.1 hcov
      · exact hwr'.not_skipped hsk

theorem boots_of_covered (h : Covered (loadEntries files) k) :
    Boots (synced files (planSync (loadEntries files) r)) k := by
  obtain ⟨e, he, hm, hb⟩ := h
  exact ⟨e, mem_synced_of_operator hs he hm, hb⟩

theorem boots_of_written (hwr : Written (loadEntries files) r k)
    (hdel : nameFor r k ∉ (planSync (loadEntries files) r).deletes) :
    Boots (synced files (planSync (loadEntries files) r)) k := by
  obtain ⟨⟨role, version⟩, ht⟩ := target_iff.mp hwr.1
  exact ⟨_, (mem_synced hs).mpr (.inl ⟨k, role, version, ht, hwr, hdel, rfl⟩),
    ((written_entry hs ht).2.2 k).mpr rfl⟩

/-- The managed entries of a kernel that is left as it is are not deleted. -/
theorem not_mem_deletes_of_skipped (hsk : Skipped (loadEntries files) r k)
    (he : e ∈ loadEntries files) (hk : managedKernel e = some k) :
    e.filename ∉ (planSync (loadEntries files) r).deletes := by
  intro hdel
  obtain ⟨e', he', hm', hname, hdrop⟩ := (mem_deletes hs).mp hdel
  obtain rfl := eq_of_filename he' he hname
  obtain hno | ⟨k', -, hk', hwhy⟩ := hdrop
  · exact hno k (hsk.1.mem_images hs) hk
  · obtain rfl := Option.some.inj (hk.symm.trans hk')
    obtain hcov | ⟨hwr, -⟩ := hwhy
    · exact hsk.2.1 hcov
    · exact hwr.not_skipped hsk

omit hs in
/-- A target is covered, written or skipped. -/
theorem Target.cases (h : Target es r k) : Covered es k ∨ Written es r k ∨ Skipped es r k := by
  by_cases hcov : Covered es k
  · exact .inl hcov
  by_cases hwr : Written es r k
  · exact .inr (.inl hwr)
  · refine .inr (.inr ⟨h, hcov, ?_⟩)
    by_contra hno
    rw [not_or] at hno
    exact hwr ⟨h, hcov, hno⟩

theorem bootable_of_unswapped (h : Unswapped (loadEntries files) r) :
    Bootable r files (synced files (planSync (loadEntries files) r))
      (planSync (loadEntries files) r) where
  operator name text hget hconf hm := by
    obtain ⟨hn, hno⟩ := operator_kept hs (mem_loadEntries.mpr ⟨name, text, hget, hconf, rfl⟩) hm
    obtain ⟨-, hdel⟩ | ⟨-, ⟨k, role, version, -, hwr, hname, -⟩ | ⟨-, hsame⟩⟩ :=
      @get_synced r name files hs
    · exact absurd hdel hn
    · exact absurd hname (hno k hwr)
    · exact hsame.trans hget
  booted k hin hboots := by
    obtain ⟨e, he, hb⟩ := hboots
    cases hm : isManaged e with
    | false => exact boots_of_covered hs ⟨e, he, hm, hb⟩
    | true =>
      have hk := managedKernel_of_bootsKernel hb
      obtain hcov | hwr | hsk := Target.cases (.inr ⟨hin, e, he, hm, hk⟩ : Target _ r k)
      · exact boots_of_covered hs hcov
      · exact boots_of_written hs hwr (not_mem_deletes_of_unswapped hs h hwr)
      · by_cases hno : ∀ k', Written (loadEntries files) r k' → e.filename ≠ nameFor r k'
        · exact ⟨e, (mem_synced hs).mpr
            (.inr ⟨he, not_mem_deletes_of_skipped hs hsk he hk, hno⟩), hb⟩
        · -- the entry is overwritten, so another one boots the kernel
          push Not at hno
          obtain ⟨k', hwr', hname⟩ := hno
          obtain hk' | ⟨k₁, hk₁, -, hother⟩ := h e he hm k' hwr' hname
          · obtain rfl := Option.some.inj (hk.symm.trans hk')
            exact absurd hsk hwr'.not_skipped
          · obtain rfl := Option.some.inj (hk.symm.trans hk₁)
            obtain ⟨e', he', -, hb', hno'⟩ := hother hb
            exact ⟨e', (mem_synced hs).mpr (.inr ⟨he', not_mem_deletes_of_skipped hs hsk he'
              (managedKernel_of_bootsKernel hb'), hno'⟩), hb'⟩
  wanted w hw := by
    obtain hcov | hwr | hsk :=
      Target.cases (.inl ⟨w, hw, rfl⟩ : Target (loadEntries files) r w.kernel)
    · exact .inl (boots_of_covered hs hcov)
    · exact .inl (boots_of_written hs hwr (not_mem_deletes_of_unswapped hs h hwr))
    · exact .inr ((mem_skipped hs).mpr hsk)
  installed e he hm k hb := by
    have hk := managedKernel_of_bootsKernel hb
    obtain ⟨k', role, version, ht, hwr, -, rfl⟩ | ⟨he, hn, -⟩ := (mem_synced hs).mp he
    · obtain rfl := Option.some.inj ((written_entry hs ht).2.1.symm.trans hk)
      exact hwr.1.mem_images hs
    · by_contra hin
      refine hn ((mem_deletes hs).mpr ⟨e, he, hm, rfl, .inl fun k' hk' heq => hin ?_⟩)
      exact Option.some.inj (heq.symm.trans hk) ▸ hk'
  disjoint name hname := by
    obtain ⟨k, hwr, rfl⟩ := (mem_writes_names hs).mp hname
    exact not_mem_deletes_of_unswapped hs h hwr
  again := ⟨deletes_synced hs,
    writes_synced hs fun _ hwr => not_mem_deletes_of_unswapped hs h hwr⟩

theorem unswapped_of_bootable
    (h : Bootable r files (synced files (planSync (loadEntries files) r))
      (planSync (loadEntries files) r)) : Unswapped (loadEntries files) r := by
  intro e he hm k hwr hname
  have hkept : ¬ Dropped (loadEntries files) r e := fun hdrop =>
    h.disjoint (nameFor r k) ((mem_writes_names hs).mpr ⟨k, hwr, rfl⟩)
      ((mem_deletes hs).mpr ⟨e, he, hm, hname, hdrop⟩)
  rw [Dropped, not_or] at hkept
  obtain ⟨himg, hwhy⟩ := hkept
  push Not at himg
  obtain ⟨k', hin', hk'⟩ := himg
  have ht' : Target (loadEntries files) r k' := .inr ⟨hin', e, he, hm, hk'⟩
  obtain hcov | hwr' | hsk := ht'.cases
  · exact absurd ⟨k', ht', hk', .inl hcov⟩ hwhy
  · by_cases hname' : e.filename = nameFor r k'
    · exact .inl (nameFor_inj (hname.symm.trans hname') ▸ hk')
    · exact absurd ⟨k', ht', hk', .inr ⟨hwr', hname'⟩⟩ hwhy
  · refine .inr ⟨k', hk', hsk, fun hb => ?_⟩
    -- some entry still boots the kernel, and the sync has written none for it
    obtain ⟨e', he', hb'⟩ := h.booted k' hin' ⟨e, he, hb⟩
    obtain ⟨k₁, role, version, ht, hwr₁, -, rfl⟩ | ⟨he', -, hno⟩ := (mem_synced hs).mp he'
    · obtain rfl := ((written_entry hs ht).2.2 k').mp hb'
      exact absurd hsk hwr₁.not_skipped
    · cases hm' : isManaged e' with
      | false => exact absurd ⟨e', he', hm', hb'⟩ hsk.2.1
      | true => exact ⟨e', he', hm', hb', hno⟩

/-- **The sync keeps the machine bootable** exactly when no managed entry that was edited to boot
another kernel stands where an entry is written. -/
theorem bootable_iff (files : Files) :
    (∃ files', applyPlan (planSync (loadEntries files) r) false files = .ok ([], files') ∧
        Bootable r files files' (planSync (loadEntries files) r)) ↔
      Unswapped (loadEntries files) r := by
  rw [applyPlan_eq hs]
  constructor
  · rintro ⟨files', hok, h⟩
    obtain rfl := (Prod.mk.inj (Except.ok.inj hok)).2
    exact unswapped_of_bootable hs h
  · exact fun h => ⟨_, rfl, bootable_of_unswapped hs h⟩

end Main

/-! ## An entry edited to boot another kernel -/

/-- The operator's entry, from which the managed ones are cloned. -/
def archText : Text := "linux /vmlinuz-linux\noptions root=/dev/sda2 rw\n".toList

/-- The entry of the kernel `zen`, as sysforge's, with the given kernel in its `linux` line. -/
def zenText (kernel : Text) : Text :=
  headerLine "arch.conf".toList "plain".toList ++ "\nlinux /vmlinuz-".toList ++ kernel ++ ['\n']

/-- The operator's entry and the entry of `zen`. -/
def zenFiles (kernel : Text) : Files :=
  .ofItems [("arch.conf".toList, archText), ("sysforge-zen.conf".toList, zenText kernel)]

/-- `zen` is wanted; it, `linux` and `lts` are installed. -/
def zenRequest : Request where
  template := ⟨parseEntry "arch.conf".toList archText, "linux".toList⟩
  wanted := [⟨"zen".toList, "plain".toList, none⟩]
  images := ["linux".toList, "zen".toList, "lts".toList]
  namePrefix := none
  prettyName := "Arch Linux".toList
  bootExists := fun _ => true

/-- The entry of `zen` was edited to boot `lts`: it is written for `zen`, and then deleted for
`lts`. -/
theorem not_bootable_edited :
    ¬ ∃ files', applyPlan (planSync (loadEntries (zenFiles "lts".toList)) zenRequest) false
        (zenFiles "lts".toList) = .ok ([], files') ∧
      Bootable zenRequest (zenFiles "lts".toList) files'
        (planSync (loadEntries (zenFiles "lts".toList)) zenRequest) := by
  rintro ⟨files', -, h⟩
  have hwritten : "sysforge-zen.conf".toList ∈
      (planSync (loadEntries (zenFiles "lts".toList)) zenRequest).writes.map Prod.fst := by
    decide
  have hdeleted : "sysforge-zen.conf".toList ∈
      (planSync (loadEntries (zenFiles "lts".toList)) zenRequest).deletes := by decide
  exact h.disjoint _ hwritten hdeleted

theorem kernelName_of {k : Text} (h : k ≠ [] ∧ '/' ∉ k ∧ OneLine k ∧ NoSpace k) : KernelName k :=
  ⟨h.1, h.2.1, h.2.2.1, fun c hc => h.2.2.2 c (List.mem_of_mem_getLast? hc)⟩

theorem sound_zenRequest : Sound zenRequest where
  images k hk := by
    simp only [zenRequest, List.mem_cons, List.not_mem_nil, or_false] at hk
    rcases hk with rfl | rfl | rfl <;>
      exact kernelName_of ⟨by decide, by decide, by decide, by decide⟩
  wanted w hw := by
    obtain rfl := List.mem_singleton.mp hw
    exact ⟨by decide, ⟨by decide, List.all_eq_true.mp (by decide)⟩, nofun⟩
  template := ⟨archText, rfl⟩
  name := ⟨by decide, by decide⟩
  namePrefix := nofun
  prettyName := by decide

theorem bootable_zen :
    ∃ files', applyPlan (planSync (loadEntries (zenFiles "zen".toList)) zenRequest) false
        (zenFiles "zen".toList) = .ok ([], files') ∧
      Bootable zenRequest (zenFiles "zen".toList) files'
        (planSync (loadEntries (zenFiles "zen".toList)) zenRequest) := by
  refine (bootable_iff sound_zenRequest (zenFiles "zen".toList)).mpr fun e he hm k _ hname => ?_
  have hes : loadEntries (zenFiles "zen".toList) = [parseEntry "arch.conf".toList archText,
      parseEntry "sysforge-zen.conf".toList (zenText "zen".toList)] := by decide
  rw [hes] at he
  rcases List.mem_cons.mp he with rfl | he
  · exact absurd hm (by decide)
  · obtain rfl := List.mem_singleton.mp he
    have hzen : nameFor zenRequest "zen".toList = "sysforge-zen.conf".toList := by decide
    rw [← nameFor_inj (hzen.trans hname)]
    exact .inl (by decide)

end Sysforge.Boot
