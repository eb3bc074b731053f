import Sysforge.Storage.AtomicWrite

/-!
# Runs of atomic replacements

A call that has begun to write holds a name that no other call uses and an inode that no file names.
What a file names is complete and is never changed again, which is why a reader never sees a part.
-/

namespace Sysforge.Storage

open Run (Each)

variable {β : Type*}

/-! ## The invariant -/

/-- The name under which a call writes. -/
def Phase.name (path : Text) : Phase β → Option Name
  | .writing random .. | .flushed random _ | .moded random _ => some (.temp path random)
  | .installing .. | .staged _ => some (.staged path)
  | _ => none

/-- The mode that a call will give. -/
def Phase.plan : Phase β → Option ℕ
  | .statted mode | .writing _ _ mode _ | .flushed _ mode | .moded _ mode | .escalated mode
  | .installing _ mode _ | .staged mode => some mode
  | _ => none

/-- A call that may have put its file in place. -/
def Phase.placed : Phase β → Bool
  | .renamed | .returned _ | .killed => true
  | _ => false

/-- How far the inode `k` is when its call is in a phase. -/
def Progress (data : List β) (k : ℕ) (inode : Inode β ℕ) : Phase β → Prop
  | .writing _ ino _ rest => ino = k ∧ inode.data ++ rest = data ∧ inode.installed = false
  | .flushed .. => inode.data = data ∧ inode.synced = true ∧ inode.installed = false
  | .moded _ mode =>
    inode.data = data ∧ inode.synced = true ∧ inode.installed = false ∧ inode.mode = mode
  | .installing ino _ rest => ino = k ∧ inode.data ++ rest = data ∧ inode.installed = true
  | .staged mode => inode.data = data ∧ inode.installed = true ∧ inode.mode = mode
  | _ => True

variable (jobs : ℕ → Job β) (fs₀ : FileSystem Name β ℕ)

/-- Call `i` in the phase `q` holds the inode `k` by a name. -/
structure Holds (fs : FileSystem Name β ℕ) (i : ℕ) (q : Phase β) (name : Name) (k : ℕ) : Prop where
  lookup : fs.lookup name = some k
  lt : k < fs.next
  maker : (fs.inode k).maker = some i
  free : ∀ n, some k ∉ fs.links (.file n)
  progress : Progress (jobs i).data k (fs.inode k) q

/-- The inode `k` may stand under the name `n`. -/
structure Placed (s : State β) (n : Text) (k : ℕ) : Prop where
  lt : k < s.fs.next
  synced : (s.fs.inode k).installed = false → (s.fs.inode k).synced = true
  whole : (s.fs.inode k = fs₀.inode k ∧ fs₀.lookup (.file n) = some k) ∧
      (s.fs.inode k).maker = none ∨
    ∃ i, (jobs i).path = n ∧ (s.fs.inode k).maker = some i ∧
      (s.fs.inode k).data = (jobs i).data ∧ (s.phase i).placed = true
  mode : ∀ k₀, fs₀.lookup (.file n) = some k₀ → (s.fs.inode k).mode = (fs₀.inode k₀).mode

/-- The invariant of a run. -/
structure Inv (s : State β) : Prop where
  file : ∀ n k, some k ∈ s.fs.links (.file n) → Placed jobs fs₀ s n k
  held : ∀ i name, (s.phase i).name (jobs i).path = some name →
    ∃ k, Holds jobs s.fs i (s.phase i) name k
  plan : ∀ i mode, (s.phase i).plan = some mode →
    ∀ k₀, fs₀.lookup (.file (jobs i).path) = some k₀ → mode = (fs₀.inode k₀).mode
  kept : ∀ n, s.fs.kept (.file n) ≤ (s.fs.links (.file n)).length
  there : ∀ n, fs₀.lookup (.file n) ≠ none →
    none ∉ s.fs.links (.file n) ∧ 0 < s.fs.kept (.file n)
  renamed : ∀ i, s.phase i = .renamed →
    ∃ k, some k ∈ s.fs.links (.file (jobs i).path) ∧ (s.fs.inode k).maker = some i
  durable : ∀ i, s.phase i = .returned true →
    ∃ k, some k ∈ s.fs.durable (.file (jobs i).path) ∧ (s.fs.inode k).maker = some i

variable {jobs fs₀} {s : State β} {i : ℕ} {q : Phase β} {fs : FileSystem Name β ℕ} {inp : Input}

/-! ## Changes that no file sees -/

/-- What call `i` may change on its own: its free inodes and the names nobody else holds. -/
structure Private (jobs : ℕ → Job β) (s : State β) (i : ℕ) (fs : FileSystem Name β ℕ) : Prop where
  links : ∀ n, fs.links (.file n) = s.fs.links (.file n)
  kept : ∀ n, fs.kept (.file n) = s.fs.kept (.file n)
  next : s.fs.next ≤ fs.next
  inode : ∀ k, k < s.fs.next → fs.inode k = s.fs.inode k ∨
    (s.fs.inode k).maker = some i ∧ ∀ n, some k ∉ s.fs.links (.file n)
  lookup : ∀ j, j ≠ i → ∀ name, (s.phase j).name (jobs j).path = some name →
    fs.lookup name = s.fs.lookup name

theorem set_phase_self : (s.set i fs q).phase i = q := Function.update_self ..

theorem set_phase_of_ne {j : ℕ} (h : j ≠ i) : (s.set i fs q).phase j = s.phase j :=
  Function.update_of_ne h ..

theorem State.fs_set : (s.set i fs q).fs = fs := rfl

theorem Private.inode_linked (hp : Private jobs s i fs) {n : Text} {k : ℕ}
    (hk : some k ∈ s.fs.links (.file n)) (hlt : k < s.fs.next) : fs.inode k = s.fs.inode k :=
  (hp.inode k hlt).resolve_right fun h => h.2 n hk

/-- A file that was there is there. -/
theorem Inv.lookup_ne_none (h : Inv jobs fs₀ s) {n : Text} (hn : fs₀.lookup (.file n) ≠ none) :
    s.fs.lookup (.file n) ≠ none := by
  obtain ⟨hnone, hpos⟩ := h.there n hn
  have hlen := h.kept n
  intro hlookup
  rw [FileSystem.lookup] at hlookup
  cases hlinks : s.fs.links (.file n) with
  | nil =>
    rw [hlinks] at hlen
    exact absurd (hpos.trans_le hlen) (Nat.lt_irrefl 0)
  | cons o l =>
    rw [hlinks] at hlookup hnone
    exact hnone ((show o = none from hlookup) ▸ List.mem_cons_self)

/-- The mode for a replacement is that of the file there was. -/
theorem Inv.modeFor_eq (h : Inv jobs fs₀ s) {k₀ : ℕ}
    (hk₀ : fs₀.lookup (.file (jobs i).path) = some k₀) :
    s.modeFor jobs i = (fs₀.inode k₀).mode := by
  have hsome := h.lookup_ne_none (n := (jobs i).path) (hk₀ ▸ Option.some_ne_none k₀)
  obtain ⟨k, hk⟩ := Option.ne_none_iff_exists'.mp hsome
  rw [State.modeFor, hk]
  exact (h.file _ k (FileSystem.mem_links_of_lookup hk)).mode k₀ hk₀

/-- A call that has not put its file in place made no inode that a file names. -/
theorem Inv.maker_ne (h : Inv jobs fs₀ s) (hq : (s.phase i).placed = false) {n : Text} {k : ℕ}
    (hk : some k ∈ s.fs.links (.file n)) : (s.fs.inode k).maker ≠ some i := by
  intro hmaker
  obtain ⟨-, hnone⟩ | ⟨j, -, hj, -, hplaced⟩ := (h.file n k hk).whole
  · exact absurd (hnone.symm.trans hmaker).symm (Option.some_ne_none i)
  · obtain rfl := Option.some.inj (hj.symm.trans hmaker)
    exact Bool.false_ne_true (hq.symm.trans hplaced)

/-- Private changes keep the invariant. -/
theorem Inv.set_private (h : Inv jobs fs₀ s) (hp : Private jobs s i fs)
    (hold : (s.phase i).placed = true → q.placed = true)
    (hheld : ∀ name, q.name (jobs i).path = some name → ∃ k, Holds jobs fs i q name k)
    (hplan : ∀ mode, q.plan = some mode → (s.phase i).plan = some mode ∨
      mode = s.modeFor jobs i)
    (hren : q ≠ .renamed) (hret : q ≠ .returned true) : Inv jobs fs₀ (s.set i fs q) where
  file n k hk := by
    have hk : some k ∈ s.fs.links (.file n) := hp.links n ▸ hk
    have hplaced := h.file n k hk
    have hinode : fs.inode k = s.fs.inode k := hp.inode_linked hk hplaced.lt
    refine ⟨hplaced.lt.trans_le hp.next, ?_, ?_, ?_⟩
    · rw [State.fs_set, hinode]
      exact hplaced.synced
    · rw [State.fs_set, hinode]
      refine hplaced.whole.imp_right fun ⟨j, hpath, hmaker, hdata, hj⟩ =>
        ⟨j, hpath, hmaker, hdata, ?_⟩
      by_cases hji : j = i
      · subst hji
        rw [set_phase_self]
        exact hold hj
      · rw [set_phase_of_ne hji]
        exact hj
    · rw [State.fs_set, hinode]
      exact hplaced.mode
  held j name hname := by
    by_cases hji : j = i
    · subst hji
      rw [set_phase_self] at hname ⊢
      exact hheld name hname
    · rw [set_phase_of_ne hji] at hname ⊢
      obtain ⟨k, hk⟩ := h.held j name hname
      have hinode : fs.inode k = s.fs.inode k := by
        obtain heq | ⟨hmaker, -⟩ := hp.inode k hk.lt
        · exact heq
        · exact absurd (Option.some.inj (hk.maker.symm.trans hmaker)) hji
      refine ⟨k, (hp.lookup j hji name hname).trans hk.lookup, hk.lt.trans_le hp.next, ?_, ?_, ?_⟩
      · exact (congrArg Inode.maker hinode).trans hk.maker
      · intro n
        rw [State.fs_set, hp.links n]
        exact hk.free n
      · rw [State.fs_set, hinode]
        exact hk.progress
  plan j mode hmode := by
    by_cases hji : j = i
    · subst hji
      rw [set_phase_self] at hmode
      obtain hmode | rfl := hplan mode hmode
      · exact h.plan j mode hmode
      · exact fun k₀ hk₀ => h.modeFor_eq hk₀
    · rw [set_phase_of_ne hji] at hmode
      exact h.plan j mode hmode
  kept n := by
    rw [State.fs_set, hp.links n, hp.kept n]
    exact h.kept n
  there n hn := by
    rw [State.fs_set, hp.links n, hp.kept n]
    exact h.there n hn
  renamed j hj := by
    have hji : j ≠ i := by
      rintro rfl
      exact hren (set_phase_self.symm.trans hj)
    rw [set_phase_of_ne hji] at hj
    obtain ⟨k, hk, hmaker⟩ := h.renamed j hj
    refine ⟨k, (hp.links _).symm ▸ hk, ?_⟩
    exact (congrArg Inode.maker (hp.inode_linked hk (h.file _ k hk).lt)).trans hmaker
  durable j hj := by
    have hji : j ≠ i := by
      rintro rfl
      exact hret (set_phase_self.symm.trans hj)
    rw [set_phase_of_ne hji] at hj
    obtain ⟨k, hk, hmaker⟩ := h.durable j hj
    have hlinked := List.mem_of_mem_drop hk
    refine ⟨k, ?_, ?_⟩
    · rw [State.fs_set, FileSystem.durable, hp.links, hp.kept]
      exact hk
    · exact (congrArg Inode.maker (hp.inode_linked hlinked (h.file _ k hlinked).lt)).trans hmaker

/-! ## The names that calls hold -/

theorem name_ne_file {path n : Text} {name : Name} (h : q.name path = some name) :
    name ≠ .file n := by
  rintro rfl
  cases q <;> simp [Phase.name] at h

theorem installs_of_staged {path n : Text} (h : q.name path = some (.staged n)) :
    path = n ∧ q.installs = true := by
  cases q <;> simp [Phase.name] at h <;> exact ⟨h, rfl⟩

theorem name_of_not_active {path : Text} (h : q.active = false) : q.name path = none := by
  cases q <;> simp_all [Phase.active, Phase.name]

/-- No two calls hold one name. -/
theorem Inv.name_ne (h : Inv jobs fs₀ s) {name : Name} {k j : ℕ}
    (hk : Holds jobs s.fs i q name k) (hji : j ≠ i) :
    (s.phase j).name (jobs j).path ≠ some name := by
  intro hj
  obtain ⟨l, hl⟩ := h.held j name hj
  obtain rfl := Option.some.inj (hk.lookup.symm.trans hl.lookup)
  exact hji (Option.some.inj (hl.maker.symm.trans hk.maker))

/-- A name that means no file is held by no call. -/
theorem Inv.name_ne_of_none (h : Inv jobs fs₀ s) {name : Name} {j : ℕ}
    (hnone : s.fs.lookup name = none) : (s.phase j).name (jobs j).path ≠ some name := by
  intro hj
  obtain ⟨l, hl⟩ := h.held j name hj
  exact Option.some_ne_none l (hl.lookup.symm.trans hnone)

/-! ## What a call does on its own -/

theorem Private.refl : Private jobs s i s.fs :=
  ⟨fun _ => rfl, fun _ => rfl, le_rfl, fun _ _ => .inl rfl, fun _ _ _ _ => rfl⟩

/-- Changing an inode that a call holds. -/
theorem Private.setInode {name : Name} {k : ℕ} (hk : Holds jobs s.fs i q name k)
    (f : Inode β ℕ → Inode β ℕ) : Private jobs s i (s.fs.setInode k f) where
  links _ := rfl
  kept _ := rfl
  next := le_rfl
  inode l _ := by
    by_cases hl : l = k
    · exact .inr (hl ▸ ⟨hk.maker, hk.free⟩)
    · exact .inl (FileSystem.inode_setInode_of_ne hl)
  lookup _ _ _ _ := rfl

/-- Changing a name that no other call holds. -/
theorem Private.link {name : Name} (hfile : ∀ n, name ≠ .file n)
    (hfree : ∀ j, j ≠ i → (s.phase j).name (jobs j).path ≠ some name) (o : Option ℕ) :
    Private jobs s i (s.fs.link name o) where
  links n := FileSystem.links_link_of_ne (hfile n).symm
  kept _ := rfl
  next := le_rfl
  inode _ _ := .inl rfl
  lookup j hji _ hname' := FileSystem.lookup_link_of_ne fun heq =>
    hfree j hji (heq ▸ hname')

/-- Making a file under a name that no other call holds. -/
theorem Private.create {name : Name} (hfile : ∀ n, name ≠ .file n)
    (hfree : ∀ j, j ≠ i → (s.phase j).name (jobs j).path ≠ some name) (inode : Inode β ℕ) :
    Private jobs s i (s.fs.create name inode) where
  links n := FileSystem.links_create_of_ne (hfile n).symm
  kept _ := rfl
  next := Nat.le_succ _
  inode _ hl := .inl (FileSystem.inode_create_of_ne hl.ne)
  lookup j hji _ hname' := FileSystem.lookup_create_of_ne fun heq =>
    hfree j hji (heq ▸ hname')

/-- The clean-up of a name that no other call holds. -/
theorem Private.cleaned {name : Name} (hfile : ∀ n, name ≠ .file n)
    (hfree : ∀ j, j ≠ i → (s.phase j).name (jobs j).path ≠ some name) :
    Private jobs s i (s.cleaned inp name) := by
  rw [State.cleaned]
  split
  · exact Private.link hfile hfree none
  · exact Private.refl

/-- The inode that a call holds, changed. -/
theorem Holds.setInode {name : Name} {k : ℕ} {q' : Phase β} (hk : Holds jobs s.fs i q name k)
    {f : Inode β ℕ → Inode β ℕ} (hmaker : (f (s.fs.inode k)).maker = (s.fs.inode k).maker)
    (hprogress : Progress (jobs i).data k (f (s.fs.inode k)) q') :
    Holds jobs (s.fs.setInode k f) i q' name k where
  lookup := hk.lookup
  lt := hk.lt
  maker := by
    rw [FileSystem.inode_setInode_self, hmaker]
    exact hk.maker
  free := hk.free
  progress := by
    rw [FileSystem.inode_setInode_self]
    exact hprogress

/-- A call does the next thing to the inode that it holds. -/
theorem Inv.set_inode (h : Inv jobs fs₀ s) {name : Name} {k : ℕ} {f : Inode β ℕ → Inode β ℕ}
    (hk : Holds jobs s.fs i (s.phase i) name k)
    (hmaker : (f (s.fs.inode k)).maker = (s.fs.inode k).maker)
    (hprogress : Progress (jobs i).data k (f (s.fs.inode k)) q)
    (hname : q.name (jobs i).path = some name) (hplaced : (s.phase i).placed = false)
    (hplan : q.plan = (s.phase i).plan) : Inv jobs fs₀ (s.set i (s.fs.setInode k f) q) := by
  refine h.set_private (Private.setInode hk f) ?_ ?_ ?_ ?_ ?_
  · exact fun hp => absurd (hplaced.symm.trans hp) Bool.false_ne_true
  · intro name' hname'
    obtain rfl := Option.some.inj (hname.symm.trans hname')
    exact ⟨k, hk.setInode hmaker hprogress⟩
  · exact fun mode hmode => .inl (hplan ▸ hmode)
  · rintro rfl
    exact Option.some_ne_none name hname.symm
  · rintro rfl
    exact Option.some_ne_none name hname.symm

/-- A call makes the file it will write. -/
theorem Inv.set_create (h : Inv jobs fs₀ s) {name : Name} {installed : Bool}
    (hname : q.name (jobs i).path = some name)
    (hfree : ∀ j, j ≠ i → (s.phase j).name (jobs j).path ≠ some name)
    (hplaced : (s.phase i).placed = false) (hplan : q.plan = (s.phase i).plan)
    (hprogress : Progress (jobs i).data s.fs.next
      { mode := 0o600, maker := some i, installed := installed } q) :
    Inv jobs fs₀ (s.set i (s.fs.create name
      { mode := 0o600, maker := some i, installed := installed }) q) := by
  refine h.set_private (Private.create (fun n => name_ne_file hname) hfree _) ?_ ?_ ?_ ?_ ?_
  · exact fun hp => absurd (hplaced.symm.trans hp) Bool.false_ne_true
  · intro name' hname'
    obtain rfl := Option.some.inj (hname.symm.trans hname')
    refine ⟨s.fs.next, FileSystem.lookup_create_self, Nat.lt_succ_self _, ?_, ?_, ?_⟩
    · rw [FileSystem.inode_create_self]
    · intro n hn
      rw [FileSystem.links_create_of_ne (name_ne_file hname).symm] at hn
      exact Nat.lt_irrefl _ (h.file n _ hn).lt
    · rw [FileSystem.inode_create_self]
      exact hprogress
  · exact fun mode hmode => .inl (hplan ▸ hmode)
  · rintro rfl
    exact Option.some_ne_none name hname.symm
  · rintro rfl
    exact Option.some_ne_none name hname.symm

/-- A call that goes on with no file of its own. -/
theorem Inv.set_free (h : Inv jobs fs₀ s) (hp : Private jobs s i fs)
    (hold : (s.phase i).placed = true → q.placed = true) (hname : ∀ path, q.name path = none)
    (hplan : ∀ mode, q.plan = some mode → (s.phase i).plan = some mode ∨
      mode = s.modeFor jobs i)
    (hren : q ≠ .renamed) (hret : q ≠ .returned true) : Inv jobs fs₀ (s.set i fs q) :=
  h.set_private hp hold
    (fun name hsome => absurd (hsome.symm.trans (hname _)) (Option.some_ne_none name)) hplan
    hren hret

/-! ## What every reader sees -/

/-- What a file names after a rename. -/
theorem mem_links_rename {name : Name} {path n : Text} {k l : ℕ} (hfile : ∀ n, name ≠ .file n)
    (hlookup : s.fs.lookup name = some k)
    (hl : some l ∈ (s.fs.rename name (.file path)).links (.file n)) :
    path = n ∧ l = k ∨ some l ∈ s.fs.links (.file n) := by
  by_cases hn : n = path
  · subst hn
    rw [FileSystem.links_rename_target (hfile n).symm, hlookup] at hl
    obtain heq | hl := List.mem_cons.mp hl
    · exact .inl ⟨rfl, Option.some.inj heq⟩
    · exact .inr hl
  · rw [FileSystem.links_rename_of_ne (hfile n).symm fun heq => hn (Name.file.inj heq)] at hl
    exact .inr hl

/-- What was there stays below. -/
theorem links_subset_rename {name : Name} {path n : Text} (hfile : ∀ n, name ≠ .file n) :
    s.fs.links (.file n) <:+ (s.fs.rename name (.file path)).links (.file n) := by
  by_cases hn : n = path
  · subst hn
    rw [FileSystem.links_rename_target (hfile n).symm]
    exact List.suffix_cons ..
  · rw [FileSystem.links_rename_of_ne (hfile n).symm fun heq => hn (Name.file.inj heq)]

/-- A file is put in place: it is whole, and nobody changes it again. -/
theorem Inv.set_rename (h : Inv jobs fs₀ s) {name : Name} {k mode : ℕ}
    (hname : (s.phase i).name (jobs i).path = some name)
    (hk : Holds jobs s.fs i (s.phase i) name k) (hmode : (s.phase i).plan = some mode)
    (hold : (s.phase i).placed = false) (hinode : (s.fs.inode k).mode = mode)
    (hdata : (s.fs.inode k).data = (jobs i).data)
    (hsynced : (s.fs.inode k).installed = false → (s.fs.inode k).synced = true)
    (hq : q = .renamed ∨ q = .returned false) :
    Inv jobs fs₀ (s.set i (s.fs.rename name (.file (jobs i).path)) q) := by
  have hfile : ∀ n, name ≠ .file n := fun n => name_ne_file hname
  have hplaced : q.placed = true ∧ (∀ path, q.name path = none) ∧ q.plan = none ∧
      q ≠ .returned true := by
    obtain rfl | rfl := hq
    · exact ⟨rfl, fun _ => rfl, rfl, by simp⟩
    · exact ⟨rfl, fun _ => rfl, rfl, by simp⟩
  have hgrow : ∀ n, s.fs.links (.file n) <:+
      (s.fs.rename name (.file (jobs i).path)).links (.file n) :=
    fun n => links_subset_rename hfile
  refine ⟨?_, ?_, ?_, ?_, ?_, ?_, ?_⟩
  · intro n l hl
    obtain ⟨rfl, rfl⟩ | hl := mem_links_rename hfile hk.lookup hl
    · refine ⟨hk.lt, hsynced, .inr ⟨i, rfl, hk.maker, hdata, ?_⟩, ?_⟩
      · rw [set_phase_self]
        exact hplaced.1
      · exact fun k₀ hk₀ => hinode.trans (h.plan i mode hmode k₀ hk₀)
    · have hl := h.file n l hl
      refine ⟨hl.lt, hl.synced, hl.whole.imp_right ?_, hl.mode⟩
      rintro ⟨j, hpath, hmaker, hwhole, hj⟩
      refine ⟨j, hpath, hmaker, hwhole, ?_⟩
      by_cases hji : j = i
      · subst hji
        rw [set_phase_self]
        exact hplaced.1
      · rw [set_phase_of_ne hji]
        exact hj
  · intro j name' hname'
    have hji : j ≠ i := by
      rintro rfl
      rw [set_phase_self, hplaced.2.1] at hname'
      exact absurd hname'.symm (Option.some_ne_none _)
    rw [set_phase_of_ne hji] at hname' ⊢
    obtain ⟨l, hl⟩ := h.held j name' hname'
    refine ⟨l, ?_, hl.lt, hl.maker, ?_, hl.progress⟩
    · rw [State.fs_set, FileSystem.lookup, FileSystem.links_rename_of_ne
        (fun heq => h.name_ne hk hji (hname'.trans (congrArg some heq))) (name_ne_file hname')]
      exact hl.lookup
    · intro n hn
      obtain ⟨-, rfl⟩ | hn := mem_links_rename hfile hk.lookup hn
      · exact hji (Option.some.inj (hl.maker.symm.trans hk.maker))
      · exact hl.free n hn
  · intro j mode' hmode'
    by_cases hji : j = i
    · subst hji
      rw [set_phase_self, hplaced.2.2.1] at hmode'
      exact absurd hmode'.symm (Option.some_ne_none _)
    · rw [set_phase_of_ne hji] at hmode'
      exact h.plan j mode' hmode'
  · exact fun n => (h.kept n).trans (hgrow n).length_le
  · intro n hn
    obtain ⟨hnone, hpos⟩ := h.there n hn
    refine ⟨?_, hpos⟩
    by_cases hpath : n = (jobs i).path
    · subst hpath
      rw [State.fs_set, FileSystem.links_rename_target (hfile _).symm, hk.lookup]
      rintro (_ | ⟨_, hmem⟩)
      exact hnone hmem
    · rw [State.fs_set, FileSystem.links_rename_of_ne (hfile n).symm
        fun heq => hpath (Name.file.inj heq)]
      exact hnone
  · intro j hj
    by_cases hji : j = i
    · subst hji
      refine ⟨k, ?_, hk.maker⟩
      rw [State.fs_set, FileSystem.links_rename_target (hfile _).symm, hk.lookup]
      exact List.mem_cons_self
    · rw [set_phase_of_ne hji] at hj
      obtain ⟨l, hl, hmaker⟩ := h.renamed j hj
      exact ⟨l, (hgrow _).subset hl, hmaker⟩
  · intro j hj
    have hji : j ≠ i := by
      rintro rfl
      exact hplaced.2.2.2 (set_phase_self.symm.trans hj)
    rw [set_phase_of_ne hji] at hj
    obtain ⟨l, hl, hmaker⟩ := h.durable j hj
    exact ⟨l, FileSystem.durable_rename (h.kept _) (hfile _).symm hl, hmaker⟩

/-- The directory is flushed. -/
theorem Inv.set_syncDir (h : Inv jobs fs₀ s) (hren : s.phase i = .renamed) :
    Inv jobs fs₀ (s.set i s.fs.syncDir (.returned true)) := by
  have hne : ∀ {j r}, j ≠ i → (s.set i s.fs.syncDir (.returned true)).phase j = r →
      s.phase j = r := fun hji hj => (set_phase_of_ne hji).symm.trans hj
  refine ⟨?_, ?_, ?_, ?_, ?_, ?_, ?_⟩
  · intro n k hk
    have hk := h.file n k hk
    refine ⟨hk.lt, hk.synced, hk.whole.imp_right ?_, hk.mode⟩
    rintro ⟨j, hpath, hmaker, hwhole, hj⟩
    refine ⟨j, hpath, hmaker, hwhole, ?_⟩
    by_cases hji : j = i
    · subst hji
      rw [set_phase_self]
      rfl
    · rw [set_phase_of_ne hji]
      exact hj
  · intro j name hname
    have hji : j ≠ i := by
      rintro rfl
      rw [set_phase_self] at hname
      exact absurd hname.symm (Option.some_ne_none _)
    rw [set_phase_of_ne hji] at hname ⊢
    obtain ⟨k, hk⟩ := h.held j name hname
    exact ⟨k, hk.lookup, hk.lt, hk.maker, hk.free, hk.progress⟩
  · intro j mode hmode
    by_cases hji : j = i
    · subst hji
      rw [set_phase_self] at hmode
      exact absurd hmode.symm (Option.some_ne_none _)
    · rw [set_phase_of_ne hji] at hmode
      exact h.plan j mode hmode
  · exact fun n => le_rfl
  · exact fun n hn => ⟨(h.there n hn).1, (h.there n hn).2.trans_le (h.kept n)⟩
  · intro j hj
    by_cases hji : j = i
    · subst hji
      rw [set_phase_self] at hj
      exact absurd hj (by simp)
    · exact h.renamed j (hne hji hj)
  · intro j hj
    rw [State.fs_set, FileSystem.durable_syncDir]
    by_cases hji : j = i
    · exact hji ▸ h.renamed i hren
    · obtain ⟨k, hk, hmaker⟩ := h.durable j (hne hji hj)
      exact ⟨k, List.mem_of_mem_drop hk, hmaker⟩

/-- The kernel writes a file back. -/
theorem Inv.writeback (h : Inv jobs fs₀ s) (hclean : Clean fs₀) (ino : ℕ) :
    Inv jobs fs₀ { s with fs := s.fs.fsync ino } := by
  have hinode : ∀ k, ∃ b, ((s.fs.inode k).synced = true → b = true) ∧
      (s.fs.fsync ino).inode k = { s.fs.inode k with synced := b } :=
    fun k => FileSystem.inode_fsync
  have hmaker : ∀ k, ((s.fs.fsync ino).inode k).maker = (s.fs.inode k).maker := by
    intro k
    obtain ⟨b, -, hk⟩ := hinode k
    rw [hk]
  refine ⟨?_, ?_, h.plan, h.kept, h.there, ?_, ?_⟩
  · intro n k hk
    have hplaced := h.file n k hk
    obtain ⟨b, hb, hik⟩ := hinode k
    refine ⟨hplaced.lt, ?_, ?_, ?_⟩
    · show ((s.fs.fsync ino).inode k).installed = false → ((s.fs.fsync ino).inode k).synced = true
      rw [hik]
      exact fun hinst => hb (hplaced.synced hinst)
    · show ((s.fs.fsync ino).inode k = _ ∧ _) ∧ ((s.fs.fsync ino).inode k).maker = none ∨ _
      refine hplaced.whole.imp ?_ ?_
      · rintro ⟨⟨hold, hlookup⟩, hnone⟩
        have hsynced : (s.fs.inode k).synced = true :=
          hold ▸ hclean.flushed n k (FileSystem.mem_links_of_lookup hlookup)
        refine ⟨⟨?_, hlookup⟩, (hmaker k).trans hnone⟩
        rw [hik, hb hsynced, ← hsynced]
        exact hold
      · rintro ⟨j, hpath, hj, hdata, hphase⟩
        refine ⟨j, hpath, (hmaker k).trans hj, ?_, hphase⟩
        show ((s.fs.fsync ino).inode k).data = _
        rw [hik]
        exact hdata
    · show ∀ k₀, _ → ((s.fs.fsync ino).inode k).mode = _
      rw [hik]
      exact hplaced.mode
  · intro j name hname
    obtain ⟨k, hk⟩ := h.held j name hname
    obtain ⟨b, hb, hik⟩ := hinode k
    refine ⟨k, hk.lookup, hk.lt, (hmaker k).trans hk.maker, hk.free, ?_⟩
    show Progress _ k ((s.fs.fsync ino).inode k) (s.phase j)
    rw [hik]
    have hprogress := hk.progress
    generalize s.phase j = p at hprogress
    cases p <;> simp_all [Progress]
  · intro j hj
    obtain ⟨k, hk, hj⟩ := h.renamed j hj
    exact ⟨k, hk, (hmaker k).trans hj⟩
  · intro j hj
    obtain ⟨k, hk, hj⟩ := h.durable j hj
    exact ⟨k, hk, (hmaker k).trans hj⟩

/-- The power fails: what files named stays or goes back to what they named before. -/
theorem Inv.powerLoss (h : Inv jobs fs₀ s) (drop : Name → ℕ) (garbage : ℕ → List β)
    (hinst : ∀ n k, some k ∈ s.fs.links (.file n) → (s.fs.inode k).installed = true →
      (s.fs.inode k).synced = true) :
    Inv jobs fs₀ (step jobs s (.powerLoss drop garbage)) := by
  have hlinks : ∀ {n o}, o ∈ (s.fs.powerLoss drop garbage).links n → o ∈ s.fs.links n :=
    fun ho => FileSystem.mem_links_powerLoss ho
  have hinode : ∀ {n k}, some k ∈ s.fs.links (.file n) →
      (s.fs.powerLoss drop garbage).inode k = s.fs.inode k := by
    intro n k hk
    refine FileSystem.inode_powerLoss ?_
    cases hi : (s.fs.inode k).installed
    · exact (h.file n k hk).synced hi
    · exact hinst n k hk hi
  have hphase : ∀ j, (step jobs s (.powerLoss drop garbage)).phase j = .killed ∨
      (s.phase j).active = false ∧
        (step jobs s (.powerLoss drop garbage)).phase j = s.phase j := by
    intro j
    show (if (s.phase j).active then _ else _) = _ ∨ _ ∧ (if (s.phase j).active then _ else _) = _
    cases (s.phase j).active
    · exact .inr ⟨rfl, rfl⟩
    · exact .inl rfl
  refine ⟨?_, ?_, ?_, ?_, ?_, ?_, ?_⟩
  · intro n k hk
    have hplaced := h.file n k (hlinks hk)
    have hik := hinode (hlinks hk)
    refine ⟨hplaced.lt, ?_, ?_, ?_⟩
    · show ((s.fs.powerLoss drop garbage).inode k).installed = false → _
      exact fun _ => rfl
    · show ((s.fs.powerLoss drop garbage).inode k = _ ∧ _) ∧ _ ∨ ∃ i, _ ∧
        ((s.fs.powerLoss drop garbage).inode k).maker = _ ∧
          ((s.fs.powerLoss drop garbage).inode k).data = _ ∧ _
      rw [hik]
      refine hplaced.whole.imp (fun hold => hold) ?_
      rintro ⟨j, hpath, hmaker, hdata, hj⟩
      refine ⟨j, hpath, hmaker, hdata, ?_⟩
      obtain hk | ⟨-, hk⟩ := hphase j
      · exact hk ▸ rfl
      · exact hk ▸ hj
    · exact hplaced.mode
  · intro j name hname
    obtain hk | ⟨hactive, hk⟩ := hphase j
    · rw [hk] at hname
      exact absurd hname.symm (Option.some_ne_none _)
    · rw [hk] at hname
      exact absurd hname.symm (name_of_not_active hactive ▸ Option.some_ne_none _)
  · intro j mode hmode
    obtain hk | ⟨-, hk⟩ := hphase j
    · rw [hk] at hmode
      exact absurd hmode.symm (Option.some_ne_none _)
    · exact h.plan j mode (hk ▸ hmode)
  · exact fun n => le_rfl
  · intro n hn
    obtain ⟨hnone, hpos⟩ := h.there n hn
    exact ⟨fun hmem => hnone (hlinks hmem), hpos.trans_le (FileSystem.kept_powerLoss (h.kept n))⟩
  · intro j hj
    obtain hk | ⟨hactive, hk⟩ := hphase j
    · exact absurd (hk.symm.trans hj) (by simp)
    · rw [hk.symm.trans hj] at hactive
      exact absurd hactive.symm Bool.false_ne_true
  · intro j hj
    obtain hk | ⟨-, hk⟩ := hphase j
    · exact absurd (hk.symm.trans hj) (by simp)
    · obtain ⟨k, hdur, hmaker⟩ := h.durable j (hk.symm.trans hj)
      exact ⟨k, FileSystem.mem_durable_powerLoss hdur, hmaker⟩

/-! ## Steps -/

/-- At the start, every file is as it was. -/
theorem Inv.start (hclean : Clean fs₀) : Inv jobs fs₀ (start fs₀) where
  file n k hk := by
    have hlookup : fs₀.lookup (.file n) = some k :=
      FileSystem.lookup_of_single (hclean.single n) hk
    refine ⟨hclean.lt n k hk, fun _ => hclean.flushed n k hk,
      .inl ⟨⟨rfl, hlookup⟩, hclean.old k⟩, ?_⟩
    intro k₀ hk₀
    obtain rfl := Option.some.inj (hlookup.symm.trans hk₀)
    rfl
  held _ name h := absurd h.symm (Option.some_ne_none name)
  plan _ mode h := absurd h.symm (Option.some_ne_none mode)
  kept n := (hclean.kept _).le
  there n hn := by
    obtain ⟨k, hk⟩ := Option.ne_none_iff_exists'.mp hn
    have hmem := FileSystem.mem_links_of_lookup hk
    refine ⟨fun hnone => ?_, ?_⟩
    · exact Option.some_ne_none k
        (hk.symm.trans (FileSystem.lookup_of_single (hclean.single n) hnone))
    · show 0 < fs₀.kept (.file n)
      rw [hclean.kept]
      exact List.length_pos_of_mem hmem
  renamed _ h := absurd h (by simp [Storage.start])
  durable _ h := absurd h (by simp [Storage.start])

/-- A call goes on, gives up or is killed, and keeps no file. -/
theorem Inv.set_ended (h : Inv jobs fs₀ s) (hp : Private jobs s i fs)
    (hold : (s.phase i).placed = true → q.placed = true)
    (hq : q = .raised ∨ q = .killed ∨ q = .returned false) : Inv jobs fs₀ (s.set i fs q) := by
  obtain rfl | rfl | rfl := hq
  all_goals
    exact h.set_free hp hold (fun _ => rfl)
      (fun _ hmode => absurd hmode.symm (Option.some_ne_none _)) (by simp) (by simp)

theorem Inv.abandon (h : Inv jobs fs₀ s) (hp : Private jobs s i fs)
    (hplaced : (s.phase i).placed = false) {mode : ℕ} (hmode : (s.phase i).plan = some mode) :
    Inv jobs fs₀ (s.abandon jobs i inp fs mode) := by
  have hold : ∀ {q : Phase β}, (s.phase i).placed = true → q.placed = true :=
    fun hp => absurd (hplaced.symm.trans hp) Bool.false_ne_true
  rw [State.abandon]
  split
  · exact h.set_free hp hold (fun _ => rfl) (fun m hm => .inl (hm ▸ hmode)) (by simp) (by simp)
  · exact h.set_ended hp hold (.inl rfl)

/-- The inode that a call holds, and how far it is. -/
theorem Inv.holds (h : Inv jobs fs₀ s) {name : Name} (hphase : s.phase i = q)
    (hname : q.name (jobs i).path = some name) :
    ∃ k, Holds jobs s.fs i (s.phase i) name k ∧ Progress (jobs i).data k (s.fs.inode k) q := by
  subst hphase
  obtain ⟨k, hk⟩ := h.held i name hname
  exact ⟨k, hk, hk.progress⟩

/-- A call does its next step. -/
theorem Inv.proceed (h : Inv jobs fs₀ s)
    (hquiet : ∀ mode, s.phase i = .escalated mode →
      ∀ j, j ≠ i → (jobs j).path = (jobs i).path → (s.phase j).installs = false) :
    Inv jobs fs₀ (s.proceed jobs i inp (s.phase i)) := by
  cases hphase : s.phase i with
  | ready =>
    refine h.set_free Private.refl ?_ (fun _ => rfl) ?_ (by simp) (by simp)
    · exact fun hp => absurd ((congrArg Phase.placed hphase).symm.trans hp) Bool.false_ne_true
    · exact fun mode hmode => .inr (Option.some.inj hmode.symm)
  | statted mode =>
    rw [State.proceed, State.makeTemp]
    split
    case isTrue => exact h
    case isFalse hsome =>
      refine h.set_create rfl ?_ (hphase ▸ rfl) (hphase ▸ rfl) ⟨rfl, rfl, rfl⟩
      exact fun j _ => h.name_ne_of_none (Option.not_isSome_iff_eq_none.mp hsome)
  | writing random ino mode rest =>
    obtain ⟨k, hk, rfl, hdata, hinst⟩ := h.holds hphase rfl
    cases rest with
    | nil =>
      refine h.set_inode hk rfl ⟨?_, rfl, hinst⟩ rfl (hphase ▸ rfl) (hphase ▸ rfl)
      exact (List.append_nil _).symm.trans hdata
    | cons b rest =>
      refine h.set_inode hk rfl ⟨rfl, ?_, hinst⟩ rfl (hphase ▸ rfl) (hphase ▸ rfl)
      show (_ ++ (b :: rest).take inp.count) ++ (b :: rest).drop inp.count = _
      rw [List.append_assoc, List.take_append_drop]
      exact hdata
  | flushed random mode =>
    obtain ⟨k, hk, hdata, hsynced, hinst⟩ := h.holds hphase rfl
    rw [State.proceed, State.chmodName, hk.lookup]
    exact h.set_inode hk rfl ⟨hdata, hsynced, hinst, rfl⟩ rfl (hphase ▸ rfl) (hphase ▸ rfl)
  | moded random mode =>
    obtain ⟨k, hk, hdata, hsynced, -, hmode⟩ := h.holds hphase rfl
    exact h.set_rename (hphase ▸ rfl) hk (hphase ▸ rfl) (hphase ▸ rfl) hmode hdata
      (fun _ => hsynced) (.inl rfl)
  | renamed => exact h.set_syncDir hphase
  | escalated mode =>
    refine h.set_create rfl ?_ (hphase ▸ rfl) (hphase ▸ rfl) ⟨rfl, rfl, rfl⟩
    intro j hji hname
    obtain ⟨hpath, hinstalls⟩ := installs_of_staged hname
    exact Bool.false_ne_true ((hquiet mode hphase j hji hpath).symm.trans hinstalls)
  | installing ino mode rest =>
    obtain ⟨k, hk, rfl, hdata, hinst⟩ := h.holds hphase rfl
    cases rest with
    | nil =>
      refine h.set_inode hk rfl ⟨?_, hinst, rfl⟩ rfl (hphase ▸ rfl) (hphase ▸ rfl)
      exact (List.append_nil _).symm.trans hdata
    | cons b rest =>
      refine h.set_inode hk rfl ⟨rfl, ?_, hinst⟩ rfl (hphase ▸ rfl) (hphase ▸ rfl)
      show (_ ++ (b :: rest).take inp.count) ++ (b :: rest).drop inp.count = _
      rw [List.append_assoc, List.take_append_drop]
      exact hdata
  | staged mode =>
    obtain ⟨k, hk, hdata, hinst, hmode⟩ := h.holds hphase rfl
    have hsome : (s.fs.lookup (.staged (jobs i).path)).isSome = true :=
      Option.isSome_iff_exists.mpr ⟨k, hk.lookup⟩
    rw [State.proceed, State.move, if_pos hsome]
    exact h.set_rename (hphase ▸ rfl) hk (hphase ▸ rfl) (hphase ▸ rfl) hmode hdata
      (fun hfalse => absurd (hfalse.symm.trans hinst) Bool.false_ne_true) (.inr rfl)
  | returned flushed => exact h
  | raised => exact h
  | killed => exact h

/-- A step of a call fails. -/
theorem Inv.fail (h : Inv jobs fs₀ s)
    (hquiet : ∀ mode, s.phase i = .escalated mode →
      ∀ j, j ≠ i → (jobs j).path = (jobs i).path → (s.phase j).installs = false) :
    Inv jobs fs₀ (s.fail jobs i inp (s.phase i)) := by
  have hheld : ∀ {name}, (s.phase i).name (jobs i).path = some name →
      Private jobs s i (s.cleaned inp name) := by
    intro name hname
    obtain ⟨k, hk⟩ := h.held i name hname
    exact Private.cleaned (fun n => name_ne_file hname) fun j hji => h.name_ne hk hji
  have hold : ∀ {p q : Phase β}, s.phase i = p → p.placed = false →
      (s.phase i).placed = true → q.placed = true :=
    fun hp hfalse htrue => absurd (hfalse.symm.trans (hp ▸ htrue)) Bool.false_ne_true
  cases hphase : s.phase i with
  | ready => exact h.set_ended Private.refl (hold hphase rfl) (.inl rfl)
  | statted mode => exact h.abandon Private.refl (hphase ▸ rfl) (hphase ▸ rfl)
  | writing random ino mode rest =>
    exact h.abandon (hheld (hphase ▸ rfl)) (hphase ▸ rfl) (hphase ▸ rfl)
  | flushed random mode => exact h.abandon (hheld (hphase ▸ rfl)) (hphase ▸ rfl) (hphase ▸ rfl)
  | moded random mode => exact h.abandon (hheld (hphase ▸ rfl)) (hphase ▸ rfl) (hphase ▸ rfl)
  | renamed => exact h.set_ended Private.refl (fun _ => rfl) (.inr (.inr rfl))
  | escalated mode =>
    refine h.set_ended (Private.cleaned (fun n => Name.noConfusion) ?_) (hold hphase rfl) (.inl rfl)
    intro j hji hname
    obtain ⟨hpath, hinstalls⟩ := installs_of_staged hname
    exact Bool.false_ne_true ((hquiet mode hphase j hji hpath).symm.trans hinstalls)
  | installing ino mode rest =>
    exact h.set_ended (hheld (hphase ▸ rfl)) (hold hphase rfl) (.inl rfl)
  | staged mode => exact h.set_ended (hheld (hphase ▸ rfl)) (hold hphase rfl) (.inl rfl)
  | returned flushed => exact h
  | raised => exact h
  | killed => exact h

/-- **The step lemma**: a quiet event keeps the invariant. -/
theorem Inv.step (h : Inv jobs fs₀ s) (hclean : Clean fs₀) {e : Event β} (hquiet : Quiet jobs s e) :
    Inv jobs fs₀ (step jobs s e) := by
  cases e with
  | act i inp =>
    rw [Storage.step]
    split
    · exact h.proceed hquiet
    · exact h.fail hquiet
  | kill i =>
    rw [Storage.step]
    split
    · exact h.set_ended Private.refl (fun _ => rfl) (.inr (.inl rfl))
    · exact h
  | writeback ino => exact h.writeback hclean ino
  | powerLoss drop garbage => exact h.powerLoss drop garbage hquiet

/-- What the invariant says to a reader. -/
theorem Inv.atomic (h : Inv jobs fs₀ s) : Atomic jobs fs₀ s where
  complete n k hk := (h.file n k (FileSystem.mem_links_of_lookup hk)).whole.imp
    (fun hold => hold.1) fun ⟨j, hpath, hmaker, hdata, _⟩ => ⟨j, hpath, hmaker, hdata⟩
  mode n k hk := (h.file n k (FileSystem.mem_links_of_lookup hk)).mode
  there _ hn := h.lookup_ne_none hn
  untouched _ hi _ _ hk := h.maker_ne (hi ▸ rfl) hk
  durable := h.durable

/-- **Replacement is atomic** in every run in which one call for a file at most is in `install` at
a time and the power does not fail before what `install` wrote is written back, whatever fails,
whoever is killed and wherever the power fails otherwise. -/
theorem replace_atomic (events : List (Event β)) (hclean : Clean fs₀)
    (h : Each (step jobs) (Quiet jobs) (start fs₀) events) :
    Atomic jobs fs₀ (Run.run (step jobs) (start fs₀) events) :=
  (h.invariant (Inv.start hclean) fun _ _ _ hs hquiet => hs.step hclean hquiet).atomic

/-- The file `a`, and nothing else. -/
def sampleDirectory : FileSystem Name ℕ ℕ where
  inode _ := { data := [9], synced := true, mode := 0o600 }
  next := 1
  links n := if n = .file ['a'] then [some 0] else []
  kept n := (if n = .file ['a'] then [some 0] else []).length

theorem sampleDirectory_clean : Clean sampleDirectory := by
  have hlinks : ∀ {n o}, o ∈ sampleDirectory.links n → o = some 0 := by
    intro n o ho
    rw [sampleDirectory] at ho
    dsimp only at ho
    split at ho
    · exact List.mem_singleton.mp ho
    · exact absurd ho List.not_mem_nil
  refine ⟨fun _ _ _ => rfl, fun _ => rfl, fun n k hk => ?_, fun _ => rfl, fun n => ?_⟩
  · exact (Option.some.inj (hlinks hk)).symm ▸ Nat.zero_lt_one
  · rw [sampleDirectory]
    dsimp only
    split
    · exact le_rfl
    · exact Nat.zero_le 1

/-- Every call writes its number twice into `a`. -/
def sampleJobs (escalates : Bool) (i : ℕ) : Job ℕ := ⟨['a'], [i, i], 0o644, escalates⟩

/-- The steps of the call `i` that is refused, up to `mv`. -/
def sampleEscalation (i : ℕ) : List (Event ℕ) :=
  [.act i {}, .act i { outcome := .denied }, .act i {}, .act i { count := 2 }, .act i {}, .act i {}]

/-- One call that goes through `install`. -/
theorem replace_atomic_escalated :
    let s := Run.run (step (sampleJobs true)) (start sampleDirectory) (sampleEscalation 5)
    (s.fs.lookup (.file ['a'])).map (fun k => ((s.fs.inode k).data, (s.fs.inode k).mode)) =
      some ([5, 5], 0o600) ∧ Atomic (sampleJobs true) sampleDirectory s := by
  have hdirect : ∀ {p : Phase ℕ} {mode : ℕ} {P : Prop},
      p.direct = true ∨ p.installs = true → p = .escalated mode → P := by
    rintro p mode P (hp | hp) rfl
    · exact absurd hp Bool.false_ne_true
    · exact absurd hp Bool.false_ne_true
  refine ⟨by decide, replace_atomic _ sampleDirectory_clean ⟨fun _ => hdirect (.inl rfl),
    fun _ => hdirect (.inl rfl), fun _ _ j hj _ => ?_, fun _ => hdirect (.inr rfl),
    fun _ => hdirect (.inr rfl), fun _ => hdirect (.inr rfl), trivial⟩⟩
  show Phase.installs (Function.update (Function.update (fun _ => Phase.ready) 5 _) 5 _ j) = false
  rw [Function.update_of_ne hj, Function.update_of_ne hj]
  rfl

/-- With two calls in `install` at once, a reader finds an empty file. -/
theorem not_replace_atomic : ¬Atomic (sampleJobs true) sampleDirectory
    (Run.run (step (sampleJobs true)) (start sampleDirectory)
      ([.act 1 {}, .act 1 { outcome := .denied }, .act 2 {}, .act 2 { outcome := .denied },
        .act 1 {}, .act 1 { count := 2 }, .act 1 {}, .act 2 {}, .act 1 {}])) := by
  intro h
  obtain ⟨hold, -⟩ | ⟨i, -, hmaker, hdata⟩ := h.complete ['a'] 2 (by decide)
  · exact absurd (congrArg Inode.maker hold) (by decide)
  · obtain rfl : 2 = i := Option.some.inj hmaker
    exact absurd hdata (by decide)

/-! ## Calls that never escalate -/

/-- What calls made was not made by `install`. -/
def MadeDirect (fs : FileSystem Name β ℕ) : Prop :=
  ∀ k, (fs.inode k).maker ≠ none → (fs.inode k).installed = false

/-- No call has escalated. -/
structure Direct (s : State β) : Prop where
  phase : ∀ i, (s.phase i).direct = true
  made : MadeDirect s.fs

theorem MadeDirect.setInode (h : MadeDirect fs) {k : ℕ} {f : Inode β ℕ → Inode β ℕ}
    (hmaker : (f (fs.inode k)).maker = (fs.inode k).maker)
    (hinst : (f (fs.inode k)).installed = (fs.inode k).installed) :
    MadeDirect (fs.setInode k f) := by
  intro l hl
  by_cases hlk : l = k
  · subst hlk
    rw [FileSystem.inode_setInode_self] at hl ⊢
    exact hinst.trans (h l (hmaker ▸ hl))
  · rw [FileSystem.inode_setInode_of_ne hlk] at hl ⊢
    exact h l hl

theorem MadeDirect.cleaned (h : MadeDirect s.fs) {name : Name} :
    MadeDirect (s.cleaned inp name) := by
  rw [State.cleaned]
  split
  · exact h
  · exact h

theorem Direct.set (h : Direct s) (hq : q.direct = true) (hmade : MadeDirect fs) :
    Direct (s.set i fs q) where
  phase j := by
    by_cases hji : j = i
    · subst hji
      rw [set_phase_self]
      exact hq
    · rw [set_phase_of_ne hji]
      exact h.phase j
  made := hmade

theorem Direct.abandon (h : Direct s) (hjob : (jobs i).escalates = false) (hmade : MadeDirect fs)
    {mode : ℕ} : Direct (s.abandon jobs i inp fs mode) := by
  rw [State.abandon, hjob]
  exact h.set (by simp [Phase.direct]) hmade

/-- A step of a call that never escalates. -/
theorem Direct.act (h : Direct s) (hjob : (jobs i).escalates = false) :
    Direct (s.proceed jobs i inp (s.phase i)) ∧ Direct (s.fail jobs i inp (s.phase i)) := by
  have hdirect := h.phase i
  have hchmod : ∀ name mode, MadeDirect (s.chmodName name mode) := by
    intro name mode
    rw [State.chmodName]
    split
    · exact h.made.setInode rfl rfl
    · exact h.made
  generalize s.phase i = p at hdirect
  cases p with
  | ready => exact ⟨h.set rfl h.made, h.set rfl h.made⟩
  | statted mode =>
    refine ⟨?_, h.abandon hjob h.made⟩
    rw [State.proceed, State.makeTemp]
    split
    case isTrue => exact h
    case isFalse =>
      refine h.set rfl fun k hk => ?_
      by_cases hnew : k = s.fs.next
      · subst hnew
        rw [FileSystem.inode_create_self]
      · rw [FileSystem.inode_create_of_ne hnew] at hk ⊢
        exact h.made k hk
  | writing random ino mode rest =>
    refine ⟨?_, h.abandon hjob h.made.cleaned⟩
    cases rest with
    | nil => exact h.set rfl (h.made.setInode rfl rfl)
    | cons b rest => exact h.set rfl (h.made.setInode rfl rfl)
  | flushed random mode => exact ⟨h.set rfl (hchmod _ _), h.abandon hjob h.made.cleaned⟩
  | moded random mode => exact ⟨h.set rfl h.made, h.abandon hjob h.made.cleaned⟩
  | renamed => exact ⟨h.set rfl h.made, h.set rfl h.made⟩
  | escalated | installing | staged => exact absurd hdirect Bool.false_ne_true
  | returned | raised | killed => exact ⟨h, h⟩

theorem Direct.step (h : Direct s) (hjobs : ∀ i, (jobs i).escalates = false) (e : Event β) :
    Direct (step jobs s e) := by
  cases e with
  | act i inp =>
    rw [Storage.step]
    split
    · exact (h.act (hjobs i)).1
    · exact (h.act (hjobs i)).2
  | kill i =>
    rw [Storage.step]
    split
    · exact h.set rfl h.made
    · exact h
  | writeback ino => exact
    ⟨h.phase, h.made.setInode (k := ino) (f := fun i => { i with synced := true }) rfl rfl⟩
  | powerLoss drop garbage =>
    refine ⟨fun i => ?_, fun k hk => h.made k hk⟩
    show (if (s.phase i).active then Phase.killed else s.phase i).direct = true
    split
    · rfl
    · exact h.phase i

/-- What such calls do is quiet. -/
theorem Direct.quiet (h : Direct s) (hinv : Inv jobs fs₀ s) (hclean : Clean fs₀) (e : Event β) :
    Quiet jobs s e := by
  cases e with
  | act i inp =>
    intro mode hmode
    exact absurd ((hmode ▸ h.phase i : Phase.direct (.escalated mode) = true)) Bool.false_ne_true
  | kill | writeback => trivial
  | powerLoss drop garbage =>
    intro n k hk hinst
    obtain ⟨⟨hold, hlookup⟩, -⟩ | ⟨i, -, hmaker, -⟩ := (hinv.file n k hk).whole
    · exact hold ▸ hclean.flushed n k (FileSystem.mem_links_of_lookup hlookup)
    · have hfalse := h.made k (hmaker ▸ Option.some_ne_none i)
      exact absurd (hfalse.symm.trans hinst) Bool.false_ne_true

/-- **State files are replaced atomically**: calls that never escalate, any number of them at once,
whatever fails, whoever is killed and whenever the power fails. -/
theorem write_atomic (events : List (Event β)) (hclean : Clean fs₀)
    (hjobs : ∀ i, (jobs i).escalates = false) :
    Atomic jobs fs₀ (Run.run (step jobs) (start fs₀) events) := by
  have hrun : Inv jobs fs₀ (Run.run (step jobs) (start fs₀) events) ∧
      Direct (Run.run (step jobs) (start fs₀) events) := by
    refine Run.run_invariant (I := fun s => Inv jobs fs₀ s ∧ Direct s) ?_ ?_
    · refine ⟨Inv.start hclean, fun i => rfl, fun k hk => absurd (hclean.old k) hk⟩
    · rintro s e ⟨hinv, hdirect⟩
      exact ⟨hinv.step hclean (hdirect.quiet hinv hclean e), hdirect.step hjobs e⟩
  exact hrun.1.atomic

/-- Two calls at once: one is killed, the other returned when the power fails. -/
theorem write_atomic_two :
    let s := Run.run (step (sampleJobs false)) (start sampleDirectory)
      [.act 1 {}, .act 2 {}, .act 1 { random := 7 }, .act 2 { random := 8 }, .act 1 { count := 1 },
        .act 2 { count := 2 }, .act 2 {}, .act 2 {}, .act 2 {}, .act 2 {}, .kill 1,
        .powerLoss (fun _ => 9) fun _ => [0]]
    (s.fs.lookup (.file ['a'])).map (fun k => ((s.fs.inode k).data, (s.fs.inode k).mode)) =
      some ([2, 2], 0o600) ∧ Atomic (sampleJobs false) sampleDirectory s :=
  ⟨by decide, write_atomic _ sampleDirectory_clean fun _ => rfl⟩

end Sysforge.Storage
