import Mathlib.Data.List.Basic
import Mathlib.Logic.Function.Basic

/-!
# A file system that can lose power

A directory entry keeps the inodes it named, the newest first: a power loss can bring back any of
them down to what was last flushed, each entry on its own. The data of an inode survives when it was
flushed; of one that was not, a power loss leaves anything. Metadata of inodes is journalled.
-/

namespace Sysforge

/-- A file: its bytes, whether the disk has them, its mode, and who made it (`none`: it was there),
by which program. -/
structure Inode (β ι : Type*) where
  data : List β := []
  synced : Bool := false
  mode : ℕ
  maker : Option ι := none
  installed : Bool := false

/-- Names `ν`, bytes `β`, processes `ι`. -/
structure FileSystem (ν β ι : Type*) where
  inode : ℕ → Inode β ι
  /-- The first free inode. -/
  next : ℕ
  /-- What each name meant, the newest first; `none` is no file. -/
  links : ν → List (Option ℕ)
  /-- How many of the oldest meanings are on the disk. -/
  kept : ν → ℕ

namespace FileSystem

variable {ν β ι : Type*} [DecidableEq ν] (fs : FileSystem ν β ι)

/-! ## The operations -/

/-- The inode a name means. -/
def lookup (n : ν) : Option ℕ := ((fs.links n).head?).join

/-- Let a name mean something else. -/
def link (n : ν) (o : Option ℕ) : FileSystem ν β ι :=
  { fs with links := Function.update fs.links n (o :: fs.links n) }

/-- `unlink` -/
def unlink (n : ν) : FileSystem ν β ι := fs.link n none

/-- `rename` -/
def rename (a b : ν) : FileSystem ν β ι := (fs.link b (fs.lookup a)).link a none

/-- Change an inode. -/
def setInode (k : ℕ) (f : Inode β ι → Inode β ι) : FileSystem ν β ι :=
  { fs with inode := Function.update fs.inode k (f (fs.inode k)) }

/-- `open` with `O_CREAT | O_EXCL`, of a new name. -/
def create (n : ν) (i : Inode β ι) : FileSystem ν β ι :=
  { (fs.setInode fs.next fun _ => i).link n (some fs.next) with next := fs.next + 1 }

/-- `write` -/
def append (k : ℕ) (bs : List β) : FileSystem ν β ι :=
  fs.setInode k fun i => { i with data := i.data ++ bs, synced := false }

/-- `fsync` of a file, or a writeback. -/
def fsync (k : ℕ) : FileSystem ν β ι := fs.setInode k fun i => { i with synced := true }

/-- `chmod` -/
def chmod (k : ℕ) (mode : ℕ) : FileSystem ν β ι := fs.setInode k fun i => { i with mode := mode }

/-- `fsync` of the directory. -/
def syncDir : FileSystem ν β ι := { fs with kept := fun n => (fs.links n).length }

/-- A power loss that takes back at most `drop n` meanings of a name and leaves `garbage`. -/
def powerLoss (drop : ν → ℕ) (garbage : ℕ → List β) : FileSystem ν β ι :=
  let links := fun n => (fs.links n).drop (min (drop n) ((fs.links n).length - fs.kept n))
  { fs with
    inode := fun k => { fs.inode k with
      data := if (fs.inode k).synced then (fs.inode k).data else garbage k
      synced := true }
    links := links
    kept := fun n => (links n).length }

/-- The meanings of a name that a power loss cannot take back. -/
def durable (n : ν) : List (Option ℕ) := (fs.links n).drop ((fs.links n).length - fs.kept n)

/-! ## What they change -/

variable {fs} {a b n : ν} {k l : ℕ} {o : Option ℕ} {f : Inode β ι → Inode β ι} {i : Inode β ι}

theorem links_link_self : (fs.link n o).links n = o :: fs.links n := Function.update_self ..

theorem links_link_of_ne (h : a ≠ n) : (fs.link n o).links a = fs.links a :=
  Function.update_of_ne h ..

theorem lookup_link_of_ne (h : a ≠ n) : (fs.link n o).lookup a = fs.lookup a := by
  rw [lookup, links_link_of_ne h, lookup]

omit [DecidableEq ν] in
theorem inode_setInode_self : (fs.setInode k f).inode k = f (fs.inode k) := Function.update_self ..

omit [DecidableEq ν] in
theorem inode_setInode_of_ne (h : l ≠ k) : (fs.setInode k f).inode l = fs.inode l :=
  Function.update_of_ne h ..

omit [DecidableEq ν] in
theorem inode_fsync : ∃ b, ((fs.inode k).synced = true → b = true) ∧
    (fs.fsync l).inode k = { fs.inode k with synced := b } := by
  by_cases hk : k = l
  · subst hk
    exact ⟨true, fun _ => rfl, inode_setInode_self⟩
  · exact ⟨(fs.inode k).synced, fun h => h, inode_setInode_of_ne hk⟩

theorem inode_create_of_ne (h : k ≠ fs.next) : (fs.create n i).inode k = fs.inode k :=
  Function.update_of_ne h ..

theorem inode_create_self : (fs.create n i).inode fs.next = i := Function.update_self ..

theorem links_create_of_ne (h : a ≠ n) : (fs.create n i).links a = fs.links a :=
  Function.update_of_ne h ..

theorem lookup_create_self : (fs.create n i).lookup n = some fs.next := by
  have hlinks : (fs.create n i).links n = some fs.next :: fs.links n := Function.update_self ..
  rw [lookup, hlinks]
  rfl

theorem lookup_create_of_ne (h : a ≠ n) : (fs.create n i).lookup a = fs.lookup a := by
  rw [lookup, links_create_of_ne h, lookup]

theorem links_rename_of_ne (ha : n ≠ a) (hb : n ≠ b) : (fs.rename a b).links n = fs.links n := by
  rw [rename, links_link_of_ne ha, links_link_of_ne hb]

theorem links_rename_target (h : b ≠ a) : (fs.rename a b).links b = fs.lookup a :: fs.links b := by
  rw [rename, links_link_of_ne h, links_link_self]

omit [DecidableEq ν] in
theorem mem_links_of_lookup (h : fs.lookup n = some k) : some k ∈ fs.links n := by
  rw [lookup] at h
  cases hl : fs.links n with
  | nil =>
    rw [hl] at h
    exact absurd h.symm (Option.some_ne_none k)
  | cons o l =>
    rw [hl] at h
    exact (show o = some k from h) ▸ List.mem_cons_self

omit [DecidableEq ν] in
theorem lookup_of_single (h : (fs.links n).length ≤ 1) (ho : o ∈ fs.links n) :
    fs.lookup n = o := by
  obtain ⟨o', hl⟩ := List.length_eq_one_iff.mp (Nat.le_antisymm h (List.length_pos_of_mem ho))
  rw [lookup, hl]
  rw [hl] at ho
  exact (List.mem_singleton.mp ho).symm

/-! ## Power losses -/

omit [DecidableEq ν] in
theorem durable_syncDir : fs.syncDir.durable n = fs.links n := by
  show (fs.links n).drop ((fs.links n).length - (fs.links n).length) = _
  rw [Nat.sub_self, List.drop_zero]

variable {drop : ν → ℕ} {garbage : ℕ → List β}

omit [DecidableEq ν] in
/-- What a power loss leaves was there. -/
theorem mem_links_powerLoss (h : o ∈ (fs.powerLoss drop garbage).links n) : o ∈ fs.links n :=
  List.mem_of_mem_drop h

omit [DecidableEq ν] in
/-- What was flushed is whole. -/
theorem inode_powerLoss (h : (fs.inode k).synced = true) :
    (fs.powerLoss drop garbage).inode k = fs.inode k := by
  show { fs.inode k with
    data := if (fs.inode k).synced then (fs.inode k).data else garbage k, synced := true } = _
  rw [if_pos h, ← h]

omit [DecidableEq ν] in
theorem kept_powerLoss (h : fs.kept n ≤ (fs.links n).length) :
    fs.kept n ≤ (fs.powerLoss drop garbage).kept n := by
  show _ ≤ ((fs.links n).drop (min (drop n) ((fs.links n).length - fs.kept n))).length
  rw [List.length_drop]
  omega

omit [DecidableEq ν] in
/-- What is durable stays, and is durable. -/
theorem mem_durable_powerLoss (h : o ∈ fs.durable n) :
    o ∈ (fs.powerLoss drop garbage).durable n := by
  have hall : (fs.powerLoss drop garbage).durable n = (fs.powerLoss drop garbage).links n :=
    @durable_syncDir _ _ _ (fs.powerLoss drop garbage) n
  rw [hall]
  exact (List.drop_subset_drop_left _ (Nat.min_le_right ..)) h

/-- A meaning given on top leaves the durable ones. -/
theorem durable_link (h : fs.kept a ≤ (fs.links a).length) :
    fs.durable a ⊆ (fs.link n o).durable a := by
  by_cases ha : a = n
  · subst ha
    rw [durable, durable, links_link_self]
    show _ ⊆ (o :: fs.links a).drop ((fs.links a).length + 1 - fs.kept a)
    rw [Nat.succ_sub h, List.drop_succ_cons]
    exact fun _ hx => hx
  · rw [durable, durable, links_link_of_ne ha]
    exact fun _ hx => hx

theorem durable_rename (h : fs.kept n ≤ (fs.links n).length) (ha : n ≠ a) :
    fs.durable n ⊆ (fs.rename a b).durable n := by
  have hsame : (fs.rename a b).durable n = (fs.link b (fs.lookup a)).durable n := by
    rw [durable, durable, rename, links_link_of_ne ha]
    rfl
  rw [hsame]
  exact durable_link h

end FileSystem

end Sysforge
