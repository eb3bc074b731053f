import Mathlib.Data.List.Induction
import Mathlib.Logic.Function.Basic

/-!
# BOLT on the Pass-4a tree

`optimize_in_build` puts back the kept originals of its targets, keeps those that are not kept
yet, rewrites the targets in place with their old mtimes and repackages, where ninja relinks a
library whose mtime changed. A copy can be cut by a failure or a crash. `sound_of_allowed` says that
the originals are never lost in a sequence of runs whose interruptions and targets meet a condition.
-/

namespace Sysforge.Toolchain.Bolt

/-! ## The tree -/

/-- What a library file holds: the linker's output, that of `llvm-bolt`, or a part of a copy. -/
inductive Content (ι : Type*) where
  | linked (lib : ι)
  | bolted (input : Content ι)
  | truncated
  deriving DecidableEq

/-- A library file. -/
structure File (ι : Type*) where
  content : Content ι
  mtime : ℕ
  deriving DecidableEq

/-- The libraries of the tree, the originals in `PREBOLT_DIR` and the mtimes in `.ninja_log`. -/
structure Tree (ι : Type*) where
  file : ι → File ι
  saved : ι → Option (File ι)
  ninja : ι → ℕ

variable {ι : Type*} [DecidableEq ι]

/-- The tree as Pass 4a leaves it. -/
def fresh (mtime : ι → ℕ) : Tree ι where
  file lib := ⟨.linked lib, mtime lib⟩
  saved _ := none
  ninja := mtime

/-- `is_bolted`. -/
def isBolted : Content ι → Bool
  | .bolted _ => true
  | _ => false

/-- `has_relocations`, of libraries that Pass 4a linked with `--emit-relocs`. The section headers
stand at the end of a file. -/
def hasRelocations : Content ι → Bool
  | .truncated => false
  | _ => true

/-- A library file is written. -/
def Tree.setFile (t : Tree ι) (lib : ι) (f : File ι) : Tree ι :=
  { t with file := Function.update t.file lib f }

/-- An original is written. -/
def Tree.setSaved (t : Tree ι) (lib : ι) (f : Option (File ι)) : Tree ι :=
  { t with saved := Function.update t.saved lib f }

/-! ## The code -/

/-- `bolt_targets`. -/
def boltTargets (clang llvm : List ι) (libllvm : Bool) : List ι :=
  clang ++ if libllvm then llvm else []

/-- `_restore_originals`, for one library. -/
def restoreOriginal (t : Tree ι) (lib : ι) : Tree ι :=
  match t.saved lib with
  | some f => t.setFile lib f
  | none => t

/-- `_restore_originals`. -/
def restoreOriginals (targets : List ι) (t : Tree ι) : Tree ι := targets.foldl restoreOriginal t

/-- `_save_originals`, for one library. -/
def saveOriginal (t : Tree ι) (lib : ι) : Tree ι :=
  if (t.saved lib).isSome then t else t.setSaved lib (some (t.file lib))

/-- `_save_originals`. -/
def saveOriginals (targets : List ι) (t : Tree ι) : Tree ι := targets.foldl saveOriginal t

/-- `replace_keep_mtime`. -/
def replaceKeepMtime (new : ι → Content ι) (t : Tree ι) (lib : ι) : Tree ι :=
  t.setFile lib ⟨new lib, (t.file lib).mtime⟩

/-- `replace_keep_mtime` for the rewritten copies. -/
def replaceAll (new : ι → Content ι) (targets : List ι) (t : Tree ι) : Tree ι :=
  targets.foldl (replaceKeepMtime new) t

/-- The originals over the rewritten libraries, when the repackage step failed. -/
def putBack (targets : List ι) (t : Tree ι) : Tree ι :=
  replaceAll (fun lib => ((t.saved lib).getD (t.file lib)).content) targets t

/-- `ninja install`: a library whose mtime changed is relinked. -/
def ninjaInstall (now : ℕ) (t : Tree ι) : Tree ι where
  file lib := if (t.file lib).mtime = t.ninja lib then t.file lib else ⟨.linked lib, now⟩
  saved := t.saved
  ninja lib := if (t.file lib).mtime = t.ninja lib then t.ninja lib else now

/-! ## Interruptions -/

/-- Where a copy is cut: before it wrote anything, within the content, or before the mtime. -/
inductive Cut where
  | before
  | within (now : ℕ)
  | unstamped (now : ℕ)
  deriving DecidableEq

/-- What a copy that is cut leaves of its destination. -/
def Cut.apply (cut : Cut) (new : Content ι) (old : Option (File ι)) : Option (File ι) :=
  match cut with
  | .before => old
  | .within now => some ⟨.truncated, now⟩
  | .unstamped now => some ⟨new, now⟩

/-- The copy of an original is cut, unless there is one. -/
def cutSave (cut : Cut) (t : Tree ι) (lib : ι) : Tree ι :=
  if (t.saved lib).isSome then t else t.setSaved lib (cut.apply (t.file lib).content none)

/-- The replacement of a library is cut. -/
def cutReplace (cut : Cut) (new : ι → Content ι) (t : Tree ι) (lib : ι) : Tree ι :=
  t.setFile lib ((cut.apply (new lib) (some (t.file lib))).getD (t.file lib))

/-- How the part of a run behind its checks goes: the cycle ends early, or `n` libraries are saved
or replaced before an interruption, or the repackage step is interrupted, or all goes well. -/
inductive Outcome where
  | cycleFails
  | cycleRaises
  | cycleCrashes
  | saving (n : ℕ) (cut : Cut) (crash : Bool)
  | replacing (n : ℕ) (cut : Cut) (crash : Bool)
  | repackaging (installed : Bool) (now : ℕ) (crash : Bool)
  | done (now : ℕ)
  deriving DecidableEq

/-- A run of `optimize_in_build` on the tree. -/
structure Run where
  libllvm : Bool
  outcome : Outcome
  deriving DecidableEq

/-- How a run ended. -/
inductive Result where
  | skipped
  | raised
  | crashed
  | changed
  deriving DecidableEq

/-- The end of an interrupted run. -/
def ended (crash : Bool) : Result := if crash then .crashed else .raised

/-- The tree after the cycle, which rewrote the targets, and how the run ended. -/
def finish (targets : List ι) (t : Tree ι) : Outcome → Tree ι × Result
  | .cycleFails => (t, .skipped)
  | .cycleRaises => (t, .raised)
  | .cycleCrashes => (t, .crashed)
  | .saving n cut crash =>
    ((targets.drop n).head?.toList.foldl (cutSave cut) (saveOriginals (targets.take n) t),
      ended crash)
  | .replacing n cut crash =>
    let new := fun lib => .bolted (t.file lib).content
    ((targets.drop n).head?.toList.foldl (cutReplace cut new)
      (replaceAll new (targets.take n) (saveOriginals targets t)), ended crash)
  | .repackaging installed now crash =>
    let new := fun lib => .bolted (t.file lib).content
    let t := replaceAll new targets (saveOriginals targets t)
    let t := if installed then ninjaInstall now t else t
    (if crash then t else putBack targets t, ended crash)
  | .done now =>
    let new := fun lib => .bolted (t.file lib).content
    (ninjaInstall now (replaceAll new targets (saveOriginals targets t)), .changed)

/-- `optimize_in_build`: the tree after it, how it ended, and what `llvm-bolt` was given. -/
def optimizeInBuild (clang llvm : List ι) (r : Run) (t : Tree ι) :
    Tree ι × Result × List (ι × Content ι) :=
  let targets := boltTargets clang llvm r.libllvm
  let t := restoreOriginals targets t
  if targets = [] then (t, .skipped, [])
  else if targets.any fun lib => isBolted (t.file lib).content then (t, .skipped, [])
  else if targets.any fun lib => !hasRelocations (t.file lib).content then (t, .skipped, [])
  else
    let (t', result) := finish targets t r.outcome
    (t', result, targets.map fun lib => (lib, (t.file lib).content))

/-- The tree after some runs. -/
def after (clang llvm : List ι) (mtime : ι → ℕ) (runs : List Run) : Tree ι :=
  runs.foldl (fun t r => (optimizeInBuild clang llvm r t).1) (fresh mtime)

/-! ## The property -/

/-- The library is the linker's with its mtime. -/
def IsOriginal (mtime : ι → ℕ) (t : Tree ι) (lib : ι) : Prop :=
  t.file lib = ⟨.linked lib, mtime lib⟩

/-- `llvm-bolt` is given the linker's originals, a run that raised or skipped leaves the targets as
they were linked, and one that returned `True` leaves exactly the targets rewritten. -/
structure Sound (clang llvm : List ι) (mtime : ι → ℕ) (t : Tree ι) (r : Run) : Prop where
  input : ∀ x ∈ (optimizeInBuild clang llvm r t).2.2, x.2 = .linked x.1
  kept : (optimizeInBuild clang llvm r t).2.1 = .raised ∨
    (optimizeInBuild clang llvm r t).2.1 = .skipped → ∀ lib ∈ boltTargets clang llvm r.libllvm,
      IsOriginal mtime (optimizeInBuild clang llvm r t).1 lib
  changed : (optimizeInBuild clang llvm r t).2.1 = .changed →
    ∀ lib, ((optimizeInBuild clang llvm r t).1.file lib).content =
      if lib ∈ boltTargets clang llvm r.libllvm then .bolted (.linked lib) else .linked lib

/-- No copy of an original is cut that has begun, a failure in the replacement comes before anything
is replaced, and before the repackage step the libraries that are no targets have the mtimes that
ninja knows and, where it goes well, are the linker's. -/
def AllowedOutcome (targets : List ι) (t : Tree ι) : Outcome → Prop
  | .saving n cut _ => cut = .before ∨ ∀ lib ∈ (targets.drop n).head?, (t.saved lib).isSome
  | .replacing n cut crash => crash = true ∨ (n = 0 ∧ cut = .before)
  | .repackaging installed _ _ =>
    installed = true → ∀ lib, lib ∉ targets → (t.file lib).mtime = t.ninja lib
  | .done _ => ∀ lib, lib ∉ targets →
    (t.file lib).mtime = t.ninja lib ∧ (t.file lib).content = .linked lib
  | _ => True

/-- The condition for a run on a tree. -/
def Allowed (clang llvm : List ι) (t : Tree ι) (r : Run) : Prop :=
  AllowedOutcome (boltTargets clang llvm r.libllvm) t r.outcome

/-! ## What the loops do to each library -/

section Loops

variable {t : Tree ι} {lib i : ι} {f : File ι}

theorem setFile_file (t : Tree ι) (lib : ι) (f : File ι) (i : ι) :
    (t.setFile lib f).file i = if i = lib then f else t.file i :=
  Function.update_apply t.file lib f i

theorem setSaved_saved (t : Tree ι) (lib : ι) (f : Option (File ι)) (i : ι) :
    (t.setSaved lib f).saved i = if i = lib then f else t.saved i :=
  Function.update_apply t.saved lib f i

theorem restoreOriginal_file (t : Tree ι) (lib i : ι) : (restoreOriginal t lib).file i =
    if i = lib then (t.saved i).getD (t.file i) else t.file i := by
  rw [restoreOriginal]
  cases hsaved : t.saved lib with
  | none =>
    split_ifs with hi
    · rw [hi, hsaved]
      rfl
    · rfl
  | some f =>
    dsimp only
    rw [setFile_file]
    split_ifs with hi
    · rw [hi, hsaved]
      rfl
    · rfl

theorem restoreOriginal_saved (t : Tree ι) (lib : ι) :
    (restoreOriginal t lib).saved = t.saved ∧ (restoreOriginal t lib).ninja = t.ninja := by
  rw [restoreOriginal]
  cases t.saved lib with
  | none => exact ⟨rfl, rfl⟩
  | some f => exact ⟨rfl, rfl⟩

theorem restoreOriginals_saved (targets : List ι) (t : Tree ι) :
    (restoreOriginals targets t).saved = t.saved ∧
      (restoreOriginals targets t).ninja = t.ninja := by
  induction targets generalizing t with
  | nil => exact ⟨rfl, rfl⟩
  | cons lib targets ih =>
    obtain ⟨hsaved, hninja⟩ := ih (restoreOriginal t lib)
    obtain ⟨hsaved', hninja'⟩ := restoreOriginal_saved t lib
    exact ⟨hsaved.trans hsaved', hninja.trans hninja'⟩

theorem restoreOriginals_file (targets : List ι) (t : Tree ι) (i : ι) :
    (restoreOriginals targets t).file i =
      if i ∈ targets then (t.saved i).getD (t.file i) else t.file i := by
  induction targets generalizing t with
  | nil => rfl
  | cons lib targets ih =>
    have hcons := ih (restoreOriginal t lib)
    rw [(restoreOriginal_saved t lib).1, restoreOriginal_file] at hcons
    refine hcons.trans ?_
    by_cases hi : i = lib
    · have hmem : i ∈ lib :: targets := List.mem_cons.mpr (.inl hi)
      rw [if_pos hi, if_pos hmem]
      cases t.saved i with
      | none => exact ite_self _
      | some f => exact ite_self _
    · rw [if_neg hi, if_congr (List.mem_cons.trans (or_iff_right hi)) rfl rfl]

theorem saveOriginal_saved (t : Tree ι) (lib i : ι) : (saveOriginal t lib).saved i =
    if i = lib then some ((t.saved i).getD (t.file i)) else t.saved i := by
  rw [saveOriginal]
  split_ifs with hsome hi hi
  · obtain ⟨f, hf⟩ := Option.isSome_iff_exists.mp hsome
    rw [hi, hf]
    rfl
  · rfl
  · rw [setSaved_saved, if_pos hi, hi, Option.not_isSome_iff_eq_none.mp hsome]
    rfl
  · rw [setSaved_saved, if_neg hi]

theorem saveOriginal_file (t : Tree ι) (lib : ι) :
    (saveOriginal t lib).file = t.file ∧ (saveOriginal t lib).ninja = t.ninja := by
  rw [saveOriginal]
  split_ifs
  · exact ⟨rfl, rfl⟩
  · exact ⟨rfl, rfl⟩

theorem saveOriginals_file (targets : List ι) (t : Tree ι) :
    (saveOriginals targets t).file = t.file ∧ (saveOriginals targets t).ninja = t.ninja := by
  induction targets generalizing t with
  | nil => exact ⟨rfl, rfl⟩
  | cons lib targets ih =>
    obtain ⟨hfile, hninja⟩ := ih (saveOriginal t lib)
    obtain ⟨hfile', hninja'⟩ := saveOriginal_file t lib
    exact ⟨hfile.trans hfile', hninja.trans hninja'⟩

theorem saveOriginals_saved (targets : List ι) (t : Tree ι) (i : ι) :
    (saveOriginals targets t).saved i =
      if i ∈ targets then some ((t.saved i).getD (t.file i)) else t.saved i := by
  induction targets generalizing t with
  | nil => rfl
  | cons lib targets ih =>
    have hcons := ih (saveOriginal t lib)
    rw [(saveOriginal_file t lib).1, saveOriginal_saved] at hcons
    refine hcons.trans ?_
    by_cases hi : i = lib
    · have hmem : i ∈ lib :: targets := List.mem_cons.mpr (.inl hi)
      rw [if_pos hi, if_pos hmem, Option.getD_some, ite_self]
    · rw [if_neg hi, if_congr (List.mem_cons.trans (or_iff_right hi)) rfl rfl]

theorem replaceAll_saved (new : ι → Content ι) (targets : List ι) (t : Tree ι) :
    (replaceAll new targets t).saved = t.saved ∧ (replaceAll new targets t).ninja = t.ninja := by
  induction targets generalizing t with
  | nil => exact ⟨rfl, rfl⟩
  | cons lib targets ih => exact ih (replaceKeepMtime new t lib)

theorem replaceAll_file (new : ι → Content ι) (targets : List ι) (t : Tree ι) (i : ι) :
    (replaceAll new targets t).file i =
      if i ∈ targets then ⟨new i, (t.file i).mtime⟩ else t.file i := by
  induction targets generalizing t with
  | nil => rfl
  | cons lib targets ih =>
    have hcons := ih (replaceKeepMtime new t lib)
    rw [replaceKeepMtime, setFile_file] at hcons
    refine hcons.trans ?_
    by_cases hi : i = lib
    · have hmem : i ∈ lib :: targets := List.mem_cons.mpr (.inl hi)
      rw [if_pos hi, if_pos hmem, hi, ite_self]
    · rw [if_neg hi, if_congr (List.mem_cons.trans (or_iff_right hi)) rfl rfl]

end Loops

/-! ## What the runs keep -/

section Keeping

variable {clang llvm targets : List ι} {mtime : ι → ℕ} {t : Tree ι} {lib : ι} {r : Run}
  {o : Outcome}

/-- What is saved is the linker's, and what is not saved is still in its place. -/
structure Keeps (mtime : ι → ℕ) (t : Tree ι) : Prop where
  ninja : ∀ lib, t.ninja lib = mtime lib
  original : ∀ lib, t.saved lib = none → IsOriginal mtime t lib
  saved : ∀ lib, ∀ f ∈ t.saved lib, f = ⟨.linked lib, mtime lib⟩

omit [DecidableEq ι] in
theorem keeps_fresh (mtime : ι → ℕ) : Keeps mtime (fresh mtime) :=
  ⟨fun _ => rfl, fun _ _ => rfl, fun _ _ hf => absurd hf (Option.not_mem_none _)⟩

omit [DecidableEq ι] in
theorem Keeps.getD (h : Keeps mtime t) (lib : ι) :
    (t.saved lib).getD (t.file lib) = ⟨.linked lib, mtime lib⟩ := by
  cases hsaved : t.saved lib with
  | none => exact h.original lib hsaved
  | some f => exact h.saved lib f hsaved

theorem isOriginal_restoreOriginals (h : Keeps mtime t) (hlib : lib ∈ targets) :
    IsOriginal mtime (restoreOriginals targets t) lib := by
  rw [IsOriginal, restoreOriginals_file, if_pos hlib, h.getD]

theorem keeps_restoreOriginals (h : Keeps mtime t) (targets : List ι) :
    Keeps mtime (restoreOriginals targets t) := by
  obtain ⟨hsaved, hninja⟩ := restoreOriginals_saved targets t
  refine ⟨fun lib => ?_, fun lib hnone => ?_, fun lib f hf => ?_⟩
  · rw [hninja, h.ninja]
  · rw [hsaved] at hnone
    rw [IsOriginal, restoreOriginals_file, hnone, Option.getD_none, ite_self]
    exact h.original lib hnone
  · rw [hsaved] at hf
    exact h.saved lib f hf

theorem keeps_saveOriginals (h : Keeps mtime t) (l : List ι) : Keeps mtime (saveOriginals l t) := by
  obtain ⟨hfile, hninja⟩ := saveOriginals_file l t
  refine ⟨fun lib => ?_, fun lib hnone => ?_, fun lib f hf => ?_⟩
  · rw [hninja, h.ninja]
  · rw [saveOriginals_saved] at hnone
    rw [IsOriginal, hfile]
    split_ifs at hnone
    exact h.original lib hnone
  · rw [saveOriginals_saved] at hf
    split_ifs at hf with hlib
    · rw [← Option.mem_some_iff.mp hf, h.getD]
    · exact h.saved lib f hf

omit [DecidableEq ι] in
/-- The originals of the targets are saved, so what stands in their places may change. -/
theorem Keeps.of_file {t' : Tree ι} (h : Keeps mtime t) (hsaved : t'.saved = t.saved)
    (hninja : t'.ninja = t.ninja)
    (hfile : ∀ lib, t.saved lib = none → t'.file lib = t.file lib) : Keeps mtime t' := by
  refine ⟨fun lib => ?_, fun lib hnone => ?_, fun lib f hf => ?_⟩
  · rw [hninja, h.ninja]
  · rw [hsaved] at hnone
    rw [IsOriginal, hfile lib hnone]
    exact h.original lib hnone
  · rw [hsaved] at hf
    exact h.saved lib f hf

theorem notMem_of_saveOriginals (hnone : (saveOriginals targets t).saved lib = none) :
    lib ∉ targets := by
  intro hlib
  rw [saveOriginals_saved, if_pos hlib] at hnone
  cases hnone

theorem keeps_replaceAll (h : Keeps mtime t) (new : ι → Content ι) {l : List ι} (hl : l ⊆ targets) :
    Keeps mtime (replaceAll new l (saveOriginals targets t)) := by
  obtain ⟨hsaved, hninja⟩ := replaceAll_saved new l (saveOriginals targets t)
  refine (keeps_saveOriginals h targets).of_file hsaved hninja fun lib hnone => ?_
  rw [replaceAll_file, if_neg fun hlib => notMem_of_saveOriginals hnone (hl hlib)]

omit [DecidableEq ι] in
/-- Where no mtime changed, ninja has nothing to do. -/
theorem ninjaInstall_eq (h : ∀ lib, (t.file lib).mtime = t.ninja lib) (now : ℕ) :
    ninjaInstall now t = t := by
  have hfile : (ninjaInstall now t).file = t.file := funext fun lib => if_pos (h lib)
  have hninja : (ninjaInstall now t).ninja = t.ninja := funext fun lib => if_pos (h lib)
  calc ninjaInstall now t = ⟨(ninjaInstall now t).file, t.saved, (ninjaInstall now t).ninja⟩ := rfl
    _ = t := by rw [hfile, hninja]

/-- A copy that is not cut once it has begun saves nothing wrong. -/
theorem cutSave_eq {cut : Cut} (h : cut = .before ∨ (t.saved lib).isSome) :
    cutSave cut t lib = t := by
  rw [cutSave]
  split_ifs with hsome
  · rfl
  · obtain rfl := h.resolve_right hsome
    have hnone : t.saved lib = none := Option.not_isSome_iff_eq_none.mp hsome
    rw [Tree.setSaved, Cut.apply, ← hnone, Function.update_eq_self]

theorem finish_saving {n : ℕ} {cut : Cut} {crash : Bool}
    (h : AllowedOutcome targets t (.saving n cut crash)) :
    finish targets t (.saving n cut crash) = (saveOriginals (targets.take n) t, ended crash) := by
  rw [finish]
  cases hhead : (targets.drop n).head? with
  | none => rfl
  | some lib =>
    have hcut : cut = .before ∨ ((saveOriginals (targets.take n) t).saved lib).isSome := by
      refine h.imp_right fun hsaved => ?_
      rw [saveOriginals_saved]
      split_ifs
      · rfl
      · exact hsaved lib hhead
    exact Prod.ext (cutSave_eq hcut) rfl

/-- The mtimes stay as they were linked, for libraries that are no targets where they were. -/
theorem mtime_replaceAll (h : Keeps mtime t) (horiginal : ∀ lib ∈ targets, IsOriginal mtime t lib)
    (hothers : ∀ lib, lib ∉ targets → (t.file lib).mtime = t.ninja lib) (new : ι → Content ι)
    (lib : ι) : ((replaceAll new targets (saveOriginals targets t)).file lib).mtime =
      (replaceAll new targets (saveOriginals targets t)).ninja lib := by
  rw [replaceAll_file, (replaceAll_saved new targets _).2, (saveOriginals_file targets t).1,
    (saveOriginals_file targets t).2]
  split_ifs with hlib
  · rw [horiginal lib hlib, h.ninja]
  · exact hothers lib hlib

/-- What the part of a run behind its checks leaves. -/
structure Finished (mtime : ι → ℕ) (targets : List ι) (p : Tree ι × Result) : Prop where
  keeps : Keeps mtime p.1
  kept : p.2 = .raised ∨ p.2 = .skipped → ∀ lib ∈ targets, IsOriginal mtime p.1 lib
  changed : p.2 = .changed → ∀ lib, (p.1.file lib).content =
    if lib ∈ targets then .bolted (.linked lib) else .linked lib

theorem ended_ne_changed (crash : Bool) : ended crash ≠ .changed := by
  cases crash <;> decide

theorem crash_eq_false {crash : Bool} (h : ended crash = .raised ∨ ended crash = .skipped) :
    crash = false := by
  cases crash with
  | false => rfl
  | true => rcases h with h | h <;> cases h

theorem finished_saving (h : Keeps mtime t) (horiginal : ∀ lib ∈ targets, IsOriginal mtime t lib)
    {n : ℕ} {cut : Cut} {crash : Bool} (ha : AllowedOutcome targets t (.saving n cut crash)) :
    Finished mtime targets (finish targets t (.saving n cut crash)) := by
  rw [finish_saving ha]
  refine ⟨keeps_saveOriginals h _, fun _ lib hlib => ?_, fun hchanged => ?_⟩
  · rw [IsOriginal, (saveOriginals_file _ t).1]
    exact horiginal lib hlib
  · exact absurd hchanged (ended_ne_changed crash)

theorem finished_replacing (h : Keeps mtime t) (horiginal : ∀ lib ∈ targets, IsOriginal mtime t lib)
    {n : ℕ} {cut : Cut} {crash : Bool} (ha : AllowedOutcome targets t (.replacing n cut crash)) :
    Finished mtime targets (finish targets t (.replacing n cut crash)) := by
  have htake : targets.take n ⊆ targets := fun lib hlib => List.mem_of_mem_take hlib
  rw [finish]
  generalize (fun lib => Content.bolted (t.file lib).content) = new
  have hkeeps := keeps_replaceAll h new htake
  cases hhead : (targets.drop n).head? with
  | none =>
    refine ⟨hkeeps, fun hended lib hlib => ?_, fun hchanged => ?_⟩
    · have hn := (ha.resolve_left (ne_true_of_eq_false (crash_eq_false hended))).1
      rw [hn, List.drop_zero, List.head?_eq_none_iff] at hhead
      exact absurd (hhead ▸ hlib) List.not_mem_nil
    · exact absurd hchanged (ended_ne_changed crash)
  | some lib =>
    have hlib : lib ∈ targets := List.mem_of_mem_drop (List.mem_of_head? hhead)
    rw [Option.toList_some, List.foldl_cons, List.foldl_nil]
    have hsaved : (replaceAll new (targets.take n) (saveOriginals targets t)).saved lib ≠ none := by
      rw [(replaceAll_saved new _ _).1]
      exact fun hnone => notMem_of_saveOriginals hnone hlib
    refine ⟨hkeeps.of_file rfl rfl fun i hi => ?_, fun hended i hi => ?_, fun hchanged => ?_⟩
    · rw [cutReplace, setFile_file, if_neg]
      rintro rfl
      exact hsaved hi
    · obtain ⟨rfl, rfl⟩ := ha.resolve_left (ne_true_of_eq_false (crash_eq_false hended))
      rw [IsOriginal, cutReplace, setFile_file, List.take_zero]
      have hsame : (replaceAll new [] (saveOriginals targets t)).file = t.file :=
        (saveOriginals_file targets t).1
      rw [hsame, Cut.apply, Option.getD_some]
      split_ifs with heq
      · rw [← heq]
        exact horiginal i hi
      · exact horiginal i hi
    · exact absurd hchanged (ended_ne_changed crash)

theorem finished_repackaging (h : Keeps mtime t)
    (horiginal : ∀ lib ∈ targets, IsOriginal mtime t lib)
    {installed : Bool} {now : ℕ} {crash : Bool}
    (ha : AllowedOutcome targets t (.repackaging installed now crash)) :
    Finished mtime targets (finish targets t (.repackaging installed now crash)) := by
  rw [finish]
  generalize (fun lib => Content.bolted (t.file lib).content) = new
  have hkeeps := keeps_replaceAll h new (List.Subset.refl targets)
  have hinstall : (if installed = true then
      ninjaInstall now (replaceAll new targets (saveOriginals targets t))
      else replaceAll new targets (saveOriginals targets t)) =
      replaceAll new targets (saveOriginals targets t) := by
    split_ifs with hinstalled
    · exact ninjaInstall_eq (mtime_replaceAll h horiginal (ha hinstalled) new) now
    · rfl
  rw [hinstall]
  refine ⟨?_, fun hended lib hlib => ?_, fun hchanged => ?_⟩
  · cases crash with
    | true => exact hkeeps
    | false =>
      obtain ⟨hsaved, hninja⟩ := replaceAll_saved
        (fun lib => (((replaceAll new targets (saveOriginals targets t)).saved lib).getD
          ((replaceAll new targets (saveOriginals targets t)).file lib)).content) targets
        (replaceAll new targets (saveOriginals targets t))
      refine hkeeps.of_file hsaved hninja fun lib hnone => ?_
      rw [(replaceAll_saved new targets _).1] at hnone
      rw [if_neg Bool.false_ne_true, putBack, replaceAll_file,
        if_neg (notMem_of_saveOriginals hnone)]
  · rw [crash_eq_false hended, if_neg Bool.false_ne_true, IsOriginal, putBack, replaceAll_file,
      if_pos hlib, hkeeps.getD, replaceAll_file, if_pos hlib, (saveOriginals_file targets t).1,
      horiginal lib hlib]
  · exact absurd hchanged (ended_ne_changed crash)

theorem finished_done (h : Keeps mtime t) (horiginal : ∀ lib ∈ targets, IsOriginal mtime t lib)
    {now : ℕ} (ha : AllowedOutcome targets t (.done now)) :
    Finished mtime targets (finish targets t (.done now)) := by
  rw [finish]
  have hkeeps := keeps_replaceAll h (fun lib => Content.bolted (t.file lib).content)
    (List.Subset.refl targets)
  rw [ninjaInstall_eq (mtime_replaceAll h horiginal (fun lib hlib => (ha lib hlib).1) _) now]
  refine ⟨hkeeps, fun hended => ?_, fun _ lib => ?_⟩
  · rcases hended with hended | hended <;> cases hended
  · rw [replaceAll_file, (saveOriginals_file targets t).1]
    split_ifs with hlib
    · rw [horiginal lib hlib]
    · exact (ha lib hlib).2

theorem finished (h : Keeps mtime t) (horiginal : ∀ lib ∈ targets, IsOriginal mtime t lib)
    (ha : AllowedOutcome targets t o) : Finished mtime targets (finish targets t o) := by
  cases o with
  | cycleFails => exact ⟨h, fun _ => horiginal, fun hchanged => by cases hchanged⟩
  | cycleRaises => exact ⟨h, fun _ => horiginal, fun hchanged => by cases hchanged⟩
  | cycleCrashes => exact ⟨h, fun _ => horiginal, fun hchanged => by cases hchanged⟩
  | saving n cut crash => exact finished_saving h horiginal ha
  | replacing n cut crash => exact finished_replacing h horiginal ha
  | repackaging installed now crash => exact finished_repackaging h horiginal ha
  | done now => exact finished_done h horiginal ha

/-- Putting the originals of the targets back changes nothing that the condition speaks about. -/
theorem allowedOutcome_restoreOriginals (ha : AllowedOutcome targets t o) :
    AllowedOutcome targets (restoreOriginals targets t) o := by
  obtain ⟨hsaved, hninja⟩ := restoreOriginals_saved targets t
  have hfile : ∀ lib, lib ∉ targets → (restoreOriginals targets t).file lib = t.file lib :=
    fun lib hlib => (restoreOriginals_file targets t lib).trans (if_neg hlib)
  cases o with
  | saving n cut crash =>
    rw [AllowedOutcome, hsaved]
    exact ha
  | repackaging installed now crash =>
    intro hinstalled lib hlib
    rw [hfile lib hlib, hninja]
    exact ha hinstalled lib hlib
  | done now =>
    intro lib hlib
    rw [hfile lib hlib, hninja]
    exact ha lib hlib
  | _ => exact ha

/-- **One run**: what is kept stays kept, and the run is sound. -/
theorem optimizeInBuild_of_allowed (h : Keeps mtime t) (ha : Allowed clang llvm t r) :
    Keeps mtime (optimizeInBuild clang llvm r t).1 ∧ Sound clang llvm mtime t r := by
  have horiginal : ∀ lib ∈ boltTargets clang llvm r.libllvm,
      IsOriginal mtime (restoreOriginals (boltTargets clang llvm r.libllvm) t) lib :=
    fun lib hlib => isOriginal_restoreOriginals h hlib
  have hkeeps := keeps_restoreOriginals h (boltTargets clang llvm r.libllvm)
  have hfinished := finished hkeeps horiginal (allowedOutcome_restoreOriginals ha)
  have hrun : optimizeInBuild clang llvm r t =
      if boltTargets clang llvm r.libllvm = [] then
        (restoreOriginals (boltTargets clang llvm r.libllvm) t, .skipped, [])
      else ((finish (boltTargets clang llvm r.libllvm)
          (restoreOriginals (boltTargets clang llvm r.libllvm) t) r.outcome).1,
        (finish (boltTargets clang llvm r.libllvm)
          (restoreOriginals (boltTargets clang llvm r.libllvm) t) r.outcome).2,
        (boltTargets clang llvm r.libllvm).map fun lib =>
          (lib, ((restoreOriginals (boltTargets clang llvm r.libllvm) t).file lib).content)) := by
    rw [optimizeInBuild]
    dsimp only
    have hbolted : (boltTargets clang llvm r.libllvm).any (fun lib => isBolted
        ((restoreOriginals (boltTargets clang llvm r.libllvm) t).file lib).content) = false := by
      refine List.any_eq_false.mpr fun lib hlib => ?_
      rw [horiginal lib hlib]
      exact Bool.false_ne_true
    have hrelocations : (boltTargets clang llvm r.libllvm).any (fun lib => !hasRelocations
        ((restoreOriginals (boltTargets clang llvm r.libllvm) t).file lib).content) = false := by
      refine List.any_eq_false.mpr fun lib hlib => ?_
      rw [horiginal lib hlib]
      exact Bool.false_ne_true
    rw [hbolted, hrelocations, if_neg Bool.false_ne_true, if_neg Bool.false_ne_true]
  by_cases hnil : boltTargets clang llvm r.libllvm = []
  · rw [if_pos hnil] at hrun
    refine ⟨by rw [hrun]; exact hkeeps, ⟨fun x hx => ?_, fun _ lib hlib => ?_, fun hchanged => ?_⟩⟩
    · rw [hrun] at hx
      exact absurd hx List.not_mem_nil
    · exact absurd (hnil ▸ hlib) List.not_mem_nil
    · rw [hrun] at hchanged
      cases hchanged
  · rw [if_neg hnil] at hrun
    refine ⟨by rw [hrun]; exact hfinished.keeps, ⟨fun x hx => ?_, ?_, ?_⟩⟩
    · rw [hrun] at hx
      obtain ⟨lib, hlib, rfl⟩ := List.mem_map.mp hx
      exact congrArg File.content (horiginal lib hlib)
    · rw [hrun]
      exact hfinished.kept
    · rw [hrun]
      exact hfinished.changed

theorem after_concat (clang llvm : List ι) (mtime : ι → ℕ) (runs : List Run) (r : Run) :
    after clang llvm mtime (runs ++ [r]) =
      (optimizeInBuild clang llvm r (after clang llvm mtime runs)).1 := by
  rw [after, List.foldl_append]
  rfl

/-- **BOLT never loses the originals** in runs that all meet the condition. -/
theorem sound_of_allowed (clang llvm : List ι) (mtime : ι → ℕ) (runs : List Run)
    (h : ∀ done r rest, runs = done ++ r :: rest →
      Allowed clang llvm (after clang llvm mtime done) r) :
    ∀ done r rest, runs = done ++ r :: rest →
      Sound clang llvm mtime (after clang llvm mtime done) r := by
  have hkeeps : ∀ done rest, runs = done ++ rest → Keeps mtime (after clang llvm mtime done) := by
    intro done
    induction done using List.reverseRecOn with
    | nil => exact fun _ _ => keeps_fresh mtime
    | append_singleton done r ih =>
      intro rest hruns
      rw [List.append_assoc, List.singleton_append] at hruns
      rw [after_concat]
      exact (optimizeInBuild_of_allowed (ih (r :: rest) hruns) (h done r rest hruns)).1
  intro done r rest hruns
  exact (optimizeInBuild_of_allowed (hkeeps done (r :: rest) hruns) (h done r rest hruns)).2

end Keeping

/-- A crash in the middle of a replacement does not hurt: the next run starts from originals. -/
theorem sound_after_crash : Sound [false] [true] (fun _ => 1)
    (after [false] [true] (fun _ => 1) [⟨true, .replacing 1 (.within 5) true⟩]) ⟨true, .done 9⟩ := by
  refine sound_of_allowed [false] [true] (fun _ => 1)
    [⟨true, .replacing 1 (.within 5) true⟩, ⟨true, .done 9⟩] ?_ [_] _ [] rfl
  intro done r rest hruns
  cases done with
  | nil =>
    obtain rfl := (List.cons.inj hruns).1
    exact .inl rfl
  | cons first done =>
    have htail := (List.cons.inj hruns).2
    cases done with
    | nil =>
      obtain rfl := (List.cons.inj htail).1
      intro lib hlib
      cases lib <;> exact absurd (by decide) hlib
    | cons second done => exact absurd (List.cons.inj htail).2.symm (by simp)

/-- A crash while an original is saved leaves a part of it, which the next run puts in its place. A
run without libLLVM leaves it as the run before rewrote it. A failure while a library is replaced
leaves it so. -/
theorem not_sound :
    ¬Sound [false] [true] (fun _ => 1) (after [false] [true] (fun _ => 1)
      [⟨false, .saving 0 (.within 5) true⟩]) ⟨false, .cycleFails⟩ ∧
    ¬Sound [false] [true] (fun _ => 1) (after [false] [true] (fun _ => 1) [⟨true, .done 5⟩])
      ⟨false, .done 9⟩ ∧
    ¬Sound [false] [true] (fun _ => 1) (fresh fun _ => 1)
      ⟨false, .replacing 0 (.within 5) false⟩ := by
  refine ⟨fun h => ?_, fun h => ?_, fun h => ?_⟩
  · exact absurd (h.kept (by decide) false (by decide)) (by unfold IsOriginal; decide)
  · exact absurd (h.changed (by decide) true) (by decide)
  · exact absurd (h.kept (by decide) false (by decide)) (by unfold IsOriginal; decide)

end Sysforge.Toolchain.Bolt
