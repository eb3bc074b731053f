import Mathlib.Data.List.Find
import Mathlib.Data.List.Sort
import Sysforge.Kernel.BootAudit

/-!
# The archive of resolved configs

`archive` writes a config under the names of its package and its release, joined by a hyphen, and
prunes the files whose names begin with the package's. `correct_of_separate` says that a package
whose archives are told from all others by this beginning has a history of its own.
-/

namespace Sysforge.Kernel.KconfigHistory

/-! ## The code -/

/-- `KEEP`. -/
def KEEP : ℕ := 5

/-- `_SUFFIX`. -/
def configSuffix : Text := ['.', 'c', 'o', 'n', 'f', 'i', 'g', '.', 'g', 'z']

/-- `[A-Za-z0-9._+-]`. -/
def isSafe (c : Char) : Bool :=
  ('A' ≤ c && c ≤ 'Z') || ('a' ≤ c && c ≤ 'z') || ('0' ≤ c && c ≤ '9') ||
    c = '.' || c = '_' || c = '+' || c = '-'

/-- `_sanitize`. -/
def sanitize (part : Text) : Text := part.map fun c => if isSafe c then c else '_'

/-- The beginning of the names of a package's archives. -/
def nameStart (pkgname : Text) : Text := sanitize pkgname ++ ['-']

/-- The name of `archive_path`. -/
def archiveName (pkgname release : Text) : Text :=
  nameStart pkgname ++ (sanitize release ++ configSuffix)

/-- A file of the archive directory. -/
structure Entry where
  name : Text
  text : Text
  mtime : ℕ
  deriving DecidableEq

/-- A file that `_archives_for` finds. -/
def belongs (pkgname : Text) (f : Entry) : Bool :=
  configSuffix.isSuffixOf f.name && (nameStart pkgname).isPrefixOf f.name

/-- `_archives_for`. -/
def archivesFor (dir : List Entry) (pkgname : Text) : List Entry :=
  (dir.filter (belongs pkgname)).insertionSort fun f g => g.mtime ≤ f.mtime

/-- The directory once `archive` has written its file. -/
def write (dir : List Entry) (dest text : Text) (now : ℕ) : List Entry :=
  dir.filter (fun f => f.name ≠ dest) ++ [⟨dest, text, now⟩]

/-- `archive` of a config that can be read and written. -/
def archive (dir : List Entry) (pkgname release text : Text) (now keep : ℕ) : List Entry :=
  let written := write dir (archiveName pkgname release) text now
  let stale := (archivesFor written pkgname).drop keep
  written.filter fun f => f ∉ stale

/-- `read`. -/
def read (dir : List Entry) (pkgname release : Text) : Option Kconfig :=
  match dir.find? fun f => f.name = archiveName pkgname release with
  | none => none
  | some f => if (parseKconfigText f.text).items = [] then none else some (parseKconfigText f.text)

/-- `path.name[prefix_len:-len(_SUFFIX)]`. -/
def releaseOf (pkgname name : Text) : Text :=
  (name.take (name.length - configSuffix.length)).drop (nameStart pkgname).length

/-- The file that `previous` skips. -/
def skipped (pkgname : Text) : Option Text → Option Text
  | none => none
  | some [] => none
  | some release => some (archiveName pkgname release)

/-- `previous`. -/
def previous (dir : List Entry) (pkgname : Text) (excludeRelease : Option Text) :
    Option (Text × Kconfig) :=
  ((archivesFor dir pkgname).find? fun f => some f.name ≠ skipped pkgname excludeRelease).map
    fun f => (releaseOf pkgname f.name, parseKconfigText f.text)

/-! ## Runs -/

/-- A call of `archive`. -/
structure Call where
  pkgname : Text
  release : Text
  config : Text
  time : ℕ

/-- The directory after a call. -/
def step (dir : List Entry) (c : Call) : List Entry :=
  archive dir c.pkgname c.release c.config c.time KEEP

/-- The directory after some calls. -/
def after (run : List Call) : List Entry := run.foldl step []

/-! ## The property -/

/-- The last release of a package comes first, with the config last archived for it. -/
def record (p : Text) (h : List (Text × Text)) (c : Call) : List (Text × Text) :=
  if c.pkgname = p then (c.release, c.config) :: h.filter (fun x => x.1 ≠ c.release) else h

/-- The distinct releases archived for a package, the newest first. -/
def history (p : Text) (run : List Call) : List (Text × Text) := run.foldl (record p) []

/-- What `read` makes of a config. -/
def parsed (text : Text) : Option Kconfig :=
  if (parseKconfigText text).items = [] then none else some (parseKconfigText text)

/-- A release of the characters that are kept. -/
def IsRelease (r : Text) : Prop := r ≠ [] ∧ ∀ c ∈ r, isSafe c = true

/-- An archive of a package that one of the calls wrote. -/
def ArchiveOf (run : List Call) (p : Text) (f : Entry) : Prop :=
  ∃ c ∈ run, c.pkgname = p ∧ f.name = archiveName p c.release

/-- The newest releases of a package are archived and read back, calls for other packages leave its
archives alone and its own calls those of the others, and its newest archive but for an excluded one
is the previous one. -/
structure Correct (p : Text) (run : List Call) : Prop where
  kept : ∀ h ∈ (history p run).take KEEP,
    ∃ f ∈ after run, f.name = archiveName p h.1 ∧ f.text = h.2
  apart : ∀ done c rest, run = done ++ c :: rest → ∀ q, (c.pkgname = p ∧ q ≠ p ∨
    c.pkgname ≠ p ∧ q = p) → ∀ f ∈ after done, ArchiveOf done q f → f ∈ after (done ++ [c])
  read : ∀ h ∈ (history p run).take KEEP, read (after run) p h.1 = parsed h.2
  previous : ∀ exclude, (∀ e ∈ exclude, IsRelease e) → previous (after run) p exclude =
    ((history p run).find? fun h => some h.1 ≠ exclude).map fun h => (h.1, parseKconfigText h.2)

/-- No archive of another package begins like the package's, none of its own like another one's, and
its releases are of characters that are kept. -/
structure Separate (p : Text) (run : List Call) : Prop where
  others : ∀ c ∈ run, c.pkgname ≠ p → ¬nameStart p <+: archiveName c.pkgname c.release
  own : ∀ c ∈ run, c.pkgname = p → ∀ d ∈ run, d.pkgname ≠ p →
    ¬nameStart d.pkgname <+: archiveName p c.release
  releases : ∀ c ∈ run, c.pkgname = p → IsRelease c.release

/-! ## Lists with one element to leave out -/

section Lists

variable {α : Type*} {l : List α} {q : α → Bool}

theorem filter_notMem_drop [DecidableEq α] (h : l.Nodup) (k : ℕ) :
    l.filter (fun a => a ∉ l.drop k) = l.take k := by
  have hsplit := List.take_append_drop k l
  have hdisj := List.disjoint_of_nodup_append (hsplit ▸ h)
  have hfilter : (l.take k ++ l.drop k).filter (fun a => a ∉ l.drop k) = l.take k := by
    rw [List.filter_append, List.filter_eq_self.mpr, List.filter_eq_nil_iff.mpr, List.append_nil]
    · intro a ha
      rw [decide_eq_true_eq]
      exact not_not.mpr ha
    · intro a ha
      exact decide_eq_true (hdisj ha)
  rw [hsplit] at hfilter
  exact hfilter

/-- Where one element at most goes, the first elements that stay are among the first ones. -/
theorem take_filter_take (h : (l.filter fun a => !q a).length ≤ 1) (k : ℕ) :
    ((l.take (k + 1)).filter q).take k = (l.filter q).take k := by
  induction l generalizing k with
  | nil => rfl
  | cons a l ih =>
    rw [List.take_succ_cons]
    by_cases ha : q a = true
    · rw [List.filter_cons_of_pos ha, List.filter_cons_of_pos ha]
      cases k with
      | zero => rfl
      | succ k =>
        rw [List.take_succ_cons, List.take_succ_cons, ih ?_ k]
        rw [List.filter_cons_of_neg (by rw [ha]; decide)] at h
        exact h
    · rw [List.filter_cons_of_pos (by rw [Bool.eq_false_iff.mpr ha]; rfl), List.length_cons] at h
      have hall : ∀ b ∈ l, q b = true := by
        intro b hb
        by_contra hq
        have hmem : b ∈ l.filter fun a => !q a :=
          List.mem_filter.mpr ⟨hb, by rw [Bool.eq_false_iff.mpr hq]; rfl⟩
        have hpos := List.length_pos_of_mem hmem
        omega
      have htake : ∀ b ∈ l.take k, q b = true := fun b hb => hall b (List.mem_of_mem_take hb)
      rw [List.filter_cons_of_neg ha, List.filter_cons_of_neg ha, List.filter_eq_self.mpr hall,
        List.filter_eq_self.mpr htake, List.take_take, Nat.min_self]

theorem find?_take (h : (l.filter fun a => !q a).length ≤ 1) (k : ℕ) :
    (l.take (k + 2)).find? q = l.find? q := by
  match l with
  | [] => rfl
  | [a] => rfl
  | a :: b :: l =>
    rw [List.take_succ_cons, List.take_succ_cons, List.find?_cons, List.find?_cons, List.find?_cons,
      List.find?_cons]
    cases ha : q a with
    | true => rfl
    | false =>
      cases hb : q b with
      | true => rfl
      | false =>
        rw [List.filter_cons_of_pos (by rw [ha]; rfl), List.filter_cons_of_pos (by rw [hb]; rfl),
          List.length_cons, List.length_cons] at h
        omega

/-- Of elements with different names one at most has a name. -/
theorem length_filter_le_one {β : Type*} [DecidableEq β] {f : α → β} (h : (l.map f).Nodup) (b : β) :
    (l.filter fun a => f a = b).length ≤ 1 := by
  induction l with
  | nil => exact Nat.zero_le 1
  | cons a l ih =>
    rw [List.map_cons, List.nodup_cons] at h
    rw [List.filter_cons]
    split_ifs with ha
    · have hnil : l.filter (fun a => f a = b) = [] := by
        refine List.filter_eq_nil_iff.mpr fun c hc => ?_
        rw [decide_eq_true_eq]
        intro hcb
        exact h.1 (List.mem_map.mpr ⟨c, hc, hcb.trans (of_decide_eq_true ha).symm⟩)
      rw [hnil]
      exact Nat.le_refl 1
    · exact ih h.2

end Lists

/-! ## Names -/

section Names

variable {p q r r' : Text}

theorem sanitize_eq (h : IsRelease r) : sanitize r = r := by
  rw [sanitize]
  refine (List.map_congr_left fun c hc => ?_).trans (List.map_id r)
  exact if_pos (h.2 c hc)

theorem archiveName_inj (h : IsRelease r) (h' : IsRelease r') :
    archiveName p r = archiveName p r' ↔ r = r' := by
  rw [archiveName, archiveName, List.append_cancel_left_eq, List.append_cancel_right_eq,
    sanitize_eq h, sanitize_eq h']

theorem releaseOf_archiveName (h : IsRelease r) : releaseOf p (archiveName p r) = r := by
  rw [releaseOf, archiveName, ← List.append_assoc, List.length_append, Nat.add_sub_cancel,
    List.take_left, List.drop_left, sanitize_eq h]

theorem belongs_iff {f : Entry} (h : f.name = archiveName q r) :
    belongs p f = true ↔ nameStart p <+: archiveName q r := by
  rw [belongs, h, Bool.and_eq_true, List.isPrefixOf_iff_prefix, List.isSuffixOf_iff_suffix]
  refine and_iff_right ?_
  rw [archiveName, ← List.append_assoc]
  exact List.suffix_append _ _

theorem belongs_self {f : Entry} (h : f.name = archiveName p r) : belongs p f = true :=
  (belongs_iff h).mpr (List.prefix_append _ _)

end Names

/-! ## The directory -/

section Directory

variable {dir : List Entry} {done : List Call} {c : Call} {p q r : Text} {f : Entry}

theorem orderedInsert_eq_concat {α : Type*} {r : α → α → Prop} [DecidableRel r] {a : α} {l : List α}
    (h : ∀ b ∈ l, ¬r a b) : l.orderedInsert r a = l ++ [a] := by
  induction l with
  | nil => rfl
  | cons b l ih =>
    rw [List.orderedInsert, if_neg (h b List.mem_cons_self),
      ih fun d hd => h d (List.mem_cons_of_mem b hd)]
    rfl

/-- The files of a run stand from the oldest to the newest. -/
theorem archivesFor_eq (h : dir.Pairwise fun f g => f.mtime < g.mtime) (p : Text) :
    archivesFor dir p = (dir.filter (belongs p)).reverse := by
  rw [archivesFor]
  have hfilter := h.filter (belongs p)
  generalize dir.filter (belongs p) = l at hfilter ⊢
  induction l with
  | nil => rfl
  | cons f l ih =>
    obtain ⟨hf, hl⟩ := List.pairwise_cons.mp hfilter
    rw [List.insertionSort_cons, ih hl, List.reverse_cons, orderedInsert_eq_concat]
    intro g hg
    exact (hf g (List.mem_reverse.mp hg)).not_ge

/-- What holds of the directory after some calls: the files stand from the oldest to the newest,
have different names, and come from the calls. -/
structure Tidy (done : List Call) (dir : List Entry) : Prop where
  times : dir.Pairwise fun f g => f.mtime < g.mtime
  names : (dir.map Entry.name).Nodup
  written : ∀ f ∈ dir, ∃ c ∈ done, f.mtime = c.time ∧ f.name = archiveName c.pkgname c.release

theorem mem_write {dest text : Text} {now : ℕ} :
    f ∈ write dir dest text now ↔ (f ∈ dir ∧ f.name ≠ dest) ∨ f = ⟨dest, text, now⟩ := by
  rw [write, List.mem_append, List.mem_filter, decide_eq_true_eq, List.mem_singleton]

theorem step_sublist (dir : List Entry) (c : Call) :
    (step dir c).Sublist (write dir (archiveName c.pkgname c.release) c.config c.time) :=
  List.filter_sublist

theorem Tidy.write (h : Tidy done dir) (hc : ∀ d ∈ done, d.time < c.time) :
    Tidy (done ++ [c]) (write dir (archiveName c.pkgname c.release) c.config c.time) := by
  refine ⟨?_, ?_, fun f hf => ?_⟩
  · rw [KconfigHistory.write, List.pairwise_append]
    refine ⟨h.times.filter _, List.pairwise_singleton _ _, fun f hf g hg => ?_⟩
    obtain ⟨d, hd, hf, -⟩ := h.written f (List.mem_filter.mp hf).1
    rw [List.mem_singleton.mp hg, hf]
    exact hc d hd
  · rw [KconfigHistory.write, List.map_append, List.nodup_append]
    refine ⟨h.names.sublist (List.filter_sublist.map _), List.nodup_singleton _, ?_⟩
    intro n hn m hm
    obtain ⟨f, hf, rfl⟩ := List.mem_map.mp hn
    rw [List.map_singleton, List.mem_singleton] at hm
    rw [hm]
    exact of_decide_eq_true (List.mem_filter.mp hf).2
  · rcases mem_write.mp hf with ⟨hf, -⟩ | rfl
    · obtain ⟨d, hd, hw⟩ := h.written f hf
      exact ⟨d, List.mem_append_left _ hd, hw⟩
    · exact ⟨c, List.mem_append_right _ (List.mem_singleton_self c), rfl, rfl⟩

theorem Tidy.sublist {dir' : List Entry} (h : Tidy done dir) (hsub : dir'.Sublist dir) :
    Tidy done dir' :=
  ⟨h.times.sublist hsub, h.names.sublist (hsub.map _), fun f hf => h.written f (hsub.subset hf)⟩

theorem Tidy.step (h : Tidy done dir) (hc : ∀ d ∈ done, d.time < c.time) :
    Tidy (done ++ [c]) (step dir c) :=
  (h.write hc).sublist (step_sublist dir c)

theorem after_concat (done : List Call) (c : Call) : after (done ++ [c]) = step (after done) c := by
  rw [after, List.foldl_concat]
  rfl

theorem history_concat (p : Text) (done : List Call) (c : Call) :
    history p (done ++ [c]) = record p (history p done) c := by
  rw [history, List.foldl_concat]
  rfl

theorem tidy_after (h : done.Pairwise fun c d => c.time < d.time) : Tidy done (after done) := by
  induction done using List.reverseRecOn with
  | nil => exact ⟨.nil, .nil, fun f hf => absurd hf List.not_mem_nil⟩
  | append_singleton done c ih =>
    obtain ⟨hdone, -, hlt⟩ := List.pairwise_append.mp h
    rw [after_concat]
    exact (ih hdone).step fun d hd => hlt d hd c (List.mem_singleton_self c)

/-- The archives that a call prunes belong to its package. -/
theorem mem_step (h : Tidy done dir) (hc : ∀ d ∈ done, d.time < c.time) (hf : f ∈ dir)
    (hname : f.name ≠ archiveName c.pkgname c.release) (hnot : belongs c.pkgname f = false) :
    f ∈ KconfigHistory.step dir c := by
  rw [KconfigHistory.step, archive, List.mem_filter]
  refine ⟨mem_write.mpr (.inl ⟨hf, hname⟩), decide_eq_true fun hstale => ?_⟩
  have hmem := List.mem_of_mem_drop hstale
  rw [archivesFor_eq (h.write hc).times, List.mem_reverse, List.mem_filter, hnot] at hmem
  exact Bool.false_ne_true hmem.2

/-- A call for another package leaves a package's archives as they are. -/
theorem filter_step_other (h : Tidy done dir) (hc : ∀ d ∈ done, d.time < c.time)
    (hsep : Separate p (done ++ [c])) (hp : c.pkgname ≠ p) :
    (step dir c).filter (belongs p) = dir.filter (belongs p) := by
  have hcmem : c ∈ done ++ [c] := List.mem_append_right _ (List.mem_singleton_self c)
  have hnew : belongs p ⟨archiveName c.pkgname c.release, c.config, c.time⟩ = false :=
    Bool.eq_false_iff.mpr fun hb => hsep.others c hcmem hp ((belongs_iff rfl).mp hb)
  have hstale : ∀ f ∈ dir, belongs p f = true → f.name ≠ archiveName c.pkgname c.release ∧
      f ∈ step dir c := by
    intro f hf hb
    obtain ⟨d, hd, -, hname⟩ := h.written f hf
    have hdp : d.pkgname = p := by
      by_contra hne
      exact hsep.others d (List.mem_append_left _ hd) hne ((belongs_iff hname).mp hb)
    rw [hdp] at hname
    have hdest : f.name ≠ archiveName c.pkgname c.release := by
      intro heq
      rw [belongs, heq] at hb
      rw [belongs] at hnew
      exact Bool.false_ne_true (hnew.symm.trans hb)
    have hother : belongs c.pkgname f = false := Bool.eq_false_iff.mpr fun hb' =>
      hsep.own d (List.mem_append_left _ hd) hdp c hcmem hp ((belongs_iff hname).mp hb')
    exact ⟨hdest, mem_step h hc hf hdest hother⟩
  rw [step, archive, write, List.filter_append, List.filter_append, List.filter_filter,
    List.filter_filter, List.filter_filter, List.filter_singleton, hnew, Bool.false_and,
    cond_false, List.append_nil]
  refine List.filter_congr fun f hf => ?_
  cases hb : belongs p f with
  | false => rfl
  | true =>
    obtain ⟨hdest, hin⟩ := hstale f hf hb
    rw [step, archive, List.mem_filter] at hin
    rw [Bool.true_and, Bool.and_eq_true]
    exact ⟨hin.2, decide_eq_true hdest⟩

/-- A call for a package puts its new archive before the others of its package, of which it keeps as
many as there is room for. -/
theorem archivesFor_step_self (h : Tidy done dir) (hc : ∀ d ∈ done, d.time < c.time) :
    archivesFor (step dir c) c.pkgname = ((⟨archiveName c.pkgname c.release, c.config, c.time⟩ ::
      (archivesFor dir c.pkgname).filter fun f =>
        f.name ≠ archiveName c.pkgname c.release).take KEEP) := by
  have hwrite := h.write hc
  have harchives : archivesFor (write dir (archiveName c.pkgname c.release) c.config c.time)
      c.pkgname = ⟨archiveName c.pkgname c.release, c.config, c.time⟩ ::
        (archivesFor dir c.pkgname).filter fun f => f.name ≠ archiveName c.pkgname c.release := by
    rw [archivesFor_eq hwrite.times, archivesFor_eq h.times, write, List.filter_append,
      List.filter_cons_of_pos (belongs_self rfl), List.filter_nil, List.reverse_append,
      List.reverse_singleton, List.singleton_append, List.filter_reverse, List.filter_filter,
      List.filter_filter]
    congr 3
    funext f
    exact Bool.and_comm _ _
  have hnodup : (archivesFor (write dir (archiveName c.pkgname c.release) c.config c.time)
      c.pkgname).Nodup := by
    rw [archivesFor_eq hwrite.times, List.nodup_reverse]
    exact (List.Nodup.of_map _ hwrite.names).filter _
  rw [archivesFor_eq (h.step hc).times, step, archive, List.filter_filter]
  have hcomm : ∀ f, (belongs c.pkgname f && decide (f ∉ (archivesFor
      (write dir (archiveName c.pkgname c.release) c.config c.time) c.pkgname).drop KEEP)) =
      (decide (f ∉ (archivesFor (write dir (archiveName c.pkgname c.release) c.config c.time)
        c.pkgname).drop KEEP) && belongs c.pkgname f) := fun f => Bool.and_comm _ _
  rw [funext hcomm, ← List.filter_filter, ← List.filter_reverse, ← archivesFor_eq hwrite.times,
    filter_notMem_drop hnodup, harchives]

end Directory

/-! ## The history of a package -/

section History

variable {run done : List Call} {c : Call} {p : Text} {h : Text × Text} {f : Entry}

theorem Separate.of_subset (hsep : Separate p run) (hsub : done ⊆ run) : Separate p done :=
  ⟨fun c hc => hsep.others c (hsub hc),
    fun c hc hp d hd => hsep.own c (hsub hc) hp d (hsub hd),
    fun c hc => hsep.releases c (hsub hc)⟩

theorem mem_history (hh : h ∈ history p done) : ∃ c ∈ done, c.pkgname = p ∧ h.1 = c.release := by
  induction done using List.reverseRecOn with
  | nil => exact absurd hh List.not_mem_nil
  | append_singleton done c ih =>
    have hold : h ∈ history p done → ∃ d ∈ done ++ [c], d.pkgname = p ∧ h.1 = d.release := by
      intro hh
      obtain ⟨d, hd, hw⟩ := ih hh
      exact ⟨d, List.mem_append_left _ hd, hw⟩
    rw [history_concat, record] at hh
    split_ifs at hh with hp
    · rcases List.mem_cons.mp hh with rfl | hh
      · exact ⟨c, List.mem_append_right _ (List.mem_singleton_self c), hp, rfl⟩
      · exact hold (List.mem_filter.mp hh).1
    · exact hold hh

theorem Separate.isRelease (hsep : Separate p done) (hh : h ∈ history p done) : IsRelease h.1 := by
  obtain ⟨c, hc, hp, hrelease⟩ := mem_history hh
  exact hrelease ▸ hsep.releases c hc hp

theorem nodup_history (p : Text) (done : List Call) : ((history p done).map Prod.fst).Nodup := by
  induction done using List.reverseRecOn with
  | nil => exact .nil
  | append_singleton done c ih =>
    rw [history_concat, record]
    split_ifs
    · rw [List.map_cons, List.nodup_cons]
      refine ⟨fun hmem => ?_, ih.sublist (List.filter_sublist.map _)⟩
      obtain ⟨x, hx, hrelease⟩ := List.mem_map.mp hmem
      exact of_decide_eq_true (List.mem_filter.mp hx).2 hrelease
    · exact ih

/-- **The archives of a package are its newest releases**, with the configs last archived. -/
theorem archivesFor_after (htimes : done.Pairwise fun c d => c.time < d.time)
    (hsep : Separate p done) : (archivesFor (after done) p).map (fun f => (f.name, f.text)) =
      ((history p done).take KEEP).map fun h => (archiveName p h.1, h.2) := by
  induction done using List.reverseRecOn with
  | nil => rfl
  | append_singleton done c ih =>
    obtain ⟨hdone, -, hlt⟩ := List.pairwise_append.mp htimes
    have hsub : Separate p done := hsep.of_subset (List.subset_append_left done [c])
    have hc : ∀ d ∈ done, d.time < c.time := fun d hd => hlt d hd c (List.mem_singleton_self c)
    have htidy := tidy_after hdone
    have ih := ih hdone hsub
    rw [after_concat, history_concat, record]
    split_ifs with hp
    · obtain rfl := hp
      have hrelease : IsRelease c.release :=
        hsep.releases c (List.mem_append_right _ (List.mem_singleton_self c)) rfl
      have hold : ((archivesFor (after done) c.pkgname).filter fun f =>
          f.name ≠ archiveName c.pkgname c.release).map (fun f => (f.name, f.text)) =
          (((history c.pkgname done).take KEEP).filter fun h => h.1 ≠ c.release).map
            fun h => (archiveName c.pkgname h.1, h.2) := by
        have hcomp := List.filter_map (f := fun f : Entry => (f.name, f.text))
          (p := fun x => decide (x.1 ≠ archiveName c.pkgname c.release))
          (l := archivesFor (after done) c.pkgname)
        have hcomp' := List.filter_map
          (f := fun h : Text × Text => (archiveName c.pkgname h.1, h.2))
          (p := fun x => decide (x.1 ≠ archiveName c.pkgname c.release))
          (l := (history c.pkgname done).take KEEP)
        refine hcomp.symm.trans ((congrArg _ ih).trans (hcomp'.trans ?_))
        congr 1
        refine List.filter_congr fun h hh => ?_
        exact decide_eq_decide.mpr (not_congr
          (archiveName_inj (hsub.isRelease (List.mem_of_mem_take hh)) hrelease))
      have hone : ((history c.pkgname done).filter
          fun h => !decide (h.1 ≠ c.release)).length ≤ 1 := by
        simp only [ne_eq, decide_not, Bool.not_not]
        exact length_filter_le_one (nodup_history c.pkgname done) c.release
      rw [archivesFor_step_self htidy hc, KEEP, List.take_succ_cons, List.take_succ_cons,
        List.map_cons, List.map_cons, List.map_take, hold, ← List.map_take, KEEP,
        take_filter_take hone]
    · rw [archivesFor_eq (htidy.step hc).times, filter_step_other htidy hc hsep hp,
        ← archivesFor_eq htidy.times, ih]

theorem exists_archive (htimes : done.Pairwise fun c d => c.time < d.time)
    (hsep : Separate p done) (hh : h ∈ (history p done).take KEEP) :
    ∃ f ∈ after done, f.name = archiveName p h.1 ∧ f.text = h.2 := by
  have hmem : (archiveName p h.1, h.2) ∈ (archivesFor (after done) p).map
      fun f => (f.name, f.text) := by
    rw [archivesFor_after htimes hsep]
    exact List.mem_map_of_mem hh
  obtain ⟨f, hf, heq⟩ := List.mem_map.mp hmem
  rw [archivesFor_eq (tidy_after htimes).times, List.mem_reverse, List.mem_filter] at hf
  exact ⟨f, hf.1, congrArg Prod.fst heq, congrArg Prod.snd heq⟩

theorem read_after (htimes : done.Pairwise fun c d => c.time < d.time)
    (hsep : Separate p done) (hh : h ∈ (history p done).take KEEP) :
    read (after done) p h.1 = parsed h.2 := by
  obtain ⟨f, hf, hname, htext⟩ := exists_archive htimes hsep hh
  have hfind : (after done).find? (fun g => g.name = archiveName p h.1) = some f := by
    have hsome : ((after done).find? fun g => g.name = archiveName p h.1).isSome := by
      rw [List.find?_isSome]
      exact ⟨f, hf, decide_eq_true hname⟩
    obtain ⟨g, hg⟩ := Option.isSome_iff_exists.mp hsome
    have htrue := List.find?_some hg
    have hgname : g.name = archiveName p h.1 := of_decide_eq_true htrue
    have hinj := List.inj_on_of_nodup_map (tidy_after htimes).names
    rw [hg, hinj (List.mem_of_find?_eq_some hg) hf (hgname.trans hname.symm)]
  rw [read, hfind, parsed, ← htext]

theorem previous_after (htimes : done.Pairwise fun c d => c.time < d.time)
    (hsep : Separate p done) (exclude : Option Text) (hexclude : ∀ e ∈ exclude, IsRelease e) :
    previous (after done) p exclude = ((history p done).find? fun h => some h.1 ≠ exclude).map
      fun h => (h.1, parseKconfigText h.2) := by
  have hrel : ∀ h ∈ (history p done).take KEEP, IsRelease h.1 := fun h hh =>
    hsep.isRelease (List.mem_of_mem_take hh)
  have hskip : ∀ h ∈ (history p done).take KEEP,
      (decide (some (archiveName p h.1) ≠ skipped p exclude)) = decide (some h.1 ≠ exclude) := by
    intro h hh
    cases exclude with
    | none => rfl
    | some e =>
      have he := hexclude e rfl
      have hskipped : skipped p (some e) = some (archiveName p e) := by
        obtain ⟨c, e, rfl⟩ := List.exists_cons_of_ne_nil he.1
        rfl
      rw [hskipped]
      refine decide_eq_decide.mpr (not_congr ?_)
      rw [Option.some.injEq, Option.some.injEq]
      exact archiveName_inj (hrel h hh) he
  have hone : ((history p done).filter fun h => !decide (some h.1 ≠ exclude)).length ≤ 1 := by
    cases exclude with
    | none => simp
    | some e =>
      simp only [ne_eq, Option.some.injEq, decide_not, Bool.not_not]
      exact length_filter_le_one (nodup_history p done) e
  have hfiles : previous (after done) p exclude =
      (((archivesFor (after done) p).map fun f => (f.name, f.text)).find?
        fun x => some x.1 ≠ skipped p exclude).map
        fun x => (releaseOf p x.1, parseKconfigText x.2) := by
    rw [previous, List.find?_map, Option.map_map]
    rfl
  rw [hfiles, archivesFor_after htimes hsep, List.find?_map, Option.map_map]
  have hcongr : ((history p done).take KEEP).find?
      ((fun x => decide (some x.1 ≠ skipped p exclude)) ∘ fun h => (archiveName p h.1, h.2)) =
      ((history p done).take KEEP).find? fun h => decide (some h.1 ≠ exclude) :=
    List.find?_congr hskip
  rw [hcongr]
  have htake : ((history p done).take KEEP).find? (fun h => decide (some h.1 ≠ exclude)) =
      (history p done).find? fun h => decide (some h.1 ≠ exclude) := find?_take hone 3
  cases hfind : (history p done).find? fun h => decide (some h.1 ≠ exclude) with
  | none => rw [htake, hfind]; rfl
  | some h =>
    have hh : h ∈ (history p done).take KEEP := List.mem_of_find?_eq_some (htake.trans hfind)
    rw [htake, hfind]
    exact congrArg some (Prod.ext (releaseOf_archiveName (hrel h hh)) rfl)

/-- A call keeps the archives of the other packages. -/
theorem mem_step_of_archiveOf (htimes : (done ++ [c]).Pairwise fun c d => c.time < d.time)
    (hsep : Separate p (done ++ [c])) {q : Text}
    (hq : c.pkgname = p ∧ q ≠ p ∨ c.pkgname ≠ p ∧ q = p)
    (hf : f ∈ after done) (hof : ArchiveOf done q f) : f ∈ after (done ++ [c]) := by
  obtain ⟨hdone, -, hlt⟩ := List.pairwise_append.mp htimes
  obtain ⟨d, hd, rfl, hname⟩ := hof
  have hcmem : c ∈ done ++ [c] := List.mem_append_right _ (List.mem_singleton_self c)
  have hdmem : d ∈ done ++ [c] := List.mem_append_left _ hd
  have hnot : ¬nameStart c.pkgname <+: archiveName d.pkgname d.release := by
    rcases hq with ⟨rfl, hne⟩ | ⟨hne, rfl⟩
    · exact hsep.others d hdmem hne
    · exact hsep.own d hdmem rfl c hcmem hne
  rw [after_concat]
  refine mem_step (tidy_after hdone) (fun e he => hlt e he c (List.mem_singleton_self c)) hf ?_ ?_
  · intro heq
    rw [hname] at heq
    exact hnot (heq ▸ List.prefix_append _ _)
  · exact Bool.eq_false_iff.mpr fun hb => hnot ((belongs_iff hname).mp hb)

/-- **The history is per package** in every state of a run, for a package whose archives are told
from those of the other packages of the run by the beginnings of their names. -/
theorem correct_of_separate (p : Text) (run done : List Call)
    (htimes : run.Pairwise fun c d => c.time < d.time) (hsep : Separate p run)
    (hdone : done <+: run) : Correct p done := by
  have htimes := htimes.sublist hdone.sublist
  have hsep := hsep.of_subset hdone.subset
  refine ⟨fun h hh => exists_archive htimes hsep hh, ?_, fun h hh => read_after htimes hsep hh,
    fun exclude he => previous_after htimes hsep exclude he⟩
  rintro done c rest rfl q hq f hf hof
  have hfront : done ++ [c] <+: done ++ c :: rest :=
    (List.prefix_append_right_inj done).mpr (List.prefix_append [c] rest)
  have htimes := htimes.sublist hfront.sublist
  exact mem_step_of_archiveOf htimes (hsep.of_subset hfront.subset) hq hf hof

/-- Two packages with names that do not begin alike. -/
def twoPackages : List Call :=
  [⟨['l', 't', 's'], ['6', '.', '1'], [], 1⟩, ⟨['z', 'e', 'n'], ['6', '.', '2'], [], 2⟩]

theorem correct_twoPackages : Correct ['l', 't', 's'] twoPackages := by
  refine correct_of_separate ['l', 't', 's'] twoPackages twoPackages (by decide) ⟨?_, ?_, ?_⟩
    (List.prefix_refl _)
  · refine List.forall_mem_cons.mpr ⟨fun h => absurd rfl h, ?_⟩
    exact List.forall_mem_singleton.mpr fun _ => by decide
  · refine List.forall_mem_cons.mpr ⟨fun _ => List.forall_mem_cons.mpr ⟨fun h => absurd rfl h,
      List.forall_mem_singleton.mpr fun _ => ?_⟩, List.forall_mem_singleton.mpr fun h => ?_⟩
    · decide
    · exact absurd h (by decide)
  · have hsafe : ['6', '.', '1'].all isSafe = true := by decide
    refine List.forall_mem_cons.mpr ⟨fun _ => ⟨List.cons_ne_nil _ _, List.all_eq_true.mp hsafe⟩,
      List.forall_mem_singleton.mpr fun h => ?_⟩
    exact absurd h (by decide)

/-- A package whose name goes on behind the hyphen. -/
def nestedNames : List Call :=
  [⟨['l'], ['6', '.', '1'], [], 1⟩, ⟨['l', '-', 'z'], ['6', '.', '2'], [], 2⟩]

/-- The archive of `l-z` at 6.2 is taken for one of `l` at `z-6.2`. -/
theorem not_correct_archives : ¬∀ (p : Text) (run : List Call),
    run.Pairwise (fun c d => c.time < d.time) → Correct p run := by
  intro h
  have hprevious := (h ['l'] nestedNames (by decide)).previous none fun e he =>
    absurd he (Option.not_mem_none e)
  have hrelease := congrArg (Option.map Prod.fst) hprevious
  rw [Option.map_map] at hrelease
  have hcode : (previous (after nestedNames) ['l'] none).map Prod.fst =
      some ['z', '-', '6', '.', '2'] := by decide
  have hhistory : ((history ['l'] nestedNames).find? fun h => some h.1 ≠ none).map Prod.fst =
      some ['6', '.', '1'] := by decide
  exact absurd (hcode.symm.trans (hrelease.trans hhistory)) (by decide)

end History

end Sysforge.Kernel.KconfigHistory
