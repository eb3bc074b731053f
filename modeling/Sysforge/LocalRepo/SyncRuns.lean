import Mathlib.Data.List.Induction
import Sysforge.LocalRepo.Sync

/-!
# The local repo mirrors the host

A sync that returns leaves records of exactly the installed packages that have an artifact or a valid
published build, each with the bytes of its file. This holds in every sequence of processes in which
no sync stops between replacing a file that a record names and the `repo-add`: there the next sync
finds the file's name and the file's identity as it wants them, and never looks at the record.
-/

namespace Sysforge.LocalRepo

variable {I D : Type*} {sys : System I D} {s : State I D} {p : Process sys}
  {i j : I} {n f : String} {r : Record D} {acts : List (Action I)}

/-- The repo holds the package's build at the installed version. -/
def StillValid (s : State I D) (p : Process sys) (n : String) : Prop :=
  ∃ version r, p.installed n = some version ∧ s.db.get n = some r ∧ r.version = version ∧
    (s.repo r.filename).isSome = true

/-- What a sync that returns promises. -/
structure Mirrors (s : State I D) (p : Process sys) (s' : State I D) : Prop where
  /-- the db lists the host-only packages that have an artifact or a valid published build -/
  listed : ∀ n, (∃ r, s'.db.get n = some r) ↔
    n ∈ p.hostOnly ∧ ((∃ i, p.artifact n = some i) ∨ StillValid s p n)
  /-- every record names a file that exists, and describes its bytes -/
  records : ∀ n r, s'.db.get n = some r → ∃ j, s'.repo r.filename = some j ∧ sys.data j = r.data
  /-- an artifact is published -/
  artifacts : ∀ n ∈ p.hostOnly, ∀ i, p.artifact n = some i →
    ∃ r, s'.db.get n = some r ∧ r.filename = sys.base i ∧ r.data = sys.data i

/-- Files of one name, size and modification time are one build: a rebuild at the same version has
a new time. -/
def Identified (sys : System I D) : Prop :=
  ∀ i j, sys.base i = sys.base j → sys.stamp i = sys.stamp j → sys.data i = sys.data j

/-- The sync does not stop between putting a file in the place of one that a record names and
`repo-add`. -/
def Orderly [DecidableEq I] (s : State I D) (p : Process sys) : Prop :=
  ∀ k, p.stop = some k → ∀ i, .place i ∈ (plan s p).take k →
    (∃ files, .add files ∈ (plan s p).take k) ∨
      ∀ n r, s.db.get n = some r → r.filename ≠ sys.base i

/-! ## What every action keeps -/

/-- A record is under the package of its file's name. -/
def Named (sys : System I D) (s : State I D) : Prop :=
  ∀ n r, s.db.get n = some r → sys.pkgOf r.filename = n

/-- A file is under the name it was made with. -/
def Filed (sys : System I D) (s : State I D) : Prop := ∀ f i, s.repo f = some i → sys.base i = f

/-- A record, if the file it names exists and is none of `fs`, describes its bytes. -/
def FreshExcept (sys : System I D) (fs : Set String) (s : State I D) : Prop :=
  ∀ n r j, s.db.get n = some r → s.repo r.filename = some j → r.filename ∉ fs →
    sys.data j = r.data

/-- What holds between two processes. -/
structure Inv (sys : System I D) (s : State I D) : Prop where
  named : Named sys s
  filed : Filed sys s
  fresh : FreshExcept sys ∅ s

/-- The record of `repo-add` for one package: one of the files it was given, or the old one. -/
theorem get_foldl_addFile (sys : System I D) (repo : String → Option I) (fs : List String)
    (db : Dict String (Record D)) (n : String) :
    (∃ f ∈ fs, ∃ j, sys.pkgOf f = n ∧ repo f = some j ∧
        (fs.foldl (addFile sys repo) db).get n = some ⟨sys.versionOf f, f, sys.data j⟩) ∨
      (∀ f ∈ fs, sys.pkgOf f = n → repo f = none) ∧
        (fs.foldl (addFile sys repo) db).get n = db.get n := by
  induction fs using List.reverseRecOn with
  | nil => exact .inr ⟨nofun, rfl⟩
  | append_singleton fs f ih =>
    rw [List.foldl_append, List.foldl_cons, List.foldl_nil, addFile]
    cases hf : repo f with
    | none =>
      obtain ⟨g, hg, hrest⟩ | ⟨hno, hget⟩ := ih
      · exact .inl ⟨g, List.mem_append_left _ hg, hrest⟩
      · refine .inr ⟨fun g hg hn => ?_, hget⟩
        rcases List.mem_append.mp hg with hg | hg
        · exact hno g hg hn
        · rw [List.mem_singleton.mp hg, hf]
    | some j =>
      dsimp only
      rw [Dict.get_set]
      by_cases hn : n = sys.pkgOf f
      · exact .inl ⟨f, List.mem_append_right _ (List.mem_singleton_self f), j, hn.symm, hf,
          if_pos hn⟩
      · rw [if_neg hn]
        obtain ⟨g, hg, hrest⟩ | ⟨hno, hget⟩ := ih
        · exact .inl ⟨g, List.mem_append_left _ hg, hrest⟩
        · refine .inr ⟨fun g hg hn' => ?_, hget⟩
          rcases List.mem_append.mp hg with hg | hg
          · exact hno g hg hn'
          · exact absurd (List.mem_singleton.mp hg ▸ hn').symm hn

theorem named_exec (h : Named sys s) (a : Action I) : Named sys (exec sys s a) := by
  intro n r hr
  cases a with
  | unlink f => exact h n r hr
  | place i => exact h n r hr
  | add fs =>
    obtain ⟨f, -, j, hn, -, hget⟩ | ⟨-, hget⟩ := get_foldl_addFile sys s.repo fs s.db n
    · obtain rfl := Option.some.inj (hget.symm.trans hr)
      exact hn
    · exact h n r (hget.symm.trans hr)
  | remove ns =>
    change (ns.foldl (fun d n => d.erase n) s.db).get n = some r at hr
    rw [Dict.get_foldl_erase] at hr
    split_ifs at hr
    exact h n r hr

theorem filed_exec (h : Filed sys s) (a : Action I) : Filed sys (exec sys s a) := by
  intro f i hi
  cases a with
  | unlink g =>
    change Function.update s.repo g none f = some i at hi
    by_cases hf : f = g
    · rw [hf, Function.update_self] at hi
      cases hi
    · exact h f i (Function.update_of_ne hf none s.repo ▸ hi)
  | place j =>
    change Function.update s.repo (sys.base j) (some j) f = some i at hi
    by_cases hf : f = sys.base j
    · rw [hf, Function.update_self] at hi
      rw [hf, Option.some.inj hi]
    · exact h f i (Function.update_of_ne hf (some j) s.repo ▸ hi)
  | add fs => exact h f i hi
  | remove ns => exact h f i hi

/-- The file name that an action on the repo directory is about. -/
def touched (sys : System I D) : Action I → Option String
  | .unlink f => some f
  | .place i => some (sys.base i)
  | _ => none

theorem repo_exec {a : Action I} (h : touched sys a ≠ some f) :
    (exec sys s a).repo f = s.repo f := by
  cases a with
  | unlink g => exact Function.update_of_ne (fun hf => h (congrArg some hf.symm)) _ _
  | place i => exact Function.update_of_ne (fun hf => h (congrArg some hf.symm)) _ _
  | add fs => rfl
  | remove ns => rfl

theorem db_exec {a : Action I} (h : touched sys a = some f) : (exec sys s a).db = s.db := by
  cases a with
  | unlink g => rfl
  | place i => rfl
  | add fs => cases h
  | remove ns => cases h

theorem named_foldl (h : Named sys s) : Named sys (acts.foldl (exec sys) s) := by
  induction acts generalizing s with
  | nil => exact h
  | cons a acts ih => exact ih (named_exec h a)

theorem filed_foldl (h : Filed sys s) : Filed sys (acts.foldl (exec sys) s) := by
  induction acts generalizing s with
  | nil => exact h
  | cons a acts ih => exact ih (filed_exec h a)

theorem repo_foldl (h : ∀ a ∈ acts, touched sys a ≠ some f) :
    (acts.foldl (exec sys) s).repo f = s.repo f := by
  induction acts generalizing s with
  | nil => rfl
  | cons a acts ih =>
    rw [List.foldl_cons, ih fun b hb => h b (List.mem_cons_of_mem _ hb),
      repo_exec (h a List.mem_cons_self)]

theorem db_foldl (h : ∀ a ∈ acts, ∃ f, touched sys a = some f) :
    (acts.foldl (exec sys) s).db = s.db := by
  induction acts generalizing s with
  | nil => rfl
  | cons a acts ih =>
    obtain ⟨f, hf⟩ := h a List.mem_cons_self
    rw [List.foldl_cons, ih fun b hb => h b (List.mem_cons_of_mem _ hb), db_exec hf]

theorem FreshExcept.mono {fs gs : Set String} (h : FreshExcept sys fs s) (hsub : fs ⊆ gs) :
    FreshExcept sys gs s :=
  fun n r j hr hj hno => h n r j hr hj fun hf => hno (hsub hf)

theorem fresh_unlink {fs : Set String} (h : FreshExcept sys fs s) (f : String) :
    FreshExcept sys fs (exec sys s (.unlink f)) := by
  intro n r j hr hj hno
  change Function.update s.repo f none r.filename = some j at hj
  by_cases hf : r.filename = f
  · rw [hf, Function.update_self] at hj
    cases hj
  · exact h n r j hr (Function.update_of_ne hf none s.repo ▸ hj) hno

theorem fresh_remove {fs : Set String} (h : FreshExcept sys fs s) (ns : List String) :
    FreshExcept sys fs (exec sys s (.remove ns)) := by
  intro n r j hr hj hno
  change (ns.foldl (fun d n => d.erase n) s.db).get n = some r at hr
  rw [Dict.get_foldl_erase] at hr
  split_ifs at hr
  exact h n r j hr hj hno

theorem fresh_place {fs : Set String} (h : FreshExcept sys fs s) (i : I) :
    FreshExcept sys (insert (sys.base i) fs) (exec sys s (.place i)) := by
  intro n r j hr hj hno
  rw [Set.mem_insert_iff, not_or] at hno
  change Function.update s.repo (sys.base i) (some i) r.filename = some j at hj
  exact h n r j hr (Function.update_of_ne hno.1 (some i) s.repo ▸ hj) hno.2

/-- `repo-add` makes the records fresh of the files it is given. -/
theorem fresh_add {fs : Set String} (hn : Named sys s) (h : FreshExcept sys fs s)
    {files : List String} (hsub : ∀ f ∈ fs, f ∈ files) : FreshExcept sys ∅ (exec sys s (.add files)) := by
  intro n r j hr hj _
  change s.repo r.filename = some j at hj
  obtain ⟨f, -, j', -, hf, hget⟩ | ⟨hno, hget⟩ :=
    get_foldl_addFile sys s.repo files s.db n
  · obtain rfl := Option.some.inj (hget.symm.trans hr)
    rw [Option.some.inj (hj.symm.trans hf)]
  · have hold : s.db.get n = some r := hget.symm.trans hr
    refine h n r j hold hj fun hin => ?_
    rw [hno r.filename (hsub _ hin) (hn n r hold)] at hj
    cases hj

/-- Actions other than `repo-add` keep the records fresh of the files they do not put anywhere. -/
theorem fresh_foldl {fs : Set String} (h : FreshExcept sys fs s)
    (hplace : ∀ i, .place i ∈ acts → sys.base i ∈ fs) (hadd : ∀ files, .add files ∉ acts) :
    FreshExcept sys fs (acts.foldl (exec sys) s) := by
  induction acts generalizing s with
  | nil => exact h
  | cons a acts ih =>
    refine ih ?_ (fun i hi => hplace i (List.mem_cons_of_mem _ hi))
      fun files hf => hadd files (List.mem_cons_of_mem _ hf)
    cases a with
    | unlink f => exact fresh_unlink h f
    | place i =>
      exact (fresh_place h i).mono
        (Set.insert_subset (hplace i List.mem_cons_self) subset_rfl)
    | add files => exact absurd List.mem_cons_self (hadd files)
    | remove ns => exact fresh_remove h ns

/-! ## The stages of a sync -/

variable [DecidableEq I]

omit [DecidableEq I] in
theorem mem_desired : i ∈ desired p ↔ ∃ n ∈ p.hostOnly, p.artifact n = some i := by
  rw [desired, List.mem_filterMap]

omit [DecidableEq I] in
theorem package_of_artifact (h : p.artifact n = some i) : package sys i = n :=
  (p.artifact_file n i h).1

omit [DecidableEq I] in
/-- Two artifacts of one package are one artifact. -/
theorem package_inj (hi : i ∈ desired p) (hj : j ∈ desired p)
    (h : package sys i = package sys j) : i = j := by
  obtain ⟨n, -, hn⟩ := mem_desired.mp hi
  obtain ⟨m, -, hm⟩ := mem_desired.mp hj
  have hnm : n = m := by rw [← package_of_artifact hn, ← package_of_artifact hm, h]
  exact Option.some.inj (hn.symm.trans (hnm ▸ hm))

omit [DecidableEq I] in
/-- Two artifacts of one name are one artifact. -/
theorem desired_inj (hi : i ∈ desired p) (hj : j ∈ desired p) (h : sys.base i = sys.base j) :
    i = j :=
  package_inj hi hj (congrArg sys.pkgOf h)

omit [DecidableEq I] in
theorem link_of_none (h : p.copy i = none) : link p i = [.place i] := by
  rw [link, h]

omit [DecidableEq I] in
theorem link_of_some {half whole : I} (h : p.copy i = some (half, whole)) :
    link p i = [.place half, .place whole] := by
  rw [link, h]

omit [DecidableEq I] in
theorem mem_link {a : Action I} (ha : a ∈ link p i) :
    touched sys a = some (sys.base i) ∧ ∀ files, a ≠ .add files := by
  cases hc : p.copy i with
  | none =>
    rw [link_of_none hc] at ha
    obtain rfl := List.mem_singleton.mp ha
    exact ⟨rfl, nofun⟩
  | some q =>
    obtain ⟨half, whole⟩ := q
    obtain ⟨hhalf, hwhole, -⟩ := p.copy_file i _ hc
    rw [link_of_some hc] at ha
    rcases List.mem_cons.mp ha with rfl | ha
    · exact ⟨congrArg some hhalf, nofun⟩
    · obtain rfl := List.mem_singleton.mp ha
      exact ⟨congrArg some hwhole, nofun⟩

/-- Every action of `_link_in` is about the artifact's file, and none is a `repo-add`. -/
theorem mem_linkIn {a : Action I} (ha : a ∈ linkIn s p i) :
    touched sys a = some (sys.base i) ∧ ∀ files, a ≠ .add files := by
  rw [linkIn] at ha
  cases hr : s.repo (sys.base i) with
  | none =>
    rw [hr] at ha
    exact mem_link ha
  | some j =>
    rw [hr] at ha
    dsimp only at ha
    split_ifs at ha
    · cases ha
    · rcases List.mem_cons.mp ha with rfl | ha
      · exact ⟨rfl, nofun⟩
      · exact mem_link ha

omit [DecidableEq I] in
theorem repo_link (t : State I D) : ∃ j, ((link p i).foldl (exec sys) t).repo (sys.base i) = some j ∧
    sys.data j = sys.data i := by
  cases hc : p.copy i with
  | none =>
    rw [link_of_none hc]
    exact ⟨i, Function.update_self .., rfl⟩
  | some q =>
    obtain ⟨half, whole⟩ := q
    obtain ⟨-, hwhole, -, hdata⟩ := p.copy_file i _ hc
    refine ⟨whole, ?_, hdata⟩
    rw [link_of_some hc, ← hwhole]
    exact Function.update_self ..

theorem data_of_sameFile (hid : Identified sys) (hf : Filed sys s)
    (hj : s.repo (sys.base i) = some j) (h : sameFile sys i j = true) :
    sys.data j = sys.data i := by
  rw [sameFile, Bool.or_eq_true] at h
  rcases h with h | h
  · rw [of_decide_eq_true h]
  · exact (hid i j (hf _ j hj).symm (of_decide_eq_true h)).symm

/-- Linking an artifact in puts its bytes in the repo directory, unless the file that was there
already has them. -/
theorem linkIn_cases (hid : Identified sys) (hf : Filed sys s) (t : State I D) :
    (linkIn s p i = [] ∧ ∃ j, s.repo (sys.base i) = some j ∧ sys.data j = sys.data i) ∨
      ∃ j, ((linkIn s p i).foldl (exec sys) t).repo (sys.base i) = some j ∧
        sys.data j = sys.data i := by
  rw [linkIn]
  cases hr : s.repo (sys.base i) with
  | none => exact .inr (repo_link t)
  | some j =>
    dsimp only
    split_ifs with hsame
    · exact .inl ⟨rfl, j, rfl, data_of_sameFile hid hf hr hsame⟩
    · exact .inr (repo_link _)

/-- After linking, every artifact of a list is in the repo directory. -/
theorem repo_links (hid : Identified sys) (hf : Filed sys s) {l : List I}
    (hl : ∀ i ∈ l, i ∈ desired p) :
    (∀ i ∈ l, ∃ j, ((l.flatMap (linkIn s p)).foldl (exec sys) s).repo (sys.base i) = some j ∧
        sys.data j = sys.data i) ∧
      ∀ f, (∀ i ∈ l, sys.base i ≠ f) →
        ((l.flatMap (linkIn s p)).foldl (exec sys) s).repo f = s.repo f := by
  induction l using List.reverseRecOn with
  | nil => exact ⟨nofun, fun f _ => rfl⟩
  | append_singleton l i ih =>
    obtain ⟨hin, hout⟩ := ih fun j hj => hl j (List.mem_append_left _ hj)
    have hi : i ∈ desired p := hl i (List.mem_append_right _ (List.mem_singleton_self i))
    rw [List.flatMap_append, List.flatMap_singleton, List.foldl_append]
    have hother : ∀ f, sys.base i ≠ f → ((linkIn s p i).foldl (exec sys)
        ((l.flatMap (linkIn s p)).foldl (exec sys) s)).repo f =
        ((l.flatMap (linkIn s p)).foldl (exec sys) s).repo f := fun f hne =>
      repo_foldl fun a ha htouch =>
        hne (Option.some.inj ((mem_linkIn ha).1.symm.trans htouch))
    refine ⟨fun j hj => ?_, fun f hno => ?_⟩
    · by_cases hbase : sys.base i = sys.base j
      · obtain rfl := desired_inj hi (hl j hj) hbase
        obtain ⟨hnil, k, hk, hdata⟩ | hdone := linkIn_cases hid hf
          ((l.flatMap (linkIn s p)).foldl (exec sys) s) (p := p) (i := i)
        · rw [hnil, List.foldl_nil]
          by_cases hmem : i ∈ l
          · exact hin i hmem
          · refine ⟨k, ?_, hdata⟩
            rw [hout _ fun j hj hji => hmem ?_, hk]
            rwa [desired_inj hi (hl j (List.mem_append_left _ hj)) hji.symm]
        · exact hdone
      · rcases List.mem_append.mp hj with hj | hj
        · rw [hother _ hbase]
          exact hin j hj
        · exact absurd (by rw [List.mem_singleton.mp hj]) hbase
    · rw [hother f (hno i (List.mem_append_right _ (List.mem_singleton_self i))),
        hout f fun j hj => hno j (List.mem_append_left _ hj)]

/-- The actions up to `repo-add`. -/
def links (s : State I D) (p : Process sys) : List (Action I) :=
  (toAdd s p).flatMap (linkIn s p)

/-- The unlinks after `repo-add`. -/
def oldFiles (s : State I D) (p : Process sys) : List (Action I) :=
  ((toAdd s p).filterMap (superseded sys s)).map .unlink

/-- The unlinks after `repo-remove`. -/
def removedFiles (s : State I D) (p : Process sys) : List (Action I) :=
  ((toRemove s p).filterMap fun n => (s.db.get n).map (·.filename)).map .unlink

theorem plan_eq : plan s p = (if toAdd s p = [] then [] else
      links s p ++ .add ((toAdd s p).map sys.base) :: oldFiles s p) ++
    if toRemove s p = [] then [] else .remove (toRemove s p) :: removedFiles s p := by
  rw [plan, links, oldFiles, removedFiles, List.append_assoc, List.singleton_append]

/-- A sync that does not stop is the same with its empty `repo-add` and `repo-remove`. -/
theorem foldl_plan (t : State I D) : (plan s p).foldl (exec sys) t =
    (links s p ++ .add ((toAdd s p).map sys.base) ::
      (oldFiles s p ++ .remove (toRemove s p) :: removedFiles s p)).foldl (exec sys) t := by
  have hrem : ∀ t : State I D, (if toRemove s p = [] then [] else
      .remove (toRemove s p) :: removedFiles s p).foldl (exec sys) t =
      (Action.remove (toRemove s p) :: removedFiles s p).foldl (exec sys) t := by
    intro t
    split_ifs with h
    · rw [removedFiles, h]
      rfl
    · rfl
  rw [plan_eq, List.foldl_append, hrem]
  split_ifs with h
  · rw [links, oldFiles, h]
    rfl
  · simp only [List.foldl_append, List.foldl_cons]

/-! ## The repo after a sync -/

theorem mem_toAdd : i ∈ toAdd s p ↔ i ∈ desired p ∧ published sys s i = false := by
  rw [toAdd, List.mem_filter, Bool.not_eq_true']

theorem published_iff : published sys s i = true ↔
    ∃ r, s.db.get (package sys i) = some r ∧ r.filename = sys.base i ∧
      ∃ j, s.repo (sys.base i) = some j ∧ sameFile sys i j = true := by
  rw [published, Bool.and_eq_true, Option.any_eq_true, Option.any_eq_true]
  simp only [decide_eq_true_iff]
  tauto

omit [DecidableEq I] in
theorem keeps_iff : keeps s p n = true ↔ p.artifact n = none ∧ StillValid s p n := by
  rw [keeps, StillValid]
  cases p.artifact n with
  | some i => exact iff_of_false nofun fun h => nomatch h.1
  | none =>
    cases p.installed n with
    | none => exact iff_of_false nofun fun ⟨_, _, _, h, _⟩ => nomatch h
    | some version =>
      cases s.db.get n with
      | none => exact iff_of_false nofun fun ⟨_, _, _, _, h, _⟩ => nomatch h
      | some r =>
        dsimp only
        rw [Bool.and_eq_true, decide_eq_true_iff]
        constructor
        · exact fun h => ⟨rfl, version, r, rfl, rfl, h⟩
        · rintro ⟨-, _, _, hv, hr, h⟩
          rw [Option.some.inj hv, Option.some.inj hr]
          exact h

omit [DecidableEq I] in
theorem mem_toRemove : n ∈ toRemove s p ↔
    (∃ r, s.db.get n = some r) ∧ (∀ i ∈ desired p, package sys i ≠ n) ∧ n ∉ kept s p := by
  rw [toRemove, List.mem_filter, Bool.and_eq_true, decide_eq_true_iff, decide_eq_true_iff,
    List.mem_map, List.mem_map]
  refine and_congr ?_ (and_congr_left' ?_)
  · constructor
    · rintro ⟨⟨m, r⟩, hmem, rfl⟩
      exact ⟨r, Dict.mem_sorted.mp hmem⟩
    · rintro ⟨r, hr⟩
      exact ⟨(n, r), Dict.mem_sorted.mpr hr, rfl⟩
  · rw [not_exists]
    exact forall_congr' fun i => not_and

omit [DecidableEq I] in
theorem touched_unlinks {a : Action I} {fs : List String} (ha : a ∈ fs.map Action.unlink) :
    ∃ f ∈ fs, a = .unlink f := by
  obtain ⟨f, hf, rfl⟩ := List.mem_map.mp ha
  exact ⟨f, hf, rfl⟩

omit [DecidableEq I] in
theorem db_unlinks (fs : List String) (t : State I D) :
    ((fs.map Action.unlink).foldl (exec sys) t).db = t.db := by
  refine db_foldl fun a ha => ?_
  obtain ⟨f, -, rfl⟩ := touched_unlinks ha
  exact ⟨f, rfl⟩

omit [DecidableEq I] in
theorem repo_unlinks {fs : List String} (t : State I D) (h : f ∉ fs) :
    ((fs.map Action.unlink).foldl (exec sys) t).repo f = t.repo f := by
  refine repo_foldl fun a ha => ?_
  obtain ⟨g, hg, rfl⟩ := touched_unlinks ha
  exact fun hgf => h (Option.some.inj hgf ▸ hg)

omit [DecidableEq I] in
theorem db_add (t : State I D) (fs : List String) :
    (exec sys t (.add fs)).db = fs.foldl (addFile sys t.repo) t.db :=
  rfl

omit [DecidableEq I] in
theorem db_remove (t : State I D) (ns : List String) :
    (exec sys t (.remove ns)).db = ns.foldl (fun d n => d.erase n) t.db :=
  rfl

theorem db_links (t : State I D) : ((links s p).foldl (exec sys) t).db = t.db := by
  refine db_foldl fun a ha => ?_
  obtain ⟨i, -, ha⟩ := List.mem_flatMap.mp ha
  exact ⟨_, (mem_linkIn ha).1⟩

section Ends

variable (hid : Identified sys) (h : Inv sys s)
include hid h

/-- The record of a package after a sync. -/
theorem db_plan (n : String) :
    n ∈ toRemove s p ∧ ((plan s p).foldl (exec sys) s).db.get n = none ∨
      n ∉ toRemove s p ∧
        ((∃ i ∈ toAdd s p, package sys i = n ∧ ((plan s p).foldl (exec sys) s).db.get n =
            some ⟨sys.versionOf (sys.base i), sys.base i, sys.data i⟩) ∨
          (∀ i ∈ toAdd s p, package sys i ≠ n) ∧
            ((plan s p).foldl (exec sys) s).db.get n = s.db.get n) := by
  have hin := (repo_links hid h.filed fun i hi => (mem_toAdd.mp hi).1 :
    _ ∧ ∀ f, _ → (((toAdd s p).flatMap (linkIn s p)).foldl (exec sys) s).repo f = _).1
  have hget : ((plan s p).foldl (exec sys) s).db.get n = if n ∈ toRemove s p then none else
      (((toAdd s p).map sys.base).foldl (addFile sys ((links s p).foldl (exec sys) s).repo)
        s.db).get n := by
    rw [foldl_plan, List.foldl_append, List.foldl_cons, List.foldl_append, List.foldl_cons,
      removedFiles, db_unlinks, db_remove, Dict.get_foldl_erase, oldFiles, db_unlinks, db_add,
      db_links]
  rw [hget]
  by_cases hn : n ∈ toRemove s p
  · exact .inl ⟨hn, if_pos hn⟩
  rw [if_neg hn]
  refine .inr ⟨hn, ?_⟩
  obtain ⟨f, hf, j, hpkg, hj, hsome⟩ | ⟨hno, hsame⟩ := get_foldl_addFile sys
    ((links s p).foldl (exec sys) s).repo ((toAdd s p).map sys.base) s.db n
  · obtain ⟨i, hi, rfl⟩ := List.mem_map.mp hf
    obtain ⟨k, hk, hdata⟩ := hin i hi
    rw [Option.some.inj (hj.symm.trans hk), hdata] at hsome
    exact .inl ⟨i, hi, hpkg, hsome⟩
  · refine .inr ⟨fun i hi hpkg => ?_, hsame⟩
    obtain ⟨k, hk, -⟩ := hin i hi
    exact absurd ((hno _ (List.mem_map_of_mem hi) hpkg).symm.trans hk) nofun

omit hid h in
/-- A file of the repo directory that no record names any more is all that the unlinks take. -/
theorem repo_plan (hold : ∀ i ∈ toAdd s p, superseded sys s i ≠ some f)
    (hrem : ∀ n ∈ toRemove s p, ∀ r, s.db.get n = some r → r.filename ≠ f) :
    ((plan s p).foldl (exec sys) s).repo f = ((links s p).foldl (exec sys) s).repo f := by
  have h₁ : f ∉ (toRemove s p).filterMap fun n => (s.db.get n).map (·.filename) := by
    rw [List.mem_filterMap]
    rintro ⟨n, hn, hf⟩
    obtain ⟨r, hr, rfl⟩ := Option.map_eq_some_iff.mp hf
    exact hrem n hn r hr rfl
  have h₂ : f ∉ (toAdd s p).filterMap (superseded sys s) := by
    rw [List.mem_filterMap]
    rintro ⟨i, hi, hf⟩
    exact hold i hi hf
  rw [foldl_plan, List.foldl_append, List.foldl_cons, List.foldl_append, List.foldl_cons,
    removedFiles, repo_unlinks _ h₁]
  change ((oldFiles s p).foldl (exec sys) _).repo f = _
  rw [oldFiles, repo_unlinks _ h₂]
  rfl

omit [DecidableEq I] hid in
theorem pkgOf_superseded {i : I} (hs : superseded sys s i = some f) :
    sys.pkgOf f = package sys i ∧ f ≠ sys.base i := by
  obtain ⟨hmap, hne⟩ := Option.filter_eq_some_iff.mp hs
  obtain ⟨r, hr, rfl⟩ := Option.map_eq_some_iff.mp hmap
  exact ⟨h.named _ r hr, of_decide_eq_true hne⟩

/-- A record that is left alone still names its file. -/
theorem repo_plan_of_kept (hr : s.db.get n = some r) (hn : n ∉ toRemove s p)
    (hadd : ∀ i ∈ toAdd s p, package sys i ≠ n) :
    ((plan s p).foldl (exec sys) s).repo r.filename = s.repo r.filename := by
  have hpkg := h.named n r hr
  rw [repo_plan (fun i hi hs => ?_) fun m hm q hq hqr => ?_]
  · refine (repo_links hid h.filed fun i hi => (mem_toAdd.mp hi).1).2 _ fun i hi hb => ?_
    exact hadd i hi ((congrArg sys.pkgOf hb).trans hpkg)
  · exact hadd i hi ((pkgOf_superseded h hs).1.symm.trans hpkg)
  · have hmn : m = n := by rw [← h.named m q hq, hqr, hpkg]
    exact hn (hmn ▸ hm)

/-- The file of an artifact that is added stays. -/
theorem repo_plan_of_added (hi : i ∈ toAdd s p) :
    ∃ j, ((plan s p).foldl (exec sys) s).repo (sys.base i) = some j ∧ sys.data j = sys.data i := by
  rw [repo_plan (fun k hk hs => ?_) fun m hm q hq hqr => ?_]
  · exact (repo_links hid h.filed fun i hi => (mem_toAdd.mp hi).1).1 i hi
  · obtain ⟨hpkg, hne⟩ := pkgOf_superseded h hs
    rw [package_inj (mem_toAdd.mp hi).1 (mem_toAdd.mp hk).1 hpkg] at hne
    exact hne rfl
  · refine (mem_toRemove.mp hm).2.1 i (mem_toAdd.mp hi).1 ?_
    rw [← h.named m q hq, hqr]
    rfl

/-- A record outside `to_remove` and `to_add` is an artifact's that is published, or is kept. -/
theorem left_alone (hr : s.db.get n = some r) (hn : n ∉ toRemove s p)
    (hadd : ∀ i ∈ toAdd s p, package sys i ≠ n) :
    (∃ i ∈ desired p, package sys i = n ∧ r.filename = sys.base i ∧
        ∃ j, s.repo (sys.base i) = some j ∧ sys.data j = sys.data i) ∨
      n ∈ kept s p := by
  by_cases hkept : n ∈ kept s p
  · exact .inr hkept
  have hdes : ¬ ∀ i ∈ desired p, package sys i ≠ n := fun hall =>
    hn (mem_toRemove.mpr ⟨⟨r, hr⟩, hall, hkept⟩)
  push Not at hdes
  obtain ⟨i, hi, rfl⟩ := hdes
  have hpub : published sys s i = true := by
    by_contra hno
    exact hadd i (mem_toAdd.mpr ⟨hi, Bool.eq_false_iff.mpr hno⟩) rfl
  obtain ⟨q, hq, hname, j, hj, hsame⟩ := published_iff.mp hpub
  obtain rfl := Option.some.inj (hq.symm.trans hr)
  exact .inl ⟨i, hi, rfl, hname, j, hj, data_of_sameFile hid h.filed hj hsame⟩

omit [DecidableEq I] hid h in
theorem mem_kept : n ∈ kept s p ↔ n ∈ p.hostOnly ∧ p.artifact n = none ∧ StillValid s p n := by
  rw [kept, List.mem_filter, keeps_iff]

theorem mirrors_plan (t : State I D) (hdb : t.db = ((plan s p).foldl (exec sys) s).db)
    (hrepo : t.repo = ((plan s p).foldl (exec sys) s).repo) : Mirrors s p t where
  listed n := by
    rw [hdb]
    constructor
    · rintro ⟨r, hr⟩
      obtain ⟨-, hnone⟩ | ⟨hn, ⟨i, hi, rfl, -⟩ | ⟨hadd, hsame⟩⟩ := db_plan hid h n (p := p)
      · exact absurd (hnone.symm.trans hr) nofun
      · obtain ⟨m, hm, hart⟩ := mem_desired.mp (mem_toAdd.mp hi).1
        rw [package_of_artifact hart]
        exact ⟨hm, .inl ⟨i, hart⟩⟩
      · obtain ⟨i, hi, rfl, -⟩ | hkept := left_alone hid h (hsame.symm.trans hr) hn hadd
        · obtain ⟨m, hm, hart⟩ := mem_desired.mp hi
          rw [package_of_artifact hart]
          exact ⟨hm, .inl ⟨i, hart⟩⟩
        · obtain ⟨hm, -, hvalid⟩ := mem_kept.mp hkept
          exact ⟨hm, .inr hvalid⟩
    · rintro ⟨hm, hwhy⟩
      have hn : n ∉ toRemove s p := by
        intro hn
        obtain ⟨-, hdes, hkept⟩ := mem_toRemove.mp hn
        cases hart : p.artifact n with
        | some i => exact hdes i (mem_desired.mpr ⟨n, hm, hart⟩) (package_of_artifact hart)
        | none =>
          obtain ⟨i, hi⟩ | hvalid := hwhy
          · exact absurd (hart.symm.trans hi) nofun
          · exact hkept (mem_kept.mpr ⟨hm, hart, hvalid⟩)
      obtain ⟨hrem, -⟩ | ⟨-, ⟨i, -, -, hsome⟩ | ⟨hadd, hsame⟩⟩ := db_plan hid h n (p := p)
      · exact absurd hrem hn
      · exact ⟨_, hsome⟩
      · rw [hsame]
        obtain ⟨i, hart⟩ | ⟨_, r, -, hr, -⟩ := hwhy
        · have hpub : published sys s i = true := by
            by_contra hno
            exact hadd i (mem_toAdd.mpr ⟨mem_desired.mpr ⟨n, hm, hart⟩,
              Bool.eq_false_iff.mpr hno⟩) (package_of_artifact hart)
          obtain ⟨r, hr, -⟩ := published_iff.mp hpub
          exact ⟨r, package_of_artifact hart ▸ hr⟩
        · exact ⟨r, hr⟩
  records n r hr := by
    rw [hdb] at hr
    rw [hrepo]
    obtain ⟨-, hnone⟩ | ⟨hn, ⟨i, hi, -, hsome⟩ | ⟨hadd, hsame⟩⟩ := db_plan hid h n (p := p)
    · exact absurd (hnone.symm.trans hr) nofun
    · obtain rfl := Option.some.inj (hsome.symm.trans hr)
      exact repo_plan_of_added hid h hi
    · have hr := hsame.symm.trans hr
      rw [repo_plan_of_kept hid h hr hn hadd]
      obtain ⟨i, -, -, hname, j, hj, -⟩ | hkept := left_alone hid h hr hn hadd
      · exact ⟨j, hname ▸ hj, h.fresh n r j hr (hname ▸ hj) (Set.notMem_empty _)⟩
      · obtain ⟨-, -, _, q, -, hq, -, hfile⟩ := mem_kept.mp hkept
        obtain rfl := Option.some.inj (hq.symm.trans hr)
        obtain ⟨j, hj⟩ := Option.isSome_iff_exists.mp hfile
        exact ⟨j, hj, h.fresh n q j hr hj (Set.notMem_empty _)⟩
  artifacts n hm i hart := by
    rw [hdb]
    have hdes : i ∈ desired p := mem_desired.mpr ⟨n, hm, hart⟩
    have hpkg := package_of_artifact hart
    have hn : n ∉ toRemove s p := fun hn => (mem_toRemove.mp hn).2.1 i hdes hpkg
    obtain ⟨hrem, -⟩ | ⟨-, ⟨j, hj, hjn, hsome⟩ | ⟨hadd, hsame⟩⟩ := db_plan hid h n (p := p)
    · exact absurd hrem hn
    · obtain rfl := package_inj hdes (mem_toAdd.mp hj).1 (hpkg.trans hjn.symm)
      exact ⟨_, hsome, rfl, rfl⟩
    · have hpub : published sys s i = true := by
        by_contra hno
        exact hadd i (mem_toAdd.mpr ⟨hdes, Bool.eq_false_iff.mpr hno⟩) hpkg
      obtain ⟨r, hr, hname, -⟩ := published_iff.mp hpub
      rw [hpkg] at hr
      obtain ⟨k, hk, hkn, -, j, hj, hdata⟩ | hkept := left_alone hid h hr hn hadd
      · obtain rfl := package_inj hdes hk (hpkg.trans hkn.symm)
        refine ⟨r, hsame.trans hr, hname, ?_⟩
        rw [← h.fresh n r j hr (hname ▸ hj) (Set.notMem_empty _), hdata]
      · exact absurd ((mem_kept.mp hkept).2.1.symm.trans hart) nofun

end Ends

/-! ## What a sync keeps -/

/-- An action that adds nothing. -/
def Tidies (a : Action I) : Prop := (∀ i, a ≠ .place i) ∧ ∀ files, a ≠ .add files

omit [DecidableEq I] in
theorem tidies_unlinks {fs : List String} : ∀ a ∈ fs.map (Action.unlink (I := I)), Tidies a := by
  intro a ha
  obtain ⟨f, -, rfl⟩ := touched_unlinks ha
  exact ⟨nofun, nofun⟩

/-- A sync adds nothing, or it links files in and adds just these. -/
theorem plan_cases : (∀ a ∈ plan s p, Tidies a) ∨
    ∃ rest, plan s p = links s p ++ .add ((toAdd s p).map sys.base) :: rest ∧
      ∀ a ∈ rest, Tidies a := by
  have hrem : ∀ a ∈ (if toRemove s p = [] then [] else
      Action.remove (toRemove s p) :: removedFiles s p), Tidies a := by
    intro a ha
    split_ifs at ha
    · cases ha
    · rcases List.mem_cons.mp ha with rfl | ha
      · exact ⟨nofun, nofun⟩
      · exact tidies_unlinks a ha
  rw [plan_eq]
  by_cases h : toAdd s p = []
  · rw [if_pos h, List.nil_append]
    exact .inl hrem
  · rw [if_neg h]
    refine .inr ⟨_, List.append_assoc .., fun a ha => ?_⟩
    rcases List.mem_append.mp ha with ha | ha
    · exact tidies_unlinks a ha
    · exact hrem a ha

theorem mem_links {a : Action I} (ha : a ∈ links s p) :
    (∀ i, a = .place i → sys.base i ∈ (toAdd s p).map sys.base) ∧ ∀ files, a ≠ .add files := by
  obtain ⟨i, hi, ha⟩ := List.mem_flatMap.mp ha
  obtain ⟨htouch, hadd⟩ := mem_linkIn ha
  refine ⟨?_, hadd⟩
  rintro j rfl
  exact List.mem_map.mpr ⟨i, hi, (Option.some.inj htouch).symm⟩

/-- The first actions of a sync keep every record fresh, unless they put a file in the place of one
that a record names and do not reach `repo-add`. -/
theorem fresh_take (h : Inv sys s) (k : ℕ)
    (hk : ∀ i, .place i ∈ (plan s p).take k → (∃ files, .add files ∈ (plan s p).take k) ∨
      ∀ n r, s.db.get n = some r → r.filename ≠ sys.base i) :
    FreshExcept sys ∅ (((plan s p).take k).foldl (exec sys) s) := by
  obtain htidy | ⟨rest, hplan, htidy⟩ := plan_cases (s := s) (p := p)
  · refine fresh_foldl h.fresh (fun i hi => ?_) fun files hf => ?_
    · exact absurd rfl ((htidy _ (List.mem_of_mem_take hi)).1 i)
    · exact (htidy _ (List.mem_of_mem_take hf)).2 files rfl
  rw [hplan] at hk ⊢
  by_cases hlen : k ≤ (links s p).length
  · -- `repo-add` is not reached, so the records are the ones before
    rw [List.take_append_of_le_length hlen] at hk ⊢
    have hadd : ∀ files, Action.add files ∉ (links s p).take k := fun files hf =>
      (mem_links (List.mem_of_mem_take hf)).2 files rfl
    have hfresh :=
      @fresh_foldl _ _ sys s _ {f | ∃ i, .place i ∈ (links s p).take k ∧ sys.base i = f}
        (h.fresh.mono (Set.empty_subset _)) (fun i hi => ⟨i, hi, rfl⟩) hadd
    have hdb : (((links s p).take k).foldl (exec sys) s).db = s.db := by
      refine db_foldl fun a ha => ?_
      obtain ⟨i, -, ha⟩ := List.mem_flatMap.mp (List.mem_of_mem_take ha)
      exact ⟨_, (mem_linkIn ha).1⟩
    intro n r j hr hj _
    refine hfresh n r j hr hj ?_
    rintro ⟨i, hi, hbase⟩
    rcases hk i hi with ⟨files, hf⟩ | hno
    · exact hadd files hf
    · exact hno n r (hdb ▸ hr) hbase.symm
  · obtain ⟨m, hm⟩ := Nat.exists_eq_add_of_lt (Nat.lt_of_not_le hlen)
    rw [hm, Nat.add_assoc, List.take_length_add_append, List.take_succ_cons, List.foldl_append,
      List.foldl_cons]
    have hlinks : FreshExcept sys {f | f ∈ (toAdd s p).map sys.base}
        ((links s p).foldl (exec sys) s) :=
      fresh_foldl (h.fresh.mono (Set.empty_subset _)) (fun i hi => (mem_links hi).1 i rfl)
        fun files hf => (mem_links hf).2 files rfl
    refine fresh_foldl (fresh_add (named_foldl h.named) hlinks fun f hf => hf) ?_ ?_
    · exact fun i hi => absurd rfl ((htidy _ (List.mem_of_mem_take hi)).1 i)
    · exact fun files hf => (htidy _ (List.mem_of_mem_take hf)).2 files rfl

theorem fresh_plan (h : Inv sys s) : FreshExcept sys ∅ ((plan s p).foldl (exec sys) s) := by
  rw [← List.take_length (l := plan s p)]
  refine fresh_take h _ fun i hi => .inl ?_
  rw [List.take_length] at hi ⊢
  obtain htidy | ⟨rest, hplan, -⟩ := plan_cases (s := s) (p := p)
  · exact absurd rfl ((htidy _ hi).1 i)
  · exact ⟨_, hplan ▸ List.mem_append_right _ List.mem_cons_self⟩

theorem step_of_stop {k : ℕ} (h : p.stop = some k) :
    step sys s p = ((plan s p).take k).foldl (exec sys) { s with synced := none } := by
  rw [step, sync]
  dsimp only
  rw [h]
  rfl

theorem sync_of_no_stop (h : p.stop = none) : ∃ result,
    sync { s with synced := none } p =
      (some result, { (plan s p).foldl (exec sys) { s with synced := none } with
        synced := some result }) := by
  rw [sync]
  dsimp only
  rw [h]
  exact ⟨_, rfl⟩

/-- Every process keeps the invariant, if its sync is orderly. -/
theorem inv_step (h : Inv sys s) (hp : Orderly s p) : Inv sys (step sys s p) := by
  have h₀ : Inv sys { s with synced := none } := ⟨h.named, h.filed, h.fresh⟩
  cases hstop : p.stop with
  | some k =>
    rw [step_of_stop hstop]
    exact ⟨named_foldl h₀.named, filed_foldl h₀.filed, fresh_take h₀ k (hp k hstop)⟩
  | none =>
    obtain ⟨result, hsync⟩ := sync_of_no_stop (s := s) hstop
    rw [step, hsync]
    have hfresh := fresh_plan (p := p) h₀
    exact ⟨@named_foldl _ _ _ _ (plan s p) h₀.named, @filed_foldl _ _ _ _ (plan s p) h₀.filed,
      hfresh⟩

/-- The repo directory before the first run. -/
def State.init : State I D := ⟨fun _ => none, .empty, none⟩

omit [DecidableEq I] in
theorem inv_init : Inv sys State.init :=
  ⟨nofun, nofun, nofun⟩

/-- **The repo mirrors the host**: in every sequence of processes none of whose syncs stops between
replacing a file that a record names and the `repo-add`, a sync that returns leaves exactly the
records that the host asks for, each true of its file. -/
theorem mirrors_runs (hid : Identified sys) (ps : List (Process sys))
    (hps : Run.Each (step sys) Orderly State.init ps) (hstop : p.stop = none) :
    ∃ result s', sync { Run.run (step sys) State.init ps with synced := none } p =
      (some result, s') ∧ Mirrors (Run.run (step sys) State.init ps) p s' := by
  have h : Inv sys (Run.run (step sys) State.init ps) :=
    hps.invariant inv_init fun s q _ hs hq => inv_step hs hq
  have h₀ : Inv sys { Run.run (step sys) State.init ps with synced := none } :=
    ⟨h.named, h.filed, h.fresh⟩
  obtain ⟨result, hsync⟩ := sync_of_no_stop (s := Run.run (step sys) State.init ps) hstop
  refine ⟨result, _, hsync, ?_⟩
  obtain ⟨hlisted, hrecords, hartifacts⟩ := mirrors_plan hid h₀ (p := p) _ rfl rfl
  exact ⟨hlisted, hrecords, hartifacts⟩

/-! ## Rebuilds of one version -/

/-- Files of one name, told apart by their times. -/
def rebuilds : System ℕ ℕ where
  base _ := "mesa-1-1-x86_64.pkg.tar.zst"
  stamp i := (0, i)
  data i := i
  pkgOf _ := "mesa"
  versionOf _ := "1-1"

/-- The host runs `mesa`, and PKGDEST holds the build `i` of it. -/
def rebuilt (i : ℕ) (stop : Option ℕ) : Process rebuilds where
  installed n := if n = "mesa" then some "1-1" else none
  hostOnly := ["mesa"]
  artifact n := if n = "mesa" then some i else none
  copy _ := none
  stop := stop
  artifact_file n j h := by
    by_cases hn : n = "mesa"
    · exact ⟨hn.symm, if_pos hn⟩
    · exact absurd ((if_neg hn).symm.trans h) nofun
  copy_file := nofun

theorem identified_rebuilds : Identified rebuilds := fun _ _ _ h => congrArg Prod.snd h

/-- A first build whose sync stops before `repo-add`, then two rebuilds. -/
theorem mirrors_runs_rebuilt : ∃ result s', sync { Run.run (step rebuilds) State.init
      [rebuilt 0 (some 1), rebuilt 1 none] with synced := none } (rebuilt 2 none) =
        (some result, s') ∧
      Mirrors (Run.run (step rebuilds) State.init [rebuilt 0 (some 1), rebuilt 1 none])
        (rebuilt 2 none) s' := by
  refine mirrors_runs identified_rebuilds _ ⟨?_, ?_, trivial⟩ rfl
  · exact fun k _ i _ => .inr nofun
  · exact fun k hk => nomatch hk

/-- The rebuild is linked in and its sync stops; the next sync finds it published, and the record
still describes the first build. -/
theorem not_mirrors_rebuilt : Identified rebuilds ∧ ∃ result s',
    sync { Run.run (step rebuilds) State.init [rebuilt 0 none, rebuilt 1 (some 2)] with
      synced := none } (rebuilt 1 none) = (some result, s') ∧
      ¬Mirrors (Run.run (step rebuilds) State.init [rebuilt 0 none, rebuilt 1 (some 2)])
        (rebuilt 1 none) s' := by
  refine ⟨identified_rebuilds, _, _, rfl, fun h => ?_⟩
  obtain ⟨j, hj, hdata⟩ := h.records "mesa" ⟨"1-1", "mesa-1-1-x86_64.pkg.tar.zst", 0⟩ (by decide)
  have hrepo : some 1 = some j := Eq.trans (by decide) hj
  obtain rfl := Option.some.inj hrepo
  cases hdata

end Sysforge.LocalRepo
