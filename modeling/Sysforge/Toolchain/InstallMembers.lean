import Mathlib.Data.Set.Defs
import Sysforge.Foundations.Dict
import Sysforge.Foundations.Worklist
import Sysforge.Pacman.PkgInfo

/-!
# The members of a split build to install

`select_install_members` keeps the wanted packages of a build and closes them over the `depend`
entries that lead to other packages of the build. The names of a file and what it depends on are
read from its `.PKGINFO`, which `bsdtar` may fail to print.

`select_install_members_correct`: the loop ends, and what it returns is the least set there is, for
every order in which a set is iterated.
-/

namespace Sysforge.Toolchain.InstallMembers

open Text Pacman

/-- The order in which the elements of a set are iterated. -/
structure SetOrder where
  iterate : List Text → List Text
  mem_iterate : ∀ s a, a ∈ iterate s ↔ a ∈ s
  nodup_iterate : ∀ s, (iterate s).Nodup

instance : Inhabited SetOrder :=
  ⟨⟨List.dedup, fun _ _ => List.mem_dedup, List.nodup_dedup⟩⟩

/-! ## Reading a `.PKGINFO` -/

/-- `f"{key} = "`. -/
def keyHead (key : Text) : Text := key ++ [' ', '=', ' ']

/-- `read_pkgname_from_file`, for what `bsdtar` prints. -/
def readPkgnameFromFile (pkginfo : Option Text) : Option Text :=
  pkginfo.bind fun text =>
    ((splitlines text).find? fun line => (keyHead "pkgname".toList).isPrefixOf line).map fun line =>
      strip (line.drop (keyHead "pkgname".toList).length)

/-- `_read_pkginfo_names`, for what `bsdtar` prints: the names under a key. -/
def readPkginfoNames (keys exactly : List Text) (pkginfo : Option Text) (key : Text) : List Text :=
  match pkginfo with
  | none => []
  | some text => (splitlines text).flatMap fun line =>
    match keys.find? fun k => (keyHead k).isPrefixOf line with
    | none => []
    | some k =>
      let val := strip (line.drop (keyHead k).length)
      let name := bareName val
      if k = key ∧ name ≠ [] then name :: (if k ∈ exactly then [val] else []) else []

/-- What `read_pkginfo_relations` returns. -/
structure PkginfoRelations where
  depend : List Text
  provides : List Text

def dependKey : Text := ['d', 'e', 'p', 'e', 'n', 'd']

def providesKey : Text := ['p', 'r', 'o', 'v', 'i', 'd', 'e', 's']

/-- `read_pkginfo_relations`. -/
def readPkginfoRelations (pkginfo : Option Text) : PkginfoRelations where
  depend := readPkginfoNames [dependKey, providesKey] [providesKey] pkginfo dependKey
  provides := readPkginfoNames [dependKey, providesKey] [providesKey] pkginfo providesKey

/-- A line of a `.PKGINFO` names a dependency, whatever version of it. -/
def DependsOn (pkginfo : Option Text) (n : Text) : Prop :=
  n ≠ [] ∧ ∃ text, pkginfo = some text ∧
    ∃ v, keyHead dependKey ++ v ∈ splitlines text ∧ n = bareName (strip v)

theorem mem_depend {pkginfo : Option Text} {n : Text} :
    n ∈ (readPkginfoRelations pkginfo).depend ↔ DependsOn pkginfo n := by
  cases pkginfo with
  | none => exact iff_of_false List.not_mem_nil fun ⟨_, _, h, _⟩ => absurd h (by simp)
  | some text =>
    have hfind : ∀ line : Text, (keyHead dependKey).isPrefixOf line = true →
        [dependKey, providesKey].find? (fun k => (keyHead k).isPrefixOf line) = some dependKey :=
      fun line h => by rw [List.find?_cons, h]
    have hne : providesKey ≠ dependKey := by decide
    simp only [readPkginfoRelations, readPkginfoNames, List.mem_flatMap]
    constructor
    · rintro ⟨line, hline, hn⟩
      split at hn
      next => cases hn
      next k hk =>
        have hstart : (keyHead k).isPrefixOf line = true := List.find?_some (p := fun k =>
          (keyHead k).isPrefixOf line) hk
        split_ifs at hn with hcond hexact
        · exact absurd (hcond.1 ▸ hexact) (by decide)
        · obtain ⟨v, rfl⟩ := List.isPrefixOf_iff_prefix.mp hstart
          obtain ⟨rfl, hname⟩ := hcond
          rw [List.drop_left, List.mem_singleton] at hn
          rw [List.drop_left] at hname
          exact ⟨hn ▸ hname, text, rfl, v, hline, hn⟩
        · cases hn
    · rintro ⟨hne', text', htext, v, hline, rfl⟩
      obtain rfl := Option.some.inj htext
      refine ⟨_, hline, ?_⟩
      rw [hfind _ (List.isPrefixOf_iff_prefix.mpr (List.prefix_append _ _))]
      simp only [List.drop_left]
      rw [if_pos ⟨trivial, hne'⟩]
      exact List.mem_cons_self

/-! ## Selecting the members -/

section Select

variable {ι : Type*} [DecidableEq ι]

/-- `name_of`. -/
def nameOf (pkginfo : ι → Option Text) (pkgFiles : List ι) : Dict ι (Option Text) :=
  .ofItems (pkgFiles.map fun p => (p, readPkgnameFromFile (pkginfo p)))

/-- `built`: the names that could be read and are not empty. -/
def builtNames (names : Dict ι (Option Text)) : List Text :=
  names.items.filterMap fun x => x.2.filter fun n => n ≠ []

/-- The built names that the files of a name depend on, in the order in which the loop comes upon
them. -/
def builtDepends (order : SetOrder) (pkginfo : ι → Option Text) (names : Dict ι (Option Text))
    (name : Text) : List Text :=
  (names.items.filter fun x => x.2 = some name).flatMap fun x =>
    (order.iterate (readPkginfoRelations (pkginfo x.1)).depend).filter fun dep =>
      dep ∈ builtNames names

/-- `n is None or n in selected`. -/
def isKept (selected : List Text) : Option Text → Bool
  | none => true
  | some n => n ∈ selected

/-- `[p for p, n in name_of.items() if n is None or n in selected]`. -/
def keptFiles (names : Dict ι (Option Text)) (selected : List Text) : List ι :=
  (names.items.filter fun x => isKept selected x.2).map Prod.fst

/-- `select_install_members`; nothing when the loop does not end within the fuel. -/
def selectInstallMembers (order : SetOrder) (pkginfo : ι → Option Text) (pkgFiles : List ι)
    (wanted : List Text) (fuel : ℕ) : Option (List ι) :=
  let names := nameOf pkginfo pkgFiles
  let queue := order.iterate ((builtNames names).filter fun n => n ∈ wanted)
  (Worklist.run (builtDepends order pkginfo names) fuel queue queue.reverse).map (keptFiles names)

/-! ## The least set of members -/

/-- A name that some file of the build has. -/
def Built (pkginfo : ι → Option Text) (pkgFiles : List ι) (n : Text) : Prop :=
  n ≠ [] ∧ ∃ p ∈ pkgFiles, readPkgnameFromFile (pkginfo p) = some n

/-- A set that has the wanted names of the build and whatever of the build its members depend on. -/
structure Complete (pkginfo : ι → Option Text) (pkgFiles : List ι) (wanted : List Text)
    (S : Set Text) : Prop where
  wanted : ∀ n, Built pkginfo pkgFiles n → n ∈ wanted → n ∈ S
  depends : ∀ m ∈ S, ∀ p ∈ pkgFiles, readPkgnameFromFile (pkginfo p) = some m →
    ∀ n, Built pkginfo pkgFiles n → DependsOn (pkginfo p) n → n ∈ S

/-- The least set of members. -/
def members (pkginfo : ι → Option Text) (pkgFiles : List ι) (wanted : List Text) : Set Text :=
  {n | ∀ S, Complete pkginfo pkgFiles wanted S → n ∈ S}

variable {order : SetOrder} {pkginfo : ι → Option Text} {pkgFiles : List ι} {wanted : List Text}

omit [DecidableEq ι] in
/-- The least set is one of them. -/
theorem complete_members : Complete pkginfo pkgFiles wanted (members pkginfo pkgFiles wanted) where
  wanted n hn hw := fun _ hS => hS.wanted n hn hw
  depends m hm p hp hname n hn hdep := fun S hS => hS.depends m (hm S hS) p hp hname n hn hdep

omit [DecidableEq ι] in
theorem keys_named :
    Assoc.keys (pkgFiles.map fun p => (p, readPkgnameFromFile (pkginfo p))) = pkgFiles := by
  rw [Assoc.keys, List.map_map]
  exact List.map_id _

theorem mem_nameOf {p : ι} {n : Option Text} : (p, n) ∈ (nameOf pkginfo pkgFiles).items ↔
    p ∈ pkgFiles ∧ readPkgnameFromFile (pkginfo p) = n := by
  rw [Dict.mem_items, nameOf, Dict.get_ofItems
    (f := fun p => some (readPkgnameFromFile (pkginfo p))) (by simp), keys_named]
  split_ifs with h <;> simp [h]

theorem mem_builtNames {n : Text} :
    n ∈ builtNames (nameOf pkginfo pkgFiles) ↔ Built pkginfo pkgFiles n := by
  rw [builtNames, List.mem_filterMap]
  constructor
  · rintro ⟨⟨p, o⟩, hmem, h⟩
    obtain ⟨hp, hname⟩ := mem_nameOf.mp hmem
    obtain ⟨rfl, hne⟩ := Option.filter_eq_some_iff.mp h
    exact ⟨of_decide_eq_true hne, p, hp, hname⟩
  · rintro ⟨hne, p, hp, hname⟩
    exact ⟨(p, some n), mem_nameOf.mpr ⟨hp, hname⟩,
      Option.filter_eq_some_iff.mpr ⟨rfl, decide_eq_true hne⟩⟩

/-- The members that the loop pushes for a name. -/
theorem mem_builtDepends {m n : Text} :
    n ∈ builtDepends order pkginfo (nameOf pkginfo pkgFiles) m ↔
      Built pkginfo pkgFiles n ∧ ∃ p ∈ pkgFiles, readPkgnameFromFile (pkginfo p) = some m ∧
        DependsOn (pkginfo p) n := by
  simp only [builtDepends, List.mem_flatMap, List.mem_filter, order.mem_iterate, mem_depend,
    decide_eq_true_eq, mem_builtNames]
  constructor
  · rintro ⟨⟨p, o⟩, ⟨hmem, rfl⟩, hdep, hn⟩
    obtain ⟨hp, hname⟩ := mem_nameOf.mp hmem
    exact ⟨hn, p, hp, hname, hdep⟩
  · rintro ⟨hn, p, hp, hname, hdep⟩
    exact ⟨(p, some m), ⟨mem_nameOf.mpr ⟨hp, hname⟩, rfl⟩, hdep, hn⟩

/-- What the wanted names lead to is the least set. -/
theorem mem_members_iff {n : Text} : n ∈ members pkginfo pkgFiles wanted ↔
    ∃ s ∈ order.iterate
        ((builtNames (nameOf pkginfo pkgFiles)).filter fun n => n ∈ wanted),
      Relation.ReflTransGen
        (Worklist.Step (builtDepends order pkginfo (nameOf pkginfo pkgFiles))) s n := by
  constructor
  · refine fun h => h {n | ∃ s ∈ order.iterate
      ((builtNames (nameOf pkginfo pkgFiles)).filter fun n => n ∈ wanted),
      Relation.ReflTransGen
        (Worklist.Step (builtDepends order pkginfo (nameOf pkginfo pkgFiles))) s n}
      ⟨fun n hn hw => ⟨n, ?_, .refl⟩, ?_⟩
    · rw [order.mem_iterate, List.mem_filter, mem_builtNames]
      exact ⟨hn, decide_eq_true hw⟩
    · rintro m ⟨s, hs, hm⟩ p hp hname n hn hdep
      exact ⟨s, hs, hm.tail (mem_builtDepends.mpr ⟨hn, p, hp, hname, hdep⟩)⟩
  · rintro ⟨s, hs, h⟩
    rw [order.mem_iterate, List.mem_filter, mem_builtNames] at hs
    induction h with
    | refl => exact complete_members.wanted s hs.1 (of_decide_eq_true hs.2)
    | tail _ hstep ih =>
      obtain ⟨hn, p, hp, hname, hdep⟩ := mem_builtDepends.mp hstep
      exact complete_members.depends _ ih p hp hname _ hn hdep

/-! ## The files returned -/

theorem mem_keptFiles {selected : List Text} {p : ι} :
    p ∈ keptFiles (nameOf pkginfo pkgFiles) selected ↔
      p ∈ pkgFiles ∧ (readPkgnameFromFile (pkginfo p) = none ∨
        ∃ m ∈ selected, readPkgnameFromFile (pkginfo p) = some m) := by
  rw [keptFiles, List.mem_map]
  constructor
  · rintro ⟨⟨p, o⟩, h, rfl⟩
    obtain ⟨h, hkept⟩ := List.mem_filter.mp h
    obtain ⟨hp, hname⟩ := mem_nameOf.mp h
    cases o with
    | none => exact ⟨hp, .inl hname⟩
    | some m => exact ⟨hp, .inr ⟨m, of_decide_eq_true hkept, hname⟩⟩
  · rintro ⟨hp, hname | ⟨m, hm, hname⟩⟩
    · exact ⟨(p, none), List.mem_filter.mpr ⟨mem_nameOf.mpr ⟨hp, hname⟩, rfl⟩, rfl⟩
    · exact ⟨(p, some m), List.mem_filter.mpr ⟨mem_nameOf.mpr ⟨hp, hname⟩, decide_eq_true hm⟩, rfl⟩

theorem keptFiles_sublist {selected : List Text} :
    (keptFiles (nameOf pkginfo pkgFiles) selected).Sublist pkgFiles := by
  have h := Dict.keys_ofItems_sublist (pkgFiles.map fun p => (p, readPkgnameFromFile (pkginfo p)))
  rw [keys_named] at h
  exact (List.filter_sublist.map Prod.fst).trans h

omit [DecidableEq ι] in
theorem nodup_keptFiles {names : Dict ι (Option Text)} {selected : List Text} :
    (keptFiles names selected).Nodup :=
  names.nodup.sublist (List.filter_sublist.map Prod.fst)

/-- **The members to install**: the loop ends, and returns in the order of the input the files whose
name cannot be read and those whose name is in the least set of members. -/
theorem select_install_members_correct (order : SetOrder) (pkginfo : ι → Option Text)
    (pkgFiles : List ι) (wanted : List Text) :
    ∃ n result, (∀ fuel, n ≤ fuel →
        selectInstallMembers order pkginfo pkgFiles wanted fuel = some result) ∧
      result.Sublist pkgFiles ∧ result.Nodup ∧
      ∀ p, p ∈ result ↔ p ∈ pkgFiles ∧ (readPkgnameFromFile (pkginfo p) = none ∨
        ∃ m ∈ members pkginfo pkgFiles wanted, readPkgnameFromFile (pkginfo p) = some m) := by
  have hqueue : Worklist.Open (builtDepends order pkginfo (nameOf pkginfo pkgFiles))
      (builtNames (nameOf pkginfo pkgFiles))
      (order.iterate ((builtNames (nameOf pkginfo pkgFiles)).filter fun n => n ∈ wanted))
      (order.iterate ((builtNames (nameOf pkginfo pkgFiles)).filter fun n => n ∈ wanted)).reverse :=
    ⟨fun a ha => List.mem_reverse.mp ha, fun a ha => .inl (List.mem_reverse.mpr ha),
      order.nodup_iterate _, fun a ha => by
        rw [order.mem_iterate, List.mem_filter] at ha
        exact ha.1⟩
  obtain ⟨n, selected, hrun, hmem⟩ := hqueue.run_closure fun a _ b hb =>
    mem_builtNames.mpr (mem_builtDepends.mp hb).1
  refine ⟨n, keptFiles (nameOf pkginfo pkgFiles) selected, fun fuel hf => ?_, keptFiles_sublist,
    nodup_keptFiles, fun p => ?_⟩
  · rw [selectInstallMembers, hrun fuel hf]
    rfl
  · have hsel : ∀ m, m ∈ selected ↔ m ∈ members pkginfo pkgFiles wanted :=
      fun m => (hmem m).trans mem_members_iff.symm
    simp only [mem_keptFiles, hsel]

end Select

end Sysforge.Toolchain.InstallMembers
