import Sysforge.Sandbox.RustSwap

/-!
# The install set is the closure

The walk resolves a requirement over the merged databases. `chosen_of_resolveDep` says that it
takes what the overlaid database prefers, provided that no package has given up what it provided.
For a package that no repository build replaces, the list has this run's artifact, or the artifact
at the installed version (`isFiled_installArgs`).
-/

namespace Sysforge.Sandbox

open Text ResolvingWalk Makepkg.Artifacts Pacman

/-! ## The property -/

/-- The package is there once this run's artifacts are installed. -/
def Overlaid (w : World) (n : Text) : Prop := ∃ rel, overlay w n = some rel

/-- A package provides the entry in its exact versioned form. -/
def ProvidesExact (w : World) (dep n : Text) : Prop :=
  bareName dep ≠ dep ∧ ∃ rel ∈ overlay w n, dep ∈ rel.provides

/-- A package provides the bare name of the entry. -/
def ProvidesName (w : World) (dep n : Text) : Prop :=
  ∃ rel ∈ overlay w n, bareName dep ∈ rel.provides.map bareName

/-- A package satisfies the entry. -/
def Satisfies (w : World) (dep n : Text) : Prop :=
  (Overlaid w n ∧ bareName dep = n) ∨ ProvidesExact w dep n ∨ ProvidesName w dep n

/-- The package that satisfies the entry: the one of that name, else one that provides the exact
form, else one that provides the name. -/
structure Chosen (w : World) (dep n : Text) : Prop where
  satisfies : Satisfies w dep n
  named : Overlaid w (bareName dep) → bareName dep = n
  exactly : ¬Overlaid w (bareName dep) → (∃ m, ProvidesExact w dep m) → ProvidesExact w dep n

/-- A build dependency, or a dependency of a member. -/
def IsEntry (w : World) (closure : List Text) (dep : Text) : Prop :=
  (∃ roots ∈ w.builddeps, dep ∈ roots) ∨
    ∃ a ∈ closure, ∃ rel ∈ overlay w a, dep ∈ rel.depends

/-- The artifact of a package at the version that the host has installed. -/
def HostFile (w : World) (dir : PkgDir) (n : Text) (p : Path) : Prop :=
  ∃ a, (a, false) ∈ dir ∧ p = ⟨w.searchDir, a.filename⟩ ∧ a.name.text = n ∧
    w.version n = some a.version

/-- The entries in question are satisfied by members, where a package satisfies them. -/
structure IsClosed (w : World) (closure : List Text) (entry : Text → Prop) : Prop where
  nodup : closure.Nodup
  closed : ∀ dep, entry dep → (∃ n, Satisfies w dep n) → ∃ n ∈ closure, Chosen w dep n

/-- The list has one file for each name: for the members in question this run's artifact, or the
one at the host's version. -/
structure IsFiled (w : World) (dir : PkgDir) (closure : List Text) (list : List Path)
    (member : Text → Prop) : Prop where
  unique : (list.map artifactPkgname).Nodup
  built : ∀ n ∈ closure, member n → ∀ p, lastFor (sessionFiles w) n = some p →
    ∀ q, q ∈ list ∧ artifactPkgname q = n ↔ q = p
  host : ∀ n ∈ closure, member n → n ∈ w.hostOnly → lastFor (sessionFiles w) n = none →
    ∀ q ∈ list, artifactPkgname q = n → HostFile w dir n q
  there : ∀ n ∈ closure, member n → n ∈ w.hostOnly → (∃ p, HostFile w dir n p) →
    (∀ p, HostFile w dir n p → w.present p = true) → ∃ q ∈ list, artifactPkgname q = n

/-! ## Repository builds -/

/-- No repository build takes the package's place. -/
def Free (w : World) (n : Text) : Prop :=
  ¬(needsRepoRust w = true ∧ libllvmPkg ∈ w.hostOnly ∧ HostLinked w n) ∧
    ¬(w.multilib = true ∧ n = multilibDevel)

/-! ## What packages gave up -/

/-- A package provides the key, as an entry or as the name of one. -/
def Provides (rel : Relations) (key : Text) : Prop :=
  key ∈ rel.provides ∨ key ∈ rel.provides.map bareName

/-- The host's package of that name, or an artifact of this run, provides the key. -/
def Offers (w : World) (key n : Text) : Prop :=
  (∃ rel ∈ w.db.get n, Provides rel key) ∨
    ∃ p ∈ sessionFiles w, artifactPkgname p = n ∧ Provides (w.pkginfo p) key

/-- What offers the key provides it in the overlaid database. -/
def Kept (w : World) (key : Text) : Prop :=
  ∀ n, Offers w key n → ∃ rel ∈ overlay w n, Provides rel key

/-- An entry that is there by name, or whose providers all still provide it. For a dependency of an
artifact of this run nothing provides the exact form. -/
def KeptEntry (w : World) (closure : List Text) (dep : Text) : Prop :=
  ((∃ roots ∈ w.builddeps, dep ∈ roots) ∨ ∃ a ∈ closure, ∃ rel ∈ overlay w a, dep ∈ rel.depends ∧
    (Overlaid w (bareName dep) ∨ lastFor (sessionFiles w) a = none ∨
      ∀ n, ¬ProvidesExact w dep n)) ∧
  (Overlaid w (bareName dep) ∨ (Kept w dep ∧ Kept w (bareName dep)))

/-- Names are no empty texts, and entries are names with versions. -/
structure WellFormed (w : World) : Prop where
  names : w.db.get [] = none ∧ ∀ p ∈ sessionFiles w, artifactPkgname p ≠ []
  depends : ∀ dep, (∃ roots ∈ w.builddeps, dep ∈ roots) ∨
    (∃ n, ∃ rel ∈ w.db.get n, dep ∈ rel.depends) ∨
    (∃ p ∈ sessionFiles w, dep ∈ (w.pkginfo p).depends) →
      stripVersion dep = bareName dep ∧ bareName dep ≠ []
  provides : ∀ prov, (∃ n, ∃ rel ∈ w.db.get n, prov ∈ rel.provides) ∨
    (∃ p ∈ sessionFiles w, prov ∈ (w.pkginfo p).provides) →
      (prov.takeWhile fun c => c ≠ '=') = bareName prov ∧ bareName prov ≠ []

/-! ## The merged databases -/

section Merged

variable {w : World} {k n : Text} {p : Path} {l : List Path}

theorem lastFor_cons : lastFor (p :: l) n =
    (lastFor l n).or (if artifactPkgname p = n then some p else none) := by
  have happend := lastFor_append (l := [p]) (m := l) (n := n)
  rw [List.singleton_append] at happend
  rw [happend, lastFor, lastFor, List.reverse_singleton, List.find?_singleton]
  simp only [decide_eq_true_eq]

/-- The keys that an entry of the local database sets. -/
def provideKeys (prov : Text) : List Text :=
  if '=' ∈ prov then [prov, prov.takeWhile fun c => c ≠ '=']
  else [prov.takeWhile fun c => c ≠ '=']

/-- What the local database provides, in the order of `get_provider_map`. -/
def hostProvides (db : Dict Text Relations) : List (Text × Text) :=
  db.sorted.flatMap fun p => p.2.provides.flatMap fun prov =>
    (provideKeys prov).map fun k => (k, p.1)

/-- What this run's artifacts provide. -/
def sessionProvides (w : World) : List (Text × Text) :=
  (sessionFiles w).flatMap fun p =>
    (sortedSet (readPkginfoRelations (w.pkginfo p)).provides).map fun k => (k, artifactPkgname p)

theorem addProvide_eq (name : Text) (out : Dict Text Text) (prov : Text) :
    addProvide name out prov = ((provideKeys prov).map fun k => (k, name)).foldl
      (fun d p => d.setdefault p.1 p.2) out := by
  rw [addProvide, provideKeys]
  split_ifs
  · rfl
  · rfl

theorem providerMap_eq (db : Dict Text Relations) :
    providerMap db = .ofDefaults (hostProvides db) := by
  rw [Dict.ofDefaults, hostProvides, List.foldl_flatMap, providerMap]
  simp only [List.foldl_flatMap, ← addProvide_eq]

theorem foldl_addArtifact (l : List Path) (acc : Dict Text (List Text) × Dict Text Text) :
    l.foldl (addArtifact w) acc =
      (l.foldl (fun g p => g.set (artifactPkgname p)
        (sortedSet (readPkginfoRelations (w.pkginfo p)).depends)) acc.1,
      (l.flatMap fun p => (sortedSet (readPkginfoRelations (w.pkginfo p)).provides).map fun k =>
        (k, artifactPkgname p)).foldl (fun d p => d.setdefault p.1 p.2) acc.2) := by
  induction l generalizing acc with
  | nil => rfl
  | cons p l ih =>
    rw [List.foldl_cons, ih, List.foldl_cons, List.flatMap_cons, List.foldl_append, List.foldl_map]
    rfl

theorem closureProviders_eq (w : World) : closureProviders w =
    (Dict.ofDefaults (hostProvides w.db)).update (.ofDefaults (sessionProvides w)) := by
  rw [closureProviders, providerMap_eq, sessionRelations, foldl_addArtifact]
  rfl

theorem get_foldl_setLast {f : Path → List Text} (l : List Path) (d : Dict Text (List Text)) :
    (l.foldl (fun g p => g.set (artifactPkgname p) (f p)) d).get n =
      ((lastFor l n).map f).or (d.get n) := by
  induction l generalizing d with
  | nil => rfl
  | cons p l ih =>
    rw [List.foldl_cons, ih, Dict.get_set, lastFor_cons]
    cases lastFor l n with
    | some q => rfl
    | none =>
      by_cases hp : artifactPkgname p = n
      · rw [if_pos hp.symm, if_pos hp]
        rfl
      · rw [if_neg fun h => hp h.symm, if_neg hp]
        rfl

/-- The graph has the overlaid database's packages, with bare names for this run's artifacts. -/
theorem get_closureGraph (w : World) (n : Text) : (closureGraph w).get n =
    match lastFor (sessionFiles w) n with
    | some p => some (sortedSet (readPkginfoRelations (w.pkginfo p)).depends)
    | none => (w.db.get n).map Relations.depends := by
  rw [closureGraph, Dict.get_update, sessionRelations, foldl_addArtifact, get_foldl_setLast,
    Dict.get_empty, Option.or_none, allPackageDepends, Dict.get_map]
  cases lastFor (sessionFiles w) n with
  | some p => rfl
  | none => rfl

theorem mem_keys_closureGraph : n ∈ (closureGraph w).keys ↔ Overlaid w n := by
  rw [← not_iff_not, ← Dict.get_eq_none, get_closureGraph, Overlaid, overlay]
  cases lastFor (sessionFiles w) n with
  | some p => exact iff_of_false (Option.some_ne_none _) (not_not.mpr ⟨_, rfl⟩)
  | none =>
    dsimp only
    rw [Option.map_eq_none_iff, ← Option.isSome_iff_exists, Option.not_isSome_iff_eq_none]

end Merged

/-! ## Bare names -/

section Names

variable {rel : Relations} {dep k prov : Text}

theorem subset_of_find {sub s : Text} {i : ℕ} (h : find sub s = some i) : sub ⊆ s := by
  induction s generalizing i with
  | nil =>
    rw [find] at h
    split_ifs at h with hsub
    rw [List.isEmpty_iff.mp hsub]
    exact List.nil_subset _
  | cons c s ih =>
    rw [find] at h
    split_ifs at h with hsub
    · exact (List.isPrefixOf_iff_prefix.mp hsub).subset
    · obtain ⟨j, hj, -⟩ := Option.map_eq_some_iff.mp h
      exact List.Subset.trans (ih hj) (List.subset_cons_self c s)

theorem stripVersion_bareName (val : Text) : stripVersion (bareName val) = bareName val := by
  have hops : (versionOps.all fun op => op.any fun c => !(c ≠ '<' && c ≠ '>' && c ≠ '=')) = true :=
    by decide
  have hnone : versionOps.findSome? (fun op => find op (bareName val)) = none := by
    rw [List.findSome?_eq_none_iff]
    intro op hop
    cases h : find op (bareName val) with
    | none => rfl
    | some i =>
      obtain ⟨c, hc, hfalse⟩ := List.any_eq_true.mp (List.all_eq_true.mp hops op hop)
      rw [bareName_plain val c (subset_of_find h hc)] at hfalse
      exact absurd hfalse Bool.false_ne_true
  rw [stripVersion, hnone]

theorem provides_bareName :
    Provides rel (bareName dep) ↔ bareName dep ∈ rel.provides.map bareName := by
  refine or_iff_right_of_imp fun h => ?_
  exact List.mem_map.mpr ⟨bareName dep, h, bareName_bareName dep⟩

theorem provides_versioned (h : bareName dep ≠ dep) : Provides rel dep ↔ dep ∈ rel.provides := by
  refine or_iff_left fun hmem => ?_
  obtain ⟨prov, -, hprov⟩ := List.mem_map.mp hmem
  rw [← hprov, bareName_bareName] at h
  exact h rfl

theorem provides_iff : Provides rel k ↔ ∃ prov ∈ rel.provides, k = prov ∨ k = bareName prov := by
  constructor
  · rintro (h | h)
    · exact ⟨k, h, .inl rfl⟩
    · obtain ⟨prov, hprov, rfl⟩ := List.mem_map.mp h
      exact ⟨prov, hprov, .inr rfl⟩
  · rintro ⟨prov, hprov, rfl | rfl⟩
    · exact .inl hprov
    · exact .inr (List.mem_map_of_mem hprov)

theorem mem_provideKeys (h : (prov.takeWhile fun c => c ≠ '=') = bareName prov) :
    k ∈ provideKeys prov ↔ k = prov ∨ k = bareName prov := by
  rw [provideKeys, h]
  split_ifs with heq
  · rw [List.mem_cons, List.mem_singleton]
  · have hself : (prov.takeWhile fun c => c ≠ '=') = prov :=
      List.takeWhile_eq_self_iff.mpr fun c hc => decide_eq_true fun h => heq (h ▸ hc)
    rw [List.mem_singleton, ← h, hself, or_self]

end Names

/-! ## What a requirement is taken for -/

section Choosing

variable {w : World} {closure : List Text} {dep raw k n : Text} {rel : Relations}

theorem mem_hostProvides (hw : WellFormed w) :
    (k, n) ∈ hostProvides w.db ↔ ∃ rel ∈ w.db.get n, Provides rel k := by
  rw [hostProvides, List.mem_flatMap]
  constructor
  · rintro ⟨⟨m, rel⟩, hrel, hmem⟩
    obtain ⟨prov, hprov, hmem⟩ := List.mem_flatMap.mp hmem
    obtain ⟨k', hk', heq⟩ := List.mem_map.mp hmem
    obtain ⟨rfl, rfl⟩ := Prod.mk.inj heq
    have hget := Dict.mem_sorted.mp hrel
    have hbare := (hw.provides prov (.inl ⟨m, rel, hget, hprov⟩)).1
    exact ⟨rel, hget, provides_iff.mpr ⟨prov, hprov, (mem_provideKeys hbare).mp hk'⟩⟩
  · rintro ⟨rel, hget, hprovides⟩
    obtain ⟨prov, hprov, hk⟩ := provides_iff.mp hprovides
    have hbare := (hw.provides prov (.inl ⟨n, rel, hget, hprov⟩)).1
    refine ⟨(n, rel), Dict.mem_sorted.mpr hget, List.mem_flatMap.mpr ⟨prov, hprov, ?_⟩⟩
    exact List.mem_map.mpr ⟨k, (mem_provideKeys hbare).mpr hk, rfl⟩

theorem mem_sessionProvides (hw : WellFormed w) : (k, n) ∈ sessionProvides w ↔
    ∃ p ∈ sessionFiles w, artifactPkgname p = n ∧ Provides (w.pkginfo p) k := by
  rw [sessionProvides, List.mem_flatMap]
  refine exists_congr fun p => and_congr_right fun hp => ?_
  have hkeys : k ∈ sortedSet (readPkginfoRelations (w.pkginfo p)).provides ↔
      Provides (w.pkginfo p) k := by
    rw [mem_sortedSet, readPkginfoRelations, List.mem_flatMap, provides_iff]
    refine exists_congr fun prov => and_congr_right fun hprov => ?_
    rw [if_neg (hw.provides prov (.inr ⟨p, hp, hprov⟩)).2, List.mem_cons, List.mem_singleton,
      or_comm]
  rw [List.mem_map, ← hkeys]
  constructor
  · rintro ⟨k', hk', heq⟩
    obtain ⟨rfl, rfl⟩ := Prod.mk.inj heq
    exact ⟨rfl, hk'⟩
  · rintro ⟨rfl, hk⟩
    exact ⟨k, hk, rfl⟩

theorem offers_of_get (hw : WellFormed w) (h : (closureProviders w).get k = some n) :
    Offers w k n := by
  rw [closureProviders_eq, Dict.get_update] at h
  rcases Option.or_eq_some_iff.mp h with h | ⟨-, h⟩
  · exact .inr ((mem_sessionProvides hw).mp (Dict.mem_of_get_ofDefaults h))
  · exact .inl ((mem_hostProvides hw).mp (Dict.mem_of_get_ofDefaults h))

theorem not_offers_of_get (hw : WellFormed w) (h : (closureProviders w).get k = none) (n : Text) :
    ¬Offers w k n := by
  rw [closureProviders_eq, Dict.get_update, Option.or_eq_none_iff, Dict.get_ofDefaults_eq_none,
    Dict.get_ofDefaults_eq_none] at h
  rintro (hoffers | hoffers)
  · exact h.2 (List.mem_map.mpr ⟨(k, n), (mem_hostProvides hw).mpr hoffers, rfl⟩)
  · exact h.1 (List.mem_map.mpr ⟨(k, n), (mem_sessionProvides hw).mpr hoffers, rfl⟩)

theorem offers_of_overlay (hrel : overlay w n = some rel) (h : Provides rel k) :
    Offers w k n := by
  rw [overlay] at hrel
  cases hlast : lastFor (sessionFiles w) n with
  | some p =>
    rw [hlast] at hrel
    obtain ⟨hp, hname⟩ := mem_of_lastFor hlast
    exact .inr ⟨p, hp, hname, Option.some.inj hrel ▸ h⟩
  | none =>
    rw [hlast] at hrel
    exact .inl ⟨rel, hrel, h⟩

theorem ne_nil_of_offers (hw : WellFormed w) (h : Offers w k n) : n ≠ [] := by
  rintro rfl
  rcases h with ⟨rel, hget, -⟩ | ⟨p, hp, hname, -⟩
  · exact Option.some_ne_none rel (hget.symm.trans hw.names.1)
  · exact hw.names.2 p hp hname

theorem resolveDep_of_overlaid (hname : stripVersion raw = bareName dep) (hne : bareName dep ≠ [])
    (h : Overlaid w (bareName dep)) :
    resolveDep (closureGraph w) (closureProviders w) raw = some (bareName dep) := by
  rw [resolveDep, hname]
  rw [if_neg (c := bareName dep ≠ [] ∧ bareName dep ∉ (closureGraph w).keys), if_neg hne]
  exact fun hnot => hnot.2 (mem_keys_closureGraph.mpr h)

/-- A requirement that names no package: the exact provide, then the provided name. -/
theorem resolveDep_of_provided (hw : WellFormed w) (hname : stripVersion raw = bareName dep)
    (hne : bareName dep ≠ []) (h : ¬Overlaid w (bareName dep)) :
    (∃ n, resolveDep (closureGraph w) (closureProviders w) raw = some n ∧ Offers w raw n) ∨
      ((∀ n, ¬Offers w raw n) ∧ ((∀ n, ¬Offers w (bareName dep) n) ∨
        ∃ n, resolveDep (closureGraph w) (closureProviders w) raw = some n ∧
          Offers w (bareName dep) n)) := by
  have hgraph : bareName dep ∉ (closureGraph w).keys :=
    fun hmem => h (mem_keys_closureGraph.mp hmem)
  rw [resolveDep, hname]
  rw [if_pos (c := bareName dep ≠ [] ∧ bareName dep ∉ (closureGraph w).keys) ⟨hne, hgraph⟩]
  cases hraw : (closureProviders w).get raw with
  | some n =>
    have hoffers := offers_of_get hw hraw
    rw [Option.filter_some, if_pos (decide_eq_true (ne_nil_of_offers hw hoffers))]
    exact .inl ⟨n, if_neg (ne_nil_of_offers hw hoffers), hoffers⟩
  | none =>
    refine .inr ⟨not_offers_of_get hw hraw, ?_⟩
    rw [Option.filter_none]
    cases hbare : (closureProviders w).get (bareName dep) with
    | some n =>
      have hoffers := offers_of_get hw hbare
      exact .inr ⟨n, if_neg (ne_nil_of_offers hw hoffers), hoffers⟩
    | none => exact .inl (not_offers_of_get hw hbare)

/-- **An entry is taken for the package** that the overlaid database prefers, where no provider of
it has given it up. -/
theorem chosen_of_resolveDep (hw : WellFormed w)
    (hdep : stripVersion dep = bareName dep ∧ bareName dep ≠ [])
    (hkept : Overlaid w (bareName dep) ∨ (Kept w dep ∧ Kept w (bareName dep)))
    (hsat : ∃ n, Satisfies w dep n) :
    ∃ n, resolveDep (closureGraph w) (closureProviders w) dep = some n ∧ Chosen w dep n := by
  by_cases hover : Overlaid w (bareName dep)
  · refine ⟨bareName dep, resolveDep_of_overlaid hdep.1 hdep.2 hover, .inl ⟨hover, rfl⟩, ?_, ?_⟩
    · exact fun _ => rfl
    · exact fun hnot => absurd hover hnot
  obtain ⟨hexact, hname⟩ := hkept.resolve_left hover
  rcases resolveDep_of_provided hw hdep.1 hdep.2 hover with
    ⟨n, hn, hoffers⟩ | ⟨hnone, hbare | ⟨n, hn, hoffers⟩⟩
  · obtain ⟨rel, hrel, hprovides⟩ := hexact n hoffers
    by_cases hversioned : bareName dep = dep
    · rw [← hversioned, provides_bareName] at hprovides
      refine ⟨n, hn, .inr (.inr ⟨rel, hrel, hprovides⟩), fun h => absurd h hover, ?_⟩
      exact fun _ ⟨m, hm, _⟩ => absurd hversioned hm
    · have hn' : ProvidesExact w dep n :=
        ⟨hversioned, rel, hrel, (provides_versioned hversioned).mp hprovides⟩
      exact ⟨n, hn, .inr (.inl hn'), fun h => absurd h hover, fun _ _ => hn'⟩
  · obtain ⟨m, ⟨hm, rfl⟩ | ⟨hversioned, rel, hrel, hmem⟩ | ⟨rel, hrel, hmem⟩⟩ := hsat
    · exact absurd hm hover
    · exact absurd (offers_of_overlay hrel (.inl hmem)) (hnone m)
    · exact absurd (offers_of_overlay hrel (provides_bareName.mpr hmem)) (hbare m)
  · obtain ⟨rel, hrel, hprovides⟩ := hname n hoffers
    refine ⟨n, hn, .inr (.inr ⟨rel, hrel, provides_bareName.mp hprovides⟩),
      fun h => absurd h hover, ?_⟩
    rintro - ⟨m, -, rel', hrel', hmem⟩
    exact absurd (offers_of_overlay hrel' (.inl hmem)) (hnone m)

/-- So is the bare name of an entry that nothing provides exactly. -/
theorem chosen_of_bareName (hw : WellFormed w) (hne : bareName dep ≠ [])
    (hexact : Overlaid w (bareName dep) ∨ ∀ n, ¬ProvidesExact w dep n)
    (hkept : Overlaid w (bareName dep) ∨ Kept w (bareName dep)) (hsat : ∃ n, Satisfies w dep n) :
    ∃ n, resolveDep (closureGraph w) (closureProviders w) (bareName dep) = some n ∧
      Chosen w dep n := by
  have hbare := bareName_bareName dep
  have hsat' : ∃ n, Satisfies w (bareName dep) n := by
    obtain ⟨n, hn⟩ := hsat
    refine ⟨n, ?_⟩
    rcases hn with hn | ⟨hversioned, rel, hrel, hmem⟩ | hn
    · exact .inl (hbare.symm ▸ hn)
    · refine .inr (.inr ⟨rel, hrel, ?_⟩)
      rw [hbare]
      exact List.mem_map_of_mem hmem
    · refine .inr (.inr ?_)
      rw [ProvidesName, hbare]
      exact hn
  have hdep : stripVersion (bareName dep) = bareName (bareName dep) ∧
      bareName (bareName dep) ≠ [] := by
    rw [hbare]
    exact ⟨stripVersion_bareName dep, hne⟩
  have hkept' : Overlaid w (bareName (bareName dep)) ∨
      (Kept w (bareName dep) ∧ Kept w (bareName (bareName dep))) := by
    rw [hbare]
    exact hkept.imp_right fun h => ⟨h, h⟩
  obtain ⟨n, hn, hchosen⟩ := chosen_of_resolveDep hw hdep hkept' hsat'
  refine ⟨n, hn, ?_, fun h => ?_, fun hnot hm => ?_⟩
  · rcases hchosen.satisfies with h | ⟨hversioned, -⟩ | h
    · exact .inl (hbare ▸ h)
    · exact absurd hbare hversioned
    · refine .inr (.inr ?_)
      rw [ProvidesName, ← hbare]
      exact h
  · rw [← hbare]
    exact hchosen.named (hbare.symm ▸ h)
  · obtain ⟨m, hm⟩ := hm
    exact absurd hm (hexact.resolve_left hnot m)

end Choosing

/-! ## The closure and its files -/

section Install

variable {w : World} {dir : PkgDir} {closure roots : List Text} {list : List Path} {n : Text}

/-- **The closure is closed** for the entries whose providers are kept. -/
theorem isClosed_depClosure (hw : WellFormed w) (h : depClosure w = some closure) :
    IsClosed w closure (KeptEntry w closure) := by
  refine ⟨nodup_depClosure h, fun dep ⟨hentry, hkept⟩ hsat => ?_⟩
  rcases hentry with hroot | ⟨a, ha, rel, hrel, hdep, hform⟩
  · obtain ⟨n, hn, hchosen⟩ := chosen_of_resolveDep hw (hw.depends dep (.inl hroot)) hkept hsat
    exact ⟨n, closed_depClosure h (.inl hroot) hn, hchosen⟩
  have hget := get_closureGraph w a
  rw [overlay] at hrel
  cases hlast : lastFor (sessionFiles w) a with
  | none =>
    rw [hlast] at hget hrel
    have hdb : w.db.get a = some rel := hrel
    have hentry : dep ∈ dependsOf (closureGraph w) a := by
      rw [dependsOf, hget, hdb]
      exact hdep
    obtain ⟨n, hn, hchosen⟩ :=
      chosen_of_resolveDep hw (hw.depends dep (.inr (.inl ⟨a, rel, hrel, hdep⟩))) hkept hsat
    exact ⟨n, closed_depClosure h (.inr ⟨a, ha, hentry⟩) hn, hchosen⟩
  | some p =>
    rw [hlast] at hget hrel
    obtain rfl := Option.some.inj hrel
    have hne := (hw.depends dep (.inr (.inr ⟨p, (mem_of_lastFor hlast).1, hdep⟩))).2
    have hentry : bareName dep ∈ dependsOf (closureGraph w) a := by
      rw [dependsOf, hget, Option.getD_some, mem_sortedSet]
      exact List.mem_filter.mpr ⟨List.mem_map_of_mem hdep, decide_eq_true hne⟩
    have hexact : Overlaid w (bareName dep) ∨ ∀ n, ¬ProvidesExact w dep n := by
      refine hform.imp_right fun h => h.resolve_left fun hnone => ?_
      exact Option.some_ne_none p (hlast.symm.trans hnone)
    obtain ⟨n, hn, hchosen⟩ :=
      chosen_of_bareName hw hne hexact (hkept.imp_right And.right) hsat
    exact ⟨n, closed_depClosure h (.inr ⟨a, ha, hentry⟩) hn, hchosen⟩

/-- A file of a package that no repository build replaces is one of those gathered. -/
theorem mem_installArgs_of_free (hw : Stocked w dir) (h : installArgs w = some list)
    (hn : Free w n) : ∃ out, gathered w = some out ∧
      ∀ q, q ∈ list ∧ artifactPkgname q = n ↔ lastFor out n = some q := by
  obtain ⟨out, swap, multilib, hout, hswap, hmultilib, rfl⟩ := installArgs_eq_some h
  have hlinked : n ∉ linkedFor w := fun hmem => hn.1 (mem_linkedFor_iff.mp hmem)
  have hfetch : lastFor (swap ++ multilib) n = none := by
    refine lastFor_eq_none.mpr fun q hq hname => ?_
    rcases List.mem_append.mp hq with hq | hq
    · exact hlinked ((mem_names_fetchSwap hw hswap).mp ⟨q, hq, hname⟩).2
    · exact hn.2 ((mem_names_fetchMultilib hw hmultilib).mp ⟨q, hq, hname⟩)
  have hall : lastFor (out.filter (fun p => artifactPkgname p ∉ linkedFor w) ++
      (swap ++ multilib)) n = lastFor out n := by
    rw [lastFor_append, hfetch, Option.none_or]
    exact lastFor_filter fun p _ hname => decide_eq_true (hname.symm ▸ hlinked)
  refine ⟨out, hout, fun q => ?_⟩
  rw [mem_lastPerPkgname, ← hall]
  constructor
  · rintro ⟨hq, rfl⟩
    exact hq
  · exact fun hq => ⟨(mem_of_lastFor hq).2.symm ▸ hq, (mem_of_lastFor hq).2⟩

theorem isFiled_installArgs (hw : Stocked w dir) (hclosure : depClosure w = some closure)
    (h : installArgs w = some list) : IsFiled w dir closure list (Free w) where
  unique := by
    obtain ⟨out, swap, multilib, -, -, -, rfl⟩ := installArgs_eq_some h
    exact nodup_lastPerPkgname _
  built n hmem hn p hp q := by
    obtain ⟨out, hout, hlist⟩ := mem_installArgs_of_free hw h hn
    obtain ⟨host, session, hsession, rfl, -⟩ := gathered_eq_append hout
    rw [hlist, lastFor_append, lastFor_sessionNeeded hsession ((mem_depClosure hclosure).mp hmem),
      hp, Option.some_or, Option.some.injEq, eq_comm]
  host n hmem hn _ hnone q hq hname := by
    obtain ⟨out, hout, hlist⟩ := mem_installArgs_of_free hw h hn
    obtain ⟨host, session, hsession, rfl, hhost⟩ := gathered_eq_append hout
    have hlast := (hlist q).mp ⟨hq, hname⟩
    rw [lastFor_append, lastFor_sessionNeeded hsession ((mem_depClosure hclosure).mp hmem), hnone,
      Option.none_or] at hlast
    obtain ⟨m, hart⟩ := hhost q (mem_of_lastFor hlast).1
    obtain rfl : m = n := (artifactPkgname_installedArtifact hw hart).symm.trans hname
    exact installedArtifact_eq_some hw hart
  there n hmem hn hhost hfile hpresent := by
    obtain ⟨out, hout, hlist⟩ := mem_installArgs_of_free hw h hn
    obtain ⟨-, a, ha, -, rfl, hversion⟩ := hfile
    obtain ⟨p, hart⟩ := exists_installedArtifact hw ha hversion
    have hneeded := (mem_depClosure hclosure).mp hmem
    have hp : p ∈ out := (mem_gathered hout).mpr (.inl ⟨hpresent p
      (installedArtifact_eq_some hw hart), _, hhost, hart, .inl hneeded⟩)
    cases hlast : lastFor out a.name.text with
    | none =>
      exact absurd (artifactPkgname_installedArtifact hw hart) (lastFor_eq_none.mp hlast p hp)
    | some q =>
      obtain ⟨hq, hname⟩ := (hlist q).mpr hlast
      exact ⟨q, hq, hname⟩

/-- **The install set**: the walk ends with a closed set of names, and the list has this run's
artifact, or the artifact at the installed version, for the members that no repository build
replaces. -/
theorem installSet_of_builddeps (hw : Stocked w dir) (hwf : WellFormed w)
    (hroots : w.builddeps = some roots) : ∃ closure, depClosure w = some closure ∧
      IsClosed w closure (KeptEntry w closure) ∧
      ∀ list, installArgs w = some list → IsFiled w dir closure list (Free w) := by
  obtain ⟨closure, hclosure⟩ : ∃ closure, depClosure w = some closure :=
    ⟨_, Option.map_eq_some_iff.mpr ⟨roots, hroots, rfl⟩⟩
  exact ⟨closure, hclosure, isClosed_depClosure hwf hclosure,
    fun list hlist => isFiled_installArgs hw hclosure hlist⟩

end Install

/-! ## An `llvm-libs` of this run -/

/-- The target needs rust, `foo` and the `llvm-libs` that this run has built. -/
def builtWorld : World :=
  { rustWorld [] with
    session := [⟨['s'], repoLlvm.name⟩]
    builddeps := some [['r', 'u', 's', 't'], fooArtifact.name.text, libllvmPkg] }

theorem stocked_builtWorld : Stocked builtWorld [(fooArtifact, false)] :=
  ⟨rfl, (stocked_rustWorld []).epochs, (stocked_rustWorld []).exts, (stocked_rustWorld []).row⟩

theorem wellFormed_builtWorld : WellFormed builtWorld where
  names := ⟨by decide, List.forall_mem_singleton.mpr (by decide)⟩
  depends := by
    rintro dep (⟨roots, hroots, hdep⟩ | ⟨n, rel, hrel, hdep⟩ | ⟨p, -, hdep⟩)
    · obtain rfl : [['r', 'u', 's', 't'], fooArtifact.name.text, libllvmPkg] = roots :=
        Option.some.inj hroots
      revert dep
      exact List.forall_mem_cons.mpr ⟨by decide, List.forall_mem_cons.mpr ⟨by decide,
        List.forall_mem_singleton.mpr (by decide)⟩⟩
    · rcases List.mem_cons.mp (Dict.mem_of_get_ofItems hrel) with h | h
      · rw [(Prod.mk.inj h).2] at hdep
        exact absurd hdep List.not_mem_nil
      · rw [(Prod.mk.inj (List.mem_singleton.mp h)).2] at hdep
        exact absurd hdep List.not_mem_nil
    · exact absurd hdep List.not_mem_nil
  provides := by
    rintro prov (⟨n, rel, hrel, hprov⟩ | ⟨p, -, hprov⟩)
    · rcases List.mem_cons.mp (Dict.mem_of_get_ofItems hrel) with h | h
      · rw [(Prod.mk.inj h).2] at hprov
        exact absurd hprov List.not_mem_nil
      · rw [(Prod.mk.inj (List.mem_singleton.mp h)).2] at hprov
        rw [List.mem_singleton.mp hprov]
        decide
    · exact absurd hprov List.not_mem_nil

/-- The install set of that target. -/
theorem installSet_builtWorld : ∃ closure, depClosure builtWorld = some closure ∧
    IsClosed builtWorld closure (KeptEntry builtWorld closure) ∧
    ∀ list, installArgs builtWorld = some list →
      IsFiled builtWorld [(fooArtifact, false)] closure list (Free builtWorld) :=
  installSet_of_builddeps stocked_builtWorld wellFormed_builtWorld rfl

/-- It has the repository build in place of this run's `llvm-libs`. -/
theorem not_installSet : ¬∀ (w : World) (dir : PkgDir) (roots : List Text), Stocked w dir →
    WellFormed w → w.builddeps = some roots → ∃ closure, depClosure w = some closure ∧
      IsClosed w closure (IsEntry w closure) ∧
      ∀ list, installArgs w = some list → IsFiled w dir closure list fun _ => True := by
  intro h
  obtain ⟨closure, hclosure, -, hfiled⟩ :=
    h builtWorld _ _ stocked_builtWorld wellFormed_builtWorld rfl
  have hmem : ((depClosure builtWorld).getD []).contains libllvmPkg = true := by decide
  rw [hclosure, Option.getD_some, List.contains_iff_mem] at hmem
  have hlist := hfiled [fooFile, repoLlvm] (by decide)
  have hpath := (hlist.built libllvmPkg hmem trivial ⟨['s'], repoLlvm.name⟩ (by decide) repoLlvm).mp
    ⟨by decide, by decide⟩
  exact absurd hpath (by decide)

end Sysforge.Sandbox
