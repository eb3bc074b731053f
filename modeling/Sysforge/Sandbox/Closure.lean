import Sysforge.Sandbox.LastFiles

/-!
# The dependency closure

`_dep_closure` sees what the requirements of the target lead to (`mem_depClosure`), each package
once. A requirement is met by the package that the merged databases name for it: by name first,
then by the exact provide, then by the provided name (`chosen_of_resolveDep`).
-/

namespace Sysforge.Sandbox

open Text ResolvingWalk

variable {w : World} {closure : List Text} {n : Text}

/-! ## The overlaid database -/

/-- The relations of a package once this run's artifacts are installed. -/
def overlay (w : World) (name : Text) : Option Relations :=
  match lastFor (sessionFiles w) name with
  | some p => some (w.pkginfo p)
  | none => w.db.get name

/-! ## What is needed -/

/-- A requirement of the one package is taken for the other. -/
def Edge (w : World) : Text → Text → Prop :=
  Step (resolveDep (closureGraph w) (closureProviders w)) (dependsOf (closureGraph w))

/-- The target needs the package. -/
def Needed (w : World) (n : Text) : Prop :=
  ∃ roots ∈ w.builddeps, ∃ d ∈ roots, ∃ b,
    resolveDep (closureGraph w) (closureProviders w) d = some b ∧
      Relation.ReflTransGen (Edge w) b n

theorem nodup_depClosure (h : depClosure w = some closure) : closure.Nodup := by
  obtain ⟨roots, -, rfl⟩ := Option.map_eq_some_iff.mp h
  exact List.nodup_reverse.mpr (nodup_walk List.nodup_nil _ _)

/-- **The closure** is what the target needs. -/
theorem mem_depClosure (h : depClosure w = some closure) : n ∈ closure ↔ Needed w n := by
  obtain ⟨roots, hroots, rfl⟩ := Option.map_eq_some_iff.mp h
  have hnext : ∀ a, dependsOf (closureGraph w) a ≠ [] → a ∈ (closureGraph w).keys :=
    fun _ => mem_keys_of_dependsOf
  have hfuel : roots.reverse.length + ((closureGraph w).keys.flatMap
      (dependsOf (closureGraph w))).length ≤ fuelFor (closureGraph w) roots := by
    rw [List.length_reverse, fuelFor]
  rw [List.mem_reverse, mem_walk_iff (closureGraph w).nodup hnext hfuel]
  constructor
  · rintro ⟨d, hd, hreach⟩
    exact ⟨roots, hroots, d, List.mem_reverse.mp hd, hreach⟩
  · rintro ⟨roots', hroots', d, hd, hreach⟩
    rw [Option.some.inj (hroots.symm.trans hroots')]
    exact ⟨d, List.mem_reverse.mpr hd, hreach⟩

/-- What the build depends on and what a member depends on is in the closure. -/
theorem closed_depClosure (h : depClosure w = some closure) {d b : Text}
    (hd : (∃ roots ∈ w.builddeps, d ∈ roots) ∨ ∃ a ∈ closure, d ∈ dependsOf (closureGraph w) a)
    (hb : resolveDep (closureGraph w) (closureProviders w) d = some b) : b ∈ closure := by
  rw [mem_depClosure h]
  rcases hd with ⟨roots, hroots, hd⟩ | ⟨a, ha, hd⟩
  · exact ⟨roots, hroots, d, hd, b, hb, .refl⟩
  · obtain ⟨roots, hroots, e, he, c, hc, hreach⟩ := (mem_depClosure h).mp ha
    exact ⟨roots, hroots, e, he, c, hc, hreach.tail ⟨d, hd, hb⟩⟩

/-! ## The toolchain -/

/-- A dependency of an installed package by its name. -/
def HostRequires (w : World) (a b : Text) : Prop :=
  ∃ rel ∈ w.db.get a, ∃ dep ∈ rel.depends, stripVersion dep = b

/-- The toolchain needs the package by names, as the host has it installed. -/
def ToolchainNeeds (w : World) (n : Text) : Prop :=
  ∃ t ∈ w.toolchain, Relation.ReflTransGen (HostRequires w) (stripVersion t) n

theorem dependsOf_allPackageDepends (db : Dict Text Relations) (a : Text) :
    dependsOf (allPackageDepends db) a = ((db.get a).map Relations.depends).getD [] := by
  rw [dependsOf, allPackageDepends, Dict.get_map]

theorem step_iff_hostRequires (w : World) (a b : Text) :
    Step (fun dep => some (stripVersion dep)) (dependsOf (allPackageDepends w.db)) a b ↔
      HostRequires w a b := by
  rw [Step, dependsOf_allPackageDepends, HostRequires]
  cases w.db.get a with
  | none => exact ⟨fun ⟨d, hd, _⟩ => absurd hd List.not_mem_nil, fun ⟨r, hr, _⟩ => by cases hr⟩
  | some rel =>
    constructor
    · rintro ⟨dep, hdep, hname⟩
      exact ⟨rel, rfl, dep, hdep, Option.some.inj hname⟩
    · rintro ⟨rel', hrel, dep, hdep, hname⟩
      obtain rfl := Option.mem_some_iff.mp hrel
      exact ⟨dep, hdep, congrArg some hname⟩

theorem step_eq_hostRequires (w : World) :
    Step (fun dep => some (stripVersion dep)) (dependsOf (allPackageDepends w.db)) =
      HostRequires w := by
  ext a b
  exact step_iff_hostRequires w a b

theorem mem_sortedSet {l : List Text} : n ∈ sortedSet l ↔ n ∈ l := by
  rw [sortedSet, List.mem_insertionSort, List.mem_dedup]


theorem mem_toolchainClosure : n ∈ toolchainClosure w ↔ w.hostOnly ≠ [] ∧ ToolchainNeeds w n := by
  by_cases htool : w.toolchain = []
  · rw [toolchainClosure, if_neg fun h => h.2 htool]
    refine iff_of_false List.not_mem_nil fun ⟨_, t, ht, _⟩ => ?_
    rw [htool] at ht
    exact List.not_mem_nil ht
  have hhost : hostOnlyFor w = w.hostOnly := if_pos (.inl htool)
  by_cases hnil : w.hostOnly = []
  · rw [toolchainClosure, if_neg fun h => h.1 (hhost.trans hnil)]
    exact iff_of_false List.not_mem_nil fun h => h.1 hnil
  have hgraph : graphFor w = allPackageDepends w.db := by
    rw [graphFor, hhost, if_pos hnil]
  have hnext : ∀ a, dependsOf (allPackageDepends w.db) a ≠ [] →
      a ∈ (allPackageDepends w.db).keys := fun _ => mem_keys_of_dependsOf
  have hfuel : (sortedSet w.toolchain).reverse.length + ((allPackageDepends w.db).keys.flatMap
      (dependsOf (allPackageDepends w.db))).length ≤
        fuelFor (allPackageDepends w.db) (sortedSet w.toolchain) := by
    rw [List.length_reverse, fuelFor]
  rw [toolchainClosure, hhost, if_pos ⟨hnil, htool⟩, hgraph, List.mem_reverse,
    mem_walk_iff (allPackageDepends w.db).nodup hnext hfuel, step_eq_hostRequires,
    and_iff_right hnil]
  constructor
  · rintro ⟨t, ht, b, hb, hreach⟩
    rw [← Option.some.inj hb] at hreach
    exact ⟨t, mem_sortedSet.mp (List.mem_reverse.mp ht), hreach⟩
  · rintro ⟨t, ht, hreach⟩
    exact ⟨t, List.mem_reverse.mpr (mem_sortedSet.mpr ht), stripVersion t, rfl, hreach⟩

end Sysforge.Sandbox
