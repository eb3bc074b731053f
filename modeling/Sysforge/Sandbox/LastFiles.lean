import Mathlib.Data.List.Find
import Sysforge.Sandbox.InstallSet

/-!
# The last file of each package

`_last_per_pkgname` keeps the last file of each name (`mem_lastPerPkgname`), and the relations of
this run's artifacts are those of the last file too.
-/

namespace Sysforge.Sandbox

/-- The last file of a name. -/
def lastFor (paths : List Path) (n : Text) : Option Path :=
  paths.reverse.find? fun p => artifactPkgname p = n

section Last

variable {l m paths : List Path} {seen : List Text} {p : Path} {n : Text}

theorem mem_lastPerPkgnameAux : p ∈ lastPerPkgnameAux seen l ↔ artifactPkgname p ∉ seen ∧
    (l.find? fun q => artifactPkgname q = artifactPkgname p) = some p := by
  induction l generalizing seen with
  | nil => exact iff_of_false List.not_mem_nil fun h => Option.some_ne_none p h.2.symm
  | cons q l ih =>
    rw [lastPerPkgnameAux, List.find?_cons]
    by_cases hname : artifactPkgname q = artifactPkgname p
    · rw [decide_eq_true hname]
      split_ifs with hq
      · rw [ih, ← hname]
        exact iff_of_false (fun h => h.1 hq) fun h => h.1 hq
      · rw [List.mem_cons, ih, ← hname]
        constructor
        · rintro (rfl | ⟨hnot, -⟩)
          · exact ⟨hq, rfl⟩
          · exact absurd List.mem_cons_self hnot
        · exact fun ⟨_, h⟩ => .inl (Option.some.inj h).symm
    · rw [decide_eq_false hname]
      split_ifs with hq
      · exact ih
      · have hne : p ≠ q := fun h => hname (congrArg artifactPkgname h.symm)
        rw [List.mem_cons, ih, List.mem_cons, or_iff_right hne,
          or_iff_right fun h => hname h.symm]

theorem nodup_lastPerPkgnameAux : ((lastPerPkgnameAux seen l).map artifactPkgname).Nodup := by
  induction l generalizing seen with
  | nil => exact List.nodup_nil
  | cons q l ih =>
    rw [lastPerPkgnameAux]
    split_ifs
    · exact ih
    · refine List.nodup_cons.mpr ⟨fun h => ?_, ih⟩
      obtain ⟨p, hp, hname⟩ := List.mem_map.mp h
      exact (mem_lastPerPkgnameAux.mp hp).1 (hname ▸ List.mem_cons_self)

/-- **The last file of each name** is kept. -/
theorem mem_lastPerPkgname : p ∈ lastPerPkgname paths ↔
    lastFor paths (artifactPkgname p) = some p := by
  rw [lastPerPkgname, List.mem_reverse, mem_lastPerPkgnameAux, and_iff_right List.not_mem_nil,
    lastFor]

theorem nodup_lastPerPkgname (paths : List Path) :
    ((lastPerPkgname paths).map artifactPkgname).Nodup := by
  rw [lastPerPkgname, List.map_reverse, List.nodup_reverse]
  exact nodup_lastPerPkgnameAux

theorem lastFor_append : lastFor (l ++ m) n = (lastFor m n).or (lastFor l n) := by
  rw [lastFor, List.reverse_append, List.find?_append, lastFor, lastFor]

theorem lastFor_eq_none : lastFor l n = none ↔ ∀ p ∈ l, artifactPkgname p ≠ n := by
  rw [lastFor, List.find?_eq_none]
  constructor
  · exact fun h p hp hname => h p (List.mem_reverse.mpr hp) (decide_eq_true hname)
  · exact fun h p hp hname => h p (List.mem_reverse.mp hp) (of_decide_eq_true hname)

theorem mem_of_lastFor (h : lastFor l n = some p) : p ∈ l ∧ artifactPkgname p = n := by
  have htrue := List.find?_some h
  exact ⟨List.mem_reverse.mp (List.mem_of_find?_eq_some h), of_decide_eq_true htrue⟩

/-- Leaving out files of other names. -/
theorem lastFor_filter {f : Path → Bool} (h : ∀ p ∈ l, artifactPkgname p = n → f p = true) :
    lastFor (l.filter f) n = lastFor l n := by
  rw [lastFor, ← List.filter_reverse, List.find?_filter, lastFor]
  refine List.find?_congr fun p hp => ?_
  refine decide_eq_decide.mpr ⟨fun htrue => of_decide_eq_true htrue.2, fun hname => ?_⟩
  exact ⟨h p (List.mem_reverse.mp hp) hname, decide_eq_true hname⟩

end Last

end Sysforge.Sandbox
