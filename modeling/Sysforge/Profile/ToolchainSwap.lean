import Sysforge.Foundations.Dict
import Sysforge.Makepkg.Flags

/-!
# Swapping the toolchain of a profile

The `toolchain` field of a profile stands for a bundle of compiler and binutils keys. A swap
replaces the bundle as a unit, the linker included; a row of `[package_compiler_overrides]` swaps the
bundle and then sets compilers and a linker of its own. Each operation comes with what it makes of
every key, read off with `get`.
-/

namespace Sysforge.Swap

open Text Flags

/-- The values of a resolved profile that are strings. -/
abbrev Values := Dict String Text

/-! ## The code -/

/-- `_TOOLCHAIN_BUNDLES`. -/
def toolchainBundles : List (Text × List (String × Text)) :=
  [("gcc".toList, [("CC", "gcc".toList), ("CXX", "g++".toList)]),
    ("llvm".toList, [("CC", "clang".toList), ("CXX", "clang++".toList), ("AR", "llvm-ar".toList),
      ("NM", "llvm-nm".toList), ("RANLIB", "llvm-ranlib".toList), ("STRIP", "llvm-strip".toList)])]

/-- `_LLVM_LINKER`. -/
def llvmLinker : Text := "lld".toList

/-- The linker of the LLVM bundle, where none is declared. -/
def expandLinker (tc : Text) (profile : Values) : Values :=
  if tc = "llvm".toList ∧
      detectLinkerFromLdflags ((profile.get "LDFLAGS").getD []) = none then
    profile.set "LDFLAGS" (injectLinker ((profile.get "LDFLAGS").getD []) llvmLinker)
  else profile

/-- `_expand_toolchain`. -/
def expandToolchain (defaultToolchain : Option Text) (profile : Values) : Values :=
  match (present (profile.get "toolchain")).or defaultToolchain with
  | none => profile
  | some tc =>
    match toolchainBundles.lookup tc with
    | none => profile
    | some bundle =>
      expandLinker tc (bundle.foldl (fun p kv => p.setdefault kv.1 kv.2) profile)

/-- `_BUNDLE_KEYS`. -/
def bundleKeys : List String := ["CC", "CXX", "AR", "NM", "RANLIB", "STRIP"]

/-- Linker flags without the tokens that name a linker. -/
def dropLinker (ldflags : Text) : Text :=
  unwords ((words ldflags).filter fun t => !fuseLd.isPrefixOf t)

/-- A profile without the keys of the bundles and without the tokens that name a linker. -/
def withoutBundle (profile : Values) : Values :=
  let profile := bundleKeys.foldl (fun (p : Values) k => p.erase k) profile
  match present (profile.get "LDFLAGS") with
  | some ldflags => profile.set "LDFLAGS" (dropLinker ldflags)
  | none => profile

/-- `swap_toolchain`. -/
def swapToolchain (profile : Values) (toolchain : Text) : Values :=
  expandToolchain none ((withoutBundle profile).set "toolchain" toolchain)

/-- `toolchain_for_compilers`. -/
def toolchainForCompilers (cc cxx : Text) : Option Text :=
  (toolchainBundles.find? fun b =>
    b.2.lookup "CC" = some cc && b.2.lookup "CXX" = some cxx).map Prod.fst

/-- A row of `[package_compiler_overrides]`. -/
structure Row where
  toolchain : Option Text := none
  cc : Option Text := none
  cxx : Option Text := none
  ld : Option Text := none

/-- `_apply_package_toolchain_override`. -/
def applyPackageToolchainOverride (row : Row) (result : Values) : Values :=
  match present row.toolchain with
  | some tc => if (toolchainBundles.lookup tc).isSome then swapToolchain result tc else result
  | none => result

/-- A linker that takes the place of every declared one, at the end. -/
def foldLinker (ldflags ld : Text) : Text :=
  unwords ((words ldflags).filter (fun t => !fuseLd.isPrefixOf t) ++ [fuseLd ++ ld])

/-- `_apply_package_compiler_override`. -/
def applyPackageCompilerOverride (row : Row) (result : Values) : Values :=
  let result := (present row.cc).elim result fun cc => result.set "CC" cc
  let result := (present row.cxx).elim result fun cxx => result.set "CXX" cxx
  (present row.ld).elim result fun ld =>
    result.set "LDFLAGS" (foldLinker ((result.get "LDFLAGS").getD []) ld)

/-- The end of `resolve_profile`: the toolchain of the merged profile, and the package's row. -/
def finishProfile (defaultToolchain : Option Text) (row : Row) (merged : Values) : Values :=
  applyPackageCompilerOverride row
    (applyPackageToolchainOverride row (expandToolchain defaultToolchain merged))

/-! ## What a swap makes of a key -/

variable {p : Values} {tc cc cxx s : Text} {k : String} {bundle : List (String × Text)} {row : Row}

theorem get_foldl_setdefault : (bundle.foldl (fun p kv => p.setdefault kv.1 kv.2) p).get k =
    (p.get k).or (bundle.lookup k) := by
  induction bundle generalizing p with
  | nil => exact (Option.or_none ..).symm
  | cons kv bundle ih =>
    rw [List.foldl_cons, ih, Dict.get_setdefault, Assoc.lookup_cons_eq, Option.or_assoc]
    by_cases hk : k = kv.1
    · rw [if_pos hk, if_pos hk, Option.some_or]
    · rw [if_neg hk, if_neg hk, Option.none_or]

theorem get_expandLinker (hk : k ≠ "LDFLAGS") : (expandLinker tc p).get k = p.get k := by
  rw [expandLinker]
  split_ifs with h
  · rw [Dict.get_set, if_neg hk]
  · rfl

/-- The bundles, by name. -/
theorem lookup_toolchainBundles (hb : toolchainBundles.lookup tc = some bundle) :
    (tc, bundle) ∈ toolchainBundles := by
  obtain ⟨l₁, l₂, h, -⟩ := List.lookup_eq_some_iff.mp hb
  rw [h]
  exact List.mem_append_right _ List.mem_cons_self

theorem ne_nil_of_bundle (hb : toolchainBundles.lookup tc = some bundle) : tc ≠ [] := by
  have hall : ∀ b ∈ toolchainBundles, b.1 ≠ [] := by decide
  exact hall _ (lookup_toolchainBundles hb)

theorem lookup_bundle_of_notMem (hb : toolchainBundles.lookup tc = some bundle)
    (hk : k ∉ bundleKeys) : bundle.lookup k = none := by
  have hall : ∀ b ∈ toolchainBundles, ∀ kv ∈ b.2, kv.1 ∈ bundleKeys := by decide
  rw [Assoc.lookup_eq_none]
  intro hmem
  obtain ⟨kv, hkv, rfl⟩ := List.mem_map.mp hmem
  exact hk (hall _ (lookup_toolchainBundles hb) kv hkv)

theorem present_of_ne_nil (h : s ≠ []) : present (some s) = some s := by
  rw [present, Option.filter_eq_some_iff]
  exact ⟨rfl, decide_eq_true h⟩

theorem present_none_iff {o : Option Text} : present o = none ↔ o = none ∨ o = some [] := by
  cases o with
  | none => exact iff_of_true rfl (.inl rfl)
  | some v =>
    by_cases hv : v = []
    · subst hv
      exact iff_of_true rfl (.inr rfl)
    · rw [present_of_ne_nil hv]
      refine iff_of_false nofun ?_
      rintro (h | h)
      · cases h
      · exact hv (Option.some.inj h)

/-- The linker flags of a profile without the tokens that name a linker. -/
def keptLdflags (ldflags : Option Text) : Option Text :=
  match present ldflags with
  | some s => some (dropLinker s)
  | none => ldflags

/-- The linker flags after a swap. -/
def swapLdflags (tc : Text) (ldflags : Option Text) : Option Text :=
  if tc = "llvm".toList ∧ detectLinkerFromLdflags ((keptLdflags ldflags).getD []) = none then
    some (injectLinker ((keptLdflags ldflags).getD []) llvmLinker)
  else keptLdflags ldflags

theorem get_withoutBundle : (withoutBundle p).get k =
    if k = "LDFLAGS" then keptLdflags (p.get "LDFLAGS")
    else if k ∈ bundleKeys then none else p.get k := by
  have herase (k : String) : (bundleKeys.foldl (fun (p : Values) k => p.erase k) p).get k =
      if k ∈ bundleKeys then none else p.get k := Dict.get_foldl_erase _ _ _
  rw [withoutBundle, herase, if_neg (by decide), keptLdflags]
  cases present (p.get "LDFLAGS") with
  | none =>
    dsimp only
    rw [herase]
    by_cases hk : k = "LDFLAGS"
    · rw [if_pos hk, hk, if_neg (by decide)]
    · rw [if_neg hk]
  | some s =>
    dsimp only
    rw [Dict.get_set, herase]

theorem swapToolchain_eq (hb : toolchainBundles.lookup tc = some bundle) :
    swapToolchain p tc = expandLinker tc (bundle.foldl (fun p kv => p.setdefault kv.1 kv.2)
      ((withoutBundle p).set "toolchain" tc)) := by
  rw [swapToolchain, expandToolchain, Dict.get_set, if_pos rfl,
    present_of_ne_nil (ne_nil_of_bundle hb), Option.some_or]
  dsimp only
  rw [hb]

/-- Before the linker, a swapped profile has the bundle over what the profile keeps. -/
theorem get_expanded : (bundle.foldl (fun p kv => p.setdefault kv.1 kv.2)
      ((withoutBundle p).set "toolchain" tc)).get k =
    (if k = "toolchain" then some tc else (withoutBundle p).get k).or (bundle.lookup k) := by
  rw [get_foldl_setdefault, Dict.get_set]

/-- A swap sets the keys of the bundle and no other key of any bundle. -/
theorem get_swapToolchain_bundle (hb : toolchainBundles.lookup tc = some bundle)
    (hk : k ∈ bundleKeys) : (swapToolchain p tc).get k = bundle.lookup k := by
  have hne : k ≠ "LDFLAGS" ∧ k ≠ "toolchain" := by
    constructor <;> rintro rfl <;> exact absurd hk (by decide)
  rw [swapToolchain_eq hb, get_expandLinker hne.1, get_expanded, if_neg hne.2, get_withoutBundle,
    if_neg hne.1, if_pos hk, Option.none_or]

theorem get_swapToolchain_ldflags (hb : toolchainBundles.lookup tc = some bundle) :
    (swapToolchain p tc).get "LDFLAGS" = swapLdflags tc (p.get "LDFLAGS") := by
  have hkept : (bundle.foldl (fun p kv => p.setdefault kv.1 kv.2)
      ((withoutBundle p).set "toolchain" tc)).get "LDFLAGS" = keptLdflags (p.get "LDFLAGS") := by
    rw [get_expanded, if_neg (by decide), get_withoutBundle, if_pos rfl,
      lookup_bundle_of_notMem hb (by decide), Option.or_none]
  rw [swapToolchain_eq hb, expandLinker, hkept, swapLdflags]
  split_ifs
  · rw [Dict.get_set, if_pos rfl]
  · exact hkept

/-- A swap leaves the keys of no bundle alone, but for the linker flags and its own name. -/
theorem get_swapToolchain (hb : toolchainBundles.lookup tc = some bundle) (hk : k ∉ bundleKeys)
    (hld : k ≠ "LDFLAGS") (htc : k ≠ "toolchain") : (swapToolchain p tc).get k = p.get k := by
  rw [swapToolchain_eq hb, get_expandLinker hld, get_expanded, if_neg htc, get_withoutBundle,
    if_neg hld, if_neg hk, lookup_bundle_of_notMem hb hk, Option.or_none]

/-! ## The linker flags after a swap -/

theorem words_dropLinker :
    words (dropLinker s) = (words s).filter fun t => !fuseLd.isPrefixOf t := by
  refine words_unwords fun w hw => ?_
  obtain ⟨hne, hspace⟩ := mem_words (List.mem_filter.mp hw).1
  exact ⟨hne, fun c hc => (hspace c hc).1⟩

theorem detect_dropLinker : detectLinkerFromLdflags (dropLinker s) = none := by
  rw [detectLinkerFromLdflags, words_dropLinker, Option.map_eq_none_iff, List.find?_eq_none]
  intro t ht
  have hnot := (List.mem_filter.mp ht).2
  rwa [Bool.not_eq_true', ← Bool.not_eq_true] at hnot

/-- What is left of the linker flags when no linker is named. -/
def bare (ldflags : Option Text) : Text := dropLinker (ldflags.getD [])

/-- The linker flags after a swap, from what they are without a linker. -/
theorem swapLdflags_eq (ldflags : Option Text) : swapLdflags tc ldflags =
    if tc = "llvm".toList then some (injectLinker (bare ldflags) llvmLinker)
    else ldflags.map fun _ => bare ldflags := by
  have hkept : keptLdflags ldflags = ldflags.map fun _ => bare ldflags := by
    cases ldflags with
    | none => rfl
    | some s =>
      by_cases hs : s = []
      · subst hs
        rfl
      · rw [keptLdflags, present_of_ne_nil hs]
        rfl
  have hgetD : (ldflags.map fun _ => bare ldflags).getD [] = bare ldflags := by
    cases ldflags <;> rfl
  rw [swapLdflags, hkept, hgetD, bare, detect_dropLinker]
  simp only [and_true]

end Sysforge.Swap
