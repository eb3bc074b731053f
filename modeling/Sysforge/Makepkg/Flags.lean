import Sysforge.Foundations.Lines

/-!
# Compiler flag strings

The transformations of `makepkg_flags`, on strings of flags that are separated by white space. Most
drop the tokens of one kind and give the tokens that they dropped beside the rest: they are
`stripTokens` at a test each. The linker a string declares is its first `-fuse-ld=`.
-/

namespace Sysforge.Flags

open Text

/-! ## Dropping tokens -/

/-- A flag string without the tokens of a kind, and those tokens. -/
def stripTokens (drop : Text → Bool) (val : Text) : Text × List Text :=
  (unwords ((words val).filter fun t => !drop t), (words val).filter drop)

/-- `_FULL_LTO_FLAGS`. -/
def fullLtoFlags : List Text := ["-flto".toList, "-flto=full".toList, "-flto=auto".toList]

/-- `_strip_full_lto`. -/
def stripFullLto : Text → Text × List Text := stripTokens fun t => decide (t ∈ fullLtoFlags)

/-- `-flto` in any spelling. -/
def isLto (t : Text) : Bool := t = "-flto".toList || "-flto=".toList.isPrefixOf t

/-- `_strip_all_lto`. -/
def stripAllLto : Text → Text × List Text := stripTokens isLto

/-- `_LIB32_INVALID_MARCH`. -/
def lib32InvalidMarch : List Text :=
  ["-march=native".toList, "-march=x86-64".toList, "-march=x86-64-v2".toList,
    "-march=x86-64-v3".toList, "-march=x86-64-v4".toList]

/-- `_scrub_lib32_arch_flags`. -/
def scrubLib32ArchFlags : Text → Text × List Text :=
  stripTokens fun t => decide (t ∈ lib32InvalidMarch)

/-- `_PGO_FLAG_PREFIXES`. -/
def pgoFlagPrefixes : List Text :=
  ["-fprofile-use".toList, "-fprofile-instr-use".toList, "-fprofile-generate".toList,
    "-fprofile-instr-generate".toList, "-fcs-profile-generate".toList]

/-- A profile flag, bare or with a value. -/
def isPgoFlag (t : Text) : Bool :=
  pgoFlagPrefixes.any fun p => t = p || (p ++ ['=']).isPrefixOf t

/-- `_strip_pgo_flags`. -/
def stripPgoFlags : Text → Text × List Text := stripTokens isPgoFlag

/-- `_LLD_ONLY_FLAGS`. -/
def lldOnlyFlags : List Text := ["--icf=all".toList, "--icf=safe".toList, "--icf=none".toList]

/-- What `_strip_lld_flags` leaves of a token, and what it drops of it. -/
def stripLldToken (t : Text) : Option Text × List Text :=
  if "-Wl,".toList.isPrefixOf t then
    let subtokens := split ',' (t.drop 4)
    let kept := subtokens.filter fun s => s ∉ lldOnlyFlags
    (if kept = [] then none else some ("-Wl,".toList ++ [','].intercalate kept),
      subtokens.filter fun s => s ∈ lldOnlyFlags)
  else if t ∈ lldOnlyFlags then (none, [t])
  else (some t, [])

/-- `_strip_lld_flags`. -/
def stripLldFlags (val : Text) : Text × List Text :=
  (unwords ((words val).filterMap fun t => (stripLldToken t).1),
    (words val).flatMap fun t => (stripLldToken t).2)

/-- The new value of a key from which a transformation dropped something. -/
def dropped (strip : Text → Text × List Text) (val : Text) : Option Text :=
  if (strip val).2 = [] then none else some (strip val).1

/-! ## The linker -/

/-- The option that names a linker. -/
def fuseLd : Text := "-fuse-ld=".toList

/-- `_detect_linker_from_ldflags`. -/
def detectLinkerFromLdflags (val : Text) : Option Text :=
  ((words val).find? fuseLd.isPrefixOf).map (List.drop fuseLd.length)

/-- `_inject_linker`: the linker in the place of the declared one, else in front. -/
def injectLinker (val name : Text) : Text :=
  match (words val).findIdx? fuseLd.isPrefixOf with
  | some i => unwords ((words val).set i (fuseLd ++ name))
  | none => unwords ((fuseLd ++ name) :: words val)

/-- The argument of `-C` that names a linker. -/
def linkArg : Text := "link-arg=-fuse-ld=".toList

/-- The same as one token. -/
def cLinkArg : Text := "-Clink-arg=-fuse-ld=".toList

/-- `_detect_linker_from_rustflags`, on the tokens. -/
def detectLinkerFromRustTokens : List Text → Option Text
  | [] => none
  | [t] => if cLinkArg.isPrefixOf t then some (t.drop cLinkArg.length) else none
  | t :: arg :: rest =>
    if t = "-C".toList then
      if linkArg.isPrefixOf arg then some (arg.drop linkArg.length)
      else detectLinkerFromRustTokens (arg :: rest)
    else if cLinkArg.isPrefixOf t then some (t.drop cLinkArg.length)
    else detectLinkerFromRustTokens (arg :: rest)

/-- `_replace_rustflags_linker`, on the tokens. -/
def replaceRustTokens (linker : Text) : List Text → List Text
  | [] => []
  | [t] => [if cLinkArg.isPrefixOf t then cLinkArg ++ linker else t]
  | t :: arg :: rest =>
    if t = "-C".toList ∧ linkArg.isPrefixOf arg then
      t :: (linkArg ++ linker) :: replaceRustTokens linker rest
    else if cLinkArg.isPrefixOf t then (cLinkArg ++ linker) :: replaceRustTokens linker (arg :: rest)
    else t :: replaceRustTokens linker (arg :: rest)

/-- A text that is set and not empty. -/
def present (o : Option Text) : Option Text := o.filter fun s => s ≠ []

/-- `resolve_effective_linker`, given which programs are on `PATH`. -/
def resolveEffectiveLinker (which : Text → Bool) (ldOverride : Option Text)
    (profileLdflags systemLdflags : Text) : Text :=
  let linker := (present ldOverride).or ((present (detectLinkerFromLdflags profileLdflags)).or
    (present (detectLinkerFromLdflags systemLdflags)))
  match linker with
  | some l => if which l then l else "ld".toList
  | none => "ld".toList

/-! ## What is left of a string -/

variable {drop : Text → Bool} {val t : Text}

theorem words_stripTokens : words (stripTokens drop val).1 = (words val).filter fun t => !drop t := by
  refine words_unwords fun w hw => ?_
  obtain ⟨hne, hspace⟩ := mem_words (List.mem_filter.mp hw).1
  exact ⟨hne, fun c hc => (hspace c hc).1⟩

theorem mem_words_stripTokens :
    t ∈ words (stripTokens drop val).1 ↔ t ∈ words val ∧ drop t = false := by
  rw [words_stripTokens, List.mem_filter]
  simp only [Bool.not_eq_true']

/-- A value that nothing was dropped from has the tokens that the transformation would leave. -/
theorem mem_words_dropped : t ∈ words ((dropped (stripTokens drop) val).getD val) ↔
    t ∈ words val ∧ drop t = false := by
  unfold dropped
  by_cases h : (stripTokens drop val).2 = []
  · rw [if_pos h, Option.getD_none]
    refine ⟨fun ht => ⟨ht, ?_⟩, And.left⟩
    have hnot := List.filter_eq_nil_iff.mp h t ht
    exact Bool.eq_false_iff.mpr hnot
  · rw [if_neg h, Option.getD_some, mem_words_stripTokens]

end Sysforge.Flags
