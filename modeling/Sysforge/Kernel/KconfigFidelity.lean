import Sysforge.Kernel.KconfigFragment

/-!
# Reading the kconfig fragment back

A line of the fragment sets its option to the value as it is written (`kconfigLine_format`), so the
parse of the fragment has the merged options (`get_parse_fragment`), and `faithful_iff` compares
what is written with the form that a `.config` has for the value.
-/

namespace Sysforge.Kernel.KconfigFragment

open Text

variable {v o p l : Text}

/-! ## The property -/

/-- A tristate or a number, which has no quotes. -/
def isBare (v : Text) : Bool := v = ['y'] || v = ['m'] || v = ['n'] || isNumeric v

/-- The escaped text of a string value. -/
def escape (v : Text) : Text := v.flatMap fun c => if c = '"' || c = '\\' then ['\\', c] else [c]

/-- The form that a kernel's `.config` has for a value; `n` stands for an option that is not set. -/
def kernelForm (v : Text) : Text := if isBare v then v else '"' :: (escape v ++ ['"'])

/-- The value of the highest source of an option. -/
def highest (w : World) (manual : Dict Text Text) (o : Text) : Option Text :=
  (manual.get o).or ((w.extraKconfig.get o).or ((w.hwKconfig.get o).or
    (((devices w).get o).or ((floor w).get o))))

/-- The parse of the fragment has the options of the sources in their forms, and the drift against
a config is empty exactly when the config has them all. -/
structure Faithful (w : World) (manual : Dict Text Text) (text : Text) : Prop where
  parsed : ∀ o, (parseKconfigText text).get o = (highest w manual o).map kernelForm
  drift : ∀ resolved, diffRequestedKconfig (parseKconfigText text) resolved = [] ↔
    ∀ o v, highest w manual o = some v → (resolved.get o).getD ['n'] = kernelForm v

/-- A value that needs no escape: bare, or without a quote, a backslash or a line break. -/
def Plain (v : Text) : Prop :=
  isBare v = true ∨ ∀ c ∈ v, c ≠ '"' ∧ c ≠ '\\' ∧ isLineBreak c = false

/-- The option maps have options for keys, and the provenance is a line that is no option. -/
structure WellFormed (w : World) : Prop where
  options : ∀ d ∈ [w.hardeningKconfig, w.deviceOptions, w.hwKconfig, w.extraKconfig],
    ∀ o ∈ d.keys, isOption o = true
  provenance : ∀ p ∈ w.provenance, OneLine p ∧ ¬configStart <+: p

/-! ## A line -/

/-- The form in which a value is written. -/
def fileForm (v : Text) : Text := if isBare v then v else '"' :: (v ++ ['"'])

theorem le_iff_toNat_le (a c : Char) : a ≤ c ↔ a.toNat ≤ c.toNat := by
  rw [Char.le_def, UInt32.le_iff_toNat_le]
  rfl

theorem not_isSpace_of_visible {c : Char} (hlow : '!' ≤ c) (hhigh : c ≤ '~') :
    isSpace c = false := by
  rw [le_iff_toNat_le] at hlow hhigh
  have hlow' : 0x21 ≤ c.toNat := hlow
  have hhigh' : c.toNat ≤ 0x7e := hhigh
  refine Bool.eq_false_iff.mpr fun hs => ?_
  rw [isSpace, Bool.or_eq_true, decide_eq_true_iff, Bool.and_eq_true, decide_eq_true_iff,
    decide_eq_true_iff] at hs
  simp only [List.mem_cons, List.not_mem_nil, or_false] at hs
  omega

/-- A character between two others that are visible, and not the equals sign. -/
theorem visible_of_between {a b c : Char} (ha : '!' ≤ a) (hb : b ≤ '~')
    (hne : ¬(a ≤ '=' ∧ '=' ≤ b)) (h : (a ≤ c && c ≤ b) = true) : isSpace c = false ∧ c ≠ '=' := by
  rw [Bool.and_eq_true, decide_eq_true_iff, decide_eq_true_iff] at h
  refine ⟨not_isSpace_of_visible (ha.trans h.1) (h.2.trans hb), ?_⟩
  rintro rfl
  exact hne h

theorem isOptionChar_visible {c : Char} (h : isOptionChar c = true) :
    isSpace c = false ∧ c ≠ '=' := by
  rw [isOptionChar, Bool.or_eq_true, Bool.or_eq_true, decide_eq_true_iff] at h
  rcases h with (h | h) | rfl
  · exact visible_of_between (by decide) (by decide) (by decide) h
  · exact visible_of_between (by decide) (by decide) (by decide) h
  · decide

theorem isOption_spec (h : isOption o = true) :
    configStart <+: o ∧ ∀ c ∈ o, isSpace c = false ∧ c ≠ '=' := by
  rw [isOption, Bool.and_eq_true, Bool.and_eq_true] at h
  obtain ⟨hpre, -, hall⟩ := h
  obtain ⟨rest, rfl⟩ := List.isPrefixOf_iff_prefix.mp hpre
  rw [List.drop_left, List.all_eq_true] at hall
  have hstart : configStart.all isOptionChar = true := by decide
  refine ⟨List.prefix_append _ _, fun c hc => isOptionChar_visible ?_⟩
  rcases List.mem_append.mp hc with hc | hc
  · exact List.all_eq_true.mp hstart c hc
  · exact hall c hc

theorem isHexDigit_visible {c : Char} (h : isHexDigit c = true) : isSpace c = false := by
  rw [isHexDigit, Bool.or_eq_true, Bool.or_eq_true] at h
  rcases h with (h | h) | h
  · exact (visible_of_between (by decide) (by decide) (by decide) h).1
  · exact (visible_of_between (by decide) (by decide) (by decide) h).1
  · exact (visible_of_between (by decide) (by decide) (by decide) h).1

theorem isDecimal_spec (h : isDecimal v = true) : v ≠ [] ∧ NoSpace v := by
  rw [isDecimal, Bool.and_eq_true, decide_eq_true_iff, List.all_eq_true] at h
  obtain ⟨hne, hall⟩ := h
  have hdigit : ∀ c : Char, isDecimalDigit c = true → isSpace c = false := fun c hc =>
    (visible_of_between (by decide) (by decide) (by decide) hc).1
  split_ifs at hne hall with hsign
  · obtain ⟨c, v, rfl⟩ := List.exists_cons_of_ne_nil (l := v) (by rintro rfl; exact hne rfl)
    refine ⟨List.cons_ne_nil c v, fun d hd => ?_⟩
    rcases List.mem_cons.mp hd with rfl | hd
    · rw [Option.some.inj hsign]
      decide
    · exact hdigit d (hall d hd)
  · exact ⟨hne, fun c hc => hdigit c (hall c hc)⟩

theorem isHex_spec (h : isHex v = true) : v ≠ [] ∧ NoSpace v := by
  rw [isHex, Bool.and_eq_true, Bool.or_eq_true, decide_eq_true_iff, decide_eq_true_iff,
    Bool.and_eq_true, List.all_eq_true, decide_eq_true_iff] at h
  obtain ⟨hstart, hne, hall⟩ := h
  refine ⟨?_, fun c hc => ?_⟩
  · rintro rfl
    exact hne rfl
  · rw [← List.take_append_drop 2 v, List.mem_append] at hc
    rcases hc with hc | hc
    · have hvisible : ∀ l : Text, l = ['0', 'x'] ∨ l = ['0', 'X'] → NoSpace l := by
        rintro l (rfl | rfl)
        · decide
        · decide
      exact hvisible _ hstart c hc
    · exact isHexDigit_visible (hall c hc)

/-- A bare value is a word. -/
theorem isBare_spec (h : isBare v = true) : v ≠ [] ∧ NoSpace v := by
  rw [isBare, Bool.or_eq_true, Bool.or_eq_true, Bool.or_eq_true, decide_eq_true_iff,
    decide_eq_true_iff, decide_eq_true_iff] at h
  rcases h with ((rfl | rfl) | rfl) | h
  · decide
  · decide
  · decide
  · rw [isNumeric, Bool.or_eq_true] at h
    exact h.elim isDecimal_spec isHex_spec

theorem OneLine.of_noSpace (h : NoSpace v) : OneLine v := fun c hc =>
  Bool.eq_false_iff.mpr fun hbreak => Bool.eq_false_iff.mp (h c hc) (isSpace_of_isLineBreak hbreak)

/-! ## What a line sets -/

theorem kconfigLine_assign (ho : isOption o = true) (hp : strip p = p) (hne : p ≠ [])
    (hlast : ∀ c ∈ p.getLast?, isSpace c = false) :
    kconfigLine (o ++ '=' :: p) = some (o, p) := by
  obtain ⟨hpre, hchars⟩ := isOption_spec ho
  obtain ⟨rest, hrest⟩ := hpre
  have hstrip : strip (o ++ '=' :: p) = o ++ '=' :: p := by
    refine strip_eq_self_of (fun c hc => ?_) fun c hc => ?_
    · rw [← hrest] at hc
      rw [← Option.some.inj hc]
      decide
    · refine hlast c ?_
      rwa [List.getLast?_append_of_ne_nil _ (List.cons_ne_nil _ _),
        List.getLast?_cons_of_ne_nil hne] at hc
  have hstart : "CONFIG_".toList.isPrefixOf (o ++ '=' :: p) = true :=
    List.isPrefixOf_iff_prefix.mpr ⟨rest ++ '=' :: p, by rw [← hrest, List.append_assoc]; rfl⟩
  have hname : ∀ c ∈ o, (decide (c ≠ '=')) = true := fun c hc => decide_eq_true (hchars c hc).2
  have hsplit : (o ++ '=' :: p).takeWhile (fun c => decide (c ≠ '=')) = o := by
    rw [List.takeWhile_append_of_pos hname]
    exact List.append_nil o
  have hafter : (o ++ '=' :: p).dropWhile (fun c => decide (c ≠ '=')) = '=' :: p := by
    rw [List.dropWhile_append_of_pos hname]
    rfl
  have hoption : strip o = o := by
    refine strip_eq_self_of (fun c hc => ?_) fun c hc => ?_
    · exact (hchars c (List.mem_of_mem_head? hc)).1
    · exact (hchars c (List.mem_of_getLast? hc)).1
  have hmem : '=' ∈ o ++ '=' :: p := List.mem_append_right o List.mem_cons_self
  rw [kconfigLine, hstrip, if_pos]
  · rw [hsplit, hafter, hoption]
    exact congrArg (fun q => some (o, q)) hp
  · rw [hstart, decide_eq_true hmem]
    rfl

theorem kconfigLine_notSet (ho : isOption o = true) :
    kconfigLine ('#' :: ' ' :: (o ++ isNotSet)) = some (o, ['n']) := by
  obtain ⟨hpre, hchars⟩ := isOption_spec ho
  obtain ⟨rest, hrest⟩ := hpre
  have hne : o ≠ [] := by
    rw [← hrest]
    exact List.cons_ne_nil _ _
  have hline : '#' :: ' ' :: (o ++ isNotSet) =
      unwords [['#'], o, ['i', 's'], ['n', 'o', 't'], ['s', 'e', 't']] := rfl
  have hwords : words ('#' :: ' ' :: (o ++ isNotSet)) =
      [['#'], o, ['i', 's'], ['n', 'o', 't'], ['s', 'e', 't']] := by
    have hhash : ['#'] ≠ [] ∧ NoSpace ['#'] := by decide
    have his : ['i', 's'] ≠ [] ∧ NoSpace ['i', 's'] := by decide
    have hnot : ['n', 'o', 't'] ≠ [] ∧ NoSpace ['n', 'o', 't'] := by decide
    have hset : ['s', 'e', 't'] ≠ [] ∧ NoSpace ['s', 'e', 't'] := by decide
    rw [hline]
    refine words_unwords (List.forall_mem_cons.mpr ⟨hhash, List.forall_mem_cons.mpr ⟨?_,
      List.forall_mem_cons.mpr ⟨his, List.forall_mem_cons.mpr ⟨hnot,
        List.forall_mem_singleton.mpr hset⟩⟩⟩⟩)
    exact ⟨hne, fun c hc => (hchars c hc).1⟩
  have hstrip : strip ('#' :: ' ' :: (o ++ isNotSet)) = '#' :: ' ' :: (o ++ isNotSet) := by
    refine strip_eq_self_of (fun c hc => ?_) fun c hc => ?_
    · rw [← Option.some.inj hc]
      decide
    · have hlast : ('#' :: ' ' :: (o ++ isNotSet)).getLast? = isNotSet.getLast? := by
        rw [← List.cons_append, ← List.cons_append]
        exact List.getLast?_append_of_ne_nil _ (by decide)
      rw [hlast] at hc
      rw [← Option.some.inj hc]
      decide
  have hstart : "# CONFIG_".toList.isPrefixOf ('#' :: ' ' :: (o ++ isNotSet)) = true :=
    List.isPrefixOf_iff_prefix.mpr ⟨rest ++ isNotSet, by rw [← hrest, List.append_assoc]; rfl⟩
  have hsuffix : "is not set".toList.isSuffixOf ('#' :: ' ' :: (o ++ isNotSet)) = true :=
    List.isSuffixOf_iff_suffix.mpr ⟨'#' :: ' ' :: (o ++ [' ']), by
      simp only [List.cons_append, List.append_assoc]; rfl⟩
  rw [kconfigLine, hstrip, if_neg, hstart, hsuffix, hwords]
  · rfl
  · rw [Bool.and_eq_true]
    exact fun h => absurd h.1 Bool.false_ne_true

/-- **A line sets its option** to the value as it is written. -/
theorem kconfigLine_format (ho : isOption o = true) :
    kconfigLine (formatKconfigLine o v) = some (o, fileForm v) := by
  have hbare : isBare v = true → kconfigLine (o ++ '=' :: v) = some (o, fileForm v) := by
    intro h
    obtain ⟨hne, hspace⟩ := isBare_spec h
    rw [fileForm, if_pos h]
    refine kconfigLine_assign ho ?_ hne fun c hc => hspace c (List.mem_of_getLast? hc)
    refine strip_eq_self_of (fun c hc => ?_) fun c hc => ?_
    · exact hspace c (List.mem_of_mem_head? hc)
    · exact hspace c (List.mem_of_getLast? hc)
  rw [formatKconfigLine]
  split_ifs with hon hoff hnum
  · refine hbare ?_
    rcases hon with rfl | rfl
    · decide
    · decide
  · rw [kconfigLine_notSet ho, hoff]
    rfl
  · refine hbare ?_
    rw [isBare, hnum, Bool.or_true]
  · have hnot : isBare v = false := by
      rw [not_or] at hon
      rw [isBare, decide_eq_false hon.1, decide_eq_false hon.2, decide_eq_false hoff,
        Bool.eq_false_iff.mpr hnum]
      rfl
    have hlast : ('"' :: (v ++ ['"'])).getLast? = some '"' := by
      rw [← List.cons_append, List.getLast?_concat]
    rw [fileForm, hnot]
    refine kconfigLine_assign ho (strip_eq_self_of (fun c hc => ?_) fun c hc => ?_)
      (List.cons_ne_nil _ _) fun c hc => ?_
    · rw [← Option.some.inj hc]
      decide
    · rw [hlast] at hc
      rw [← Option.some.inj hc]
      decide
    · rw [hlast] at hc
      rw [← Option.some.inj hc]
      decide

/-! ## The fragment -/

section Fragment

variable {w : World} {manual : Dict Text Text} {text : Text}

theorem keys_validateFrom {i : ℕ} {seen : Dict Text Text} {entries : List (Option ManualEntry)}
    (h : validateFrom i seen entries = .ok manual) (hseen : ∀ o ∈ seen.keys, isOption o = true) :
    ∀ o ∈ manual.keys, isOption o = true := by
  induction entries generalizing i seen with
  | nil =>
    cases h
    exact hseen
  | cons e entries ih =>
    cases e with
    | none => cases h
    | some e =>
      rw [validateFrom] at h
      split_ifs at h with _ hoption
      refine ih h fun o ho => ?_
      rcases Dict.mem_keys_set.mp ho with rfl | ho
      · rwa [Bool.not_eq_false] at hoption
      · exact hseen o ho

theorem get_merged (w : World) (manual : Dict Text Text) (o : Text) :
    (merged w manual).get o = highest w manual o := by
  rw [merged, Dict.get_update, Dict.get_update, Dict.get_update, Dict.get_update, highest]

/-- Every option of the fragment is one. -/
theorem isOption_of_get_merged (hw : WellFormed w) (hmanual : ∀ o ∈ manual.keys, isOption o = true)
    (h : (merged w manual).get o = some v) : isOption o = true := by
  have hkey : ∀ {d : Dict Text Text}, (∀ o ∈ d.keys, isOption o = true) → d.get o = some v →
      isOption o = true := by
    intro d hd hget
    refine hd o (not_not.mp fun hnot => ?_)
    exact Option.some_ne_none v (hget.symm.trans (Dict.get_eq_none.mpr hnot))
  have hempty : ∀ o ∈ (Dict.empty : Dict Text Text).keys, isOption o = true :=
    fun o ho => absurd ho List.not_mem_nil
  have hdevices : ∀ o ∈ (devices w).keys, isOption o = true := by
    rw [devices]
    split_ifs
    · exact hw.options _ (by simp only [List.mem_cons, true_or, or_true])
    · exact hempty
  have hfloor : ∀ o ∈ (floor w).keys, isOption o = true := by
    rw [floor]
    split_ifs
    · exact hw.options _ List.mem_cons_self
    · exact hempty
  rw [get_merged, highest, Option.or_eq_some_iff, Option.or_eq_some_iff, Option.or_eq_some_iff,
    Option.or_eq_some_iff] at h
  rcases h with h | ⟨-, h | ⟨-, h | ⟨-, h | ⟨-, h⟩⟩⟩⟩
  · exact hkey hmanual h
  · exact hkey (hw.options _ (by simp only [List.mem_cons, true_or, or_true])) h
  · exact hkey (hw.options _ (by simp only [List.mem_cons, true_or, or_true])) h
  · exact hkey hdevices h
  · exact hkey hfloor h

theorem sourceLine_spec (w : World) (manual : Dict Text Text) (o : Text) :
    kconfigLine (sourceStart ++ sourceOf w manual o) = none ∧
      OneLine (sourceStart ++ sourceOf w manual o) := by
  rw [sourceOf]
  split_ifs
  · decide
  · decide
  · decide
  · decide
  · decide

/-- A comment that is no option. -/
theorem kconfigLine_comment (h : ¬configStart <+: p) : kconfigLine ('#' :: ' ' :: p) = none := by
  have hpre : strip ('#' :: ' ' :: p) <+: '#' :: ' ' :: p := by
    rw [strip_eq, List.dropWhile_cons_of_neg (by decide)]
    exact List.rdropWhile_prefix _ _
  rw [kconfigLine, if_neg, if_neg]
  · rw [Bool.and_eq_true, List.isPrefixOf_iff_prefix]
    rintro ⟨hstart, -⟩
    obtain ⟨r, hr⟩ := hstart.trans hpre
    exact h ⟨r, (List.cons.inj (List.cons.inj hr).2).2⟩
  · rw [Bool.and_eq_true, List.isPrefixOf_iff_prefix]
    rintro ⟨hstart, -⟩
    obtain ⟨r, hr⟩ := hstart.trans hpre
    exact absurd (List.cons.inj hr).1 (by decide)

theorem header_spec (hw : WellFormed w) : ∀ l ∈ header w, kconfigLine l = none ∧ OneLine l := by
  intro l hl
  rw [header, List.mem_append, List.mem_append] at hl
  rcases hl with (hl | hl) | hl
  · rcases List.mem_cons.mp hl with rfl | hl
    · decide
    · rw [List.mem_singleton.mp hl]
      decide
  · obtain ⟨p, hp, rfl⟩ := List.mem_map.mp hl
    obtain ⟨hp, -⟩ := Option.filter_eq_some_iff.mp (Option.mem_toList.mp hp)
    obtain ⟨hline, hstart⟩ := hw.provenance p hp
    exact ⟨kconfigLine_comment hstart, OneLine.append (s := ['#', ' ']) (by decide) hline⟩
  · rw [List.mem_singleton.mp hl]
    decide

theorem oneLine_format (ho : isOption o = true) (hv : OneLine v) :
    OneLine (formatKconfigLine o v) := by
  have hoption : OneLine o := OneLine.of_noSpace fun c hc => ((isOption_spec ho).2 c hc).1
  have hassign : ∀ p, OneLine p → OneLine (o ++ '=' :: p) := fun p hp =>
    hoption.append (OneLine.append (s := ['=']) (by decide) hp)
  rw [formatKconfigLine]
  split_ifs
  · exact hassign v hv
  · exact OneLine.append (s := ['#', ' ']) (by decide) (hoption.append (by decide))
  · exact hassign v hv
  · exact hassign _ (OneLine.append (s := ['"']) (by decide) (hv.append (by decide)))

/-- **The parse of the fragment** has the merged options as they are written. -/
theorem get_parse_fragment (hw : WellFormed w) (hmanual : ∀ o ∈ manual.keys, isOption o = true)
    (hline : ∀ o v, highest w manual o = some v → OneLine v) (o : Text) :
    (parseKconfigText (unlines (fragmentLines w manual))).get o =
      (highest w manual o).map fileForm := by
  have hitem : ∀ p ∈ (merged w manual).items, isOption p.1 = true ∧ OneLine p.2 := by
    intro p hp
    have hget := Dict.mem_items.mp hp
    exact ⟨isOption_of_get_merged hw hmanual hget, hline p.1 p.2 (get_merged w manual p.1 ▸ hget)⟩
  have hlines : splitlines (unlines (fragmentLines w manual)) = fragmentLines w manual := by
    refine splitlines_unlines fun l hl => ?_
    rcases List.mem_append.mp hl with hl | hl
    · exact (header_spec hw l hl).2
    · obtain ⟨p, hp, hl⟩ := List.mem_flatMap.mp hl
      rcases List.mem_cons.mp hl with rfl | hl
      · exact (sourceLine_spec w manual p.1).2
      · rw [List.mem_singleton.mp hl]
        exact oneLine_format (hitem p hp).1 (hitem p hp).2
  have hparse : (fragmentLines w manual).filterMap kconfigLine =
      (merged w manual).items.map fun p => (p.1, fileForm p.2) := by
    have hheader : (header w).filterMap kconfigLine = [] :=
      List.filterMap_eq_nil_iff.mpr fun l hl => (header_spec hw l hl).1
    rw [fragmentLines, List.filterMap_append, hheader, List.nil_append, List.filterMap_flatMap,
      ← List.flatMap_pure_eq_map]
    refine List.flatMap_congr fun p hp => ?_
    rw [List.filterMap_cons, (sourceLine_spec w manual p.1).1, List.filterMap_cons,
      kconfigLine_format (hitem p hp).1]
    rfl
  rw [parseKconfigText, hlines, hparse, ← get_merged]
  have hagree : ∀ p ∈ (merged w manual).items.map (fun p => (p.1, fileForm p.2)),
      ((merged w manual).get p.1).map fileForm = some p.2 := by
    intro p hp
    obtain ⟨q, hq, rfl⟩ := List.mem_map.mp hp
    rw [Dict.mem_items.mp hq, Option.map_some]
  rw [Dict.get_ofItems (f := fun o => ((merged w manual).get o).map fileForm) hagree]
  split_ifs with hmem
  · rfl
  · rw [Assoc.keys, List.map_map] at hmem
    have hnone : (merged w manual).get o = none := Dict.get_eq_none.mpr hmem
    rw [hnone, Option.map_none]

/-- What a parse has is within one line. -/
theorem oneLine_of_get_parse (h : (parseKconfigText text).get o = some v) : OneLine v := by
  obtain ⟨l, hl, hline⟩ := List.mem_filterMap.mp (Dict.mem_of_get_ofItems h)
  have hone := oneLine_of_mem_splitlines hl
  rw [kconfigLine] at hline
  split_ifs at hline
  · obtain ⟨-, rfl⟩ := Prod.mk.inj (Option.some.inj hline)
    refine hone.of_subset fun c hc => strip_subset ?_
    exact (List.dropWhile_suffix _).subset ((List.drop_suffix 1 _).subset (strip_subset hc))
  · obtain ⟨k, -, hk⟩ := Option.map_eq_some_iff.mp hline
    obtain ⟨-, rfl⟩ := Prod.mk.inj hk
    decide

end Fragment

/-! ## Escapes -/

theorem length_le_escape (v : Text) : v.length ≤ (escape v).length := by
  induction v with
  | nil => exact Nat.le_refl _
  | cons c v ih =>
    rw [escape, List.flatMap_cons, List.length_append, List.length_cons, ← escape]
    split_ifs
    · rw [List.length_cons, List.length_singleton]
      omega
    · rw [List.length_singleton]
      omega

/-- A text that is its own escape has nothing to escape. -/
theorem escape_eq_self : escape v = v ↔ ∀ c ∈ v, c ≠ '"' ∧ c ≠ '\\' := by
  induction v with
  | nil => exact iff_of_true rfl fun c hc => absurd hc List.not_mem_nil
  | cons c v ih =>
    have hcons : escape (c :: v) =
        (if c = '"' || c = '\\' then ['\\', c] else [c]) ++ escape v := List.flatMap_cons
    rw [hcons, List.forall_mem_cons]
    split_ifs with hc
    · refine iff_of_false (fun h => ?_) fun h => ?_
      · have hlength := congrArg List.length h
        have hle := length_le_escape v
        simp only [List.length_append, List.length_cons, List.length_nil] at hlength
        omega
      · rw [Bool.or_eq_true, decide_eq_true_iff, decide_eq_true_iff] at hc
        exact hc.elim h.1.1 h.1.2
    · rw [Bool.or_eq_true, decide_eq_true_iff, decide_eq_true_iff, not_or] at hc
      rw [List.singleton_append, List.cons_inj_right, ih, and_iff_right hc]

theorem mem_escape_of_mem {c : Char} (h : c ∈ v) : c ∈ escape v := by
  refine List.mem_flatMap.mpr ⟨c, h, ?_⟩
  split_ifs
  · exact List.mem_cons_of_mem _ (List.mem_singleton_self c)
  · exact List.mem_singleton_self c

/-- A value is written in the form of a `.config` when it has nothing to escape. -/
theorem fileForm_eq_kernelForm : fileForm v = kernelForm v ↔
    isBare v = true ∨ ∀ c ∈ v, c ≠ '"' ∧ c ≠ '\\' := by
  rw [fileForm, kernelForm]
  split_ifs with hbare
  · exact iff_of_true rfl (.inl hbare)
  · rw [List.cons_inj_right, List.append_left_inj, eq_comm, escape_eq_self, or_iff_right hbare]

/-! ## The drift -/

theorem diffRequestedKconfig_eq_nil {requested resolved : Kconfig} :
    diffRequestedKconfig requested resolved = [] ↔
      ∀ o v, requested.get o = some v → (resolved.get o).getD ['n'] = v := by
  rw [diffRequestedKconfig, List.filterMap_eq_nil_iff]
  constructor
  · intro h o v hget
    have hnone := h (o, v) (Dict.mem_items.mpr hget)
    by_contra hne
    rw [if_neg hne] at hnone
    exact Option.some_ne_none _ hnone
  · exact fun h p hp => if_pos (h p.1 p.2 (Dict.mem_items.mp hp))

/-- **The fragment is faithful** exactly when no value needs an escape. -/
theorem faithful_iff {w : World} {manual : Dict Text Text} {text : Text} (hw : WellFormed w)
    (hmanual : validateManualKconfig w.manualEntries = .ok manual)
    (htext : writeKconfigFragment w = .ok (some text)) :
    Faithful w manual text ↔ ∀ o v, highest w manual o = some v → Plain v := by
  have hkeys := keys_validateFrom hmanual fun o ho => absurd ho List.not_mem_nil
  obtain rfl : unlines (fragmentLines w manual) = text := by
    rw [writeKconfigFragment, hmanual] at htext
    split_ifs at htext with _ hmerge
    · cases htext
    · have hwritten : (if (merged w manual).items = [] then .ok none
          else .ok (some (unlines (fragmentLines w manual)))) =
            (.ok (some text) : Except Refusal (Option Text)) := htext
      split_ifs at hwritten
      · cases hwritten
      · exact Option.some.inj (Except.ok.inj hwritten)
  constructor
  · intro h
    have hline : ∀ o v, highest w manual o = some v → OneLine v := by
      intro o v hv c hc
      by_cases hbare : isBare v = true
      · exact OneLine.of_noSpace (isBare_spec hbare).2 c hc
      · have hget := h.parsed o
        rw [hv, Option.map_some, kernelForm, if_neg hbare] at hget
        refine oneLine_of_get_parse hget c (List.mem_cons_of_mem _ ?_)
        exact List.mem_append_left _ (mem_escape_of_mem hc)
    intro o v hv
    have hget := h.parsed o
    rw [get_parse_fragment hw hkeys hline, hv, Option.map_some, Option.map_some,
      Option.some.injEq, fileForm_eq_kernelForm] at hget
    refine hget.imp_right fun hplain c hc => ?_
    exact ⟨(hplain c hc).1, (hplain c hc).2, hline o v hv c hc⟩
  · intro h
    have hline : ∀ o v, highest w manual o = some v → OneLine v := by
      intro o v hv
      rcases h o v hv with hbare | hplain
      · exact OneLine.of_noSpace (isBare_spec hbare).2
      · exact fun c hc => (hplain c hc).2.2
    have hparsed : ∀ o, (parseKconfigText (unlines (fragmentLines w manual))).get o =
        (highest w manual o).map kernelForm := by
      intro o
      rw [get_parse_fragment hw hkeys hline]
      cases hv : highest w manual o with
      | none => rfl
      | some v =>
        refine congrArg some (fileForm_eq_kernelForm.mpr ?_)
        exact (h o v hv).imp_right fun hplain c hc => ⟨(hplain c hc).1, (hplain c hc).2.1⟩
    refine ⟨hparsed, fun resolved => ?_⟩
    rw [diffRequestedKconfig_eq_nil]
    constructor
    · intro hdiff o v hv
      exact hdiff o (kernelForm v) (by rw [hparsed, hv, Option.map_some])
    · intro hdiff o v' hget
      rw [hparsed] at hget
      obtain ⟨v, hv, rfl⟩ := Option.map_eq_some_iff.mp hget
      exact hdiff o v hv

/-! ## One option -/

/-- `CONFIG_A`. -/
def optionA : Text := configStart ++ ['A']

/-- The hardware asks for `CONFIG_A=m`, and `kernel.toml` for a value of its own. -/
def oneOption (value : Text) : World where
  kconfigMerge := true
  hardening := false
  deviceKconfig := true
  hardeningKconfig := .empty
  deviceOptions := .empty
  hwKconfig := .ofItems [(optionA, ['m'])]
  extraKconfig := .empty
  manualEntries := [some ⟨some optionA, some value⟩]
  provenance := none

theorem wellFormed_oneOption (value : Text) : WellFormed (oneOption value) := by
  refine ⟨?_, fun p hp => absurd hp (Option.not_mem_none p)⟩
  have hempty : ∀ o ∈ (Dict.empty : Dict Text Text).keys, isOption o = true :=
    fun o ho => absurd ho List.not_mem_nil
  refine List.forall_mem_cons.mpr ⟨hempty, List.forall_mem_cons.mpr ⟨hempty,
    List.forall_mem_cons.mpr ⟨fun o ho => ?_, List.forall_mem_singleton.mpr hempty⟩⟩⟩
  obtain rfl : o = optionA := List.mem_singleton.mp ho
  decide

theorem highest_oneOption {value : Text} (h : highest (oneOption value)
    (.ofItems [(optionA, value)]) o = some v) : v = value := by
  by_cases ho : o = optionA
  · subst ho
    exact (Option.some.inj h).symm
  · have hnone : ∀ u : Text, (Dict.ofItems [(optionA, u)]).get o = none := fun u =>
      Dict.get_eq_none.mpr fun hmem => ho (List.mem_singleton.mp hmem)
    rw [highest, hnone, oneOption, hnone] at h
    exact absurd h (Option.some_ne_none v).symm

/-- A plain text comes back. -/
theorem faithful_plain : Faithful (oneOption ['b', ' ', 'c'])
    (.ofItems [(optionA, ['b', ' ', 'c'])]) (unlines (fragmentLines (oneOption ['b', ' ', 'c'])
      (.ofItems [(optionA, ['b', ' ', 'c'])]))) := by
  refine (faithful_iff (wellFormed_oneOption _) rfl rfl).mpr fun o v hv => .inr ?_
  rw [highest_oneOption hv]
  exact List.forall_mem_cons.mpr ⟨by decide, List.forall_mem_cons.mpr ⟨by decide,
    List.forall_mem_singleton.mpr (by decide)⟩⟩

/-- A quote in a value is not escaped. -/
theorem not_faithful : ¬∀ (w : World) (manual : Dict Text Text) (text : Text), WellFormed w →
    validateManualKconfig w.manualEntries = .ok manual →
    writeKconfigFragment w = .ok (some text) → Faithful w manual text := by
  intro h
  have hfaithful := h (oneOption ['b', '"']) (.ofItems [(optionA, ['b', '"'])]) _
    (wellFormed_oneOption _) rfl rfl
  have hget := hfaithful.parsed optionA
  exact absurd hget (by decide)

end Sysforge.Kernel.KconfigFragment
