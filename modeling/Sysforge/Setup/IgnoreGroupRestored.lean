import Sysforge.Setup.OptionsSection

/-!
# What the removal restores

The patch of a `pacman.conf` is one active line of `[options]` that the removal takes back if and
only if `Restorable` holds. The ink of the lines shows that nothing else is lost.
-/

namespace Sysforge.Setup

open Text

/-! ## Markers -/

section Markers

variable {l s t x : Text} {c : Char} {b : Bool} {ls xs ys : List Text}

/-- A line without the marker at its start. -/
def unmark (l : Text) : Text := if l.head? = some marker then l.tail else l

/-- What the removal of the markers makes of some lines. -/
def cleanLines : List Text → List Text
  | [] => []
  | [l] => [unmark l]
  | l :: m :: ls => if l = [marker] then cleanLines (m :: ls) else unmark l :: cleanLines (m :: ls)

theorem unmark_of_ne (h : l.head? ≠ some marker) : unmark l = l := if_neg h

theorem removeMarkers_cons (h : ¬(b = true ∧ c = marker)) (s : Text) :
    removeMarkers b (c :: s) = c :: removeMarkers (c = '\n') s := by
  cases s with
  | nil => exact if_neg h
  | cons d s => rw [removeMarkers, if_neg h]

theorem removeMarkers_marker (hs : s.head? ≠ some '\n') :
    removeMarkers true (marker :: s) = removeMarkers false s := by
  cases s with
  | nil => rfl
  | cons d s => rw [removeMarkers, if_pos ⟨rfl, rfl⟩, if_neg fun h => hs (congrArg some h)]

/-- The markers within a line stay. -/
theorem removeMarkers_line (hb : ¬(b = true ∧ x.head? = some marker)) (hx : '\n' ∉ x) (s : Text) :
    removeMarkers b (x ++ '\n' :: s) = x ++ '\n' :: removeMarkers true s := by
  induction x generalizing b with
  | nil => exact removeMarkers_cons (fun h => absurd h.2 (by decide)) s
  | cons c x ih =>
    have hc : c ≠ '\n' := fun h => hx (h ▸ List.mem_cons_self)
    rw [List.cons_append, removeMarkers_cons (fun h => hb ⟨h.1, congrArg some h.2⟩),
      decide_eq_false hc,
      ih (fun h => absurd h.1 (by decide)) fun h => hx (List.mem_cons_of_mem c h)]
    rfl

theorem removeMarkers_last (hb : ¬(b = true ∧ x.head? = some marker)) (hx : '\n' ∉ x) :
    removeMarkers b x = x := by
  induction x generalizing b with
  | nil => rfl
  | cons c x ih =>
    have hc : c ≠ '\n' := fun h => hx (h ▸ List.mem_cons_self)
    rw [removeMarkers_cons (fun h => hb ⟨h.1, congrArg some h.2⟩), decide_eq_false hc,
      ih (fun h => absurd h.1 (by decide)) fun h => hx (List.mem_cons_of_mem c h)]

theorem cleanLines_ne_nil (h : ls ≠ []) : cleanLines ls ≠ [] := by
  induction ls with
  | nil => exact absurd rfl h
  | cons l ls ih =>
    cases ls with
    | nil => exact List.cons_ne_nil _ _
    | cons m ms =>
      rw [cleanLines]
      split_ifs
      · exact ih (List.cons_ne_nil m ms)
      · exact List.cons_ne_nil _ _

theorem exists_of_head_marker (h : l.head? = some marker) (hl : '\n' ∉ l) :
    ∃ x, l = marker :: x ∧ unmark l = x ∧ '\n' ∉ x := by
  obtain ⟨x, rfl⟩ := List.head?_eq_some_iff.mp h
  exact ⟨x, rfl, if_pos h, fun hx => hl (List.mem_cons_of_mem marker hx)⟩

theorem removeMarkers_joinLines (h : ∀ l ∈ ls, '\n' ∉ l) :
    removeMarkers true (joinLines ls) = joinLines (cleanLines ls) := by
  induction ls with
  | nil => rfl
  | cons l ls ih =>
    have hl := h l List.mem_cons_self
    cases ls with
    | nil =>
      rw [cleanLines]
      change removeMarkers true l = unmark l
      by_cases hmark : l.head? = some marker
      · obtain ⟨x, rfl, hun, hx⟩ := exists_of_head_marker hmark hl
        have hhead : x.head? ≠ some '\n' := fun hx' => hx (List.mem_of_mem_head? hx')
        rw [hun, removeMarkers_marker hhead,
          removeMarkers_last (fun h => absurd h.1 (by decide)) hx]
      · rw [unmark_of_ne hmark, removeMarkers_last (fun h => hmark h.2) hl]
    | cons m ms =>
      have hrest := ih fun l hl => h l (List.mem_cons_of_mem _ hl)
      have hjoin : ∀ (x y : Text) (zs : List Text), joinLines (x :: y :: zs) =
          x ++ '\n' :: joinLines (y :: zs) := fun _ _ _ => rfl
      obtain ⟨n, ns, hclean⟩ :=
        List.exists_cons_of_ne_nil (cleanLines_ne_nil (List.cons_ne_nil m ms))
      rw [hjoin, cleanLines]
      by_cases hone : l = [marker]
      · rw [if_pos hone, hone, ← hrest]
        rfl
      · rw [if_neg hone, hclean, hjoin, ← hclean, ← hrest]
        by_cases hmark : l.head? = some marker
        · obtain ⟨x, rfl, hun, hx⟩ := exists_of_head_marker hmark hl
          have hne : x ≠ [] := fun hnil => hone (by rw [hnil])
          have hhead : (x ++ '\n' :: joinLines (m :: ms)).head? ≠ some '\n' := by
            obtain ⟨c, y, rfl⟩ := List.exists_cons_of_ne_nil hne
            exact fun heq => hx (Option.some.inj heq ▸ List.mem_cons_self)
          rw [hun, List.cons_append, removeMarkers_marker hhead,
            removeMarkers_line (fun h => absurd h.1 (by decide)) hx]
        · rw [unmark_of_ne hmark, removeMarkers_line (fun h => hmark h.2) hl]

theorem cleanLines_of_forall (h : ∀ l ∈ ls, l.head? ≠ some marker) : cleanLines ls = ls := by
  induction ls with
  | nil => rfl
  | cons l ls ih =>
    have hl := h l List.mem_cons_self
    cases ls with
    | nil => exact congrArg (fun l => [l]) (unmark_of_ne hl)
    | cons m ms =>
      rw [cleanLines, if_neg fun heq => hl (by rw [heq]; rfl), unmark_of_ne hl,
        ih fun l hl => h l (List.mem_cons_of_mem _ hl)]

/-- A line of a marker alone goes. -/
theorem cleanLines_marked (hx : ∀ l ∈ xs, l.head? ≠ some marker)
    (hy : ∀ l ∈ ys, l.head? ≠ some marker) (hne : ys ≠ []) :
    cleanLines (xs ++ [marker] :: ys) = xs ++ ys := by
  obtain ⟨y, ys, rfl⟩ := List.exists_cons_of_ne_nil hne
  induction xs with
  | nil => rw [List.nil_append, cleanLines, if_pos rfl, cleanLines_of_forall hy, List.nil_append]
  | cons x xs ih =>
    have hrest := ih fun l hl => hx l (List.mem_cons_of_mem x hl)
    have hxm := hx x List.mem_cons_self
    obtain ⟨m, ms, hms⟩ := List.exists_cons_of_ne_nil
      (List.append_ne_nil_of_right_ne_nil xs (List.cons_ne_nil [marker] (y :: ys)))
    rw [List.cons_append, hms, cleanLines, if_neg fun heq => hxm (by rw [heq]; rfl), ← hms, hrest,
      unmark_of_ne hxm, List.cons_append]

/-! ### Ink -/

theorem flatMap_cleanLines (ls : List Text) :
    (cleanLines ls).flatMap inked = ls.flatMap fun l => inked (unmark l) := by
  induction ls with
  | nil => rfl
  | cons l ls ih =>
    cases ls with
    | nil => rfl
    | cons m ms =>
      rw [cleanLines, List.flatMap_cons, ← ih]
      split_ifs with hl
      · rw [hl]
        rfl
      · exact List.flatMap_cons

theorem inked_unmark (l : Text) : (inked (unmark l)).length ≤ (inked l).length ∧
    (l.head? = some marker → (inked (unmark l)).length < (inked l).length) := by
  by_cases h : l.head? = some marker
  · obtain ⟨x, rfl⟩ := List.head?_eq_some_iff.mp h
    have hun : unmark (marker :: x) = x := if_pos h
    have hlt : (inked (unmark (marker :: x))).length < (inked (marker :: x)).length := by
      rw [hun, ← List.singleton_append, inked_append, List.length_append]
      exact Nat.lt_add_of_pos_left (by decide)
    exact ⟨Nat.le_of_lt hlt, fun _ => hlt⟩
  · rw [unmark_of_ne h]
    exact ⟨Nat.le_refl _, fun hm => absurd hm h⟩

theorem length_flatMap_le {f g : Text → Text} (h : ∀ l ∈ ls, (f l).length ≤ (g l).length) :
    (ls.flatMap f).length ≤ (ls.flatMap g).length := by
  induction ls with
  | nil => exact Nat.le_refl _
  | cons l ls ih =>
    rw [List.flatMap_cons, List.flatMap_cons, List.length_append, List.length_append]
    exact Nat.add_le_add (h l List.mem_cons_self) (ih fun m hm => h m (List.mem_cons_of_mem l hm))

/-- No ink is lost at the markers only where there are none. -/
theorem head_ne_marker_of_length
    (h : (ls.flatMap inked).length ≤ ((cleanLines ls).flatMap inked).length) :
    ∀ l ∈ ls, l.head? ≠ some marker := by
  rw [flatMap_cleanLines] at h
  induction ls with
  | nil => exact List.forall_mem_nil _
  | cons l ls ih =>
    have hrest : (ls.flatMap fun l => inked (unmark l)).length ≤ (ls.flatMap inked).length :=
      length_flatMap_le fun l _ => (inked_unmark l).1
    obtain ⟨hle, hlt⟩ := inked_unmark l
    rw [List.flatMap_cons, List.flatMap_cons, List.length_append, List.length_append] at h
    refine List.forall_mem_cons.mpr ⟨fun hm => ?_, ih ?_⟩
    · have hstrict := hlt hm
      omega
    · omega

end Markers

/-! ## Sections -/

section Sections

variable {l m s t current : Text} {c : Text} {xs ys : List Text}
  {before after : List (Text × Text)}

theorem sectionAfter_append (current : Text) (xs ys : List Text) :
    sectionAfter current (xs ++ ys) = sectionAfter (sectionAfter current xs) ys := by
  induction xs generalizing current with
  | nil => rfl
  | cons l xs ih => exact ih _

theorem inSections_append (current : Text) (xs ys : List Text) :
    inSections current (xs ++ ys) = inSections current xs ++
      inSections (sectionAfter current xs) ys := by
  induction xs generalizing current with
  | nil => rfl
  | cons l xs ih => exact congrArg _ (ih _)

theorem map_snd_inSections (current : Text) (xs : List Text) :
    (inSections current xs).map Prod.snd = xs := by
  induction xs generalizing current with
  | nil => rfl
  | cons l xs ih => exact congrArg _ (ih _)

theorem sectionAfter_singleton (h : isHeader l = false) : sectionAfter current [l] = current := by
  rw [sectionAfter, h]
  rfl

theorem inSections_cons (h : isHeader l = false) (xs : List Text) :
    inSections current (l :: xs) = (current, l) :: inSections current xs := by
  rw [inSections, h]
  rfl

/-- The lines of an annotated text, and the section of one of them. -/
theorem lines_of_annotated (h : annotated t = before ++ (c, l) :: after) :
    split '\n' t = before.map Prod.snd ++ l :: after.map Prod.snd ∧
      (isHeader l = false → c = sectionAfter [] (before.map Prod.snd)) := by
  have hlines := congrArg (List.map Prod.snd) h
  rw [annotated, map_snd_inSections, List.map_append, List.map_cons] at hlines
  refine ⟨hlines, fun hl => ?_⟩
  rw [annotated, hlines, inSections_append, inSections_cons hl] at h
  have hlen : (inSections [] (before.map Prod.snd)).length = before.length := by
    have hmap := congrArg List.length (map_snd_inSections [] (before.map Prod.snd))
    rwa [List.length_map, List.length_map] at hmap
  exact (congrArg Prod.fst (List.cons.inj (List.append_inj h hlen).2).1).symm

end Sections

/-! ## The lines of the results -/

section Lines

variable {conf l k r s t original old new : Text} {ls before after : List Text}

theorem inked_eq_flatMap (t : Text) : inked t = (split '\n' t).flatMap inked := by
  rw [← inked_joinLines, joinLines_split]

theorem newline_notMem_patchedLine (h : '\n' ∉ l) : '\n' ∉ patchedLine l := by
  intro hmem
  rcases List.mem_append.mp hmem with hmem | hmem
  · exact h ((List.rdropWhile_prefix isSpace l).subset hmem)
  · exact absurd hmem (by decide)

theorem length_editFirst (old new : Text) (ls : List Text) :
    (editFirst old new ls).length = ls.length := by
  induction ls with
  | nil => rfl
  | cons l ls ih =>
    rw [editFirst]
    split_ifs
    · rfl
    · exact congrArg Nat.succ ih

theorem newline_notMem_editFirst (hold : old ≠ []) (hnew : '\n' ∉ new) (h : ∀ l ∈ ls, '\n' ∉ l) :
    ∀ l ∈ editFirst old new ls, '\n' ∉ l := by
  induction ls with
  | nil => exact List.forall_mem_nil _
  | cons l ls ih =>
    have hl := h l List.mem_cons_self
    have hls := fun m hm => h m (List.mem_cons_of_mem l hm)
    rw [editFirst]
    split_ifs with hin
    · refine List.forall_mem_cons.mpr ⟨fun hmem => ?_, hls⟩
      obtain ⟨u, w, rfl, hrep⟩ := replaceFirst_of_isInfix hold new hin
      rw [hrep, List.mem_append, List.mem_append] at hmem
      rw [List.mem_append, List.mem_append, not_or, not_or] at hl
      exact hmem.elim hl.1 fun hmem => hmem.elim hnew hl.2.2
    · exact List.forall_mem_cons.mpr ⟨hl, ih hls⟩

theorem newline_notMem_dropLine (h : '\n' ∉ l) : '\n' ∉ dropLine l := by
  cases hv : valueOf l with
  | none => rwa [dropLine_of_inactive hv]
  | some v =>
    obtain ⟨k, r, hactive⟩ := isActive_of_valueOf hv
    obtain ⟨b, v', -, hne, -, hv'⟩ := valueOf_eq hactive
    obtain rfl : v' = v := Option.some.inj (hv'.symm.trans hv)
    rw [dropLine, hv]
    dsimp only
    split_ifs
    · decide
    · intro hmem
      rcases mem_replace hne hmem with hmem | hmem
      · rcases mem_of_mem_intercalate hmem with hc | ⟨w, hw, hc⟩
        · exact absurd hc (by decide)
        · exact absurd ((mem_words (List.mem_of_mem_filter hw)).2 _ hc).1 (by decide)
      · exact h hmem

theorem newline_notMem_cleanLines (h : ∀ l ∈ ls, '\n' ∉ l) : ∀ l ∈ cleanLines ls, '\n' ∉ l := by
  have hun : ∀ l : Text, '\n' ∉ l → '\n' ∉ unmark l := by
    intro l hl hmem
    rw [unmark] at hmem
    split_ifs at hmem
    · exact hl (List.mem_of_mem_tail hmem)
    · exact hl hmem
  induction ls with
  | nil => exact List.forall_mem_nil _
  | cons l ls ih =>
    have hl := hun l (h l List.mem_cons_self)
    have hrest := ih fun m hm => h m (List.mem_cons_of_mem l hm)
    cases ls with
    | nil => exact List.forall_mem_cons.mpr ⟨hl, List.forall_mem_nil _⟩
    | cons m ms =>
      rw [cleanLines]
      split_ifs
      · exact hrest
      · exact List.forall_mem_cons.mpr ⟨hl, hrest⟩

theorem lines_dropIgnoreGroup (t : Text) :
    split '\n' (dropIgnoreGroup t) = cleanLines ((split '\n' t).map dropLine) := by
  have hlines : ∀ l ∈ (split '\n' t).map dropLine, '\n' ∉ l := by
    intro l hl
    obtain ⟨m, hm, rfl⟩ := List.mem_map.mp hl
    exact newline_notMem_dropLine (notMem_of_mem_split hm)
  rw [dropIgnoreGroup, removeMarkers_joinLines hlines, split_joinLines]
  · exact cleanLines_ne_nil fun h => split_ne_nil '\n' t (List.map_eq_nil_iff.mp h)
  · exact newline_notMem_cleanLines hlines

theorem lines_patchConfText (hls : split '\n' conf = before ++ original :: after)
    (hbefore : ∀ l ∈ before, valueOf l = none) (hactive : IsActive original k r) :
    split '\n' (patchConfText conf) =
      editFirst original (patchedLine original) (before ++ original :: after) := by
  obtain ⟨b, v, -, -, -, hv⟩ := valueOf_eq hactive
  have hfind : (split '\n' conf).find? (fun l => (valueOf l).isSome) = some original := by
    rw [hls, List.find?_append, List.find?_eq_none.mpr fun l hl => by rw [hbefore l hl]; decide,
      List.find?_cons_of_pos (by rw [hv]; rfl)]
    rfl
  have hmem : original ∈ split '\n' conf := by
    rw [hls]
    exact List.mem_append_right before List.mem_cons_self
  have hnewline : '\n' ∉ original := notMem_of_mem_split hmem
  have hne : original ≠ [] := by
    rw [hactive.eq]
    exact List.append_ne_nil_of_right_ne_nil k (List.cons_ne_nil _ r)
  have hlines : ∀ l ∈ before ++ original :: after, '\n' ∉ l := fun l hl =>
    notMem_of_mem_split (hls ▸ hl)
  rw [patchConfText, hfind]
  dsimp only
  rw [← joinLines_split conf, hls, replaceFirst_joinLines hne hnewline, split_joinLines]
  · intro hnil
    have hlen := congrArg List.length hnil
    rw [length_editFirst, List.length_append, List.length_cons] at hlen
    cases hlen
  · exact newline_notMem_editFirst hne (newline_notMem_patchedLine hnewline) hlines

end Lines

/-! ## The condition, by the first active line -/

section Condition

variable {conf l k r original : Text} {before after : List Text}

/-- The lines of a text around the first active one, none of them with the group. -/
structure FirstActive (conf : Text) (before : List Text) (original : Text) (after : List Text)
    (k r : Text) : Prop where
  lines : split '\n' conf = before ++ original :: after
  inactive : ∀ l ∈ before, valueOf l = none
  active : IsActive original k r
  without : ∀ l ∈ split '\n' conf, sfBuild ∉ groupsOf l

theorem isInactive_iff : isInactive l = true ↔ valueOf l = none := Option.isNone_iff_eq_none

theorem IsActive.isInactive (h : IsActive l k r) : ¬isInactive l = true := fun hl =>
  valueOf_eq_none.mp (isInactive_iff.mp hl) k r h

theorem exists_first_active (hno : ∀ l ∈ split '\n' conf, sfBuild ∉ groupsOf l) :
    (∀ l ∈ split '\n' conf, valueOf l = none) ∨
      ∃ before original after k r, FirstActive conf before original after k r := by
  have hsplit := (List.takeWhile_append_dropWhile (p := isInactive) (l := split '\n' conf)).symm
  cases hdrop : (split '\n' conf).dropWhile isInactive with
  | nil => exact .inl fun l hl => isInactive_iff.mp (List.dropWhile_eq_nil_iff.mp hdrop l hl)
  | cons original after =>
    have hnot := List.head?_dropWhile_not isInactive (split '\n' conf)
    rw [hdrop] at hnot hsplit
    obtain ⟨v, hv⟩ := Option.isSome_iff_exists.mp (Option.isNone_eq_false_iff.mp hnot)
    obtain ⟨k, r, hactive⟩ := isActive_of_valueOf hv
    exact .inr ⟨_, original, after, k, r, hsplit,
      fun l hl => isInactive_iff.mp (List.mem_takeWhile_imp hl), hactive, hno⟩

theorem FirstActive.restorable_iff (h : FirstActive conf before original after k r) :
    Restorable conf ↔ (∀ l ∈ split '\n' conf, l.head? ≠ some marker) ∧
      sectionAfter [] before = optionsHeader ∧ (∀ l ∈ before, ¬original <:+: l) ∧
      groupsOf original ≠ [] ∧ ∀ l ∈ after, ∀ v ∈ valueOf l, unwords (words v) = v := by
  have hall : ∀ l ∈ before, isInactive l = true := fun l hl => isInactive_iff.mpr (h.inactive l hl)
  have hdrop : (split '\n' conf).dropWhile isInactive = original :: after := by
    rw [h.lines, List.dropWhile_append_of_pos hall, List.dropWhile_cons_of_neg h.active.isInactive]
  have htake : (split '\n' conf).takeWhile isInactive = before := by
    rw [h.lines, List.takeWhile_append_of_pos hall, List.takeWhile_cons_of_neg h.active.isInactive,
      List.append_nil]
  rw [Restorable, hdrop, htake]
  rfl

theorem restorable_inactive (hnone : ∀ l ∈ split '\n' conf, valueOf l = none) :
    Restorable conf ↔ (∀ l ∈ split '\n' conf, l.head? ≠ some marker) ∧
      (∀ l ∈ (split '\n' (throughOptions (splitKeep conf)).flatten).getLast?, ∀ c ∈ l,
        isBlank c = true) ∧
      sectionAfter [] (split '\n' (throughOptions (splitKeep conf)).flatten) = optionsHeader := by
  have hdrop : (split '\n' conf).dropWhile isInactive = [] :=
    List.dropWhile_eq_nil_iff.mpr fun l hl => isInactive_iff.mpr (hnone l hl)
  rw [Restorable, hdrop]
  rfl

end Condition

/-! ## With an active line -/

section WithActive

variable {conf l k r original : Text} {before after : List Text}

theorem inked_dropLine_patchedLine (h : IsActive l k r) (hno : sfBuild ∉ groupsOf l) :
    (inked (dropLine (patchedLine l))).length ≤ (inked l).length := by
  rcases dropLine_patchedLine h hno with ⟨-, hdrop⟩ | ⟨-, b, -, hink⟩
  · rw [hdrop]
    exact List.length_pos_of_mem h.mem_inked
  · rw [hink]

theorem FirstActive.mem (h : FirstActive conf before original after k r) :
    original ∈ split '\n' conf := by
  rw [h.lines]
  exact List.mem_append_right before List.mem_cons_self

theorem FirstActive.without_before (h : FirstActive conf before original after k r)
    (hl : l ∈ before) : sfBuild ∉ groupsOf l :=
  h.without l (h.lines ▸ List.mem_append_left _ hl)

theorem FirstActive.without_after (h : FirstActive conf before original after k r)
    (hl : l ∈ after) : sfBuild ∉ groupsOf l :=
  h.without l (h.lines ▸ List.mem_append_right before (List.mem_cons_of_mem original hl))

theorem FirstActive.without_original (h : FirstActive conf before original after k r) :
    sfBuild ∉ groupsOf original := h.without original h.mem

theorem FirstActive.ne_nil (h : FirstActive conf before original after k r) : original ≠ [] := by
  rw [h.active.eq]
  exact List.append_ne_nil_of_right_ne_nil k (List.cons_ne_nil _ r)

theorem sfBuild_mem_patchedLine (h : IsActive l k r) : sfBuild ∈ groupsOf (patchedLine l) := by
  rw [groupsOf_patchedLine h]
  exact List.mem_append_right _ (List.mem_singleton_self sfBuild)

/-- The lines of the patched text, where the text of the active line is no part of a line before. -/
theorem FirstActive.lines_patched (h : FirstActive conf before original after k r)
    (hpart : ∀ l ∈ before, ¬original <:+: l) :
    split '\n' (patchConfText conf) = before ++ patchedLine original :: after := by
  rw [lines_patchConfText h.lines h.inactive h.active, editFirst_self h.ne_nil hpart]

/-- What is left of the lines before the markers go. -/
theorem FirstActive.map_dropLine (h : FirstActive conf before original after k r) :
    (before ++ patchedLine original :: after).map dropLine =
      before ++ dropLine (patchedLine original) :: after.map dropLine := by
  have hbefore : before.map dropLine = before :=
    (List.map_congr_left fun l hl => dropLine_of_inactive (h.inactive l hl)).trans (List.map_id _)
  rw [List.map_append, List.map_cons, hbefore]

theorem annotated_eq (hsec : sectionAfter [] before = optionsHeader) {t l : Text} {rest : List Text}
    (hl : isHeader l = false) (ht : split '\n' t = before ++ l :: rest) :
    annotated t = inSections [] before ++ (optionsHeader, l) :: inSections optionsHeader rest := by
  rw [annotated, ht, inSections_append, hsec, inSections_cons hl]

/-- The condition is enough. -/
theorem FirstActive.reversible (h : FirstActive conf before original after k r)
    (hr : Restorable conf) : Reversible conf := by
  obtain ⟨hmarker, hsec, hpart, hgroups, hafter⟩ := h.restorable_iff.mp hr
  have hpatched := h.lines_patched hpart
  obtain ⟨hnil, -⟩ | ⟨-, b, hback, hink⟩ := dropLine_patchedLine h.active h.without_original
  · exact absurd hnil hgroups
  · have hsame : after.map dropLine = after := by
      refine (List.map_congr_left fun l hl => ?_).trans (List.map_id _)
      cases hv : valueOf l with
      | none => exact dropLine_of_inactive hv
      | some v => exact (words_eq_of_dropLine hv (h.without_after hl)).mpr (hafter l hl v hv)
    have hlines : split '\n' (dropIgnoreGroup (patchConfText conf)) =
        before ++ dropLine (patchedLine original) :: after := by
      rw [lines_dropIgnoreGroup, hpatched, h.map_dropLine, hsame, cleanLines_of_forall]
      intro l hl
      rcases List.mem_append.mp hl with hl | hl
      · exact hmarker l (h.lines ▸ List.mem_append_left _ hl)
      · rcases List.mem_cons.mp hl with rfl | hl
        · exact hback.head_ne_marker
        · exact hmarker l (h.lines ▸ List.mem_append_right _ (List.mem_cons_of_mem _ hl))
    refine ⟨inSections [] before, inSections optionsHeader after, patchedLine original,
      sfBuild_mem_patchedLine h.active, .inl ⟨original, dropLine (patchedLine original), ?_, ?_, ?_,
        hink⟩⟩
    · exact annotated_eq hsec h.active.isHeader h.lines
    · exact annotated_eq hsec h.active.patchedLine.isHeader hpatched
    · exact annotated_eq hsec hback.isHeader hlines

/-! ### The condition is needed -/

/-- A text that is restored has its ink again. -/
theorem inked_of_reversible (h : Reversible conf) :
    inked (dropIgnoreGroup (patchConfText conf)) = inked conf := by
  obtain ⟨front, rest, new, -, ⟨old, old', hconf, -, hback, hink⟩ |
    ⟨current, line, line', hconf, -, hback, hsame⟩⟩ := h
  · rw [inked_eq_flatMap, inked_eq_flatMap conf, (lines_of_annotated hconf).1,
      (lines_of_annotated hback).1, List.flatMap_append, List.flatMap_append, List.flatMap_cons,
      List.flatMap_cons, hink]
  · have hline : inked line' = inked line := by
      rcases hsame with rfl | ⟨hnil, hnil'⟩
      · rfl
      · rw [hnil, hnil']
    rw [inked_eq_flatMap, inked_eq_flatMap conf, (lines_of_annotated hconf).1,
      (lines_of_annotated hback).1, List.flatMap_append, List.flatMap_append, List.flatMap_cons,
      List.flatMap_cons, hline]

/-- The one edited line is the active one, and its text is no part of a line before. -/
theorem FirstActive.edited (h : FirstActive conf before original after k r)
    (hrev : Reversible conf) :
    (∀ l ∈ before, ¬original <:+: l) ∧ sectionAfter [] before = optionsHeader ∧
      ∃ old', split '\n' (dropIgnoreGroup (patchConfText conf)) = before ++ old' :: after := by
  have hlen : (split '\n' (patchConfText conf)).length = (split '\n' conf).length := by
    rw [lines_patchConfText h.lines h.inactive h.active, length_editFirst, h.lines]
  obtain ⟨front, rest, new, hnew, ⟨old, old', hconf, hout, hback, -⟩ |
    ⟨current, line, line', hconf, hout, -, -⟩⟩ := hrev
  · have hmem : new ∈ split '\n' (patchConfText conf) := by
      rw [(lines_of_annotated hout).1]
      exact List.mem_append_right _ List.mem_cons_self
    have hpart : ∀ l ∈ before, ¬original <:+: l := by
      by_contra hcon
      have hcon' : ∃ b ∈ before, original <:+: b := by
        by_contra hnone
        exact hcon fun l hl hin => hnone ⟨l, hl, hin⟩
      obtain ⟨first, u, w, last, hbefore, hedit⟩ :=
        editFirst_before h.ne_nil (patchedLine original) hcon' (original :: after)
      rw [lines_patchConfText h.lines h.inactive h.active, hedit] at hmem
      have hnone : valueOf (u ++ (patchedLine original ++ w)) = none :=
        valueOf_patched_part h.active (h.inactive _ (by
          rw [hbefore]
          exact List.mem_append_right _ List.mem_cons_self))
      have hconf' : new = u ++ (patchedLine original ++ w) ∨ new ∈ split '\n' conf := by
        rw [h.lines, hbefore]
        rcases List.mem_append.mp hmem with hmem | hmem
        · exact .inr (List.mem_append_left _ (List.mem_append_left _ hmem))
        · rcases List.mem_cons.mp hmem with heq | hmem
          · exact .inl heq
          · rw [List.append_assoc, List.cons_append]
            exact .inr (List.mem_append_right _ (List.mem_cons_of_mem _ hmem))
      rcases hconf' with rfl | hmem
      · rw [groupsOf, hnone] at hnew
        exact absurd hnew List.not_mem_nil
      · exact h.without new hmem hnew
    have hpatched := h.lines_patched hpart
    have hne : ∀ l ∈ split '\n' conf, l ≠ new := fun l hl heq => h.without l hl (heq ▸ hnew)
    have hnew' : new = patchedLine original := by
      rw [hpatched] at hmem
      rcases List.mem_append.mp hmem with hmem | hmem
      · exact absurd rfl (hne new (h.lines ▸ List.mem_append_left _ hmem))
      · rcases List.mem_cons.mp hmem with heq | hmem
        · exact heq
        · exact absurd rfl (hne new (h.lines ▸
            List.mem_append_right _ (List.mem_cons_of_mem _ hmem)))
    have hout' := (lines_of_annotated hout).1
    rw [hpatched, ← hnew'] at hout'
    have hnotBefore : new ∉ before := fun hx => hne new (h.lines ▸ List.mem_append_left _ hx) rfl
    have hnotAfter : new ∉ after := fun hx =>
      hne new (h.lines ▸ List.mem_append_right _ (List.mem_cons_of_mem _ hx)) rfl
    obtain ⟨hfront, -, hrest⟩ :=
      (List.append_cons_inj_of_notMem hnotBefore hnotAfter).mp hout'
    refine ⟨hpart, ?_, old', ?_⟩
    · have hheader : isHeader new = false := hnew' ▸ h.active.patchedLine.isHeader
      rw [hfront, ← (lines_of_annotated hout).2 hheader]
    · rw [hfront, hrest]
      exact (lines_of_annotated hback).1
  · have hconf' := congrArg List.length (lines_of_annotated hconf).1
    have hout' := congrArg List.length (lines_of_annotated hout).1
    rw [List.length_append, List.length_cons] at hconf' hout'
    rw [List.map_cons, List.length_cons] at hout'
    omega

theorem FirstActive.restorable (h : FirstActive conf before original after k r)
    (hrev : Reversible conf) : Restorable conf := by
  obtain ⟨hpart, hsec, old', hback⟩ := h.edited hrev
  have hink := congrArg List.length (inked_of_reversible hrev)
  rw [inked_eq_flatMap, inked_eq_flatMap conf, lines_dropIgnoreGroup, h.lines_patched hpart] at hink
  have hle : (((before ++ patchedLine original :: after).map dropLine).flatMap inked).length ≤
      ((split '\n' conf).flatMap inked).length := by
    have hbefore : (before.flatMap fun l => inked (dropLine l)).length ≤
        (before.flatMap inked).length :=
      length_flatMap_le fun l hl => inked_dropLine_le (h.without_before hl)
    have hafter : (after.flatMap fun l => inked (dropLine l)).length ≤
        (after.flatMap inked).length :=
      length_flatMap_le fun l hl => inked_dropLine_le (h.without_after hl)
    have horiginal := inked_dropLine_patchedLine h.active h.without_original
    rw [h.lines, List.flatMap_map, List.flatMap_append, List.flatMap_append, List.flatMap_cons,
      List.flatMap_cons, List.length_append, List.length_append, List.length_append,
      List.length_append]
    omega
  have hmarker := head_ne_marker_of_length (hink ▸ hle)
  rw [lines_dropIgnoreGroup, h.lines_patched hpart, cleanLines_of_forall hmarker,
    h.map_dropLine] at hback
  rw [h.map_dropLine] at hmarker
  have hafter : after.map dropLine = after := (List.cons.inj (List.append_cancel_left hback)).2
  have hsame : ∀ l ∈ after, dropLine l = l := fun l hl => by
    have hid : after.map dropLine = after.map id := hafter.trans (List.map_id after).symm
    exact List.map_inj_left.mp hid l hl
  refine h.restorable_iff.mpr ⟨fun l hl => ?_, hsec, hpart, fun hnil => ?_, fun l hl v hv => ?_⟩
  · rw [h.lines] at hl
    rcases List.mem_append.mp hl with hl | hl
    · exact hmarker l (List.mem_append_left _ hl)
    · rcases List.mem_cons.mp hl with rfl | hl
      · exact h.active.head_ne_marker
      · refine hmarker l (List.mem_append_right _ (List.mem_cons_of_mem _ ?_))
        rw [hafter]
        exact hl
  · rcases dropLine_patchedLine h.active h.without_original with ⟨-, hdrop⟩ | ⟨hne, -⟩
    · exact hmarker _ (List.mem_append_right _ List.mem_cons_self) (by rw [hdrop]; rfl)
    · exact hne hnil
  · exact (words_eq_of_dropLine hv (h.without_after hl)).mp (hsame l hl)

end WithActive

/-! ## Without an active line -/

section WithoutActive

variable {conf l s t k r last head : Text} {front tail : List Text}

/-- The lines of a text with none active: the added one goes behind the lines through
`[options]`. -/
structure Inserted (conf : Text) (front : List Text) (last head : Text) (tail : List Text) :
    Prop where
  lines : split '\n' conf = front ++ (last ++ head) :: tail
  inactive : ∀ l ∈ split '\n' conf, valueOf l = none
  patched : split '\n' (patchConfText conf) = front ++ (last ++ groupLine) :: head :: tail
  through : split '\n' (throughOptions (splitKeep conf)).flatten = front ++ [last]
  head_inactive : valueOf head = none
  ends : (∀ c ∈ last, isBlank c = true) → last = [] ∨ head = [] ∧ tail = []

theorem isBlank_of_isLineBreak {c : Char} (h : isLineBreak c = true) : isBlank c = false := by
  by_contra hb
  rw [Bool.not_eq_false, isBlank, Bool.or_eq_true] at hb
  rcases hb with hb | hb
  · rw [of_decide_eq_true hb] at h
    exact absurd h (by decide)
  · rw [of_decide_eq_true hb] at h
    exact absurd h (by decide)

/-- A bracket behind blanks is in the first line. -/
theorem split_bracket (hs : '\n' ∉ s) (t : Text) :
    ∃ b ys, split '\n' (s ++ '[' :: t) = (s ++ '[' :: b) :: ys := by
  obtain ⟨b, ys, ht⟩ := List.exists_cons_of_ne_nil (split_ne_nil '\n' t)
  have hline : split '\n' (s ++ ['[']) = [] ++ [s ++ ['[']] := split_of_notMem fun hmem => by
    rcases List.mem_append.mp hmem with hmem | hmem
    · exact hs hmem
    · exact absurd hmem (by decide)
  refine ⟨b, ys, ?_⟩
  have hsplit := split_append_split hline ht
  rw [List.append_assoc, List.append_assoc] at hsplit
  exact hsplit

theorem exists_inserted (hnone : ∀ l ∈ split '\n' conf, valueOf l = none) (hopt : HasOptions conf) :
    ∃ front last head tail, Inserted conf front last head tail := by
  obtain ⟨all, rest, rfl, hconf, hout, hrest⟩ := patchConfText_inserted hnone hopt
  obtain ⟨front, last, hthrough⟩ : ∃ front last,
      split '\n' (throughOptions (splitKeep conf)).flatten = front ++ [last] :=
    ⟨_, _, (List.dropLast_append_getLast (split_ne_nil '\n' _)).symm⟩
  obtain ⟨head, tail, hhead⟩ := List.exists_cons_of_ne_nil (split_ne_nil '\n' rest)
  have hgroup : split '\n' (groupLine ++ '\n' :: rest) = groupLine :: head :: tail := by
    rw [split_append (by decide), hhead]
  refine ⟨front, last, head, tail, ?_, hnone, ?_, hthrough, ?_, fun hblank => ?_⟩
  · rw [← split_append_split hthrough hhead, ← hconf]
  · rw [hout]
    exact split_append_split hthrough hgroup
  · rcases hrest with rfl | ⟨-, s, t, rfl, hs, hspace⟩
    · rw [← (List.cons.inj hhead).1]
      rfl
    · obtain ⟨b, ys, hsplit⟩ := split_bracket hs t
      rw [hsplit] at hhead
      rw [← (List.cons.inj hhead).1]
      exact valueOf_bracket hspace
  · rcases hrest with rfl | ⟨hbreak, -⟩
    · exact .inr ⟨(List.cons.inj hhead).1.symm, (List.cons.inj hhead).2.symm⟩
    · refine .inl ?_
      by_contra hne
      have hlast := List.getLast?_eq_some_getLast hne
      have hend : ∀ x : List Text, joinLines (x ++ [[]]) ++ last = joinLines (x ++ [last]) :=
        fun x => joinLines_append x [] [] last
      have hflat := joinLines_split (throughOptions (splitKeep conf)).flatten
      rw [hthrough, ← hend] at hflat
      have hc := hbreak (last.getLast hne) (by
        rw [← hflat, List.getLast?_append, hlast]
        rfl)
      have hb := hblank _ (List.getLast_mem hne)
      rw [isBlank_of_isLineBreak hc] at hb
      cases hb

/-- The added line is active behind blanks alone. -/
theorem isActive_groupLine (h : ∀ c ∈ last, isBlank c = true) :
    IsActive (last ++ groupLine) (last ++ (groupLine.take 12)) (groupLine.drop 13) := by
  refine ⟨?_, ?_, by decide⟩
  · rw [List.append_assoc]
    rfl
  · rw [isKey, List.dropWhile_append_of_pos h]
    rfl

theorem groupsOf_groupLine (h : ∀ c ∈ last, isBlank c = true) :
    groupsOf (last ++ groupLine) = [sfBuild] := by
  rw [groupsOf_eq (isActive_groupLine h)]
  decide

theorem isBlank_of_isActive (hspace : ∀ c ∈ last, isSpace c = true)
    (h : IsActive (last ++ groupLine) k r) : ∀ c ∈ last, isBlank c = true := by
  have heq : '=' ∉ last ++ groupLine.take 12 := by
    intro hmem
    rcases List.mem_append.mp hmem with hmem | hmem
    · exact absurd (hspace '=' hmem) (by decide)
    · exact absurd hmem (by decide)
  have hkey : k = last ++ groupLine.take 12 :=
    h.key_unique (t := groupLine.drop 13) heq (by rw [List.append_assoc]; rfl)
  intro c hc
  have hmem : c ∈ k := hkey ▸ List.mem_append_left _ hc
  rcases isKey_chars h.key hmem with hb | ⟨p, hp, hpc⟩
  · exact hb
  · have hletter := toNat_of_sameLetter hp hpc
    have hblank := toNat_of_isSpace (hspace c hc)
    omega

theorem dropLine_groupLine (h : ∀ c ∈ last, isBlank c = true) :
    dropLine (last ++ groupLine) = [marker] := by
  have hgroups := groupsOf_groupLine h
  rw [dropLine]
  cases hv : valueOf (last ++ groupLine) with
  | none =>
    rw [groupsOf, hv] at hgroups
    cases hgroups
  | some v =>
    rw [groupsOf, hv] at hgroups
    have hwords : words v = [sfBuild] := hgroups
    dsimp only
    rw [hwords]
    rfl

theorem isHeader_of_blank (h : ∀ c ∈ l, isSpace c = true) : isHeader l = false := by
  have hstrip : strip l = [] := by
    have hnil := strip_append_right (s := []) h
    rwa [List.nil_append] at hnil
  rw [isHeader, hstrip]
  rfl

section Blank

variable (h : Inserted conf front last head tail) (hblank : ∀ c ∈ last, isBlank c = true)

include h hblank

theorem Inserted.map_dropLine :
    (front ++ (last ++ groupLine) :: head :: tail).map dropLine =
      front ++ [marker] :: head :: tail := by
  have hsame : ∀ xs : List Text, (∀ l ∈ xs, valueOf l = none) → xs.map dropLine = xs :=
    fun xs hxs => (List.map_congr_left fun l hl => dropLine_of_inactive (hxs l hl)).trans (List.map_id _)
  have hfront := hsame front fun l hl => h.inactive l (h.lines ▸ List.mem_append_left _ hl)
  have htail := hsame tail fun l hl =>
    h.inactive l (h.lines ▸ List.mem_append_right _ (List.mem_cons_of_mem _ hl))
  rw [List.map_append, List.map_cons, List.map_cons, hfront, htail, dropLine_groupLine hblank,
    dropLine_of_inactive h.head_inactive]

/-- The line behind the added one and the line in its place are in one section. -/
theorem Inserted.sections (current : Text) : ∃ current' rest,
    inSections current ((last ++ head) :: tail) = (current', last ++ head) :: rest ∧
      inSections current (head :: tail) = (current', head) :: rest := by
  rcases h.ends hblank with rfl | ⟨rfl, rfl⟩
  · exact ⟨_, _, rfl, rfl⟩
  · have hlast : isHeader (last ++ []) = false := by
      rw [List.append_nil]
      exact isHeader_of_blank fun c hc => isSpace_of_isBlank (hblank c hc)
    have hnil : isHeader [] = false := rfl
    exact ⟨current, [], inSections_cons hlast [], inSections_cons hnil []⟩

end Blank

/-- The condition is enough. -/
theorem Inserted.reversible (h : Inserted conf front last head tail) (hr : Restorable conf) :
    Reversible conf := by
  obtain ⟨hmarker, hend, hsec⟩ := (restorable_inactive h.inactive).mp hr
  rw [h.through, List.getLast?_concat] at hend
  have hblank := hend last rfl
  have hheader : isHeader last = false :=
    isHeader_of_blank fun c hc => isSpace_of_isBlank (hblank c hc)
  rw [h.through, sectionAfter_append, sectionAfter_singleton hheader] at hsec
  have hfront : ∀ l ∈ front, l.head? ≠ some marker := fun l hl =>
    hmarker l (h.lines ▸ List.mem_append_left _ hl)
  have hrest : ∀ l ∈ head :: tail, l.head? ≠ some marker := by
    refine List.forall_mem_cons.mpr ⟨?_, fun l hl =>
      hmarker l (h.lines ▸ List.mem_append_right _ (List.mem_cons_of_mem _ hl))⟩
    rcases h.ends hblank with hnil | ⟨rfl, -⟩
    · have hline := hmarker (last ++ head) (h.lines ▸ List.mem_append_right _ List.mem_cons_self)
      rwa [hnil] at hline
    · exact fun hhead => absurd hhead.symm (Option.some_ne_none marker)
  have hback : split '\n' (dropIgnoreGroup (patchConfText conf)) = front ++ head :: tail := by
    rw [lines_dropIgnoreGroup, h.patched, h.map_dropLine hblank,
      cleanLines_marked hfront hrest (List.cons_ne_nil head tail)]
  obtain ⟨current, rest, hline, hhead⟩ := h.sections hblank optionsHeader
  have hnew : isHeader (last ++ groupLine) = false := (isActive_groupLine hblank).isHeader
  refine ⟨inSections [] front, rest, last ++ groupLine, ?_,
    .inr ⟨current, last ++ head, head, ?_, ?_, ?_, ?_⟩⟩
  · rw [groupsOf_groupLine hblank]
    exact List.mem_singleton_self sfBuild
  · rw [annotated, h.lines, inSections_append, hsec, hline]
  · rw [annotated, h.patched, inSections_append, hsec, inSections_cons hnew, hhead]
  · rw [annotated, hback, inSections_append, hsec, hhead]
  · rcases h.ends hblank with rfl | ⟨rfl, -⟩
    · exact .inl rfl
    · refine .inr ⟨?_, rfl⟩
      rw [List.append_nil]
      exact inked_eq_nil.mpr fun c hc => isSpace_of_isBlank (hblank c hc)

/-! ### The condition is needed -/

/-- The one new line is the added one, with blanks before it alone. -/
theorem Inserted.added (h : Inserted conf front last head tail) (hrev : Reversible conf) :
    (∀ c ∈ last, isBlank c = true) ∧ sectionAfter [] front = optionsHeader := by
  obtain ⟨before, rest, new, hnew, ⟨old, old', hconf, hout, -, -⟩ |
    ⟨current, line, line', hconf, hout, -, hsame⟩⟩ := hrev
  · have hconf' := congrArg List.length (lines_of_annotated hconf).1
    have hout' := congrArg List.length (lines_of_annotated hout).1
    rw [h.lines] at hconf'
    rw [h.patched] at hout'
    simp only [List.length_append, List.length_cons, List.length_map] at hconf' hout'
    omega
  · obtain ⟨hlines, hsec⟩ := lines_of_annotated hout
    rw [h.patched] at hlines
    have hinactive : ∀ l ∈ front ++ head :: tail, l ≠ new := by
      intro l hl heq
      have hnone : valueOf l = none := by
        rcases List.mem_append.mp hl with hl | hl
        · exact h.inactive l (h.lines ▸ List.mem_append_left _ hl)
        · rcases List.mem_cons.mp hl with rfl | hl
          · exact h.head_inactive
          · exact h.inactive l (h.lines ▸ List.mem_append_right _ (List.mem_cons_of_mem _ hl))
      rw [← heq, groupsOf, hnone] at hnew
      exact absurd hnew List.not_mem_nil
    have hmem : new ∈ front ++ (last ++ groupLine) :: head :: tail := by
      rw [hlines]
      exact List.mem_append_right _ List.mem_cons_self
    have heq : new = last ++ groupLine := by
      rcases List.mem_append.mp hmem with hmem | hmem
      · exact absurd rfl (hinactive new (List.mem_append_left _ hmem))
      · rcases List.mem_cons.mp hmem with heq | hmem
        · exact heq
        · exact absurd rfl (hinactive new (List.mem_append_right _ hmem))
    have hactive : ∃ k r, IsActive (last ++ groupLine) k r := by
      cases hv : valueOf new with
      | none =>
        rw [groupsOf, hv] at hnew
        exact absurd hnew List.not_mem_nil
      | some v => exact heq ▸ isActive_of_valueOf hv
    obtain ⟨k, r, hactive⟩ := hactive
    rw [← heq] at hlines
    obtain ⟨hfront, -, hrest⟩ := (List.append_cons_inj_of_notMem
      (fun hx => hinactive new (List.mem_append_left _ hx) rfl)
      fun hx => hinactive new (List.mem_append_right _ hx) rfl).mp hlines
    rw [List.map_cons] at hrest
    obtain ⟨hhead, htail⟩ := List.cons.inj hrest
    have hspace : ∀ c ∈ last, isSpace c = true := by
      have hconf' := (lines_of_annotated hconf).1
      rw [h.lines, hfront] at hconf'
      have hline : last ++ head = line := (List.cons.inj (List.append_cancel_left hconf')).1
      rcases hsame with hsame | ⟨hnil, -⟩
      · have hlast : last = [] := by
          rw [hhead, hsame] at hline
          exact List.append_left_eq_self.mp hline
        rw [hlast]
        exact List.forall_mem_nil _
      · rw [← hline, inked_append] at hnil
        exact inked_eq_nil.mp (List.append_eq_nil_iff.mp hnil).1
    refine ⟨isBlank_of_isActive hspace hactive, ?_⟩
    rw [hfront, ← hsec (heq ▸ hactive.isHeader)]

theorem Inserted.restorable (h : Inserted conf front last head tail) (hrev : Reversible conf) :
    Restorable conf := by
  obtain ⟨hblank, hsec⟩ := h.added hrev
  have hspace : ∀ c ∈ last, isSpace c = true := fun c hc => isSpace_of_isBlank (hblank c hc)
  have hink := congrArg List.length (inked_of_reversible hrev)
  rw [inked_eq_flatMap, inked_eq_flatMap conf, lines_dropIgnoreGroup, h.patched,
    h.map_dropLine hblank, flatMap_cleanLines, h.lines] at hink
  have hmarker : ∀ l ∈ front ++ head :: tail, l.head? ≠ some marker := by
    refine head_ne_marker_of_length (Nat.le_of_eq ?_)
    have hlast : inked (last ++ head) = inked head := by
      rw [inked_append, inked_eq_nil.mpr hspace, List.nil_append]
    have hmark : inked (unmark [marker]) = [] := rfl
    rw [List.flatMap_append, List.flatMap_append, List.flatMap_cons, hmark, List.nil_append,
      ← List.flatMap_append, List.flatMap_cons, hlast, ← List.flatMap_cons,
      ← List.flatMap_append] at hink
    rw [flatMap_cleanLines, hink]
  refine (restorable_inactive h.inactive).mpr ⟨fun l hl => ?_, ?_, ?_⟩
  · rw [h.lines] at hl
    rcases List.mem_append.mp hl with hl | hl
    · exact hmarker l (List.mem_append_left _ hl)
    · rcases List.mem_cons.mp hl with rfl | hl
      · cases last with
        | nil => exact hmarker head (List.mem_append_right _ List.mem_cons_self)
        | cons c last =>
          intro hhead
          have hc := hblank c List.mem_cons_self
          rw [Option.some.inj hhead] at hc
          exact absurd hc (by decide)
      · exact hmarker l (List.mem_append_right _ (List.mem_cons_of_mem _ hl))
  · rw [h.through, List.getLast?_concat]
    exact fun l hl => Option.some.inj hl ▸ hblank
  · rw [h.through, sectionAfter_append, sectionAfter_singleton (isHeader_of_blank hspace), hsec]

end WithoutActive

/-! ## The result -/

/-- **The patch is taken back exactly where the condition holds.** -/
theorem reversible_iff {conf : Text} (hopt : HasOptions conf) (hno : hasIgnoreGroup conf = false) :
    Reversible conf ↔ Restorable conf := by
  have hwithout : ∀ l ∈ split '\n' conf, sfBuild ∉ groupsOf l := by
    intro l hl hmem
    have hany := List.any_eq_false.mp hno l hl
    exact hany (decide_eq_true hmem)
  rcases exists_first_active hwithout with hnone | ⟨before, original, after, k, r, h⟩
  · obtain ⟨front, last, head, tail, h⟩ := exists_inserted hnone hopt
    exact ⟨h.restorable, h.reversible⟩
  · exact ⟨h.restorable, h.reversible⟩

/-- A file with an options section and a group, without the added one. -/
theorem reversible_sample :
    Reversible (joinLines [optionsHeader, groupLine.take 14 ++ ['x'], []]) :=
  (reversible_iff (by decide) (by decide)).mpr (by decide)

/-- Without a final newline the added line goes on with the last one. -/
theorem not_reversible :
    ¬∀ conf, HasOptions conf → hasIgnoreGroup conf = false → Reversible conf := by
  intro hall
  obtain ⟨front, last, head, tail, h⟩ : ∃ front last head tail,
      Inserted (joinLines [optionsHeader, ['A']]) front last head tail :=
    exists_inserted (by decide) (by decide)
  have hlines := (h.restorable (hall _ (by decide) (by decide))).2
  exact absurd (hlines.1 ['A'] rfl 'A' List.mem_cons_self) (by decide)

end Sysforge.Setup
