import Mathlib.Data.Char
import Mathlib.Data.List.Lex
import Sysforge.Foundations.Dict
import Sysforge.Foundations.Lines

/-!
# The snapshot of the loaded modules

Each capture of `lsmod` is merged into the snapshot of the captures before it. The snapshot is read
by its first line that is not blank and is written with the first line of the new output as its
header, so an output that begins with a blank line is merged into a snapshot without a header: the
first of its rows is then read as one. `accumulates_iff` says that this is the only way in which a
module is lost.
-/

namespace Sysforge.LsmodSnapshot

open Text

/-- `"Module"`. -/
def headerStart : Text := ['M', 'o', 'd', 'u', 'l', 'e']

/-- The lines of a text that are not blank. -/
def textLines (text : Text) : List Text := (splitlines text).filter fun line => strip line ≠ []

/-- `line.split()[0]`, for a line that has a word. -/
def moduleName (line : Text) : Option Text := (words line).head?

/-- The rows of some lines by the name of their module, the later row of a name winning. -/
def rowsOf (lines : List Text) : Dict Text Text :=
  .ofItems (lines.filterMap fun line => (moduleName line).map fun name => (name, line))

/-- `rows`: `none` where it raises a `ValueError`. -/
def rows (text : Text) : Option (Dict Text Text) :=
  match textLines text with
  | [] => none
  | first :: lines => if headerStart.isPrefixOf first then some (rowsOf lines) else none

/-- `merge_lsmod`, with `none` where it raises. -/
def mergeLsmod (priorText currentText : Text) : Option Text := do
  let current ← rows currentText
  let prior ← rows priorText
  let header ← (splitlines currentText).head?
  let merged := prior.update current
  return header ++ '\n' :: (joinLines (merged.sorted.map Prod.snd) ++ ['\n'])

/-- What `lsmod` gives. -/
structure Probe where
  returncode : ℤ
  stdout : Text

/-- `capture_lsmod_snapshot`: the snapshot after it, from the one before it. -/
def captureLsmodSnapshot (dryRun : Bool) (snapshot : Option Text) (result : Probe) : Option Text :=
  if dryRun then snapshot
  else if result.returncode ≠ 0 then snapshot
  else
    match snapshot with
    | none => some result.stdout
    | some prior => some ((mergeLsmod prior result.stdout).getD result.stdout)

/-- The captures of some outputs, one after the other, from no snapshot. -/
def captures (outs : List Text) : Option Text :=
  outs.foldl (fun snapshot out => captureLsmodSnapshot false snapshot ⟨0, out⟩) none

/-! ## Reading what was written -/

section Reading

variable {header line name : Text} {lines : List Text} {d : Dict Text Text}

/-- The line is the row of the module, as it is written and read. -/
structure IsRow (name line : Text) : Prop where
  oneLine : OneLine line
  notBlank : strip line ≠ []
  named : moduleName line = some name

theorem isRow_of_mem (h : ∀ line ∈ lines, OneLine line ∧ strip line ≠ [])
    (hget : (rowsOf lines).get name = some line) : IsRow name line := by
  obtain ⟨l, hl, hname⟩ := List.mem_filterMap.mp (Dict.mem_of_get_ofItems hget)
  obtain ⟨n, hn, heq⟩ := Option.map_eq_some_iff.mp hname
  obtain ⟨rfl, rfl⟩ := Prod.mk.inj heq
  exact ⟨(h l hl).1, (h l hl).2, hn⟩

theorem mem_textLines {text : Text} (h : line ∈ textLines text) :
    OneLine line ∧ strip line ≠ [] := by
  obtain ⟨hl, hs⟩ := List.mem_filter.mp h
  exact ⟨oneLine_of_mem_splitlines hl, of_decide_eq_true hs⟩

/-- Every row that is read is a row of its name. -/
theorem isRow_of_rows {text : Text} (hd : rows text = some d) (hget : d.get name = some line) :
    IsRow name line := by
  unfold rows at hd
  split at hd
  · cases hd
  · next first lines hlines =>
    split_ifs at hd
    obtain rfl := Option.some.inj hd
    refine isRow_of_mem (fun l hl => @mem_textLines l text ?_) hget
    rw [hlines]
    exact List.mem_cons_of_mem _ hl

theorem rowsOf_sorted (h : ∀ name line, d.get name = some line → IsRow name line) (name : Text) :
    (rowsOf (d.sorted.map Prod.snd)).get name = d.get name := by
  have hitems : (d.sorted.map Prod.snd).filterMap
      (fun line => (moduleName line).map fun name => (name, line)) = d.sorted := by
    rw [List.filterMap_map]
    refine (List.filterMap_congr fun p hp => ?_).trans List.filterMap_some
    have hrow := h p.1 p.2 (Dict.mem_sorted.mp hp)
    rw [Function.comp_apply, hrow.named, Option.map_some]
  rw [rowsOf, hitems, Dict.get, Dict.items_ofItems d.nodup_sorted, Dict.lookup_sorted]

theorem joinLines_append_newline (hne : lines ≠ []) :
    joinLines lines ++ ['\n'] = unlines lines := by
  induction lines with
  | nil => exact absurd rfl hne
  | cons l ls ih =>
    cases ls with
    | nil => exact (List.append_nil _).symm
    | cons m ms =>
      have hjoin : joinLines (l :: m :: ms) = l ++ '\n' :: joinLines (m :: ms) := rfl
      have hlines : unlines (l :: m :: ms) = l ++ '\n' :: unlines (m :: ms) := by
        rw [unlines, List.flatMap_cons, List.append_assoc]
        rfl
      rw [hjoin, hlines, List.append_assoc, List.cons_append, ih (List.cons_ne_nil m ms)]

/-- The text that is written for a header and the rows of a dictionary. -/
def snapshotText (header : Text) (d : Dict Text Text) : Text :=
  header ++ '\n' :: (joinLines (d.sorted.map Prod.snd) ++ ['\n'])

/-- The lines of the written text are the header and the rows, with a blank line for no rows. -/
theorem splitlines_snapshotText (hh : OneLine header)
    (h : ∀ name line, d.get name = some line → IsRow name line) :
    ∃ blanks, (∀ line ∈ blanks, strip line = []) ∧
      splitlines (snapshotText header d) = header :: (blanks ++ d.sorted.map Prod.snd) := by
  have hrows : ∀ line ∈ d.sorted.map Prod.snd, OneLine line := by
    intro line hl
    obtain ⟨p, hp, rfl⟩ := List.mem_map.mp hl
    exact (h p.1 p.2 (Dict.mem_sorted.mp hp)).oneLine
  rw [snapshotText, splitlines, splitlinesAux_line hh, List.reverse_nil, List.nil_append]
  by_cases hne : d.sorted.map Prod.snd = []
  · refine ⟨[[]], List.forall_mem_singleton.mpr rfl, ?_⟩
    rw [hne]
    rfl
  · refine ⟨[], fun line hl => absurd hl List.not_mem_nil, ?_⟩
    rw [joinLines_append_newline hne]
    exact congrArg _ (splitlines_unlines hrows)

/-- What is read of the written text: the rows, behind the header where that is not blank. -/
theorem textLines_snapshotText (hh : OneLine header)
    (h : ∀ name line, d.get name = some line → IsRow name line) :
    textLines (snapshotText header d) =
      (if strip header ≠ [] then [header] else []) ++ d.sorted.map Prod.snd := by
  obtain ⟨blanks, hblank, hlines⟩ := splitlines_snapshotText hh h
  have hnone : blanks.filter (fun line => decide (strip line ≠ [])) = [] :=
    List.filter_eq_nil_iff.mpr fun line hl => by simp [hblank line hl]
  have hall : (d.sorted.map Prod.snd).filter (fun line => decide (strip line ≠ [])) =
      d.sorted.map Prod.snd := by
    refine List.filter_eq_self.mpr fun line hl => ?_
    obtain ⟨p, hp, rfl⟩ := List.mem_map.mp hl
    exact decide_eq_true (h p.1 p.2 (Dict.mem_sorted.mp hp)).notBlank
  rw [textLines, hlines, List.filter_cons, List.filter_append, hnone, hall, List.nil_append]
  split_ifs with h₁ h₂ h₂
  · rfl
  · exact absurd (of_decide_eq_true h₁) h₂
  · exact absurd (decide_eq_true h₂) h₁
  · rfl

end Reading

/-! ## One merge -/

section Merge

variable {prior current header : Text} {p c : Dict Text Text}

/-- The first line of the text is not blank. -/
def BeginsWithText (text : Text) : Prop := ∀ line ∈ (splitlines text).head?, strip line ≠ []

instance (text : Text) : Decidable (BeginsWithText text) :=
  inferInstanceAs (Decidable (∀ line ∈ (splitlines text).head?, strip line ≠ []))

theorem isRow_update (hp : rows prior = some p) (hc : rows current = some c) :
    ∀ name line, (p.update c).get name = some line → IsRow name line := by
  intro name line hget
  rw [Dict.get_update] at hget
  rcases Option.or_eq_some_iff.mp hget with hget | ⟨-, hget⟩
  · exact isRow_of_rows hc hget
  · exact isRow_of_rows hp hget

/-- A text with rows has a first line. -/
theorem exists_header (hc : rows current = some c) :
    ∃ header, (splitlines current).head? = some header ∧ OneLine header ∧
      (strip header ≠ [] → headerStart.isPrefixOf header = true) := by
  unfold rows at hc
  split at hc
  · cases hc
  · next first lines hlines =>
    split_ifs at hc with hstart
    cases hs : splitlines current with
    | nil =>
      rw [textLines, hs] at hlines
      cases hlines
    | cons l ls =>
      refine ⟨l, rfl, oneLine_of_mem_splitlines (hs ▸ List.mem_cons_self), fun hne => ?_⟩
      rw [textLines, hs, List.filter_cons, if_pos (decide_eq_true hne)] at hlines
      rwa [(List.cons.inj hlines).1]

theorem mergeLsmod_eq (hp : rows prior = some p) (hc : rows current = some c)
    (hh : (splitlines current).head? = some header) :
    mergeLsmod prior current = some (snapshotText header (p.update c)) := by
  rw [mergeLsmod, hc, hp, hh]
  rfl

/-- **One merge** with an output that begins with its header: it is read back as the rows of both,
those of the output winning. -/
theorem rows_mergeLsmod (hp : rows prior = some p) (hc : rows current = some c)
    (hb : BeginsWithText current) :
    ∃ t d, mergeLsmod prior current = some t ∧ rows t = some d ∧ BeginsWithText t ∧
      ∀ name, d.get name = (c.get name).or (p.get name) := by
  obtain ⟨header, hhead, hone, hstart⟩ := exists_header hc
  have hne := hb header hhead
  have hrow := isRow_update hp hc
  refine ⟨_, rowsOf ((p.update c).sorted.map Prod.snd), mergeLsmod_eq hp hc hhead, ?_, ?_, ?_⟩
  · rw [rows, textLines_snapshotText hone hrow, if_pos hne]
    exact if_pos (hstart hne)
  · obtain ⟨blanks, -, hlines⟩ := splitlines_snapshotText hone hrow
    intro line hl
    rw [hlines, List.head?_cons, Option.mem_some_iff] at hl
    exact hl ▸ hne
  · intro name
    rw [rowsOf_sorted hrow, Dict.get_update]

/-- **A merge with an output that begins with a blank line** loses a module where it is read at all:
its first row is read as the header. -/
theorem lost_of_blank (hp : rows prior = some p) (hc : rows current = some c)
    (hb : ¬BeginsWithText current) {t : Text} {d : Dict Text Text}
    (ht : mergeLsmod prior current = some t) (hd : rows t = some d) :
    ∃ name ∈ (p.update c).keys, name ∉ d.keys := by
  obtain ⟨header, hhead, hone, -⟩ := exists_header hc
  have hblank : strip header = [] := by
    by_contra hne
    refine hb fun line hl => ?_
    rw [hhead, Option.mem_some_iff] at hl
    exact hl ▸ hne
  have hrow := isRow_update hp hc
  obtain rfl := Option.some.inj ((mergeLsmod_eq hp hc hhead).symm.trans ht)
  rw [rows, textLines_snapshotText hone hrow, if_neg (not_not.mpr hblank), List.nil_append] at hd
  have hnodup := (p.update c).nodup_sorted
  cases hs : (p.update c).sorted with
  | nil =>
    rw [hs] at hd
    cases hd
  | cons q qs =>
    rw [hs, Assoc.keys_cons, List.nodup_cons] at hnodup
    rw [hs, List.map_cons] at hd
    have hmem : ∀ r ∈ q :: qs, (p.update c).get r.1 = some r.2 := fun r hr =>
      Dict.mem_sorted.mp (hs ▸ hr)
    refine ⟨q.1, ?_, ?_⟩
    · by_contra hnot
      rw [← Dict.get_eq_none, hmem q List.mem_cons_self] at hnot
      cases hnot
    · dsimp only at hd
      split_ifs at hd
      obtain rfl := Option.some.inj hd
      rw [rowsOf, Dict.mem_keys_ofItems]
      intro hkey
      obtain ⟨r, hr, hname⟩ := List.mem_map.mp hkey
      obtain ⟨line, hl, hline⟩ := List.mem_filterMap.mp hr
      obtain ⟨u, hu, rfl⟩ := List.mem_map.mp hl
      have hu' := hrow u.1 u.2 (hmem u (List.mem_cons_of_mem _ hu))
      rw [hu'.named, Option.map_some] at hline
      refine hnodup.1 (List.mem_map.mpr ⟨u, hu, ?_⟩)
      rw [← hname, ← Option.some.inj hline]

end Merge

/-! ## Runs of captures -/

section Runs

variable {out s : Text} {outs rest : List Text} {d : Dict Text Text}

/-- The row of a module in the last output that has one. -/
def lastRow (outs : List Text) (name : Text) : Option Text :=
  outs.reverse.findSome? fun out => (rows out).bind fun d => d.get name

/-- The text of a merge has the modules of the dictionary and no others. -/
def SameModules (d : Dict Text Text) (merged : Option Text) : Prop :=
  ∃ t e, merged = some t ∧ rows t = some e ∧ ∀ name, name ∈ e.keys ↔ name ∈ d.keys

/-- The captures of some outputs accumulate: no merge raises, the snapshot is the one the merges
give, its modules are those of all outputs, each with its last row, and a merge with an output that
was captured changes no module. -/
def Accumulates (outs : List Text) : Prop :=
  ∀ out rest, outs = out :: rest →
    ∃ s d, rest.foldlM mergeLsmod out = some s ∧ captures outs = some s ∧ rows s = some d ∧
      (∀ name, name ∈ d.keys ↔ ∃ o ∈ outs, ∃ e, rows o = some e ∧ name ∈ e.keys) ∧
      (∀ name, d.get name = lastRow outs name) ∧
      ∀ o ∈ outs, SameModules d (mergeLsmod s o) ∧ SameModules d (mergeLsmod o s)

theorem lastRow_cons (out : Text) (rest : List Text) (name : Text) :
    lastRow (out :: rest) name =
      (lastRow rest name).or ((rows out).bind fun d => d.get name) := by
  rw [lastRow, List.reverse_cons, List.findSome?_append, List.findSome?_singleton, ← lastRow]

/-- A module has a last row where an output has it. -/
theorem lastRow_ne_none {name : Text} :
    lastRow outs name ≠ none ↔ ∃ o ∈ outs, ∃ e, rows o = some e ∧ name ∈ e.keys := by
  rw [lastRow, Ne, List.findSome?_eq_none_iff, not_forall]
  constructor
  · rintro ⟨o, ho⟩
    obtain ⟨hmem, hget⟩ := Classical.not_imp.mp ho
    cases he : rows o with
    | none =>
      rw [he] at hget
      exact absurd rfl hget
    | some e =>
      rw [he, Option.bind_some, Dict.get_eq_none, not_not] at hget
      exact ⟨o, List.mem_reverse.mp hmem, e, he, hget⟩
  · rintro ⟨o, hmem, e, he, hkey⟩
    refine ⟨o, fun h => ?_⟩
    have hnone := h (List.mem_reverse.mpr hmem)
    rw [he, Option.bind_some, Dict.get_eq_none] at hnone
    exact hnone hkey

/-- The captures follow the merges where none raises. -/
theorem foldl_capture (h : rest.foldlM mergeLsmod out = some s) :
    rest.foldl (fun snapshot out => captureLsmodSnapshot false snapshot ⟨0, out⟩) (some out) =
      some s := by
  induction rest generalizing out with
  | nil => exact h
  | cons o os ih =>
    rw [List.foldlM_cons] at h
    obtain ⟨t, ht, hrun⟩ := Option.bind_eq_some_iff.mp h
    have hstep : captureLsmodSnapshot false (some out) ⟨0, o⟩ = some t := by
      change some ((mergeLsmod out o).getD o) = some t
      rw [ht, Option.getD_some]
    rw [List.foldl_cons, hstep]
    exact ih hrun

/-- **A run of merges** with outputs that begin with their headers. -/
theorem foldlM_mergeLsmod (hd : rows out = some d) (hb : BeginsWithText out)
    (hrest : ∀ o ∈ rest, (rows o).isSome = true ∧ BeginsWithText o) :
    ∃ s e, rest.foldlM mergeLsmod out = some s ∧ rows s = some e ∧ BeginsWithText s ∧
      ∀ name, e.get name = (lastRow rest name).or (d.get name) := by
  induction rest generalizing out d with
  | nil => exact ⟨out, d, rfl, hd, hb, fun name => rfl⟩
  | cons o os ih =>
    obtain ⟨hrows, hob⟩ := hrest o List.mem_cons_self
    obtain ⟨c, hc⟩ := Option.isSome_iff_exists.mp hrows
    obtain ⟨t, e, ht, he, htb, hget⟩ := rows_mergeLsmod hd hc hob
    obtain ⟨s, f, hs, hf, hsb, hlast⟩ := ih he htb fun o' ho' => hrest o' (List.mem_cons_of_mem _ ho')
    refine ⟨s, f, ?_, hf, hsb, fun name => ?_⟩
    · rw [List.foldlM_cons, ht]
      exact hs
    · rw [hlast, hget, lastRow_cons, hc, Option.bind_some, Option.or_assoc]

theorem sameModules_of_get {p c e : Dict Text Text} {t : Text} {merged : Option Text}
    (ht : merged = some t) (he : rows t = some e)
    (hget : ∀ name, e.get name = (c.get name).or (p.get name))
    (hp : ∀ name, name ∈ p.keys → name ∈ d.keys) (hc : ∀ name, name ∈ c.keys → name ∈ d.keys)
    (hd : ∀ name, name ∈ d.keys → name ∈ p.keys ∨ name ∈ c.keys) : SameModules d merged := by
  refine ⟨t, e, ht, he, fun name => ?_⟩
  have hkeys : name ∈ e.keys ↔ name ∈ c.keys ∨ name ∈ p.keys := by
    rw [← not_iff_not, not_or, ← Dict.get_eq_none, ← Dict.get_eq_none, ← Dict.get_eq_none, hget,
      Option.or_eq_none_iff]
  rw [hkeys]
  exact ⟨fun h => h.elim (hc name) (hp name), fun h => (hd name h).symm⟩

/-- **The snapshot accumulates** where no output begins with a blank line, and nowhere else: an
output that does is merged into a snapshot that has lost its header. -/
theorem accumulates_iff (h : ∀ o ∈ outs, (rows o).isSome = true) :
    Accumulates outs ↔ ∀ o ∈ outs, BeginsWithText o := by
  constructor
  · intro hacc o ho
    by_contra hb
    obtain ⟨out, rest, rfl⟩ := List.exists_cons_of_ne_nil (List.ne_nil_of_mem ho)
    obtain ⟨s, d, -, -, hd, hkeys, -, hmerge⟩ := hacc out rest rfl
    obtain ⟨⟨t, e, ht, he, hsame⟩, -⟩ := hmerge o ho
    obtain ⟨c, hc⟩ := Option.isSome_iff_exists.mp (h o ho)
    obtain ⟨name, hmem, hlost⟩ := lost_of_blank hd hc hb ht he
    refine hlost ((hsame name).mpr ?_)
    by_contra hnot
    rw [← Dict.get_eq_none] at hnot
    have hcn : name ∉ c.keys := fun hcn => Dict.get_eq_none.mp hnot ((hkeys name).mpr ⟨o, ho, c, hc, hcn⟩)
    rw [← not_not (a := name ∈ _), ← Dict.get_eq_none, Dict.get_update, hnot,
      Dict.get_eq_none.mpr hcn] at hmem
    exact hmem rfl
  · rintro hall out rest rfl
    obtain ⟨d₀, hd₀⟩ := Option.isSome_iff_exists.mp (h out List.mem_cons_self)
    obtain ⟨s, d, hs, hd, hsb, hget⟩ := foldlM_mergeLsmod hd₀ (hall out List.mem_cons_self)
      fun o ho => ⟨h o (List.mem_cons_of_mem _ ho), hall o (List.mem_cons_of_mem _ ho)⟩
    have hlast : ∀ name, d.get name = lastRow (out :: rest) name := by
      intro name
      rw [hget, lastRow_cons, hd₀, Option.bind_some]
    have hkeys : ∀ name, name ∈ d.keys ↔
        ∃ o ∈ out :: rest, ∃ e, rows o = some e ∧ name ∈ e.keys := by
      intro name
      rw [← lastRow_ne_none, ← hlast, Ne, Dict.get_eq_none, not_not]
    refine ⟨s, d, hs, foldl_capture hs, hd, hkeys, hlast, fun o ho => ?_⟩
    obtain ⟨c, hc⟩ := Option.isSome_iff_exists.mp (h o ho)
    have hsub : ∀ name, name ∈ c.keys → name ∈ d.keys := fun name hn =>
      (hkeys name).mpr ⟨o, ho, c, hc, hn⟩
    constructor
    · obtain ⟨t, e, ht, he, -, hmerged⟩ := rows_mergeLsmod hd hc (hall o ho)
      exact sameModules_of_get ht he hmerged (fun _ => id) hsub fun _ => .inl
    · obtain ⟨t, e, ht, he, -, hmerged⟩ := rows_mergeLsmod hc hd hsb
      exact sameModules_of_get ht he hmerged hsub (fun _ => id) fun _ => .inr

/-- `"Module\nb 1\n"` -/
def usbOutput : Text := headerStart ++ ['\n', 'b', ' ', '1', '\n']

/-- `"Module\nc 1\n"` -/
def netOutput : Text := headerStart ++ ['\n', 'c', ' ', '1', '\n']

/-- `"\nModule\na 1\n"` -/
def blankOutput : Text := '\n' :: (headerStart ++ ['\n', 'a', ' ', '1', '\n'])

theorem accumulates_usb_net : Accumulates [usbOutput, netOutput] := by
  refine (accumulates_iff ?_).mpr ?_
  · exact List.forall_mem_cons.mpr ⟨by decide, List.forall_mem_singleton.mpr (by decide)⟩
  · exact List.forall_mem_cons.mpr ⟨by decide, List.forall_mem_singleton.mpr (by decide)⟩

/-- A blank line before the header of the second output: the third capture starts afresh. -/
theorem not_accumulates_blank :
    (∀ o ∈ [usbOutput, blankOutput, netOutput], (rows o).isSome = true) ∧
      captures [usbOutput, blankOutput, netOutput] = some netOutput ∧
      ¬Accumulates [usbOutput, blankOutput, netOutput] := by
  refine ⟨?_, by decide, fun h => ?_⟩
  · refine List.forall_mem_cons.mpr ⟨by decide, List.forall_mem_cons.mpr ⟨by decide, ?_⟩⟩
    exact List.forall_mem_singleton.mpr (by decide)
  · obtain ⟨s, d, hs, -⟩ := h usbOutput [blankOutput, netOutput] rfl
    have hnone : [blankOutput, netOutput].foldlM mergeLsmod usbOutput = none := by decide
    rw [hnone] at hs
    cases hs

end Runs

end Sysforge.LsmodSnapshot
