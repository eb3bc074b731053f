import Sysforge.Foundations.Run
import Sysforge.State.PipelineStateFile

/-!
# The pipeline state survives its file

A state round-trips when every name written bare is a bare key and no result is a boolean:
`Clean` is that invariant, `roundTrips_of_clean` the round trip.
-/

namespace Sysforge.PipelineState

open Toml

/-! ## Texts -/

/-- A text that is written as it is and read back: no quote, backslash or control character. -/
def PlainOk (v : String) : Prop := ∀ c ∈ v.toList, isLegal c ∧ c ≠ '"' ∧ c ≠ '\\' ∧ c ≠ '\n'

instance (v : String) : Decidable (PlainOk v) := List.decidableBAll _ v.toList

/-- What `_escape_toml_str` makes of one character. -/
def escapeChar (c : Char) : Text :=
  if c = '\\' then ['\\', '\\'] else if c = '"' then ['\\', '"']
  else if c = '\n' then ['\\', 'n'] else if c = '\r' then ['\\', 'r']
  else if c = '\t' then ['\\', 't'] else controlChar c

theorem escapeTomlStr_eq (s : Text) : escapeTomlStr s = s.flatMap escapeChar := by
  induction s with
  | nil => rfl
  | cons c s ih =>
    have hc : escapeTomlStr [c] = escapeChar c := by
      unfold escapeTomlStr escapeChar
      split_ifs <;> simp_all [controlChar]
    have happ : escapeTomlStr ([c] ++ s) = escapeTomlStr [c] ++ escapeTomlStr s := by
      simp [escapeTomlStr]
    rw [List.flatMap_cons, ← ih, ← hc, ← happ, List.singleton_append]

/-- Four digits name a control character, and are legal. -/
theorem hex4_control : ∀ n < 128, ¬ (0x20 ≤ n ∧ n ≠ 0x7f) →
    (hex4 n).length = 4 ∧ hexChar (hex4 n) = some (Char.ofNat n) ∧ Legal (hex4 n) := by
  decide

theorem decodes_controlChar {c : Char} (hb : c ≠ '\\') (hq : c ≠ '"') (hn : c ≠ '\n') :
    Decodes (controlChar c) c := by
  unfold controlChar
  split_ifs with h
  · exact decodes_self hq hn hb
  · obtain ⟨hlen, hc, -⟩ := hex4_control c.toNat (by omega) h
    obtain ⟨a, b, x, y, hx⟩ := List.length_eq_four.1 hlen
    rw [Char.ofNat_toNat, hx] at hc
    rw [hx]
    exact decodes_hex hc

theorem decodes_escapeChar (c : Char) : Decodes (escapeChar c) c := by
  unfold escapeChar
  split_ifs with hb hq hn hr ht
  · exact decodes_escape (by decide) (by decide) (by rw [hb]; decide)
  · exact decodes_escape (by decide) (by decide) (by rw [hq]; decide)
  · exact decodes_escape (by decide) (by decide) (by rw [hn]; decide)
  · exact decodes_escape (by decide) (by decide) (by rw [hr]; decide)
  · exact decodes_escape (by decide) (by decide) (by rw [ht]; decide)
  · exact decodes_controlChar hb hq hn

theorem escapeChar_head (c : Char) : ∃ x l, escapeChar c = x :: l ∧ x ≠ '"' := by
  unfold escapeChar controlChar
  split_ifs with hb hq
  all_goals first
    | exact ⟨_, _, rfl, by decide⟩
    | exact ⟨_, _, rfl, hq⟩

theorem legal_escapeChar (c : Char) : Legal (escapeChar c) := by
  unfold escapeChar controlChar
  split_ifs with hb hq hn hr ht h
  · decide
  · decide
  · decide
  · decide
  · decide
  · exact .cons (by simp [isLegal, h]) .nil
  · exact .cons (by decide) (.cons (by decide) (hex4_control c.toNat (by omega) h).2.2)

/-! ## Lines -/

/-- A character written as it is. -/
def plainChar (c : Char) : Text := [c]

theorem flatMap_plainChar (s : Text) : s.flatMap plainChar = s := List.flatMap_singleton' s

/-- The text of a string written as it is. -/
def rawText (v : String) : Text := quoted plainChar v.toList

/-- The text of an escaped string. -/
def escapedText (v : String) : Text := quoted escapeChar v.toList

theorem isValue_raw {v : String} (h : PlainOk v) : IsValue (rawText v) (.str v) := by
  have hv : IsValue (rawText v) (.str (String.ofList v.toList)) :=
    isValue_quoted (fun c hc => decodes_self (h c hc).2.1 (h c hc).2.2.2 (h c hc).2.2.1)
      fun c hc => ⟨c, [], rfl, (h c hc).2.1⟩
  rwa [String.ofList_toList] at hv

theorem isItem_raw {v : String} (h : PlainOk v) : IsItem (rawText v) (.str v) := by
  have hv : IsItem (rawText v) (.str (String.ofList v.toList)) :=
    isItem_quoted (fun c hc => decodes_self (h c hc).2.1 (h c hc).2.2.2 (h c hc).2.2.1)
      fun c hc => ⟨c, [], rfl, (h c hc).2.1⟩
  rwa [String.ofList_toList] at hv

theorem legal_raw {v : String} (h : PlainOk v) : Legal (rawText v) :=
  legal_quoted fun c hc => .cons (h c hc).1 .nil

theorem isValue_escaped (v : String) : IsValue (escapedText v) (.str v) := by
  have hv : IsValue (escapedText v) (.str (String.ofList v.toList)) :=
    isValue_quoted (fun c _ => decodes_escapeChar c) fun c _ => escapeChar_head c
  rwa [String.ofList_toList] at hv

theorem legal_escaped (v : String) : Legal (escapedText v) :=
  legal_quoted fun c _ => legal_escapeChar c

/-- `key = "text"`, the text as it is. -/
def rawPair (p : String × String) : PairText := ⟨p.1.toList, rawText p.2, p.1, .str p.2⟩

/-- `key = "text"`, the text escaped. -/
def escapedPair (p : String × String) : PairText := ⟨p.1.toList, escapedText p.2, p.1, .str p.2⟩

/-- `key = [names]`. -/
def listPair (p : String × List String) : PairText :=
  ⟨p.1.toList, arrayText (p.2.map rawText), p.1, namesValue p.2⟩

/-- A pair of the result. -/
def resultPair (p : String × ResultValue) : PairText :=
  ⟨p.1.toList, match p.2 with | .str s => escapedText s | v => v.repr, p.1, p.2.value⟩

theorem rawLine_eq (p : String × String) :
    rawLine p = pairLine (rawPair p).key (rawPair p).value := by
  simp [rawLine, rawPair, pairLine, rawText, quoted, flatMap_plainChar]

theorem escapedLine_eq (p : String × String) :
    escapedLine p = pairLine (escapedPair p).key (escapedPair p).value := by
  simp [escapedLine, escapedPair, pairLine, escapedText, quoted, escapeTomlStr_eq]

theorem listLine_eq (p : String × List String) :
    listLine p = pairLine (listPair p).key (listPair p).value := by
  have hraw : rawText = fun v => '"' :: (v.toList ++ ['"']) := funext fun v => by
    simp [rawText, quoted, flatMap_plainChar]
  simp [listLine, listPair, pairLine, arrayText, hraw]

theorem resultLine_eq (p : String × ResultValue) :
    resultLine p = pairLine (resultPair p).key (resultPair p).value := by
  obtain ⟨k, s | b | n⟩ := p
  · exact escapedLine_eq (k, s)
  · simp [resultLine, resultPair, pairLine]
  · simp [resultLine, resultPair, pairLine]

/-! ## Clean states -/

/-- An optional text that is written as it is and read back. -/
def OptPlain (o : Option String) : Prop := ∀ v ∈ o, PlainOk v

/-- A stage that survives its sections: its times and package names are plain, the packages of its
errors and the keys of its result are bare keys, and no result is a boolean. -/
structure StageOk (st : Stage) : Prop where
  startedAt : OptPlain st.startedAt
  completedAt : OptPlain st.completedAt
  firstDoneAt : OptPlain st.firstDoneAt
  progress : ∀ p, st.progress = some p → ∀ q ∈ p.items, ∀ v ∈ q.2, PlainOk v
  errors : ∀ k ∈ st.errors.keys, IsBare k.toList
  result : ∀ k v, st.result.get k = some v → IsBare k.toList ∧ ∀ b, v ≠ .bool b

/-- The invariant under which a state survives its file. -/
structure Clean (s : PipelineState) : Prop where
  startedAt : OptPlain s.startedAt
  lastUpdated : OptPlain s.lastUpdated
  stages : ∀ n st, s.stages.get n = some st → IsBare n.toList ∧ st.isWritten ∧ StageOk st

/-! ## The sections of the file -/

/-- The fields of a stage as they are printed. -/
def fieldPairs (st : Stage) : List PairText :=
  st.items.map rawPair ++ st.error.toList.map fun e => escapedPair ("error", e)

/-- The progress of a stage as it is printed. -/
def progressSubs (st : Stage) : List (String × List PairText) :=
  st.progress.toList.map fun p => ("progress", p.items.map listPair)

/-- The errors of a stage as they are printed. -/
def errorsSubs (st : Stage) : List (String × List PairText) :=
  if st.errors.items = [] then [] else [("errors", st.errors.items.map escapedPair)]

/-- The result of a stage as it is printed. -/
def resultSubs (st : Stage) : List (String × List PairText) :=
  if st.result.items = [] then [] else [("result", st.result.items.map resultPair)]

/-- The header parts of a stage. -/
def stageParts (name : String) : List (Text × String) :=
  [("stages".toList, "stages"), (name.toList, name)]

/-- A subsection of a stage. -/
def subText (name : String) (q : String × List PairText) : SectionText :=
  ⟨stageParts name ++ [(q.1.toList, q.1)], q.2⟩

/-- The sections of a stage that is written. -/
def stageTexts (p : String × Stage) : List SectionText :=
  ⟨stageParts p.1, fieldPairs p.2⟩ ::
    (progressSubs p.2 ++ errorsSubs p.2 ++ resultSubs p.2).map (subText p.1)

/-- The section of `meta`, absent when it is empty. -/
def metaTexts (s : PipelineState) : List SectionText :=
  if s.metaItems = [] then [] else [⟨[("meta".toList, "meta")], s.metaItems.map rawPair⟩]

/-- The file as one block. -/
def block (s : PipelineState) : Block :=
  ⟨["# SysForge pipeline state".toList, "# Do not edit while the pipeline is running.".toList, []],
    s.metaTexts ++ s.stages.items.flatMap stageTexts⟩

theorem headerLine_stage (name : String) :
    headerLine ((stageParts name).map Prod.fst) = stageHeader name [] := by
  have h : "[stages.".toList = '[' :: ("stages".toList ++ ['.']) := rfl
  unfold stageHeader stageParts
  simp only [h, List.map_cons, List.map_nil, headerLine, dotted_cons_cons, dotted_singleton]
  simp only [List.append_nil, List.cons_append, List.append_assoc, List.nil_append]

theorem headerLine_sub (name k : String) :
    headerLine ((stageParts name ++ [(k.toList, k)]).map Prod.fst) =
      stageHeader name ('.' :: k.toList) := by
  have h : "[stages.".toList = '[' :: ("stages".toList ++ ['.']) := rfl
  unfold stageHeader stageParts
  simp only [h, List.map_cons, List.map_nil, headerLine, dotted_cons_cons, dotted_singleton,
    List.cons_append, List.nil_append]
  simp only [List.cons_append, List.append_assoc, List.nil_append]

theorem map_line {α : Type*} {f : α → Text} {g : α → PairText}
    (h : ∀ a, f a = pairLine (g a).key (g a).value) (l : List α) :
    (l.map g).map (fun q => pairLine q.key q.value) = l.map f := by
  rw [List.map_map]
  exact List.map_congr_left fun a _ => (h a).symm

theorem subText_lines {α : Type*} {f : α → Text} {g : α → PairText}
    (h : ∀ a, f a = pairLine (g a).key (g a).value) (name k : String) (l : List α) :
    (subText name (k, l.map g)).lines =
      stageHeader name ('.' :: k.toList) :: l.map f ++ [[]] := by
  rw [SectionText.lines, subText, headerLine_sub, map_line h]

theorem progressSubs_lines (p : String × Stage) :
    ((progressSubs p.2).map (subText p.1)).flatMap SectionText.lines = progressLines p := by
  unfold progressSubs progressLines
  cases p.2.progress with
  | none => rfl
  | some q =>
    simp only [Option.toList_some, List.map_cons, List.map_nil, List.flatMap_cons,
      List.flatMap_nil, List.append_nil, subText_lines listLine_eq]
    rfl

theorem errorsSubs_lines (p : String × Stage) :
    ((errorsSubs p.2).map (subText p.1)).flatMap SectionText.lines = errorsLines p := by
  unfold errorsSubs errorsLines
  split_ifs
  · rfl
  · simp only [List.map_cons, List.map_nil, List.flatMap_cons, List.flatMap_nil, List.append_nil,
      subText_lines escapedLine_eq]
    rfl

theorem resultSubs_lines (p : String × Stage) :
    ((resultSubs p.2).map (subText p.1)).flatMap SectionText.lines = resultLines p := by
  unfold resultSubs resultLines
  split_ifs
  · rfl
  · simp only [List.map_cons, List.map_nil, List.flatMap_cons, List.flatMap_nil, List.append_nil,
      subText_lines resultLine_eq]
    rfl

/-- The lines of a written stage are those of its sections. -/
theorem stageLines_eq {p : String × Stage} (h : p.2.isWritten) :
    stageLines p = (stageTexts p).flatMap SectionText.lines := by
  have hhead : SectionText.lines ⟨stageParts p.1, fieldPairs p.2⟩ = statusLines p := by
    rw [SectionText.lines, headerLine_stage, fieldPairs, List.map_append, map_line rawLine_eq,
      map_line (f := fun e => escapedLine ("error", e)) fun e => escapedLine_eq ("error", e)]
    rfl
  rw [stageLines, if_pos h, stageTexts, List.flatMap_cons, hhead, List.map_append,
    List.map_append, List.flatMap_append, List.flatMap_append, progressSubs_lines,
    errorsSubs_lines, resultSubs_lines]
  simp only [List.append_assoc]

/-- The file of a state whose stages are all written is the text of one block. -/
theorem serialize_eq {s : PipelineState} (h : ∀ p ∈ s.stages.items, p.2.isWritten) :
    s.serialize = Text.joinLines s.block.lines := by
  have hmeta : s.metaTexts.flatMap SectionText.lines =
      if s.metaItems = [] then [] else "[meta]".toList :: s.metaItems.map rawLine ++ [[]] := by
    unfold metaTexts
    split_ifs
    · rfl
    · rw [List.flatMap_singleton, SectionText.lines, map_line rawLine_eq]
      rfl
  have hstages : s.stages.items.flatMap stageLines =
      (s.stages.items.flatMap stageTexts).flatMap SectionText.lines := by
    rw [List.flatMap_assoc]
    exact List.flatMap_congr fun p hp => stageLines_eq (h p hp)
  rw [serialize, hstages, Block.lines, block, List.flatMap_append, hmeta, List.append_assoc]

/-! ## The sections of a clean state -/

/-- The pairs a printed section denotes. -/
def denoted (l : List PairText) : List (String × Value) := l.map fun q => (q.name, q.val)

/-- A stage as it is read: its header with its own pairs, and its tables. -/
def nestOf (p : String × Stage) : Nest :=
  ⟨p.1, denoted (fieldPairs p.2),
    (progressSubs p.2 ++ errorsSubs p.2 ++ resultSubs p.2).map fun q => (q.1, denoted q.2)⟩

/-- `meta` as it is read. -/
def metaEntries (s : PipelineState) : List (String × List (String × Value)) :=
  if s.metaItems = [] then [] else [("meta", denoted (s.metaItems.map rawPair))]

theorem denotes_stageTexts (p : String × Stage) :
    (stageTexts p).map SectionText.denotes = (nestOf p).sections ["stages"] := by
  simp [stageTexts, Nest.sections, nestOf, SectionText.denotes, denoted, subText, stageParts,
    Section.under, Function.comp_def]

variable {s : PipelineState}

theorem sectionsOf_block (s : PipelineState) : sectionsOf [s.block] =
    s.metaEntries.map (Section.under []) ++
      (s.stages.items.map nestOf).flatMap (Nest.sections ["stages"]) := by
  have hm : s.metaTexts.map SectionText.denotes = s.metaEntries.map (Section.under []) := by
    unfold metaTexts metaEntries
    split_ifs <;> simp [SectionText.denotes, Section.under, denoted]
  have hs : (s.stages.items.flatMap stageTexts).map SectionText.denotes =
      (s.stages.items.map nestOf).flatMap (Nest.sections ["stages"]) := by
    rw [List.map_flatMap, List.flatMap_map]
    exact List.flatMap_congr fun p _ => denotes_stageTexts p
  rw [sectionsOf, List.flatMap_singleton, block, List.map_append, hm, hs]

/-- The keys of a stage that is read. -/
def stageKeys : List String :=
  ["status", "started_at", "completed_at", "first_done_at"] ++ ["error"] ++
    (["progress"] ++ ["errors"] ++ ["result"])

theorem keys_denoted_raw (l : List (String × String)) :
    Assoc.keys (denoted (l.map rawPair)) = Assoc.keys l := by
  simp [denoted, rawPair, Assoc.keys, Function.comp_def]

theorem keys_table_nestOf (p : String × Stage) :
    (Assoc.keys (nestOf p).table).Sublist stageKeys := by
  have hsub : ∀ {l : List (String × List PairText)} {k : String},
      (l = [] ∨ ∃ q, l = [(k, q)]) → (l.map Prod.fst).Sublist [k] := by
    rintro l k (rfl | ⟨q, rfl⟩) <;> simp
  have hitems : (Assoc.keys p.2.items).Sublist
      ["status", "started_at", "completed_at", "first_done_at"] := Assoc.keys_filterMap id _
  have herror : (p.2.error.toList.map fun _ => "error").Sublist ["error"] := by
    cases p.2.error <;> simp
  have hp : ((progressSubs p.2).map Prod.fst).Sublist ["progress"] := hsub (by
    unfold progressSubs
    cases p.2.progress <;> simp)
  have he : ((errorsSubs p.2).map Prod.fst).Sublist ["errors"] := hsub (by
    unfold errorsSubs
    split_ifs <;> simp)
  have hr : ((resultSubs p.2).map Prod.fst).Sublist ["result"] := hsub (by
    unfold resultSubs
    split_ifs <;> simp)
  have hkeys : Assoc.keys (nestOf p).table = Assoc.keys p.2.items ++
      (p.2.error.toList.map fun _ => "error") ++ ((progressSubs p.2).map Prod.fst ++
        (errorsSubs p.2).map Prod.fst ++ (resultSubs p.2).map Prod.fst) := by
    simp [Nest.table, nestOf, denoted, fieldPairs, rawPair, escapedPair, entry, Assoc.keys,
      Function.comp_def]
  rw [hkeys]
  exact (hitems.append herror).append ((hp.append he).append hr)

theorem nestOf_ok (p : String × Stage) : (nestOf p).Ok where
  keys := (by decide : stageKeys.Nodup).sublist (keys_table_nestOf p)
  subs := by
    have hkeys : ∀ q ∈ progressSubs p.2 ++ errorsSubs p.2 ++ resultSubs p.2,
        (Assoc.keys (denoted q.2)).Nodup := by
      intro q hq
      rcases List.mem_append.1 hq with hq | hq
      · rcases List.mem_append.1 hq with hq | hq
        · obtain ⟨r, -, rfl⟩ := List.mem_map.1 hq
          simp [denoted, listPair, Progress.items]
        · unfold errorsSubs at hq
          split_ifs at hq
          · cases hq
          · rw [List.mem_singleton.1 hq]
            simpa [denoted, escapedPair, Assoc.keys, Function.comp_def] using p.2.errors.nodup
      · unfold resultSubs at hq
        split_ifs at hq
        · cases hq
        · rw [List.mem_singleton.1 hq]
          simpa [denoted, resultPair, Assoc.keys, Function.comp_def] using p.2.result.nodup
    intro q hq
    obtain ⟨r, hr, rfl⟩ := List.mem_map.1 hq
    exact hkeys r hr

/-- A pair whose texts denote what it says, and are legal. -/
def PairOk (l : PairText) : Prop :=
  (IsKeyPart l.key l.name ∧ IsValue l.value l.val) ∧ Legal l.key ∧ Legal l.value

theorem rawPair_ok {p : String × String} (hk : IsBare p.1.toList) (hv : PlainOk p.2) :
    PairOk (rawPair p) := ⟨⟨isKeyPart_bare hk, isValue_raw hv⟩, hk.legal, legal_raw hv⟩

theorem escapedPair_ok {p : String × String} (hk : IsBare p.1.toList) : PairOk (escapedPair p) :=
  ⟨⟨isKeyPart_bare hk, isValue_escaped p.2⟩, hk.legal, legal_escaped p.2⟩

theorem listPair_ok {p : String × List String} (hk : IsBare p.1.toList)
    (hv : ∀ v ∈ p.2, PlainOk v) : PairOk (listPair p) := by
  have hitems : ∀ q ∈ p.2.map fun v => (rawText v, Value.str v), IsItem q.1 q.2 := by
    intro q hq
    obtain ⟨v, hm, rfl⟩ := List.mem_map.1 hq
    exact isItem_raw (hv v hm)
  have hval := isValue_array hitems
  rw [List.map_map, List.map_map] at hval
  refine ⟨⟨isKeyPart_bare hk, hval⟩, hk.legal, ?_⟩
  refine .cons (by decide) (.append (fun c hc => ?_) (.cons (by decide) .nil))
  rcases Text.mem_of_mem_intercalate hc with hc | ⟨l, hl, hc⟩
  · exact (by decide : Legal [',', ' ']) c hc
  · obtain ⟨v, hm, rfl⟩ := List.mem_map.1 hl
    exact legal_raw (hv v hm) c hc

theorem resultPair_ok {p : String × ResultValue} (hk : IsBare p.1.toList)
    (hb : ∀ b, p.2 ≠ .bool b) : PairOk (resultPair p) := by
  obtain ⟨k, v | b | n⟩ := p
  · exact ⟨⟨isKeyPart_bare hk, isValue_escaped v⟩, hk.legal, legal_escaped v⟩
  · exact absurd rfl (hb b)
  · refine ⟨⟨isKeyPart_bare hk, isValue_int n⟩, hk.legal, fun c hc => ?_⟩
    rcases Text.mem_ofInt hc with hd | rfl
    · exact isLegal_of_isAlphanum (by simp [Char.isAlphanum, hd])
    · decide

theorem sectionText_ok {k : List String} (hk : ∀ n ∈ k, IsBare n.toList) (hne : k ≠ [])
    {ls : List PairText} (hl : ∀ l ∈ ls, PairOk l) :
    SectionText.Ok ⟨k.map fun n => (n.toList, n), ls⟩ where
  parts q hq := by
    obtain ⟨n, hn, rfl⟩ := List.mem_map.1 hq
    exact isKeyPart_bare (hk n hn)
  ne_nil := by simpa using hne
  pairs l h := (hl l h).1
  legal_parts q hq := by
    obtain ⟨n, hn, rfl⟩ := List.mem_map.1 hq
    exact (hk n hn).legal
  legal_pairs l h := (hl l h).2

theorem present_ok {l : List (String × Option String)}
    (h : ∀ p ∈ l, IsBare p.1.toList ∧ OptPlain p.2) : ∀ q ∈ (present l).map rawPair, PairOk q := by
  intro q hq
  obtain ⟨r, hr, rfl⟩ := List.mem_map.1 hq
  obtain ⟨p, hp, hr⟩ := List.mem_filterMap.1 hr
  obtain ⟨v, hv, rfl⟩ := Option.map_eq_some_iff.1 hr
  exact rawPair_ok (h p hp).1 ((h p hp).2 v hv)

theorem status_plain (x : Status) : PlainOk x.text := by
  cases x <;> decide

theorem fieldPairs_ok {st : Stage} (h : StageOk st) : ∀ q ∈ fieldPairs st, PairOk q := by
  intro q hq
  rcases List.mem_append.1 hq with hq | hq
  · refine present_ok (fun p hp => ?_) q hq
    simp only [List.mem_cons, List.not_mem_nil, or_false] at hp
    rcases hp with rfl | rfl | rfl | rfl
    · refine ⟨(by decide : IsBare "status".toList), fun v hv => ?_⟩
      obtain ⟨x, -, rfl⟩ := Option.map_eq_some_iff.1 (Option.mem_def.1 hv)
      exact status_plain x
    · exact ⟨(by decide : IsBare "started_at".toList), h.startedAt⟩
    · exact ⟨(by decide : IsBare "completed_at".toList), h.completedAt⟩
    · exact ⟨(by decide : IsBare "first_done_at".toList), h.firstDoneAt⟩
  · obtain ⟨e, -, rfl⟩ := List.mem_map.1 hq
    exact escapedPair_ok (show IsBare "error".toList by decide)

theorem subs_ok {st : Stage} (h : StageOk st) :
    ∀ q ∈ progressSubs st ++ errorsSubs st ++ resultSubs st,
      IsBare q.1.toList ∧ ∀ l ∈ q.2, PairOk l := by
  intro q hq
  rcases List.mem_append.1 hq with hq | hq
  · rcases List.mem_append.1 hq with hq | hq
    · obtain ⟨p, hp, rfl⟩ := List.mem_map.1 hq
      refine ⟨(by decide : IsBare "progress".toList), fun l hl => ?_⟩
      obtain ⟨i, hi, rfl⟩ := List.mem_map.1 hl
      have hbare : ∀ k ∈ ["built", "failed", "skipped", "remaining"], IsBare k.toList := by decide
      exact listPair_ok (hbare i.1 (List.mem_map_of_mem (f := Prod.fst) hi))
        (h.progress p (Option.mem_toList.1 hp) i hi)
    · unfold errorsSubs at hq
      split_ifs at hq
      · cases hq
      · rw [List.mem_singleton.1 hq]
        refine ⟨(by decide : IsBare "errors".toList), fun l hl => ?_⟩
        obtain ⟨i, hi, rfl⟩ := List.mem_map.1 hl
        exact escapedPair_ok (h.errors i.1 (List.mem_map_of_mem hi))
  · unfold resultSubs at hq
    split_ifs at hq
    · cases hq
    · rw [List.mem_singleton.1 hq]
      refine ⟨(by decide : IsBare "result".toList), fun l hl => ?_⟩
      obtain ⟨i, hi, rfl⟩ := List.mem_map.1 hl
      obtain ⟨hk, hb⟩ := h.result i.1 i.2 (Dict.mem_items.1 hi)
      exact resultPair_ok hk hb

theorem stageTexts_ok {p : String × Stage} (hn : IsBare p.1.toList) (h : StageOk p.2) :
    ∀ x ∈ stageTexts p, x.Ok := by
  have hstages : ∀ l : List String, (∀ n ∈ l, IsBare n.toList) →
      ∀ n ∈ "stages" :: l, IsBare n.toList := fun l hl =>
    List.forall_mem_cons.2 ⟨by decide, hl⟩
  intro x hx
  rcases List.mem_cons.1 hx with rfl | hx
  · exact sectionText_ok (k := ["stages", p.1]) (hstages _ (by simpa using hn)) (by simp)
      (fieldPairs_ok h)
  · obtain ⟨q, hq, rfl⟩ := List.mem_map.1 hx
    obtain ⟨hk, hl⟩ := subs_ok h q hq
    exact sectionText_ok (k := ["stages", p.1, q.1]) (hstages _ (by simpa using ⟨hn, hk⟩))
      (by simp) hl

theorem block_ok (h : Clean s) : s.block.Ok where
  intro := by simp only [block]; decide
  sections x hx := by
    rcases List.mem_append.1 hx with hx | hx
    · unfold metaTexts at hx
      split_ifs at hx
      · cases hx
      · rw [List.mem_singleton.1 hx]
        refine sectionText_ok (k := ["meta"]) (by decide) (by simp) (present_ok fun p hp => ?_)
        simp only [List.mem_cons, List.not_mem_nil, or_false] at hp
        rcases hp with rfl | rfl
        · exact ⟨(by decide : IsBare "started_at".toList), h.startedAt⟩
        · exact ⟨(by decide : IsBare "last_updated".toList), h.lastUpdated⟩
    · obtain ⟨p, hp, hx⟩ := List.mem_flatMap.1 hx
      obtain ⟨hn, -, hst⟩ := h.stages p.1 p.2 (Dict.mem_items.1 hp)
      exact stageTexts_ok hn hst x hx

theorem endsBlank_block (s : PipelineState) : EndsBlank s.block.lines :=
  EndsBlank.append (by rfl) (endsBlank_flatMap SectionText.endsBlank _)

/-! ## The round trip -/

/-- The dictionary the file of a clean state denotes. -/
def table (s : PipelineState) : Table :=
  s.metaEntries.map entry ++ Nest.spaceTable "stages" (s.stages.items.map nestOf)

theorem nodup_names (s : PipelineState) : ((s.stages.items.map nestOf).map Nest.name).Nodup := by
  rw [List.map_map]
  exact s.stages.nodup

theorem metaEntries_eq (s : PipelineState) : s.metaEntries = [] ∨
    s.metaEntries = [("meta", denoted (s.metaItems.map rawPair))] := by
  unfold metaEntries
  split_ifs <;> simp

theorem applyAll_block (s : PipelineState) :
    Section.applyAll (sectionsOf [s.block]) [] = some s.table := by
  have hnests : ∀ x ∈ s.stages.items.map nestOf, x.Ok := fun x hx => by
    obtain ⟨p, -, rfl⟩ := List.mem_map.1 hx
    exact nestOf_ok p
  have hmeta : (Assoc.keys (denoted (s.metaItems.map rawPair))).Nodup := by
    rw [keys_denoted_raw]
    exact (by decide : ["started_at", "last_updated"].Nodup).sublist (Assoc.keys_filterMap id _)
  have hm : Section.applyAll (s.metaEntries.map (Section.under [])) [] =
      some (s.metaEntries.map entry) := by
    rcases s.metaEntries_eq with h | h <;> rw [h]
    · rfl
    · exact applyAll_new (by simp) (by simp) (by simpa using hmeta)
  rw [sectionsOf_block, Section.applyAll_append hm, Nest.applyAll_nests hnests (nodup_names s)]
  · rfl
  · rw [keys_map_entry]
    rcases s.metaEntries_eq with h | h <;> simp [h]

theorem nodup_key_block (s : PipelineState) :
    ((sectionsOf [s.block]).map Section.key).Nodup := by
  have hnests : ∀ x ∈ s.stages.items.map nestOf, x.Ok := fun x hx => by
    obtain ⟨p, -, rfl⟩ := List.mem_map.1 hx
    exact nestOf_ok p
  rw [sectionsOf_block, List.map_append, List.nodup_append']
  refine ⟨?_, Nest.nodup_key_nests _ hnests (nodup_names s), fun k hk hk' => ?_⟩
  · rcases s.metaEntries_eq with h | h <;> simp [h]
  · obtain ⟨x, hx, rfl⟩ := List.mem_map.1 hk'
    obtain ⟨y, -, hx⟩ := List.mem_flatMap.1 hx
    have hstages : x.key.head? = some "stages" := by
      rcases List.mem_cons.1 hx with rfl | hx
      · rfl
      · obtain ⟨q, -, rfl⟩ := List.mem_map.1 hx
        rfl
    rcases s.metaEntries_eq with h | h <;> rw [h] at hk
    · cases hk
    · rw [List.mem_singleton.1 hk] at hstages
      simp [Section.under] at hstages

/-- Headers have at most three parts, and only the longest hold an array. -/
theorem key_length (s : PipelineState) : ∀ x ∈ sectionsOf [s.block],
    x.key.length ≤ 3 ∧ ∀ p ∈ x.pairs, p.2.isNested → x.key.length = 3 := by
  intro x hx
  rw [sectionsOf_block] at hx
  rcases List.mem_append.1 hx with hx | hx
  · obtain ⟨e, he, rfl⟩ := List.mem_map.1 hx
    rcases s.metaEntries_eq with h | h <;> rw [h] at he
    · cases he
    · rw [List.mem_singleton.1 he]
      refine ⟨by simp [Section.under], fun p hp hn => ?_⟩
      obtain ⟨q, hq, rfl⟩ := List.mem_map.1 hp
      obtain ⟨r, -, rfl⟩ := List.mem_map.1 hq
      cases hn
  · obtain ⟨y, hy, hx⟩ := List.mem_flatMap.1 hx
    obtain ⟨p, -, rfl⟩ := List.mem_map.1 hy
    rcases List.mem_cons.1 hx with rfl | hx
    · refine ⟨by simp, fun q hq hn => ?_⟩
      obtain ⟨r, hr, rfl⟩ := List.mem_map.1 hq
      rcases List.mem_append.1 hr with hr | hr <;> obtain ⟨i, -, rfl⟩ := List.mem_map.1 hr <;>
        cases hn
    · obtain ⟨q, -, rfl⟩ := List.mem_map.1 hx
      exact ⟨by simp [Section.under], fun _ _ _ => by simp [Section.under]⟩

/-- The file of a clean state loads as its table. -/
theorem loads_serialize (h : Clean s) : loads s.serialize = some s.table := by
  rw [serialize_eq fun p hp => (h.stages p.1 p.2 (Dict.mem_items.1 hp)).2.1]
  have hlines : s.block.lines = [s.block].flatMap Block.lines := by simp
  rw [hlines]
  refine loads_blocks (by simpa using block_ok h) (hlines ▸ endsBlank_block s) (nodup_key_block s)
    ?_ (applyAll_block s)
  intro x hx p hp hn y hy
  by_contra hpre
  rw [Bool.not_eq_false, List.isPrefixOf_iff_prefix] at hpre
  have hle := hpre.length_le
  have hx3 := (key_length s x hx).2 p hp hn
  have hy3 := (key_length s y hy).1
  rw [List.length_append, List.length_singleton] at hle
  omega

/-! ### What is read back -/

theorem lookup_denoted {α : Type*} {g : String × α → PairText} {v : α → Value}
    (h : ∀ p, ((g p).name, (g p).val) = (p.1, v p.2)) (l : List (String × α)) (k : String) :
    (denoted (l.map g)).lookup k = (l.lookup k).map v := by
  have hl : denoted (l.map g) = l.map fun p => (p.1, v p.2) := by
    rw [denoted, List.map_map]
    exact List.map_congr_left fun p _ => h p
  rw [hl, Assoc.lookup_map fun _ => v]

/-- The tables below a stage, as they are read. -/
theorem lookup_subs (p : String × Stage) (k : String) :
    ((nestOf p).subs.map entry).lookup k =
      (if k = "progress" then p.2.progress.map fun q => .table (denoted (q.items.map listPair))
        else none).or
      ((if k = "errors" ∧ p.2.errors.items ≠ [] then
          some (.table (denoted (p.2.errors.items.map escapedPair))) else none).or
        (if k = "result" ∧ p.2.result.items ≠ [] then
          some (.table (denoted (p.2.result.items.map resultPair))) else none)) := by
  have hp : ((progressSubs p.2).map fun q => entry (q.1, denoted q.2)).lookup k =
      if k = "progress" then p.2.progress.map fun q => .table (denoted (q.items.map listPair))
        else none := by
    unfold progressSubs
    cases p.2.progress <;> simp [entry, Assoc.lookup_cons_eq]
  have he : ((errorsSubs p.2).map fun q => entry (q.1, denoted q.2)).lookup k =
      if k = "errors" ∧ p.2.errors.items ≠ [] then
        some (.table (denoted (p.2.errors.items.map escapedPair))) else none := by
    unfold errorsSubs
    split_ifs <;> simp_all [entry, Assoc.lookup_cons_eq]
  have hr : ((resultSubs p.2).map fun q => entry (q.1, denoted q.2)).lookup k =
      if k = "result" ∧ p.2.result.items ≠ [] then
        some (.table (denoted (p.2.result.items.map resultPair))) else none := by
    unfold resultSubs
    split_ifs <;> simp_all [entry, Assoc.lookup_cons_eq]
  rw [← hp, ← he, ← hr, nestOf, List.map_map, List.map_append, List.map_append,
    List.lookup_append, List.lookup_append, Option.or_assoc]
  rfl

theorem lookup_table (p : String × Stage) (k : String) : (nestOf p).table.lookup k =
    ((p.2.items.lookup k).map Value.str).or ((if k = "error" then p.2.error.map Value.str
      else none).or (((nestOf p).subs.map entry).lookup k)) := by
  have he : (denoted (p.2.error.toList.map fun e => escapedPair ("error", e))).lookup k =
      if k = "error" then p.2.error.map Value.str else none := by
    cases p.2.error <;> simp [denoted, escapedPair, Assoc.lookup_cons_eq]
  rw [Nest.table, List.lookup_append, ← he, ← lookup_denoted (g := rawPair) fun _ => rfl]
  simp only [nestOf, fieldPairs, denoted, List.map_append, List.lookup_append, Option.or_assoc]

theorem lookup_items (st : Stage) (k : String) : st.items.lookup k =
    (([("status", st.status.map Status.text), ("started_at", st.startedAt),
      ("completed_at", st.completedAt), ("first_done_at", st.firstDoneAt)].lookup k).join).map id :=
  Assoc.lookup_filterMap id (by simp) k

theorem getTable_subs {p : String × Stage} {k : String}
    (hi : p.2.items.lookup k = none) (he : k ≠ "error") :
    getTable k (nestOf p).table = getTable k ((nestOf p).subs.map entry) := by
  rw [getTable, getTable, lookup_table, hi, if_neg he]
  rfl

/-- The table a stage is read as has what the stage has. -/
theorem sameStage_nestOf (p : String × Stage) : SameStage (nestOf p).table p.2 where
  status := by
    rw [lookup_table, lookup_items, lookup_subs]
    simp [Assoc.lookup_cons_eq, Function.comp_def]
  startedAt := by
    rw [lookup_table, lookup_items, lookup_subs]
    simp [Assoc.lookup_cons_eq]
  completedAt := by
    rw [lookup_table, lookup_items, lookup_subs]
    simp [Assoc.lookup_cons_eq]
  firstDoneAt := by
    rw [lookup_table, lookup_items, lookup_subs]
    simp [Assoc.lookup_cons_eq]
  error := by
    rw [lookup_table, lookup_items, lookup_subs]
    simp [Assoc.lookup_cons_eq]
  progress k := by
    rw [getTable_subs (by rw [lookup_items]; rfl) (by decide), getTable, lookup_subs]
    cases p.2.progress with
    | none => simp
    | some q =>
      simp only [if_true, Option.map_some, Option.some_or, Option.bind_some]
      exact lookup_denoted (fun _ => rfl) q.items k
  errors k := by
    rw [getTable_subs (by rw [lookup_items]; rfl) (by decide), getTable, lookup_subs, Dict.get]
    by_cases h : p.2.errors.items = []
    · simp [h]
    · simp only [h, ne_eq, not_false_eq_true, and_self, if_true, Option.some_or]
      exact lookup_denoted (fun _ => rfl) p.2.errors.items k
  result k := by
    rw [getTable_subs (by rw [lookup_items]; rfl) (by decide), getTable, lookup_subs, Dict.get]
    by_cases h : p.2.result.items = []
    · simp [h]
    · simp only [h, ne_eq, not_false_eq_true, and_self, if_true]
      exact lookup_denoted (fun _ => rfl) p.2.result.items k

/-- **A clean state survives its file.** -/
theorem roundTrips_of_clean (h : Clean s) : RoundTrips s := by
  refine ⟨s.table, loads_serialize h, fun name => ?_⟩
  have hget : getTable "stages" s.table =
      s.stages.items.map fun p => (p.1, Value.table (nestOf (p.1, p.2)).table) := by
    have hmeta : (s.metaEntries.map entry).lookup "stages" = none := by
      rcases s.metaEntries_eq with h | h <;> simp [h, entry, Assoc.lookup_cons_eq]
    rw [getTable, table, List.lookup_append, hmeta, Option.none_or, Nest.spaceTable]
    split_ifs with hnil
    · rw [List.map_eq_nil_iff.1 hnil]
      rfl
    · simp [Nest.item, nestOf]
  rw [hget, Assoc.lookup_map fun n st => Value.table (nestOf (n, st)).table]
  change Option.Rel _ ((s.stages.get name).map _) (s.stages.get name)
  cases s.stages.get name with
  | none => exact .none
  | some st => exact .some ⟨_, rfl, sameStage_nestOf (name, st)⟩

end Sysforge.PipelineState
