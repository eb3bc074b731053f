import Mathlib.Data.List.TakeWhile
import Sysforge.State.PipelineStateRoundTrip

/-!
# The stage sentinel

`mark_started` records that an install has begun, as one table of `stage_in_progress.toml`, and
`get_active` reads the record back; a file that is no TOML counts as no record. Only the backslash,
the quote and the breaks of a line are escaped, and the keys are written bare. `roundTrips_iff` says
which records come back. Integers are those that the interpreter prints.
-/

namespace Sysforge.StageSentinel

open Toml
open PipelineState (map_line sectionText_ok PairOk denoted)

/-! ## The code -/

/-- A value of the metadata. -/
inductive MetaValue
  | str (s : String)
  | bool (b : Bool)
  | int (n : ℤ)
  | list (l : List String)

/-- A record; `none` is `None`. -/
abbrev Record := Dict String (Option MetaValue)

/-- The name of a keyword argument of `mark_started`. -/
structure IsKeyword (k : String) : Prop where
  ne_nil : k.toList ≠ []
  chars : ∀ c ∈ k.toList, isBareKeyChar c ∨ 128 ≤ c.toNat
  ne_stage : k ≠ "stage"
  ne_self : k ≠ "self"

/-- `**metadata`. -/
structure Metadata where
  items : Record
  keywords : ∀ k ∈ items.keys, IsKeyword k

/-- A moment in UTC. -/
structure Utc where
  year : ℕ
  month : ℕ
  day : ℕ
  hour : ℕ
  minute : ℕ
  second : ℕ

/-- A number with leading zeros. -/
def padded (width n : ℕ) : Text := List.leftpad width '0' (Nat.toDigits 10 n)

/-- `strftime("%Y-%m-%dT%H:%M:%SZ")`. -/
def Utc.text (t : Utc) : Text :=
  padded 4 t.year ++ '-' :: padded 2 t.month ++ '-' :: padded 2 t.day ++ 'T' :: padded 2 t.hour ++
    ':' :: padded 2 t.minute ++ ':' :: padded 2 t.second ++ ['Z']

/-- `_toml_str`. -/
def tomlStr (v : String) : Text :=
  '"' :: (Text.replaceChar '\r' ['\\', 'r'] <| .replaceChar '\n' ['\\', 'n'] <|
    .replaceChar '"' ['\\', '"'] <| .replaceChar '\\' ['\\', '\\'] v.toList) ++ ['"']

/-- A value as `_serialize` writes it. -/
def valueText : MetaValue → Text
  | .str s => tomlStr s
  | .bool b => boolText b
  | .int n => Text.ofInt n
  | .list l => '[' :: ([',', ' '].intercalate (l.map tomlStr) ++ [']'])

/-- The line of a key. -/
def pairText (p : String × MetaValue) : Text := p.1.toList ++ ' ' :: '=' :: ' ' :: valueText p.2

/-- The items of a body in the order they are written, without `None`. -/
def writtenItems (body : Record) : List (String × MetaValue) :=
  body.sorted.filterMap fun p => p.2.map fun v => (p.1, v)

/-- The lines before the sections. -/
def introLines : List Text :=
  ["# SysForge stage-in-progress sentinel".toList,
    "# Present means a previous run began an install-bearing stage".toList,
    "# (toolchain/kernel/packages) and did not complete cleanly.".toList,
    "# Sysforge refuses to proceed until the system is verified or".toList,
    "# the sentinel is cleared. Do not edit by hand.".toList, []]

/-- `_serialize`. -/
def serialize (data : Dict String Record) : Text :=
  Text.joinLines (introLines ++ data.items.flatMap fun p =>
    ('[' :: (p.1.toList ++ [']'])) :: (writtenItems p.2).map pairText ++ [[]])

/-- `"stage_in_progress"`. -/
def tableName : String := "stage_in_progress"

/-- The record `mark_started` writes. -/
def startedRecord (stage : String) (now : Utc) (metadata : Metadata) : Record :=
  Dict.update (.ofItems [("stage", some (.str stage)),
    ("started_at", some (.str (String.ofList now.text)))]) metadata.items

/-- `mark_started`: the text of the file. -/
def markStarted (stage : String) (now : Utc) (metadata : Metadata) : Text :=
  serialize (.ofItems [(tableName, startedRecord stage now metadata)])

/-- `get_active` for the text of the file, if there is one; `none` where the entry is something of
which `dict` makes no record. -/
def getActive : Option Text → Option (Option Table)
  | none => some none
  | some file =>
    match loads file with
    | none => some none
    | some data =>
      match data.lookup tableName with
      | none | some (.table []) | some (.array []) | some (.bool false) => some none
      | some (.table record) => some (some record)
      | some (.str s) => if s = "" then some none else none
      | some (.int n) => if n = 0 then some none else none
      | some _ => none

/-! ## The property -/

/-- A value as it is read. -/
def MetaValue.value : MetaValue → Value
  | .str s => .str s
  | .bool b => .bool b
  | .int n => .int n
  | .list l => .array (l.map .str)

/-- The strings of a value. -/
def MetaValue.strings : MetaValue → List String
  | .str s => [s]
  | .bool _ => []
  | .int _ => []
  | .list l => l

/-- The record read back has exactly the stage and the metadata, without `None`, and beside them the
time. -/
structure SameRecord (stage : String) (metadata : Metadata) (record : Table) : Prop where
  named : record.lookup "stage" = some (.str stage)
  kept : ∀ k ∈ metadata.items.keys,
    record.lookup k = (metadata.items.get k).join.map MetaValue.value
  alone : ∀ k ∉ metadata.items.keys, k ≠ "stage" → k ≠ "started_at" → record.lookup k = none

/-- What is marked is the active record. -/
def RoundTrips (stage : String) (now : Utc) (metadata : Metadata) : Prop :=
  ∃ record, getActive (some (markStarted stage now metadata)) = some (some record) ∧
    SameRecord stage metadata record

/-- A character that a string may hold: no control character but the tab and the breaks of a
line. -/
def IsStorable (c : Char) : Prop := isLegal c ∨ c = '\r'

/-- The strings hold no control character but the tab and the breaks of a line, and the keys that
are written are ASCII. -/
structure Storable (stage : String) (metadata : Metadata) : Prop where
  named : ∀ c ∈ stage.toList, IsStorable c
  keys : ∀ k v, metadata.items.get k = some (some v) → ∀ c ∈ k.toList, c.toNat < 128
  strings : ∀ k v, metadata.items.get k = some (some v) → ∀ s ∈ v.strings, ∀ c ∈ s.toList,
    IsStorable c

/-! ## Strings -/

/-- What `_toml_str` makes of one character. -/
def escapeChar (c : Char) : Text :=
  if c = '\\' then ['\\', '\\'] else if c = '"' then ['\\', '"']
  else if c = '\n' then ['\\', 'n'] else if c = '\r' then ['\\', 'r'] else [c]

section Strings

variable {c : Char} {s : String}

theorem tomlStr_eq (s : String) : tomlStr s = quoted escapeChar s.toList := by
  have hescape : ∀ t : Text, (Text.replaceChar '\r' ['\\', 'r'] <| .replaceChar '\n' ['\\', 'n'] <|
      .replaceChar '"' ['\\', '"'] <| .replaceChar '\\' ['\\', '\\'] t) = t.flatMap escapeChar := by
    intro t
    induction t with
    | nil => rfl
    | cons c t ih =>
      rw [List.flatMap_cons, ← ih]
      unfold escapeChar
      split_ifs <;> simp [*]
  rw [tomlStr, hescape]
  rfl

theorem decodes_escapeChar (c : Char) : Decodes (escapeChar c) c := by
  unfold escapeChar
  split_ifs with hb hq hn hr
  · exact decodes_escape (by decide) (by decide) (by rw [hb]; decide)
  · exact decodes_escape (by decide) (by decide) (by rw [hq]; decide)
  · exact decodes_escape (by decide) (by decide) (by rw [hn]; decide)
  · exact decodes_escape (by decide) (by decide) (by rw [hr]; decide)
  · exact decodes_self hq hn hb

theorem escapeChar_head (c : Char) : ∃ x l, escapeChar c = x :: l ∧ x ≠ '"' := by
  unfold escapeChar
  split_ifs with hb hq hn hr
  · exact ⟨_, _, rfl, by decide⟩
  · exact ⟨_, _, rfl, by decide⟩
  · exact ⟨_, _, rfl, by decide⟩
  · exact ⟨_, _, rfl, by decide⟩
  · exact ⟨c, [], rfl, hq⟩

theorem legal_escapeChar (h : IsStorable c) : Legal (escapeChar c) := by
  unfold escapeChar
  split_ifs with hb hq hn hr
  · decide
  · decide
  · decide
  · decide
  · exact .cons (h.resolve_right hr) .nil

theorem isValue_tomlStr (s : String) : IsValue (tomlStr s) (.str s) := by
  have hv := isValue_quoted (s := s.toList) (fun c _ => decodes_escapeChar c)
    fun c _ => escapeChar_head c
  rwa [String.ofList_toList, ← tomlStr_eq] at hv

theorem isItem_tomlStr (s : String) : IsItem (tomlStr s) (.str s) := by
  have hv := isItem_quoted (s := s.toList) (fun c _ => decodes_escapeChar c)
    fun c _ => escapeChar_head c
  rwa [String.ofList_toList, ← tomlStr_eq] at hv

theorem legal_tomlStr (h : ∀ c ∈ s.toList, IsStorable c) : Legal (tomlStr s) := by
  rw [tomlStr_eq]
  exact legal_quoted fun c hc => legal_escapeChar (h c hc)

/-- A character that is not storable stands in the file. -/
theorem mem_tomlStr (hc : c ∈ s.toList) (h : ¬IsStorable c) : c ∈ tomlStr s := by
  have hself : escapeChar c = [c] := by
    unfold escapeChar
    rw [if_neg, if_neg, if_neg, if_neg]
    all_goals
      rintro rfl
      exact h (by unfold IsStorable; decide)
  rw [tomlStr_eq, quoted]
  refine List.mem_cons_of_mem _ (List.mem_append_left _ (List.mem_flatMap.mpr ⟨c, hc, ?_⟩))
  rw [hself]
  exact List.mem_singleton_self c

end Strings

/-! ## The lines of the file -/

section Lines

variable {stage : String} {now : Utc} {metadata : Metadata} {p : String × MetaValue} {k : String}
  {v : MetaValue}

/-- A line as a pair that is read. -/
def pairOf (p : String × MetaValue) : PairText := ⟨p.1.toList, valueText p.2, p.1, p.2.value⟩

/-- The items of the record that are written. -/
def written (stage : String) (now : Utc) (metadata : Metadata) : List (String × MetaValue) :=
  writtenItems (startedRecord stage now metadata)

theorem get_startedRecord (stage : String) (now : Utc) (metadata : Metadata) (k : String) :
    (startedRecord stage now metadata).get k = (metadata.items.get k).or
      (if k = "stage" then some (some (.str stage))
        else if k = "started_at" then some (some (.str (String.ofList now.text))) else none) := by
  rw [startedRecord, Dict.get_update]
  congr 1
  rw [Dict.ofItems, List.foldl_cons, List.foldl_cons, List.foldl_nil, Dict.get_set, Dict.get_set]
  split_ifs with hs hk
  · rw [hs] at hk
    exact absurd (show "started_at" = "stage" from hk) (by decide)
  · rfl
  · rfl
  · rfl

theorem mem_written : (k, v) ∈ written stage now metadata ↔
    (startedRecord stage now metadata).get k = some (some v) := by
  rw [written, writtenItems, List.mem_filterMap]
  constructor
  · rintro ⟨⟨k', o⟩, hmem, heq⟩
    obtain ⟨v', rfl, heq⟩ := Option.map_eq_some_iff.mp heq
    obtain ⟨rfl, rfl⟩ := Prod.mk.inj heq
    exact Dict.mem_sorted.mp hmem
  · intro h
    exact ⟨(k, some v), Dict.mem_sorted.mpr h, rfl⟩

theorem lookup_written (stage : String) (now : Utc) (metadata : Metadata) (k : String) :
    ((written stage now metadata).map fun p => (p.1, p.2.value)).lookup k =
      ((startedRecord stage now metadata).get k).join.map MetaValue.value := by
  have hmap : (written stage now metadata).map (fun p => (p.1, p.2.value)) =
      (startedRecord stage now metadata).sorted.filterMap fun p =>
        p.2.map fun v => (p.1, v.value) := by
    rw [written, writtenItems, List.map_filterMap]
    refine List.filterMap_congr fun p _ => ?_
    rw [Option.map_map]
    rfl
  rw [hmap, Assoc.lookup_filterMap _ (Dict.nodup_sorted _), Dict.lookup_sorted]

theorem nodup_written (stage : String) (now : Utc) (metadata : Metadata) :
    (Assoc.keys (written stage now metadata)).Nodup :=
  (Dict.nodup_sorted _).sublist (Assoc.keys_filterMap id _)

theorem markStarted_eq (stage : String) (now : Utc) (metadata : Metadata) :
    markStarted stage now metadata = Text.joinLines (introLines ++
      ('[' :: (tableName.toList ++ [']'])) :: (written stage now metadata).map pairText ++ [[]]) := by
  have hitems : (Dict.ofItems [(tableName, startedRecord stage now metadata)]).items =
      [(tableName, startedRecord stage now metadata)] := rfl
  rw [markStarted, serialize, hitems, List.flatMap_singleton, List.append_assoc]
  rfl

/-- The items that are written are of the stage, of the time or of the metadata. -/
theorem of_mem_written (hp : p ∈ written stage now metadata) :
    p = ("stage", .str stage) ∨ p = ("started_at", .str (String.ofList now.text)) ∨
      metadata.items.get p.1 = some (some p.2) := by
  have hget := mem_written.mp hp
  rw [get_startedRecord] at hget
  cases hmeta : metadata.items.get p.1 with
  | some o =>
    rw [hmeta, Option.some_or] at hget
    exact .inr (.inr hget)
  | none =>
    rw [hmeta, Option.none_or] at hget
    split_ifs at hget with hs hk
    · exact .inl (Prod.ext hs (Option.some.inj (Option.some.inj hget)).symm)
    · exact .inr (.inl (Prod.ext hk (Option.some.inj (Option.some.inj hget)).symm))

theorem stage_mem_written (stage : String) (now : Utc) (metadata : Metadata) :
    ("stage", .str stage) ∈ written stage now metadata := by
  have hnone : metadata.items.get "stage" = none := by
    rw [Dict.get_eq_none]
    exact fun h => (metadata.keywords _ h).ne_stage rfl
  rw [mem_written, get_startedRecord, hnone, Option.none_or, if_pos rfl]

theorem metadata_mem_written (h : metadata.items.get k = some (some v)) :
    (k, v) ∈ written stage now metadata := by
  rw [mem_written, get_startedRecord, h, Option.some_or]

theorem isLegal_of_isDigit {c : Char} (h : c.isDigit) : isLegal c :=
  isLegal_of_isAlphanum (by simp [Char.isAlphanum, h])

theorem legal_padded (width n : ℕ) : Legal (padded width n) := by
  intro c hc
  rw [padded, List.leftpad, List.mem_append] at hc
  rcases hc with hc | hc
  · rw [List.eq_of_mem_replicate hc]
    decide
  · exact isLegal_of_isDigit (Nat.isDigit_of_mem_toDigits (by decide) (by decide) hc)

theorem Utc.legal (t : Utc) : Legal t.text := by
  have hsep : ∀ {c : Char} {w n : ℕ}, isLegal c → Legal (c :: padded w n) := fun hc =>
    .cons hc (legal_padded _ _)
  refine .append (.append (.append (.append (.append (.append ?_ ?_) ?_) ?_) ?_) ?_) ?_
  · exact legal_padded 4 _
  · exact hsep (by decide)
  · exact hsep (by decide)
  · exact hsep (by decide)
  · exact hsep (by decide)
  · exact hsep (by decide)
  · decide

theorem isValue_valueText (v : MetaValue) : IsValue (valueText v) v.value := by
  cases v with
  | str s => exact isValue_tomlStr s
  | bool b => exact isValue_bool b
  | int n => exact isValue_int n
  | list l =>
    have hitems : ∀ q ∈ l.map fun s => (tomlStr s, Value.str s), IsItem q.1 q.2 := by
      intro q hq
      obtain ⟨s, -, rfl⟩ := List.mem_map.mp hq
      exact isItem_tomlStr s
    have hval := isValue_array hitems
    rw [List.map_map, List.map_map] at hval
    exact hval

theorem legal_valueText (h : ∀ s ∈ v.strings, ∀ c ∈ s.toList, IsStorable c) :
    Legal (valueText v) := by
  cases v with
  | str s => exact legal_tomlStr (h s (List.mem_singleton_self s))
  | bool b => exact legal_boolText b
  | int n =>
    intro c hc
    rcases Text.mem_ofInt hc with hd | rfl
    · exact isLegal_of_isDigit hd
    · decide
  | list l =>
    refine .cons (by decide) (.append (fun c hc => ?_) (.cons (by decide) .nil))
    rcases Text.mem_of_mem_intercalate hc with hc | ⟨t, ht, hc⟩
    · exact (by decide : Legal [',', ' ']) c hc
    · obtain ⟨s, hs, rfl⟩ := List.mem_map.mp ht
      exact legal_tomlStr (h s hs) c hc

/-- A character that is not storable stands in the file. -/
theorem mem_valueText {s : String} {c : Char} (hs : s ∈ v.strings) (hc : c ∈ s.toList)
    (h : ¬IsStorable c) : c ∈ valueText v := by
  cases v with
  | str s' =>
    rw [List.mem_singleton.mp hs] at hc
    exact mem_tomlStr hc h
  | bool b => exact absurd hs List.not_mem_nil
  | int n => exact absurd hs List.not_mem_nil
  | list l =>
    have hmem := Text.mem_intercalate_of_mem [',', ' '] (List.mem_map_of_mem (f := tomlStr) hs)
      (mem_tomlStr hc h)
    exact List.mem_cons_of_mem _ (List.mem_append_left _ hmem)

end Lines

/-! ## Reading the file -/

section Reading

variable {stage : String} {now : Utc} {metadata : Metadata} {k : String}

/-- The file as one block. -/
def block (stage : String) (now : Utc) (metadata : Metadata) : Block :=
  ⟨introLines, [⟨[tableName].map fun n => (n.toList, n), (written stage now metadata).map pairOf⟩]⟩

theorem markStarted_eq_block (stage : String) (now : Utc) (metadata : Metadata) :
    markStarted stage now metadata = Text.joinLines (block stage now metadata).lines := by
  have hlines : ∀ l : List (String × MetaValue),
      (l.map pairOf).map (fun q => pairLine q.key q.value) = l.map pairText :=
    map_line fun p => rfl
  rw [markStarted_eq, Block.lines, block, List.flatMap_singleton, SectionText.lines, hlines,
    List.append_assoc]
  rfl

/-- The record that the file gives back. -/
def readRecord (stage : String) (now : Utc) (metadata : Metadata) : Table :=
  (written stage now metadata).map fun p => (p.1, p.2.value)

theorem sectionsOf_block (stage : String) (now : Utc) (metadata : Metadata) :
    sectionsOf [block stage now metadata] = [⟨[tableName], readRecord stage now metadata⟩] := by
  rw [sectionsOf, List.flatMap_singleton, block, List.map_singleton, SectionText.denotes,
    List.map_map, List.map_map]
  rfl

theorem nodup_readRecord (stage : String) (now : Utc) (metadata : Metadata) :
    (Assoc.keys (readRecord stage now metadata)).Nodup := by
  rw [readRecord, Assoc.keys, List.map_map]
  exact nodup_written stage now metadata

/-- **A file with bare keys and legal values is read.** -/
theorem loads_markStarted (hkeys : ∀ p ∈ written stage now metadata, IsBare p.1.toList)
    (hlegal : ∀ p ∈ written stage now metadata, Legal (valueText p.2)) :
    loads (markStarted stage now metadata) =
      some [(tableName, .table (readRecord stage now metadata))] := by
  have hpairs : ∀ l ∈ (written stage now metadata).map pairOf, PairOk l := by
    intro l hl
    obtain ⟨p, hp, rfl⟩ := List.mem_map.mp hl
    exact ⟨⟨isKeyPart_bare (hkeys p hp), isValue_valueText p.2⟩, (hkeys p hp).legal, hlegal p hp⟩
  have hblock : (block stage now metadata).Ok := by
    refine ⟨by simp only [block, introLines]; decide, fun x hx => ?_⟩
    rw [List.mem_singleton.mp hx]
    exact sectionText_ok (by decide) (List.cons_ne_nil _ _) hpairs
  have hends : EndsBlank (block stage now metadata).lines := by
    rw [Block.lines, block, List.flatMap_singleton]
    exact (SectionText.endsBlank _).prepend introLines
  have happly : Section.applyAll (sectionsOf [block stage now metadata]) [] =
      some [(tableName, .table (readRecord stage now metadata))] := by
    have hput : putAll (readRecord stage now metadata) [] = some (readRecord stage now metadata) :=
      putAll_append (nodup_readRecord stage now metadata)
    rw [sectionsOf_block, Section.applyAll_cons, Section.apply, updateNest_new List.not_mem_nil, hput]
    rfl
  have hload := @loads_blocks [block stage now metadata]
  rw [List.flatMap_singleton, ← markStarted_eq_block, sectionsOf_block] at hload
  rw [sectionsOf_block] at happly
  refine hload ?_ hends (List.nodup_singleton _) (fun x hx p _ _ y hy => ?_) happly
  · intro b hb
    rw [List.mem_singleton.mp hb]
    exact hblock
  · -- a key of the record is longer than the header
    rw [List.mem_singleton.mp hx, List.mem_singleton.mp hy, Bool.eq_false_iff]
    intro hpre
    exact Nat.not_succ_le_self 1 (List.isPrefixOf_iff_prefix.mp hpre).length_le

theorem isBare_of_keyword (hk : IsKeyword k) (h : ∀ c ∈ k.toList, c.toNat < 128) :
    IsBare k.toList :=
  ⟨hk.ne_nil, fun c hc => (hk.chars c hc).resolve_right (Nat.not_le.mpr (h c hc))⟩

theorem roundTrips_of_loads
    (h : loads (markStarted stage now metadata) =
      some [(tableName, .table (readRecord stage now metadata))]) :
    RoundTrips stage now metadata := by
  have hlookup : ∀ k, (readRecord stage now metadata).lookup k =
      ((startedRecord stage now metadata).get k).join.map MetaValue.value :=
    lookup_written stage now metadata
  refine ⟨readRecord stage now metadata, ?_, ?_, fun k hk => ?_, fun k hk hs ht => ?_⟩
  · have hmem : ("stage", Value.str stage) ∈ readRecord stage now metadata :=
      List.mem_map_of_mem (stage_mem_written stage now metadata)
    obtain ⟨q, record, hrecord⟩ := List.exists_cons_of_ne_nil (List.ne_nil_of_mem hmem)
    rw [getActive, h, hrecord]
    rfl
  · rw [hlookup, mem_written.mp (stage_mem_written stage now metadata)]
    rfl
  · obtain ⟨o, ho⟩ := Option.ne_none_iff_exists'.mp (Dict.get_eq_none.not.mpr (not_not.mpr hk))
    rw [hlookup, get_startedRecord, ho, Option.some_or]
  · rw [hlookup, get_startedRecord, Dict.get_eq_none.mpr hk, Option.none_or, if_neg hs, if_neg ht]
    rfl

/-! ## Keys that are not bare -/

theorem not_special {c : Char} (h : isBareKeyChar c ∨ 128 ≤ c.toNat) :
    isWs c = false ∧ c ≠ '"' ∧ c ≠ '\'' ∧ c ≠ '\n' ∧ c ≠ '#' ∧ c ≠ '[' ∧ c ≠ '.' ∧ c ≠ '=' := by
  have hne : ∀ d : Char, isBareKeyChar d = false → d.toNat < 128 → c ≠ d := by
    rintro d hd hlt rfl
    rcases h with h | h
    · exact absurd (hd.symm.trans h) Bool.false_ne_true
    · exact Nat.not_lt.mpr h hlt
  refine ⟨?_, hne _ ?_ ?_, hne _ ?_ ?_, hne _ ?_ ?_, hne _ ?_ ?_, hne _ ?_ ?_, hne _ ?_ ?_,
    hne _ ?_ ?_⟩
  · rw [isWs, decide_eq_false (hne ' ' (by decide) (by decide)),
      decide_eq_false (hne '\t' (by decide) (by decide))]
    rfl
  all_goals decide

/-- A key that is not bare is cut at its first character that is no bare one. -/
theorem pair_of_not_bare (hk : IsKeyword k) (hbad : ¬IsBare k.toList) (rest : Text) :
    pair (k.toList ++ ' ' :: rest) = none := by
  have hall : ¬∀ c ∈ k.toList, isBareKeyChar c := fun h => hbad ⟨hk.ne_nil, h⟩
  have hne : k.toList.dropWhile isBareKeyChar ≠ [] := fun h => hall (List.dropWhile_eq_nil_iff.mp h)
  obtain ⟨x, xs, hx⟩ := List.exists_cons_of_ne_nil hne
  have hxbare : isBareKeyChar x = false := by
    have hhead := List.head?_dropWhile_not isBareKeyChar k.toList
    rw [hx] at hhead
    exact hhead
  have hsplit : k.toList = k.toList.takeWhile isBareKeyChar ++ x :: xs := by
    rw [← hx, List.takeWhile_append_dropWhile]
  have hxmem : x ∈ k.toList := by
    rw [hsplit]
    exact List.mem_append_right _ List.mem_cons_self
  obtain ⟨hws, hq, hs, -, -, -, hdot, heq⟩ := not_special (hk.chars x hxmem)
  cases htake : k.toList.takeWhile isBareKeyChar with
  | nil =>
    rw [htake, List.nil_append] at hsplit
    rw [hsplit, List.cons_append, pair, key, keyPart, if_neg hq, if_neg hs, if_neg]
    · rfl
    · exact ne_true_of_eq_false hxbare
  | cons b bs =>
    have hbare : IsBare (String.ofList (b :: bs)).toList := by
      rw [String.toList_ofList]
      exact ⟨List.cons_ne_nil b bs, fun c hc => List.mem_takeWhile_imp (htake ▸ hc)⟩
    have hpart := isKeyPart_bare hbare (x :: (xs ++ ' ' :: rest))
      fun c hc => (Option.some.inj hc) ▸ hxbare
    have hskip : skipWs (x :: (xs ++ ' ' :: rest)) = x :: (xs ++ ' ' :: rest) :=
      skipWs_of_head fun c hc => (Option.some.inj hc) ▸ hws
    rw [String.toList_ofList] at hpart
    rw [hsplit, htake, List.append_assoc, List.cons_append (a := x), pair, key, hpart,
      Option.bind_some, keyRest, hskip, if_neg, Option.bind_some]
    · split
      · exact absurd (List.cons.inj ‹_›).1 heq
      · rfl
    · exact fun h => hdot (Option.some.inj h)

/-- A line that begins with a key that is not bare is refused. -/
theorem expr_of_not_bare (hk : IsKeyword k) (hbad : ¬IsBare k.toList) (d : Doc) (rest : Text) :
    expr d (k.toList ++ ' ' :: rest) = none := by
  have hpair := pair_of_not_bare hk hbad rest
  obtain ⟨c, cs, hcs⟩ := List.exists_cons_of_ne_nil hk.ne_nil
  have hmem : c ∈ k.toList := by
    rw [hcs]
    exact List.mem_cons_self
  obtain ⟨hws, -, -, hn, hh, hb, -, -⟩ := not_special (hk.chars c hmem)
  rw [hcs, List.cons_append] at hpair ⊢
  rw [expr, skipWs_of_head (by rintro c' ⟨⟩; exact hws)]
  split
  · cases ‹_›
  · exact absurd (List.cons.inj ‹_›).1 hn
  · exact absurd (List.cons.inj ‹_›).1 hh
  · exact absurd (List.cons.inj ‹_›).1 hb
  · rw [hpair]
    rfl

theorem legal_of_chars {t : Text} (h : ∀ c ∈ t, isBareKeyChar c ∨ 128 ≤ c.toNat) : Legal t := by
  intro c hc
  rcases h c hc with hbare | hlarge
  · exact IsBare.legal ⟨List.cons_ne_nil c [], List.forall_mem_singleton.mpr hbare⟩ c
      List.mem_cons_self
  · have hr : 0x20 ≤ c.toNat ∧ c.toNat ≠ 0x7f := by omega
    simp [isLegal, hr]

/-- The lines before a pair are read, if their keys are bare. -/
theorem readsLines_front {good : List (String × MetaValue)} (hbare : ∀ p ∈ good, IsBare p.1.toList)
    (hnodup : (Assoc.keys good).Nodup) :
    ∃ d, ReadsLines (introLines ++
      ('[' :: (tableName.toList ++ [']'])) :: good.map pairText) {} d := by
  have hpairs : ∀ l ∈ good.map pairOf, IsKeyPart l.key l.name ∧ IsValue l.value l.val := by
    intro l hl
    obtain ⟨q, hq, rfl⟩ := List.mem_map.mp hl
    exact ⟨isKeyPart_bare (hbare q hq), isValue_valueText q.2⟩
  have hkeys : (Assoc.keys ([] ++ denoted (good.map pairOf))).Nodup := by
    rw [List.nil_append, denoted, Assoc.keys, List.map_map, List.map_map]
    exact hnodup
  have hread : Doc.readSection {} ⟨[tableName], denoted (good.map pairOf)⟩ ≠ none := by
    rw [readSection_eq rfl List.not_mem_nil rfl, Section.apply, updateNest_new List.not_mem_nil,
      putAll_append hkeys]
    exact Option.some_ne_none _
  obtain ⟨d, hd⟩ := Option.ne_none_iff_exists'.mp hread
  obtain ⟨d₁, hopen, hd⟩ := Option.bind_eq_some_iff.mp hd
  have hparts : AreKeyParts [(tableName.toList, tableName)] := by
    intro q hq
    rw [List.mem_singleton.mp hq]
    exact isKeyPart_bare (by decide)
  have hintro : ∀ l ∈ introLines, IsIntro l := by
    unfold introLines
    decide
  have hheader : headerLine ([(tableName.toList, tableName)].map Prod.fst) =
      '[' :: (tableName.toList ++ [']']) := rfl
  have hlines := (Block.readsLines_intro hintro {}).append
    (.cons (readsLine_header hparts (List.cons_ne_nil _ _) hopen) (readsLines_pairs hpairs hd))
  rw [hheader, map_line (f := pairText) fun q => rfl] at hlines
  exact ⟨d, hlines⟩

/-- **A file with a key that is not bare is refused**, as the lines before the key are read. -/
theorem loads_of_not_bare (hbad : ∃ p ∈ written stage now metadata, ¬IsBare p.1.toList)
    (hkeys : ∀ p ∈ written stage now metadata, ¬IsBare p.1.toList → IsKeyword p.1)
    (hlegal : ∀ p ∈ written stage now metadata, Legal (valueText p.2)) :
    loads (markStarted stage now metadata) = none := by
  have hne : (written stage now metadata).dropWhile (fun p => IsBare p.1.toList) ≠ [] := by
    intro h
    obtain ⟨p, hp, hnot⟩ := hbad
    exact hnot (of_decide_eq_true (List.dropWhile_eq_nil_iff.mp h p hp))
  obtain ⟨p, ps, hdrop⟩ := List.exists_cons_of_ne_nil hne
  obtain ⟨good, hgood⟩ : ∃ good, (written stage now metadata).takeWhile
    (fun p => IsBare p.1.toList) = good := ⟨_, rfl⟩
  have hsplit : written stage now metadata = good ++ p :: ps := by
    rw [← hdrop, ← hgood, List.takeWhile_append_dropWhile]
  have hbare : ∀ q ∈ good, IsBare q.1.toList := by
    intro q hq
    rw [← hgood] at hq
    have htrue := List.mem_takeWhile_imp hq
    exact of_decide_eq_true htrue
  have hnot : ¬IsBare p.1.toList := by
    have hhead := List.head?_dropWhile_not (fun q : String × MetaValue => IsBare q.1.toList)
      (written stage now metadata)
    rw [hdrop] at hhead
    exact of_decide_eq_false hhead
  have hnodup : (Assoc.keys good).Nodup := by
    have hall := nodup_written stage now metadata
    rw [hsplit, Assoc.keys_append, List.nodup_append'] at hall
    exact hall.1
  have hp : p ∈ written stage now metadata := by
    rw [hsplit]
    exact List.mem_append_right _ List.mem_cons_self
  obtain ⟨d, hd⟩ := readsLines_front hbare hnodup
  obtain ⟨rest, htext⟩ : ∃ rest, markStarted stage now metadata =
      (introLines ++ ('[' :: (tableName.toList ++ [']'])) :: good.map pairText).flatMap
        (· ++ ['\n']) ++ (p.1.toList ++ ' ' :: rest) := by
    refine ⟨'=' :: ' ' :: (valueText p.2 ++ '\n' :: (ps.map pairText).flatMap (· ++ ['\n'])), ?_⟩
    rw [markStarted_eq, Text.joinLines_append_nil, hsplit, List.map_append, List.map_cons,
      ← List.cons_append, ← List.append_assoc, List.flatMap_append, List.flatMap_cons, pairText]
    simp only [List.append_assoc, List.cons_append, List.nil_append]
  have hsrc : Legal (markStarted stage now metadata) := by
    rw [markStarted_eq, Text.joinLines_append_nil]
    intro c hc
    obtain ⟨l, hl, hc⟩ := List.mem_flatMap.mp hc
    have hline : Legal l := by
      rcases List.mem_append.mp hl with hl | hl
      · have hintro : ∀ l ∈ introLines, Legal l := by
          unfold introLines
          decide
        exact hintro l hl
      · rcases List.mem_cons.mp hl with rfl | hl
        · decide
        · obtain ⟨q, hq, rfl⟩ := List.mem_map.mp hl
          have hname : Legal q.1.toList := by
            by_cases hq' : IsBare q.1.toList
            · exact hq'.legal
            · exact legal_of_chars (hkeys q hq hq').chars
          exact hname.append (.cons (by decide) (.cons (by decide)
            (.cons (by decide) (hlegal q hq))))
    rcases List.mem_append.mp hc with hc | hc
    · exact hline c hc
    · rw [List.mem_singleton.mp hc]
      decide
  have hnone : ∀ n, exprs n d (p.1.toList ++ ' ' :: rest) = none := by
    intro n
    have hexpr := expr_of_not_bare (hkeys p hp hnot) hnot d rest
    obtain ⟨c, cs, hcs⟩ := List.exists_cons_of_ne_nil (hkeys p hp hnot).ne_nil
    rw [hcs, List.cons_append] at hexpr ⊢
    cases n with
    | zero => rfl
    | succ n =>
      rw [exprs, hexpr]
      rfl
  obtain ⟨n, hn⟩ : ∃ n, (markStarted stage now metadata).length = n +
      (introLines ++ ('[' :: (tableName.toList ++ [']'])) :: good.map pairText).length := by
    refine Nat.exists_eq_add_of_le' ((length_le_flatMap_newline _).trans ?_)
    rw [htext, List.length_append]
    exact Nat.le_add_right _ _
  rw [loads, crlf_of_legal hsrc, if_pos (List.all_eq_true.mpr hsrc), hn, htext, exprs_append hd,
    hnone]
  rfl

end Reading

/-! ## The round trip -/

section RoundTrip

variable {stage : String} {now : Utc} {metadata : Metadata}

theorem RoundTrips.loads (h : RoundTrips stage now metadata) :
    ∃ t, loads (markStarted stage now metadata) = some t := by
  obtain ⟨record, hactive, -⟩ := h
  refine Option.ne_none_iff_exists'.mp fun hnone => ?_
  rw [getActive, hnone] at hactive
  cases Option.some.inj hactive

/-- The strings of a file that is read hold no character that none may hold. -/
theorem isStorable_of_loads {t : Table} (h : loads (markStarted stage now metadata) = some t)
    {p : String × MetaValue} (hp : p ∈ written stage now metadata) {s : String}
    (hs : s ∈ p.2.strings) {c : Char} (hc : c ∈ s.toList) : IsStorable c := by
  by_contra hnot
  have hmem : c ∈ markStarted stage now metadata := by
    rw [markStarted_eq, Text.joinLines_append_nil]
    refine List.mem_flatMap.mpr ⟨pairText p, ?_, List.mem_append_left _ ?_⟩
    · exact List.mem_append_right _ (List.mem_cons_of_mem _ (List.mem_map_of_mem hp))
    · have hvalue := mem_valueText hs hc hnot
      exact List.mem_append_right _ (List.mem_cons_of_mem _ (List.mem_cons_of_mem _
        (List.mem_cons_of_mem _ hvalue)))
  exact hnot (.inl (isLegal_of_loads h hmem fun hr => hnot (.inr hr)))

theorem isKeyword_of_not_bare {p : String × MetaValue} (hp : p ∈ written stage now metadata)
    (hnot : ¬IsBare p.1.toList) : IsKeyword p.1 := by
  rcases of_mem_written hp with rfl | rfl | h
  · exact absurd (show IsBare "stage".toList by decide) hnot
  · exact absurd (show IsBare "started_at".toList by decide) hnot
  · refine metadata.keywords p.1 ?_
    by_contra hk
    rw [Dict.get_eq_none.mpr hk] at h
    cases h

/-- **A record comes back** exactly when its strings and its keys can be stored. -/
theorem roundTrips_iff : RoundTrips stage now metadata ↔ Storable stage metadata := by
  constructor
  · intro h
    obtain ⟨t, hloads⟩ := h.loads
    have hstrings : ∀ k v, metadata.items.get k = some (some v) → ∀ s ∈ v.strings,
        ∀ c ∈ s.toList, IsStorable c := fun k v hk s hs c hc =>
      isStorable_of_loads hloads (metadata_mem_written hk) hs hc
    have hnamed : ∀ c ∈ stage.toList, IsStorable c := fun c hc =>
      isStorable_of_loads hloads (stage_mem_written stage now metadata)
        (List.mem_singleton_self stage) hc
    refine ⟨hnamed, fun k v hk c hc => ?_, hstrings⟩
    by_contra hlarge
    have hnot : ¬IsBare k.toList := by
      intro hbare
      exact hlarge (toNat_of_isBareKeyChar (hbare.bare c hc))
    have hbad : ∃ p ∈ written stage now metadata, ¬IsBare p.1.toList :=
      ⟨(k, v), metadata_mem_written hk, hnot⟩
    have hnone := loads_of_not_bare hbad (fun p hp => isKeyword_of_not_bare hp) fun p hp =>
      legal_valueText fun s hs c hc => isStorable_of_loads hloads hp hs hc
    rw [hnone] at hloads
    cases hloads
  · intro h
    refine roundTrips_of_loads (loads_markStarted (fun p hp => ?_) fun p hp => ?_)
    · by_contra hnot
      have hk := isKeyword_of_not_bare hp hnot
      rcases of_mem_written hp with rfl | rfl | hget
      · exact hnot (show IsBare "stage".toList by decide)
      · exact hnot (show IsBare "started_at".toList by decide)
      · exact hnot (isBare_of_keyword hk (h.keys p.1 p.2 hget))
    · refine legal_valueText fun s hs => ?_
      rcases of_mem_written hp with rfl | rfl | hget
      · rw [List.mem_singleton.mp hs]
        exact h.named
      · rw [List.mem_singleton.mp hs, String.toList_ofList]
        exact fun c hc => .inl (now.legal c hc)
      · exact h.strings p.1 p.2 hget s hs

/-- A note that is one escape character. -/
def escapeNote : Metadata where
  items := .ofItems [("note", some (.str (String.ofList ['\x1b'])))]
  keywords k hk := by
    rw [List.mem_singleton.mp hk]
    have hbare : IsBare "note".toList := by decide
    exact ⟨hbare.ne_nil, fun c hc => .inl (hbare.bare c hc), by decide, by decide⟩

/-- A record with an escape character is read as no record. -/
theorem not_roundTrips : ¬∀ (stage : String) (now : Utc) (metadata : Metadata),
    RoundTrips stage now metadata := by
  intro h
  obtain ⟨t, hloads⟩ := (h "toolchain" ⟨2026, 1, 1, 0, 0, 0⟩ escapeNote).loads
  have hnote : escapeNote.items.get "note" = some (some (.str (String.ofList ['\x1b']))) := rfl
  have hstorable := isStorable_of_loads (c := '\x1b') hloads (metadata_mem_written hnote)
    (List.mem_singleton_self _) (by rw [String.toList_ofList]; exact List.mem_singleton_self _)
  rcases hstorable with hlegal | hr
  · exact absurd hlegal (by decide)
  · exact absurd hr (by decide)

end RoundTrip

end Sysforge.StageSentinel
