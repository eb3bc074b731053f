import Mathlib.Data.List.Dedup
import Mathlib.Data.List.Sort
import Mathlib.Data.String.Basic
import Sysforge.Makepkg.EmitConf

/-!
# Serialized flags

Flag drift compares two profiles through their text: `serialize_flags` writes a line for each key,
in the order of the keys, and `diff_flags` reads the lines of two such texts back and compares key
by key. A profile is read back as it was exactly if it is `Plain`, with keys and values within one
line; two plain profiles show a difference exactly where they have one. A value with a line break
is cut, so that a change can go unnoticed.
-/

namespace Sysforge.FlagDrift

open Text

/-! ## The code -/

/-- A flag value of a profile. -/
inductive FlagValue
  | str (s : Text)
  | list (ss : List Text)
  deriving DecidableEq

/-- A value as it is written. -/
def FlagValue.text : FlagValue → Text
  | .str s => s
  | .list ss => unwords ss

/-- The line of a key. -/
def line (key : String) (v : FlagValue) : Text := key.toList ++ '=' :: v.text

/-- The keys that are written, sorted. -/
def entries (p : Dict String FlagValue) : List (String × FlagValue) :=
  p.sorted.filter fun e => e.1 ∉ EmitConf.sysforgeKeys

/-- `serialize_flags`. -/
def serializeFlags (p : Dict String FlagValue) : Text :=
  joinLines ((entries p).map fun e => line e.1 e.2)

/-- One line of `_parse`. -/
def readLine (d : Dict Text Text) (l : Text) : Dict Text Text :=
  if '=' ∈ l then d.set (strip (l.takeWhile (· ≠ '='))) (l.dropWhile (· ≠ '=')).tail else d

/-- `_parse`. -/
def parse (s : Text) : Dict Text Text := (splitlines s).foldl readLine .empty

/-- A line of the difference. -/
inductive DiffLine
  | added (key new : Text)
  | removed (key old : Text)
  | changed (key old new : Text)
  deriving DecidableEq

/-- The difference at one key. -/
def diffKey (key : Text) : Option Text → Option Text → Option DiffLine
  | none, none => none
  | none, some new => some (.added key new)
  | some old, none => some (.removed key old)
  | some old, some new => if old = new then none else some (.changed key old new)

/-- `diff_flags`. -/
def diffFlags (stored current : Text) : List DiffLine :=
  let old := parse stored
  let new := parse current
  ((old.keys ++ new.keys).dedup.insertionSort (· ≤ ·)).filterMap fun k =>
    diffKey k (old.get k) (new.get k)

/-! ## The specification -/

/-- What a profile gives a key outside `SYSFORGE_KEYS`, lists joined by a space. -/
def flag (p : Dict String FlagValue) (key : String) : Option Text :=
  if key ∈ EmitConf.sysforgeKeys then none else (p.get key).map FlagValue.text

/-- The profiles give every such key the same value. -/
def Agree (p q : Dict String FlagValue) : Prop := ∀ key, flag p key = flag q key

/-- A key and a value that one line can hold: the key has no white space around it and no `=`. -/
structure PlainPair (key v : Text) : Prop where
  keyLine : OneLine key
  noEq : '=' ∉ key
  stripped : strip key = key
  valueLine : OneLine v

instance (key v : Text) : Decidable (PlainPair key v) :=
  decidable_of_iff (OneLine key ∧ '=' ∉ key ∧ strip key = key ∧ OneLine v)
    ⟨fun h => ⟨h.1, h.2.1, h.2.2.1, h.2.2.2⟩, fun h => ⟨h.1, h.2, h.3, h.4⟩⟩

/-- Every key that is written, and its value, fit one line. -/
def Plain (p : Dict String FlagValue) : Prop := ∀ e ∈ entries p, PlainPair e.1.toList e.2.text

instance (p : Dict String FlagValue) : Decidable (Plain p) :=
  inferInstanceAs (Decidable (∀ e ∈ entries p, PlainPair e.1.toList e.2.text))

/-- The text of a profile is read back as the profile. -/
def ReadsBack (p : Dict String FlagValue) : Prop :=
  ∀ key : Text, (parse (serializeFlags p)).get key = flag p (String.ofList key)

/-! ## Reading lines -/

section Reading

variable {p q : Dict String FlagValue} {d : Dict Text Text} {key k v l s : Text}
  {ls : List Text}

theorem readLine_line (hk : '=' ∉ k) (hs : strip k = k) (v : Text) :
    readLine d (k ++ '=' :: v) = d.set k v := by
  have hne : ∀ c ∈ k, decide (c ≠ '=') = true := fun c hc => decide_eq_true fun h => hk (h ▸ hc)
  unfold readLine
  rw [if_pos (List.mem_append_right _ List.mem_cons_self),
    List.takeWhile_append_of_pos hne, List.dropWhile_append_of_pos hne,
    List.takeWhile_cons_of_neg (by decide), List.dropWhile_cons_of_neg (by decide),
    List.append_nil, hs, List.tail_cons]

/-- What is read is plain. -/
theorem plainPair_of_get_foldl (hls : ∀ l ∈ ls, OneLine l)
    (hd : ∀ k v, d.get k = some v → PlainPair k v)
    (h : (ls.foldl readLine d).get k = some v) : PlainPair k v := by
  induction ls generalizing d with
  | nil => exact hd k v h
  | cons l ls ih =>
    refine ih (fun m hm => hls m (List.mem_cons_of_mem _ hm)) (fun k v hkv => ?_) h
    have hl := hls l List.mem_cons_self
    unfold readLine at hkv
    by_cases he : '=' ∈ l
    · rw [if_pos he, Dict.get_set] at hkv
      by_cases hk : k = strip (l.takeWhile (· ≠ '='))
      · rw [if_pos hk] at hkv
        obtain rfl := Option.some.inj hkv
        have hsub : k ⊆ l.takeWhile (· ≠ '=') := hk ▸ strip_subset
        refine ⟨hl.of_subset fun c hc => (List.takeWhile_prefix _).subset (hsub hc), fun hmem => ?_,
          by rw [hk, strip_strip],
          hl.of_subset fun c hc => (List.dropWhile_suffix _).subset (List.mem_of_mem_tail hc)⟩
        exact absurd (List.mem_takeWhile_imp (hsub hmem)) (by decide)
      · rw [if_neg hk] at hkv
        exact hd k v hkv
    · rw [if_neg he] at hkv
      exact hd k v hkv

theorem plainPair_of_get_parse (h : (parse s).get k = some v) : PlainPair k v :=
  plainPair_of_get_foldl (fun _ => oneLine_of_mem_splitlines) (fun _ _ h => (Option.some_ne_none _ h.symm).elim) h

/-- Lines come back from their join, when each has a character. -/
theorem splitlines_joinLines (h : ∀ l ∈ ls, OneLine l) (hne : ∀ l ∈ ls, l ≠ []) :
    splitlines (joinLines ls) = ls := by
  induction ls with
  | nil => rfl
  | cons l ls ih =>
    have hl := h l List.mem_cons_self
    cases ls with
    | nil =>
      have hacc : ∀ acc, splitlinesAux l acc = splitlinesAux [] (l.reverse ++ acc) := by
        intro acc
        clear h hne ih
        induction l generalizing acc with
        | nil => rfl
        | cons c l ih =>
          rw [splitlinesAux_cons (hl c List.mem_cons_self),
            ih (fun d hd => hl d (List.mem_cons_of_mem _ hd)), List.reverse_cons,
            List.append_assoc, List.singleton_append]
      rw [joinLines, splitlines, hacc, List.append_nil, splitlinesAux]
      · rw [List.reverse_reverse]
      · exact fun he => hne l List.mem_cons_self (List.reverse_eq_nil_iff.mp he)
    | cons m ms =>
      have hjoin : joinLines (l :: m :: ms) = l ++ '\n' :: joinLines (m :: ms) := rfl
      rw [hjoin, splitlines, splitlinesAux_line hl, List.reverse_nil, List.nil_append]
      exact congrArg _ (ih (fun l hl => h l (List.mem_cons_of_mem _ hl))
        fun l hl => hne l (List.mem_cons_of_mem _ hl))

end Reading

/-! ## Reading back -/

section ReadBack

variable {p q : Dict String FlagValue} {key : String}

theorem nodup_entries : (Assoc.keys (entries p)).Nodup :=
  (List.filter_sublist.map Prod.fst).nodup p.nodup_sorted

theorem lookup_entries (key : String) :
    (entries p).lookup key = if key ∈ EmitConf.sysforgeKeys then none else p.get key := by
  cases h : (entries p).lookup key with
  | some v =>
    obtain ⟨hmem, hkey⟩ := List.mem_filter.mp (Assoc.mem_of_lookup h)
    rw [if_neg (of_decide_eq_true hkey), Dict.mem_sorted.mp hmem]
  | none =>
    by_cases hkey : key ∈ EmitConf.sysforgeKeys
    · rw [if_pos hkey]
    · rw [if_neg hkey]
      refine (Option.eq_none_iff_forall_ne_some.mpr fun v hv => ?_).symm
      have hmem : (key, v) ∈ entries p :=
        List.mem_filter.mpr ⟨Dict.mem_sorted.mpr hv, decide_eq_true hkey⟩
      rw [Assoc.lookup_of_mem nodup_entries hmem] at h
      cases h

theorem flag_eq (key : String) : flag p key = ((entries p).lookup key).map FlagValue.text := by
  rw [lookup_entries, flag]
  split_ifs <;> rfl

theorem foldl_readLine (d : Dict Text Text) {l : List (String × FlagValue)}
    (h : ∀ e ∈ l, PlainPair e.1.toList e.2.text) :
    (l.map fun e => line e.1 e.2).foldl readLine d =
      (l.map fun e => (e.1.toList, e.2.text)).foldl (fun d p => d.set p.1 p.2) d := by
  induction l generalizing d with
  | nil => rfl
  | cons e l ih =>
    obtain ⟨_, heq, hs, _⟩ := h e List.mem_cons_self
    rw [List.map_cons, List.map_cons, List.foldl_cons, List.foldl_cons, line,
      readLine_line heq hs]
    exact ih _ fun e he => h e (List.mem_cons_of_mem _ he)

theorem get_parse_serializeFlags (h : Plain p) (k : Text) :
    (parse (serializeFlags p)).get k = flag p (String.ofList k) := by
  have hlines : splitlines (serializeFlags p) = (entries p).map fun e => line e.1 e.2 := by
    refine splitlines_joinLines (fun l hl => ?_) fun l hl => ?_
    · obtain ⟨e, he, rfl⟩ := List.mem_map.mp hl
      obtain ⟨hk, _, _, hv⟩ := h e he
      exact hk.append ((OneLine.append (s := ['=']) (by decide) hv))
    · obtain ⟨e, _, rfl⟩ := List.mem_map.mp hl
      exact List.append_ne_nil_of_right_ne_nil _ (List.cons_ne_nil _ _)
  have hitems : (parse (serializeFlags p)).items =
      (entries p).map fun e => (e.1.toList, e.2.text) := by
    rw [parse, hlines, foldl_readLine _ h]
    refine Dict.items_ofItems ?_
    have hkeys : Assoc.keys ((entries p).map fun e => (e.1.toList, e.2.text)) =
        (Assoc.keys (entries p)).map String.toList := by
      simp only [Assoc.keys, List.map_map, Function.comp_def]
    rw [hkeys]
    exact nodup_entries.map fun _ _ h => String.toList_injective h
  refine Option.ext fun t => ?_
  rw [← Dict.mem_items, hitems, List.mem_map, flag_eq, Option.map_eq_some_iff]
  constructor
  · rintro ⟨e, he, heq⟩
    obtain ⟨rfl, rfl⟩ := Prod.mk.inj heq
    exact ⟨e.2, by rw [String.ofList_toList]; exact Assoc.lookup_of_mem nodup_entries he, rfl⟩
  · rintro ⟨v, hv, rfl⟩
    exact ⟨_, Assoc.mem_of_lookup hv, by rw [String.toList_ofList]⟩

/-- **A profile is read back as it was iff it is plain.** -/
theorem readsBack_iff : ReadsBack p ↔ Plain p := by
  refine ⟨fun h e he => ?_, fun h => get_parse_serializeFlags h⟩
  refine plainPair_of_get_parse (s := serializeFlags p) ?_
  rw [h, String.ofList_toList, flag_eq, Assoc.lookup_of_mem nodup_entries he, Option.map_some]

theorem diffKey_eq_none {k : Text} {a b : Option Text} : diffKey k a b = none ↔ a = b := by
  cases a with
  | none => cases b <;> simp [diffKey]
  | some v =>
    cases b with
    | none => simp [diffKey]
    | some w =>
      rw [diffKey]
      split_ifs with h <;> simp [h]

theorem diffFlags_eq_nil {s t : Text} :
    diffFlags s t = [] ↔ ∀ k, (parse s).get k = (parse t).get k := by
  unfold diffFlags
  dsimp only
  rw [List.filterMap_eq_nil_iff]
  constructor
  · intro h k
    by_cases hk : k ∈ (parse s).keys ++ (parse t).keys
    · refine diffKey_eq_none.mp (h k ?_)
      rwa [(List.perm_insertionSort _ _).mem_iff, List.mem_dedup]
    · rw [List.mem_append, not_or] at hk
      rw [Dict.get_eq_none.mpr hk.1, Dict.get_eq_none.mpr hk.2]
  · exact fun h k _ => diffKey_eq_none.mpr (h k)

/-- The written keys are in strict order. -/
theorem pairwise_entries : (Assoc.keys (entries p)).Pairwise (· < ·) := by
  have hle : (Assoc.keys (entries p)).Pairwise (· ≤ ·) := by
    refine List.pairwise_map.mpr (List.Pairwise.filter _ ?_)
    exact List.pairwise_insertionSort (fun a b : String × FlagValue => a.1 ≤ b.1) _
  exact (hle.and nodup_entries).imp fun h => lt_of_le_of_ne h.1 h.2

theorem lines_eq : ((entries p).map fun e => line e.1 e.2) =
    (Assoc.keys (entries p)).map fun k => k.toList ++ '=' :: (flag p k).getD [] := by
  rw [Assoc.keys, List.map_map]
  refine List.map_congr_left fun e he => ?_
  rw [Function.comp_apply, flag_eq, Assoc.lookup_of_mem nodup_entries he]
  rfl

/-- Profiles that agree have one text. -/
theorem Agree.serializeFlags_eq (h : Agree p q) : serializeFlags p = serializeFlags q := by
  have hkeys : Assoc.keys (entries p) = Assoc.keys (entries q) := by
    refine pairwise_entries.eq_of_mem_iff pairwise_entries fun k => ?_
    have hk := h k
    rw [flag_eq, flag_eq] at hk
    rw [← not_iff_not, ← Assoc.lookup_eq_none, ← Assoc.lookup_eq_none,
      ← Option.map_eq_none_iff (f := FlagValue.text), hk, Option.map_eq_none_iff]
  have hflag : flag p = flag q := funext h
  rw [serializeFlags, serializeFlags, lines_eq, lines_eq, hkeys, hflag]

/-- **Flag drift of plain profiles misses no change**, and of any profiles it reports no change
where there is none; a profile is plain iff its text is read back as the profile. -/
theorem diffFlags_plain (p q : Dict String FlagValue) : (ReadsBack p ↔ Plain p) ∧
    (Agree p q → diffFlags (serializeFlags p) (serializeFlags q) = []) ∧
    (Plain p → Plain q → (diffFlags (serializeFlags p) (serializeFlags q) = [] ↔ Agree p q)) := by
  refine ⟨readsBack_iff, fun h => ?_, fun hp hq => ?_⟩
  · rw [h.serializeFlags_eq, diffFlags_eq_nil]
    exact fun _ => rfl
  · rw [diffFlags_eq_nil]
    constructor
    · intro h key
      have hk := h key.toList
      rw [get_parse_serializeFlags hp, get_parse_serializeFlags hq, String.ofList_toList] at hk
      exact hk
    · intro h k
      rw [get_parse_serializeFlags hp, get_parse_serializeFlags hq]
      exact h _

end ReadBack

/-- Plain profiles: a level that was raised shows. -/
theorem diffFlags_plain_optimization :
    diffFlags (serializeFlags (.ofItems [("CFLAGS", .str "-O2".toList)]))
        (serializeFlags (.ofItems [("CFLAGS", .str "-O3".toList)])) = [] ↔
      Agree (.ofItems [("CFLAGS", .str "-O2".toList)])
        (.ofItems [("CFLAGS", .str "-O3".toList)]) :=
  (diffFlags_plain _ _).2.2 (by decide) (by decide)

/-- A flag on a second line of a value is not seen. -/
theorem diffFlags_cut :
    diffFlags (serializeFlags (.ofItems [("CFLAGS", .str "-O2\n-g".toList)]))
        (serializeFlags (.ofItems [("CFLAGS", .str "-O2".toList)])) = [] ∧
      ¬ Agree (.ofItems [("CFLAGS", .str "-O2\n-g".toList)])
        (.ofItems [("CFLAGS", .str "-O2".toList)]) := by
  refine ⟨by decide, fun h => ?_⟩
  exact absurd (h "CFLAGS") (by decide)

end Sysforge.FlagDrift
