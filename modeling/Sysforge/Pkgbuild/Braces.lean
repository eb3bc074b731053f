import Mathlib.Algebra.Order.Ring.Int
import Mathlib.Tactic.Ring
import Sysforge.Foundations.Numerals

/-!
# Brace expansion

`_expand_braces` expands the braces of an unquoted word as the shell does. The words that the shell
reads are `Word`, and what it makes of them is `Word.expand`; `expandBraces_iff` says for which
words the code makes the same of them, and the way there that it always ends.
-/

namespace Sysforge.Pkgbuild

open Text

/-! ## The code -/

/-- The loop of `_split_top_commas`. -/
def splitTopCommasFrom (depth : ℤ) (cur : Text) : Text → List Text
  | [] => [cur]
  | c :: s =>
    if c = '\x7b' then splitTopCommasFrom (depth + 1) (cur ++ [c]) s
    else if c = '\x7d' then splitTopCommasFrom (depth - 1) (cur ++ [c]) s
    else if c = ',' ∧ depth = 0 then cur :: splitTopCommasFrom depth [] s
    else splitTopCommasFrom depth (cur ++ [c]) s

/-- `_split_top_commas`. -/
def splitTopCommas (s : Text) : List Text := splitTopCommasFrom 0 [] s

/-- The values of a sequence from `start` to `stop`, ends included. -/
def sequenceRange (start stop step : ℤ) : List ℤ :=
  if start ≤ stop then range start (stop + 1) step else range start (stop - 1) (-step)

/-- `[a-zA-Z]` on a whole text. -/
def letterValue : Text → Option ℤ
  | [c] => if c.isAlpha then some c.toNat else none
  | _ => none

/-- `_expand_sequence` of the ends and the step. -/
def expandEnds (x y : Text) (step : ℤ) : Option (List Text) :=
  if isInteger x && isInteger y then
    some ((sequenceRange (intValue x) (intValue y) step).map ofInt)
  else match letterValue x, letterValue y with
    | some a, some b => some ((sequenceRange a b step).map fun v => [Char.ofNat v.toNat])
    | _, _ => none

/-- `_expand_sequence`. No number has a dot, so that the groups of its patterns are what stands
between the `..`. -/
def expandSequence (s : Text) : Option (List Text) :=
  match splitSep ['.', '.'] s with
  | [x, y] => expandEnds x y 1
  | [x, y, d] =>
    if isInteger d then
      let step : ℤ := (intValue d).natAbs
      expandEnds x y (if step = 0 then 1 else step)
    else none
  | _ => none

/-- What stands in the braces, of which one is open at first, and after them. -/
def closeBrace : ℕ → Text → Option (Text × Text)
  | _, [] => none
  | depth, c :: s =>
    if c = '\x7b' then (closeBrace (depth + 1) s).map fun p => (c :: p.1, p.2)
    else if c = '\x7d' then
      if depth = 1 then some ([], s) else (closeBrace (depth - 1) s).map fun p => (c :: p.1, p.2)
    else (closeBrace depth s).map fun p => (c :: p.1, p.2)

/-- What a group expands to before its parts are expanded, if it does. -/
def groupOptions (inner : Text) : List Text :=
  let parts := splitTopCommas inner
  if 1 < parts.length then parts else (expandSequence inner).getD []

/-- The loop of `_expand_braces` over the text `s` that follows `pre`. -/
def expandBracesFrom : ℕ → Text → Text → List Text
  | 0, pre, s => [pre ++ s]
  | _ + 1, pre, [] => [pre]
  | fuel + 1, pre, c :: s =>
    if c = '\x7b' then
      match closeBrace 1 s with
      | none => [pre ++ c :: s]
      | some (inner, suffix) =>
        if pre.getLast? = some '$' then
          expandBracesFrom fuel (pre ++ c :: inner ++ ['\x7d']) suffix
        else if groupOptions inner = [] then
          expandBracesFrom fuel (pre ++ c :: inner ++ ['\x7d']) suffix
        else (groupOptions inner).flatMap fun opt =>
          (expandBracesFrom fuel [] opt).flatMap fun head =>
            (expandBracesFrom fuel [] suffix).map fun tail => pre ++ head ++ tail
    else expandBracesFrom fuel (pre ++ [c]) s

/-- `_expand_braces`; the fuel is for the characters. -/
def expandBraces (token : Text) : List Text := expandBracesFrom (token.length + 1) [] token

/-! ## What the shell makes of a word -/

mutual

/-- A word as the shell reads its braces. -/
inductive Word
  | nil
  | char (c : Char) (w : Word)
  | group (a : Alts) (w : Word)

/-- What stands in braces: parts between commas. -/
inductive Alts
  | last (w : Word)
  | cons (w : Word) (a : Alts)

end

mutual

/-- The word as it is written. -/
def Word.text : Word → Text
  | .nil => []
  | .char c w => c :: w.text
  | .group a w => '\x7b' :: a.text ++ '\x7d' :: w.text

def Alts.text : Alts → Text
  | .last w => w.text
  | .cons w a => w.text ++ ',' :: a.text

end

mutual

/-- Its characters stand for themselves; within braces a comma would not. -/
def Word.ok (inner : Bool) : Word → Bool
  | .nil => true
  | .char c w =>
    c ∉ ['\x7b', '\x7d', '$', '\'', '"', '\\'] && !(inner && c = ',') && w.ok inner
  | .group a w => a.ok && w.ok inner

def Alts.ok : Alts → Bool
  | .last w => w.ok true
  | .cons w a => w.ok true && a.ok

end

/-- The numbers from one to another, `step` apart. -/
def progression (start stop step : ℤ) : List ℤ :=
  (List.range ((stop - start).natAbs / step.natAbs + 1)).map fun k : ℕ =>
    start + (stop - start).sign * step * k

/-- The values of a sequence, in plain decimals. -/
def endsValues (x y : Text) (step : ℤ) : Option (List Text) :=
  if isInteger x && isInteger y then
    some ((progression (intValue x) (intValue y) step).map ofInt)
  else match letterValue x, letterValue y with
    | some a, some b => some ((progression a b step).map fun v => [Char.ofNat v.toNat])
    | _, _ => none

/-- What a sequence expression stands for: an increment is taken without its sign, and zero for
one. -/
def sequenceValues (s : Text) : Option (List Text) :=
  match splitSep ['.', '.'] s with
  | [x, y] => endsValues x y 1
  | [x, y, d] =>
    if isInteger d then endsValues x y (max 1 (intValue d).natAbs) else none
  | _ => none

/-- Each of the first texts before each of the second. -/
def product (ls ms : List Text) : List Text := ls.flatMap fun l => ms.map fun m => l ++ m

mutual

/-- What the shell expands a word to. -/
def Word.expand : Word → List Text
  | .nil => [[]]
  | .char c w => w.expand.map fun t => c :: t
  | .group a w => product a.expandGroup w.expand

/-- A group of one part that is no sequence keeps its braces. -/
def Alts.expandGroup : Alts → List Text
  | .last w => match sequenceValues w.text with
    | some vs => vs
    | none => w.expand.map fun t => '\x7b' :: t ++ ['\x7d']
  | .cons w a => w.expand ++ a.expandParts

def Alts.expandParts : Alts → List Text
  | .last w => w.expand
  | .cons w a => w.expand ++ a.expandParts

end

mutual

/-- No group of the word expands. -/
def Word.inert : Word → Bool
  | .nil => true
  | .char _ w => w.inert
  | .group a w => a.inert && w.inert

def Alts.inert : Alts → Bool
  | .last w => (sequenceValues w.text).isNone && w.inert
  | .cons _ _ => false

end

mutual

/-- No group that keeps its braces has one in it that expands. -/
def Word.plain : Word → Bool
  | .nil => true
  | .char _ w => w.plain
  | .group a w => a.plainGroup && w.plain

def Alts.plainGroup : Alts → Bool
  | .last w => (sequenceValues w.text).isSome || w.inert
  | .cons w a => w.plain && a.plainParts

def Alts.plainParts : Alts → Bool
  | .last w => w.plain
  | .cons w a => w.plain && a.plainParts

end

example : expandBraces "p-{a,b{1..3},c}{x,y}".toList =
    ["p-ax", "p-ay", "p-b1x", "p-b1y", "p-b2x", "p-b2y", "p-b3x", "p-b3y", "p-cx", "p-cy"].map
      String.toList := by decide +kernel

/-! ## Reading a word -/

section Read

variable {inner : Bool} {c : Char} {s : Text}

theorem plain_of_notMem (h : decide (c ∉ ['\x7b', '\x7d', '$', '\'', '"', '\\']) = true) :
    c ≠ '\x7b' ∧ c ≠ '\x7d' ∧ c ≠ '$' := by
  have hmem := of_decide_eq_true h
  simp only [List.mem_cons, not_or] at hmem
  exact ⟨hmem.1, hmem.2.1, hmem.2.2.1⟩

theorem closeBrace_open (d : ℕ) (s : Text) : closeBrace d ('\x7b' :: s) =
    (closeBrace (d + 1) s).map fun p => ('\x7b' :: p.1, p.2) := by
  rw [closeBrace, if_pos rfl]

theorem closeBrace_close (d : ℕ) (s : Text) : closeBrace (d + 2) ('\x7d' :: s) =
    (closeBrace (d + 1) s).map fun p => ('\x7d' :: p.1, p.2) := by
  rw [closeBrace, if_neg (by decide), if_pos rfl, if_neg (by omega)]
  rfl

theorem closeBrace_char (d : ℕ) (h₁ : c ≠ '\x7b') (h₂ : c ≠ '\x7d') (s : Text) :
    closeBrace d (c :: s) = (closeBrace d s).map fun p => (c :: p.1, p.2) := by
  rw [closeBrace, if_neg h₁, if_neg h₂]

mutual

/-- The braces of a word close each other. -/
theorem Word.closeBrace_text {inner : Bool} (w : Word) (h : w.ok inner = true) (d : ℕ) (s : Text) :
    closeBrace (d + 1) (w.text ++ s) =
      (closeBrace (d + 1) s).map fun p => (w.text ++ p.1, p.2) := by
  match w with
  | .nil => exact Option.map_id'.symm
  | .char c w =>
    rw [Word.ok, Bool.and_eq_true, Bool.and_eq_true] at h
    obtain ⟨h₁, h₂, -⟩ := plain_of_notMem h.1.1
    rw [Word.text, List.cons_append, closeBrace_char _ h₁ h₂, w.closeBrace_text h.2,
      Option.map_map]
    rfl
  | .group a w =>
    rw [Word.ok, Bool.and_eq_true] at h
    rw [Word.text, List.append_assoc, List.cons_append, List.cons_append, closeBrace_open,
      a.closeBrace_text h.1, closeBrace_close, w.closeBrace_text h.2, Option.map_map,
      Option.map_map, Option.map_map]
    simp only [Function.comp_def, List.cons_append, List.append_assoc]

theorem Alts.closeBrace_text (a : Alts) (h : a.ok = true) (d : ℕ) (s : Text) :
    closeBrace (d + 1) (a.text ++ s) =
      (closeBrace (d + 1) s).map fun p => (a.text ++ p.1, p.2) := by
  match a with
  | .last w => exact w.closeBrace_text h d s
  | .cons w a =>
    rw [Alts.ok, Bool.and_eq_true] at h
    rw [Alts.text, List.append_assoc, w.closeBrace_text h.1, List.cons_append,
      closeBrace_char _ (by decide) (by decide), a.closeBrace_text h.2, Option.map_map,
      Option.map_map]
    simp only [Function.comp_def, List.cons_append, List.append_assoc]

end

mutual

/-- No comma of a part is at the top. -/
theorem Word.split_text (w : Word) (h : w.ok true = true) {d : ℤ} (hd : 0 ≤ d) (cur s : Text) :
    splitTopCommasFrom d cur (w.text ++ s) = splitTopCommasFrom d (cur ++ w.text) s := by
  match w with
  | .nil => rw [Word.text, List.nil_append, List.append_nil]
  | .char c w =>
    rw [Word.ok, Bool.and_eq_true, Bool.and_eq_true] at h
    obtain ⟨h₁, h₂, -⟩ := plain_of_notMem h.1.1
    have hcomma : ¬ (c = ',' ∧ d = 0) := by
      rintro ⟨rfl, -⟩
      exact absurd h.1.2 (by decide)
    rw [Word.text, List.cons_append, splitTopCommasFrom, if_neg h₁, if_neg h₂, if_neg hcomma,
      w.split_text h.2 hd, List.append_assoc, List.singleton_append]
  | .group a w =>
    rw [Word.ok, Bool.and_eq_true] at h
    rw [Word.text, List.append_assoc, List.cons_append, List.cons_append, splitTopCommasFrom,
      if_pos rfl, a.split_text h.1 (by omega), splitTopCommasFrom, if_neg (by decide), if_pos rfl,
      w.split_text h.2 (by omega)]
    congr 1
    · omega
    · simp only [List.append_assoc, List.cons_append, List.nil_append]

theorem Alts.split_text (a : Alts) (h : a.ok = true) {d : ℤ} (hd : 0 < d) (cur s : Text) :
    splitTopCommasFrom d cur (a.text ++ s) = splitTopCommasFrom d (cur ++ a.text) s := by
  match a with
  | .last w => exact w.split_text h (Int.le_of_lt hd) cur s
  | .cons w a =>
    rw [Alts.ok, Bool.and_eq_true] at h
    rw [Alts.text, List.append_assoc, w.split_text h.1 (Int.le_of_lt hd), List.cons_append,
      splitTopCommasFrom, if_neg (by decide), if_neg (by decide), if_neg (fun hc => hd.ne' hc.2),
      a.split_text h.2 hd]
    simp only [List.append_assoc, List.cons_append, List.nil_append]

end

/-- The parts of a group as they are written. -/
def Alts.parts : Alts → List Text
  | .last w => [w.text]
  | .cons w a => w.text :: a.parts

theorem Alts.splitTopCommas_text (a : Alts) (h : a.ok = true) :
    splitTopCommas a.text = a.parts := by
  induction a using Alts.rec (motive_1 := fun _ => True) with
  | nil => trivial
  | char => trivial
  | group => trivial
  | last w =>
    have hsplit := w.split_text h (Int.le_refl 0) [] []
    rwa [List.append_nil] at hsplit
  | cons w a _ ih =>
    rw [Alts.ok, Bool.and_eq_true] at h
    rw [splitTopCommas, Alts.text, w.split_text h.1 (Int.le_refl 0), splitTopCommasFrom,
      if_neg (by decide), if_neg (by decide), if_pos ⟨rfl, rfl⟩]
    exact congrArg _ (ih h.2)

end Read

/-! ## Sequences -/

section Sequence

variable {x y s t : Text} {start stop step v : ℤ} {vs : List Text}

theorem progression_up {m k : ℕ} (h : stop - start = m) :
    progression start stop k = (List.range (m / k + 1)).map fun i : ℕ => start + (k : ℤ) * i := by
  rw [progression, h, Int.natAbs_natCast, Int.natAbs_natCast]
  refine List.map_congr_left fun i hi => ?_
  rcases Nat.eq_zero_or_pos m with rfl | hm
  · rw [Nat.zero_div, zero_add, List.mem_range, Nat.lt_one_iff] at hi
    rw [hi, Int.natCast_zero, mul_zero, mul_zero]
  · rw [Int.sign_eq_one_of_pos (Int.natCast_pos.mpr hm), one_mul]

theorem progression_down {m k : ℕ} (h : start - stop = m) (hm : 0 < m) :
    progression start stop k = (List.range (m / k + 1)).map fun i : ℕ => start + -(k : ℤ) * i := by
  have hneg : stop - start = -(m : ℤ) := by omega
  rw [progression, hneg, Int.natAbs_neg, Int.natAbs_natCast, Int.natAbs_natCast, Int.sign_neg,
    Int.sign_eq_one_of_pos (Int.natCast_pos.mpr hm), neg_mul, one_mul]

/-- `range` with its ends moved by one is the progression. -/
theorem sequenceRange_eq (hstep : 0 < step) :
    sequenceRange start stop step = progression start stop step := by
  obtain ⟨k, rfl⟩ := Int.eq_ofNat_of_zero_le (Int.le_of_lt hstep)
  have hk : (k : ℤ) ≠ 0 := (Int.ne_of_lt hstep).symm
  have hcount : ∀ {n : ℤ} {m : ℕ}, n = (m : ℤ) + 1 * k → (n / (k : ℤ)).toNat = m / k + 1 := by
    rintro n m rfl
    rw [Int.add_mul_ediv_right _ _ hk, ← Int.natCast_ediv]
    rfl
  rw [sequenceRange]
  by_cases hle : start ≤ stop
  · obtain ⟨m, hm⟩ := Int.eq_ofNat_of_zero_le (Int.sub_nonneg_of_le hle)
    have hsum : stop + 1 - start + k - 1 = (m : ℤ) + 1 * k := by omega
    rw [if_pos hle, range, if_pos hstep, hcount hsum, progression_up hm]
  · have hlt := Int.le_of_lt (Int.not_le.mp hle)
    obtain ⟨m, hm⟩ := Int.eq_ofNat_of_zero_le (Int.sub_nonneg_of_le hlt)
    have hsum : start - (stop - 1) - -(k : ℤ) - 1 = (m : ℤ) + 1 * k := by omega
    have hneg : -(k : ℤ) < 0 := Int.neg_neg_of_pos hstep
    rw [if_neg hle, range, if_neg (Int.not_lt.mpr (Int.le_of_lt hneg)), if_pos hneg, neg_neg,
      hcount hsum, progression_down hm (by omega)]

theorem expandEnds_eq (hstep : 0 < step) : expandEnds x y step = endsValues x y step := by
  rw [expandEnds, endsValues, sequenceRange_eq hstep]
  split_ifs
  · rfl
  · cases letterValue x with
    | none => rfl
    | some a =>
      cases letterValue y with
      | none => rfl
      | some b => exact congrArg (fun l => some (List.map _ l)) (sequenceRange_eq hstep)

/-- A sequence expression expands to its values. -/
theorem expandSequence_eq (s : Text) : expandSequence s = sequenceValues s := by
  unfold expandSequence sequenceValues
  split
  · exact expandEnds_eq Int.one_pos
  · split_ifs with hd
    · rename_i x y d _
      have hmax : (if ((intValue d).natAbs : ℤ) = 0 then 1 else ((intValue d).natAbs : ℤ)) =
          max 1 ((intValue d).natAbs : ℤ) := by
        split_ifs <;> omega
      dsimp only
      rw [hmax, expandEnds_eq (lt_max_of_lt_left Int.one_pos)]
    · rfl
  · rfl

theorem progression_ne_nil : progression start stop step ≠ [] := by
  intro h
  have hlen := congrArg List.length h
  rw [progression, List.length_map, List.length_range] at hlen
  exact Nat.succ_ne_zero _ hlen

/-- A progression stays between its ends. -/
theorem mem_progression (hstep : 0 < step) (h : v ∈ progression start stop step) :
    min start stop ≤ v ∧ v ≤ max start stop := by
  obtain ⟨k, rfl⟩ := Int.eq_ofNat_of_zero_le (Int.le_of_lt hstep)
  have hbound : ∀ {i m : ℕ}, i ∈ List.range (m / k + 1) → (k : ℤ) * i ≤ m := by
    intro i m hi
    rw [List.mem_range, Nat.lt_succ_iff] at hi
    exact_mod_cast (Nat.mul_le_mul_left k hi).trans (Nat.mul_div_le m k)
  have hnonneg : ∀ i : ℕ, 0 ≤ (k : ℤ) * i := fun i => Int.mul_nonneg (Int.le_of_lt hstep) (by omega)
  by_cases hle : start ≤ stop
  · obtain ⟨m, hm⟩ := Int.eq_ofNat_of_zero_le (Int.sub_nonneg_of_le hle)
    rw [progression_up hm] at h
    obtain ⟨i, hi, rfl⟩ := List.mem_map.mp h
    have := hbound hi
    have := hnonneg i
    omega
  · have hlt := Int.le_of_lt (Int.not_le.mp hle)
    obtain ⟨m, hm⟩ := Int.eq_ofNat_of_zero_le (Int.sub_nonneg_of_le hlt)
    rw [progression_down hm (by omega)] at h
    obtain ⟨i, hi, rfl⟩ := List.mem_map.mp h
    have := hbound hi
    have := hnonneg i
    rw [neg_mul]
    omega

theorem toNat_ofNat {n : ℕ} (h : n.isValidChar) : (Char.ofNat n).toNat = n := by
  rw [Char.ofNat, dif_pos h]
  rfl

theorem letterValue_bounds (h : letterValue s = some v) : 65 ≤ v ∧ v ≤ 122 := by
  unfold letterValue at h
  split at h
  · split_ifs at h with hc
    rename_i c
    obtain rfl := Option.some.inj h
    have hbounds : 65 ≤ c.toNat ∧ c.toNat ≤ 122 := by
      have hc : (c.val ≥ 65 ∧ c.val ≤ 90) ∨ (c.val ≥ 97 ∧ c.val ≤ 122) := by
        rcases (Bool.or_eq_true _ _).mp hc with h | h
        · exact .inl (of_decide_eq_true h)
        · have h := (Bool.and_eq_true _ _).mp h
          exact .inr ⟨of_decide_eq_true h.1, of_decide_eq_true h.2⟩
      rcases hc with ⟨h₁, h₂⟩ | ⟨h₁, h₂⟩
      · exact ⟨UInt32.le_iff_toNat_le.mp h₁,
          (UInt32.le_iff_toNat_le.mp h₂).trans (by decide)⟩
      · exact ⟨(by decide : 65 ≤ 97).trans (UInt32.le_iff_toNat_le.mp h₁),
          UInt32.le_iff_toNat_le.mp h₂⟩
    omega
  · cases h

/-- No value of a sequence has a brace. -/
theorem brace_notMem_of_endsValues (hstep : 0 < step) (h : endsValues x y step = some vs) :
    vs ≠ [] ∧ ∀ t ∈ vs, '\x7b' ∉ t := by
  unfold endsValues at h
  split_ifs at h
  · obtain rfl := Option.some.inj h
    refine ⟨fun hnil => progression_ne_nil (List.map_eq_nil_iff.mp hnil), fun t ht hbrace => ?_⟩
    obtain ⟨v, -, rfl⟩ := List.mem_map.mp ht
    rcases mem_ofInt hbrace with hd | hd
    · exact absurd hd (by decide)
    · exact absurd hd (by decide)
  · split at h
    · rename_i a b ha hb
      obtain rfl := Option.some.inj h
      refine ⟨fun hnil => progression_ne_nil (List.map_eq_nil_iff.mp hnil), fun t ht hbrace => ?_⟩
      obtain ⟨v, hv, rfl⟩ := List.mem_map.mp ht
      have hbounds := mem_progression hstep hv
      have hletters := letterValue_bounds ha
      have hletters' := letterValue_bounds hb
      have hchar := congrArg Char.toNat (List.mem_singleton.mp hbrace)
      rw [@toNat_ofNat v.toNat (.inl (by omega))] at hchar
      have hnat : Char.toNat '\x7b' = 123 := rfl
      omega
    · cases h

theorem brace_notMem_of_sequenceValues (h : sequenceValues s = some vs) :
    vs ≠ [] ∧ ∀ t ∈ vs, '\x7b' ∉ t := by
  unfold sequenceValues at h
  split at h
  · exact brace_notMem_of_endsValues Int.one_pos h
  · split_ifs at h
    exact brace_notMem_of_endsValues (lt_max_of_lt_left Int.one_pos) h
  · cases h

end Sequence

/-! ## The code over a word -/

mutual

/-- What the code expands a word to: a group that keeps its braces is left as it is. -/
def Word.code : Word → List Text
  | .nil => [[]]
  | .char c w => w.code.map fun t => c :: t
  | .group a w => product a.codeGroup w.code

def Alts.codeGroup : Alts → List Text
  | .last w => match sequenceValues w.text with
    | some vs => vs
    | none => ['\x7b' :: w.text ++ ['\x7d']]
  | .cons w a => w.code ++ a.codeParts

def Alts.codeParts : Alts → List Text
  | .last w => w.code
  | .cons w a => w.code ++ a.codeParts

end

section Code

variable {fuel : ℕ} {pre s : Text} {ls ms : List Text}

theorem expandBracesFrom_of_notMem (h : '\x7b' ∉ s) : expandBracesFrom fuel pre s = [pre ++ s] := by
  induction fuel generalizing pre s with
  | zero => rfl
  | succ fuel ih =>
    cases s with
    | nil => rw [expandBracesFrom, List.append_nil]
    | cons c s =>
      rw [List.mem_cons, not_or] at h
      rw [expandBracesFrom, if_neg (Ne.symm h.1), ih h.2, List.append_assoc, List.singleton_append]

theorem groupOptions_last {w : Word} (h : w.ok true = true) :
    groupOptions w.text = (sequenceValues w.text).getD [] := by
  have hparts := (Alts.last w).splitTopCommas_text h
  rw [Alts.text, Alts.parts] at hparts
  rw [groupOptions, hparts, expandSequence_eq]
  rfl

theorem groupOptions_cons {w : Word} {a : Alts} (h : (Alts.cons w a).ok = true) :
    groupOptions (Alts.cons w a).text = w.text :: a.parts := by
  have hlen : 1 < (w.text :: a.parts).length := by
    cases a <;> exact Nat.succ_lt_succ (Nat.succ_pos _)
  rw [groupOptions, (Alts.cons w a).splitTopCommas_text h, Alts.parts]
  exact if_pos hlen

theorem closeBrace_group {a : Alts} (h : a.ok = true) (s : Text) :
    closeBrace 1 (a.text ++ '\x7d' :: s) = some (a.text, s) := by
  rw [a.closeBrace_text h 0, closeBrace, if_neg (by decide), if_pos rfl, if_pos rfl,
    Option.map_some, List.append_nil]

theorem getLast?_nil_ne : ([] : Text).getLast? ≠ some '$' := by decide

theorem map_append_product (pre : Text) (ls ms : List Text) :
    (product ls ms).map (pre ++ ·) = ls.flatMap fun l => ms.map fun m => pre ++ l ++ m := by
  rw [product, List.map_flatMap]
  simp only [List.map_map, Function.comp_def, List.append_assoc]

mutual

/-- **The loop over a word** that is given enough fuel expands it so. -/
theorem Word.expandBracesFrom_text {inner : Bool} (w : Word) (h : w.ok inner = true) {fuel : ℕ}
    (hfuel : w.text.length < fuel) {pre : Text} (hpre : pre.getLast? ≠ some '$') :
    expandBracesFrom fuel pre w.text = w.code.map (pre ++ ·) := by
  obtain ⟨fuel, rfl⟩ := Nat.exists_eq_succ_of_ne_zero (Nat.ne_zero_of_lt hfuel)
  match w with
  | .nil =>
    rw [Word.text, expandBracesFrom, Word.code, List.map_singleton, List.append_nil]
  | .char c w =>
    rw [Word.ok, Bool.and_eq_true, Bool.and_eq_true] at h
    obtain ⟨h₁, -, h₃⟩ := plain_of_notMem h.1.1
    rw [Word.text, List.length_cons] at hfuel
    have hlast : (pre ++ [c]).getLast? ≠ some '$' := by
      rw [List.getLast?_concat]
      exact fun hc => h₃ (Option.some.inj hc)
    rw [Word.text, expandBracesFrom, if_neg h₁, w.expandBracesFrom_text h.2 (by omega) hlast,
      Word.code, List.map_map]
    simp only [Function.comp_def, List.append_assoc, List.singleton_append]
  | .group a w =>
    rw [Word.ok, Bool.and_eq_true] at h
    rw [Word.text, List.length_append, List.length_cons, List.length_cons] at hfuel
    have hw := fun (pre : Text) (hp : pre.getLast? ≠ some '$') =>
      w.expandBracesFrom_text h.2 (by omega : w.text.length < fuel) hp
    rw [Word.text, List.cons_append, expandBracesFrom, if_pos rfl, closeBrace_group h.1]
    dsimp only
    rw [if_neg hpre]
    match a with
    | .last w' =>
      have hopts := groupOptions_last h.1
      rw [Alts.text, hopts, Word.code, Alts.codeGroup]
      cases hseq : sequenceValues w'.text with
      | none =>
        have hlast : (pre ++ '\x7b' :: w'.text ++ ['\x7d']).getLast? ≠ some '$' := by
          rw [List.getLast?_concat]
          decide
        rw [Option.getD_none, if_pos rfl, hw _ hlast, map_append_product, List.flatMap_singleton]
        simp only [List.append_assoc, List.cons_append]
      | some vs =>
        obtain ⟨hne, hvs⟩ := brace_notMem_of_sequenceValues hseq
        rw [Option.getD_some, if_neg hne, map_append_product, hw [] getLast?_nil_ne]
        refine List.flatMap_congr fun t ht => ?_
        rw [expandBracesFrom_of_notMem (hvs t ht), List.flatMap_singleton, List.map_map]
        rfl
    | .cons w' a =>
      have hparts := (Alts.cons w' a).expandBracesFrom_parts h.1 (by omega : _ < fuel)
      have hcode : (Alts.cons w' a).codeGroup = (Alts.cons w' a).codeParts := by
        rw [Alts.codeGroup, Alts.codeParts]
      rw [groupOptions_cons h.1, if_neg (List.cons_ne_nil _ _), Word.code, map_append_product,
        hcode, ← hparts, Alts.parts, List.flatMap_assoc, hw [] getLast?_nil_ne]
      simp only [List.nil_append, List.map_id']

/-- The parts of a group, one after the other. -/
theorem Alts.expandBracesFrom_parts (a : Alts) (h : a.ok = true) {fuel : ℕ}
    (hfuel : a.text.length < fuel) :
    a.parts.flatMap (expandBracesFrom fuel []) = a.codeParts := by
  match a with
  | .last w =>
    rw [Alts.parts, List.flatMap_singleton, w.expandBracesFrom_text h hfuel getLast?_nil_ne,
      Alts.codeParts]
    exact List.map_id _
  | .cons w a =>
    rw [Alts.ok, Bool.and_eq_true] at h
    rw [Alts.text, List.length_append, List.length_cons] at hfuel
    rw [Alts.parts, List.flatMap_cons, w.expandBracesFrom_text h.1 (by omega) getLast?_nil_ne,
      a.expandBracesFrom_parts h.2 (by omega), Alts.codeParts]
    exact congrArg (· ++ _) (List.map_id _)

end

end Code

/-! ## How many texts, and how many braces -/

section Below

variable {ls ms ls' ms' : List Text} {m n k : ℕ}

/-- The braces of some texts. -/
def braces : List Text → ℕ
  | [] => 0
  | t :: ls => t.count '\x7b' + braces ls

/-- The second texts are more, or as many with fewer braces, by `n` at least. -/
structure Below (n : ℕ) (ls ms : List Text) : Prop where
  length : ls.length ≤ ms.length
  braces : ls.length = ms.length → braces ms + n ≤ braces ls

theorem Below.ne (h : Below (n + 1) ls ms) : ls ≠ ms := by
  rintro rfl
  have := h.braces rfl
  omega

theorem Below.refl (ls : List Text) : Below 0 ls ls := ⟨le_rfl, fun _ => le_rfl⟩

theorem Below.mono (h : Below n ls ms) (hmn : m ≤ n) : Below m ls ms :=
  ⟨h.length, fun hlen => (Nat.add_le_add_left hmn _).trans (h.braces hlen)⟩

theorem braces_append (ls ms : List Text) : braces (ls ++ ms) = braces ls + braces ms := by
  induction ls with
  | nil => exact (Nat.zero_add _).symm
  | cons t ls ih => rw [List.cons_append, braces, braces, ih, add_assoc]

theorem braces_map {f : Text → Text} (hf : ∀ t, (f t).count '\x7b' = t.count '\x7b' + k)
    (ls : List Text) : braces (ls.map f) = braces ls + k * ls.length := by
  induction ls with
  | nil => rfl
  | cons t ls ih => rw [List.map_cons, braces, braces, ih, hf, List.length_cons]; ring

theorem length_product (ls ms : List Text) : (product ls ms).length = ls.length * ms.length := by
  induction ls with
  | nil => rw [product, List.flatMap_nil, List.length_nil, Nat.zero_mul]
  | cons l ls ih =>
    rw [product, List.flatMap_cons, List.length_append, List.length_map, ← product, ih,
      List.length_cons]
    ring

theorem braces_product (ls ms : List Text) :
    braces (product ls ms) = ms.length * braces ls + ls.length * braces ms := by
  induction ls with
  | nil => rw [product, List.flatMap_nil, braces, List.length_nil, mul_zero, zero_mul,
    add_zero]
  | cons l ls ih =>
    have hl : ∀ t : Text, (l ++ t).count '\x7b' = t.count '\x7b' + l.count '\x7b' := fun t => by
      rw [List.count_append, add_comm]
    rw [product, List.flatMap_cons, braces_append, braces_map hl, ← product, ih, braces,
      List.length_cons]
    ring

theorem Below.map {f : Text → Text} (h : Below n ls ms)
    (hf : ∀ t, (f t).count '\x7b' = t.count '\x7b' + k) : Below n (ls.map f) (ms.map f) := by
  refine ⟨by rw [List.length_map, List.length_map]; exact h.length, fun hlen => ?_⟩
  rw [List.length_map, List.length_map] at hlen
  have := h.braces hlen
  rw [braces_map hf, braces_map hf, hlen]
  omega

theorem Below.append (h : Below m ls ls') (h' : Below n ms ms') :
    Below (m + n) (ls ++ ms) (ls' ++ ms') := by
  have hl := h.length
  have hm := h'.length
  refine ⟨by rw [List.length_append, List.length_append]; omega, fun hlen => ?_⟩
  rw [List.length_append, List.length_append] at hlen
  have := h.braces (by omega)
  have := h'.braces (by omega)
  rw [braces_append, braces_append]
  omega

theorem Below.product (h : Below m ls ls') (h' : Below n ms ms') (hls : ls ≠ []) (hms : ms ≠ []) :
    Below (m + n) (product ls ms) (product ls' ms') := by
  have hl := h.length
  have hm := h'.length
  have hlpos := List.length_pos_of_ne_nil hls
  have hmpos := List.length_pos_of_ne_nil hms
  refine ⟨by rw [length_product, length_product]; exact Nat.mul_le_mul hl hm, fun hlen => ?_⟩
  rw [length_product, length_product] at hlen
  have hleq : ls.length = ls'.length := by
    refine (hl.lt_or_eq).resolve_left fun hlt => hlen.not_lt ?_
    exact (Nat.mul_lt_mul_of_pos_right hlt hmpos).trans_le (Nat.mul_le_mul_left _ hm)
  have hmeq : ms.length = ms'.length := by
    rw [hleq] at hlen hlpos
    exact Nat.eq_of_mul_eq_mul_left hlpos hlen
  have hls' := Nat.mul_le_mul_left ms.length (h.braces hleq)
  have hms' := Nat.mul_le_mul_left ls.length (h'.braces hmeq)
  have hmle := Nat.le_mul_of_pos_left m hmpos
  have hnle := Nat.le_mul_of_pos_left n hlpos
  rw [Nat.mul_add] at hls' hms'
  rw [braces_product, braces_product, ← hleq, ← hmeq]
  omega

end Below

/-! ## The code and the shell -/

theorem product_ne_nil {ls ms : List Text} (hls : ls ≠ []) (hms : ms ≠ []) :
    product ls ms ≠ [] := by
  intro h
  have hlen := length_product ls ms
  rw [h, List.length_nil] at hlen
  have hl := List.length_pos_of_ne_nil hls
  have hm := List.length_pos_of_ne_nil hms
  exact absurd hlen (Nat.mul_pos hl hm).ne

mutual

theorem Word.expand_ne_nil (w : Word) : w.expand ≠ [] := by
  match w with
  | .nil =>
    rw [Word.expand]
    exact List.cons_ne_nil _ _
  | .char c w =>
    rw [Word.expand]
    exact fun h => w.expand_ne_nil (List.map_eq_nil_iff.mp h)
  | .group a w =>
    rw [Word.expand]
    exact product_ne_nil a.expandGroup_ne_nil w.expand_ne_nil

theorem Alts.expandGroup_ne_nil (a : Alts) : a.expandGroup ≠ [] := by
  match a with
  | .last w =>
    rw [Alts.expandGroup]
    split
    · rename_i vs h
      exact (brace_notMem_of_sequenceValues h).1
    · exact fun h => w.expand_ne_nil (List.map_eq_nil_iff.mp h)
  | .cons w a =>
    rw [Alts.expandGroup]
    exact List.append_ne_nil_of_left_ne_nil w.expand_ne_nil _

end

theorem Alts.expandParts_ne_nil (a : Alts) : a.expandParts ≠ [] := by
  cases a with
  | last w =>
    rw [Alts.expandParts]
    exact w.expand_ne_nil
  | cons w a =>
    rw [Alts.expandParts]
    exact List.append_ne_nil_of_left_ne_nil w.expand_ne_nil _

/-- A group as it is written. -/
def Alts.braced (a : Alts) : Text := '\x7b' :: a.text ++ ['\x7d']

/-- One, when a property fails. -/
def gap (b : Bool) : ℕ := if b then 0 else 1

theorem gap_and_le (a b : Bool) : gap (a && b) ≤ gap a + gap b := by
  cases a <;> cases b <;> decide

theorem braces_eq_zero {ls : List Text} (h : ∀ t ∈ ls, '\x7b' ∉ t) : braces ls = 0 := by
  induction ls with
  | nil => rfl
  | cons t ls ih =>
    rw [braces, List.count_eq_zero_of_not_mem (h t List.mem_cons_self),
      ih fun t ht => h t (List.mem_cons_of_mem _ ht)]

theorem product_singleton (s t : Text) : product [s] [t] = [s ++ t] := rfl

theorem count_braced (t : Text) :
    ('\x7b' :: t ++ ['\x7d']).count '\x7b' = t.count '\x7b' + 1 := by
  rw [List.count_append, List.count_cons_self]
  rfl

mutual

/-- A word in which no group expands stands for itself; any other stands for more, or for fewer
braces. -/
theorem Word.inert_spec (w : Word) : (w.inert = true → w.expand = [w.text]) ∧
    Below (gap w.inert) [w.text] w.expand := by
  match w with
  | .nil => exact ⟨fun _ => rfl, Below.refl _⟩
  | .char c w =>
    obtain ⟨heq, hbelow⟩ := w.inert_spec
    rw [Word.inert, Word.expand, Word.text]
    refine ⟨fun h => by rw [heq h]; rfl, ?_⟩
    have hcount : ∀ t : Text, (c :: t).count '\x7b' = t.count '\x7b' + [c].count '\x7b' :=
      fun t => by rw [← List.singleton_append, List.count_append, add_comm]
    exact hbelow.map hcount
  | .group a w =>
    obtain ⟨haeq, habelow⟩ := a.inert_spec
    obtain ⟨hweq, hwbelow⟩ := w.inert_spec
    have htext : [(Word.group a w).text] = product [a.braced] [w.text] := by
      rw [product_singleton, Alts.braced, Word.text, List.append_assoc]
      rfl
    rw [htext, Word.inert, Word.expand]
    refine ⟨fun h => ?_, ?_⟩
    · rw [Bool.and_eq_true] at h
      rw [haeq h.1, hweq h.2]
    · exact (habelow.product hwbelow (List.cons_ne_nil _ _) (List.cons_ne_nil _ _)).mono
        (gap_and_le _ _)

theorem Alts.inert_spec (a : Alts) : (a.inert = true → a.expandGroup = [a.braced]) ∧
    Below (gap a.inert) [a.braced] a.expandGroup := by
  match a with
  | .last w =>
    obtain ⟨heq, hbelow⟩ := w.inert_spec
    rw [Alts.inert, Alts.expandGroup, Alts.braced, Alts.text]
    cases hseq : sequenceValues w.text with
    | none =>
      dsimp only
      refine ⟨fun h => by rw [heq h]; rfl, hbelow.map count_braced⟩
    | some vs =>
      obtain ⟨hne, hvs⟩ := brace_notMem_of_sequenceValues hseq
      refine ⟨nofun, List.length_pos_of_ne_nil hne, fun _ => ?_⟩
      dsimp only
      rw [braces_eq_zero hvs, braces, count_braced]
      exact Nat.succ_le_succ (Nat.zero_le _)
  | .cons w a =>
    rw [Alts.expandGroup]
    have hlen : 2 ≤ (w.expand ++ a.expandParts).length := by
      rw [List.length_append]
      exact Nat.add_le_add (List.length_pos_of_ne_nil w.expand_ne_nil)
        (List.length_pos_of_ne_nil a.expandParts_ne_nil)
    refine ⟨nofun, Nat.le_of_succ_le hlen, fun h => ?_⟩
    rw [← h] at hlen
    exact absurd hlen (Nat.not_succ_le_self 1)

end

mutual

theorem Word.code_ne_nil (w : Word) : w.code ≠ [] := by
  match w with
  | .nil =>
    rw [Word.code]
    exact List.cons_ne_nil _ _
  | .char c w =>
    rw [Word.code]
    exact fun h => w.code_ne_nil (List.map_eq_nil_iff.mp h)
  | .group a w =>
    rw [Word.code]
    exact product_ne_nil a.codeGroup_ne_nil w.code_ne_nil

theorem Alts.codeGroup_ne_nil (a : Alts) : a.codeGroup ≠ [] := by
  match a with
  | .last w =>
    rw [Alts.codeGroup]
    split
    · rename_i vs h
      exact (brace_notMem_of_sequenceValues h).1
    · exact List.cons_ne_nil _ _
  | .cons w a =>
    rw [Alts.codeGroup]
    exact List.append_ne_nil_of_left_ne_nil w.code_ne_nil _

end

mutual

/-- The code makes of a plain word what the shell does, and of any other fewer texts or more
braces. -/
theorem Word.code_spec (w : Word) : (w.plain = true → w.code = w.expand) ∧
    Below (gap w.plain) w.code w.expand := by
  match w with
  | .nil => exact ⟨fun _ => rfl, Below.refl _⟩
  | .char c w =>
    obtain ⟨heq, hbelow⟩ := w.code_spec
    rw [Word.plain, Word.expand, Word.code]
    refine ⟨fun h => by rw [heq h], ?_⟩
    have hcount : ∀ t : Text, (c :: t).count '\x7b' = t.count '\x7b' + [c].count '\x7b' :=
      fun t => by rw [← List.singleton_append, List.count_append, add_comm]
    exact hbelow.map hcount
  | .group a w =>
    obtain ⟨haeq, habelow⟩ := a.codeGroup_spec
    obtain ⟨hweq, hwbelow⟩ := w.code_spec
    rw [Word.plain, Word.expand, Word.code]
    refine ⟨fun h => ?_, ?_⟩
    · rw [Bool.and_eq_true] at h
      rw [haeq h.1, hweq h.2]
    · exact (habelow.product hwbelow a.codeGroup_ne_nil w.code_ne_nil).mono (gap_and_le _ _)

theorem Alts.codeGroup_spec (a : Alts) : (a.plainGroup = true → a.codeGroup = a.expandGroup) ∧
    Below (gap a.plainGroup) a.codeGroup a.expandGroup := by
  match a with
  | .last w =>
    obtain ⟨heq, hbelow⟩ := w.inert_spec
    rw [Alts.plainGroup, Alts.codeGroup, Alts.expandGroup]
    cases hseq : sequenceValues w.text with
    | none =>
      rw [Option.isSome_none, Bool.false_or]
      exact ⟨fun h => by rw [heq h]; rfl, hbelow.map count_braced⟩
    | some vs => exact ⟨fun _ => rfl, Below.refl _⟩
  | .cons w a =>
    obtain ⟨hweq, hwbelow⟩ := w.code_spec
    obtain ⟨haeq, habelow⟩ := a.codeParts_spec
    rw [Alts.plainGroup, Alts.codeGroup, Alts.expandGroup]
    refine ⟨fun h => ?_, (hwbelow.append habelow).mono (gap_and_le _ _)⟩
    rw [Bool.and_eq_true] at h
    rw [hweq h.1, haeq h.2]

theorem Alts.codeParts_spec (a : Alts) : (a.plainParts = true → a.codeParts = a.expandParts) ∧
    Below (gap a.plainParts) a.codeParts a.expandParts := by
  match a with
  | .last w => exact w.code_spec
  | .cons w a =>
    obtain ⟨hweq, hwbelow⟩ := w.code_spec
    obtain ⟨haeq, habelow⟩ := a.codeParts_spec
    rw [Alts.plainParts, Alts.codeParts, Alts.expandParts]
    refine ⟨fun h => ?_, (hwbelow.append habelow).mono (gap_and_le _ _)⟩
    rw [Bool.and_eq_true] at h
    rw [hweq h.1, haeq h.2]

end

/-- Every word expands to the same texts whatever fuel beyond its length is given. -/
theorem Word.expandBraces_text {w : Word} (h : w.ok false = true) {fuel : ℕ}
    (hfuel : w.text.length < fuel) : expandBracesFrom fuel [] w.text = w.code :=
  (w.expandBracesFrom_text h hfuel getLast?_nil_ne).trans (List.map_id _)

/-! ## Balanced tokens -/

/-- The braces of a text are balanced, after `depth` open ones. -/
def balancedFrom : ℕ → Text → Bool
  | depth, [] => depth = 0
  | depth, c :: s =>
    if c = '\x7b' then balancedFrom (depth + 1) s
    else if c = '\x7d' then 0 < depth && balancedFrom (depth - 1) s
    else balancedFrom depth s

/-- A brace-balanced token without `$`, quotes or backslashes. -/
structure Balanced (token : Text) : Prop where
  balanced : balancedFrom 0 token = true
  plain : ∀ c ∈ token, c ∉ ['$', '\'', '"', '\\']

theorem balanced_of_all {token : Text} (h : balancedFrom 0 token = true)
    (hp : token.all (fun c => c ≠ '$' && c ≠ '\'' && c ≠ '"' && c ≠ '\\') = true) :
    Balanced token := by
  refine ⟨h, fun c hc => ?_⟩
  have hc := List.all_eq_true.mp hp c hc
  simp only [Bool.and_eq_true, decide_eq_true_iff, List.mem_cons, List.not_mem_nil, or_false,
    not_or] at hc ⊢
  exact ⟨hc.1.1.1, hc.1.1.2, hc.1.2, hc.2⟩

/-- The group with something before its first part. -/
def Alts.mapHead (f : Word → Word) : Alts → Alts
  | .last w => .last (f w)
  | .cons w a => .cons (f w) a

theorem Alts.ok_mapHead {f : Word → Word} (hf : ∀ w, w.ok true = true → (f w).ok true = true)
    {a : Alts} (h : a.ok = true) : (a.mapHead f).ok = true := by
  cases a with
  | last w => exact hf w h
  | cons w a =>
    rw [Alts.ok, Bool.and_eq_true] at h
    rw [Alts.mapHead, Alts.ok, Bool.and_eq_true]
    exact ⟨hf w h.1, h.2⟩

theorem Alts.text_mapHead {f : Word → Word} {t : Text} (hf : ∀ w, (f w).text = t ++ w.text)
    (a : Alts) : (a.mapHead f).text = t ++ a.text := by
  cases a with
  | last w => exact hf w
  | cons w a => rw [Alts.mapHead, Alts.text, Alts.text, hf, List.append_assoc]

theorem ok_char {c : Char} (h : c ∉ ['$', '\'', '"', '\\']) (h₁ : c ≠ '\x7b') (h₂ : c ≠ '\x7d') :
    decide (c ∉ ['\x7b', '\x7d', '$', '\'', '"', '\\']) = true := by
  refine decide_eq_true fun hmem => ?_
  rcases List.mem_cons.mp hmem with hc | hmem
  · exact h₁ hc
  · rcases List.mem_cons.mp hmem with hc | hmem
    · exact h₂ hc
    · exact h hmem

/-- What follows an open brace is a group up to the brace that closes it. -/
theorem exists_alts {n depth : ℕ} {s : Text} (hn : s.length ≤ n)
    (h : balancedFrom (depth + 1) s = true) (hs : ∀ c ∈ s, c ∉ ['$', '\'', '"', '\\']) :
    ∃ a rest, Alts.ok a = true ∧ s = a.text ++ '\x7d' :: rest ∧
      balancedFrom depth rest = true := by
  induction n generalizing depth s with
  | zero =>
    rw [List.length_eq_zero_iff.mp (Nat.le_zero.mp hn), balancedFrom] at h
    exact absurd (of_decide_eq_true h) (Nat.succ_ne_zero depth)
  | succ n ih =>
    cases s with
    | nil =>
      rw [balancedFrom] at h
      exact absurd (of_decide_eq_true h) (Nat.succ_ne_zero depth)
    | cons c s =>
      rw [List.length_cons, Nat.succ_le_succ_iff] at hn
      have hrest := fun c hc => hs c (List.mem_cons_of_mem _ hc)
      rw [balancedFrom] at h
      by_cases h₁ : c = '\x7b'
      · rw [if_pos h₁] at h
        obtain ⟨a, rest, ha, rfl, hb⟩ := ih hn h hrest
        have hlen : rest.length ≤ n := by
          rw [List.length_append, List.length_cons] at hn
          omega
        obtain ⟨a', rest', ha', rfl, hb'⟩ := ih hlen hb fun c hc =>
          hrest c (List.mem_append_right _ (List.mem_cons_of_mem _ hc))
        refine ⟨a'.mapHead (.group a), rest', a'.ok_mapHead (fun w hw => ?_) ha', ?_, hb'⟩
        · rw [Word.ok, ha, hw]
          rfl
        · rw [h₁, a'.text_mapHead (t := a.braced) fun w => ?_]
          · simp only [Alts.braced, List.append_assoc, List.cons_append, List.nil_append]
          · simp only [Word.text, Alts.braced, List.append_assoc, List.cons_append, List.nil_append]
      · rw [if_neg h₁] at h
        by_cases h₂ : c = '\x7d'
        · rw [if_pos h₂, Bool.and_eq_true] at h
          exact ⟨.last .nil, s, rfl, by rw [h₂]; rfl, h.2⟩
        · rw [if_neg h₂] at h
          obtain ⟨a, rest, ha, rfl, hb⟩ := ih hn h hrest
          by_cases h₃ : c = ','
          · refine ⟨.cons .nil a, rest, ?_, by rw [h₃]; rfl, hb⟩
            rw [Alts.ok, ha]
            rfl
          · refine ⟨a.mapHead (.char c), rest, a.ok_mapHead (fun w hw => ?_) ha, ?_, hb⟩
            · rw [Word.ok, ok_char (hs c List.mem_cons_self) h₁ h₂, hw, decide_eq_false h₃]
              rfl
            · rw [a.text_mapHead (t := [c]) fun w => rfl]
              rfl

/-- Every balanced token is a word. -/
theorem exists_word {n : ℕ} {s : Text} (hn : s.length ≤ n) (h : balancedFrom 0 s = true)
    (hs : ∀ c ∈ s, c ∉ ['$', '\'', '"', '\\']) : ∃ w : Word, w.ok false = true ∧ w.text = s := by
  induction n generalizing s with
  | zero => exact ⟨.nil, rfl, (List.length_eq_zero_iff.mp (Nat.le_zero.mp hn)).symm⟩
  | succ n ih =>
    cases s with
    | nil => exact ⟨.nil, rfl, rfl⟩
    | cons c s =>
      rw [List.length_cons, Nat.succ_le_succ_iff] at hn
      have hrest := fun c hc => hs c (List.mem_cons_of_mem _ hc)
      rw [balancedFrom] at h
      by_cases h₁ : c = '\x7b'
      · rw [if_pos h₁] at h
        obtain ⟨a, rest, ha, rfl, hb⟩ := exists_alts hn h hrest
        have hlen : rest.length ≤ n := by
          rw [List.length_append, List.length_cons] at hn
          omega
        obtain ⟨w, hw, rfl⟩ := ih hlen hb fun c hc =>
          hrest c (List.mem_append_right _ (List.mem_cons_of_mem _ hc))
        refine ⟨.group a w, by rw [Word.ok, ha, hw]; rfl, by rw [h₁, Word.text]; rfl⟩
      · rw [if_neg h₁] at h
        by_cases h₂ : c = '\x7d'
        · rw [if_pos h₂] at h
          cases h
        · rw [if_neg h₂] at h
          obtain ⟨w, hw, rfl⟩ := ih hn h hrest
          refine ⟨.char c w, ?_, rfl⟩
          rw [Word.ok, ok_char (hs c List.mem_cons_self) h₁ h₂, hw]
          rfl

theorem Alts.parts_ne_nil (a : Alts) : a.parts ≠ [] := by
  cases a <;> exact List.cons_ne_nil _ _

mutual

/-- A token is read in one way. -/
theorem Word.text_inj {inner : Bool} (w w' : Word) (h : w.ok inner = true)
    (h' : w'.ok inner = true) (ht : w.text = w'.text) : w = w' := by
  match w, w' with
  | .nil, .nil => rfl
  | .nil, .char c w' => cases ht
  | .nil, .group a' w' => cases ht
  | .char c w, .nil => cases ht
  | .group a w, .nil => cases ht
  | .char c w, .char c' w' =>
    rw [Word.ok, Bool.and_eq_true] at h h'
    obtain ⟨rfl, htail⟩ := List.cons.inj ht
    rw [w.text_inj w' h.2 h'.2 htail]
  | .char c w, .group a' w' =>
    rw [Word.ok, Bool.and_eq_true, Bool.and_eq_true] at h
    exact absurd (List.cons.inj ht).1 (plain_of_notMem h.1.1).1
  | .group a w, .char c' w' =>
    rw [Word.ok, Bool.and_eq_true, Bool.and_eq_true] at h'
    exact absurd (List.cons.inj ht).1.symm (plain_of_notMem h'.1.1).1
  | .group a w, .group a' w' =>
    rw [Word.ok, Bool.and_eq_true] at h h'
    have hclose := congrArg (closeBrace 1) (List.cons.inj ht).2
    rw [List.append_eq, List.append_eq, closeBrace_group h.1, closeBrace_group h'.1] at hclose
    obtain ⟨ha, hw⟩ := Prod.mk.inj (Option.some.inj hclose)
    have hparts := congrArg splitTopCommas ha
    rw [a.splitTopCommas_text h.1, a'.splitTopCommas_text h'.1] at hparts
    rw [a.parts_inj a' h.1 h'.1 hparts, w.text_inj w' h.2 h'.2 hw]

theorem Alts.parts_inj (a a' : Alts) (h : a.ok = true) (h' : a'.ok = true)
    (hp : a.parts = a'.parts) : a = a' := by
  match a, a' with
  | .last w, .last w' => rw [w.text_inj w' h h' (List.cons.inj hp).1]
  | .last w, .cons w' a' => exact absurd (List.cons.inj hp).2.symm a'.parts_ne_nil
  | .cons w a, .last w' => exact absurd (List.cons.inj hp).2 a.parts_ne_nil
  | .cons w a, .cons w' a' =>
    rw [Alts.ok, Bool.and_eq_true] at h h'
    obtain ⟨hw, ha⟩ := List.cons.inj hp
    rw [w.text_inj w' h.1 h'.1 hw, a.parts_inj a' h.2 h'.2 ha]

end

/-- The shell reads the token as the word. -/
structure Word.Reads (w : Word) (token : Text) : Prop where
  ok : w.ok false = true
  text : w.text = token

/-- **A balanced token, which is read as one word, is expanded as the shell expands it exactly where
no group that keeps its braces has one in it that expands**, and the expansion ends. -/
theorem expandBraces_iff {token : Text} (h : Balanced token) : (∃! w : Word, w.Reads token) ∧
    ∀ w : Word, w.Reads token →
      (∀ fuel, token.length < fuel → expandBracesFrom fuel [] token = expandBraces token) ∧
      (expandBraces token = w.expand ↔ w.plain = true) := by
  refine ⟨?_, fun w ⟨hok, htext⟩ => ?_⟩
  · obtain ⟨w, hok, htext⟩ := exists_word le_rfl h.balanced h.plain
    exact ⟨w, ⟨hok, htext⟩, fun w' h' => w'.text_inj w h'.ok hok (h'.text.trans htext.symm)⟩
  · subst htext
    have hcode := w.expandBraces_text hok (Nat.lt_succ_self _)
    refine ⟨fun fuel hfuel => (w.expandBraces_text hok hfuel).trans hcode.symm, ?_⟩
    rw [expandBraces, hcode]
    obtain ⟨heq, hbelow⟩ := w.code_spec
    refine ⟨fun hexpand => ?_, heq⟩
    by_contra hplain
    rw [Bool.eq_false_iff.mpr hplain] at hbelow
    exact hbelow.ne hexpand

/-- `lib{x,y{1..2}}`. -/
def nestedToken : Text := "lib\x7bx,y\x7b1..2\x7d\x7d".toList

theorem expandBraces_iff_nested : (∃! w : Word, w.Reads nestedToken) ∧
    ∀ w : Word, w.Reads nestedToken →
      (∀ fuel, nestedToken.length < fuel →
        expandBracesFrom fuel [] nestedToken = expandBraces nestedToken) ∧
      (expandBraces nestedToken = w.expand ↔ w.plain = true) :=
  expandBraces_iff (balanced_of_all (by decide) (by decide))

/-- `{a{b,c}}`. -/
def literalGroup : Word :=
  .group (.last (.char 'a' (.group (.cons (.char 'b' .nil) (.last (.char 'c' .nil))) .nil))) .nil

/-- The group in the braces that stay is not expanded. -/
theorem not_expandBraces_literal : Balanced literalGroup.text ∧
    literalGroup.Reads literalGroup.text ∧
    expandBraces literalGroup.text = ["\x7ba\x7bb,c\x7d\x7d".toList] ∧
    literalGroup.expand = ["\x7bab\x7d".toList, "\x7bac\x7d".toList] :=
  ⟨balanced_of_all (by decide) (by decide), ⟨by decide, rfl⟩, by decide, by decide⟩

end Sysforge.Pkgbuild
