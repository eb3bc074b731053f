import Mathlib.Data.Char
import Mathlib.Data.List.Forall2
import Mathlib.Data.List.TakeWhile
import Sysforge.Foundations.Comparison
import Sysforge.Foundations.Text

/-!
# Comparing versions

`vercmp_local` splits two versions at the epoch and the release and compares part by part with
`_rpmvercmp`, which goes along two texts segment by segment. `vercmpLocal_order` says that this is
an order: a part is its list of segments in a lexicographic order that puts the end of a part above
a letter that follows at once and below everything else.
-/

namespace Sysforge.Version

open Comparison

/-! ## The code -/

/-- `_is_digit`. -/
def isDigit (c : Char) : Bool := '0' ≤ c && c ≤ '9'

/-- `_is_alpha`. -/
def isAlpha (c : Char) : Bool := ('a' ≤ c && c ≤ 'z') || ('A' ≤ c && c ≤ 'Z')

/-- What `_rpmvercmp` skips. -/
def isSeparator (c : Char) : Bool := !(isDigit c || isAlpha c)

/-- `_is_alpha` of the first character, of which an empty text has none. -/
def startsAlpha (s : Text) : Bool := s.head?.any isAlpha

/-- `_is_digit` of the first character. -/
def startsDigit (s : Text) : Bool := s.head?.any isDigit

/-- The end of `_rpmvercmp`, where one text is used up. -/
def leftover (a b : Text) : ℤ :=
  if a = [] ∧ b = [] then 0
  else if (a = [] ∧ ¬startsAlpha b) ∨ startsAlpha a then -1 else 1

/-- `seg.lstrip("0")`. -/
def lstripZeros (s : Text) : Text := s.dropWhile fun c => c = '0'

/-- Two segments of one kind, or 0. -/
def compareSegments (isnum : Bool) (segA segB : Text) : ℤ :=
  let segA := if isnum then lstripZeros segA else segA
  let segB := if isnum then lstripZeros segB else segB
  if isnum ∧ segA.length ≠ segB.length then if segA.length > segB.length then 1 else -1
  else if segA ≠ segB then if segA > segB then 1 else -1
  else 0

/-- `same_kind`, from the first character that is no separator. -/
def kindOf (s : Text) : Char → Bool := if startsDigit s then isDigit else isAlpha

/-- A character that is no separator is of its own kind. -/
theorem kindOf_cons {c : Char} (h : isSeparator c = false) (s : Text) :
    kindOf (c :: s) c = true := by
  rw [isSeparator, Bool.not_eq_false', Bool.or_eq_true] at h
  rw [kindOf, startsDigit, List.head?_cons, Option.any_some]
  split_ifs with hdigit
  · exact hdigit
  · exact h.resolve_left hdigit

/-- A segment takes at least one character. -/
theorem length_rest_lt {s : Text} (h : s.dropWhile isSeparator ≠ []) :
    ((s.dropWhile isSeparator).dropWhile (kindOf (s.dropWhile isSeparator))).length < s.length := by
  have hsep : (s.dropWhile isSeparator).length ≤ s.length := List.length_dropWhile_le _ _
  have hhead := List.head?_dropWhile_not isSeparator s
  obtain ⟨c, rest, hrest⟩ := List.exists_cons_of_ne_nil h
  rw [hrest] at hhead hsep ⊢
  rw [List.dropWhile_cons_of_pos (kindOf_cons hhead rest)]
  exact Nat.lt_of_le_of_lt (List.length_dropWhile_le _ _) hsep

/-- The loop of `_rpmvercmp`. -/
def rpmLoop (a b : Text) : ℤ :=
  if a = [] ∨ b = [] then leftover a b
  else
    let i := a.dropWhile isSeparator
    let j := b.dropWhile isSeparator
    if i = [] ∨ j = [] then leftover i j
    else
      let sepA := (a.takeWhile isSeparator).length
      let sepB := (b.takeWhile isSeparator).length
      if sepA ≠ sepB then if sepA < sepB then -1 else 1
      else
        let isnum := startsDigit i
        let sameKind := kindOf i
        let segA := i.takeWhile sameKind
        let segB := j.takeWhile sameKind
        if segB = [] then if isnum then 1 else -1
        else if compareSegments isnum segA segB ≠ 0 then compareSegments isnum segA segB
        else rpmLoop (i.dropWhile sameKind) (j.dropWhile sameKind)
termination_by a.length
decreasing_by exact length_rest_lt fun h => ‹¬(i = [] ∨ j = [])› (.inl h)

/-- `_rpmvercmp`. -/
def rpmvercmp (a b : Text) : ℤ := if a = b then 0 else rpmLoop a b

/-- `head.isdigit() and head.isascii()`. -/
def isEpoch (head : Text) : Bool := head ≠ [] && head.all isDigit

/-- `ver.partition(":")`: what stands before and after the first colon. -/
def partitionColon (ver : Text) : Option (Text × Text) :=
  match ver.dropWhile fun c => c ≠ ':' with
  | [] => none
  | _ :: rest => some (ver.takeWhile (fun c => c ≠ ':'), rest)

/-- `ver.rpartition("-")`: what stands before and after the last hyphen. -/
def rpartitionHyphen (ver : Text) : Option (Text × Text) :=
  match ver.reverse.dropWhile fun c => c ≠ '-' with
  | [] => none
  | _ :: rest => some (rest.reverse, (ver.reverse.takeWhile fun c => c ≠ '-').reverse)

/-- The epoch of a version and what it is the epoch of. -/
def splitEpoch (ver : Text) : Text × Text :=
  match partitionColon ver with
  | some (head, rest) =>
    if isEpoch head then (head, rest) else if head = [] then (['0'], rest) else (['0'], ver)
  | none => (['0'], ver)

/-- `_parse_evr`. -/
def parseEvr (ver : Text) : Text × Text × Option Text :=
  let (epoch, ver) := splitEpoch ver
  match rpartitionHyphen ver with
  | none => (epoch, ver, none)
  | some (pkgver, pkgrel) => (epoch, pkgver, some pkgrel)

/-- The comparison of two releases. -/
def compareRel : Option Text → Option Text → ℤ
  | some ra, some rb => rpmvercmp ra rb
  | _, _ => 0

/-- `vercmp_local`. -/
def vercmpLocal (verA verB : Text) : ℤ :=
  if verA = verB then 0
  else
    let (ea, va, ra) := parseEvr verA
    let (eb, vb, rb) := parseEvr verB
    let ret := rpmvercmp ea eb
    if ret = 0 then
      let ret := rpmvercmp va vb
      if ret = 0 then compareRel ra rb else ret
    else ret

/-! ## The property -/

/-- A part does not end in a separator. -/
def Closed (s : Text) : Prop := ∀ c ∈ s.getLast?, isSeparator c = false

/-- A version `[epoch:]pkgver-pkgrel` none of whose parts ends in a separator. -/
structure Proper (ver epoch pkgver pkgrel : Text) : Prop where
  parse : parseEvr ver = (epoch, pkgver, some pkgrel)
  epoch : Closed epoch
  pkgver : Closed pkgver
  pkgrel : Closed pkgrel

/-- The segments of a part: how many separators stand before each, and its letters or digits. -/
def segments (s : Text) : List (ℕ × Text) :=
  let i := s.dropWhile isSeparator
  if i = [] then []
  else ((s.takeWhile isSeparator).length, i.takeWhile (kindOf i)) ::
    segments (i.dropWhile (kindOf i))
termination_by s.length
decreasing_by exact length_rest_lt ‹¬i = []›

/-- A version of that form. -/
def IsProper (ver : Text) : Prop := ∃ epoch pkgver pkgrel, Proper ver epoch pkgver pkgrel

/-- The same letters, or the same number up to leading zeros. -/
def SameWord (u v : Text) : Prop :=
  startsDigit u = startsDigit v ∧
    if startsDigit u then lstripZeros u = lstripZeros v else u = v

/-- The same separator lengths and, segment by segment, the same letters or number. -/
def SameSegments (a b : Text) : Prop :=
  List.Forall₂ (fun s t => s.1 = t.1 ∧ SameWord s.2 t.2) (segments a) (segments b)

/-! ## Segments -/

section Segments

variable {a b s x y u v r t : Text} {c : Char}

/-- A text begins with separators and a segment, which are as long as they can be. -/
structure IsPiece (s x u r : Text) : Prop where
  eq : s = x ++ (u ++ r)
  separators : ∀ c ∈ x, isSeparator c = true
  ne_nil : u ≠ []
  kind : ∀ c ∈ u, kindOf u c = true
  rest : ∀ c ∈ r.head?, kindOf u c = false

theorem startsDigit_append (hu : u ≠ []) (r : Text) : startsDigit (u ++ r) = startsDigit u := by
  obtain ⟨c, u, rfl⟩ := List.exists_cons_of_ne_nil hu
  rfl

theorem kindOf_append (hu : u ≠ []) (r : Text) : kindOf (u ++ r) = kindOf u := by
  rw [kindOf, kindOf, startsDigit_append hu]

theorem isSeparator_of_kindOf (h : kindOf u c = true) : isSeparator c = false := by
  rw [isSeparator, Bool.not_eq_false', Bool.or_eq_true]
  rw [kindOf] at h
  split_ifs at h
  · exact .inl h
  · exact .inr h

/-- A text that is not all separators has a segment. -/
theorem exists_isPiece (h : s.dropWhile isSeparator ≠ []) : ∃ x u r, IsPiece s x u r := by
  have hhead := List.head?_dropWhile_not isSeparator s
  have hsplit := List.takeWhile_append_dropWhile (p := isSeparator) (l := s)
  generalize s.dropWhile isSeparator = i at h hhead hsplit
  obtain ⟨c, rest, rfl⟩ := List.exists_cons_of_ne_nil h
  have hc : kindOf (c :: rest) c = true := kindOf_cons hhead rest
  have hword : (c :: rest).takeWhile (kindOf (c :: rest)) ≠ [] := by
    rw [List.takeWhile_cons_of_pos hc]
    exact List.cons_ne_nil _ _
  have hkind : kindOf ((c :: rest).takeWhile (kindOf (c :: rest))) = kindOf (c :: rest) := by
    have happ := kindOf_append hword ((c :: rest).dropWhile (kindOf (c :: rest)))
    rw [List.takeWhile_append_dropWhile] at happ
    exact happ.symm
  refine ⟨s.takeWhile isSeparator, (c :: rest).takeWhile (kindOf (c :: rest)),
    (c :: rest).dropWhile (kindOf (c :: rest)), ?_, fun d hd => List.mem_takeWhile_imp hd, hword,
    fun d hd => ?_, fun d hd => ?_⟩
  · rw [List.takeWhile_append_dropWhile, hsplit]
  · rw [hkind]
    exact List.mem_takeWhile_imp hd
  · have hnot := List.head?_dropWhile_not (kindOf (c :: rest)) (c :: rest)
    rw [Option.mem_def.mp hd] at hnot
    rw [hkind]
    exact hnot

variable (h : IsPiece s x u r)

include h

theorem IsPiece.dropWhile_separators : s.dropWhile isSeparator = u ++ r := by
  obtain ⟨c, w, hu⟩ := List.exists_cons_of_ne_nil h.ne_nil
  have hc : isSeparator c = false :=
    isSeparator_of_kindOf (h.kind c (hu ▸ List.mem_cons_self))
  rw [h.eq, List.dropWhile_append_of_pos h.separators, hu, List.cons_append,
    List.dropWhile_cons_of_neg (ne_true_of_eq_false hc)]

theorem IsPiece.takeWhile_separators : s.takeWhile isSeparator = x := by
  obtain ⟨c, w, hu⟩ := List.exists_cons_of_ne_nil h.ne_nil
  have hc : isSeparator c = false :=
    isSeparator_of_kindOf (h.kind c (hu ▸ List.mem_cons_self))
  rw [h.eq, List.takeWhile_append_of_pos h.separators, hu, List.cons_append,
    List.takeWhile_cons_of_neg (ne_true_of_eq_false hc), List.append_nil]

theorem IsPiece.startsDigit_eq : startsDigit (u ++ r) = startsDigit u :=
  startsDigit_append h.ne_nil r

theorem IsPiece.kindOf_eq : kindOf (u ++ r) = kindOf u := kindOf_append h.ne_nil r

theorem IsPiece.takeWhile_kind : (u ++ r).takeWhile (kindOf u) = u := by
  rw [List.takeWhile_append_of_pos h.kind]
  cases r with
  | nil => rw [List.takeWhile_nil, List.append_nil]
  | cons c r =>
    rw [List.takeWhile_cons_of_neg (ne_true_of_eq_false (h.rest c rfl)), List.append_nil]

theorem IsPiece.dropWhile_kind : (u ++ r).dropWhile (kindOf u) = r := by
  rw [List.dropWhile_append_of_pos h.kind]
  cases r with
  | nil => rfl
  | cons c r => rw [List.dropWhile_cons_of_neg (ne_true_of_eq_false (h.rest c rfl))]

theorem IsPiece.length_lt : r.length < s.length := by
  have hu := List.length_pos_iff.mpr h.ne_nil
  rw [h.eq, List.length_append, List.length_append]
  omega

theorem segments_of_isPiece : segments s = (x.length, u) :: segments r := by
  have hne : u ++ r ≠ [] := fun hnil => h.ne_nil (List.append_eq_nil_iff.mp hnil).1
  rw [segments, h.dropWhile_separators, if_neg hne, h.takeWhile_separators, h.kindOf_eq,
    h.takeWhile_kind, h.dropWhile_kind]

end Segments

/-! ## One segment -/

section Words

variable {a b x y u v r t : Text}

/-- Letters are below numbers. -/
def wordKey (u : Text) : ℕ ×ₗ ℕ ×ₗ Text :=
  if startsDigit u then toLex (1, toLex ((lstripZeros u).length, lstripZeros u))
  else toLex (0, toLex (0, u))

theorem not_isAlpha_of_isDigit {c : Char} (h : isDigit c = true) : isAlpha c = false := by
  rw [isDigit, Bool.and_eq_true, decide_eq_true_eq, decide_eq_true_eq] at h
  have hlt : ∀ d : Char, '9' < d → ¬d ≤ c := fun d hd hle => (hd.trans_le hle).not_ge h.2
  rw [isAlpha, decide_eq_false (hlt 'a' (by decide)), decide_eq_false (hlt 'A' (by decide))]
  rfl

/-- The kind of a segment is told by its first character. -/
theorem kindOf_head_of_ne (hv : ∀ c ∈ v, kindOf v c = true) (hne : v ≠ [])
    (h : startsDigit u ≠ startsDigit v) (t : Text) : (v ++ t).takeWhile (kindOf u) = [] := by
  obtain ⟨c, v, rfl⟩ := List.exists_cons_of_ne_nil hne
  have hc := hv c List.mem_cons_self
  have hnot : ¬kindOf u c = true := by
    intro hu
    rw [kindOf] at hc hu
    split_ifs at hc hu with hdv hdu hdu
    · exact h (hdu.trans hdv.symm)
    · rw [not_isAlpha_of_isDigit hc] at hu
      cases hu
    · rw [not_isAlpha_of_isDigit hu] at hc
      cases hc
    · exact h ((Bool.eq_false_iff.mpr hdu).trans (Bool.eq_false_iff.mpr hdv).symm)
  exact List.takeWhile_cons_of_neg hnot

theorem sign_eq_ite (u v : Text) :
    (if u ≠ v then if u > v then 1 else -1 else 0) = sign u v := by
  rcases lt_trichotomy u v with h | rfl | h
  · rw [if_pos h.ne, if_neg (not_lt_of_gt h), sign_of_lt h]
  · rw [if_neg (not_not.mpr rfl), sign_self]
  · rw [if_pos h.ne', if_pos h, sign_of_gt h]

theorem compareSegments_eq (h : startsDigit u = startsDigit v) :
    compareSegments (startsDigit u) u v = sign (wordKey u) (wordKey v) := by
  rw [wordKey, wordKey, ← h]
  cases hdigit : startsDigit u with
  | false =>
    rw [if_neg Bool.false_ne_true, if_neg Bool.false_ne_true, sign_toLex, sign_self, thenBy_zero,
      sign_toLex, sign_self, thenBy_zero, ← sign_eq_ite]
    rfl
  | true =>
    rw [if_pos rfl, if_pos rfl, sign_toLex, sign_self, thenBy_zero, sign_toLex, ← sign_eq_ite]
    rw [compareSegments, if_pos rfl, if_pos rfl]
    rcases Nat.lt_trichotomy (lstripZeros u).length (lstripZeros v).length with hlt | heq | hgt
    · rw [if_pos ⟨rfl, hlt.ne⟩, if_neg hlt.not_gt, sign_of_lt hlt, thenBy_neg_one]
    · rw [if_neg fun hne => hne.2 heq, heq, sign_self, thenBy_zero]
    · rw [if_pos ⟨rfl, hgt.ne'⟩, if_pos hgt, sign_of_gt hgt, thenBy_one]

/-- **One step**: the separators, the segments, and then the rest. -/
theorem rpmLoop_of_isPiece (ha : IsPiece a x u r) (hb : IsPiece b y v t) :
    rpmLoop a b =
      thenBy (sign x.length y.length) (thenBy (sign (wordKey u) (wordKey v)) (rpmLoop r t)) := by
  have hane : a ≠ [] := fun h => absurd (h ▸ ha.length_lt) (Nat.not_lt_zero _)
  have hbne : b ≠ [] := fun h => absurd (h ▸ hb.length_lt) (Nat.not_lt_zero _)
  have hune : u ++ r ≠ [] := fun h => ha.ne_nil (List.append_eq_nil_iff.mp h).1
  have hvne : v ++ t ≠ [] := fun h => hb.ne_nil (List.append_eq_nil_iff.mp h).1
  rw [rpmLoop, if_neg (not_or.mpr ⟨hane, hbne⟩), ha.dropWhile_separators, hb.dropWhile_separators,
    if_neg (not_or.mpr ⟨hune, hvne⟩), ha.takeWhile_separators, hb.takeWhile_separators,
    ha.startsDigit_eq, ha.kindOf_eq]
  dsimp only
  rw [ha.takeWhile_kind, ha.dropWhile_kind]
  rcases Nat.lt_trichotomy x.length y.length with hlt | heq | hgt
  · rw [if_pos hlt.ne, if_pos hlt, sign_of_lt hlt, thenBy_neg_one]
  · rw [if_neg (not_not.mpr heq), heq, sign_self, thenBy_zero]
    by_cases hkind : startsDigit u = startsDigit v
    · have hsame : kindOf u = kindOf v := by rw [kindOf, kindOf, hkind]
      rw [hsame, hb.takeWhile_kind, if_neg hb.ne_nil, hb.dropWhile_kind, compareSegments_eq hkind]
      split_ifs with hzero
      · rw [thenBy_of_ne hzero]
      · rw [not_not.mp hzero, thenBy_zero]
    · rw [kindOf_head_of_ne hb.kind hb.ne_nil hkind, if_pos rfl, wordKey, wordKey]
      cases hu : startsDigit u with
      | false =>
        have hv : startsDigit v = true := by
          rw [hu] at hkind
          exact Bool.eq_true_of_not_eq_false fun h => hkind h.symm
        rw [hv, if_neg Bool.false_ne_true, if_neg Bool.false_ne_true, if_pos rfl, sign_toLex,
          sign_of_lt Nat.zero_lt_one, thenBy_neg_one, thenBy_neg_one]
      | true =>
        have hv : startsDigit v = false := by
          rw [hu] at hkind
          exact Bool.eq_false_of_not_eq_true fun h => hkind h.symm
        rw [hv, if_pos rfl, if_pos rfl, if_neg Bool.false_ne_true, sign_toLex,
          sign_of_gt Nat.zero_lt_one, thenBy_one, thenBy_one]
  · rw [if_pos hgt.ne', if_neg hgt.not_gt, sign_of_gt hgt, thenBy_one]

end Words

/-! ## Exchanging the texts -/

section Swap

variable {a b : Text}

theorem leftover_nil_left (hb : b ≠ []) : leftover [] b = if startsAlpha b then 1 else -1 := by
  have hstart : startsAlpha [] = false := rfl
  rw [leftover, if_neg fun h => hb h.2, hstart]
  cases startsAlpha b with
  | false => rfl
  | true => rfl

theorem leftover_nil_right (ha : a ≠ []) : leftover a [] = if startsAlpha a then -1 else 1 := by
  rw [leftover, if_neg fun h => ha h.1]
  refine if_congr ?_ rfl rfl
  exact or_iff_right fun h => ha h.1

theorem leftover_swap (h : a = [] ∨ b = []) : leftover a b = -leftover b a := by
  cases a with
  | nil =>
    cases b with
    | nil => rfl
    | cons c b =>
      rw [leftover_nil_left (List.cons_ne_nil c b), leftover_nil_right (List.cons_ne_nil c b)]
      split_ifs <;> rfl
  | cons c a =>
    obtain rfl := h.resolve_left (List.cons_ne_nil c a)
    rw [leftover_nil_left (List.cons_ne_nil c a), leftover_nil_right (List.cons_ne_nil c a)]
    split_ifs <;> rfl

theorem rpmLoop_swap (a b : Text) : rpmLoop a b = -rpmLoop b a := by
  induction hn : a.length using Nat.strong_induction_on generalizing a b with
  | _ n ih =>
    subst hn
    by_cases hnil : a = [] ∨ b = []
    · rw [rpmLoop, rpmLoop, if_pos hnil, if_pos hnil.symm, leftover_swap hnil]
    by_cases hsep : a.dropWhile isSeparator = [] ∨ b.dropWhile isSeparator = []
    · have hnil' : ¬(b = [] ∨ a = []) := fun h => hnil h.symm
      have hleft : rpmLoop a b = leftover (a.dropWhile isSeparator) (b.dropWhile isSeparator) := by
        rw [rpmLoop, if_neg hnil, if_pos hsep]
      have hright : rpmLoop b a = leftover (b.dropWhile isSeparator) (a.dropWhile isSeparator) := by
        rw [rpmLoop, if_neg hnil', if_pos hsep.symm]
      rw [hleft, hright, leftover_swap hsep]
    rw [not_or] at hsep
    obtain ⟨x, u, r, ha⟩ := exists_isPiece hsep.1
    obtain ⟨y, v, t, hb⟩ := exists_isPiece hsep.2
    rw [rpmLoop_of_isPiece ha hb, rpmLoop_of_isPiece hb ha, ih r.length ha.length_lt r t rfl,
      sign_swap x.length, sign_swap (wordKey u), ← neg_thenBy, ← neg_thenBy]

theorem rpmvercmp_swap (a b : Text) : rpmvercmp a b = -rpmvercmp b a := by
  by_cases h : a = b
  · rw [rpmvercmp, rpmvercmp, if_pos h, if_pos h.symm, Int.neg_zero]
  · rw [rpmvercmp, rpmvercmp, if_neg h, if_neg (Ne.symm h), rpmLoop_swap]

theorem compareRel_swap (ra rb : Option Text) : compareRel ra rb = -compareRel rb ra := by
  cases ra with
  | none => cases rb <;> rfl
  | some a =>
    cases rb with
    | none => rfl
    | some b => exact rpmvercmp_swap a b

theorem vercmpLocal_eq (h : a ≠ b) : vercmpLocal a b =
    thenBy (rpmvercmp (parseEvr a).1 (parseEvr b).1)
      (thenBy (rpmvercmp (parseEvr a).2.1 (parseEvr b).2.1)
        (compareRel (parseEvr a).2.2 (parseEvr b).2.2)) := by
  rw [vercmpLocal, if_neg h, thenBy, thenBy]

/-- Exchanging the versions turns the sign. -/
theorem vercmpLocal_swap (a b : Text) : vercmpLocal a b = -vercmpLocal b a := by
  by_cases h : a = b
  · rw [vercmpLocal, vercmpLocal, if_pos h, if_pos h.symm, Int.neg_zero]
  · rw [vercmpLocal_eq h, vercmpLocal_eq (Ne.symm h), neg_thenBy, neg_thenBy, ← rpmvercmp_swap,
      ← rpmvercmp_swap, ← compareRel_swap]

end Swap

/-! ## The order of the parts -/

section Keys

variable {a b s x u r : Text}

/-- The place of a segment: more separators are higher. -/
def segmentKey (k : ℕ) (u : Text) : ℕ ×ₗ ℕ ×ₗ Text :=
  if startsDigit u then toLex (3 * k + 2, toLex ((lstripZeros u).length, lstripZeros u))
  else toLex (3 * k, toLex (0, u))

/-- The place of the end: above letters that follow at once, below everything else. -/
def endKey : ℕ ×ₗ ℕ ×ₗ Text := toLex (1, toLex (0, []))

/-- A part as the places of its segments and of its end. -/
def keys (s : Text) : List (ℕ ×ₗ ℕ ×ₗ Text) :=
  (segments s).map (fun p => segmentKey p.1 p.2) ++ [endKey]

theorem keys_of_isPiece (h : IsPiece s x u r) : keys s = segmentKey x.length u :: keys r := by
  rw [keys, segments_of_isPiece h]
  rfl

theorem segments_nil : segments [] = [] := by
  rw [segments]
  rfl

theorem keys_nil : keys [] = [endKey] := by
  rw [keys, segments_nil]
  rfl

theorem sign_segmentKey (k l : ℕ) (u v : Text) :
    sign (segmentKey k u) (segmentKey l v) = thenBy (sign k l) (sign (wordKey u) (wordKey v)) := by
  rcases Nat.lt_trichotomy k l with hlt | rfl | hgt
  · rw [sign_of_lt hlt, thenBy_neg_one, segmentKey, segmentKey]
    split_ifs
    all_goals exact sign_toLex_of_lt (by omega) _ _
  · rw [sign_self, thenBy_zero, segmentKey, segmentKey, wordKey, wordKey]
    split_ifs
    · rw [sign_toLex_self, sign_toLex_self]
    · rw [sign_toLex_of_gt (Nat.lt_add_of_pos_right Nat.two_pos), sign_toLex_of_gt Nat.zero_lt_one]
    · rw [sign_toLex_of_lt (Nat.lt_add_of_pos_right Nat.two_pos), sign_toLex_of_lt Nat.zero_lt_one]
    · rw [sign_toLex_self, sign_toLex_self, sign_toLex_self, sign_toLex_self]
  · rw [sign_of_gt hgt, thenBy_one, segmentKey, segmentKey]
    split_ifs
    all_goals exact sign_toLex_of_gt (by omega) _ _

theorem startsAlpha_of_isPiece (h : IsPiece s x u r) :
    startsAlpha s = true ↔ x = [] ∧ startsDigit u = false := by
  obtain ⟨c, w, rfl⟩ := List.exists_cons_of_ne_nil h.ne_nil
  have hc := h.kind c List.mem_cons_self
  cases x with
  | nil =>
    rw [h.eq]
    change isAlpha c = true ↔ [] = [] ∧ startsDigit (c :: w) = false
    rw [kindOf] at hc
    split_ifs at hc with hdigit
    · rw [not_isAlpha_of_isDigit hc, hdigit]
      decide
    · exact iff_of_true hc ⟨rfl, Bool.eq_false_iff.mpr hdigit⟩
  | cons d x =>
    have hd := h.separators d List.mem_cons_self
    rw [isSeparator, Bool.not_eq_true', Bool.or_eq_false_iff] at hd
    rw [h.eq]
    change isAlpha d = true ↔ _
    rw [hd.2]
    exact iff_of_false Bool.false_ne_true fun h => absurd h.1 (List.cons_ne_nil d x)

/-- Where the other part ends, the place of the end decides. -/
theorem leftover_of_isPiece (h : IsPiece s x u r) :
    leftover [] s = sign endKey (segmentKey x.length u) := by
  have hs : s ≠ [] := fun hs => absurd (hs ▸ h.length_lt) (Nat.not_lt_zero _)
  rw [leftover_nil_left hs, if_congr (startsAlpha_of_isPiece h) rfl rfl, endKey, segmentKey]
  split_ifs with halpha hdigit hdigit
  · rw [halpha.2] at hdigit
    cases hdigit
  · rw [halpha.1]
    exact (sign_toLex_of_gt Nat.zero_lt_one _ _).symm
  · rw [sign_toLex_of_lt (by omega)]
  · have hx : 0 < x.length := List.length_pos_iff.mpr fun hx =>
      halpha ⟨hx, Bool.eq_false_iff.mpr hdigit⟩
    rw [sign_toLex_of_lt (by omega)]

theorem leftover_of_isPiece_ne_zero (h : IsPiece s x u r) : leftover [] s ≠ 0 := by
  have hs : s ≠ [] := fun hs => absurd (hs ▸ h.length_lt) (Nat.not_lt_zero _)
  rw [leftover_nil_left hs]
  split_ifs <;> decide

theorem Closed.dropWhile_ne_nil (h : Closed s) (hs : s ≠ []) : s.dropWhile isSeparator ≠ [] := by
  intro hnil
  have hlast := List.getLast?_eq_some_getLast hs
  have hsep := List.dropWhile_eq_nil_iff.mp hnil (s.getLast hs) (List.getLast_mem hs)
  rw [h _ hlast] at hsep
  cases hsep

theorem Closed.rest (h : Closed s) (hp : IsPiece s x u r) : Closed r := by
  intro c hc
  refine h c ?_
  have hne : r ≠ [] := by
    rintro rfl
    cases hc
  rw [hp.eq, List.getLast?_append_of_ne_nil _ (List.append_ne_nil_of_right_ne_nil u hne),
    List.getLast?_append_of_ne_nil _ hne]
  exact hc

/-- **A part is compared as its list of places.** -/
theorem rpmLoop_eq (ha : Closed a) (hb : Closed b) : rpmLoop a b = sign (keys a) (keys b) := by
  induction hn : a.length using Nat.strong_induction_on generalizing a b with
  | _ n ih =>
    subst hn
    by_cases hnil : a = [] ∨ b = []
    · rw [rpmLoop, if_pos hnil]
      rcases hnil with rfl | rfl
      · by_cases hb' : b = []
        · rw [hb', sign_self]
          rfl
        · obtain ⟨y, v, t, hp⟩ := exists_isPiece (hb.dropWhile_ne_nil hb')
          have hne := leftover_of_isPiece_ne_zero hp
          rw [keys_nil, keys_of_isPiece hp, sign_cons, ← leftover_of_isPiece hp, thenBy_of_ne hne]
      · by_cases ha' : a = []
        · rw [ha', sign_self]
          rfl
        · obtain ⟨x, u, r, hp⟩ := exists_isPiece (ha.dropWhile_ne_nil ha')
          have hne := leftover_of_isPiece_ne_zero hp
          rw [keys_nil, keys_of_isPiece hp, sign_swap, sign_cons, ← leftover_of_isPiece hp,
            thenBy_of_ne hne, leftover_swap (.inr rfl)]
    · rw [not_or] at hnil
      obtain ⟨x, u, r, hpa⟩ := exists_isPiece (ha.dropWhile_ne_nil hnil.1)
      obtain ⟨y, v, t, hpb⟩ := exists_isPiece (hb.dropWhile_ne_nil hnil.2)
      rw [rpmLoop_of_isPiece hpa hpb, keys_of_isPiece hpa, keys_of_isPiece hpb, sign_cons,
        sign_segmentKey, ih r.length hpa.length_lt (ha.rest hpa) (hb.rest hpb) rfl]
      by_cases hzero : sign x.length y.length = 0
      · rw [hzero, thenBy_zero, thenBy_zero]
      · rw [thenBy_of_ne hzero, thenBy_of_ne hzero, thenBy_of_ne hzero]

theorem rpmvercmp_eq (ha : Closed a) (hb : Closed b) :
    rpmvercmp a b = sign (keys a) (keys b) := by
  by_cases h : a = b
  · rw [rpmvercmp, if_pos h, h, sign_self]
  · rw [rpmvercmp, if_neg h, rpmLoop_eq ha hb]

theorem wordKey_inj {u v : Text} : wordKey u = wordKey v ↔ SameWord u v := by
  rw [wordKey, wordKey, SameWord]
  split_ifs with hu hv hv
  · rw [toLex_inj, Prod.mk.injEq, toLex_inj, Prod.mk.injEq, hu, hv]
    exact ⟨fun h => ⟨rfl, h.2.2⟩, fun h => ⟨rfl, congrArg List.length h.2, h.2⟩⟩
  · rw [toLex_inj, Prod.mk.injEq, hu, Bool.eq_false_iff.mpr hv]
    exact iff_of_false (fun h => absurd h.1 Nat.one_ne_zero) fun h => absurd h.1 (by decide)
  · rw [toLex_inj, Prod.mk.injEq, hv, Bool.eq_false_iff.mpr hu]
    exact iff_of_false (fun h => absurd h.1 Nat.zero_ne_one) fun h => absurd h.1 (by decide)
  · rw [toLex_inj, Prod.mk.injEq, toLex_inj, Prod.mk.injEq, Bool.eq_false_iff.mpr hu,
      Bool.eq_false_iff.mpr hv]
    exact ⟨fun h => ⟨rfl, h.2.2⟩, fun h => ⟨rfl, rfl, h.2⟩⟩

theorem segmentKey_inj {k l : ℕ} {u v : Text} :
    segmentKey k u = segmentKey l v ↔ k = l ∧ SameWord u v := by
  rw [← sign_eq_zero, sign_segmentKey, thenBy_eq_zero, sign_eq_zero, sign_eq_zero, wordKey_inj]

theorem keys_inj : keys a = keys b ↔ SameSegments a b := by
  rw [keys, keys, List.append_cancel_right_eq, ← List.forall₂_eq_eq_eq, List.forall₂_map_left_iff,
    List.forall₂_map_right_iff, SameSegments]
  refine ⟨fun h => h.imp fun s t hst => ?_, fun h => h.imp fun s t hst => ?_⟩
  · exact segmentKey_inj.mp hst
  · exact segmentKey_inj.mpr hst

end Keys

/-! ## The order of the versions -/

section Versions

variable {a b ea va ra eb vb rb : Text}

/-- A version as its parts, the earlier ones first. -/
def versionKey (epoch pkgver pkgrel : Text) : List (ℕ ×ₗ ℕ ×ₗ Text) ×ₗ
    List (ℕ ×ₗ ℕ ×ₗ Text) ×ₗ List (ℕ ×ₗ ℕ ×ₗ Text) :=
  toLex (keys epoch, toLex (keys pkgver, keys pkgrel))

theorem vercmpLocal_eq_sign (ha : Proper a ea va ra) (hb : Proper b eb vb rb) :
    vercmpLocal a b = sign (versionKey ea va ra) (versionKey eb vb rb) := by
  by_cases h : a = b
  · have hparts := ha.parse.symm.trans (h ▸ hb.parse)
    simp only [Prod.mk.injEq, Option.some.injEq] at hparts
    obtain ⟨rfl, rfl, rfl⟩ := hparts
    rw [vercmpLocal, if_pos h, sign_self]
  · rw [vercmpLocal_eq h, ha.parse, hb.parse, rpmvercmp_eq ha.epoch hb.epoch,
      rpmvercmp_eq ha.pkgver hb.pkgver, compareRel, rpmvercmp_eq ha.pkgrel hb.pkgrel, versionKey,
      versionKey, sign_toLex, sign_toLex]

/-- **`vercmp_local` is an order**: exchanging the versions turns the sign, and on the versions
whose parts do not end in a separator it is total and transitive and gives 0 for the same
segments. -/
theorem vercmpLocal_order :
    (∀ a b, vercmpLocal a b = -vercmpLocal b a) ∧
      (∀ a b c, IsProper a → IsProper b → IsProper c → vercmpLocal a b ≤ 0 → vercmpLocal b c ≤ 0 →
        vercmpLocal a c ≤ 0) ∧
      (∀ a b, IsProper a → IsProper b → vercmpLocal a b ≤ 0 ∨ vercmpLocal b a ≤ 0) ∧
      ∀ a b ea va ra eb vb rb, Proper a ea va ra → Proper b eb vb rb →
        (vercmpLocal a b = 0 ↔ SameSegments ea eb ∧ SameSegments va vb ∧ SameSegments ra rb) := by
  refine ⟨vercmpLocal_swap, ?_, ?_, ?_⟩
  · rintro a b c ⟨ea, va, ra, ha⟩ ⟨eb, vb, rb, hb⟩ ⟨ec, vc, rc, hc⟩ hab hbc
    rw [vercmpLocal_eq_sign ha hb, sign_nonpos] at hab
    rw [vercmpLocal_eq_sign hb hc, sign_nonpos] at hbc
    rw [vercmpLocal_eq_sign ha hc, sign_nonpos]
    exact hab.trans hbc
  · rintro a b ⟨ea, va, ra, ha⟩ ⟨eb, vb, rb, hb⟩
    rw [vercmpLocal_eq_sign ha hb, vercmpLocal_eq_sign hb ha, sign_nonpos, sign_nonpos]
    exact le_total _ _
  · intro a b ea va ra eb vb rb ha hb
    rw [vercmpLocal_eq_sign ha hb, versionKey, versionKey, sign_toLex, sign_toLex, thenBy_eq_zero,
      thenBy_eq_zero, sign_eq_zero, sign_eq_zero, sign_eq_zero, keys_inj, keys_inj, keys_inj]

theorem closed_concat {c : Char} (h : isSeparator c = false) (s : Text) : Closed (s ++ [c]) := by
  intro d hd
  rw [List.getLast?_concat, Option.mem_some_iff] at hd
  rw [← hd]
  exact h

theorem segments_word {u : Text} (hne : u ≠ []) (h : u.all (kindOf u) = true) :
    segments u = [(0, u)] := by
  have hpiece : IsPiece u [] u [] := by
    refine ⟨(List.append_nil u).symm, List.forall_mem_nil _, hne, List.all_eq_true.mp h, ?_⟩
    intro c hc
    cases hc
  rw [segments_of_isPiece hpiece, segments_nil, List.length_nil]

/-- `1-1` and `01-1` are the same version. -/
theorem vercmpLocal_leadingZero : vercmpLocal ['1', '-', '1'] ['0', '1', '-', '1'] = 0 := by
  have hone : Proper ['1', '-', '1'] ['0'] ['1'] ['1'] := ⟨by decide,
    closed_concat (by decide) [], closed_concat (by decide) [], closed_concat (by decide) []⟩
  have hzero : Proper ['0', '1', '-', '1'] ['0'] ['0', '1'] ['1'] := ⟨by decide,
    closed_concat (by decide) [], closed_concat (by decide) ['0'], closed_concat (by decide) []⟩
  have hrefl : ∀ s, SameSegments s s := fun s => keys_inj.mp rfl
  have hsame : SameSegments ['1'] ['0', '1'] := by
    rw [SameSegments, segments_word (List.cons_ne_nil _ _) (by decide),
      segments_word (List.cons_ne_nil _ _) (by decide)]
    exact .cons ⟨rfl, by decide, by decide⟩ .nil
  exact (vercmpLocal_order.2.2.2 _ _ _ _ _ _ _ _ hone hzero).mpr ⟨hrefl _, hsame, hrefl _⟩

end Versions

end Sysforge.Version
