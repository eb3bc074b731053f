import Mathlib.Data.List.Basic
import Mathlib.Data.List.Infix
import Mathlib.Data.List.TakeWhile

/-!
# Erasing words from a stream

`pattern.sub("", s)` for a pattern given as a function: at a place it gives the text behind the
match. The words of an overlap-free pattern (`OverlapFree`) are found wherever they stand, whatever
follows them, and no two of them overlap.

A filter that erases such words from a stream sees it in chunks: it holds back a tail that may still
grow into a word and reads it again with the next chunk. It gives what the whole stream gives, unless
a word is taken out from between the symbols of another (`Interrupted`): then the second word comes
about only when the first is gone (`interrupted_iff`, `filterFrom_eq_erase`).
-/

namespace Sysforge.Erasure

variable {α : Type*}

/-- What a pattern takes at a place: the text behind the match. -/
abbrev Front (α : Type*) := List α → Option (List α)

/-- One symbol of a class, and the text behind. -/
def one (p : α → Bool) : Front α
  | [] => none
  | b :: s => if p b then some s else none

/-- One given symbol. -/
def lit [DecidableEq α] (b : α) : Front α := one (· == b)

/-- The text without its matches, when the first symbols are part of one. -/
def eraseFrom (front : Front α) : ℕ → List α → List α
  | _, [] => []
  | k + 1, _ :: s => eraseFrom front k s
  | 0, c :: s =>
    match front (c :: s) with
    | some rest => eraseFrom front (s.length - rest.length) s
    | none => c :: eraseFrom front 0 s

/-- `pattern.sub("", s)`. -/
def erase (front : Front α) (s : List α) : List α := eraseFrom front 0 s

/-- The matches of a text, each with the plain text before it, and the plain text behind the last one,
when the first symbols are part of a match. -/
def piecesFrom (front : Front α) : ℕ → List α → List (List α × List α) × List α
  | _, [] => ([], [])
  | k + 1, _ :: s => piecesFrom front k s
  | 0, c :: s =>
    match front (c :: s) with
    | some rest =>
      let r := piecesFrom front (s.length - rest.length) s
      (([], (c :: s).take (s.length + 1 - rest.length)) :: r.1, r.2)
    | none =>
      match piecesFrom front 0 s with
      | ([], rest) => ([], c :: rest)
      | ((plain, m) :: ms, rest) => ((c :: plain, m) :: ms, rest)

/-- The loop over `pattern.finditer(s)`. -/
def pieces (front : Front α) (s : List α) : List (List α × List α) × List α := piecesFrom front 0 s

/-- A whole text that the pattern matches. -/
def Word (front : Front α) (w : List α) : Prop := front w = some []

/-- A text with a word somewhere in it. -/
def HasWord (front : Front α) (s : List α) : Prop := ∃ p w q, Word front w ∧ s = p ++ (w ++ q)

/-- The second text is the first without some of its words. -/
inductive Erased (front : Front α) : List α → List α → Prop
  | nil : Erased front [] []
  | keep {s t : List α} (c : α) : Erased front s t → Erased front (c :: s) (c :: t)
  | drop {w s t : List α} : Word front w → Erased front s t → Erased front (w ++ s) t

/-- A word of the text stands between the symbols of another one, which is a word only without it. -/
def Interrupted (front : Front α) (s : List α) : Prop :=
  ∃ u c y z d v, s = u ++ c :: (y ++ d :: v) ∧ Word front (c :: (z ++ [d])) ∧ Erased front y z ∧ y ≠ z

/-! ## Pieces of a pattern -/

section Pieces

variable {b : α} {p : α → Bool} {s t : List α}

theorem one_eq_some : one p s = some t ↔ ∃ b, p b = true ∧ s = b :: t := by
  cases s with
  | nil =>
    constructor
    · intro h
      cases h
    · rintro ⟨_, _, h⟩
      cases h
  | cons b s =>
    rw [one]
    constructor
    · intro h
      by_cases hp : p b = true
      · rw [if_pos hp] at h
        exact ⟨b, hp, congrArg _ (Option.some.inj h)⟩
      · rw [if_neg hp] at h
        cases h
    · rintro ⟨_, hp, ⟨⟩⟩
      exact if_pos hp

theorem lit_eq_some [DecidableEq α] : lit b s = some t ↔ s = b :: t := by
  rw [lit, one_eq_some]
  constructor
  · rintro ⟨_, h, rfl⟩
    rw [eq_of_beq h]
  · exact fun h => ⟨b, beq_self_eq_true b, h⟩

theorem eq_append_dropWhile (p : α → Bool) (s : List α) :
    ∃ u, (∀ b ∈ u, p b = true) ∧ s = u ++ s.dropWhile p :=
  ⟨s.takeWhile p, fun _ => List.mem_takeWhile_imp, List.takeWhile_append_dropWhile.symm⟩

theorem dropWhile_append_cons (hs : ∀ b ∈ s, p b = true) (hb : p b = false) :
    (s ++ b :: t).dropWhile p = b :: t := by
  rw [List.dropWhile_append_of_pos hs, List.dropWhile_cons_of_neg (by rw [hb]; exact Bool.false_ne_true)]

theorem dropWhile_eq_nil (h : ∀ b ∈ s, p b = true) : s.dropWhile p = [] :=
  List.dropWhile_eq_nil_iff.mpr h

end Pieces

/-! ## Scanning -/

section Scanning

variable {front : Front α} {c : α} {s t w : List α}

theorem eraseFrom_skip (u t : List α) : eraseFrom front u.length (u ++ t) = eraseFrom front 0 t := by
  induction u with
  | nil => rfl
  | cons c u ih => exact ih

@[simp] theorem erase_nil : erase front [] = [] := by
  rw [erase, eraseFrom]

theorem erase_match (hw : w ≠ []) (h : front (w ++ t) = some t) :
    erase front (w ++ t) = erase front t := by
  obtain ⟨c, w, rfl⟩ := List.exists_cons_of_ne_nil hw
  have hlen : (w ++ t).length - t.length = w.length := by
    rw [List.length_append, Nat.add_sub_cancel]
  rw [List.cons_append] at h
  rw [erase, List.cons_append, eraseFrom, h]
  dsimp only
  rw [hlen, eraseFrom_skip]
  rfl

theorem erase_cons (h : front (c :: s) = none) : erase front (c :: s) = c :: erase front s := by
  rw [erase, eraseFrom, h]
  rfl

theorem Erased.append {s' t' : List α} (h : Erased front s t) (h' : Erased front s' t') :
    Erased front (s ++ s') (t ++ t') := by
  induction h with
  | nil => exact h'
  | keep c _ ih => exact .keep c ih
  | drop hw _ ih =>
    rw [List.append_assoc]
    exact .drop hw ih

/-- Before the first word that is taken out, the two texts agree. -/
theorem Erased.eq_or (h : Erased front s t) :
    s = t ∨ ∃ z₁ w y z₂, s = z₁ ++ (w ++ y) ∧ t = z₁ ++ z₂ ∧ Word front w := by
  induction h with
  | nil => exact .inl rfl
  | keep c _ ih =>
    rcases ih with rfl | ⟨z₁, w, y, z₂, rfl, rfl, hw⟩
    · exact .inl rfl
    · exact .inr ⟨c :: z₁, w, y, z₂, rfl, rfl, hw⟩
  | @drop w s t hw _ _ => exact .inr ⟨[], w, s, t, rfl, rfl, hw⟩

end Scanning

/-! ## The pieces of a text -/

section PiecesOf

variable {front : Front α}

/-- Matches, the plain texts before them and the rest have no symbols but the text's. -/
theorem mem_of_mem_piecesFrom (k : ℕ) (s : List α) :
    (∀ p ∈ (piecesFrom front k s).1, (∀ c ∈ p.1, c ∈ s) ∧ ∀ c ∈ p.2, c ∈ s) ∧
      ∀ c ∈ (piecesFrom front k s).2, c ∈ s := by
  induction s generalizing k with
  | nil =>
    cases k
    all_goals exact ⟨fun _ h => absurd h List.not_mem_nil, fun _ h => absurd h List.not_mem_nil⟩
  | cons b s ih =>
    have later : ∀ k, (∀ p ∈ (piecesFrom front k s).1, (∀ c ∈ p.1, c ∈ b :: s) ∧ ∀ c ∈ p.2, c ∈ b :: s) ∧
        ∀ c ∈ (piecesFrom front k s).2, c ∈ b :: s := fun k =>
      ⟨fun p hp => ⟨fun c hc => List.mem_cons_of_mem b (((ih k).1 p hp).1 c hc),
        fun c hc => List.mem_cons_of_mem b (((ih k).1 p hp).2 c hc)⟩,
        fun c hc => List.mem_cons_of_mem b ((ih k).2 c hc)⟩
    cases k with
    | succ k => exact later k
    | zero =>
      rw [piecesFrom]
      cases front (b :: s) with
      | some rest =>
        obtain ⟨hms, hrest⟩ := later (s.length - rest.length)
        refine ⟨List.forall_mem_cons.mpr ⟨⟨fun _ h => absurd h List.not_mem_nil, ?_⟩, hms⟩, hrest⟩
        exact fun c hc => List.mem_of_mem_take hc
      | none =>
        obtain ⟨hms, hrest⟩ := later 0
        dsimp only
        generalize piecesFrom front 0 s = r at hms hrest
        obtain ⟨ms, rest⟩ := r
        cases ms with
        | nil => exact ⟨hms, List.forall_mem_cons.mpr ⟨List.mem_cons_self, hrest⟩⟩
        | cons m ms =>
          obtain ⟨hm, hms⟩ := List.forall_mem_cons.mp hms
          refine ⟨List.forall_mem_cons.mpr ⟨⟨?_, hm.2⟩, hms⟩, hrest⟩
          exact List.forall_mem_cons.mpr ⟨List.mem_cons_self, hm.1⟩

end PiecesOf

/-! ## Overlap-free patterns -/

/-- A pattern whose words are recognised by themselves: nothing that follows a word changes the match,
and where a word stands no other word begins, whatever follows. -/
structure OverlapFree (front : Front α) : Prop where
  /-- A match is a word. -/
  of_front : ∀ {s t}, front s = some t → ∃ w, w ≠ [] ∧ Word front w ∧ s = w ++ t
  /-- A word is matched whatever follows. -/
  front_append : ∀ {w} t, Word front w → front (w ++ t) = some t
  /-- No match begins inside a word. -/
  apart : ∀ {a b} t, Word front (a ++ b) → a ≠ [] → b ≠ [] → front (b ++ t) = none

namespace OverlapFree

variable {front : Front α} (hf : OverlapFree front) {c : α} {a b s t v w x y z : List α}
include hf

theorem ne_nil (h : Word front w) : w ≠ [] := by
  rintro rfl
  obtain ⟨w, hw, -, hnil⟩ := hf.of_front h
  exact hw (List.append_eq_nil_iff.mp hnil.symm).1

theorem erase_word (h : Word front w) (t : List α) : erase front (w ++ t) = erase front t :=
  erase_match (hf.ne_nil h) (hf.front_append t h)

theorem front_append_of_some (h : front s = some t) (v : List α) : front (s ++ v) = some (t ++ v) := by
  obtain ⟨w, -, hw, rfl⟩ := hf.of_front h
  rw [List.append_assoc]
  exact hf.front_append (t ++ v) hw

/-- Every place of a text is in a match or is kept. -/
theorem scan_induction {P : List α → Prop} (nil : P [])
    (word : ∀ w t, Word front w → P t → P (w ++ t))
    (keep : ∀ c s, front (c :: s) = none → P s → P (c :: s)) (s : List α) : P s := by
  induction h : s.length using Nat.strong_induction_on generalizing s with
  | _ n ih =>
    cases s with
    | nil => exact nil
    | cons c s =>
      cases hs : front (c :: s) with
      | none => exact keep c s hs (ih s.length (by rw [← h, List.length_cons]; omega) s rfl)
      | some t =>
        obtain ⟨w, hne, hw, heq⟩ := hf.of_front hs
        have hlen : t.length < n := by
          have hpos := List.length_pos_of_ne_nil hne
          rw [← h, heq, List.length_append]
          omega
        rw [heq]
        exact word w t hw (ih t.length hlen t rfl)

/-- The erased text is the text without some of its words. -/
theorem erased_erase (s : List α) : Erased front s (erase front s) := by
  induction s using hf.scan_induction with
  | nil => exact .nil
  | word w t hw ih =>
    rw [hf.erase_word hw]
    exact .drop hw ih
  | keep c s hs ih =>
    rw [erase_cons hs]
    exact .keep c ih

/-- A match that reaches over the end of a text has a rest that is a proper part of a word. -/
theorem front_append_cases (h : front (s ++ x) = some t) (hs : front s = none) :
    ∃ b, b ≠ [] ∧ Word front (s ++ b) ∧ x = b ++ t := by
  obtain ⟨w, -, hw, heq⟩ := hf.of_front h
  rcases List.append_eq_append_iff.mp heq with ⟨b, rfl, rfl⟩ | ⟨b, rfl, rfl⟩
  · refine ⟨b, ?_, hw, rfl⟩
    rintro rfl
    rw [List.append_nil] at hw
    rw [hw] at hs
    cases hs
  · rw [hf.front_append b hw] at hs
    cases hs

/-- What follows the symbols of a begun word is not scanned before the word's end. -/
theorem erase_tail (h : Word front (s ++ x)) (hs : s ≠ []) (t : List α) :
    erase front (x ++ t) = x ++ erase front t := by
  induction x generalizing s with
  | nil => rfl
  | cons c x ih =>
    have hnone : front (c :: (x ++ t)) = none := hf.apart t h hs (List.cons_ne_nil c x)
    have hw : Word front ((s ++ [c]) ++ x) := by
      rw [List.append_assoc]
      exact h
    rw [List.cons_append, erase_cons hnone, ih hw (List.append_ne_nil_of_right_ne_nil s (List.cons_ne_nil c []))]
    rfl

/-- Inside a word nothing is erased. -/
theorem erase_part (h : Word front (a ++ (x ++ b))) (ha : a ≠ []) : erase front x = x := by
  induction x generalizing a with
  | nil => exact erase_nil
  | cons c x ih =>
    have hnone : front (c :: x) = none := by
      rw [Option.eq_none_iff_forall_ne_some]
      intro t ht
      have hsome := hf.front_append_of_some ht b
      have hapart := hf.apart [] h ha (List.append_ne_nil_of_left_ne_nil (List.cons_ne_nil c x) b)
      rw [List.append_nil, hsome] at hapart
      cases hapart
    have hw : Word front ((a ++ [c]) ++ (x ++ b)) := by
      rw [List.append_assoc]
      exact h
    rw [erase_cons hnone, ih hw (List.append_ne_nil_of_right_ne_nil a (List.cons_ne_nil c []))]

/-- A text in front that no word joins to the rest is scanned by itself. -/
theorem erase_append (hx : ∀ a b t, Word front (a ++ b) → a ≠ [] → b ≠ [] → x ≠ b ++ t) (u : List α) :
    erase front (u ++ x) = erase front u ++ erase front x := by
  induction u using hf.scan_induction with
  | nil => rfl
  | word w t hw ih => rw [List.append_assoc, hf.erase_word hw, hf.erase_word hw, ih]
  | keep c s hs ih =>
    have hnone : front (c :: (s ++ x)) = none := by
      rw [Option.eq_none_iff_forall_ne_some]
      intro t ht
      obtain ⟨b, hb, hw, hbx⟩ := hf.front_append_cases ht hs
      exact hx _ b t hw (List.cons_ne_nil c s) hb hbx
    rw [List.cons_append, erase_cons hnone, erase_cons hs, ih]
    rfl

/-! ## Words that come about -/

/-- The first kept symbol of a scanned text, with the words before it. -/
theorem of_erase_eq_cons (h : erase front s = c :: t) :
    ∃ u s', s = u ++ c :: s' ∧ Erased front u [] ∧ front (c :: s') = none ∧ erase front s' = t := by
  induction s using hf.scan_induction with
  | nil =>
    rw [erase_nil] at h
    cases h
  | word w v hw ih =>
    rw [hf.erase_word hw] at h
    obtain ⟨u, s', rfl, hu, hnone, hs'⟩ := ih h
    exact ⟨w ++ u, s', (List.append_assoc w u (c :: s')).symm, .drop hw hu, hnone, hs'⟩
  | keep d s hs _ =>
    rw [erase_cons hs] at h
    obtain ⟨rfl, rfl⟩ := List.cons.inj h
    exact ⟨[], s, rfl, .nil, hs, rfl⟩

/-- Where the erased text begins with `t`, a first part of the text gives `t`. -/
theorem of_erase_eq_append (h : erase front s = t ++ v) :
    ∃ s₁ s₂, s = s₁ ++ s₂ ∧ Erased front s₁ t ∧ erase front s₂ = v := by
  induction t generalizing s with
  | nil => exact ⟨[], s, rfl, .nil, h⟩
  | cons c t ih =>
    obtain ⟨u, s', rfl, hu, -, hs'⟩ := hf.of_erase_eq_cons h
    obtain ⟨s₁, s₂, rfl, hs₁, hs₂⟩ := ih hs'
    refine ⟨u ++ c :: s₁, s₂, ?_, hu.append (.keep c hs₁), hs₂⟩
    rw [List.append_assoc]
    rfl

theorem interrupted_of_hasWord (h : HasWord front (erase front s)) : Interrupted front s := by
  obtain ⟨p, w, q, hw, heq⟩ := h
  obtain ⟨s₁, s₂, rfl, -, hs₂⟩ := hf.of_erase_eq_append heq
  obtain ⟨c, w, rfl⟩ := List.exists_cons_of_ne_nil (hf.ne_nil hw)
  rw [List.cons_append] at hs₂
  obtain ⟨u, s', rfl, -, hnone, hs'⟩ := hf.of_erase_eq_cons hs₂
  rcases List.eq_nil_or_concat' w with rfl | ⟨z, d, rfl⟩
  · have hsome := hf.front_append s' hw
    rw [List.singleton_append, hnone] at hsome
    cases hsome
  rw [List.append_assoc] at hs'
  obtain ⟨y, s₂, rfl, hy, hs₂⟩ := hf.of_erase_eq_append hs'
  obtain ⟨y', v, rfl, hy', -, -⟩ := hf.of_erase_eq_cons hs₂
  refine ⟨s₁ ++ u, c, y ++ y', z, d, v, ?_, hw, ?_, ?_⟩
  · rw [List.append_assoc, List.append_assoc]
  · have hyy := hy.append hy'
    rwa [List.append_nil] at hyy
  · -- without a word in between the scan would have taken the word itself
    intro hyz
    have hsome := hf.front_append v hw
    rw [← hyz, List.cons_append, List.append_assoc, List.append_assoc, List.singleton_append,
      hnone] at hsome
    cases hsome

/-- A word whose end stands where the rest of an interrupted one begins ends before the
interruption. -/
theorem eq_or_of_rest (hy : Erased front y z) (hx : x ≠ []) (hw : Word front (a ++ w)) (hne : w ≠ [])
    (h : c :: (y ++ (x ++ v)) = w ++ t) : y = z ∨ ∃ e, e ≠ [] ∧ c :: (z ++ x) = w ++ e := by
  rcases hy.eq_or with hyz | ⟨z₁, w₁, y₂, z₂, rfl, rfl, hw₁⟩
  · exact .inl hyz
  refine .inr ?_
  rw [List.append_assoc, List.append_assoc, ← List.cons_append] at h
  have before : ∀ e, c :: z₁ = w ++ e → ∃ e, e ≠ [] ∧ c :: (z₁ ++ z₂ ++ x) = w ++ e := by
    intro e he
    refine ⟨e ++ (z₂ ++ x), ?_, ?_⟩
    · exact List.append_ne_nil_of_right_ne_nil e (List.append_ne_nil_of_right_ne_nil z₂ hx)
    · rw [← List.append_assoc w, ← he, List.append_assoc]
      rfl
  rcases List.append_eq_append_iff.mp h with ⟨e, rfl, he⟩ | ⟨e, he, -⟩
  · rcases eq_or_ne e [] with rfl | hene
    · exact before [] (List.append_nil _ ▸ (List.append_nil _).symm)
    · -- the interrupting word would begin inside the other one
      rw [← List.append_assoc] at hw
      have hnone := hf.apart t hw (List.append_ne_nil_of_right_ne_nil a (List.cons_ne_nil c z₁)) hene
      rw [← he, hf.front_append _ hw₁] at hnone
      cases hnone
  · exact before e he

/-- The rest of an interrupted word gives its symbols. -/
theorem erase_rest (hy : Erased front y z) (hw : Word front (a ++ (z ++ x))) (ha : a ≠ [])
    (hx : x ≠ []) (v : List α) : erase front (y ++ (x ++ v)) = z ++ erase front (x ++ v) := by
  induction hy generalizing a with
  | nil => rfl
  | @keep y z c hy ih =>
    have hw' : Word front ((a ++ [c]) ++ (z ++ x)) := by
      rw [List.append_assoc]
      exact hw
    have hnone : front (c :: (y ++ (x ++ v))) = none := by
      rw [Option.eq_none_iff_forall_ne_some]
      intro t ht
      obtain ⟨w, hne, hword, heq⟩ := hf.of_front ht
      rcases hf.eq_or_of_rest (a := []) hy hx hword hne heq with rfl | ⟨e, -, he⟩
      · have hapart := hf.apart v hw ha (List.cons_ne_nil c _)
        rw [← List.append_assoc] at ht
        exact Option.some_ne_none t (ht.symm.trans hapart)
      · have hapart := hf.apart [] hw ha (List.cons_ne_nil c _)
        rw [List.append_nil] at hapart
        exact Option.some_ne_none e
          ((hf.front_append e hword).symm.trans ((congrArg front he).symm.trans hapart))
    rw [List.cons_append, erase_cons hnone, ih hw' (List.append_ne_nil_of_right_ne_nil a (List.cons_ne_nil c []))]
    rfl
  | drop hword _ ih => rw [List.append_assoc, hf.erase_word hword, ih hw ha]

theorem hasWord_of_interrupted (h : Interrupted front s) : HasWord front (erase front s) := by
  obtain ⟨u, c, y, z, d, v, rfl, hw, hy, hyz⟩ := h
  have hnone : front (c :: (y ++ ([d] ++ v))) = none := by
    rw [Option.eq_none_iff_forall_ne_some]
    intro t ht
    obtain ⟨w, hne, hword, heq⟩ := hf.of_front ht
    rcases hf.eq_or_of_rest (a := []) hy (List.cons_ne_nil d []) hword hne heq with rfl | ⟨e, he, heq'⟩
    · exact hyz rfl
    · rw [heq'] at hw
      exact he (Option.some.inj ((hf.front_append e hword).symm.trans hw))
  have hrest := hf.erase_rest (a := [c]) hy hw (List.cons_ne_nil c []) (List.cons_ne_nil d []) v
  have happ : erase front (u ++ c :: (y ++ ([d] ++ v))) =
      erase front u ++ erase front (c :: (y ++ ([d] ++ v))) := by
    refine hf.erase_append (fun a b t hab ha hb heq => ?_) u
    rcases hf.eq_or_of_rest hy (List.cons_ne_nil d []) hab hb heq with rfl | ⟨e, -, he⟩
    · exact hyz rfl
    · have hapart := hf.apart e hab ha hb
      rw [← he, hw] at hapart
      cases hapart
  have hd : erase front ([d] ++ v) = [d] ++ erase front v :=
    hf.erase_tail (s := c :: z) hw (List.cons_ne_nil c z) v
  refine ⟨erase front u, _, erase front v, hw, ?_⟩
  change erase front (u ++ c :: (y ++ ([d] ++ v))) = _
  rw [happ, erase_cons hnone, hrest, hd, @List.cons_append _ c (z ++ [d]), List.append_assoc z]

/-- **Erasing the words of a text leaves a word exactly when one is interrupted by others.** -/
theorem interrupted_iff : Interrupted front s ↔ HasWord front (erase front s) :=
  ⟨hf.hasWord_of_interrupted, hf.interrupted_of_hasWord⟩

end OverlapFree

/-! ## Chunks -/

/-- What a filter gives of a stream in chunks, when `p` is held: each chunk is erased behind what is
held, and of the result `cut` gives what is let through and what is held. -/
def filterFrom (front : Front α) (cut : List α → List α × List α) :
    List α → List (List α) → List α
  | p, [] => p
  | p, c :: cs =>
    let r := cut (erase front (p ++ c))
    r.1 ++ filterFrom front cut r.2 cs

/-- A rule that cuts a text in two and holds at least an end that may still grow into a word. -/
structure Holds (front : Front α) (cut : List α → List α × List α) : Prop where
  append : ∀ s, (cut s).1 ++ (cut s).2 = s
  held : ∀ {x q b}, q ≠ [] → b ≠ [] → Word front (q ++ b) → q <:+ (cut (x ++ q)).2

namespace OverlapFree

variable {front : Front α} {cut : List α → List α × List α} (hf : OverlapFree front)
  {o p r s t x : List α} {cs : List (List α)}
include hf

/-- A text is a part that is scanned whatever follows, and an end that may still grow into a word. -/
theorem exists_end (s : List α) : ∃ a q, s = a ++ q ∧ erase front s = erase front a ++ q ∧
    (∀ t, erase front (s ++ t) = erase front a ++ erase front (q ++ t)) ∧
    (q = [] ∨ ∃ b, b ≠ [] ∧ Word front (q ++ b)) := by
  induction s using hf.scan_induction with
  | nil => exact ⟨[], [], rfl, rfl, fun _ => rfl, .inl rfl⟩
  | word w s hw ih =>
    obtain ⟨a, q, rfl, herase, happ, hq⟩ := ih
    refine ⟨w ++ a, q, (List.append_assoc w a q).symm, ?_, fun t => ?_, hq⟩
    · rw [hf.erase_word hw, hf.erase_word hw, herase]
    · rw [List.append_assoc, hf.erase_word hw, hf.erase_word hw, happ]
  | keep c s hs ih =>
    by_cases hgrow : ∃ b, b ≠ [] ∧ Word front (c :: s ++ b)
    · obtain ⟨b, hb, hw⟩ := hgrow
      refine ⟨[], c :: s, rfl, ?_, fun t => rfl, .inr ⟨b, hb, hw⟩⟩
      rw [erase_cons hs, hf.erase_part (a := [c]) hw (List.cons_ne_nil c []), erase_nil]
      rfl
    · obtain ⟨a, q, rfl, herase, happ, hq⟩ := ih
      have hnone : ∀ t, front (c :: (a ++ q ++ t)) = none := by
        intro t
        rw [Option.eq_none_iff_forall_ne_some]
        intro t' ht'
        obtain ⟨b, hb, hw, -⟩ := hf.front_append_cases (s := c :: (a ++ q)) ht' hs
        exact hgrow ⟨b, hb, hw⟩
      have ha : front (c :: a) = none := by
        rw [Option.eq_none_iff_forall_ne_some]
        intro t ht
        have hsome := hf.front_append_of_some ht q
        rw [List.cons_append, hs] at hsome
        cases hsome
      refine ⟨c :: a, q, rfl, ?_, fun t => ?_, hq⟩
      · rw [erase_cons hs, erase_cons ha, herase]
        rfl
      · rw [List.cons_append, erase_cons (hnone t), erase_cons ha, happ]
        rfl

/-- What was held and is read again gives itself, unless a word comes about. -/
theorem erase_again (h : ¬HasWord front (r ++ erase front x)) :
    erase front (r ++ x) = r ++ erase front x := by
  induction r with
  | nil => rfl
  | cons c r ih =>
    have hnone : front (c :: (r ++ x)) = none := by
      rw [Option.eq_none_iff_forall_ne_some]
      intro t ht
      obtain ⟨w, hne, hw, heq⟩ := hf.of_front ht
      rw [← List.cons_append] at heq
      rcases List.append_eq_append_iff.mp heq with ⟨e, rfl, rfl⟩ | ⟨e, he, -⟩
      · rw [hf.erase_tail hw (List.cons_ne_nil c r)] at h
        refine h ⟨[], _, erase front t, hw, ?_⟩
        rw [List.append_assoc]
        rfl
      · refine h ⟨[], w, e ++ erase front x, hw, ?_⟩
        rw [he, List.append_assoc]
        rfl
    have hr : ¬HasWord front (r ++ erase front x) := fun ⟨p, w, q, hw, heq⟩ =>
      h ⟨c :: p, w, q, hw, congrArg (c :: ·) heq⟩
    rw [List.cons_append, erase_cons hnone, ih hr]
    rfl

/-- What the rule lets through of a chunk is what the whole stream gives there. -/
theorem erase_cut (hcut : Holds front cut) (s t : List α) (h : ¬HasWord front (erase front (s ++ t))) :
    erase front (s ++ t) =
      (cut (erase front s)).1 ++ erase front ((cut (erase front s)).2 ++ t) := by
  obtain ⟨a, q, rfl, herase, happ, hq⟩ := hf.exists_end s
  -- the end that may grow is held, with some of what stands before it
  have hend : q <:+ (cut (erase front (a ++ q))).2 := by
    rcases hq with rfl | ⟨b, hb, hw⟩
    · exact List.nil_suffix
    · rcases eq_or_ne q [] with rfl | hne
      · exact List.nil_suffix
      · rw [herase]
        exact hcut.held hne hb hw
  obtain ⟨r, hr⟩ := hend
  have hcat := hcut.append (erase front (a ++ q))
  rw [← hr, herase, ← List.append_assoc, List.append_cancel_right_eq] at hcat
  rw [happ, ← hcat, List.append_assoc] at h
  have hr' : ¬HasWord front (r ++ erase front (q ++ t)) := fun ⟨p, w, q', hw, heq⟩ =>
    h ⟨_ ++ p, w, q', hw, by rw [List.append_assoc, ← heq]⟩
  rw [happ, ← hr, ← hcat, List.append_assoc, List.append_assoc, hf.erase_again hr', herase]

/-- **A filter gives what the whole stream gives when no word comes about.** -/
theorem filterFrom_eq_erase (hcut : Holds front cut) (c : List α)
    (h : ¬HasWord front (erase front (p ++ (c :: cs).flatten))) :
    filterFrom front cut p (c :: cs) = erase front (p ++ (c :: cs).flatten) := by
  induction cs generalizing p c with
  | nil =>
    rw [filterFrom, filterFrom, hcut.append]
    simp only [List.flatten_cons, List.flatten_nil, List.append_nil]
  | cons d cs ih =>
    rw [List.flatten_cons, ← List.append_assoc] at h ⊢
    have hcat := hf.erase_cut hcut (p ++ c) _ h
    rw [hcat] at h ⊢
    rw [filterFrom]
    refine congrArg _ (ih d fun ⟨u, w, v, hw, heq⟩ => h ?_)
    exact ⟨_ ++ u, w, v, hw, by rw [List.append_assoc, ← heq]⟩

end OverlapFree

end Sysforge.Erasure
