import Mathlib.Data.List.Basic
import Mathlib.Data.List.Infix

/-!
# Python text

A Python string is handled as the list of its code points. The methods the modelled code calls
on strings are here, each with the facts its callers use: `str.replace` for a one-character
pattern, `"\n".join`, `str.strip` and `str.splitlines`.
-/

namespace Sysforge

/-- A Python string, as the list of its code points. -/
abbrev Text := List Char

namespace Text

instance decidableMem (t : Text) (l : List Text) : Decidable (t ∈ l) :=
  List.instDecidableMemOfLawfulBEq t l

/-- `s.replace(p, r)` for a one-character pattern `p`. -/
def replaceChar (p : Char) (r s : Text) : Text := s.flatMap fun c => if c = p then r else [c]

@[simp] theorem replaceChar_nil (p : Char) (r : Text) : replaceChar p r [] = [] := rfl

@[simp] theorem replaceChar_cons (p : Char) (r : Text) (c : Char) (s : Text) :
    replaceChar p r (c :: s) = (if c = p then r else [c]) ++ replaceChar p r s := rfl

@[simp] theorem replaceChar_append (p : Char) (r s t : Text) :
    replaceChar p r (s ++ t) = replaceChar p r s ++ replaceChar p r t := List.flatMap_append

/-- `"\n".join(lines)`. -/
def joinLines : List Text → Text
  | [] => []
  | [l] => l
  | l :: ls => l ++ '\n' :: joinLines ls

/-- A join whose last piece is empty ends every other piece with a newline. -/
theorem joinLines_append_nil (ls : List Text) :
    joinLines (ls ++ [[]]) = ls.flatMap fun l => l ++ ['\n'] := by
  induction ls with
  | nil => rfl
  | cons l ls ih =>
    obtain ⟨m, ms, h⟩ : ∃ m ms, ls ++ [[]] = m :: ms := by
      cases ls <;> simp
    rw [List.cons_append, h, joinLines, ← h, ih, List.flatMap_cons, List.append_assoc]
    · rfl
    · simp

/-- `str.isspace` on one code point. -/
def isSpace (c : Char) : Bool :=
  c.toNat ∈ [0x09, 0x0a, 0x0b, 0x0c, 0x0d, 0x1c, 0x1d, 0x1e, 0x1f, 0x20, 0x85, 0xa0, 0x1680,
    0x2028, 0x2029, 0x202f, 0x205f, 0x3000] || (0x2000 ≤ c.toNat && c.toNat ≤ 0x200a)

/-- `s.strip()`. -/
def strip (s : Text) : Text := ((s.dropWhile isSpace).reverse.dropWhile isSpace).reverse

/-- The code points other than `\r\n` at which `str.splitlines` breaks. -/
def isLineBreak (c : Char) : Bool :=
  c.toNat ∈ [0x0a, 0x0b, 0x0c, 0x0d, 0x1c, 0x1d, 0x1e, 0x85, 0x2028, 0x2029]

/-- `s.splitlines()`, with the current line accumulated in reverse. -/
def splitlinesAux : Text → Text → List Text
  | [], [] => []
  | [], acc => [acc.reverse]
  | '\r' :: '\n' :: s, acc => acc.reverse :: splitlinesAux s []
  | c :: s, acc =>
    if isLineBreak c then acc.reverse :: splitlinesAux s [] else splitlinesAux s (c :: acc)

/-- `s.splitlines()`. -/
def splitlines (s : Text) : List Text := splitlinesAux s []

/-- `s.split(sep)` for a one-character separator. -/
def split (sep : Char) : Text → List Text
  | [] => [[]]
  | c :: s =>
    if c = sep then [] :: split sep s
    else match split sep s with
      | [] => [[c]]
      | l :: ls => (c :: l) :: ls

/-- `s.find(sub)`: where `sub` first occurs. -/
def find (sub : Text) : Text → Option ℕ
  | [] => if sub.isEmpty then some 0 else none
  | c :: s => if sub.isPrefixOf (c :: s) then some 0 else (find sub s).map (· + 1)

/-- `s.split()`: the maximal runs of characters that are no space. -/
def words (s : Text) : List Text := (s.splitOnP isSpace).filter fun w => w ≠ []

/-- `" ".join(ws)`. -/
def unwords (ws : List Text) : Text := List.intercalate [' '] ws

/-- The zeros of the scripts that have decimal digits; the nine others follow each. -/
def zeros : List ℕ :=
  [0x30, 0x660, 0x6f0, 0x7c0, 0x966, 0x9e6, 0xa66, 0xae6, 0xb66, 0xbe6, 0xc66, 0xce6, 0xd66, 0xde6,
    0xe50, 0xed0, 0xf20, 0x1040, 0x1090, 0x17e0, 0x1810, 0x1946, 0x19d0, 0x1a80, 0x1a90, 0x1b50,
    0x1bb0, 0x1c40, 0x1c50, 0xa620, 0xa8d0, 0xa900, 0xa9d0, 0xa9f0, 0xaa50, 0xabf0, 0xff10, 0x104a0,
    0x10d30, 0x11066, 0x110f0, 0x11136, 0x111d0, 0x112f0, 0x11450, 0x114d0, 0x11650, 0x116c0,
    0x11730, 0x118e0, 0x11950, 0x11c50, 0x11d50, 0x11da0, 0x16a60, 0x16ac0, 0x16b50, 0x1d7ce,
    0x1d7d8, 0x1d7e2, 0x1d7ec, 0x1d7f6, 0x1e140, 0x1e2f0, 0x1e950, 0x1fbf0]

/-- `\d` of the `re` module. -/
def isDecimal (c : Char) : Bool := zeros.any fun z => z ≤ c.toNat && c.toNat ≤ z + 9

/-- `s.replace(pat, r)`, when the first `n` characters are part of a replaced occurrence. -/
def replaceFrom (pat r : Text) : ℕ → Text → Text
  | _, [] => []
  | n + 1, _ :: s => replaceFrom pat r n s
  | 0, c :: s =>
    if pat.isPrefixOf (c :: s) then r ++ replaceFrom pat r (pat.length - 1) s
    else c :: replaceFrom pat r 0 s

/-- `s.replace(pat, r)` for a pattern that is not empty. -/
def replace (pat r s : Text) : Text := replaceFrom pat r 0 s

/-- `s.count(pat)`, when the first `n` characters are part of an occurrence. -/
def countFrom (pat : Text) : ℕ → Text → ℕ
  | _, [] => 0
  | n + 1, _ :: s => countFrom pat n s
  | 0, c :: s =>
    if pat.isPrefixOf (c :: s) then 1 + countFrom pat (pat.length - 1) s else countFrom pat 0 s

/-- `s.count(pat)`: the occurrences of a pattern, none overlapping another. -/
def occurrences (pat s : Text) : ℕ := countFrom pat 0 s

/-- `s.split(sep)`, with the current piece accumulated in reverse, when the first `n` characters are
part of a separator. -/
def splitFrom (sep : Text) : ℕ → Text → Text → List Text
  | _, acc, [] => [acc.reverse]
  | n + 1, acc, _ :: s => splitFrom sep n acc s
  | 0, acc, c :: s =>
    if sep.isPrefixOf (c :: s) then acc.reverse :: splitFrom sep (sep.length - 1) [] s
    else splitFrom sep 0 (c :: acc) s

/-- `s.split(sep)` for a separator that is not empty. -/
def splitSep (sep s : Text) : List Text := splitFrom sep 0 [] s

/-- `pat in s`. -/
def contains (pat s : Text) : Bool := (find pat s).isSome

/-- `str(n)` of an integer. -/
def ofInt : ℤ → Text
  | .ofNat n => Nat.toDigits 10 n
  | .negSucc n => '-' :: Nat.toDigits 10 (n + 1)

/-- `s[-n:]` for a positive `n`. -/
def takeLast {α : Type*} (n : ℕ) (s : List α) : List α := s.drop (s.length - n)

theorem mem_of_mem_takeLast {α : Type*} {n : ℕ} {a : α} {s : List α} (h : a ∈ takeLast n s) :
    a ∈ s := List.mem_of_mem_drop h

theorem mem_of_mem_split {sep c : Char} {s l : Text} (hl : l ∈ split sep s) (hc : c ∈ l) :
    c ∈ s := by
  induction s generalizing l with
  | nil =>
    rw [split, List.mem_singleton] at hl
    subst hl
    cases hc
  | cons d s ih =>
    rw [split] at hl
    split_ifs at hl with h
    · rcases List.mem_cons.1 hl with rfl | hl
      · cases hc
      · exact List.mem_cons_of_mem _ (ih hl hc)
    · cases hs : split sep s with
      | nil =>
        rw [hs, List.mem_singleton] at hl
        subst hl
        rw [List.mem_singleton.1 hc]
        exact List.mem_cons_self
      | cons m ms =>
        rw [hs] at hl ih
        rcases List.mem_cons.1 hl with rfl | hl
        · rcases List.mem_cons.1 hc with rfl | hc
          · exact List.mem_cons_self
          · exact List.mem_cons_of_mem _ (ih List.mem_cons_self hc)
        · exact List.mem_cons_of_mem _ (ih (List.mem_cons_of_mem _ hl) hc)

theorem mem_of_mem_intercalate {sep : Text} {c : Char} : ∀ {ls : List Text},
    c ∈ sep.intercalate ls → c ∈ sep ∨ ∃ l ∈ ls, c ∈ l
  | [], h => by cases h
  | [l], h => Or.inr ⟨l, by simp, by simpa using h⟩
  | l :: m :: ls, h => by
    rw [List.intercalate_cons_cons, List.mem_append, List.mem_append] at h
    rcases h with (h | h) | h
    · exact Or.inr ⟨l, by simp, h⟩
    · exact Or.inl h
    · rcases mem_of_mem_intercalate h with h | ⟨l', hl', h⟩
      · exact Or.inl h
      · exact Or.inr ⟨l', List.mem_cons_of_mem _ hl', h⟩

theorem mem_intercalate_of_mem (sep : Text) {l : Text} {c : Char} : ∀ {ls : List Text},
    l ∈ ls → c ∈ l → c ∈ sep.intercalate ls
  | [], hl, _ => absurd hl List.not_mem_nil
  | [m], hl, hc => by
    rw [List.intercalate_singleton, ← List.mem_singleton.1 hl]
    exact hc
  | m :: n :: ls, hl, hc => by
    rw [List.intercalate_cons_cons]
    rcases List.mem_cons.1 hl with rfl | hl
    · exact List.mem_append_left _ (List.mem_append_left _ hc)
    · exact List.mem_append_right _ (mem_intercalate_of_mem sep hl hc)

theorem mem_ofInt {c : Char} {n : ℤ} (h : c ∈ ofInt n) : c.isDigit ∨ c = '-' := by
  cases n with
  | ofNat n => exact Or.inl (Nat.isDigit_of_mem_toDigits (by decide) (by decide) h)
  | negSucc n =>
    rcases List.mem_cons.1 h with rfl | h
    · exact Or.inr rfl
    · exact Or.inl (Nat.isDigit_of_mem_toDigits (by decide) (by decide) h)

/-- Words split at a space. -/
theorem words_append_cons {c : Char} (hc : isSpace c = true) (x y : Text) :
    words (x ++ c :: y) = words x ++ words y := by
  rw [words, List.splitOnP_append_cons x y hc, List.filter_append]
  rfl

theorem words_of_forall {w : Text} (hne : w ≠ []) (h : ∀ c ∈ w, isSpace c = false) :
    words w = [w] := by
  rw [words, List.splitOnP_eq_singleton h]
  simp [hne]

/-- A word is not empty and has no space. -/
theorem mem_words {s w : Text} (h : w ∈ words s) : w ≠ [] ∧ ∀ c ∈ w, isSpace c = false ∧ c ∈ s := by
  obtain ⟨hw, hne⟩ := List.mem_filter.1 h
  refine ⟨by simpa using hne, ?_⟩
  clear h hne
  induction s generalizing w with
  | nil =>
    rw [List.splitOnP_nil, List.mem_singleton] at hw
    subst hw
    nofun
  | cons d s ih =>
    rw [List.splitOnP_cons_eq_if_modifyHead] at hw
    split_ifs at hw with hd
    · rcases List.mem_cons.1 hw with rfl | hw
      · nofun
      · exact fun c hc => ⟨(ih hw c hc).1, List.mem_cons_of_mem _ (ih hw c hc).2⟩
    · obtain ⟨r, rs, hr⟩ := List.exists_cons_of_ne_nil (List.splitOnP_ne_nil isSpace s)
      rw [hr] at ih hw
      rw [List.modifyHead_cons] at hw
      rcases List.mem_cons.1 hw with rfl | hw
      · intro c hc
        rcases List.mem_cons.1 hc with rfl | hc
        · exact ⟨by simpa using hd, List.mem_cons_self⟩
        · have := ih List.mem_cons_self c hc
          exact ⟨this.1, List.mem_cons_of_mem _ this.2⟩
      · exact fun c hc => ⟨(ih (List.mem_cons_of_mem _ hw) c hc).1,
          List.mem_cons_of_mem _ (ih (List.mem_cons_of_mem _ hw) c hc).2⟩

/-- Joined words split into themselves. -/
theorem words_unwords {ws : List Text} (h : ∀ w ∈ ws, w ≠ [] ∧ ∀ c ∈ w, isSpace c = false) :
    words (unwords ws) = ws := by
  induction ws with
  | nil => rfl
  | cons w ws ih =>
    obtain ⟨hne, hw⟩ := h w List.mem_cons_self
    have hrest := ih fun v hv => h v (List.mem_cons_of_mem _ hv)
    cases ws with
    | nil => rw [unwords, List.intercalate_singleton, words_of_forall hne hw]
    | cons v ws =>
      rw [unwords, List.intercalate_cons_cons, List.append_assoc, List.singleton_append,
        words_append_cons (by decide), words_of_forall hne hw]
      rw [unwords] at hrest
      rw [hrest, List.singleton_append]

/-! ## Splitting -/

theorem splitFrom_eq {sep : Text} (n : ℕ) (acc s : Text) :
    splitFrom sep n acc s = splitFrom sep 0 acc (s.drop n) := by
  induction n generalizing s with
  | zero => rw [List.drop_zero]
  | succ n ih =>
    cases s with
    | nil => rw [List.drop_nil, splitFrom, splitFrom]
    | cons c s => rw [splitFrom, ih, List.drop_succ_cons]

theorem splitFrom_ne_nil {sep : Text} (n : ℕ) (acc s : Text) : splitFrom sep n acc s ≠ [] := by
  induction s generalizing n acc with
  | nil =>
    rw [splitFrom]
    exact List.cons_ne_nil _ _
  | cons c s ih =>
    cases n with
    | succ n => exact ih n acc
    | zero =>
      rw [splitFrom]
      split
      · exact List.cons_ne_nil _ _
      · exact ih 0 _

/-- The pieces between the separators, joined again. -/
theorem intercalate_splitFrom {a : Char} {sep : Text} (acc s : Text) :
    List.intercalate (a :: sep) (splitFrom (a :: sep) 0 acc s) = acc.reverse ++ s := by
  induction hn : s.length using Nat.strong_induction_on generalizing acc s with
  | _ n ih =>
    cases s with
    | nil => rw [splitFrom, List.intercalate_singleton, List.append_nil]
    | cons c s =>
      have hlt : s.length < n := by rw [← hn, List.length_cons]; exact Nat.lt_succ_self _
      rw [splitFrom]
      split
      next h =>
        obtain ⟨rest, hrest⟩ := List.isPrefixOf_iff_prefix.mp h
        rw [List.cons_append, List.cons.injEq] at hrest
        obtain ⟨rfl, rfl⟩ := hrest
        rw [splitFrom_eq, List.intercalate_cons_of_ne_nil (splitFrom_ne_nil _ _ _),
          List.length_cons, Nat.add_sub_cancel, List.drop_left,
          ih rest.length (by rw [List.length_append] at hlt; omega) [] rest rfl]
        simp only [List.reverse_nil, List.nil_append, List.cons_append, List.append_assoc]
      · rw [ih s.length hlt (c :: acc) s rfl, List.reverse_cons, List.append_assoc,
          List.singleton_append]

theorem intercalate_splitSep {a : Char} {sep : Text} (s : Text) :
    List.intercalate (a :: sep) (splitSep (a :: sep) s) = s :=
  intercalate_splitFrom [] s

/-! ## Replacing and counting -/

section Occurrences

variable {pat r s x y : Text} {a c : Char}

theorem replaceFrom_eq (n : ℕ) (s : Text) : replaceFrom pat r n s = replace pat r (s.drop n) := by
  induction n generalizing s with
  | zero => rw [List.drop_zero, replace]
  | succ n ih =>
    cases s with
    | nil => rw [List.drop_nil, replace, replaceFrom, replaceFrom]
    | cons c s => rw [replaceFrom, ih, List.drop_succ_cons]

theorem replace_cons (c : Char) (s : Text) : replace pat r (c :: s) =
    if pat.isPrefixOf (c :: s) then r ++ replace pat r (s.drop (pat.length - 1))
    else c :: replace pat r s := by
  rw [replace, replaceFrom, replaceFrom_eq]
  rfl

theorem countFrom_eq (n : ℕ) (s : Text) : countFrom pat n s = occurrences pat (s.drop n) := by
  induction n generalizing s with
  | zero => rw [List.drop_zero, occurrences]
  | succ n ih =>
    cases s with
    | nil => rw [List.drop_nil, occurrences, countFrom, countFrom]
    | cons c s => rw [countFrom, ih, List.drop_succ_cons]

theorem occurrences_cons (c : Char) (s : Text) : occurrences pat (c :: s) =
    if pat.isPrefixOf (c :: s) then 1 + occurrences pat (s.drop (pat.length - 1))
    else occurrences pat s := by
  rw [occurrences, countFrom, countFrom_eq]
  rfl

theorem isPrefixOf_cons_of_ne (h : a ≠ c) : (a :: pat).isPrefixOf (c :: s) = false := by
  rw [List.isPrefixOf_cons_cons, beq_false_of_ne h, Bool.false_and]

theorem replace_append_self (s : Text) :
    replace (a :: pat) r (a :: pat ++ s) = r ++ replace (a :: pat) r s := by
  rw [List.cons_append, replace_cons, if_pos]
  · simp
  · rw [List.isPrefixOf_iff_prefix]
    exact List.prefix_append _ _

theorem occurrences_append_self (s : Text) :
    occurrences (a :: pat) (a :: pat ++ s) = 1 + occurrences (a :: pat) s := by
  rw [List.cons_append, occurrences_cons, if_pos]
  · simp
  · rw [List.isPrefixOf_iff_prefix]
    exact List.prefix_append _ _

/-- Text without the first character of the pattern is passed over. -/
theorem replace_append_of_notMem (h : a ∉ x) (s : Text) :
    replace (a :: pat) r (x ++ s) = x ++ replace (a :: pat) r s := by
  induction x with
  | nil => rfl
  | cons c x ih =>
    rw [List.mem_cons, not_or] at h
    rw [List.cons_append, replace_cons, isPrefixOf_cons_of_ne h.1, if_neg (by decide), ih h.2,
      List.cons_append]

theorem occurrences_append_of_notMem (h : a ∉ x) (s : Text) :
    occurrences (a :: pat) (x ++ s) = occurrences (a :: pat) s := by
  induction x with
  | nil => rfl
  | cons c x ih =>
    rw [List.mem_cons, not_or] at h
    rw [List.cons_append, occurrences_cons, isPrefixOf_cons_of_ne h.1, if_neg (by decide), ih h.2]

theorem occurrences_of_notMem (h : a ∉ x) : occurrences (a :: pat) x = 0 := by
  have := @occurrences_append_of_notMem pat x a h []
  rwa [List.append_nil] at this

theorem replace_of_occurrences_eq_zero (h : occurrences pat s = 0) : replace pat r s = s := by
  induction s with
  | nil => rfl
  | cons c s ih =>
    rw [occurrences_cons] at h
    rw [replace_cons]
    split at h
    · omega
    next hp => rw [if_neg hp, ih h]

/-- Nothing occurs across a character that the pattern does not have. -/
theorem occurrences_append_cons (h : c ∉ a :: pat) (x y : Text) :
    occurrences (a :: pat) (x ++ c :: y) = occurrences (a :: pat) x + occurrences (a :: pat) y := by
  induction hn : x.length using Nat.strong_induction_on generalizing x with
  | _ n ih =>
    subst hn
    cases x with
    | nil =>
      rw [List.mem_cons, not_or] at h
      rw [List.nil_append, occurrences_cons, isPrefixOf_cons_of_ne (Ne.symm h.1),
        if_neg (by decide), show occurrences (a :: pat) [] = 0 from rfl, Nat.zero_add]
    | cons d x =>
      have hiff : (a :: pat).isPrefixOf (d :: (x ++ c :: y)) = (a :: pat).isPrefixOf (d :: x) := by
        rw [Bool.eq_iff_iff, List.isPrefixOf_iff_prefix, List.isPrefixOf_iff_prefix,
          ← List.cons_append]
        constructor
        · intro hp
          rcases List.prefix_or_prefix_of_prefix hp (List.prefix_append (d :: x) (c :: y)) with
            hp' | hp'
          · exact hp'
          · obtain ⟨z, hz⟩ := hp'
            rw [← hz, List.prefix_append_right_inj] at hp
            cases z with
            | nil => rw [← hz, List.append_nil]
            | cons e z =>
              obtain ⟨rfl, -⟩ := List.cons_prefix_cons.mp hp
              exact absurd (hz ▸ List.mem_append_right _ List.mem_cons_self) h
        · exact fun hp => hp.trans (List.prefix_append _ _)
      rw [List.cons_append, occurrences_cons, occurrences_cons, hiff]
      split
      next hp =>
        have hlen := (List.isPrefixOf_iff_prefix.mp hp).length_le
        simp only [List.length_cons] at hlen
        rw [List.length_cons, Nat.add_sub_cancel, List.drop_append_of_le_length (by omega),
          ih _ (by simp only [List.length_drop, List.length_cons]; omega) _ rfl, Nat.add_assoc]
      · exact ih _ (by simp) _ rfl

theorem contains_iff : contains (a :: pat) s = true ↔ 0 < occurrences (a :: pat) s := by
  induction s with
  | nil => exact ⟨nofun, nofun⟩
  | cons c s ih =>
    rw [contains, find, occurrences_cons]
    split
    · exact ⟨fun _ => by omega, fun _ => rfl⟩
    · rw [Option.isSome_map, ← contains, ih]

end Occurrences
end Text

/-- The text of a clock reading, `%Y-%m-%dT%H:%M:%SZ`. -/
def IsTimestamp (s : String) : Prop :=
  ∀ c ∈ s.toList, c.isDigit = true ∨ c = '-' ∨ c = ':' ∨ c = 'T' ∨ c = 'Z'

instance (s : String) : Decidable (IsTimestamp s) := List.decidableBAll _ s.toList

end Sysforge
