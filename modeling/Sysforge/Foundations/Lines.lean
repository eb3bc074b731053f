import Mathlib.Data.List.DropRight
import Mathlib.Data.List.Induction
import Sysforge.Foundations.Text

/-!
# The lines of a text

A text whose lines all end with a newline is read back by `str.splitlines` when no line has a line
break of its own. A line `key value` is split at its first run of spaces, and `str.strip` on either
side is the same as on the value. The last part of a path is what follows its last slash.
-/

namespace Sysforge.Text

/-- The text is within one line. -/
def OneLine (s : Text) : Prop := ∀ c ∈ s, isLineBreak c = false

instance (s : Text) : Decidable (OneLine s) := List.decidableBAll _ s

/-- The text has no space. -/
def NoSpace (s : Text) : Prop := ∀ c ∈ s, isSpace c = false

instance (s : Text) : Decidable (NoSpace s) := List.decidableBAll _ s

/-- `"".join(line + "\n" for line in lines)`. -/
def unlines (ls : List Text) : Text := ls.flatMap fun l => l ++ ['\n']

/-- The first word of a line, up to a space. -/
def firstWord (s : Text) : Text := s.takeWhile fun c => !isSpace c

/-- What follows the first word. -/
def afterWord (s : Text) : Text := s.dropWhile fun c => !isSpace c

/-- `path.rsplit("/", 1)[-1]`. -/
def baseName (path : Text) : Text := path.rtakeWhile fun c => c ≠ '/'

/-- The path up to its last slash, with the slash: the first two parts of `path.rpartition("/")`. -/
def dirPart (path : Text) : Text := path.rdropWhile fun c => c ≠ '/'

variable {s t l v key : Text} {c : Char}

theorem oneLine_nil : OneLine [] := fun _ h => absurd h List.not_mem_nil

theorem OneLine.append (hs : OneLine s) (ht : OneLine t) : OneLine (s ++ t) := by
  intro c hc
  rcases List.mem_append.mp hc with h | h
  · exact hs c h
  · exact ht c h

theorem OneLine.of_subset (ht : OneLine t) (h : s ⊆ t) : OneLine s := fun c hc => ht c (h hc)

theorem isSpace_of_isLineBreak (h : isLineBreak c = true) : isSpace c = true := by
  have hmem := of_decide_eq_true h
  rw [isSpace, Bool.or_eq_true]
  refine .inl (decide_eq_true ?_)
  simp only [List.mem_cons, List.not_mem_nil, or_false] at hmem ⊢
  tauto

/-! ## Splitting into lines -/

theorem splitlinesAux_cons (hc : isLineBreak c = false) (s acc : Text) :
    splitlinesAux (c :: s) acc = splitlinesAux s (c :: acc) := by
  have hr : c ≠ '\r' := by
    rintro rfl
    cases hc
  rw [splitlinesAux, if_neg (ne_true_of_eq_false hc)]
  rintro s' rfl
  exact fun _ => absurd rfl hr

theorem splitlinesAux_newline (s acc : Text) :
    splitlinesAux ('\n' :: s) acc = acc.reverse :: splitlinesAux s [] := by
  rw [splitlinesAux, if_pos (by decide)]
  exact fun s' h => absurd h (by decide)

theorem splitlinesAux_line (hl : OneLine l) (s acc : Text) :
    splitlinesAux (l ++ '\n' :: s) acc = (acc.reverse ++ l) :: splitlinesAux s [] := by
  induction l generalizing acc with
  | nil => rw [List.nil_append, splitlinesAux_newline, List.append_nil]
  | cons c l ih =>
    rw [List.cons_append, splitlinesAux_cons (hl c List.mem_cons_self),
      ih fun d hd => hl d (List.mem_cons_of_mem _ hd)]
    simp

/-- **Lines come back** when each is within one line. -/
theorem splitlines_unlines {ls : List Text} (h : ∀ l ∈ ls, OneLine l) :
    splitlines (unlines ls) = ls := by
  induction ls with
  | nil => rfl
  | cons l ls ih =>
    have hl : unlines (l :: ls) = l ++ '\n' :: unlines ls := by
      rw [unlines, List.flatMap_cons, List.append_assoc]
      rfl
    rw [hl, splitlines, splitlinesAux_line (h l List.mem_cons_self), List.reverse_nil,
      List.nil_append]
    exact congrArg _ (ih fun m hm => h m (List.mem_cons_of_mem _ hm))

theorem oneLine_of_mem_splitlinesAux {acc : Text} (hacc : OneLine acc)
    (hl : l ∈ splitlinesAux s acc) : OneLine l := by
  have hrev : ∀ {a : Text}, OneLine a → OneLine a.reverse :=
    fun h => h.of_subset fun c hc => List.mem_reverse.mp hc
  fun_induction splitlinesAux s acc with
  | case1 => cases hl
  | case2 acc => exact List.mem_singleton.mp hl ▸ hrev hacc
  | case3 acc s ih =>
    rcases List.mem_cons.mp hl with rfl | hl
    · exact hrev hacc
    · exact ih oneLine_nil hl
  | case4 c s acc _ hc ih =>
    rcases List.mem_cons.mp hl with rfl | hl
    · exact hrev hacc
    · exact ih oneLine_nil hl
  | case5 c s acc _ hc ih =>
    refine ih (fun d hd => ?_) hl
    rcases List.mem_cons.mp hd with rfl | hd
    · exact Bool.eq_false_iff.mpr hc
    · exact hacc d hd

/-- A line of `str.splitlines` is within one line. -/
theorem oneLine_of_mem_splitlines (hl : l ∈ splitlines s) : OneLine l :=
  oneLine_of_mem_splitlinesAux oneLine_nil hl

/-! ## Stripping -/

theorem strip_eq (s : Text) : strip s = (s.dropWhile isSpace).rdropWhile isSpace := rfl

theorem strip_subset : strip s ⊆ s := fun _ hc =>
  (List.dropWhile_suffix isSpace).subset ((List.rdropWhile_prefix isSpace _).subset hc)

theorem strip_append_left (h : ∀ c ∈ s, isSpace c = true) : strip (s ++ t) = strip t := by
  rw [strip_eq, List.dropWhile_append_of_pos h, ← strip_eq]

theorem rdropWhile_append_of_pos {p : Char → Bool} (h : ∀ c ∈ t, p c = true) :
    (s ++ t).rdropWhile p = s.rdropWhile p := by
  rw [List.rdropWhile, List.reverse_append,
    List.dropWhile_append_of_pos fun c hc => h c (List.mem_reverse.mp hc), ← List.rdropWhile]

theorem strip_append_right (h : ∀ c ∈ t, isSpace c = true) : strip (s ++ t) = strip s := by
  rw [strip_eq, strip_eq, List.dropWhile_append]
  split_ifs with hs
  · rw [List.isEmpty_iff.mp hs, List.rdropWhile_nil, List.dropWhile_eq_nil_iff.mpr h,
      List.rdropWhile_nil]
  · exact rdropWhile_append_of_pos h

/-- Stripping the end first changes nothing. -/
theorem strip_rdropWhile (s : Text) : strip (s.rdropWhile isSpace) = strip s := by
  conv_rhs => rw [← @List.rdropWhile_append_rtakeWhile _ isSpace s]
  exact (strip_append_right fun c hc => List.mem_rtakeWhile_imp hc).symm

theorem strip_eq_self_of (hhead : ∀ c ∈ s.head?, isSpace c = false)
    (hlast : ∀ c ∈ s.getLast?, isSpace c = false) : strip s = s := by
  cases s with
  | nil => rfl
  | cons c s =>
    have hc : isSpace c = false := hhead c rfl
    rw [strip_eq, List.dropWhile_cons_of_neg (ne_true_of_eq_false hc), List.rdropWhile_eq_self_iff]
    exact fun hne => ne_true_of_eq_false (hlast _ (List.getLast?_eq_getLast_of_ne_nil hne))

theorem strip_strip (s : Text) : strip (strip s) = strip s := by
  rw [strip_eq s, strip_rdropWhile, strip_eq, List.dropWhile_idempotent]

/-! ## Words at blank ends -/

theorem words_cons_space {c : Char} (hc : isSpace c = true) (s : Text) : words (c :: s) = words s :=
  words_append_cons hc [] s

theorem words_append_space {g : Text} (hg : ∀ c ∈ g, isSpace c = true) (s : Text) :
    words (g ++ s) = words s := by
  induction g with
  | nil => rfl
  | cons c g ih =>
    rw [List.cons_append, words_cons_space (hg c List.mem_cons_self),
      ih fun d hd => hg d (List.mem_cons_of_mem _ hd)]

theorem words_rdropWhile_space (s : Text) : words (s.rdropWhile isSpace) = words s := by
  induction s using List.reverseRecOn with
  | nil => rfl
  | append_singleton s c ih =>
    by_cases hc : isSpace c = true
    · rw [List.rdropWhile_concat_pos _ _ _ hc, ih]
      exact ((words_append_cons hc s []).trans (List.append_nil _)).symm
    · rw [List.rdropWhile_concat_neg _ _ _ hc]

theorem words_strip (s : Text) : words (strip s) = words s := by
  have happ := List.takeWhile_append_dropWhile (p := isSpace) (l := s)
  rw [strip_eq, words_rdropWhile_space, ← happ,
    words_append_space fun c hc => List.mem_takeWhile_imp hc, happ]

/-! ## A line of a key and a value -/

section KeyValue

variable (hne : key ≠ []) (hkey : NoSpace key)
include hne hkey

/-- Stripping a line takes spaces from the end of its value only. -/
theorem strip_keyValue (v : Text) :
    strip (key ++ ' ' :: v) = key ++ (' ' :: v).rdropWhile isSpace := by
  obtain ⟨k, ks, rfl⟩ := List.exists_cons_of_ne_nil hne
  have hk : ¬ isSpace k = true := ne_true_of_eq_false (hkey k List.mem_cons_self)
  have hself : (k :: ks).rdropWhile isSpace = k :: ks :=
    List.rdropWhile_eq_self_iff.mpr fun h => ne_true_of_eq_false (hkey _ (List.getLast_mem h))
  rw [strip_eq, List.cons_append, List.dropWhile_cons_of_neg hk, ← List.cons_append]
  conv_lhs => rw [← @List.rdropWhile_append_rtakeWhile _ isSpace (' ' :: v), ← List.append_assoc]
  rw [rdropWhile_append_of_pos fun c hc => List.mem_rtakeWhile_imp hc]
  by_cases hnil : (' ' :: v).rdropWhile isSpace = []
  · rw [hnil, List.append_nil, hself]
  · refine List.rdropWhile_eq_self_iff.mpr fun h => ?_
    rw [List.getLast_append_of_ne_nil h hnil]
    exact List.rdropWhile_last_not isSpace _ hnil

omit hne hkey in
theorem rdropWhile_space_cons (v : Text) :
    (' ' :: v).rdropWhile isSpace = [] ∨ ∃ w, (' ' :: v).rdropWhile isSpace = ' ' :: w := by
  obtain ⟨t, ht⟩ := List.rdropWhile_prefix isSpace (' ' :: v)
  cases hw : (' ' :: v).rdropWhile isSpace with
  | nil => exact .inl rfl
  | cons c w =>
    rw [hw] at ht
    exact .inr ⟨w, by rw [(List.cons.inj ht).1]⟩

theorem firstWord_keyValue (v : Text) : firstWord (strip (key ++ ' ' :: v)) = key := by
  have hk : ∀ c ∈ key, (!isSpace c) = true := fun c hc => by rw [hkey c hc]; rfl
  rw [strip_keyValue hne hkey, firstWord, List.takeWhile_append_of_pos hk]
  rcases rdropWhile_space_cons v with h | ⟨w, h⟩
  · rw [h, List.takeWhile_nil, List.append_nil]
  · rw [h, List.takeWhile_cons_of_neg (by decide), List.append_nil]

theorem strip_afterWord_keyValue (v : Text) :
    strip (afterWord (strip (key ++ ' ' :: v))) = strip v := by
  have hk : ∀ c ∈ key, (!isSpace c) = true := fun c hc => by rw [hkey c hc]; rfl
  have hv : strip (' ' :: v) = strip v := @strip_append_left [' '] v fun c hc => by
    rw [List.mem_singleton.mp hc]
    rfl
  rw [strip_keyValue hne hkey, afterWord, List.dropWhile_append_of_pos hk, ← hv,
    ← strip_rdropWhile (' ' :: v)]
  rcases rdropWhile_space_cons v with h | ⟨w, h⟩
  · rw [h, List.dropWhile_nil]
  · rw [h, List.dropWhile_cons_of_neg (by decide)]

end KeyValue

/-! ## Paths -/

theorem baseName_dirPart_append {b : Text} (hb : '/' ∉ b) (path : Text) :
    baseName (dirPart path ++ b) = b := by
  have hb' : ∀ c ∈ b.reverse, decide (c ≠ '/') = true := fun c hc =>
    decide_eq_true fun h => hb (h ▸ List.mem_reverse.mp hc)
  rw [baseName, List.rtakeWhile, List.reverse_append, List.takeWhile_append_of_pos hb',
    List.reverse_append, List.reverse_reverse]
  have hnil : (dirPart path).reverse.takeWhile (fun c => decide (c ≠ '/')) = [] := by
    refine List.reverse_eq_nil_iff.mp ?_
    change (dirPart path).rtakeWhile (fun c => decide (c ≠ '/')) = []
    exact List.rtakeWhile_eq_nil_iff.mpr fun h => List.rdropWhile_last_not _ path h
  rw [hnil, List.reverse_nil, List.nil_append]

end Sysforge.Text
