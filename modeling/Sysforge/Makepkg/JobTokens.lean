import Mathlib.Data.List.TakeWhile
import Sysforge.Foundations.Lines

/-!
# Job tokens in `MAKEFLAGS`

`apply_jobs_to_makeflags` replaces what a regular expression finds in a text. The text is read in
words: `rewriteWords` says what the replacement does to them (`words_subJobs`).
-/

namespace Sysforge.BuildThrottle

open Text

/-! ## The code -/

/-- `"-j"`. -/
def shortJobs : Text := ['-', 'j']

/-- `"--jobs"`. -/
def longJobs : Text := ['-', '-', 'j', 'o', 'b', 's']

/-- The text begins with a decimal. -/
def startsDecimal (s : Text) : Bool := s.head?.any isDecimal

/-- The text behind `\d+`. -/
def afterDecimals (s : Text) : Option Text :=
  if startsDecimal s then some (s.dropWhile isDecimal) else none

/-- The text behind `-j\s*\d+|--jobs=\d+`. The blanks and the digits are taken to their ends, as no
other way of matching gets further. -/
def afterJobs (s : Text) : Option Text :=
  if shortJobs.isPrefixOf s then afterDecimals ((s.drop 2).dropWhile isSpace)
  else if (longJobs ++ ['=']).isPrefixOf s then afterDecimals (s.drop 7)
  else none

/-- `_JOBS_RE.subn(replacement, s)`, at a place where a token may start or not, when the first
characters are part of a match. -/
def subJobs (replacement : Text) : Bool → ℕ → Text → Text × ℕ
  | _, _, [] => ([], 0)
  | _, k + 1, c :: s => subJobs replacement (isSpace c) k s
  | start, 0, c :: s =>
    match if start then afterJobs (c :: s) else none with
    | some rest =>
      let r := subJobs replacement (isSpace c) (s.length - rest.length) s
      (replacement ++ r.1, r.2 + 1)
    | none =>
      let r := subJobs replacement (isSpace c) 0 s
      (c :: r.1, r.2)

/-- `apply_jobs_to_makeflags`. -/
def applyJobsToMakeflags (makeflags : Text) : Option ℤ → Text
  | none => makeflags
  | some jobs =>
    let replacement := shortJobs ++ ofInt jobs
    let r := subJobs replacement true 0 makeflags
    if r.2 ≠ 0 then r.1
    else if strip makeflags ≠ [] then strip (makeflags ++ ' ' :: replacement)
    else replacement

/-! ## Words -/

section Words

variable {w t s u g repl : Text} {c : Char} {b b' : Bool}

/-- A text that is empty or begins with a blank. -/
def Ends (t : Text) : Prop := ∀ c ∈ t.head?, isSpace c = true

theorem isDecimal_of_isSpace (h : isSpace c = true) : isDecimal c = false := by
  have hall : ∀ n ∈ [0x09, 0x0a, 0x0b, 0x0c, 0x0d, 0x1c, 0x1d, 0x1e, 0x1f, 0x20, 0x85, 0xa0, 0x1680,
      0x2028, 0x2029, 0x202f, 0x205f, 0x3000] ++ List.range' 0x2000 11,
      (zeros.any fun z => z ≤ n && n ≤ z + 9) = false := by decide
  refine hall c.toNat (List.mem_append.mpr ?_)
  rw [isSpace, Bool.or_eq_true, Bool.and_eq_true] at h
  rcases h with h | ⟨hl, hu⟩
  · exact .inl (of_decide_eq_true h)
  · refine .inr (List.mem_range'.mpr ⟨c.toNat - 0x2000, ?_, ?_⟩)
    · have := of_decide_eq_true hl
      have := of_decide_eq_true hu
      omega
    · have := of_decide_eq_true hl
      omega

theorem isSpace_of_isDecimal (h : isDecimal c = true) : isSpace c = false := by
  by_contra hs
  rw [isDecimal_of_isSpace (Bool.of_not_eq_false hs)] at h
  cases h

theorem ends_nil : Ends [] := fun c hc => absurd hc (Option.not_mem_none c)

theorem ends_dropWhile (s : Text) : Ends (s.dropWhile fun c => !isSpace c) := by
  intro c hc
  have hnot := List.head?_dropWhile_not (fun c => !isSpace c) s
  rw [Option.mem_def.mp hc] at hnot
  simpa using hnot

/-- A word and what stands behind it. -/
theorem words_append (hne : w ≠ []) (hw : NoSpace w) (ht : Ends t) :
    words (w ++ t) = w :: words t := by
  cases t with
  | nil => rw [List.append_nil, words_of_forall hne hw]; rfl
  | cons c t =>
    have hc := ht c rfl
    have hcons := words_append_cons hc [] t
    rw [words_append_cons hc, words_of_forall hne hw, List.singleton_append]
    rw [List.nil_append] at hcons
    rw [hcons]
    rfl

/-- A text is its first word and what stands behind it. -/
theorem exists_word (hc : isSpace c = false) (s : Text) :
    ∃ w t, c :: s = w ++ t ∧ w ≠ [] ∧ NoSpace w ∧ Ends t ∧ t.length ≤ s.length := by
  refine ⟨_, _, (List.takeWhile_append_dropWhile (p := fun c => !isSpace c)).symm, ?_, ?_,
    ends_dropWhile _, ?_⟩
  · rw [List.takeWhile_cons_of_pos (by rw [hc]; rfl)]
    exact List.cons_ne_nil _ _
  · intro d hd
    have hd' := List.mem_takeWhile_imp hd
    rwa [Bool.not_eq_true'] at hd'
  · rw [List.dropWhile_cons_of_pos (by rw [hc]; rfl)]
    exact (List.dropWhile_suffix _).length_le

/-- A text without blanks begins a word where it begins the text. -/
theorem isPrefixOf_append (hu : NoSpace u) (ht : Ends t) :
    u.isPrefixOf (w ++ t) = u.isPrefixOf w := by
  rw [Bool.eq_iff_iff, List.isPrefixOf_iff_prefix, List.isPrefixOf_iff_prefix]
  refine ⟨fun h => ?_, fun h => h.trans (List.prefix_append w t)⟩
  rcases List.prefix_or_prefix_of_prefix h (List.prefix_append w t) with h' | ⟨q, rfl⟩
  · exact h'
  · rw [List.prefix_append_right_inj] at h
    cases q with
    | nil => rw [List.append_nil]
    | cons c q =>
      obtain ⟨r, rfl⟩ := h
      have hspace := ht c rfl
      rw [hu c (List.mem_append_right _ List.mem_cons_self)] at hspace
      cases hspace

theorem dropWhile_append_ends (ht : Ends t) :
    (w ++ t).dropWhile isDecimal = w.dropWhile isDecimal ++ t := by
  rw [List.dropWhile_append]
  split_ifs with h
  · rw [List.isEmpty_iff.mp h, List.nil_append]
    cases t with
    | nil => rfl
    | cons c t => exact List.dropWhile_cons_of_neg (ne_true_of_eq_false (isDecimal_of_isSpace (ht c rfl)))
  · rfl

theorem startsDecimal_append (hne : w ≠ []) : startsDecimal (w ++ t) = startsDecimal w := by
  obtain ⟨c, w, rfl⟩ := List.exists_cons_of_ne_nil hne
  rfl

end Words

/-! ## Matches -/

section Matches

variable {w t s u g repl rest a d : Text} {c : Char} {b b' : Bool} {ws : List Text}

/-- The argument that is joined to the option, where the word begins with one. -/
def optionArg (w : Text) : Option Text :=
  if shortJobs.isPrefixOf w then some (w.drop 2)
  else if (longJobs ++ ['=']).isPrefixOf w then some (w.drop 7)
  else none

/-- What a match at the start of a word leaves of the text. -/
theorem afterJobs_word (hw : NoSpace w) (ht : Ends t) :
    afterJobs (w ++ t) =
      match optionArg w with
      | some a =>
        if startsDecimal a then some (a.dropWhile isDecimal ++ t)
        else if w = shortJobs then afterDecimals (t.dropWhile isSpace) else none
      | none => none := by
  have hshort : NoSpace shortJobs := by decide
  have hlong : NoSpace (longJobs ++ ['=']) := by decide
  have hdigits : ∀ a : Text, (a = [] → t = [] ∨ startsDecimal t = false) →
      afterDecimals (a ++ t) = if startsDecimal a then some (a.dropWhile isDecimal ++ t) else none := by
    intro a ha
    rw [afterDecimals, dropWhile_append_ends ht]
    by_cases hnil : a = []
    · rcases ha hnil with rfl | hstart
      · rw [List.append_nil]
      · rw [hnil, List.nil_append, hstart]
        rfl
    · rw [startsDecimal_append hnil]
  have hends : startsDecimal t = false := by
    cases t with
    | nil => rfl
    | cons c t => exact isDecimal_of_isSpace (ht c rfl)
  rw [afterJobs, optionArg, isPrefixOf_append hshort ht, isPrefixOf_append hlong ht]
  by_cases h₁ : shortJobs.isPrefixOf w = true
  · obtain ⟨a, rfl⟩ := List.isPrefixOf_iff_prefix.mp h₁
    rw [if_pos h₁, if_pos h₁]
    change afterDecimals ((a ++ t).dropWhile isSpace) = if startsDecimal a then _ else _
    cases a with
    | nil => rfl
    | cons c a =>
      have hc : isSpace c = false := hw c (List.mem_append_right _ List.mem_cons_self)
      have hne : shortJobs ++ c :: a ≠ shortJobs := by
        intro h
        have hlen := congrArg List.length h
        rw [List.length_append, List.length_cons] at hlen
        omega
      rw [if_neg hne, List.cons_append, List.dropWhile_cons_of_neg (ne_true_of_eq_false hc),
        ← List.cons_append, hdigits _ fun h => absurd h (List.cons_ne_nil c a)]
      rfl
  · rw [if_neg h₁, if_neg h₁]
    by_cases h₂ : (longJobs ++ ['=']).isPrefixOf w = true
    · obtain ⟨a, rfl⟩ := List.isPrefixOf_iff_prefix.mp h₂
      rw [if_pos h₂, if_pos h₂]
      change afterDecimals (a ++ t) = if startsDecimal a then _ else _
      have hne : longJobs ++ ['='] ++ a ≠ shortJobs := by
        intro h
        exact absurd (List.cons.inj (List.cons.inj h).2).1 (by decide)
      rw [if_neg hne, hdigits _ fun _ => .inr hends]
      rfl
    · rw [if_neg h₂, if_neg h₂]

/-- A match begins with a dash and ends with a decimal. -/
theorem afterJobs_eq_some (h : afterJobs s = some rest) :
    ∃ u d, isDecimal d = true ∧ s = '-' :: (u ++ d :: rest) := by
  have hdigits : ∀ {x : Text}, afterDecimals x = some rest →
      ∃ u d, isDecimal d = true ∧ x = u ++ d :: rest := by
    intro x hx
    rw [afterDecimals] at hx
    split_ifs at hx with hstart
    obtain rfl := Option.some.inj hx
    have hne : x.takeWhile isDecimal ≠ [] := by
      cases x with
      | nil => cases hstart
      | cons c x =>
        have hc : isDecimal c = true := hstart
        rw [List.takeWhile_cons_of_pos hc]
        exact List.cons_ne_nil _ _
    refine ⟨(x.takeWhile isDecimal).dropLast, (x.takeWhile isDecimal).getLast hne,
      List.mem_takeWhile_imp (List.getLast_mem hne), ?_⟩
    rw [List.append_cons, List.dropLast_append_getLast, List.takeWhile_append_dropWhile]
  rw [afterJobs] at h
  split_ifs at h with h₁ h₂
  · obtain ⟨x, rfl⟩ := List.isPrefixOf_iff_prefix.mp h₁
    obtain ⟨u, d, hd, hx⟩ := hdigits h
    change x.dropWhile isSpace = u ++ d :: rest at hx
    refine ⟨'j' :: (x.takeWhile isSpace ++ u), d, hd, ?_⟩
    rw [List.cons_append, List.append_assoc, ← hx, List.takeWhile_append_dropWhile]
    rfl
  · obtain ⟨x, rfl⟩ := List.isPrefixOf_iff_prefix.mp h₂
    obtain ⟨u, d, hd, hx⟩ := hdigits h
    change x = u ++ d :: rest at hx
    refine ⟨['-', 'j', 'o', 'b', 's', '='] ++ u, d, hd, ?_⟩
    rw [List.append_assoc ['-', 'j', 'o', 'b', 's', '='], ← hx]
    rfl

theorem subJobs_skip (u t : Text) (b : Bool) : subJobs repl b u.length (u ++ t) =
    subJobs repl (u.foldl (fun _ c => isSpace c) b) 0 t := by
  induction u generalizing b with
  | nil => rfl
  | cons c u ih => exact ih (isSpace c)

/-- A match is replaced, and the scan goes on behind it. -/
theorem subJobs_match (h : afterJobs s = some rest) :
    subJobs repl true 0 s =
      (repl ++ (subJobs repl false 0 rest).1, (subJobs repl false 0 rest).2 + 1) := by
  obtain ⟨u, d, hd, rfl⟩ := afterJobs_eq_some h
  have hlen : (u ++ d :: rest).length - rest.length = (u ++ [d]).length := by
    rw [List.length_append, List.length_append, List.length_cons, List.length_singleton]
    omega
  rw [subJobs, if_pos rfl, h]
  dsimp only
  rw [hlen, List.append_cons u d rest, subJobs_skip, List.foldl_append, List.foldl_cons,
    List.foldl_nil, isSpace_of_isDecimal hd]

/-- Where nothing matches, one character is kept. -/
theorem subJobs_cons (h : b = true → afterJobs (c :: s) = none) :
    subJobs repl b 0 (c :: s) =
      (c :: (subJobs repl (isSpace c) 0 s).1, (subJobs repl (isSpace c) 0 s).2) := by
  have hnone : (if b then afterJobs (c :: s) else none) = none := by
    cases b with
    | false => rfl
    | true => exact h rfl
  rw [subJobs, hnone]

theorem afterJobs_cons_of_ne (h : c ≠ '-') : afterJobs (c :: s) = none := by
  cases hafter : afterJobs (c :: s) with
  | none => rfl
  | some rest =>
    obtain ⟨u, d, -, hs⟩ := afterJobs_eq_some hafter
    exact absurd (List.cons.inj hs).1 h

theorem subJobs_space (hc : isSpace c = true) :
    subJobs repl b 0 (c :: s) = (c :: (subJobs repl true 0 s).1, (subJobs repl true 0 s).2) := by
  have hne : c ≠ '-' := by
    rintro rfl
    cases hc
  rw [subJobs_cons fun _ => afterJobs_cons_of_ne hne, hc]

theorem subJobs_of_ends (ht : Ends t) : subJobs repl b 0 t = subJobs repl b' 0 t := by
  cases t with
  | nil => rw [subJobs, subJobs]
  | cons c t => rw [subJobs_space (ht c rfl), subJobs_space (ht c rfl)]

theorem ends_subJobs (ht : Ends t) : Ends (subJobs repl b 0 t).1 := by
  cases t with
  | nil =>
    rw [subJobs]
    exact ends_nil
  | cons c t =>
    rw [subJobs_space (ht c rfl)]
    exact ht

/-- Inside a word nothing is matched. -/
theorem subJobs_append (hw : NoSpace w) :
    subJobs repl false 0 (w ++ t) =
      (w ++ (subJobs repl false 0 t).1, (subJobs repl false 0 t).2) := by
  induction w with
  | nil => rfl
  | cons c w ih =>
    rw [List.cons_append, subJobs_cons (fun h => absurd h Bool.false_ne_true),
      hw c List.mem_cons_self, ih fun d hd => hw d (List.mem_cons_of_mem _ hd)]
    rfl

/-- A word that is no match is kept. -/
theorem subJobs_word (hne : w ≠ []) (hw : NoSpace w) (ht : Ends t) (h : afterJobs (w ++ t) = none) :
    subJobs repl true 0 (w ++ t) =
      (w ++ (subJobs repl true 0 t).1, (subJobs repl true 0 t).2) := by
  obtain ⟨c, w, rfl⟩ := List.exists_cons_of_ne_nil hne
  rw [List.cons_append] at h
  rw [List.cons_append, subJobs_cons fun _ => h, hw c List.mem_cons_self,
    subJobs_append fun d hd => hw d (List.mem_cons_of_mem _ hd), @subJobs_of_ends _ _ false true ht]
  rfl

/-! ## The words of the result -/

/-- What the replacement does to words, and how often: an option with digits joined to it is
replaced, and so is `-j` with the digits of the next word. -/
def rewriteWords (repl : Text) : List Text → List Text × ℕ
  | [] => ([], 0)
  | w :: ws =>
    if (optionArg w).any startsDecimal then
      ((repl ++ ((optionArg w).getD []).dropWhile isDecimal) :: (rewriteWords repl ws).1,
        (rewriteWords repl ws).2 + 1)
    else
      match ws with
      | [] => ([w], 0)
      | d :: ws' =>
        if w = shortJobs ∧ startsDecimal d = true then
          ((repl ++ d.dropWhile isDecimal) :: (rewriteWords repl ws').1, (rewriteWords repl ws').2 + 1)
        else (w :: (rewriteWords repl (d :: ws')).1, (rewriteWords repl (d :: ws')).2)

theorem rewriteWords_joined (ha : optionArg w = some a) (hd : startsDecimal a = true) :
    rewriteWords repl (w :: ws) =
      ((repl ++ a.dropWhile isDecimal) :: (rewriteWords repl ws).1, (rewriteWords repl ws).2 + 1) := by
  rw [rewriteWords.eq_def]
  dsimp only
  rw [ha]
  exact if_pos hd

theorem rewriteWords_apart (hd : startsDecimal d = true) :
    rewriteWords repl (shortJobs :: d :: ws) =
      ((repl ++ d.dropWhile isDecimal) :: (rewriteWords repl ws).1, (rewriteWords repl ws).2 + 1) := by
  rw [rewriteWords.eq_def]
  exact (if_neg (by decide)).trans (if_pos ⟨rfl, hd⟩)

theorem rewriteWords_kept (ha : (optionArg w).any startsDecimal = false)
    (hws : w = shortJobs → ∀ d ∈ ws.head?, startsDecimal d = false) :
    rewriteWords repl (w :: ws) = (w :: (rewriteWords repl ws).1, (rewriteWords repl ws).2) := by
  rw [rewriteWords.eq_def]
  dsimp only
  rw [if_neg (ne_true_of_eq_false ha)]
  cases ws with
  | nil => rfl
  | cons d ws =>
    refine if_neg fun h => ?_
    rw [hws h.1 d rfl] at h
    cases h.2

/-- The first word of a text begins with a decimal where the text does behind its blanks. -/
theorem head?_words (t : Text) :
    (∀ d ∈ (words t).head?, startsDecimal d = false) ↔ startsDecimal (t.dropWhile isSpace) = false := by
  have htake : words t = words (t.dropWhile isSpace) := by
    have happ := List.takeWhile_append_dropWhile (p := isSpace) (l := t)
    rw [← happ, words_append_space fun c hc => List.mem_takeWhile_imp hc, happ]
  rw [htake]
  cases ht : t.dropWhile isSpace with
  | nil => exact ⟨fun _ => rfl, fun _ d hd => absurd hd (Option.not_mem_none d)⟩
  | cons c s =>
    have hc : isSpace c = false := by
      have hnot := List.head?_dropWhile_not isSpace t
      rw [ht] at hnot
      simpa using hnot
    obtain ⟨w, s', hs, hne, hw, hends, -⟩ := exists_word hc s
    rw [hs, words_append hne hw hends, startsDecimal_append hne]
    exact ⟨fun h => h w rfl, fun h d hd => Option.some.inj hd ▸ h⟩

/-- **The words of the result** are those of the text, rewritten. -/
theorem words_subJobs (hrepl : repl ≠ []) (hr : NoSpace repl) (s : Text) :
    words (subJobs repl true 0 s).1 = (rewriteWords repl (words s)).1 ∧
      (subJobs repl true 0 s).2 = (rewriteWords repl (words s)).2 := by
  induction hn : s.length using Nat.strongRecOn generalizing s with
  | ind n ih =>
    cases s with
    | nil =>
      rw [subJobs]
      exact ⟨rfl, rfl⟩
    | cons c s =>
      by_cases hc : isSpace c = true
      · have hrec := ih s.length (by rw [← hn, List.length_cons]; omega) s rfl
        rw [subJobs_space hc, words_cons_space hc, words_cons_space hc]
        exact hrec
      · obtain ⟨w, t, hs, hne, hw, ht, hlen⟩ := exists_word (Bool.eq_false_iff.mpr hc) s
        have hlt : t.length < n := by
          rw [← hn, List.length_cons]
          omega
        have hword := afterJobs_word hw ht
        -- what replaces a match is one word with the rest of the word it ends in
        have hmatch : ∀ {x t' : Text}, NoSpace x → Ends t' → t'.length < n →
            afterJobs (w ++ t) = some (x ++ t') →
            words (subJobs repl true 0 (w ++ t)).1 =
                (repl ++ x) :: (rewriteWords repl (words t')).1 ∧
              (subJobs repl true 0 (w ++ t)).2 = (rewriteWords repl (words t')).2 + 1 := by
          intro x t' hx ht' hlt' hafter
          obtain ⟨hrec, hcount⟩ := ih t'.length hlt' t' rfl
          have hrx : NoSpace (repl ++ x) := by
            intro d hd
            exact (List.mem_append.mp hd).elim (hr d) (hx d)
          rw [subJobs_match hafter, subJobs_append hx, @subJobs_of_ends t' _ false true ht']
          dsimp only
          rw [← List.append_assoc, words_append (List.append_ne_nil_of_left_ne_nil hrepl x) hrx
            (ends_subJobs ht'), hrec, hcount]
          exact ⟨rfl, rfl⟩
        have hkept : afterJobs (w ++ t) = none → (optionArg w).any startsDecimal = false →
            (w = shortJobs → ∀ d ∈ (words t).head?, startsDecimal d = false) →
            words (subJobs repl true 0 (w ++ t)).1 = (rewriteWords repl (w :: words t)).1 ∧
              (subJobs repl true 0 (w ++ t)).2 = (rewriteWords repl (w :: words t)).2 := by
          intro hafter ha hws
          obtain ⟨hrec, hcount⟩ := ih t.length hlt t rfl
          rw [subJobs_word hne hw ht hafter, rewriteWords_kept ha hws]
          dsimp only
          rw [words_append hne hw (ends_subJobs ht), hrec, hcount]
          exact ⟨rfl, rfl⟩
        rw [hs, words_append hne hw ht]
        cases harg : optionArg w with
        | none =>
          rw [harg] at hword
          refine hkept hword (by rw [harg]; rfl) fun hshort => ?_
          rw [hshort] at harg
          exact absurd harg (by decide)
        | some a =>
          rw [harg] at hword
          have hsub : a ⊆ w := by
            rw [optionArg] at harg
            split_ifs at harg <;> exact Option.some.inj harg ▸ List.drop_subset _ w
          by_cases hd : startsDecimal a = true
          · rw [rewriteWords_joined harg hd]
            refine hmatch (fun d hd => hw d (hsub ((List.dropWhile_suffix _).subset hd))) ht hlt ?_
            rw [hword]
            exact if_pos hd
          · have hany : (optionArg w).any startsDecimal = false := by
              rw [harg]
              exact Bool.eq_false_iff.mpr hd
            have hword' : afterJobs (w ++ t) =
                if w = shortJobs then afterDecimals (t.dropWhile isSpace) else none := by
              rw [hword]
              exact if_neg hd
            by_cases hshort : w = shortJobs
            · rw [if_pos hshort, afterDecimals] at hword'
              by_cases hnext : startsDecimal (t.dropWhile isSpace) = true
              · -- the digits are those of the next word
                rw [if_pos hnext] at hword'
                obtain ⟨c', s', hcons⟩ : ∃ c' s', t.dropWhile isSpace = c' :: s' := by
                  cases h : t.dropWhile isSpace with
                  | nil =>
                    rw [h] at hnext
                    cases hnext
                  | cons c' s' => exact ⟨c', s', rfl⟩
                have hc' : isSpace c' = false := by
                  rw [hcons] at hnext
                  exact isSpace_of_isDecimal hnext
                obtain ⟨d, t', hs', hdne, hdw, ht', hlen'⟩ := exists_word hc' s'
                have hle : (c' :: s').length ≤ t.length := hcons ▸ (List.dropWhile_suffix _).length_le
                have hwords : words t = d :: words t' := by
                  have happ := List.takeWhile_append_dropWhile (p := isSpace) (l := t)
                  rw [← happ, words_append_space fun c hc => List.mem_takeWhile_imp hc, hcons, hs',
                    words_append hdne hdw ht']
                rw [hcons, hs', dropWhile_append_ends ht'] at hword'
                rw [hcons, hs', startsDecimal_append hdne] at hnext
                rw [hwords, hshort, rewriteWords_apart hnext, ← hshort]
                refine hmatch (fun e he => hdw e ((List.dropWhile_suffix _).subset he)) ht' ?_ hword'
                rw [List.length_cons] at hle
                omega
              · rw [if_neg hnext] at hword'
                exact hkept hword' hany fun _ => (head?_words t).mpr (Bool.eq_false_iff.mpr hnext)
            · rw [if_neg hshort] at hword'
              exact hkept hword' hany fun h => absurd h hshort

end Matches

end Sysforge.BuildThrottle
