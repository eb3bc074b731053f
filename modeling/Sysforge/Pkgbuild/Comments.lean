import Sysforge.Foundations.LineBreaks
import Sysforge.Foundations.Shell

/-!
# Stripping the comments of a PKGBUILD

Every reader of a PKGBUILD strips its comments first. The pass works line by line and tracks only
the quotation marks of the line it is in, which the shell does not: `stripComments_iff` says for
which scripts it removes the comments and nothing else.
-/

namespace Sysforge.Pkgbuild

open Text Shell

/-! ## The code -/

/-- `_COMMENT_WORD_BREAKS`. -/
def commentWordBreaks : List Char := [' ', '\t', ';', '&', '|', '(', ')', '<', '>']

/-- A `#` is in place for a comment after the character before, if there is one. -/
def atWordStart : Option Char → Bool
  | none => true
  | some c => c ∈ commentWordBreaks

/-- The loop of `_strip_comments` over one line. -/
def stripLine (prev : Option Char) (inSingle inDouble : Bool) : Text → Text
  | [] => []
  | c :: s =>
    if c = '\'' ∧ !inDouble then c :: stripLine (some c) (!inSingle) inDouble s
    else if c = '"' ∧ !inSingle then c :: stripLine (some c) inSingle (!inDouble) s
    else if c = '#' ∧ !inSingle ∧ !inDouble ∧ atWordStart prev then []
    else c :: stripLine (some c) inSingle inDouble s

/-- `_strip_comments`. -/
def stripComments (text : Text) : Text :=
  joinLines ((splitlines text).map fun line => rstrip (stripLine none false false line))

/-! ## What the shell leaves out -/

/-- The characters of a line that are in no comment. -/
def uncommented (line : List (Char × Bool)) : Text := (line.filter fun q => !q.2).map Prod.fst

/-- The lines of a script, with their marks. -/
def markedLines (d : Script) : List (List (Char × Bool)) :=
  linesBy (fun q => q.1 = '\n') d.marks

/-- A script without its comments and the blanks at the ends of its lines. -/
def withoutComments (d : Script) : Text :=
  joinLines ((markedLines d).map fun line => rstrip (uncommented line))

/-! ## Quotation marks of one line -/

/-- The quotation marks of a text, read one after the other: which of the two is open. -/
def openQuotes (inSingle inDouble : Bool) : Text → Bool × Bool
  | [] => (inSingle, inDouble)
  | c :: s =>
    if c = '\'' ∧ !inDouble then openQuotes (!inSingle) inDouble s
    else if c = '"' ∧ !inSingle then openQuotes inSingle (!inDouble) s
    else openQuotes inSingle inDouble s

/-- The quotation marks of a text are closed. -/
def Closed (s : Text) : Prop := openQuotes false false s = (false, false)

instance (s : Text) : Decidable (Closed s) := instDecidableEqProd _ _

/-- Where a word can begin in the line, up to its comment, a `#` begins the comment exactly when the
quotation marks before it in the line are closed. -/
def QuotesAgree (line : List (Char × Bool)) : Prop :=
  ∀ before b after, line = before ++ ('#', b) :: after → (∀ q ∈ before, q.2 = false) →
    atWordStart (before.getLast?.map Prod.fst) = true →
      (b = true ↔ Closed (before.map Prod.fst))

section Line

variable {prev : Option Char} {inSingle inDouble : Bool} {s pre post : Text} {c : Char}
  {line l : List (Char × Bool)} {x : Char × Bool}

/-- The loop ends the line at a `#` after `pre`. -/
def Cuts (prev : Option Char) (inSingle inDouble : Bool) (pre : Text) : Prop :=
  atWordStart (pre.getLast?.or prev) = true ∧ openQuotes inSingle inDouble pre = (false, false)

instance (prev : Option Char) (inSingle inDouble : Bool) (pre : Text) :
    Decidable (Cuts prev inSingle inDouble pre) := instDecidableAnd

/-- The quotation marks after one character. -/
def quotesAfter (inSingle inDouble : Bool) (c : Char) : Bool × Bool :=
  openQuotes inSingle inDouble [c]

theorem openQuotes_cons (inSingle inDouble : Bool) (c : Char) (s : Text) :
    openQuotes inSingle inDouble (c :: s) =
      openQuotes (quotesAfter inSingle inDouble c).1 (quotesAfter inSingle inDouble c).2 s := by
  rw [quotesAfter, openQuotes, openQuotes]
  split_ifs <;> rfl

theorem stripLine_cons (prev : Option Char) (inSingle inDouble : Bool) (c : Char) (s : Text) :
    stripLine prev inSingle inDouble (c :: s) =
      if c = '#' ∧ Cuts prev inSingle inDouble [] then []
      else c :: stripLine (some c) (quotesAfter inSingle inDouble c).1
        (quotesAfter inSingle inDouble c).2 s := by
  have hcuts : Cuts prev inSingle inDouble [] ↔
      inSingle = false ∧ inDouble = false ∧ atWordStart prev = true := by
    rw [Cuts, openQuotes, Prod.mk.injEq]
    exact ⟨fun h => ⟨h.2.1, h.2.2, h.1⟩, fun h => ⟨h.2.2, h.1, h.2.1⟩⟩
  have hafter : quotesAfter inSingle inDouble c =
      if c = '\'' ∧ !inDouble then (!inSingle, inDouble)
      else if c = '"' ∧ !inSingle then (inSingle, !inDouble) else (inSingle, inDouble) := rfl
  simp only [stripLine, hafter, hcuts, Bool.not_eq_true']
  by_cases h₁ : c = '\'' ∧ inDouble = false
  · rw [if_pos h₁, if_pos h₁, if_neg fun h => absurd (h₁.1.symm.trans h.1) (by decide)]
  · rw [if_neg h₁, if_neg h₁]
    by_cases h₂ : c = '"' ∧ inSingle = false
    · rw [if_pos h₂, if_pos h₂, if_neg fun h => absurd (h₂.1.symm.trans h.1) (by decide)]
    · rw [if_neg h₂, if_neg h₂]

theorem cuts_cons : Cuts prev inSingle inDouble (c :: pre) ↔
    Cuts (some c) (quotesAfter inSingle inDouble c).1 (quotesAfter inSingle inDouble c).2 pre := by
  have hlast : (c :: pre).getLast?.or prev = pre.getLast?.or (some c) := by
    rw [List.getLast?_cons]
    cases pre.getLast? <;> rfl
  rw [Cuts, Cuts, hlast, openQuotes_cons]

/-- The loop keeps a part of the line that it ends at no `#`. -/
theorem not_cuts_of_stripLine (h : stripLine prev inSingle inDouble s = pre ++ '#' :: post) :
    ¬ Cuts prev inSingle inDouble pre := by
  induction s generalizing prev inSingle inDouble pre with
  | nil => exact absurd h.symm (List.append_ne_nil_of_right_ne_nil _ (List.cons_ne_nil _ _))
  | cons c s ih =>
    rw [stripLine_cons] at h
    split_ifs at h with hcut
    · exact absurd h.symm (List.append_ne_nil_of_right_ne_nil _ (List.cons_ne_nil _ _))
    · cases pre with
      | nil => exact fun hnil => hcut ⟨(List.cons.inj h).1, hnil⟩
      | cons d pre =>
        obtain ⟨rfl, htail⟩ := List.cons.inj h
        rw [cuts_cons]
        exact ih htail

/-- The part is the line, or ends where the loop ends it. -/
theorem stripLine_eq_or (prev : Option Char) (inSingle inDouble : Bool) (s : Text) :
    stripLine prev inSingle inDouble s = s ∨
      ∃ post, s = stripLine prev inSingle inDouble s ++ '#' :: post ∧
        Cuts prev inSingle inDouble (stripLine prev inSingle inDouble s) := by
  induction s generalizing prev inSingle inDouble with
  | nil => exact .inl rfl
  | cons c s ih =>
    rw [stripLine_cons]
    split_ifs with hcut
    · exact .inr ⟨s, congrArg (· :: s) hcut.1, hcut.2⟩
    · rcases ih (some c) (quotesAfter inSingle inDouble c).1 (quotesAfter inSingle inDouble c).2
        with h | ⟨post, hs, h⟩
      · exact .inl (congrArg _ h)
      · exact .inr ⟨post, congrArg _ hs, cuts_cons.mpr h⟩

/-! ## One line -/

/-- What is marked in a line, up to its end. -/
structure Commented (line before after : List (Char × Bool)) : Prop where
  split : line = before ++ ('#', true) :: after
  unmarked : ∀ q ∈ before, q.2 = false
  marked : ∀ q ∈ after, q.2 = true
  start : atWordStart (before.getLast?.map Prod.fst) = true

/-- A line of a script is unmarked, or ends in a comment. -/
def EndsMarked (line : List (Char × Bool)) : Prop :=
  (∀ q ∈ line, q.2 = false) ∨ ∃ before after, Commented line before after

theorem ne_newline_of_isChain (h : List.IsChain Follows (x :: l)) :
    ∀ q ∈ l, q.2 = true → q.1 ≠ '\n' := by
  induction l generalizing x with
  | nil => exact fun q hq => absurd hq List.not_mem_nil
  | cons p l ih =>
    obtain ⟨hxp, hl⟩ := List.isChain_cons_cons.mp h
    intro q hq hmark
    rcases List.mem_cons.mp hq with rfl | hq
    · rw [Follows, if_pos hmark] at hxp
      exact hxp.1
    · exact ih hl q hq hmark

theorem marked_of_isChain (h : List.IsChain Follows (x :: l)) (hx : x.2 = true)
    (hl : ∀ q ∈ l, q.1 ≠ '\n') : ∀ q ∈ l, q.2 = true := by
  induction l generalizing x with
  | nil => exact fun q hq => absurd hq List.not_mem_nil
  | cons p l ih =>
    obtain ⟨hxp, htail⟩ := List.isChain_cons_cons.mp h
    have hp : p.2 = true := by
      by_contra hp
      rw [Follows, if_neg hp] at hxp
      exact hl p List.mem_cons_self (hxp hx)
    intro q hq
    rcases List.mem_cons.mp hq with rfl | hq
    · exact hp
    · exact ih htail hp (fun q hq => hl q (List.mem_cons_of_mem _ hq)) q hq

theorem atWordStart_of_breaksWord (h : breaksWord c = true) (hc : c ≠ '\n') :
    atWordStart (some c) = true := by
  have hmem := of_decide_eq_true h
  refine decide_eq_true ?_
  simp only [commentWordBreaks, List.mem_cons, List.not_mem_nil, or_false] at hmem ⊢
  tauto

/-- A line is unmarked, or its comment goes from a `#` to its end. -/
theorem unmarked_or_commented (h : List.IsChain Follows (x :: line)) (hx : x.2 = false)
    (hline : ∀ q ∈ line, q.1 ≠ '\n') :
    (∀ q ∈ line, q.2 = false) ∨ ∃ before after, line = before ++ ('#', true) :: after ∧
      (∀ q ∈ before, q.2 = false) ∧ (∀ q ∈ after, q.2 = true) ∧
      breaksWord ((x :: before).getLast (List.cons_ne_nil _ _)).1 = true := by
  induction line generalizing x with
  | nil => exact .inl fun q hq => absurd hq List.not_mem_nil
  | cons p line ih =>
    obtain ⟨hxp, htail⟩ := List.isChain_cons_cons.mp h
    have hrest := fun q hq => hline q (List.mem_cons_of_mem p hq)
    cases hp : p.2 with
    | true =>
      rw [Follows, if_pos hp] at hxp
      obtain ⟨hhash, hbreaks⟩ := hxp.2 hx
      refine .inr ⟨[], line, ?_, fun q hq => absurd hq List.not_mem_nil,
        marked_of_isChain htail hp hrest, hbreaks⟩
      rw [List.nil_append, ← hhash, ← hp]
    | false =>
      rcases ih htail hp hrest with hun | ⟨before, after, rfl, hun, hmark, hbreaks⟩
      · exact .inl (List.forall_mem_cons.mpr ⟨hp, hun⟩)
      · refine .inr ⟨p :: before, after, rfl, List.forall_mem_cons.mpr ⟨hp, hun⟩, hmark, ?_⟩
        rw [List.getLast_cons (List.cons_ne_nil _ _)]
        exact hbreaks

/-- A line of a script is unmarked, or ends in a comment that begins where a word can. -/
theorem endsMarked_of_isChain (h : List.IsChain Follows (x :: line)) (hx : x = ('\n', false))
    (hline : ∀ q ∈ line, q.1 ≠ '\n') : EndsMarked line := by
  rcases unmarked_or_commented h (by rw [hx]) hline with hun | ⟨before, after, rfl, hun, hmark, hbr⟩
  · exact .inl hun
  · refine .inr ⟨before, after, rfl, hun, hmark, ?_⟩
    cases hlast : before.getLast? with
    | none => rfl
    | some q =>
      have hq : q ∈ before := List.mem_of_getLast? hlast
      rw [List.getLast_cons (List.ne_nil_of_mem hq)] at hbr
      rw [List.getLast?_eq_some_getLast (List.ne_nil_of_mem hq)] at hlast
      rw [Option.some.inj hlast] at hbr
      exact atWordStart_of_breaksWord hbr (hline q (List.mem_append_left _ hq))

theorem rstrip_hash (s t : Text) : rstrip (s ++ '#' :: t) = s ++ '#' :: rstrip t := by
  have hhash : isSpace '#' = false := by decide
  rw [rstrip, rstrip, List.rdropWhile, List.rdropWhile, List.reverse_append, List.reverse_cons,
    List.append_assoc, List.dropWhile_append]
  split_ifs with h
  · rw [List.isEmpty_iff.mp h, List.singleton_append,
      List.dropWhile_cons_of_neg (ne_true_of_eq_false hhash)]
    simp
  · simp

/-- Two beginnings of a line, each of which ends at a `#` or with the line, differ by more than
blanks at their ends. -/
theorem eq_of_rstrip {s t p q : Text} (h : s ++ p = t ++ q) (hp : p ≠ [] → p.head? = some '#')
    (hq : q ≠ [] → q.head? = some '#') (hstrip : rstrip s = rstrip t) : s = t := by
  have hlonger : ∀ {s a : Text}, a.head? = some '#' → rstrip s ≠ rstrip (s ++ a) := by
    intro s a ha heq
    cases a with
    | nil => cases ha
    | cons c a =>
      obtain rfl := Option.some.inj ha
      have hle := (List.rdropWhile_prefix isSpace s).length_le
      have hlen := congrArg List.length heq
      rw [rstrip_hash, List.length_append, List.length_cons] at hlen
      rw [rstrip] at hlen
      omega
  rcases List.append_eq_append_iff.mp h with ⟨a, rfl, rfl⟩ | ⟨a, rfl, rfl⟩
  · cases a with
    | nil => rw [List.append_nil]
    | cons c a => exact absurd hstrip (hlonger (hp (List.cons_ne_nil _ _)))
  · cases a with
    | nil => rw [List.append_nil]
    | cons c a => exact absurd hstrip.symm (hlonger (hq (List.cons_ne_nil _ _)))

theorem uncommented_of_unmarked (h : ∀ q ∈ line, q.2 = false) :
    uncommented line = line.map Prod.fst := by
  rw [uncommented, List.filter_eq_self.mpr fun q hq => by rw [h q hq]; rfl]

theorem Commented.uncommented {before after : List (Char × Bool)}
    (h : Commented line before after) : uncommented line = before.map Prod.fst := by
  have hafter : (('#', true) :: after).filter (fun q => !q.2) = [] :=
    List.filter_eq_nil_iff.mpr fun q hq => by
      rcases List.mem_cons.mp hq with rfl | hq
      · decide
      · rw [h.marked q hq]
        decide
  rw [h.split, Pkgbuild.uncommented, List.filter_append, hafter, List.append_nil,
    List.filter_eq_self.mpr fun q hq => by rw [h.unmarked q hq]; rfl]

/-- Two marks after unmarked characters are the same one. -/
theorem Commented.unique {before after before' after' : List (Char × Bool)}
    (h : Commented line before after) (hsplit : line = before' ++ ('#', true) :: after')
    (hun : ∀ q ∈ before', q.2 = false) : before' = before := by
  have htake : ∀ {l r : List (Char × Bool)}, (∀ q ∈ l, q.2 = false) →
      (l ++ ('#', true) :: r).takeWhile (fun q => !q.2) = l := by
    intro l r hl
    rw [List.takeWhile_append_of_pos fun q hq => by rw [hl q hq]; rfl]
    simp
  rw [← htake hun (r := after'), ← hsplit, h.split, htake h.unmarked]

theorem uncommented_append (l l' : List (Char × Bool)) :
    uncommented (l ++ l') = uncommented l ++ uncommented l' := by
  rw [uncommented, List.filter_append, List.map_append]
  rfl

/-- The shell keeps a beginning of the line that ends at a `#` or with the line. -/
theorem map_eq_uncommented (h : EndsMarked line) :
    ∃ q, line.map Prod.fst = uncommented line ++ q ∧ (q ≠ [] → q.head? = some '#') := by
  rcases h with hun | ⟨before, after, h⟩
  · exact ⟨[], by rw [uncommented_of_unmarked hun, List.append_nil], fun hne => absurd rfl hne⟩
  · refine ⟨'#' :: after.map Prod.fst, ?_, fun _ => rfl⟩
    rw [h.uncommented, h.split, List.map_append, List.map_cons]

theorem cuts_map {before : List (Char × Bool)}
    (hstart : atWordStart (before.getLast?.map Prod.fst) = true) :
    Cuts none false false (before.map Prod.fst) ↔ Closed (before.map Prod.fst) := by
  rw [Cuts, Option.or_none, List.getLast?_map]
  exact and_iff_right hstart

/-- Where the loop and the shell keep the same, the quotation marks agree. -/
theorem quotesAgree_of_stripLine (h : EndsMarked line)
    (heq : stripLine none false false (line.map Prod.fst) = uncommented line) :
    QuotesAgree line := by
  intro before b after hsplit hun hstart
  constructor
  · rintro rfl
    have hkept : uncommented line = before.map Prod.fst := by
      rcases h with hall | ⟨before₀, after₀, h⟩
      · refine absurd (hall ('#', true) ?_) (by decide)
        rw [hsplit]
        exact List.mem_append_right _ List.mem_cons_self
      · rw [h.uncommented, h.unique hsplit hun]
    rw [hkept] at heq
    rcases stripLine_eq_or none false false (line.map Prod.fst) with hfull | ⟨post, -, hcuts⟩
    · rw [heq] at hfull
      have hlen := congrArg List.length hfull
      rw [hsplit, List.length_map, List.length_map, List.length_append, List.length_cons] at hlen
      omega
    · rw [heq] at hcuts
      exact (cuts_map hstart).mp hcuts
  · intro hclosed
    by_contra hb
    rw [hsplit, uncommented_append, uncommented_of_unmarked hun, Bool.eq_false_iff.mpr hb] at heq
    exact not_cuts_of_stripLine heq ((cuts_map hstart).mpr hclosed)

/-- Where the quotation marks agree, the loop and the shell keep the same. -/
theorem stripLine_of_quotesAgree (h : EndsMarked line) (hq : QuotesAgree line) :
    stripLine none false false (line.map Prod.fst) = uncommented line := by
  rcases stripLine_eq_or none false false (line.map Prod.fst) with hfull | ⟨post, hsplit, hcuts⟩
  · rcases h with hall | ⟨before, after, h⟩
    · rw [hfull, uncommented_of_unmarked hall]
    · have hkeep : stripLine none false false (line.map Prod.fst) =
          before.map Prod.fst ++ '#' :: after.map Prod.fst := by
        rw [hfull, h.split, List.map_append, List.map_cons]
      have hclosed := (hq _ _ _ h.split h.unmarked h.start).mp rfl
      exact absurd ((cuts_map h.start).mpr hclosed) (not_cuts_of_stripLine hkeep)
  · obtain ⟨l₁, l₂, hline, h₁, h₂⟩ := List.map_eq_append_iff.mp hsplit
    obtain ⟨⟨c, b⟩, l₃, rfl, rfl, -⟩ := List.map_eq_cons_iff.mp h₂
    rw [← h₁] at hcuts ⊢
    by_cases hun : ∀ q ∈ l₁, q.2 = false
    · have hstart : atWordStart (l₁.getLast?.map Prod.fst) = true := by
        have := hcuts.1
        rwa [Option.or_none, List.getLast?_map] at this
      have hb : b = true := (hq l₁ b l₃ hline hun hstart).mpr ((cuts_map hstart).mp hcuts)
      rw [hb] at hline
      rcases h with hall | ⟨before, after, h⟩
      · refine absurd (hall ('#', true) ?_) (by decide)
        rw [hline]
        exact List.mem_append_right _ List.mem_cons_self
      · rw [h.uncommented, h.unique hline hun]
    · rcases h with hall | ⟨before, after, h⟩
      · refine absurd (fun q hq => hall q ?_) hun
        rw [hline]
        exact List.mem_append_left _ hq
      · -- the loop would have ended the line at the comment
        have hsplit' := h.split.symm.trans hline
        rcases List.append_eq_append_iff.mp hsplit' with ⟨a, rfl, ha⟩ | ⟨a, rfl, -⟩
        · cases a with
          | nil =>
            rw [List.append_nil] at hun
            exact absurd h.unmarked hun
          | cons q a =>
            obtain ⟨rfl, -⟩ := List.cons.inj ha
            have hkeep : stripLine none false false (line.map Prod.fst) =
                before.map Prod.fst ++ '#' :: a.map Prod.fst := by
              rw [← h₁, List.map_append, List.map_cons]
            have hclosed := (hq _ _ _ h.split h.unmarked h.start).mp rfl
            exact absurd ((cuts_map h.start).mpr hclosed) (not_cuts_of_stripLine hkeep)
        · exact absurd (fun q hq => h.unmarked q (List.mem_append_left _ hq)) hun

/-- **One line**: the loop leaves what the shell does exactly where the quotation marks of the line
agree with it. -/
theorem stripLine_iff (h : EndsMarked line) :
    rstrip (stripLine none false false (line.map Prod.fst)) = rstrip (uncommented line) ↔
      QuotesAgree line := by
  constructor
  · intro heq
    obtain ⟨q, hq, hhash⟩ := map_eq_uncommented h
    refine quotesAgree_of_stripLine h ?_
    rcases stripLine_eq_or none false false (line.map Prod.fst) with hfull | ⟨post, hpost, -⟩
    · exact eq_of_rstrip (p := []) (by rw [hfull, List.append_nil, hq]) (fun hne => absurd rfl hne)
        hhash heq
    · exact eq_of_rstrip (hpost.symm.trans hq) (fun _ => rfl) hhash heq
  · intro hq
    rw [stripLine_of_quotesAgree h hq]

end Line

/-! ## Whole scripts -/

section Script

variable {d : Script} {line : List (Char × Bool)} {s : Text}

theorem ne_newline_of_mem_markedLines (h : line ∈ markedLines d) : ∀ q ∈ line, q.1 ≠ '\n' :=
  fun _ hq => of_decide_eq_false (@not_of_mem_linesBy _ (fun q => q.1 = '\n') _ _ _ h hq)

theorem endsMarked_of_mem_markedLines (h : line ∈ markedLines d) : EndsMarked line := by
  obtain ⟨x, hx, hchain⟩ := isChain_of_mem_linesBy d.isChain_marks h
  refine endsMarked_of_isChain hchain ?_ (ne_newline_of_mem_markedLines h)
  rcases hx with rfl | ⟨hmem, hx⟩
  · rfl
  · have hnl : x.1 = '\n' := of_decide_eq_true hx
    refine Prod.ext hnl (Bool.eq_false_iff.mpr fun hmark => ?_)
    exact ne_newline_of_isChain d.isChain_marks x hmem hmark hnl

theorem newlineLines_text (d : Script) :
    newlineLines d.text = (markedLines d).map (List.map Prod.fst) :=
  map_linesBy Prod.fst fun _ => rfl

theorem stripLine_of_notMem {prev : Option Char} {inSingle inDouble : Bool} (h : '#' ∉ s) :
    stripLine prev inSingle inDouble s = s := by
  rcases stripLine_eq_or prev inSingle inDouble s with hs | ⟨post, hs, -⟩
  · exact hs
  · refine absurd ?_ h
    rw [hs]
    exact List.mem_append_right _ List.mem_cons_self

/-- Blanks at the end of a line do not matter to the loop. -/
theorem rstrip_stripLine_append {prev : Option Char} {inSingle inDouble : Bool} {t : Text}
    (h : ∀ c ∈ t, isSpace c = true) :
    rstrip (stripLine prev inSingle inDouble (s ++ t)) =
      rstrip (stripLine prev inSingle inDouble s) := by
  have hhash : '#' ∉ t := fun hmem => absurd (h _ hmem) (by decide)
  have hkeep : stripLine prev inSingle inDouble (s ++ t) = stripLine prev inSingle inDouble s ∨
      stripLine prev inSingle inDouble (s ++ t) = stripLine prev inSingle inDouble s ++ t := by
    induction s generalizing prev inSingle inDouble with
    | nil => exact .inr (stripLine_of_notMem hhash)
    | cons c s ih =>
      rw [List.cons_append, stripLine_cons, stripLine_cons]
      split_ifs
      · exact .inl rfl
      · exact ih.imp (congrArg _) (congrArg _)
  rcases hkeep with heq | heq
  · rw [heq]
  · rw [heq, rstrip_append_of_isSpace h]

theorem rstrip_stripLine_rstrip (s : Text) :
    rstrip (stripLine none false false (rstrip s)) = rstrip (stripLine none false false s) := by
  obtain ⟨t, ht⟩ := List.rdropWhile_prefix isSpace s
  have hspace : ∀ c ∈ t, isSpace c = true := by
    have htake : t = s.rtakeWhile isSpace :=
      List.append_cancel_left (ht.trans List.rdropWhile_append_rtakeWhile.symm)
    rw [htake]
    exact fun c hc => List.mem_rtakeWhile_imp hc
  conv_rhs => rw [← ht]
  rw [rstrip_stripLine_append hspace]
  rfl

/-- What is kept of a line is of one line. -/
theorem newline_notMem_rstrip (h : '\n' ∉ s) : '\n' ∉ rstrip s :=
  fun hmem => h ((List.rdropWhile_prefix isSpace s).subset hmem)

theorem stripLine_subset (prev : Option Char) (inSingle inDouble : Bool) (s : Text) :
    stripLine prev inSingle inDouble s ⊆ s := by
  rcases stripLine_eq_or prev inSingle inDouble s with hs | ⟨post, hs, -⟩
  · rw [hs]
    exact List.Subset.refl s
  · intro c hc
    rw [hs]
    exact List.mem_append_left _ hc

/-- **Stripping removes the comments and the blanks at line ends, and nothing else, exactly where
the newlines are the breaks of `str.splitlines` and the quotation marks of each line agree with
what the shell reads there**, for every script. -/
theorem stripComments_iff (d : Script) : stripComments d.text = withoutComments d ↔
    PlainBreaks d.text ∧ ∀ line ∈ markedLines d, QuotesAgree line := by
  have hlines := newlineLines_text d
  by_cases htext : d.text = []
  · have hmarks : markedLines d = [] := by
      rw [htext] at hlines
      exact List.map_eq_nil_iff.mp hlines.symm
    rw [stripComments, withoutComments, htext, hmarks]
    exact iff_of_true rfl ⟨rfl, fun line h => absurd h List.not_mem_nil⟩
  have hsplit : splitlines d.text ≠ [] := fun h => htext (splitlines_eq_nil.mp h)
  have hmarks : markedLines d ≠ [] := by
    intro h
    rw [h] at hlines
    exact htext (linesBy_eq_nil.mp hlines)
  rw [stripComments, withoutComments, joinLines_inj (fun h => hsplit (List.map_eq_nil_iff.mp h))
    (fun h => hmarks (List.map_eq_nil_iff.mp h))]
  · have hplain : PlainBreaks d.text → (splitlines d.text).map
        (fun line => rstrip (stripLine none false false line)) =
          (markedLines d).map fun line =>
            rstrip (stripLine none false false (line.map Prod.fst)) := by
      intro h
      have hmap := congrArg (List.map fun line => rstrip (stripLine none false false line)) h
      rw [List.map_map, List.map_map, hlines, List.map_map] at hmap
      simpa only [Function.comp_def, rstrip_stripLine_rstrip] using hmap
    have hagree : ((markedLines d).map fun line =>
          rstrip (stripLine none false false (line.map Prod.fst))) =
        ((markedLines d).map fun line => rstrip (uncommented line)) ↔
          ∀ line ∈ markedLines d, QuotesAgree line := by
      rw [List.map_inj_left]
      exact forall₂_congr fun line h => stripLine_iff (endsMarked_of_mem_markedLines h)
    constructor
    · intro h
      have hbreaks : PlainBreaks d.text := by
        have hlen := congrArg List.length h
        rw [List.length_map, List.length_map] at hlen
        rw [plainBreaks_iff, hlines, List.length_map, hlen]
      exact ⟨hbreaks, hagree.mp ((hplain hbreaks).symm.trans h)⟩
    · rintro ⟨hbreaks, h⟩
      exact (hplain hbreaks).trans (hagree.mpr h)
  · intro l hl
    obtain ⟨line, hline, rfl⟩ := List.mem_map.mp hl
    refine newline_notMem_rstrip fun hmem => ?_
    exact absurd (oneLine_of_mem_splitlines hline _ (stripLine_subset _ _ _ _ hmem)) (by decide)
  · intro l hl
    obtain ⟨line, hline, rfl⟩ := List.mem_map.mp hl
    refine newline_notMem_rstrip fun hmem => ?_
    obtain ⟨q, hq, hnl⟩ := List.mem_map.mp hmem
    exact ne_newline_of_mem_markedLines hline q (List.mem_filter.mp hq).1 hnl

end Script

/-- A quoted string of two lines, the second with a `#` before it. -/
def twoLines : Script :=
  ⟨[.piece (.char 'a'), .piece (.char '='),
    .piece (.double [.char 'x', .char '\n', .char '#', .char 'y'])], by decide⟩

/-- A quoted string with an escaped quotation mark, and a comment. -/
def escapedQuote : Script :=
  ⟨[.piece (.double [.char '5', .escape '"']), .piece (.char ' '), .comment [' ', 'x']], by decide⟩

/-- The end of a string is cut off, and a comment is kept. -/
theorem not_stripComments : stripComments twoLines.text = "a=\"x\n".toList ∧
    withoutComments twoLines = "a=\"x\n#y\"".toList ∧
    stripComments escapedQuote.text = "\"5\\\"\" # x".toList ∧
    withoutComments escapedQuote = "\"5\\\"\"".toList := by
  decide

end Sysforge.Pkgbuild
