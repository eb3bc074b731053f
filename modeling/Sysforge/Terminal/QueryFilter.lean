import Sysforge.Foundations.Erasure

/-!
# Terminal queries in a forwarded stream

`_TerminalQueryFilter` drops from a byte stream the sequences by which a child asks the terminal
something (`_TERMINAL_QUERY_RE`: colour queries, titles, CSI reports). The stream comes in chunks, so
`feed` holds back a tail that may still grow into one (`_PENDING_TAIL_RE`), up to `_MAX_PENDING` bytes,
and `flush` releases what is held at the end.

The sequences are overlap-free (`overlapFree_query`), so the filter gives the same for every way of
cutting the stream, drops only whole sequences and lets none through, for exactly the streams in which
no sequence is interrupted by another one (`steady_iff`).
-/

namespace Sysforge.Terminal

open Sysforge.Erasure

/-- A byte string. -/
abbrev Bytes := List UInt8

/-! ## Bytes and patterns -/

def bel : UInt8 := 0x07

def newline : UInt8 := 0x0a

def esc : UInt8 := 0x1b

def semicolon : UInt8 := 0x3b

def question : UInt8 := 0x3f

def bracket : UInt8 := 0x5b

def backslash : UInt8 := 0x5c

def closingBracket : UInt8 := 0x5d

def isDigit (b : UInt8) : Bool := 0x30 ≤ b && b ≤ 0x39

/-- `[0-9;]` -/
def isColourParam (b : UInt8) : Bool := isDigit b || b == semicolon

/-- `[012]` -/
def isTitleKind (b : UInt8) : Bool := b == 0x30 || b == 0x31 || b == 0x32

/-- `[^\x07\x1b]` -/
def isStringByte (b : UInt8) : Bool := b != bel && b != esc

/-- `[0-9;?>]` -/
def isReportParam (b : UInt8) : Bool := isDigit b || b == semicolon || b == question || b == 0x3e

/-- `[tnc]` -/
def isReportFinal (b : UInt8) : Bool := b == 0x74 || b == 0x6e || b == 0x63

/-- `(?:\x07|\x1b\\)` -/
def stringEnd (s : Bytes) : Option Bytes := (lit bel s).or ((lit esc s).bind (lit backslash))

/-- `\x1b\][0-9;]*\?(?:\x07|\x1b\\)` -/
def colourQuery (s : Bytes) : Option Bytes :=
  (lit esc s).bind fun s => (lit closingBracket s).bind fun s =>
    (lit question (s.dropWhile isColourParam)).bind stringEnd

/-- `\x1b\][012];[^\x07\x1b]*(?:\x07|\x1b\\)` -/
def titleSet (s : Bytes) : Option Bytes :=
  (lit esc s).bind fun s => (lit closingBracket s).bind fun s => (one isTitleKind s).bind fun s =>
    (lit semicolon s).bind fun s => stringEnd (s.dropWhile isStringByte)

/-- `\x1b\[[0-9;?>]*[tnc]` -/
def reportRequest (s : Bytes) : Option Bytes :=
  (lit esc s).bind fun s => (lit bracket s).bind fun s => one isReportFinal (s.dropWhile isReportParam)

/-- `_TERMINAL_QUERY_RE` at a place. Its repetitions stop where the next byte of the pattern is, which
is in none of their classes. -/
def terminalQuery (s : Bytes) : Option Bytes :=
  (colourQuery s).or ((titleSet s).or (reportRequest s))

/-- `$`: at the end, or before a newline that ends the text. -/
def atEnd (s : Bytes) : Bool := s == [] || s == [newline]

/-- `_PENDING_TAIL_RE` at a place. -/
def pendingTail (s : Bytes) : Bool :=
  match lit esc s with
  | none => false
  | some s => atEnd s
    || ((lit closingBracket s).any fun s => atEnd (s.dropWhile isStringByte)
        || (lit esc (s.dropWhile isStringByte)).any atEnd)
    || (lit bracket s).any fun s => atEnd (s.dropWhile isReportParam)

/-- A text before the first place at which `_PENDING_TAIL_RE` matches, and from there on. -/
def splitPending : Bytes → Bytes × Bytes
  | [] => ([], [])
  | b :: s => if pendingTail (b :: s) then ([], b :: s) else (b :: (splitPending s).1, (splitPending s).2)

/-- `_MAX_PENDING` -/
def maxPending : ℕ := 4096

/-! ## The filter -/

/-- `_TerminalQueryFilter` -/
structure TerminalQueryFilter where
  pending : Bytes := []

namespace TerminalQueryFilter

/-- What a chunk gives behind what is held, without its sequences. -/
def dropped (f : TerminalQueryFilter) (chunk : Bytes) : Bytes :=
  erase terminalQuery (f.pending ++ chunk)

/-- `feed` -/
def feed (f : TerminalQueryFilter) (chunk : Bytes) : Bytes × TerminalQueryFilter :=
  let data := f.dropped chunk
  if (splitPending data).2.length ≤ maxPending then
    ((splitPending data).1, ⟨(splitPending data).2⟩)
  else (data, ⟨[]⟩)

/-- `flush` -/
def flush (f : TerminalQueryFilter) : Bytes × TerminalQueryFilter := (f.pending, ⟨[]⟩)

/-- What the chunks of a stream give, with the flush at its end. -/
def outputs (f : TerminalQueryFilter) : List Bytes → Bytes
  | [] => f.flush.1
  | c :: cs => (f.feed c).1 ++ outputs (f.feed c).2 cs

/-- No held run is longer than `_MAX_PENDING`. -/
def NoOverflow (f : TerminalQueryFilter) : List Bytes → Prop
  | [] => True
  | c :: cs => (splitPending (f.dropped c)).2.length ≤ maxPending ∧ NoOverflow (f.feed c).2 cs

/-- A stream that gives the same for every way of cutting it: what the whole stream gives, without
only some of its sequences and with none left. -/
def Steady (s : Bytes) : Prop :=
  ∀ chunks : List Bytes, chunks.flatten = s →
    outputs {} chunks = outputs {} [s] ∧ Erased terminalQuery s (outputs {} chunks) ∧
      ¬HasWord terminalQuery (outputs {} chunks)

end TerminalQueryFilter

/-! ## Matches of the patterns -/

section Patterns

variable {s t : Bytes}

/-- The end of a string: BEL, or ESC and a backslash. -/
def StringEnd (e : Bytes) : Prop := e = [bel] ∨ e = [esc, backslash]

theorem stringEnd_eq_some : stringEnd s = some t ↔ ∃ e, StringEnd e ∧ s = e ++ t := by
  rw [stringEnd, Option.or_eq_some_iff, lit_eq_some]
  constructor
  · rintro (rfl | ⟨-, h⟩)
    · exact ⟨_, .inl rfl, rfl⟩
    · obtain ⟨s', hs, ht⟩ := Option.bind_eq_some_iff.mp h
      rw [lit_eq_some] at hs ht
      rw [hs, ht]
      exact ⟨_, .inr rfl, rfl⟩
  · rintro ⟨e, rfl | rfl, rfl⟩
    · exact .inl rfl
    · exact .inr ⟨rfl, rfl⟩

end Patterns

/-! ## The sequences -/

/-- The texts of the sequences. -/
inductive Query : Bytes → Prop
  | colour {ps e : Bytes} : (∀ b ∈ ps, isColourParam b = true) → StringEnd e →
      Query (esc :: closingBracket :: (ps ++ question :: e))
  | title {d : UInt8} {body e : Bytes} : isTitleKind d = true → (∀ b ∈ body, isStringByte b = true) →
      StringEnd e → Query (esc :: closingBracket :: d :: semicolon :: (body ++ e))
  | report {ps : Bytes} {f : UInt8} : (∀ b ∈ ps, isReportParam b = true) → isReportFinal f = true →
      Query (esc :: bracket :: (ps ++ [f]))

section Query

variable {b : UInt8} {a e s t w x : Bytes}

theorem dropWhile_string (hx : ∀ b ∈ x, isStringByte b = true) (he : StringEnd e) (t : Bytes) :
    (x ++ (e ++ t)).dropWhile isStringByte = e ++ t := by
  rcases he with rfl | rfl
  · exact dropWhile_append_cons hx rfl
  · exact dropWhile_append_cons hx rfl

/-- A string ends at its first end. -/
theorem eq_of_string {x' e' t' : Bytes} (hx : ∀ b ∈ x, isStringByte b = true) (he : StringEnd e)
    (hx' : ∀ b ∈ x', isStringByte b = true) (he' : StringEnd e')
    (h : x ++ (e ++ t) = x' ++ (e' ++ t')) : t = t' := by
  have hends : e ++ t = e' ++ t' := by
    rw [← dropWhile_string hx he t, h, dropWhile_string hx' he']
  rcases he with rfl | rfl
  · rcases he' with rfl | rfl
    · exact (List.cons.inj hends).2
    · exact absurd (List.cons.inj hends).1 (by decide)
  · rcases he' with rfl | rfl
    · exact absurd (List.cons.inj hends).1 (by decide)
    · exact (List.cons.inj (List.cons.inj hends).2).2

theorem isStringByte_iff : isStringByte b = true ↔ b ≠ bel ∧ b ≠ esc := by
  rw [isStringByte, Bool.and_eq_true, bne_iff_ne, bne_iff_ne]

theorem isStringByte_of_isColourParam (h : isColourParam b = true) : isStringByte b = true := by
  rw [isStringByte_iff]
  constructor
  · rintro rfl
    exact absurd h (by decide)
  · rintro rfl
    exact absurd h (by decide)

theorem isStringByte_of_colour {ps : Bytes} (hps : ∀ b ∈ ps, isColourParam b = true) :
    ∀ b ∈ ps ++ [question], isStringByte b = true := by
  intro b hb
  rcases List.mem_append.mp hb with hb | hb
  · exact isStringByte_of_isColourParam (hps b hb)
  · rw [List.mem_singleton.mp hb]
    rfl

theorem isStringByte_of_title {d : UInt8} {body : Bytes} (hd : isTitleKind d = true)
    (hbody : ∀ b ∈ body, isStringByte b = true) :
    ∀ b ∈ d :: semicolon :: body, isStringByte b = true := by
  intro b hb
  rcases List.mem_cons.mp hb with rfl | hb
  · rw [isStringByte_iff]
    constructor
    · rintro rfl
      exact absurd hd (by decide)
    · rintro rfl
      exact absurd hd (by decide)
  rcases List.mem_cons.mp hb with rfl | hb
  · rfl
  · exact hbody b hb

theorem colourQuery_eq_some : colourQuery s = some t ↔ ∃ ps e, (∀ b ∈ ps, isColourParam b = true) ∧
    StringEnd e ∧ s = esc :: closingBracket :: (ps ++ question :: e) ++ t := by
  constructor
  · intro h
    obtain ⟨s₁, h₁, htail₁⟩ := Option.bind_eq_some_iff.mp h
    obtain ⟨s₂, h₂, htail₂⟩ := Option.bind_eq_some_iff.mp htail₁
    obtain ⟨s₃, h₃, htail₃⟩ := Option.bind_eq_some_iff.mp htail₂
    obtain ⟨ps, hps, heq⟩ := eq_append_dropWhile isColourParam s₂
    obtain ⟨e, he, rfl⟩ := stringEnd_eq_some.mp htail₃
    refine ⟨ps, e, hps, he, ?_⟩
    rw [lit_eq_some.mp h₁, lit_eq_some.mp h₂, heq, lit_eq_some.mp h₃]
    simp only [List.cons_append, List.append_assoc]
  · rintro ⟨ps, e, hps, he, rfl⟩
    have hdrop : (ps ++ question :: (e ++ t)).dropWhile isColourParam = question :: (e ++ t) :=
      dropWhile_append_cons hps rfl
    simp only [List.cons_append, List.append_assoc]
    rw [colourQuery, lit_eq_some.mpr rfl, Option.bind_some, lit_eq_some.mpr rfl, Option.bind_some, hdrop,
      lit_eq_some.mpr rfl, Option.bind_some]
    exact stringEnd_eq_some.mpr ⟨e, he, rfl⟩

theorem titleSet_eq_some : titleSet s = some t ↔ ∃ d body e, isTitleKind d = true ∧
    (∀ b ∈ body, isStringByte b = true) ∧ StringEnd e ∧
    s = esc :: closingBracket :: d :: semicolon :: (body ++ e) ++ t := by
  constructor
  · intro h
    obtain ⟨s₁, h₁, htail₁⟩ := Option.bind_eq_some_iff.mp h
    obtain ⟨s₂, h₂, htail₂⟩ := Option.bind_eq_some_iff.mp htail₁
    obtain ⟨s₃, h₃, htail₃⟩ := Option.bind_eq_some_iff.mp htail₂
    obtain ⟨s₄, h₄, htail₄⟩ := Option.bind_eq_some_iff.mp htail₃
    obtain ⟨d, hd, rfl⟩ := one_eq_some.mp h₃
    obtain ⟨body, hbody, heq⟩ := eq_append_dropWhile isStringByte s₄
    obtain ⟨e, he, hs⟩ := stringEnd_eq_some.mp htail₄
    refine ⟨d, body, e, hd, hbody, he, ?_⟩
    rw [lit_eq_some.mp h₁, lit_eq_some.mp h₂, lit_eq_some.mp h₄, heq, hs]
    simp only [List.cons_append, List.append_assoc]
  · rintro ⟨d, body, e, hd, hbody, he, rfl⟩
    simp only [List.cons_append, List.append_assoc]
    rw [titleSet, lit_eq_some.mpr rfl, Option.bind_some, lit_eq_some.mpr rfl, Option.bind_some,
      one_eq_some.mpr ⟨d, hd, rfl⟩, Option.bind_some, lit_eq_some.mpr rfl, Option.bind_some,
      dropWhile_string hbody he]
    exact stringEnd_eq_some.mpr ⟨e, he, rfl⟩

theorem isReportParam_of_isReportFinal (h : isReportFinal b = true) : isReportParam b = false := by
  rw [isReportFinal, Bool.or_eq_true, Bool.or_eq_true, beq_iff_eq, beq_iff_eq, beq_iff_eq] at h
  rcases h with (rfl | rfl) | rfl <;> rfl

theorem reportRequest_eq_some : reportRequest s = some t ↔ ∃ ps f, (∀ b ∈ ps, isReportParam b = true) ∧
    isReportFinal f = true ∧ s = esc :: bracket :: (ps ++ [f]) ++ t := by
  constructor
  · intro h
    obtain ⟨s₁, h₁, htail₁⟩ := Option.bind_eq_some_iff.mp h
    obtain ⟨s₂, h₂, htail₂⟩ := Option.bind_eq_some_iff.mp htail₁
    obtain ⟨f, hf, hs⟩ := one_eq_some.mp htail₂
    obtain ⟨ps, hps, heq⟩ := eq_append_dropWhile isReportParam s₂
    refine ⟨ps, f, hps, hf, ?_⟩
    rw [lit_eq_some.mp h₁, lit_eq_some.mp h₂, heq, hs]
    simp only [List.cons_append, List.append_assoc, List.nil_append]
  · rintro ⟨ps, f, hps, hf, rfl⟩
    have hdrop : (ps ++ f :: t).dropWhile isReportParam = f :: t :=
      dropWhile_append_cons hps (isReportParam_of_isReportFinal hf)
    simp only [List.cons_append, List.append_assoc, List.nil_append]
    rw [reportRequest, lit_eq_some.mpr rfl, Option.bind_some, lit_eq_some.mpr rfl, Option.bind_some, hdrop]
    exact one_eq_some.mpr ⟨f, hf, rfl⟩

/-- A match is one of the sequences. -/
theorem query_of_terminalQuery (h : terminalQuery s = some t) : ∃ w, Query w ∧ s = w ++ t := by
  rw [terminalQuery, Option.or_eq_some_iff] at h
  rcases h with h | ⟨-, h⟩
  · obtain ⟨ps, e, hps, he, rfl⟩ := colourQuery_eq_some.mp h
    exact ⟨_, .colour hps he, rfl⟩
  rw [Option.or_eq_some_iff] at h
  rcases h with h | ⟨-, h⟩
  · obtain ⟨d, body, e, hd, hbody, he, rfl⟩ := titleSet_eq_some.mp h
    exact ⟨_, .title hd hbody he, rfl⟩
  · obtain ⟨ps, f, hps, hf, rfl⟩ := reportRequest_eq_some.mp h
    exact ⟨_, .report hps hf, rfl⟩

/-! ### Where a sequence ends -/

/-- The bytes of a sequence: an ESC, bytes other than it, and the end, which is the only place where
another ESC may stand, before a backslash. -/
theorem Query.shape (h : Query w) : ∃ x e, w = esc :: (x ++ e) ∧ x ≠ [] ∧ esc ∉ x ∧
    (e = [esc, backslash] ∨ ∃ c, c ≠ esc ∧ e = [c]) := by
  have ending : ∀ {e}, StringEnd e → e = [esc, backslash] ∨ ∃ c, c ≠ esc ∧ e = [c] := by
    rintro e (rfl | rfl)
    · exact .inr ⟨bel, by decide, rfl⟩
    · exact .inl rfl
  cases h with
  | @colour ps e hps he =>
    refine ⟨closingBracket :: (ps ++ [question]), e, ?_, List.cons_ne_nil _ _, ?_, ending he⟩
    · rw [List.cons_append, List.append_assoc]
      rfl
    · intro hmem
      rcases List.mem_cons.mp hmem with h | h
      · exact absurd h (by decide)
      rcases List.mem_append.mp h with h | h
      · exact absurd (hps esc h) (by decide)
      · exact absurd (List.mem_singleton.mp h) (by decide)
  | @title d body e hd hbody he =>
    refine ⟨closingBracket :: d :: semicolon :: body, e, rfl, List.cons_ne_nil _ _, ?_, ending he⟩
    intro hmem
    rcases List.mem_cons.mp hmem with h | h
    · exact absurd h (by decide)
    rcases List.mem_cons.mp h with rfl | h
    · exact absurd hd (by decide)
    rcases List.mem_cons.mp h with h | h
    · exact absurd h (by decide)
    · exact absurd (hbody esc h) (by decide)
  | @report ps f hps hf =>
    refine ⟨bracket :: ps, [f], rfl, List.cons_ne_nil _ _, ?_, .inr ⟨f, ?_, rfl⟩⟩
    · intro hmem
      rcases List.mem_cons.mp hmem with h | h
      · exact absurd h (by decide)
      · exact absurd (hps esc h) (by decide)
    · rintro rfl
      exact absurd hf (by decide)

theorem exists_of_terminalQuery (h : terminalQuery s = some t) :
    ∃ k s', s = esc :: k :: s' ∧ k ≠ backslash := by
  obtain ⟨w, hw, rfl⟩ := query_of_terminalQuery h
  cases hw with
  | colour hps he => exact ⟨closingBracket, _, rfl, by decide⟩
  | title hd hbody he => exact ⟨closingBracket, _, rfl, by decide⟩
  | report hps hf => exact ⟨bracket, _, rfl, by decide⟩

theorem eq_of_end (he : e = [esc, backslash] ∨ ∃ c, c ≠ esc ∧ e = [c]) (h : e = a ++ esc :: x) :
    x = [backslash] := by
  have hlen := congrArg List.length h
  rw [List.length_append, List.length_cons] at hlen
  rcases he with rfl | ⟨c, hc, rfl⟩
  · rcases a with _ | ⟨b, _ | ⟨b', a⟩⟩
    · exact (List.cons.inj h).2.symm
    · exact absurd (List.cons.inj (List.cons.inj h).2).1 (by decide)
    · simp only [List.length_cons, List.length_nil] at hlen
      omega
  · rcases a with _ | ⟨b, a⟩
    · exact absurd (List.cons.inj h).1 hc
    · simp only [List.length_cons, List.length_nil] at hlen
      omega

/-- No sequence begins inside another. -/
theorem Query.apart (h : Query (a ++ x)) (ha : a ≠ []) (hx : x ≠ []) (t : Bytes) :
    terminalQuery (x ++ t) = none := by
  obtain ⟨u, e, heq, -, hesc, he⟩ := h.shape
  rw [Option.eq_none_iff_forall_ne_some]
  intro t' ht'
  obtain ⟨k, s', hstart, hk⟩ := exists_of_terminalQuery ht'
  obtain ⟨b, x, rfl⟩ := List.exists_cons_of_ne_nil hx
  obtain ⟨c, a, rfl⟩ := List.exists_cons_of_ne_nil ha
  obtain ⟨rfl, hrest⟩ := List.cons.inj hstart
  -- the ESC that begins `x` is in the end of the sequence
  have hback : x = [backslash] := by
    rcases List.append_eq_append_iff.mp (List.cons.inj heq).2 with ⟨v, rfl, hv⟩ | ⟨v, rfl, hv⟩
    · cases v with
      | nil => exact eq_of_end (a := []) he hv.symm
      | cons b v =>
        obtain ⟨rfl, -⟩ := List.cons.inj hv
        exact absurd (List.mem_append_right a List.mem_cons_self) hesc
    · exact eq_of_end he hv
  rw [hback] at hrest
  exact hk (List.cons.inj hrest).1.symm

/-- A sequence is matched whatever follows. -/
theorem Query.terminalQuery_append (h : Query w) (t : Bytes) : terminalQuery (w ++ t) = some t := by
  rw [terminalQuery, Option.or_eq_some_iff]
  cases h with
  | @colour ps e hps he => exact .inl (colourQuery_eq_some.mpr ⟨ps, e, hps, he, rfl⟩)
  | @title d body e hd hbody he =>
    have htitle : titleSet (esc :: closingBracket :: d :: semicolon :: (body ++ e) ++ t) = some t :=
      titleSet_eq_some.mpr ⟨d, body, e, hd, hbody, he, rfl⟩
    cases hcolour : colourQuery (esc :: closingBracket :: d :: semicolon :: (body ++ e) ++ t) with
    | none => exact .inr ⟨rfl, Option.or_eq_some_iff.mpr (.inl htitle)⟩
    | some t' =>
      -- a title may read as a query, which then has the same end
      obtain ⟨ps, e', hps, he', heq⟩ := colourQuery_eq_some.mp hcolour
      refine .inl (congrArg some (eq_of_string (isStringByte_of_colour hps) he'
        (isStringByte_of_title hd hbody) he ?_))
      simp only [List.cons_append, List.append_assoc, List.nil_append] at heq ⊢
      exact (List.cons.inj (List.cons.inj heq).2).2.symm
  | @report ps f hps hf =>
    have hreport : reportRequest (esc :: bracket :: (ps ++ [f]) ++ t) = some t :=
      reportRequest_eq_some.mpr ⟨ps, f, hps, hf, rfl⟩
    exact .inr ⟨rfl, Option.or_eq_some_iff.mpr (.inr ⟨rfl, hreport⟩)⟩

/-- The whole texts that the pattern matches are the sequences. -/
theorem word_terminalQuery_iff : Word terminalQuery w ↔ Query w := by
  constructor
  · intro h
    obtain ⟨w', hw', rfl⟩ := query_of_terminalQuery h
    rwa [List.append_nil]
  · intro h
    have happ := h.terminalQuery_append []
    rwa [List.append_nil] at happ

/-- Sequences are recognised by themselves, and none begins inside another. -/
theorem overlapFree_query : OverlapFree terminalQuery where
  of_front h := by
    obtain ⟨w, hw, rfl⟩ := query_of_terminalQuery h
    obtain ⟨x, e, rfl, -⟩ := hw.shape
    exact ⟨_, List.cons_ne_nil _ _, word_terminalQuery_iff.mpr hw, rfl⟩
  front_append t h := (word_terminalQuery_iff.mp h).terminalQuery_append t
  apart t h ha hb := (word_terminalQuery_iff.mp h).apart ha hb t

end Query

/-! ## Held tails -/

section Pending

variable {b c q s x : Bytes} {p : UInt8 → Bool} {f : TerminalQueryFilter} {chunks : List Bytes}

/-- A begun string is held, with the ESC that may begin its end. -/
theorem dropWhile_of_string {e : Bytes} (hx : ∀ b ∈ x, isStringByte b = true) (he : StringEnd e)
    (hb : b ≠ []) (h : q ++ b = x ++ e) :
    q.dropWhile isStringByte = [] ∨ q.dropWhile isStringByte = [esc] := by
  rcases List.append_eq_append_iff.mp h with ⟨v, rfl, -⟩ | ⟨v, rfl, hv⟩
  · exact .inl (dropWhile_eq_nil fun b hb => hx b (List.mem_append_left v hb))
  have hlen := congrArg List.length hv
  have hpos := List.length_pos_of_ne_nil hb
  rw [List.length_append] at hlen
  rcases he with rfl | rfl
  · rcases v with _ | ⟨c, v⟩
    · rw [List.append_nil]
      exact .inl (dropWhile_eq_nil hx)
    · simp only [List.length_cons, List.length_nil] at hlen
      omega
  · rcases v with _ | ⟨c, _ | ⟨c', v⟩⟩
    · rw [List.append_nil]
      exact .inl (dropWhile_eq_nil hx)
    · obtain ⟨rfl, -⟩ := List.cons.inj hv
      exact .inr (dropWhile_append_cons hx rfl)
    · simp only [List.length_cons, List.length_nil] at hlen
      omega

theorem pendingTail_string (h : s.dropWhile isStringByte = [] ∨ s.dropWhile isStringByte = [esc]) :
    pendingTail (esc :: closingBracket :: s) = true := by
  have hlit : lit esc (esc :: closingBracket :: s) = some (closingBracket :: s) := lit_eq_some.mpr rfl
  have hcb : lit closingBracket (closingBracket :: s) = some s := lit_eq_some.mpr rfl
  rw [pendingTail, hlit]
  dsimp only
  rw [hcb, Option.any_some, Bool.or_eq_true, Bool.or_eq_true, Bool.or_eq_true]
  refine .inl (.inr ?_)
  rcases h with h | h
  · rw [h]
    exact .inl rfl
  · rw [h]
    exact .inr rfl

theorem pendingTail_report (h : ∀ b ∈ s, isReportParam b = true) :
    pendingTail (esc :: bracket :: s) = true := by
  have hlit : lit esc (esc :: bracket :: s) = some (bracket :: s) := lit_eq_some.mpr rfl
  have hb : lit bracket (bracket :: s) = some s := lit_eq_some.mpr rfl
  rw [pendingTail, hlit]
  dsimp only
  rw [hb, Option.any_some, dropWhile_eq_nil h, Bool.or_eq_true]
  exact .inr rfl

/-- A begun sequence is a pending tail. -/
theorem Query.pending (h : Query (q ++ b)) (hq : q ≠ []) (hb : b ≠ []) : pendingTail q = true := by
  generalize hw : q ++ b = w at h
  obtain ⟨c, q, rfl⟩ := List.exists_cons_of_ne_nil hq
  cases h with
  | @colour ps e hps he =>
    obtain ⟨rfl, htail⟩ := List.cons.inj hw
    cases q with
    | nil => rfl
    | cons c q =>
      obtain ⟨rfl, hrest⟩ := List.cons.inj htail
      refine pendingTail_string (dropWhile_of_string (isStringByte_of_colour hps) he hb ?_)
      rw [List.append_assoc]
      exact hrest
  | @title d body e hd hbody he =>
    obtain ⟨rfl, htail⟩ := List.cons.inj hw
    cases q with
    | nil => rfl
    | cons c q =>
      obtain ⟨rfl, hrest⟩ := List.cons.inj htail
      exact pendingTail_string (dropWhile_of_string (isStringByte_of_title hd hbody) he hb hrest)
  | @report ps f hps hf =>
    obtain ⟨rfl, htail⟩ := List.cons.inj hw
    cases q with
    | nil => rfl
    | cons c q =>
      obtain ⟨rfl, hrest⟩ := List.cons.inj htail
      refine pendingTail_report fun k hk => ?_
      rcases List.append_eq_append_iff.mp hrest with ⟨v, rfl, -⟩ | ⟨v, rfl, hv⟩
      · exact hps k (List.mem_append_left v hk)
      · -- only the final byte would be left, and it is behind `q`
        obtain ⟨rfl, -⟩ | ⟨-, rfl⟩ := List.append_eq_singleton_iff.mp hv.symm
        · rw [List.append_nil] at hk
          exact hps k hk
        · exact absurd rfl hb

/-- A text up to the first pending tail and from there on is the text. -/
theorem splitPending_append (s : Bytes) : (splitPending s).1 ++ (splitPending s).2 = s := by
  induction s with
  | nil => rfl
  | cons b s ih =>
    rw [splitPending]
    by_cases h : pendingTail (b :: s) = true
    · rw [if_pos h]
      rfl
    · rw [if_neg h]
      exact congrArg _ ih

theorem suffix_splitPending (hq : pendingTail q = true) (x : Bytes) :
    q <:+ (splitPending (x ++ q)).2 := by
  induction x with
  | nil =>
    cases q with
    | nil => exact List.nil_suffix
    | cons b q => rw [List.nil_append, splitPending, if_pos hq]
  | cons b x ih =>
    rw [List.cons_append, splitPending]
    by_cases h : pendingTail (b :: (x ++ q)) = true
    · rw [if_pos h]
      exact ⟨b :: x, rfl⟩
    · rw [if_neg h]
      exact ih

theorem holds_splitPending : Holds terminalQuery splitPending where
  append := splitPending_append
  held hq hb hw := suffix_splitPending ((word_terminalQuery_iff.mp hw).pending hq hb) _

namespace TerminalQueryFilter

/-- Where nothing held is too long, the filter is the one that holds every pending tail. -/
theorem outputs_eq (h : f.NoOverflow chunks) :
    f.outputs chunks = filterFrom terminalQuery splitPending f.pending chunks := by
  induction chunks generalizing f with
  | nil => rfl
  | cons c cs ih =>
    have hfeed : f.feed c = ((splitPending (f.dropped c)).1, ⟨(splitPending (f.dropped c)).2⟩) :=
      if_pos h.1
    rw [outputs, ih h.2, hfeed]
    rfl

theorem outputs_singleton (h : NoOverflow {} [s]) : outputs {} [s] = erase terminalQuery s := by
  rw [outputs_eq h, filterFrom, filterFrom]
  exact splitPending_append _

/-- **The filter does not depend on how the stream is cut, drops only whole sequences and lets none
through, exactly when no sequence of the stream is interrupted by another one.** -/
theorem steady_iff (s : Bytes) (hheld : ∀ chunks : List Bytes, chunks.flatten = s → NoOverflow {} chunks) :
    Steady s ↔ ¬Interrupted terminalQuery s := by
  have hwhole : outputs {} [s] = erase terminalQuery s :=
    outputs_singleton (hheld [s] (List.append_nil s))
  rw [overlapFree_query.interrupted_iff]
  constructor
  · intro h
    rw [← hwhole]
    exact (h [s] (List.append_nil s)).2.2
  · intro h chunks hchunks
    have heq : outputs {} chunks = erase terminalQuery s := by
      rw [outputs_eq (hheld chunks hchunks)]
      cases chunks with
      | nil =>
        rw [← hchunks]
        rfl
      | cons c cs =>
        subst hchunks
        exact overlapFree_query.filterFrom_eq_erase holds_splitPending c h
    rw [hwhole, heq]
    exact ⟨rfl, overlapFree_query.erased_erase s, h⟩

end TerminalQueryFilter

end Pending

end Sysforge.Terminal
