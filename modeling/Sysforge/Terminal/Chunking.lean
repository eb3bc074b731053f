import Sysforge.Terminal.FrameClip

/-!
# Streams in chunks

The bytes of a child's output come in the chunks that `os.read` gives. Both filters give the same for
every way of cutting a stream exactly when no query sequence of the stream is interrupted by another
one and no frame with a start that is refused shows at the width (`filters_steady_iff`).
-/

namespace Sysforge.Terminal

open Sysforge.Erasure

/-! ## Short streams -/

section Short

variable {p s line : Bytes} {f : TerminalQueryFilter} {chunks : List Bytes}

theorem length_erase_le (front : Front UInt8) (s : Bytes) : (erase front s).length ≤ s.length := by
  suffices h : ∀ k, (eraseFrom front k s).length ≤ s.length from h 0
  induction s with
  | nil =>
    intro k
    cases k
    all_goals exact le_rfl
  | cons b s ih =>
    intro k
    cases k with
    | succ k => exact (ih k).trans (Nat.le_succ _)
    | zero =>
      rw [eraseFrom]
      cases front (b :: s) with
      | some rest => exact (ih _).trans (Nat.le_succ _)
      | none => exact Nat.succ_le_succ (ih 0)

/-- A short stream holds nothing that is too long. -/
theorem noOverflow_of_length (h : (f.pending ++ chunks.flatten).length ≤ maxPending) :
    f.NoOverflow chunks := by
  induction chunks generalizing f with
  | nil => trivial
  | cons c cs ih =>
    rw [List.flatten_cons, ← List.append_assoc, List.length_append] at h
    have hdropped : (splitPending (f.dropped c)).2.length ≤ (f.pending ++ c).length := by
      have happ := congrArg List.length (splitPending_append (f.dropped c))
      rw [List.length_append] at happ
      have herase := length_erase_le terminalQuery (f.pending ++ c)
      rw [TerminalQueryFilter.dropped] at happ ⊢
      omega
    have hle : (splitPending (f.dropped c)).2.length ≤ maxPending := by omega
    refine ⟨hle, ih ?_⟩
    rw [TerminalQueryFilter.feed, if_pos hle]
    change ((splitPending (f.dropped c)).2 ++ cs.flatten).length ≤ maxPending
    rw [List.length_append]
    omega

theorem length_line_le (h : line ∈ CargoFrameClip.lines s) : line.length ≤ s.length := by
  induction s generalizing line with
  | nil =>
    rw [List.mem_singleton.mp h]
    exact le_rfl
  | cons b s ih =>
    by_cases hb : isTerminator b = true
    · rw [CargoFrameClip.lines, CargoFrameClip.rows_terminator hb] at h
      rcases List.mem_cons.mp h with rfl | h
      · exact Nat.zero_le _
      · exact (ih h).trans (Nat.le_succ _)
    · obtain ⟨l, ls, hl, hcons⟩ := CargoFrameClip.exists_lines_cons (Bool.eq_false_iff.mpr hb) s
      rw [hl] at ih
      rw [hcons] at h
      rcases List.mem_cons.mp h with rfl | h
      · exact Nat.succ_le_succ (ih List.mem_cons_self)
      · exact (ih (List.mem_cons_of_mem l h)).trans (Nat.le_succ _)

/-- A short stream has no line start that is too long. -/
theorem framesFit_of_length (h : s.length ≤ cargoFrameMax) : CargoFrameClip.FramesFit s :=
  fun _ hline _ hp _ => (hp.length_le.trans (length_line_le hline)).trans h

end Short

/-- **Both filters give the same for every way of cutting a stream, drop and cut only what they should
and let no query through, exactly when no query sequence is interrupted by another one and no frame
with a refused start shows.** -/
theorem filters_steady_iff (cols : ℕ) (s : Bytes)
    (hheld : ∀ chunks : List Bytes, chunks.flatten = s → TerminalQueryFilter.NoOverflow {} chunks)
    (hfit : CargoFrameClip.FramesFit s) :
    TerminalQueryFilter.Steady s ∧ CargoFrameClip.Steady cols s ↔
      ¬Interrupted terminalQuery s ∧ ¬CargoFrameClip.Split (max 1 (cols - 1)) s :=
  and_congr (TerminalQueryFilter.steady_iff s hheld) (CargoFrameClip.steady_iff cols s hfit)

/-- A colour query and a frame. -/
def queryAndFrame : Bytes :=
  [esc, bracket, 0x63, 0x20, 0x42, 0x75, 0x20, bracket, 0x3d, 0x3d, carriageReturn]

/-- `ESC [` and `c`, with another `ESC [ c` between them. -/
def interruptedQuery : Bytes := [esc, bracket, esc, bracket, 0x63, 0x63]

/-- A frame behind `ESC ( B`. -/
def designatedFrame : Bytes :=
  [esc, 0x28, 0x42, 0x20, 0x42, 0x75, 0x20, bracket, 0x3d, 0x3d, carriageReturn]

theorem mem_esc_of_hasWord {s : Bytes} (h : HasWord terminalQuery s) : esc ∈ s := by
  obtain ⟨p, w, q, hw, rfl⟩ := h
  obtain ⟨x, e, rfl, -⟩ := (word_terminalQuery_iff.mp hw).shape
  exact List.mem_append_right p (List.mem_append_left q List.mem_cons_self)

theorem not_refused_queryAndFrame {before after : List (Bytes × UInt8)} {line : Bytes} {t : UInt8}
    (hrows : (CargoFrameClip.rows queryAndFrame).1 = before ++ (line, t) :: after) :
    ¬CargoFrameClip.Refused line := by
  have hone : (CargoFrameClip.rows queryAndFrame).1 = [(queryAndFrame.dropLast, carriageReturn)] := rfl
  have hmem := hrows ▸ List.mem_append_right before List.mem_cons_self
  rw [hone] at hmem
  obtain ⟨rfl, -⟩ := Prod.mk.inj (List.mem_singleton.mp hmem)
  rintro ⟨p, hp, hframe, hcould⟩
  have hstarts : ∀ n < 11, (isFrame (queryAndFrame.dropLast.take n) ||
      couldBeFrame (queryAndFrame.dropLast.take n)) = true := by decide
  have hstart := hstarts p.length (Nat.lt_succ_of_le hp.length_le)
  rw [← List.prefix_iff_eq_take.mp hp, hframe, hcould] at hstart
  exact Bool.false_ne_true hstart

theorem filters_steady_queryAndFrame :
    TerminalQueryFilter.Steady queryAndFrame ∧ CargoFrameClip.Steady 5 queryAndFrame := by
  refine (filters_steady_iff 5 queryAndFrame (fun chunks hchunks => ?_) ?_).mpr ⟨?_, ?_⟩
  · refine noOverflow_of_length ?_
    rw [hchunks]
    decide
  · exact framesFit_of_length (by decide)
  · rw [overlapFree_query.interrupted_iff]
    intro h
    exact absurd (mem_esc_of_hasWord h) (by decide)
  · rw [CargoFrameClip.not_split_iff]
    intro before line t after hrows _ hrefused
    exact absurd hrefused (not_refused_queryAndFrame hrows)

/-- A query comes about behind the filter, and a cut in front of the last byte of `ESC ( B` lets a
frame through. -/
theorem not_filters_steady :
    (¬∀ s : Bytes, (∀ chunks : List Bytes, chunks.flatten = s →
      TerminalQueryFilter.NoOverflow {} chunks) → TerminalQueryFilter.Steady s) ∧
    ¬∀ (cols : ℕ) (s : Bytes), CargoFrameClip.FramesFit s → CargoFrameClip.Steady cols s := by
  constructor
  · intro h
    have hsteady := h interruptedQuery fun chunks hchunks => noOverflow_of_length (by
      rw [hchunks]
      decide)
    exact (hsteady [interruptedQuery] rfl).2.2 ⟨[], [esc, bracket, 0x63], [], rfl, by decide⟩
  · intro h
    have hsteady := h 5 designatedFrame (framesFit_of_length (by decide))
    exact absurd (hsteady [[esc, 0x28], designatedFrame.drop 2] rfl).1 (by decide)

end Sysforge.Terminal
