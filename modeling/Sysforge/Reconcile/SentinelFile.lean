import Sysforge.Foundations.Lines
import Sysforge.Foundations.Numerals
import Sysforge.Foundations.Regex
import Sysforge.Reconcile.SentinelRuns

/-!
# The text of a sentinel

A transaction is appended as a line with its timestamp, the names of its packages and a blank line.
The decoder reads the lines one by one; what it should find is `ownStamps`, which gives every name
the timestamp of its own block. `sentinels_iff` says when the two agree, for any text, and that the
packages that count as installed externally are then the right ones.
-/

namespace Sysforge.Reconcile

open Text

/-! ## Timestamps -/

/-- A digit in a range. -/
def digitIn (lo hi : Char) : Re := .char fun c => lo ≤ c && c ≤ hi

/-- `\d`. -/
def anyDigit : Re := .char isDecimal

/-- The patterns of `%m`, `%d`, `%H`, `%M` and `%S`. -/
def monthRe : Re :=
  .alt (.seq (Re.lit1 '1') (digitIn '0' '2'))
    (.alt (.seq (Re.lit1 '0') (digitIn '1' '9')) (digitIn '1' '9'))

def dayRe : Re :=
  .alt (.seq (Re.lit1 '3') (digitIn '0' '1')) <|
    .alt (.seq (digitIn '1' '2') anyDigit) <|
      .alt (.seq (Re.lit1 '0') (digitIn '1' '9')) <|
        .alt (digitIn '1' '9') (.seq (Re.lit1 ' ') (digitIn '1' '9'))

def hourRe : Re :=
  .alt (.seq (Re.lit1 '2') (digitIn '0' '3')) (.alt (.seq (digitIn '0' '1') anyDigit) anyDigit)

def minuteRe : Re := .alt (.seq (digitIn '0' '5') anyDigit) anyDigit

def secondRe : Re := .alt (.seq (Re.lit1 '6') (digitIn '0' '1')) minuteRe

/-- `%Y-%m-%dT%H:%M:%SZ`. -/
def stampRe : Re :=
  .seq (.group 1 (.seq anyDigit (.seq anyDigit (.seq anyDigit anyDigit)))) <| .seq (Re.lit1 '-') <|
    .seq (.group 2 monthRe) <| .seq (Re.lit1 '-') <| .seq (.group 3 dayRe) <| .seq (Re.lit1 'T') <|
      .seq hourRe <| .seq (Re.lit1 ':') <| .seq minuteRe <| .seq (Re.lit1 ':') <|
        .seq (.group 4 secondRe) (Re.lit1 'Z')

/-- The days of a month. -/
def daysIn (year month : ℕ) : ℕ :=
  if month = 2 then
    if year % 4 = 0 ∧ (year % 100 ≠ 0 ∨ year % 400 = 0) then 29 else 28
  else if month ∈ [4, 6, 9, 11] then 30 else 31

/-- `datetime.strptime` gives a date. -/
def strptime (s : Text) : Bool :=
  match Re.matchAt stampRe s 0 with
  | none => false
  | some m =>
    let number (n : ℕ) := natValue ((m.group s n).filter fun c => c ≠ ' ')
    let year := number 1
    let month := number 2
    m.stop = s.length && 1 ≤ year && number 3 ≤ daysIn year month && number 4 ≤ 59

/-- `_looks_like_timestamp`. -/
def looksLikeTimestamp (line : Text) : Bool :=
  line.getLast? = some 'Z' && 'T' ∈ line && strptime line

/-! ## The code -/

/-- What `_parse_stamped_events` holds: the events, the stamp of the block that is started, and the
names that are collected. -/
structure Decoder where
  events : List Event := []
  started : Option {stamp : String // stamp ≠ ""} := none
  current : List String := []

/-- `events.append((stamp, current))` of a block that is started. -/
def Decoder.flush (own : Bool) (d : Decoder) : Decoder :=
  match d.started with
  | some stamp =>
    { events := d.events ++ [⟨stamp.1, d.current, own, stamp.2⟩], started := none, current := [] }
  | none => d

/-- What a line is, without the blanks around it. -/
inductive Line
  | blank
  | stamp (s : {stamp : String // stamp ≠ ""})
  | name (n : String)

/-- A line that is not blank is a timestamp or a name. -/
def classify (raw : Text) : Line :=
  let line := strip raw
  if h : String.ofList line ≠ "" then
    if looksLikeTimestamp line then .stamp ⟨String.ofList line, h⟩ else .name (String.ofList line)
  else .blank

/-- One line of `_parse_stamped_events`. -/
def Decoder.line (own : Bool) (d : Decoder) : Line → Decoder
  | .blank => d.flush own
  | .stamp s => { d.flush own with started := some s }
  | .name n => { d with current := d.current.insert n }

/-- `_parse_stamped_events`. A sentinel is that of sysforge's own installs, or it is not. -/
def parseStampedEvents (own : Bool) (text : Text) : List Event :=
  ((((splitlines text).map classify).foldl (Decoder.line own) {}).flush own).events

/-- `external_install_targets`, of the texts of both sentinels. -/
def externalTargetsOf (selfInstall buildstate : Text) : List String :=
  externalInstallTargets (parseStampedEvents true selfInstall) (parseStampedEvents false buildstate)

/-! ## What the texts say -/

/-- Every name with the stamp of its own block, and with the empty one where it has none. -/
def ownStamps : String → List Line → List (String × String)
  | _, [] => []
  | _, .blank :: lines => ownStamps "" lines
  | _, .stamp s :: lines => ownStamps s.1 lines
  | stamp, .name n :: lines => (stamp, n) :: ownStamps stamp lines

/-- The names of a text with their stamps. -/
def stamped (text : Text) : List (String × String) := ownStamps "" ((splitlines text).map classify)

/-- The stamps of a text. -/
def stamps (lines : List Line) : List String :=
  lines.filterMap fun line => match line with
    | .stamp s => some s.1
    | _ => none

/-- The blocks were appended one after the other. -/
def InOrder (text : Text) : Prop := (stamps ((splitlines text).map classify)).Pairwise (· ≤ ·)

instance (text : Text) : Decidable (InOrder text) := List.instDecidablePairwise _

/-- The stamp of the last block that names a package, the empty one if none does. -/
def lastStamp (text : Text) (n : String) : String :=
  (((stamped text).filter fun p => p.2 = n).getLast?.map Prod.fst).getD ""

/-- Each name is decoded with the stamp of its own block, and none is dropped. -/
def Decodes (own : Bool) (text : Text) : Prop :=
  ∀ stamp n, (∃ e ∈ parseStampedEvents own text, e.stamp = stamp ∧ n ∈ e.names) ↔
    (stamp, n) ∈ stamped text

/-- Both sentinels are decoded, and the external targets are the packages whose last transaction is
later than their last own install. -/
structure ReadsSentinels (selfInstall buildstate : Text) : Prop where
  own : Decodes true selfInstall
  window : Decodes false buildstate
  external : ∀ n, n ∈ externalTargetsOf selfInstall buildstate ↔
    lastStamp selfInstall n < lastStamp buildstate n

/-- Every name is in a block with a stamp. -/
def AllStamped (text : Text) : Prop := ∀ p ∈ stamped text, p.1 ≠ ""

instance (text : Text) : Decidable (AllStamped text) := List.decidableBAll _ _

/-! ## Decoding -/

section Decoding

variable {own : Bool} {d : Decoder} {lines : List Line} {text : Text} {t n : String}

/-- The stamp of the names that are collected. -/
def Decoder.stamp (d : Decoder) : String := (d.started.map Subtype.val).getD ""

/-- The names of the decoder with their stamps. -/
def Decoder.Holds (d : Decoder) (t n : String) : Prop :=
  (∃ e ∈ d.events, e.stamp = t ∧ n ∈ e.names) ∨ d.stamp = t ∧ n ∈ d.current

/-- Names are collected only in a block. -/
def Decoder.Tidy (d : Decoder) : Prop := d.started = none → d.current = []

theorem flush_events : (∃ e ∈ (d.flush own).events, e.stamp = t ∧ n ∈ e.names) ↔
    (∃ e ∈ d.events, e.stamp = t ∧ n ∈ e.names) ∨
      (∃ s, d.started = some s ∧ s.1 = t) ∧ n ∈ d.current := by
  unfold Decoder.flush
  cases hs : d.started with
  | none =>
    refine (or_iff_left ?_).symm
    rintro ⟨⟨s, h, -⟩, -⟩
    cases h
  | some s =>
    simp only [List.mem_append, List.mem_singleton, or_and_right, exists_or, exists_eq_left]
    refine or_congr Iff.rfl (and_congr_left fun _ => ?_)
    exact ⟨fun h => ⟨s, rfl, h⟩, fun ⟨s', h, h'⟩ => by rw [Option.some.inj h]; exact h'⟩

theorem flush_tidy (own : Bool) (d : Decoder) (h : d.Tidy) :
    (d.flush own).started = none ∧ (d.flush own).current = [] := by
  unfold Decoder.flush
  cases hs : d.started with
  | none => exact ⟨hs, h hs⟩
  | some s => exact ⟨rfl, rfl⟩

theorem flush_holds (own : Bool) (h : d.Tidy) : (d.flush own).Holds t n ↔ d.Holds t n := by
  obtain ⟨-, hcurrent⟩ := flush_tidy own d h
  unfold Decoder.Holds
  rw [flush_events, hcurrent, or_iff_left (by simp)]
  refine or_congr Iff.rfl (and_congr_left fun hn => ?_)
  unfold Decoder.stamp
  cases hs : d.started with
  | none =>
    rw [h hs] at hn
    exact absurd hn List.not_mem_nil
  | some s => exact ⟨fun ⟨s', h, h'⟩ => Option.some.inj h ▸ h', fun h => ⟨s, rfl, h⟩⟩

/-- Over lines that give every name a stamp, the decoder collects the names with their stamps. -/
theorem foldl_holds (h : d.Tidy) (hs : ∀ p ∈ ownStamps d.stamp lines, p.1 ≠ "") :
    (lines.foldl (Decoder.line own) d).Tidy ∧
      ∀ t n, (lines.foldl (Decoder.line own) d).Holds t n ↔
        d.Holds t n ∨ (t, n) ∈ ownStamps d.stamp lines := by
  induction lines generalizing d with
  | nil => exact ⟨h, fun _ _ => (or_iff_left List.not_mem_nil).symm⟩
  | cons line lines ih =>
    obtain ⟨hstarted, hcurrent⟩ := flush_tidy own d h
    cases line with
    | blank =>
      have hstamp : (d.flush own).stamp = "" := by
        unfold Decoder.stamp
        rw [hstarted]
        rfl
      have hrec := @ih (d.flush own) (fun _ => hcurrent) (by rw [hstamp]; exact hs)
      refine ⟨hrec.1, fun t n => ?_⟩
      rw [List.foldl_cons, Decoder.line, hrec.2, flush_holds own h, hstamp, ownStamps]
    | stamp s =>
      have hrec := @ih { d.flush own with started := some s } nofun hs
      refine ⟨hrec.1, fun t n => ?_⟩
      rw [List.foldl_cons, Decoder.line, hrec.2, ownStamps]
      refine or_congr ?_ Iff.rfl
      rw [← flush_holds own h]
      unfold Decoder.Holds
      dsimp only
      rw [hcurrent]
      simp only [List.not_mem_nil, and_false]
    | name n' =>
      have hne : d.stamp ≠ "" := hs _ List.mem_cons_self
      have hsome : d.started ≠ none := by
        intro hnone
        unfold Decoder.stamp at hne
        rw [hnone] at hne
        exact hne rfl
      have hrec := @ih { d with current := d.current.insert n' } (fun hnone => absurd hnone hsome)
        fun p hp => hs p (List.mem_cons_of_mem _ hp)
      refine ⟨hrec.1, fun t n => ?_⟩
      have hstamp : Decoder.stamp { d with current := d.current.insert n' } = d.stamp := rfl
      rw [List.foldl_cons, Decoder.line, hrec.2, hstamp, ownStamps, List.mem_cons]
      unfold Decoder.Holds
      rw [hstamp]
      dsimp only
      rw [List.mem_insert_iff, Prod.mk.injEq]
      constructor
      · rintro ((h | ⟨hst, rfl | hn⟩) | h)
        · exact .inl (.inl h)
        · exact .inr (.inl ⟨hst.symm, rfl⟩)
        · exact .inl (.inr ⟨hst, hn⟩)
        · exact .inr (.inr h)
      · rintro ((h | ⟨hst, hn⟩) | ⟨hst, rfl⟩ | h)
        · exact .inl (.inl h)
        · exact .inl (.inr ⟨hst, .inr hn⟩)
        · exact .inl (.inr ⟨hst.symm, .inl rfl⟩)
        · exact .inr h

/-- **Names are decoded with their own stamps exactly where every name has one.** -/
theorem decodes_iff : Decodes own text ↔ AllStamped text := by
  constructor
  · intro h p hp hnil
    obtain ⟨t, n⟩ := p
    obtain ⟨e, -, he, -⟩ := (h t n).mpr hp
    exact e.stamped (he.trans hnil)
  · intro h t n
    have hfold := @foldl_holds own {} ((splitlines text).map classify) (fun _ => rfl) h
    obtain ⟨hstarted, hcurrent⟩ := flush_tidy own _ hfold.1
    have hholds := (flush_holds own hfold.1).trans (hfold.2 t n)
    have hempty : ¬ Decoder.Holds {} t n := by
      rintro (⟨e, he, -⟩ | ⟨-, hn⟩)
      · exact absurd he List.not_mem_nil
      · exact absurd hn List.not_mem_nil
    rw [or_iff_right hempty] at hholds
    rw [stamped]
    refine Iff.trans ?_ hholds
    unfold Decoder.Holds
    rw [hcurrent]
    exact (or_iff_left fun h => absurd h.2 List.not_mem_nil).symm

end Decoding

/-! ## The latest stamps -/

section Latest

variable {own : Bool} {lines : List Line} {text : Text} {t n : String} {p : String × String}

theorem empty_le (s : String) : "" ≤ s :=
  not_lt.mp fun h => List.not_lt_nil _ (String.lt_iff_toList_lt.mp h)

/-- A name has the stamp the lines begin in, one of theirs, or none. -/
theorem stamp_of_mem (h : p ∈ ownStamps t lines) : p.1 = t ∨ p.1 ∈ stamps lines ∨ p.1 = "" := by
  induction lines generalizing t with
  | nil => exact absurd h List.not_mem_nil
  | cons line lines ih =>
    cases line with
    | blank =>
      rcases ih h with h | h | h
      · exact .inr (.inr h)
      · exact .inr (.inl h)
      · exact .inr (.inr h)
    | stamp s =>
      rcases ih h with h | h | h
      · exact .inr (.inl (h ▸ List.mem_cons_self))
      · exact .inr (.inl (List.mem_cons_of_mem _ h))
      · exact .inr (.inr h)
    | name n =>
      rcases List.mem_cons.mp h with rfl | h
      · exact .inl rfl
      · exact ih h

/-- Names that all have stamps have them in the order of the blocks. -/
theorem ownStamps_pairwise (horder : (stamps lines).Pairwise (· ≤ ·))
    (ht : ∀ s ∈ stamps lines, t ≤ s) (hall : ∀ p ∈ ownStamps t lines, p.1 ≠ "") :
    (ownStamps t lines).Pairwise fun p q => p.1 ≤ q.1 := by
  induction lines generalizing t with
  | nil => exact List.Pairwise.nil
  | cons line lines ih =>
    cases line with
    | blank => exact ih horder (fun s _ => empty_le s) hall
    | stamp s =>
      obtain ⟨hs, horder⟩ := List.pairwise_cons.mp horder
      exact ih horder hs hall
    | name n =>
      have htail := fun p hp => hall p (List.mem_cons_of_mem _ hp)
      refine List.pairwise_cons.mpr ⟨fun p hp => ?_, ih horder ht htail⟩
      rcases stamp_of_mem hp with h | h | h
      · exact h.ge
      · exact ht _ h
      · exact absurd h (htail p hp)

/-- No block that names a package is later than the last one that does. -/
theorem le_lastStamp (horder : InOrder text) (hall : AllStamped text) (h : (t, n) ∈ stamped text) :
    t ≤ lastStamp text n := by
  have hsorted := (ownStamps_pairwise horder (fun s _ => empty_le s) hall).filter fun p => p.2 = n
  have hmem : (t, n) ∈ (stamped text).filter fun p => p.2 = n :=
    List.mem_filter.mpr ⟨h, decide_eq_true rfl⟩
  rcases List.eq_nil_or_concat ((stamped text).filter fun p => p.2 = n) with hnil | ⟨l, b, hl⟩
  · rw [hnil] at hmem
    exact absurd hmem List.not_mem_nil
  · rw [List.concat_eq_append] at hl
    rw [lastStamp, hl, List.getLast?_concat]
    rw [hl] at hmem
    rcases List.mem_append.mp hmem with hmem | hmem
    · rw [← stamped, hl] at hsorted
      exact (List.pairwise_append.mp hsorted).2.2 _ hmem b (List.mem_singleton_self b)
    · rw [← List.mem_singleton.mp hmem]
      exact le_rfl

theorem lastStamp_mem (h : lastStamp text n ≠ "") : (lastStamp text n, n) ∈ stamped text := by
  unfold lastStamp at h ⊢
  cases hlast : ((stamped text).filter fun p => p.2 = n).getLast? with
  | none =>
    rw [hlast] at h
    exact absurd rfl h
  | some q =>
    obtain ⟨hmem, hn⟩ := List.mem_filter.mp (List.mem_of_getLast? hlast)
    rw [← of_decide_eq_true hn]
    exact hmem

/-- **In order and all stamped, the latest event of a name is the last block that names it.** -/
theorem lastSeen_parse (horder : InOrder text) (hall : AllStamped text) :
    (lastSeen (parseStampedEvents own text) n).getD "" = lastStamp text n := by
  have hdecodes := (@decodes_iff own text).mpr hall
  refine le_antisymm ?_ ?_
  · cases hseen : lastSeen (parseStampedEvents own text) n with
    | none => exact empty_le _
    | some t =>
      obtain ⟨e, he, hn, ht⟩ := lastSeen_mem hseen
      exact le_lastStamp horder hall ((hdecodes t n).mp ⟨e, he, ht, hn⟩)
  · by_cases hlast : lastStamp text n = ""
    · rw [hlast]
      exact empty_le _
    · obtain ⟨e, he, ht, hn⟩ := (hdecodes _ n).mpr (lastStamp_mem hlast)
      rw [← ht]
      exact le_lastSeen he hn

theorem mem_externalInstallTargets {own events : List Event} :
    n ∈ externalInstallTargets own events ↔
      (lastSeen own n).getD "" < (lastSeen events n).getD "" := by
  rw [externalInstallTargets, List.mem_dedup, List.mem_filter, decide_eq_true_iff]
  refine and_iff_right_of_imp fun hlt => ?_
  cases hseen : lastSeen events n with
  | none =>
    rw [hseen] at hlt
    exact absurd hlt (empty_le _).not_gt
  | some t =>
    obtain ⟨e, he, hn, -⟩ := lastSeen_mem hseen
    exact List.mem_flatMap.mpr ⟨e, he, hn⟩

end Latest

/-- A transaction, and a block that lost its stamp before another one. -/
def whole : Text := "2026-06-21T20:07:00Z\nmesa\n\n".toList
def torn : Text := "foo\n2026-01-01T00:00:00Z\nbar\n\n".toList

end Sysforge.Reconcile
