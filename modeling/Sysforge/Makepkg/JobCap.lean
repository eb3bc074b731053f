import Mathlib.Data.List.Chain
import Mathlib.Algebra.Order.Ring.Int
import Sysforge.Foundations.Dict
import Sysforge.Foundations.Numerals
import Sysforge.Makepkg.JobTokens

/-!
# The job cap

`[build] jobs` caps the jobs of a build: `_run_build` resolves it and `apply_jobs_to_makeflags`
writes it into `MAKEFLAGS`. `readFlags` is how `make` reads the words of that text; `rewriteFlags` is
what the replacement does to them. `jobCap_iff` says when the cap is what `make` reads last and no
other token is lost.
-/

namespace Sysforge.BuildThrottle

open Text

/-! ## The setting -/

/-- A value of a table of a configuration file. -/
inductive RawValue
  | int (n : ℤ)
  | bool (b : Bool)
  | str (s : Text)
  /-- A float, by the integer `int` makes of it; there is none for what is no number. -/
  | float (whole : Option ℤ)
  /-- A date, an array or a table, of which `int` makes nothing. -/
  | other
  deriving DecidableEq

/-- `int(s)` of a text: digits with single underscores between them, behind a sign. -/
def parseInt (s : Text) : Option ℤ :=
  let digits (ds : Text) : Option ℕ :=
    if (split '_' ds).all isDigits then some (natValue (ds.filter fun c => c ≠ '_')) else none
  match strip s with
  | '-' :: ds => (digits ds).map fun n => -(n : ℤ)
  | '+' :: ds => (digits ds).map fun n => (n : ℤ)
  | ds => (digits ds).map fun n => (n : ℤ)

/-- `int(raw)`. -/
def RawValue.toInt : RawValue → Option ℤ
  | .int n => some n
  | .bool b => some (if b then 1 else 0)
  | .str s => parseInt s
  | .float whole => whole
  | .other => none

/-- `_coerce_jobs`. -/
def coerceJobs (raw : Option RawValue) : Option ℤ :=
  (raw.bind RawValue.toInt).filter fun j => 1 ≤ j

/-- The override of one run. -/
inductive RunOverride
  | bypass
  | boost

/-- A table of settings. -/
abbrev Settings := Dict Text RawValue

/-- `pick`: the profile's value where it has the key, else that of the `[build]` table. -/
def pick (resolvedProfile buildCfg : Settings) (key : Text) : Option RawValue :=
  if key ∈ resolvedProfile.keys then resolvedProfile.get key else buildCfg.get key

/-- `"jobs"`. -/
def jobsKey : Text := ['j', 'o', 'b', 's']

/-- The `jobs` of `resolve_throttle`, for the `[build]` table of the configuration. -/
def resolveJobs (resolvedProfile : Settings) (build : Option Settings) :
    Option RunOverride → Option ℤ
  | some .bypass => none
  | some .boost => none
  | none => coerceJobs (pick resolvedProfile (build.getD .empty) jobsKey)

/-- The `jobs` that `_run_build` passes on. Its configuration is `profiles.toml`, of which this is
the `[build]` table. -/
def runBuildJobs (resolvedProfile : Settings) (profilesToml : Option Settings)
    (override : Option RunOverride) : Option ℤ :=
  resolveJobs resolvedProfile profilesToml override

/-! ## How `make` reads its flags -/

/-- The options of one letter that take no argument. -/
def isSwitch (c : Char) : Bool :=
  ['b', 'B', 'd', 'e', 'h', 'i', 'k', 'm', 'n', 'p', 'q', 'r', 'R', 's', 'S', 't', 'v', 'w'].contains c

/-- A word of digits. -/
def isNumber (s : Text) : Bool := !s.isEmpty && s.all Char.isDigit

/-- The number of jobs that an argument gives. -/
def count (arg : Text) : Option ℕ :=
  if isNumber arg then some (Nat.ofDigitChars 10 arg 0) else none

/-- One or two words of `MAKEFLAGS`. -/
inductive Flag
  /-- `-j` behind switches, with what is joined to it. -/
  | short (switches arg : Text)
  /-- `-j` behind switches, and a number. -/
  | shortApart (switches number : Text)
  /-- `--jobs` -/
  | long
  /-- `--jobs` and a number. -/
  | longApart (number : Text)
  /-- `--jobs=` with what is joined to it. -/
  | longJoined (arg : Text)
  /-- Any other word. -/
  | word (w : Text)
  deriving DecidableEq

/-- The switches before `j` and what follows it, in a word of short options. -/
def shortArg : Text → Option (Text × Text)
  | '-' :: w =>
    match w.dropWhile isSwitch with
    | 'j' :: arg => some (w.takeWhile isSwitch, arg)
    | _ => none
  | _ => none

/-- A word by itself. -/
def readFlag (w : Text) : Flag :=
  match shortArg w with
  | some (switches, arg) => .short switches arg
  | none =>
    if w = longJobs then .long
    else if (longJobs ++ ['=']).isPrefixOf w then .longJoined (w.drop 7)
    else .word w

/-- An option without its argument takes a number from the next word. -/
def Flag.withNumber (f : Flag) (d : Text) : Option Flag :=
  if isNumber d then
    match f with
    | .short switches [] => some (.shortApart switches d)
    | .long => some (.longApart d)
    | _ => none
  else none

/-- The flags of some words. -/
def readFlags : List Text → List Flag
  | [] => []
  | [w] => [readFlag w]
  | w :: d :: ws =>
    match (readFlag w).withNumber d with
    | some f => f :: readFlags ws
    | none => readFlag w :: readFlags (d :: ws)

namespace Flag

/-- The words of a flag. -/
def words : Flag → List Text
  | .short switches arg => ['-' :: (switches ++ 'j' :: arg)]
  | .shortApart switches number => ['-' :: (switches ++ ['j']), number]
  | .long => [longJobs]
  | .longApart number => [longJobs, number]
  | .longJoined arg => [longJobs ++ '=' :: arg]
  | .word w => [w]

/-- The number of jobs that a job setting gives, where it gives one. -/
def jobSetting : Flag → Option (Option ℕ)
  | .short _ arg | .shortApart _ arg | .longApart arg | .longJoined arg => some (count arg)
  | .long => some none
  | .word _ => none

/-- The words of a flag that is no job setting. -/
def plain : Flag → List Text
  | .word w => [w]
  | _ => []

/-- `--`, behind which `make` reads no options. -/
def stop : Flag := .word ['-', '-']

end Flag

/-- The last job setting that `make` reads. -/
def lastJobs (fs : List Flag) : Option ℕ :=
  ((fs.takeWhile fun f => f ≠ .stop).filterMap Flag.jobSetting).getLast?.join

/-- The tokens that are no job settings. -/
def otherTokens (fs : List Flag) : List Text :=
  (fs.takeWhile fun f => f ≠ .stop).flatMap Flag.plain ++
    (fs.dropWhile fun f => f ≠ .stop).flatMap Flag.words

/-- The last job setting of the second text is `n`, and it has the other tokens of the first. -/
def Capped (n : ℕ) (makeflags result : Text) : Prop :=
  lastJobs (readFlags (words result)) = some n ∧
    otherTokens (readFlags (words result)) = otherTokens (readFlags (words makeflags))

/-! ## When the cap is effective -/

namespace Flag

/-- The form is one that is replaced. -/
def replaced : Flag → Bool
  | .short [] arg => startsDecimal arg
  | .shortApart [] _ => true
  | .longJoined arg => startsDecimal arg
  | _ => false

/-- `-j` and a word that begins with a decimal, of which the replacement makes one word. -/
def joins : Flag → Flag → Bool
  | .short [] [], .word d => startsDecimal d
  | _, _ => false

/-- The flag sets `n` jobs, where it is replaced if it has a form that is. -/
def SetsTo (n : ℕ) : Flag → Prop
  | .short switches arg =>
    if switches = [] ∧ startsDecimal arg = true then arg.dropWhile isDecimal = []
    else count arg = some n
  | .shortApart switches number => switches = [] ∨ count number = some n
  | .long => False
  | .longApart number => count number = some n
  | .longJoined arg => startsDecimal arg = true ∧ arg.dropWhile isDecimal = []
  | .word _ => False

/-- The words of the flag are not changed. -/
def Keeps (n : ℕ) : Flag → Prop
  | .short switches arg =>
    switches = [] → startsDecimal arg = true → arg.takeWhile isDecimal = Nat.toDigits 10 n
  | .shortApart switches _ => switches ≠ []
  | .longJoined arg => startsDecimal arg = false
  | _ => True

end Flag

/-- The condition on the flags: `-j` stands before no word that begins with a decimal and is no
number. Where a form that is replaced occurs, the last job setting is one of these, or gives `n`
already, and nothing changes behind `--`. Where none occurs, there is no `--`. -/
structure Cappable (n : ℕ) (fs : List Flag) : Prop where
  apart : fs.IsChain fun f g => f.joins g = false
  last : (∃ f ∈ fs, f.replaced = true) →
    ∃ f ∈ ((fs.takeWhile fun f => f ≠ .stop).filter fun f => f.jobSetting.isSome).getLast?,
      f.SetsTo n
  rest : (∃ f ∈ fs, f.replaced = true) → ∀ f ∈ fs.dropWhile fun f => f ≠ .stop, f.Keeps n
  open' : (∀ f ∈ fs, f.replaced = false) → .stop ∉ fs

/-! ## Reading words -/

section Reading

variable {w d a x : Text} {ws : List Text} {n : ℕ}

theorem isDecimal_of_isDigit {c : Char} (h : c.isDigit = true) : isDecimal c = true := by
  rw [isDecimal, List.any_eq_true]
  refine ⟨0x30, List.mem_cons_self, ?_⟩
  obtain ⟨hl, hu⟩ := Char.isDigit_iff_toNat.mp h
  rw [Bool.and_eq_true, decide_eq_true_eq, decide_eq_true_eq]
  exact ⟨hl, hu⟩

theorem startsDecimal_of_isNumber (h : isNumber d = true) :
    startsDecimal d = true ∧ d.dropWhile isDecimal = [] := by
  rw [isNumber, Bool.and_eq_true] at h
  have hall : ∀ c ∈ d, isDecimal c = true := fun c hc =>
    isDecimal_of_isDigit (List.all_eq_true.mp h.2 c hc)
  refine ⟨?_, List.dropWhile_eq_nil_iff.mpr hall⟩
  cases d with
  | nil => cases h.1
  | cons c d => exact hall c List.mem_cons_self

/-- The number of jobs is written as it is read. -/
theorem count_toDigits (n : ℕ) : count (Nat.toDigits 10 n) = some n := by
  have hnum : isNumber (Nat.toDigits 10 n) = true := by
    rw [isNumber, Bool.and_eq_true]
    refine ⟨?_, List.all_eq_true.mpr fun c hc =>
      Nat.isDigit_of_mem_toDigits (by decide) (by decide) hc⟩
    rw [Bool.not_eq_true', List.isEmpty_eq_false_iff]
    exact Nat.toDigits_ne_nil
  rw [count, if_pos hnum, Nat.ofDigitChars_ten_toDigits]

/-- What is left of a word behind its decimals spoils the number. -/
theorem count_append_dropWhile :
    count (Nat.toDigits 10 n ++ a.dropWhile isDecimal) = some n ↔ a.dropWhile isDecimal = [] := by
  constructor
  · intro h
    rw [count] at h
    split_ifs at h with hnum
    rw [isNumber, Bool.and_eq_true] at hnum
    cases ha : a.dropWhile isDecimal with
    | nil => rfl
    | cons c x =>
      have hnot := List.head?_dropWhile_not isDecimal a
      rw [ha] at hnot
      rw [ha] at hnum
      have hc := List.all_eq_true.mp hnum.2 c (List.mem_append_right _ List.mem_cons_self)
      exact absurd (isDecimal_of_isDigit hc) (by simpa using hnot)
  · intro h
    rw [h, List.append_nil, count_toDigits]

theorem shortArg_eq_some {switches : Text} (h : shortArg w = some (switches, a)) :
    w = '-' :: (switches ++ 'j' :: a) := by
  unfold shortArg at h
  split at h
  · next v =>
    split at h
    · next arg harg =>
      obtain ⟨rfl, rfl⟩ := Prod.mk.inj (Option.some.inj h)
      rw [← harg, List.takeWhile_append_dropWhile]
    · cases h
  · cases h

/-- How a word reads, and what is joined to the option it begins with. -/
theorem readFlag_cases (w : Text) :
    (∃ a, w = shortJobs ++ a ∧ readFlag w = .short [] a ∧ optionArg w = some a) ∨
      (∃ a, w = longJobs ++ '=' :: a ∧ readFlag w = .longJoined a ∧ optionArg w = some a) ∨
      optionArg w = none ∧ (readFlag w = .long ∧ w = longJobs ∨ readFlag w = .word w ∨
        ∃ switches a, switches ≠ [] ∧ readFlag w = .short switches a ∧
          w = '-' :: (switches ++ 'j' :: a)) := by
  by_cases h₁ : shortJobs.isPrefixOf w = true
  · obtain ⟨a, rfl⟩ := List.isPrefixOf_iff_prefix.mp h₁
    refine .inl ⟨a, rfl, rfl, ?_⟩
    rw [optionArg, if_pos h₁]
    rfl
  · by_cases h₂ : (longJobs ++ ['=']).isPrefixOf w = true
    · obtain ⟨a, rfl⟩ := List.isPrefixOf_iff_prefix.mp h₂
      refine .inr (.inl ⟨a, List.append_assoc _ _ _, ?_, ?_⟩)
      · have hne : longJobs ++ ['='] ++ a ≠ longJobs := by
          intro h
          have hlen := congrArg List.length h
          rw [List.append_assoc, List.length_append, List.length_append, List.length_singleton] at hlen
          omega
        change (if longJobs ++ ['='] ++ a = longJobs then Flag.long else
          if (longJobs ++ ['=']).isPrefixOf (longJobs ++ ['='] ++ a) then .longJoined a
            else .word (longJobs ++ ['='] ++ a)) = _
        rw [if_neg hne, if_pos h₂]
      · rw [optionArg, if_neg h₁, if_pos h₂]
        rfl
    · refine .inr (.inr ⟨by rw [optionArg, if_neg h₁, if_neg h₂], ?_⟩)
      rw [readFlag]
      cases hs : shortArg w with
      | none =>
        dsimp only
        split_ifs with hl
        · exact .inl ⟨rfl, hl⟩
        · exact .inr (.inl rfl)
      | some p =>
        obtain ⟨switches, a⟩ := p
        have hw := shortArg_eq_some hs
        refine .inr (.inr ⟨switches, a, fun hnil => h₁ ?_, rfl, hw⟩)
        rw [hw, hnil]
        exact List.isPrefixOf_iff_prefix.mpr ⟨a, rfl⟩

/-- A word that begins with a decimal is no option. -/
theorem readFlag_decimal (h : startsDecimal d = true) : readFlag d = .word d ∧ d ≠ shortJobs := by
  have hdash : ∀ u : Text, d ≠ '-' :: u := by
    rintro u rfl
    have hdec : isDecimal '-' = false := by decide
    rw [startsDecimal, List.head?_cons, Option.any_some, hdec] at h
    cases h
  refine ⟨?_, hdash _⟩
  rcases readFlag_cases d with ⟨a, hd, -⟩ | ⟨a, hd, -⟩ | ⟨-, ⟨-, hd⟩ | hd | ⟨switches, a, -, -, hd⟩⟩
  · exact absurd hd (hdash _)
  · exact absurd hd (hdash _)
  · exact absurd hd (hdash _)
  · exact hd
  · exact absurd hd (hdash _)

theorem withNumber_of_not {f : Flag} (h : isNumber d = false) : f.withNumber d = none :=
  if_neg (ne_true_of_eq_false h)

theorem withNumber_short {switches : Text} (ha : a ≠ []) :
    (Flag.short switches a).withNumber d = none := by
  obtain ⟨c, a, rfl⟩ := List.exists_cons_of_ne_nil ha
  exact ite_self _

theorem isNumber_dash (u : Text) : isNumber ('-' :: u) = false := rfl

/-- Where the next word is no number, or the flag takes none, the two are read one by one. -/
theorem readFlags_cons (h : ∀ d ∈ ws.head?, (readFlag w).withNumber d = none) :
    readFlags (w :: ws) = readFlag w :: readFlags ws := by
  cases ws with
  | nil => rfl
  | cons d ws => rw [readFlags, h d rfl]

theorem readFlags_number {f : Flag} (h : (readFlag w).withNumber d = some f) :
    readFlags (w :: d :: ws) = f :: readFlags ws := by rw [readFlags, h]

/-- A word at the end that is no number is read by itself. -/
theorem readFlags_append_singleton (hx : isNumber x = false) :
    readFlags (ws ++ [x]) = readFlags ws ++ [readFlag x] := by
  fun_induction readFlags ws with
  | case1 => rfl
  | case2 w =>
    refine readFlags_cons fun d hd => ?_
    rw [← Option.some.inj hd]
    exact withNumber_of_not hx
  | case3 w d ws f hf ih => exact (readFlags_number hf).trans (congrArg _ ih)
  | case4 w d ws hf ih =>
    refine (readFlags_cons fun e he => ?_).trans (congrArg _ ih)
    rw [← Option.some.inj he]
    exact hf

end Reading

/-! ## Rewriting flags -/

section Rewriting

variable {w d a : Text} {ws : List Text} {n : ℕ} {f g : Flag} {fs : List Flag}

namespace Flag

/-- What the replacement does to a flag. -/
def rewrite (n : ℕ) : Flag → Flag
  | .short [] arg =>
    if startsDecimal arg then .short [] (Nat.toDigits 10 n ++ arg.dropWhile isDecimal)
    else .short [] arg
  | .shortApart [] _ => .short [] (Nat.toDigits 10 n)
  | .longJoined arg =>
    if startsDecimal arg then .short [] (Nat.toDigits 10 n ++ arg.dropWhile isDecimal)
    else .longJoined arg
  | f => f

/-- The word that the replacement makes of `-j` and a word behind it. -/
def join (n : ℕ) (f g : Flag) : Option Flag :=
  match f, g with
  | .short [] [], .word d =>
    if startsDecimal d then some (.short [] (Nat.toDigits 10 n ++ d.dropWhile isDecimal)) else none
  | _, _ => none

theorem join_eq_none : join n f g = none ↔ f.joins g = false := by
  unfold join joins
  split
  · next d => cases startsDecimal d <;> simp
  · simp

theorem rewrite_of_not (h : f.replaced = false) : f.rewrite n = f := by
  unfold replaced at h
  unfold rewrite
  split at h
  · rw [if_neg (ne_true_of_eq_false h)]
  · cases h
  · rw [if_neg (ne_true_of_eq_false h)]
  · rfl

end Flag

/-- What the replacement does to flags. -/
def rewriteFlags (n : ℕ) : List Flag → List Flag
  | [] => []
  | [f] => [f.rewrite n]
  | f :: g :: fs =>
    match f.join n g with
    | some h => h :: rewriteFlags n fs
    | none => f.rewrite n :: rewriteFlags n (g :: fs)

theorem rewriteFlags_cons (h : ∀ g ∈ fs.head?, f.joins g = false) :
    rewriteFlags n (f :: fs) = f.rewrite n :: rewriteFlags n fs := by
  cases fs with
  | nil => rfl
  | cons g fs => rw [rewriteFlags, Flag.join_eq_none.mpr (h g rfl)]

/-- The replacement for `n` jobs. -/
def jobsWord (n : ℕ) : Text := shortJobs ++ Nat.toDigits 10 n

theorem readFlag_jobsWord (x : Text) :
    readFlag (jobsWord n ++ x) = .short [] (Nat.toDigits 10 n ++ x) := rfl

/-- The replaced word takes no number. -/
theorem readFlags_jobsWord (x : Text) : readFlags ((jobsWord n ++ x) :: ws) =
    .short [] (Nat.toDigits 10 n ++ x) :: readFlags ws := by
  refine readFlags_cons fun d _ => ?_
  exact withNumber_short (List.append_ne_nil_of_left_ne_nil Nat.toDigits_ne_nil x)

/-- No match is in the flags. -/
def NoMatch (fs : List Flag) : Prop :=
  (∀ f ∈ fs, f.replaced = false) ∧ fs.IsChain fun f g => f.joins g = false

/-- The first flag of some words is read from their first. -/
theorem head?_readFlags (h : (readFlags (d :: ws)).head? = some g) :
    g = readFlag d ∨ ∃ e, (readFlag d).withNumber e = some g := by
  cases ws with
  | nil => exact .inl (Option.some.inj h).symm
  | cons e ws =>
    rw [readFlags] at h
    split at h
    · next f hf => exact .inr ⟨e, Option.some.inj h ▸ hf⟩
    · exact .inl (Option.some.inj h).symm

theorem word_of_withNumber {e : Text} (h : f.withNumber e = some (.word d)) : False := by
  unfold Flag.withNumber at h
  split_ifs at h
  split at h
  · cases h
  · cases h
  · cases h

theorem eq_of_readFlag {e : Text} (h : readFlag d = .word e) : e = d := by
  rcases readFlag_cases d with ⟨a, -, hd, -⟩ | ⟨a, -, hd, -⟩ | ⟨-, ⟨hd, -⟩ | hd | ⟨_, _, -, hd, -⟩⟩ <;>
    rw [h] at hd
  · cases hd
  · cases hd
  · cases hd
  · exact Flag.word.inj hd
  · cases hd

/-- A word that is kept is no match by itself. -/
theorem replaced_readFlag (h : (optionArg w).any startsDecimal = false) :
    (readFlag w).replaced = false := by
  rcases readFlag_cases w with ⟨a, -, hw, ha⟩ | ⟨a, -, hw, ha⟩ | ⟨-, ⟨hw, -⟩ | hw | ⟨p, a, hp, hw, -⟩⟩
  · rw [ha] at h
    rw [hw]
    exact h
  · rw [ha] at h
    rw [hw]
    exact h
  · rw [hw]
    rfl
  · rw [hw]
    rfl
  · obtain ⟨c, p, rfl⟩ := List.exists_cons_of_ne_nil hp
    rw [hw]
    rfl

theorem optionArg_decimal (h : startsDecimal d = true) :
    (optionArg d).any startsDecimal = false := by
  rcases readFlag_cases d with ⟨a, -, hd, -⟩ | ⟨a, -, hd, -⟩ | ⟨hd, -⟩
  · rw [(readFlag_decimal h).1] at hd
    cases hd
  · rw [(readFlag_decimal h).1] at hd
    cases hd
  · rw [hd]
    rfl

/-- A word that reads as `-j` is that word. -/
theorem eq_shortJobs (h : readFlag w = .short [] []) : w = shortJobs := by
  rcases readFlag_cases w with ⟨a, hwa, hr, -⟩ | ⟨a, -, hr, -⟩ |
    ⟨-, ⟨hr, -⟩ | hr | ⟨p, a, hp, hr, -⟩⟩ <;> rw [h] at hr
  · obtain ⟨-, rfl⟩ := Flag.short.inj hr
    rw [hwa, List.append_nil]
  · cases hr
  · cases hr
  · cases hr
  · exact absurd (Flag.short.inj hr).1.symm hp

/-- An option other than `-j` by itself keeps the number behind it. -/
theorem quiet_of_withNumber (h : (readFlag w).withNumber d = some f) (hw : w ≠ shortJobs) :
    f.replaced = false ∧ ∀ g, f.joins g = false := by
  unfold Flag.withNumber at h
  split_ifs at h
  split at h
  · next p hp =>
    obtain rfl := Option.some.inj h
    cases p with
    | nil => exact absurd (eq_shortJobs hp) hw
    | cons c p => exact ⟨rfl, fun g => rfl⟩
  · obtain rfl := Option.some.inj h
    exact ⟨rfl, fun g => rfl⟩
  · cases h

/-- What joins a word is `-j` by itself. -/
theorem eq_shortJobs_of_joins (h : (readFlag w).joins g = true) :
    w = shortJobs ∧ ∃ d, g = .word d ∧ startsDecimal d = true := by
  unfold Flag.joins at h
  split at h
  · next d hw => exact ⟨eq_shortJobs hw, d, rfl, h⟩
  · cases h

/-- The first word stays or becomes no number. -/
theorem head?_rewriteWords {e : Text} (h : (rewriteWords (jobsWord n) ws).1.head? = some e) :
    ws.head? = some e ∨ isNumber e = false := by
  cases ws with
  | nil =>
    rw [rewriteWords] at h
    cases h
  | cons w ws =>
    rw [rewriteWords.eq_def] at h
    dsimp only at h
    split_ifs at h with hany
    · exact .inr (Option.some.inj h ▸ rfl)
    · cases ws with
      | nil => exact .inl h
      | cons d ws =>
        dsimp only at h
        split_ifs at h
        · exact .inr (Option.some.inj h ▸ rfl)
        · exact .inl h

theorem noMatch_cons (hf : f.replaced = false) (h : ∀ g ∈ fs.head?, f.joins g = false) :
    NoMatch (f :: fs) ↔ NoMatch fs := by
  rw [NoMatch, NoMatch, List.forall_mem_cons, List.isChain_cons]
  exact ⟨fun hc => ⟨hc.1.2, hc.2.2⟩, fun hc => ⟨⟨hf, hc.1⟩, h, hc.2⟩⟩

/-- **The replacement on words is the replacement on flags**, and it finds nothing where the flags
have no match. -/
theorem readFlags_rewriteWords (n : ℕ) (ws : List Text) :
    readFlags (rewriteWords (jobsWord n) ws).1 = rewriteFlags n (readFlags ws) ∧
      ((rewriteWords (jobsWord n) ws).2 = 0 ↔ NoMatch (readFlags ws)) := by
  induction hn : ws.length using Nat.strongRecOn generalizing ws with
  | ind k ih =>
    cases ws with
    | nil =>
      rw [rewriteWords]
      exact ⟨rfl, fun _ => ⟨fun f hf => absurd hf List.not_mem_nil, .nil⟩, fun _ => rfl⟩
    | cons w ws =>
      rw [List.length_cons] at hn
      obtain ⟨hrec, hcount⟩ := ih ws.length (by omega) ws rfl
      by_cases hany : (optionArg w).any startsDecimal = true
      · -- digits joined to the option
        obtain ⟨a, ha, hd⟩ : ∃ a, optionArg w = some a ∧ startsDecimal a = true := by
          cases h : optionArg w with
          | none =>
            rw [h] at hany
            cases hany
          | some a => exact ⟨a, rfl, by rwa [h] at hany⟩
        have hne : a ≠ [] := by
          rintro rfl
          cases hd
        obtain ⟨hnum, hjoin, hrewrite, hrep⟩ : (∀ d, (readFlag w).withNumber d = none) ∧
            (∀ g, (readFlag w).joins g = false) ∧
            (readFlag w).rewrite n = .short [] (Nat.toDigits 10 n ++ a.dropWhile isDecimal) ∧
            (readFlag w).replaced = true := by
          obtain ⟨c, u, rfl⟩ := List.exists_cons_of_ne_nil hne
          rcases readFlag_cases w with ⟨a', -, hw, ha'⟩ | ⟨a', -, hw, ha'⟩ | ⟨ha', -⟩ <;>
            rw [ha] at ha'
          · obtain rfl := Option.some.inj ha'
            rw [hw]
            exact ⟨fun d => withNumber_short (List.cons_ne_nil c u), fun g => rfl, if_pos hd, hd⟩
          · obtain rfl := Option.some.inj ha'
            rw [hw]
            exact ⟨fun d => ite_self _, fun g => rfl, if_pos hd, hd⟩
          · cases ha'
        rw [rewriteWords_joined ha hd, readFlags_jobsWord, readFlags_cons fun d _ => hnum d,
          rewriteFlags_cons fun g _ => hjoin g, hrewrite, hrec]
        refine ⟨rfl, fun h => absurd h (Nat.succ_ne_zero _), fun h => ?_⟩
        rw [h.1 _ List.mem_cons_self] at hrep
        cases hrep
      · rw [Bool.not_eq_true] at hany
        by_cases hnext : w = shortJobs ∧ ∃ d ∈ ws.head?, startsDecimal d = true
        · -- digits behind `-j`
          obtain ⟨rfl, d, hhead, hd⟩ := hnext
          obtain ⟨ws, rfl⟩ : ∃ ws', ws = d :: ws' := ⟨ws.tail, (List.cons_head?_tail hhead).symm⟩
          rw [List.length_cons] at hn
          obtain ⟨hrec', -⟩ := ih ws.length (by omega) ws rfl
          rw [rewriteWords_apart hd, readFlags_jobsWord, hrec']
          have hshort : readFlag shortJobs = .short [] [] := rfl
          by_cases hnum : isNumber d = true
          · have hflag : (readFlag shortJobs).withNumber d = some (.shortApart [] d) := if_pos hnum
            rw [readFlags_number hflag, rewriteFlags_cons fun g _ => rfl,
              (startsDecimal_of_isNumber hnum).2, List.append_nil]
            refine ⟨rfl, fun h => absurd h (Nat.succ_ne_zero _), fun h => ?_⟩
            exact Bool.noConfusion (h.1 _ List.mem_cons_self)
          · rw [Bool.not_eq_true] at hnum
            have hword := (readFlag_decimal hd).1
            have hflags : readFlags (shortJobs :: d :: ws) =
                .short [] [] :: .word d :: readFlags ws := by
              have hfirst : ∀ e ∈ (d :: ws).head?, (readFlag shortJobs).withNumber e = none := by
                intro e he
                rw [← Option.some.inj he]
                exact withNumber_of_not hnum
              have hsecond : ∀ e ∈ ws.head?, (readFlag d).withNumber e = none := by
                intro e _
                rw [hword]
                exact ite_self _
              rw [readFlags_cons hfirst, hshort, readFlags_cons hsecond, hword]
            rw [hflags, rewriteFlags]
            have hjoin : Flag.join n (.short [] []) (.word d) =
                some (.short [] (Nat.toDigits 10 n ++ d.dropWhile isDecimal)) := if_pos hd
            rw [hjoin]
            refine ⟨rfl, fun h => absurd h (Nat.succ_ne_zero _), fun h => ?_⟩
            have hchain := (List.isChain_cons_cons.mp h.2).1
            exact absurd hd (ne_true_of_eq_false hchain)
        · have hws : w = shortJobs → ∀ d ∈ ws.head?, startsDecimal d = false := fun hw d hd =>
            Bool.eq_false_iff.mpr fun hs => hnext ⟨hw, d, hd, hs⟩
          rw [rewriteWords_kept hany hws]
          by_cases hnone : ∀ d ∈ ws.head?, (readFlag w).withNumber d = none
          · -- the word is read by itself, before and after
            have hnone' : ∀ d ∈ (rewriteWords (jobsWord n) ws).1.head?,
                (readFlag w).withNumber d = none := fun d hd =>
              (head?_rewriteWords hd).elim (hnone d) withNumber_of_not
            have hjoin : ∀ g ∈ (readFlags ws).head?, (readFlag w).joins g = false := by
              intro g hg
              refine Bool.eq_false_iff.mpr fun hj => ?_
              obtain ⟨hw, e, rfl, he⟩ := eq_shortJobs_of_joins hj
              cases ws with
              | nil => cases hg
              | cons d ws =>
                rcases head?_readFlags hg with hread | ⟨e', hread⟩
                · rw [eq_of_readFlag hread.symm, hws hw d rfl] at he
                  cases he
                · exact word_of_withNumber hread
            have hrep := replaced_readFlag hany
            dsimp only
            rw [readFlags_cons hnone', readFlags_cons hnone, rewriteFlags_cons hjoin,
              Flag.rewrite_of_not hrep, hrec, noMatch_cons hrep hjoin]
            exact ⟨rfl, hcount⟩
          · -- the option takes the number behind it
            obtain ⟨d, ws, rfl, f, hf⟩ : ∃ d ws', ws = d :: ws' ∧
                ∃ f, (readFlag w).withNumber d = some f := by
              cases ws with
              | nil => exact absurd (fun d hd => absurd hd (Option.not_mem_none d)) hnone
              | cons d ws =>
                refine ⟨d, ws, rfl, Option.ne_none_iff_exists'.mp fun h => hnone fun e he => ?_⟩
                rw [← Option.some.inj he]
                exact h
            rw [List.length_cons] at hn
            obtain ⟨hrec', hcount'⟩ := ih ws.length (by omega) ws rfl
            have hnum : isNumber d = true := by
              by_contra hnot
              rw [withNumber_of_not (Bool.eq_false_iff.mpr hnot)] at hf
              cases hf
            have hd := (startsDecimal_of_isNumber hnum).1
            have hf' : f.replaced = false ∧ ∀ g, f.joins g = false :=
              quiet_of_withNumber hf fun hw => by
                rw [hws hw d rfl] at hd
                cases hd
            rw [rewriteWords_kept (optionArg_decimal hd) fun h => absurd h (readFlag_decimal hd).2]
            dsimp only
            rw [readFlags_number hf, readFlags_number hf, rewriteFlags_cons fun g _ => hf'.2 g,
              Flag.rewrite_of_not hf'.1, hrec', noMatch_cons hf'.1 fun g _ => hf'.2 g]
            exact ⟨rfl, hcount'⟩

end Rewriting

/-! ## The flags of the result -/

section Result

variable {n : ℕ} {s : Text} {f : Flag} {fs : List Flag}

theorem noSpace_jobsWord (n : ℕ) : NoSpace (jobsWord n) := by
  intro c hc
  rcases List.mem_append.mp hc with hc | hc
  · have hshort : NoSpace shortJobs := by decide
    exact hshort c hc
  · have hdigit := Nat.isDigit_of_mem_toDigits (by decide) (by decide) hc
    exact isSpace_of_isDecimal (isDecimal_of_isDigit hdigit)

/-- The flags of the result: those of the text with `-jn` behind them where nothing matches, and
else the rewritten ones. -/
theorem readFlags_apply (n : ℕ) (s : Text) :
    (NoMatch (readFlags (words s)) → readFlags (words (applyJobsToMakeflags s (some n))) =
        readFlags (words s) ++ [.short [] (Nat.toDigits 10 n)]) ∧
      (¬NoMatch (readFlags (words s)) → readFlags (words (applyJobsToMakeflags s (some n))) =
        rewriteFlags n (readFlags (words s))) := by
  have hne : jobsWord n ≠ [] := List.cons_ne_nil _ _
  obtain ⟨hwords, hcount⟩ := words_subJobs hne (noSpace_jobsWord n) s
  obtain ⟨hflags, hmatch⟩ := readFlags_rewriteWords n (words s)
  have happly : applyJobsToMakeflags s (some n) =
      if (subJobs (jobsWord n) true 0 s).2 ≠ 0 then (subJobs (jobsWord n) true 0 s).1
      else if strip s ≠ [] then strip (s ++ ' ' :: jobsWord n) else jobsWord n := rfl
  rw [← hmatch, ← hcount, happly]
  refine ⟨fun h => ?_, fun h => ?_⟩
  · have hlast : words (if strip s ≠ [] then strip (s ++ ' ' :: jobsWord n) else jobsWord n) =
        words s ++ [jobsWord n] := by
      split_ifs with hs
      · rw [words_strip, words_append_cons (by decide), words_of_forall hne (noSpace_jobsWord n)]
      · rw [← words_strip s, not_not.mp hs, words_of_forall hne (noSpace_jobsWord n)]
        rfl
    rw [if_neg (not_not.mpr h), hlast, readFlags_append_singleton rfl]
    rfl
  · rw [if_pos h, hwords, hflags]

/-- Where no two flags become one, every flag is rewritten by itself. -/
theorem rewriteFlags_eq_map (h : fs.IsChain fun f g => f.joins g = false) :
    rewriteFlags n fs = fs.map (Flag.rewrite n) := by
  induction fs with
  | nil => rfl
  | cons f fs ih =>
    rw [List.isChain_cons] at h
    rw [rewriteFlags_cons h.1, ih h.2, List.map_cons]

namespace Flag

theorem rewrite_eq_stop : f.rewrite n = stop ↔ f = stop := by
  unfold rewrite
  split
  · split_ifs <;> exact iff_of_false (fun h => by cases h) fun h => by cases h
  · exact iff_of_false (fun h => by cases h) fun h => by cases h
  · split_ifs <;> exact iff_of_false (fun h => by cases h) fun h => by cases h
  · exact Iff.rfl

theorem plain_rewrite : (f.rewrite n).plain = f.plain := by
  unfold rewrite
  split
  · split_ifs <;> rfl
  · rfl
  · split_ifs <;> rfl
  · rfl

theorem length_words_rewrite : (f.rewrite n).words.length ≤ f.words.length := by
  unfold rewrite
  split
  · split_ifs <;> exact le_rfl
  · exact Nat.le_succ 1
  · split_ifs <;> exact le_rfl
  · exact le_rfl

theorem isSome_jobSetting_rewrite : (f.rewrite n).jobSetting.isSome = f.jobSetting.isSome := by
  unfold rewrite
  split
  · split_ifs <;> rfl
  · rfl
  · split_ifs <;> rfl
  · rfl

/-- The words of a flag stay where its digits are those of the number. -/
theorem words_rewrite : (f.rewrite n).words = f.words ↔ f.Keeps n := by
  unfold rewrite
  split
  · next arg =>
    split_ifs with h
    · have hsplit := List.takeWhile_append_dropWhile (p := isDecimal) (l := arg)
      have hwords : (short [] (Nat.toDigits 10 n ++ arg.dropWhile isDecimal)).words =
          (short [] arg).words ↔ Nat.toDigits 10 n ++ arg.dropWhile isDecimal = arg := by
        simp [words]
      rw [hwords]
      constructor
      · intro heq _ _
        exact (List.append_cancel_right (heq.trans hsplit.symm)).symm
      · intro hk
        rw [← hk rfl h, hsplit]
    · exact ⟨fun _ _ hd => absurd hd h, fun _ => rfl⟩
  · refine ⟨fun h => ?_, fun h => absurd rfl h⟩
    have hlen : 1 = 2 := congrArg List.length h
    cases hlen
  · next arg =>
    split_ifs with h
    · refine ⟨fun hw => ?_, fun hk => ?_⟩
      · exact absurd (List.cons.inj (List.cons.inj (List.cons.inj hw).1).2).1 (by decide)
      · rw [Keeps, h] at hk
        cases hk
    · exact ⟨fun _ => Bool.eq_false_iff.mpr h, fun _ => rfl⟩
  · next h₁ h₂ h₃ =>
    refine ⟨fun _ => ?_, fun _ => rfl⟩
    cases f with
    | short p a => exact fun hp => absurd (congrArg (short · a) hp) (h₁ a)
    | shortApart p d => exact fun hp => absurd (congrArg (shortApart · d) hp) (h₂ d)
    | longJoined a => exact absurd rfl (h₃ a)
    | long => trivial
    | longApart d => trivial
    | word w => trivial

/-- The number of jobs that a flag sets after it is rewritten. -/
theorem jobSetting_rewrite : (f.rewrite n).jobSetting = some (some n) ↔ f.SetsTo n := by
  have hstarts : ∀ {arg : Text}, startsDecimal arg ≠ true → count arg ≠ some n := by
    intro arg h hc
    rw [count] at hc
    split_ifs at hc with hnum
    exact h (startsDecimal_of_isNumber hnum).1
  unfold rewrite
  split
  · next arg =>
    have hsets : (short [] arg).SetsTo n ↔
        if startsDecimal arg = true then arg.dropWhile isDecimal = [] else count arg = some n := by
      simp only [SetsTo, true_and]
    rw [hsets]
    split_ifs with h
    · exact Option.some_inj.trans count_append_dropWhile
    · exact Option.some_inj
  · exact iff_of_true (congrArg some (count_toDigits n)) (.inl rfl)
  · next arg =>
    split_ifs with h
    · exact (Option.some_inj.trans count_append_dropWhile).trans ⟨fun hd => ⟨h, hd⟩, And.right⟩
    · exact iff_of_false (fun hc => hstarts h (Option.some.inj hc)) fun hs => h hs.1
  · next h₁ h₂ h₃ =>
    cases f with
    | short p a =>
      have hp : ¬(p = [] ∧ startsDecimal a = true) := fun hp => h₁ a (congrArg (short · a) hp.1)
      rw [SetsTo, if_neg hp]
      exact Option.some_inj
    | shortApart p d =>
      have hp : p ≠ [] := fun hp => h₂ d (congrArg (shortApart · d) hp)
      exact Option.some_inj.trans (or_iff_right hp).symm
    | longJoined a => exact absurd rfl (h₃ a)
    | long => exact iff_of_false (fun h => by cases h) id
    | longApart d => exact Option.some_inj
    | word w => exact iff_of_false (fun h => by cases h) id

end Flag

/-- The last job setting of rewritten flags. -/
theorem getLast?_jobSetting (n : ℕ) (fs : List Flag) :
    (((fs.map (Flag.rewrite n)).filterMap Flag.jobSetting).getLast?).join = some n ↔
      ∃ f ∈ (fs.filter fun f => f.jobSetting.isSome).getLast?, f.SetsTo n := by
  induction fs using List.reverseRecOn with
  | nil => exact iff_of_false (fun h => by cases h) fun ⟨f, hf, _⟩ => by cases hf
  | append_singleton fs f ih =>
    rw [List.map_append, List.filterMap_append, List.filter_append]
    have hsome := @Flag.isSome_jobSetting_rewrite n f
    cases hset : (f.rewrite n).jobSetting with
    | none =>
      rw [hset] at hsome
      have h₁ : ([f].map (Flag.rewrite n)).filterMap Flag.jobSetting = [] := by
        rw [List.map_singleton, List.filterMap_cons, hset]
        rfl
      have h₂ : [f].filter (fun f => f.jobSetting.isSome) = [] :=
        List.filter_cons_of_neg (by rw [← hsome]; exact Bool.false_ne_true)
      rw [h₁, h₂, List.append_nil, List.append_nil]
      exact ih
    | some c =>
      rw [hset] at hsome
      have h₁ : ([f].map (Flag.rewrite n)).filterMap Flag.jobSetting = [c] := by
        rw [List.map_singleton, List.filterMap_cons, hset]
        rfl
      have h₂ : [f].filter (fun f => f.jobSetting.isSome) = [f] :=
        List.filter_cons_of_pos hsome.symm
      rw [h₁, h₂, List.getLast?_concat, List.getLast?_concat]
      have hsets := @Flag.jobSetting_rewrite n f
      rw [hset, Option.some_inj] at hsets
      exact hsets.trans ⟨fun h => ⟨f, rfl, h⟩, fun ⟨g, hg, h⟩ => Option.some.inj hg ▸ h⟩

/-! ## The other tokens -/

/-- The tokens that are no job settings, before `--` or behind it. -/
def tokensFrom (behind : Bool) : List Flag → List Text
  | [] => []
  | f :: fs => (if behind then f.words else f.plain) ++ tokensFrom (behind || f = .stop) fs

theorem tokensFrom_behind (fs : List Flag) : tokensFrom true fs = fs.flatMap Flag.words := by
  induction fs with
  | nil => rfl
  | cons f fs ih => rw [tokensFrom, Bool.true_or, ih, if_pos rfl, List.flatMap_cons]

theorem otherTokens_eq (fs : List Flag) : otherTokens fs = tokensFrom false fs := by
  induction fs with
  | nil => rfl
  | cons f fs ih =>
    rw [tokensFrom, Bool.false_or, otherTokens]
    by_cases hf : f = .stop
    · rw [hf, List.takeWhile_cons_of_neg (by decide), List.dropWhile_cons_of_neg (by decide),
        decide_eq_true rfl, tokensFrom_behind]
      rfl
    · have hp : (fun f : Flag => decide (f ≠ .stop)) f = true := decide_eq_true hf
      rw [@List.takeWhile_cons_of_pos _ (fun f : Flag => decide (f ≠ .stop)) _ _ hp,
        @List.dropWhile_cons_of_pos _ (fun f : Flag => decide (f ≠ .stop)) _ _ hp,
        decide_eq_false hf, ← ih,
        List.flatMap_cons, List.append_assoc]
      rfl

/-- **No token comes from the replacement**, and one is lost where two flags become one. -/
theorem length_tokensFrom (n : ℕ) (behind : Bool) (fs : List Flag) :
    (tokensFrom behind (rewriteFlags n fs)).length ≤ (tokensFrom behind fs).length ∧
      ((tokensFrom behind (rewriteFlags n fs)).length = (tokensFrom behind fs).length →
        fs.IsChain fun f g => f.joins g = false) := by
  have hone : ∀ (behind : Bool) (f : Flag),
      (if behind then (f.rewrite n).words else (f.rewrite n).plain).length ≤
        (if behind then f.words else f.plain).length := by
    intro behind f
    cases behind with
    | true => exact Flag.length_words_rewrite
    | false => exact (congrArg List.length Flag.plain_rewrite).le
  fun_induction rewriteFlags n fs generalizing behind with
  | case1 => exact ⟨le_rfl, fun _ => .nil⟩
  | case2 f =>
    have hsingle : ∀ f : Flag, tokensFrom behind [f] = if behind then f.words else f.plain :=
      fun f => List.append_nil _
    refine ⟨?_, fun _ => .singleton f⟩
    rw [hsingle, hsingle]
    exact hone behind f
  | case3 f g fs h hjoin ih =>
    obtain ⟨d, w, rfl, rfl, rfl, hd⟩ : ∃ d w, f = .short [] [] ∧ g = .word d ∧ h = .short [] w ∧
        startsDecimal d = true := by
      unfold Flag.join at hjoin
      split at hjoin
      · next d =>
        split_ifs at hjoin with hd
        exact ⟨d, _, rfl, rfl, (Option.some.inj hjoin).symm, hd⟩
      · cases hjoin
    have hstop : Flag.word d ≠ .stop := by
      intro h
      rw [Flag.word.inj h] at hd
      exact absurd hd (by decide)
    have hlt : (tokensFrom behind (.short [] w :: rewriteFlags n fs)).length <
        (tokensFrom behind (.short [] [] :: .word d :: fs)).length := by
      rw [tokensFrom, tokensFrom, tokensFrom, decide_eq_false hstop, Bool.or_false]
      have hrec := (ih behind).1
      cases behind with
      | true => exact Nat.succ_lt_succ (Nat.lt_succ_of_le hrec)
      | false => exact Nat.lt_succ_of_le hrec
    exact ⟨hlt.le, fun h => absurd h hlt.ne⟩
  | case4 f g fs hjoin ih =>
    have hb : (decide (f.rewrite n = .stop)) = decide (f = .stop) := by
      rw [decide_eq_decide]
      exact Flag.rewrite_eq_stop
    obtain ⟨hle, hchain⟩ := ih (behind || f = .stop)
    rw [tokensFrom, hb, @tokensFrom.eq_2 behind f, List.length_append, List.length_append]
    have hf := hone behind f
    refine ⟨Nat.add_le_add hf hle, fun h => List.isChain_cons_cons.mpr ⟨?_, hchain ?_⟩⟩
    · exact Flag.join_eq_none.mp hjoin
    · omega

theorem rewrite_ne_stop (n : ℕ) : ((fun f : Flag => decide (f ≠ .stop)) ∘ Flag.rewrite n) =
    fun f => decide (f ≠ .stop) := by
  funext f
  rw [Function.comp_apply, decide_eq_decide, not_iff_not]
  exact Flag.rewrite_eq_stop

/-- The tokens are the same where the flags behind `--` keep their words. -/
theorem tokensFrom_map (n : ℕ) (fs : List Flag) :
    otherTokens (fs.map (Flag.rewrite n)) = otherTokens fs ↔
      ∀ f ∈ fs.dropWhile fun f => f ≠ .stop, f.Keeps n := by
  have hplain : ∀ fs : List Flag, (fs.map (Flag.rewrite n)).flatMap Flag.plain =
      fs.flatMap Flag.plain := by
    intro fs
    rw [List.flatMap_map]
    exact List.flatMap_congr fun f _ => Flag.plain_rewrite
  have hwords : ∀ fs : List Flag, (fs.map (Flag.rewrite n)).flatMap Flag.words =
      fs.flatMap Flag.words ↔ ∀ f ∈ fs, f.Keeps n := by
    intro fs
    induction fs with
    | nil => exact iff_of_true rfl fun f hf => absurd hf List.not_mem_nil
    | cons f fs ih =>
      rw [List.map_cons, List.flatMap_cons, List.flatMap_cons, List.forall_mem_cons, ← ih,
        ← Flag.words_rewrite]
      refine ⟨fun h => ?_, fun h => by rw [h.1, h.2]⟩
      -- no flag gets more words, so that each has as many as before
      have hle : ((fs.map (Flag.rewrite n)).flatMap Flag.words).length ≤
          (fs.flatMap Flag.words).length := by
        rw [List.flatMap_map]
        clear ih h
        induction fs with
        | nil => exact le_rfl
        | cons g fs ih' =>
          rw [List.flatMap_cons, List.flatMap_cons, List.length_append, List.length_append]
          exact Nat.add_le_add Flag.length_words_rewrite ih'
      have hlen := congrArg List.length h
      rw [List.length_append, List.length_append] at hlen
      have hf := @Flag.length_words_rewrite n f
      exact List.append_inj h (by omega)
  rw [otherTokens, otherTokens, List.takeWhile_map, List.dropWhile_map, rewrite_ne_stop, hplain,
    List.append_right_inj]
  exact hwords _

end Result

/-! ## The cap -/

section Cap

variable {n : ℕ} {makeflags : Text} {resolvedProfile : Settings}
  {sysforgeToml profilesToml : Option Settings}

/-- **The rewritten text is capped** where the flags of the text meet the condition, and nowhere
else. -/
theorem capped_iff (n : ℕ) (makeflags : Text) :
    Capped n makeflags (applyJobsToMakeflags makeflags (some n)) ↔
      Cappable n (readFlags (words makeflags)) := by
  obtain ⟨hadded, hrewritten⟩ := readFlags_apply n makeflags
  rw [Capped]
  generalize readFlags (words makeflags) = fs at hadded hrewritten
  by_cases hmatch : NoMatch fs
  · rw [hadded hmatch]
    have hcond : Cappable n fs ↔ .stop ∉ fs := by
      refine ⟨fun h => h.open' hmatch.1, fun h => ⟨hmatch.2, ?_, ?_, fun _ => h⟩⟩
      all_goals
        rintro ⟨f, hf, hrep⟩
        rw [hmatch.1 f hf] at hrep
        cases hrep
    rw [hcond]
    by_cases hstop : .stop ∈ fs
    · -- behind `--` the setting is another token
      refine iff_of_false (fun h => ?_) (not_not.mpr hstop)
      obtain ⟨f, hf, hp⟩ : ∃ f ∈ fs, ¬decide (f ≠ .stop) = true := ⟨.stop, hstop, by simp⟩
      have hlen := congrArg List.length h.2
      rw [otherTokens, otherTokens, List.takeWhile_append, List.dropWhile_append, if_neg, if_neg,
        List.flatMap_append, List.length_append, List.length_append, List.length_append] at hlen
      · have hone : ([.short [] (Nat.toDigits 10 n)] : List Flag).flatMap Flag.words ≠ [] :=
          List.cons_ne_nil _ _
        have hpos := List.length_pos_iff.mpr hone
        omega
      · rw [List.isEmpty_iff, List.dropWhile_eq_nil_iff]
        exact fun hall => hp (hall f hf)
      · intro heq
        have hall := List.takeWhile_eq_self_iff.mp ((List.takeWhile_prefix _).eq_of_length heq)
        exact hp (hall f hf)
    · refine iff_of_true ?_ hstop
      have hall : ∀ f ∈ fs ++ [.short [] (Nat.toDigits 10 n)],
          decide (f ≠ .stop) = true := by
        intro f hf
        refine decide_eq_true fun h => ?_
        rw [h] at hf
        rcases List.mem_append.mp hf with hf | hf
        · exact hstop hf
        · cases List.mem_singleton.mp hf
      have hall' := fun f hf => hall f (List.mem_append_left _ hf)
      constructor
      · rw [lastJobs, List.takeWhile_eq_self_iff.mpr hall, List.filterMap_append]
        change ((fs.filterMap Flag.jobSetting ++
          [count (Nat.toDigits 10 n)]).getLast?).join = some n
        rw [List.getLast?_concat, count_toDigits]
        rfl
      · rw [otherTokens, otherTokens, List.takeWhile_eq_self_iff.mpr hall,
          List.takeWhile_eq_self_iff.mpr hall', List.dropWhile_eq_nil_iff.mpr hall,
          List.dropWhile_eq_nil_iff.mpr hall', List.flatMap_append]
        exact congrArg (· ++ []) (List.append_nil _)
  · rw [hrewritten hmatch]
    by_cases hchain : fs.IsChain fun f g => f.joins g = false
    · have hrep : ∃ f ∈ fs, f.replaced = true := by
        by_contra hnot
        refine hmatch ⟨fun f hf => Bool.eq_false_iff.mpr fun hr => hnot ⟨f, hf, hr⟩, hchain⟩
      have hlast : lastJobs (fs.map (Flag.rewrite n)) = some n ↔
          ∃ f ∈ ((fs.takeWhile fun f => f ≠ .stop).filter fun f => f.jobSetting.isSome).getLast?,
            f.SetsTo n := by
        rw [lastJobs, List.takeWhile_map, rewrite_ne_stop, getLast?_jobSetting]
      rw [rewriteFlags_eq_map hchain, tokensFrom_map, hlast]
      constructor
      · rintro ⟨hl, hk⟩
        refine ⟨hchain, fun _ => hl, fun _ => hk, fun h => ?_⟩
        obtain ⟨f, hf, hr⟩ := hrep
        rw [h f hf] at hr
        cases hr
      · exact fun h => ⟨h.last hrep, h.rest hrep⟩
    · refine iff_of_false (fun h => hchain ?_) fun h => hchain h.apart
      have hlen := congrArg List.length h.2
      rw [otherTokens_eq, otherTokens_eq] at hlen
      exact (length_tokensFrom n false fs).2 hlen

/-- The jobs that `_run_build` passes on: the profile's, and else those of `profiles.toml`. -/
theorem runBuildJobs_iff (hn : 1 ≤ n)
    (hpick : pick resolvedProfile (sysforgeToml.getD .empty) jobsKey = some (.int n)) :
    runBuildJobs resolvedProfile profilesToml none = some (n : ℤ) ↔
      jobsKey ∈ resolvedProfile.keys ∨
        coerceJobs ((profilesToml.getD .empty).get jobsKey) = some (n : ℤ) := by
  have hraw : coerceJobs (some (.int n)) = some (n : ℤ) := by
    have hle : (1 : ℤ) ≤ n := Int.ofNat_le.mpr hn
    exact Option.filter_some_pos (decide_eq_true hle)
  rw [runBuildJobs, resolveJobs, pick]
  by_cases hkey : jobsKey ∈ resolvedProfile.keys
  · rw [pick, if_pos hkey] at hpick
    rw [if_pos hkey, hpick]
    exact iff_of_true hraw (.inl hkey)
  · rw [if_neg hkey]
    exact (or_iff_right hkey).symm

/-- **The job cap is effective** where the setting comes from the profile, or is also in
`profiles.toml`, and the flags of `MAKEFLAGS` meet the condition. -/
theorem jobCap_iff (hn : 1 ≤ n)
    (hpick : pick resolvedProfile (sysforgeToml.getD .empty) jobsKey = some (.int n)) :
    (runBuildJobs resolvedProfile profilesToml none = some (n : ℤ) ∧
        Capped n makeflags (applyJobsToMakeflags makeflags (some n))) ↔
      (jobsKey ∈ resolvedProfile.keys ∨
          coerceJobs ((profilesToml.getD .empty).get jobsKey) = some (n : ℤ)) ∧
        Cappable n (readFlags (words makeflags)) := by
  rw [runBuildJobs_iff hn hpick, capped_iff]

/-- `{"jobs": 4}` -/
def fourJobs : Settings := .ofItems [(jobsKey, .int 4)]

/-- `"-j8 V=1"` -/
def eightFlags : Text := ['-', 'j', '8', ' ', 'V', '=', '1']

/-- `"-j8 -j"` -/
def openFlags : Text := ['-', 'j', '8', ' ', '-', 'j']

theorem jobCap_eight : runBuildJobs fourJobs none none = some 4 ∧
    Capped 4 eightFlags (applyJobsToMakeflags eightFlags (some 4)) := by
  refine (@jobCap_iff 4 eightFlags fourJobs none none (by decide) rfl).mpr
    ⟨.inl List.mem_cons_self, ?_⟩
  have hflags : readFlags (words eightFlags) = [.short [] ['8'], .word ['V', '=', '1']] := by decide
  rw [hflags]
  refine ⟨.cons_cons rfl (.singleton _), fun _ => ⟨.short [] ['8'], by decide, rfl⟩, ?_, ?_⟩
  · intro _ f hf
    have hnil : ([.short [] ['8'], .word ['V', '=', '1']] : List Flag).dropWhile
        (fun f => decide (f ≠ .stop)) = [] := by decide
    rw [hnil] at hf
    cases hf
  · intro _
    decide

/-- The jobs that only `sysforge.toml` sets are not passed on, and `-j` behind a number stays the
last setting. -/
theorem not_jobCap : pick .empty fourJobs jobsKey = some (.int 4) ∧
    runBuildJobs .empty none none = none ∧
    applyJobsToMakeflags openFlags (some 4) = ['-', 'j', '4', ' ', '-', 'j'] ∧
    ¬Capped 4 openFlags (applyJobsToMakeflags openFlags (some 4)) := by
  refine ⟨by decide, by decide, by decide, ?_⟩
  rintro ⟨h, -⟩
  exact absurd h (by decide)

end Cap

end Sysforge.BuildThrottle
