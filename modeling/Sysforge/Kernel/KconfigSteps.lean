import Mathlib.Algebra.GroupWithZero.Nat
import Sysforge.Kernel.KconfigPlan

/-!
# The steps of a kconfig plan

The builders of the steps, with the lines they contribute. Every line is a template that starts
with the token for the indentation and has at most one make prefix and one trailer.
-/

namespace Sysforge.Kconfig

open Re Text

/-! ## The builders -/

/-- `HOTPLUG_FRAGMENT`. -/
def hotplugFragment : Text := "sysforge.hotplug.config".toList

/-- `DEFAULT_FRAGMENT`. -/
def defaultFragment : Text := "sysforge.config".toList

/-- A line behind the token for the indentation. -/
def indented (line : Text) : Text := indentToken ++ line

/-- `base_seed_step`. -/
def baseSeedStep : Step where
  slot := .baseSeed
  lines := [
    "# sysforge: seed the base config (when provided), then merge the fragment".toList,
    "if [ -f \"$startdir/sysforge.base.config\" ]; then".toList,
    "  cp \"$startdir/sysforge.base.config\" .config".toList,
    "  make olddefconfig".toList,
    "elif [ -f \"$startdir/sysforge.base.overlay.config\" ]; then".toList,
    "  ./scripts/kconfig/merge_config.sh -m .config ".toList ++
      "\"$startdir/sysforge.base.overlay.config\"".toList,
    "  make olddefconfig".toList,
    "fi".toList].map indented

/-- The lines that merge a fragment where its file exists. -/
def mergeLines (fragment : Text) : List Text :=
  ["if [ -f \"$startdir/".toList ++ fragment ++ "\" ]; then".toList,
    "  ./scripts/kconfig/merge_config.sh -m .config \"$startdir/".toList ++ fragment ++ ['"'],
    "  make olddefconfig".toList,
    "fi".toList]

/-- `fragment_merge_step`. -/
def fragmentMergeStep (fragment : Text) : Step where
  slot := .fragmentMerge
  lines := (mergeLines fragment).map indented
  skipIfPresent := some fragment

/-- `MINIMIZER_TARGETS`. -/
def minimizerTargets : List Text := ["localmodconfig", "localyesconfig"].map String.toList

/-- `_DEFAULT_ANSWERS`, after a target. -/
def defaultAnswers : Text := " < <(yes '')".toList

/-- The lines of one target. -/
def targetLines (target : Text) : List Text :=
  if target ∈ minimizerTargets then
    ["if [ -f \"$startdir/sysforge.lsmod\" ]; then".toList,
      "  LSMOD=\"$startdir/sysforge.lsmod\" ".toList ++ (makeToken ++ (target ++ defaultAnswers)),
      "else".toList,
      "  ".toList ++ (makeToken ++ (target ++ defaultAnswers)),
      "fi".toList].map indented
  else [indented (makeToken ++ target)]

/-- `lines[-1] += "{trailer}"`. -/
def withTrailer : List Text → List Text
  | [] => []
  | [l] => [l ++ trailerToken]
  | l :: ls => l :: withTrailer ls

/-- `generate_step`. -/
def generateStep (targets : List Text) : Step where
  slot := .generate
  lines := withTrailer (targets.flatMap targetLines)
  ownsGeneration := true

/-- `hotplug_merge_step`. -/
def hotplugMergeStep (fragment : Text) : Step where
  slot := .hotplugMerge
  lines := ("# sysforge: re-enable hotplug drivers as modules after minimization (F2)".toList ::
    mergeLines fragment).map indented
  skipIfPresent := some fragment

/-- `VERIFY_MARKER`. -/
def verifyMarker : Text := "_sf_kconfig_verify".toList

/-- The line that goes over the fragments. -/
def verifyLoop (fragments : List Text) : Text :=
  "  for _frag in ".toList ++
    unwords (fragments.map fun f => "\"$startdir/".toList ++ f ++ ['"']) ++ "; do".toList

/-- The lines that take a fragment line apart, and those that compare it with the result. -/
def verifyBody : List Text :=
  ["    [ -f \"$_frag\" ] || continue".toList,
    "    while IFS= read -r _line; do".toList,
    "      case $_line in".toList,
    "        CONFIG_*=*) _sym=$\x7b_line%%=*\x7d; _want=$\x7b_line#*=\x7d ;;".toList,
    "        '# CONFIG_'*' is not set')".toList ++
      " _sym=$\x7b_line#\\# \x7d; _sym=$\x7b_sym%% *\x7d; _want=n ;;".toList,
    "        *) continue ;;".toList,
    "      esac".toList,
    "      if _got=$(grep -m1 \"^$_sym=\" .config); then".toList,
    "        _got=$\x7b_got#*=\x7d".toList,
    "      else".toList,
    "        _got=n".toList,
    "      fi".toList,
    "      if [ \"$_want\" != \"$_got\" ]; then".toList,
    "        printf '%s\\n' \"==> sysforge: WARNING: requested".toList ++
      " $_sym=$_want is not in the final .config (resolved to $_got)\" >&2".toList,
    "      fi".toList,
    "    done < \"$_frag\"".toList,
    "  done".toList,
    "\x7d".toList,
    "_sf_kconfig_verify || true".toList]

/-- `verify_step`. -/
def verifyStep (fragments : List Text) : Step where
  slot := .verify
  lines := (("# sysforge: warn on requested kconfig symbols that did not".toList ++
      " survive the merge (F23)".toList) ::
    "_sf_kconfig_verify() \x7b".toList ::
    "  local _frag _line _sym _want _got".toList ::
    verifyLoop fragments :: verifyBody).map indented
  skipIfPresent := some verifyMarker

/-- `_pause_lines`. -/
def pauseLines (target : Text) : List Text :=
  ["if [ -t 0 ]; then".toList,
    "  read -rp 'sysforge: merged kernel .config assembled. Press ".toList ++
      ("Enter to review it in ".toList ++ target ++
        " (Ctrl-C aborts)… ' _sf_kconfig_ack || true".toList),
    "fi".toList].map indented

/-- `review_step`. -/
def reviewStep : Step where
  slot := .review
  lines := pauseLines "nconfig".toList ++
    [indented "make nconfig  # sysforge: interactive kconfig review".toList]

/-- `ui_target_step`. -/
def uiTargetStep (target : Text) : Step where
  slot := .review
  lines := pauseLines target ++ [indented (makeToken ++ (target ++ trailerToken))]
  noninteractiveRewrite := some [indented (makeToken ++ ("olddefconfig".toList ++ trailerToken))]
  ownsGeneration := true

/-- A file name or a target without a brace. -/
def Plain (s : Text) : Prop := '\x7b' ∉ s

/-- The steps the builders make. -/
inductive Built : Step → Prop
  | baseSeed : Built baseSeedStep
  | fragmentMerge {fragment : Text} (h : Plain fragment) : Built (fragmentMergeStep fragment)
  | generate {targets : List Text} (hne : targets ≠ []) (h : ∀ t ∈ targets, Plain t) :
      Built (generateStep targets)
  | hotplugMerge {fragment : Text} (h : Plain fragment) : Built (hotplugMergeStep fragment)
  | verify {fragments : List Text} (h : ∀ f ∈ fragments, Plain f) : Built (verifyStep fragments)
  | review : Built reviewStep
  | uiTarget {target : Text} (h : Plain target) : Built (uiTargetStep target)

/-! ## Templates -/

/-- A line of a step: it starts with the indentation, and has `makes` make prefixes and `trailers`
trailers. -/
inductive Template : Text → ℕ → ℕ → Prop
  | plain {a : Text} (hi : occurrences indentToken a = 0) (hm : occurrences makeToken a = 0)
      (ht : occurrences trailerToken a = 0) : Template (indentToken ++ a) 0 0
  | make {a b : Text} (ha : Plain a) (hb : Plain b) :
      Template (indentToken ++ (a ++ (makeToken ++ b))) 1 0
  | plainTrailer {a : Text} (ha : Plain a) : Template (indentToken ++ (a ++ trailerToken)) 0 1
  | makeTrailer {a b : Text} (ha : Plain a) (hb : Plain b) :
      Template (indentToken ++ (a ++ (makeToken ++ (b ++ trailerToken)))) 1 1

instance (s : Text) : Decidable (Plain s) := instDecidableNot

/-- A literal is plain when its characters are: the literal itself is dear to take apart. -/
theorem plain_lit {l : List Char} (h : Plain l) : Plain (String.ofList l).toList := by
  rw [String.toList_ofList]
  exact h

theorem Plain.append {a b : Text} (ha : Plain a) (hb : Plain b) : Plain (a ++ b) :=
  fun h => (List.mem_append.mp h).elim ha hb

variable {a b l indent make r name name' : Text} {c d : Char} {m n : ℕ}

theorem occurrences_plain (ha : Plain a) : occurrences (token name) a = 0 :=
  occurrences_of_notMem ha

theorem occurrences_plain_append (ha : Plain a) (b : Text) :
    occurrences (token name) (a ++ b) = occurrences (token name) b :=
  occurrences_append_of_notMem ha b

theorem occurrences_token_append (b : Text) :
    occurrences (token name) (token name ++ b) = 1 + occurrences (token name) b :=
  occurrences_append_self b

/-- Another token is passed over. -/
theorem occurrences_other (h : c ≠ d) (hn : Plain (d :: name')) (b : Text) :
    occurrences (token (c :: name)) (token (d :: name') ++ b) =
      occurrences (token (c :: name)) b := by
  have hp : (token (c :: name)).isPrefixOf (token (d :: name') ++ b) = false := by
    simp only [token, List.cons_append, List.isPrefixOf_cons_cons, beq_false_of_ne h,
      Bool.false_and, Bool.and_false]
  have hplain : Plain (d :: name' ++ ['\x7d']) := hn.append (by decide)
  have hcons : token (d :: name') ++ b = '\x7b' :: (d :: name' ++ ['\x7d'] ++ b) := rfl
  rw [hcons] at hp ⊢
  rw [occurrences_cons, hp, if_neg (by decide)]
  exact occurrences_append_of_notMem hplain b

theorem replace_plain_append (ha : Plain a) (b : Text) :
    replace (token name) r (a ++ b) = a ++ replace (token name) r b :=
  replace_append_of_notMem ha b

theorem replace_token_append (b : Text) :
    replace (token name) r (token name ++ b) = r ++ replace (token name) r b :=
  replace_append_self b

theorem template_indented (ha : Plain a) : Template (indented a) 0 0 :=
  .plain (occurrences_plain ha) (occurrences_plain ha) (occurrences_plain ha)

/-- The indentation and the make prefix as the pattern captures them. -/
structure Captured (indent make : Text) : Prop where
  indent : Plain indent
  make : ∃ mk c, make = mk ++ [c] ∧ c ∉ trailerToken

theorem Captured.occurrences_make (hc : Captured indent make) (b : Text) :
    occurrences trailerToken (make ++ b) =
      occurrences trailerToken make + occurrences trailerToken b := by
  obtain ⟨mk, c, rfl, hmem⟩ := hc.make
  have h := occurrences_append_cons hmem mk
  rw [List.append_assoc, List.singleton_append]
  have h₀ := h []
  have h₁ := h b
  rw [trailerToken, token]
  rw [h₀, h₁]
  rfl

theorem trailer_make (b : Text) :
    occurrences trailerToken (makeToken ++ b) = occurrences trailerToken b :=
  occurrences_other (by decide) (by decide) b

theorem indent_make (b : Text) :
    occurrences indentToken (makeToken ++ b) = occurrences indentToken b :=
  occurrences_other (by decide) (by decide) b

theorem indent_trailer : occurrences indentToken trailerToken = 0 := by
  have := @occurrences_other ['n', 'd', 'e', 'n', 't'] ['r', 'a', 'i', 'l', 'e', 'r'] 'i' 't'
    (by decide) (by decide) []
  rwa [List.append_nil] at this

theorem make_trailer : occurrences makeToken trailerToken = 0 := by
  have := @occurrences_other ['a', 'k', 'e'] ['r', 'a', 'i', 'l', 'e', 'r'] 'm' 't'
    (by decide) (by decide) []
  rwa [List.append_nil] at this

theorem trailer_trailer : occurrences trailerToken trailerToken = 1 := by
  have := @occurrences_token_append ['t', 'r', 'a', 'i', 'l', 'e', 'r'] []
  rwa [List.append_nil] at this

/-- What a template becomes before the trailer is put in. -/
theorem prepared_indentToken (hc : Plain indent) (ha : occurrences indentToken a = 0) :
    prepared indent make (indentToken ++ a) = indent ++ replace makeToken make a := by
  rw [prepared, indentToken, replace_token_append, makeToken, replace_plain_append hc]
  rw [indentToken] at ha
  rw [replace_of_occurrences_eq_zero ha]

/-- Each make prefix brings the trailers it contains, each trailer token one. -/
theorem Template.occurrences_prepared (h : Template l m n) (hc : Captured indent make) :
    occurrences trailerToken (prepared indent make l) =
      m * occurrences trailerToken make + n := by
  cases h with
  | plain hi hm ht =>
    rw [prepared_indentToken hc.indent hi, replace_of_occurrences_eq_zero hm, trailerToken,
      occurrences_plain_append hc.indent, ← trailerToken, ht, Nat.zero_mul]
  | @make a b ha hb =>
    have hi : occurrences indentToken (a ++ (makeToken ++ b)) = 0 := by
      rw [indentToken, occurrences_plain_append ha, ← indentToken, indent_make]
      exact occurrences_plain hb
    rw [prepared_indentToken hc.indent hi, makeToken, replace_plain_append ha,
      replace_token_append, replace_of_occurrences_eq_zero (occurrences_plain hb), trailerToken,
      occurrences_plain_append hc.indent, occurrences_plain_append ha, ← trailerToken,
      hc.occurrences_make, trailerToken, occurrences_plain hb, Nat.one_mul]
  | @plainTrailer a ha =>
    have hi : occurrences indentToken (a ++ trailerToken) = 0 := by
      rw [indentToken, occurrences_plain_append ha, ← indentToken, indent_trailer]
    have hm : occurrences makeToken (a ++ trailerToken) = 0 := by
      rw [makeToken, occurrences_plain_append ha, ← makeToken, make_trailer]
    rw [prepared_indentToken hc.indent hi, replace_of_occurrences_eq_zero hm]
    conv_lhs => rw [trailerToken]
    rw [occurrences_plain_append hc.indent, occurrences_plain_append ha, ← trailerToken,
      trailer_trailer, Nat.zero_mul]
  | @makeTrailer a b ha hb =>
    have hi : occurrences indentToken (a ++ (makeToken ++ (b ++ trailerToken))) = 0 := by
      rw [indentToken, occurrences_plain_append ha, ← indentToken, indent_make, indentToken,
        occurrences_plain_append hb, ← indentToken, indent_trailer]
    have hm : occurrences makeToken (b ++ trailerToken) = 0 := by
      rw [makeToken, occurrences_plain_append hb, ← makeToken, make_trailer]
    have hb' : occurrences trailerToken (b ++ trailerToken) = 1 := by
      conv_lhs => rw [trailerToken]
      rw [occurrences_plain_append hb, ← trailerToken, trailer_trailer]
    rw [prepared_indentToken hc.indent hi]
    rw [makeToken] at hm ⊢
    rw [replace_plain_append ha, replace_token_append, replace_of_occurrences_eq_zero hm]
    have hfront : occurrences trailerToken (indent ++ (a ++ (make ++ (b ++ trailerToken)))) =
        occurrences trailerToken (make ++ (b ++ trailerToken)) := by
      conv_lhs => rw [trailerToken]
      rw [occurrences_plain_append hc.indent, occurrences_plain_append ha, ← trailerToken]
    rw [hfront, hc.occurrences_make, hb', Nat.one_mul]

theorem trailer_indent (b : Text) :
    occurrences trailerToken (indentToken ++ b) = occurrences trailerToken b :=
  occurrences_other (by decide) (by decide) b

theorem Template.occurrences_trailer (h : Template l m n) : occurrences trailerToken l = n := by
  cases h with
  | plain hi hm ht => rw [trailer_indent, ht]
  | make ha hb =>
    rw [trailer_indent, trailerToken, occurrences_plain_append ha, ← trailerToken, trailer_make]
    exact occurrences_plain hb
  | plainTrailer ha =>
    rw [trailer_indent]
    conv_lhs => rw [trailerToken]
    rw [occurrences_plain_append ha, ← trailerToken, trailer_trailer]
  | makeTrailer ha hb =>
    rw [trailer_indent]
    conv_lhs => rw [trailerToken]
    rw [occurrences_plain_append ha, ← trailerToken, trailer_make]
    conv_lhs => rw [trailerToken]
    rw [occurrences_plain_append hb, ← trailerToken, trailer_trailer]

theorem Template.trailers_le (h : Template l m n) : n ≤ 1 := by
  cases h <;> omega

theorem Template.contains_iff (h : Template l m n) : contains trailerToken l = true ↔ n = 1 := by
  have := h.occurrences_trailer
  have hle := h.trailers_le
  rw [trailerToken, token, Text.contains_iff, ← token, ← trailerToken]
  omega

/-- A replaced pattern does not see another token. -/
theorem replace_other (h : c ≠ d) (hn : Plain (d :: name')) (b : Text) :
    replace (token (c :: name)) r (token (d :: name') ++ b) =
      token (d :: name') ++ replace (token (c :: name)) r b := by
  have hp : (token (c :: name)).isPrefixOf (token (d :: name') ++ b) = false := by
    simp only [token, List.cons_append, List.isPrefixOf_cons_cons, beq_false_of_ne h,
      Bool.false_and, Bool.and_false]
  have hplain : Plain (d :: name' ++ ['\x7d']) := hn.append (by decide)
  have hcons : ∀ b, token (d :: name') ++ b = '\x7b' :: (d :: name' ++ ['\x7d'] ++ b) :=
    fun _ => rfl
  rw [hcons] at hp ⊢
  rw [replace_cons, hp, if_neg (by decide), hcons]
  exact congrArg _ (replace_append_of_notMem hplain b)

/-- Without its trailer, a template is a template. -/
theorem Template.withoutTrailer (h : Template l m 1) : Template (replace trailerToken [] l) m 0 := by
  have hind : ∀ b, replace trailerToken [] (indentToken ++ b) =
      indentToken ++ replace trailerToken [] b := replace_other (by decide) (by decide)
  have hend : replace trailerToken [] trailerToken = [] := by
    have := @replace_token_append [] ['t', 'r', 'a', 'i', 'l', 'e', 'r'] []
    rw [List.append_nil] at this
    exact this
  cases h with
  | @plainTrailer a ha =>
    have hcut : replace trailerToken [] (a ++ trailerToken) = a := by
      rw [← List.append_nil a, List.append_assoc, List.nil_append]
      refine (replace_plain_append ha trailerToken).trans ?_
      exact congrArg (a ++ ·) hend
    rw [hind, hcut]
    exact template_indented ha
  | @makeTrailer a b ha hb =>
    have hcut : replace trailerToken [] (b ++ trailerToken) = b := by
      refine (replace_plain_append hb trailerToken).trans ?_
      rw [← trailerToken, hend, List.append_nil]
    have hmake : replace trailerToken [] (makeToken ++ (b ++ trailerToken)) = makeToken ++ b := by
      refine (replace_other (by decide) (by decide) (b ++ trailerToken)).trans ?_
      exact congrArg (makeToken ++ ·) hcut
    rw [hind]
    have : replace trailerToken [] (a ++ (makeToken ++ (b ++ trailerToken))) =
        a ++ (makeToken ++ b) := by
      refine (replace_plain_append ha _).trans ?_
      exact congrArg (a ++ ·) hmake
    rw [this]
    exact .make ha hb

/-- Lines of a step, with how many make prefixes and trailers they have together. -/
inductive Templates : List Text → ℕ → ℕ → Prop
  | nil : Templates [] 0 0
  | cons {l : Text} {ls : List Text} {m n m' n' : ℕ} (h : Template l m n)
      (hs : Templates ls m' n') : Templates (l :: ls) (m + m') (n + n')

variable {ls ls' : List Text} {m' n' : ℕ}

theorem Templates.append (h : Templates ls m n) (h' : Templates ls' m' n') :
    Templates (ls ++ ls') (m + m') (n + n') := by
  induction h with
  | nil =>
    rw [Nat.zero_add, Nat.zero_add]
    exact h'
  | cons hl _ ih =>
    rw [List.cons_append, Nat.add_assoc, Nat.add_assoc]
    exact .cons hl ih

theorem Templates.singleton (h : Template l m n) : Templates [l] m n := .cons h .nil

theorem templates_indented (h : ∀ a ∈ ls, Plain a) : Templates (ls.map indented) 0 0 := by
  induction ls with
  | nil => exact .nil
  | cons a ls ih =>
    exact .cons (template_indented (h a List.mem_cons_self))
      (ih fun a ha => h a (List.mem_cons_of_mem _ ha))

/-- How often the trailer is put into rendered lines. -/
def trailerCount (indent make : Text) (lines : List Text) : ℕ :=
  (lines.map fun l => occurrences trailerToken (prepared indent make l)).sum

theorem Templates.trailerCount_eq (h : Templates ls m n) (hc : Captured indent make) :
    trailerCount indent make ls = m * occurrences trailerToken make + n := by
  induction h with
  | nil => simp [trailerCount]
  | cons hl _ ih =>
    rw [trailerCount, List.map_cons, List.sum_cons, hl.occurrences_prepared hc]
    rw [trailerCount] at ih
    rw [ih, Nat.add_mul]
    omega

theorem Templates.any_contains_iff (h : Templates ls m n) :
    ls.any (contains trailerToken) = true ↔ 0 < n := by
  induction h with
  | nil => simp
  | @cons l ls m n m' n' hl _ ih =>
    have hle := hl.trailers_le
    rw [List.any_cons, Bool.or_eq_true, hl.contains_iff, ih]
    omega

/-- Only the last trailer is kept. -/
theorem Templates.dedupe (h : Templates ls m n) :
    Templates (dedupeTrailer ls) m (min n 1) := by
  induction h with
  | nil => exact .nil
  | @cons l ls m n m' n' hl hs ih =>
    have hle := hl.trailers_le
    rw [dedupeTrailer]
    by_cases hboth : n = 1 ∧ 0 < n'
    · obtain ⟨rfl, hn'⟩ := hboth
      rw [if_pos (by rw [hl.contains_iff.mpr rfl, hs.any_contains_iff.mpr hn']; rfl)]
      have := Templates.cons hl.withoutTrailer ih
      rwa [show 0 + min n' 1 = min (1 + n') 1 by omega] at this
    · rw [if_neg]
      · have := Templates.cons hl ih
        rwa [show n + min n' 1 = min (n + n') 1 by omega] at this
      · rw [Bool.and_eq_true, hl.contains_iff, hs.any_contains_iff]
        exact hboth

/-- Lines without a trailer, each of which can take one. -/
inductive Takers : List Text → ℕ → Prop
  | nil : Takers [] 0
  | cons {l : Text} {ls : List Text} {m m' : ℕ} (h : Template l m 0)
      (ht : Template (l ++ trailerToken) m 1) (hs : Takers ls m') : Takers (l :: ls) (m + m')

theorem Takers.append (h : Takers ls m) (h' : Takers ls' m') : Takers (ls ++ ls') (m + m') := by
  induction h with
  | nil => rwa [Nat.zero_add]
  | cons hl ht _ ih =>
    rw [List.cons_append, Nat.add_assoc]
    exact .cons hl ht ih

theorem Takers.withTrailer (h : Takers ls m) (hne : ls ≠ []) : Templates (withTrailer ls) m 1 := by
  induction h with
  | nil => exact absurd rfl hne
  | @cons l ls m m' hl ht hs ih =>
    cases ls with
    | nil =>
      cases hs
      exact .singleton ht
    | cons l' ls =>
      have := Templates.cons hl (ih (by simp))
      rwa [Nat.zero_add] at this

theorem taker_indented (ha : Plain a) :
    Template (indented a) 0 0 ∧ Template (indented a ++ trailerToken) 0 1 := by
  refine ⟨template_indented ha, ?_⟩
  rw [indented, List.append_assoc]
  exact .plainTrailer ha

theorem taker_make (ha : Plain a) (hb : Plain b) :
    Template (indented (a ++ (makeToken ++ b))) 1 0 ∧
      Template (indented (a ++ (makeToken ++ b)) ++ trailerToken) 1 1 := by
  refine ⟨.make ha hb, ?_⟩
  rw [indented, List.append_assoc, List.append_assoc, List.append_assoc]
  exact .makeTrailer ha hb

theorem takers_targetLines (h : Plain a) : ∃ m, 0 < m ∧ Takers (targetLines a) m ∧
    targetLines a ≠ [] := by
  rw [targetLines]
  split
  · have hanswers : Plain (a ++ defaultAnswers) := h.append (plain_lit (by decide))
    have h₁ := taker_indented (a := "if [ -f \"$startdir/sysforge.lsmod\" ]; then".toList)
      (plain_lit (by decide))
    have h₂ := taker_make (a := "  LSMOD=\"$startdir/sysforge.lsmod\" ".toList)
      (plain_lit (by decide)) hanswers
    have h₃ := taker_indented (a := "else".toList) (plain_lit (by decide))
    have h₄ := taker_make (a := "  ".toList) (plain_lit (by decide)) hanswers
    have h₅ := taker_indented (a := "fi".toList) (plain_lit (by decide))
    exact ⟨_, Nat.lt_of_sub_eq_succ rfl, .cons h₁.1 h₁.2 (.cons h₂.1 h₂.2 (.cons h₃.1 h₃.2
      (.cons h₄.1 h₄.2 (.cons h₅.1 h₅.2 .nil)))), by simp⟩
  · have h₁ := taker_make (a := []) (b := a) (by decide) h
    exact ⟨1 + 0, by omega, .cons h₁.1 h₁.2 .nil, by simp⟩

theorem takers_targets {targets : List Text} (hne : targets ≠ []) (h : ∀ t ∈ targets, Plain t) :
    ∃ m, 0 < m ∧ Takers (targets.flatMap targetLines) m ∧ targets.flatMap targetLines ≠ [] := by
  induction targets with
  | nil => exact absurd rfl hne
  | cons t targets ih =>
    obtain ⟨m, hm, ht, htne⟩ := takers_targetLines (h t List.mem_cons_self)
    rw [List.flatMap_cons]
    by_cases htargets : targets = []
    · subst htargets
      exact ⟨m, hm, by simpa using ht, by simpa using htne⟩
    · obtain ⟨m', hm', ht', -⟩ := ih htargets fun t ht => h t (List.mem_cons_of_mem _ ht)
      exact ⟨m + m', by omega, ht.append ht', List.append_ne_nil_of_left_ne_nil htne _⟩

/-! ## What the builders make -/

theorem plain_mergeLines {fragment : Text} (h : Plain fragment) :
    ∀ a ∈ mergeLines fragment, Plain a := by
  intro a ha
  simp only [mergeLines, List.mem_cons, List.not_mem_nil, or_false] at ha
  rcases ha with rfl | rfl | rfl | rfl
  · exact ((plain_lit (by decide)).append h).append (plain_lit (by decide))
  · exact ((plain_lit (by decide)).append h).append (by decide)
  · exact plain_lit (by decide)
  · exact plain_lit (by decide)

theorem templates_pauseLines {target : Text} (h : Plain target) :
    Templates (pauseLines target) 0 0 := by
  refine templates_indented fun a ha => ?_
  simp only [List.mem_cons, List.not_mem_nil, or_false] at ha
  rcases ha with rfl | rfl | rfl
  · exact plain_lit (by decide)
  · exact (plain_lit (by decide)).append
      (((plain_lit (by decide)).append h).append (plain_lit (by decide)))
  · exact plain_lit (by decide)

theorem plain_verifyLoop {fragments : List Text} (h : ∀ f ∈ fragments, Plain f) :
    Plain (verifyLoop fragments) := by
  refine ((plain_lit (by decide)).append fun hmem => ?_).append (plain_lit (by decide))
  rcases mem_of_mem_intercalate hmem with hmem | ⟨l, hl, hmem⟩
  · exact absurd hmem (by decide)
  · obtain ⟨f, hf, rfl⟩ := List.mem_map.mp hl
    exact ((plain_lit (by decide)).append (h f hf)).append (by decide) hmem

/-- A line without a token. -/
def TokenFree (a : Text) : Prop :=
  occurrences indentToken a = 0 ∧ occurrences makeToken a = 0 ∧ occurrences trailerToken a = 0

instance (a : Text) : Decidable (TokenFree a) := instDecidableAnd

theorem tokenFree_lit {l : List Char} (h : TokenFree l) : TokenFree (String.ofList l).toList := by
  rw [String.toList_ofList]
  exact h

theorem tokenFree_lits {l l' : List Char} (h : TokenFree (l ++ l')) :
    TokenFree ((String.ofList l).toList ++ (String.ofList l').toList) := by
  rw [String.toList_ofList, String.toList_ofList]
  exact h

theorem Templates.tokenFree (ha : TokenFree a) (h : Templates ls 0 0) :
    Templates (indented a :: ls) 0 0 :=
  .cons (.plain ha.1 ha.2.1 ha.2.2) h

theorem templates_verifyBody : Templates (verifyBody.map indented) 0 0 := by
  have h := fun {l : List Char} (h : TokenFree l) {ls : List Text} =>
    @Templates.tokenFree _ ls (tokenFree_lit h)
  have h' := fun {l l' : List Char} (h : TokenFree (l ++ l')) {ls : List Text} =>
    @Templates.tokenFree _ ls (tokenFree_lits h)
  refine h (by decide) (h (by decide) (h (by decide) (h (by decide) (h' (by decide) (h (by decide)
    (h (by decide) (h (by decide) (h (by decide) (h (by decide) (h (by decide) (h (by decide)
      (h (by decide) (h' (by decide) (h (by decide) (h (by decide) (h (by decide) (h (by decide)
        (h (by decide) .nil))))))))))))))))))

/-- The lines of a step: none of the others has a make prefix or a trailer, those of an owner have
a make prefix and one trailer. -/
structure Lines (s : Step) (ls : List Text) : Prop where
  ne_nil : ls ≠ []
  other : s.ownsGeneration = false → Templates ls 0 0
  owner : s.ownsGeneration = true → ∃ m, 0 < m ∧ Templates ls m 1

/-- What the builders promise of a step. -/
structure Sound (s : Step) : Prop where
  lines : Lines s s.lines
  rewrite : ∀ ls, s.noninteractiveRewrite = some ls → Lines s ls
  /-- An owner never drops itself where its marker is present. -/
  marker : s.ownsGeneration = true → s.skipIfPresent = none
  post : s.ownsGeneration = true → s.slot.region = .post
  /-- A configured review resolves the config of an unattended run. -/
  review : s.ownsGeneration = true → s.slot = .review → s.noninteractiveRewrite ≠ none

theorem sound_of_other {s : Step} (hne : s.lines ≠ []) (hl : Templates s.lines 0 0)
    (ho : s.ownsGeneration = false) (hr : s.noninteractiveRewrite = none) : Sound s where
  lines := ⟨hne, fun _ => hl, fun h => by rw [ho] at h; cases h⟩
  rewrite := fun ls h => by rw [hr] at h; cases h
  marker := fun h => by rw [ho] at h; cases h
  post := fun h => by rw [ho] at h; cases h
  review := fun h => by rw [ho] at h; cases h

theorem Built.sound {s : Step} (h : Built s) : Sound s := by
  cases h with
  | baseSeed =>
    refine sound_of_other (List.cons_ne_nil _ _) (templates_indented ?_) rfl rfl
    have h := fun {l : List Char} (h : Plain l) {ls : List Text} (hs : ∀ a ∈ ls, Plain a) =>
      List.forall_mem_cons.mpr ⟨plain_lit h, hs⟩
    refine h (by decide) (h (by decide) (h (by decide) (h (by decide) (h (by decide)
      (List.forall_mem_cons.mpr ⟨(plain_lit (by decide)).append (plain_lit (by decide)),
        h (by decide) (h (by decide) nofun)⟩)))))
  | fragmentMerge h =>
    exact sound_of_other (by simp [fragmentMergeStep, mergeLines])
      (templates_indented (plain_mergeLines h)) rfl rfl
  | @generate targets hne h =>
    obtain ⟨m, hm, ht, htne⟩ := takers_targets hne h
    have hlines := ht.withTrailer htne
    have hlne : withTrailer (targets.flatMap targetLines) ≠ [] := fun h => by
      rw [h] at hlines
      cases hlines
    exact
      { lines := ⟨hlne, nofun, fun _ => ⟨m, hm, hlines⟩⟩
        rewrite := nofun
        marker := fun _ => rfl
        post := fun _ => rfl
        review := nofun }
  | hotplugMerge h =>
    refine sound_of_other (by simp [hotplugMergeStep]) (templates_indented fun a ha => ?_) rfl rfl
    obtain rfl | ha := List.mem_cons.mp ha
    · exact plain_lit (by decide)
    · exact plain_mergeLines h a ha
  | verify h =>
    refine sound_of_other (by simp [verifyStep]) ?_ rfl rfl
    have hcomment : Plain ("# sysforge: warn on requested kconfig symbols that did not".toList ++
        " survive the merge (F23)".toList) := (plain_lit (by decide)).append (plain_lit (by decide))
    exact .cons (template_indented hcomment) (.tokenFree (tokenFree_lit (by decide))
      (.cons (template_indented (plain_lit (by decide)))
        (.cons (template_indented (plain_verifyLoop h)) templates_verifyBody)))
  | review =>
    refine sound_of_other (by simp [reviewStep]) ?_ rfl rfl
    exact (templates_pauseLines (plain_lit (by decide))).append
      (.singleton (template_indented (plain_lit (by decide))))
  | @uiTarget target h =>
    have hui := (taker_make (a := []) (b := target) (by decide) h).2
    have hold := (taker_make (a := []) (b := "olddefconfig".toList) (by decide)
      (plain_lit (by decide))).2
    simp only [indented, List.nil_append, List.append_assoc] at hui hold
    exact
      { lines := ⟨by simp [uiTargetStep], nofun, fun _ => ⟨0 + (1 + 0), by omega,
          (templates_pauseLines h).append (.singleton hui)⟩⟩
        rewrite := fun ls hls => by
          cases hls
          exact ⟨by simp, nofun, fun _ => ⟨1 + 0, by omega, .singleton hold⟩⟩
        marker := fun _ => rfl
        post := fun _ => rfl
        review := fun _ _ => nofun }

end Sysforge.Kconfig
