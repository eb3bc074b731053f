import Sysforge.Foundations.Dict
import Sysforge.Foundations.Regex

/-!
# The kconfig plan

The kconfig region of a kernel's `prepare()` is rendered once, from steps that fill slots. The
order of the slots is `slotOrder`; `install` drops the steps a PKGBUILD makes redundant, removes
the packager's own kconfig lines when a step owns the generation, and splices what is left in.
-/

namespace Sysforge.Kconfig

open Re Text

/-! ## Slots and steps -/

/-- The slots, in the order of `SLOT_ORDER`. -/
inductive Slot
  | baseSeed
  | fragmentMerge
  | generate
  | hotplugMerge
  | review
  | verify
  deriving DecidableEq

/-- `SLOT_ORDER`. -/
def slotOrder : List Slot := [.baseSeed, .fragmentMerge, .generate, .hotplugMerge, .review, .verify]

/-- The two splice points. -/
inductive Region
  | pre
  | post
  deriving DecidableEq

/-- `SLOT_REGION`. -/
def Slot.region : Slot → Region
  | .baseSeed | .fragmentMerge => .pre
  | .generate | .hotplugMerge | .review | .verify => .post

/-- The contribution of one slot. -/
structure Step where
  slot : Slot
  /-- Templates, with the tokens for indentation, make prefix and trailer. -/
  lines : List Text
  /-- A text that makes the step redundant where it is present. -/
  skipIfPresent : Option Text := none
  /-- The lines of an unattended run, which else drops a review. -/
  noninteractiveRewrite : Option (List Text) := none
  ownsGeneration : Bool := false

/-- The exceptions of a plan. -/
inductive Failure
  | valueError (message : String)
  | runtimeError (message : String)
  deriving DecidableEq

/-- The name of a slot. -/
def Slot.name : Slot → String
  | .baseSeed => "base_seed"
  | .fragmentMerge => "fragment_merge"
  | .generate => "generate"
  | .hotplugMerge => "hotplug_merge"
  | .review => "review"
  | .verify => "verify"

/-- The steps of a plan. -/
abbrev Plan := Dict Slot Step

/-- `KconfigPlan.contribute`. -/
def contribute (plan : Plan) (step : Step) : Except Failure Plan :=
  if (plan.get step.slot).isSome then
    .error (.valueError ("kconfig slot '" ++ step.slot.name ++ "' is already filled"))
  else .ok (plan.set step.slot step)

/-! ## The patterns

`alnum` says which characters beyond ASCII are letters or digits. -/

section Patterns

variable (alnum : Char → Bool)

/-- `(?:\s+\w+=\S*)*`. -/
def args : Re :=
  .star (.seq (plus space) (.seq (plus (.char (isWord alnum))) (.seq (lit1 '=') (.star nonSpace))))

/-- `(?:#.*)?`. -/
def comment : Re := opt (.seq (lit1 '#') (.star dot))

/-- The full-screen review targets, and the bare `config`. -/
def reviewTargets : List Text := ["nconfig", "menuconfig", "xconfig", "gconfig", "config"].map
  String.toList

/-- The targets that an unattended run replaces. -/
def interactiveTargets : List Text := "oldconfig".toList :: reviewTargets

/-- A pattern for a line that runs one of the targets. -/
def runsTarget (targets : List Text) : Re :=
  .seq .bol (.seq (.group 1 (.seq (.star space) (.seq (lit "make".toList) (.seq (args alnum)
    (plus space))))) (.seq (.group 2 (oneOf targets)) (.seq (.group 3 (.seq (.star space) comment))
    .eol)))

/-- `_INTERACTIVE_KCONFIG_RE`. -/
def interactiveRe : Re := runsTarget alnum interactiveTargets

/-- `_REVIEW_KCONFIG_RE`. -/
def reviewRe : Re := runsTarget alnum reviewTargets

/-- The targets of `_KCONFIG_SETUP_RE`. -/
def setupTargets : List Text :=
  ["olddefconfig", "oldconfig", "defconfig", "alldefconfig", "localmodconfig", "localyesconfig",
    "mod2yesconfig", "allmodconfig"].map String.toList

/-- `_KCONFIG_SETUP_RE`. -/
def setupRe : Re :=
  .seq .bol (.seq (.group 1 (.star blank)) (.seq (lit "make".toList) (.seq (args alnum)
    (.seq (plus space) (.seq (oneOf setupTargets) (.seq (.boundary (isWord alnum))
      (.seq (.star dot) .eol)))))))

/-- `_CONFIG_WRITE_RE`. -/
def configWriteRe : Re :=
  .seq .bol (.seq (.group 1 (.star blank)) (.seq (.alt
    (.seq (lit "cp".toList) (.seq (plus space) (.seq (plus nonSpace) (.seq (plus space)
      (lit ".config".toList)))))
    (.seq (lit "cat".toList) (.seq (.boundary (isWord alnum)) (.seq (.star dot) (.seq (lit1 '>')
      (.seq (.star space) (lit ".config".toList)))))))
    (.seq (.boundary (isWord alnum)) (.seq (.star dot) .eol))))

/-- `_ALL_KCONFIG_TARGETS`. -/
def allTargets : List Text :=
  ["config", "nconfig", "menuconfig", "xconfig", "gconfig", "oldconfig", "olddefconfig",
    "localmodconfig", "localyesconfig", "mod2yesconfig", "defconfig", "allmodconfig",
    "alldefconfig", "savedefconfig", "listnewconfig", "randconfig"].map String.toList

/-- `_ANY_KCONFIG_RE`. -/
def anyRe : Re :=
  .seq .bol (.seq (.group 1 (.star blank)) (.seq (.group 2 (.seq (lit "make".toList)
    (.seq (args alnum) (plus blank)))) (.seq (oneOf allTargets)
      (.seq (.group 3 (.seq (.star blank) comment)) .eol))))

end Patterns

/-! ## Rendering -/

/-- A placeholder: a name in braces. -/
def token (name : Text) : Text := '\x7b' :: (name ++ ['\x7d'])

/-- The token for the indentation. -/
def indentToken : Text := token ['i', 'n', 'd', 'e', 'n', 't']

/-- The token for the make prefix. -/
def makeToken : Text := token ['m', 'a', 'k', 'e']

/-- The token for the trailer. -/
def trailerToken : Text := token ['t', 'r', 'a', 'i', 'l', 'e', 'r']

/-- `_dedupe_trailer_token`: only the last line that carries the trailer keeps it. -/
def dedupeTrailer : List Text → List Text
  | [] => []
  | l :: ls =>
    (if contains trailerToken l && ls.any (contains trailerToken) then replace trailerToken [] l
      else l) :: dedupeTrailer ls

/-- A template with its indentation and make prefix. -/
def prepared (indent make line : Text) : Text :=
  replace makeToken make (replace indentToken indent line)

/-- `_render`. -/
def render (lines : List Text) (indent make trailer : Text) : Text :=
  joinLines (lines.map fun l => replace trailerToken trailer (prepared indent make l)) ++ ['\n']

/-! ## Installing -/

/-- `pkgbuild_applies_own_fragment`. -/
def appliesOwnFragment (text : Text) : Bool := contains "merge_config.sh".toList text

/-- The marker of a step is in the text already. -/
def Step.redundant (text : Text) (s : Step) : Bool :=
  s.skipIfPresent.any fun marker => marker ≠ [] && contains marker text

/-- The seed and merge steps, where the PKGBUILD merges a fragment itself. -/
def dropOwnFragment (text : Text) (steps : Plan) : Plan :=
  if appliesOwnFragment text then (steps.erase .baseSeed).erase .fragmentMerge else steps

/-- A review step of an unattended run. -/
def Step.unattended (s : Step) : Option Step :=
  s.noninteractiveRewrite.map fun lines =>
    { slot := .review, lines := lines, skipIfPresent := s.skipIfPresent,
      ownsGeneration := s.ownsGeneration }

/-- The review step of an unattended run, rewritten or dropped. -/
def rewriteReview (noninteractive : Bool) (steps : Plan) : Plan :=
  if noninteractive then
    match steps.get .review with
    | some review =>
      match review.unattended with
      | some s => steps.set .review s
      | none => steps.erase .review
    | none => steps
  else steps

/-- An injected review step, where the packager opens a menu already. -/
def dropSecondReview (alnum : Char → Bool) (text : Text) (steps : Plan) : Plan :=
  if (steps.get .review).any (fun s => !s.ownsGeneration) && (search (reviewRe alnum) text).isSome
  then steps.erase .review
  else steps

/-- The drop rules of `install`. -/
def dropRules (alnum : Char → Bool) (text : Text) (noninteractive : Bool) (steps : Plan) : Plan :=
  dropSecondReview alnum text (rewriteReview noninteractive
    ((dropOwnFragment text steps).filter fun _ s => !s.redundant text))

/-- One match of the removal pass, with the newline that ends its line. -/
def cut (m : Match) (text : Text) : Text :=
  if text[m.stop]? = some '\n' then text.take m.start ++ text.drop (m.stop + 1)
  else if 0 < m.start ∧ text[m.start - 1]? = some '\n' then
    text.take (m.start - 1) ++ text.drop m.stop
  else text.take m.start ++ text.drop m.stop

/-- The removal pass, last match first. -/
def removeMatches (ms : List Match) (text : Text) : Text :=
  ms.reverse.foldl (fun text m => cut m text) text

/-- The rewrite of a packager's interactive target. -/
def toOlddefconfig (text : Text) (m : Match) : Text :=
  m.group text 1 ++ "olddefconfig".toList ++ m.group text 3

/-- The start of the line after a position. -/
def nextLine (text : Text) (i : ℕ) : ℕ :=
  match find ['\n'] (text.drop i) with
  | some k => i + k + 1
  | none => text.length

/-- `_find_kconfig_anchor`. -/
def findKconfigAnchor (alnum : Char → Bool) (text : Text) : Option (ℕ × Text) :=
  ((search (setupRe alnum) text).or (search (configWriteRe alnum) text)).map fun m =>
    (nextLine text m.stop, m.group text 1)

/-- The start of the line a position is on. -/
def lineStart (text : Text) (i : ℕ) : ℕ :=
  i - ((text.take i).reverse.takeWhile (· ≠ '\n')).length

/-- `_post_anchor`. -/
def postAnchor (alnum : Char → Bool) (text : Text) (anchor : ℕ × Text) : ℕ × Text :=
  match (finditer (reviewRe alnum) text).getLast? with
  | some last =>
    let start := lineStart text last.start
    (start, (text.drop start).takeWhile fun c => c = ' ' || c = '\t')
  | none =>
    match (finditer (anyRe alnum) text).getLast? with
    | some last => (nextLine text last.stop, last.group text 1)
    | none => anchor

/-- `text[:i] + block + text[i:]`. -/
def insertAt (text : Text) (i : ℕ) (block : Text) : Text := text.take i ++ block ++ text.drop i

/-- The lines of the filled slots of a region. -/
def regionLines (steps : Plan) (r : Region) : List Text :=
  (slotOrder.filter fun s => s.region = r).flatMap fun s => ((steps.get s).map Step.lines).getD []

/-- What a region renders to, nothing when none of its slots is filled. -/
def regionText (steps : Plan) (r : Region) (lines : List Text) (indent make trailer : Text) : Text :=
  if steps.keys.any fun s => s.region = r then render lines indent make trailer else []

/-- Where the two regions go, and what their tokens stand for. -/
structure Anchors where
  preAt : ℕ
  postAt : ℕ
  indent : Text
  postIndent : Text
  make : Text
  trailer : Text

/-- The last pass of `install`: the region with the higher offset first. -/
def splice (steps : Plan) (text : Text) (a : Anchors) : Text :=
  let pre := regionText steps .pre (regionLines steps .pre) a.indent a.make a.trailer
  let post := regionText steps .post (dedupeTrailer (regionLines steps .post)) a.postIndent a.make
    a.trailer
  if a.postAt < a.preAt then insertAt (insertAt text a.preAt pre) a.postAt post
  else insertAt (insertAt text a.postAt post) a.preAt pre

/-- The rewrite pass of an unattended run. -/
def rewrite (alnum : Char → Bool) (noninteractive : Bool) (text : Text) : Text :=
  if noninteractive then sub (interactiveRe alnum) (toOlddefconfig text) text else text

/-- `KconfigPlan.install`, as a function of the text of the PKGBUILD at `path`. -/
def install (alnum : Char → Bool) (path : String) (plan : Plan) (noninteractive : Bool)
    (text : Text) : Except Failure Text :=
  let steps := dropRules alnum text noninteractive plan
  if steps.items = [] then .ok text
  else if steps.items.any fun s => s.2.ownsGeneration then
    match finditer (anyRe alnum) text with
    | [] => .error (.runtimeError ("kconfig plan: no kconfig make invocation found in " ++ path ++
        "; cannot anchor the configured target sequence"))
    | first :: rest =>
      .ok (splice steps (rewrite alnum noninteractive (removeMatches (first :: rest) text))
        { preAt := first.start, postAt := first.start, indent := first.group text 1,
          postIndent := first.group text 1, make := first.group text 2,
          trailer := first.group text 3 })
  else
    let text' := rewrite alnum noninteractive text
    match findKconfigAnchor alnum text' with
    | none => .ok text
    | some anchor =>
      let post := postAnchor alnum text' anchor
      .ok (splice steps text'
        { preAt := anchor.1, postAt := post.1, indent := anchor.2, postIndent := post.2,
          make := "make ".toList, trailer := [] })

end Sysforge.Kconfig
