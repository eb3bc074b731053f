import Sysforge.Foundations.Dict
import Sysforge.Foundations.RegexScan

/-!
# Variables in the globals of a PKGBUILD

`_apply_var_expansion` puts the values of scalar globals in the place of references to them, in
passes over all values until nothing changes or eight rounds of eight passes are over. A text is
read as `Token`s, and a pass over a text whose tokens are `Apart` replaces each by itself
(`Scans.tokens_ref`, `Scans.tokens_xform`).
-/

namespace Sysforge.Pkgbuild

open Text Re

/-! ## The code -/

/-- A global: a text or the items of an array. -/
inductive Global
  | scalar (v : Text)
  | array (items : List Text)
  deriving DecidableEq

abbrev Globals := Dict Text Global

/-- The texts of the scalars by their names. -/
abbrev Scalars := Dict Text Text

/-- `[A-Za-z_]`. -/
def isNameStart (c : Char) : Bool := c.isAlpha || c = '_'

/-- `[A-Za-z0-9_]`. -/
def isNameChar (c : Char) : Bool := c.isAlphanum || c = '_'

/-- The name of a variable. -/
def nameRe : Re := word isNameStart isNameChar

/-- `_VAR_REF`. -/
def varRef : Re :=
  .alt (.seq (lit1 '$') (.seq (lit1 '\x7b') (.seq (.group 1 nameRe) (lit1 '\x7d'))))
    (.seq (lit1 '$') (.group 2 nameRe))

/-- A slash and what follows up to a closing brace. -/
def transformRe : Re := word (fun c => c = '/') fun c => c ≠ '\x7d'

/-- `_VAR_XFORM_REF`. -/
def varXformRef : Re :=
  .seq (lit1 '$') (.seq (lit1 '\x7b')
    (.seq (.group 1 nameRe) (.seq (.group 2 transformRe) (lit1 '\x7d'))))

/-- `_has_glob_meta`. -/
def hasGlobMeta (s : Text) : Bool := s.any fun c => ['*', '?', '['].contains c

/-- `s.replace(pat, repl, 1)`. -/
def replaceFirst (pat repl : Text) : Text → Text
  | [] => []
  | c :: s =>
    if pat.isPrefixOf (c :: s) then repl ++ (c :: s).drop pat.length
    else c :: replaceFirst pat repl s

/-- The pattern and the replacement of a transform, unless the pattern is anchored, empty or
holds what a shell pattern would read. -/
def patternOf (rest : Text) : Option (Text × Text) :=
  if '/' ∈ rest && !(rest.head?.any fun c => ['#', '%'].contains c) then
    let pat := rest.takeWhile fun c => c ≠ '/'
    if pat ≠ [] && !hasGlobMeta pat then some (pat, rest.drop (pat.length + 1)) else none
  else none

/-- What a supported transform does to an element. -/
def elementTransform (transform : Text) : Option (Text → Text) :=
  if transform = [] then some id
  else if ['/', '#', '/'].isPrefixOf transform then some fun e => transform.drop 3 ++ e
  else if ['/', '%', '/'].isPrefixOf transform then some fun e => e ++ transform.drop 3
  else if ['/', '/'].isPrefixOf transform then
    (patternOf (transform.drop 2)).map fun p => replace p.1 p.2
  else if ['/'].isPrefixOf transform then
    (patternOf (transform.drop 1)).map fun p => replaceFirst p.1 p.2
  else none

/-- `_apply_array_transform`. -/
def applyArrayTransform (elements : List Text) (transform : Text) : Option (List Text) :=
  (elementTransform transform).map fun f => elements.map f

/-- `repl` of `_expand_vars`, for the groups and the whole of a match. -/
def replRef (scalars : Scalars) (braced bare whole : Text) : Text :=
  (scalars.get (if braced ≠ [] then braced else bare)).getD whole

/-- `repl_xform` of `_expand_vars`. -/
def replXform (scalars : Scalars) (name transform whole : Text) : Text :=
  match scalars.get name with
  | none => whole
  | some v => ((applyArrayTransform [v] transform).bind List.head?).getD whole

/-- `pattern.sub(repl, value)` for a replacement that reads two groups and the match. -/
def subGroups (r : Re) (f : Text → Text → Text → Text) (t : Text) : Text :=
  sub r (fun m => f (m.group t 1) (m.group t 2) (slice t m.start m.stop)) t

/-- One pass of `_expand_vars`. -/
def expandOnce (scalars : Scalars) (value : Text) : Text :=
  subGroups varRef (replRef scalars) (subGroups varXformRef (replXform scalars) value)

/-- The passes of `_expand_vars`. -/
def expandVarsFrom (scalars : Scalars) : ℕ → Text → Text
  | 0, value => value
  | n + 1, value =>
    let new := expandOnce scalars value
    if new = value then new else expandVarsFrom scalars n new

/-- `_expand_vars`. -/
def expandVars (value : Text) (scalars : Scalars) : Text := expandVarsFrom scalars 8 value

/-- The value of a scalar: `v` if `isinstance(v, str)`. -/
def Global.str : Global → Option Text
  | .scalar v => some v
  | .array _ => none

/-- The scalars of the globals. -/
def scalarsOf (globals : Globals) : Scalars where
  items := (globals.map fun _ v => v.str).items.filterMap fun p => p.2.map fun v => (p.1, id v)
  nodup := (globals.map fun _ v => v.str).nodup.sublist (Assoc.keys_filterMap id _)

/-- The rounds of `_apply_var_expansion` over the scalars. -/
def expandScalars : ℕ → Scalars → Scalars
  | 0, scalars => scalars
  | n + 1, scalars =>
    let new := scalars.map fun _ v => expandVars v scalars
    if new.items ≠ scalars.items then expandScalars n new else new

/-- What the last loop of `_apply_var_expansion` makes of a global. -/
def expandGlobal (scalars : Scalars) (k : Text) : Global → Global
  | .scalar v => .scalar ((scalars.get k).getD v)
  | .array items => .array (items.map fun item => expandVars item scalars)

/-- `_apply_var_expansion`. -/
def applyVarExpansion (globals : Globals) : Globals :=
  globals.map (expandGlobal (expandScalars 8 (scalarsOf globals)))

/-! ## Tokens -/

/-- A piece of a text, as the patterns see it. -/
inductive Token
  | plain (c : Char)
  /-- `$` and no reference. -/
  | dollar
  /-- `${` and no name. -/
  | opened
  /-- `${name` and neither `}` nor `/`. -/
  | named (n : Text)
  /-- `${name}`, or `$name`. -/
  | ref (braced : Bool) (n : Text)
  /-- `${name/pattern/replacement}`, with the slash. -/
  | xform (n tr : Text)

/-- A name that a reference can have. -/
def IsName : Text → Prop
  | [] => False
  | a :: w => isNameStart a = true ∧ ∀ c ∈ w, isNameChar c = true

namespace Token

/-- The token as it is written. -/
def text : Token → Text
  | plain c => [c]
  | dollar => ['$']
  | opened => ['$', '\x7b']
  | named n => '$' :: '\x7b' :: n
  | ref true n => '$' :: '\x7b' :: n ++ ['\x7d']
  | ref false n => '$' :: n
  | xform n tr => '$' :: '\x7b' :: n ++ tr ++ ['\x7d']

/-- The parts of the token are what they are said to be. -/
def Ok : Token → Prop
  | plain c => c ≠ '$'
  | dollar | opened => True
  | named n | ref _ n => IsName n
  | xform n tr => IsName n ∧ tr.head? = some '/' ∧ '\x7d' ∉ tr ∧ '$' ∉ tr

/-- A character that would continue the token. -/
def joins : Token → Char → Bool
  | dollar, c => isNameStart c || c = '\x7b'
  | opened, c => isNameStart c
  | named _, c => isNameChar c || c = '\x7d' || c = '/'
  | ref false _, c => isNameChar c
  | _, _ => false

/-- The second token does not continue the first. -/
def Apart (t u : Token) : Prop := ∀ c ∈ u.text.head?, t.joins c = false

end Token

/-- The text of tokens. -/
def tokensText (L : List Token) : Text := L.flatMap Token.text

/-- The tokens are those that the patterns see in their text. -/
structure Legible (L : List Token) : Prop where
  ok : ∀ t ∈ L, t.Ok
  apart : L.IsChain Token.Apart

/-! ## What the patterns match -/

variable {a c : Char} {i k : ℕ} {d : Groups} {n s t u w tr R : Text} {r : Re} {m : Match}

theorem ne_of_isNameChar (h : isNameChar c = true) : c ≠ '/' ∧ c ≠ '\x7d' ∧ c ≠ '$' := by
  refine ⟨?_, ?_, ?_⟩ <;>
  · rintro rfl
    exact absurd h (by decide)

theorem ne_of_isNameStart (h : isNameStart c = true) : c ≠ '\x7b' := by
  rintro rfl
  exact absurd h (by decide)

theorem run_lit1_seq (h : t[i]? = some a) : run t (.seq (lit1 a) r) i d = run t r (i + 1) d := by
  rw [run_seq, run_lit1, if_pos h, List.flatMap_singleton]

theorem run_lit1_seq_of_ne (h : t[i]? ≠ some a) : run t (.seq (lit1 a) r) i d = [] := by
  rw [run_seq, run_lit1, if_neg h, List.flatMap_nil]

/-- Both patterns begin with `$`. -/
theorem matchAt_of_ne_dollar (hc : c ≠ '$') :
    matchAt varRef (c :: t) 0 = none ∧ matchAt varXformRef (c :: t) 0 = none := by
  have h : (c :: t)[0]? ≠ some '$' := fun h => hc (Option.some.inj h)
  constructor
  · rw [matchAt, varRef, run_alt, run_lit1_seq_of_ne h, run_lit1_seq_of_ne h]
    rfl
  · rw [matchAt, varXformRef, run_lit1_seq_of_ne h]
    rfl

theorem run_opened : run ('$' :: '\x7b' :: s) (.seq (lit1 '$') (.seq (lit1 '\x7b') r)) 0 d =
    run ('$' :: '\x7b' :: s) r 2 d := by
  rw [run_lit1_seq rfl, run_lit1_seq rfl]

theorem run_opened_of_ne (h : ∀ c ∈ s.head?, c ≠ '\x7b') :
    run ('$' :: s) (.seq (lit1 '$') (.seq (lit1 '\x7b') r)) 0 d = [] := by
  rw [run_lit1_seq rfl, run_lit1_seq_of_ne]
  intro h'
  rw [Nat.zero_add, List.getElem?_cons_succ, ← List.head?_eq_getElem?] at h'
  exact h _ h' rfl

theorem run_bare_of_ne (h : ∀ c ∈ s.head?, isNameStart c = false) :
    run ('$' :: s) (.seq (lit1 '$') (.group k nameRe)) 0 d = [] := by
  rw [run_lit1_seq rfl, run_group, nameRe, run_word_of_not]
  · rfl
  · rw [Nat.zero_add, List.getElem?_cons_succ, ← List.head?_eq_getElem?]
    cases hs : s.head? with
    | none => rfl
    | some c => exact h c hs

/-- Behind `${` and a name stands what the pattern wants next. -/
theorem run_name (hn : IsName n) (hs : ∀ c ∈ s.head?, isNameChar c = false)
    (hr : ∀ j d, ('$' :: '\x7b' :: n ++ s)[j]?.any isNameChar = true →
      run ('$' :: '\x7b' :: n ++ s) r j d = []) :
    run ('$' :: '\x7b' :: n ++ s) (.seq (.group k nameRe) r) 2 d =
      run ('$' :: '\x7b' :: n ++ s) r (2 + n.length) ((k, 2, 2 + n.length) :: d) := by
  cases n with
  | nil => cases hn
  | cons a w =>
    rw [nameRe, run_group_word_seq (a := a) (w := w) (s := s) rfl hn.1 hn.2 hs hr,
      List.length_cons, Nat.add_comm w.length, ← Nat.add_assoc]

theorem run_lit1_of_isNameChar (ha : isNameChar a = false) (j : ℕ)
    (h : t[j]?.any isNameChar = true) : run t (lit1 a) j d = [] := by
  rw [run_lit1, if_neg]
  intro hj
  rw [hj, Option.any_some, ha] at h
  cases h

theorem run_transform_of_isNameChar (j : ℕ) (h : t[j]?.any isNameChar = true) :
    run t (.seq (.group 2 transformRe) (lit1 '\x7d')) j d = [] := by
  refine run_group_word_seq_of_not ?_
  cases hj : t[j]? with
  | none => rfl
  | some c =>
    rw [hj] at h
    exact decide_eq_false (ne_of_isNameChar h).1

theorem getElem?_behind : ('$' :: '\x7b' :: n ++ s)[2 + n.length]? = s.head? := by
  rw [Nat.add_comm, List.cons_append, List.cons_append, List.getElem?_cons_succ,
    List.getElem?_cons_succ, List.getElem?_append_right le_rfl, Nat.sub_self,
    List.head?_eq_getElem?]

theorem IsName.head (hn : IsName n) : ∀ c ∈ (n ++ s).head?, isNameStart c = true := by
  cases n with
  | nil => cases hn
  | cons a w =>
    intro c hc
    obtain rfl : a = c := Option.some.inj hc
    exact hn.1

theorem matchAt_dollar (h : ∀ c ∈ R.head?, Token.dollar.joins c = false) :
    matchAt varRef ('$' :: R) 0 = none ∧ matchAt varXformRef ('$' :: R) 0 = none := by
  have hstart : ∀ c ∈ R.head?, isNameStart c = false ∧ c ≠ '\x7b' := by
    intro c hc
    have := h c hc
    rw [Token.joins, Bool.or_eq_false_iff, decide_eq_false_iff_not] at this
    exact this
  constructor
  · rw [matchAt, varRef, run_alt, run_opened_of_ne fun c hc => (hstart c hc).2,
      run_bare_of_ne fun c hc => (hstart c hc).1]
    rfl
  · rw [matchAt, varXformRef, run_opened_of_ne fun c hc => (hstart c hc).2]
    rfl

theorem run_bare_opened : run ('$' :: '\x7b' :: s) (.seq (lit1 '$') (.group k nameRe)) 0 d = [] :=
  run_bare_of_ne fun c hc => by
    obtain rfl : '\x7b' = c := Option.some.inj hc
    decide

theorem matchAt_opened (h : ∀ c ∈ R.head?, isNameStart c = false) :
    matchAt varRef ('$' :: '\x7b' :: R) 0 = none ∧
      matchAt varXformRef ('$' :: '\x7b' :: R) 0 = none := by
  have hstart : ('$' :: '\x7b' :: R)[2]?.any isNameStart = false := by
    rw [List.getElem?_cons_succ, List.getElem?_cons_succ, ← List.head?_eq_getElem?]
    cases hR : R.head? with
    | none => rfl
    | some c => exact h c hR
  constructor
  · rw [matchAt, varRef, run_alt, run_opened, nameRe, run_group_word_seq_of_not hstart,
      ← nameRe, run_bare_opened]
    rfl
  · rw [matchAt, varXformRef, run_opened, nameRe, run_group_word_seq_of_not hstart]
    rfl

theorem matchAt_named (hn : IsName n) (h : ∀ c ∈ R.head?, (Token.named n).joins c = false) :
    matchAt varRef ('$' :: '\x7b' :: n ++ R) 0 = none ∧
      matchAt varXformRef ('$' :: '\x7b' :: n ++ R) 0 = none := by
  have hR : ∀ c ∈ R.head?, (isNameChar c = false ∧ c ≠ '\x7d') ∧ c ≠ '/' := by
    intro c hc
    have := h c hc
    rw [Token.joins, Bool.or_eq_false_iff, Bool.or_eq_false_iff, decide_eq_false_iff_not,
      decide_eq_false_iff_not] at this
    exact this
  constructor
  · rw [matchAt, varRef, run_alt, List.cons_append, List.cons_append, run_bare_opened, run_opened,
      ← List.cons_append, ← List.cons_append, run_name hn (fun c hc => (hR c hc).1.1)
        (fun j d h => run_lit1_of_isNameChar (by decide) j h), run_lit1, getElem?_behind, if_neg]
    · rfl
    · exact fun h => (hR _ h).1.2 rfl
  · rw [matchAt, varXformRef, List.cons_append, List.cons_append, run_opened,
      ← List.cons_append, ← List.cons_append, run_name hn (fun c hc => (hR c hc).1.1)
        (fun j d h => run_transform_of_isNameChar j h), transformRe, run_group_word_seq_of_not]
    · rfl
    · rw [getElem?_behind]
      cases hc : R.head? with
      | none => rfl
      | some c => exact decide_eq_false (hR c hc).2

theorem matchAt_braced (hn : IsName n) :
    matchAt varRef ('$' :: '\x7b' :: n ++ '\x7d' :: R) 0 =
        some ⟨0, 2 + n.length + 1, [(1, 2, 2 + n.length)]⟩ ∧
      matchAt varXformRef ('$' :: '\x7b' :: n ++ '\x7d' :: R) 0 = none := by
  have hR : ∀ c ∈ ('\x7d' :: R).head?, isNameChar c = false := by
    rintro c ⟨⟩
    decide
  constructor
  · rw [matchAt, varRef, run_alt, List.cons_append, List.cons_append, run_bare_opened, run_opened,
      ← List.cons_append, ← List.cons_append, run_name hn hR
        (fun j d h => run_lit1_of_isNameChar (by decide) j h), run_lit1, getElem?_behind,
      if_pos List.head?_cons]
    rfl
  · rw [matchAt, varXformRef, List.cons_append, List.cons_append, run_opened,
      ← List.cons_append, ← List.cons_append, run_name hn hR
        (fun j d h => run_transform_of_isNameChar j h), transformRe, run_group_word_seq_of_not]
    · rfl
    · rw [getElem?_behind, List.head?_cons]
      decide

theorem matchAt_bare (hn : IsName n) (hR : ∀ c ∈ R.head?, isNameChar c = false) :
    matchAt varRef ('$' :: n ++ R) 0 =
        some ⟨0, 1 + n.length, [(2, 1, 1 + n.length)]⟩ ∧
      matchAt varXformRef ('$' :: n ++ R) 0 = none := by
  have hbrace : ∀ c ∈ (n ++ R).head?, c ≠ '\x7b' := fun c hc => ne_of_isNameStart (hn.head c hc)
  constructor
  · cases n with
    | nil => cases hn
    | cons a w =>
      have hhead := head?_run_word (t := '$' :: (a :: w) ++ R) (i := 0 + 1) (c := []) rfl hn.1 hn.2
        hR
      have hlen : 0 + 1 + 1 + w.length = 1 + (a :: w).length := by
        rw [List.length_cons]
        omega
      rw [List.cons_append, hlen] at hhead
      rw [matchAt, varRef, run_alt, List.cons_append, run_opened_of_ne hbrace, List.nil_append,
        run_lit1_seq rfl, run_group, List.head?_map, nameRe, hhead]
      rfl
  · rw [matchAt, varXformRef, List.cons_append, run_opened_of_ne hbrace]
    rfl

theorem matchAt_xform (hn : IsName n) (htr : tr.head? = some '/') (hclose : '\x7d' ∉ tr) :
    matchAt varRef ('$' :: '\x7b' :: n ++ (tr ++ '\x7d' :: R)) 0 = none ∧
      matchAt varXformRef ('$' :: '\x7b' :: n ++ (tr ++ '\x7d' :: R)) 0 =
        some ⟨0, 2 + n.length + tr.length + 1,
          [(2, 2 + n.length, 2 + n.length + tr.length), (1, 2, 2 + n.length)]⟩ := by
  cases tr with
  | nil => cases htr
  | cons a w =>
    obtain rfl : a = '/' := Option.some.inj htr
    have hR : ∀ c ∈ ('/' :: w ++ '\x7d' :: R).head?, isNameChar c = false := by
      rintro c ⟨⟩
      decide
    have hw : ∀ b ∈ w, decide (b ≠ '\x7d') = true := fun b hb =>
      decide_eq_true fun h => hclose (h ▸ List.mem_cons_of_mem _ hb)
    constructor
    · rw [matchAt, varRef, run_alt, List.cons_append, List.cons_append, run_bare_opened, run_opened,
        ← List.cons_append, ← List.cons_append, run_name hn hR
          (fun j d h => run_lit1_of_isNameChar (by decide) j h), run_lit1, getElem?_behind, if_neg]
      · rfl
      · rw [List.cons_append, List.head?_cons]
        decide
    · have hdrop : ('$' :: '\x7b' :: n ++ ('/' :: w ++ '\x7d' :: R)).drop (2 + n.length) =
          '/' :: w ++ '\x7d' :: R := by
        rw [Nat.add_comm]
        exact List.drop_left' rfl
      rw [matchAt, varXformRef, List.cons_append, List.cons_append, run_opened,
        ← List.cons_append, ← List.cons_append, run_name hn hR
          (fun j d h => run_transform_of_isNameChar j h), transformRe,
        run_group_word_seq hdrop (by decide) hw
          (by
            rintro b ⟨⟩
            decide)
          fun j d h => ?_]
      · have hlen : 2 + n.length + 1 + w.length = 2 + n.length + ('/' :: w).length := by
          rw [List.length_cons]
          omega
        have hget : ('$' :: '\x7b' :: n ++ ('/' :: w ++ '\x7d' :: R))[2 + n.length +
            ('/' :: w).length]? = some '\x7d' := by
          rw [← List.getElem?_drop, hdrop, List.getElem?_append_right le_rfl, Nat.sub_self]
          rfl
        rw [hlen, run_lit1, if_pos hget]
        rfl
      · rw [run_lit1, if_neg]
        intro hj
        rw [hj] at h
        exact absurd h (by decide)

/-! ## Scanning tokens -/

section Scans

variable {β : Type*} {Φ : Text → List β} {hit : Text → Text → Text → List β}
  {miss : Char → List β} {L : List Token} {tok : Token}

/-- What is read of a text match by match, and of the characters between the matches. -/
structure Scans (r : Re) (Φ : Text → List β) (hit : Text → Text → Text → List β)
    (miss : Char → List β) : Prop where
  nil : Φ [] = []
  hit (u t : Text) (m : Match) : matchAt r (u ++ t) 0 = some m → m.stop = u.length → u ≠ [] →
    Φ (u ++ t) = hit (m.group (u ++ t) 1) (m.group (u ++ t) 2) u ++ Φ t
  miss (a : Char) (t : Text) : matchAt r (a :: t) 0 = none → Φ (a :: t) = miss a ++ Φ t

theorem scans_subGroups (hr : r.Forward) (hnil : finditer r [] = [])
    (f : Text → Text → Text → Text) : Scans r (subGroups r f) f fun c => [c] where
  nil := by rw [subGroups, sub, hnil, subFrom, List.drop_nil]
  hit u t m hm hstop hu := by
    have hwhole : slice (u ++ t) m.start m.stop = u := by
      rw [(matchAt_eq_some hm).1, hstop, slice, List.take_left, List.drop_zero]
    rw [subGroups, sub_append hr (fun m => ?_) hm hstop hu, hwhole]
    · rfl
    · rw [group_shift, group_shift]
      exact congrArg _ slice_shift
  miss a t hm := sub_cons hr (fun m => by
    have h := fun k => @group_shift t [a] m k
    have hs := @slice_shift t [a] m.start m.stop
    exact congr (congr (congrArg f (h 1)) (h 2)) hs) hm

/-- The names that a text refers to. -/
def refsOf (t : Text) : List Text :=
  (finditer varRef t).map fun m => if m.group t 1 ≠ [] then m.group t 1 else m.group t 2

theorem varRef_forward : varRef.Forward := by
  refine ⟨⟨trivial, trivial, ⟨trivial, trivial⟩, trivial⟩, trivial, trivial, trivial⟩

theorem varXformRef_forward : varXformRef.Forward := by
  refine ⟨trivial, trivial, ⟨trivial, trivial⟩, ⟨trivial, trivial⟩, trivial⟩

theorem scans_refsOf :
    Scans varRef refsOf (fun x y _ => [if x ≠ [] then x else y]) fun _ => [] where
  nil := by decide
  hit u t m hm hstop hu := by
    rw [refsOf, finditer_append varRef_forward hm hstop hu, List.map_cons, List.map_map, refsOf]
    refine congrArg (_ :: ·) (List.map_congr_left fun m' _ => ?_)
    rw [Function.comp_apply, group_shift, group_shift]
  miss a t hm := by
    have h := fun m k => @group_shift t [a] m k
    rw [refsOf, finditer_cons varRef_forward hm, List.map_map, refsOf, List.nil_append]
    refine List.map_congr_left fun m _ => ?_
    rw [Function.comp_apply]
    exact congrArg₂ (fun x y : Text => if x ≠ [] then x else y) (h m 1) (h m 2)

/-- Without `$` nothing matches. -/
theorem Scans.plain (h : Scans r Φ hit miss) (hr : r = varRef ∨ r = varXformRef) {w : Text}
    (hw : '$' ∉ w) : Φ (w ++ R) = w.flatMap miss ++ Φ R := by
  induction w with
  | nil => rfl
  | cons a w ih =>
    rw [List.mem_cons, not_or] at hw
    have hnone : matchAt r (a :: (w ++ R)) 0 = none := by
      rcases hr with rfl | rfl
      · exact (matchAt_of_ne_dollar (Ne.symm hw.1)).1
      · exact (matchAt_of_ne_dollar (Ne.symm hw.1)).2
    rw [List.cons_append, h.miss a _ hnone, ih hw.2, List.flatMap_cons, List.append_assoc]

/-- A `$` that begins no match. -/
theorem Scans.dollar (h : Scans r Φ hit miss) (hr : r = varRef ∨ r = varXformRef) {w : Text}
    (hw : '$' ∉ w) (hm : matchAt r ('$' :: w ++ R) 0 = none) :
    Φ ('$' :: w ++ R) = ('$' :: w).flatMap miss ++ Φ R := by
  rw [List.cons_append] at hm ⊢
  rw [h.miss _ _ hm, h.plain hr hw, List.flatMap_cons, List.append_assoc]

theorem IsName.dollar_notMem (hn : IsName n) : '$' ∉ n := by
  cases n with
  | nil => cases hn
  | cons a w =>
    rw [List.mem_cons, not_or]
    refine ⟨fun h => ?_, fun h => (ne_of_isNameChar (hn.2 _ h)).2.2 rfl⟩
    have ha := hn.1
    rw [← h] at ha
    exact absurd ha (by decide)

theorem IsName.ne_nil (hn : IsName n) : n ≠ [] := by
  rintro rfl
  exact hn

/-- What a token gives where references are read. -/
def Token.refOut (hit : Text → Text → Text → List β) (miss : Char → List β) : Token → List β
  | .ref true n => hit n [] (Token.ref true n).text
  | .ref false n => hit [] n (Token.ref false n).text
  | tok => tok.text.flatMap miss

/-- What a token gives where replace expressions are read. -/
def Token.xformOut (hit : Text → Text → Text → List β) (miss : Char → List β) : Token → List β
  | .xform n tr => hit n tr (Token.xform n tr).text
  | tok => tok.text.flatMap miss

theorem slice_append_left {x y z : Text} : slice (x ++ (y ++ z)) x.length (x.length + y.length) =
    y := by
  rw [slice, ← List.append_assoc, List.take_left' List.length_append, List.drop_left]

theorem Scans.token_ref (h : Scans varRef Φ hit miss) (hok : tok.Ok)
    (hR : ∀ c ∈ R.head?, tok.joins c = false) :
    Φ (tok.text ++ R) = tok.refOut hit miss ++ Φ R := by
  have hbrace : '$' ∉ ['\x7b'] := by decide
  cases tok with
  | plain c => exact h.plain (.inl rfl) (fun hc => hok (List.mem_singleton.mp hc).symm)
  | dollar => exact h.dollar (.inl rfl) List.not_mem_nil (matchAt_dollar hR).1
  | opened => exact h.dollar (.inl rfl) hbrace (matchAt_opened hR).1
  | named n =>
    refine h.dollar (.inl rfl) ?_ (matchAt_named hok hR).1
    rw [List.mem_cons, not_or]
    exact ⟨by decide, hok.dollar_notMem⟩
  | ref braced n =>
    cases braced with
    | true =>
      have hm := (matchAt_braced (R := R) hok).1
      have htext : '$' :: '\x7b' :: n ++ '\x7d' :: R = (Token.ref true n).text ++ R := by
        rw [Token.text, List.append_assoc, List.singleton_append]
      rw [htext] at hm
      rw [h.hit _ _ _ hm (by simp [Token.text]; omega) (List.cons_ne_nil _ _), Token.refOut]
      refine congrArg (· ++ _) (congr (congr (congrArg hit ?_) rfl) rfl)
      rw [← htext]
      exact @slice_append_left ['$', '\x7b'] n ('\x7d' :: R)
    | false =>
      have hm := (matchAt_bare (R := R) hok hR).1
      rw [Token.text, h.hit _ _ _ hm (by rw [List.length_cons, Nat.add_comm])
        (List.cons_ne_nil _ _), Token.refOut]
      refine congrArg (· ++ _) (congr (congr rfl ?_) rfl)
      exact @slice_append_left ['$'] n R
  | xform n tr =>
    obtain ⟨hn, hslash, hclose, hdollar⟩ := hok
    have hm := (matchAt_xform (R := R) hn hslash hclose).1
    have htext : (Token.xform n tr).text ++ R = '$' :: ('\x7b' :: n ++ tr ++ ['\x7d']) ++ R := rfl
    rw [Token.refOut, htext]
    · refine h.dollar (.inl rfl) ?_ (by simpa using hm)
      simp only [List.mem_append, List.mem_cons, not_or]
      exact ⟨⟨⟨by decide, hn.dollar_notMem⟩, hdollar⟩, by decide, List.not_mem_nil⟩
    · exact fun _ => Token.noConfusion
    · exact fun _ => Token.noConfusion

theorem Scans.token_xform (h : Scans varXformRef Φ hit miss) (hok : tok.Ok)
    (hR : ∀ c ∈ R.head?, tok.joins c = false) :
    Φ (tok.text ++ R) = tok.xformOut hit miss ++ Φ R := by
  have hbrace : '$' ∉ ['\x7b'] := by decide
  cases tok with
  | plain c => exact h.plain (.inr rfl) (fun hc => hok (List.mem_singleton.mp hc).symm)
  | dollar => exact h.dollar (.inr rfl) List.not_mem_nil (matchAt_dollar hR).2
  | opened => exact h.dollar (.inr rfl) hbrace (matchAt_opened hR).2
  | named n =>
    refine h.dollar (.inr rfl) ?_ (matchAt_named hok hR).2
    rw [List.mem_cons, not_or]
    exact ⟨by decide, hok.dollar_notMem⟩
  | ref braced n =>
    cases braced with
    | true =>
      have hm := (matchAt_braced (R := R) hok).2
      have htext : (Token.ref true n).text ++ R = '$' :: ('\x7b' :: n ++ ['\x7d']) ++ R := rfl
      rw [Token.xformOut, htext]
      · refine h.dollar (.inr rfl) ?_ (by simpa using hm)
        simp only [List.mem_append, List.mem_cons, not_or]
        exact ⟨⟨by decide, hok.dollar_notMem⟩, by decide, List.not_mem_nil⟩
      · exact fun _ _ => Token.noConfusion
    | false => exact h.dollar (.inr rfl) hok.dollar_notMem (matchAt_bare hok hR).2
  | xform n tr =>
    obtain ⟨hn, hslash, hclose, -⟩ := hok
    have hm := (matchAt_xform (R := R) hn hslash hclose).2
    have htext : '$' :: '\x7b' :: n ++ (tr ++ '\x7d' :: R) = (Token.xform n tr).text ++ R := by
      rw [Token.text]
      simp
    rw [htext] at hm
    rw [h.hit _ _ _ hm (by simp [Token.text]; omega) (List.cons_ne_nil _ _), Token.xformOut]
    refine congrArg (· ++ _) (congr (congr (congrArg hit ?_) ?_) rfl)
    · rw [← htext]
      exact @slice_append_left ['$', '\x7b'] n (tr ++ '\x7d' :: R)
    · rw [← htext]
      have hslice := @slice_append_left ('$' :: '\x7b' :: n) tr ('\x7d' :: R)
      rw [List.length_cons, List.length_cons, Nat.add_assoc, Nat.add_comm n.length] at hslice
      exact hslice

theorem tokensText_cons : tokensText (tok :: L) = tok.text ++ tokensText L := List.flatMap_cons

theorem Token.text_ne_nil (tok : Token) : tok.text ≠ [] := by
  cases tok with
  | ref braced n => cases braced <;> exact List.cons_ne_nil _ _
  | _ => exact List.cons_ne_nil _ _

theorem Legible.tail (h : Legible (tok :: L)) : Legible L := by
  refine ⟨fun t ht => h.ok t (List.mem_cons_of_mem _ ht), ?_⟩
  cases L with
  | nil => exact .nil
  | cons u L => exact (List.isChain_cons_cons.mp h.apart).2

theorem Legible.head (h : Legible (tok :: L)) :
    ∀ c ∈ (tokensText L).head?, tok.joins c = false := by
  cases L with
  | nil => exact nofun
  | cons u L =>
    rw [tokensText_cons, List.head?_append_of_ne_nil _ u.text_ne_nil]
    exact (List.isChain_cons_cons.mp h.apart).1

/-- References are read token by token. -/
theorem Scans.tokens_ref (h : Scans varRef Φ hit miss) (hL : Legible L) :
    Φ (tokensText L) = L.flatMap (Token.refOut hit miss) := by
  induction L with
  | nil => exact h.nil
  | cons tok L ih =>
    rw [tokensText_cons, h.token_ref (hL.ok tok List.mem_cons_self) hL.head, ih hL.tail,
      List.flatMap_cons]

/-- Replace expressions are read token by token. -/
theorem Scans.tokens_xform (h : Scans varXformRef Φ hit miss) (hL : Legible L) :
    Φ (tokensText L) = L.flatMap (Token.xformOut hit miss) := by
  induction L with
  | nil => exact h.nil
  | cons tok L ih =>
    rw [tokensText_cons, h.token_xform (hL.ok tok List.mem_cons_self) hL.head, ih hL.tail,
      List.flatMap_cons]

end Scans

end Sysforge.Pkgbuild
