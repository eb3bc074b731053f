import Mathlib.Algebra.Ring.Nat
import Sysforge.Foundations.Expansion
import Sysforge.Pkgbuild.VarExpansion

/-!
# The passes of the variable expansion

A dictionary whose texts are read as tokens (`Reading`) is expanded token by token: the rounds of
`_apply_var_expansion` are `9 ^ 8` passes over the tokens of each value (`inState_expandScalars`).
Where no reference leads back to its scalar, that is enough for every value to settle, and
`expands_of_clear` says what it then is.
-/

namespace Sysforge.Pkgbuild

open Text Re Expansion

/-! ## What is claimed of the globals -/

/-- The value of a scalar global. -/
def scalar (g : Globals) (n : Text) : Option Text := (g.get n).bind Global.str

/-- The texts in which references are replaced. -/
def Global.texts : Global → List Text
  | .scalar v => [v]
  | .array items => items

def Global.mapTexts (f : Text → Text) : Global → Global
  | .scalar v => .scalar (f v)
  | .array items => .array (items.map f)

/-- All texts of the globals. -/
def textsOf (g : Globals) : List Text := g.items.flatMap fun p => p.2.texts

/-- No chain of references between the scalars is longer than `d`, so that none leads back. -/
def AcyclicWithin (g : Globals) (d : ℕ) : Prop :=
  ∃ rank : Text → ℕ, (∀ n, rank n ≤ d) ∧ ∀ n v, scalar g n = some v →
    ∀ j ∈ refsOf v, (scalar g j).isSome → rank j < rank n

/-- What is expected of the expansion. -/
structure Expands (g : Globals) : Prop where
  /-- A second expansion changes nothing. -/
  fixed : applyVarExpansion (applyVarExpansion g) = applyVarExpansion g
  /-- Each reference has given way to the expanded value of its scalar. -/
  resolved : AcyclicWithin g 64 → applyVarExpansion g =
    g.map fun _ v => v.mapTexts (expandOnce (scalarsOf (applyVarExpansion g)))
  /-- A scalar that refers to itself keeps these references. -/
  kept : ∀ n v, scalar g n = some v → n ∈ refsOf v → scalar (applyVarExpansion g) n =
    some (expandOnce ((scalarsOf (applyVarExpansion g)).erase n) v)

/-! ## Readings -/

/-- What a token stands for: a reference for the tokens of its scalar, a supported replace
expression for its result. -/
def expandToken (g : Globals) (tokens : Text → List Token) : Token → List Token
  | .ref b n => match scalar g n with
    | some v => tokens v
    | none => [.ref b n]
  | .xform n tr => match scalar g n, elementTransform tr with
    | some v, some f => (f v).map .plain
    | _, _ => [.xform n tr]
  | t => [t]

/-- Beside each other in one of the texts. -/
def Neighbours (g : Globals) (tokens : Text → List Token) (t u : Token) : Prop :=
  ∃ v ∈ textsOf g, [t, u] <:+: tokens v

/-- A token whose parts are what they are said to be; a supported replace expression is of a
scalar without references. -/
def Token.Fine (g : Globals) (t : Token) : Prop :=
  t.Ok ∧ ∀ n tr, t = .xform n tr → ∀ v f, scalar g n = some v → elementTransform tr = some f →
    '$' ∉ v

/-- The tokens of each text, such that no token comes to stand before what would continue it. -/
structure Reading (g : Globals) where
  tokens : Text → List Token
  tokensText_tokens : ∀ v ∈ textsOf g, tokensText (tokens v) = v
  fine : ∀ v ∈ textsOf g, ∀ t ∈ tokens v, t.Fine g
  apart : ∀ t u, Beside (expandToken g tokens) (Neighbours g tokens) t u → t.Apart u

/-- No scalar depends on itself, unless its whole value is its reference, and the chains of
references have less than `9 ^ 8` steps. -/
def Reading.Bounded {g : Globals} (R : Reading g) : Prop :=
  ∃ rank : Text → ℕ, (∀ n, rank n + 1 < 9 ^ 8) ∧ ∀ n v, scalar g n = some v →
    (∃ b, R.tokens v = [.ref b n]) ∨
      ∀ b j, .ref b j ∈ R.tokens v → (scalar g j).isSome → rank j < rank n

/-- The globals have such a reading. -/
def Clear (g : Globals) : Prop := ∃ R : Reading g, R.Bounded

/-! ## The scalars -/

variable {g : Globals} {n v w tr : Text} {t u : Token} {L M : List Token} {m k : ℕ} {s : Scalars}

theorem get_scalarsOf : (scalarsOf g).get n = scalar g n := by
  have h : (scalarsOf g).get n = (((g.map fun _ v => v.str).get n).join).map id :=
    Assoc.lookup_filterMap id (g.map fun _ v => v.str).nodup n
  rw [h, Dict.get_map, Option.map_id, id, scalar]
  cases g.get n with
  | none => rfl
  | some v => rfl

theorem mem_textsOf_of_scalar (h : scalar g n = some v) : v ∈ textsOf g := by
  obtain ⟨x, hx, hv⟩ := Option.bind_eq_some_iff.mp h
  refine List.mem_flatMap.mpr ⟨(n, x), Dict.mem_items.mpr hx, ?_⟩
  cases x with
  | scalar v' =>
    obtain rfl : v' = v := Option.some.inj hv
    exact List.mem_singleton_self _
  | array items => cases hv

/-! ## What the transforms keep -/

theorem mem_replaceFrom {pat r s : Text} {c : Char} {n : ℕ} (h : c ∈ replaceFrom pat r n s) :
    c ∈ r ∨ c ∈ s := by
  induction s generalizing n with
  | nil =>
    rw [replaceFrom] at h
    cases h
  | cons a s ih =>
    cases n with
    | succ n =>
      rw [replaceFrom] at h
      exact (ih h).imp_right (List.mem_cons_of_mem _)
    | zero =>
      rw [replaceFrom] at h
      split at h
      · rcases List.mem_append.mp h with h | h
        · exact .inl h
        · exact (ih h).imp_right (List.mem_cons_of_mem _)
      · rcases List.mem_cons.mp h with rfl | h
        · exact .inr List.mem_cons_self
        · exact (ih h).imp_right (List.mem_cons_of_mem _)

theorem mem_replaceFirst {pat r s : Text} {c : Char} (h : c ∈ replaceFirst pat r s) :
    c ∈ r ∨ c ∈ s := by
  induction s with
  | nil => cases h
  | cons a s ih =>
    rw [replaceFirst] at h
    split at h
    · exact (List.mem_append.mp h).imp_right List.mem_of_mem_drop
    · rcases List.mem_cons.mp h with rfl | h
      · exact .inr List.mem_cons_self
      · exact (ih h).imp_right (List.mem_cons_of_mem _)

theorem patternOf_mem {rest : Text} {p : Text × Text} {c : Char} (h : patternOf rest = some p)
    (hc : c ∈ p.2) : c ∈ rest := by
  unfold patternOf at h
  dsimp only at h
  split_ifs at h
  obtain rfl := Option.some.inj h
  exact List.mem_of_mem_drop hc

/-- A transform brings no character that neither it nor the element has. -/
theorem mem_elementTransform {f : Text → Text} {c : Char} (h : elementTransform tr = some f)
    (hc : c ∈ f v) : c ∈ tr ∨ c ∈ v := by
  unfold elementTransform at h
  split_ifs at h
  · obtain rfl := Option.some.inj h
    exact .inr hc
  · obtain rfl := Option.some.inj h
    exact (List.mem_append.mp hc).imp_left List.mem_of_mem_drop
  · obtain rfl := Option.some.inj h
    exact (List.mem_append.mp hc).symm.imp_left List.mem_of_mem_drop
  · obtain ⟨p, hp, rfl⟩ := Option.map_eq_some_iff.mp h
    exact (mem_replaceFrom hc).imp_left fun hc => List.mem_of_mem_drop (patternOf_mem hp hc)
  · obtain ⟨p, hp, rfl⟩ := Option.map_eq_some_iff.mp h
    exact (mem_replaceFirst hc).imp_left fun hc => List.mem_of_mem_drop (patternOf_mem hp hc)

/-! ## One pass -/

theorem Token.Fine.of_ne_xform (h : t.Ok) (hx : ∀ n tr, t ≠ .xform n tr) : t.Fine g :=
  ⟨h, fun n tr ht => absurd ht (hx n tr)⟩

variable (R : Reading g)

/-- One pass over the tokens. -/
abbrev Reading.expand : Token → List Token := expandToken g R.tokens

theorem Reading.fine_of_scalar (hv : scalar g n = some v) : ∀ t ∈ R.tokens v, t.Fine g :=
  R.fine v (mem_textsOf_of_scalar hv)

theorem Reading.fine_expand (ht : t.Fine g) : ∀ u ∈ R.expand t, u.Fine g := by
  unfold Reading.expand expandToken
  split
  · split
    next hv => exact R.fine_of_scalar hv
    next => exact List.forall_mem_singleton.mpr ht
  · next n tr =>
    split
    next v f hv hf =>
      intro u hu
      obtain ⟨c, hc, rfl⟩ := List.mem_map.mp hu
      refine .of_ne_xform (fun h : c = '$' => ?_) fun _ _ => Token.noConfusion
      rcases mem_elementTransform hf (h ▸ hc) with h | h
      · exact ht.1.2.2.2 h
      · exact ht.2 n tr rfl v f hv hf h
    next => exact List.forall_mem_singleton.mpr ht
  · exact List.forall_mem_singleton.mpr ht

/-- The lists of tokens that come up: their texts are read as these tokens. -/
structure Reading.Good (L : List Token) : Prop where
  fine : ∀ t ∈ L, t.Fine g
  beside : L.IsChain (Beside R.expand (Neighbours g R.tokens))

variable {R}

theorem Reading.Good.legible (h : R.Good L) : Legible L :=
  ⟨fun t ht => (h.fine t ht).1, h.beside.imp R.apart⟩

theorem Reading.good_tokens (hv : v ∈ textsOf g) : R.Good (R.tokens v) :=
  ⟨R.fine v hv, isChain_of_infix fun _ _ h => .base ⟨v, hv, h⟩⟩

theorem Reading.Good.flatMap {τ : Token → List Token} (hτ : Steps R.expand τ) (h : R.Good L) :
    R.Good (L.flatMap τ) := by
  refine ⟨fun u hu => ?_, isChain_flatMap hτ h.beside⟩
  obtain ⟨t, ht, hu⟩ := List.mem_flatMap.mp hu
  rcases hτ t with hself | hexp
  · rw [hself, List.mem_singleton] at hu
    exact hu ▸ h.fine t ht
  · exact R.fine_expand (h.fine t ht) u (hexp ▸ hu)

theorem Reading.Good.iterate (h : R.Good L) : R.Good ((sweep R.expand)^[k] L) := by
  induction k generalizing L with
  | zero => exact h
  | succ k ih => exact ih (h.flatMap fun _ => .inr rfl)

theorem tokensText_append : tokensText (L ++ M) = tokensText L ++ tokensText M :=
  List.flatMap_append

theorem tokensText_plain (w : Text) : tokensText (w.map .plain) = w := by
  induction w with
  | nil => rfl
  | cons c w ih => rw [List.map_cons, tokensText_cons, ih]; rfl

/-- A text without `$` is read character by character. -/
theorem eq_plain_of_dollar_notMem (h : '$' ∉ tokensText L) :
    ∀ t ∈ L, ∃ c, t = .plain c := by
  intro t ht
  have hd : '$' ∉ t.text := fun hd => h (List.mem_flatMap.mpr ⟨t, ht, hd⟩)
  cases t with
  | plain c => exact ⟨c, rfl⟩
  | ref b n => cases b <;> exact absurd List.mem_cons_self hd
  | _ => exact absurd List.mem_cons_self hd

theorem settled_of_plain (h : ∀ t ∈ L, ∃ c, t = .plain c) : Settled R.expand L := by
  intro t ht
  obtain ⟨c, rfl⟩ := h t ht
  rfl

/-- The scalars after `m` passes over the tokens of each. -/
def Reading.InState (R : Reading g) (m : ℕ) (s : Scalars) : Prop :=
  ∀ n, s.get n = (scalar g n).map fun v => tokensText ((sweep R.expand)^[m] (R.tokens v))

/-- The value of a scalar without references stays. -/
theorem Reading.InState.get_plain (h : R.InState m s) (hv : scalar g n = some v) (hd : '$' ∉ v) :
    s.get n = some v := by
  have hmem := mem_textsOf_of_scalar hv
  have htext := R.tokensText_tokens v hmem
  have hplain := eq_plain_of_dollar_notMem (L := R.tokens v) (by rwa [htext])
  rw [h n, hv, Option.map_some, iterate_of_settled (settled_of_plain hplain), htext]

/-- The replace expressions are replaced, the references not yet. -/
def Reading.xforms (R : Reading g) : Token → List Token
  | .xform n tr => R.expand (.xform n tr)
  | t => [t]

theorem Reading.steps_xforms : Steps R.expand R.xforms := by
  intro t
  unfold Reading.xforms
  split
  · exact .inr rfl
  · exact .inl rfl

theorem Reading.InState.xformOut (h : R.InState m s) (ht : t.Fine g) :
    t.xformOut (replXform s) (fun c => [c]) = tokensText (R.xforms t) := by
  have hchars : ∀ w : Text, w.flatMap (fun c => [c]) = w := fun w => List.flatMap_singleton' w
  have hself : ∀ u : Token, u.text = tokensText [u] := fun u => (List.flatMap_singleton _ _).symm
  cases t with
  | xform n tr =>
    show replXform s n tr _ = tokensText (expandToken g R.tokens (.xform n tr))
    cases hv : scalar g n with
    | none =>
      simp only [replXform, expandToken, h n, hv, Option.map_none]
      exact hself _
    | some v =>
      cases hf : elementTransform tr with
      | none =>
        simp only [replXform, expandToken, h n, hv, Option.map_some, applyArrayTransform, hf]
        exact hself (.xform n tr)
      | some f =>
        have hd := ht.2 n tr rfl v f hv hf
        simp only [replXform, expandToken, h.get_plain hv hd, hv, applyArrayTransform, hf,
          tokensText_plain]
        rfl
  | _ => exact (hchars _).trans (hself _)

/-- What is left when the replace expressions are replaced, besides references. -/
theorem Reading.xforms_spec (ht : ∀ b n, t ≠ .ref b n) :
    (sweep R.expand)^[k + 1] [t] = R.xforms t ∧ Settled R.expand (R.xforms t) ∧
      ∀ u ∈ R.xforms t, ∀ b n, u ≠ .ref b n := by
  have key : Settled R.expand (R.xforms t) → R.expand t = R.xforms t →
      (sweep R.expand)^[k + 1] [t] = R.xforms t := by
    intro hset heq
    rw [Function.iterate_succ_apply, sweep, List.flatMap_singleton, heq, iterate_of_settled hset]
  cases t with
  | ref b n => exact absurd rfl (ht b n)
  | xform n tr =>
    have hspec : Settled R.expand (R.xforms (.xform n tr)) ∧
        ∀ u ∈ R.xforms (.xform n tr), ∀ b n, u ≠ .ref b n := by
      show Settled R.expand (expandToken g R.tokens (.xform n tr)) ∧
        ∀ u ∈ expandToken g R.tokens (.xform n tr), ∀ b n, u ≠ .ref b n
      cases hv : scalar g n with
      | none =>
        simp only [expandToken, hv]
        refine ⟨List.forall_mem_singleton.mpr ?_, List.forall_mem_singleton.mpr ht⟩
        simp only [Reading.expand, expandToken, hv]
      | some v =>
        cases hf : elementTransform tr with
        | none =>
          simp only [expandToken, hv, hf]
          refine ⟨List.forall_mem_singleton.mpr ?_, List.forall_mem_singleton.mpr ht⟩
          simp only [Reading.expand, expandToken, hv, hf]
        | some f =>
          simp only [expandToken, hv, hf]
          refine ⟨settled_of_plain fun u hu => ?_, fun u hu b n => ?_⟩
          · obtain ⟨c, -, rfl⟩ := List.mem_map.mp hu
            exact ⟨c, rfl⟩
          · obtain ⟨c, -, rfl⟩ := List.mem_map.mp hu
            exact Token.noConfusion
    exact ⟨key hspec.1 rfl, hspec⟩
  | plain _ | dollar | opened | named _ =>
    refine ⟨key ?_ rfl, ?_, List.forall_mem_singleton.mpr ht⟩ <;>
    · intro u hu
      obtain rfl := List.mem_singleton.mp hu
      rfl

theorem refOut_of_ne_ref {hit : Text → Text → Text → Text} (ht : ∀ b n, t ≠ .ref b n) :
    t.refOut hit (fun c => [c]) = t.text := by
  cases t with
  | ref b n => exact absurd rfl (ht b n)
  | _ => exact List.flatMap_singleton' _

theorem Reading.InState.refOut (h : R.InState m s) (ht : t.Fine g) :
    (R.xforms t).flatMap (Token.refOut (replRef s) fun c => [c]) =
      tokensText ((sweep R.expand)^[m + 1] [t]) := by
  by_cases href : ∀ b n, t ≠ .ref b n
  · obtain ⟨hit, -, hne⟩ := Reading.xforms_spec (R := R) (k := m) href
    rw [hit, tokensText]
    exact List.flatMap_congr fun u hu => refOut_of_ne_ref (hne u hu)
  · simp only [not_forall, not_not] at href
    obtain ⟨b, n, rfl⟩ := href
    have hn : n ≠ [] := IsName.ne_nil ht.1
    have hout : (Token.ref b n).refOut (replRef s) (fun c => [c]) =
        (s.get n).getD (Token.ref b n).text := by
      cases b with
      | true => rw [Token.refOut, replRef, if_pos hn]
      | false => rw [Token.refOut, replRef, if_neg (not_not.mpr rfl)]
    show [Token.ref b n].flatMap _ = _
    rw [List.flatMap_singleton, hout, h n, Function.iterate_succ_apply, sweep,
      List.flatMap_singleton]
    cases hv : scalar g n with
    | none =>
      have hexp : R.expand (.ref b n) = [.ref b n] := by
        simp only [Reading.expand, expandToken, hv]
      rw [hexp, iterate_of_settled (List.forall_mem_singleton.mpr hexp)]
      exact (List.flatMap_singleton _ _).symm
    | some v =>
      have hexp : R.expand (.ref b n) = R.tokens v := by
        simp only [Reading.expand, expandToken, hv]
      rw [hexp]
      rfl

/-- One pass of the code is `m + 1` passes over the tokens, when the scalars went through `m`. -/
theorem Reading.InState.expandOnce_text (h : R.InState m s) (hL : R.Good L) :
    expandOnce s (tokensText L) = tokensText ((sweep R.expand)^[m + 1] L) := by
  have hxform : subGroups varXformRef (replXform s) (tokensText L) =
      tokensText (L.flatMap R.xforms) := by
    rw [(scans_subGroups varXformRef_forward (by decide) _).tokens_xform hL.legible, tokensText,
      List.flatMap_assoc]
    exact List.flatMap_congr fun t ht => h.xformOut (hL.fine t ht)
  rw [expandOnce, hxform, (scans_subGroups varRef_forward (by decide) _).tokens_ref
    (hL.flatMap Reading.steps_xforms).legible, List.flatMap_assoc, iterate_eq_flatMap, tokensText,
    List.flatMap_assoc]
  exact List.flatMap_congr fun t ht => h.refOut (hL.fine t ht)

/-! ## All passes -/

theorem expandVarsFrom_eq (s : Scalars) (k : ℕ) (v : Text) :
    expandVarsFrom s k v = (expandOnce s)^[k] v := by
  induction k generalizing v with
  | zero => rfl
  | succ k ih =>
    rw [expandVarsFrom, Function.iterate_succ_apply]
    by_cases h : expandOnce s v = v
    · rw [if_pos h, h, Function.iterate_fixed h]
    · rw [if_neg h, ih]

theorem Reading.InState.iterate_expandOnce (h : R.InState m s) (hL : R.Good L) :
    (expandOnce s)^[k] (tokensText L) = tokensText ((sweep R.expand)^[k * (m + 1)] L) := by
  induction k generalizing L with
  | zero => rw [Nat.zero_mul]; rfl
  | succ k ih =>
    rw [Function.iterate_succ_apply, h.expandOnce_text hL, ih hL.iterate,
      ← Function.iterate_add_apply, Nat.succ_mul]

theorem Reading.InState.expandVars_text (h : R.InState m s) (hL : R.Good L) :
    expandVars (tokensText L) s = tokensText ((sweep R.expand)^[8 * (m + 1)] L) := by
  rw [expandVars, expandVarsFrom_eq, h.iterate_expandOnce hL]

/-- One round over the scalars. -/
def round (s : Scalars) : Scalars := s.map fun _ v => expandVars v s

theorem items_injective {d e : Scalars} (h : d.items = e.items) : d = e := by
  cases d
  cases e
  congr

theorem expandScalars_eq (k : ℕ) (s : Scalars) : expandScalars k s = round^[k] s := by
  induction k generalizing s with
  | zero => rfl
  | succ k ih =>
    rw [Function.iterate_succ_apply]
    show (if (round s).items ≠ s.items then expandScalars k (round s) else round s) = _
    by_cases h : (round s).items = s.items
    · have hfix : round s = s := items_injective h
      rw [if_neg (not_not.mpr h), hfix, Function.iterate_fixed hfix]
    · rw [if_pos h, ih]

theorem Reading.InState.round (h : R.InState m s) : R.InState (8 * (m + 1) + m) (round s) := by
  intro n
  rw [Pkgbuild.round, Dict.get_map, h n, Option.map_map]
  cases hv : scalar g n with
  | none => rfl
  | some v =>
    have hgood := R.good_tokens (mem_textsOf_of_scalar hv)
    rw [Option.map_some, Option.map_some, Function.comp_apply, h.expandVars_text hgood.iterate,
      Function.iterate_add_apply]

theorem Reading.InState.iterate_round (h : R.InState m s) :
    R.InState (9 ^ k * (m + 1) - 1) (Pkgbuild.round^[k] s) := by
  induction k generalizing m s with
  | zero => rwa [Nat.pow_zero, Nat.one_mul]
  | succ k ih =>
    have hround := ih h.round
    have hnum : 8 * (m + 1) + m + 1 = 9 * (m + 1) := by omega
    rw [hnum, ← Nat.mul_assoc, ← Nat.pow_succ] at hround
    exact hround

theorem Reading.inState_scalarsOf (R : Reading g) : R.InState 0 (scalarsOf g) := by
  intro n
  rw [get_scalarsOf]
  cases hv : scalar g n with
  | none => rfl
  | some v =>
    rw [Option.map_some]
    exact congrArg some (R.tokensText_tokens v (mem_textsOf_of_scalar hv)).symm

/-- The passes in eight rounds of eight. -/
@[irreducible] def passes : ℕ := 9 ^ 8

theorem passes_eq : passes = 9 ^ 8 := by rw [passes]

theorem passes_pos : 0 < passes := by
  rw [passes_eq]
  exact Nat.pow_pos (by decide)

/-- The rounds are `passes` passes from the reference to a scalar. -/
theorem Reading.inState_expandScalars (R : Reading g) :
    R.InState (passes - 1) (expandScalars 8 (scalarsOf g)) := by
  rw [expandScalars_eq, passes_eq]
  exact R.inState_scalarsOf.iterate_round

/-! ## Without cycles -/

/-- The steps from a token until nothing is left to replace. -/
def tokenRank (rank : Text → ℕ) : Token → ℕ
  | .ref _ n => rank n + 1
  | _ => 0

theorem Reading.falls {rank : Text → ℕ} (h : ∀ n v, scalar g n = some v →
    (∃ b, R.tokens v = [.ref b n]) ∨
      ∀ b j, .ref b j ∈ R.tokens v → (scalar g j).isSome → rank j < rank n) :
    Falls R.expand (tokenRank rank) := by
  intro t
  by_cases href : ∀ b n, t ≠ .ref b n
  · obtain ⟨hpass, hset, -⟩ := Reading.xforms_spec (R := R) (k := 0) href
    rw [Function.iterate_succ_apply, Function.iterate_zero_apply, sweep,
      List.flatMap_singleton] at hpass
    exact .inr fun u hu => .inl (hset u (hpass ▸ hu))
  · simp only [not_forall, not_not] at href
    obtain ⟨b, n, rfl⟩ := href
    cases hv : scalar g n with
    | none =>
      left
      simp only [Reading.expand, expandToken, hv]
    | some v =>
      right
      have hexp : ∀ b, R.expand (.ref b n) = R.tokens v := fun b => by
        simp only [Reading.expand, expandToken, hv]
      intro u hu
      rw [hexp] at hu
      rcases h n v hv with ⟨b', hself⟩ | hrank
      · -- the value is its own reference
        rw [hself, List.mem_singleton] at hu
        rw [hu, hexp]
        exact .inl hself
      · by_cases huref : ∀ b n, u ≠ .ref b n
        · right
          cases u with
          | ref b n => exact absurd rfl (huref b n)
          | _ => exact Nat.succ_pos _
        · simp only [not_forall, not_not] at huref
          obtain ⟨b', j, rfl⟩ := huref
          cases hj : scalar g j with
          | none =>
            left
            simp only [Reading.expand, expandToken, hj]
          | some w =>
            exact .inr (Nat.succ_lt_succ (hrank b' j hu (by rw [hj]; rfl)))

/-- The value that a text is expanded to. -/
def Reading.result (R : Reading g) (v : Text) : Text :=
  tokensText ((sweep R.expand)^[passes] (R.tokens v))

section Bounded

variable (hb : R.Bounded)

include hb

theorem Reading.Bounded.settled (L : List Token) : Settled R.expand ((sweep R.expand)^[passes] L) := by
  obtain ⟨rank, hlt, hrank⟩ := hb
  refine settled_iterate (Reading.falls hrank) fun t _ => ?_
  cases t with
  | ref b n => exact passes_eq ▸ hlt n
  | _ => exact passes_pos

/-- The value of a scalar settles one pass earlier. -/
theorem Reading.Bounded.settled_scalar (hv : scalar g n = some v) :
    Settled R.expand ((sweep R.expand)^[passes - 1] (R.tokens v)) := by
  obtain ⟨rank, hlt, hrank⟩ := hb
  have h := settled_singleton (Reading.falls hrank) (t := .ref true n) (n := passes)
    (passes_eq ▸ hlt n)
  have hexp : R.expand (.ref true n) = R.tokens v := by
    simp only [Reading.expand, expandToken, hv]
  rw [← Nat.sub_add_cancel passes_pos, Function.iterate_succ_apply, sweep, List.flatMap_singleton, hexp] at h
  exact h

theorem Reading.Bounded.result_scalar (hv : scalar g n = some v) :
    tokensText ((sweep R.expand)^[passes - 1] (R.tokens v)) = R.result v := by
  rw [Reading.result, iterate_eq_of_settled (hb.settled_scalar hv) (Nat.sub_le _ _)]

omit hb in
/-- Passes with settled scalars lead to the result. -/
theorem Reading.InState.expandOnce_eq (hs : R.InState (passes - 1) s) (hv : v ∈ textsOf g) :
    expandOnce s v = R.result v := by
  conv_lhs => rw [← R.tokensText_tokens v hv]
  rw [hs.expandOnce_text (R.good_tokens hv), Nat.sub_add_cancel passes_pos, Reading.result]

theorem Reading.Bounded.expandVars_eq (hs : R.InState (passes - 1) s) (hv : v ∈ textsOf g) :
    expandVars v s = R.result v := by
  conv_lhs => rw [← R.tokensText_tokens v hv]
  rw [hs.expandVars_text (R.good_tokens hv), Nat.sub_add_cancel passes_pos,
    iterate_eq_of_settled (hb.settled _) (Nat.le_mul_of_pos_left _ (by decide)), Reading.result]

theorem Reading.Bounded.expandVars_result (hs : R.InState (passes - 1) s) (hv : v ∈ textsOf g) :
    expandVars (R.result v) s = R.result v := by
  rw [Reading.result, hs.expandVars_text (R.good_tokens hv).iterate,
    iterate_of_settled (hb.settled _)]

end Bounded

theorem map_congr {f f' : Text → Global → Global}
    (h : ∀ k x, g.get k = some x → f k x = f' k x) : g.map f = g.map f' := by
  have hitems : g.items.map (fun q => (q.1, f q.1 q.2)) =
      g.items.map fun q => (q.1, f' q.1 q.2) :=
    List.map_congr_left fun q hq => by rw [h q.1 q.2 (Dict.mem_items.mp hq)]
  rw [Dict.map, Dict.map]
  congr

theorem map_eq_self {f : Text → Global → Global} (h : ∀ k x, g.get k = some x → f k x = x) :
    g.map f = g := by
  have hitems : ∀ q ∈ g.items, (q.1, f q.1 q.2) = q := fun q hq => by
    rw [h q.1 q.2 (Dict.mem_items.mp hq)]
  have hmap := (List.map_congr_left hitems).trans (List.map_id _)
  rw [Dict.map]
  cases g
  congr

theorem scalar_eq_some : scalar g n = some v ↔ g.get n = some (.scalar v) := by
  rw [scalar, Option.bind_eq_some_iff]
  constructor
  · rintro ⟨x, hx, hv⟩
    cases x with
    | scalar w => rw [hx, Option.some.inj hv]
    | array items => cases hv
  · exact fun h => ⟨_, h, rfl⟩

theorem mem_textsOf {x : Global} (h : g.get n = some x) (hv : v ∈ x.texts) : v ∈ textsOf g :=
  List.mem_flatMap.mpr ⟨(n, x), Dict.mem_items.mpr h, hv⟩

theorem mapTexts_congr {f f' : Text → Text} {x : Global} (h : ∀ v ∈ x.texts, f v = f' v) :
    x.mapTexts f = x.mapTexts f' := by
  cases x with
  | scalar v => exact congrArg Global.scalar (h v (List.mem_singleton_self v))
  | array items => exact congrArg Global.array (List.map_congr_left h)

/-- The expansion, text by text. -/
theorem Reading.Bounded.applyVarExpansion_eq (hb : R.Bounded) :
    applyVarExpansion g = g.map fun _ x => x.mapTexts R.result := by
  have hs := R.inState_expandScalars
  refine map_congr fun k x hx => ?_
  cases x with
  | scalar v =>
    have hv := scalar_eq_some.mpr hx
    rw [expandGlobal, hs k, hv, Option.map_some, hb.result_scalar hv, Option.getD_some,
      Global.mapTexts]
  | array items =>
    exact congrArg Global.array (List.map_congr_left fun v hv =>
      hb.expandVars_eq hs (mem_textsOf hx hv))

theorem scalar_map_mapTexts {f : Text → Text} :
    scalar (g.map fun _ x => x.mapTexts f) n = (scalar g n).map f := by
  rw [scalar, Dict.get_map, scalar]
  cases g.get n with
  | none => rfl
  | some x => cases x <;> rfl

theorem Reading.Bounded.inState_result (hb : R.Bounded) :
    R.InState (passes - 1) (scalarsOf (g.map fun _ x => x.mapTexts R.result)) := by
  intro n
  rw [get_scalarsOf, scalar_map_mapTexts]
  cases hv : scalar g n with
  | none => rw [Option.map_none, Option.map_none]
  | some v => rw [Option.map_some, Option.map_some, hb.result_scalar hv]

theorem round_eq_self (h : ∀ n v, s.get n = some v → expandVars v s = v) : round s = s := by
  refine items_injective ?_
  have hitems : ∀ p ∈ s.items, (p.1, expandVars p.2 s) = p := fun p hp => by
    rw [h p.1 p.2 (Dict.mem_items.mp hp)]
  exact (List.map_congr_left hitems).trans (List.map_id _)

/-- The expanded globals are expanded to themselves. -/
theorem Reading.Bounded.applyVarExpansion_result (hb : R.Bounded) :
    applyVarExpansion (g.map fun _ x => x.mapTexts R.result) =
      g.map fun _ x => x.mapTexts R.result := by
  have hs := hb.inState_result
  have hround : expandScalars 8 (scalarsOf (g.map fun _ x => x.mapTexts R.result)) =
      scalarsOf (g.map fun _ x => x.mapTexts R.result) := by
    rw [expandScalars_eq]
    refine Function.iterate_fixed (round_eq_self fun n w hw => ?_) 8
    rw [get_scalarsOf, scalar_map_mapTexts, Option.map_eq_some_iff] at hw
    obtain ⟨v, hv, rfl⟩ := hw
    exact hb.expandVars_result hs (mem_textsOf_of_scalar hv)
  rw [applyVarExpansion, hround]
  have hfix : ∀ n x, g.get n = some x →
      expandGlobal (scalarsOf (g.map fun _ x => x.mapTexts R.result)) n (x.mapTexts R.result) =
        x.mapTexts R.result := by
    intro n x hx
    cases x with
    | scalar v =>
      have hv := scalar_eq_some.mpr hx
      rw [Global.mapTexts, expandGlobal, get_scalarsOf, scalar_map_mapTexts, hv, Option.map_some,
        Option.getD_some]
    | array items =>
      rw [Global.mapTexts, expandGlobal, List.map_map]
      refine congrArg Global.array (List.map_congr_left fun v hv => ?_)
      rw [Function.comp_apply, hb.expandVars_result hs (mem_textsOf hx hv)]
  refine map_eq_self fun n x hx => ?_
  rw [Dict.get_map, Option.map_eq_some_iff] at hx
  obtain ⟨x, hx, rfl⟩ := hx
  exact hfix n x hx

/-- The names that legible tokens refer to. -/
theorem exists_ref_of_mem_refsOf (hL : Legible L) (h : n ∈ refsOf (tokensText L)) :
    ∃ b, Token.ref b n ∈ L := by
  rw [scans_refsOf.tokens_ref hL] at h
  obtain ⟨t, ht, hn⟩ := List.mem_flatMap.mp h
  have hok := hL.ok t ht
  cases t with
  | ref b j =>
    have hj : n = j := by
      cases b with
      | true => rw [List.mem_singleton.mp hn, if_pos hok.ne_nil]
      | false => rw [List.mem_singleton.mp hn, if_neg (not_not.mpr rfl)]
    exact ⟨b, hj ▸ ht⟩
  | _ =>
    rw [Token.refOut, List.flatMap_eq_nil_iff.mpr fun _ _ => rfl] at hn
    · cases hn
    all_goals exact fun _ => Token.noConfusion

/-- A pass leaves references to what is no scalar. -/
theorem expandOnce_of_absent (hL : Legible L) (hx : ∀ n tr, .xform n tr ∉ L)
    (hs : ∀ b n, .ref b n ∈ L → s.get n = none) :
    expandOnce s (tokensText L) = tokensText L := by
  have hchars : ∀ w : Text, w.flatMap (fun c => [c]) = w := fun w => List.flatMap_singleton' w
  have hxform : subGroups varXformRef (replXform s) (tokensText L) = tokensText L := by
    rw [(scans_subGroups varXformRef_forward (by decide) _).tokens_xform hL]
    refine List.flatMap_congr fun t ht => ?_
    cases t with
    | xform n tr => exact absurd ht (hx n tr)
    | _ => exact hchars _
  rw [expandOnce, hxform, (scans_subGroups varRef_forward (by decide) _).tokens_ref hL]
  refine List.flatMap_congr fun t ht => ?_
  cases t with
  | ref b n =>
    have hn : n ≠ [] := IsName.ne_nil (hL.ok _ ht)
    cases b with
    | true => rw [Token.refOut, replRef, if_pos hn, hs true n ht, Option.getD_none]
    | false => rw [Token.refOut, replRef, if_neg (not_not.mpr rfl), hs false n ht, Option.getD_none]
  | _ => exact hchars _

/-- A token that nothing continues. -/
def Token.Closed (t : Token) : Prop := ∀ c, t.joins c = false

theorem not_pair_infix {v : Token} : ¬[t, u] <:+: [v] := fun h =>
  absurd h.length_le (by rw [List.length_cons, List.length_singleton, List.length_singleton]; omega)

/-- Where all references stand in braces and there is no other `$`, nothing joins. -/
theorem apart_of_closed {tokens : Text → List Token}
    (h : ∀ v ∈ textsOf g, ∀ t ∈ tokens v, t.Closed)
    (hb : Beside (expandToken g tokens) (Neighbours g tokens) t u) : t.Closed := by
  have hexpand : ∀ t, t.Closed → ∀ u ∈ expandToken g tokens t, u.Closed := by
    intro t ht u hu
    unfold expandToken at hu
    split at hu
    · split at hu
      next hv => exact h _ (mem_textsOf_of_scalar hv) u hu
      next => exact List.mem_singleton.mp hu ▸ ht
    · split at hu
      next =>
        obtain ⟨c, -, rfl⟩ := List.mem_map.mp hu
        exact fun _ => rfl
      next => exact List.mem_singleton.mp hu ▸ ht
    · exact List.mem_singleton.mp hu ▸ ht
  induction hb with
  | base hn =>
    obtain ⟨v, hv, hpart⟩ := hn
    exact h v hv _ (hpart.subset List.mem_cons_self)
  | @within t u v hpart =>
    unfold expandToken at hpart
    split at hpart
    · split at hpart
      next hv => exact h _ (mem_textsOf_of_scalar hv) t (hpart.subset List.mem_cons_self)
      next => exact absurd hpart not_pair_infix
    · split at hpart
      next =>
        obtain ⟨c, -, rfl⟩ := List.mem_map.mp (hpart.subset List.mem_cons_self)
        exact fun _ => rfl
      next => exact absurd hpart not_pair_infix
    · exact absurd hpart not_pair_infix
  | left _ ht ih => exact hexpand _ ih _ (List.mem_of_getLast? ht)
  | right _ _ ih => exact ih
  | skip _ _ _ ih _ => exact ih

/-- `m=6`, `v=${m}.1`. -/
def versioned : Globals where
  items := [(['m'], .scalar ['6']), (['v'], .scalar ['$', '\x7b', 'm', '\x7d', '.', '1'])]
  nodup := by decide

/-- The tokens of its texts. -/
def versionedTokens (v : Text) : List Token :=
  if v = ['6'] then [.plain '6'] else [.ref true ['m'], .plain '.', .plain '1']

theorem scalar_versioned (h : scalar versioned n = some v) : (n = ['m'] ∧ v = ['6']) ∨
    (n = ['v'] ∧ v = ['$', '\x7b', 'm', '\x7d', '.', '1']) := by
  have hmem := Dict.mem_items.mpr (scalar_eq_some.mp h)
  rcases List.mem_cons.mp hmem with h | h
  · rw [Prod.mk.injEq, Global.scalar.injEq] at h
    exact .inl h
  · rw [List.mem_singleton, Prod.mk.injEq, Global.scalar.injEq] at h
    exact .inr h

/-- `x="$x y"`. -/
def selfAppend : Globals where
  items := [(['x'], .scalar ['$', 'x', ' ', 'y'])]
  nodup := by decide

/-- The tokens of its text. -/
def selfTokens (_ : Text) : List Token := [.ref false ['x'], .plain ' ', .plain 'y']

theorem expand_selfTokens (t : Token) : expandToken selfAppend selfTokens t = selfTokens [] ∨
    expandToken selfAppend selfTokens t = [t] ∨
      ∃ w : Text, expandToken selfAppend selfTokens t = w.map .plain := by
  unfold expandToken
  split
  · split
    next => exact .inl rfl
    next => exact .inr (.inl rfl)
  · split
    next => exact .inr (.inr ⟨_, rfl⟩)
    next => exact .inr (.inl rfl)
  · exact .inr (.inl rfl)

/-- Only the blank stands behind the reference. -/
theorem beside_selfTokens
    (h : Beside (expandToken selfAppend selfTokens) (Neighbours selfAppend selfTokens) t u) :
    (∃ c, t = .plain c) ∧ (∃ c, u = .plain c) ∨ t = .ref false ['x'] ∧ u = .plain ' ' := by
  have hpair : ∀ t u, [t, u] <:+: selfTokens [] →
      (∃ c, t = .plain c) ∧ (∃ c, u = .plain c) ∨ t = .ref false ['x'] ∧ u = .plain ' ' := by
    rintro t u ⟨l, r, hlr⟩
    rcases l with _ | ⟨a, _ | ⟨b, l⟩⟩
    · simp only [selfTokens, List.nil_append, List.cons_append, List.cons.injEq] at hlr
      exact .inr ⟨hlr.1, hlr.2.1⟩
    · simp only [selfTokens, List.nil_append, List.cons_append, List.cons.injEq] at hlr
      exact .inl ⟨⟨_, hlr.2.1⟩, _, hlr.2.2.1⟩
    · have hlen := congrArg List.length hlr
      simp [selfTokens] at hlen
      omega
  induction h with
  | base hn => exact hpair _ _ hn.choose_spec.2
  | within v hv =>
    rcases expand_selfTokens v with h | h | ⟨w, h⟩
    · exact hpair _ _ (h ▸ hv)
    · exact absurd (h ▸ hv) not_pair_infix
    · rw [h] at hv
      obtain ⟨c, -, hc⟩ := List.mem_map.mp (hv.subset List.mem_cons_self)
      obtain ⟨d, -, hd⟩ :=
        List.mem_map.mp (hv.subset (List.mem_cons_of_mem _ List.mem_cons_self))
      exact .inl ⟨⟨c, hc.symm⟩, d, hd.symm⟩
  | left _ ht ih =>
    rcases ih with ⟨⟨c, rfl⟩, hu⟩ | ⟨rfl, rfl⟩
    · obtain rfl := Option.some.inj ht
      exact .inl ⟨⟨c, rfl⟩, hu⟩
    · obtain rfl := Option.some.inj ht
      exact .inl ⟨⟨_, rfl⟩, _, rfl⟩
  | right _ hu ih =>
    rcases ih with ⟨ht, ⟨c, rfl⟩⟩ | ⟨rfl, rfl⟩
    · obtain rfl := Option.some.inj hu
      exact .inl ⟨ht, c, rfl⟩
    · obtain rfl := Option.some.inj hu
      exact .inr ⟨rfl, rfl⟩
  | skip _ _ hnil ih _ =>
    rcases ih with ⟨-, ⟨c, rfl⟩⟩ | ⟨-, rfl⟩ <;> exact absurd hnil (List.cons_ne_nil _ _)

/-- A reading of the value that refers to itself. -/
def selfReading : Reading selfAppend where
  tokens := selfTokens
  tokensText_tokens := List.forall_mem_singleton.mpr rfl
  fine := by
    refine List.forall_mem_singleton.mpr (List.forall_mem_cons.mpr ⟨?_, List.forall_mem_cons.mpr
      ⟨?_, List.forall_mem_singleton.mpr ?_⟩⟩)
    · exact .of_ne_xform ⟨by decide, nofun⟩ fun _ _ => Token.noConfusion
    all_goals exact .of_ne_xform (by decide : _ ≠ '$') fun _ _ => Token.noConfusion
  apart t u h := by
    rcases beside_selfTokens h with ⟨⟨c, rfl⟩, -⟩ | ⟨rfl, rfl⟩
    · exact fun _ _ => rfl
    · rintro c ⟨⟩
      decide

theorem iterate_selfTokens (k : ℕ) :
    tokensText ((sweep selfReading.expand)^[k] (selfTokens [])) =
      '$' :: 'x' :: (List.replicate (k + 1) [' ', 'y']).flatten := by
  have hplain : Settled selfReading.expand [.plain ' ', .plain 'y'] :=
    List.forall_mem_cons.mpr ⟨rfl, List.forall_mem_singleton.mpr rfl⟩
  induction k with
  | zero => rfl
  | succ k ih =>
    have hpass : sweep selfReading.expand (selfTokens []) =
        selfTokens [] ++ [.plain ' ', .plain 'y'] := rfl
    rw [Function.iterate_succ_apply, hpass, iterate_append, iterate_of_settled hplain,
      tokensText_append, ih, List.replicate_succ' (n := k + 1), List.flatten_append]
    rfl

end Sysforge.Pkgbuild
