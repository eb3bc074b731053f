import Mathlib.Algebra.BigOperators.Group.List.Basic
import Sysforge.Kernel.KconfigSteps

/-!
# Installing a kconfig plan

With a step that owns the generation, `install` takes out every kconfig line of a PKGBUILD and puts
one block in the place of the first. The removal goes from the last match to the first and swallows
a newline with each; the rewrite of an unattended run comes in between. `installs_iff` says for
which texts the result is the original without its kconfig lines, with the block where the first
one was.
-/

namespace Sysforge.Kconfig

open Re Text

/-! ## The law -/

section Law

variable (alnum : Char → Bool) (path : String) (text : Text) (noninteractive : Bool)
  (cs : List Step)

/-- What the drop rules leave of a step. -/
def survivor (s : Step) : Option Step :=
  if appliesOwnFragment text ∧ s.slot.region = .pre then none
  else if s.redundant text then none
  else if s.slot = .review then
    (if noninteractive then s.unattended else some s).filter fun s =>
      s.ownsGeneration || !(search (reviewRe alnum) text).isSome
  else some s

/-- The step contributed to a slot. -/
def stepAt (slot : Slot) : Option Step := (cs.map fun s => (s.slot, s)).lookup slot

/-- The lines of the surviving steps of a region, in the order of the slots. -/
def survivingLines (r : Region) : List Text :=
  (slotOrder.filter fun s => s.region = r).flatMap fun s =>
    (((stepAt cs s).bind (survivor alnum text noninteractive)).map Step.lines).getD []

/-- The lines of the block. -/
def blockLines : List Text :=
  survivingLines alnum text noninteractive cs .pre ++
    dedupeTrailer (survivingLines alnum text noninteractive cs .post)

/-- The position behind a line that ends there. -/
def afterLine (i : ℕ) : ℕ := if text[i]? = some '\n' then i + 1 else i

/-- The text from a position on, without the matched lines. -/
def keepFrom : ℕ → List Match → Text
  | i, [] => text.drop i
  | i, m :: ms => slice text i m.start ++ keepFrom (afterLine text m.stop) ms

/-- The text without its kconfig lines. -/
def withoutKconfig : Text := keepFrom text 0 (finditer (anyRe alnum) text)

/-- The text without its kconfig lines, with the block in the place of the first. -/
def expected : Text :=
  match finditer (anyRe alnum) text with
  | [] => text
  | first :: rest =>
    text.take first.start ++
      render (blockLines alnum text noninteractive cs) (first.group text 1) (first.group text 2)
        (first.group text 3) ++
      keepFrom text first.start (first :: rest)

/-- `install` writes the expected text, in whatever order the steps were contributed, and puts the
captured trailer in at most once. -/
structure Installs : Prop where
  written : ∀ cs' : List Step, cs'.Perm cs →
    (cs'.foldlM contribute .empty >>= fun plan => install alnum path plan noninteractive text) =
      .ok (expected alnum text noninteractive cs)
  trailer : ∀ first ∈ (finditer (anyRe alnum) text).head?,
    trailerCount (first.group text 1) (first.group text 2)
      (blockLines alnum text noninteractive cs) ≤ 1

/-- The texts for which it does. -/
structure Clean : Prop where
  /-- An unattended run finds nothing to rewrite between the lines it keeps. -/
  quiet : noninteractive = true → finditer (interactiveRe alnum) (withoutKconfig alnum text) = []
  /-- The text does not end in a kconfig line without a newline, or has no other line. -/
  ended : (∀ m ∈ (finditer (anyRe alnum) text).getLast?, m.stop < text.length) ∨
    withoutKconfig alnum text = []
  /-- The make prefix of the first kconfig line does not contain the trailer token. -/
  plain : ∀ first ∈ (finditer (anyRe alnum) text).head?,
    occurrences trailerToken (first.group text 2) = 0

end Law

variable {alnum : Char → Bool} {text : Text} {noninteractive : Bool} {cs : List Step}
  {i j k a b c : ℕ} {m : Match} {ms : List Match}

/-! ## What the patterns match -/

theorem mem_slice {t : Text} {c : Char} (h : c ∈ slice t i j) :
    ∃ k, i ≤ k ∧ k < j ∧ t[k]? = some c := by
  obtain ⟨n, hn⟩ := List.mem_iff_getElem?.mp h
  rw [slice, List.getElem?_drop, List.getElem?_take] at hn
  split at hn
  next hlt => exact ⟨i + n, by omega, hlt, hn⟩
  · cases hn

theorem slice_of_prefix {t w : Text} (h : w <+: t.drop i) : slice t i (i + w.length) = w := by
  rw [slice, List.drop_take, Nat.add_sub_cancel_left]
  exact (List.prefix_iff_eq_take.mp h).symm

/-- A kconfig line: where its parts are. -/
structure KconfigLine (text : Text) (m : Match) (a b c : ℕ) : Prop where
  bol : m.start = 0 ∨ text[m.start - 1]? = some '\n'
  eol : text.length ≤ m.stop ∨ text[m.stop]? = some '\n'
  indent : Spans text (fun c => c = ' ' || c = '\t') m.start a
  indent_le : m.start ≤ a
  make : "make".toList <+: text.drop a
  make_lt : a + 4 < b
  blank : text[b - 1]?.any (fun c => c = ' ' || c = '\t') = true
  le_trailer : b ≤ c
  le_stop : c ≤ m.stop
  stop_le : m.stop ≤ text.length
  groups : m.groups = [(3, c, m.stop), (2, a, b), (1, m.start, a)]

theorem groupFree_args : (args alnum).GroupFree := by
  simp [args, plus, space, lit1, nonSpace, GroupFree]

theorem groupFree_comment : comment.GroupFree := by
  simp [comment, opt, lit1, dot, GroupFree]

theorem kconfigLine_of_mem (h : m ∈ finditer (anyRe alnum) text) :
    ∃ a b c, KconfigLine text m a b c := by
  obtain ⟨-, hstop, hrun⟩ := mem_finditer h
  obtain ⟨q₀, h₀, hrun⟩ := mem_run_seq.mp hrun
  obtain ⟨hbol, rfl⟩ := mem_run_bol.mp h₀
  obtain ⟨q₁, h₁, hrun⟩ := mem_run_seq.mp hrun
  obtain ⟨⟨a, g₁⟩, hr₁, rfl⟩ := mem_run_group.mp h₁
  obtain ⟨hg₁, hindent⟩ := mem_run_star_char hr₁
  have hle₁ := (mem_run_le hr₁).1
  obtain ⟨q₂, h₂, hrun⟩ := mem_run_seq.mp hrun
  obtain ⟨⟨b, g₂⟩, hr₂, rfl⟩ := mem_run_group.mp h₂
  obtain ⟨q₃, h₃, hr₂⟩ := mem_run_seq.mp hr₂
  obtain ⟨rfl, hmake⟩ := mem_run_lit h₃
  obtain ⟨q₄, h₄, hr₂⟩ := mem_run_seq.mp hr₂
  have hle₄ := (mem_run_le h₄).1
  have hg₄ := mem_run_groups groupFree_args h₄
  obtain ⟨hlt₂, hg₂, hblank⟩ := mem_run_plus_char hr₂
  obtain ⟨q₅, h₅, hrun⟩ := mem_run_seq.mp hrun
  have hle₅ := (mem_run_le h₅).1
  have hg₅ := mem_run_groups (groupFree_oneOf _) h₅
  obtain ⟨q₆, h₆, hrun⟩ := mem_run_seq.mp hrun
  obtain ⟨⟨e, g₆⟩, hr₆, rfl⟩ := mem_run_group.mp h₆
  have hle₆ := (mem_run_le hr₆).1
  have hfree : (Re.seq (.star blank) comment).GroupFree := ⟨trivial, groupFree_comment⟩
  have hg₆ := mem_run_groups hfree hr₆
  obtain ⟨heol, hq⟩ := mem_run_eol.mp hrun
  obtain ⟨rfl, hgroups⟩ := Prod.mk.inj hq
  simp only at hg₁ hg₂ hg₄ hg₅ hg₆ hle₁ hle₄ hle₅ hle₆ hlt₂ hindent hblank
  have hmakelen : "make".toList.length = 4 := by decide
  rw [hmakelen] at hle₄
  refine ⟨a, b, q₅.1, hbol, heol, hindent, hle₁, hmake, by omega, hblank (b - 1) (by omega)
    (by omega), hle₅, hle₆, hstop, ?_⟩
  rw [hgroups, hg₆, hg₅, hg₂, hg₄, hg₁]

section Line

variable (h : KconfigLine text m a b c)
include h

theorem KconfigLine.start_lt : m.start < m.stop := by
  have := h.indent_le
  have := h.make_lt
  have := h.le_trailer
  have := h.le_stop
  omega

/-- A kconfig line is not empty. -/
theorem KconfigLine.first : text[m.start]? ≠ some '\n' := by
  intro hnl
  rcases h.indent_le.eq_or_lt with ha | ha
  · have hm : text[a]? = some 'm' := by
      obtain ⟨w, hw⟩ := h.make
      have : (text.drop a)[0]? = some 'm' := by rw [← hw]; rfl
      rwa [List.getElem?_drop] at this
    rw [ha, hm] at hnl
    exact absurd hnl (by decide)
  · have hb := h.indent m.start le_rfl ha
    rw [hnl] at hb
    exact absurd hb (by decide)

theorem KconfigLine.group_one : m.group text 1 = slice text m.start a := by
  rw [Match.group, h.groups]
  rfl

theorem KconfigLine.group_two : m.group text 2 = slice text a b := by
  rw [Match.group, h.groups]
  rfl

/-- What the pattern captures of a kconfig line. -/
theorem KconfigLine.captured : Captured (m.group text 1) (m.group text 2) := by
  have hblank : ∀ k : ℕ, text[k]?.any (fun c => c = ' ' || c = '\t') = true →
      ∃ c, text[k]? = some c ∧ (c = ' ' ∨ c = '\t') := by
    intro (k : ℕ) hk
    obtain ⟨c, hc, hk⟩ := (Option.any_eq_true _ _).mp hk
    exact ⟨c, hc, by simpa using hk⟩
  refine ⟨?_, ?_⟩
  · rw [h.group_one]
    intro hmem
    obtain ⟨k, hik, hka, hk⟩ := mem_slice hmem
    obtain ⟨c, hc, hor⟩ := hblank k (h.indent k hik hka)
    rw [hk] at hc
    cases hc
    exact absurd hor (by decide)
  · rw [h.group_two]
    obtain ⟨d, hd, hor⟩ := hblank (b - 1) h.blank
    have hlt := h.make_lt
    have hlast : slice text (b - 1) b = [d] := by
      obtain ⟨hb, hget⟩ := List.getElem?_eq_some_iff.mp hd
      rw [slice, List.drop_take, List.drop_eq_getElem_cons hb, hget,
        show b - (b - 1) = 1 by omega]
      rfl
    refine ⟨slice text a (b - 1), d, ?_, ?_⟩
    · rw [← slice_append (show a ≤ b - 1 by omega) (Nat.sub_le b 1), hlast]
    · rcases hor with rfl | rfl <;> decide

end Line

/-- What a line match needs to be cut out. -/
structure LineMatch (text : Text) (m : Match) : Prop where
  lt : m.start < m.stop
  le : m.stop ≤ text.length
  bol : m.start = 0 ∨ text[m.start - 1]? = some '\n'
  eol : text.length ≤ m.stop ∨ text[m.stop]? = some '\n'
  first : text[m.start]? ≠ some '\n'

theorem lineMatch_of_mem (h : m ∈ finditer (anyRe alnum) text) : LineMatch text m := by
  obtain ⟨a, b, c, hl⟩ := kconfigLine_of_mem h
  exact ⟨hl.start_lt, hl.stop_le, hl.bol, hl.eol, hl.first⟩

/-! ## The removal -/

/-- The next line match starts behind the newline of this one. -/
theorem ordered_afterLine (h : Ordered m.stop ms) (hl : ∀ m ∈ ms, LineMatch text m) :
    Ordered (afterLine text m.stop) ms := by
  cases ms with
  | nil => trivial
  | cons m' ms =>
    refine ⟨?_, h.2⟩
    have hle := h.1
    rw [Kconfig.afterLine]
    split
    next hnl =>
      have hne : m.stop ≠ m'.start := fun e => (hl m' List.mem_cons_self).first (e ▸ hnl)
      omega
    · exact hle

/-- A match that another one follows ends in a newline. -/
theorem newline_of_next {m' : Match} (hl : LineMatch text m) (hl' : LineMatch text m')
    (h : m.stop ≤ m'.start) : text[m.stop]? = some '\n' := by
  have := hl'.lt
  have := hl'.le
  exact hl.eol.resolve_left (by omega)

theorem getElem?_take_append {t x : Text} {n k : ℕ} (hk : k < n) (hn : n ≤ t.length) :
    (t.take n ++ x)[k]? = t[k]? := by
  rw [List.getElem?_append_left (by rw [List.length_take]; omega), List.getElem?_take, if_pos hk]

/-- Cutting a line whose newline is still there. -/
theorem cut_take_append {x : Text} (hlt : m.start < m.stop) (hle : m.stop < text.length)
    (hnl : text[m.stop]? = some '\n') :
    cut m (text.take (m.stop + 1) ++ x) = text.take m.start ++ x := by
  have hlen : (text.take (m.stop + 1)).length = m.stop + 1 := by
    rw [List.length_take]
    omega
  rw [cut, getElem?_take_append (Nat.lt_succ_self _) hle, if_pos hnl,
    List.take_append_of_le_length (by omega), List.take_take, List.drop_append_of_le_length hlen.ge,
    List.drop_eq_nil_of_le hlen.le]
  rw [min_eq_left (by omega), List.nil_append]

/-- Cutting a line that has become the last of the text. -/
theorem cut_take (hlt : m.start < m.stop) (hle : m.stop ≤ text.length)
    (hbol : m.start = 0 ∨ text[m.start - 1]? = some '\n') :
    cut m (text.take m.stop) = (text.take m.start).dropLast := by
  have hlen : (text.take m.stop).length = m.stop := by
    rw [List.length_take]
    omega
  have hnone : (text.take m.stop)[m.stop]? = none := List.getElem?_eq_none hlen.le
  rw [cut, hnone, if_neg nofun, List.drop_eq_nil_of_le hlen.le]
  rcases Nat.eq_zero_or_pos m.start with h0 | hpos
  · rw [if_neg (by omega), h0]
    rfl
  · have hprev := hbol.resolve_left (by omega)
    have htake : (text.take m.stop)[m.start - 1]? = some '\n' := by
      rw [List.getElem?_take, if_pos (by omega), hprev]
    rw [if_pos ⟨hpos, htake⟩, List.take_take, List.append_nil, List.dropLast_take (by omega),
      min_eq_left (by omega)]

/-- The text does not end in a match without a newline. -/
def Ended (text : Text) (ms : List Match) : Prop := ∀ m ∈ ms.getLast?, m.stop < text.length

theorem removeMatches_eq (ms : List Match) (text : Text) :
    removeMatches ms text = ms.foldr cut text := by
  rw [removeMatches, List.foldl_reverse]

theorem foldr_cut_of_ended (hl : ∀ m ∈ ms, LineMatch text m) (ho : Ordered i ms)
    (he : Ended text ms) : ms.foldr cut text = text.take i ++ keepFrom text i ms := by
  induction ms generalizing i with
  | nil => rw [keepFrom, List.take_append_drop]; rfl
  | cons m ms ih =>
    have hm := hl m List.mem_cons_self
    have hms : ∀ m ∈ ms, LineMatch text m := fun m h => hl m (List.mem_cons_of_mem _ h)
    have hnl : text[m.stop]? = some '\n' ∧ Ended text ms := by
      cases ms with
      | nil => exact ⟨hm.eol.resolve_left (by have := he m (by simp); omega), nofun⟩
      | cons m' ms => exact ⟨newline_of_next hm (hms m' List.mem_cons_self) ho.2.1, he⟩
    have hlt := (List.getElem?_eq_some_iff.mp hnl.1).1
    have hafter : afterLine text m.stop = m.stop + 1 := if_pos hnl.1
    have hrest := ih hms (ordered_afterLine ho.2 hms) hnl.2
    rw [List.foldr_cons, hrest, hafter, cut_take_append hm.lt hlt hnl.1, keepFrom, hafter,
      ← List.append_assoc, take_append_slice ho.1]

/-- After an unterminated last match, the removal has one newline too many taken out. -/
theorem foldr_cut_of_not_ended (hl : ∀ m ∈ ms, LineMatch text m) (ho : Ordered i ms)
    (he : ¬ Ended text ms) :
    ms.foldr cut text = (text.take i ++ keepFrom text i ms).dropLast ∧
      (text.take i ++ keepFrom text i ms = [] ∨
        (text.take i ++ keepFrom text i ms).getLast? = some '\n') := by
  induction ms generalizing i with
  | nil => exact absurd nofun he
  | cons m ms ih =>
    have hm := hl m List.mem_cons_self
    have hmlt := hm.lt
    have hmle := hm.le
    have hms : ∀ m ∈ ms, LineMatch text m := fun m h => hl m (List.mem_cons_of_mem _ h)
    have hstart : text.take m.start = [] ∨ (text.take m.start).getLast? = some '\n' := by
      rcases hm.bol with h | h
      · rw [h]
        exact .inl rfl
      · right
        have hpos : 0 < m.start := by
          rcases Nat.eq_zero_or_pos m.start with h0 | hpos
          · rw [h0] at h
            exact absurd (h0 ▸ h) hm.first
          · exact hpos
        rw [List.getLast?_eq_getElem?, List.length_take, min_eq_left (by omega),
          List.getElem?_take, if_pos (by omega), h]
    have hsplit : ∀ x, text.take i ++ (slice text i m.start ++ x) = text.take m.start ++ x := by
      intro x
      rw [← List.append_assoc, take_append_slice ho.1]
    rw [List.foldr_cons, keepFrom, hsplit]
    cases ms with
    | nil =>
      have hstop : m.stop = text.length := by
        by_contra hne
        refine he fun m' hm' => ?_
        rw [List.getLast?_singleton, Option.mem_some_iff] at hm'
        subst hm'
        omega
      have hafter : afterLine text m.stop = m.stop := by
        rw [Kconfig.afterLine, List.getElem?_eq_none hstop.ge, if_neg nofun]
      rw [hafter, keepFrom, List.drop_eq_nil_of_le hstop.ge, List.append_nil]
      refine ⟨?_, hstart⟩
      have := cut_take hm.lt hm.le hm.bol
      rwa [List.take_of_length_le hstop.ge] at this
    | cons m' ms =>
      have hnl := newline_of_next hm (hms m' List.mem_cons_self) ho.2.1
      have hlt := (List.getElem?_eq_some_iff.mp hnl).1
      have hafter : afterLine text m.stop = m.stop + 1 := if_pos hnl
      obtain ⟨hrest, hlast⟩ := ih hms (ordered_afterLine ho.2 hms) he
      rw [hrest, hafter]
      rw [hafter] at hlast
      generalize keepFrom text (m.stop + 1) (m' :: ms) = x at hlast ⊢
      by_cases hx : x = []
      · subst hx
        have hdrop : (text.take (m.stop + 1)).dropLast = text.take m.stop := by
          rw [List.dropLast_eq_take, List.length_take, List.take_take,
            show min (min (m.stop + 1) text.length - 1) (m.stop + 1) = m.stop by omega]
        rw [List.append_nil, List.append_nil, hdrop]
        exact ⟨cut_take hm.lt hm.le hm.bol, hstart⟩
      · rw [List.dropLast_append_of_ne_nil hx, cut_take_append hm.lt hlt hnl,
          List.dropLast_append_of_ne_nil hx]
        refine ⟨rfl, .inr ?_⟩
        rcases hlast with hlast | hlast
        · exact absurd (List.append_eq_nil_iff.mp hlast).2 hx
        · rw [List.getLast?_append_of_ne_nil _ hx] at hlast ⊢
          exact hlast

/-! ## The rewrite -/

/-- A rewritten target has more `d`s than it had. -/
theorem count_toOlddefconfig (h : m ∈ finditer (interactiveRe alnum) text) :
    (slice text m.start m.stop).count 'd' < (toOlddefconfig text m).count 'd' := by
  obtain ⟨-, -, hrun⟩ := mem_finditer h
  obtain ⟨q₀, h₀, hrun⟩ := mem_run_seq.mp hrun
  obtain ⟨-, rfl⟩ := mem_run_bol.mp h₀
  obtain ⟨q₁, h₁, hrun⟩ := mem_run_seq.mp hrun
  obtain ⟨⟨a, g₁⟩, hr₁, rfl⟩ := mem_run_group.mp h₁
  have hle₁ := (mem_run_le hr₁).1
  have hfree₁ : (Re.seq (.star space) (.seq (lit "make".toList) (.seq (args alnum)
      (plus space)))).GroupFree := ⟨trivial, groupFree_lit _, groupFree_args, trivial, trivial⟩
  have hg₁ := mem_run_groups hfree₁ hr₁
  obtain ⟨q₂, h₂, hrun⟩ := mem_run_seq.mp hrun
  obtain ⟨⟨b, g₂⟩, hr₂, rfl⟩ := mem_run_group.mp h₂
  obtain ⟨w, hw, hq₂, hprefix⟩ := mem_run_oneOf hr₂
  obtain ⟨rfl, rfl⟩ := Prod.mk.inj hq₂
  obtain ⟨q₃, h₃, hrun⟩ := mem_run_seq.mp hrun
  obtain ⟨⟨e, g₃⟩, hr₃, rfl⟩ := mem_run_group.mp h₃
  have hle₃ := (mem_run_le hr₃).1
  have hfree₃ : (Re.seq (.star space) comment).GroupFree := ⟨trivial, groupFree_comment⟩
  have hg₃ := mem_run_groups hfree₃ hr₃
  obtain ⟨-, hq⟩ := mem_run_eol.mp hrun
  obtain ⟨hstop, hgroups⟩ := Prod.mk.inj hq
  simp only at hle₁ hg₁ hle₃ hg₃ hstop hgroups
  subst hstop
  rw [hg₃, hg₁] at hgroups
  have hone : m.group text 1 = slice text m.start a := by rw [Match.group, hgroups]; rfl
  have hthree : m.group text 3 = slice text (a + w.length) m.stop := by
    rw [Match.group, hgroups]; rfl
  have hdw : ∀ w ∈ interactiveTargets, w.count 'd' < "olddefconfig".toList.count 'd' := by decide
  have := hdw w hw
  rw [toOlddefconfig, hone, hthree, ← slice_append hle₁ ((Nat.le_add_right a _).trans hle₃),
    ← slice_append (Nat.le_add_right a w.length) hle₃, slice_of_prefix hprefix]
  simp only [List.count_append]
  omega

/-- A rewrite that rewrites something adds to the `d`s. -/
theorem count_rewrite (text : Text) :
    (finditer (interactiveRe alnum) text = [] ∧
      sub (interactiveRe alnum) (toOlddefconfig text) text = text) ∨
    text.count 'd' < (sub (interactiveRe alnum) (toOlddefconfig text) text).count 'd' := by
  by_cases h : finditer (interactiveRe alnum) text = []
  · exact .inl ⟨h, sub_of_finditer_eq_nil h⟩
  · right
    have := count_subFrom (finditer_ordered (interactiveRe alnum) text)
      (fun m hm => (mem_finditer hm).1) fun m hm => count_toOlddefconfig hm
    rw [List.drop_zero] at this
    have hpos := List.length_pos_of_ne_nil h
    rw [sub]
    omega

end Sysforge.Kconfig
