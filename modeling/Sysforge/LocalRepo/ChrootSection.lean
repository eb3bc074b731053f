import Mathlib.Logic.Function.Iterate
import Sysforge.Foundations.LineBreaks
import Sysforge.Foundations.Scan

/-!
# The managed block in the chroot's `pacman.conf`

`_with_section` strips the managed block from a `pacman.conf` and puts a block before the first
section that its regular expression takes for a repository; without one it rewrites the end of the
text. `inserted_iff` says for which texts and directories the block comes in cleanly and goes out
again.
-/

namespace Sysforge.LocalRepo

open Text

/-! ## The code -/

/-- `_BEGIN`, behind its first character. -/
def beginTail : Text :=
  " BEGIN sysforge-local (managed by sysforge; see [security] sandbox_local_repo)".toList

/-- `_BEGIN`. -/
def beginMark : Text := '#' :: beginTail

/-- `_END`, behind its first character. -/
def endTail : Text := " END sysforge-local".toList

/-- `_END`. -/
def endMark : Text := '#' :: endTail

/-- The lines of the block before the directory. -/
def serverHead : Text := "\n[sysforge-local]\nSigLevel = Never\nServer = file://".toList

/-- The block between its marks. -/
def interior (repoDir : Text) : Text := serverHead ++ repoDir ++ ['\n']

/-- `section_text`, for the directory of the repository. -/
def sectionText (repoDir : Text) : Text := beginMark ++ (interior repoDir ++ endMark) ++ ['\n']

/-- `\n?` -/
def afterNewline : Text → Text
  | '\n' :: s => s
  | s => s

/-- `_BLOCK_RE` with an empty replacement. -/
def blockMatcher : Matcher := fun _ s =>
  if beginMark.isPrefixOf s then
    (behind endMark (s.drop beginMark.length)).map fun rest => ([], afterNewline (afterNewline rest))
  else none

/-- `_BLOCK_RE.sub("", conf)`. -/
def removeSection (conf : Text) : Text := (subn blockMatcher conf).1

/-- `"options]"`. -/
def optionsEnd : Text := ['o', 'p', 't', 'i', 'o', 'n', 's', ']']

/-- `\[(?!options\])[^\]]+\]` at the start of a text. -/
def sectionAt : Text → Bool
  | '[' :: y => !optionsEnd.isPrefixOf y && y.head? ≠ some ']' && y.contains ']'
  | _ => false

/-- The text before and from the first match of `^\[(?!options\])[^\]]+\]` on, at the start of a
line or not. -/
def searchSection : Bool → Text → Option (Text × Text)
  | _, [] => none
  | bol, c :: s =>
    if bol && sectionAt (c :: s) then some ([], c :: s)
    else (searchSection (c = '\n') s).map fun p => (c :: p.1, p.2)

/-- `conf.rstrip("\n")`. -/
def rstripNewlines (conf : Text) : Text := conf.rdropWhile fun c => c = '\n'

/-- `_with_section`. -/
def withSection (conf block : Text) : Text :=
  let conf := removeSection conf
  match searchSection true conf with
  | none => rstripNewlines conf ++ ['\n', '\n'] ++ block
  | some (before, behind) => before ++ block ++ '\n' :: behind

/-! ## Marks -/

section Marks

variable {conf a b s x y repoDir : Text} {prev : Option Char}

/-- The text has none of the marks. -/
structure Unmarked (conf : Text) : Prop where
  noBegin : ¬beginMark <:+: conf
  noEnd : ¬endMark <:+: conf

theorem notMem_beginTail : '#' ∉ beginTail ∧ '\n' ∉ beginTail := by decide

theorem notMem_endTail : '#' ∉ endTail ∧ '\n' ∉ endTail := by decide

theorem notMem_serverHead : '#' ∉ serverHead := by decide

/-- A text without one character of the pattern on either side of a place has the pattern on one of
its sides. -/
theorem infix_append {p : Text} {c : Char} (hc : c ∉ p) (hp : p ≠ []) :
    p <:+: x ++ c :: y ↔ p <:+: x ∨ p <:+: y := by
  constructor
  · intro h
    induction x with
    | nil =>
      obtain ⟨u, v, huv⟩ := h
      cases u with
      | nil =>
        obtain ⟨d, p, rfl⟩ := List.exists_cons_of_ne_nil hp
        rw [List.nil_append, List.cons_append] at huv
        exact absurd ((List.cons.inj huv).1 ▸ List.mem_cons_self) hc
      | cons d u => exact .inr ⟨u, v, (List.cons.inj huv).2⟩
    | cons d x ih =>
      obtain ⟨u, v, huv⟩ := h
      cases u with
      | nil =>
        -- an occurrence at the start ends before the character
        left
        rw [List.nil_append] at huv
        have hpre : p <+: d :: x ++ c :: y := ⟨v, huv⟩
        rcases List.prefix_or_prefix_of_prefix hpre (List.prefix_append (d :: x) (c :: y)) with
          h' | ⟨w, hw⟩
        · exact h'.isInfix
        · rw [← hw, List.prefix_append_right_inj] at hpre
          cases w with
          | nil => rw [← hw, List.append_nil]
          | cons e w =>
            obtain ⟨z, hz⟩ := hpre
            rw [(List.cons.inj hz).1] at hw
            exact absurd (hw ▸ List.mem_append_right _ List.mem_cons_self) hc
      | cons e u =>
        rcases ih ⟨u, v, (List.cons.inj huv).2⟩ with h | h
        · exact .inl (h.trans (List.suffix_cons d x).isInfix)
        · exact .inr h
  · rintro (h | h)
    · exact h.trans (List.prefix_append x (c :: y)).isInfix
    · exact h.trans ((List.suffix_cons c y).trans (List.suffix_append x (c :: y))).isInfix

theorem unmarked_append_newline :
    Unmarked (x ++ '\n' :: y) ↔ Unmarked x ∧ Unmarked y := by
  have hb : '\n' ∉ beginMark := fun h => (List.mem_cons.mp h).elim (by decide) notMem_beginTail.2
  have he : '\n' ∉ endMark := fun h => (List.mem_cons.mp h).elim (by decide) notMem_endTail.2
  constructor
  · intro h
    have hbegin := (infix_append hb (List.cons_ne_nil _ _)).not.mp h.noBegin
    have hend := (infix_append he (List.cons_ne_nil _ _)).not.mp h.noEnd
    rw [not_or] at hbegin hend
    exact ⟨⟨hbegin.1, hend.1⟩, hbegin.2, hend.2⟩
  · rintro ⟨hx, hy⟩
    refine ⟨(infix_append hb (List.cons_ne_nil _ _)).not.mpr ?_,
      (infix_append he (List.cons_ne_nil _ _)).not.mpr ?_⟩
    · exact not_or.mpr ⟨hx.noBegin, hy.noBegin⟩
    · exact not_or.mpr ⟨hx.noEnd, hy.noEnd⟩

/-- The mark is in the block exactly where it is in the directory. -/
theorem endMark_infix_interior : endMark <:+: interior repoDir ↔ endMark <:+: repoDir := by
  constructor
  · intro h
    have he : '\n' ∉ endMark := fun h => (List.mem_cons.mp h).elim (by decide) notMem_endTail.2
    rw [interior, infix_append he (List.cons_ne_nil _ _)] at h
    rcases h with ⟨u, v, huv⟩ | h
    · -- the mark begins in the directory, as the lines before it have no `#`
      have hlen : serverHead.length ≤ u.length := by
        by_contra hlt
        have hget : (u ++ endMark ++ v)[u.length]? = some '#' := by
          rw [List.append_assoc, List.getElem?_append_right le_rfl, Nat.sub_self]
          rfl
        rw [huv, List.getElem?_append_left (Nat.lt_of_not_le hlt)] at hget
        exact notMem_serverHead (List.mem_of_getElem? hget)
      have hdrop := congrArg (List.drop serverHead.length) huv
      rw [List.drop_left, List.append_assoc, List.drop_append_of_le_length hlen,
        ← List.append_assoc] at hdrop
      exact ⟨_, v, hdrop⟩
    · exact absurd h.length_le (by decide)
  · intro h
    exact (h.trans (List.suffix_append serverHead repoDir).isInfix).trans
      (List.prefix_append _ ['\n']).isInfix

end Marks

/-! ## Removing the block -/

section Removing

variable {conf a b s x y repoDir : Text} {prev : Option Char}

theorem blockMatcher_none (h : ¬beginMark <+: s) : blockMatcher prev s = none :=
  if_neg fun hp => h (List.isPrefixOf_iff_prefix.mp hp)

theorem blockMatcher_begin (y : Text) : blockMatcher prev (beginMark ++ y) =
    (behind endMark y).map fun rest => ([], afterNewline (afterNewline rest)) := by
  rw [blockMatcher, if_pos (List.isPrefixOf_iff_prefix.mpr (List.prefix_append _ _)), List.drop_left]

/-- Without the first mark nothing is removed. -/
theorem subnFrom_unmarked (h : ¬beginMark <:+: s) : subnFrom blockMatcher prev 0 s = (s, 0) := by
  refine subnFrom_of_none fun v w hv _ => blockMatcher_none fun hp => h ?_
  rw [hv]
  exact hp.isInfix.trans (List.suffix_append v w).isInfix

/-- A text without the first mark before the block is kept. -/
theorem subnFrom_before (h : ¬beginMark <:+: a) (y : Text) :
    subnFrom blockMatcher prev 0 (a ++ (beginMark ++ y)) =
      (a ++ (subnFrom blockMatcher (lastChar prev a) 0 (beginMark ++ y)).1,
        (subnFrom blockMatcher (lastChar prev a) 0 (beginMark ++ y)).2) := by
  refine subnFrom_append fun v w hv hw => blockMatcher_none fun hp => h ?_
  rw [hv]
  exact (prefix_of_append notMem_beginTail.1 hw hp).isInfix.trans (List.suffix_append v w).isInfix

theorem sectionText_append (repoDir b : Text) : sectionText repoDir ++ b =
    beginMark ++ (interior repoDir ++ (endMark ++ '\n' :: b)) := by
  rw [sectionText, List.append_assoc, List.append_assoc, List.append_assoc]
  rfl

/-- **A block goes out** with one blank line behind it, where its directory has no mark. -/
theorem subn_block (ha : ¬beginMark <:+: a) (hb : ¬beginMark <:+: b) (hd : ¬endMark <:+: repoDir) :
    subn blockMatcher (a ++ (sectionText repoDir ++ b)) = (a ++ afterNewline b, 1) := by
  have hinterior := endMark_infix_interior.not.mpr hd
  have hrest : ∃ u, sectionText repoDir ++ b = u ++ afterNewline b ∧ u ≠ [] := by
    have hne : ∀ v, sectionText repoDir ++ v ≠ [] := fun v => List.cons_ne_nil _ _
    unfold afterNewline
    split
    · next s => exact ⟨sectionText repoDir ++ ['\n'], (List.append_cons _ _ _), hne _⟩
    · exact ⟨sectionText repoDir, rfl, List.cons_ne_nil _ _⟩
  obtain ⟨u, hu, hne⟩ := hrest
  have hmatch : ∀ prev, blockMatcher prev (u ++ afterNewline b) = some ([], afterNewline b) := by
    intro prev
    rw [← hu, sectionText_append, blockMatcher_begin, endMark,
      behind_append notMem_endTail.1 hinterior]
    rfl
  have hrest : ¬beginMark <:+: afterNewline b := by
    unfold afterNewline
    split
    · next s => exact fun h => hb (h.trans (List.suffix_cons '\n' s).isInfix)
    · exact hb
  rw [subn, sectionText_append, subnFrom_before ha, ← sectionText_append, hu,
    subnFrom_match hne (hmatch _), subnFrom_unmarked hrest]
  rfl

theorem removeSection_unmarked (h : Unmarked conf) : removeSection conf = conf := by
  rw [removeSection, subn, subnFrom_unmarked h.noBegin]

theorem afterNewline_isInfix (h : endMark <:+: s) : endMark <:+: afterNewline s := by
  unfold afterNewline
  split
  · next s =>
    obtain ⟨u, v, huv⟩ := h
    cases u with
    | nil => exact absurd (List.cons.inj huv).1 (by decide)
    | cons c u => exact ⟨u, v, (List.cons.inj huv).2⟩
  · exact h

/-- A block whose directory has the mark leaves the mark behind. -/
theorem subn_marked (ha : ¬beginMark <:+: a) (hd : endMark <:+: repoDir) (b : Text)
    (hone : (subn blockMatcher (a ++ (sectionText repoDir ++ b))).2 = 1) :
    endMark <:+: removeSection (a ++ (sectionText repoDir ++ b)) := by
  obtain ⟨x, y, hxy⟩ := endMark_infix_interior.mpr hd
  have hshape : sectionText repoDir ++ b =
      beginMark ++ (x ++ (endMark ++ (y ++ (endMark ++ '\n' :: b)))) := by
    rw [sectionText_append, ← hxy, List.append_assoc, List.append_assoc]
  obtain ⟨rest, z, hbehind, hz⟩ := @behind_of_isInfix endMark (List.cons_ne_nil '#' endTail) x
    (y ++ (endMark ++ '\n' :: b))
  have hmark : endMark <:+: rest := by
    rw [hz, ← List.append_assoc]
    exact ⟨z ++ y, '\n' :: b, List.append_assoc _ _ _⟩
  have hleft := afterNewline_isInfix (afterNewline_isInfix hmark)
  obtain ⟨w, hw⟩ := behind_eq_some hbehind
  have hsplit : ∃ u, rest = u ++ afterNewline (afterNewline rest) := by
    have hone : ∀ s : Text, ∃ u, s = u ++ afterNewline s := by
      intro s
      unfold afterNewline
      split
      · exact ⟨['\n'], rfl⟩
      · exact ⟨[], rfl⟩
    obtain ⟨u, hu⟩ := hone rest
    obtain ⟨v, hv⟩ := hone (afterNewline rest)
    exact ⟨u ++ v, by rw [List.append_assoc, ← hv, ← hu]⟩
  obtain ⟨v, hv⟩ := hsplit
  have htext : sectionText repoDir ++ b =
      (beginMark ++ (w ++ (endMark ++ v))) ++ afterNewline (afterNewline rest) := by
    rw [hshape, hw, List.append_assoc, List.append_assoc, List.append_assoc, ← hv]
  have hmatch : ∀ prev, blockMatcher prev ((beginMark ++ (w ++ (endMark ++ v))) ++
      afterNewline (afterNewline rest)) = some ([], afterNewline (afterNewline rest)) := by
    intro prev
    rw [← htext, hshape, blockMatcher_begin, hbehind]
    rfl
  have hne : beginMark ++ (w ++ (endMark ++ v)) ≠ [] := List.append_ne_nil_of_left_ne_nil
    (List.cons_ne_nil '#' beginTail) (w ++ (endMark ++ v))
  have hscan := @subnFrom_before a none ha (interior repoDir ++ (endMark ++ '\n' :: b))
  rw [← sectionText_append, htext, subnFrom_match hne (hmatch _)] at hscan
  rw [removeSection, subn, htext]
  rw [subn, htext, hscan] at hone
  rw [hscan]
  dsimp only at hone ⊢
  rw [subnFrom_of_count (Nat.succ.inj hone), List.nil_append]
  exact hleft.trans (List.suffix_append a _).isInfix

theorem subn_sectionText (ha : ¬beginMark <:+: a) (hb : ¬beginMark <:+: b)
    (hd : ¬endMark <:+: repoDir) :
    removeSection (a ++ (sectionText repoDir ++ b)) = a ++ afterNewline b := by
  rw [removeSection, subn_block ha hb hd]

/-- A block begins at one place only. -/
theorem eq_of_append_sectionText {a' b' : Text} (ha : ¬beginMark <:+: a) (ha' : ¬beginMark <:+: a')
    (h : a ++ (sectionText repoDir ++ b) = a' ++ (sectionText repoDir ++ b')) : a = a' ∧ b = b' := by
  have hshort : ∀ {x x' y y' : Text}, ¬beginMark <:+: x' →
      x ++ (sectionText repoDir ++ y) = x' ++ (sectionText repoDir ++ y') →
      x.length ≤ x'.length → x = x' := by
    intro x x' y y' hx' heq hle
    obtain ⟨v, rfl⟩ := List.prefix_of_prefix_length_le (List.prefix_append x _)
      (heq ▸ List.prefix_append x' _) hle
    rw [List.append_assoc, List.append_cancel_left_eq] at heq
    by_cases hv : v = []
    · rw [hv, List.append_nil]
    · rw [sectionText_append, sectionText_append] at heq
      have hpre : beginMark <+: v ++ (beginMark ++ (interior repoDir ++ (endMark ++ '\n' :: y'))) :=
        ⟨_, heq⟩
      exact absurd ((prefix_of_append notMem_beginTail.1 hv hpre).isInfix.trans
        (List.suffix_append x v).isInfix) hx'
  have haa : a = a' := by
    rcases Nat.le_total a.length a'.length with hle | hle
    · exact hshort ha' h hle
    · exact (hshort ha h.symm hle).symm
  rw [haa, List.append_cancel_left_eq, List.append_cancel_left_eq] at h
  exact ⟨haa, h⟩

end Removing

/-! ## The first section -/

section Searching

variable {bol : Bool} {before post s : Text}

/-- The section begins a line. -/
theorem searchSection_some (h : searchSection bol s = some (before, post)) :
    s = before ++ post ∧ (∀ c ∈ before.getLast?, c = '\n') ∧ (bol = false → before ≠ []) := by
  induction s generalizing bol before with
  | nil => cases h
  | cons c s ih =>
    rw [searchSection] at h
    split_ifs at h with hbol
    · obtain ⟨rfl, rfl⟩ := Prod.mk.inj (Option.some.inj h)
      refine ⟨rfl, fun c hc => absurd hc (Option.not_mem_none c), fun hfalse => ?_⟩
      rw [hfalse] at hbol
      cases hbol
    · obtain ⟨p, hp, heq⟩ := Option.map_eq_some_iff.mp h
      obtain ⟨rfl, rfl⟩ := Prod.mk.inj heq
      obtain ⟨hs, hlast, hne⟩ := ih hp
      refine ⟨congrArg _ hs, ?_, fun _ => List.cons_ne_nil c p.1⟩
      cases hfront : p.1 with
      | nil =>
        intro d hd
        by_contra hdc
        have hcd : c = d := Option.some.inj hd
        exact hne (decide_eq_false (hcd ▸ hdc)) hfront
      | cons d front =>
        rw [List.getLast?_cons_cons, ← hfront]
        exact hlast

/-- Newlines at the end of a text begin no section. -/
theorem sectionAt_append_newlines (s : Text) (k : ℕ) :
    sectionAt (s ++ List.replicate k '\n') = sectionAt s := by
  have hmem : ∀ {c : Char}, c ≠ '\n' → c ∉ List.replicate k '\n' :=
    fun hc h => hc (List.eq_of_mem_replicate h)
  cases s with
  | nil =>
    cases k with
    | zero => rfl
    | succ k => rfl
  | cons c y =>
    by_cases hc : c = '['
    · have hopt : optionsEnd.isPrefixOf (y ++ List.replicate k '\n') = optionsEnd.isPrefixOf y := by
        rw [Bool.eq_iff_iff, List.isPrefixOf_iff_prefix, List.isPrefixOf_iff_prefix]
        refine ⟨fun h => ?_, fun h => h.trans (List.prefix_append y _)⟩
        rcases List.prefix_or_prefix_of_prefix h (List.prefix_append y _) with h' | ⟨v, hv⟩
        · exact h'
        · rw [← hv, List.prefix_append_right_inj] at h
          cases v with
          | nil => rw [← hv, List.append_nil]
          | cons d v =>
            have hd : d ∈ optionsEnd := hv ▸ List.mem_append_right y List.mem_cons_self
            rw [List.eq_of_mem_replicate (h.subset List.mem_cons_self)] at hd
            exact absurd hd (by decide)
      have hcont : (y ++ List.replicate k '\n').contains ']' = y.contains ']' := by
        rw [Bool.eq_iff_iff, List.contains_iff_mem, List.contains_iff_mem, List.mem_append,
          or_iff_left (hmem (by decide))]
      rw [hc, List.cons_append, sectionAt, sectionAt, hopt, hcont]
      cases y with
      | nil => simp
      | cons d y => rfl
    · rw [List.cons_append, sectionAt, sectionAt]
      · exact fun z hz => hc (List.cons.inj hz).1
      · exact fun z hz => hc (List.cons.inj hz).1

theorem searchSection_append_newlines (bol : Bool) (s : Text) (k : ℕ) :
    searchSection bol (s ++ List.replicate k '\n') = none ↔ searchSection bol s = none := by
  induction s generalizing bol with
  | nil =>
    refine iff_of_true ?_ rfl
    rw [List.nil_append]
    induction k generalizing bol with
    | zero => rfl
    | succ k ih =>
      rw [List.replicate_succ, searchSection, ih]
      cases bol <;> rfl
  | cons c s ih =>
    have hsection := sectionAt_append_newlines (c :: s) k
    rw [List.cons_append] at hsection
    rw [List.cons_append, searchSection, searchSection, hsection]
    split_ifs
    · exact Iff.rfl
    · rw [Option.map_eq_none_iff, Option.map_eq_none_iff]
      exact ih _

theorem rstripNewlines_append (s : Text) :
    ∃ k, s = rstripNewlines s ++ List.replicate k '\n' := by
  have hall : ∀ c ∈ s.rtakeWhile (fun c => c = '\n'), c = '\n' := by
    intro c hc
    have htrue := List.mem_rtakeWhile_imp hc
    exact of_decide_eq_true htrue
  refine ⟨(s.rtakeWhile fun c => c = '\n').length, ?_⟩
  rw [← List.eq_replicate_of_mem hall]
  exact List.rdropWhile_append_rtakeWhile.symm

theorem rstripNewlines_idem (s : Text) :
    rstripNewlines (rstripNewlines s ++ ['\n', '\n']) = rstripNewlines s := by
  rw [rstripNewlines, List.append_cons, List.rdropWhile_concat_pos _ _ _ rfl,
    List.rdropWhile_concat_pos _ _ _ rfl]
  exact List.rdropWhile_idempotent _ s

end Searching

/-! ## Inserting the block -/

section Inserting

variable {conf a b before post repoDir : Text}

/-- pacman takes the line for the header of a repository. -/
def RepoHeader (l : Text) : Prop :=
  (strip l).head? = some '[' ∧ (strip l).getLast? = some ']' ∧ 2 < (strip l).length ∧
    strip l ≠ '[' :: optionsEnd

instance (l : Text) : Decidable (RepoHeader l) := inferInstanceAs (Decidable (_ ∧ _ ∧ _ ∧ _))

/-- pacman takes the line for the header of the options. -/
def OptionsHeader (l : Text) : Prop := strip l = '[' :: optionsEnd

instance (l : Text) : Decidable (OptionsHeader l) := inferInstanceAs (Decidable (_ = _))

/-- The block is the only one in the text, before the sections of the repositories and after the one
of the options, and all other lines are kept. Whatever directory the block names next, it takes the
place of this one, the same one any number of times, and removing it restores the text. -/
def Inserted (conf repoDir : Text) : Prop :=
  let inserted := withSection conf (sectionText repoDir)
  ∃ a b, inserted = a ++ (sectionText repoDir ++ b) ∧ Unmarked a ∧ Unmarked b ∧
    (subn blockMatcher inserted).2 = 1 ∧
    (∀ l ∈ newlineLines a, ¬RepoHeader l) ∧ (∀ l ∈ newlineLines b, ¬OptionsHeader l) ∧
    (newlineLines a ++ newlineLines b).filter (fun l => !l.isEmpty) =
      (newlineLines conf).filter (fun l => !l.isEmpty) ∧
    (∀ repoDir', withSection inserted (sectionText repoDir') = a ++ (sectionText repoDir' ++ b)) ∧
    (∀ n, (fun c => withSection c (sectionText repoDir))^[n + 1] conf = inserted) ∧
    removeSection inserted = conf

/-- The directory does not have the mark that ends the block. Before the first line that begins like
a section other than the options no repository has its section, and from it on the options have
none. Without such a line no repository has a section, and the text ends with one blank line. -/
def Insertable (conf repoDir : Text) : Prop :=
  ¬endMark <:+: repoDir ∧
    match searchSection true conf with
    | some (before, post) =>
      (∀ l ∈ newlineLines before, ¬RepoHeader l) ∧ ∀ l ∈ newlineLines post, ¬OptionsHeader l
    | none =>
      (∀ l ∈ newlineLines conf, ¬RepoHeader l) ∧ conf = rstripNewlines conf ++ ['\n', '\n']

theorem Unmarked.nil : Unmarked [] :=
  ⟨fun h => absurd h.length_le (by decide), fun h => absurd h.length_le (by decide)⟩

theorem Unmarked.left (h : Unmarked (a ++ b)) : Unmarked a :=
  ⟨fun hb => h.noBegin (hb.trans (List.prefix_append a b).isInfix),
    fun he => h.noEnd (he.trans (List.prefix_append a b).isInfix)⟩

theorem Unmarked.right (h : Unmarked (a ++ b)) : Unmarked b :=
  ⟨fun hb => h.noBegin (hb.trans (List.suffix_append a b).isInfix),
    fun he => h.noEnd (he.trans (List.suffix_append a b).isInfix)⟩

theorem Unmarked.newline (h : Unmarked b) : Unmarked ('\n' :: b) :=
  (unmarked_append_newline (x := [])).mpr ⟨.nil, h⟩

theorem Unmarked.blankLine (h : Unmarked conf) : Unmarked (rstripNewlines conf ++ ['\n', '\n']) := by
  obtain ⟨k, hk⟩ := rstripNewlines_append conf
  rw [hk] at h
  exact unmarked_append_newline.mpr ⟨h.left, Unmarked.newline .nil⟩

/-- Where the block goes, and what stands around it. -/
theorem withSection_eq (h : Unmarked conf) (block : Text) :
    withSection conf block = match searchSection true conf with
      | none => rstripNewlines conf ++ ['\n', '\n'] ++ (block ++ [])
      | some (before, post) => before ++ (block ++ '\n' :: post) := by
  unfold withSection
  dsimp only
  rw [removeSection_unmarked h]
  cases searchSection true conf with
  | none => rw [List.append_nil]
  | some p => exact List.append_assoc _ _ _

/-- **The next block takes the place of this one**, whatever its directory. -/
theorem withSection_withSection (h : Unmarked conf) (hd : ¬endMark <:+: repoDir) (block : Text) :
    withSection (withSection conf (sectionText repoDir)) block = withSection conf block := by
  rw [withSection_eq h, withSection_eq h]
  cases hsearch : searchSection true conf with
  | none =>
    have hblank := h.blankLine
    dsimp only
    unfold withSection
    dsimp only
    rw [subn_sectionText hblank.noBegin Unmarked.nil.noBegin hd]
    have hnone : searchSection true (rstripNewlines conf ++ ['\n', '\n']) = none := by
      obtain ⟨k, hk⟩ := rstripNewlines_append conf
      rw [hk, searchSection_append_newlines] at hsearch
      exact (searchSection_append_newlines true (rstripNewlines conf) 2).mpr hsearch
    rw [show afterNewline [] = [] from rfl, List.append_nil, hnone]
    dsimp only
    rw [rstripNewlines_idem, List.append_nil]
  | some p =>
    have hconf := (searchSection_some hsearch).1
    have hsplit := hconf ▸ h
    dsimp only
    unfold withSection
    dsimp only
    rw [subn_sectionText hsplit.left.noBegin hsplit.right.newline.noBegin hd, afterNewline, ← hconf,
      hsearch]
    exact List.append_assoc _ _ _

theorem Inserted.of_parts (h : Unmarked conf) (hd : ¬endMark <:+: repoDir) (ha : Unmarked a)
    (hb : Unmarked b) (hshape : ∀ block, withSection conf block = a ++ (block ++ b))
    (hback : a ++ afterNewline b = conf) (hrepo : ∀ l ∈ newlineLines a, ¬RepoHeader l)
    (hopt : ∀ l ∈ newlineLines b, ¬OptionsHeader l)
    (hlines : (newlineLines a ++ newlineLines b).filter (fun l => !l.isEmpty) =
      (newlineLines conf).filter fun l => !l.isEmpty) : Inserted conf repoDir := by
  have hnext := withSection_withSection h hd
  refine ⟨a, b, hshape _, ha, hb, ?_, hrepo, hopt, hlines, fun repoDir' => ?_, fun n => ?_, ?_⟩
  · rw [hshape, subn_block ha.noBegin hb.noBegin hd]
  · rw [hnext, hshape]
  · rw [Function.iterate_succ_apply]
    exact Function.iterate_fixed (hnext _) n
  · rw [hshape, subn_sectionText ha.noBegin hb.noBegin hd, hback]

/-- **The block is inserted and removed cleanly** exactly under the condition. -/
theorem inserted_iff (h : Unmarked conf) : Inserted conf repoDir ↔ Insertable conf repoDir := by
  constructor
  · rintro ⟨a, b, heq, ha, hb, hone, hrepo, hopt, -, -, -, hback⟩
    rw [heq] at hone hback
    have hd : ¬endMark <:+: repoDir := fun hd => h.noEnd (hback ▸ subn_marked ha.noBegin hd b hone)
    rw [subn_sectionText ha.noBegin hb.noBegin hd] at hback
    rw [withSection_eq h] at heq
    refine ⟨hd, ?_⟩
    cases hsearch : searchSection true conf with
    | none =>
      rw [hsearch] at heq
      obtain ⟨rfl, rfl⟩ := eq_of_append_sectionText h.blankLine.noBegin ha.noBegin heq
      rw [show afterNewline [] = [] from rfl, List.append_nil] at hback
      rw [hback] at hrepo
      exact ⟨hrepo, hback.symm⟩
    | some p =>
      rw [hsearch] at heq
      have hsplit := (searchSection_some hsearch).1 ▸ h
      obtain ⟨rfl, rfl⟩ := eq_of_append_sectionText hsplit.left.noBegin ha.noBegin heq
      exact ⟨hrepo, fun l hl => hopt l (List.mem_cons_of_mem _ hl)⟩
  · rintro ⟨hd, hplace⟩
    have hshape := withSection_eq h
    cases hsearch : searchSection true conf with
    | none =>
      rw [hsearch] at hplace hshape
      obtain ⟨hrepo, hblank⟩ := hplace
      dsimp only at hshape
      rw [← hblank] at hshape
      refine .of_parts h hd h .nil hshape (List.append_nil conf) hrepo (fun l hl => ?_) ?_
      · exact absurd hl List.not_mem_nil
      · rw [show newlineLines [] = [] from rfl, List.append_nil]
    | some p =>
      rw [hsearch] at hplace hshape
      obtain ⟨hrepo, hopt⟩ := hplace
      obtain ⟨hconf, hended, -⟩ := searchSection_some hsearch
      have hsplit := hconf ▸ h
      have hblank : newlineLines ('\n' :: p.2) = [] :: newlineLines p.2 := linesBy_end rfl
      refine .of_parts h hd hsplit.left hsplit.right.newline hshape hconf.symm hrepo ?_ ?_
      · rw [hblank]
        refine List.forall_mem_cons.mpr ⟨fun hheader => ?_, hopt⟩
        exact absurd hheader (List.cons_ne_nil '[' optionsEnd).symm
      · have hlines : newlineLines conf = newlineLines p.1 ++ newlineLines p.2 := by
          rw [hconf]
          exact linesBy_append_ended fun c hc => decide_eq_true (hended c hc)
        rw [hblank, hlines, List.filter_append, List.filter_append]
        rfl

/-- `[core]` and its end of line. -/
def coreSection : Text := ['[', 'c', 'o', 'r', 'e', ']', '\n']

/-- The block goes before `[core]`. -/
theorem inserted_core :
    Inserted ('[' :: optionsEnd ++ '\n' :: coreSection) ['/', 's'] := by
  have hsearch : searchSection true ('[' :: optionsEnd ++ '\n' :: coreSection) =
      some ('[' :: optionsEnd ++ ['\n'], coreSection) := by decide
  refine (inserted_iff ?_).mpr ⟨fun h => absurd h.length_le (by decide), ?_⟩
  · exact ⟨fun h => absurd h.length_le (by decide), fun h => absurd h.length_le (by decide)⟩
  · rw [hsearch]
    constructor
    · decide
    · decide

/-- A text without a repository and with one newline at its end comes back with two. -/
theorem not_inserted : ¬∀ conf repoDir : Text, Unmarked conf → Inserted conf repoDir := by
  intro h
  have hconf : Unmarked ('[' :: optionsEnd ++ ['\n']) :=
    ⟨fun h => absurd h.length_le (by decide), fun h => absurd h.length_le (by decide)⟩
  have hd : ¬endMark <:+: ['/', 's'] := fun h => absurd h.length_le (by decide)
  have hsearch : searchSection true ('[' :: optionsEnd ++ ['\n']) = none := by decide
  obtain ⟨a, b, -, -, -, -, -, -, -, -, -, hback⟩ := h _ ['/', 's'] hconf
  rw [withSection_eq hconf, hsearch] at hback
  have hblank := hconf.blankLine.noBegin
  rw [subn_sectionText hblank Unmarked.nil.noBegin hd] at hback
  exact absurd hback (by decide)

end Inserting

end Sysforge.LocalRepo
