import Sysforge.Setup.IgnoreGroup

/-!
# The lines of a `pacman.conf`

What an active `IgnoreGroup` line looks like, what the patch and the removal make of one, and in
which section a line stands.
-/

namespace Sysforge.Setup

open Text

/-! ## Active lines -/

section Active

variable {k l r s t u v w : Text} {c p : Char}

theorem toNat_of_isSpace (h : isSpace c = true) : c.toNat ≤ 0x20 ∨ c.toNat = 0x85 ∨ c.toNat = 0xa0 ∨
    0x1680 ≤ c.toNat := by
  rw [isSpace, Bool.or_eq_true, Bool.and_eq_true] at h
  rcases h with h | ⟨h, -⟩
  · have hmem := of_decide_eq_true h
    simp only [List.mem_cons, List.not_mem_nil, or_false] at hmem
    omega
  · have hle := of_decide_eq_true h
    omega

theorem isSpace_of_isBlank (h : isBlank c = true) : isSpace c = true := by
  rw [isBlank, Bool.or_eq_true] at h
  rcases h with h | h
  · rw [of_decide_eq_true h]
    decide
  · rw [of_decide_eq_true h]
    decide

/-- A letter of the key, in one of its cases. -/
theorem toNat_of_sameLetter (hp : p ∈ ignoreGroupWord) (h : sameLetter p c = true) :
    65 ≤ c.toNat ∧ c.toNat ≤ 122 ∨ c.toNat = 0x130 ∨ c.toNat = 0x131 ∨ c.toNat = 0x17f := by
  have hrange : 97 ≤ p.toNat ∧ p.toNat ≤ 122 := by
    have hall : ignoreGroupWord.all (fun p => 97 ≤ p.toNat && p.toNat ≤ 122) = true := by decide
    have hp := List.all_eq_true.mp hall p hp
    rw [Bool.and_eq_true] at hp
    exact ⟨of_decide_eq_true hp.1, of_decide_eq_true hp.2⟩
  rw [sameLetter, Bool.or_eq_true, Bool.or_eq_true, Bool.or_eq_true, Bool.and_eq_true,
    Bool.and_eq_true, Bool.or_eq_true] at h
  rcases h with ((h | h) | ⟨-, h | h⟩) | ⟨-, h⟩
  · rw [of_decide_eq_true h]
    omega
  · have heq := of_decide_eq_true h
    omega
  · rw [of_decide_eq_true h]
    decide
  · rw [of_decide_eq_true h]
    decide
  · rw [of_decide_eq_true h]
    decide

theorem dropWord_eq_some {word : Text} (h : dropWord word s = some t) :
    ∃ u, s = u ++ t ∧ u.length = word.length ∧ ∀ c ∈ u, ∃ p ∈ word, sameLetter p c = true := by
  induction word generalizing s with
  | nil => exact ⟨[], Option.some.inj h, rfl, List.forall_mem_nil _⟩
  | cons p word ih =>
    cases s with
    | nil => cases h
    | cons c s =>
      rw [dropWord] at h
      split_ifs at h with hc
      obtain ⟨u, rfl, hlen, hu⟩ := ih h
      refine ⟨c :: u, rfl, congrArg Nat.succ hlen, List.forall_mem_cons.mpr ⟨?_, fun d hd => ?_⟩⟩
      · exact ⟨p, List.mem_cons_self, hc⟩
      · obtain ⟨q, hq, hqd⟩ := hu d hd
        exact ⟨q, List.mem_cons_of_mem p hq, hqd⟩

/-- A key: blanks, the word and blanks. -/
theorem isKey_shape (h : isKey k = true) : ∃ b u t, k = b ++ (u ++ t) ∧
    (∀ c ∈ b, isBlank c = true) ∧ u.length = 11 ∧ (∀ c ∈ u, ∃ p ∈ ignoreGroupWord, sameLetter p c = true) ∧
    ∀ c ∈ t, isBlank c = true := by
  rw [isKey] at h
  split at h
  · next t ht =>
    obtain ⟨u, hu, hlen, hchars⟩ := dropWord_eq_some ht
    refine ⟨k.takeWhile isBlank, u, t, ?_, fun c hc => List.mem_takeWhile_imp hc, hlen, hchars,
      List.all_eq_true.mp h⟩
    rw [← hu, List.takeWhile_append_dropWhile]
  · cases h

theorem isKey_chars (h : isKey k = true) (hc : c ∈ k) :
    isBlank c = true ∨ ∃ p ∈ ignoreGroupWord, sameLetter p c = true := by
  obtain ⟨b, u, t, rfl, hb, -, hu, ht⟩ := isKey_shape h
  rcases List.mem_append.mp hc with hc | hc
  · exact .inl (hb c hc)
  · rcases List.mem_append.mp hc with hc | hc
    · exact .inr (hu c hc)
    · exact .inl (ht c hc)

/-- A character that neither is a blank nor a letter of the key. -/
theorem notMem_key (hblank : isBlank c = false)
    (hletter : ignoreGroupWord.all (fun p => !sameLetter p c) = true) (h : isKey k = true) :
    c ∉ k := by
  intro hc
  rcases isKey_chars h hc with hb | ⟨p, hp, hpc⟩
  · exact absurd (hblank.symm.trans hb) (by decide)
  · have hnot := List.all_eq_true.mp hletter p hp
    rw [hpc] at hnot
    cases hnot

theorem takeWhile_eq (hk : '=' ∉ k) : (k ++ '=' :: r).takeWhile (fun c => c ≠ '=') = k := by
  have hall : ∀ c ∈ k, (fun c : Char => decide (c ≠ '=')) c = true := fun c hc =>
    decide_eq_true fun h => hk (h ▸ hc)
  rw [List.takeWhile_append_of_pos hall, List.takeWhile_cons_of_neg (by decide), List.append_nil]

theorem afterEq_eq (hk : '=' ∉ k) : afterEq (k ++ '=' :: r) = r := by
  have hall : ∀ c ∈ k, (fun c : Char => decide (c ≠ '=')) c = true := fun c hc =>
    decide_eq_true fun h => hk (h ▸ hc)
  rw [afterEq, List.dropWhile_append_of_pos hall, List.dropWhile_cons_of_neg (by decide),
    List.tail_cons]

/-- A line with a key, an equals sign and something behind. -/
structure IsActive (l k r : Text) : Prop where
  eq : l = k ++ '=' :: r
  key : isKey k = true
  ne_nil : r ≠ []

theorem IsActive.notMem (h : IsActive l k r) : '=' ∉ k := notMem_key (by decide) (by decide) h.key

theorem valueOf_eq (h : IsActive l k r) :
    ∃ b v, r = b ++ v ∧ v ≠ [] ∧ (∀ c ∈ b, isBlank c = true) ∧ valueOf l = some v := by
  have hk := h.notMem
  have hval : valueOf l = some (if r.dropWhile isBlank ≠ [] then r.dropWhile isBlank
      else r.drop (r.length - 1)) := by
    rw [valueOf, h.eq, takeWhile_eq hk, afterEq_eq hk, if_pos ⟨h.key, h.ne_nil⟩]
  by_cases hr : r.dropWhile isBlank ≠ []
  · rw [if_pos hr] at hval
    exact ⟨r.takeWhile isBlank, _, List.takeWhile_append_dropWhile.symm, hr,
      fun c hc => List.mem_takeWhile_imp hc, hval⟩
  · rw [if_neg hr] at hval
    have hall := List.dropWhile_eq_nil_iff.mp (not_not.mp hr)
    refine ⟨r.take (r.length - 1), _, (List.take_append_drop _ r).symm, fun hnil => ?_,
      fun c hc => hall c (List.mem_of_mem_take hc), hval⟩
    have hlen := List.length_pos_iff.mpr h.ne_nil
    rw [List.drop_eq_nil_iff] at hnil
    omega

theorem isActive_of_valueOf (h : valueOf l = some v) : ∃ k r, IsActive l k r := by
  by_cases hactive : isKey (l.takeWhile fun c => c ≠ '=') ∧ afterEq l ≠ []
  · refine ⟨l.takeWhile fun c => c ≠ '=', afterEq l, ?_, hactive.1, hactive.2⟩
    have hne : (l.dropWhile fun c => c ≠ '=') ≠ [] := by
      intro hnil
      refine hactive.2 ?_
      rw [afterEq, hnil]
      rfl
    obtain ⟨c, rest, hrest⟩ := List.exists_cons_of_ne_nil hne
    have hc : c = '=' := by
      have hhead := List.head?_dropWhile_not (fun c : Char => decide (c ≠ '=')) l
      rw [hrest] at hhead
      exact Decidable.not_not.mp (of_decide_eq_false hhead)
    have hsplit : l = l.takeWhile (fun c => c ≠ '=') ++ l.dropWhile fun c => c ≠ '=' :=
      List.takeWhile_append_dropWhile.symm
    have heq : '=' :: afterEq l = l.dropWhile fun c => c ≠ '=' := by
      rw [afterEq, hrest, List.tail_cons, hc]
    rw [heq]
    exact hsplit
  · rw [valueOf, if_neg hactive] at h
    cases h

theorem valueOf_eq_none : valueOf l = none ↔ ∀ k r, ¬IsActive l k r := by
  constructor
  · intro h k r hactive
    obtain ⟨b, v, -, -, -, hv⟩ := valueOf_eq hactive
    rw [h] at hv
    cases hv
  · intro h
    cases hv : valueOf l with
    | none => rfl
    | some v =>
      obtain ⟨k, r, hactive⟩ := isActive_of_valueOf hv
      exact absurd hactive (h k r)

end Active

/-! ## What the patch and the removal make of a line -/

section Edits

variable {k l r s t u v w : Text} {c : Char}

/-- The groups of a line are the words behind its equals sign. -/
theorem groupsOf_eq (h : IsActive l k r) : groupsOf l = words r := by
  obtain ⟨b, v, rfl, -, hb, hv⟩ := valueOf_eq h
  rw [groupsOf, hv, words_append_space fun c hc => isSpace_of_isBlank (hb c hc)]
  rfl

theorem rstrip_append_cons (hc : isSpace c = false) (s t : Text) :
    rstrip (s ++ c :: t) = s ++ c :: rstrip t := by
  have hdrop : ∀ x y : Text, (x ++ c :: y).dropWhile isSpace =
      if x.dropWhile isSpace = [] then c :: y else x.dropWhile isSpace ++ c :: y := by
    intro x y
    rw [List.dropWhile_append]
    by_cases hx : x.dropWhile isSpace = []
    · rw [if_pos hx, hx, List.isEmpty_nil, if_pos rfl,
        List.dropWhile_cons_of_neg (by rw [hc]; decide)]
    · rw [if_neg hx, List.isEmpty_eq_false_iff.mpr hx, if_neg (by decide)]
  have hrev : (s ++ c :: t).reverse = t.reverse ++ c :: s.reverse := by
    rw [List.reverse_append, List.reverse_cons, List.append_assoc, List.singleton_append]
  rw [rstrip, rstrip, List.rdropWhile, List.rdropWhile, hrev, hdrop]
  by_cases ht : t.reverse.dropWhile isSpace = []
  · rw [if_pos ht, ht, List.reverse_cons, List.reverse_reverse]
    rfl
  · rw [if_neg ht, List.reverse_append, List.reverse_cons, List.reverse_reverse, List.append_assoc,
      List.singleton_append]

theorem IsActive.patchedLine (h : IsActive l k r) :
    IsActive (patchedLine l) k (rstrip r ++ ' ' :: sfBuild) := by
  refine ⟨?_, h.key, ?_⟩
  · rw [Setup.patchedLine, h.eq, rstrip_append_cons (by decide), List.append_assoc,
      List.cons_append]
  · exact List.append_ne_nil_of_right_ne_nil _ (List.cons_ne_nil _ _)

theorem groupsOf_patchedLine (h : IsActive l k r) :
    groupsOf (patchedLine l) = groupsOf l ++ [sfBuild] := by
  rw [groupsOf_eq h.patchedLine, groupsOf_eq h, words_append_cons (by decide),
    show words (rstrip r) = words r from words_rdropWhile_space r]
  rfl

theorem dropLine_of_inactive (h : valueOf l = none) : dropLine l = l := by
  rw [dropLine, h]

theorem dropLine_of_active (h : valueOf l = some v) (hno : sfBuild ∉ groupsOf l) :
    dropLine l = if words v = [] then [marker] else replace v (unwords (words v)) l := by
  have hgroups : groupsOf l = words v := by
    rw [groupsOf, h]
    rfl
  have hkept : ((words v).filter fun g => g ≠ sfBuild) = words v :=
    List.filter_eq_self.mpr fun g hg =>
      decide_eq_true fun heq => hno (hgroups ▸ heq ▸ hg)
  rw [dropLine, h]
  dsimp only
  rw [hkept]

theorem IsActive.mem_inked (h : IsActive l k r) : '=' ∈ inked l := by
  rw [h.eq]
  exact List.mem_filter.mpr ⟨List.mem_append_right k List.mem_cons_self, by decide⟩

/-- The removal adds no ink to a line without the group. -/
theorem inked_dropLine_le (hno : sfBuild ∉ groupsOf l) :
    (inked (dropLine l)).length ≤ (inked l).length := by
  cases hv : valueOf l with
  | none => rw [dropLine_of_inactive hv]
  | some v =>
    obtain ⟨k, r, hactive⟩ := isActive_of_valueOf hv
    rw [dropLine_of_active hv hno]
    split_ifs with hw
    · exact List.length_pos_of_mem hactive.mem_inked
    · have hne : v ≠ [] := fun h => hw (by rw [h]; rfl)
      rw [inked_replace hne (inked_unwords_words v)]

/-- A line with the group added loses it again. Of a line that had no groups nothing is left. -/
theorem dropLine_patchedLine (h : IsActive l k r) (hno : sfBuild ∉ groupsOf l) :
    groupsOf l = [] ∧ dropLine (patchedLine l) = [marker] ∨ groupsOf l ≠ [] ∧ ∃ b,
      IsActive (dropLine (patchedLine l)) k (b ++ unwords (groupsOf l)) ∧
      inked (dropLine (patchedLine l)) = inked l := by
  have hpatched := h.patchedLine
  obtain ⟨b, v, hr, -, hb, hv⟩ := valueOf_eq hpatched
  have hgroups : words v = groupsOf l ++ [sfBuild] := by
    rw [← groupsOf_patchedLine h, groupsOf, hv]
    rfl
  have hkept : ((words v).filter fun g => g ≠ sfBuild) = groupsOf l := by
    have hself : ((groupsOf l).filter fun g => g ≠ sfBuild) = groupsOf l :=
      List.filter_eq_self.mpr fun g hg => decide_eq_true fun heq => hno (heq ▸ hg)
    rw [hgroups, List.filter_append, hself, List.filter_cons_of_neg (by decide), List.filter_nil,
      List.append_nil]
  have hdash : '-' ∈ b ++ v := by
    rw [← hr]
    exact List.mem_append_right _ (List.mem_cons_of_mem _ (by decide))
  have hbdash : '-' ∉ b := fun hmem => absurd (hb '-' hmem) (by decide)
  have hvdash : '-' ∈ v := (List.mem_append.mp hdash).resolve_left hbdash
  have hfront : '-' ∉ k ++ '=' :: b := by
    intro hmem
    rcases List.mem_append.mp hmem with hk | hk
    · exact notMem_key (by decide) (by decide) h.key hk
    · rcases List.mem_cons.mp hk with heq | hk
      · exact absurd heq (by decide)
      · exact hbdash hk
  have hline : patchedLine l = (k ++ '=' :: b) ++ v := by
    rw [hpatched.eq, hr, List.append_assoc, List.cons_append]
  have hdrop : dropLine (patchedLine l) = if groupsOf l = [] then [marker] else
      (k ++ '=' :: b) ++ unwords (groupsOf l) := by
    rw [dropLine, hv]
    dsimp only
    rw [hkept, hline, replace_append_of_mem hvdash hfront]
  by_cases hnil : groupsOf l = []
  · rw [if_pos hnil] at hdrop
    exact .inl ⟨hnil, hdrop⟩
  · rw [if_neg hnil, List.append_assoc, List.cons_append] at hdrop
    refine .inr ⟨hnil, b, ⟨hdrop, h.key, fun hempty => hnil ?_⟩, ?_⟩
    · have hun := (List.append_eq_nil_iff.mp hempty).2
      have hplain : ∀ w ∈ words r, w ≠ [] ∧ ∀ c ∈ w, isSpace c = false := fun w hw =>
        ⟨(mem_words hw).1, fun c hc => ((mem_words hw).2 c hc).1⟩
      rw [groupsOf_eq h] at hun ⊢
      rw [← words_unwords hplain, hun]
      rfl
    · have hbink : inked b = [] := inked_eq_nil.mpr fun c hc => isSpace_of_isBlank (hb c hc)
      rw [hdrop, groupsOf_eq h, h.eq, ← List.singleton_append, ← List.singleton_append (l := r),
        inked_append, inked_append, inked_append, inked_append, inked_append, hbink,
        inked_unwords_words, List.nil_append]

theorem exists_of_head_strip (h : (strip l).head? = some c) :
    ∃ s t, l = s ++ c :: t ∧ ∀ d ∈ s, isSpace d = true := by
  refine ⟨l.takeWhile isSpace, (l.dropWhile isSpace).tail, ?_,
    fun d hd => List.mem_takeWhile_imp hd⟩
  have hpre : strip l <+: l.dropWhile isSpace := List.rdropWhile_prefix isSpace _
  obtain ⟨rest, hrest⟩ := hpre
  obtain ⟨t, ht⟩ := List.head?_eq_some_iff.mp h
  have hcons : l.dropWhile isSpace = c :: (t ++ rest) := by
    rw [← hrest, ht]
    rfl
  rw [hcons, List.tail_cons, ← hcons, List.takeWhile_append_dropWhile]

/-- A line that opens with a bracket is not active. -/
theorem valueOf_bracket (hs : ∀ c ∈ s, isSpace c = true) : valueOf (s ++ '[' :: t) = none := by
  refine valueOf_eq_none.mpr fun k r h => ?_
  have hbracket : '[' ∉ k := notMem_key (by decide) (by decide) h.key
  have heq : '=' ∉ s := fun hmem => absurd (hs '=' hmem) (by decide)
  rcases List.append_eq_append_iff.mp h.eq with ⟨x, hk, hx⟩ | ⟨x, hk, hx⟩
  · cases x with
    | nil =>
      rw [List.nil_append] at hx
      exact absurd (List.cons.inj hx).1 (by decide)
    | cons d x =>
      rw [List.cons_append] at hx
      rw [hk, ← (List.cons.inj hx).1] at hbracket
      exact hbracket (List.mem_append_right s List.mem_cons_self)
  · cases x with
    | nil =>
      rw [List.nil_append] at hx
      exact absurd (List.cons.inj hx).1 (by decide)
    | cons d x =>
      rw [List.cons_append] at hx
      rw [hk, ← (List.cons.inj hx).1] at heq
      exact heq (List.mem_append_right k List.mem_cons_self)

theorem IsActive.head_strip_ne (h : IsActive l k r) : (strip l).head? ≠ some '[' := by
  intro hhead
  obtain ⟨s, t, hl, hs⟩ := exists_of_head_strip hhead
  have hnone := valueOf_bracket (t := t) hs
  rw [← hl, valueOf_eq_none] at hnone
  exact hnone k r h

theorem IsActive.isHeader (h : IsActive l k r) : isHeader l = false := by
  rw [Setup.isHeader, decide_eq_false h.head_strip_ne, Bool.false_and]

theorem IsActive.head_ne_marker (h : IsActive l k r) : l.head? ≠ some marker := by
  intro hhead
  have hkey := h.key
  have hmarker : marker ∉ k := notMem_key (by decide) (by decide) hkey
  cases k with
  | nil => cases hkey
  | cons c k =>
    rw [h.eq, List.cons_append, List.head?_cons] at hhead
    exact hmarker (Option.some.inj hhead ▸ List.mem_cons_self)

theorem IsActive.key_unique (h : IsActive l k r) (hs : '=' ∉ s) (hl : l = s ++ '=' :: t) :
    k = s := by
  rw [← takeWhile_eq (r := r) h.notMem, ← h.eq, hl, takeWhile_eq hs]

/-- A line that is not active is not made active by the patch of a part of it. -/
theorem valueOf_patched_part (h : IsActive l k r) (hnone : valueOf (u ++ (l ++ w)) = none) :
    valueOf (u ++ (patchedLine l ++ w)) = none := by
  rw [valueOf_eq_none] at hnone ⊢
  intro k' r' hactive
  by_cases hu : '=' ∈ u
  · obtain ⟨a, b, rfl, ha⟩ := List.eq_append_cons_of_mem hu
    have hkey : k' = a := hactive.key_unique ha (by rw [List.append_assoc, List.cons_append])
    refine hnone a (b ++ (l ++ w)) ⟨?_, hkey ▸ hactive.key, ?_⟩
    · rw [List.append_assoc, List.cons_append]
    · rw [h.eq]
      simp
  · have hkey : k' = u ++ k := by
      refine hactive.key_unique (t := rstrip r ++ ' ' :: sfBuild ++ w) (fun hmem => ?_) ?_
      · exact (List.mem_append.mp hmem).elim hu h.notMem
      · rw [h.patchedLine.eq, List.append_assoc, List.append_assoc, List.cons_append]
    refine hnone (u ++ k) (r ++ w) ⟨?_, hkey ▸ hactive.key, ?_⟩
    · rw [h.eq, List.append_assoc, List.append_assoc, List.cons_append]
    · exact List.append_ne_nil_of_left_ne_nil h.ne_nil w

/-- What the removal of a group from a line without it leaves as it is. -/
theorem words_eq_of_dropLine (hv : valueOf l = some v) (hno : sfBuild ∉ groupsOf l) :
    dropLine l = l ↔ unwords (words v) = v := by
  obtain ⟨k, r, hactive⟩ := isActive_of_valueOf hv
  obtain ⟨b, v', rfl, hne, -, hv'⟩ := valueOf_eq hactive
  obtain rfl : v' = v := Option.some.inj (hv'.symm.trans hv)
  rw [dropLine_of_active hv hno]
  constructor
  · intro hsame
    split_ifs at hsame with hw
    · exact absurd (congrArg List.head? hsame.symm) hactive.head_ne_marker
    · refine eq_of_replace_eq (k := k ++ '=' :: b) hne ?_
      rw [List.append_assoc, List.cons_append, ← hactive.eq]
      exact hsame
  · intro hun
    rw [if_neg, hun, replace_self hne]
    intro hw
    rw [hw] at hun
    exact hne hun.symm

end Edits

end Sysforge.Setup
