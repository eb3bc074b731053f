import Mathlib.Data.List.Dedup
import Sysforge.Git.SourceSync

/-!
# Reading git's output

What the two parsers of a working tree tell: a checkout without dirty paths has no tracked file that
differs, but for those that the parsers pass over on purpose, and a diff that is read as a bump of
`pkgver` has only lines of a bump, or lines that look like metadata.
-/

namespace Sysforge.Git

open Text

variable {c x y : Char} {p q z l : Text}

/-! ## Quoted paths -/

/-- A printable character of ASCII. -/
def IsPrint (c : Char) : Prop := 0x20 ≤ c.toNat ∧ c.toNat ≤ 0x7e

theorem IsPrint.not_lineBreak (h : IsPrint c) : isLineBreak c = false := by
  obtain ⟨hl, hu⟩ := h
  refine Bool.eq_false_of_not_eq_true fun hb => ?_
  have hmem := of_decide_eq_true hb
  simp only [List.mem_cons, List.not_mem_nil, or_false] at hmem
  omega

theorem isPrint_of_isPlain (h : isPlain c = true) : IsPrint c := by
  simp only [isPlain, Bool.and_eq_true, decide_eq_true_iff] at h
  exact ⟨by omega, by omega⟩

theorem not_space_of_isPlain (h : isPlain c = true) : isSpace c = false := by
  have hlow : 0x21 ≤ c.toNat ∧ c.toNat ≤ 0x7e := by
    simp only [isPlain, Bool.and_eq_true, decide_eq_true_iff] at h
    exact h.1.1
  refine Bool.eq_false_of_not_eq_true fun hs => ?_
  rw [isSpace, Bool.or_eq_true, decide_eq_true_iff, Bool.and_eq_true, decide_eq_true_iff,
    decide_eq_true_iff] at hs
  simp only [List.mem_cons, List.not_mem_nil, or_false] at hs
  omega

theorem isPrint_octalDigit (n : ℕ) : IsPrint (octalDigit n) := by
  have hdigit : ∀ i : Fin 8, 0x20 ≤ (Char.ofNat (0x30 + i)).toNat ∧
      (Char.ofNat (0x30 + i)).toNat ≤ 0x7e := by decide
  exact hdigit ⟨n % 8, Nat.mod_lt _ (by decide)⟩

theorem isPrint_octal {b : UInt8} (h : c ∈ octal b) : IsPrint c := by
  simp only [octal, List.mem_cons, List.not_mem_nil, or_false] at h
  rcases h with rfl | rfl | rfl | rfl
  · exact ⟨by decide, by decide⟩
  · exact isPrint_octalDigit _
  · exact isPrint_octalDigit _
  · exact isPrint_octalDigit _

theorem isPrint_quoteChar (h : c ∈ quoteChar x) : IsPrint c := by
  rw [quoteChar] at h
  split_ifs at h with hp hq
  · obtain rfl := List.mem_singleton.mp h
    rw [Bool.or_eq_true, decide_eq_true_iff] at hp
    rcases hp with hp | rfl
    · exact isPrint_of_isPlain hp
    · exact ⟨by decide, by decide⟩
  · rw [Bool.or_eq_true, decide_eq_true_iff, decide_eq_true_iff] at hq
    rcases List.mem_pair.mp h with rfl | rfl
    · exact ⟨by decide, by decide⟩
    · rcases hq with rfl | rfl <;> exact ⟨by decide, by decide⟩
  · cases he : escapes.lookup x with
    | none =>
      rw [he] at h
      obtain ⟨b, -, hb⟩ := List.mem_flatMap.mp h
      exact isPrint_octal hb
    | some e =>
      rw [he] at h
      have hall : ∀ q ∈ escapes, 0x20 ≤ q.2.toNat ∧ q.2.toNat ≤ 0x7e := by decide
      rcases List.mem_pair.mp h with rfl | rfl
      · exact ⟨by decide, by decide⟩
      · exact hall (x, c) (Assoc.mem_of_lookup he)

theorem isPrint_quote (h : c ∈ quote p) : IsPrint c := by
  rw [quote] at h
  split_ifs at h with hp
  · exact isPrint_of_isPlain (List.all_eq_true.mp hp.2 c h)
  · rw [List.mem_append, List.mem_cons, List.mem_singleton] at h
    rcases h with (rfl | h) | rfl
    · exact ⟨by decide, by decide⟩
    · obtain ⟨x, -, hx⟩ := List.mem_flatMap.mp h
      exact isPrint_quoteChar hx
    · exact ⟨by decide, by decide⟩

theorem oneLine_quote : OneLine (quote p) := fun _ h => (isPrint_quote h).not_lineBreak

theorem quote_ne_nil : quote p ≠ [] := by
  rw [quote]
  split_ifs with hp
  · exact hp.1
  · exact List.append_ne_nil_of_left_ne_nil (List.cons_ne_nil _ _) _

theorem not_space_of_head_quote (hc : c ∈ (quote p).head?) : isSpace c = false := by
  rw [quote] at hc
  split_ifs at hc with hp
  · exact not_space_of_isPlain (List.all_eq_true.mp hp.2 c (List.mem_of_mem_head? hc))
  · obtain rfl := Option.some.inj hc
    decide

theorem not_space_of_getLast_quote (hc : c ∈ (quote p).getLast?) : isSpace c = false := by
  rw [quote] at hc
  split_ifs at hc with hp
  · exact not_space_of_isPlain (List.all_eq_true.mp hp.2 c (List.mem_of_mem_getLast? hc))
  · rw [List.getLast?_append, List.getLast?_singleton] at hc
    obtain rfl := Option.some.inj hc
    decide

/-- A quoted path neither begins nor ends with a blank. -/
theorem strip_quote : strip (quote p) = quote p :=
  strip_eq_self_of (fun _ => not_space_of_head_quote) fun _ => not_space_of_getLast_quote

/-- A quoted path without quotes is the path. -/
theorem quote_eq (h : '"' ∉ quote p) : quote p = p := by
  rw [quote] at h ⊢
  split_ifs at h ⊢ with hp
  · rfl
  · exact absurd (List.mem_append_left _ List.mem_cons_self) h

/-! ## A line of the status -/

theorem strip_eq_nil_iff : strip z = [] ↔ ∀ c ∈ z, isSpace c = true := by
  constructor
  · intro h
    rw [strip_eq, List.rdropWhile_eq_nil_iff] at h
    have hnil : z.dropWhile isSpace = [] := by
      by_contra hne
      have hhead := List.head_dropWhile_not isSpace hne
      rw [h _ (List.head_mem hne)] at hhead
      cases hhead
    exact List.dropWhile_eq_nil_iff.mp hnil
  · intro h
    rw [strip_eq, List.dropWhile_eq_nil_iff.mpr h]
    rfl

/-- Stripping a text that ends in a quoted path leaves the path, or a text with a blank. -/
theorem strip_append_quote (hz : z = [] ∨ z.getLast? = some ' ') :
    strip (z ++ quote p) = quote p ∨ ' ' ∈ strip (z ++ quote p) := by
  by_cases hall : ∀ c ∈ z, isSpace c = true
  · exact .inl ((strip_append_left hall).trans strip_quote)
  · refine .inr ?_
    have hne : z ≠ [] := by
      rintro rfl
      exact hall fun _ h => absurd h List.not_mem_nil
    obtain ⟨z', rfl⟩ : ∃ z', z = z' ++ [' '] := by
      obtain ⟨hne', hlast⟩ := List.getLast?_eq_some_iff.mp (hz.resolve_left hne)
      exact ⟨hne', hlast⟩
    have hz' : ¬∀ c ∈ z', isSpace c = true := by
      intro h
      refine hall fun c hc => ?_
      rcases List.mem_append.mp hc with hc | hc
      · exact h c hc
      · obtain rfl := List.mem_singleton.mp hc
        decide
    have hdrop : (z' ++ [' '] ++ quote p).dropWhile isSpace =
        z'.dropWhile isSpace ++ ([' '] ++ quote p) := by
      rw [List.append_assoc, List.dropWhile_append, if_neg]
      rwa [List.isEmpty_iff, List.dropWhile_eq_nil_iff]
    have hlast : ∀ c ∈ (z'.dropWhile isSpace ++ ([' '] ++ quote p)).getLast?, isSpace c = false := by
      intro c hc
      rw [← List.append_assoc, List.getLast?_append_of_ne_nil _ quote_ne_nil] at hc
      exact not_space_of_getLast_quote hc
    have hself : strip (z' ++ [' '] ++ quote p) = z'.dropWhile isSpace ++ ([' '] ++ quote p) := by
      rw [strip_eq, hdrop, List.rdropWhile_eq_self_iff]
      exact fun hne => ne_true_of_eq_false (hlast _ (List.getLast?_eq_getLast_of_ne_nil hne))
    rw [hself]
    exact List.mem_append_right _ (List.mem_append_left _ (List.mem_singleton_self _))

theorem mem_strip (hl : c ∈ l) (hc : isSpace c = false) : c ∈ strip l := by
  have hdrop : c ∈ l.dropWhile isSpace := by
    rw [← @List.takeWhile_append_dropWhile _ isSpace l, List.mem_append] at hl
    exact hl.resolve_left fun h => ne_true_of_eq_false hc (List.mem_takeWhile_imp h)
  rw [strip_eq]
  rw [← @List.rdropWhile_append_rtakeWhile _ isSpace (l.dropWhile isSpace), List.mem_append] at hdrop
  exact hdrop.resolve_right fun h => ne_true_of_eq_false hc (List.mem_rtakeWhile_imp h)

/-- Where a text is found, it is. -/
theorem find_eq_some {i : ℕ} (h : find p l = some i) : ∃ u v, l = u ++ p ++ v ∧ u.length = i := by
  induction l generalizing i with
  | nil =>
    rw [find] at h
    split_ifs at h with hp
    obtain rfl := Option.some.inj h
    exact ⟨[], [], by rw [List.isEmpty_iff.mp hp]; rfl, rfl⟩
  | cons c l ih =>
    rw [find] at h
    split_ifs at h with hp
    · obtain rfl := Option.some.inj h
      obtain ⟨v, hv⟩ := List.isPrefixOf_iff_prefix.mp hp
      exact ⟨[], v, hv.symm, rfl⟩
    · obtain ⟨j, hj, rfl⟩ := Option.map_eq_some_iff.mp h
      obtain ⟨u, v, rfl, rfl⟩ := ih hj
      exact ⟨c :: u, v, rfl, rfl⟩

/-- A text is found no later than where it is. -/
theorem find_le (u v : Text) : ∃ i ≤ u.length, find p (u ++ p ++ v) = some i := by
  induction u with
  | nil =>
    refine ⟨0, le_rfl, ?_⟩
    rw [List.nil_append]
    cases h : p ++ v with
    | nil => rw [find, if_pos (List.isEmpty_iff.mpr (List.append_eq_nil_iff.mp h).1)]
    | cons c w =>
      rw [find, if_pos]
      exact List.isPrefixOf_iff_prefix.mpr ⟨v, h⟩
  | cons c u ih =>
    obtain ⟨i, hi, hfind⟩ := ih
    rw [List.cons_append, List.cons_append, find]
    split_ifs
    · exact ⟨0, Nat.zero_le _, rfl⟩
    · exact ⟨i + 1, Nat.succ_le_succ hi, by rw [hfind]; rfl⟩

/-- The path read from the line of a file is the file's, or none that needs no quotes. -/
theorem statusPath_plain : ∃ q, statusPath (x :: y :: ' ' :: quote p) = some q ∧
    ('"' ∉ q → ' ' ∉ q → q = p) := by
  have hlen : ¬((x :: y :: ' ' :: quote p).length < 4 ∨ quote p = []) := by
    rw [not_or]
    refine ⟨?_, quote_ne_nil⟩
    have := List.length_pos_iff.mpr (quote_ne_nil : quote p ≠ [])
    simp only [List.length_cons]
    omega
  rw [statusPath]
  simp only [List.drop_succ_cons, List.drop_zero, strip_quote]
  rw [if_neg hlen]
  cases hfind : find " -> ".toList (quote p) with
  | none => exact ⟨_, rfl, fun hq _ => quote_eq hq⟩
  | some i =>
    refine ⟨_, rfl, fun hq _ => absurd ?_ hq⟩
    obtain ⟨u, v, huv, rfl⟩ := find_eq_some hfind
    have hblank : ' ' ∈ quote p := by
      rw [huv]
      exact List.mem_append_left _ (List.mem_append_right _ (by decide))
    have hquoted : ¬(p ≠ [] ∧ p.all isPlain = true) := by
      intro hp
      rw [quote, if_pos hp] at hblank
      exact absurd (List.all_eq_true.mp hp.2 _ hblank) (by decide)
    have hlast : (quote p).getLast? = some '"' := by
      rw [quote, if_neg hquoted, List.getLast?_append, List.getLast?_singleton]
      rfl
    have hv : v ≠ [] := by
      rintro rfl
      rw [huv, List.append_nil, List.getLast?_append_of_ne_nil _ (by decide)] at hlast
      exact absurd hlast (by decide)
    have hdrop : (quote p).drop (u.length + 4) = v := by
      rw [huv]
      exact List.drop_left' List.length_append
    rw [hdrop]
    rw [huv, List.getLast?_append_of_ne_nil _ hv] at hlast
    exact mem_strip (List.mem_of_getLast? hlast) (by decide)

/-- The path read from the line of a rename is the new name, or none that needs no quotes. -/
theorem statusPath_rename : ∃ q, statusPath (x :: y :: ' ' :: quote l ++ " -> ".toList ++ quote p) =
    some q ∧ ('"' ∉ q → ' ' ∉ q → q = p) := by
  obtain ⟨i, hi, hfind⟩ := @find_le " -> ".toList (quote l) (quote p)
  have hpath : strip (quote l ++ " -> ".toList ++ quote p) =
      quote l ++ " -> ".toList ++ quote p := by
    refine strip_eq_self_of (fun c hc => ?_) fun c hc => ?_
    · rw [List.append_assoc, List.head?_append_of_ne_nil _ quote_ne_nil] at hc
      exact not_space_of_head_quote hc
    · rw [List.getLast?_append_of_ne_nil _ quote_ne_nil] at hc
      exact not_space_of_getLast_quote hc
  have hlen : ¬((x :: y :: ' ' :: (quote l ++ " -> ".toList ++ quote p)).length < 4 ∨
      quote l ++ " -> ".toList ++ quote p = []) := by
    rw [not_or]
    refine ⟨?_, List.append_ne_nil_of_right_ne_nil _ quote_ne_nil⟩
    have := List.length_pos_iff.mpr (quote_ne_nil : quote p ≠ [])
    simp only [List.length_append, List.length_cons]
    omega
  have hdrop : (quote l ++ " -> ".toList ++ quote p).drop (i + 4) =
      (quote l ++ " -> ".toList).drop (i + 4) ++ quote p := by
    refine List.drop_append_of_le_length ?_
    rw [List.length_append]
    exact Nat.add_le_add_right hi 4
  have hz : (quote l ++ " -> ".toList).drop (i + 4) = [] ∨
      ((quote l ++ " -> ".toList).drop (i + 4)).getLast? = some ' ' := by
    by_cases hnil : (quote l ++ " -> ".toList).drop (i + 4) = []
    · exact .inl hnil
    · refine .inr ?_
      rw [List.getLast?_drop, if_neg fun hle => hnil (List.drop_eq_nil_of_le hle),
        List.getLast?_append_of_ne_nil _ (by decide)]
      decide
  refine ⟨strip ((quote l ++ " -> ".toList).drop (i + 4) ++ quote p), ?_, fun hquote hblank => ?_⟩
  · rw [statusPath]
    simp only [List.cons_append, List.drop_succ_cons, List.drop_zero, hpath]
    rw [if_neg hlen, hfind]
    simp only
    rw [hdrop]
  · rcases strip_append_quote hz with h | h
    · rw [h] at hquote ⊢
      exact quote_eq hquote
    · exact absurd h hblank

/-! ## The status -/

section Status

variable {κ : Type*} {h : History κ} {r : Repo κ}

theorem isPrint_codeX (a b : Option Blob) : isLineBreak (codeX a b) = false := by
  rw [codeX]
  split_ifs <;> decide

theorem isPrint_codeY (a b : Option Blob) : isLineBreak (codeY a b) = false := by
  rw [codeY]
  split_ifs <;> decide

theorem oneLine_cons (hc : isLineBreak c = false) (hl : OneLine l) : OneLine (c :: l) := by
  intro x hx
  rcases List.mem_cons.mp hx with rfl | hx
  · exact hc
  · exact hl x hx

theorem oneLine_statusLine (hl : l ∈ r.statusLine h p) : OneLine l := by
  have hblank : isLineBreak ' ' = false := by decide
  have harrow : OneLine " -> ".toList := by decide
  rw [Repo.statusLine] at hl
  cases hf : (r.detected h).find? fun q => q.2 = p with
  | none =>
    rw [hf] at hl
    simp only at hl
    split_ifs at hl
    · cases hl
    · obtain rfl := Option.some.inj hl
      exact oneLine_cons (isPrint_codeX _ _) (oneLine_cons (isPrint_codeY _ _)
        (oneLine_cons hblank oneLine_quote))
  | some q =>
    rw [hf] at hl
    obtain rfl := Option.some.inj hl
    refine OneLine.append (OneLine.append ?_ harrow) oneLine_quote
    exact oneLine_cons (by decide) (oneLine_cons (isPrint_codeY _ _) (oneLine_cons hblank oneLine_quote))

theorem splitlines_status : splitlines (r.status h) =
    ((r.headTree h).keys ++ r.index.keys).dedup.filterMap (r.statusLine h) := by
  refine splitlines_unlines fun l hl => ?_
  obtain ⟨p, -, hp⟩ := List.mem_filterMap.mp hl
  exact oneLine_statusLine hp

theorem mem_paths (hp : (r.headTree h).get p ≠ none ∨ r.index.get p ≠ none) :
    p ∈ ((r.headTree h).keys ++ r.index.keys).dedup := by
  rw [List.mem_dedup, List.mem_append]
  exact hp.imp (fun hn => not_not.mp (mt Dict.get_eq_none.mpr hn))
    fun hn => not_not.mp (mt Dict.get_eq_none.mpr hn)

/-- The status has a line for the file, from which no path but the file's is read, unless a blank or
a quote is in it. -/
def Listed (h : History κ) (r : Repo κ) (p : Text) : Prop :=
  ∃ l ∈ splitlines (r.status h), ∃ q, statusPath l = some q ∧ ('"' ∉ q → ' ' ∉ q → q = p)

/-- The new name of a detected rename is listed. -/
theorem listed_rename {q : Text × Text} (hq : q ∈ r.detected h) : Listed h r q.2 := by
  obtain ⟨-, hkeep⟩ := List.mem_filter.mp hq
  simp only [Bool.and_eq_true] at hkeep
  have hmem : q.2 ∈ ((r.headTree h).keys ++ r.index.keys).dedup :=
    mem_paths (.inr (Option.isSome_iff_ne_none.mp hkeep.2))
  cases hf : (r.detected h).find? fun u => u.2 = q.2 with
  | none => exact absurd (decide_eq_true rfl) (List.find?_eq_none.mp hf q hq)
  | some u =>
    obtain ⟨w, hpath, hw⟩ := @statusPath_rename 'R' (codeY (r.index.get q.2) (r.worktree.get q.2))
      q.2 (u.1)
    refine ⟨_, ?_, w, hpath, hw⟩
    rw [splitlines_status, List.mem_filterMap]
    refine ⟨q.2, hmem, ?_⟩
    rw [Repo.statusLine, hf]

/-- A tracked file that differs is listed, or was renamed. -/
theorem listed_of_differs (hd : r.Differs h p) :
    Listed h r p ∨ ∃ q ∈ r.detected h, q.1 = p := by
  have hmem : p ∈ ((r.headTree h).keys ++ r.index.keys).dedup := by
    refine mem_paths ?_
    rcases hd with hd | hd
    · by_contra hnone
      push Not at hnone
      exact hd (hnone.1.trans hnone.2.symm)
    · exact .inr hd.1
  cases hf : (r.detected h).find? fun q => q.2 = p with
  | some q =>
    have hq : q.2 = p := by simpa using List.find?_some hf
    exact .inl (hq ▸ listed_rename (List.mem_of_find?_eq_some hf))
  | none =>
    by_cases hsrc : ∃ q ∈ r.detected h, q.1 = p
    · exact .inr hsrc
    · refine .inl ?_
      have hany : (r.detected h).any (fun q => q.1 = p) = false := by
        refine Bool.eq_false_of_not_eq_true fun hany => hsrc ?_
        obtain ⟨q, hq, hqp⟩ := List.any_eq_true.mp hany
        exact ⟨q, hq, of_decide_eq_true hqp⟩
      have hxy : ¬(codeX ((r.headTree h).get p) (r.index.get p) = ' ' ∧
          codeY (r.index.get p) (r.worktree.get p) = ' ') := by
        rintro ⟨hx, hy⟩
        rw [codeX] at hx
        rw [codeY] at hy
        split_ifs at hx with h₁ h₂ h₃
        · split_ifs at hy with h₄ h₅
          · rcases hd with hd | ⟨hi, hw⟩
            · exact hd h₁
            · exact h₄.elim hi hw
          · exact absurd hy (by decide)
          · exact absurd hy (by decide)
        · exact absurd hx (by decide)
        · exact absurd hx (by decide)
        · exact absurd hx (by decide)
      obtain ⟨w, hpath, hw⟩ := @statusPath_plain (codeX ((r.headTree h).get p) (r.index.get p))
        (codeY (r.index.get p) (r.worktree.get p)) p
      refine ⟨_, ?_, w, hpath, hw⟩
      rw [splitlines_status, List.mem_filterMap]
      refine ⟨p, hmem, ?_⟩
      rw [Repo.statusLine, hf]
      simp only
      rw [if_neg]
      rw [hany, Bool.false_or, Bool.and_eq_true, decide_eq_true_iff, decide_eq_true_iff]
      exact hxy

end Status

/-! ## The diff -/

/-- What follows a newline is split on its own. -/
theorem splitlinesAux_append (s acc : Text) :
    ∃ ms, ∀ t, splitlinesAux (s ++ '\n' :: t) acc = ms ++ splitlinesAux t [] := by
  fun_induction splitlinesAux s acc with
  | case1 => exact ⟨[[]], fun t => splitlinesAux_newline t []⟩
  | case2 acc => exact ⟨[acc.reverse], fun t => splitlinesAux_newline t acc⟩
  | case3 s acc ih =>
    obtain ⟨ms, hms⟩ := ih
    refine ⟨acc.reverse :: ms, fun t => ?_⟩
    rw [List.cons_append, List.cons_append, splitlinesAux, hms]
    rfl
  | case4 c s acc hrn hc ih =>
    obtain ⟨ms, hms⟩ := ih
    by_cases hr : c = '\r' ∧ s = []
    · obtain ⟨rfl, rfl⟩ := hr
      refine ⟨[acc.reverse], fun t => ?_⟩
      rw [List.cons_append, List.nil_append, splitlinesAux]
      rfl
    · refine ⟨acc.reverse :: ms, fun t => ?_⟩
      rw [List.cons_append, splitlinesAux, if_pos hc, hms]
      · rfl
      · rintro s' rfl hs
        cases s with
        | nil => exact hr ⟨rfl, rfl⟩
        | cons d s =>
          obtain ⟨rfl, -⟩ := List.cons.inj hs
          exact hrn s rfl rfl
  | case5 c s acc _ hc ih =>
    obtain ⟨ms, hms⟩ := ih
    refine ⟨ms, fun t => ?_⟩
    rw [List.cons_append, splitlinesAux_cons (Bool.eq_false_iff.mpr hc), hms]

/-- A line that git prints is read back when it is within one line. -/
theorem mem_splitlines_unlines {ls : List Text} (hl : l ∈ ls) (ho : OneLine l) :
    l ∈ splitlines (unlines ls) := by
  have hcons : ∀ m ms, unlines (m :: ms) = m ++ '\n' :: unlines ms := by
    intro m ms
    rw [unlines, List.flatMap_cons, List.append_assoc]
    rfl
  induction ls with
  | nil => cases hl
  | cons m ms ih =>
    rw [hcons, splitlines]
    rcases List.mem_cons.mp hl with rfl | hl
    · rw [splitlinesAux_line ho]
      exact List.mem_cons_self
    · obtain ⟨ns, hns⟩ := splitlinesAux_append m []
      rw [hns]
      exact List.mem_append_right _ (ih hl)

/-- The line, added or removed, is read as an assignment of `pkgver` or `pkgrel`. -/
def PkgverLine (sign : Char) (l : Text) : Prop := (Re.matchAt pkgverLineRe (sign :: l) 0).isSome = true

/-- The lines of a file differ from the others only in assignments of `pkgver` and `pkgrel`, in lines
that begin as the header of a diff does, and in lines with a line break inside. -/
def PkgverEdit (old new : List Text) : Prop :=
  ∃ hunks tail, Leads hunks tail old new ∧ ∀ u ∈ hunks,
    (∀ l ∈ u.removed, OneLine l → PkgverLine '-' l ∨ "-- ".toList <+: l) ∧
      ∀ l ∈ u.added, OneLine l → PkgverLine '+' l ∨ "++ ".toList <+: l

theorem pkgverOnly_content {ls : List Text} {saw : Bool} (h : pkgverOnly ls saw = true)
    (hl : l ∈ ls) (hne : l ≠ []) (hsign : l.head?.any (fun c => c = '+' || c = '-') = true) :
    (∃ w ∈ metadata, w <+: l) ∨ (Re.matchAt pkgverLineRe l 0).isSome = true := by
  induction ls generalizing saw with
  | nil => cases hl
  | cons m ms ih =>
    rw [pkgverOnly] at h
    split_ifs at h with hskip hcontent hmatch
    · rcases List.mem_cons.mp hl with rfl | hl
      · obtain ⟨w, hw, hp⟩ := List.any_eq_true.mp (hskip.resolve_left hne)
        exact .inl ⟨w, hw, List.isPrefixOf_iff_prefix.mp hp⟩
      · exact ih h hl
    · rcases List.mem_cons.mp hl with rfl | hl
      · rw [Option.isNone_iff_eq_none] at hmatch
        exact .inr (Option.isSome_iff_ne_none.mpr hmatch)
      · exact ih h hl
    · rcases List.mem_cons.mp hl with rfl | hl
      · exact absurd hsign hcontent
      · exact ih h hl

theorem cons_isPrefix {w : Text} (h : x :: w <+: y :: l) : x = y ∧ w <+: l :=
  List.cons_prefix_cons.mp h

/-- A removed line that is passed over looks like a header. -/
theorem metadata_minus {w : Text} (hw : w ∈ metadata) (h : w <+: '-' :: l) : "-- ".toList <+: l := by
  simp only [metadata, List.mem_cons, List.not_mem_nil, or_false] at hw
  rcases hw with rfl | rfl | rfl | rfl | rfl
  · exact absurd (cons_isPrefix h).1 (by decide)
  · exact absurd (cons_isPrefix h).1 (by decide)
  · exact (cons_isPrefix h).2
  · exact absurd (cons_isPrefix h).1 (by decide)
  · exact absurd (cons_isPrefix h).1 (by decide)

/-- An added line that is passed over looks like a header. -/
theorem metadata_plus {w : Text} (hw : w ∈ metadata) (h : w <+: '+' :: l) : "++ ".toList <+: l := by
  simp only [metadata, List.mem_cons, List.not_mem_nil, or_false] at hw
  rcases hw with rfl | rfl | rfl | rfl | rfl
  · exact absurd (cons_isPrefix h).1 (by decide)
  · exact absurd (cons_isPrefix h).1 (by decide)
  · exact absurd (cons_isPrefix h).1 (by decide)
  · exact (cons_isPrefix h).2
  · exact absurd (cons_isPrefix h).1 (by decide)

/-- A diff that is read as a bump is one, as far as the parser looks. -/
theorem pkgverEdit_of_pkgverOnly {d : Differ} {old new : Option Blob}
    (h : pkgverOnly (splitlines (diff d p old new)) false = true) :
    PkgverEdit (linesOf old) (linesOf new) := by
  by_cases heq : linesOf old = linesOf new
  · exact ⟨[], linesOf old, ⟨rfl, heq.symm⟩, fun u hu => absurd hu List.not_mem_nil⟩
  · have hne : old ≠ new := fun hon => heq (congrArg linesOf hon)
    refine ⟨_, _, d.leads (linesOf old) (linesOf new), fun u hu => ?_⟩
    rw [diff] at h
    simp only [if_neg hne, if_neg heq] at h
    have hline : ∀ l ∈ u.print, OneLine l → l ≠ [] →
        l.head?.any (fun c => c = '+' || c = '-') = true →
        (∃ w ∈ metadata, w <+: l) ∨ (Re.matchAt pkgverLineRe l 0).isSome = true := by
      intro l hl ho hln hsign
      refine pkgverOnly_content h (mem_splitlines_unlines ?_ ho) hln hsign
      exact List.mem_append_right _ (List.mem_append_right _ (List.mem_flatMap.mpr ⟨u, hu, hl⟩))
    have hsign : ∀ c : Char, (c = '-' ∨ c = '+') → isLineBreak c = false := by
      rintro c (rfl | rfl) <;> decide
    constructor
    · intro l hl ho
      have hmem : '-' :: l ∈ u.print :=
        List.mem_append_left _ (List.mem_cons_of_mem _ (List.mem_map_of_mem hl))
      rcases hline _ hmem (oneLine_cons (hsign _ (.inl rfl)) ho) (List.cons_ne_nil _ _) rfl with
        ⟨w, hw, hp⟩ | hm
      · exact .inr (metadata_minus hw hp)
      · exact .inl hm
    · intro l hl ho
      have hmem : '+' :: l ∈ u.print := List.mem_append_right _ (List.mem_map_of_mem hl)
      rcases hline _ hmem (oneLine_cons (hsign _ (.inr rfl)) ho) (List.cons_ne_nil _ _) rfl with
        ⟨w, hw, hp⟩ | hm
      · exact .inr (metadata_plus hw hp)
      · exact .inl hm

/-! ## No dirty paths -/

section Spared

variable {κ : Type*} {h : History κ} {d : Differ} {r : Repo κ} {f : Failing}
  {isVcs : Bool}

/-- Of the tracked files none differs, but for those that a VCS package's version bump writes, and
files that were renamed to one of these. -/
def Spared (h : History κ) (isVcs : Bool) (r : Repo κ) : Prop :=
  ∀ p, r.Differs h p → isVcs = true ∧ (p = srcinfo ∨
    p = pkgbuild ∧ PkgverEdit (linesOf ((r.headTree h).get p)) (linesOf (r.tracked p)) ∨
    ∃ q ∈ r.detected h, q.1 = p ∧ (q.2 = srcinfo ∨ q.2 = pkgbuild))

/-- Every line of the status is passed over. -/
theorem passed_of_nil (hstatus : f.status = false)
    (hnil : uncommittedDirtyPaths h d r f isVcs = []) (hl : l ∈ splitlines (r.status h))
    (hp : statusPath l = some p) : isVcs = true ∧
      (p = srcinfo ∨ p = pkgbuild ∧ diffIsPkgverOnly h d r f p = true) := by
  rw [uncommittedDirtyPaths, hstatus, Bool.false_or] at hnil
  by_cases hblank : strip (r.status h) = []
  · rw [splitlines_status] at hl
    rw [statusPath] at hp
    split_ifs at hp with hshort
    refine absurd ?_ (not_or.mp hshort).2
    rw [strip_eq_nil_iff] at hblank ⊢
    exact fun c hc => hblank c (List.mem_flatMap.mpr
      ⟨l, hl, List.mem_append_left _ (List.mem_of_mem_drop hc)⟩)
  · rw [if_neg (by rwa [decide_eq_true_iff]), List.filter_eq_nil_iff] at hnil
    have hpass := hnil p (List.mem_filterMap.mpr ⟨l, hl, hp⟩)
    rw [Bool.and_eq_true, not_and_or, Bool.not_eq_true', Bool.not_eq_true', Bool.not_eq_false,
      Bool.not_eq_false, Bool.and_eq_true, Bool.and_eq_true, Bool.and_eq_true, decide_eq_true_iff,
      decide_eq_true_iff] at hpass
    rcases hpass with ⟨hvcs, hp⟩ | ⟨⟨hvcs, hp⟩, hdiff⟩
    · exact ⟨hvcs, .inl hp⟩
    · exact ⟨hvcs, .inr ⟨hp, hdiff⟩⟩

theorem diffIsPkgverOnly_edit (hp : diffIsPkgverOnly h d r f p = true) :
    PkgverEdit (linesOf ((r.headTree h).get p)) (linesOf (r.tracked p)) := by
  rw [diffIsPkgverOnly] at hp
  split_ifs at hp
  exact pkgverEdit_of_pkgverOnly hp

/-- **No dirty paths, no edits lost**: when `git status` answers and no path counts as dirty, no
tracked file differs, but for those that are passed over on purpose. -/
theorem spared_of_nil (hstatus : f.status = false)
    (hnil : uncommittedDirtyPaths h d r f isVcs = []) : Spared h isVcs r := by
  have hlisted : ∀ p, Listed h r p → isVcs = true ∧
      (p = srcinfo ∨ p = pkgbuild ∧ diffIsPkgverOnly h d r f p = true) := by
    rintro p ⟨l, hl, q, hq, heq⟩
    have hpass := passed_of_nil hstatus hnil hl hq
    have hqp : q = p := by
      rcases hpass.2 with rfl | ⟨rfl, -⟩
      · exact heq (by decide) (by decide)
      · exact heq (by decide) (by decide)
    exact hqp ▸ hpass
  intro p hp
  rcases listed_of_differs hp with hl | ⟨q, hq, rfl⟩
  · obtain ⟨hvcs, hpass⟩ := hlisted p hl
    exact ⟨hvcs, hpass.imp_right fun hpk => .inl ⟨hpk.1, diffIsPkgverOnly_edit hpk.2⟩⟩
  · obtain ⟨hvcs, hpass⟩ := hlisted q.2 (listed_rename hq)
    exact ⟨hvcs, .inr (.inr ⟨q, hq, rfl, hpass.imp_right And.left⟩)⟩

end Spared

end Sysforge.Git
