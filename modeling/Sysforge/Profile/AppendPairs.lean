import Mathlib.Data.List.DropRight
import Mathlib.Tactic.Ring
import Sysforge.Profile.Preserved

/-!
# Appending flags that take an argument

Appended values are merged token by token, and a token that displaces another does not know of the
option that belongs to it. On values that are sequences of single flags and of pairs `-C arg`, the
form of `RUSTFLAGS`, this module finds exactly when the merged value is such a sequence again and
has one member, the last, of each conflict group that the child touches.

The pairs are lost exactly when a child token displaces an argument (`paired_foldl_iff`): the excess
of the `-C` over the arguments never falls, and grows with every argument that is displaced. A last
member is lost exactly when a later token of its prefix family takes its place, because no other
token of the family stands before it (`filter_foldl_iff`). The tokens that the child does not touch
stay, in their order (`sublist_foldl`).
-/

namespace Sysforge.Profile

open Text

/-! ## The specification -/

/-- `-C`, the option that takes the next token. -/
def dashC : Text := "-C".toList

/-- A token that is an argument of `-C`. -/
def IsArg (t : Text) : Prop := t.head? ≠ some '-'

instance (t : Text) : Decidable (IsArg t) := inferInstanceAs (Decidable (t.head? ≠ some '-'))

/-- A sequence of single flags and of pairs `-C arg`. -/
inductive Paired : List Text → Prop
  | nil : Paired []
  | flag {t : Text} {ts : List Text} : ¬ IsArg t → t ≠ dashC → Paired ts → Paired (t :: ts)
  | pair {a : Text} {ts : List Text} : IsArg a → Paired ts → Paired (dashC :: a :: ts)

/-- A token of some conflict group. -/
def Grouped (groups : ConflictGroups) (t : Text) : Prop := SharesGroup groups t t

/-- A child token takes the place of a token: of its group, or of its prefix family if it is in no
group. -/
def Displaces (groups : ConflictGroups) (c t : Text) : Prop :=
  SharesGroup groups c t ∨ ¬ Grouped groups c ∧ SharesPrefix c t

/-- No child token displaces an argument that stands before it. -/
def KeepsArguments (groups : ConflictGroups) (parent child : List Text) : Prop :=
  ∀ xs c ys, child = xs ++ c :: ys → ∀ b ∈ parent ++ xs, IsArg b → ¬ Displaces groups c b

/-- A token of the prefix family of `m` stands before it and is not displaced until the tokens `zs`
after it. -/
def Shielded (groups : ConflictGroups) (parent xs : List Text) (m : Text) (zs : List Text) : Prop :=
  (∃ s ∈ parent, SharesPrefix m s ∧ ∀ d ∈ xs ++ m :: zs, ¬ SharesGroup groups d s) ∨
    ∃ us s vs, xs = us ++ s :: vs ∧ SharesPrefix m s ∧ ∀ d ∈ vs ++ m :: zs, ¬ SharesGroup groups d s

/-- The last child member of a group is shielded from the first later token that is in no group and
of its prefix family. -/
def KeepsMembers (groups : ConflictGroups) (parent child : List Text) : Prop :=
  ∀ xs m zs c ws, child = xs ++ m :: (zs ++ c :: ws) → Grouped groups m →
    (∀ d ∈ zs ++ c :: ws, ¬ SharesGroup groups m d) → ¬ Grouped groups c → SharesPrefix m c →
    (∀ d ∈ zs, Grouped groups d ∨ ¬ SharesPrefix m d) → Shielded groups parent xs m zs

/-- What merging is to give. -/
structure Merged (groups : ConflictGroups) (parent child result : List Text) : Prop where
  paired : Paired result
  /-- Of each group that the child touches there is the child's last member, once. -/
  member : ∀ g ∈ groups.items, ∀ xs m ys, child = xs ++ m :: ys → m ∈ g.2 → (∀ d ∈ ys, d ∉ g.2) →
    result.filter (fun t => t ∈ g.2) = [m]
  /-- The parent's tokens that share no group and no family with a child token stay in order. -/
  survivors : ∀ fs : List Text, fs.Sublist parent → (∀ t ∈ fs, ∀ c ∈ child, ¬ Conflicts groups c t) →
    fs.Sublist result

/-! ## One token -/

section Token

variable {groups : ConflictGroups} {rs xs ys fs : List Text} {c t u b p : Text}

/-- What merging one token does: it evicts its group, is appended, or replaces the first token of
its prefix family. -/
theorem mergeToken_cases (hg : DisjointGroups groups) (rs : List Text) (c : Text) :
    (∃ g ∈ groups.items, c ∈ g.2 ∧
      mergeToken groups rs c = rs.filter (fun t => t ∉ g.2) ++ [c]) ∨
    ¬ Grouped groups c ∧ (∀ t ∈ rs, ¬ SharesPrefix c t) ∧ mergeToken groups rs c = rs ++ [c] ∨
    ¬ Grouped groups c ∧ ∃ xs t ys, rs = xs ++ t :: ys ∧ SharesPrefix c t ∧
      (∀ u ∈ xs, ¬ SharesPrefix c u) ∧ mergeToken groups rs c = xs ++ c :: ys := by
  cases hc : (flagToGroup groups).get c with
  | some members =>
    obtain ⟨g, hgm, rfl, hmem⟩ := (flagToGroup_eq_some hg).mp hc
    refine .inl ⟨g, hgm, hmem, ?_⟩
    rw [mergeToken, hc]
  | none =>
    have hno : ¬ Grouped groups c := by
      intro h
      obtain ⟨members, h, -⟩ := (sharesGroup_iff hg).mp h
      exact Option.some_ne_none members (h.symm.trans hc)
    refine .inr ?_
    cases hp : extractPrefix c with
    | none =>
      refine .inl ⟨hno, fun t _ ⟨p, h, _⟩ => Option.some_ne_none p (h.symm.trans hp), ?_⟩
      rw [mergeToken, hc]
      dsimp only
      rw [hp]
    | some p =>
      have hshare (t : Text) : SharesPrefix c t ↔ extractPrefix t = some p := by
        refine ⟨fun ⟨q, hq, ht⟩ => ?_, fun h => ⟨p, hp, h⟩⟩
        rw [hp] at hq
        rwa [Option.some.inj hq]
      cases hi : rs.findIdx? fun t => extractPrefix t = some p with
      | none =>
        refine .inl ⟨hno, fun t ht h => ?_, ?_⟩
        · have hnot := List.findIdx?_eq_none_iff.mp hi t ht
          exact of_decide_eq_false hnot ((hshare t).mp h)
        · rw [mergeToken, hc]
          dsimp only
          rw [hp]
          dsimp only
          rw [hi]
      | some i =>
        obtain ⟨hlt, hat, hbefore⟩ := List.findIdx?_eq_some_iff_getElem.mp hi
        refine .inr ⟨hno, rs.take i, rs[i], rs.drop (i + 1), ?_, (hshare _).mpr (of_decide_eq_true hat),
          fun u hu h => ?_, ?_⟩
        · rw [← List.drop_eq_getElem_cons hlt, List.take_append_drop]
        · obtain ⟨j, hj, rfl⟩ := List.getElem_of_mem hu
          rw [List.length_take] at hj
          refine hbefore j (lt_of_lt_of_le hj (min_le_left _ _)) (decide_eq_true ?_)
          rw [List.getElem_take] at h
          exact (hshare _).mp h
        · rw [mergeToken, hc]
          dsimp only
          rw [hp]
          dsimp only
          rw [hi]
          exact List.set_eq_take_append_cons_drop.trans (if_pos hlt)

theorem sharesGroup_of_mem {g : String × List Text} (hgm : g ∈ groups.items) (hc : c ∈ g.2)
    (ht : t ∈ g.2) : SharesGroup groups c t := ⟨g, hgm, hc, ht⟩

theorem mem_of_sharesGroup (hg : DisjointGroups groups) {g : String × List Text}
    (hgm : g ∈ groups.items) (hc : c ∈ g.2) (h : SharesGroup groups c t) : t ∈ g.2 := by
  obtain ⟨g', hgm', hc', ht⟩ := h
  rwa [hg g hgm g' hgm' c hc hc']

/-- A token of a group is not one that is in none. -/
theorem not_sharesGroup_of_not_grouped (hc : ¬ Grouped groups c) : ¬ SharesGroup groups c t :=
  fun ⟨_, hgm, hcg, _⟩ => hc (sharesGroup_of_mem hgm hcg hcg)

/-- A token of the result was there, and not evicted, or is the new one. -/
theorem mem_of_mem_mergeToken (hg : DisjointGroups groups) (h : t ∈ mergeToken groups rs c) :
    t ∈ rs ∧ ¬ SharesGroup groups c t ∨ t = c := by
  obtain ⟨g, hgm, hc, he⟩ | ⟨hno, -, he⟩ | ⟨hno, xs, u, ys, rfl, -, -, he⟩ := mergeToken_cases hg rs c
  · rw [he, List.mem_append, List.mem_singleton] at h
    refine h.imp_left fun h => ⟨(List.mem_filter.mp h).1, fun hs => ?_⟩
    exact of_decide_eq_true (List.mem_filter.mp h).2 (mem_of_sharesGroup hg hgm hc hs)
  · rw [he, List.mem_append, List.mem_singleton] at h
    exact h.imp_left fun h => ⟨h, not_sharesGroup_of_not_grouped hno⟩
  · rw [he, List.mem_append, List.mem_cons] at h
    rw [List.mem_append, List.mem_cons]
    rcases h with h | rfl | h
    · exact .inl ⟨.inl h, not_sharesGroup_of_not_grouped hno⟩
    · exact .inr rfl
    · exact .inl ⟨.inr (.inr h), not_sharesGroup_of_not_grouped hno⟩

theorem self_mem_mergeToken (hg : DisjointGroups groups) : c ∈ mergeToken groups rs c := by
  obtain ⟨g, -, -, he⟩ | ⟨-, -, he⟩ | ⟨-, xs, u, ys, rfl, -, -, he⟩ := mergeToken_cases hg rs c
  · exact he ▸ List.mem_append_right _ (List.mem_singleton_self c)
  · exact he ▸ List.mem_append_right _ (List.mem_singleton_self c)
  · exact he ▸ List.mem_append_right _ List.mem_cons_self

theorem SharesPrefix.symm (h : SharesPrefix t u) : SharesPrefix u t := by
  obtain ⟨p, ht, hu⟩ := h
  exact ⟨p, hu, ht⟩

theorem SharesPrefix.trans (h : SharesPrefix t u) (h' : SharesPrefix u b) : SharesPrefix t b := by
  obtain ⟨p, ht, hu⟩ := h
  obtain ⟨q, hu', hb⟩ := h'
  rw [hu] at hu'
  exact ⟨p, ht, Option.some.inj hu' ▸ hb⟩

/-- A token that is not displaced stays. -/
theorem mem_mergeToken (hg : DisjointGroups groups) (h : t ∈ rs) (hd : ¬ Displaces groups c t) :
    t ∈ mergeToken groups rs c := by
  obtain ⟨g, hgm, hc, he⟩ | ⟨-, -, he⟩ | ⟨hno, xs, u, ys, rfl, hu, -, he⟩ := mergeToken_cases hg rs c
  · rw [he]
    refine List.mem_append_left _ (List.mem_filter.mpr ⟨h, decide_eq_true fun hm => hd (.inl ?_)⟩)
    exact sharesGroup_of_mem hgm hc hm
  · exact he ▸ List.mem_append_left _ h
  · rw [he, List.mem_append, List.mem_cons]
    rw [List.mem_append, List.mem_cons] at h
    rcases h with h | rfl | h
    · exact .inl h
    · exact absurd (.inr ⟨hno, hu⟩) hd
    · exact .inr (.inr h)

/-! ## The tokens that stay -/

theorem sublist_mergeToken (hg : DisjointGroups groups) (h : fs.Sublist rs)
    (hfree : ∀ t ∈ fs, ¬ Conflicts groups c t) : fs.Sublist (mergeToken groups rs c) := by
  obtain ⟨g, hgm, hc, he⟩ | ⟨-, -, he⟩ | ⟨-, xs, u, ys, rfl, hu, -, he⟩ := mergeToken_cases hg rs c
  · have hkeep : fs.filter (fun t => t ∉ g.2) = fs := by
      refine List.filter_eq_self.mpr fun t ht => decide_eq_true fun hm => hfree t ht (.inl ?_)
      exact sharesGroup_of_mem hgm hc hm
    rw [he, ← hkeep]
    exact (h.filter _).trans (List.sublist_append_left _ _)
  · exact he ▸ h.trans (List.sublist_append_left _ _)
  · have hkeep : fs.filter (fun t => t ≠ u) = fs := by
      refine List.filter_eq_self.mpr fun t ht => decide_eq_true ?_
      rintro rfl
      exact hfree t ht (.inr hu)
    have hdrop : ((xs ++ u :: ys).filter fun t => t ≠ u).Sublist (xs ++ c :: ys) := by
      rw [List.filter_append, List.filter_cons_of_neg (by simp)]
      exact List.filter_sublist.append (List.filter_sublist.cons _)
    rw [he, ← hkeep]
    exact (h.filter _).trans hdrop

theorem sublist_foldl (hg : DisjointGroups groups) {cs : List Text} (h : fs.Sublist rs)
    (hfree : ∀ t ∈ fs, ∀ c ∈ cs, ¬ Conflicts groups c t) :
    fs.Sublist (cs.foldl (mergeToken groups) rs) := by
  induction cs generalizing rs with
  | nil => exact h
  | cons c cs ih =>
    refine ih (sublist_mergeToken hg h fun t ht => hfree t ht c List.mem_cons_self) ?_
    exact fun t ht d hd => hfree t ht d (List.mem_cons_of_mem _ hd)

end Token

/-! ## Pairs -/

section Pairs

variable {groups : ConflictGroups} {rs xs ys cs : List Text} {c t u b p : Text}

/-- The prefix of a token begins as the token. -/
theorem head?_of_extractPrefix (h : extractPrefix t = some p) : p.head? = t.head? := by
  unfold extractPrefix at h
  by_cases he : '=' ∈ t
  · rw [if_pos he] at h
    obtain rfl := Option.some.inj h
    cases t with
    | nil => cases he
    | cons a t =>
      by_cases ha : a = '='
      · subst ha
        rfl
      · have hcons : (a :: t).takeWhile (fun x => decide (x ≠ '=')) =
            a :: t.takeWhile fun x => decide (x ≠ '=') :=
          List.takeWhile_cons_of_pos (decide_eq_true ha)
        rw [hcons]
        rfl
  · rw [if_neg he] at h
    dsimp only at h
    by_cases hs : (t.reverse.dropWhile isDecimal).reverse = [] ∨
        (t.reverse.dropWhile isDecimal).reverse = t
    · rw [if_pos hs] at h
      cases h
    · rw [if_neg hs] at h
      have hp := Option.some.inj h
      rw [not_or, hp] at hs
      obtain ⟨q, hq⟩ : p <+: t := by
        rw [← hp]
        exact List.rdropWhile_prefix _ _
      cases p with
      | nil => exact absurd rfl hs.1
      | cons a p => rw [← hq]; rfl

theorem SharesPrefix.isArg_iff (h : SharesPrefix c t) : IsArg c ↔ IsArg t := by
  obtain ⟨p, hc, ht⟩ := h
  unfold IsArg
  rw [← head?_of_extractPrefix hc, ← head?_of_extractPrefix ht]

theorem not_sharesPrefix_dashC : ¬ SharesPrefix dashC t := by
  rintro ⟨p, h, -⟩
  have hnone : extractPrefix dashC = none := by decide
  rw [hnone] at h
  cases h

theorem not_isArg_dashC : ¬ IsArg dashC := by decide

theorem Paired.append (hx : Paired xs) (hy : Paired ys) : Paired (xs ++ ys) := by
  induction hx with
  | nil => exact hy
  | flag ha hne _ ih => exact .flag ha hne ih
  | pair ha _ ih => exact .pair ha ih

/-- Dropping only single flags keeps the pairs. -/
theorem Paired.filter {q : Text → Bool} (h : Paired xs) (harg : ∀ t ∈ xs, IsArg t → q t = true)
    (hq : q dashC = true) : Paired (xs.filter q) := by
  induction h with
  | nil => exact .nil
  | @flag t ts ha hne _ ih =>
    have ih := ih fun t ht => harg t (List.mem_cons_of_mem _ ht)
    cases ht : q t with
    | true => rw [List.filter_cons_of_pos ht]; exact .flag ha hne ih
    | false => rw [List.filter_cons_of_neg (by simp [ht])]; exact ih
  | @pair a ts ha _ ih =>
    have ih := ih fun t ht => harg t (List.mem_cons_of_mem _ (List.mem_cons_of_mem _ ht))
    rw [List.filter_cons_of_pos hq,
      List.filter_cons_of_pos (harg a (List.mem_cons_of_mem _ List.mem_cons_self) ha)]
    exact .pair ha ih

/-- Replacing a single flag by one keeps the pairs. -/
theorem Paired.replace (h : Paired (xs ++ t :: ys)) (ht : ¬ IsArg t) (htc : t ≠ dashC)
    (hu : ¬ IsArg u) (huc : u ≠ dashC) : Paired (xs ++ u :: ys) := by
  generalize hl : xs ++ t :: ys = l at h
  induction h generalizing xs with
  | nil => exact absurd hl (by simp)
  | @flag a ts ha hne hts ih =>
    cases xs with
    | nil =>
      obtain ⟨rfl, rfl⟩ := List.cons.inj hl
      exact .flag hu huc hts
    | cons x xs =>
      obtain ⟨rfl, htail⟩ := List.cons.inj hl
      exact .flag ha hne (ih htail)
  | @pair a ts ha hts ih =>
    cases xs with
    | nil => exact absurd (List.cons.inj hl).1 htc
    | cons x xs =>
      obtain ⟨rfl, htail⟩ := List.cons.inj hl
      cases xs with
      | nil => exact absurd ((List.cons.inj htail).1 ▸ ha) ht
      | cons y xs =>
        obtain ⟨rfl, hrest⟩ := List.cons.inj htail
        exact .pair ha (ih hrest)

/-- The `-C` of a sequence over its arguments. -/
def excess (ts : List Text) : ℤ := ts.count dashC - ts.countP fun t => IsArg t

theorem excess_append (xs ys : List Text) : excess (xs ++ ys) = excess xs + excess ys := by
  unfold excess
  rw [List.count_append, List.countP_append]
  push_cast
  ring

theorem excess_cons (t : Text) (ts : List Text) : excess (t :: ts) = excess [t] + excess ts :=
  excess_append [t] ts

theorem excess_flag (ha : ¬ IsArg t) (hc : t ≠ dashC) : excess [t] = 0 := by
  simp [excess, ha, hc]

theorem Paired.excess_eq (h : Paired xs) : excess xs = 0 := by
  induction h with
  | nil => rfl
  | flag ha hne _ ih => rw [excess_cons, excess_flag ha hne, ih, add_zero]
  | @pair a ts ha _ ih =>
    have hpair : excess [dashC, a] = 0 := by
      have hne : a ≠ dashC := fun h => not_isArg_dashC (h ▸ ha)
      simp [excess, ha, not_isArg_dashC, hne]
    exact (excess_append [dashC, a] ts).trans (by rw [hpair, ih, add_zero])

/-- Dropping tokens other than `-C` loses the arguments among them. -/
theorem excess_filter {q : Text → Bool} (hq : q dashC = true) (xs : List Text) :
    excess (xs.filter q) = excess xs + xs.countP fun t => IsArg t ∧ q t = false := by
  induction xs with
  | nil => rfl
  | cons t ts ih =>
    rw [excess_cons t ts, List.countP_cons]
    cases ht : q t with
    | true =>
      rw [List.filter_cons_of_pos ht, excess_cons, ih]
      simp
      ring
    | false =>
      have hne : t ≠ dashC := by
        rintro rfl
        rw [hq] at ht
        cases ht
      rw [List.filter_cons_of_neg (by simp [ht]), ih]
      by_cases ha : IsArg t
      · have hone : excess [t] = -1 := by simp [excess, ha, hne]
        simp [ha, hone]
        ring
      · rw [excess_flag ha hne]
        simp [ha]

/-- A token adds its own excess and one for each argument that it displaces. -/
theorem excess_mergeToken (hg : DisjointGroups groups) (hopt : ¬ SharesGroup groups c dashC) :
    excess rs + excess [c] ≤ excess (mergeToken groups rs c) ∧
      (excess (mergeToken groups rs c) = excess rs + excess [c] →
        ∀ b ∈ rs, IsArg b → ¬ Displaces groups c b) := by
  obtain ⟨g, hgm, hc, he⟩ | ⟨hno, hfree, he⟩ | ⟨hno, xs, u, ys, rfl, hu, -, he⟩ :=
    mergeToken_cases hg rs c
  · have hnot : dashC ∉ g.2 := fun h => hopt (sharesGroup_of_mem hgm hc h)
    have hq := decide_eq_true hnot
    rw [he, excess_append, excess_filter hq]
    refine ⟨by omega, fun h b hb hba hd => ?_⟩
    have hzero : rs.countP (fun t => IsArg t ∧ decide (t ∉ g.2) = false) = 0 := by omega
    have hnot := List.countP_eq_zero.mp hzero b hb
    rcases hd with hd | hd
    · exact hnot (by simp [hba, mem_of_sharesGroup hg hgm hc hd])
    · exact hd.1 (sharesGroup_of_mem hgm hc hc)
  · rw [he, excess_append]
    refine ⟨le_refl _, fun _ b hb _ hd => ?_⟩
    rcases hd with ⟨g, hgm, hc, -⟩ | hd
    · exact hno (sharesGroup_of_mem hgm hc hc)
    · exact hfree b hb hd.2
  · have hne : c ≠ dashC := by
      rintro rfl
      exact not_sharesPrefix_dashC hu
    have hne' : u ≠ dashC := by
      rintro rfl
      exact not_sharesPrefix_dashC hu.symm
    rw [he, excess_append, excess_append, excess_cons c ys, excess_cons u ys]
    by_cases ha : IsArg c
    · have hone {v : Text} (hv : IsArg v) (hvc : v ≠ dashC) : excess [v] = -1 := by
        simp [excess, hv, hvc]
      rw [hone ha hne, hone (hu.isArg_iff.mp ha) hne']
      exact ⟨by omega, fun h => by omega⟩
    · rw [excess_flag ha hne, excess_flag (hu.isArg_iff.not.mp ha) hne']
      refine ⟨by omega, fun _ b _ hba hd => ?_⟩
      rcases hd with ⟨g, hgm, hc, -⟩ | hd
      · exact hno (sharesGroup_of_mem hgm hc hc)
      · exact ha (hd.2.isArg_iff.mpr hba)

/-- The excess of the result is at least that of parent and child, and is equal to it only if no
argument is displaced. -/
theorem excess_foldl (hg : DisjointGroups groups) (hopt : ∀ c ∈ cs, ¬ SharesGroup groups c dashC) :
    excess rs + excess cs ≤ excess (cs.foldl (mergeToken groups) rs) ∧
      (excess (cs.foldl (mergeToken groups) rs) = excess rs + excess cs →
        KeepsArguments groups rs cs) := by
  induction cs generalizing rs with
  | nil =>
    refine ⟨by simp [excess], fun _ xs c ys h => ?_⟩
    exact absurd h (by simp)
  | cons c cs ih =>
    obtain ⟨hle, heq⟩ : excess rs + excess [c] ≤ excess (mergeToken groups rs c) ∧ _ :=
      excess_mergeToken hg (hopt c List.mem_cons_self)
    obtain ⟨ihle, iheq⟩ : excess (mergeToken groups rs c) + excess cs ≤ _ ∧ _ :=
      ih fun d hd => hopt d (List.mem_cons_of_mem _ hd)
    rw [List.foldl_cons, excess_cons c cs]
    refine ⟨by omega, fun h => ?_⟩
    have hc := heq (by omega)
    have hcs := iheq (by omega)
    intro xs d ys hsplit b hb hba
    cases xs with
    | nil =>
      obtain ⟨rfl, -⟩ := List.cons.inj hsplit
      exact hc b (by simpa using hb) hba
    | cons x xs =>
      obtain ⟨rfl, htail⟩ := List.cons.inj hsplit
      refine hcs xs d ys htail b ?_ hba
      rw [List.mem_append, List.mem_cons] at hb
      rw [List.mem_append]
      rcases hb with hb | rfl | hb
      · exact .inl (mem_mergeToken hg hb (hc b hb hba))
      · exact .inl (self_mem_mergeToken hg)
      · exact .inr hb

theorem KeepsArguments.tail (hg : DisjointGroups groups)
    (h : KeepsArguments groups rs (c :: cs)) :
    KeepsArguments groups (mergeToken groups rs c) cs := by
  intro xs d ys hsplit b hb hba
  refine h (c :: xs) d ys (congrArg (c :: ·) hsplit) b ?_ hba
  rw [List.mem_append] at hb
  rw [List.mem_append, List.mem_cons]
  rcases hb with hb | hb
  · exact (mem_of_mem_mergeToken hg hb).imp And.left .inl
  · exact .inr (.inr hb)

theorem KeepsArguments.head (h : KeepsArguments groups rs (c :: cs)) (hb : b ∈ rs) (ha : IsArg b) :
    ¬ Displaces groups c b :=
  h [] c cs rfl b (List.mem_append_left _ hb) ha

/-- A flag that displaces no argument keeps the pairs. -/
theorem Paired.mergeFlag (hg : DisjointGroups groups) (h : Paired rs) (ha : ¬ IsArg c)
    (hc : c ≠ dashC) (hopt : ¬ SharesGroup groups c dashC)
    (hd : ∀ b ∈ rs, IsArg b → ¬ Displaces groups c b) : Paired (mergeToken groups rs c) := by
  have hflag : Paired [c] := .flag ha hc .nil
  obtain ⟨g, hgm, hm, he⟩ | ⟨-, -, he⟩ | ⟨-, xs, u, ys, rfl, hu, -, he⟩ := mergeToken_cases hg rs c
  · have hC : dashC ∉ g.2 := fun hmem => hopt (sharesGroup_of_mem hgm hm hmem)
    have hargs : ∀ t ∈ rs, IsArg t → t ∉ g.2 := fun t ht hta hmem =>
      hd t ht hta (.inl (sharesGroup_of_mem hgm hm hmem))
    rw [he]
    exact (h.filter (fun t ht hta => decide_eq_true (hargs t ht hta)) (decide_eq_true hC)).append
      hflag
  · exact he ▸ h.append hflag
  · rw [he]
    refine h.replace (hu.isArg_iff.not.mp ha) ?_ ha hc
    rintro rfl
    exact not_sharesPrefix_dashC hu.symm

/-- A pair whose argument displaces none keeps the pairs. -/
theorem Paired.mergePair (hg : DisjointGroups groups) (h : Paired rs) (ha : IsArg c)
    (hopt : ¬ SharesGroup groups dashC dashC) (hoptc : ¬ SharesGroup groups c dashC)
    (hd : ∀ b ∈ rs, IsArg b → ¬ Displaces groups c b) :
    Paired (mergeToken groups (mergeToken groups rs dashC) c) := by
  have hopen : mergeToken groups rs dashC = rs ++ [dashC] := by
    obtain ⟨g, hgm, hm, -⟩ | ⟨-, -, he⟩ | ⟨-, xs, u, ys, -, hu, -⟩ := mergeToken_cases hg rs dashC
    · exact absurd (sharesGroup_of_mem hgm hm hm) hopt
    · exact he
    · exact absurd hu not_sharesPrefix_dashC
  rw [hopen]
  obtain ⟨g, hgm, hm, he⟩ | ⟨-, -, he⟩ | ⟨hno, xs, u, ys, hsplit, hu, -, -⟩ :=
    mergeToken_cases hg (rs ++ [dashC]) c
  · have hnot : dashC ∉ g.2 := fun hmem => hoptc (sharesGroup_of_mem hgm hm hmem)
    have hC := decide_eq_true hnot
    have hargs : ∀ t ∈ rs, IsArg t → t ∉ g.2 := fun t ht hta hmem =>
      hd t ht hta (.inl (sharesGroup_of_mem hgm hm hmem))
    have hkept : [dashC].filter (fun t => decide (t ∉ g.2)) = [dashC] := List.filter_cons_of_pos hC
    rw [he, List.filter_append, hkept, List.append_assoc]
    exact (h.filter (fun t ht hta => decide_eq_true (hargs t ht hta)) hC).append (.pair ha .nil)
  · rw [he, List.append_assoc]
    exact h.append (.pair ha .nil)
  · have hmem : u ∈ rs ++ [dashC] := by
      rw [hsplit]
      exact List.mem_append_right _ List.mem_cons_self
    rcases List.mem_append.mp hmem with hmem | hmem
    · exact absurd (.inr ⟨hno, hu⟩) (hd u hmem (hu.isArg_iff.mp ha))
    · rw [List.mem_singleton.mp hmem] at hu
      exact absurd hu.symm not_sharesPrefix_dashC

theorem Paired.foldl (hg : DisjointGroups groups) (hcs : Paired cs) (hrs : Paired rs)
    (hopt : ∀ c ∈ cs, ¬ SharesGroup groups c dashC) (h : KeepsArguments groups rs cs) :
    Paired (cs.foldl (mergeToken groups) rs) := by
  induction hcs generalizing rs with
  | nil => exact hrs
  | @flag t ts ha hne _ ih =>
    refine ih (hrs.mergeFlag hg ha hne (hopt t List.mem_cons_self) fun b hb => h.head hb)
      (fun c hc => hopt c (List.mem_cons_of_mem _ hc)) (h.tail hg)
  | @pair a ts ha _ ih =>
    have hC := hopt dashC List.mem_cons_self
    have haC := hopt a (List.mem_cons_of_mem _ List.mem_cons_self)
    refine ih (hrs.mergePair hg ha hC haC fun b hb hba => ?_)
      (fun c hc => hopt c (List.mem_cons_of_mem _ (List.mem_cons_of_mem _ hc))) ((h.tail hg).tail hg)
    exact h [dashC] a ts rfl b (List.mem_append_left _ hb) hba

/-- **Merging gives pairs again iff no argument is displaced.** -/
theorem paired_foldl_iff (hg : DisjointGroups groups) (hrs : Paired rs) (hcs : Paired cs)
    (hopt : ∀ c ∈ cs, ¬ SharesGroup groups c dashC) :
    Paired (cs.foldl (mergeToken groups) rs) ↔ KeepsArguments groups rs cs := by
  refine ⟨fun h => (excess_foldl hg hopt).2 ?_, hcs.foldl hg hrs hopt⟩
  rw [h.excess_eq, hrs.excess_eq, hcs.excess_eq, add_zero]

end Pairs

/-! ## Members -/

section Members

variable {groups : ConflictGroups} {rs xs ys zs cs parent : List Text} {c d t u b m : Text}
  {E F : List Text} {g : String × List Text}

/-- No token takes the place of a member that has the tokens `E` before it. -/
def NoHit (groups : ConflictGroups) (m : Text) (E cs : List Text) : Prop :=
  ∀ zs c ws, cs = zs ++ c :: ws → ¬ Grouped groups c → SharesPrefix m c →
    (∀ d ∈ zs, Grouped groups d ∨ ¬ SharesPrefix m d) →
    ∃ t ∈ E, SharesPrefix m t ∧ ∀ d ∈ zs, ¬ SharesGroup groups d t

/-- A group that no token is of any more stays empty. -/
theorem filter_foldl_eq_nil (hg : DisjointGroups groups) (hrs : ∀ t ∈ rs, t ∉ g.2)
    (hcs : ∀ d ∈ cs, d ∉ g.2) :
    (cs.foldl (mergeToken groups) rs).filter (fun t => t ∈ g.2) = [] := by
  induction cs generalizing rs with
  | nil => exact List.filter_eq_nil_iff.mpr fun t ht h => hrs t ht (of_decide_eq_true h)
  | cons c cs ih =>
    refine ih (fun t ht => ?_) fun d hd => hcs d (List.mem_cons_of_mem _ hd)
    rcases mem_of_mem_mergeToken hg ht with ⟨ht, -⟩ | rfl
    · exact hrs t ht
    · exact hcs t List.mem_cons_self

/-- A token that shares neither the group nor the family of the member leaves it in place. -/
theorem noHit_cons_of_not (hc : Grouped groups c ∨ ¬ SharesPrefix m c) {E' : List Text}
    (hE : ∀ t, SharesPrefix m t → (t ∈ E' ↔ t ∈ E ∧ ¬ SharesGroup groups c t)) :
    NoHit groups m E (c :: cs) ↔ NoHit groups m E' cs := by
  constructor
  · intro h zs d ws hsplit hd hmd hzs
    obtain ⟨t, ht, hmt, hgt⟩ := h (c :: zs) d ws (congrArg (c :: ·) hsplit) hd hmd (by
      intro e he
      rcases List.mem_cons.mp he with rfl | he
      · exact hc
      · exact hzs e he)
    exact ⟨t, (hE t hmt).mpr ⟨ht, hgt c List.mem_cons_self⟩, hmt,
      fun e he => hgt e (List.mem_cons_of_mem _ he)⟩
  · intro h zs d ws hsplit hd hmd hzs
    cases zs with
    | nil =>
      obtain ⟨rfl, -⟩ := List.cons.inj hsplit
      exact absurd hc (not_or.mpr ⟨hd, not_not_intro hmd⟩)
    | cons e zs =>
      obtain ⟨rfl, htail⟩ := List.cons.inj hsplit
      obtain ⟨t, ht, hmt, hgt⟩ := h zs d ws htail hd hmd fun e he => hzs e (List.mem_cons_of_mem _ he)
      obtain ⟨htE, hct⟩ := (hE t hmt).mp ht
      refine ⟨t, htE, hmt, fun e he => ?_⟩
      rcases List.mem_cons.mp he with rfl | he
      · exact hct
      · exact hgt e he

/-- A token of the family that takes another's place leaves the member shielded. -/
theorem noHit_of_shield (hc : ¬ Grouped groups c) (hm : SharesPrefix m c) (hmem : c ∈ E) :
    NoHit groups m E cs := by
  intro zs d ws _ _ _ _
  refine ⟨c, hmem, hm, fun e _ he => hc ?_⟩
  obtain ⟨g, hgm, -, hcg⟩ := he
  exact sharesGroup_of_mem hgm hcg hcg

/-- Two ways to split a list at an element. -/
theorem split_cases (h : E ++ m :: F = xs ++ u :: ys) :
    (E = xs ∧ m = u ∧ F = ys) ∨ (∃ F₁, xs = E ++ m :: F₁ ∧ F = F₁ ++ u :: ys) ∨
      ∃ E₂, E = xs ++ u :: E₂ ∧ ys = E₂ ++ m :: F := by
  obtain ⟨as, rfl, hrest⟩ | ⟨bs, rfl, hrest⟩ := List.append_eq_append_iff.mp h
  · cases as with
    | nil =>
      obtain ⟨rfl, rfl⟩ := List.cons.inj hrest
      exact .inl ⟨(List.append_nil _).symm, rfl, rfl⟩
    | cons a as =>
      obtain ⟨rfl, rfl⟩ := List.cons.inj hrest
      exact .inr (.inl ⟨as, rfl, rfl⟩)
  · cases bs with
    | nil =>
      obtain ⟨rfl, rfl⟩ := List.cons.inj hrest
      exact .inl ⟨List.append_nil _, rfl, rfl⟩
    | cons b bs =>
      obtain ⟨rfl, rfl⟩ := List.cons.inj hrest
      exact .inr (.inr ⟨bs, rfl, rfl⟩)

/-- **A member of a group stays the only one iff no later token hits it.** -/
theorem filter_foldl_iff (hg : DisjointGroups groups) (hgm : g ∈ groups.items) (hm : m ∈ g.2)
    (hE : ∀ t ∈ E, t ∉ g.2) (hF : ∀ t ∈ F, t ∉ g.2) (hcs : ∀ d ∈ cs, d ∉ g.2) :
    (cs.foldl (mergeToken groups) (E ++ m :: F)).filter (fun t => t ∈ g.2) = [m] ↔
      NoHit groups m E cs := by
  induction cs generalizing E F with
  | nil =>
    refine iff_of_true ?_ fun zs c ws h => absurd h (by simp)
    have hself : (m :: F).filter (fun t => decide (t ∈ g.2)) =
        m :: F.filter (fun t => decide (t ∈ g.2)) :=
      List.filter_cons_of_pos (decide_eq_true hm)
    rw [List.foldl_nil, List.filter_append, hself,
      List.filter_eq_nil_iff.mpr fun t ht h => hE t ht (of_decide_eq_true h),
      List.filter_eq_nil_iff.mpr fun t ht h => hF t ht (of_decide_eq_true h), List.nil_append]
  | cons c cs ih =>
    have hc := hcs c List.mem_cons_self
    have hcs' : ∀ d ∈ cs, d ∉ g.2 := fun d hd => hcs d (List.mem_cons_of_mem _ hd)
    rw [List.foldl_cons]
    obtain ⟨g', hgm', hcg, he⟩ | ⟨hno, hfree, he⟩ | ⟨hno, xs, u, ys, hsplit, hu, hfirst, he⟩ :=
      mergeToken_cases hg (E ++ m :: F) c
    · -- the group of the token is another one
      have hmg' : m ∉ g'.2 := fun h => hc (hg g hgm g' hgm' m hm h ▸ hcg)
      have hkept : (E ++ m :: F).filter (fun t => t ∉ g'.2) ++ [c] =
          E.filter (fun t => t ∉ g'.2) ++ m :: (F.filter (fun t => t ∉ g'.2) ++ [c]) := by
        rw [List.filter_append, List.append_assoc]
        refine congrArg _ ?_
        exact congrArg (· ++ [c]) (List.filter_cons_of_pos (decide_eq_true hmg'))
      rw [he, hkept, ih (fun t ht => hE t (List.mem_filter.mp ht).1) (fun t ht => ?_) hcs']
      · refine (noHit_cons_of_not (.inl (sharesGroup_of_mem hgm' hcg hcg)) fun t _ => ?_).symm
        rw [List.mem_filter, decide_eq_true_eq]
        exact and_congr_right fun _ => not_congr
          ⟨fun h => sharesGroup_of_mem hgm' hcg h, fun h => mem_of_sharesGroup hg hgm' hcg h⟩
      · rcases List.mem_append.mp ht with ht | ht
        · exact hF t (List.mem_filter.mp ht).1
        · exact List.mem_singleton.mp ht ▸ hc
    · -- it is appended
      have hmc : ¬ SharesPrefix m c := fun h =>
        hfree m (List.mem_append_right _ List.mem_cons_self) h.symm
      rw [he, List.append_assoc, List.cons_append, ih hE (fun t ht => ?_) hcs']
      · refine (noHit_cons_of_not (.inr hmc) fun t _ => ?_).symm
        exact (and_iff_left (not_sharesGroup_of_not_grouped hno)).symm
      · rcases List.mem_append.mp ht with ht | ht
        · exact hF t ht
        · exact List.mem_singleton.mp ht ▸ hc
    · rw [he]
      obtain ⟨rfl, rfl, rfl⟩ | ⟨F₁, rfl, rfl⟩ | ⟨E₂, rfl, rfl⟩ := split_cases hsplit
      · -- it takes the place of the member
        refine iff_of_false (fun h => ?_) fun h => ?_
        · rw [filter_foldl_eq_nil hg (fun t ht => ?_) hcs'] at h
          · cases h
          · rcases List.mem_append.mp ht with ht | ht
            · exact hE t ht
            · rcases List.mem_cons.mp ht with rfl | ht
              · exact hc
              · exact hF t ht
        · obtain ⟨t, ht, hmt, -⟩ := h [] c cs rfl hno hu.symm (by simp)
          exact hfirst t ht (hu.trans hmt)
      · -- it takes the place of a later token
        have hmc : ¬ SharesPrefix m c := fun h =>
          hfirst m (List.mem_append_right _ List.mem_cons_self) h.symm
        rw [List.append_assoc, List.cons_append, ih hE (fun t ht => ?_) hcs']
        · refine (noHit_cons_of_not (.inr hmc) fun t _ => ?_).symm
          exact (and_iff_left (not_sharesGroup_of_not_grouped hno)).symm
        · rcases List.mem_append.mp ht with ht | ht
          · exact hF t (List.mem_append_left _ ht)
          · rcases List.mem_cons.mp ht with rfl | ht
            · exact hc
            · exact hF t (List.mem_append_right _ (List.mem_cons_of_mem _ ht))
      · -- it takes the place of an earlier token
        have hE' : ∀ t ∈ xs ++ c :: E₂, t ∉ g.2 := by
          intro t ht
          rcases List.mem_append.mp ht with ht | ht
          · exact hE t (List.mem_append_left _ ht)
          · rcases List.mem_cons.mp ht with rfl | ht
            · exact hc
            · exact hE t (List.mem_append_right _ (List.mem_cons_of_mem _ ht))
        have hassoc : xs ++ c :: (E₂ ++ m :: F) = (xs ++ c :: E₂) ++ m :: F := by
          rw [List.append_assoc, List.cons_append]
        rw [hassoc, ih hE' hF hcs']
        by_cases hmc : SharesPrefix m c
        · refine iff_of_true (noHit_of_shield hno hmc
            (List.mem_append_right _ List.mem_cons_self)) ?_
          intro zs d ws hzs hd hmd hbefore
          cases zs with
          | nil =>
            obtain ⟨rfl, -⟩ := List.cons.inj hzs
            exact ⟨u, List.mem_append_right _ List.mem_cons_self, hmc.trans hu, by simp⟩
          | cons e zs =>
            obtain ⟨rfl, -⟩ := List.cons.inj hzs
            exact absurd (hbefore c List.mem_cons_self) (not_or.mpr ⟨hno, not_not_intro hmc⟩)
        · refine (noHit_cons_of_not (.inr hmc) fun t ht => ?_).symm
          have hne : t ≠ c := fun h => hmc (h ▸ ht)
          have hne' : t ≠ u := fun h => hmc ((h ▸ ht).trans hu.symm)
          rw [and_iff_left (not_sharesGroup_of_not_grouped hno), List.mem_append, List.mem_append,
            List.mem_cons, List.mem_cons, or_iff_right hne, or_iff_right hne']

/-! ### What stands before a member -/

/-- A token of the result comes from the parent or the child, and nothing evicted it since. -/
theorem origin_of_mem_foldl (hg : DisjointGroups groups)
    (h : t ∈ cs.foldl (mergeToken groups) parent) :
    (t ∈ parent ∧ ∀ d ∈ cs, ¬ SharesGroup groups d t) ∨
      ∃ us vs, cs = us ++ t :: vs ∧ ∀ d ∈ vs, ¬ SharesGroup groups d t := by
  induction cs using List.reverseRecOn with
  | nil => exact .inl ⟨h, by simp⟩
  | append_singleton cs c ih =>
    rw [List.foldl_append, List.foldl_cons, List.foldl_nil] at h
    rcases mem_of_mem_mergeToken hg h with ⟨h, hct⟩ | rfl
    · rcases ih h with ⟨hp, hall⟩ | ⟨us, vs, rfl, hall⟩
      · refine .inl ⟨hp, fun d hd => ?_⟩
        rcases List.mem_append.mp hd with hd | hd
        · exact hall d hd
        · exact List.mem_singleton.mp hd ▸ hct
      · refine .inr ⟨us, vs ++ [c], by rw [List.append_assoc, List.cons_append], fun d hd => ?_⟩
        rcases List.mem_append.mp hd with hd | hd
        · exact hall d hd
        · exact List.mem_singleton.mp hd ▸ hct
    · exact .inr ⟨cs, [], rfl, by simp⟩

/-- A token of a family that nothing evicts leaves one of the family: itself, or one that is in no
group. -/
theorem shield_foldl (hg : DisjointGroups groups)
    (h : ∃ t ∈ rs, SharesPrefix m t ∧ (t = b ∨ ¬ Grouped groups t))
    (hcs : ∀ d ∈ cs, ¬ SharesGroup groups d b) :
    ∃ t ∈ cs.foldl (mergeToken groups) rs, SharesPrefix m t ∧ (t = b ∨ ¬ Grouped groups t) := by
  induction cs generalizing rs with
  | nil => exact h
  | cons c cs ih =>
    refine ih ?_ fun d hd => hcs d (List.mem_cons_of_mem _ hd)
    obtain ⟨t, ht, hmt, htb⟩ := h
    have hct : ¬ SharesGroup groups c t := by
      rcases htb with rfl | hno
      · exact hcs c List.mem_cons_self
      · exact fun ⟨_, hgm, _, htg⟩ => hno (sharesGroup_of_mem hgm htg htg)
    by_cases hd : Displaces groups c t
    · obtain ⟨hno, hct⟩ := hd.resolve_left hct
      exact ⟨c, self_mem_mergeToken hg, hmt.trans hct.symm, .inr hno⟩
    · exact ⟨t, mem_mergeToken hg ht hd, hmt, htb⟩

theorem exists_shield (hg : DisjointGroups groups) (h : Shielded groups parent xs m zs) :
    ∃ t ∈ xs.foldl (mergeToken groups) parent, SharesPrefix m t ∧
      ∀ d ∈ m :: zs, ¬ SharesGroup groups d t := by
  have hclear {s t : Text} (hs : ∀ d ∈ m :: zs, ¬ SharesGroup groups d s)
      (ht : t = s ∨ ¬ Grouped groups t) : ∀ d ∈ m :: zs, ¬ SharesGroup groups d t := by
    rcases ht with rfl | hno
    · exact hs
    · exact fun d _ ⟨_, hgm, _, htg⟩ => hno (sharesGroup_of_mem hgm htg htg)
  rcases h with ⟨s, hs, hms, hall⟩ | ⟨us, s, vs, rfl, hms, hall⟩
  · obtain ⟨t, ht, hmt, hts⟩ := shield_foldl hg ⟨s, hs, hms, .inl rfl⟩
      fun d hd => hall d (List.mem_append_left _ hd)
    exact ⟨t, ht, hmt, hclear (fun d hd => hall d (List.mem_append_right _ hd)) hts⟩
  · have hmem : s ∈ mergeToken groups (us.foldl (mergeToken groups) parent) s :=
      self_mem_mergeToken hg
    obtain ⟨t, ht, hmt, hts⟩ := shield_foldl hg ⟨s, hmem, hms, .inl rfl⟩
      fun d (hd : d ∈ vs) => hall d (List.mem_append_left _ hd)
    refine ⟨t, ?_, hmt, hclear (fun d hd => hall d (List.mem_append_right _ hd)) hts⟩
    rwa [List.foldl_append, List.foldl_cons]

/-- The last child member of a group is the only one in the result iff it is shielded. -/
theorem member_iff (hg : DisjointGroups groups) (hgm : g ∈ groups.items) (hm : m ∈ g.2)
    (hys : ∀ d ∈ ys, d ∉ g.2) :
    ((xs ++ m :: ys).foldl (mergeToken groups) parent).filter (fun t => t ∈ g.2) = [m] ↔
      ∀ zs c ws, ys = zs ++ c :: ws → ¬ Grouped groups c → SharesPrefix m c →
        (∀ d ∈ zs, Grouped groups d ∨ ¬ SharesPrefix m d) → Shielded groups parent xs m zs := by
  have hstep : mergeToken groups (xs.foldl (mergeToken groups) parent) m =
      (xs.foldl (mergeToken groups) parent).filter (fun t => t ∉ g.2) ++ [m] := by
    obtain ⟨g', hgm', hmg', he⟩ | ⟨hno, -⟩ | ⟨hno, -⟩ :=
      mergeToken_cases hg (xs.foldl (mergeToken groups) parent) m
    · rw [he, hg g' hgm' g hgm m hmg' hm]
    · exact absurd (sharesGroup_of_mem hgm hm hm) hno
    · exact absurd (sharesGroup_of_mem hgm hm hm) hno
  rw [List.foldl_append, List.foldl_cons, hstep, filter_foldl_iff (F := []) hg hgm hm
    (fun t ht => of_decide_eq_true (List.mem_filter.mp ht).2) (by simp) hys]
  refine forall_congr' fun zs => forall_congr' fun c => forall_congr' fun ws =>
    forall_congr' fun _ => forall_congr' fun _ => forall_congr' fun _ => forall_congr' fun _ => ?_
  constructor
  · rintro ⟨t, ht, hmt, hzs⟩
    obtain ⟨ht, htg⟩ := List.mem_filter.mp ht
    have hmt' : ∀ d ∈ m :: zs, ¬ SharesGroup groups d t := by
      intro d hd
      rcases List.mem_cons.mp hd with rfl | hd
      · exact fun hs => of_decide_eq_true htg (mem_of_sharesGroup hg hgm hm hs)
      · exact hzs d hd
    rcases origin_of_mem_foldl hg ht with ⟨hp, hall⟩ | ⟨us, vs, rfl, hall⟩
    · exact .inl ⟨t, hp, hmt, fun d hd => (List.mem_append.mp hd).elim (hall d) (hmt' d)⟩
    · exact .inr ⟨us, t, vs, rfl, hmt, fun d hd => (List.mem_append.mp hd).elim (hall d) (hmt' d)⟩
  · intro h
    obtain ⟨t, ht, hmt, hall⟩ := exists_shield hg h
    refine ⟨t, List.mem_filter.mpr ⟨ht, decide_eq_true ?_⟩, hmt,
      fun d hd => hall d (List.mem_cons_of_mem _ hd)⟩
    exact fun htg => hall m List.mem_cons_self (sharesGroup_of_mem hgm hm htg)

end Members

/-! ## Merging values -/

section Values

variable {groups : ConflictGroups} {parent child : Text}

theorem mergeAppendValue_str (groups : ConflictGroups) (parent child : Text) :
    mergeAppendValue groups (.str parent) (.str child) =
      .ok (.str (unwords ((words child).foldl (mergeToken groups) (words parent)))) := rfl

theorem words_mergeAppendValue (hg : DisjointGroups groups) :
    words (unwords ((words child).foldl (mergeToken groups) (words parent))) =
      (words child).foldl (mergeToken groups) (words parent) := by
  refine words_unwords fun w hw => ?_
  have hword {v : Text} (hv : w ∈ words v) : w ≠ [] ∧ ∀ c ∈ w, isSpace c = false :=
    ⟨(mem_words hv).1, fun c hc => ((mem_words hv).2 c hc).1⟩
  rcases origin_of_mem_foldl hg hw with ⟨h, -⟩ | ⟨us, vs, h, -⟩
  · exact hword h
  · exact hword (h ▸ List.mem_append_right _ List.mem_cons_self)

end Values

end Sysforge.Profile
