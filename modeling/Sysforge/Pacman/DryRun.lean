import Sysforge.Pacman.BatchInstall

/-!
# Reading the dry run

The pattern for a broken dependency finds the lines about installed holders and no others
(`brokenIn_missingOutput`): a match begins at a quote that `breaks dependency` stands before.
-/

namespace Sysforge.Pacman

open Text Re

variable {s t u v dep holder : Text}

/-- What the pattern begins with. -/
def breaksKey : Text := breaksDependency ++ ['\'']

/-- No space and no quote, and something. -/
structure IsWord (t : Text) : Prop where
  ne_nil : t ≠ []
  space : ∀ c ∈ t, isSpace c = false
  quote : '\'' ∉ t

/-! ## The front of the text -/

theorem forward_breaksDepRe : breaksDepRe.Forward := by
  have hlit : ∀ w : Text, (lit w).Forward := by
    intro w
    induction w with
    | nil => trivial
    | cons a w ih => exact ⟨trivial, ih⟩
  exact ⟨hlit _, ⟨trivial, trivial⟩, hlit _, trivial, trivial⟩

theorem matchAt_of_not (h : ¬breaksKey <+: t) : matchAt breaksDepRe t 0 = none := by
  have hlit : run t (lit (breaksDependency ++ ['\''])) 0 [] = [] := run_lit_of_not h
  rw [matchAt, breaksDepRe, run_seq, hlit]
  rfl

/-- A text in which the pattern does not begin. -/
theorem brokenIn_skip (h : ∀ v w, u = v ++ w → w ≠ [] → ¬breaksKey <+: w ++ t) :
    brokenIn (u ++ t) = brokenIn t := by
  induction u with
  | nil => rfl
  | cons c u ih =>
    have hnone := matchAt_of_not (h [] (c :: u) rfl (List.cons_ne_nil c u))
    have hscan : finditer breaksDepRe (c :: (u ++ t)) =
        (finditer breaksDepRe (u ++ t)).map (Match.shift 1) :=
      finditer_cons forward_breaksDepRe hnone
    rw [← ih fun v w hv hw => h (c :: v) w (congrArg _ hv) hw, List.cons_append, brokenIn, hscan,
      List.map_map, brokenIn]
    refine List.map_congr_left fun m _ => ?_
    exact congrArg₂ Prod.mk (group_shift (u := [c]) m 2) (group_shift (u := [c]) m 1)

/-- What stands before the first quote decides about a match. -/
theorem eq_breaksDependency (hu : '\'' ∉ u) (h : breaksKey <+: u ++ '\'' :: t) : u = breaksDependency := by
  obtain ⟨r, hr⟩ := h
  have hbefore : '\'' ∉ breaksDependency := by decide
  have hne : ∀ {l : Text}, '\'' ∉ l → ∀ c ∈ l, (c ≠ '\'' : Bool) = true :=
    fun hl c hc => decide_eq_true fun heq => hl (heq ▸ hc)
  have htake := congrArg (List.takeWhile fun c => c ≠ '\'') hr
  rw [breaksKey, List.append_assoc, List.takeWhile_append_of_pos (hne hbefore),
    List.takeWhile_append_of_pos (hne hu)] at htake
  have hquote : ∀ l : Text, ('\'' :: l).takeWhile (fun c => c ≠ '\'') = [] := fun _ => rfl
  rw [List.singleton_append, hquote, hquote, List.append_nil, List.append_nil] at htake
  exact htake.symm

/-! ## A line about a holder -/

theorem matchAt_of_head {r : Re} {i : ℕ} {q : ℕ × Groups} (h : (run t r i []).head? = some q) :
    matchAt r t i = some ⟨i, q.1, q.2⟩ := by
  rw [matchAt, h]
  rfl

theorem slice_of_drop {w : Text} {i : ℕ} (h : t.drop i = w ++ s) :
    slice t i (i + w.length) = w := by
  rw [slice, List.drop_take, h, Nat.add_sub_cancel_left, List.take_left]

/-- The match of a line, with its groups. -/
theorem matchAt_held (hdep : IsWord dep) (hholder : IsWord holder) {T : Text}
    (hT : breaksKey ++ (dep ++ ('\'' :: requiredBy ++ (holder ++ '\n' :: t))) = T) :
    ∃ m, matchAt breaksDepRe T 0 = some m ∧
      m.stop = breaksKey.length + dep.length + ('\'' :: requiredBy).length + holder.length ∧
      m.group T 1 = dep ∧ m.group T 2 = holder := by
  have hkey : T.drop breaksKey.length = dep ++ ('\'' :: requiredBy ++ (holder ++ '\n' :: t)) := by
    rw [← hT, List.drop_left]
  have hmid : T.drop (breaksKey.length + dep.length) =
      '\'' :: requiredBy ++ (holder ++ '\n' :: t) := by
    rw [← List.drop_drop, hkey, List.drop_left]
  have hlast : T.drop (breaksKey.length + dep.length + ('\'' :: requiredBy).length) =
      holder ++ '\n' :: t := by
    rw [← List.drop_drop, hmid, List.drop_left]
  obtain ⟨a, dep', rfl⟩ := List.exists_cons_of_ne_nil hdep.ne_nil
  obtain ⟨b, holder', rfl⟩ := List.exists_cons_of_ne_nil hholder.ne_nil
  have hquote : ∀ c ∈ a :: dep', notQuote c = true :=
    fun c hc => decide_eq_true fun heq => hdep.quote (heq ▸ hc)
  have hspace : ∀ c ∈ b :: holder', (!isSpace c) = true := fun c hc => by
    rw [hholder.space c hc]
    rfl
  -- the quote behind the dependency cannot be part of it
  have hend : ∀ j d, T[j]?.any notQuote = true →
      run T (.seq (lit ('\'' :: requiredBy)) (.group 2 (plus nonSpace))) j d = [] := by
    intro j d hj
    rw [run_seq, run_lit_of_not, List.flatMap_nil]
    rintro ⟨r, hr⟩
    rw [← List.head?_drop, ← hr] at hj
    exact Bool.false_ne_true hj
  have hword := run_group_word_seq (n := 1) (c := []) hkey (hquote a List.mem_cons_self)
    (fun c hc => hquote c (List.mem_cons_of_mem a hc))
    (fun c hc => by rw [← Option.some.inj hc]; rfl) hend
  have hdepEnd : breaksKey.length + 1 + dep'.length = breaksKey.length + (a :: dep').length := by
    rw [List.length_cons, Nat.add_assoc, Nat.add_comm 1]
  have hlit := run_lit_of_begins (t := T) (i := breaksKey.length + (a :: dep').length)
    (c := [(1, breaksKey.length, breaksKey.length + (a :: dep').length)]) ⟨_, hmid.symm⟩
  have hholderRun := head?_run_word (p := fun c => !isSpace c) (q := fun c => !isSpace c)
    (c := [(1, breaksKey.length, breaksKey.length + (a :: dep').length)]) hlast
    (hspace b List.mem_cons_self) (fun c hc => hspace c (List.mem_cons_of_mem b hc))
    (fun c hc => by rw [← Option.some.inj hc]; rfl)
  have hkeyRun : run T (lit (breaksDependency ++ ['\''])) 0 [] = [(breaksKey.length, [])] := by
    rw [run_lit_of_begins ⟨_, hT⟩, Nat.zero_add]
    rfl
  have hafter : (run T (.seq (lit ('\'' :: requiredBy)) (.group 2 (plus nonSpace)))
      (breaksKey.length + (a :: dep').length)
      [(1, breaksKey.length, breaksKey.length + (a :: dep').length)]).head? =
    some (breaksKey.length + (a :: dep').length + ('\'' :: requiredBy).length + 1 + holder'.length,
      [(2, breaksKey.length + (a :: dep').length + ('\'' :: requiredBy).length,
        breaksKey.length + (a :: dep').length + ('\'' :: requiredBy).length + 1 + holder'.length),
        (1, breaksKey.length, breaksKey.length + (a :: dep').length)]) := by
    rw [run_seq, hlit, List.flatMap_singleton, run_group, List.head?_map]
    exact congrArg _ hholderRun
  have hfirst : (run T breaksDepRe 0 []).head? =
      (run T (.seq (lit ('\'' :: requiredBy)) (.group 2 (plus nonSpace)))
        (breaksKey.length + (a :: dep').length)
        [(1, breaksKey.length, breaksKey.length + (a :: dep').length)]).head? := by
    rw [breaksDepRe, run_seq, hkeyRun, List.flatMap_singleton]
    refine (congrArg List.head? hword).trans ?_
    rw [hdepEnd]
  have hrun := hfirst.trans hafter
  have hstop : breaksKey.length + (a :: dep').length + ('\'' :: requiredBy).length + 1 +
      holder'.length = breaksKey.length + (a :: dep').length + ('\'' :: requiredBy).length +
        (b :: holder').length := by
    rw [@List.length_cons _ b, Nat.add_assoc, Nat.add_comm 1]
  rw [hstop] at hrun
  exact ⟨_, matchAt_of_head hrun, rfl, slice_of_drop hkey, slice_of_drop hlast⟩

/-- A line about a holder is read as one. -/
theorem brokenIn_held (hdep : IsWord dep) (hholder : IsWord holder) (t : Text) :
    brokenIn (breaksKey ++ (dep ++ ('\'' :: requiredBy ++ (holder ++ '\n' :: t)))) =
      (holder, dep) :: brokenIn t := by
  obtain ⟨m, hm, hstop, hone, htwo⟩ := matchAt_held (t := t) hdep hholder rfl
  have hnewline : brokenIn ('\n' :: t) = brokenIn t := by
    refine brokenIn_skip (u := ['\n']) fun v w hv hw h => ?_
    obtain ⟨c, w, rfl⟩ := List.exists_cons_of_ne_nil hw
    have hc : c ∈ ['\n'] := hv ▸ List.mem_append_right v List.mem_cons_self
    obtain ⟨r, hr⟩ := h
    rw [List.mem_singleton.mp hc] at hr
    exact absurd (List.cons.inj hr).1 (by decide)
  have hassoc : breaksKey ++ (dep ++ ('\'' :: requiredBy ++ (holder ++ '\n' :: t))) =
      (breaksKey ++ (dep ++ ('\'' :: requiredBy ++ holder))) ++ '\n' :: t := by
    simp only [List.append_assoc]
  have hlength : m.stop = (breaksKey ++ (dep ++ ('\'' :: requiredBy ++ holder))).length := by
    rw [hstop]
    simp only [List.length_append, Nat.add_assoc]
  have hscan := finditer_append forward_breaksDepRe (hassoc ▸ hm) hlength (List.cons_ne_nil _ _)
  rw [← hassoc] at hscan
  rw [brokenIn, hscan, List.map_cons, hone, htwo, List.map_map, ← hnewline, brokenIn]
  refine congrArg _ (List.map_congr_left fun m' _ => ?_)
  rw [hassoc]
  exact congrArg₂ Prod.mk (group_shift m' 2) (group_shift m' 1)

/-! ## The whole output -/

/-- A line break does not stand in the key. -/
theorem newline_skip (hu : '\'' ∉ u) (t : Text) :
    brokenIn (u ++ '\n' :: t) = brokenIn t := by
  have happend : u ++ '\n' :: t = (u ++ ['\n']) ++ t := List.append_cons u '\n' t
  rw [happend]
  refine brokenIn_skip fun v w hv hw h => ?_
  have hquote : '\'' ∉ w := by
    intro hmem
    have hmem' : '\'' ∈ u ++ ['\n'] := hv ▸ List.mem_append_right v hmem
    rcases List.mem_append.mp hmem' with h' | h'
    · exact hu h'
    · exact absurd h' (by decide)
  have hnewline : '\n' ∈ w := by
    have hlast := congrArg List.getLast? hv
    rw [List.getLast?_append_of_ne_nil _ hw, List.getLast?_concat] at hlast
    exact List.mem_of_getLast? hlast.symm
  rcases List.prefix_or_prefix_of_prefix h (List.prefix_append w t) with hpre | hpre
  · exact hquote (hpre.subset (by decide))
  · exact absurd (hpre.subset hnewline) (by decide)

/-- Up to a quote the pattern begins nowhere but before the quote. -/
theorem quote_skip (hu : '\'' ∉ u) (h : ∀ v w, u = v ++ w → w ≠ breaksDependency) (t : Text) :
    brokenIn (u ++ '\'' :: t) = brokenIn t := by
  have hquote : brokenIn ('\'' :: t) = brokenIn t := by
    refine brokenIn_skip (u := ['\'']) fun v w hv hw hpre => ?_
    obtain ⟨c, w, rfl⟩ := List.exists_cons_of_ne_nil hw
    have hc : c ∈ ['\''] := hv ▸ List.mem_append_right v List.mem_cons_self
    obtain ⟨r, hr⟩ := hpre
    rw [List.mem_singleton.mp hc] at hr
    exact absurd (List.cons.inj hr).1 (by decide)
  rw [← hquote]
  refine brokenIn_skip fun v w hv _ hpre => h v w hv (eq_breaksDependency (fun hmem => hu ?_) hpre)
  exact hv ▸ List.mem_append_right v hmem

variable {files : List Package} {p q c : Package}

/-- The line of an incoming package's dependency is passed over. -/
theorem brokenIn_unmetLine (hdep : IsWord dep) (hp : '\'' ∉ p.name) (t : Text) :
    brokenIn (unmetLine (dep, p) ++ t) = brokenIn t := by
  have hline : unmetLine (dep, p) ++ t =
      unableToSatisfy ++ '\'' :: (dep ++ '\'' :: (requiredBy ++ p.name ++ '\n' :: t)) := by
    rw [unmetLine, heldLine]
    simp only [List.append_assoc, List.cons_append, List.nil_append]
  rw [hline, quote_skip (by decide), quote_skip hdep.quote, newline_skip]
  · exact fun hmem => (List.mem_append.mp hmem).elim (by decide) hp
  · rintro v w rfl rfl
    have hspace := hdep.space ' ' (List.mem_append_right v (by decide))
    exact absurd hspace (by decide)
  · rintro v w hv rfl
    have hsuffix : breaksDependency.isSuffixOf unableToSatisfy = true :=
      List.isSuffixOf_iff_suffix.mpr ⟨v, hv.symm⟩
    exact absurd hsuffix (by decide)

/-- The line of a holder is found. -/
theorem brokenIn_breaksLine (hdep : IsWord dep) (hq : IsWord q.name) (hc : '\'' ∉ c.name)
    (hversion : '\'' ∉ c.version) (t : Text) :
    brokenIn (breaksLine files (c, dep, q) ++ t) = (q.name, dep) :: brokenIn t := by
  have hlead : '\'' ∉ breaksLead files c := by
    have hinstalling : '\'' ∉ installing := by decide
    have hremoving : '\'' ∉ removing := by decide
    have hopen : '\'' ∉ ([' ', '('] : Text) := by decide
    have hclose : '\'' ∉ ([')', ' '] : Text) := by decide
    have hblank : '\'' ∉ ([' '] : Text) := by decide
    rw [breaksLead]
    split_ifs
    · simp only [List.mem_append, not_or]
      exact ⟨hinstalling, hc, hopen, hversion, hclose⟩
    · simp only [List.mem_append, not_or]
      exact ⟨hremoving, hc, hblank⟩
  have hline : breaksLine files (c, dep, q) ++ t = breaksLead files c ++
      (breaksKey ++ (dep ++ ('\'' :: requiredBy ++ (q.name ++ '\n' :: t)))) := by
    rw [breaksLine, heldLine, breaksKey]
    simp only [List.append_assoc, List.cons_append, List.nil_append]
  rw [hline, ← brokenIn_held hdep hq]
  refine brokenIn_skip fun v w hv hw hpre => hw ?_
  have hsame : w ++ breaksDependency = breaksDependency := by
    rw [breaksKey, List.append_assoc, ← List.append_assoc w] at hpre
    refine eq_breaksDependency (fun hmem => ?_) hpre
    refine (List.mem_append.mp hmem).elim (fun h => hlead ?_) (by decide)
    exact hv ▸ List.mem_append_right v h
  exact List.append_left_eq_self.mp hsame

/-- **What is read from the dry run** are the holders of the broken dependencies. -/
theorem brokenIn_missingOutput {unmet : List (Text × Package)}
    {breaks : List (Package × Text × Package)}
    (hunmet : ∀ m ∈ unmet, IsWord m.1 ∧ '\'' ∉ m.2.name)
    (hbreaks : ∀ m ∈ breaks, IsWord m.2.1 ∧ IsWord m.2.2.name ∧ '\'' ∉ m.1.name ∧
      '\'' ∉ m.1.version) :
    brokenIn (missingOutput files unmet breaks) = breaks.map fun m => (m.2.2.name, m.2.1) := by
  have htail : brokenIn (breaks.flatMap (breaksLine files) ++ failedToPrepare) =
      breaks.map fun m => (m.2.2.name, m.2.1) := by
    induction breaks with
    | nil => exact newline_skip (u := failedToPrepare.dropLast) (by decide) []
    | cons m breaks ih =>
      obtain ⟨hdep, hq, hc, hversion⟩ := hbreaks m List.mem_cons_self
      rw [List.flatMap_cons, List.append_assoc, brokenIn_breaksLine hdep hq hc hversion,
        ih fun m hm => hbreaks m (List.mem_cons_of_mem _ hm), List.map_cons]
  rw [missingOutput, ← htail]
  clear htail hbreaks
  induction unmet with
  | nil => rfl
  | cons m unmet ih =>
    obtain ⟨hdep, hp⟩ := hunmet m List.mem_cons_self
    rw [List.flatMap_cons, List.append_assoc, brokenIn_unmetLine hdep hp,
      ih fun m hm => hunmet m (List.mem_cons_of_mem _ hm)]

end Sysforge.Pacman
