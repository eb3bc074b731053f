import Mathlib.Data.List.Infix
import Sysforge.Foundations.Text

/-!
# Regular expressions with backtracking

A pattern of the `re` module, run by backtracking: `run` lists every way a pattern can match from
a position, in the order in which the matcher tries them, so that its first element is the match.
`finditer`, `search` and `sub` are read off it. The lines of a text are what `^` and `$` match at,
as under `re.MULTILINE`.
-/

namespace Sysforge

/-- A pattern. -/
inductive Re
  | empty
  | char (p : Char → Bool)
  | seq (r s : Re)
  | alt (r s : Re)
  /-- Greedy repetition. -/
  | star (r : Re)
  | group (n : ℕ) (r : Re)
  | bol
  | eol
  /-- A boundary between word characters and others. -/
  | boundary (word : Char → Bool)

namespace Re

/-- `text[i:j]`. -/
def slice (t : Text) (i j : ℕ) : Text := (t.take j).drop i

/-- The spans of the groups matched so far, the latest first. -/
abbrev Groups := List (ℕ × ℕ × ℕ)

/-- The repetition of a step that moves forward. -/
def iterate (step : ℕ → Groups → List (ℕ × Groups)) : ℕ → ℕ → Groups → List (ℕ × Groups)
  | 0, i, c => [(i, c)]
  | fuel + 1, i, c =>
    (step i c).flatMap (fun q => if i < q.1 then iterate step fuel q.1 q.2 else []) ++ [(i, c)]

/-- Every way the pattern matches from a position, in the order they are tried. -/
def run (t : Text) : Re → ℕ → Groups → List (ℕ × Groups)
  | .empty, i, c => [(i, c)]
  | .char p, i, c => if t[i]?.any p then [(i + 1, c)] else []
  | .seq r s, i, c => (run t r i c).flatMap fun q => run t s q.1 q.2
  | .alt r s, i, c => run t r i c ++ run t s i c
  | .star r, i, c => iterate (run t r) t.length i c
  | .group n r, i, c => (run t r i c).map fun q => (q.1, (n, i, q.1) :: q.2)
  | .bol, i, c => if i = 0 ∨ t[i - 1]? = some '\n' then [(i, c)] else []
  | .eol, i, c => if t.length ≤ i ∨ t[i]? = some '\n' then [(i, c)] else []
  | .boundary word, i, c =>
    if (0 < i && t[i - 1]?.any word) ≠ t[i]?.any word then [(i, c)] else []

/-- A match object. -/
structure Match where
  start : ℕ
  stop : ℕ
  groups : Groups

/-- `m.group(n)`. -/
def Match.group (t : Text) (m : Match) (n : ℕ) : Text :=
  match m.groups.lookup n with
  | some (i, j) => slice t i j
  | none => []

/-- `pattern.match(text, i)`. -/
def matchAt (r : Re) (t : Text) (i : ℕ) : Option Match :=
  (run t r i []).head?.map fun q => ⟨i, q.1, q.2⟩

/-- The matches from a position on; the fuel is for the positions left. -/
def finditerFrom (r : Re) (t : Text) : ℕ → ℕ → List Match
  | 0, _ => []
  | fuel + 1, i =>
    if t.length < i then []
    else
      match matchAt r t i with
      | some m => m :: finditerFrom r t fuel (max m.stop (i + 1))
      | none => finditerFrom r t fuel (i + 1)

/-- `list(pattern.finditer(text))`. -/
def finditer (r : Re) (t : Text) : List Match := finditerFrom r t (t.length + 1) 0

/-- `pattern.search(text)`. -/
def search (r : Re) (t : Text) : Option Match := (finditer r t).head?

/-- The text from a position on, with the matches replaced. -/
def subFrom (t : Text) (repl : Match → Text) : ℕ → List Match → Text
  | i, [] => t.drop i
  | i, m :: ms => slice t i m.start ++ repl m ++ subFrom t repl m.stop ms

/-- `pattern.sub(repl, text)`. -/
def sub (r : Re) (repl : Match → Text) (t : Text) : Text := subFrom t repl 0 (finditer r t)

/-- A text with other text in the place of a match. -/
def splice (t : Text) (m : Match) (w : Text) : Text := t.take m.start ++ w ++ t.drop m.stop

/-! ## Derived patterns -/

/-- The character itself. -/
def lit1 (a : Char) : Re := .char fun c => c = a

/-- A text itself. -/
def lit : Text → Re
  | [] => .empty
  | a :: w => .seq (lit1 a) (lit w)

/-- One of several texts, the earlier ones first. -/
def oneOf : List Text → Re
  | [] => .char fun _ => false
  | [w] => lit w
  | w :: ws => .alt (lit w) (oneOf ws)

/-- Greedy `r?`. -/
def opt (r : Re) : Re := .alt r .empty

/-- `r+`. -/
def plus (r : Re) : Re := .seq r (.star r)

/-- `[ \t]`. -/
def blank : Re := .char fun c => c = ' ' || c = '\t'

/-- `\s`. -/
def space : Re := .char Text.isSpace

/-- `\S`. -/
def nonSpace : Re := .char fun c => !Text.isSpace c

/-- `.`. -/
def dot : Re := .char fun c => c ≠ '\n'

/-- `\w`, given which characters beyond ASCII are letters or digits. -/
def isWord (alnum : Char → Bool) (c : Char) : Bool :=
  if c.toNat < 128 then c.isAlphanum || c = '_' else alnum c

variable {t : Text} {r s : Re} {i j k n : ℕ} {c : Groups} {q : ℕ × Groups} {p : Char → Bool}

/-! ## Slices -/

theorem take_append_slice (h : i ≤ j) : t.take i ++ slice t i j = t.take j := by
  rw [slice]
  conv_rhs => rw [← List.take_append_drop i (t.take j)]
  rw [List.take_take, min_eq_left h]

theorem slice_append_drop (h : i ≤ j) : slice t i j ++ t.drop j = t.drop i := by
  conv_rhs => rw [← List.take_append_drop j t]
  by_cases hi : i ≤ (t.take j).length
  · rw [List.drop_append_of_le_length hi, slice]
  · have hlen : t.length < i := by
      rw [List.length_take] at hi
      omega
    rw [slice, List.drop_eq_nil_of_le (by simp; omega), List.drop_eq_nil_of_le (by omega),
      List.drop_eq_nil_of_le (by simp; omega)]
    rfl

theorem slice_append (hij : i ≤ j) (hjk : j ≤ k) :
    slice t i j ++ slice t j k = slice t i k := by
  have hj : slice t i j = slice (t.take k) i j := by
    rw [slice, slice, List.take_take, min_eq_left hjk]
  rw [hj, slice, slice, ← slice, slice_append_drop hij, slice]

/-! ## One step of each pattern -/

theorem run_empty : run t .empty i c = [(i, c)] := rfl

theorem run_char : run t (.char p) i c = if t[i]?.any p then [(i + 1, c)] else [] := rfl

theorem run_seq : run t (.seq r s) i c = (run t r i c).flatMap fun q => run t s q.1 q.2 := rfl

theorem run_alt : run t (.alt r s) i c = run t r i c ++ run t s i c := rfl

theorem run_group : run t (.group n r) i c =
    (run t r i c).map fun q => (q.1, (n, i, q.1) :: q.2) := rfl

theorem run_bol : run t .bol i c =
    if i = 0 ∨ t[i - 1]? = some '\n' then [(i, c)] else [] := rfl

theorem run_eol : run t .eol i c =
    if t.length ≤ i ∨ t[i]? = some '\n' then [(i, c)] else [] := rfl

theorem run_boundary {word : Char → Bool} : run t (.boundary word) i c =
    if (0 < i && t[i - 1]?.any word) ≠ t[i]?.any word then [(i, c)] else [] := rfl

theorem mem_run_empty : q ∈ run t .empty i c ↔ q = (i, c) := by
  rw [run_empty, List.mem_singleton]

theorem mem_run_char : q ∈ run t (.char p) i c ↔ t[i]?.any p = true ∧ q = (i + 1, c) := by
  simp only [run_char, List.mem_ite_nil_right, List.mem_singleton]

theorem mem_run_seq : q ∈ run t (.seq r s) i c ↔
    ∃ q' ∈ run t r i c, q ∈ run t s q'.1 q'.2 := by
  rw [run_seq, List.mem_flatMap]

theorem mem_run_alt : q ∈ run t (.alt r s) i c ↔ q ∈ run t r i c ∨ q ∈ run t s i c := by
  rw [run_alt, List.mem_append]

theorem mem_run_group : q ∈ run t (.group n r) i c ↔
    ∃ q' ∈ run t r i c, q = (q'.1, (n, i, q'.1) :: q'.2) := by
  simp only [run_group, List.mem_map, eq_comm]

theorem mem_run_bol : q ∈ run t .bol i c ↔ (i = 0 ∨ t[i - 1]? = some '\n') ∧ q = (i, c) := by
  simp only [run_bol, List.mem_ite_nil_right, List.mem_singleton]

theorem mem_run_eol : q ∈ run t .eol i c ↔
    (t.length ≤ i ∨ t[i]? = some '\n') ∧ q = (i, c) := by
  simp only [run_eol, List.mem_ite_nil_right, List.mem_singleton]

theorem mem_run_boundary {word : Char → Bool} : q ∈ run t (.boundary word) i c ↔
    (0 < i && t[i - 1]?.any word) ≠ t[i]?.any word ∧ q = (i, c) := by
  simp only [run_boundary, List.mem_ite_nil_right, List.mem_singleton]

/-- A repetition ends where it starts, or takes a step forward first. -/
theorem mem_iterate {step : ℕ → Groups → List (ℕ × Groups)} {fuel : ℕ}
    (hq : q ∈ iterate step fuel i c) : q = (i, c) ∨
      ∃ fuel', ∃ q' ∈ step i c, i < q'.1 ∧ fuel = fuel' + 1 ∧ q ∈ iterate step fuel' q'.1 q'.2 := by
  cases fuel with
  | zero => exact .inl (List.mem_singleton.mp hq)
  | succ fuel =>
    rw [iterate, List.mem_append, List.mem_flatMap, List.mem_singleton] at hq
    rcases hq with ⟨q', hq', hq⟩ | hq
    · rw [List.mem_ite_nil_right] at hq
      exact .inr ⟨fuel, q', hq', hq.1, rfl, hq.2⟩
    · exact .inl hq

/-- What every step of a repetition keeps, the repetition keeps. -/
theorem mem_iterate_induction {step : ℕ → Groups → List (ℕ × Groups)}
    {P : ℕ → Groups → ℕ × Groups → Prop} (hrefl : ∀ i c, P i c (i, c))
    (hstep : ∀ i c, ∀ q' ∈ step i c, ∀ q, P q'.1 q'.2 q → P i c q) {fuel : ℕ}
    (hq : q ∈ iterate step fuel i c) : P i c q := by
  induction fuel generalizing i c with
  | zero =>
    obtain rfl | ⟨_, _, _, _, h, _⟩ := mem_iterate hq
    · exact hrefl i c
    · cases h
  | succ fuel ih =>
    obtain rfl | ⟨fuel', q', hq', -, h, hq⟩ := mem_iterate hq
    · exact hrefl i c
    · cases h
      exact hstep i c q' hq' q (ih hq)

/-- A match goes forward and stays in the text. -/
theorem mem_run_le (hq : q ∈ run t r i c) : i ≤ q.1 ∧ (i ≤ t.length → q.1 ≤ t.length) := by
  induction r generalizing i c q with
  | empty =>
    rw [mem_run_empty.mp hq]
    exact ⟨le_rfl, id⟩
  | char p =>
    obtain ⟨h, rfl⟩ := mem_run_char.mp hq
    obtain ⟨a, ha, -⟩ := (Option.any_eq_true _ _).mp h
    exact ⟨Nat.le_succ i, fun _ => (List.getElem?_eq_some_iff.mp ha).1⟩
  | seq r s ihr ihs =>
    obtain ⟨q', hq', hq⟩ := mem_run_seq.mp hq
    exact ⟨(ihr hq').1.trans (ihs hq).1, fun h => (ihs hq).2 ((ihr hq').2 h)⟩
  | alt r s ihr ihs => exact (mem_run_alt.mp hq).elim (fun h => ihr h) fun h => ihs h
  | star r ih =>
    refine mem_iterate_induction
      (P := fun i _ q => i ≤ q.1 ∧ (i ≤ t.length → q.1 ≤ t.length)) (fun _ _ => ⟨le_rfl, id⟩)
      (fun i c q' hq' q hq => ?_) hq
    exact ⟨(ih hq').1.trans hq.1, fun h => hq.2 ((ih hq').2 h)⟩
  | group n r ih =>
    obtain ⟨q', hq', rfl⟩ := mem_run_group.mp hq
    exact (ih hq' : i ≤ q'.1 ∧ _)
  | bol =>
    rw [(mem_run_bol.mp hq).2]
    exact ⟨le_rfl, id⟩
  | eol =>
    rw [(mem_run_eol.mp hq).2]
    exact ⟨le_rfl, id⟩
  | boundary word =>
    rw [(mem_run_boundary.mp hq).2]
    exact ⟨le_rfl, id⟩

/-- A pattern without groups. -/
def GroupFree : Re → Prop
  | .seq r s | .alt r s => r.GroupFree ∧ s.GroupFree
  | .star r => r.GroupFree
  | .group _ _ => False
  | _ => True

theorem mem_run_groups (hr : r.GroupFree) (hq : q ∈ run t r i c) : q.2 = c := by
  induction r generalizing i c q with
  | empty => rw [mem_run_empty.mp hq]
  | char p => rw [(mem_run_char.mp hq).2]
  | seq r s ihr ihs =>
    obtain ⟨q', hq', hq⟩ := mem_run_seq.mp hq
    rw [ihs hr.2 hq, ihr hr.1 hq']
  | alt r s ihr ihs =>
    exact (mem_run_alt.mp hq).elim (fun h => ihr hr.1 h) fun h => ihs hr.2 h
  | star r ih =>
    refine mem_iterate_induction (P := fun _ c q => q.2 = c) (fun _ _ => rfl)
      (fun i c q' hq' q hq => ?_) hq
    rw [hq, ih hr hq']
  | group n r ih => cases hr
  | bol => rw [(mem_run_bol.mp hq).2]
  | eol => rw [(mem_run_eol.mp hq).2]
  | boundary word => rw [(mem_run_boundary.mp hq).2]

/-! ## Literals and characters -/

theorem groupFree_lit (w : Text) : (lit w).GroupFree := by
  induction w with
  | nil => trivial
  | cons a w ih => exact ⟨trivial, ih⟩

theorem groupFree_oneOf (ws : List Text) : (oneOf ws).GroupFree := by
  induction ws with
  | nil => trivial
  | cons w ws ih =>
    cases ws with
    | nil => exact groupFree_lit w
    | cons w' ws => exact ⟨groupFree_lit w, ih⟩

theorem mem_run_lit {w : Text} (hq : q ∈ run t (lit w) i c) :
    q = (i + w.length, c) ∧ w <+: t.drop i := by
  induction w generalizing i with
  | nil => exact ⟨mem_run_empty.mp hq, List.nil_prefix⟩
  | cons a w ih =>
    obtain ⟨q', hq', hq⟩ := mem_run_seq.mp hq
    obtain ⟨h, rfl⟩ := mem_run_char.mp hq'
    obtain ⟨b, hb, hab⟩ := (Option.any_eq_true _ _).mp h
    obtain ⟨rfl, hw⟩ := ih hq
    obtain ⟨hlt, hget⟩ := List.getElem?_eq_some_iff.mp hb
    refine ⟨by rw [List.length_cons, Nat.add_assoc, Nat.add_comm 1], ?_⟩
    rw [List.drop_eq_getElem_cons hlt, hget, of_decide_eq_true hab]
    exact (List.prefix_cons_inj a).mpr hw

theorem mem_run_oneOf {ws : List Text} (hq : q ∈ run t (oneOf ws) i c) :
    ∃ w ∈ ws, q = (i + w.length, c) ∧ w <+: t.drop i := by
  induction ws with
  | nil => exact absurd (mem_run_char.mp hq).1 (by cases t[i]? <;> simp)
  | cons w ws ih =>
    cases ws with
    | nil => exact ⟨w, List.mem_cons_self, mem_run_lit hq⟩
    | cons w' ws =>
      rcases mem_run_alt.mp hq with hq | hq
      · exact ⟨w, List.mem_cons_self, mem_run_lit hq⟩
      · obtain ⟨v, hv, h⟩ := ih hq
        exact ⟨v, List.mem_cons_of_mem _ hv, h⟩

/-- All characters of a span satisfy a predicate. -/
def Spans (t : Text) (p : Char → Bool) (i j : ℕ) : Prop :=
  ∀ k, i ≤ k → k < j → t[k]?.any p = true

theorem mem_run_star_char (hq : q ∈ run t (.star (.char p)) i c) : q.2 = c ∧ Spans t p i q.1 := by
  refine mem_iterate_induction (P := fun i c q => q.2 = c ∧ Spans t p i q.1)
    (fun i c => ⟨rfl, fun k h h' => absurd (h.trans_lt h') (lt_irrefl _)⟩)
    (fun i c q' hq' q hq => ?_) hq
  obtain ⟨h, rfl⟩ := mem_run_char.mp hq'
  refine ⟨hq.1, fun k hk hkq => ?_⟩
  rcases hk.eq_or_lt with rfl | hk
  · exact h
  · exact hq.2 k hk hkq

theorem mem_run_plus_char (hq : q ∈ run t (plus (.char p)) i c) :
    i < q.1 ∧ q.2 = c ∧ Spans t p i q.1 := by
  obtain ⟨q', hq', hq⟩ := mem_run_seq.mp hq
  obtain ⟨h, rfl⟩ := mem_run_char.mp hq'
  obtain ⟨hc, hs⟩ := mem_run_star_char hq
  refine ⟨(mem_run_le hq).1, hc, fun k hk hkq => ?_⟩
  rcases hk.eq_or_lt with rfl | hk
  · exact h
  · exact hs k hk hkq

/-! ## The matches of a text -/

section Matches

variable {m : Match} {ms : List Match}

theorem matchAt_eq_some (h : matchAt r t i = some m) :
    m.start = i ∧ (m.stop, m.groups) ∈ run t r i [] := by
  rw [matchAt, Option.map_eq_some_iff] at h
  obtain ⟨q, hq, rfl⟩ := h
  exact ⟨rfl, List.mem_of_head? hq⟩

/-- Matches from a position on, none reaching into the next. -/
def Ordered : ℕ → List Match → Prop
  | _, [] => True
  | i, m :: ms => i ≤ m.start ∧ Ordered m.stop ms

theorem Ordered.mono (h : Ordered j ms) (hij : i ≤ j) : Ordered i ms := by
  cases ms with
  | nil => trivial
  | cons m ms => exact ⟨hij.trans h.1, h.2⟩

theorem finditerFrom_spec (r : Re) (t : Text) (fuel i : ℕ) :
    Ordered i (finditerFrom r t fuel i) ∧ ∀ m ∈ finditerFrom r t fuel i,
      m.start ≤ t.length ∧ matchAt r t m.start = some m := by
  induction fuel generalizing i with
  | zero => exact ⟨trivial, nofun⟩
  | succ fuel ih =>
    rw [finditerFrom]
    split
    · exact ⟨trivial, nofun⟩
    next hlen =>
      cases hm : matchAt r t i with
      | none => exact ⟨(ih (i + 1)).1.mono (Nat.le_succ i), (ih (i + 1)).2⟩
      | some m =>
        obtain ⟨hstart, -⟩ := matchAt_eq_some hm
        obtain ⟨hord, hall⟩ := ih (max m.stop (i + 1))
        refine ⟨⟨hstart.ge, hord.mono (le_max_left _ _)⟩, fun m' hm' => ?_⟩
        obtain rfl | hm' := List.mem_cons.mp hm'
        · rw [hstart]
          exact ⟨Nat.le_of_not_lt hlen, hm⟩
        · exact hall m' hm'

theorem finditer_ordered (r : Re) (t : Text) : Ordered 0 (finditer r t) :=
  (finditerFrom_spec r t _ 0).1

/-- What `finditer` yields is a match at its start. -/
theorem mem_finditer (h : m ∈ finditer r t) :
    m.start ≤ m.stop ∧ m.stop ≤ t.length ∧ (m.stop, m.groups) ∈ run t r m.start [] := by
  obtain ⟨hlen, hm⟩ := (finditerFrom_spec r t _ 0).2 m h
  have hrun := (matchAt_eq_some hm).2
  exact ⟨(mem_run_le hrun).1, (mem_run_le hrun).2 hlen, hrun⟩

theorem sub_of_finditer_eq_nil {repl : Match → Text} (h : finditer r t = []) :
    sub r repl t = t := by
  rw [sub, h, subFrom, List.drop_zero]

/-- A replacement that adds to the count of a character adds as often as it replaces. -/
theorem count_subFrom {a : Char} {repl : Match → Text} (ho : Ordered i ms)
    (hs : ∀ m ∈ ms, m.start ≤ m.stop)
    (hm : ∀ m ∈ ms, (slice t m.start m.stop).count a < (repl m).count a) :
    (t.drop i).count a + ms.length ≤ (subFrom t repl i ms).count a := by
  induction ms generalizing i with
  | nil => exact le_rfl
  | cons m ms ih =>
    have hrest := ih ho.2 (fun m h => hs m (List.mem_cons_of_mem _ h)) fun m h =>
      hm m (List.mem_cons_of_mem _ h)
    have hrepl := hm m List.mem_cons_self
    have hdrop : (t.drop i).count a = (slice t i m.start).count a +
        ((slice t m.start m.stop).count a + (t.drop m.stop).count a) := by
      rw [← slice_append_drop ho.1, ← slice_append_drop (hs m List.mem_cons_self),
        List.count_append, List.count_append]
    rw [hdrop, subFrom, List.count_append, List.count_append, List.length_cons]
    omega

end Matches

end Re

end Sysforge
