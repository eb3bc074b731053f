import Mathlib.Data.List.Induction
import Mathlib.Data.List.Nodup

/-!
# Values in the order of their first occurrences

`addNew` appends the values of a list that are not there yet, one after the other.
`List.eraseDups` is the case that starts from nothing. `eraseDups_append_comm_iff` says when two
lists can change places.
-/

namespace Sysforge.Occurrences

variable {α : Type*} [BEq α] {acc l l₁ l₂ l₃ d : List α} {a : α}

/-- The values of a list that are not there yet, appended in their order. -/
def addNew (acc l : List α) : List α :=
  l.foldl (fun acc a => if acc.contains a then acc else acc ++ [a]) acc

theorem addNew_cons : addNew acc (a :: l) = addNew (if acc.contains a then acc else acc ++ [a]) l :=
  rfl

theorem addNew_append : addNew acc (l₁ ++ l₂) = addNew (addNew acc l₁) l₂ := List.foldl_append

variable [LawfulBEq α]

theorem addNew_eq : addNew acc l = acc ++ (l.filter fun a => !acc.contains a).eraseDups := by
  induction l generalizing acc with
  | nil => exact (List.append_nil acc).symm
  | cons a l ih =>
    rw [addNew_cons, ih]
    by_cases ha : acc.contains a = true
    · rw [if_pos ha, List.filter_cons_of_neg (by simpa using ha)]
    · have hfilter : (l.filter fun b => !(acc ++ [a]).contains b) =
          (l.filter fun b => !acc.contains b).filter fun b => !b == a := by
        rw [List.filter_filter]
        refine List.filter_congr fun b _ => ?_
        rw [List.contains_append, Bool.not_or, Bool.and_comm]
        simp
      rw [if_neg ha, List.filter_cons_of_pos (by simpa using ha), List.eraseDups_cons, hfilter,
        List.append_assoc, List.singleton_append]

theorem addNew_nil : addNew [] l = l.eraseDups := by
  have hall : (l.filter fun a => !([] : List α).contains a) = l :=
    List.filter_eq_self.mpr fun a _ => rfl
  rw [addNew_eq, List.nil_append, hall]

theorem eraseDups_append : (l₁ ++ l₂).eraseDups = addNew l₁.eraseDups l₂ := by
  rw [← addNew_nil, addNew_append, addNew_nil]

theorem starts_addNew : acc <+: addNew acc l := by
  rw [addNew_eq]
  exact List.prefix_append _ _

theorem mem_addNew : a ∈ addNew acc l ↔ a ∈ acc ∨ a ∈ l := by
  rw [addNew_eq, List.mem_append, List.mem_eraseDups, List.mem_filter]
  by_cases ha : a ∈ acc <;> simp [ha]

theorem nodup_addNew (h : acc.Nodup) : (addNew acc l).Nodup := by
  induction l generalizing acc with
  | nil => exact h
  | cons a l ih =>
    rw [addNew_cons]
    split_ifs with ha
    · exact ih h
    · refine ih (List.nodup_append.mpr ⟨h, List.nodup_singleton a, fun b hb c hc => ?_⟩)
      rw [List.mem_singleton.mp hc]
      rintro rfl
      exact ha (by simpa using hb)

theorem nodup_eraseDups : l.eraseDups.Nodup := addNew_nil (l := l) ▸ nodup_addNew List.nodup_nil

/-- Values that are there are not added. -/
theorem addNew_of_subset (h : l ⊆ acc) : addNew acc l = acc := by
  have hnil : (l.filter fun a => !acc.contains a) = [] := by
    refine List.filter_eq_nil_iff.mpr fun a ha => ?_
    simpa using h ha
  rw [addNew_eq, hnil, List.eraseDups_nil, List.append_nil]

/-- Distinct values that are not there are all added. -/
theorem addNew_of_disjoint (hl : l.Nodup) (h : ∀ a ∈ l, a ∉ acc) : addNew acc l = acc ++ l := by
  induction l generalizing acc with
  | nil => exact (List.append_nil acc).symm
  | cons a l ih =>
    obtain ⟨ha, hl⟩ := List.nodup_cons.mp hl
    have hnot : ¬acc.contains a = true := by simpa using h a List.mem_cons_self
    rw [addNew_cons, if_neg hnot, ih hl, List.append_assoc, List.singleton_append]
    intro b hb hmem
    rcases List.mem_append.mp hmem with hmem | hmem
    · exact h b (List.mem_cons_of_mem _ hb) hmem
    · exact ha (List.mem_singleton.mp hmem ▸ hb)

/-- Distinct values are what is there and its continuation. -/
theorem addNew_of_starts (hd : d.Nodup) (h : acc <+: d) : addNew acc d = d := by
  obtain ⟨rest, rfl⟩ := h
  obtain ⟨-, hrest, hdisj⟩ := List.nodup_append.mp hd
  rw [addNew_append, addNew_of_subset (List.Subset.refl acc),
    addNew_of_disjoint hrest fun a ha hacc => hdisj a hacc a ha rfl]

/-- Adding the values of a list once each is adding the list. -/
theorem addNew_eraseDups : addNew acc l.eraseDups = addNew acc l := by
  induction l using List.reverseRecOn with
  | nil => rfl
  | append_singleton l a ih =>
    rw [eraseDups_append, @addNew_append _ _ acc l [a]]
    by_cases ha : a ∈ l
    · have hmem : [a] ⊆ l.eraseDups :=
        List.cons_subset.mpr ⟨List.mem_eraseDups.mpr ha, List.nil_subset _⟩
      have hmem' : [a] ⊆ addNew acc l :=
        List.cons_subset.mpr ⟨mem_addNew.mpr (.inr ha), List.nil_subset _⟩
      rw [addNew_of_subset hmem, addNew_of_subset hmem', ih]
    · have hnot : ∀ b ∈ [a], b ∉ l.eraseDups :=
        List.forall_mem_singleton.mpr fun h => ha (List.mem_eraseDups.mp h)
      rw [addNew_of_disjoint (List.nodup_singleton a) hnot, addNew_append, ih]

/-- Values that were gathered from the list, put in it where they begin with what stands before. -/
theorem eraseDups_of_starts (hd : d.Nodup) (h : l₁.eraseDups <+: d) (h₃ : l₃ ⊆ d) :
    (l₁ ++ (d ++ l₃)).eraseDups = d := by
  rw [eraseDups_append, addNew_append, addNew_of_starts hd h, addNew_of_subset h₃]

/-- **Two lists change places** where the distinct values of one begin with those of the other. -/
theorem eraseDups_append_comm_iff :
    (l₁ ++ (l₂ ++ l₃)).eraseDups = (l₂ ++ (l₁ ++ l₃)).eraseDups ↔
      l₁.eraseDups <+: l₂.eraseDups ∨ l₂.eraseDups <+: l₁.eraseDups := by
  have hswap : ∀ x y : List α, x.eraseDups <+: y.eraseDups →
      (x ++ (y ++ l₃)).eraseDups = (y ++ (x ++ l₃)).eraseDups := by
    intro x y hxy
    have hsub : x ⊆ y.eraseDups := fun a ha => hxy.subset (List.mem_eraseDups.mpr ha)
    have hy : addNew x.eraseDups y = y.eraseDups := by
      rw [← addNew_eraseDups, addNew_of_starts nodup_eraseDups hxy]
    rw [eraseDups_append, eraseDups_append, addNew_append, addNew_append, hy,
      addNew_of_subset hsub]
  constructor
  · intro h
    have hstarts : ∀ x y : List α, x.eraseDups <+: (x ++ y).eraseDups := by
      intro x y
      rw [eraseDups_append]
      exact starts_addNew
    have h₁ := hstarts l₁ (l₂ ++ l₃)
    have h₂ := hstarts l₂ (l₁ ++ l₃)
    exact List.prefix_or_prefix_of_prefix h₁ (h ▸ h₂)
  · rintro (h | h)
    · exact hswap l₁ l₂ h
    · exact (hswap l₂ l₁ h).symm

end Sysforge.Occurrences
