import Mathlib.Data.List.Nodup
import Mathlib.Data.List.Sort
import Mathlib.Data.List.Perm.Basic

/-!
# Insertion-ordered dictionaries

A Python `dict` is a finite map that remembers the order in which its keys were first set.
`Assoc` is the list level: lookup is `List.lookup`, `Assoc.set` overwrites in place or appends,
`Assoc.erase` drops a key. `Dict` carries the uniqueness of the keys as a field, so that the
order of the items never decides what a lookup answers (`Assoc.lookup_perm`).
-/

namespace Sysforge

namespace Assoc

variable {α β γ : Type*} [DecidableEq α]

/-- The keys of an association list, in order. -/
def keys (l : List (α × β)) : List α := l.map Prod.fst

/-- `d[k] = v`: in place when the key is present, at the end otherwise. -/
def set (k : α) (v : β) : List (α × β) → List (α × β)
  | [] => [(k, v)]
  | (k', v') :: l => if k' = k then (k, v) :: l else (k', v') :: set k v l

/-- `d.pop(k, None)`, the remaining dictionary. -/
def erase (k : α) (l : List (α × β)) : List (α × β) := l.filter fun p => p.1 ≠ k

omit [DecidableEq α] in
@[simp] theorem keys_nil : keys ([] : List (α × β)) = [] := rfl

omit [DecidableEq α] in
@[simp] theorem keys_cons (p : α × β) (l : List (α × β)) : keys (p :: l) = p.1 :: keys l := rfl

omit [DecidableEq α] in
@[simp] theorem keys_append (l₁ l₂ : List (α × β)) : keys (l₁ ++ l₂) = keys l₁ ++ keys l₂ :=
  List.map_append

theorem lookup_cons_eq (p : α × β) (l : List (α × β)) (k : α) :
    (p :: l).lookup k = if k = p.1 then some p.2 else l.lookup k := by
  obtain ⟨k₀, v₀⟩ := p
  by_cases h : k = k₀
  · simp [h]
  · rw [List.lookup_cons, beq_false_of_ne h, if_neg h]

theorem lookup_set (k k' : α) (v : β) (l : List (α × β)) :
    (set k v l).lookup k' = if k' = k then some v else l.lookup k' := by
  induction l with
  | nil => simp only [set, lookup_cons_eq]
  | cons p l ih =>
    by_cases h₀ : p.1 = k
    · simp only [set, h₀, if_true, lookup_cons_eq]
      split_ifs <;> rfl
    · simp only [set, h₀, if_false, lookup_cons_eq, ih]
      split_ifs with h₁ h₂
      · exact absurd (h₁.symm.trans h₂) h₀
      all_goals rfl

theorem lookup_erase (k k' : α) (l : List (α × β)) :
    (erase k l).lookup k' = if k' = k then none else l.lookup k' := by
  induction l with
  | nil => simp [erase]
  | cons p l ih =>
    by_cases h₀ : p.1 = k
    · rw [erase, List.filter_cons_of_neg (by simpa using h₀), ← erase, ih, lookup_cons_eq, h₀]
      split_ifs <;> rfl
    · rw [erase, List.filter_cons_of_pos (by simpa using h₀), ← erase, lookup_cons_eq, ih,
        lookup_cons_eq]
      split_ifs with h₁ h₂
      · exact absurd (h₁.symm.trans h₂) h₀
      all_goals rfl

theorem mem_keys_set {k k' : α} {v : β} {l : List (α × β)} :
    k' ∈ keys (set k v l) ↔ k' = k ∨ k' ∈ keys l := by
  induction l with
  | nil => simp [set]
  | cons p l ih =>
    by_cases h : p.1 = k
    · simp only [set, h, if_true, keys_cons, List.mem_cons]
      tauto
    · simp only [set, h, if_false, keys_cons, List.mem_cons, ih]
      tauto

theorem nodup_set {k : α} {v : β} {l : List (α × β)} (h : (keys l).Nodup) :
    (keys (set k v l)).Nodup := by
  induction l with
  | nil => simp [set]
  | cons p l ih =>
    rw [keys_cons, List.nodup_cons] at h
    by_cases hk : p.1 = k
    · rw [set, if_pos hk, keys_cons, List.nodup_cons]
      exact ⟨hk ▸ h.1, h.2⟩
    · rw [set, if_neg hk, keys_cons, List.nodup_cons, mem_keys_set]
      exact ⟨by rintro (h' | h'); exacts [hk h', h.1 h'], ih h.2⟩

theorem nodup_erase {k : α} {l : List (α × β)} (h : (keys l).Nodup) :
    (keys (erase k l)).Nodup :=
  h.sublist (List.filter_sublist.map _)

theorem set_of_notMem {k : α} {v : β} {l : List (α × β)} (h : k ∉ keys l) :
    set k v l = l ++ [(k, v)] := by
  induction l with
  | nil => rfl
  | cons p l ih =>
    rw [keys_cons, List.mem_cons, not_or] at h
    rw [set, if_neg (Ne.symm h.1), ih h.2, List.cons_append]

/-- The value of a key is put where the key stands. -/
theorem set_append_cons {k : α} {v w : β} {l₁ l₂ : List (α × β)} (h : k ∉ keys l₁) :
    set k v (l₁ ++ (k, w) :: l₂) = l₁ ++ (k, v) :: l₂ := by
  induction l₁ with
  | nil => exact if_pos rfl
  | cons p l₁ ih =>
    rw [keys_cons, List.mem_cons, not_or] at h
    rw [List.cons_append, set, if_neg (Ne.symm h.1), ih h.2, List.cons_append]

theorem set_of_lookup {k : α} {v : β} {l : List (α × β)} (h : l.lookup k = some v) :
    set k v l = l := by
  induction l with
  | nil => cases h
  | cons p l ih =>
    rw [lookup_cons_eq] at h
    rw [set]
    split_ifs at h with hk
    · rw [if_pos hk.symm, hk, ← Option.some.inj h]
    · rw [if_neg (Ne.symm hk), ih h]

theorem keys_set_of_mem {k : α} {v : β} {l : List (α × β)} (h : k ∈ keys l) :
    keys (set k v l) = keys l := by
  induction l with
  | nil => cases h
  | cons p l ih =>
    by_cases hk : p.1 = k
    · rw [set, if_pos hk, keys_cons, keys_cons, hk]
    · rw [set, if_neg hk, keys_cons, keys_cons, ih ((List.mem_cons.mp h).resolve_left (Ne.symm hk))]

theorem lookup_eq_none {k : α} {l : List (α × β)} : l.lookup k = none ↔ k ∉ keys l := by
  simp only [List.lookup_eq_none_iff, keys, List.mem_map, not_exists, not_and, bne_iff_ne]
  exact ⟨fun h p hp e => h p hp e.symm, fun h p hp e => h p hp e.symm⟩

theorem mem_of_lookup {k : α} {v : β} {l : List (α × β)} (h : l.lookup k = some v) :
    (k, v) ∈ l := by
  obtain ⟨l₁, l₂, rfl, -⟩ := List.lookup_eq_some_iff.1 h
  simp

theorem lookup_of_mem {k : α} {v : β} {l : List (α × β)} (hl : (keys l).Nodup)
    (h : (k, v) ∈ l) : l.lookup k = some v := by
  induction l with
  | nil => simp at h
  | cons p l ih =>
    rw [keys_cons, List.nodup_cons] at hl
    rcases List.mem_cons.1 h with rfl | h
    · simp
    · have hne : k ≠ p.1 := fun e => hl.1 (e ▸ List.mem_map_of_mem h)
      rw [lookup_cons_eq, if_neg hne, ih hl.2 h]

/-- The order of the items never decides a lookup. -/
theorem lookup_perm {l₁ l₂ : List (α × β)} (h : l₁.Perm l₂) (hl : (keys l₁).Nodup) (k : α) :
    l₁.lookup k = l₂.lookup k := by
  have hl₂ : (keys l₂).Nodup := (h.map Prod.fst).nodup_iff.1 hl
  cases h₁ : l₁.lookup k with
  | some v => exact (lookup_of_mem hl₂ (h.mem_iff.1 (mem_of_lookup h₁))).symm
  | none =>
    rw [lookup_eq_none] at h₁
    exact (lookup_eq_none.2 fun h' => h₁ ((h.map Prod.fst).mem_iff.2 h')).symm

theorem lookup_map (f : α → β → γ) (l : List (α × β)) (k : α) :
    (l.map fun p => (p.1, f p.1 p.2)).lookup k = (l.lookup k).map (f k) := by
  induction l with
  | nil => rfl
  | cons p l ih =>
    rw [List.map_cons, lookup_cons_eq, lookup_cons_eq, ih]
    split_ifs with h
    · rw [Option.map_some, h]
    · rfl

omit [DecidableEq α] in
theorem keys_map (f : α → β → γ) (l : List (α × β)) :
    keys (l.map fun p => (p.1, f p.1 p.2)) = keys l := by
  simp [keys]

omit [DecidableEq α] in
/-- Dropping the absent values drops keys. -/
theorem keys_filterMap (f : β → γ) (l : List (α × Option β)) :
    (keys (l.filterMap fun p => p.2.map fun v => (p.1, f v))).Sublist (keys l) := by
  induction l with
  | nil => exact .slnil
  | cons p l ih =>
    obtain ⟨k, v⟩ := p
    cases v with
    | none => exact ih.cons _
    | some v => exact ih.cons_cons _

/-- With distinct keys, dropping the absent values only drops them. -/
theorem lookup_filterMap (f : β → γ) {l : List (α × Option β)} (hl : (keys l).Nodup) (k : α) :
    (l.filterMap fun p => p.2.map fun v => (p.1, f v)).lookup k = ((l.lookup k).join).map f := by
  induction l with
  | nil => rfl
  | cons p l ih =>
    obtain ⟨k₀, v⟩ := p
    rw [keys_cons, List.nodup_cons] at hl
    rw [lookup_cons_eq]
    cases v with
    | none =>
      rw [List.filterMap_cons_none rfl, ih hl.2]
      split_ifs with h
      · rw [h, lookup_eq_none.2 hl.1]
        rfl
      · rfl
    | some v =>
      simp only [List.filterMap_cons, Option.map_some, lookup_cons_eq, ih hl.2]
      split_ifs <;> rfl

end Assoc

/-- A dictionary: items in insertion order, keys unique. -/
structure Dict (α β : Type*) where
  items : List (α × β)
  nodup : (Assoc.keys items).Nodup

namespace Dict

variable {α β : Type*} [DecidableEq α]

/-- The empty dictionary `{}`. -/
def empty : Dict α β := ⟨[], List.nodup_nil⟩

instance : Inhabited (Dict α β) := ⟨empty⟩

/-- `d.get(k)`. -/
def get (d : Dict α β) (k : α) : Option β := d.items.lookup k

/-- `d[k] = v`. -/
def set (d : Dict α β) (k : α) (v : β) : Dict α β := ⟨Assoc.set k v d.items, Assoc.nodup_set d.nodup⟩

/-- `d.pop(k, None)`. -/
def erase (d : Dict α β) (k : α) : Dict α β := ⟨Assoc.erase k d.items, Assoc.nodup_erase d.nodup⟩

/-- The keys in insertion order. -/
def keys (d : Dict α β) : List α := Assoc.keys d.items

/-- `d.setdefault(k, v)`. -/
def setdefault (d : Dict α β) (k : α) (v : β) : Dict α β := if k ∈ d.keys then d else d.set k v

/-- `{k: v for k, v in d.items() if p(k, v)}`. -/
def filter (d : Dict α β) (p : α → β → Bool) : Dict α β :=
  ⟨d.items.filter fun q => p q.1 q.2, d.nodup.sublist (List.filter_sublist.map _)⟩

/-- `{k: f(k, v) for k, v in d.items()}`. -/
def map {γ : Type*} (d : Dict α β) (f : α → β → γ) : Dict α γ :=
  ⟨d.items.map fun q => (q.1, f q.1 q.2), by rw [Assoc.keys_map]; exact d.nodup⟩

/-- `dict(items)`: a later value replaces an earlier one. -/
def ofItems (l : List (α × β)) : Dict α β := l.foldl (fun d p => d.set p.1 p.2) empty

/-- `{**d, **e}`. -/
def update (d e : Dict α β) : Dict α β := e.items.foldl (fun d p => d.set p.1 p.2) d

@[simp] theorem get_empty (k : α) : (empty : Dict α β).get k = none := rfl

theorem get_set (d : Dict α β) (k k' : α) (v : β) :
    (d.set k v).get k' = if k' = k then some v else d.get k' := Assoc.lookup_set ..

theorem get_erase (d : Dict α β) (k k' : α) :
    (d.erase k).get k' = if k' = k then none else d.get k' := Assoc.lookup_erase ..

theorem get_map {γ : Type*} (d : Dict α β) (f : α → β → γ) (k : α) :
    (d.map f).get k = (d.get k).map (f k) := Assoc.lookup_map ..

/-- Where the items agree with a function, so does their dictionary. -/
theorem get_ofItems {f : α → Option β} {l : List (α × β)} (h : ∀ p ∈ l, f p.1 = some p.2) (k : α) :
    (ofItems l).get k = if k ∈ Assoc.keys l then f k else none := by
  have hl : ∀ (l : List (α × β)) (d : Dict α β), (∀ p ∈ l, f p.1 = some p.2) →
      (l.foldl (fun d p => d.set p.1 p.2) d).get k =
        if k ∈ Assoc.keys l then f k else d.get k := by
    intro l
    induction l with
    | nil => exact fun d _ => rfl
    | cons p l ih =>
      intro d h
      rw [List.foldl_cons, ih _ fun q hq => h q (List.mem_cons_of_mem _ hq), get_set]
      by_cases hk : k = p.1
      · simp [hk, h p List.mem_cons_self]
      · simp [hk]
  exact hl l empty h

theorem mem_of_get_ofItems {l : List (α × β)} {k : α} {v : β} (h : (ofItems l).get k = some v) :
    (k, v) ∈ l := by
  have hl : ∀ (l : List (α × β)) (d : Dict α β),
      (l.foldl (fun d p => d.set p.1 p.2) d).get k = some v → (k, v) ∈ l ∨ d.get k = some v := by
    intro l
    induction l with
    | nil => exact fun d h => .inr h
    | cons p l ih =>
      intro d h
      rcases ih _ h with h | h
      · exact .inl (List.mem_cons_of_mem _ h)
      · rw [get_set] at h
        split_ifs at h with hk
        · cases h
          rw [hk]
          exact .inl List.mem_cons_self
        · exact .inr h
  exact (hl l empty h).resolve_right (by simp)

theorem get_update (d e : Dict α β) (k : α) : (d.update e).get k = (e.get k).or (d.get k) := by
  have hl : ∀ (l : List (α × β)) (d : Dict α β), (Assoc.keys l).Nodup →
      (l.foldl (fun d p => d.set p.1 p.2) d).get k = (l.lookup k).or (d.get k) := by
    intro l
    induction l with
    | nil => exact fun d _ => rfl
    | cons p l ih =>
      intro d hn
      rw [Assoc.keys_cons, List.nodup_cons] at hn
      rw [List.foldl_cons, ih _ hn.2, get_set, Assoc.lookup_cons_eq]
      by_cases hk : k = p.1
      · rw [if_pos hk, if_pos hk, hk, Assoc.lookup_eq_none.2 hn.1, Option.none_or, Option.some_or]
      · rw [if_neg hk, if_neg hk]
  exact hl e.items d e.nodup

theorem get_eq_none {d : Dict α β} {k : α} : d.get k = none ↔ k ∉ d.keys := Assoc.lookup_eq_none

theorem get_setdefault (d : Dict α β) (k k' : α) (v : β) :
    (d.setdefault k v).get k' = (d.get k').or (if k' = k then some v else none) := by
  rw [setdefault]
  by_cases h : k ∈ d.keys
  · rw [if_pos h]
    by_cases hk : k' = k
    · cases hg : d.get k' with
      | none => exact absurd (hk ▸ h) (get_eq_none.mp hg)
      | some => rfl
    · rw [if_neg hk, Option.or_none]
  · rw [if_neg h, get_set]
    by_cases hk : k' = k
    · rw [if_pos hk, if_pos hk, hk, get_eq_none.mpr h, Option.none_or]
    · rw [if_neg hk, if_neg hk, Option.or_none]

/-- Setting defaults: the first item of a key counts. -/
theorem get_foldl_setdefault (l : List (α × β)) (d : Dict α β) (k : α) :
    (l.foldl (fun d p => d.setdefault p.1 p.2) d).get k = (d.get k).or (l.lookup k) := by
  induction l generalizing d with
  | nil => exact Option.or_none.symm
  | cons p l ih =>
    rw [List.foldl_cons, ih, get_setdefault, Assoc.lookup_cons_eq, Option.or_assoc]
    by_cases hk : k = p.1
    · rw [if_pos hk, if_pos hk, Option.some_or]
    · rw [if_neg hk, if_neg hk, Option.none_or]

/-- Setting defaults, from nothing. -/
def ofDefaults (l : List (α × β)) : Dict α β := l.foldl (fun d p => d.setdefault p.1 p.2) empty

theorem mem_of_get_ofDefaults {l : List (α × β)} {k : α} {v : β}
    (h : (ofDefaults l).get k = some v) : (k, v) ∈ l := by
  rw [ofDefaults, get_foldl_setdefault, get_empty, Option.none_or] at h
  exact Assoc.mem_of_lookup h

theorem get_ofDefaults_eq_none {l : List (α × β)} {k : α} :
    (ofDefaults l).get k = none ↔ k ∉ Assoc.keys l := by
  rw [ofDefaults, get_foldl_setdefault, get_empty, Option.none_or, Assoc.lookup_eq_none]

theorem mem_keys_set {d : Dict α β} {k k' : α} {v : β} :
    k' ∈ (d.set k v).keys ↔ k' = k ∨ k' ∈ d.keys := Assoc.mem_keys_set

theorem keys_set_of_notMem {d : Dict α β} {k : α} {v : β} (h : k ∉ d.keys) :
    (d.set k v).keys = d.keys ++ [k] := by
  show Assoc.keys (Assoc.set k v d.items) = _
  rw [Assoc.set_of_notMem h, Assoc.keys_append]
  rfl

/-- Setting a key to its own value changes nothing. -/
theorem set_of_get {d : Dict α β} {k : α} {v : β} (h : d.get k = some v) : d.set k v = d := by
  obtain ⟨items, nodup⟩ := d
  rw [set]
  congr 1
  exact Assoc.set_of_lookup h

/-- A key that is set keeps its place, or comes last. -/
theorem keys_set_starts (d : Dict α β) (k : α) (v : β) : d.keys <+: (d.set k v).keys := by
  by_cases h : k ∈ d.keys
  · have he : (d.set k v).keys = d.keys := Assoc.keys_set_of_mem h
    exact he ▸ List.prefix_rfl
  · rw [keys_set_of_notMem h]
    exact List.prefix_append _ _

theorem mem_items {d : Dict α β} {k : α} {v : β} : (k, v) ∈ d.items ↔ d.get k = some v :=
  ⟨Assoc.lookup_of_mem d.nodup, Assoc.mem_of_lookup⟩

theorem items_foldl_set {l : List (α × β)} {d : Dict α β} (hl : (Assoc.keys l).Nodup)
    (hd : ∀ k ∈ Assoc.keys l, k ∉ d.keys) :
    (l.foldl (fun d p => d.set p.1 p.2) d).items = d.items ++ l := by
  induction l generalizing d with
  | nil => rw [List.append_nil, List.foldl_nil]
  | cons p l ih =>
    obtain ⟨hp, hl⟩ := List.nodup_cons.mp hl
    have hset : (d.set p.1 p.2).items = d.items ++ [p] :=
      Assoc.set_of_notMem (hd p.1 List.mem_cons_self)
    rw [List.foldl_cons, ih hl, hset, List.append_assoc, List.singleton_append]
    intro k hk hmem
    rw [keys, hset, Assoc.keys_append, List.mem_append] at hmem
    rcases hmem with hmem | hmem
    · exact hd k (List.mem_cons_of_mem _ hk) hmem
    · exact hp (List.mem_singleton.mp hmem ▸ hk)

/-- Distinct keys keep their order. -/
theorem items_ofItems {l : List (α × β)} (hl : (Assoc.keys l).Nodup) : (ofItems l).items = l :=
  items_foldl_set hl fun _ _ => List.not_mem_nil

theorem mem_keys_ofItems {l : List (α × β)} {k : α} : k ∈ (ofItems l).keys ↔ k ∈ Assoc.keys l := by
  have hl : ∀ (l : List (α × β)) (d : Dict α β),
      k ∈ (l.foldl (fun d p => d.set p.1 p.2) d).keys ↔ k ∈ Assoc.keys l ∨ k ∈ d.keys := by
    intro l
    induction l with
    | nil => exact fun d => (or_iff_right List.not_mem_nil).symm
    | cons p l ih =>
      intro d
      rw [List.foldl_cons, ih, mem_keys_set, Assoc.keys_cons, List.mem_cons, or_assoc, or_left_comm,
        ← or_assoc]
  exact (hl l empty).trans (or_iff_left List.not_mem_nil)

/-- The keys stand where they came first. -/
theorem keys_ofItems_sublist (l : List (α × β)) : (ofItems l).keys.Sublist (Assoc.keys l) := by
  have hl : ∀ (l : List (α × β)) (d : Dict α β), ∃ ks, ks.Sublist (Assoc.keys l) ∧
      (l.foldl (fun d p => d.set p.1 p.2) d).keys = d.keys ++ ks := by
    intro l
    induction l with
    | nil => exact fun d => ⟨[], List.Sublist.refl _, (List.append_nil _).symm⟩
    | cons p l ih =>
      intro d
      obtain ⟨ks, hks, h⟩ := ih (d.set p.1 p.2)
      rw [List.foldl_cons, h]
      by_cases hp : p.1 ∈ d.keys
      · have hset : (d.set p.1 p.2).keys = d.keys := Assoc.keys_set_of_mem hp
        exact ⟨ks, hks.cons p.1, by rw [hset]⟩
      · exact ⟨p.1 :: ks, hks.cons_cons p.1, by rw [keys_set_of_notMem hp, List.append_assoc]; rfl⟩
  obtain ⟨ks, hks, h⟩ := hl l empty
  exact h ▸ hks

theorem get_filter (d : Dict α β) (p : α → β → Bool) (k : α) :
    (d.filter p).get k = (d.get k).filter (p k) := by
  cases h : (d.filter p).get k with
  | some v =>
    obtain ⟨hm, hp⟩ := List.mem_filter.1 (mem_items.2 h)
    rw [mem_items.1 hm, Option.filter_some, if_pos (by simpa using hp)]
  | none =>
    cases h' : d.get k with
    | none => rfl
    | some v =>
      rw [Option.filter_some, if_neg]
      intro hp
      have : (k, v) ∈ (d.filter p).items := List.mem_filter.2 ⟨mem_items.2 h', hp⟩
      rw [mem_items.1 this] at h
      cases h

/-- Dropping some keys. -/
theorem get_foldl_erase (ks : List α) (d : Dict α β) (k : α) :
    (ks.foldl (fun d k => d.erase k) d).get k = if k ∈ ks then none else d.get k := by
  induction ks generalizing d with
  | nil => rfl
  | cons k₀ ks ih =>
    rw [List.foldl_cons, ih, get_erase]
    by_cases hk : k ∈ ks
    · rw [if_pos hk, if_pos (List.mem_cons_of_mem _ hk)]
    · rw [if_neg hk]
      refine if_congr ?_ rfl rfl
      rw [List.mem_cons, or_iff_left hk]

/-- Setting some items: a key has one of its items, or what it had. -/
theorem get_foldl_set (l : List (α × β)) (d : Dict α β) (k : α) :
    (k ∉ l.map Prod.fst ∧ (l.foldl (fun d p => d.set p.1 p.2) d).get k = d.get k) ∨
      ∃ v, (k, v) ∈ l ∧ (l.foldl (fun d p => d.set p.1 p.2) d).get k = some v := by
  induction l generalizing d with
  | nil => exact .inl ⟨List.not_mem_nil, rfl⟩
  | cons p l ih =>
    rw [List.foldl_cons]
    obtain ⟨hk, hget⟩ | ⟨v, hv, hget⟩ := ih (d.set p.1 p.2)
    · rw [hget, get_set]
      by_cases hp : k = p.1
      · exact .inr ⟨p.2, hp ▸ List.mem_cons_self, if_pos hp⟩
      · refine .inl ⟨fun h => ?_, if_neg hp⟩
        rcases List.mem_cons.mp h with h | h
        · exact hp h
        · exact hk h
    · exact .inr ⟨v, List.mem_cons_of_mem _ hv, hget⟩

section Sorted

variable [LinearOrder α]

/-- `sorted(d.items())`; the keys are unique, so they alone decide. -/
def sorted (d : Dict α β) : List (α × β) := d.items.insertionSort fun p q => p.1 ≤ q.1

omit [DecidableEq α] in
theorem sorted_perm (d : Dict α β) : d.sorted.Perm d.items := List.perm_insertionSort _ _

omit [DecidableEq α] in
theorem sorted_eq_nil {d : Dict α β} : d.sorted = [] ↔ d.items = [] := by
  rw [← List.length_eq_zero_iff, d.sorted_perm.length_eq, List.length_eq_zero_iff]

theorem mem_sorted {d : Dict α β} {k : α} {v : β} : (k, v) ∈ d.sorted ↔ d.get k = some v :=
  d.sorted_perm.mem_iff.trans mem_items

theorem lookup_sorted (d : Dict α β) (k : α) : d.sorted.lookup k = d.get k :=
  (Assoc.lookup_perm d.sorted_perm.symm d.nodup k).symm

omit [DecidableEq α] in
theorem nodup_sorted (d : Dict α β) : (Assoc.keys d.sorted).Nodup :=
  (d.sorted_perm.map Prod.fst).nodup_iff.2 d.nodup

end Sorted

end Dict

end Sysforge
