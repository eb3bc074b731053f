import Mathlib.Data.List.Chain
import Mathlib.Logic.Function.Iterate

/-!
# Expanding the pieces of a list

A list is expanded by putting in the place of each of its pieces the pieces that it stands for. A
rank that falls from a piece to those that it stands for bounds the passes until nothing changes
(`settled_iterate`). Pieces are `Beside` each other when some passes can bring them together, and
a pass keeps lists of such neighbours, also where it leaves pieces as they are (`isChain_flatMap`).
-/

namespace Sysforge.Expansion

variable {α : Type*} {σ τ : α → List α} {L M : List α} {m n : ℕ} {t u : α}

/-- One sweep over a list. -/
def sweep (σ : α → List α) (L : List α) : List α := L.flatMap σ

theorem sweep_append : sweep σ (L ++ M) = sweep σ L ++ sweep σ M := List.flatMap_append

theorem iterate_nil : (sweep σ)^[n] [] = [] := Function.iterate_fixed rfl n

theorem iterate_append : (sweep σ)^[n] (L ++ M) = (sweep σ)^[n] L ++ (sweep σ)^[n] M := by
  induction n generalizing L M with
  | zero => rfl
  | succ n ih => rw [Function.iterate_succ_apply, sweep_append, ih]; rfl

/-- The pieces of a list are expanded each by itself. -/
theorem iterate_eq_flatMap : (sweep σ)^[n] L = L.flatMap fun t => (sweep σ)^[n] [t] := by
  induction L with
  | nil => exact iterate_nil
  | cons t L ih => rw [← List.singleton_append, iterate_append, ih]; rfl

/-! ## Settled lists -/

/-- No piece of the list stands for others. -/
def Settled (σ : α → List α) (L : List α) : Prop := ∀ t ∈ L, σ t = [t]

theorem sweep_of_settled (h : Settled σ L) : sweep σ L = L := by
  induction L with
  | nil => rfl
  | cons t L ih =>
    rw [sweep, List.flatMap_cons, h t List.mem_cons_self]
    exact congrArg (t :: ·) (ih fun u hu => h u (List.mem_cons_of_mem _ hu))

theorem iterate_of_settled (h : Settled σ L) : (sweep σ)^[n] L = L :=
  Function.iterate_fixed (sweep_of_settled h) n

theorem iterate_eq_of_settled (h : Settled σ ((sweep σ)^[m] L)) (hmn : m ≤ n) :
    (sweep σ)^[n] L = (sweep σ)^[m] L := by
  obtain ⟨k, rfl⟩ := Nat.exists_eq_add_of_le' hmn
  rw [Function.iterate_add_apply, iterate_of_settled h]

/-- Each piece stands for itself or for pieces that are settled or of lower rank. -/
def Falls (σ : α → List α) (rank : α → ℕ) : Prop :=
  ∀ t, σ t = [t] ∨ ∀ u ∈ σ t, σ u = [u] ∨ rank u < rank t

theorem settled_singleton {rank : α → ℕ} (h : Falls σ rank) (ht : rank t < n) :
    Settled σ ((sweep σ)^[n] [t]) := by
  induction n generalizing t with
  | zero => cases ht
  | succ n ih =>
    rcases h t with hself | hfall
    · rw [iterate_of_settled (List.forall_mem_singleton.mpr hself)]
      exact List.forall_mem_singleton.mpr hself
    · rw [Function.iterate_succ_apply, sweep, List.flatMap_singleton, iterate_eq_flatMap]
      intro v hv
      obtain ⟨u, hu, hv⟩ := List.mem_flatMap.mp hv
      rcases hfall u hu with hself | hlt
      · rw [iterate_of_settled (List.forall_mem_singleton.mpr hself)] at hv
        rwa [List.mem_singleton.mp hv]
      · exact ih (by omega) v hv

theorem settled_iterate {rank : α → ℕ} (h : Falls σ rank) (hL : ∀ t ∈ L, rank t < n) :
    Settled σ ((sweep σ)^[n] L) := by
  rw [iterate_eq_flatMap]
  intro v hv
  obtain ⟨t, ht, hv⟩ := List.mem_flatMap.mp hv
  exact settled_singleton h (hL t ht) v hv

/-! ## What comes to stand beside each other -/

/-- The pairs that stand beside each other in what is expanded, or come to in some passes. -/
inductive Beside (σ : α → List α) (base : α → α → Prop) : α → α → Prop
  | base {t u : α} : base t u → Beside σ base t u
  /-- Beside each other in what a piece stands for. -/
  | within {t u : α} (v : α) : [t, u] <:+: σ v → Beside σ base t u
  | left {t u t' : α} : Beside σ base t u → t' ∈ (σ t).getLast? → Beside σ base t' u
  | right {t u u' : α} : Beside σ base t u → u' ∈ (σ u).head? → Beside σ base t u'
  /-- What stood between them is empty. -/
  | skip {t u v : α} : Beside σ base t u → Beside σ base u v → σ u = [] → Beside σ base t v

variable {base : α → α → Prop}

theorem isChain_of_infix {R : α → α → Prop} (h : ∀ t u, [t, u] <:+: L → R t u) : L.IsChain R := by
  induction L with
  | nil => exact .nil
  | cons t L ih =>
    have hL := ih fun u v huv => h u v (huv.trans (List.suffix_cons t L).isInfix)
    cases L with
    | nil => exact .singleton t
    | cons u L => exact .cons_cons (h t u ⟨[], L, rfl⟩) hL

theorem isChain_within (v : α) : (σ v).IsChain (Beside σ base) :=
  isChain_of_infix fun _ _ h => .within v h

/-- What a piece stands for, with what may stand behind its last piece. -/
theorem isChain_append_of_getLast? (hne : σ t ≠ [])
    (h : ∀ u ∈ (σ t).getLast?, (u :: L).IsChain (Beside σ base)) :
    (σ t ++ L).IsChain (Beside σ base) := by
  obtain ⟨init, last, hlast⟩ := (List.eq_nil_or_concat' (σ t)).resolve_left hne
  have hwhole : (σ t).IsChain (Beside σ base) := isChain_within t
  have hrest := h last (by rw [hlast]; simp)
  rw [hlast] at hwhole ⊢
  exact hwhole.append_overlap hrest (List.cons_ne_nil _ _)

/-- A list with each piece as it is or in the pieces it stands for. -/
def Steps (σ τ : α → List α) : Prop := ∀ t, τ t = [t] ∨ τ t = σ t

/-- Behind a piece, the expanded rest stands as it should. -/
theorem isChain_cons_flatMap (hτ : Steps σ τ) (h : (t :: L).IsChain (Beside σ base)) :
    (t :: L.flatMap τ).IsChain (Beside σ base) := by
  induction L generalizing t with
  | nil => exact .singleton t
  | cons u L ih =>
    obtain ⟨htu, hL⟩ := List.isChain_cons_cons.mp h
    rw [List.flatMap_cons]
    rcases hτ u with hu | hu
    · rw [hu]
      exact .cons_cons htu (ih hL)
    · rw [hu]
      by_cases hnil : σ u = []
      · rw [hnil, List.nil_append]
        cases L with
        | nil => exact .singleton t
        | cons v L =>
          obtain ⟨huv, hL⟩ := List.isChain_cons_cons.mp hL
          exact ih (.cons_cons (.skip htu huv hnil) hL)
      · have hrest : (σ u ++ L.flatMap τ).IsChain (Beside σ base) := by
          refine isChain_append_of_getLast? hnil fun last hlast => ih ?_
          cases L with
          | nil => exact .singleton last
          | cons v L =>
            obtain ⟨huv, hL⟩ := List.isChain_cons_cons.mp hL
            exact .cons_cons (.left huv hlast) hL
        obtain ⟨v, vs, hv⟩ := List.exists_cons_of_ne_nil hnil
        rw [hv] at hrest ⊢
        exact .cons_cons (.right htu (by rw [hv]; rfl)) hrest

theorem isChain_flatMap (hτ : Steps σ τ) (h : L.IsChain (Beside σ base)) :
    (L.flatMap τ).IsChain (Beside σ base) := by
  induction L with
  | nil => exact .nil
  | cons t L ih =>
    have hL : L.IsChain (Beside σ base) := by
      cases L with
      | nil => exact .nil
      | cons u L => exact (List.isChain_cons_cons.mp h).2
    rw [List.flatMap_cons]
    rcases hτ t with ht | ht
    · rw [ht]
      exact isChain_cons_flatMap hτ h
    · rw [ht]
      by_cases hnil : σ t = []
      · rw [hnil]
        exact ih hL
      · refine isChain_append_of_getLast? hnil fun last hlast => isChain_cons_flatMap hτ ?_
        cases L with
        | nil => exact .singleton last
        | cons u L => exact .cons_cons (.left (List.isChain_cons_cons.mp h).1 hlast) hL

end Sysforge.Expansion
