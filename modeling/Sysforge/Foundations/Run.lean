import Mathlib.Data.List.Basic

/-!
# Runs of a deterministic system

A system is a step function; a run applies it to a list of inputs. `Each` says that every step of
a run meets a condition on the input and on the state before it, and `Each.invariant` is the rule
by which an invariant that such steps preserve holds of every state the run reaches.
-/

namespace Sysforge.Run

variable {σ ι : Type*} {step : σ → ι → σ}

/-- The state after the inputs `is`. -/
def run (step : σ → ι → σ) (s : σ) (is : List ι) : σ := is.foldl step s

/-- Every step of a run meets `P`. -/
def Each (step : σ → ι → σ) (P : σ → ι → Prop) : σ → List ι → Prop
  | _, [] => True
  | s, i :: is => P s i ∧ Each step P (step s i) is

variable {P : σ → ι → Prop} {s : σ} {is js : List ι}

@[simp] theorem run_nil : run step s [] = s := rfl

@[simp] theorem run_cons (i : ι) : run step s (i :: is) = run step (step s i) is := rfl

/-- The steps of a prefix are steps of the run. -/
theorem Each.of_prefix (h : Each step P s is) (hp : js <+: is) : Each step P s js := by
  induction js generalizing s is with
  | nil => trivial
  | cons j js ih =>
    obtain ⟨ks, rfl⟩ := hp
    exact ⟨h.1, ih h.2 ⟨ks, rfl⟩⟩

theorem each_append :
    Each step P s (is ++ js) ↔ Each step P s is ∧ Each step P (run step s is) js := by
  induction is generalizing s with
  | nil => exact (and_iff_right trivial).symm
  | cons i is ih => rw [List.cons_append, Each, Each, ih, run_cons, and_assoc]

/-- **The invariant rule**: what every step of a run preserves holds at its end. -/
theorem Each.invariant {I : σ → Prop} (h : Each step P s is) (h₀ : I s)
    (hstep : ∀ s, ∀ i ∈ is, I s → P s i → I (step s i)) : I (run step s is) := by
  induction is generalizing s with
  | nil => exact h₀
  | cons i is ih =>
    exact ih h.2 (hstep s i List.mem_cons_self h₀ h.1)
      fun s j hj => hstep s j (List.mem_cons_of_mem _ hj)

/-- What every step preserves holds at the end of every run. -/
theorem run_invariant {I : σ → Prop} (h₀ : I s) (hstep : ∀ s i, I s → I (step s i)) :
    I (run step s is) := by
  induction is generalizing s with
  | nil => exact h₀
  | cons i is ih => exact ih (hstep s i h₀)

/-- The steps that leave an observation alone do not decide it: it is what it was, or what the last
step that touches it makes of it. -/
theorem run_last {β : Type*} {obs : σ → β} {touches : ι → Prop}
    (hframe : ∀ i ∈ is, ∀ s, ¬ touches i → obs (step s i) = obs s) :
    (∀ i ∈ is, ¬ touches i) ∧ obs (run step s is) = obs s ∨
      ∃ js i ks, is = js ++ i :: ks ∧ touches i ∧ (∀ k ∈ ks, ¬ touches k) ∧
        obs (run step s is) = obs (step (run step s js) i) := by
  induction is generalizing s with
  | nil => exact .inl ⟨fun _ h => absurd h List.not_mem_nil, rfl⟩
  | cons i is ih =>
    rw [run_cons]
    have hrest := @ih (step s i) fun j hj => hframe j (List.mem_cons_of_mem _ hj)
    obtain ⟨hno, hobs⟩ | ⟨js, j, ks, rfl, hj, hks, hobs⟩ := hrest
    · by_cases hi : touches i
      · exact .inr ⟨[], i, is, rfl, hi, hno, hobs⟩
      · refine .inl ⟨fun k hk => ?_, hobs.trans (hframe i List.mem_cons_self s hi)⟩
        obtain rfl | hk := List.mem_cons.mp hk
        · exact hi
        · exact hno k hk
    · exact .inr ⟨i :: js, j, ks, rfl, hj, hks, hobs⟩

end Sysforge.Run
