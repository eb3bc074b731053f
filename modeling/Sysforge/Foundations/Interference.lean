import Mathlib.Data.List.Basic
import Mathlib.Tactic.SplitIfs

/-!
# Programs that others interfere with

A program is a list of instructions. While an instruction is the next one, others may change the
state as far as the discipline lets them. What is known of the state is followed from instruction to
instruction, and it has to be such that what others may do at that point does not take it away.
-/

namespace Sysforge.Interference

variable {σ ι ο κ : Type*}

/-- Instructions, what others may do, and a kind of knowledge that both keep up. -/
structure Discipline (σ ι ο κ : Type*) where
  /-- What an instruction does, and whether the program goes on. -/
  exec : σ → ι → ο → σ × Bool
  /-- What others may do while the instruction is the next one. -/
  env : ι → σ → σ → Prop
  holds : κ → σ → Prop
  /-- What has to be known before an instruction. -/
  needs : ι → κ → Prop
  /-- What is known after it. -/
  after : ι → κ → κ
  stable : ∀ {k i s s'}, needs i k → holds k s → env i s s' → holds k s'
  sound : ∀ {k i s} (o : ο), needs i k → holds k s → (exec s i o).2 = true →
    holds (after i k) (exec s i o).1

namespace Discipline

variable (d : Discipline σ ι ο κ)

/-- What is known after a program. -/
def afterAll (k : κ) (is : List ι) : κ := is.foldl (fun k i => d.after i k) k

/-- Every instruction of the program comes with what it needs. -/
def Guarded : κ → List ι → Prop
  | _, [] => True
  | k, i :: is => d.needs i k ∧ Guarded (d.after i k) is

/-- What is left of the program is guarded by something that is known. -/
def Tracks (s : σ) : List ι → Prop
  | [] => True
  | i :: is => ∃ k, d.holds k s ∧ d.Guarded k (i :: is)

variable {d} {k : κ} {i : ι} {is js : List ι} {s s' : σ}

@[simp] theorem afterAll_nil : d.afterAll k [] = k := rfl

@[simp] theorem afterAll_cons : d.afterAll k (i :: is) = d.afterAll (d.after i k) is := rfl

@[simp] theorem afterAll_append :
    d.afterAll k (is ++ js) = d.afterAll (d.afterAll k is) js := List.foldl_append

theorem guarded_append :
    d.Guarded k (is ++ js) ↔ d.Guarded k is ∧ d.Guarded (d.afterAll k is) js := by
  induction is generalizing k with
  | nil => exact (and_iff_right trivial).symm
  | cons i is ih => rw [List.cons_append, Guarded, Guarded, ih, afterAll_cons, and_assoc]

/-- The program is guarded by what is known before it, and leads to what is known after it. -/
structure Leads (d : Discipline σ ι ο κ) (k : κ) (is : List ι) (k' : κ) : Prop where
  guarded : d.Guarded k is
  afterAll_eq : d.afterAll k is = k'

theorem leads_nil : d.Leads k [] k := ⟨trivial, rfl⟩

theorem leads_one (h : d.needs i k) : d.Leads k [i] (d.after i k) := ⟨⟨h, trivial⟩, rfl⟩

theorem Leads.append {k₁ k₂ : κ} (h : d.Leads k is k₁) (h' : d.Leads k₁ js k₂) :
    d.Leads k (is ++ js) k₂ := by
  obtain ⟨hg, rfl⟩ := h
  obtain ⟨hg', rfl⟩ := h'
  exact ⟨guarded_append.mpr ⟨hg, hg'⟩, afterAll_append⟩

theorem Leads.cons {k₂ : κ} (h : d.needs i k) (h' : d.Leads (d.after i k) is k₂) :
    d.Leads k (i :: is) k₂ := (leads_one h).append h'

theorem leads_ite {c : Prop} [Decidable c] {k' : κ} (h : c → d.Leads k is k')
    (h' : ¬ c → d.Leads k js k') : d.Leads k (if c then is else js) k' := by
  split_ifs with hc
  · exact h hc
  · exact h' hc

theorem tracks_of_guarded (h : d.Guarded k is) (hs : d.holds k s) : d.Tracks s is := by
  cases is with
  | nil => trivial
  | cons i is => exact ⟨k, hs, h⟩

/-- Others do not take away what the program goes by. -/
theorem Tracks.others (h : d.Tracks s (i :: is)) (he : d.env i s s') : d.Tracks s' (i :: is) := by
  obtain ⟨k, hs, hg⟩ := h
  exact ⟨k, d.stable hg.1 hs he, hg⟩

/-- **The rule for an instruction**. -/
theorem Tracks.exec (h : d.Tracks s (i :: is)) (o : ο) (hgo : (d.exec s i o).2 = true) :
    d.Tracks (d.exec s i o).1 is := by
  obtain ⟨k, hs, hg⟩ := h
  exact tracks_of_guarded hg.2 (d.sound o hg.1 hs hgo)

/-- Whenever an instruction is the next one, what it needs is known, and holds. -/
theorem Tracks.needs (h : d.Tracks s (i :: is)) : ∃ k, d.holds k s ∧ d.needs i k := by
  obtain ⟨k, hs, hg⟩ := h
  exact ⟨k, hs, hg.1⟩

end Discipline

end Sysforge.Interference
