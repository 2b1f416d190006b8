import Mathlib.Logic.Relation
import Mathlib.Tactic

/-!
Runs of a step relation, as reflexive transitive closures.

* `Run.invariant`: what one step preserves, every run preserves.
* `Simulation`: every step of a system is matched by a run of another, and so is every run
  (`Simulation.run`).
* `exists_of_measure`: what happens some time along an infinite run because a number can get
  smaller only so often.
-/

open Relation

variable {σ τ : Type*} {step : σ → σ → Prop} {step' : τ → τ → Prop} {s s' : σ} {t : τ}

/-- The runs of a step relation. -/
abbrev Run (step : σ → σ → Prop) : σ → σ → Prop := ReflTransGen step

/-- A property that every step preserves holds at the end of every run. -/
lemma Run.invariant {I : σ → Prop} (hstep : ∀ {s s'}, I s → step s s' → I s')
    (hrun : Run step s s') (hs : I s) : I s' := by
  induction hrun with
  | refl => exact hs
  | tail _ h ih => exact hstep ih h

/-- Every step of the first system from related states is matched by a run of the second. -/
structure Simulation (R : σ → τ → Prop) (step : σ → σ → Prop) (step' : τ → τ → Prop) : Prop where
  match_step : ∀ {s s' t}, R s t → step s s' → ∃ t', Run step' t t' ∧ R s' t'

/-- A simulation matches whole runs. -/
lemma Simulation.run {R : σ → τ → Prop} (h : Simulation R step step') (hR : R s t)
    (hrun : Run step s s') : ∃ t', Run step' t t' ∧ R s' t' := by
  induction hrun with
  | refl => exact ⟨t, .refl, hR⟩
  | tail _ hlast ih =>
      obtain ⟨t₁, hrun₁, hR₁⟩ := ih
      obtain ⟨t₂, hrun₂, hR₂⟩ := h.match_step hR₁ hlast
      exact ⟨t₂, hrun₁.trans hrun₂, hR₂⟩

/-- Along an infinite run, a number that never grows and gets smaller some time unless `P` holds
makes `P` hold some time. -/
lemma exists_of_measure {f : ℕ → ℕ} {P : ℕ → Prop} {n : ℕ} (hle : ∀ k, n ≤ k → f (k + 1) ≤ f k)
    (hlt : ∀ k, n ≤ k → ∃ l, k ≤ l ∧ (P l ∨ f (l + 1) < f l)) : ∃ k, n ≤ k ∧ P k := by
  induction hv : f n using Nat.strong_induction_on generalizing n with
  | _ v ih =>
      have hmono : ∀ l, n ≤ l → f l ≤ f n := fun l hnl => by
        induction l, hnl using Nat.le_induction with
        | base => exact le_rfl
        | succ l hnl ihl => exact (hle l hnl).trans ihl
      obtain ⟨l, hnl, hP | hless⟩ := hlt n le_rfl
      · exact ⟨l, hnl, hP⟩
      · obtain ⟨k, hlk, hP⟩ := ih (f (l + 1)) (hv ▸ hless.trans_le (hmono l hnl))
          (fun k hk => hle k (by omega)) (fun k hk => hlt k (by omega)) rfl
        exact ⟨k, by omega, hP⟩
