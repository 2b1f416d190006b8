import Mathlib.Logic.Function.Basic
import SkinnyArm.Library.Transition

/-!
Address spaces that are opened empty and filled page by page.

* A step opens a new space, or gives a page without a translation one.
* **Growth** (`Spaces.Extends`): a step changes no translation of an open space and takes none
  away (`Step.extends`), so neither does a run (`run_extends`).
-/

/-- Address spaces by name: which are open, and what each translates its pages to. -/
structure Spaces (ρ π φ : Type*) where
  opened : ρ → Prop
  lookup : ρ → π → Option φ

namespace Spaces

variable {ρ π φ : Type*} {s s' s'' : Spaces ρ π φ} {r r' : ρ} {v v' : π} {f : φ}

/-- No space is open. -/
def none : Spaces ρ π φ := ⟨fun _ => False, fun _ _ => Option.none⟩

/-- Open spaces stay open and keep their translations. -/
structure Extends (s s' : Spaces ρ π φ) : Prop where
  opened : ∀ r, s.opened r → s'.opened r
  lookup : ∀ r v f, s.opened r → s.lookup r v = some f → s'.lookup r v = some f

lemma Extends.refl (s : Spaces ρ π φ) : Extends s s := ⟨fun _ h => h, fun _ _ _ _ h => h⟩

lemma Extends.trans (h : Extends s s') (h' : Extends s' s'') : Extends s s'' where
  opened r hr := h'.opened r (h.opened r hr)
  lookup r v f hr hf := h'.lookup r v f (h.opened r hr) (h.lookup r v f hr hf)

section Updates

variable [DecidableEq ρ]

/-- One more space, empty. -/
def openSpace (s : Spaces ρ π φ) (r : ρ) : Spaces ρ π φ where
  opened r' := r' = r ∨ s.opened r'
  lookup := Function.update s.lookup r fun _ => Option.none

@[simp] lemma lookup_openSpace_self : (s.openSpace r).lookup r v = Option.none := by
  simp [openSpace]

lemma lookup_openSpace (h : r' ≠ r) : (s.openSpace r).lookup r' v = s.lookup r' v := by
  simp [openSpace, h]

variable [DecidableEq π]

/-- One more page of a space. -/
def install (s : Spaces ρ π φ) (r : ρ) (v : π) (f : φ) : Spaces ρ π φ where
  opened := s.opened
  lookup := Function.update s.lookup r (Function.update (s.lookup r) v (some f))

@[simp] lemma lookup_install_self : (s.install r v f).lookup r v = some f := by
  simp [install]

lemma lookup_install (h : ¬(r' = r ∧ v' = v)) :
    (s.install r v f).lookup r' v' = s.lookup r' v' := by
  by_cases hr : r' = r
  · subst hr
    have hv : v' ≠ v := fun hv => h ⟨rfl, hv⟩
    simp [install, hv]
  · simp [install, hr]

/-- A space is opened, or a page is given a translation. -/
inductive Step : Spaces ρ π φ → Spaces ρ π φ → Prop
  | openSpace {s : Spaces ρ π φ} {r : ρ} (hr : ¬ s.opened r) : Step s (s.openSpace r)
  | install {s : Spaces ρ π φ} {r : ρ} {v : π} (f : φ) (hr : s.opened r)
      (hv : s.lookup r v = Option.none) : Step s (s.install r v f)

/-- A step only extends. -/
lemma Step.extends (h : Step s s') : Extends s s' := by
  cases h with
  | @openSpace r hr =>
      refine ⟨fun r' hr' => .inr hr', fun r' v f hr' hf => ?_⟩
      have hne : r' ≠ r := fun heq => hr (heq ▸ hr')
      exact (lookup_openSpace hne).trans hf
  | @install r v f hr hv =>
      refine ⟨fun r' hr' => hr', fun r' v' f' _ hf => ?_⟩
      have hne : ¬(r' = r ∧ v' = v) := by
        rintro ⟨rfl, rfl⟩
        rw [hv] at hf
        exact absurd hf (by simp)
      exact (lookup_install hne).trans hf

/-- **A run only extends.** -/
lemma run_extends (h : Run Step s s') : Extends s s' :=
  Run.invariant (I := Extends s) (fun hI hs => hI.trans hs.extends) h (.refl s)

end Updates

end Spaces
