import Mathlib.Data.List.Perm.Basic
import Mathlib.Data.List.Nodup
import SkinnyArm.Library.Transition

/-!
A pool of resources handed out and taken back one at a time, last returned first handed out.

The free and the used resources together are the same at every step up to order
(`Pool.Step.perm`), so without repetitions at the start they partition the resources for ever
(`Pool.run_perm`, `Pool.mem_free_iff`).
-/

/-- A pool: the free resources in the order they will be handed out, and the used ones. -/
structure Pool (α : Type*) where
  free : List α
  used : List α

namespace Pool

variable {α : Type*} {p p' : Pool α} {a : α} {l : List α}

/-- The resources of a pool. -/
def all (p : Pool α) : List α := p.free ++ p.used

/-- One resource is handed out or taken back. -/
inductive Step [DecidableEq α] : Pool α → Pool α → Prop
  | take {a : α} {free used : List α} : Step ⟨a :: free, used⟩ ⟨free, a :: used⟩
  | give {a : α} {free used : List α} (ha : a ∈ used) :
      Step ⟨free, used⟩ ⟨a :: free, used.erase a⟩

/-- A step moves one resource from one side to the other. -/
lemma Step.perm [DecidableEq α] (h : Step p p') : p'.all.Perm p.all := by
  cases h with
  | take => exact List.perm_middle
  | give ha =>
      simp only [all, List.cons_append]
      exact List.perm_middle.symm.trans (List.Perm.append_left _ (List.perm_cons_erase ha).symm)

/-- The resources are the same at the end of every run. -/
lemma run_perm [DecidableEq α] (h : Run Step p p') : p'.all.Perm p.all :=
  Run.invariant (I := fun q => q.all.Perm p.all) (fun hI hs => hs.perm.trans hI) h
    (List.Perm.refl _)

/-- In a pool whose resources are the distinct members of `l`, a resource is free exactly when
it is not used. -/
lemma mem_free_iff (h : p.all.Perm l) (hl : l.Nodup) (ha : a ∈ l) : a ∈ p.free ↔ a ∉ p.used := by
  have hnd : (p.free ++ p.used).Nodup := h.nodup_iff.mpr hl
  have hmem : a ∈ p.free ++ p.used := h.mem_iff.mpr ha
  constructor
  · exact fun hf hu => (List.disjoint_of_nodup_append hnd) hf hu
  · exact fun hu => (List.mem_append.mp hmem).resolve_right hu

/-- Nothing is free exactly when everything is used. -/
lemma free_eq_nil_iff (h : p.all.Perm l) (hl : l.Nodup) :
    p.free = [] ↔ ∀ a ∈ l, a ∈ p.used := by
  constructor
  · intro hnil a ha
    by_contra hu
    have hf := (mem_free_iff h hl ha).mpr hu
    rw [hnil] at hf
    exact absurd hf (by simp)
  · intro hall
    refine List.eq_nil_iff_forall_not_mem.mpr fun a hf => ?_
    have ha : a ∈ l := h.mem_iff.mp (List.mem_append_left _ hf)
    exact (mem_free_iff h hl ha).mp hf (hall a ha)

end Pool
