import SkinnyArm.Library.Forest
import Mathlib.Data.Finset.Card

/-!
Nodes a forest does not have yet.

* `missing edge a N` are the paths of `N` at which the walk from `a` does not arrive.  A walk that
  does not arrive stops at one edge (`exists_stop`), and below it everything is missing
  (`missing_of_stop`).
* **Growth**: when the paths of `P` are made, a set loses exactly those (`missing_grown`), so the
  nodes missing for two sets are those missing for the first, and those still missing for the
  second afterwards (`card_missing_union`).
-/

namespace Forest

variable {α ι : Type*} {edge edge' : α → ι → Option α} {a b c : α} {p q s : List ι} {i : ι}

/-- A walk that does not arrive stops at the first edge that is not there. -/
lemma exists_stop (h : walk edge a p = none) :
    ∃ q i s c, p = q ++ i :: s ∧ walk edge a q = some c ∧ edge c i = none := by
  induction p using List.reverseRecOn with
  | nil => exact absurd h (by simp)
  | append_singleton p j ih =>
      cases hw : walk edge a p with
      | none =>
          obtain ⟨q, i, s, c, rfl, hq, hstop⟩ := ih hw
          exact ⟨q, i, s ++ [j], c, by simp, hq, hstop⟩
      | some c =>
          rw [walk_concat, hw] at h
          exact ⟨p, j, [], c, rfl, hw, h⟩

/-- Past the edge it stops at a walk does not arrive. -/
lemma walk_of_stop (hq : walk edge a q = some c) (hstop : edge c i = none) :
    walk edge a (q ++ i :: s) = none := by
  rw [walk_append, hq, Option.bind_some, walk_cons, hstop, Option.bind_none]

variable {N P : Finset (List ι)}

/-- The paths of a set at which the walk does not arrive. -/
def missing (edge : α → ι → Option α) (a : α) (N : Finset (List ι)) : Finset (List ι) :=
  N.filter fun p => walk edge a p = none

lemma mem_missing : p ∈ missing edge a N ↔ p ∈ N ∧ walk edge a p = none := Finset.mem_filter

/-- On the way to a node that is there nothing is missing. -/
lemma missing_of_walk (h : walk edge a p = some b) (hN : ∀ q ∈ N, q <+: p) :
    missing edge a N = ∅ := by
  refine Finset.filter_eq_empty_iff.mpr fun q hq hnone => ?_
  obtain ⟨c, hc⟩ := exists_walk_of_prefix h (hN q hq)
  rw [hc] at hnone
  exact absurd hnone (by simp)

/-- On a path whose walk stops the longer prefixes are missing. -/
lemma missing_of_stop (hq : walk edge a q = some c) (hstop : edge c i = none)
    (hN : ∀ p ∈ N, p <+: q ++ i :: s) : missing edge a N = N.filter (q.length < ·.length) := by
  refine Finset.filter_congr fun p hp => ?_
  have hpre := hN p hp
  constructor
  · intro hnone
    by_contra hle
    have hpq : p <+: q := List.prefix_of_prefix_length_le hpre (List.prefix_append q _) (by omega)
    obtain ⟨d, hd⟩ := exists_walk_of_prefix hq hpq
    rw [hd] at hnone
    exact absurd hnone (by simp)
  · intro hlt
    have hqp : q ++ [i] <+: p := by
      refine List.prefix_of_prefix_length_le ⟨s, by simp⟩ hpre ?_
      rw [List.length_append, List.length_singleton]
      omega
    obtain ⟨s', rfl⟩ := hqp
    rw [List.append_assoc]
    exact walk_of_stop hq hstop

/-- A forest without edges at a node lacks every path below it. -/
lemma missing_of_empty (h : ∀ i, edge a i = none) (hN : ∀ p ∈ N, p ≠ []) :
    missing edge a N = N := by
  refine Finset.filter_true_of_mem fun p hp => ?_
  cases p with
  | nil => exact absurd rfl (hN [] hp)
  | cons i p => rw [walk_cons, h, Option.bind_none]

lemma card_missing_mono (h : P ⊆ N) : (missing edge a P).card ≤ (missing edge a N).card :=
  Finset.card_le_card (Finset.filter_subset_filter _ h)

section Growth

variable [DecidableEq ι]

/-- **Growth**: the paths that were made are no longer missing. -/
lemma missing_grown
    (h : ∀ p ∈ N, walk edge' a p = none ↔ walk edge a p = none ∧ p ∉ P) :
    missing edge' a N = missing edge a N \ P := by
  ext p
  rw [Finset.mem_sdiff, mem_missing, mem_missing]
  constructor
  · rintro ⟨hp, hnone⟩
    obtain ⟨hnone', hP⟩ := (h p hp).mp hnone
    exact ⟨⟨hp, hnone'⟩, hP⟩
  · rintro ⟨⟨hp, hnone⟩, hP⟩
    exact ⟨hp, (h p hp).mpr ⟨hnone, hP⟩⟩

/-- **Two sets in a row**: what both lack is what the first lacks, and what the second lacks after
the first has been made. -/
lemma card_missing_union
    (h : ∀ p ∈ N, walk edge' a p = none ↔ walk edge a p = none ∧ p ∉ P) :
    (missing edge a (P ∪ N)).card = (missing edge a P).card + (missing edge' a N).card := by
  have hsplit : missing edge a (P ∪ N) = missing edge a P ∪ missing edge' a N := by
    rw [missing_grown h]
    ext p
    simp only [Finset.mem_union, Finset.mem_sdiff, mem_missing]
    tauto
  have hdisj : Disjoint (missing edge a P) (missing edge' a N) := by
    rw [missing_grown h]
    exact Finset.disjoint_sdiff.mono_left (Finset.filter_subset _ P)
  rw [hsplit, Finset.card_union_of_disjoint hdisj]

end Growth

end Forest
