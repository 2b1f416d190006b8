import SkinnyArm.PageTree.Run

/-!
`free_pagetable` on a page tree.

`FreesTree` is what tearing a tree down should leave behind.  The last thing `free_pagetable`
does is `kfree(levels[0])`, which takes the new head of the free list from the root's own link
word, so the root is never on the list afterwards (`freePagetable_not_freesTree`).
-/

namespace SkinnyArm

open ByteMemory Forest

variable {frames fs : List ℕ} {w : World} {pos : Pos} {root : ℕ}

/-- A frame of the tree at a root: the root, a table below it, or a data page from `kalloc`. -/
def World.TreeFrame (w : World) (root f : ℕ) : Prop :=
  (∃ q : List (Fin 512), q.length ≤ 3 ∧ walk (edge w.mem) root q = some f) ∨
    ∃ μ ∈ w.mapped, μ.root = root ∧ μ.pa = 0 ∧ translate w.mem root μ.va = some f

/-- A tree torn down: its frames are on the free list, each once, with the frames that were there,
and nothing outside them is written. -/
structure FreesTree (w : World) (root : ℕ) (k' : Kernel) : Prop where
  list : ∃ fs fs' freed, FreeList w.kernel fs ∧ FreeList k' fs' ∧ fs'.Perm (freed ++ fs) ∧
    freed.Nodup ∧ ∀ f, f ∈ freed ↔ w.TreeFrame root f
  frame : ∀ a, (∀ f, w.TreeFrame root f → a ∉ page f) → k'.mem a = w.mem a

/-- Whatever ran before, `kfree` of the root's own address does not tear its tree down. -/
lemma not_freesTree_kfree (k : Kernel) : ¬ FreesTree w root (k.kfree (.at root)) := by
  rintro ⟨⟨fs, fs', freed, -, hlist, hperm, -, hfreed⟩, -⟩
  have hroot : root ∈ freed := (hfreed root).mpr (.inl ⟨[], by simp, rfl⟩)
  exact hlist.kfree_at_notMem (hperm.mem_iff.mpr (List.mem_append_left fs hroot))

/-- **`free_pagetable` tears no tree down**, whatever the tree and the contents of its pages. -/
theorem freePagetable_not_freesTree (w : World) (root : ℕ) :
    ¬ FreesTree w root (w.kernel.freePagetable root) :=
  not_freesTree_kfree _

/-- The tree of one empty root. -/
theorem freePagetable_fails :
    smallBoot.Reaches smallWorld ∧ 4096 ∈ smallWorld.roots ∧
      ¬ FreesTree smallWorld 4096 (smallTaken.freePagetable 4096) :=
  ⟨smallWorld_reaches, by simp [smallWorld], not_freesTree_kfree _⟩

end SkinnyArm
