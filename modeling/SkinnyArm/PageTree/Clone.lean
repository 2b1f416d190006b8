import SkinnyArm.PageTree.Run

/-!
`clone_pagetable` on page trees.

* `CloneCorrect` is what a copy should be: a tree with the same pages at fresh frames after `0`,
  the free list restored after `-1`.
* The local `frame` is passed to `kalloc` before it has a value, and `tos[0]` is the address of
  the array itself, so the only trees that are copied are the ones with nothing to copy
  (`cloneCorrect_iff`).
-/

namespace SkinnyArm

open ByteMemory Forest

variable {frames fs : List ℕ} {w : World} {pos : Pos} {k k₁ : Kernel} {«from» «to» tos : ℕ}

/-- The last-level entry of a page. -/
def leafEntry (m : ByteMemory) (root : ℕ) (va : BitVec 64) : Option (BitVec 64) :=
  (tableAt m root va 3).map fun t => entry m t (lvlAddr va 3)

/-- The tables and pages of a tree keep their contents. -/
def World.Unchanged (w : World) (root : ℕ) (m' : ByteMemory) : Prop :=
  ∀ q : List (Fin 512), q.length ≤ 4 → ∀ t, walk (edge w.mem) root q = some t →
    Set.EqOn m' w.mem (page t)

/-- A tree copied: the same pages, each at a frame taken from the free list that no other entry
uses, with the same bytes and the same bits beside the address. -/
structure Cloned (w : World) («from» «to» : ℕ) (k' : Kernel) : Prop where
  exactly : ∀ va, (translate k'.mem «to» va).isSome = (translate w.mem «from» va).isSome
  pages : ∃ fs fs', FreeList w.kernel fs ∧ FreeList k' fs' ∧ ∀ va f g,
    translate w.mem «from» va = some f → translate k'.mem «to» va = some g →
    g ∈ fs ∧ g ∉ fs' ∧
    (∀ r ∈ w.roots, ∀ q : List (Fin 512), q ≠ [] → q.length ≤ 4 →
      walk (edge k'.mem) r q = some g → r = «to» ∧ q = path va) ∧
    (∀ x < pageSize, k'.mem (g + x) = w.mem (f + x)) ∧
    ∀ old new, leafEntry w.mem «from» va = some old → leafEntry k'.mem «to» va = some new →
      ∀ i, ¬(12 ≤ i ∧ i < 48) → new.getLsbD i = old.getLsbD i
  unchanged : w.Unchanged «from» k'.mem

/-- A copy given up: every free frame is on the list again, once. -/
structure Uncloned (w : World) («from» : ℕ) (k' : Kernel) : Prop where
  back : ∃ fs fs', FreeList w.kernel fs ∧ FreeList k' fs' ∧ ∀ f ∈ fs, fs'.count f = 1
  unchanged : w.Unchanged «from» k'.mem

/-- What the outcome of a copy should be: a return, with the copy made for `0` and given up for
`-1`. -/
def CloneCorrect (w : World) («from» «to» : ℕ) (outcome : Clone) : Prop :=
  ∃ k' code, outcome = .ret k' code ∧ (code = 0 → Cloned w «from» «to» k') ∧
    (code = -1 → Uncloned w «from» k')

/-- A world with one more root, just taken. -/
def World.rooted (w : World) («to» : ℕ) (k₁ : Kernel) : World :=
  { w with kernel := k₁, roots := «to» :: w.roots }

/-- Where the local array `tos` lies: off the frames of the trees and the free list. -/
structure StackArray (frames : List ℕ) (tos : ℕ) : Prop where
  lt : tos < 2 ^ 64
  apart : ∀ f ∈ frames, Disjoint (block tos 40) (page f)

/-- The entry of a mapped page's root is set, and stays so when a new root is taken. -/
lemma Inv.isSet_newRoot (hI : Inv frames w fs pos) (hfr : InitialFrames frames)
    (hfrom : «from» ∈ w.roots) (hk : w.kernel.kalloc = some («to», k₁)) {va : BitVec 64} {f : ℕ}
    (htr : translate w.mem «from» va = some f) : IsSet (entry k₁.mem «from» (lvlAddr va 0)) := by
  obtain ⟨rest, rfl, -⟩ := hI.list.kalloc hk
  obtain ⟨-, -, rfl⟩ := Kernel.kalloc_eq_some hk
  have hpos := hI.planted.root «from» hfrom
  have hne : «from» ≠ «to» := ne_of_named (hI.pos_free (by simp)) hpos
  rw [entry_of_eqOn_page clear_eqOn (hI.aligned hfr hpos) (hI.list.aligned _ (by simp)) hne]
  rw [translate, path, walk_cons, Option.bind_eq_some_iff] at htr
  obtain ⟨t, ht, -⟩ := htr
  exact (edge_eq_some.mp ht).1

/-! ### The loops -/

lemma Clone.loop_go {body : Kernel → Fin 512 → Clone} {is : List (Fin 512)}
    (h : ∀ i ∈ is, body k i = .go k) : Clone.loop body is k = .go k := by
  induction is with
  | nil => rfl
  | cons i is ih =>
      rw [Clone.loop, h i (by simp)]
      exact ih fun j hj => h j (List.mem_cons_of_mem i hj)

/-- A loop whose body goes on unchanged or is undefined, and is undefined somewhere. -/
lemma Clone.loop_undefined {body : Kernel → Fin 512 → Clone} {is : List (Fin 512)}
    (h : ∀ i ∈ is, body k i = .go k ∨ body k i = .undefined)
    (hex : ∃ i ∈ is, body k i = .undefined) : Clone.loop body is k = .undefined := by
  induction is with
  | nil =>
      obtain ⟨i, hi, -⟩ := hex
      exact absurd hi (by simp)
  | cons i is ih =>
      rw [Clone.loop]
      rcases h i (by simp) with hgo | hundef
      · rw [hgo]
        refine ih (fun j hj => h j (List.mem_cons_of_mem i hj)) ?_
        obtain ⟨j, hj, hundef⟩ := hex
        rcases List.mem_cons.mp hj with rfl | hj
        · rw [hgo] at hundef
          exact absurd hundef (by simp)
        · exact ⟨j, hj, hundef⟩
      · rw [hundef]

/-- With `frame` unset the outer loop passes over the unset entries and stops at a set one. -/
lemma cloneTables_none {m : ByteMemory} {head : ℕ} (h : ∀ i, ¬ IsSet (entry m «from» i)) :
    cloneTables «to» tos none 3 0 ⟨m, head⟩ «from» = .go ⟨m, head⟩ := by
  rw [cloneTables]
  refine Clone.loop_go fun i _ => ?_
  simp only [if_pos (h i)]

lemma cloneTables_undefined {m : ByteMemory} {head : ℕ} {i : Fin 512}
    (h : IsSet (entry m «from» i)) :
    cloneTables «to» tos none 3 0 ⟨m, head⟩ «from» = .undefined := by
  rw [cloneTables]
  refine Clone.loop_undefined (fun j _ => ?_) ⟨i, List.mem_finRange i, ?_⟩
  · by_cases hj : IsSet (entry m «from» j)
    · exact .inr (by simp only [not_not.mpr hj, if_false, cloneEntry])
    · exact .inl (by simp only [if_pos hj])
  · simp only [not_not.mpr h, if_false, cloneEntry]

/-! ### The first copy -/

/-- The memory when the loops start: the array's own address in `tos[0]`, and over its low byte
the first byte of the root. -/
def cloneStart (m : ByteMemory) («from» tos : ℕ) : ByteMemory :=
  let m := m.store64 tos (BitVec.ofNat 64 tos)
  strcpy m «from» (tosAt m tos 0) pageSize

/-- Nothing but the array is written. -/
lemma cloneStart_eqOn (m : ByteMemory) («from» : ℕ) (htos : tos < 2 ^ 64) :
    Set.EqOn (cloneStart m «from» tos) m (block tos 40)ᶜ := by
  have hself : tosAt (m.store64 tos (BitVec.ofNat 64 tos)) tos 0 = tos := by
    rw [tosAt, Nat.mul_zero, Nat.add_zero, load64_store64_self, BitVec.toNat_ofNat,
      Nat.mod_eq_of_lt htos]
  simp only [cloneStart, hself]
  rw [strcpy_eq _ _ _ _ (by simp only [pageSize]; omega)]
  refine (store8_eqOn.mono ?_).trans (store64_eqOn.mono ?_)
  all_goals
    refine Set.compl_subset_compl.mpr fun x hx => ?_
    simp only [Set.mem_Ico] at hx ⊢
    omega

lemma clonePagetable_eq (k : Kernel) («from» «to» tos : ℕ) :
    k.clonePagetable «from» «to» tos =
      (cloneTables «to» tos none 3 0 ⟨cloneStart k.mem «from» tos, k.pageFrameLinkedList⟩
        «from»).finish := rfl

/-! ### The copy -/

section Rooted

variable (hI : Inv frames (w.rooted «to» k₁) fs pos) (hfrom : «from» ∈ w.roots)
  (htos : StackArray frames tos)
include hI hfrom htos

omit hfrom in
/-- The array is no table. -/
lemma entry_cloneStart {t : ℕ} {x : ℕ × List (Fin 512)} (ht : pos t = some x) (i : Fin 512) :
    entry (cloneStart k₁.mem «from» tos) t i = entry k₁.mem t i :=
  entry_congr ((cloneStart_eqOn k₁.mem «from» htos.lt).mono
    (htos.apart t (hI.mem_frames ht)).symm.subset_compl_right)

/-- A set entry in the root makes the copy undefined. -/
lemma clonePagetable_undefined {i : Fin 512} (h : IsSet (entry k₁.mem «from» i)) :
    k₁.clonePagetable «from» «to» tos = .undefined := by
  have hpos : pos «from» = some («from», []) :=
    hI.planted.root «from» (List.mem_cons_of_mem «to» hfrom)
  have hset : IsSet (entry (cloneStart k₁.mem «from» tos) «from» i) := by
    rwa [entry_cloneStart hI htos hpos]
  rw [clonePagetable_eq, cloneTables_undefined hset, Clone.finish]
  simp

/-- A root without set entries is copied, to the empty tree. -/
lemma cloneCorrect_of_unset (hzero : ∀ i, edge k₁.mem «to» i = none)
    (h : ∀ i, ¬ IsSet (entry k₁.mem «from» i)) :
    CloneCorrect (w.rooted «to» k₁) «from» «to» (k₁.clonePagetable «from» «to» tos) := by
  have hposFrom : pos «from» = some («from», []) :=
    hI.planted.root «from» (List.mem_cons_of_mem «to» hfrom)
  have hposTo : pos «to» = some («to», []) := hI.planted.root «to» List.mem_cons_self
  have heqOn := cloneStart_eqOn k₁.mem «from» htos.lt
  have hpage : ∀ {f}, f ∈ frames → Set.EqOn (cloneStart k₁.mem «from» tos) k₁.mem (page f) :=
    fun hf => heqOn.mono (htos.apart _ hf).symm.subset_compl_right
  have hunset : ∀ i, ¬ IsSet (entry (cloneStart k₁.mem «from» tos) «from» i) := fun i => by
    rw [entry_cloneStart hI htos hposFrom]
    exact h i
  have hstop : ∀ i q, walk (edge k₁.mem) «from» (i :: q) = none := fun i q => by
    rw [walk_cons, edge_eq_none.mpr (h i)]
    rfl
  have hnone : ∀ va, translate (cloneStart k₁.mem «from» tos) «to» va = none := fun va => by
    rw [translate, path, walk_cons, edge_congr (entry_cloneStart hI htos hposTo _), hzero]
    rfl
  have hlist : FreeList ⟨cloneStart k₁.mem «from» tos, k₁.pageFrameLinkedList⟩ fs :=
    hI.list.of_eqOn rfl fun f hf => hpage ((hI.free_iff f).mp hf).1
  rw [clonePagetable_eq, cloneTables_none hunset, Clone.finish]
  refine ⟨_, 0, rfl, fun _ => ⟨fun va => ?_, ⟨fs, fs, hI.list, hlist, fun va f g _ hg => ?_⟩,
    fun q _ t ht => ?_⟩, fun hcode => absurd hcode (by decide)⟩
  · rw [hnone va, World.rooted, World.mem, translate, path, hstop]
  · rw [hnone va] at hg
    exact absurd hg (by simp)
  · cases q with
    | nil =>
        obtain rfl : «from» = t := Option.some.inj ht
        exact hpage (hI.mem_frames hposFrom)
    | cons i q => exact absurd ((hstop i q).symm.trans ht) (by simp)

/-- A copy is correct exactly when there is nothing to copy. -/
lemma cloneCorrect_iff_unset (hzero : ∀ i, edge k₁.mem «to» i = none) :
    CloneCorrect (w.rooted «to» k₁) «from» «to» (k₁.clonePagetable «from» «to» tos) ↔
      ∀ i, ¬ IsSet (entry k₁.mem «from» i) := by
  refine ⟨fun h i hset => ?_, cloneCorrect_of_unset hI hfrom htos hzero⟩
  obtain ⟨k', code, hret, -⟩ := h
  rw [clonePagetable_undefined hI hfrom htos hset] at hret
  exact absurd hret (by simp)

end Rooted

/-- **`clone_pagetable`** on a tree and a new root is correct exactly when the tree's root has no
set entry. -/
theorem cloneCorrect_iff (b : Boot) (hw : b.Reaches w) (hfrom : «from» ∈ w.roots)
    (hk : w.kernel.kalloc = some («to», k₁)) (htos : StackArray b.frames tos) :
    CloneCorrect (w.rooted «to» k₁) «from» «to» (k₁.clonePagetable «from» «to» tos) ↔
      ∀ i, ¬ IsSet (entry k₁.mem «from» i) := by
  have hw' : b.Reaches (w.rooted «to» k₁) := hw.tail (.newRoot hk)
  obtain ⟨fs, pos, hI⟩ := hw'.inv
  refine cloneCorrect_iff_unset hI hfrom htos fun i => edge_eq_none.mpr ?_
  obtain ⟨-, -, rfl⟩ := Kernel.kalloc_eq_some hk
  rw [entry_clear_self]
  exact not_isSet_zero

/-! ### A copy in the small world -/

/-- The array at address 16, below the frames. -/
lemma smallStack : StackArray smallBoot.frames 16 where
  lt := by norm_num
  apart f hf := by
    obtain ⟨i, -, rfl⟩ := List.mem_range'.mp hf
    exact block_disjoint (by omega)

/-- A tree with one kernel page, and a new root: the copy is undefined. -/
theorem cloneCorrect_fails :
    smallBoot.Reaches (smallMapped 0x1000 0xB000) ∧ 4096 ∈ (smallMapped 0x1000 0xB000).roots ∧
      StackArray smallBoot.frames 16 ∧
      ∃ «to» k₁, (smallMapped 0x1000 0xB000).kernel.kalloc = some («to», k₁) ∧
        ¬ CloneCorrect ((smallMapped 0x1000 0xB000).rooted «to» k₁) 4096 «to»
          (k₁.clonePagetable 4096 «to» 16) := by
  have hr := smallMapped_root 0x1000 0xB000
  obtain ⟨⟨fs, pos, hI, hlen⟩, ⟨f, htr, -⟩, -⟩ := smallMapped_spec _ smallPage_lt
  obtain ⟨«to», k₁, hk⟩ := exists_kalloc hI (by omega)
  refine ⟨smallMapped_reaches _ smallPage_lt, hr, smallStack, «to», k₁, hk, ?_⟩
  have hreach : smallBoot.Reaches ((smallMapped 0x1000 0xB000).rooted «to» k₁) :=
    (smallMapped_reaches _ smallPage_lt).tail (.newRoot hk)
  obtain ⟨fs', pos', hI'⟩ := hreach.inv
  have hset := hI.isSet_newRoot smallBoot.initial hr hk htr
  rintro ⟨k', code, hret, -⟩
  rw [clonePagetable_undefined hI' hr smallStack hset] at hret
  exact absurd hret (by simp)

/-- Two empty roots: there is nothing to copy. -/
theorem cloneCorrect_iff_small :
    ∃ «to» k₁, smallTaken.kalloc = some («to», k₁) ∧
      (CloneCorrect (smallWorld.rooted «to» k₁) 4096 «to» (k₁.clonePagetable 4096 «to» 16) ↔
        ∀ i, ¬ IsSet (entry k₁.mem 4096 i)) := by
  obtain ⟨pos, hI⟩ := smallWorld_inv
  obtain ⟨«to», k₁, hk⟩ := exists_kalloc hI (by simp)
  exact ⟨«to», k₁, hk,
    cloneCorrect_iff smallBoot smallWorld_reaches (by simp [smallWorld]) hk smallStack⟩

end SkinnyArm
