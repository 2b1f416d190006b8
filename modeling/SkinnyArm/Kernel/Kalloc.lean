import SkinnyArm.Library.ByteMemory
import SkinnyArm.Library.Chain

/-!
`kernel/kalloc.c`: the frame allocator.

The free frames are linked through their own first words, starting at
`page_frame_linked_list`.

* `kfree` takes the address of a `struct PageFrame *` variable and reads it three times: once to
  clear the page, once to link it and once to store the new head.  `PageVar` says where that
  variable lives, so a frame address passed in place of a variable's address (as `vmem.c` does)
  is modelled as the code runs it.
* `clearPage_eq` and `Kernel.kfree_eq` are the two functions on pages the variable is not part
  of.
-/

namespace SkinnyArm

open ByteMemory

/-- `PageSize`. -/
abbrev pageSize : ℕ := 4096

/-- The bytes of the page at an address. -/
abbrev page (f : ℕ) : Set ℕ := block f pageSize

/-- The words of a page lie in it. -/
lemma word_subset_page {f i : ℕ} (hi : i < 512) : block (f + 8 * i) 8 ⊆ page f := by
  intro x hx
  simp only [Set.mem_Ico, pageSize] at hx ⊢
  omega

lemma link_subset_page {f : ℕ} : block f 8 ⊆ page f := word_subset_page (i := 0) (by omega)

/-- `frame->next`. -/
def nextFrame (m : ByteMemory) (f : ℕ) : ℕ := (m.load64 f).toNat

/-- The memory and the allocator's global. -/
structure Kernel where
  mem : ByteMemory
  pageFrameLinkedList : ℕ

lemma Kernel.eq_of {k k' : Kernel} (hmem : k.mem = k'.mem)
    (hhead : k.pageFrameLinkedList = k'.pageFrameLinkedList) : k = k' := by
  cases k
  cases k'
  rw [Kernel.mk.injEq]
  exact ⟨hmem, hhead⟩

/-- Where a `struct PageFrame *` variable lives: outside the modelled memory (a local of the
caller or a global), or at an address. -/
inductive PageVar where
  | held (frame : ℕ)
  | at (addr : ℕ)

/-- `*page`. -/
def PageVar.deref (m : ByteMemory) : PageVar → ℕ
  | held frame => frame
  | .at addr => (m.load64 addr).toNat

/-- `clear_page`: the link word and then the `PageSize - 8` data bytes. -/
def clearPage (m : ByteMemory) (f : ℕ) : ByteMemory :=
  (List.range (pageSize - 8)).foldl (fun m i => m.store8 (f + 8 + i) 0) (m.store64 f 0)

/-- `kfree`. -/
def Kernel.kfree (k : Kernel) (pv : PageVar) : Kernel :=
  let m₁ := clearPage k.mem (pv.deref k.mem)
  let m₂ := m₁.store64 (pv.deref m₁) (BitVec.ofNat 64 k.pageFrameLinkedList)
  { mem := m₂, pageFrameLinkedList := pv.deref m₂ }

/-- `kalloc`: `none` is the return value `-1`, `some (f, k)` is `0` with `f` stored to `*page`. -/
def Kernel.kalloc (k : Kernel) : Option (ℕ × Kernel) :=
  let previousHead := k.pageFrameLinkedList
  if previousHead = 0 then none
  else some (previousHead,
    { mem := clearPage k.mem previousHead
      pageFrameLinkedList := nextFrame k.mem previousHead })

/-- The loop of `kalloc_init`: link frame after frame while the current address is not above
`kalloc_end`, then end the list. -/
def kallocInitLoop (m : ByteMemory) (kallocEnd previousFrame currentAddress : ℕ) : ByteMemory :=
  if currentAddress ≤ kallocEnd then
    kallocInitLoop
      (if previousFrame ≠ 0 then m.store64 previousFrame (BitVec.ofNat 64 currentAddress) else m)
      kallocEnd currentAddress (currentAddress + pageSize)
  else m.store64 previousFrame 0
termination_by kallocEnd + 1 - currentAddress
decreasing_by simp only [pageSize]; omega

/-- `kalloc_init`. -/
def Kernel.kallocInit (k : Kernel) (kallocStart kallocEnd : ℕ) : Kernel :=
  if kallocStart + pageSize < kallocEnd then
    { mem := kallocInitLoop k.mem kallocEnd kallocStart (kallocStart + pageSize)
      pageFrameLinkedList := kallocStart }
  else k

/-! ### The two functions in closed form -/

/-- Zeroing byte after byte zeroes a block. -/
lemma foldl_store8_zero (m : ByteMemory) (a n : ℕ) :
    (List.range n).foldl (fun m i => m.store8 (a + i) 0) m = m.clear a n := by
  induction n with
  | zero =>
      funext x
      simp [clear]
  | succ n ih =>
      rw [List.range_succ, List.foldl_append, ih]
      funext x
      simp only [List.foldl_cons, List.foldl_nil, store8, clear]
      split_ifs <;> first | rfl | omega

/-- `clear_page` zeroes the page. -/
lemma clearPage_eq (m : ByteMemory) (f : ℕ) : clearPage m f = m.clear f pageSize := by
  rw [clearPage, foldl_store8_zero]
  funext x
  simp only [clear, store64, pageSize]
  split_ifs
  all_goals first | rfl | omega | simp

/-- The variable does not lie in the page it names, so clearing the page leaves it alone. -/
def PageVar.Outside (f : ℕ) : PageVar → Prop
  | held _ => True
  | .at addr => addr + 8 ≤ f ∨ f + pageSize ≤ addr

lemma PageVar.Outside.deref_eq {pv : PageVar} {f : ℕ} {m m' : ByteMemory} (h : pv.Outside f)
    (hm : Set.EqOn m' m (page f)ᶜ) : pv.deref m' = pv.deref m := by
  cases pv with
  | held frame => rfl
  | «at» addr =>
      exact congrArg BitVec.toNat (load64_of_eqOn_compl hm (block_disjoint h))

/-- `kfree` of a variable outside the page it names: the page is cleared, linked to the old head
and becomes the head. -/
lemma Kernel.kfree_eq {k : Kernel} {pv : PageVar} {f : ℕ} (hf : pv.deref k.mem = f)
    (hout : pv.Outside f) :
    k.kfree pv =
      { mem := (k.mem.clear f pageSize).store64 f (BitVec.ofNat 64 k.pageFrameLinkedList)
        pageFrameLinkedList := f } := by
  have h1 : pv.deref (k.mem.clear f pageSize) = f := (hout.deref_eq clear_eqOn).trans hf
  have h2 : pv.deref ((k.mem.clear f pageSize).store64 f
      (BitVec.ofNat 64 k.pageFrameLinkedList)) = f := by
    refine (hout.deref_eq (store64_eqOn.mono ?_)).trans h1
    exact Set.compl_subset_compl.mpr link_subset_page
  simp only [Kernel.kfree, hf, clearPage_eq, h1, h2]

/-- `kfree` writes inside the page it frees. -/
lemma Kernel.kfree_eqOn {k : Kernel} {pv : PageVar} {f : ℕ} (hf : pv.deref k.mem = f)
    (hout : pv.Outside f) : Set.EqOn (k.kfree pv).mem k.mem (page f)ᶜ := by
  rw [kfree_eq hf hout]
  refine Set.EqOn.trans (store64_eqOn.mono ?_) clear_eqOn
  exact Set.compl_subset_compl.mpr link_subset_page

lemma Kernel.kalloc_eq_none {k : Kernel} : k.kalloc = none ↔ k.pageFrameLinkedList = 0 := by
  simp [Kernel.kalloc]

/-- `kalloc` takes the head off the list and clears it. -/
lemma Kernel.kalloc_eq_some {k k' : Kernel} {f : ℕ} (h : k.kalloc = some (f, k')) :
    f = k.pageFrameLinkedList ∧ f ≠ 0 ∧
      k' = { mem := k.mem.clear f pageSize, pageFrameLinkedList := nextFrame k.mem f } := by
  simp only [Kernel.kalloc] at h
  split at h
  · exact absurd h (by simp)
  · rename_i hne
    simp only [Option.some.injEq, Prod.mk.injEq] at h
    obtain ⟨rfl, rfl⟩ := h
    exact ⟨rfl, hne, by rw [clearPage_eq]⟩

/-! ### The free list -/

/-- The free list in memory: `NULL`-terminated, through the first words of its frames, which are
page-aligned 64-bit addresses. -/
structure FreeList (k : Kernel) (fs : List ℕ) : Prop where
  chain : Chain (nextFrame k.mem) 0 k.pageFrameLinkedList fs
  aligned : ∀ f ∈ fs, pageSize ∣ f
  lt : ∀ f ∈ fs, f < 2 ^ 64

/-- A frame on the allocator's list. -/
def Kernel.Lists (k : Kernel) (f : ℕ) : Prop :=
  Meets (nextFrame k.mem) 0 f k.pageFrameLinkedList

/-- Distinct page-aligned addresses are a page apart. -/
lemma page_apart {f g : ℕ} (hf : pageSize ∣ f) (hg : pageSize ∣ g) (hne : f ≠ g) :
    f + pageSize ≤ g ∨ g + pageSize ≤ f := by
  simp only [pageSize] at *
  omega

lemma page_disjoint {f g : ℕ} (hf : pageSize ∣ f) (hg : pageSize ∣ g) (hne : f ≠ g) :
    Disjoint (page f) (page g) :=
  block_disjoint (page_apart hf hg hne)

namespace FreeList

variable {k k' : Kernel} {fs : List ℕ} {f : ℕ}

lemma nodup (h : FreeList k fs) : fs.Nodup := h.chain.nodup

lemma ne_zero (h : FreeList k fs) (hf : f ∈ fs) : f ≠ 0 := by
  rintro rfl
  exact h.chain.null_notMem hf

lemma head_lt (h : FreeList k fs) : k.pageFrameLinkedList < 2 ^ 64 := by
  by_cases h0 : k.pageFrameLinkedList = 0
  · omega
  · obtain ⟨rest, rfl, -⟩ := h.chain.exists_eq_cons h0
    exact h.lt _ (by simp)

lemma head_mem (h : FreeList k fs) (hne : k.pageFrameLinkedList ≠ 0) :
    k.pageFrameLinkedList ∈ fs := by
  obtain ⟨rest, rfl, -⟩ := h.chain.exists_eq_cons hne
  exact List.mem_cons_self

/-- The list determines the head. -/
lemma head_eq (h : FreeList k fs) (h' : FreeList k' fs) :
    k'.pageFrameLinkedList = k.pageFrameLinkedList := by
  cases fs with
  | nil => rw [h.chain.eq_nil_iff.mp rfl, h'.chain.eq_nil_iff.mp rfl]
  | cons f fs => rw [h.chain.pop.1, h'.chain.pop.1]

lemma lists_iff (h : FreeList k fs) : k.Lists f ↔ f ∈ fs := h.chain.meets_iff

/-- `kalloc` fails exactly on the empty list. -/
lemma kalloc_eq_none (h : FreeList k fs) : k.kalloc = none ↔ fs = [] := by
  rw [Kernel.kalloc_eq_none, h.chain.eq_nil_iff]

/-- `kalloc` returns the first frame of the list and leaves the rest. -/
lemma kalloc (h : FreeList k fs) (hk : k.kalloc = some (f, k')) :
    ∃ rest, fs = f :: rest ∧ FreeList k' rest := by
  obtain ⟨rfl, hne, rfl⟩ := Kernel.kalloc_eq_some hk
  obtain ⟨rest, rfl, hrest⟩ := h.chain.exists_eq_cons hne
  refine ⟨rest, rfl, hrest.congr fun g hg => ?_, fun g hg => h.aligned g (by simp [hg]),
    fun g hg => h.lt g (by simp [hg])⟩
  have hgf : g ≠ k.pageFrameLinkedList := fun hgf =>
    (List.nodup_cons.mp h.nodup).1 (hgf ▸ hg)
  have hapart := page_apart (h.aligned g (by simp [hg])) (h.aligned _ (by simp)) hgf
  refine congrArg BitVec.toNat (load64_clear_of_disjoint ?_)
  simp only [pageSize] at *
  omega

/-- `kfree` of a frame off the list puts it in front. -/
lemma kfree (h : FreeList k fs) {pv : PageVar} (hpv : pv.deref k.mem = f) (hout : pv.Outside f)
    (hf : f ∉ fs) (hne : f ≠ 0) (hal : pageSize ∣ f) (hlt : f < 2 ^ 64) :
    FreeList (k.kfree pv) (f :: fs) where
  chain := by
    rw [Kernel.kfree_eq hpv hout]
    refine h.chain.push hne ?_ fun g hg => ?_
    · simp only [nextFrame, load64_store64_self, BitVec.toNat_ofNat, Nat.mod_eq_of_lt h.head_lt]
    · have hapart := page_apart (h.aligned g hg) hal (by rintro rfl; exact hf hg)
      refine congrArg BitVec.toNat ?_
      rw [load64_store64_of_disjoint, load64_clear_of_disjoint]
      all_goals (simp only [pageSize] at *; omega)
  aligned g hg := by
    rcases List.mem_cons.mp hg with rfl | hg'
    · exact hal
    · exact h.aligned g hg'
  lt g hg := by
    rcases List.mem_cons.mp hg with rfl | hg'
    · exact hlt
    · exact h.lt g hg'

/-- **The wrong indirection**: `kfree` of a page's own address never leaves the page on the list,
for the new head is read from the page's link word. -/
lemma kfree_at_notMem {a : ℕ} (h : FreeList (k.kfree (.at a)) fs) : a ∉ fs :=
  fun ha => h.chain.next_ne_head ha rfl

/-- **The double free**: a frame already on the list, freed once more, starts no list, even if
what lies off the list is written afterwards. -/
lemma kfree_twice (h : FreeList k fs) {pv : PageVar} (hpv : pv.deref k.mem = f)
    (hout : pv.Outside f) (hf : f ∈ fs) (hhead : k'.pageFrameLinkedList = f)
    (hmem : ∀ g ∈ fs, Set.EqOn k'.mem (k.kfree pv).mem (page g)) (fs' : List ℕ) :
    ¬ FreeList k' fs' := by
  have hlink : nextFrame k'.mem f = k.pageFrameLinkedList := by
    rw [nextFrame, load64_congr ((hmem f hf).mono link_subset_page), Kernel.kfree_eq hpv hout,
      load64_store64_self, BitVec.toNat_ofNat, Nat.mod_eq_of_lt h.head_lt]
  have hother : ∀ g ∈ fs, g ≠ f → nextFrame k'.mem g = nextFrame k.mem g := fun g hg hne => by
    refine congrArg BitVec.toNat (load64_congr (((hmem g hg).trans ?_).mono link_subset_page))
    exact (Kernel.kfree_eqOn hpv hout).mono
      (page_disjoint (h.aligned g hg) (h.aligned f hf) hne).subset_compl_right
  intro h'
  exact h.chain.not_relinked hf hother hlink (hhead ▸ h'.chain)

/-- Writes off the frames of the list keep the list. -/
lemma of_eqOn (h : FreeList k fs) (hhead : k'.pageFrameLinkedList = k.pageFrameLinkedList)
    (hmem : ∀ f ∈ fs, Set.EqOn k'.mem k.mem (page f)) : FreeList k' fs where
  chain := by
    rw [hhead]
    refine h.chain.congr fun f hf => congrArg BitVec.toNat (load64_congr ?_)
    exact (hmem f hf).mono link_subset_page
  aligned := h.aligned
  lt := h.lt

end FreeList

end SkinnyArm
