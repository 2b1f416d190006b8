import SkinnyArm.Kernel.Kalloc

/-!
`kernel/kalloc.c`, `kalloc_init`: the free list it builds.

The list runs from `kalloc_start` in steps of a page as far as the loop condition
`current_address <= kalloc_end` allows, so its last frame may start at `kalloc_end` itself
(`kallocInit_freeList`).
-/

namespace SkinnyArm

open ByteMemory

/-- The loop links the frames from `prev` on, in ascending order, and writes nothing below and
nothing past the last link. -/
lemma kallocInitLoop_spec {e : ℕ} (he : e < 2 ^ 64) (n : ℕ) :
    ∀ (m : ByteMemory) (prev : ℕ), 0 < prev → prev + n * pageSize ≤ e →
      e < prev + (n + 1) * pageSize →
      Set.EqOn (kallocInitLoop m e prev (prev + pageSize)) m {x | x < prev ∨ e + 8 ≤ x} ∧
      Chain (nextFrame (kallocInitLoop m e prev (prev + pageSize))) 0 prev
        (List.range' prev (n + 1) pageSize) := by
  induction n with
  | zero =>
      intro m prev hpos _ hlt
      rw [kallocInitLoop, if_neg (by simp only [pageSize] at *; omega)]
      refine ⟨store64_eqOn.mono fun x hx => ?_, ?_⟩
      · simp only [Set.mem_ofPred_eq] at hx
        simp only [Set.mem_compl_iff, Set.mem_Ico]
        omega
      · refine .cons hpos.ne' ?_
        simp [nextFrame]
  | succ n ih =>
      intro m prev hpos hle hlt
      have hcur : prev + pageSize ≤ e := by simp only [pageSize] at *; omega
      rw [kallocInitLoop, if_pos hcur, if_pos hpos.ne']
      obtain ⟨hbelow, hchain⟩ := ih (m.store64 prev (BitVec.ofNat 64 (prev + pageSize)))
        (prev + pageSize) (by omega) (by simp only [pageSize] at *; omega)
        (by simp only [pageSize] at *; omega)
      refine ⟨(hbelow.mono fun x hx => ?_).trans (store64_eqOn.mono fun x hx => ?_), ?_⟩
      · simp only [Set.mem_ofPred_eq] at hx ⊢
        omega
      · simp only [Set.mem_ofPred_eq] at hx
        simp only [Set.mem_compl_iff, Set.mem_Ico]
        omega
      · rw [List.range'_succ]
        refine .cons hpos.ne' ?_
        have hnext : nextFrame (kallocInitLoop (m.store64 prev (BitVec.ofNat 64 (prev + pageSize)))
            e (prev + pageSize) (prev + pageSize + pageSize)) prev = prev + pageSize := by
          have hword : Set.EqOn (kallocInitLoop (m.store64 prev (BitVec.ofNat 64 (prev + pageSize)))
              e (prev + pageSize) (prev + pageSize + pageSize))
              (m.store64 prev (BitVec.ofNat 64 (prev + pageSize))) (block prev 8) :=
            hbelow.mono fun x hx => by
              simp only [Set.mem_Ico] at hx
              simp only [Set.mem_ofPred_eq, pageSize]
              omega
          rw [nextFrame, load64_congr hword, load64_store64_self, BitVec.toNat_ofNat,
            Nat.mod_eq_of_lt (by omega)]
        rw [hnext]
        exact hchain

/-- The frames `kalloc_init` puts on the list. -/
def initFrames (kallocStart kallocEnd : ℕ) : List ℕ :=
  List.range' kallocStart ((kallocEnd - kallocStart) / pageSize + 1) pageSize

/-- **`kalloc_init`** on page-aligned bounds leaves a free list of all frames from `kalloc_start`
up to and including one that starts at `kalloc_end`. -/
lemma kallocInit_freeList {k : Kernel} {kallocStart kallocEnd : ℕ} (hpos : 0 < kallocStart)
    (hal : pageSize ∣ kallocStart) (hlt : kallocStart + pageSize < kallocEnd)
    (hend : kallocEnd < 2 ^ 64) :
    FreeList (k.kallocInit kallocStart kallocEnd) (initFrames kallocStart kallocEnd) where
  chain := by
    rw [Kernel.kallocInit, if_pos hlt]
    refine (kallocInitLoop_spec hend ((kallocEnd - kallocStart) / pageSize) k.mem kallocStart hpos
      ?_ ?_).2
    all_goals (simp only [pageSize] at *; omega)
  aligned f hf := by
    obtain ⟨i, -, rfl⟩ := List.mem_range'.mp hf
    exact hal.add (Dvd.intro _ rfl)
  lt f hf := by
    obtain ⟨i, hi, rfl⟩ := List.mem_range'.mp hf
    simp only [pageSize] at *
    omega

/-! ### A small machine -/

/-- Zeroed memory with ten frames from 4096 on. -/
def smallKernel : Kernel := (⟨fun _ => 0, 0⟩ : Kernel).kallocInit 4096 40960

lemma smallKernel_freeList : FreeList smallKernel (initFrames 4096 40960) :=
  kallocInit_freeList (by norm_num) (by norm_num [pageSize]) (by norm_num [pageSize])
    (by norm_num)

/-- The small machine after one `kalloc`. -/
def smallTaken : Kernel where
  mem := clearPage smallKernel.mem 4096
  pageFrameLinkedList := nextFrame smallKernel.mem 4096

/-- Past the frames the memory is still zero. -/
lemma smallTaken_mem {a : ℕ} (ha : 0xB000 ≤ a) : smallTaken.mem a = 0 := by
  have hloop := (kallocInitLoop_spec (e := 40960) (by norm_num) 9 (fun _ => 0) 4096 (by norm_num)
    (by norm_num [pageSize]) (by norm_num [pageSize])).1
  have hclear : (smallKernel.mem.clear 4096 pageSize) a = smallKernel.mem a :=
    clear_eqOn (by simp only [Set.mem_compl_iff, Set.mem_Ico, pageSize]; omega)
  have hmem : smallKernel.mem = kallocInitLoop (fun _ => 0) 40960 4096 (4096 + pageSize) := by
    rw [smallKernel, Kernel.kallocInit, if_pos (by norm_num [pageSize])]
  calc smallTaken.mem a
      = smallKernel.mem a := by rw [smallTaken, clearPage_eq]; exact hclear
    _ = 0 := by
        rw [hmem]
        exact hloop (by simp only [Set.mem_ofPred_eq]; omega)

lemma smallKernel_kalloc : smallKernel.kalloc = some (4096, smallTaken) := by
  have hhead : smallKernel.pageFrameLinkedList = 4096 := by
    simp [smallKernel, Kernel.kallocInit, pageSize]
  simp [Kernel.kalloc, hhead, smallTaken]

end SkinnyArm
