import SkinnyArm.Allocator.Footprint
import SkinnyArm.Boot.Coverage
import SkinnyArm.Rootfs.Archive

/-!
The archive and the allocator.

The loader puts the archive at `0x8000000`, in the middle of what `kalloc_init` takes for free
memory.

* Below `kalloc_start` everything is left alone, the kernel image for one (`Image.leavesAlone`).
* The frame at the archive's start gets a link (`mem_initFrames_archiveStart`), so an archive of any
  length is not left alone (`leavesArchive_iff`), and the first byte of its first magic is gone
  (`kallocInit_archiveStart`).
-/

namespace SkinnyArm

open ByteMemory AArch64 Newc

variable {k : Kernel} {fs : List ℕ} {f kallocStart archiveLength : ℕ}

/-- Where the loader puts the archive: the physical address at `RAMFS_START`. -/
def archiveStart : ℕ := 0x8000000

lemma add_pageSize_lt_kallocEnd (hle : kallocStart ≤ archiveStart) :
    kallocStart + pageSize < kallocEnd.toNat := by
  rw [toNat_kallocEnd]
  simp only [pageSize, archiveStart] at *
  omega

/-- The archive starts with a frame of the allocator. -/
lemma mem_initFrames_archiveStart (hal : pageSize ∣ kallocStart)
    (hle : kallocStart ≤ archiveStart) :
    archiveStart ∈ initFrames kallocStart kallocEnd.toNat := by
  rw [initFrames, toNat_kallocEnd, List.mem_range']
  simp only [pageSize, archiveStart] at *
  exact ⟨(0x8000000 - kallocStart) / 4096, by omega, by omega⟩

/-- **The archive** is left alone by the allocator exactly if it is empty. -/
theorem leavesArchive_iff (hal : pageSize ∣ kallocStart) (hle : kallocStart ≤ archiveStart) :
    LeavesAlone k kallocStart kallocEnd.toNat (block archiveStart archiveLength) ↔
      archiveLength = 0 := by
  have hmem := mem_initFrames_archiveStart hal hle
  constructor
  · intro h
    have hlink : archiveStart ∈ (kallocInitWrites kallocStart kallocEnd.toNat).map Prod.fst :=
      (mem_kallocInitWrites (add_pageSize_lt_kallocEnd hle)).mpr ⟨by norm_num [archiveStart], hmem⟩
    obtain ⟨e, he, hfst⟩ := List.mem_map.mp hlink
    have hdisjoint := hfst ▸ h.links e he
    by_contra hne
    have hword : archiveStart ∈ block archiveStart 8 := ⟨le_rfl, by omega⟩
    exact Set.disjoint_left.mp hdisjoint hword ⟨le_rfl, by omega⟩
  · rintro rfl
    have hempty : block archiveStart 0 = ∅ := Set.Ico_self _
    rw [hempty]
    exact ⟨fun e _ => Set.disjoint_empty _, fun s _ => Set.eqOn_empty _ _,
      fun s _ f _ => Set.disjoint_empty _⟩

/-- The link of a frame is a multiple of the page size. -/
lemma FreeList.dvd_nextFrame (h : FreeList k fs) (hf : f ∈ fs) : pageSize ∣ nextFrame k.mem f := by
  rcases h.chain.next_mem hf with hnull | hnext
  · exact hnull ▸ dvd_zero _
  · exact h.aligned _ hnext

/-- The first byte of a frame on the list is 0. -/
lemma FreeList.mem_eq_zero (h : FreeList k fs) (hf : f ∈ fs) : k.mem f = 0 := by
  obtain ⟨c, hc⟩ := h.dvd_nextFrame hf
  have hbyte : (k.mem.load64 f).setWidth 8 = k.mem f := setWidth_load64
  rw [← hbyte, ← BitVec.toNat_inj, BitVec.toNat_setWidth]
  show nextFrame k.mem f % 2 ^ 8 = 0
  rw [hc]
  simp only [pageSize]
  omega

/-- After `kalloc_init` the archive starts with a zero byte. -/
lemma kallocInit_archiveStart (hpos : 0 < kallocStart) (hal : pageSize ∣ kallocStart)
    (hle : kallocStart ≤ archiveStart) :
    (k.kallocInit kallocStart kallocEnd.toNat).mem archiveStart = 0 :=
  (kallocInit_freeList hpos hal (add_pageSize_lt_kallocEnd hle) (by decide)).mem_eq_zero
    (mem_initFrames_archiveStart hal hle)

/-- Some run of calls hands out the frame at the archive's start. -/
lemma exists_run_archiveStart (hpos : 0 < kallocStart) (hal : pageSize ∣ kallocStart)
    (hle : kallocStart ≤ archiveStart) :
    ∃ s, Run AllocCall ⟨k.kallocInit kallocStart kallocEnd.toNat, []⟩ s ∧
      archiveStart ∈ s.allocated := by
  obtain ⟨s, hrun, hsub⟩ := exists_run_allocated (k := k.kallocInit kallocStart kallocEnd.toNat)
    (l := []) (kallocInit_freeList hpos hal (add_pageSize_lt_kallocEnd hle) (by decide))
  exact ⟨s, hrun, hsub (List.mem_append_left _ (mem_initFrames_archiveStart hal hle))⟩

/-- What is below `kalloc_start` is left alone. -/
theorem Image.leavesAlone (im : Image) (h : im.end.toNat ≤ archiveStart) :
    LeavesAlone k im.end.toNat kallocEnd.toNat (Set.Ico im.start.toNat im.end.toNat) := by
  have hlt := im.lt
  refine (leavesAlone_iff (by omega) (Nat.dvd_of_mod_eq_zero im.end_aligned)
    (add_pageSize_lt_kallocEnd h) (by decide)).mpr fun f hf => ?_
  obtain ⟨i, -, rfl⟩ := List.mem_range'.mp hf
  rw [Set.disjoint_left]
  intro x hx hx'
  simp only [Set.mem_Ico] at hx hx'
  omega

/-- Memory with an archive where the loader puts it, and zeros elsewhere. -/
def loaded (s : List (BitVec 8)) : Kernel := ⟨fun x => s.getD (x - archiveStart) 0, 0⟩

theorem leavesArchive_iff_trailer :
    LeavesAlone (loaded (archive [] trailer)) 0x100000 kallocEnd.toNat
        (block archiveStart (archive [] trailer).length) ↔
      (archive [] trailer).length = 0 :=
  leavesArchive_iff (by norm_num [pageSize]) (by norm_num [archiveStart])

/-- The archive of no members is not left alone: its first byte changes, and its frame is handed
out. -/
theorem leavesArchive_fails :
    let k := loaded (archive [] trailer)
    (k.kallocInit 0x100000 kallocEnd.toNat).mem archiveStart ≠ k.mem archiveStart ∧
      (∃ s, Run AllocCall ⟨k.kallocInit 0x100000 kallocEnd.toNat, []⟩ s ∧
        archiveStart ∈ s.allocated) ∧
      ¬ LeavesAlone k 0x100000 kallocEnd.toNat
        (block archiveStart (archive [] trailer).length) := by
  intro k
  have hfirst : k.mem archiveStart = 0x30 := rfl
  have hzero : (k.kallocInit 0x100000 kallocEnd.toNat).mem archiveStart = 0 :=
    kallocInit_archiveStart (by norm_num) (by norm_num [pageSize]) (by norm_num [archiveStart])
  have hne : (k.kallocInit 0x100000 kallocEnd.toNat).mem archiveStart ≠ k.mem archiveStart := by
    rw [hzero, hfirst]
    decide
  have hsome : (archive [] trailer)[0]? = some 0x30 := rfl
  obtain ⟨hlen, -⟩ := List.getElem?_eq_some_iff.mp hsome
  exact ⟨hne, exists_run_archiveStart (by norm_num) (by norm_num [pageSize])
    (by norm_num [archiveStart]), fun h => hne (h.kept _ .refl ⟨le_rfl, by omega⟩)⟩

end SkinnyArm
