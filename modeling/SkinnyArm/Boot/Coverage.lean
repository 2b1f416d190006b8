import SkinnyArm.Boot.KernelTable

/-!
What the kernel reaches after `enable_vmem`.

`main` loads the table into both translation registers, so a frame's own address and the same
address at `VKERN_START` are looked up alike (`translate_own`).  The table maps the image and the
peripherals only; the archive, the tables and the free frames lie between them
(`KernelTable.uncovered`), so `Covers` fails after every boot.
-/

namespace SkinnyArm

open ByteMemory Forest

variable {b : Boot} {im : Image} {k : Kernel} {root f : ℕ}

/-- `RAMFS_START`. -/
def ramfsStart : BitVec 64 := vkernStart + 0x8000000

/-- The bytes of the archive that `init_ramfs` reads are translated. -/
def ArchiveCovered (k : Kernel) (root archiveLength : ℕ) : Prop :=
  ∀ i < archiveLength, translate k.mem root (ramfsStart + BitVec.ofNat 64 i) ≠ none

/-- The tables that `get_physical_page` walks are translated. -/
def TablesCovered (k : Kernel) (root : ℕ) : Prop :=
  ∀ q : List (Fin 512), q.length ≤ 3 → ∀ t, walk (edge k.mem) root q = some t →
    translate k.mem root (BitVec.ofNat 64 t) ≠ none

/-- The frames that `kalloc` and `kfree` clear are translated. -/
def FreeCovered (k : Kernel) (root : ℕ) : Prop :=
  ∀ fs, FreeList k fs → ∀ f ∈ fs, translate k.mem root (BitVec.ofNat 64 f) ≠ none

/-- Every address the kernel dereferences is translated. -/
structure Covers (k : Kernel) (root archiveLength : ℕ) : Prop where
  archive : ArchiveCovered k root archiveLength
  tables : TablesCovered k root
  free : FreeCovered k root

/-- Both halves of the address space are looked up in one table. -/
lemma translate_own {m : ByteMemory} {a : ℕ} (ha : a < 2 ^ 48) :
    translate m root (BitVec.ofNat 64 a) = translate m root (vkernStart + BitVec.ofNat 64 a) := by
  have hnat : (BitVec.ofNat 64 a).toNat = a := by
    rw [BitVec.toNat_ofNat]
    omega
  refine translate_congr_vpn ?_
  rw [vpn_vkernStart_add (by omega), vpn, hnat]
  simp only [pageSize]
  omega

namespace KernelTable

/-- Between the image and the peripherals nothing is translated. -/
lemma uncovered (h : KernelTable b im k root) {a : ℕ} (hlo : im.end.toNat ≤ a)
    (hhi : a < 0x3F000000) : translate k.mem root (vkernStart + BitVec.ofNat 64 a) = none := by
  have hnat : (BitVec.ofNat 64 a).toNat = a := by
    rw [BitVec.toNat_ofNat]
    omega
  cases hf : translate k.mem root (vkernStart + BitVec.ofNat 64 a) with
  | none => rfl
  | some f =>
      obtain ⟨p, ⟨hal, hp⟩, hvpn⟩ := h.maps.only _ f hf
      have hle := im.le
      have hend := im.end_aligned
      rw [vpn_vkernStart_add (by omega), vpn_vkernStart_add (by omega), hnat] at hvpn
      simp only [pageSize] at hvpn hal hend
      omega

lemma uncovered_own (h : KernelTable b im k root) {a : ℕ} (hlo : im.end.toNat ≤ a)
    (hhi : a < 0x3F000000) : translate k.mem root (BitVec.ofNat 64 a) = none :=
  (translate_own (by omega)).trans (h.uncovered hlo hhi)

/-- No byte of the archive is translated. -/
lemma archiveCovered_iff (h : KernelTable b im k root) (hend : im.end.toNat ≤ 0x8000000)
    (archiveLength : ℕ) : ArchiveCovered k root archiveLength ↔ archiveLength = 0 := by
  constructor
  · intro hcov
    by_contra hne
    refine hcov 0 (by omega) ?_
    have hfirst : ramfsStart + BitVec.ofNat 64 0 = vkernStart + BitVec.ofNat 64 0x8000000 := by
      decide
    calc translate k.mem root (ramfsStart + BitVec.ofNat 64 0)
        = translate k.mem root (vkernStart + BitVec.ofNat 64 0x8000000) := by rw [hfirst]
      _ = none := h.uncovered hend (by norm_num)
  · rintro rfl i hi
    omega

/-- The root is not translated if it lies between the image and the peripherals. -/
lemma not_tablesCovered (h : KernelTable b im k root) (hlo : im.end.toNat ≤ root)
    (hhi : root < 0x3F000000) : ¬ TablesCovered k root := fun hcov =>
  hcov [] (by simp) root rfl (h.uncovered_own hlo hhi)

/-- A free frame between the image and the peripherals is not translated. -/
lemma not_freeCovered (h : KernelTable b im k root) {fs : List ℕ} (hlist : FreeList k fs)
    (hf : f ∈ fs) (hlo : im.end.toNat ≤ f) (hhi : f < 0x3F000000) : ¬ FreeCovered k root :=
  fun hcov => hcov fs hlist f hf (h.uncovered_own hlo hhi)

/-- The root is the first frame after the image. -/
lemma root_eq (h : KernelTable b im k root) (hb : b.frames = initFrames im.end.toNat 0x3F000000) :
    root = im.end.toNat := by
  obtain ⟨rest, -, -, -, hframes, -⟩ := h.inv
  rw [hb, initFrames, List.range'_succ] at hframes
  exact (List.cons.inj hframes).1.symm

/-- More than one free frame is left, so one below the peripherals is. -/
lemma exists_free (h : KernelTable b im k root)
    (hb : b.frames = initFrames im.end.toNat 0x3F000000) (hend : im.end.toNat ≤ 0x8000000) :
    ∃ fs f, FreeList k fs ∧ f ∈ fs ∧ im.end.toNat ≤ f ∧ f < 0x3F000000 := by
  obtain ⟨rest, fs, pos, mapped, hframes, htakes, hI⟩ := h.inv
  have hlen := congrArg List.length (hb.symm.trans hframes)
  rw [initFrames, List.length_range', List.length_cons] at hlen
  have hle := htakes.length_le
  have hroom : 1 < fs.length := by
    have hlt := im.lt
    simp only [Image.pages, pageSize] at hle hlen
    omega
  have hrange : ∀ g ∈ fs, im.end.toNat ≤ g ∧ g ≤ 0x3F000000 := fun g hg => by
    have hmem : g ∈ b.frames := hframes ▸ List.mem_cons_of_mem _ (htakes.subset hg)
    rw [hb, initFrames] at hmem
    obtain ⟨i, hi, rfl⟩ := List.mem_range'.mp hmem
    simp only [pageSize] at hi ⊢
    omega
  by_contra hall
  have hlast : ∀ g ∈ fs, g = 0x3F000000 := fun g hg => by
    obtain ⟨hlo, hhi⟩ := hrange g hg
    by_contra hne
    exact hall ⟨fs, g, hI.list, hg, hlo, by omega⟩
  have hone := List.eq_replicate_of_mem hlast
  have hnodup := hI.list.nodup
  rw [hone, List.nodup_replicate] at hnodup
  omega

end KernelTable

/-! ### After the boot sequence -/

/-- The kernel and its table when `main` calls `enable_vmem`. -/
def Image.booted (im : Image) (m : ByteMemory) (h : im.end.toNat ≤ 0x8000000) : Kernel × ℕ :=
  (im.boot m h).kernel.makeKpagetable im.start im.end

section Booted

variable (im : Image) (m : ByteMemory) (h : im.end.toNat ≤ 0x8000000)

lemma Image.booted_table :
    KernelTable (im.boot m h) im (im.booted m h).1 (im.booted m h).2 := im.boot_table m h

/-- **Coverage** after every boot of an image below the archive: the table is built, and neither
the archive nor the tables nor the free frames are translated. -/
theorem Image.booted_uncovered (archiveLength : ℕ) :
    (im.booted m h).2 ≠ 0 ∧
      (ArchiveCovered (im.booted m h).1 (im.booted m h).2 archiveLength ↔ archiveLength = 0) ∧
      ¬ TablesCovered (im.booted m h).1 (im.booted m h).2 ∧
      ¬ FreeCovered (im.booted m h).1 (im.booted m h).2 ∧
      ¬ Covers (im.booted m h).1 (im.booted m h).2 archiveLength := by
  have htable := im.booted_table m h
  have hroot := htable.root_eq (im.boot_frames m h)
  obtain ⟨fs, f, hlist, hf, hlo, hhi⟩ := htable.exists_free (im.boot_frames m h) h
  have htables : ¬ TablesCovered (im.booted m h).1 (im.booted m h).2 :=
    htable.not_tablesCovered hroot.ge (by omega)
  exact ⟨im.boot_ne_zero m h, htable.archiveCovered_iff h archiveLength, htables,
    htable.not_freeCovered hlist hf hlo hhi, fun hcov => htables hcov.tables⟩

end Booted

/-- The small image over zeroed memory, with an archive of one byte: the archive is not
translated. -/
theorem smallImage_uncovered :
    (smallImage.booted (fun _ => 0) smallImage_le).2 = 0x100000 ∧
      ¬ Covers (smallImage.booted (fun _ => 0) smallImage_le).1
        (smallImage.booted (fun _ => 0) smallImage_le).2 1 := by
  have htable := smallImage.booted_table (fun _ => 0) smallImage_le
  refine ⟨htable.root_eq (smallImage.boot_frames _ _), fun hcov => ?_⟩
  exact absurd ((htable.archiveCovered_iff smallImage_le 1).mp hcov.archive) (by norm_num)

/-- The small image without an archive. -/
theorem Image.booted_uncovered_small :
    (smallImage.booted (fun _ => 0) smallImage_le).2 ≠ 0 ∧
      ¬ Covers (smallImage.booted (fun _ => 0) smallImage_le).1
        (smallImage.booted (fun _ => 0) smallImage_le).2 0 :=
  have huncovered := smallImage.booted_uncovered (fun _ => 0) smallImage_le 0
  ⟨huncovered.1, huncovered.2.2.2.2⟩

end SkinnyArm
