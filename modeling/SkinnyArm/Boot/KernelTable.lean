import SkinnyArm.PageTree.Region

/-!
`make_kpagetable`: the kernel's page table.

* `Image` is a kernel image at page-aligned addresses below the peripherals, and `MapsKernel` the
  translation the table should have: the image and the peripherals at `VKERN_START`, and nothing
  else.
* **The table** (`Boot.makeKpagetable_spec`): from any free list the two regions are mapped, or
  the list was shorter than a root and four frames a page.
-/

namespace SkinnyArm

open ByteMemory Forest

variable {frames fs : List ℕ} {w : World} {pos : Pos} {root : ℕ} {va : BitVec 64}

/-- A kernel image between `_start` and `_end`. -/
structure Image where
  start : BitVec 64
  «end» : BitVec 64
  start_aligned : start.toNat % pageSize = 0
  end_aligned : «end».toNat % pageSize = 0
  pos : 0 < start.toNat
  lt : start.toNat < «end».toNat
  le : «end».toNat ≤ 0x3F000000

/-- A page of the image or of the peripherals. -/
def Image.KernelPage (im : Image) (p : BitVec 64) : Prop :=
  p.toNat % pageSize = 0 ∧ ((im.start.toNat ≤ p.toNat ∧ p.toNat < im.end.toNat) ∨
    (0x3F000000 ≤ p.toNat ∧ p.toNat < 0x40000000))

/-- The kernel's pages are translated to themselves, from `VKERN_START` on, and no others. -/
structure MapsKernel (m : ByteMemory) (root : ℕ) (im : Image) : Prop where
  pages : ∀ p, im.KernelPage p → translate m root (vkernStart + p) = some p.toNat
  only : ∀ va f, translate m root va = some f →
    ∃ p, im.KernelPage p ∧ vpn (vkernStart + p) = vpn va

/-! ### Kernel addresses -/

lemma toNat_vkernStart : vkernStart.toNat = 0xffff000000000000 := rfl

lemma toNat_vkernStart_add {p : BitVec 64} (h : p.toNat < 2 ^ 48) :
    (vkernStart + p).toNat = 0xffff000000000000 + p.toNat := by
  rw [BitVec.toNat_add, toNat_vkernStart]
  omega

lemma vpn_vkernStart_add {p : BitVec 64} (h : p.toNat < 2 ^ 48) :
    vpn (vkernStart + p) = p.toNat / pageSize := by
  simp only [vpn, toNat_vkernStart_add h, pageSize]
  omega

/-- The page at `VKERN_START + p`. -/
def kernelVa (p : BitVec 64) (h : p.toNat % pageSize = 0) : PageVa where
  va := vkernStart + p
  aligned := by
    simp only [BitVec.toNat_add, toNat_vkernStart, pageSize] at h ⊢
    omega

/-- The pages of a region of kernel addresses. -/
lemma inRegion_kernelVa {lo hi : BitVec 64} (hlo : lo.toNat % pageSize = 0)
    (hhi : hi.toNat % pageSize = 0) (hlt : lo.toNat < 2 ^ 48) (hhi48 : hi.toNat < 2 ^ 48) :
    InRegion (kernelVa lo hlo) (kernelVa hi hhi) va ↔
      ∃ p : BitVec 64, p.toNat % pageSize = 0 ∧ lo.toNat ≤ p.toNat ∧ p.toNat < hi.toNat ∧
        vpn (vkernStart + p) = vpn va := by
  have hloNat := toNat_vkernStart_add hlt
  have hhiNat := toNat_vkernStart_add hhi48
  constructor
  · rintro ⟨q, hle, hqlt, hvpn⟩
    have hle' : (vkernStart + lo).toNat ≤ q.va.toNat := hle
    have hqlt' : q.va.toNat < (vkernStart + hi).toNat := hqlt
    have hback : vkernStart + (q.va - vkernStart) = q.va := by
      rw [BitVec.add_comm, BitVec.sub_add_cancel]
    have hsub : (q.va - vkernStart).toNat = q.va.toNat - 0xffff000000000000 := by
      rw [BitVec.toNat_sub, toNat_vkernStart]
      omega
    have hq := q.aligned
    simp only [pageSize] at hq
    exact ⟨q.va - vkernStart, by rw [hsub]; simp only [pageSize]; omega, by omega, by omega,
      by rw [hback, hvpn]⟩
  · rintro ⟨p, hal, hle, hplt, hvpn⟩
    have hpNat := toNat_vkernStart_add (p := p) (by omega)
    refine ⟨kernelVa p hal, ?_, ?_, hvpn⟩
    · show (vkernStart + lo).toNat ≤ (vkernStart + p).toNat
      omega
    · show (vkernStart + p).toNat < (vkernStart + hi).toNat
      omega

/-- **A region of kernel addresses** mapped to itself. -/
lemma Inv.mapRegion_kernel (hI : Inv frames w fs pos) (hfr : InitialFrames frames)
    (hlt : ∀ f ∈ frames, f < 2 ^ 36) (hr : root ∈ w.roots) (kind : BitVec 8)
    (hkind : kind.toNat < 3) (lo hi : BitVec 64) (hlo : lo.toNat % pageSize = 0)
    (hhi : hi.toNat % pageSize = 0)
    (hpos : 0 < lo.toNat) (hle : lo.toNat ≤ hi.toNat) (hhi36 : hi.toNat ≤ 2 ^ 36)
    (hnone : ∀ va, InRegion (kernelVa lo hlo) (kernelVa hi hhi) va →
      translate w.mem root va = none) :
    ((w.kernel.mapRegion root (vkernStart + lo) lo ((vkernStart + hi) - (vkernStart + lo)) kind).2 =
        some (-1) ∧ fs.length < 4 * ((hi.toNat - lo.toNat) / pageSize)) ∨
    ((w.kernel.mapRegion root (vkernStart + lo) lo ((vkernStart + hi) - (vkernStart + lo)) kind).2 =
        none ∧ ∃ fs', Takes (4 * ((hi.toNat - lo.toNat) / pageSize)) fs fs' ∧
      RegionMapped frames w root (kernelVa lo hlo) (kernelVa hi hhi) lo
        (w.kernel.mapRegion root (vkernStart + lo) lo ((vkernStart + hi) - (vkernStart + lo))
          kind).1 fs') := by
  have hloNat := toNat_vkernStart_add (p := lo) (by omega)
  have hhiNat := toNat_vkernStart_add (p := hi) (by omega)
  have heq := w.kernel.mapRegion_eq root (kernelVa lo hlo) (kernelVa hi hhi) hlo kind
  simp only [kernelVa] at heq
  rw [heq]
  refine Inv.mapRegionLoop_maps hfr hlt hkind _ _ _ _ _ hI hr ?_ (fun h0 => ?_) ?_ hnone
  · show (vkernStart + hi).toNat = (vkernStart + lo).toNat + _
    simp only [pageSize] at hlo hhi ⊢
    omega
  · rw [h0] at hpos
    simp at hpos
  · simp only [pageSize] at hlo hhi ⊢
    omega

/-- A page of a region of kernel addresses mapped to itself. -/
lemma RegionMapped.kernel_page {lo hi p : BitVec 64} {k' : Kernel} {fs' : List ℕ}
    {hlo : lo.toNat % pageSize = 0} {hhi : hi.toNat % pageSize = 0}
    (h : RegionMapped frames w root (kernelVa lo hlo) (kernelVa hi hhi) lo k' fs')
    (hhi48 : hi.toNat < 2 ^ 48) (hal : p.toNat % pageSize = 0) (hle : lo.toNat ≤ p.toNat)
    (hlt : p.toNat < hi.toNat) : translate k'.mem root (vkernStart + p) = some p.toNat := by
  have hin := h.inside (kernelVa p hal)
  simp only [kernelVa, toNat_vkernStart_add (p := p) (by omega),
    toNat_vkernStart_add (p := lo) (by omega), toNat_vkernStart_add (p := hi) (by omega)] at hin
  exact (hin (by omega) (by omega)).trans (congrArg some (by omega))

/-! ### The table -/

/-- The pages of the image and of the peripherals. -/
def Image.pages (im : Image) : ℕ := (im.end.toNat - im.start.toNat) / pageSize + 4096

/-- The image ends below the peripherals. -/
lemma not_inRegion_image (im : Image)
    (h : InRegion (kernelVa 0x3F000000 rfl) (kernelVa 0x40000000 rfl) va) :
    ¬ InRegion (kernelVa im.start im.start_aligned) (kernelVa im.end im.end_aligned) va := by
  have hlt := im.lt
  have hle := im.le
  rw [inRegion_kernelVa im.start_aligned im.end_aligned (by omega) (by omega)]
  rw [inRegion_kernelVa rfl rfl (by decide) (by decide)] at h
  obtain ⟨q, hq, hqlo, hqhi, hqvpn⟩ := h
  rintro ⟨p, hp, hplo, hphi, hpvpn⟩
  have hlo : (0x3F000000 : BitVec 64).toNat = 0x3F000000 := rfl
  have hhi : (0x40000000 : BitVec 64).toNat = 0x40000000 := rfl
  have hvpn := hpvpn.trans hqvpn.symm
  rw [vpn_vkernStart_add (by omega), vpn_vkernStart_add (by omega)] at hvpn
  simp only [pageSize] at hvpn hp hq
  omega

/-- The image mapped in an empty tree, and then the peripherals. -/
lemma mapsKernel_of_regions {im : Image} {w₁ : World} {k₂ : Kernel} {fs₁ fs₂ : List ℕ}
    (hempty : ∀ va, translate w.mem root va = none)
    (himage : RegionMapped frames w root (kernelVa im.start im.start_aligned)
      (kernelVa im.end im.end_aligned) im.start w₁.kernel fs₁)
    (hmmio : RegionMapped frames w₁ root (kernelVa 0x3F000000 rfl) (kernelVa 0x40000000 rfl)
      0x3F000000 k₂ fs₂) : MapsKernel k₂.mem root im := by
  have hlt := im.lt
  have hle := im.le
  have hmmioIff : ∀ {va}, InRegion (kernelVa 0x3F000000 rfl) (kernelVa 0x40000000 rfl) va ↔ _ :=
    inRegion_kernelVa rfl rfl (by decide) (by decide)
  have himageIff : ∀ {va}, InRegion (kernelVa im.start im.start_aligned)
      (kernelVa im.end im.end_aligned) va ↔ _ :=
    inRegion_kernelVa im.start_aligned im.end_aligned (by omega) (by omega)
  constructor
  · rintro p ⟨hal, hp | hp⟩
    · have hout : ¬ InRegion (kernelVa 0x3F000000 rfl) (kernelVa 0x40000000 rfl)
          (vkernStart + p) := fun hin =>
        not_inRegion_image im hin (himageIff.mpr ⟨p, hal, hp.1, hp.2, rfl⟩)
      rw [hmmio.outside _ hout]
      exact himage.kernel_page (by omega) hal hp.1 hp.2
    · exact hmmio.kernel_page (by decide) hal hp.1 hp.2
  · intro va f hf
    by_cases hin : InRegion (kernelVa 0x3F000000 rfl) (kernelVa 0x40000000 rfl) va
    · obtain ⟨p, hal, hlo, hhi, hvpn⟩ := hmmioIff.mp hin
      exact ⟨p, ⟨hal, .inr ⟨hlo, hhi⟩⟩, hvpn⟩
    · rw [hmmio.outside va hin] at hf
      by_cases hin' : InRegion (kernelVa im.start im.start_aligned)
          (kernelVa im.end im.end_aligned) va
      · obtain ⟨p, hal, hlo, hhi, hvpn⟩ := himageIff.mp hin'
        exact ⟨p, ⟨hal, .inl ⟨hlo, hhi⟩⟩, hvpn⟩
      · have hnone := (himage.outside va hin').trans (hempty va)
        exact absurd (hf.symm.trans hnone) (by simp)

/-- A new root translates nothing. -/
lemma Inv.translate_unrecorded (hI : Inv frames w fs pos) (hr : root ∈ w.roots)
    (hmapped : w.mapped = []) (va : BitVec 64) : translate w.mem root va = none := by
  cases hf : translate w.mem root va with
  | none => rfl
  | some f =>
      obtain ⟨μ, hμ, -⟩ := hI.recorded hr hf
      rw [hmapped] at hμ
      exact absurd hμ (by simp)

/-- The kernel's page table: its root is the first free frame, at most four frames a page were
taken after it, and the kernel is mapped. -/
structure KernelTable (b : Boot) (im : Image) (k' : Kernel) (root : ℕ) : Prop where
  inv : ∃ rest fs' pos' mapped', b.frames = root :: rest ∧ Takes (4 * im.pages) rest fs' ∧
    Inv b.frames ⟨k', [root], mapped'⟩ fs' pos'
  maps : MapsKernel k'.mem root im

/-- **`make_kpagetable`** builds the table, or the list was shorter than a root and four frames a
page. -/
lemma Boot.makeKpagetable_spec (b : Boot) (im : Image) :
    ((b.kernel.makeKpagetable im.start im.end).2 = 0 ∧ b.frames.length < 1 + 4 * im.pages) ∨
      KernelTable b im (b.kernel.makeKpagetable im.start im.end).1
        (b.kernel.makeKpagetable im.start im.end).2 := by
  have hlt := im.lt
  have hle := im.le
  have hmmioStart : mmioBase - vkernStart = 0x3F000000 := by decide
  have hmmioPages : ((0x40000000 : BitVec 64).toNat - (0x3F000000 : BitVec 64).toNat) / pageSize =
      4096 := by decide
  simp only [Kernel.makeKpagetable, hmmioStart]
  cases hk : b.kernel.kalloc with
  | none =>
      have hnil := b.list.kalloc_eq_none.mp hk
      exact .inl ⟨rfl, by simp [hnil]⟩
  | some taken =>
      obtain ⟨pud, k₀⟩ := taken
      obtain ⟨fs, hfs, hI⟩ : ∃ fs, fs = b.frames ∧ Inv b.frames b.world fs (fun _ => none) :=
        ⟨_, rfl, b.inv⟩
      obtain ⟨rest, rfl, -⟩ := hI.list.kalloc hk
      have hlen := congrArg List.length hfs
      rw [List.length_cons] at hlen
      have hroot : pud ∈ [pud] := List.mem_cons_self
      have hI₀ : Inv b.frames ⟨k₀, [pud], []⟩ rest _ := hI.newRoot b.initial hk
      have hempty := hI₀.translate_unrecorded hroot rfl
      -- the image
      have himage := hI₀.mapRegion_kernel b.initial b.lt hroot 0 (by decide) im.start im.end
        im.start_aligned im.end_aligned im.pos (by omega) (by omega) fun va _ => hempty va
      dsimp only at himage ⊢
      generalize k₀.mapRegion pud (vkernStart + im.start) im.start
        (vkernStart + im.end - (vkernStart + im.start)) 0 = image at himage ⊢
      rcases himage with ⟨hfail, hshort⟩ | ⟨hdone, fs₁, htakes₁, himage⟩
      · rw [if_pos hfail]
        exact .inl ⟨rfl, by simp only [Image.pages]; omega⟩
      rw [if_neg (by rw [hdone]; simp)]
      -- the peripherals
      obtain ⟨pos₁, mapped₁, hI₁⟩ := himage.inv
      have hmmio := hI₁.mapRegion_kernel b.initial b.lt hroot 1 (by decide) 0x3F000000 0x40000000
        rfl rfl (by decide) (by decide) (by decide)
        fun va hin => (himage.outside va (not_inRegion_image im hin)).trans (hempty va)
      have hmmioEq : image.1.mapRegion pud mmioBase 0x3F000000 (mmioEnd - mmioBase) 1 =
          image.1.mapRegion pud (vkernStart + 0x3F000000) 0x3F000000
            (vkernStart + 0x40000000 - (vkernStart + 0x3F000000)) 1 := rfl
      rw [hmmioEq]
      dsimp only at hmmio ⊢
      generalize image.1.mapRegion pud (vkernStart + 0x3F000000) 0x3F000000
        (vkernStart + 0x40000000 - (vkernStart + 0x3F000000)) 1 = mmio at hmmio ⊢
      have htaken := htakes₁.length_le
      rw [hmmioPages] at hmmio
      rcases hmmio with ⟨hfail, hshort⟩ | ⟨hdone', fs₂, htakes₂, hmmio⟩
      · rw [if_pos hfail]
        exact .inl ⟨rfl, by simp only [Image.pages]; omega⟩
      rw [if_neg (by rw [hdone']; simp)]
      obtain ⟨pos₂, mapped₂, hI₂⟩ := hmmio.inv
      refine .inr ⟨⟨rest, fs₂, pos₂, mapped₂, hfs.symm, ?_, hI₂⟩,
        mapsKernel_of_regions hempty himage hmmio⟩
      exact (htakes₁.trans htakes₂).mono (by simp only [Image.pages]; omega)

/-- **The kernel's translations**: a table `make_kpagetable` returns maps the image and the
peripherals at `VKERN_START`, and nothing else. -/
theorem makeKpagetable_maps (b : Boot) (im : Image)
    (hret : (b.kernel.makeKpagetable im.start im.end).2 ≠ 0) :
    MapsKernel (b.kernel.makeKpagetable im.start im.end).1.mem
      (b.kernel.makeKpagetable im.start im.end).2 im := by
  rcases b.makeKpagetable_spec im with ⟨hnull, -⟩ | htable
  · exact absurd hnull hret
  · exact htable.maps

/-! ### The boot sequence -/

/-- `kalloc_end`. -/
def kallocEnd : BitVec 64 := mmioBase - vkernStart

lemma toNat_kallocEnd : kallocEnd.toNat = 0x3F000000 := by decide

/-- The allocator after `kalloc_init` for an image that ends below the archive: `_kalloc_start` is
`_end`, and the head of the list is `NULL` before. -/
def Image.boot (im : Image) (m : ByteMemory) (h : im.end.toNat ≤ 0x8000000) : Boot where
  kernel := (⟨m, 0⟩ : Kernel).kallocInit im.end.toNat kallocEnd.toNat
  frames := initFrames im.end.toNat kallocEnd.toNat
  list := by
    have hlt := im.lt
    refine kallocInit_freeList (by omega) (Nat.dvd_of_mod_eq_zero im.end_aligned) ?_ (by decide)
    rw [toNat_kallocEnd]
    simp only [pageSize]
    omega
  lt f hf := by
    obtain ⟨i, hi, rfl⟩ := List.mem_range'.mp hf
    rw [toNat_kallocEnd] at hi
    simp only [pageSize] at *
    omega

lemma Image.boot_frames (im : Image) (m : ByteMemory) (h : im.end.toNat ≤ 0x8000000) :
    (im.boot m h).frames = initFrames im.end.toNat 0x3F000000 := rfl

lemma Image.boot_length (im : Image) (m : ByteMemory) (h : im.end.toNat ≤ 0x8000000) :
    (im.boot m h).frames.length = (0x3F000000 - im.end.toNat) / pageSize + 1 := by
  rw [im.boot_frames, initFrames, List.length_range']

/-- The frames between the image and the peripherals are enough for the table. -/
lemma Image.boot_table (im : Image) (m : ByteMemory) (h : im.end.toNat ≤ 0x8000000) :
    KernelTable (im.boot m h) im
      ((im.boot m h).kernel.makeKpagetable im.start im.end).1
      ((im.boot m h).kernel.makeKpagetable im.start im.end).2 := by
  refine ((im.boot m h).makeKpagetable_spec im).resolve_left ?_
  rintro ⟨-, hshort⟩
  rw [im.boot_length, Image.pages] at hshort
  simp only [pageSize] at hshort
  omega

lemma Image.boot_ne_zero (im : Image) (m : ByteMemory) (h : im.end.toNat ≤ 0x8000000) :
    ((im.boot m h).kernel.makeKpagetable im.start im.end).2 ≠ 0 := by
  obtain ⟨rest, -, -, -, hframes, -⟩ := (im.boot_table m h).inv
  exact (im.boot m h).list.ne_zero (hframes ▸ List.mem_cons_self)

/-- An image from `0x80000` to `0x100000`. -/
def smallImage : Image where
  start := 0x80000
  «end» := 0x100000
  start_aligned := rfl
  end_aligned := rfl
  pos := by decide
  lt := by decide
  le := by decide

lemma smallImage_le : smallImage.end.toNat ≤ 0x8000000 := by decide

/-- The table of the small image over zeroed memory. -/
theorem makeKpagetable_maps_small :
    MapsKernel
      ((smallImage.boot (fun _ => 0) smallImage_le).kernel.makeKpagetable 0x80000 0x100000).1.mem
      ((smallImage.boot (fun _ => 0) smallImage_le).kernel.makeKpagetable 0x80000 0x100000).2
      smallImage :=
  makeKpagetable_maps (smallImage.boot (fun _ => 0) smallImage_le) smallImage
    (smallImage.boot_ne_zero (fun _ => 0) smallImage_le)

end SkinnyArm
