import SkinnyArm.Boot.KernelTable
import SkinnyArm.PageTree.Cost

/-!
What the kernel's page table costs.

* The kernel's pages lie in the first GB from `VKERN_START` on, so below the root there is one
  table on each of the two upper levels, and a last one for each block of 2 MB
  (`regionNodes_kernel`).
* **The budget** (`makeKpagetable_budget`): the root, those two, the blocks of the image and the
  eight of the peripherals are what `make_kpagetable` takes off the free list, and with fewer
  frames it returns `NULL`.
-/

namespace SkinnyArm

open ByteMemory Forest

variable {frames fs : List ℕ} {w : World} {pos : Pos} {root a b c d : ℕ} {va pa : BitVec 64}
  {kind : BitVec 8} {q : List (Fin 512)}

/-! ### The tables of kernel addresses -/

/-- The tables below the root for the blocks of 2 MB from `a` to `b`. -/
def blockNodes (a b : ℕ) : Finset (List (Fin 512)) :=
  {[0], [0, 0]} ∪ (Finset.Icc a b).image fun i => [0, 0, Fin.ofNat 512 i]

/-- A page given an address asks for tables only. -/
lemma callNodes_of_ne (hpa : pa ≠ 0) : callNodes va pa kind = tablePaths va := by
  rw [callNodes, if_neg fun h => hpa h.1, Finset.union_empty]

/-- The tables of a page of the first GB of kernel addresses. -/
lemma tablePaths_vkernStart {p : BitVec 64} (hp : p.toNat < 2 ^ 30) :
    tablePaths (vkernStart + p) = {[0], [0, 0], [0, 0, Fin.ofNat 512 (p.toNat / 2 ^ 21)]} := by
  have hnat := toNat_vkernStart_add (p := p) (by omega)
  have h0 : lvlAddr (vkernStart + p) 0 = 0 := Fin.ext (by
    rw [val_lvlAddr, hnat, Fin.val_zero]
    omega)
  have h1 : lvlAddr (vkernStart + p) 1 = 0 := Fin.ext (by
    rw [val_lvlAddr, hnat, Fin.val_zero]
    omega)
  have h2 : lvlAddr (vkernStart + p) 2 = Fin.ofNat 512 (p.toNat / 2 ^ 21) := Fin.ext (by
    rw [val_lvlAddr, hnat, Fin.val_ofNat]
    omega)
  simp only [tablePaths, path, List.take, h0, h1, h2]

/-- **The tables of a region** of kernel addresses: two, and one a block. -/
lemma regionNodes_kernel {lo : BitVec 64} {n : ℕ} (hal : lo.toNat % pageSize = 0)
    (hpos : 0 < lo.toNat) (hn : 0 < n) (hhi : lo.toNat + pageSize * n ≤ 2 ^ 30) :
    regionNodes (vkernStart + lo) lo kind n =
      blockNodes (lo.toNat / 2 ^ 21) ((lo.toNat + pageSize * n - 1) / 2 ^ 21) := by
  simp only [pageSize] at hal hhi ⊢
  have hpage : ∀ i < n, (lo + BitVec.ofNat 64 (i * 4096)).toNat = lo.toNat + i * 4096 := by
    intro i hi
    rw [BitVec.toNat_add, BitVec.toNat_ofNat]
    omega
  have hnodes : ∀ i < n, callNodes (vkernStart + lo + BitVec.ofNat 64 (i * 4096))
      (lo + BitVec.ofNat 64 (i * 4096)) kind =
        {[0], [0, 0], [0, 0, Fin.ofNat 512 ((lo.toNat + i * 4096) / 2 ^ 21)]} := by
    intro i hi
    have hnat := hpage i hi
    have hne : lo + BitVec.ofNat 64 (i * 4096) ≠ 0 := fun h0 => by
      have hzero : (lo + BitVec.ofNat 64 (i * 4096)).toNat = 0 := by rw [h0]; rfl
      omega
    rw [callNodes_of_ne hne, BitVec.add_assoc, tablePaths_vkernStart (by omega), hnat]
  ext q
  simp only [mem_regionNodes, blockNodes, Finset.mem_union, Finset.mem_insert,
    Finset.mem_singleton, Finset.mem_image, Finset.mem_Icc]
  constructor
  · rintro ⟨i, hi, hq⟩
    rw [hnodes i hi] at hq
    simp only [Finset.mem_insert, Finset.mem_singleton] at hq
    rcases hq with hq | hq | hq
    · exact .inl (.inl hq)
    · exact .inl (.inr hq)
    · exact .inr ⟨(lo.toNat + i * 4096) / 2 ^ 21, by omega, hq.symm⟩
  · rintro ((hq | hq) | ⟨j, hj, hq⟩)
    · exact ⟨0, hn, by rw [hnodes 0 hn]; simp [hq]⟩
    · exact ⟨0, hn, by rw [hnodes 0 hn]; simp [hq]⟩
    · -- the first page of the block that the region has
      have hi : (max lo.toNat (j * 2 ^ 21) - lo.toNat) / 4096 < n := by omega
      refine ⟨_, hi, ?_⟩
      rw [hnodes _ hi, show (lo.toNat + (max lo.toNat (j * 2 ^ 21) - lo.toNat) / 4096 * 4096) /
        2 ^ 21 = j by omega]
      simp [← hq]

/-- Two regions share the two upper tables. -/
lemma card_blockNodes_union (hab : a ≤ b) (hbc : b < c) (hcd : c ≤ d) (hd : d < 512) :
    (blockNodes a b ∪ blockNodes c d).card = 2 + (b - a + 1) + (d - c + 1) := by
  have hunion : blockNodes a b ∪ blockNodes c d =
      {[0], [0, 0]} ∪ (Finset.Icc a b ∪ Finset.Icc c d).image fun i => [0, 0, Fin.ofNat 512 i] := by
    rw [Finset.image_union]
    ext q
    simp only [blockNodes, Finset.mem_union]
    tauto
  have hinj : Set.InjOn (fun i : ℕ => ([0, 0, Fin.ofNat 512 i] : List (Fin 512)))
      ↑(Finset.Icc a b ∪ Finset.Icc c d) := by
    intro i hi j hj hij
    simp only [Finset.coe_union, Finset.coe_Icc, Set.mem_union, Set.mem_Icc] at hi hj
    simp only [List.cons.injEq, true_and, and_true] at hij
    have hval := congrArg Fin.val hij
    rw [Fin.val_ofNat, Fin.val_ofNat] at hval
    omega
  have hdisj : Disjoint ({[0], [0, 0]} : Finset (List (Fin 512)))
      ((Finset.Icc a b ∪ Finset.Icc c d).image fun i => [0, 0, Fin.ofNat 512 i]) := by
    rw [Finset.disjoint_left]
    intro q hq hq'
    obtain ⟨i, -, rfl⟩ := Finset.mem_image.mp hq'
    simp at hq
  have hblocks : Disjoint (Finset.Icc a b) (Finset.Icc c d) := by
    rw [Finset.disjoint_left]
    intro i hi hi'
    simp only [Finset.mem_Icc] at hi hi'
    omega
  have htwo : ({[0], [0, 0]} : Finset (List (Fin 512))).card = 2 := by decide
  rw [hunion, Finset.card_union_of_disjoint hdisj, Finset.card_image_of_injOn hinj,
    Finset.card_union_of_disjoint hblocks, Nat.card_Icc, Nat.card_Icc, htwo]
  omega

/-! ### The two regions -/

/-- **The cost of a region of kernel addresses** mapped to itself. -/
lemma Inv.mapRegion_kernel_cost (hI : Inv frames w fs pos) (hfr : InitialFrames frames)
    (hlt : ∀ f ∈ frames, f < 2 ^ 36) (hr : root ∈ w.roots) (kind : BitVec 8)
    (hkind : kind.toNat < 3) (lo hi : BitVec 64) (hlo : lo.toNat % pageSize = 0)
    (hhi : hi.toNat % pageSize = 0) (hpos : 0 < lo.toNat) (hlh : lo.toNat < hi.toNat)
    (hhi30 : hi.toNat ≤ 2 ^ 30) (nodes : Finset (List (Fin 512)))
    (hnodes : blockNodes (lo.toNat / 2 ^ 21) ((hi.toNat - 1) / 2 ^ 21) = nodes)
    {outcome : Kernel × Option ℤ} (hrun : w.kernel.mapRegion root (vkernStart + lo) lo
      ((vkernStart + hi) - (vkernStart + lo)) kind = outcome) :
    ((missing (edge w.mem) root nodes).card ≤ fs.length →
      outcome.2 = none ∧ FreeList outcome.1 (fs.drop (missing (edge w.mem) root nodes).card) ∧
      ∀ q : List (Fin 512), q.length ≤ 3 → (walk (edge outcome.1.mem) root q = none ↔
        walk (edge w.mem) root q = none ∧ q ∉ nodes)) ∧
    (fs.length < (missing (edge w.mem) root nodes).card → outcome.2 = some (-1)) := by
  have hloNat := toNat_vkernStart_add (p := lo) (by omega)
  have hhiNat := toNat_vkernStart_add (p := hi) (by omega)
  have heq := w.kernel.mapRegion_eq root (kernelVa lo hlo) (kernelVa hi hhi) hlo kind
  simp only [kernelVa] at heq
  have hpages : lo.toNat + pageSize * ((hi.toNat - lo.toNat) / pageSize) = hi.toNat := by
    simp only [pageSize] at hlo hhi ⊢
    omega
  have hregion : regionNodes (vkernStart + lo) lo kind ((hi.toNat - lo.toNat) / pageSize) =
      nodes := by
    rw [regionNodes_kernel hlo hpos (by simp only [pageSize] at *; omega) (by omega), hpages]
    exact hnodes
  have hcost := Inv.mapRegionLoop_cost hfr hlt hkind (kernelVa lo hlo) (kernelVa hi hhi)
    ((hi.toNat - lo.toNat) / pageSize) (kernelVa lo hlo) lo hI hr
    (show (vkernStart + hi).toNat = (vkernStart + lo).toNat + _ by omega) (by omega)
  simp only [regionCost, kernelVa, hregion] at hcost
  rw [← hrun, heq]
  exact hcost

/-- The frames of the kernel's page table: its root, the two upper tables, the blocks of the image
and the eight blocks of the peripherals. -/
def Image.tables (im : Image) : ℕ :=
  1 + 2 + ((im.end.toNat - 1) / 2 ^ 21 - im.start.toNat / 2 ^ 21 + 1) + 8

/-- The tables for the image. -/
def Image.blocks (im : Image) : Finset (List (Fin 512)) :=
  blockNodes (im.start.toNat / 2 ^ 21) ((im.end.toNat - 1) / 2 ^ 21)

/-- The tables for the peripherals. -/
def mmioBlocks : Finset (List (Fin 512)) := blockNodes 504 511

/-- In an empty tree everything is missing. -/
lemma Image.card_tables (im : Image) {m : ByteMemory} (hempty : ∀ i, edge m root i = none) :
    1 + (missing (edge m) root (im.blocks ∪ mmioBlocks)).card = im.tables := by
  have hlt := im.lt
  have hle := im.le
  rw [missing_of_empty hempty, Image.blocks, mmioBlocks,
    card_blockNodes_union (by omega) (by omega) (by omega) (by omega), Image.tables]
  · omega
  · intro q hq
    simp only [Image.blocks, mmioBlocks, blockNodes, Finset.mem_union, Finset.mem_insert,
      Finset.mem_singleton, Finset.mem_image] at hq
    rintro rfl
    simp at hq

/-- **The budget**: `make_kpagetable` returns a table exactly if the free list has a frame for each
of its nodes, and takes one for each. -/
theorem makeKpagetable_budget (b : Boot) (im : Image) :
    ((b.kernel.makeKpagetable im.start im.end).2 ≠ 0 ↔ im.tables ≤ b.frames.length) ∧
      (im.tables ≤ b.frames.length →
        FreeList (b.kernel.makeKpagetable im.start im.end).1 (b.frames.drop im.tables)) := by
  have hlt := im.lt
  have hle := im.le
  have hstartPos := im.pos
  have hmmioStart : mmioBase - vkernStart = 0x3F000000 := by decide
  simp only [Kernel.makeKpagetable, hmmioStart]
  cases hk : b.kernel.kalloc with
  | none =>
      have hnil := b.list.kalloc_eq_none.mp hk
      rw [hnil, List.length_nil, Image.tables]
      exact ⟨⟨fun h => absurd rfl h, fun h => absurd h (by omega)⟩, fun h => absurd h (by omega)⟩
  | some taken =>
      obtain ⟨pud, k₀⟩ := taken
      obtain ⟨fs, hfs, hI⟩ : ∃ fs, fs = b.frames ∧ Inv b.frames b.world fs (fun _ => none) :=
        ⟨_, rfl, b.inv⟩
      obtain ⟨rest, rfl, -⟩ := hI.list.kalloc hk
      have hne := hI.list.ne_zero List.mem_cons_self
      have hroot : pud ∈ [pud] := List.mem_cons_self
      have hI₀ : Inv b.frames ⟨k₀, [pud], []⟩ rest _ := hI.newRoot b.initial hk
      have hempty := hI₀.translate_unrecorded hroot rfl
      have hbudget := im.card_tables (edge_new_root hk)
      -- the image
      have hmapped := hI₀.mapRegion_kernel b.initial b.lt hroot 0 (by decide) im.start im.end
        im.start_aligned im.end_aligned im.pos (by omega) (by omega) fun va _ => hempty va
      have hcost := hI₀.mapRegion_kernel_cost b.initial b.lt hroot 0 (by decide) im.start
        im.end im.start_aligned im.end_aligned im.pos im.lt (by omega) im.blocks rfl rfl
      rw [World.mem] at hcost
      have hblocks : (missing (edge k₀.mem) pud im.blocks).card ≤
          (missing (edge k₀.mem) pud (im.blocks ∪ mmioBlocks)).card :=
        card_missing_mono Finset.subset_union_left
      dsimp only at hmapped hcost ⊢
      generalize k₀.mapRegion pud (vkernStart + im.start) im.start
        (vkernStart + im.end - (vkernStart + im.start)) 0 = image at hmapped hcost ⊢
      obtain ⟨hdone, hfail⟩ := hcost
      rw [← hfs, List.length_cons]
      rcases Nat.lt_or_ge rest.length (missing (edge k₀.mem) pud im.blocks).card with hshort | hroom
      · rw [if_pos (hfail hshort)]
        exact ⟨⟨fun h => absurd rfl h, fun h => absurd h (by omega)⟩,
          fun h => absurd h (by omega)⟩
      obtain ⟨hnone, hlist₁, hwalk₁⟩ := hdone hroom
      rw [if_neg (by rw [hnone]; simp)]
      -- the peripherals
      rcases hmapped with ⟨hfail', -⟩ | ⟨-, fs₁, -, himage⟩
      · rw [hnone] at hfail'
        exact absurd hfail' (by simp)
      obtain ⟨pos₁, mapped₁, hI₁⟩ := himage.inv
      obtain rfl := hI₁.list.chain.unique hlist₁.chain
      have htotal : (missing (edge k₀.mem) pud (im.blocks ∪ mmioBlocks)).card =
          (missing (edge k₀.mem) pud im.blocks).card +
            (missing (edge image.1.mem) pud mmioBlocks).card := by
        refine card_missing_union fun q hq => hwalk₁ q ?_
        simp only [mmioBlocks, blockNodes, Finset.mem_union, Finset.mem_insert,
          Finset.mem_singleton, Finset.mem_image] at hq
        rcases hq with (rfl | rfl) | ⟨i, -, rfl⟩ <;> simp
      have hcost₂ := hI₁.mapRegion_kernel_cost b.initial b.lt hroot 1 (by decide) 0x3F000000
        0x40000000 rfl rfl (by decide) (by decide) (by decide) mmioBlocks rfl rfl
      have hmmioEq : image.1.mapRegion pud mmioBase 0x3F000000 (mmioEnd - mmioBase) 1 =
          image.1.mapRegion pud (vkernStart + 0x3F000000) 0x3F000000
            (vkernStart + 0x40000000 - (vkernStart + 0x3F000000)) 1 := rfl
      rw [hmmioEq]
      rw [World.mem] at hcost₂
      dsimp only at hcost₂ ⊢
      generalize image.1.mapRegion pud (vkernStart + 0x3F000000) 0x3F000000
        (vkernStart + 0x40000000 - (vkernStart + 0x3F000000)) 1 = mmio at hcost₂ ⊢
      obtain ⟨hdone₂, hfail₂⟩ := hcost₂
      rw [List.length_drop] at hdone₂ hfail₂
      rw [List.drop_drop] at hdone₂
      rcases Nat.lt_or_ge (rest.length - (missing (edge k₀.mem) pud im.blocks).card)
          (missing (edge image.1.mem) pud mmioBlocks).card with hshort | hroom₂
      · rw [if_pos (hfail₂ hshort)]
        exact ⟨⟨fun h => absurd rfl h, fun h => absurd h (by omega)⟩,
          fun h => absurd h (by omega)⟩
      · obtain ⟨hnone₂, hlist₂, -⟩ := hdone₂ hroom₂
        rw [if_neg (by rw [hnone₂]; simp)]
        have hdrop : (pud :: rest).drop im.tables = rest.drop
            ((missing (edge k₀.mem) pud im.blocks).card +
              (missing (edge image.1.mem) pud mmioBlocks).card) := by
          rw [← hbudget, htotal, Nat.add_comm, List.drop_succ_cons]
        exact ⟨⟨fun _ => by omega, fun _ => hne⟩, fun _ => by rw [hdrop]; exact hlist₂⟩

end SkinnyArm
