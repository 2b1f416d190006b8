import SkinnyArm.UserCopy.Lookups

/-!
Lookups in two kernels that differ in bytes that may be written.

* **A level** of `get_physical_page` reads and writes the table it is at and the first free frame,
  so it commutes with patching bytes outside both (`getPhysicalPageLevel_patch`).
* **The call** therefore commutes with patching any bytes that are part of no table and no free
  frame (`Inv.getPhysicalPage_patch`): it does not depend on them, and it leaves them alone
  (`Inv.getPhysicalPage_data`).
-/

namespace SkinnyArm

open ByteMemory Forest

variable {frames fs : List ℕ} {w : World} {pos : Pos} {k k' : Kernel} {s : Set ℕ} {m : ByteMemory}
  {root t i x : ℕ} {va pa : BitVec 64} {kind : BitVec 8}

/-! ### Levels -/

/-- The kernel with other bytes in a set. -/
noncomputable def Kernel.patch (k : Kernel) (s : Set ℕ) (m : ByteMemory) : Kernel :=
  ⟨k.mem.patch s m, k.pageFrameLinkedList⟩

lemma Kernel.patch_mem (hx : x ∈ s) : (k.patch s m).mem x = m x := patch_of_mem hx

lemma Kernel.patch_mem_of_notMem (hx : x ∉ s) : (k.patch s m).mem x = k.mem x :=
  patch_of_notMem hx

@[simp] lemma Kernel.patch_self (k : Kernel) (s : Set ℕ) : k.patch s k.mem = k :=
  Kernel.eq_of ByteMemory.patch_self rfl

/-- A set apart from a table and from the first free frame. -/
structure LevelApart (s : Set ℕ) (k : Kernel) (t : ℕ) : Prop where
  table : Disjoint (page t) s
  head : k.pageFrameLinkedList ≠ 0 → Disjoint (page k.pageFrameLinkedList) s

lemma entry_patch (h : Disjoint (page t) s) (j : Fin 512) :
    entry (k.mem.patch s m) t j = entry k.mem t j :=
  load64_patch (h.mono_left (word_subset_page j.isLt))

lemma setEntry_patch (h : Disjoint (page t) s) (j : Fin 512) (pentry : BitVec 64) :
    setEntry (k.mem.patch s m) t j pentry = (setEntry k.mem t j pentry).patch s m :=
  store64_patch (h.mono_left (word_subset_page j.isLt))

/-- A frame is taken alike. -/
lemma Kernel.kalloc_patch
    (h : k.pageFrameLinkedList ≠ 0 → Disjoint (page k.pageFrameLinkedList) s) :
    (k.patch s m).kalloc = k.kalloc.map fun taken => (taken.1, taken.2.patch s m) := by
  by_cases h0 : k.pageFrameLinkedList = 0
  · simp [kalloc, patch, h0]
  · have hpage := h h0
    have hlink : nextFrame (k.mem.patch s m) k.pageFrameLinkedList =
        nextFrame k.mem k.pageFrameLinkedList :=
      congrArg BitVec.toNat (load64_patch (hpage.mono_left link_subset_page))
    simp only [kalloc, patch, h0, if_false, Option.map_some, hlink, clearPage_eq,
      clear_patch hpage]

/-- At the four levels the three kinds have an entry. -/
lemma allocatedEntry_ne_none {f : ℕ} (hi : i < 4) (hkind : kind.toNat < 3) :
    allocatedEntry i kind f ≠ none := by
  intro hnone
  rcases Nat.lt_or_ge i 3 with hi3 | hi3
  · rw [allocatedEntry_inner hi3] at hnone
    exact absurd hnone (by simp)
  · obtain rfl : i = 3 := by omega
    have hle := allocatedEntry_eq_none hnone
    omega

/-- A level that takes a frame. -/
lemma getPhysicalPageLevel_of_kalloc {f : ℕ} {pentry : BitVec 64}
    (hunset : ¬ IsSet (entry k.mem t (lvlAddr va i))) (hk : k.kalloc = some (f, k'))
    (hword : allocatedEntry i kind f = some pentry) :
    getPhysicalPageLevel k t va 0 kind i =
      ({ k' with mem := setEntry k'.mem t (lvlAddr va i) pentry }, .next (frameOf pentry)) := by
  simp [getPhysicalPageLevel, hunset, hk, hword]

/-- **A level** does not depend on bytes apart from its table and the first free frame, and leaves
them alone. -/
lemma getPhysicalPageLevel_patch (h : LevelApart s k t) (hi : i < 4) (hkind : kind.toNat < 3) :
    getPhysicalPageLevel (k.patch s m) t va 0 kind i =
      ((getPhysicalPageLevel k t va 0 kind i).1.patch s m,
        (getPhysicalPageLevel k t va 0 kind i).2) := by
  have hentry : entry (k.patch s m).mem t (lvlAddr va i) = entry k.mem t (lvlAddr va i) :=
    entry_patch h.table _
  by_cases hset : IsSet (entry k.mem t (lvlAddr va i))
  · simp [getPhysicalPageLevel, hentry, hset]
  · cases hk : k.kalloc with
    | none =>
        have hk' : (k.patch s m).kalloc = none := by rw [Kernel.kalloc_patch h.head, hk]; rfl
        simp [getPhysicalPageLevel, hentry, hset, hk, hk']
    | some taken =>
        obtain ⟨f, k₁⟩ := taken
        have hk' : (k.patch s m).kalloc = some (f, k₁.patch s m) := by
          rw [Kernel.kalloc_patch h.head, hk]
          rfl
        obtain ⟨pentry, hword⟩ :=
          Option.ne_none_iff_exists'.mp (allocatedEntry_ne_none (f := f) hi hkind)
        have hwrite : setEntry (k₁.patch s m).mem t (lvlAddr va i) pentry =
            (setEntry k₁.mem t (lvlAddr va i) pentry).patch s m := setEntry_patch h.table _ _
        rw [getPhysicalPageLevel_of_kalloc hset hk hword,
          getPhysicalPageLevel_of_kalloc (hentry ▸ hset) hk' hword, hwrite]
        rfl

/-! ### The call -/

/-- Bytes that may be written are apart from every table and from the first free frame. -/
lemma Inv.apart (hI : Inv frames w fs pos) (hlt : ∀ f ∈ frames, f < 2 ^ 36) (hr : root ∈ w.roots)
    (hs : ∀ x ∈ s, w.Writable frames x) (hi : i ≤ 3) (ht : tableAt w.mem root va i = some t) :
    LevelApart s w.kernel t := by
  have hframe : ∀ {f}, f ∈ frames → ¬ w.IsLeafFrame f → Disjoint (page f) s := fun hf hleaf =>
    Set.disjoint_left.mpr fun x hx hxs => hleaf (hs x hxs _ hf hx)
  have hpos := hI.pos_tableAt hr hi ht
  refine ⟨hframe (hI.mem_frames hpos) (hI.not_isLeafFrame hlt hpos ?_), fun hne => ?_⟩
  · rw [take_path_length (by omega)]
    exact hi
  · obtain ⟨hmem, hnone⟩ := (hI.free_iff _).mp (hI.list.head_mem hne)
    refine hframe hmem fun hleaf => ?_
    obtain ⟨r, p, hpos, -⟩ := (hI.isLeafFrame_iff hlt).mp hleaf
    exact absurd (hnone.symm.trans hpos) (by simp)

/-- The levels from `i` on. -/
lemma Inv.getPhysicalPageFrom_patch (hfr : InitialFrames frames) (hlt : ∀ f ∈ frames, f < 2 ^ 36)
    (hkind : kind.toNat < 3) :
    ∀ (n : ℕ) {i t : ℕ} {w : World} {fs : List ℕ} {pos : Pos}, i + n = 3 →
      Inv frames w fs pos → root ∈ w.roots → tableAt w.mem root va i = some t →
      (∀ x ∈ s, w.Writable frames x) →
      getPhysicalPageFrom va 0 kind (List.range' i (n + 1)) (w.kernel.patch s m) t =
        ((getPhysicalPageFrom va 0 kind (List.range' i (n + 1)) w.kernel t).1.patch s m,
          (getPhysicalPageFrom va 0 kind (List.range' i (n + 1)) w.kernel t).2) := by
  intro n
  induction n with
  | zero =>
      intro i t w fs pos hi hI hr ht hs
      rw [List.range'_one, getPhysicalPageFrom, getPhysicalPageFrom,
        getPhysicalPageLevel_patch (hI.apart hlt hr hs (by omega) ht) (by omega) hkind]
      generalize getPhysicalPageLevel w.kernel t va 0 kind i = looked
      obtain ⟨k', result⟩ := looked
      cases result with
      | ret frame => rfl
      | next table => rfl
  | succ n ih =>
      intro i t w fs pos hi hI hr ht hs
      rw [List.range'_succ, getPhysicalPageFrom, getPhysicalPageFrom,
        getPhysicalPageLevel_patch (hI.apart hlt hr hs (by omega) ht) (by omega) hkind]
      rcases hI.level_inner hfr hlt hr (by omega) ht with
        ⟨hend, -, -⟩ | ⟨k', t', fs', hnext, hg, ht'⟩
      · rw [hend]
      · rw [hnext]
        obtain ⟨pos', hI'⟩ := hg.inv
        have hrest := ih (by omega) hI' hr ht' fun x hx =>
          hI.writable_of_same hg.translate_eq (hs x hx)
        exact hrest

/-- **The call** does not depend on bytes that may be written, and leaves them alone. -/
lemma Inv.getPhysicalPage_patch (hI : Inv frames w fs pos) (hfr : InitialFrames frames)
    (hlt : ∀ f ∈ frames, f < 2 ^ 36) (hr : root ∈ w.roots) (hkind : kind.toNat < 3)
    (hs : ∀ x ∈ s, w.Writable frames x) :
    (w.kernel.patch s m).getPhysicalPage root va 0 kind =
      ((w.kernel.getPhysicalPage root va 0 kind).1.patch s m,
        (w.kernel.getPhysicalPage root va 0 kind).2) :=
  Inv.getPhysicalPageFrom_patch hfr hlt hkind 3 rfl hI hr tableAt_zero hs

/-- A byte that may be written is as before. -/
lemma Inv.getPhysicalPage_data (hI : Inv frames w fs pos) (hfr : InitialFrames frames)
    (hlt : ∀ f ∈ frames, f < 2 ^ 36) (hr : root ∈ w.roots) (hkind : kind.toNat < 3)
    (hx : w.Writable frames x) :
    (w.kernel.getPhysicalPage root va 0 kind).1.mem x = w.mem x := by
  have hpatch : (w.kernel.patch {x} w.kernel.mem).getPhysicalPage root va 0 kind = _ :=
    hI.getPhysicalPage_patch hfr hlt hr hkind fun y hy => hy ▸ hx
  rw [Kernel.patch_self] at hpatch
  calc (w.kernel.getPhysicalPage root va 0 kind).1.mem x
      = ((w.kernel.getPhysicalPage root va 0 kind).1.patch {x} w.kernel.mem).mem x := by
        exact congrArg (fun looked => looked.1.mem x) hpatch
    _ = w.mem x := patch_of_mem rfl

end SkinnyArm
