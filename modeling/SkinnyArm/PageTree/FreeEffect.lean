import SkinnyArm.PageTree.FreePage

/-!
What `free_page` does to the free list and to memory.

* `FreesPage` is what it should do: the data page goes back to the list if it came from
  `kalloc`, so do the tables that lost their last entry, and nothing else is written.
* **Stopped early** it does nothing, which is right exactly for a page that was given its
  physical address (`freesPage_iff_of_stopsEarly`).
* **Got through** on the page's own indices, `kfree(levels[4])` reads the frame to free from the
  page's data: a data page from `kalloc` never reaches the list, and a list that was not empty
  is lost (`Inv.not_freesPage`).
-/

namespace SkinnyArm

open ByteMemory Forest

variable {frames fs : List ℕ} {w : World} {pos : Pos} {m m' : ByteMemory} {k k' : Kernel}
  {root t f g : ℕ} {va : BitVec 64}

/-- The page was given its physical address by the call that mapped it. -/
def World.Explicit (w : World) (root : ℕ) (va : BitVec 64) : Prop :=
  ∃ μ ∈ w.mapped, μ.root = root ∧ vpn μ.va = vpn va ∧ μ.pa ≠ 0

/-- A table that lost its last set entry. -/
def LostEntries (m m' : ByteMemory) (t : ℕ) : Prop :=
  (∃ j, IsSet (entry m t j)) ∧ ∀ j, ¬ IsSet (entry m' t j)

/-- The frames `free_page` should free: the data page if it came from `kalloc`, and the tables
below the root that lost their last entry. -/
def FreedBy (w : World) (root : ℕ) (va : BitVec 64) (m' : ByteMemory) (g : ℕ) : Prop :=
  (translate w.mem root va = some g ∧ ¬ w.Explicit root va) ∨
    ∃ i ∈ [1, 2, 3], tableAt w.mem root va i = some g ∧ LostEntries w.mem m' g

/-- What `free_page` should do to the free list and to memory. -/
structure FreesPage (w : World) (root : ℕ) (va : BitVec 64) (k' : Kernel) : Prop where
  list : ∀ fs, FreeList w.kernel fs → ∃ fs' freed, FreeList k' fs' ∧ fs'.Perm (freed ++ fs) ∧
    freed.Nodup ∧ (∀ g, g ∈ freed ↔ FreedBy w root va k'.mem g) ∧ root ∉ freed ∧
    ∀ μ ∈ w.mapped, μ.pa ≠ 0 → μ.pa.toNat ∉ freed
  frame : ∀ a, (∀ i ≤ 3, ∀ t, tableAt w.mem root va i = some t → a ∉ page t) →
    (∀ g, FreedBy w root va k'.mem g → a ∉ page g) → k'.mem a = w.mem a

/-- The list afterwards holds the freed frames and the old ones. -/
lemma FreesPage.exists_list (h : FreesPage w root va k') (hlist : FreeList w.kernel fs) :
    ∃ fs', FreeList k' fs' ∧ ∀ g, g ∈ fs' ↔ FreedBy w root va k'.mem g ∨ g ∈ fs := by
  obtain ⟨fs', freed, hlist', hperm, -, hfreed, -⟩ := h.list fs hlist
  refine ⟨fs', hlist', fun g => ?_⟩
  rw [hperm.mem_iff, List.mem_append, hfreed]

/-! ### Stopped early -/

lemma not_lostEntries_self : ¬ LostEntries m m t := fun ⟨⟨j, hj⟩, hnone⟩ => hnone j hj

/-- Doing nothing frees a page exactly if there is nothing to free. -/
lemma freesPage_self_iff (hlist : FreeList w.kernel fs) (hf : translate w.mem root va = some f) :
    FreesPage w root va w.kernel ↔ w.Explicit root va := by
  constructor
  · intro h
    by_contra hexp
    obtain ⟨fs', freed, hlist', hperm, -, hfreed, -⟩ := h.list fs hlist
    obtain rfl : fs' = fs := hlist'.chain.unique hlist.chain
    have hlen := hperm.length_eq
    rw [List.length_append] at hlen
    obtain rfl : freed = [] := List.length_eq_zero_iff.mp (by omega)
    exact absurd ((hfreed f).mpr (.inl ⟨hf, hexp⟩)) (List.not_mem_nil)
  · intro hexp
    have hnone : ∀ g, ¬ FreedBy w root va w.mem g := by
      rintro g (⟨-, hnot⟩ | ⟨i, -, -, hlost⟩)
      · exact hnot hexp
      · exact not_lostEntries_self hlost
    refine ⟨fun fs hfs => ⟨fs, [], hfs, List.Perm.refl _, List.nodup_nil, fun g => ?_, by simp,
      by simp⟩, fun a _ _ => rfl⟩
    simpa using hnone g

/-- Stopped early, `free_page` frees a page exactly if it was given its physical address. -/
lemma freesPage_iff_of_stopsEarly (hlist : FreeList w.kernel fs)
    (hf : translate w.mem root va = some f) (hstop : StopsEarly w.mem root va) :
    FreesPage w root va (w.kernel.freePage root va) ↔ w.Explicit root va := by
  have hsame : w.kernel.freePage root va = w.kernel := freePage_of_stopsEarly hstop
  rw [hsame]
  exact freesPage_self_iff hlist hf

/-! ### Got through -/

/-- A mapped page that was not given its address is the frame at its own path. -/
lemma Inv.pos_of_not_explicit (hI : Inv frames w fs pos) (hlt : ∀ f ∈ frames, f < 2 ^ 36)
    (hr : root ∈ w.roots) (hf : translate w.mem root va = some f)
    (hexp : ¬ w.Explicit root va) : pos f = some (root, path va) := by
  obtain ⟨μ, hμ, rfl, hvpn⟩ := hI.recorded hr hf
  have h0 : μ.pa = 0 := by
    by_contra hne
    exact hexp ⟨μ, hμ, rfl, hvpn, hne⟩
  obtain ⟨g, hg, hpos, -⟩ := hI.translate_mapped hlt hμ
  obtain rfl : g = f := by
    rw [translate_congr_vpn hvpn, hf] at hg
    exact (Option.some.inj hg).symm
  rw [hpos h0, path_eq_iff.mpr hvpn]

/-- The frame `kfree(levels[4])` names is not one to free: it is no table of the path, and not
the data page. -/
lemma not_freedBy_nextFrame (hf : translate w.mem root va = some f)
    (hharm : Harmless w.mem root f) : ¬ FreedBy w root va m' (nextFrame w.mem f) := by
  have hself : ∀ g : ℕ, g ∈ page g := fun g => by simp [pageSize]
  rintro (⟨hg, -⟩ | ⟨i, hi, hg, -⟩)
  · have hfg : f = nextFrame w.mem f := Option.some.inj (hf.symm.trans hg)
    have hout := hharm.leaf
    rw [← hfg] at hout
    simp only [PageVar.Outside, pageSize] at hout
    omega
  · have hi3 : i ≤ 3 := by
      simp only [List.mem_cons, List.not_mem_nil, or_false] at hi
      omega
    have hdis := hharm.tables _ (by rw [take_path_length] <;> omega) _ hg
    exact Set.disjoint_left.mp hdis (hself _) (hself _)

/-- With an empty list afterwards, a page from `kalloc` or the old list is lost. -/
lemma not_freesPage_of_head_eq_zero (hlist : FreeList w.kernel fs)
    (hf : translate w.mem root va = some f) (h0 : k'.pageFrameLinkedList = 0)
    (hlost : ¬ w.Explicit root va ∨ w.kernel.pageFrameLinkedList ≠ 0) :
    ¬ FreesPage w root va k' := by
  intro h
  obtain ⟨fs', hlist', hmem⟩ := h.exists_list hlist
  obtain rfl : fs' = [] := hlist'.chain.eq_nil_iff.mpr h0
  rcases hlost with hexp | hne
  · exact absurd ((hmem f).mpr (.inl (.inl ⟨hf, hexp⟩))) (by simp)
  · exact absurd ((hmem _).mpr (.inr (hlist.head_mem hne))) (by simp)

/-- A page from `kalloc` is lost when the head is read from its data. -/
lemma not_freesPage_of_link (hlist : FreeList w.kernel fs)
    (hf : translate w.mem root va = some f) (hexp : ¬ w.Explicit root va)
    (hlink : nextFrame k'.mem f = k'.pageFrameLinkedList) : ¬ FreesPage w root va k' := by
  intro h
  obtain ⟨fs', hlist', hmem⟩ := h.exists_list hlist
  exact hlist'.chain.next_ne_head ((hmem f).mpr (.inl (.inl ⟨hf, hexp⟩))) hlink

/-- The old list is lost when the head is the frame named by the data: if that frame was on the
list, it was freed twice. -/
lemma not_freesPage_of_twice (hlist : FreeList w.kernel fs)
    (hf : translate w.mem root va = some f) (hharm : Harmless w.mem root f)
    (hne : nextFrame w.mem f ≠ 0) (hhead : k'.pageFrameLinkedList = nextFrame w.mem f)
    (hmem : ∀ g ∈ fs, Set.EqOn k'.mem (w.kernel.kfree (.at f)).mem (page g)) :
    ¬ FreesPage w root va k' := by
  intro h
  obtain ⟨fs', hlist', hiff⟩ := h.exists_list hlist
  have hon : nextFrame w.mem f ∈ fs' := hhead ▸ hlist'.head_mem (hhead ▸ hne)
  have hin : nextFrame w.mem f ∈ fs :=
    ((hiff _).mp hon).resolve_left (not_freedBy_nextFrame hf hharm)
  have hderef : (PageVar.at f).deref w.mem = nextFrame w.mem f := rfl
  exact hlist.kfree_twice hderef hharm.leaf hin hhead hmem fs' hlist'

/-- **Got through**, `free_page` loses the data page if it came from `kalloc`, and the free list
if there was one. -/
lemma Inv.not_freesPage (hI : Inv frames w fs pos) (hfr : InitialFrames frames)
    (hlt : ∀ f ∈ frames, f < 2 ^ 36) (hr : root ∈ w.roots)
    (hf : translate w.mem root va = some f) (hstop : ¬ StopsEarly w.mem root va)
    (hown : OwnIndices va) (hharm : Harmless w.mem root f)
    (hlost : ¬ w.Explicit root va ∨ w.kernel.pageFrameLinkedList ≠ 0) :
    ¬ FreesPage w root va (w.kernel.freePage root va) := by
  have hfreed := (hI.tree hfr hr).freed_mapped (k := w.kernel) hstop hown hf hharm
  rcases hfreed.2 with hzero | ⟨hsame, t, ht, heq⟩
  · exact not_freesPage_of_head_eq_zero hI.list hf hzero hlost
  have htpos := hI.pos_tableAt hr le_rfl ht
  have htal := hI.aligned hfr htpos
  have hhead : (w.kernel.freePage root va).pageFrameLinkedList = nextFrame w.mem f := by
    have hderef : (PageVar.at f).deref w.kernel.mem = nextFrame w.mem f := rfl
    rw [hsame, Kernel.kfree_eq hderef hharm.leaf]
  by_cases hexp : w.Explicit root va
  · by_cases h0 : nextFrame w.mem f = 0
    · exact not_freesPage_of_head_eq_zero hI.list hf (hhead.trans h0) hlost
    · refine not_freesPage_of_twice hI.list hf hharm h0 hhead fun g hg => ?_
      have hgt : g ≠ t := fun hgt => hI.notMem_free htpos (hgt ▸ hg)
      exact heq.mono (page_disjoint (hI.list.aligned g hg) htal hgt).subset_compl_right
  · have hfpos := hI.pos_of_not_explicit hlt hr hf hexp
    have hft : f ≠ t := by
      rintro rfl
      rw [hfpos] at htpos
      have hlen := congrArg (List.length ∘ Prod.snd) (Option.some.inj htpos)
      rw [Function.comp_apply, Function.comp_apply, path_length,
        take_path_length (by omega)] at hlen
      omega
    refine not_freesPage_of_link hI.list hf hexp ?_
    rw [hsame]
    refine congrArg BitVec.toNat (load64_congr (heq.mono ?_))
    exact link_subset_page.trans
      (page_disjoint (hI.aligned hfr hfpos) htal hft).subset_compl_right

/-! ### Reachable trees -/

/-- **When `free_page` frees what it should**, at the mapped pages of every tree a run reaches:
where the walk down stops early exactly for a page that was given its physical address, and
where it gets through on the page's own indices neither for a page from `kalloc` nor over a
free list that is not empty. -/
theorem freePage_frees (b : Boot) (hw : b.Reaches w) (hr : root ∈ w.roots)
    (hf : translate w.mem root va = some f) :
    (StopsEarly w.mem root va →
      (FreesPage w root va (w.kernel.freePage root va) ↔ w.Explicit root va)) ∧
    (¬ StopsEarly w.mem root va → OwnIndices va → Harmless w.mem root f →
      ¬ w.Explicit root va ∨ w.kernel.pageFrameLinkedList ≠ 0 →
      ¬ FreesPage w root va (w.kernel.freePage root va)) := by
  obtain ⟨fs, pos, hI⟩ := hw.inv
  exact ⟨freesPage_iff_of_stopsEarly hI.list hf, hI.not_freesPage b.initial b.lt hr hf⟩

/-! ### Pages of the small world -/

/-- The page was given an address exactly if that address is not `0`. -/
lemma smallMapped_explicit (va : BitVec 64) {pa : BitVec 64} (hpa : pa.toNat < 2 ^ 36) :
    (smallMapped va pa).Explicit 4096 va ↔ pa ≠ 0 := by
  constructor
  · rintro ⟨μ, hμ, -, -, hne⟩
    rwa [smallMapped_pa μ hμ] at hne
  · intro hne
    obtain ⟨⟨fs, pos, hI, -⟩, ⟨f, hf, -⟩, -⟩ := smallMapped_spec va hpa
    obtain ⟨μ, hμ, hroot, hvpn⟩ := hI.recorded (smallMapped_root va pa) hf
    exact ⟨μ, hμ, hroot, hvpn, smallMapped_pa μ hμ ▸ hne⟩

/-- A page from `kalloc` that `free_page` does not put back: the walk down stops at root
entry 0. -/
theorem freePage_leaks :
    smallBoot.Reaches (smallMapped 0x8000000000 0) ∧ 4096 ∈ (smallMapped 0x8000000000 0).roots ∧
      (∃ f, translate (smallMapped 0x8000000000 0).mem 4096 0x8000000000 = some f) ∧
      ¬ FreesPage (smallMapped 0x8000000000 0) 4096 0x8000000000
        ((smallMapped 0x8000000000 0).kernel.freePage 4096 0x8000000000) := by
  have hpa : (0 : BitVec 64).toNat < 2 ^ 36 := by decide
  obtain ⟨⟨fs, pos, hI, -⟩, ⟨f, hf, -⟩, -⟩ := smallMapped_spec 0x8000000000 hpa
  have hstop := smallMapped_far_stopsEarly hpa
  refine ⟨smallMapped_reaches _ hpa, smallMapped_root _ _, ⟨f, hf⟩, fun h => ?_⟩
  rw [freesPage_iff_of_stopsEarly hI.list hf hstop, smallMapped_explicit _ hpa] at h
  exact h rfl

/-- A page at a given address, for which there is nothing to free. -/
theorem freePage_frees_small :
    FreesPage (smallMapped 0x8000000000 0xB000) 4096 0x8000000000
      ((smallMapped 0x8000000000 0xB000).kernel.freePage 4096 0x8000000000) := by
  obtain ⟨-, ⟨f, hf, -⟩, -⟩ := smallMapped_spec 0x8000000000 smallPage_lt
  have hstop := smallMapped_far_stopsEarly smallPage_lt
  have hfrees := freePage_frees smallBoot (smallMapped_reaches _ smallPage_lt)
    (smallMapped_root _ _) hf
  exact (hfrees.1 hstop).mpr ((smallMapped_explicit _ smallPage_lt).mpr (by decide))

end SkinnyArm
