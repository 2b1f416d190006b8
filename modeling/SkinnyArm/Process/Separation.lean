import SkinnyArm.Process.Shared

/-!
What page trees and processes leave of each other's memory.

* `Shared.Keeps`: the slots keep their frames, the pages their translations, and the bytes of every
  data page and of every frame of a process their values.
* **A quiet step**, which is no write of an owner's, keeps everything (`SharedInv.keeps_quiet`): it
  writes free frames and tables only.
* `shared_keeps`: so does every quiet run, from any state there is in a run.
-/

namespace SkinnyArm

open ByteMemory Forest

variable {frames fs : List ℕ} {pos : Pos} {f : ℕ}

/-! ### Keeping -/

/-- Everybody keeps what is his: the slots their frames, the pages their translations, and the bytes
of a data page, of a process's frame and outside the frames their values. -/
structure Shared.Keeps (frames : List ℕ) (s s' : Shared) : Prop where
  roots : ∀ r ∈ s.roots, r ∈ s'.roots
  mapped : ∀ μ ∈ s.mapped, μ ∈ s'.mapped
  slots : ∀ i f, (s.system.processArray i).Has f → (s'.system.processArray i).Has f
  translated : ∀ r ∈ s.roots, ∀ va f, translate s.world.mem r va = some f →
    translate s'.world.mem r va = some f
  bytes : ∀ x, s.world.Writable (s.treeFrames frames) x → s'.world.mem x = s.world.mem x

lemma Shared.Keeps.refl (s : Shared) : s.Keeps frames s :=
  ⟨fun _ h => h, fun _ h => h, fun _ _ h => h, fun _ _ _ _ h => h, fun _ _ => rfl⟩

/-- The bytes of a process's frame and those of a data page may be written. -/
lemma Shared.writable_of_mem_page {s : Shared} (hfr : InitialFrames frames) (hf : f ∈ frames)
    (howner : (∃ i, (s.system.processArray i).Has f) ∨ s.world.IsLeafFrame f) {x : ℕ}
    (hx : x ∈ page f) : s.world.Writable (s.treeFrames frames) x := by
  intro g hg hxg
  obtain ⟨hmem, hnone⟩ := Shared.mem_treeFrames.mp hg
  obtain rfl := eq_of_mem_page hfr hmem hf hxg hx
  rcases howner with ⟨i, hi⟩ | hleaf
  · exact absurd hi (hnone i)
  · exact hleaf

/-! ### Quiet steps -/

namespace SharedInv

variable {s s' s'' : Shared}

/-- A byte that may be written may be written afterwards. -/
lemma writable_of_keeps (h : SharedInv frames s fs pos) (hk : s.Keeps frames s') {x : ℕ}
    (hx : s.world.Writable (s.treeFrames frames) x) :
    s'.world.Writable (s'.treeFrames frames) x := by
  intro g hg hxg
  obtain ⟨hmem, hnone⟩ := Shared.mem_treeFrames.mp hg
  obtain ⟨μ, hμ, hpa, htr⟩ := hx g
    (Shared.mem_treeFrames.mpr ⟨hmem, fun i hi => hnone i (hk.slots i g hi)⟩) hxg
  have hroot : μ.root ∈ s.roots := (h.trees.mapped μ hμ).1
  exact ⟨μ, hk.mapped μ hμ, hpa, hk.translated μ.root hroot μ.va g htr⟩

lemma keeps_trans (h : SharedInv frames s fs pos) (hk : s.Keeps frames s')
    (hk' : s'.Keeps frames s'') : s.Keeps frames s'' where
  roots r hr := hk'.roots r (hk.roots r hr)
  mapped μ hμ := hk'.mapped μ (hk.mapped μ hμ)
  slots i f hf := hk'.slots i f (hk.slots i f hf)
  translated r hr va f hf :=
    hk'.translated r (hk.roots r hr) va f (hk.translated r hr va f hf)
  bytes x hx := (hk'.bytes x (h.writable_of_keeps hk hx)).trans (hk.bytes x hx)

/-- **A quiet step** keeps everything. -/
lemma keeps_quiet (h : SharedInv frames s fs pos) (hfr : InitialFrames frames)
    (hlt : ∀ f ∈ frames, f < 2 ^ 36) (hstep : s.Quiet s') : s.Keeps frames s' := by
  have hI := h.trees
  have hfr' : InitialFrames (s.treeFrames frames) := hfr.sublist List.filter_sublist
  have hlt' : ∀ f ∈ s.treeFrames frames, f < 2 ^ 36 := fun f hf =>
    hlt f (Shared.mem_treeFrames.mp hf).1
  have hfree : ∀ x, s.world.Writable (s.treeFrames frames) x → x ∈ outsideFrames fs :=
    fun x hx g hg => hI.notMem_free_of_writable hlt' hx hg
  cases hstep with
  | @newRoot f k' hk =>
      obtain ⟨rest, rfl, -⟩ := hI.list.kalloc hk
      obtain ⟨-, -, rfl⟩ := Kernel.kalloc_eq_some hk
      refine ⟨fun r hr => List.mem_cons_of_mem _ hr, fun _ hμ => hμ, fun _ _ hf => hf, ?_, ?_⟩
      · intro r hr va g hg
        exact (hI.walk_of_eqOn (fun ht _ => hI.eqOn_clear hfr' ht) hr
          (by rw [path_length])).trans hg
      · exact fun x hx => clear_eqOn (hfree x hx _ List.mem_cons_self)
  | call va kind hr =>
      refine ⟨fun _ hr => hr, fun _ hμ => World.mem_mapped_of_call hμ, fun _ _ hf => hf, ?_, ?_⟩
      · exact fun r hroot va' g hg => hI.translate_call_of_some hfr' hlt' hr va kind hroot hg
      · exact (hI.call_contents hfr' hlt' hr va kind).1
  | registers r => exact ⟨fun _ h => h, fun _ h => h, fun _ _ h => h, fun _ _ _ _ h => h,
      fun _ _ => rfl⟩
  | process hcompute hkill hrun =>
      have htakes := hrun.takesFree hcompute hkill hI.list h.current h.processes.pid
      refine ⟨fun _ hr => hr, fun _ hμ => hμ, htakes.kept, ?_, ?_⟩
      · intro r hr va g hg
        refine (hI.walk_of_eqOn (fun ht _ => ?_) hr (by rw [path_length])).trans hg
        exact htakes.outside.mono (hI.page_subset_outside hfr' ht)
      · exact fun x hx => htakes.outside (hfree x hx)

/-- **A quiet run** keeps everything. -/
lemma keeps_run (h : SharedInv frames s fs pos) (hfr : InitialFrames frames)
    (hlt : ∀ f ∈ frames, f < 2 ^ 36) (hrun : Run Shared.Quiet s s') : s.Keeps frames s' := by
  have hboth : (∃ fs pos, SharedInv frames s' fs pos) ∧ s.Keeps frames s' := by
    induction hrun with
    | refl => exact ⟨⟨fs, pos, h⟩, .refl s⟩
    | tail _ hstep ih =>
        obtain ⟨⟨fs', pos', h'⟩, hk⟩ := ih
        exact ⟨h'.step hfr hlt hstep.step, h.keeps_trans hk (h'.keeps_quiet hfr hlt hstep)⟩
  exact hboth.2

end SharedInv

/-- **Contents**: from any state of a run, over any further run of new roots, calls of
`get_physical_page` that name no physical address, and calls of processes, every translated page
keeps its translation, every slot in use its frames, and every data page, stack frame and trap frame
its bytes. -/
theorem shared_keeps {s₀ : System proccnt} {s s' : Shared} {junk : ℕ} (hboot : AtBoot s₀)
    (hlist : FreeList s₀.kernel frames) (hlt : ∀ f ∈ frames, f < 2 ^ 36)
    (hrun : Run (Shared.Step frames.tail) ⟨s₀.createFirstProcess junk, [], []⟩ s)
    (hquiet : Run Shared.Quiet s s') :
    s.Keeps frames.tail s' ∧ ∀ f ∈ frames.tail,
      (∃ i, (s.system.processArray i).Has f) ∨ s.world.IsLeafFrame f →
        Set.EqOn s'.world.mem s.world.mem (page f) := by
  have hfr := hlist.initialFrames.sublist (List.tail_sublist frames)
  have hlt' : ∀ f ∈ frames.tail, f < 2 ^ 36 := fun f hf => hlt f (List.mem_of_mem_tail hf)
  obtain ⟨fs, pos, h⟩ := (SharedInv.boot hboot hlist hlt junk).run hfr hlt' hrun
  have hk := h.keeps_run hfr hlt' hquiet
  exact ⟨hk, fun f hf howner x hx => hk.bytes x (Shared.writable_of_mem_page hfr hf howner hx)⟩

/-- A root and a child for the first of ten frames' processes. -/
theorem shared_keeps_ten : ∃ f k' s v, firstOfTen.kernel.kalloc = some (f, k') ∧
    ({ firstOfTen with kernel := k' } : System proccnt).sysFork = some (s, v) ∧
    Shared.Keeps (initFrames 4096 40960).tail ⟨firstOfTen, [], []⟩ ⟨s, [f], []⟩ ∧
      ∀ g ∈ (initFrames 4096 40960).tail,
        (∃ i, (firstOfTen.processArray i).Has g) ∨
          (⟨firstOfTen, [], []⟩ : Shared).world.IsLeafFrame g →
        Set.EqOn s.kernel.mem firstOfTen.kernel.mem (page g) := by
  obtain ⟨f, k', s, v, hk, hfork, hrun⟩ := firstOfTen_grows
  refine ⟨f, k', s, v, hk, hfork, ?_⟩
  have hboot : AtBoot (bootSystem smallKernel) := fun _ => rfl
  exact shared_keeps hboot smallKernel_freeList smallBoot.lt .refl hrun

end SkinnyArm
