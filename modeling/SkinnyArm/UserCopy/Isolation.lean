import SkinnyArm.Process.Shared
import SkinnyArm.UserCopy.Calls

/-!
What `copy_to_user` can do to others, where the root's own pages have frames from `kalloc`.

* `Foreign`: the bytes of the data pages of other roots, and those outside the frames but for the
  page at `NULL`.
* `Confined`: a world reached by steps of the page trees, in which every page keeps its translation
  and every foreign byte its value.
* **A call.** A lookup, of any address, and the store of a byte after it are such steps
  (`Inv.confined_copyFrame`): the byte goes to the page that was found or mapped, or next to `NULL`.
* `copyToUser_confined`: so is the whole copy, for every user address, buffer and size, and wherever
  the loop goes; next to processes their frames are foreign as well.
-/

namespace SkinnyArm

open ByteMemory Forest

variable {frames fs : List ℕ} {w W W' : World} {pos : Pos} {root r f g x : ℕ}
  {va offset user buffer size : BitVec 64} {v : BitVec 8}

/-- A byte of a data page of another root, or one outside the frames and not next to `NULL`. -/
def Foreign (frames : List ℕ) (w : World) (root x : ℕ) : Prop :=
  (∃ μ ∈ w.mapped, μ.root ≠ root ∧ μ.pa = 0 ∧
    ∃ f, translate w.mem μ.root μ.va = some f ∧ x ∈ page f) ∨
  x ∈ outsideFrames frames ∧ pageSize ≤ x

/-- Steps of the page trees that keep all translations and the foreign bytes, and name no physical
address for the root. -/
structure Confined (frames : List ℕ) (w : World) (root : ℕ) (W : World) : Prop where
  run : Run (World.Step frames) w W
  roots : W.roots = w.roots
  mapped : ∀ μ ∈ w.mapped, μ ∈ W.mapped
  own : ∀ μ ∈ W.mapped, μ.root = root → μ.pa = 0
  kept : ∀ r ∈ w.roots, ∀ va f, translate w.mem r va = some f → translate W.mem r va = some f
  bytes : ∀ x, Foreign frames w root x → W.mem x = w.mem x

namespace Confined

lemma refl (hown : ∀ μ ∈ w.mapped, μ.root = root → μ.pa = 0) : Confined frames w root w :=
  ⟨.refl, rfl, fun _ hμ => hμ, hown, fun _ _ _ _ hf => hf, fun _ _ => rfl⟩

/-- A foreign byte stays one. -/
lemma foreign (h : Confined frames w root W) (hI : Inv frames w fs pos)
    (hx : Foreign frames w root x) : Foreign frames W root x := by
  rcases hx with ⟨μ, hμ, hne, hpa, f, hf, hxf⟩ | hout
  · exact .inl ⟨μ, h.mapped μ hμ, hne, hpa, f, h.kept μ.root (hI.mapped μ hμ).1 μ.va f hf, hxf⟩
  · exact .inr hout

lemma trans (h : Confined frames w root W) (hI : Inv frames w fs pos)
    (h' : Confined frames W root W') : Confined frames w root W' where
  run := h.run.trans h'.run
  roots := h'.roots.trans h.roots
  mapped μ hμ := h'.mapped μ (h.mapped μ hμ)
  own := h'.own
  kept r hr va f hf := h'.kept r (h.roots ▸ hr) va f (h.kept r hr va f hf)
  bytes x hx := (h'.bytes x (h.foreign hI hx)).trans (h.bytes x hx)

end Confined

/-! ### A call -/

section Call

variable (hI : Inv frames w fs pos) (hfr : InitialFrames frames) (hlt : ∀ f ∈ frames, f < 2 ^ 36)
include hI hfr hlt

omit hfr in
/-- Where a foreign byte is: in the frame of a page of another root, or in no frame. -/
lemma Inv.place_of_foreign (hx : Foreign frames w root x) :
    (∃ r va f, r ≠ root ∧ pos f = some (r, path va) ∧ x ∈ page f) ∨
      x ∈ outsideFrames frames ∧ pageSize ≤ x := by
  rcases hx with ⟨μ, hμ, hne, hpa, f, hf, hxf⟩ | hout
  · obtain ⟨g, hg, htaken, -⟩ := hI.translate_mapped hlt hμ
    obtain rfl : f = g := Option.some.inj (hf.symm.trans hg)
    exact .inl ⟨μ.root, μ.va, f, hne, htaken hpa, hxf⟩
  · exact .inr hout

/-- A foreign byte is part of no table and no free frame, not next to `NULL`, and in no frame of a
page of the root. -/
lemma Inv.apart_of_foreign (hx : Foreign frames w root x) :
    w.Writable frames x ∧ pageSize ≤ x ∧ ∀ va g, pos g = some (root, path va) → x ∉ page g := by
  rcases hI.place_of_foreign hlt hx with ⟨r, va, f, hne, hpos, hxf⟩ | ⟨hout, hge⟩
  · refine ⟨hI.writable_of_pos hfr hlt hpos hxf, ?_, fun va' g hg hxg => ?_⟩
    · have hle : pageSize ≤ f := hfr.pageSize_le (hI.mem_frames hpos)
      exact hle.trans hxf.1
    · obtain rfl := eq_of_mem_page hfr (hI.mem_frames hpos) (hI.mem_frames hg) hxf hxg
      rw [hpos, Option.some.injEq, Prod.mk.injEq] at hg
      exact hne hg.1
  · exact ⟨fun g hg hxg => absurd hxg (hout g hg), hge, fun _ g hg => hout g (hI.mem_frames hg)⟩

variable (hown : ∀ μ ∈ w.mapped, μ.root = root → μ.pa = 0) (hr : root ∈ w.roots)

include hown hr in
/-- A lookup. -/
lemma Inv.confined_call (va : BitVec 64) : Confined frames w root (w.call root va 0 2) where
  run := .single (.call va 0 2 hr (by decide))
  roots := rfl
  mapped _ hμ := World.mem_mapped_of_call hμ
  own μ hμ := by
    rcases World.mem_mapped_call hμ with rfl | hold
    · exact fun _ => rfl
    · exact hown μ hold
  kept r hr' va' f hf := hI.translate_call_of_some hfr hlt hr va 2 hr' hf
  bytes x hx := (hI.call_contents hfr hlt hr va 2).1 x (hI.apart_of_foreign hfr hlt hx).1

omit hfr in
include hown in
/-- A store to a byte that may be written and is not foreign. -/
lemma Inv.confined_store (hx : w.Writable frames x) (hnot : ¬ Foreign frames w root x) :
    Confined frames w root
      { w with kernel := { w.kernel with mem := w.mem.store8 x v } } where
  run := .single (.write x v hx)
  roots := rfl
  mapped _ hμ := hμ
  own := hown
  kept r hr' va f hf := (hI.translate_store hlt v hx hr' va).trans hf
  bytes y hy := by
    refine store8_of_ne ?_
    rintro rfl
    exact hnot hy

include hr in
/-- What a lookup returns is `NULL`, or what the page is translated to afterwards. -/
lemma Inv.lookup_found (va : BitVec 64) :
    (w.kernel.getPhysicalPage root va 0 2).2 = 0 ∨
      translate (w.call root va 0 2).mem root va =
        some (w.kernel.getPhysicalPage root va 0 2).2 := by
  have hl : CallTranslates w root va 0 2 _ _ :=
    (hI.looked hfr hlt hr (by decide) : Looked frames w fs root va 0 2 3 _ _).callTranslates hI
  by_cases h0 : (w.kernel.getPhysicalPage root va 0 2).2 = 0
  · exact .inl h0
  · refine .inr ?_
    cases htr : translate w.mem root va with
    | some f =>
        obtain ⟨hf, -⟩ := hl.found f htr
        rw [hf]
        exact hI.translate_call_of_some hfr hlt hr va 2 hr htr
    | none => exact (hl.mapped htr h0).2.2.1

include hown hr in
/-- **A call**: the lookup of a page and the store of a byte in it. -/
lemma Inv.confined_copyFrame (va buffer size : BitVec 64) (hoff : offset.toNat < pageSize) :
    ∃ W, Confined frames w root W ∧
      W.kernel = (w.kernel.copyFrame .toUser root va offset buffer size).1 := by
  have hcall := hI.confined_call hfr hlt hown hr va
  obtain ⟨fs', pos', hI'⟩ := hI.call hfr hlt hr va 0 2 (by decide)
  have hlook := hI.lookup_found hfr hlt hr va
  have hkernel : (w.call root va 0 2).kernel = (w.kernel.getPhysicalPage root va 0 2).1 := rfl
  simp only [Kernel.copyFrame, Direction.dst, Direction.src, ← hkernel]
  generalize (w.kernel.getPhysicalPage root va 0 2).2 = g at hlook ⊢
  by_cases h0 : size = 0
  · subst h0
    refine ⟨w.call root va 0 2, hcall, ?_⟩
    rw [show (0 : BitVec 64).toNat = 0 from rfl, strcpy_zero]
  · rw [strcpy_eq _ _ _ _ (toNat_pos h0)]
    refine ⟨_, hcall.trans hI (hI'.confined_store hlt hcall.own ?_ ?_), rfl⟩
    · rcases hlook with rfl | hg
      · rw [BitVec.zero_add]
        exact writable_of_lt hfr hoff
      · have hpos := hI'.pos_of_own hlt hcall.own hr hg
        refine hI'.writable_of_pos hfr hlt hpos ?_
        rw [toNat_ofNat_add (hlt g (hI'.mem_frames hpos)) hoff]
        exact ⟨by omega, by omega⟩
    · intro hx
      obtain ⟨-, hge, hnot⟩ := hI'.apart_of_foreign hfr hlt hx
      rcases hlook with rfl | hg
      · rw [BitVec.zero_add] at hge
        omega
      · have hpos := hI'.pos_of_own hlt hcall.own hr hg
        refine hnot va g hpos ?_
        rw [toNat_ofNat_add (hlt g (hI'.mem_frames hpos)) hoff]
        exact ⟨by omega, by omega⟩

end Call

/-! ### The copy -/

/-- **The copy**, for as many rounds as it makes. -/
lemma Inv.confined_copyToUser (hI : Inv frames w fs pos) (hfr : InitialFrames frames)
    (hlt : ∀ f ∈ frames, f < 2 ^ 36) (hown : ∀ μ ∈ w.mapped, μ.root = root → μ.pa = 0)
    (hr : root ∈ w.roots) (buffer user size : BitVec 64) (rounds : ℕ) :
    ∃ W, Confined frames w root W ∧
      W.kernel = (w.kernel.copyToUser root buffer user size rounds).kernel := by
  refine Kernel.copyBefore_related (k := w.kernel) (d := .toUser)
    (R := fun c _ => ∃ W, Confined frames w root W ∧ W.kernel = c.1) (fun _ => rfl)
    ⟨w, .refl hown, rfl⟩ (rounds + 1) fun j _ _ hc => ?_
  obtain ⟨W, hW, hk⟩ := hc
  obtain ⟨fs', pos', hI'⟩ := hI.run hfr hlt hW.run
  obtain ⟨W', hW', hk'⟩ := hI'.confined_copyFrame hfr hlt hW.own (hW.roots ▸ hr)
    (w.kernel.copyArgs .toUser root user buffer size j).va
    (w.kernel.copyArgs .toUser root user buffer size j).buffer
    (w.kernel.copyArgs .toUser root user buffer size j).size
    (w.kernel.copyArgs_offset .toUser root user buffer size j)
  exact ⟨W', hW.trans hI hW', by rw [hk', hk]; rfl⟩

/-- A run of the page trees is one of the system. -/
lemma Shared.run_withWorld {s : Shared} (hrun : Run (World.Step (s.treeFrames frames)) s.world W) :
    Run (Shared.Step frames) s (s.withWorld W) := by
  induction hrun with
  | refl => exact .refl
  | @tail W W' _ hstep ih =>
      have hnext : Shared.Step frames (s.withWorld W) ((s.withWorld W).withWorld W') :=
        .trees hstep
      exact ih.tail hnext

/-- **Confinement**: in every state of a run of page trees and processes, whatever user address,
buffer and size `copy_to_user` is called with, and however long its loop runs, it does what steps of
the page trees do; no page of any root loses its translation, no data page of another root changes,
no frame of a process, and nothing outside the frames but the page at `NULL`. -/
theorem copyToUser_confined {s₀ : System proccnt} {s : Shared} {junk : ℕ} (hboot : AtBoot s₀)
    (hlist : FreeList s₀.kernel frames) (hlt : ∀ f ∈ frames, f < 2 ^ 36)
    (hrun : Run (Shared.Step frames.tail) ⟨s₀.createFirstProcess junk, [], []⟩ s)
    (hr : root ∈ s.roots) (hown : ∀ μ ∈ s.mapped, μ.root = root → μ.pa = 0)
    (buffer user size : BitVec 64) (rounds : ℕ) :
    ∃ W, W.kernel = (s.system.kernel.copyToUser root buffer user size rounds).kernel ∧
      Run (Shared.Step frames.tail) s (s.withWorld W) ∧
      Confined (s.treeFrames frames.tail) s.world root W ∧
      ∀ i, ∀ f ∈ frames.tail, (s.system.processArray i).Has f →
        Set.EqOn W.mem s.world.mem (page f) := by
  have hfr := hlist.initialFrames.sublist (List.tail_sublist frames)
  have hlt' : ∀ f ∈ frames.tail, f < 2 ^ 36 := fun f hf => hlt f (List.mem_of_mem_tail hf)
  obtain ⟨fs, pos, h⟩ := (SharedInv.boot hboot hlist hlt junk).run hfr hlt' hrun
  obtain ⟨W, hW, hk⟩ := h.trees.confined_copyToUser (hfr.sublist List.filter_sublist)
    (fun f hf => hlt' f (Shared.mem_treeFrames.mp hf).1) hown hr buffer user size rounds
  refine ⟨W, hk, Shared.run_withWorld hW.run, hW, fun i f hf hi x hx => hW.bytes x (.inr ⟨?_, ?_⟩)⟩
  · intro g hg hxg
    obtain ⟨hmem, hnone⟩ := Shared.mem_treeFrames.mp hg
    obtain rfl := eq_of_mem_page hfr hmem hf hxg hx
    exact hnone i hi
  · have hle : pageSize ≤ f := hfr.pageSize_le hf
    exact hle.trans hx.1

/-- A copy to a root without pages, next to two processes. -/
theorem copyToUser_confined_ten : ∃ f k' s v, firstOfTen.kernel.kalloc = some (f, k') ∧
    ({ firstOfTen with kernel := k' } : System proccnt).sysFork = some (s, v) ∧
    ∃ W, W.kernel = (s.kernel.copyToUser f 0xC000 0x10 0x2000 3).kernel ∧
      Run (Shared.Step (initFrames 4096 40960).tail) ⟨s, [f], []⟩
        (Shared.withWorld ⟨s, [f], []⟩ W) ∧
      Confined (Shared.treeFrames ⟨s, [f], []⟩ (initFrames 4096 40960).tail)
        ⟨s.kernel, [f], []⟩ f W ∧
      ∀ i, ∀ g ∈ (initFrames 4096 40960).tail, (s.processArray i).Has g →
        Set.EqOn W.mem s.kernel.mem (page g) := by
  obtain ⟨f, k', s, v, hk, hfork, hrun⟩ := firstOfTen_grows
  refine ⟨f, k', s, v, hk, hfork, ?_⟩
  have hboot : AtBoot (bootSystem smallKernel) := fun _ => rfl
  exact copyToUser_confined hboot smallKernel_freeList smallBoot.lt
    (hrun.lift id fun _ _ hstep => hstep.step) (by simp) (by simp) 0xC000 0x10 0x2000 3

end SkinnyArm
