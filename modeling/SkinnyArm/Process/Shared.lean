import SkinnyArm.PageTree.Memory
import SkinnyArm.Process.Resume

/-!
Page trees and processes over one allocator.

* `Shared` has the process table and the roots over one kernel.  Its steps are those of the page
  trees, over the frames that no process has, and the calls of the process that runs.
* `SharedInv` joins the two invariants: that of the trees over the frames that no process has, and
  that of the processes over the frames that are in no tree.
* `shared_places`: over every run each frame is in exactly one place of the two sides.
-/

namespace SkinnyArm

open ByteMemory Forest

variable {frames fs : List ℕ} {pos : Pos} {f : ℕ} {call : Call}

lemma InitialFrames.sublist {l : List ℕ} (h : InitialFrames frames) (hl : l.Sublist frames) :
    InitialFrames l :=
  ⟨h.nodup.sublist hl, fun f hf => h.ne_zero f (hl.subset hf),
    fun f hf => h.aligned f (hl.subset hf), fun f hf => h.lt f (hl.subset hf)⟩

lemma InitialFrames.pageSize_le (h : InitialFrames frames) (hf : f ∈ frames) : pageSize ≤ f :=
  Nat.le_of_dvd (Nat.pos_of_ne_zero (h.ne_zero f hf)) (h.aligned f hf)

/-! ### One kernel for both -/

/-- A slot in use has the frame. -/
def Process.Has {n : ℕ} (p : Process n) (f : ℕ) : Prop :=
  p.state ≠ .free ∧ (p.stackFrame = f ∨ p.trapFrame = f)

instance {n : ℕ} (p : Process n) (f : ℕ) : Decidable (p.Has f) :=
  inferInstanceAs (Decidable (_ ∧ _))

/-- The system, the roots taken from `kalloc`, and the calls that mapped a page. -/
structure Shared where
  system : System proccnt
  roots : List ℕ
  mapped : List Mapping

namespace Shared

/-- The page trees. -/
def world (s : Shared) : World := ⟨s.system.kernel, s.roots, s.mapped⟩

/-- The frames that no process has. -/
def treeFrames (s : Shared) (frames : List ℕ) : List ℕ :=
  frames.filter fun f => ∀ i, ¬ (s.system.processArray i).Has f

/-- The system with the page trees of a world. -/
def withWorld (s : Shared) (w : World) : Shared :=
  ⟨{ s.system with kernel := w.kernel }, w.roots, w.mapped⟩

/-- The steps over the given frames: a step of the page trees, where a write may also go to the
frames of a process, and what the process that runs does. -/
inductive Step (frames : List ℕ) : Shared → Shared → Prop
  | trees {s : Shared} {w' : World} (h : World.Step (s.treeFrames frames) s.world w') :
      Step frames s (s.withWorld w')
  | registers {s : Shared} (r : Registers) :
      Step frames s { s with system := { s.system with registers := r } }
  | process {s : Shared} {call : Call} {system' : System proccnt} (hcompute : call ≠ .compute)
      (hkill : call ≠ .kill 0) (h : call.Runs s.system system') :
      Step frames s { s with system := system' }

/-- The steps that are no write of an owner's, and name no physical address. -/
inductive Quiet : Shared → Shared → Prop
  | newRoot {s : Shared} {f : ℕ} {k' : Kernel} (h : s.system.kernel.kalloc = some (f, k')) :
      Quiet s ⟨{ s.system with kernel := k' }, f :: s.roots, s.mapped⟩
  | call {s : Shared} {root : ℕ} (va : BitVec 64) (kind : BitVec 8) (hr : root ∈ s.roots) :
      Quiet s (s.withWorld (s.world.call root va 0 kind))
  | registers {s : Shared} (r : Registers) :
      Quiet s { s with system := { s.system with registers := r } }
  | process {s : Shared} {call : Call} {system' : System proccnt} (hcompute : call ≠ .compute)
      (hkill : call ≠ .kill 0) (h : call.Runs s.system system') :
      Quiet s { s with system := system' }

lemma Quiet.step {s s' : Shared} (h : s.Quiet s') : Step frames s s' := by
  cases h with
  | newRoot h => exact .trees (.newRoot h)
  | call va kind hr => exact .trees (.call va 0 kind hr (by decide))
  | registers r => exact .registers r
  | process hcompute hkill h => exact .process hcompute hkill h

lemma mem_treeFrames {s : Shared} :
    f ∈ s.treeFrames frames ↔ f ∈ frames ∧ ∀ i, ¬ (s.system.processArray i).Has f := by
  simp [treeFrames]

end Shared

/-! ### What the process that runs does -/

section Calls

variable {s s' : System proccnt}

/-- The slots have the frames and the pids they had, and the kernel is as it was. -/
structure SameSlots (s s' : System proccnt) : Prop where
  kernel : s'.kernel = s.kernel
  owner : ∀ i, SameOwner (s'.processArray i) (s.processArray i)
  free_iff : ∀ i, (s'.processArray i).state = .free ↔ (s.processArray i).state = .free

/-- One slot was written, which is in use before and after. -/
lemma SameSlots.of_slot {i : Fin proccnt} (hkernel : s'.kernel = s.kernel)
    (howner : SameOwner (s'.processArray i) (s.processArray i))
    (hused : (s.processArray i).state ≠ .free) (hused' : (s'.processArray i).state ≠ .free)
    (hother : ∀ j, j ≠ i → s'.processArray j = s.processArray j) : SameSlots s s' := by
  refine ⟨hkernel, fun j => ?_, fun j => ?_⟩
  · rcases eq_or_ne j i with rfl | hj
    · exact howner
    · rw [hother j hj]
      exact .refl _
  · rcases eq_or_ne j i with rfl | hj
    · exact iff_of_false hused' hused
    · rw [hother j hj]

lemma SameSlots.has_iff (h : SameSlots s s') (i : Fin proccnt) :
    (s'.processArray i).Has f ↔ (s.processArray i).Has f := by
  simp only [Process.Has, ne_eq, h.free_iff i, (h.owner i).stackFrame, (h.owner i).trapFrame]

lemma SameSlots.holds_iff (h : SameSlots s s') {q : FramePlace} :
    q.Holds s' fs f ↔ q.Holds s fs f := by
  cases q with
  | freeList => exact Iff.rfl
  | stack i => simp only [FramePlace.Holds, ne_eq, h.free_iff i, (h.owner i).stackFrame]
  | trap i => simp only [FramePlace.Holds, ne_eq, h.free_iff i, (h.owner i).trapFrame]

/-- The free list is what no process has. -/
lemma FrameInv.mem_free_iff (h : FrameInv frames s fs) :
    f ∈ fs ↔ f ∈ frames ∧ ∀ i, ¬ (s.processArray i).Has f := by
  constructor
  · intro hf
    obtain ⟨q, -, huniq⟩ := h.place f (h.sub f hf)
    obtain rfl : .freeList = q := huniq .freeList hf
    refine ⟨h.sub f hf, fun i hi => ?_⟩
    rcases hi.2 with hstack | htrap
    · exact absurd (huniq (.stack i) ⟨hi.1, hstack⟩) (by simp)
    · exact absurd (huniq (.trap i) ⟨hi.1, htrap⟩) (by simp)
  · rintro ⟨hf, hnone⟩
    obtain ⟨q, hq, -⟩ := h.place f hf
    cases q with
    | freeList => exact hq
    | stack i => exact absurd ⟨hq.1, .inl hq.2⟩ (hnone i)
    | trap i => exact absurd ⟨hq.1, .inr hq.2⟩ (hnone i)

lemma FrameInv.of_sameSlots (h : FrameInv frames s fs) (hsame : SameSlots s s') :
    FrameInv frames s' fs where
  list := by
    rw [hsame.kernel]
    exact h.list
  sub := h.sub
  place f hf := by
    simp only [hsame.holds_iff]
    exact h.place f hf
  state := fun hfree => h.state ((hsame.free_iff 0).mp hfree)
  pid := (hsame.owner 0).pid.trans h.pid

/-- A call but `sys_fork` takes no frame, where a process in use runs and the first slot has
pid 0. -/
lemma Call.Runs.sameSlots (h : call.Runs s s') (hcompute : call ≠ .compute)
    (hkill : call ≠ .kill 0) (hfork : call ≠ .fork)
    (hcurrent : (s.processArray s.current).state ≠ .free) (hpid : (s.processArray 0).pid = 0) :
    SameSlots s s' := by
  cases h with
  | compute => exact absurd rfl hcompute
  | fork => exact absurd rfl hfork
  | scheduler hs =>
      obtain ⟨hself, hother⟩ := scheduler_saves hs
      obtain ⟨j, hj, -⟩ := s.scheduler_eq
      obtain rfl := Option.some.inj ((hs 2 le_rfl).symm.trans (hj 2 le_rfl))
      refine .of_slot rfl ?_ hcurrent ?_ hother
      · rw [hself]
        exact ⟨rfl, rfl, rfl, rfl, rfl⟩
      · rw [hself]
        simp
  | sleep lk =>
      have hself : (s.sleep lk).processArray s.current =
          { s.processArray s.current with state := .waiting, waitOn := lk } :=
        System.processArray_setProcess_self _
      refine .of_slot rfl ?_ hcurrent ?_ fun i hi => System.processArray_setProcess_of_ne _ hi
      · rw [hself]
        exact ⟨rfl, rfl, rfl, rfl, rfl⟩
      · rw [hself]
        simp
  | wakeup lk =>
      have htable : ∀ i, (s.wakeup lk).processArray i =
          if (s.processArray i).WaitsOn lk then
            { s.processArray i with state := .runnable, waitOn := 0 }
          else s.processArray i := fun _ => rfl
      refine ⟨rfl, fun i => ?_, fun i => ?_⟩
      · rw [htable]
        split_ifs
        · exact ⟨rfl, rfl, rfl, rfl, rfl⟩
        · exact .refl _
      · rw [htable]
        split_ifs with hwaits
        · exact iff_of_false (by simp) (by simp [hwaits.1])
        · exact Iff.rfl
  | kill pid =>
      have hne : (s.processArray 0).pid ≠ pid := fun he => hkill (by rw [← he, hpid])
      rw [System.killProcess_of_ne hne]
      exact ⟨rfl, fun _ => .refl _, fun _ => Iff.rfl⟩

/-- A call leaves every slot its frames and writes free frames only, and what a slot gets was
free. -/
structure TakesFree (s s' : System proccnt) (fs : List ℕ) : Prop where
  kept : ∀ i f, (s.processArray i).Has f → (s'.processArray i).Has f
  taken : ∀ i f, (s'.processArray i).Has f → (s.processArray i).Has f ∨ f ∈ fs
  outside : Set.EqOn s'.kernel.mem s.kernel.mem (outsideFrames fs)

/-- Slots and frames that `sys_fork` leaves to a free slot. -/
lemma TakesFree.of_setProcess {i : Fin proccnt} {p : Process proccnt} {k : Kernel}
    (hi : (s.processArray i).state = .free) (hp : ∀ f, p.Has f → f ∈ fs)
    (hmem : Set.EqOn k.mem s.kernel.mem (outsideFrames fs)) :
    TakesFree s { s.setProcess i p with kernel := k } fs where
  kept j f hf := by
    have hj : j ≠ i := by
      rintro rfl
      exact hf.1 hi
    have hslot : (s.setProcess i p).processArray j = s.processArray j :=
      System.processArray_setProcess_of_ne p hj
    show ((s.setProcess i p).processArray j).Has f
    rw [hslot]
    exact hf
  taken j f hf := by
    have hf' : ((s.setProcess i p).processArray j).Has f := hf
    rcases eq_or_ne j i with rfl | hj
    · rw [System.processArray_setProcess_self] at hf'
      exact .inr (hp f hf')
    · rw [System.processArray_setProcess_of_ne p hj] at hf'
      exact .inl hf'
  outside := hmem

/-- **`sys_fork`**. -/
lemma TakesFree.of_sysFork (hlist : FreeList s.kernel fs) {v : Option ℤ}
    (h : s.sysFork = some (s', v)) : TakesFree s s' fs := by
  have hclear : ∀ {k k' : Kernel} {f : ℕ}, k.kalloc = some (f, k') → f ∈ fs →
      Set.EqOn k'.mem k.mem (outsideFrames fs) := fun hk hf => by
    obtain ⟨-, -, rfl⟩ := Kernel.kalloc_eq_some hk
    exact clear_eqOn.mono (outsideFrames_subset hf)
  cases System.forks_of_sysFork h with
  | full => exact ⟨fun _ _ hf => hf, fun _ _ hf => .inl hf, fun _ _ => rfl⟩
  | noStack => exact ⟨fun _ _ hf => hf, fun _ _ hf => .inl hf, fun _ _ => rfl⟩
  | @noTrap i stackFrame k₁ hi h₁ h₂ =>
      obtain ⟨rfl, -⟩ := hlist.kfree_kalloc h₁ h₂
      refine .of_setProcess hi (fun f hf => absurd hi hf.1) ?_
      have hfreed : Set.EqOn (k₁.kfree (.held stackFrame)).mem k₁.mem (page stackFrame)ᶜ :=
        Kernel.kfree_eqOn rfl trivial
      exact (hfreed.mono (outsideFrames_subset (by simp))).trans (hclear h₁ (by simp))
  | @child i stackFrame trapFrame k₁ k₂ caller pid hi h₁ h₂ =>
      obtain ⟨rest₁, rfl, hrest₁⟩ := hlist.kalloc h₁
      obtain ⟨rest, rfl, -⟩ := hrest₁.kalloc h₂
      refine .of_setProcess hi (fun f hf => ?_) ?_
      · rcases hf.2 with rfl | rfl
        · simp [forkedProcess]
        · simp [forkedProcess]
      · have hcopy : Set.EqOn (strcpy k₂.mem caller.stackFrame stackFrame pageSize) k₂.mem
            (outsideFrames (stackFrame :: trapFrame :: rest)) := by
          rw [strcpy_eq _ _ _ _ (by norm_num)]
          intro x hx
          refine store8_of_ne ?_
          rintro rfl
          exact hx x (by simp) (by simp [pageSize])
        exact (hcopy.trans (hclear h₂ (by simp))).trans (hclear h₁ (by simp))

/-- **A call** that is not `kill_process(0)`. -/
lemma Call.Runs.takesFree (h : call.Runs s s') (hcompute : call ≠ .compute)
    (hkill : call ≠ .kill 0) (hlist : FreeList s.kernel fs)
    (hcurrent : (s.processArray s.current).state ≠ .free) (hpid : (s.processArray 0).pid = 0) :
    TakesFree s s' fs := by
  by_cases hfork : call = .fork
  · subst hfork
    cases h with
    | fork h => exact .of_sysFork hlist h
  · have hsame := h.sameSlots hcompute hkill hfork hcurrent hpid
    exact ⟨fun i f hf => (hsame.has_iff i).mpr hf, fun i f hf => .inl ((hsame.has_iff i).mp hf),
      fun x _ => by rw [hsame.kernel]⟩

/-- After a call a process in use runs. -/
lemma Call.Runs.current_used (h : call.Runs s s') (hkill : call ≠ .kill 0)
    (hcurrent : (s.processArray s.current).state ≠ .free) (hpid : (s.processArray 0).pid = 0) :
    (s'.processArray s'.current).state ≠ .free := by
  by_cases hscheduler : call = .scheduler
  · subst hscheduler
    cases h with
    | scheduler hs =>
        obtain ⟨-, -, hrunnable⟩ := scheduler_loads hs
        simp [hrunnable]
  · have hspare : call.Spares s s.current := fun pid he _ hpid' =>
      hkill (by rw [he, ← hpid', hpid])
    obtain ⟨hkept, hsame⟩ := h.slotKept hscheduler hspare hcurrent
    rw [hsame]
    exact hkept.used

/-- A call keeps the invariant of the processes' frames. -/
lemma FrameInv.runs (h : FrameInv frames s fs) (hrun : call.Runs s s') (hcompute : call ≠ .compute)
    (hkill : call ≠ .kill 0) (hcurrent : (s.processArray s.current).state ≠ .free) :
    ∃ fs', FrameInv frames s' fs' := by
  by_cases hfork : call = .fork
  · subst hfork
    cases hrun with
    | fork hfork => exact h.sysFork hfork
  · exact ⟨fs, h.of_sameSlots (hrun.sameSlots hcompute hkill hfork hcurrent h.pid)⟩

end Calls

/-! ### The two invariants -/

/-- A frame of a tree has no byte of a free one. -/
lemma Inv.page_subset_outside {w : World} (hI : Inv frames w fs pos) (hfr : InitialFrames frames)
    {x : ℕ × List (Fin 512)} (hf : pos f = some x) : page f ⊆ outsideFrames fs := by
  intro y hy g hg hyg
  obtain rfl := eq_of_mem_page hfr (hI.mem_frames hf) ((hI.free_iff g).mp hg).1 hy hyg
  exact hI.notMem_free hf hg

/-- **The invariant**: the frames that no process has are in the trees or free, those in no tree
are a process's or free, and a process in use runs. -/
structure SharedInv (frames : List ℕ) (s : Shared) (fs : List ℕ) (pos : Pos) : Prop where
  trees : Inv (s.treeFrames frames) s.world fs pos
  processes : FrameInv (frames.filter fun f => pos f = none) s.system fs
  current : (s.system.processArray s.system.current).state ≠ .free

namespace SharedInv

variable {s s' : Shared} {w' : World}

/-- A process's frame is in no tree. -/
lemma pos_of_has (h : SharedInv frames s fs pos) {i : Fin proccnt}
    (hi : (s.system.processArray i).Has f) : pos f = none := by
  by_contra hne
  obtain ⟨x, hx⟩ := Option.ne_none_iff_exists'.mp hne
  exact (Shared.mem_treeFrames.mp (h.trees.mem_frames hx)).2 i hi

/-- **A step of the page trees** takes free frames for them. -/
lemma trees_step (h : SharedInv frames s fs pos) (hfr : InitialFrames frames)
    (hlt : ∀ f ∈ frames, f < 2 ^ 36) (hstep : World.Step (s.treeFrames frames) s.world w') :
    ∃ fs' pos', SharedInv frames (s.withWorld w') fs' pos' := by
  have hsub : ∀ f ∈ s.treeFrames frames, f ∈ frames := fun f hf => (Shared.mem_treeFrames.mp hf).1
  have hfr' : InitialFrames (s.treeFrames frames) := hfr.sublist List.filter_sublist
  obtain ⟨fs', pos', hI⟩ := h.trees.step hfr' (fun f hf => hlt f (hsub f hf)) hstep
  refine ⟨fs', pos', hI, ?_, h.current⟩
  constructor
  case list => exact hI.list
  case sub =>
    intro f hf
    obtain ⟨hmem, hnone⟩ := (hI.free_iff f).mp hf
    simp [hsub f hmem, hnone]
  case place =>
    intro f hf
    simp only [List.mem_filter, decide_eq_true_eq] at hf
    by_cases hmem : f ∈ s.treeFrames frames
    · refine ⟨.freeList, (hI.free_iff f).mpr ⟨hmem, hf.2⟩, fun q hq => ?_⟩
      cases q with
      | freeList => rfl
      | stack i => exact absurd ⟨hq.1, .inl hq.2⟩ ((Shared.mem_treeFrames.mp hmem).2 i)
      | trap i => exact absurd ⟨hq.1, .inr hq.2⟩ ((Shared.mem_treeFrames.mp hmem).2 i)
    · -- the frame is a process's, and stays in its place
      have hnotfree : f ∉ fs' := fun hfree => hmem ((hI.free_iff f).mp hfree).1
      obtain ⟨i, hi⟩ : ∃ i, (s.system.processArray i).Has f := by
        simpa [Shared.mem_treeFrames, hf.1] using hmem
      have hold : f ∈ frames.filter fun f => pos f = none := by simp [hf.1, h.pos_of_has hi]
      obtain ⟨q, hq, huniq⟩ := h.processes.place f hold
      have hfree : f ∉ fs := fun hfree => hmem ((h.trees.free_iff f).mp hfree).1
      refine ⟨q, ?_, fun q' hq' => huniq q' ?_⟩
      · cases q with
        | freeList => exact absurd hq hfree
        | stack i => exact hq
        | trap i => exact hq
      · cases q' with
        | freeList => exact absurd hq' hnotfree
        | stack i => exact hq'
        | trap i => exact hq'
  case state => exact h.processes.state
  case pid => exact h.processes.pid

/-- **A call of a process** takes free frames for it. -/
lemma process_step (h : SharedInv frames s fs pos) (hfr : InitialFrames frames)
    {system' : System proccnt} (hcompute : call ≠ .compute) (hkill : call ≠ .kill 0)
    (hrun : call.Runs s.system system') :
    ∃ fs', SharedInv frames { s with system := system' } fs' pos := by
  obtain ⟨fs', hF⟩ := h.processes.runs hrun hcompute hkill h.current
  have htakes := hrun.takesFree hcompute hkill h.trees.list h.current h.processes.pid
  refine ⟨fs', ?_, hF, hrun.current_used hkill h.current h.processes.pid⟩
  refine h.trees.reframe hF.list (fun f => ?_) (fun {f x} hf => ?_) fun {t r p} ht _ => ?_
  · rw [hF.mem_free_iff, Shared.mem_treeFrames]
    simp [and_right_comm]
  · obtain ⟨hmem, hnone⟩ := Shared.mem_treeFrames.mp (h.trees.mem_frames hf)
    refine Shared.mem_treeFrames.mpr ⟨hmem, fun i hi => ?_⟩
    rcases htakes.taken i f hi with hold | hfree
    · exact hnone i hold
    · exact h.trees.notMem_free hf hfree
  · exact htakes.outside.mono (h.trees.page_subset_outside (hfr.sublist List.filter_sublist) ht)

/-- **Every step** keeps the invariant. -/
lemma step (h : SharedInv frames s fs pos) (hfr : InitialFrames frames)
    (hlt : ∀ f ∈ frames, f < 2 ^ 36) (hstep : s.Step frames s') :
    ∃ fs' pos', SharedInv frames s' fs' pos' := by
  cases hstep with
  | trees hw => exact h.trees_step hfr hlt hw
  | registers r => exact ⟨fs, pos, h.trees, ⟨h.processes.list, h.processes.sub, h.processes.place,
      h.processes.state, h.processes.pid⟩, h.current⟩
  | process hcompute hkill hrun =>
      obtain ⟨fs', h'⟩ := h.process_step hfr hcompute hkill hrun
      exact ⟨fs', pos, h'⟩

/-- **Every run** keeps the invariant. -/
lemma run (h : SharedInv frames s fs pos) (hfr : InitialFrames frames)
    (hlt : ∀ f ∈ frames, f < 2 ^ 36) (hrun : Run (Shared.Step frames) s s') :
    ∃ fs' pos', SharedInv frames s' fs' pos' := by
  refine hrun.invariant (I := fun s => ∃ fs pos, SharedInv frames s fs pos) ?_ ⟨fs, pos, h⟩
  rintro s s' ⟨fs, pos, h⟩ hstep
  exact h.step hfr hlt hstep

/-- After `create_first_process` no frame is in a tree, and all but the first two are free. -/
lemma boot {s₀ : System proccnt} (hboot : AtBoot s₀) (hlist : FreeList s₀.kernel frames)
    (hlt : ∀ f ∈ frames, f < 2 ^ 36) (junk : ℕ) :
    SharedInv frames.tail ⟨s₀.createFirstProcess junk, [], []⟩ (frames.drop 2)
      (fun _ => none) := by
  have hF : FrameInv frames.tail (s₀.createFirstProcess junk) (frames.drop 2) := by
    refine frameInv_createFirstProcess hboot hlist (fun f hf => ?_) fun f hf => ?_
    · rw [← List.drop_one]
      exact List.mem_of_mem_drop (i := 1) (by simpa using hf)
    · exact ⟨hlist.ne_zero (List.mem_of_mem_tail hf), mem_drop_two_iff hlist.nodup hf⟩
  let b : Boot := ⟨_, frames.drop 2, hF.list, fun f hf => hlt f (List.mem_of_mem_drop hf)⟩
  refine ⟨b.inv.reframe hF.list (fun f => ?_) (fun hf => ?_) fun _ _ _ _ => rfl, ?_, ?_⟩
  · rw [hF.mem_free_iff, Shared.mem_treeFrames]
    simp
  · exact absurd hf (by simp)
  · simpa using hF
  · exact hF.state

end SharedInv

/-! ### Places -/

/-- A place for a frame: the free list or a page tree, or a frame of a slot in use. -/
inductive SharedPlace where
  | trees (p : Place)
  | stack (i : Fin proccnt)
  | trap (i : Fin proccnt)

/-- A frame is in a place. -/
def Shared.Occupies (s : Shared) (fs : List ℕ) (f : ℕ) : SharedPlace → Prop
  | .trees p => s.world.Occupies fs f p
  | .stack i => (s.system.processArray i).state ≠ .free ∧ (s.system.processArray i).stackFrame = f
  | .trap i => (s.system.processArray i).state ≠ .free ∧ (s.system.processArray i).trapFrame = f

/-- What is in a place of the page trees is one of their frames. -/
lemma Inv.mem_of_occupies {w : World} (hI : Inv frames w fs pos) (hlt : ∀ f ∈ frames, f < 2 ^ 36)
    {p : Place} (h : w.Occupies fs f p) : f ∈ frames := by
  cases p with
  | free k => exact ((hI.free_iff f).mp (List.mem_of_getElem? h)).1
  | root k => exact hI.mem_frames (hI.occupies_root h)
  | table t i =>
      obtain ⟨r, q, -, hf⟩ := hI.occupies_table h
      exact hI.mem_frames hf.2
  | leaf t i =>
      obtain ⟨r, q, -, hf⟩ := hI.occupies_leaf hlt h
      exact hI.mem_frames hf.2

namespace SharedInv

variable {s : Shared}

/-- Every frame is in a place. -/
lemma exists_occupies (h : SharedInv frames s fs pos) (hf : f ∈ frames) :
    ∃ p, s.Occupies fs f p := by
  by_cases hmem : f ∈ s.treeFrames frames
  · obtain ⟨p, hp⟩ := h.trees.exists_occupies hmem
    exact ⟨.trees p, hp⟩
  · obtain ⟨i, hi⟩ : ∃ i, (s.system.processArray i).Has f := by
      simpa [Shared.mem_treeFrames, hf] using hmem
    rcases hi.2 with hstack | htrap
    · exact ⟨.stack i, hi.1, hstack⟩
    · exact ⟨.trap i, hi.1, htrap⟩

/-- No frame is in two places. -/
lemma occupies_unique (h : SharedInv frames s fs pos) (hlt : ∀ f ∈ frames, f < 2 ^ 36)
    (hf : f ∈ frames) {p p' : SharedPlace} (hp : s.Occupies fs f p) (hp' : s.Occupies fs f p') :
    p = p' := by
  have hlt' : ∀ f ∈ s.treeFrames frames, f < 2 ^ 36 := fun f hf =>
    hlt f (Shared.mem_treeFrames.mp hf).1
  -- what is in a tree or free is no process's
  have hapart : ∀ {p : Place} {i}, s.world.Occupies fs f p → ¬ (s.system.processArray i).Has f :=
    fun {p i} hp => (Shared.mem_treeFrames.mp (h.trees.mem_of_occupies hlt' hp)).2 i
  -- the processes' places are those of `FramePlace`
  have hplaces : ∀ {q q' : FramePlace} {i}, (s.system.processArray i).Has f →
      q.Holds s.system fs f → q'.Holds s.system fs f → q = q' := fun hi hq hq' =>
    (h.processes.place f (by simp [hf, h.pos_of_has hi])).unique hq hq'
  cases p with
  | trees p =>
      cases p' with
      | trees p' => rw [h.trees.occupies_unique hlt' hp hp']
      | stack i => exact absurd ⟨hp'.1, .inl hp'.2⟩ (hapart hp)
      | trap i => exact absurd ⟨hp'.1, .inr hp'.2⟩ (hapart hp)
  | stack i =>
      have hi : (s.system.processArray i).Has f := ⟨hp.1, .inl hp.2⟩
      cases p' with
      | trees p' => exact absurd hi (hapart hp')
      | stack j =>
          have heq : FramePlace.stack i = .stack j := hplaces hi hp hp'
          simpa using heq
      | trap j =>
          have heq : FramePlace.stack i = .trap j := hplaces hi hp hp'
          exact absurd heq (by simp)
  | trap i =>
      have hi : (s.system.processArray i).Has f := ⟨hp.1, .inr hp.2⟩
      cases p' with
      | trees p' => exact absurd hi (hapart hp')
      | stack j =>
          have heq : FramePlace.trap i = .stack j := hplaces hi hp hp'
          exact absurd heq (by simp)
      | trap j =>
          have heq : FramePlace.trap i = .trap j := hplaces hi hp hp'
          simpa using heq

end SharedInv

/-- **Places**: over every run of page trees and processes from boot, every frame but the first is
in exactly one place: once on the free list, once in a page tree, or once with a process. -/
theorem shared_places {s₀ : System proccnt} {s : Shared} {junk : ℕ} (hboot : AtBoot s₀)
    (hlist : FreeList s₀.kernel frames) (hlt : ∀ f ∈ frames, f < 2 ^ 36)
    (hrun : Run (Shared.Step frames.tail) ⟨s₀.createFirstProcess junk, [], []⟩ s) :
    ∃ fs, FreeList s.system.kernel fs ∧
      ∀ f ∈ frames.tail, ∃! p : SharedPlace, s.Occupies fs f p := by
  have hlt' : ∀ f ∈ frames.tail, f < 2 ^ 36 := fun f hf => hlt f (List.mem_of_mem_tail hf)
  obtain ⟨fs, pos, h⟩ := (SharedInv.boot hboot hlist hlt junk).run
    (hlist.initialFrames.sublist (List.tail_sublist frames)) hlt' hrun
  refine ⟨fs, h.trees.list, fun f hf => ?_⟩
  obtain ⟨p, hp⟩ := h.exists_occupies hf
  exact ⟨p, hp, fun p' hp' => h.occupies_unique hlt' hf hp' hp⟩

/-- The first of ten frames' processes takes a root and forks. -/
lemma firstOfTen_grows : ∃ f k' s v, firstOfTen.kernel.kalloc = some (f, k') ∧
    ({ firstOfTen with kernel := k' } : System proccnt).sysFork = some (s, v) ∧
    Run Shared.Quiet ⟨firstOfTen, [], []⟩ ⟨s, [f], []⟩ := by
  obtain ⟨⟨f, k'⟩, hk⟩ : ∃ r, firstOfTen.kernel.kalloc = some r := by
    refine Option.ne_none_iff_exists'.mp fun hnone => ?_
    have hnil := processTable_firstOfTen.list.kalloc_eq_none.mp hnone
    exact absurd hnil (by decide)
  obtain ⟨s, v, hfork, -⟩ := System.sysFork_forks { firstOfTen with kernel := k' }
  have hroot : Shared.Quiet ⟨firstOfTen, [], []⟩ ⟨{ firstOfTen with kernel := k' }, [f], []⟩ :=
    .newRoot hk
  have hchild : Shared.Quiet ⟨{ firstOfTen with kernel := k' }, [f], []⟩ ⟨s, [f], []⟩ :=
    .process (by simp) (by simp) (.fork hfork)
  exact ⟨f, k', s, v, hk, hfork, (Relation.ReflTransGen.single hroot).tail hchild⟩

/-- The places after that. -/
theorem shared_places_ten : ∃ f k' s v, firstOfTen.kernel.kalloc = some (f, k') ∧
    ({ firstOfTen with kernel := k' } : System proccnt).sysFork = some (s, v) ∧
    ∃ fs, FreeList s.kernel fs ∧ ∀ g ∈ (initFrames 4096 40960).tail,
      ∃! p : SharedPlace, (⟨s, [f], []⟩ : Shared).Occupies fs g p := by
  obtain ⟨f, k', s, v, hk, hfork, hrun⟩ := firstOfTen_grows
  refine ⟨f, k', s, v, hk, hfork, ?_⟩
  have hboot : AtBoot (bootSystem smallKernel) := fun _ => rfl
  exact shared_places hboot smallKernel_freeList smallBoot.lt
    (hrun.lift id fun _ _ hstep => hstep.step)

end SkinnyArm
