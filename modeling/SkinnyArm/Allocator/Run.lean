import SkinnyArm.Allocator.Init
import SkinnyArm.Library.Pool

/-!
The allocator over whole runs of `kalloc` and `kfree`, with the owners writing into their frames
in between.

`AllocStep` is the step relation and `Refines` says that the linked list in memory represents a
pool of frames.  Every step of the allocator is a step of the pool (`refines_simulation`), so the
frames on the list and the frames handed out partition the frames there were at the start.
-/

namespace SkinnyArm

open ByteMemory

/-- The allocator's memory, and the frames handed out and not given back. -/
structure AllocState where
  kernel : Kernel
  allocated : List ℕ

/-- The steps of a run over the given frames: a successful or failed `kalloc`, a `kfree` of a
variable that holds an allocated frame and is not stored in it, and a write to any byte that is
not in a free frame. -/
inductive AllocStep (frames : List ℕ) : AllocState → AllocState → Prop
  | kalloc {s : AllocState} {f : ℕ} {k' : Kernel} (h : s.kernel.kalloc = some (f, k')) :
      AllocStep frames s ⟨k', f :: s.allocated⟩
  | kallocFail {s : AllocState} (h : s.kernel.kalloc = none) : AllocStep frames s s
  | kfree {s : AllocState} {pv : PageVar} {f : ℕ} (hpv : pv.deref s.kernel.mem = f)
      (hf : f ∈ s.allocated) (hout : pv.Outside f) :
      AllocStep frames s ⟨s.kernel.kfree pv, s.allocated.erase f⟩
  | write {s : AllocState} {a : ℕ} {v : BitVec 8}
      (ha : ∀ f ∈ frames, a ∈ page f → f ∈ s.allocated) :
      AllocStep frames s ⟨{ s.kernel with mem := s.kernel.mem.store8 a v }, s.allocated⟩

/-- The list in memory represents the pool. -/
structure Refines (frames : List ℕ) (s : AllocState) (p : Pool ℕ) : Prop where
  list : FreeList s.kernel p.free
  used : s.allocated = p.used
  perm : p.all.Perm frames

/-- Initial frames: those of the free list the run starts from. -/
structure InitialFrames (frames : List ℕ) : Prop where
  nodup : frames.Nodup
  ne_zero : ∀ f ∈ frames, f ≠ 0
  aligned : ∀ f ∈ frames, pageSize ∣ f
  lt : ∀ f ∈ frames, f < 2 ^ 64

lemma FreeList.initialFrames {k : Kernel} {fs : List ℕ} (h : FreeList k fs) :
    InitialFrames fs :=
  ⟨h.nodup, fun _ => h.ne_zero, h.aligned, h.lt⟩

variable {frames : List ℕ} {s s' : AllocState} {p : Pool ℕ}

/-- Every step of the allocator is a step of the pool, or none. -/
lemma refines_simulation (hfr : InitialFrames frames) :
    Simulation (Refines frames) (AllocStep frames) Pool.Step := by
  refine ⟨fun {s s' p} hR hstep => ?_⟩
  obtain ⟨hlist, hused, hperm⟩ := hR
  cases hstep with
  | kalloc h =>
      obtain ⟨rest, hfree, hrest⟩ := hlist.kalloc h
      obtain ⟨free, used⟩ := p
      simp only at hfree hused
      subst hfree
      exact ⟨⟨rest, _⟩, .single .take, hrest, by rw [hused], Pool.Step.take.perm.trans hperm⟩
  | kallocFail h => exact ⟨p, .refl, hlist, hused, hperm⟩
  | @kfree pv f hpv hf hout =>
      have hmem : f ∈ frames :=
        hperm.mem_iff.mp (List.mem_append_right _ (hused ▸ hf))
      have hfresh : f ∉ p.free := fun hff =>
        (Pool.mem_free_iff hperm hfr.nodup hmem).mp hff (hused ▸ hf)
      have hgive : Pool.Step p ⟨f :: p.free, p.used.erase f⟩ := .give (hused ▸ hf)
      exact ⟨_, .single hgive,
        hlist.kfree hpv hout hfresh (hfr.ne_zero f hmem) (hfr.aligned f hmem) (hfr.lt f hmem),
        by rw [hused], hgive.perm.trans hperm⟩
  | @write a v ha =>
      refine ⟨p, .refl, hlist.of_eqOn rfl fun f hf => store8_eqOn.mono ?_, hused, hperm⟩
      intro x hx hxa
      have hmem : f ∈ frames := hperm.mem_iff.mp (List.mem_append_left _ hf)
      have hxa' : x = a := by
        simp only [Set.mem_Ico] at hxa
        omega
      exact (Pool.mem_free_iff hperm hfr.nodup hmem).mp hf (hused ▸ ha f hmem (hxa' ▸ hx))

/-- **The allocator over a run**: the free list stays `NULL`-terminated and duplicate-free, the
free and the allocated frames partition the initial frames, `kalloc` fails exactly when every
frame is allocated, and what it returns is a zeroed frame that was not allocated. -/
theorem allocator_run {k₀ : Kernel} (h₀ : FreeList k₀ frames)
    (hrun : Run (AllocStep frames) ⟨k₀, []⟩ s) :
    ∃ free, FreeList s.kernel free ∧ free.Nodup ∧ (free ++ s.allocated).Perm frames ∧
      (s.kernel.kalloc = none ↔ ∀ f ∈ frames, f ∈ s.allocated) ∧
      ∀ f k', s.kernel.kalloc = some (f, k') →
        f ∈ frames ∧ f ∉ s.allocated ∧ ∀ x ∈ page f, k'.mem x = 0 := by
  have hinit : Refines frames ⟨k₀, []⟩ ⟨frames, []⟩ := ⟨h₀, rfl, by simp [Pool.all]⟩
  obtain ⟨p, hpool, hlist, hused, -⟩ :=
    (refines_simulation h₀.initialFrames).run hinit hrun
  have hperm : p.all.Perm frames := (Pool.run_perm hpool).trans (by simp [Pool.all])
  rw [hused]
  refine ⟨p.free, hlist, hlist.nodup, hperm, ?_, fun f k' hk => ?_⟩
  · rw [hlist.kalloc_eq_none, Pool.free_eq_nil_iff hperm h₀.nodup]
  · obtain ⟨rest, hfree, -⟩ := hlist.kalloc hk
    obtain ⟨rfl, -, rfl⟩ := Kernel.kalloc_eq_some hk
    have hff : s.kernel.pageFrameLinkedList ∈ p.free := by simp [hfree]
    have hmem := hperm.mem_iff.mp (List.mem_append_left _ hff)
    exact ⟨hmem, (Pool.mem_free_iff hperm h₀.nodup hmem).mp hff,
      fun x hx => clear_apply_of_mem hx⟩

/-- The small machine takes a frame, overwrites its link word and gives it back. -/
theorem allocator_run_small :
    let k : Kernel := { smallTaken with mem := smallTaken.mem.store8 4096 0xFF }
    ∃ free, FreeList (k.kfree (.held 4096)) free ∧ free.Nodup ∧
      (free ++ []).Perm (initFrames 4096 40960) ∧
      ((k.kfree (.held 4096)).kalloc = none ↔ ∀ f ∈ initFrames 4096 40960, f ∈ []) ∧
      ∀ f k', (k.kfree (.held 4096)).kalloc = some (f, k') →
        f ∈ initFrames 4096 40960 ∧ f ∉ [] ∧ ∀ x ∈ page f, k'.mem x = 0 := by
  intro k
  have hmem : ∀ f ∈ initFrames 4096 40960, 4096 ∈ page f → f ∈ [4096] := by
    intro f hf hx
    obtain ⟨i, -, rfl⟩ := List.mem_range'.mp hf
    simp only [Set.mem_Ico, pageSize] at hx
    simp only [List.mem_singleton, pageSize]
    omega
  have htake : AllocStep (initFrames 4096 40960) ⟨smallKernel, []⟩ ⟨smallTaken, [4096]⟩ :=
    .kalloc smallKernel_kalloc
  have hwrite : AllocStep (initFrames 4096 40960) ⟨smallTaken, [4096]⟩ ⟨k, [4096]⟩ := .write hmem
  have hgive : AllocStep (initFrames 4096 40960) ⟨k, [4096]⟩ ⟨k.kfree (.held 4096), []⟩ :=
    .kfree rfl (List.mem_singleton.mpr rfl) trivial
  exact allocator_run smallKernel_freeList
    (((Relation.ReflTransGen.single htake).tail hwrite).tail hgive)

end SkinnyArm
