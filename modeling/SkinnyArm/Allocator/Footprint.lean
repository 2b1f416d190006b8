import SkinnyArm.Allocator.Run
import SkinnyArm.Library.AArch64

/-!
What the allocator writes to, from `kalloc_init` on.

* **The links.** `kallocInitWrites` lists the stores of `kalloc_init` in order
  (`kallocInit_mem`): one into every frame from `kalloc_start` on, the frame at `NULL` excepted
  (`mem_kallocInitWrites`).
* **The calls.** `AllocCall` is a `kalloc` or a `kfree`, with nobody writing in between.  A run of
  calls changes bytes of the frames only (`eqOn_run`), and there is one that hands out every frame
  (`exists_run_allocated`).
* **The footprint.** So the allocator leaves a region of memory alone exactly if no frame overlaps
  it (`leavesAlone_iff`).
* **The bound.** The loop runs up to and including `kalloc_end`, so that on page-aligned bounds
  one frame too many is listed and linked (`kallocInit_overruns`).
-/

namespace SkinnyArm

open ByteMemory AArch64

variable {k k₀ : Kernel} {frames fs l : List ℕ} {s s' : AllocState} {p : Pool ℕ}
  {f kallocStart kallocEnd : ℕ} {region : Set ℕ}

/-! ### The stores of `kalloc_init` -/

/-- The stores of the loop of `kalloc_init` and of the one after it. -/
def loopWrites (kallocEnd previousFrame currentAddress : ℕ) : List (ℕ × BitVec 64) :=
  if currentAddress ≤ kallocEnd then
    (if previousFrame ≠ 0 then [(previousFrame, BitVec.ofNat 64 currentAddress)] else []) ++
      loopWrites kallocEnd currentAddress (currentAddress + pageSize)
  else [(previousFrame, 0)]
termination_by kallocEnd + 1 - currentAddress
decreasing_by simp only [pageSize]; omega

/-- The stores of `kalloc_init`. -/
def kallocInitWrites (kallocStart kallocEnd : ℕ) : List (ℕ × BitVec 64) :=
  if kallocStart + pageSize < kallocEnd then
    loopWrites kallocEnd kallocStart (kallocStart + pageSize)
  else []

lemma kallocInitLoop_eq (m : ByteMemory) (kallocEnd previousFrame currentAddress : ℕ) :
    kallocInitLoop m kallocEnd previousFrame currentAddress =
      storeWords m (loopWrites kallocEnd previousFrame currentAddress) := by
  induction m, previousFrame, currentAddress using kallocInitLoop.induct kallocEnd with
  | case1 m previousFrame currentAddress hle ih =>
      simp only [dite_eq_ite] at ih
      rw [kallocInitLoop, if_pos hle, loopWrites, if_pos hle, storeWords_append, ih]
      split_ifs
      all_goals rfl
  | case2 m previousFrame currentAddress hlt =>
      rw [kallocInitLoop, if_neg hlt, loopWrites, if_neg hlt]
      rfl

/-- `kalloc_init` makes its stores and no others. -/
lemma kallocInit_mem : (k.kallocInit kallocStart kallocEnd).mem =
    storeWords k.mem (kallocInitWrites kallocStart kallocEnd) := by
  rw [Kernel.kallocInit, kallocInitWrites]
  split_ifs
  · exact kallocInitLoop_eq _ _ _ _
  · rfl

/-- The loop stores into the frames from the previous one on. -/
lemma fst_loopWrites {e : ℕ} (n : ℕ) :
    ∀ prev, 0 < prev → prev + n * pageSize ≤ e → e < prev + (n + 1) * pageSize →
      (loopWrites e prev (prev + pageSize)).map Prod.fst = List.range' prev (n + 1) pageSize := by
  induction n with
  | zero =>
      intro prev _ _ hlt
      rw [loopWrites, if_neg (by simp only [pageSize] at *; omega)]
      rfl
  | succ n ih =>
      intro prev hpos hle hlt
      have hrest := ih (prev + pageSize) (by omega) (by simp only [pageSize] at *; omega)
        (by simp only [pageSize] at *; omega)
      rw [loopWrites, if_pos (by simp only [pageSize] at *; omega), if_pos hpos.ne',
        List.map_append, hrest, List.range'_succ]
      rfl

/-- A frame's first word is stored to by `kalloc_init`, unless the frame is at `NULL`. -/
lemma mem_kallocInitWrites (hlt : kallocStart + pageSize < kallocEnd) :
    f ∈ (kallocInitWrites kallocStart kallocEnd).map Prod.fst ↔
      f ≠ 0 ∧ f ∈ initFrames kallocStart kallocEnd := by
  rw [kallocInitWrites, if_pos hlt]
  rcases Nat.eq_zero_or_pos kallocStart with rfl | hpos
  · -- the first frame is at `NULL`: the loop starts over at the second
    obtain ⟨n, hn⟩ : ∃ n, kallocEnd / pageSize = n + 1 :=
      Nat.exists_eq_add_of_le' (by simp only [pageSize] at *; omega)
    have hrest := fst_loopWrites (e := kallocEnd) n pageSize (by norm_num [pageSize])
      (by simp only [pageSize] at *; omega) (by simp only [pageSize] at *; omega)
    rw [loopWrites, if_pos (by omega), if_neg (not_not.mpr rfl), List.nil_append, Nat.zero_add,
      hrest, initFrames, Nat.sub_zero, hn, List.range'_succ (s := 0), List.mem_cons, Nat.zero_add]
    constructor
    · intro hf
      refine ⟨?_, .inr hf⟩
      obtain ⟨i, -, rfl⟩ := List.mem_range'.mp hf
      simp only [pageSize]
      omega
    · rintro ⟨hne, hf⟩
      exact hf.resolve_left hne
  · rw [fst_loopWrites ((kallocEnd - kallocStart) / pageSize) kallocStart hpos
      (by simp only [pageSize] at *; omega) (by simp only [pageSize] at *; omega), initFrames]
    refine ⟨fun hf => ⟨?_, hf⟩, fun hf => hf.2⟩
    obtain ⟨i, -, rfl⟩ := List.mem_range'.mp hf
    omega

/-- `kalloc_init` changes bytes of the frames only. -/
lemma kallocInit_eqOn (hlt : kallocStart + pageSize < kallocEnd) :
    Set.EqOn (k.kallocInit kallocStart kallocEnd).mem k.mem
      {x | ∀ f ∈ initFrames kallocStart kallocEnd, x ∉ page f} := by
  intro x hx
  rw [kallocInit_mem]
  refine storeWords_apply_of_notMem fun e he hxe => ?_
  have hframe := ((mem_kallocInitWrites hlt).mp (List.mem_map_of_mem he)).2
  exact hx e.1 hframe (link_subset_page hxe)

/-! ### Runs of calls -/

/-- A call of `kalloc` or `kfree`. -/
inductive AllocCall : AllocState → AllocState → Prop
  | kalloc {s : AllocState} {f : ℕ} {k' : Kernel} (h : s.kernel.kalloc = some (f, k')) :
      AllocCall s ⟨k', f :: s.allocated⟩
  | kallocFail {s : AllocState} (h : s.kernel.kalloc = none) : AllocCall s s
  | kfree {s : AllocState} {pv : PageVar} {f : ℕ} (hpv : pv.deref s.kernel.mem = f)
      (hf : f ∈ s.allocated) (hout : pv.Outside f) :
      AllocCall s ⟨s.kernel.kfree pv, s.allocated.erase f⟩

/-- Calls are steps of the allocator. -/
lemma AllocCall.step (h : AllocCall s s') : AllocStep frames s s' := by
  cases h with
  | kalloc h => exact .kalloc h
  | kallocFail h => exact .kallocFail h
  | kfree hpv hf hout => exact .kfree hpv hf hout

lemma Refines.mem_free (hR : Refines frames s p) (hf : f ∈ p.free) : f ∈ frames :=
  hR.perm.mem_iff.mp (List.mem_append_left _ hf)

lemma Refines.mem_allocated (hR : Refines frames s p) (hf : f ∈ s.allocated) : f ∈ frames :=
  hR.perm.mem_iff.mp (List.mem_append_right _ (hR.used ▸ hf))

/-- A call changes bytes of the frames only. -/
lemma AllocCall.eqOn (hR : Refines frames s p) (h : AllocCall s s') :
    Set.EqOn s'.kernel.mem s.kernel.mem {x | ∀ f ∈ frames, x ∉ page f} := by
  cases h with
  | @kalloc f k' h =>
      obtain ⟨rfl, hne, rfl⟩ := Kernel.kalloc_eq_some h
      exact clear_eqOn.mono fun x hx => hx _ (hR.mem_free (hR.list.head_mem hne))
  | kallocFail h => exact Set.eqOn_refl _ _
  | kfree hpv hf hout =>
      exact (Kernel.kfree_eqOn hpv hout).mono fun x hx => hx _ (hR.mem_allocated hf)

/-- **A run of calls** changes bytes of the frames only, and hands out frames only. -/
lemma eqOn_run (h₀ : FreeList k₀ frames) (hrun : Run AllocCall ⟨k₀, []⟩ s) :
    Set.EqOn s.kernel.mem k₀.mem {x | ∀ f ∈ frames, x ∉ page f} ∧
      ∀ f ∈ s.allocated, f ∈ frames := by
  have hinv : (∃ p, Refines frames s p) ∧
      Set.EqOn s.kernel.mem k₀.mem {x | ∀ f ∈ frames, x ∉ page f} := by
    refine Run.invariant (I := fun s => (∃ p, Refines frames s p) ∧
      Set.EqOn s.kernel.mem k₀.mem {x | ∀ f ∈ frames, x ∉ page f}) ?_ hrun ?_
    · rintro s s' ⟨⟨p, hR⟩, heq⟩ hcall
      obtain ⟨p', -, hR'⟩ := (refines_simulation h₀.initialFrames).match_step hR hcall.step
      exact ⟨⟨p', hR'⟩, (hcall.eqOn hR).trans heq⟩
    · exact ⟨⟨⟨frames, []⟩, h₀, rfl, by simp [Pool.all]⟩, Set.eqOn_refl _ _⟩
  obtain ⟨⟨p, hR⟩, heq⟩ := hinv
  exact ⟨heq, fun f hf => hR.mem_allocated hf⟩

/-- Some run of calls hands out the whole list. -/
lemma exists_run_allocated (h : FreeList k fs) :
    ∃ s, Run AllocCall ⟨k, l⟩ s ∧ fs ++ l ⊆ s.allocated := by
  induction fs generalizing k l with
  | nil => exact ⟨_, .refl, fun f hf => hf⟩
  | cons f fs ih =>
      cases hk : k.kalloc with
      | none => exact absurd (h.kalloc_eq_none.mp hk) (List.cons_ne_nil f fs)
      | some r =>
          obtain ⟨g, k'⟩ := r
          obtain ⟨rest, hcons, hrest⟩ := h.kalloc hk
          obtain ⟨rfl, rfl⟩ := List.cons.inj hcons
          obtain ⟨s, hrun, hsub⟩ := ih (l := f :: l) hrest
          refine ⟨s, .head (.kalloc hk) hrun, fun g hg => hsub ?_⟩
          rw [List.mem_append, List.mem_cons] at hg ⊢
          tauto

/-! ### Regions left alone -/

/-- What `kalloc_init` and every run of calls after it do not do to a region: store a link into it,
change its bytes, or hand out a frame that overlaps it. -/
structure LeavesAlone (k : Kernel) (kallocStart kallocEnd : ℕ) (region : Set ℕ) : Prop where
  links : ∀ e ∈ kallocInitWrites kallocStart kallocEnd, Disjoint (block e.1 8) region
  kept : ∀ s, Run AllocCall ⟨k.kallocInit kallocStart kallocEnd, []⟩ s →
    Set.EqOn s.kernel.mem k.mem region
  handedOut : ∀ s, Run AllocCall ⟨k.kallocInit kallocStart kallocEnd, []⟩ s →
    ∀ f ∈ s.allocated, Disjoint (page f) region

/-- **The allocator's footprint** is its frames: it leaves a region alone exactly if none overlaps
it. -/
theorem leavesAlone_iff (hpos : 0 < kallocStart) (hal : pageSize ∣ kallocStart)
    (hlt : kallocStart + pageSize < kallocEnd) (hend : kallocEnd < 2 ^ 64) :
    LeavesAlone k kallocStart kallocEnd region ↔
      ∀ f ∈ initFrames kallocStart kallocEnd, Disjoint (page f) region := by
  have hlist := kallocInit_freeList (k := k) hpos hal hlt hend
  constructor
  · intro h f hf
    obtain ⟨s, hrun, hsub⟩ := exists_run_allocated (l := []) hlist
    exact h.handedOut s hrun f (hsub (List.mem_append_left _ hf))
  · intro h
    have hoff : region ⊆ {x | ∀ f ∈ initFrames kallocStart kallocEnd, x ∉ page f} :=
      fun x hx f hf hxf => Set.disjoint_left.mp (h f hf) hxf hx
    constructor
    case links =>
      intro e he
      have hframe := ((mem_kallocInitWrites hlt).mp (List.mem_map_of_mem he)).2
      exact (h e.1 hframe).mono_left link_subset_page
    case kept =>
      intro s hrun
      exact ((eqOn_run hlist hrun).1.trans (kallocInit_eqOn hlt)).mono hoff
    case handedOut =>
      intro s hrun f hf
      exact h f ((eqOn_run hlist hrun).2 f hf)

/-! ### The bound of the loop -/

/-- `kalloc_init` should list the page frames inside its bounds, in ascending order. -/
def ListsFrames (k : Kernel) (kallocStart kallocEnd : ℕ) : Prop :=
  ∃ fs, FreeList (k.kallocInit kallocStart kallocEnd) fs ∧ fs.Pairwise (· < ·) ∧
    ∀ f, f ∈ fs ↔ pageSize ∣ f ∧ kallocStart ≤ f ∧ f + pageSize ≤ kallocEnd

/-- `kalloc_init` should write nothing from `kalloc_end` on. -/
def WritesBelow (kallocStart kallocEnd : ℕ) : Prop :=
  ∀ e ∈ kallocInitWrites kallocStart kallocEnd, block e.1 8 ⊆ Set.Iio kallocEnd

/-- On page-aligned bounds the frame at `kalloc_end` is one of the list. -/
lemma kallocEnd_mem_initFrames (hal : pageSize ∣ kallocStart) (hal' : pageSize ∣ kallocEnd)
    (hle : kallocStart ≤ kallocEnd) : kallocEnd ∈ initFrames kallocStart kallocEnd := by
  obtain ⟨n, hn⟩ := Nat.dvd_sub hal' hal
  have hend : kallocEnd = kallocStart + pageSize * n := by omega
  refine List.mem_range'.mpr ⟨n, ?_, hend⟩
  rw [hn, Nat.mul_div_cancel_left n (by norm_num [pageSize])]
  omega

/-- The list holds the frame at `kalloc_end`, or nothing if it starts at `NULL`. -/
lemma not_listsFrames (hal : pageSize ∣ kallocStart) (hal' : pageSize ∣ kallocEnd)
    (hlt : kallocStart + pageSize < kallocEnd) (hend : kallocEnd < 2 ^ 64) :
    ¬ ListsFrames k kallocStart kallocEnd := by
  rintro ⟨fs, hlist, -, hmem⟩
  rcases Nat.eq_zero_or_pos kallocStart with rfl | hpos
  · have hin : 0 ∈ fs := (hmem 0).mpr ⟨Nat.dvd_zero _, le_rfl, by omega⟩
    exact hlist.ne_zero hin rfl
  · have hall := kallocInit_freeList (k := k) hpos hal hlt hend
    obtain rfl : fs = initFrames kallocStart kallocEnd := hlist.chain.unique hall.chain
    have hlast := (hmem kallocEnd).mp (kallocEnd_mem_initFrames hal hal' (by omega))
    simp only [pageSize] at hlast
    omega

/-- The last store of `kalloc_init` is the link of the frame at `kalloc_end`. -/
lemma not_writesBelow (hal : pageSize ∣ kallocStart) (hal' : pageSize ∣ kallocEnd)
    (hlt : kallocStart + pageSize < kallocEnd) : ¬ WritesBelow kallocStart kallocEnd := by
  intro h
  have hframe := kallocEnd_mem_initFrames hal hal' (by omega)
  have hstore := (mem_kallocInitWrites hlt).mpr ⟨by omega, hframe⟩
  obtain ⟨e, he, hfst⟩ := List.mem_map.mp hstore
  have hin : kallocEnd ∈ block e.1 8 := by
    rw [Set.mem_Ico, hfst]
    omega
  exact lt_irrefl kallocEnd (Set.mem_Iio.mp (h e he hin))

/-- **`kalloc_init` overruns its bound**: on page-aligned bounds it never builds the list of the
frames inside them, and it always writes at `kalloc_end`. -/
theorem kallocInit_overruns (hal : pageSize ∣ kallocStart) (hal' : pageSize ∣ kallocEnd)
    (hlt : kallocStart + pageSize < kallocEnd) (hend : kallocEnd + pageSize ≤ 2 ^ 64) :
    ¬ ListsFrames k kallocStart kallocEnd ∧ ¬ WritesBelow kallocStart kallocEnd :=
  ⟨not_listsFrames hal hal' hlt (by simp only [pageSize] at hend; omega),
    not_writesBelow hal hal' hlt⟩

/-- Zeroed memory with frames from 4096 to 40960. -/
theorem kallocInit_overruns_small :
    ¬ ListsFrames ⟨fun _ => 0, 0⟩ 4096 40960 ∧ ¬ WritesBelow 4096 40960 :=
  kallocInit_overruns (by norm_num [pageSize]) (by norm_num [pageSize]) (by norm_num [pageSize])
    (by norm_num [pageSize])

/-- The frame at 40960 is listed and written although it is past the end. -/
theorem kallocInit_bounds_fails :
    ¬ (ListsFrames ⟨fun _ => 0, 0⟩ 4096 40960 ∧ WritesBelow 4096 40960) := fun h =>
  not_writesBelow (by norm_num [pageSize]) (by norm_num [pageSize]) (by norm_num [pageSize]) h.2

end SkinnyArm
