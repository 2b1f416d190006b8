import SkinnyArm.PageTree.Hardware
import SkinnyArm.Process.Frames

/-!
What a successful `sys_fork` copies.

* `sysFork_child` is the success path in closed form: the child's slot, the allocator, and the
  memory, of whose bytes one is copied.
* `ForkKeeps` is what holds of the child and the caller, and `ForkCopies` what a copy of the caller
  needs besides; `sysFork_not_copies` says that no successful `sys_fork` makes one.
-/

namespace SkinnyArm

open ByteMemory

variable {s s' : System proccnt} {i : Fin proccnt} {f g : ℕ} {rest : List ℕ}

/-- The child is the caller's: its registers, its parent and a pid of its own; no other slot and
none of the caller's two pages change. -/
structure ForkKeeps (s s' : System proccnt) (i : Fin proccnt) : Prop where
  registers :
    { (s'.processArray i).registers with sp := (s.processArray s.current).registers.sp } =
      (s.processArray s.current).registers
  parent : (s'.processArray i).parent = some s.current
  pid : ∀ j, j ≠ i → (s'.processArray j).pid ≠ (s'.processArray i).pid
  others : ∀ j, j ≠ i → s'.processArray j = s.processArray j
  callerStack : Set.EqOn s'.kernel.mem s.kernel.mem (page (s.processArray s.current).stackFrame)
  callerTrap : Set.EqOn s'.kernel.mem s.kernel.mem (page (s.processArray s.current).trapFrame)

/-- Where `sp` is in its stack page. -/
def Process.stackOffset {n : ℕ} (p : Process n) : BitVec 64 :=
  p.registers.sp - BitVec.ofNat 64 p.stackFrame

/-- The child is a copy of the caller, and `sys_fork` returns a value. -/
structure ForkCopies (s s' : System proccnt) (v : Option ℤ) (i : Fin proccnt) : Prop
    extends ForkKeeps s s' i where
  stack : ∀ d < pageSize, s'.kernel.mem ((s'.processArray i).stackFrame + d) =
    s.kernel.mem ((s.processArray s.current).stackFrame + d)
  spInPage : (s'.processArray i).stackOffset.toNat < pageSize
  sp : (s'.processArray i).stackOffset = (s.processArray s.current).stackOffset
  trap : ∀ d < pageSize, s'.kernel.mem ((s'.processArray i).trapFrame + d) =
    s.kernel.mem ((s.processArray s.current).trapFrame + d)
  pagetable : ∀ va, (hardwareWalk s'.kernel.mem (s'.processArray i).pagetable.toNat va).isSome =
    (hardwareWalk s.kernel.mem (s.processArray s.current).pagetable.toNat va).isSome
  returns : v ≠ none

/-- **The success path**: with a free slot and two free frames `sys_fork` makes a child of the
caller, with the two frames cleared and the first byte of the caller's stack page copied. -/
theorem sysFork_child (hcaller : (s.processArray s.current).state ≠ .free)
    (hslot : ∃ i, (s.processArray i).state = .free) (hlist : FreeList s.kernel (f :: g :: rest)) :
    ∃ s' i pid, s.sysFork = some (s', none) ∧ (s.processArray i).state = .free ∧
      s'.processArray = Function.update s.processArray i
        (forkedProcess (s.processArray s.current) (s.processArray i) s.current f g pid) ∧
      (∀ j, (s.processArray j).pid ≠ pid) ∧
      s'.kernel.mem =
        let m := (s.kernel.mem.clear f pageSize).clear g pageSize
        m.store8 f (m (s.processArray s.current).stackFrame) := by
  obtain ⟨s', v, hfork, hcases⟩ := s.sysFork_forks
  cases hcases with
  | full hfull =>
      obtain ⟨i, hi⟩ := hslot
      exact absurd hi (hfull i)
  | noStack hnone => exact absurd (hlist.kalloc_eq_none.mp hnone) (by simp)
  | noTrap _ h₁ h₂ =>
      obtain ⟨l, hl, hl'⟩ := hlist.kalloc h₁
      obtain ⟨-, rfl⟩ := List.cons.inj hl
      exact absurd (hl'.kalloc_eq_none.mp h₂) (by simp)
  | @child i stackFrame trapFrame k₁ k₂ caller pid hi h₁ h₂ hcall hfresh =>
      obtain ⟨l, hl, hl'⟩ := hlist.kalloc h₁
      obtain ⟨rfl, rfl⟩ := List.cons.inj hl
      obtain ⟨l', hl, -⟩ := hl'.kalloc h₂
      obtain ⟨rfl, rfl⟩ := List.cons.inj hl
      have hne : s.current ≠ i := fun he => hcaller (he ▸ hi)
      obtain rfl := hcall hne
      refine ⟨_, i, pid, hfork, hi, rfl, hfresh, ?_⟩
      obtain ⟨-, -, rfl⟩ := Kernel.kalloc_eq_some h₁
      obtain ⟨-, -, rfl⟩ := Kernel.kalloc_eq_some h₂
      exact strcpy_eq _ _ _ _ (by norm_num)

/-- `stack_frame[PageSize-1]` is a frame far past the stack page. -/
lemma stackOffset_forkedProcess (caller proc : Process proccnt) (parent : Fin proccnt) (f g : ℕ)
    (pid : BitVec 8) :
    (forkedProcess caller proc parent f g pid).stackOffset.toNat = (pageSize - 1) * pageSize := by
  have hoff : (forkedProcess caller proc parent f g pid).stackOffset =
      BitVec.ofNat 64 ((pageSize - 1) * pageSize) := by
    rw [Process.stackOffset, forkedProcess, stackTop, BitVec.ofNat_add, BitVec.add_comm,
      BitVec.add_sub_cancel]
  rw [hoff, BitVec.toNat_ofNat]
  norm_num [pageSize]

/-- The pages of other frames are as before. -/
lemma fork_mem_eqOn {m : ByteMemory} {a : ℕ} {b : BitVec 8} (ha : pageSize ∣ a)
    (hf : pageSize ∣ f) (hg : pageSize ∣ g) (haf : a ≠ f) (hag : a ≠ g) :
    Set.EqOn (((m.clear f pageSize).clear g pageSize).store8 f b) m (page a) := by
  have hoff : page a ⊆ (page f)ᶜ := (page_disjoint ha hf haf).subset_compl_right
  have hbyte : block f 1 ⊆ page f := Set.Ico_subset_Ico_right (by simp [pageSize])
  refine (store8_eqOn.mono (hoff.trans (Set.compl_subset_compl.mpr hbyte))).trans ?_
  refine (clear_eqOn.mono (page_disjoint ha hg hag).subset_compl_right).trans ?_
  exact clear_eqOn.mono hoff

/-- **No copy**: a successful `sys_fork` keeps what `ForkKeeps` says, but its value is undefined,
the child's `sp` is past its stack page, the stack page is zero after its first byte and the trap
frame page is zero; so no child is a copy of the caller. -/
theorem sysFork_not_copies (hcaller : (s.processArray s.current).state ≠ .free)
    (hslot : ∃ i, (s.processArray i).state = .free) (hlist : FreeList s.kernel (f :: g :: rest))
    (hstack : pageSize ∣ (s.processArray s.current).stackFrame)
    (htrap : pageSize ∣ (s.processArray s.current).trapFrame)
    (hstackUsed : (s.processArray s.current).stackFrame ∉ f :: g :: rest)
    (htrapUsed : (s.processArray s.current).trapFrame ∉ f :: g :: rest) :
    ∃ s' v i, s.sysFork = some (s', v) ∧ (s.processArray i).state = .free ∧ ForkKeeps s s' i ∧
      v = none ∧ pageSize ≤ (s'.processArray i).stackOffset.toNat ∧
      (∀ d < pageSize, d ≠ 0 → s'.kernel.mem ((s'.processArray i).stackFrame + d) = 0) ∧
      (∀ d < pageSize, s'.kernel.mem ((s'.processArray i).trapFrame + d) = 0) ∧
      ¬ ForkCopies s s' v i := by
  obtain ⟨s', i, pid, hfork, hi, htable, hfresh, hmem⟩ := sysFork_child hcaller hslot hlist
  have hself := congrFun htable i
  rw [Function.update_self] at hself
  have hother : ∀ j, j ≠ i → s'.processArray j = s.processArray j := fun j hj => by
    rw [htable, Function.update_of_ne hj]
  have hf := hlist.aligned f (by simp)
  have hg := hlist.aligned g (by simp)
  have hfg : f ≠ g := fun he => by
    have hnodup := hlist.nodup
    simp [he] at hnodup
  have hapart := page_apart hf hg hfg
  simp only [List.mem_cons, not_or] at hstackUsed htrapUsed
  have hoffset : pageSize ≤ (s'.processArray i).stackOffset.toNat := by
    rw [hself, stackOffset_forkedProcess]
    norm_num [pageSize]
  refine ⟨s', none, i, hfork, hi, ?_, rfl, hoffset, ?_, ?_, fun h => h.returns rfl⟩
  · constructor
    case registers =>
      have hregs : ∀ (r : Registers) (sp : BitVec 64),
          { { r with sp := sp } with sp := r.sp } = r :=
        fun _ _ => rfl
      rw [hself]
      exact hregs _ _
    case parent => rw [hself, forkedProcess]
    case pid =>
      intro j hj
      rw [hother j hj, hself]
      exact hfresh j
    case others => exact hother
    case callerStack =>
      rw [hmem]
      exact fork_mem_eqOn hstack hf hg hstackUsed.1 hstackUsed.2.1
    case callerTrap =>
      rw [hmem]
      exact fork_mem_eqOn htrap hf hg htrapUsed.1 htrapUsed.2.1
  · intro d hd hd0
    rw [hmem, hself]
    show store8 _ f _ (f + d) = 0
    rw [store8_of_ne (by omega), clear_eqOn (by simp only [Set.mem_compl_iff, Set.mem_Ico]; omega)]
    exact clear_apply_of_mem (by simp only [Set.mem_Ico]; omega)
  · intro d hd
    rw [hmem, hself]
    show store8 _ f _ (g + d) = 0
    rw [store8_of_ne (by omega)]
    exact clear_apply_of_mem (by simp only [Set.mem_Ico]; omega)

/-- Two free frames, and a caller with two others in the first slot. -/
def forkSystem : System proccnt :=
  (bootSystem twoFrames).setProcess 0
    { Process.zero proccnt with
      registers := { freeRegisters with sp := 0x3FF0 }
      stackFrame := 0x3000
      trapFrame := 0x4000
      state := .running }

/-- That caller's child. -/
theorem sysFork_not_copies_small :
    ∃ s' v i, forkSystem.sysFork = some (s', v) ∧ (forkSystem.processArray i).state = .free ∧
      ForkKeeps forkSystem s' i ∧ v = none ∧
      pageSize ≤ (s'.processArray i).stackOffset.toNat ∧
      (∀ d < pageSize, d ≠ 0 → s'.kernel.mem ((s'.processArray i).stackFrame + d) = 0) ∧
      (∀ d < pageSize, s'.kernel.mem ((s'.processArray i).trapFrame + d) = 0) ∧
      ¬ ForkCopies forkSystem s' v i :=
  sysFork_not_copies (s := forkSystem) (by decide) ⟨1, rfl⟩ freeList_twoFrames (by decide)
    (by decide) (by decide) (by decide)

/-- The call returns nothing, so the child is no copy. -/
theorem forkSystem_not_copies :
    ¬ ∀ s' v i, forkSystem.sysFork = some (s', v) → (forkSystem.processArray i).state = .free →
      (s'.processArray i).state ≠ .free → ForkCopies forkSystem s' v i := by
  intro hall
  obtain ⟨s', i, pid, hfork, hi, htable, -⟩ :=
    sysFork_child (s := forkSystem) (by decide) ⟨1, rfl⟩ freeList_twoFrames
  have hself := congrFun htable i
  rw [Function.update_self] at hself
  refine (hall s' none i hfork hi ?_).returns rfl
  rw [hself, forkedProcess]
  simp

end SkinnyArm
