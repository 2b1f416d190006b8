import SkinnyArm.Process.Frames

/-!
`kill_process` in a table whose slots in use have different pids and own different frames.

* `OwnsFrames` is that table, and `Killed` what a call should do to the slot it finds.
* `killProcess_iff`: the search never gets past the first slot, and it looks at the pid alone, so
  the call is right exactly for the pid of a first slot in use, and for a pid that neither the first
  slot nor a slot in use has.
-/

namespace SkinnyArm

variable {s s' : System proccnt} {fs : List ℕ} {i : Fin proccnt} {pid : BitVec 8}

/-! ### The table -/

/-- The slots in use have different pids, and every one owns a stack frame and a trap frame that
are allocator frames off the free list and nobody else's. -/
structure OwnsFrames (s : System proccnt) (fs : List ℕ) : Prop where
  list : FreeList s.kernel fs
  pids : ∀ i j, i ≠ j → (s.processArray i).state ≠ .free → (s.processArray j).state ≠ .free →
    (s.processArray i).pid ≠ (s.processArray j).pid
  frame : ∀ i, (s.processArray i).state ≠ .free →
    ∀ f ∈ [(s.processArray i).stackFrame, (s.processArray i).trapFrame],
      f ∉ fs ∧ f ≠ 0 ∧ pageSize ∣ f ∧ f < 2 ^ 64
  stack_ne_trap : ∀ i, (s.processArray i).state ≠ .free →
    (s.processArray i).stackFrame ≠ (s.processArray i).trapFrame
  disjoint : ∀ i j, i ≠ j → (s.processArray i).state ≠ .free → (s.processArray j).state ≠ .free →
    [(s.processArray i).stackFrame, (s.processArray i).trapFrame].Disjoint
      [(s.processArray j).stackFrame, (s.processArray j).trapFrame]

/-- Slot `i` is free, with pid 0 and cleared registers, its frames are back on the free list, and
the other slots are as before. -/
structure Killed (s : System proccnt) (fs : List ℕ) (i : Fin proccnt) (s' : System proccnt) :
    Prop where
  state : (s'.processArray i).state = .free
  pid : (s'.processArray i).pid = 0
  registers : (s'.processArray i).registers = freeRegisters
  others : ∀ j, j ≠ i → s'.processArray j = s.processArray j
  list : ∃ fs', FreeList s'.kernel fs' ∧
    fs'.Perm ((s.processArray i).stackFrame :: (s.processArray i).trapFrame :: fs)

/-- What `kill_process` should do: kill the slot in use that has the pid, wherever it is, and
nothing if there is none. -/
structure KillsRight (s : System proccnt) (fs : List ℕ) (pid : BitVec 8) : Prop where
  found : ∀ i, (s.processArray i).state ≠ .free → (s.processArray i).pid = pid →
    (s.killProcess pid).2 = 0 ∧ Killed s fs i (s.killProcess pid).1
  absent : (∀ i, (s.processArray i).state ≠ .free → (s.processArray i).pid ≠ pid) →
    (s.killProcess pid).2 = -1 ∧ (s.killProcess pid).1.processArray = s.processArray ∧
      FreeList (s.killProcess pid).1.kernel fs

/-! ### The first slot -/

/-- **A first slot in use** with the pid is killed. -/
lemma OwnsFrames.killed (h : OwnsFrames s fs) (hstate : (s.processArray 0).state ≠ .free)
    (hpid : (s.processArray 0).pid = pid) :
    (s.killProcess pid).2 = 0 ∧ Killed s fs 0 (s.killProcess pid).1 := by
  obtain ⟨hstack, hstack0, hstackAl, hstackLt⟩ := h.frame 0 hstate _ List.mem_cons_self
  obtain ⟨htrap, htrap0, htrapAl, htrapLt⟩ :=
    h.frame 0 hstate _ (List.mem_cons_of_mem _ List.mem_cons_self)
  have hlist₁ : FreeList (s.kernel.kfree (.held (s.processArray 0).stackFrame))
      ((s.processArray 0).stackFrame :: fs) :=
    h.list.kfree rfl trivial hstack hstack0 hstackAl hstackLt
  have htrap' : (s.processArray 0).trapFrame ∉ (s.processArray 0).stackFrame :: fs := by
    rw [List.mem_cons, not_or]
    exact ⟨(h.stack_ne_trap 0 hstate).symm, htrap⟩
  have hlist₂ : FreeList ((s.kernel.kfree (.held (s.processArray 0).stackFrame)).kfree
      (.held (s.processArray 0).trapFrame))
      ((s.processArray 0).trapFrame :: (s.processArray 0).stackFrame :: fs) :=
    hlist₁.kfree rfl trivial htrap' htrap0 htrapAl htrapLt
  rw [System.killProcess, if_pos hpid]
  refine ⟨rfl, ?_⟩
  constructor
  case state => simp [System.setProcess]
  case pid => simp [System.setProcess]
  case registers => simp [System.setProcess]
  case others => exact fun j hj => System.processArray_setProcess_of_ne _ hj
  case list => exact ⟨_, hlist₂, .swap _ _ _⟩

/-- A first slot without the pid ends the search. -/
lemma killsRight_of_ne (hlist : FreeList s.kernel fs) (hne : (s.processArray 0).pid ≠ pid) :
    KillsRight s fs pid ↔
      ∀ i, (s.processArray i).state ≠ .free → (s.processArray i).pid ≠ pid := by
  have hrun := System.killProcess_of_ne hne
  refine ⟨fun h i hi hpid => ?_, fun hnone => ⟨fun i hi hpid => ?_, fun _ => ?_⟩⟩
  · have hcode := (h.found i hi hpid).1
    rw [hrun] at hcode
    exact absurd (show (-1 : ℤ) = 0 from hcode) (by decide)
  · exact absurd hpid (hnone i hi)
  · rw [hrun]
    exact ⟨rfl, rfl, hlist⟩

/-- A free first slot with the pid is taken for a process. -/
lemma not_killsRight_of_free (hstate : (s.processArray 0).state = .free)
    (hpid : (s.processArray 0).pid = pid) : ¬ KillsRight s fs pid := by
  intro h
  by_cases hnone : ∀ i, (s.processArray i).state ≠ .free → (s.processArray i).pid ≠ pid
  · have hcode := (h.absent hnone).1
    rw [System.killProcess, if_pos hpid] at hcode
    exact absurd (show (0 : ℤ) = -1 from hcode) (by decide)
  · simp only [not_forall, not_not] at hnone
    obtain ⟨i, hi, hi'⟩ := hnone
    have hi0 : i ≠ 0 := by
      rintro rfl
      exact hi hstate
    have hfree := (h.found i hi hi').2.state
    rw [System.killProcess, if_pos hpid] at hfree
    have hsame := System.processArray_setProcess_of_ne (s := s)
      { s.processArray 0 with registers := freeRegisters, state := .free, pid := 0 } hi0
    exact hi ((congrArg Process.state hsame).symm.trans hfree)

/-- **`kill_process`** is right exactly if the pid is that of a first slot in use, or if neither the
first slot nor any slot in use has it. -/
theorem killProcess_iff (h : OwnsFrames s fs) :
    KillsRight s fs pid ↔
      ((s.processArray 0).state ≠ .free ∧ (s.processArray 0).pid = pid) ∨
      ((s.processArray 0).pid ≠ pid ∧
        ∀ i, (s.processArray i).state ≠ .free → (s.processArray i).pid ≠ pid) := by
  by_cases hpid : (s.processArray 0).pid = pid
  · by_cases hstate : (s.processArray 0).state = .free
    · refine iff_of_false (not_killsRight_of_free hstate hpid) ?_
      rintro (⟨hused, -⟩ | ⟨hne, -⟩)
      · exact hused hstate
      · exact hne hpid
    · refine iff_of_true ⟨fun i hi hi' => ?_, fun hnone => ?_⟩ (.inl ⟨hstate, hpid⟩)
      · obtain rfl : i = 0 := by
          by_contra hne
          exact h.pids i 0 hne hi hstate (hi'.trans hpid.symm)
        exact h.killed hstate hpid
      · exact absurd hpid (hnone 0 hstate)
  · rw [killsRight_of_ne h.list hpid]
    refine ⟨fun hnone => .inr ⟨hpid, hnone⟩, ?_⟩
    rintro (⟨-, hsame⟩ | ⟨-, hnone⟩)
    · exact absurd hsame hpid
    · exact hnone

/-! ### Two processes -/

/-- Two slots in use, with pids 0 and 1, and two free frames. -/
def twoProcesses : System proccnt :=
  { bootSystem twoFrames with
    processArray := fun i =>
      if i.val < 2 then
        { Process.zero proccnt with
          stackFrame := 0x3000 + 0x2000 * i
          trapFrame := 0x4000 + 0x2000 * i
          state := .runnable
          pid := BitVec.ofNat 8 i }
      else .zero proccnt }

lemma lt_two_of_used (h : (twoProcesses.processArray i).state ≠ .free) : i.val < 2 := by
  by_contra hge
  exact h (by simp only [twoProcesses, if_neg hge, Process.zero])

lemma ownsFrames_twoProcesses : OwnsFrames twoProcesses [0x1000, 0x2000] where
  list := freeList_twoFrames
  pids := by
    intro i j hne hi hj
    have hi' := lt_two_of_used hi
    have hj' := lt_two_of_used hj
    have hval : i.val ≠ j.val := fun h => hne (Fin.ext h)
    simp only [twoProcesses, if_pos hi', if_pos hj']
    bv_omega
  frame := by
    intro i hi f hf
    have hi' := lt_two_of_used hi
    simp only [twoProcesses, if_pos hi', List.mem_cons, List.not_mem_nil, or_false] at hf ⊢
    simp only [pageSize]
    omega
  stack_ne_trap := by
    intro i hi
    simp only [twoProcesses, if_pos (lt_two_of_used hi)]
    omega
  disjoint := by
    intro i j hne hi hj
    have hi' := lt_two_of_used hi
    have hj' := lt_two_of_used hj
    have hval : i.val ≠ j.val := fun h => hne (Fin.ext h)
    simp only [twoProcesses, if_pos hi', if_pos hj', List.disjoint_left, List.mem_cons,
      List.not_mem_nil, or_false]
    omega

/-- The process of the first slot can be killed. -/
theorem killProcess_iff_two : KillsRight twoProcesses [0x1000, 0x2000] 0 :=
  (killProcess_iff ownsFrames_twoProcesses).mpr (.inl ⟨by simp [twoProcesses], rfl⟩)

/-- The process of the second slot cannot. -/
theorem killProcess_fails :
    OwnsFrames twoProcesses [0x1000, 0x2000] ∧ (twoProcesses.processArray 1).state ≠ .free ∧
      ¬ KillsRight twoProcesses [0x1000, 0x2000] 1 := by
  have hused : (twoProcesses.processArray 1).state ≠ .free := by simp [twoProcesses]
  refine ⟨ownsFrames_twoProcesses, hused, fun h => ?_⟩
  have hne : (twoProcesses.processArray 0).pid ≠ 1 := by decide
  exact (killsRight_of_ne freeList_twoFrames hne).mp h 1 hused (by decide)

end SkinnyArm
