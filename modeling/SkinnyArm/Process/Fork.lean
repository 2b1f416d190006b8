import SkinnyArm.Kernel.Process
import SkinnyArm.Library.Transition

/-!
`sys_fork` and `kill_process` by cases.

* `getpid_eq`: in a table of fewer than 255 slots the search ends, with a pid other than 0 that no
  slot has.
* `Forks` lists the four ways in which `sys_fork` ends, and `sysFork_forks` says that it always ends
  in one of them.
* `ProcessOp.Performs`: the calls of a run, each with any caller.
-/

namespace SkinnyArm

variable {n : ℕ} {processArray : Fin n → Process n}

/-! ### `getpid` -/

/-- The search passes over pids that are taken, and stops at one that is not. -/
lemma getpidLoop_eq (processArray : Fin n → Process n) (fuel : ℕ) (pid : BitVec 8) :
    (getpidLoop processArray fuel pid = none ∧
        ∀ k < fuel, ∃ i, (processArray i).pid = pid + BitVec.ofNat 8 k) ∨
      ∃ k < fuel, getpidLoop processArray fuel pid = some (pid + BitVec.ofNat 8 k) ∧
        (∀ i, (processArray i).pid ≠ pid + BitVec.ofNat 8 k) ∧
        ∀ l < k, ∃ i, (processArray i).pid = pid + BitVec.ofNat 8 l := by
  induction fuel generalizing pid with
  | zero => exact .inl ⟨rfl, by simp⟩
  | succ fuel ih =>
      have hshift : ∀ k, pid + 1 + BitVec.ofNat 8 k = pid + BitVec.ofNat 8 (k + 1) := fun k => by
        rw [BitVec.add_assoc, BitVec.ofNat_add, BitVec.add_comm 1]
        rfl
      by_cases hfresh : ∀ i, (processArray i).pid ≠ pid
      · refine .inr ⟨0, Nat.succ_pos _, ?_, by simpa using hfresh, by simp⟩
        rw [getpidLoop, if_pos hfresh]
        simp
      · have htaken : ∃ i, (processArray i).pid = pid + BitVec.ofNat 8 0 := by simpa using hfresh
        have hstep : ∀ m, (∀ l < m, ∃ i, (processArray i).pid = pid + 1 + BitVec.ofNat 8 l) →
            ∀ l < m + 1, ∃ i, (processArray i).pid = pid + BitVec.ofNat 8 l := by
          intro m hm l hl
          cases l with
          | zero => exact htaken
          | succ l => exact hshift l ▸ hm l (by omega)
        rw [getpidLoop, if_neg hfresh]
        rcases ih (pid + 1) with ⟨hnone, hall⟩ | ⟨k, hk, hsome, hk', hall⟩
        · exact .inl ⟨hnone, hstep fuel hall⟩
        · rw [hshift] at hsome hk'
          exact .inr ⟨k + 1, by omega, hsome, hk', hstep k hall⟩

/-- Different slots for different pids. -/
lemma le_of_pids_taken {k : ℕ} (hk : k ≤ 256)
    (h : ∀ l < k, ∃ i, (processArray i).pid = 1 + BitVec.ofNat 8 l) : k ≤ n := by
  choose f hf using fun l : Fin k => h l l.isLt
  have hinj : Function.Injective f := fun l m hlm => by
    have hpid : (1 : BitVec 8) + BitVec.ofNat 8 l = 1 + BitVec.ofNat 8 m := by
      rw [← hf l, ← hf m, hlm]
    have hl := l.isLt
    have hm := m.isLt
    refine Fin.ext ?_
    bv_omega
  simpa using Fintype.card_le_of_injective f hinj

/-- **`getpid`** ends with a pid that no slot has and that is not 0. -/
theorem getpid_eq (hn : n < 255) (processArray : Fin n → Process n) :
    ∃ pid, getpid processArray = some pid ∧ (∀ i, (processArray i).pid ≠ pid) ∧ pid ≠ 0 := by
  rcases getpidLoop_eq processArray 256 1 with ⟨-, hall⟩ | ⟨k, hk, hsome, hfresh, hall⟩
  · have hle := le_of_pids_taken le_rfl hall
    omega
  · have hle := le_of_pids_taken hk.le hall
    exact ⟨_, hsome, hfresh, by bv_omega⟩

/-! ### The free list -/

section Lists

open ByteMemory

variable {k k₁ : Kernel} {fs : List ℕ} {f : ℕ}

/-- A frame that was the last one goes back onto the list. -/
lemma FreeList.kfree_kalloc (h : FreeList k fs) (h₁ : k.kalloc = some (f, k₁))
    (h₂ : k₁.kalloc = none) : fs = [f] ∧ FreeList (k₁.kfree (.held f)) [f] := by
  obtain ⟨rest, rfl, hrest⟩ := h.kalloc h₁
  obtain rfl := hrest.kalloc_eq_none.mp h₂
  exact ⟨rfl, hrest.kfree rfl trivial (by simp) (h.ne_zero List.mem_cons_self)
    (h.aligned _ List.mem_cons_self) (h.lt _ List.mem_cons_self)⟩

/-- A copy into a frame off the list keeps the list. -/
lemma FreeList.strcpy (h : FreeList k fs) {src size : ℕ} (hf : f ∉ fs) (hal : pageSize ∣ f)
    (hsize : 0 < size) : FreeList { k with mem := SkinnyArm.strcpy k.mem src f size } fs := by
  refine h.of_eqOn rfl fun a ha => ?_
  have hne : a ≠ f := fun he => hf (he ▸ ha)
  rw [strcpy_eq _ _ _ _ hsize]
  refine store8_eqOn.mono ?_
  refine (page_disjoint (h.aligned a ha) hal hne).subset_compl_right.trans
    (Set.compl_subset_compl.mpr ?_)
  exact Set.Ico_subset_Ico_right (by simp [pageSize])

end Lists

/-! ### `sys_fork` -/

/-- The slot found is the first one that is free. -/
lemma firstFree_eq_some_iff {i : Fin n} : firstFree processArray = some i ↔
    (processArray i).state = .free ∧ ∀ j < i, (processArray j).state ≠ .free := by
  rw [firstFree, ← Fin.find?_eq_find?_finRange, Fin.find?_eq_some_iff]
  simp

lemma firstFree_eq_some {i : Fin n} (h : firstFree processArray = some i) :
    (processArray i).state = .free :=
  (firstFree_eq_some_iff.mp h).1

lemma firstFree_eq_none (h : firstFree processArray = none) (i : Fin n) :
    (processArray i).state ≠ .free := by
  simpa using List.find?_eq_none.mp h i (List.mem_finRange i)

/-- The child's slot. -/
def forkedProcess (caller proc : Process proccnt) (parent : Fin proccnt)
    (stackFrame trapFrame : ℕ) (pid : BitVec 8) : Process proccnt :=
  { proc with
    registers := { caller.registers with sp := stackTop stackFrame }
    stackFrame := stackFrame
    trapFrame := trapFrame
    parent := some parent
    state := .runnable
    pid := pid }

/-- The ways in which `sys_fork` ends, with what it returns: no free slot, no frame, no second
frame, and a child.  The caller is the one there was before, unless its own slot was the free
one. -/
inductive Forks (s : System proccnt) : System proccnt → Option ℤ → Prop
  | full (h : ∀ i, (s.processArray i).state ≠ .free) : Forks s s (some (-1))
  | noStack (h : s.kernel.kalloc = none) : Forks s s (some (-1))
  | noTrap {i : Fin proccnt} {stackFrame : ℕ} {k₁ : Kernel}
      (hi : (s.processArray i).state = .free) (h₁ : s.kernel.kalloc = some (stackFrame, k₁))
      (h₂ : k₁.kalloc = none) :
      Forks s { s.setProcess i { s.processArray i with stackFrame := 0 } with
        kernel := k₁.kfree (.held stackFrame) } (some (-1))
  | child {i : Fin proccnt} {stackFrame trapFrame : ℕ} {k₁ k₂ : Kernel} {caller : Process proccnt}
      {pid : BitVec 8} (hi : (s.processArray i).state = .free)
      (h₁ : s.kernel.kalloc = some (stackFrame, k₁)) (h₂ : k₁.kalloc = some (trapFrame, k₂))
      (hcaller : s.current ≠ i → caller = s.processArray s.current)
      (hfresh : ∀ j, (s.processArray j).pid ≠ pid) (hpid : pid ≠ 0) :
      Forks s { s.setProcess i
          (forkedProcess caller (s.processArray i) s.current stackFrame trapFrame pid) with
        kernel := { k₂ with mem := strcpy k₂.mem caller.stackFrame stackFrame pageSize } } none

namespace System

variable {s s' : System proccnt} {v : Option ℤ} {i j : Fin proccnt}

@[simp] lemma processArray_setProcess_self (p : Process proccnt) :
    (s.setProcess i p).processArray i = p := by
  simp [setProcess]

lemma processArray_setProcess_of_ne (p : Process proccnt) (h : j ≠ i) :
    (s.setProcess i p).processArray j = s.processArray j := by
  simp [setProcess, h]

lemma setProcess_eq_self : s.setProcess i (s.processArray i) = s := by
  simp [setProcess]

@[simp] lemma setProcess_setProcess (p q : Process proccnt) :
    (s.setProcess i p).setProcess i q = s.setProcess i q := by
  simp [setProcess]

/-- A slot that was free is free again. -/
lemma setProcess_free (hi : (s.processArray i).state = .free) :
    s.setProcess i { s.processArray i with state := .free } = s := by
  rw [← hi]
  exact setProcess_eq_self

/-- With a free slot and two frames `sys_fork` makes a child in the first free slot. -/
lemma sysFork_of_frames {f g : ℕ} {k₁ k₂ : Kernel} (hfree : firstFree s.processArray = some i)
    (h₁ : s.kernel.kalloc = some (f, k₁)) (h₂ : k₁.kalloc = some (g, k₂)) :
    ∃ caller pid, (s.current ≠ i → caller = s.processArray s.current) ∧
      (∀ j, (s.processArray j).pid ≠ pid) ∧ pid ≠ 0 ∧
      s.sysFork = some
        ({ s.setProcess i (forkedProcess caller (s.processArray i) s.current f g pid) with
          kernel := { k₂ with mem := strcpy k₂.mem caller.stackFrame f pageSize } }, none) := by
  -- the slot keeps its old pid while `getpid` searches
  let s₁ := s.setProcess i { s.processArray i with
    registers := { freeRegisters with sp := stackTop f }
    stackFrame := f
    trapFrame := g
    state := .waiting }
  let caller := s₁.processArray s.current
  let proc₁ := { s₁.processArray i with
    registers := { caller.registers with sp := stackTop f } }
  obtain ⟨pid, hget, hfresh, hpid⟩ :=
    getpid_eq (by decide) (s₁.setProcess i proc₁).processArray
  have hfresh' : ∀ j, (s.processArray j).pid ≠ pid := by
    intro j
    have hj := hfresh j
    rcases eq_or_ne j i with rfl | hne
    · simpa [proc₁, s₁] using hj
    · rwa [processArray_setProcess_of_ne _ hne, processArray_setProcess_of_ne _ hne] at hj
  have hcaller : s.current ≠ i → caller = s.processArray s.current := fun hne =>
    processArray_setProcess_of_ne _ hne
  have heq : s.sysFork = (getpid (s₁.setProcess i proc₁).processArray).map fun pid =>
      ({ s₁.setProcess i { proc₁ with
          pid := pid
          parent := some s.current
          state := .runnable } with
        kernel := { k₂ with mem := strcpy k₂.mem caller.stackFrame f pageSize } }, none) := by
    simp only [sysFork, hfree, h₁, h₂]
    rfl
  refine ⟨caller, pid, hcaller, hfresh', hpid, ?_⟩
  rw [heq, hget, Option.map_some]
  simp [proc₁, s₁, forkedProcess]

/-- Without a free slot nothing happens. -/
lemma sysFork_of_full (hfree : firstFree s.processArray = none) :
    s.sysFork = some (s, some (-1)) := by
  rw [sysFork, hfree]

/-- Without a frame the slot goes back. -/
lemma sysFork_of_noStack (hfree : firstFree s.processArray = some i)
    (h₁ : s.kernel.kalloc = none) : s.sysFork = some (s, some (-1)) := by
  simp only [sysFork, hfree, h₁, setProcess_free (firstFree_eq_some hfree)]

/-- Without a second frame the slot and the first frame go back. -/
lemma sysFork_of_noTrap {f : ℕ} {k₁ : Kernel} (hfree : firstFree s.processArray = some i)
    (h₁ : s.kernel.kalloc = some (f, k₁)) (h₂ : k₁.kalloc = none) :
    s.sysFork = some ({ s.setProcess i { s.processArray i with stackFrame := 0 } with
      kernel := k₁.kfree (.held f) }, some (-1)) := by
  have hi := firstFree_eq_some hfree
  simp only [sysFork, hfree, h₁, h₂, ← hi]

/-- **`sys_fork`** ends, in one of the four ways. -/
theorem sysFork_forks (s : System proccnt) : ∃ s' v, s.sysFork = some (s', v) ∧ Forks s s' v := by
  cases hfree : firstFree s.processArray with
  | none => exact ⟨s, some (-1), sysFork_of_full hfree, .full (firstFree_eq_none hfree)⟩
  | some i =>
      have hi := firstFree_eq_some hfree
      cases h₁ : s.kernel.kalloc with
      | none => exact ⟨s, some (-1), sysFork_of_noStack hfree h₁, .noStack h₁⟩
      | some r =>
          obtain ⟨stackFrame, k₁⟩ := r
          cases h₂ : k₁.kalloc with
          | none =>
              exact ⟨_, some (-1), sysFork_of_noTrap hfree h₁ h₂, .noTrap hi h₁ h₂⟩
          | some r =>
              obtain ⟨trapFrame, k₂⟩ := r
              obtain ⟨caller, pid, hcaller, hfresh, hpid, heq⟩ := sysFork_of_frames hfree h₁ h₂
              exact ⟨_, none, heq, .child hi h₁ h₂ hcaller hfresh hpid⟩

end System

/-! ### Runs -/

/-- The calls of a run: `sys_fork` by the process of any slot, and `kill_process` of any pid. -/
inductive ProcessOp where
  | fork (caller : Fin proccnt)
  | kill (pid : BitVec 8)
  deriving DecidableEq

/-- A call and the system after it. -/
inductive ProcessOp.Performs (s : System proccnt) : ProcessOp → System proccnt → Prop
  | fork {caller : Fin proccnt} {s' : System proccnt} {v : Option ℤ}
      (h : ({ s with current := caller } : System proccnt).sysFork = some (s', v)) :
      Performs s (.fork caller) s'
  | kill (pid : BitVec 8) : Performs s (.kill pid) (s.killProcess pid).1

/-- The calls in any order. -/
def ProcessStep (s s' : System proccnt) : Prop := ∃ op, ProcessOp.Performs s op s'

/-- The process table is zeroed. -/
def AtBoot (s : System proccnt) : Prop := ∀ i, s.processArray i = .zero proccnt

/-- The system at boot with a given allocator. -/
def bootSystem (kernel : Kernel) : System proccnt where
  kernel := kernel
  processArray := fun _ => .zero proccnt
  current := 0
  registers := freeRegisters
  ttbr0 := 0

namespace System

variable {s s' : System proccnt}

/-- **A `sys_fork`** by the process of any slot. -/
lemma forks_of_sysFork {v : Option ℤ} (h : s.sysFork = some (s', v)) : Forks s s' v := by
  obtain ⟨s₁, v₁, heq, hforks⟩ := s.sysFork_forks
  rw [h] at heq
  obtain ⟨rfl, rfl⟩ := Prod.mk.inj (Option.some.inj heq)
  exact hforks

/-- **`kill_process`** reaches the first slot only. -/
lemma killProcess_of_ne {pid : BitVec 8} (h : (s.processArray 0).pid ≠ pid) :
    s.killProcess pid = (s, -1) := by
  rw [killProcess, if_neg h]

/-- The process table after `create_first_process`. -/
lemma createFirstProcess_table (s : System proccnt) (junk : ℕ) :
    ∃ trapFrame, (s.createFirstProcess junk).processArray =
      Function.update s.processArray 0
        { s.processArray 0 with
          registers := { freeRegisters with sp := stackTop (s.processArray 0).stackFrame }
          trapFrame := trapFrame
          state := .runnable
          pid := 0 } := ⟨_, rfl⟩

end System

end SkinnyArm
