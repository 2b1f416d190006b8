import SkinnyArm.Process.ForkEffect
import SkinnyArm.Process.Kill
import SkinnyArm.Process.Lifecycle

/-!
The registers a process goes on with when `scheduler` selects it.

* `Parked c r t`: the save area of slot `c` has the registers `r` and the page table `t`, and these
  are what the CPU has as soon as the slot is current; no call of another process changes this.
* `resume_registers`: a process goes on with the registers it had when it called `scheduler`.
* `child_registers`: a child starts with the registers its parent had when it was itself selected
  last, for `sys_fork` copies the save area.
-/

namespace SkinnyArm

variable {s s' : System proccnt} {c : Fin proccnt} {call : Call}

/-- The call does not kill the process of the slot. -/
def Call.Spares (s : System proccnt) (c : Fin proccnt) (call : Call) : Prop :=
  ∀ pid, call = .kill pid → c = 0 → (s.processArray 0).pid ≠ pid

/-- A call of another process than that of slot `c`, which does not kill it. -/
def OthersStep (c : Fin proccnt) (s s' : System proccnt) : Prop :=
  s.current ≠ c ∧ ∃ call : Call, call.Spares s c ∧ call.Runs s s'

/-- A call of the process of slot `c` other than `scheduler`, in which it does not kill itself. -/
def OwnStep (c : Fin proccnt) (s s' : System proccnt) : Prop :=
  s.current = c ∧ ∃ call : Call, call ≠ .scheduler ∧ call.Spares s c ∧ call.Runs s s'

/-! ### One call -/

/-- A call leaves a slot in use, with its page table; it writes the save area only if it is a
`scheduler` of the slot's own. -/
structure SlotKept (s s' : System proccnt) (c : Fin proccnt) : Prop where
  used : (s'.processArray c).state ≠ .free
  pagetable : (s'.processArray c).pagetable = (s.processArray c).pagetable
  registers : (s'.processArray c).registers = (s.processArray c).registers

lemma SlotKept.of_eq (hused : (s.processArray c).state ≠ .free)
    (h : s'.processArray c = s.processArray c) : SlotKept s s' c :=
  ⟨by rw [h]; exact hused, by rw [h], by rw [h]⟩

/-- `sys_fork` writes a free slot only. -/
lemma slotKept_sysFork (hused : (s.processArray c).state ≠ .free) {v : Option ℤ}
    (h : s.sysFork = some (s', v)) : SlotKept s s' c ∧ s'.current = s.current := by
  cases System.forks_of_sysFork h with
  | full => exact ⟨.of_eq hused rfl, rfl⟩
  | noStack => exact ⟨.of_eq hused rfl, rfl⟩
  | noTrap hi =>
      refine ⟨.of_eq hused (System.processArray_setProcess_of_ne _ ?_), rfl⟩
      rintro rfl
      exact hused hi
  | child hi =>
      refine ⟨.of_eq hused (System.processArray_setProcess_of_ne _ ?_), rfl⟩
      rintro rfl
      exact hused hi

/-- `sleep` writes the state and the lock of the current slot. -/
lemma slotKept_sleep (hused : (s.processArray c).state ≠ .free) (lk : ℕ) :
    SlotKept s (s.sleep lk) c := by
  rcases eq_or_ne c s.current with rfl | hc
  · have hself : (s.sleep lk).processArray s.current =
        { s.processArray s.current with state := .waiting, waitOn := lk } :=
      System.processArray_setProcess_self _
    exact ⟨by rw [hself]; simp, by rw [hself], by rw [hself]⟩
  · exact .of_eq hused (System.processArray_setProcess_of_ne _ hc)

/-- `wakeup` writes the state and the lock of slots that wait. -/
lemma slotKept_wakeup (hused : (s.processArray c).state ≠ .free) (lk : ℕ) :
    SlotKept s (s.wakeup lk) c := by
  have htable : (s.wakeup lk).processArray c =
      if (s.processArray c).WaitsOn lk then
        { s.processArray c with state := .runnable, waitOn := 0 }
      else s.processArray c := rfl
  by_cases hwaits : (s.processArray c).WaitsOn lk
  · rw [if_pos hwaits] at htable
    exact ⟨by rw [htable]; simp, by rw [htable], by rw [htable]⟩
  · rw [if_neg hwaits] at htable
    exact .of_eq hused htable

/-- **Calls but `scheduler`** keep every slot in use that they do not kill, and who runs. -/
lemma Call.Runs.slotKept (h : call.Runs s s') (hcall : call ≠ .scheduler)
    (hspare : call.Spares s c) (hused : (s.processArray c).state ≠ .free) :
    SlotKept s s' c ∧ s'.current = s.current := by
  cases h with
  | compute => exact ⟨.of_eq hused rfl, rfl⟩
  | fork h => exact slotKept_sysFork hused h
  | scheduler => exact absurd rfl hcall
  | sleep lk => exact ⟨slotKept_sleep hused lk, rfl⟩
  | wakeup lk => exact ⟨slotKept_wakeup hused lk, rfl⟩
  | kill pid =>
      by_cases hpid : (s.processArray 0).pid = pid
      · have hc : c ≠ 0 := fun hc => hspare pid rfl hc hpid
        rw [System.killProcess, if_pos hpid]
        exact ⟨.of_eq hused (System.processArray_setProcess_of_ne _ hc), rfl⟩
      · rw [System.killProcess_of_ne hpid]
        exact ⟨.of_eq hused rfl, rfl⟩

/-- **`scheduler`** loads the save area and the page table of the slot it selects, which is in
use. -/
lemma scheduler_loads (h : ∀ fuel, 2 ≤ fuel → s.scheduler fuel = some s') :
    s'.registers = (s'.processArray s'.current).registers ∧
      s'.ttbr0 = (s'.processArray s'.current).pagetable ∧
      (s'.processArray s'.current).state = .runnable := by
  obtain ⟨j, hj, hnext⟩ := s.scheduler_eq
  obtain rfl := Option.some.inj ((h 2 le_rfl).symm.trans (hj 2 le_rfl))
  refine ⟨rfl, rfl, ?_⟩
  show ((s.yieldCurrent.switchTo s.current j).processArray j).state = .runnable
  rw [s.processArray_scheduled]
  split_ifs with hcurrent
  · rfl
  · rcases Finset.mem_insert.mp hnext.1 with hjc | hrun
    · exact absurd hjc hcurrent
    · exact mem_runnableSlots.mp hrun

/-- `scheduler` saves the registers of its caller, and writes no other slot. -/
lemma scheduler_saves (h : ∀ fuel, 2 ≤ fuel → s.scheduler fuel = some s') :
    s'.processArray s.current =
        { s.processArray s.current with registers := s.registers, state := .runnable } ∧
      ∀ i, i ≠ s.current → s'.processArray i = s.processArray i := by
  obtain ⟨j, hj, -⟩ := s.scheduler_eq
  obtain rfl := Option.some.inj ((h 2 le_rfl).symm.trans (hj 2 le_rfl))
  refine ⟨?_, fun i hi => ?_⟩
  · rw [s.processArray_scheduled, if_pos rfl]
  · rw [s.processArray_scheduled, if_neg hi]

/-! ### Waiting to be selected -/

/-- Slot `c` goes on with the registers `r` and the page table `t`. -/
structure Parked (c : Fin proccnt) (r : Registers) (t : BitVec 64) (s : System proccnt) : Prop where
  used : (s.processArray c).state ≠ .free
  registers : (s.processArray c).registers = r
  pagetable : (s.processArray c).pagetable = t
  resumed : s.current = c → s.registers = r ∧ s.ttbr0 = t

namespace Parked

variable {r : Registers} {t : BitVec 64}

/-- After its own `scheduler` the slot goes on with the registers of the call. -/
lemma of_scheduler (h : ∀ fuel, 2 ≤ fuel → s.scheduler fuel = some s') :
    Parked s.current s.registers (s.processArray s.current).pagetable s' := by
  obtain ⟨hself, -⟩ := scheduler_saves h
  obtain ⟨hregisters, httbr0, -⟩ := scheduler_loads h
  refine ⟨by rw [hself]; simp, by rw [hself], by rw [hself], fun hcurrent => ?_⟩
  rw [hregisters, httbr0, hcurrent, hself]
  exact ⟨rfl, rfl⟩

/-- **A call** of another process. -/
lemma step (h : Parked c r t s) (hstep : OthersStep c s s') : Parked c r t s' := by
  obtain ⟨hother, call, hspare, hrun⟩ := hstep
  by_cases hcall : call = .scheduler
  · subst hcall
    cases hrun with
    | scheduler hs =>
        obtain ⟨hregisters, httbr0, -⟩ := scheduler_loads hs
        have hslot := (scheduler_saves hs).2 c hother.symm
        refine ⟨by rw [hslot]; exact h.used, hslot ▸ h.registers, hslot ▸ h.pagetable, ?_⟩
        intro hcurrent
        rw [hregisters, httbr0, hcurrent, hslot]
        exact ⟨h.registers, h.pagetable⟩
  · obtain ⟨hkept, hcurrent⟩ := hrun.slotKept hcall hspare h.used
    exact ⟨hkept.used, hkept.registers.trans h.registers, hkept.pagetable.trans h.pagetable,
      fun hc => absurd (hcurrent.symm.trans hc) hother⟩

/-- **A run** of the others. -/
lemma run (h : Parked c r t s) (hrun : Run (OthersStep c) s s') : Parked c r t s' :=
  hrun.invariant (fun h hstep => h.step hstep) h

end Parked

/-- **Going on**: when a process that has called `scheduler` is current again, whatever the others
have done, it has the registers it had at its call, and its page table. -/
theorem resume_registers {s₁ s₂ : System proccnt}
    (hs : ∀ fuel, 2 ≤ fuel → s.scheduler fuel = some s₁)
    (hrun : Run (OthersStep s.current) s₁ s₂) (hback : s₂.current = s.current) :
    s₂.registers = s.registers ∧ s₂.ttbr0 = (s.processArray s.current).pagetable :=
  ((Parked.of_scheduler hs).run hrun).resumed hback

/-! ### A child -/

/-- While a process runs its save area stays what it was selected with. -/
lemma registers_of_own {s₁ : System proccnt} (hused : (s.processArray c).state ≠ .free)
    (hrun : Run (OwnStep c) s s₁) :
    (s₁.processArray c).state ≠ .free ∧
      (s₁.processArray c).registers = (s.processArray c).registers := by
  induction hrun with
  | refl => exact ⟨hused, rfl⟩
  | tail _ hstep ih =>
      obtain ⟨-, call, hcall, hspare, hrun⟩ := hstep
      obtain ⟨hkept, -⟩ := hrun.slotKept hcall hspare ih.1
      exact ⟨hkept.used, hkept.registers.trans ih.2⟩

/-- A child has its parent's save area, with its own stack. -/
lemma Parked.of_sysFork (hused : (s.processArray s.current).state ≠ .free)
    (hi : (s.processArray c).state = .free) (hfork : s.sysFork = some (s', none))
    (hchild : (s'.processArray c).state ≠ .free) :
    Parked c { (s.processArray s.current).registers with
      sp := stackTop (s'.processArray c).stackFrame } (s.processArray c).pagetable s' := by
  have hne : s.current ≠ c := by
    rintro rfl
    exact hused hi
  cases System.forks_of_sysFork hfork with
  | @child i f g k₁ k₂ caller pid hfree h₁ h₂ hcaller hfresh hpid =>
      obtain rfl : c = i := by
        by_contra hci
        have hsame := System.processArray_setProcess_of_ne (s := s)
          (forkedProcess caller (s.processArray i) s.current f g pid) hci
        exact hchild ((congrArg Process.state hsame).trans hi)
      refine ⟨hchild, ?_, ?_, fun hc => absurd hc hne⟩
      · simp only [System.processArray_setProcess_self, forkedProcess, hcaller hne]
      · simp only [System.processArray_setProcess_self, forkedProcess]

/-- **A child's first registers** are those with which its parent was selected last, and not the
ones it had when it called `sys_fork`; only the stack pointer is new. -/
theorem child_registers {s₀ s₁ s₂ s₃ : System proccnt}
    (hs : ∀ fuel, 2 ≤ fuel → s₀.scheduler fuel = some s) (hown : Run (OwnStep s.current) s s₁)
    (hparent : s₁.current = s.current) (hfork : s₁.sysFork = some (s₂, none))
    (hfree : (s₁.processArray c).state = .free) (hchild : (s₂.processArray c).state ≠ .free)
    (hrun : Run (OthersStep c) s₂ s₃) (hcurrent : s₃.current = c) :
    s₃.registers = { s.registers with sp := stackTop (s₂.processArray c).stackFrame } := by
  obtain ⟨hregisters, -, hrunnable⟩ := scheduler_loads hs
  obtain ⟨hused, hsaved⟩ := registers_of_own (by rw [hrunnable]; simp) hown
  rw [← hparent] at hused hsaved
  have hparked := Parked.of_sysFork hused hfree hfork hchild
  rw [(hparked.run hrun).resumed hcurrent |>.1, hsaved, hparent, hregisters]

/-! ### Two processes -/

namespace System

/-- `scheduler` called over and over, with as many rounds as its loop needs. -/
lemma scheduler_schedule {n : ℕ} (s : System n) (k : ℕ) :
    ∀ fuel, 2 ≤ fuel → (s.schedule k).scheduler fuel = some (s.schedule (k + 1)) := by
  intro fuel hfuel
  obtain ⟨j, hj, -⟩ := (s.schedule k).scheduler_eq
  rw [hj fuel hfuel, schedule, hj 2 le_rfl, Option.getD_some]

end System

lemma state_twoProcesses (a : Fin proccnt) :
    (twoProcesses.processArray a).state = .runnable ↔ a.val < 2 := by
  constructor
  · intro h
    exact lt_two_of_used (by rw [h]; simp)
  · intro ha
    simp only [twoProcesses, if_pos ha]

/-- The first process and its child: after two calls of `scheduler` the first one goes on. -/
theorem resume_registers_two :
    (twoProcesses.schedule 2).registers = twoProcesses.registers ∧
      (twoProcesses.schedule 2).ttbr0 = (twoProcesses.processArray 0).pagetable := by
  have hready : ∀ a, a ∈ twoProcesses.ready ↔ a = 0 ∨ a = 1 := by
    intro a
    have hone : a.val < 2 ↔ a = 0 ∨ a = 1 := by
      rw [Fin.ext_iff, Fin.ext_iff]
      show a.val < 2 ↔ a.val = 0 ∨ a.val = 1
      omega
    rw [System.ready, Finset.mem_insert, mem_runnableSlots, state_twoProcesses, hone]
    exact or_iff_right_of_imp .inl
  have hnext := fun k => (twoProcesses.scheduled_schedule k).next
  have h₁ : (twoProcesses.schedule 1).current = 1 :=
    (hnext 0).1.other (fun a ha => (hready a).mp ha) ((hready 1).mpr (.inr rfl)) (by decide)
  have h₂ : (twoProcesses.schedule 2).current = 0 := by
    refine (hnext 1).1.other (fun a ha => ?_) ?_ ?_
    · rw [(hnext 0).2] at ha
      rw [h₁]
      exact ((hready a).mp ha).symm
    · rw [(hnext 0).2]
      exact (hready 0).mpr (.inl rfl)
    · rw [h₁]
      decide
  refine resume_registers (twoProcesses.scheduler_schedule 0) (.single ⟨?_, .scheduler, ?_, ?_⟩) h₂
  · rw [h₁]
    decide
  · exact fun pid hpid => absurd hpid (by simp)
  · exact .scheduler (twoProcesses.scheduler_schedule 1)

/-- A child that is not made in the first slot is made in the second. -/
lemma runnable_of_sysFork {frames : List ℕ} {junk : ℕ} (h : NumberedTable frames junk s 1)
    (hfork : s.sysFork = some (s', none)) : (s'.processArray 1).state = .runnable := by
  obtain ⟨s₁, v, hfork₁, heffect⟩ := sysFork_effect s h.list
  rw [hfork] at hfork₁
  obtain ⟨rfl, rfl⟩ := Prod.mk.inj (Option.some.inj hfork₁)
  obtain ⟨i, hi, hfirst, hstate, -⟩ := (heffect.taken rfl).slot
  have hone : (s.processArray 1).state = .free := by
    rw [h.unused 1 le_rfl]
    rfl
  have hi1 : i ≤ 1 := by
    by_contra hlt
    exact hfirst 1 (not_le.mp hlt) hone
  have hi0 : i ≠ 0 := by
    rintro rfl
    exact (h.live 0 h.pos).ne_free hi
  obtain rfl : i = 1 := by
    have hval := Fin.le_def.mp hi1
    have hne : i.val ≠ 0 := fun h0 => hi0 (Fin.ext h0)
    exact Fin.ext (le_antisymm hval (Nat.one_le_iff_ne_zero.mpr hne))
  exact hstate

/-- The child of the first process, which `scheduler` has selected once. -/
theorem child_registers_ten : ∃ s s₂ s₃, firstOfTen.scheduler 2 = some s ∧
    s.sysFork = some (s₂, none) ∧ Run (OthersStep 1) s₂ s₃ ∧ s₃.current = 1 ∧
    s₃.registers = { s.registers with sp := stackTop (s₂.processArray 1).stackFrame } := by
  obtain ⟨j, hj, hnext⟩ := firstOfTen.scheduler_eq
  have h₁ := processTable_firstOfTen.scheduler hnext
  obtain ⟨s₂, v, hfork, hv, h₂⟩ := h₁.sysFork
  obtain rfl := hv.mpr ⟨by decide, by decide⟩
  have hcurrent : s₂.current = (firstOfTen.yieldCurrent.switchTo firstOfTen.current j).current :=
    (slotKept_sysFork (h₁.live _ h₁.current).ne_free hfork).2
  have hzero : s₂.current = 0 := by
    rw [hcurrent]
    exact Fin.ext (Nat.lt_one_iff.mp h₁.current)
  have hrunnable := runnable_of_sysFork h₁ hfork
  obtain ⟨i, hi, hnext₂⟩ := s₂.scheduler_eq
  have hi1 : i = 1 := by
    refine hnext₂.other (fun a ha => ?_) ?_ ?_
    · rcases Finset.mem_insert.mp ha with rfl | hrun
      · exact .inl rfl
      · have hlt : a.val < 2 := by
          by_contra hge
          rw [mem_runnableSlots, h₂.unused a (not_lt.mp hge)] at hrun
          exact absurd hrun (by simp [Process.zero])
        rw [hzero, Fin.ext_iff, Fin.ext_iff]
        show a.val = 0 ∨ a.val = 1
        omega
    · exact Finset.mem_insert_of_mem (mem_runnableSlots.mpr hrunnable)
    · rw [hzero]
      decide
  subst hi1
  have hothers : Run (OthersStep 1) s₂ (s₂.yieldCurrent.switchTo s₂.current 1) := by
    refine .single ⟨?_, .scheduler, ?_, .scheduler hi⟩
    · rw [hzero]
      decide
    · exact fun pid hpid => absurd hpid (by simp)
  have hfree : ((firstOfTen.yieldCurrent.switchTo firstOfTen.current j).processArray 1).state =
      .free := by
    rw [h₁.unused 1 le_rfl]
    rfl
  exact ⟨_, s₂, _, hj 2 le_rfl, hfork, hothers, rfl,
    child_registers hj .refl rfl hfork hfree (by rw [hrunnable]; simp) hothers rfl⟩

end SkinnyArm
