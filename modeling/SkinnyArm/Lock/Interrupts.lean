import SkinnyArm.Kernel.Lock

/-!
The interrupt mask over runs of `spinlock_acquire` and `spinlock_release` by one CPU.

* **One call.** Acquiring a lock masks all interrupts and nothing else touches the mask
  (`MaskedCpu.daif_exec`); in particular releasing a lock does not.
* **A run.** So the mask stays all set from the first acquire on (`MaskedCpu.daif_run`), and a lock
  is held only behind an acquire (`MaskedCpu.acquire_mem_of_held`).
* `maskKept_iff`: a run gives back the mask exactly if the mask was all set before or no lock is
  taken.
-/

namespace SkinnyArm

variable {L : Type*} [DecidableEq L] {cpuId : BitVec 8} {s s' : MaskedCpu L} {l : L}
  {op : LockOp L} {ops : List (LockOp L)}

/-- After the run the mask is the one before it, and at every point of the run where a lock is held
all interrupts are masked. -/
structure MaskKept (cpuId : BitVec 8) (s : MaskedCpu L) (ops : List (LockOp L))
    (s' : MaskedCpu L) : Prop where
  restored : s'.daif = s.daif
  masked : ∀ ops₁, ops₁ <+: ops → ∀ s₁, s.run cpuId ops₁ = some s₁ → (∃ l, s₁.held l) →
    s₁.daif = 0xF

namespace MaskedCpu

/-! ### One call -/

/-- `disable_interrupts` masks everything. -/
lemma disableInterrupts_eq : ∀ daif, disableInterrupts daif = 0xF := by decide

lemma spinlockAcquire_eq_some (h : s.spinlockAcquire cpuId l = some s') :
    (s.locks l).locked = false ∧ s' =
      { daif := 0xF
        locks := Function.update s.locks l ⟨true, cpuId⟩
        held := Function.update s.held l true } := by
  rw [spinlockAcquire] at h
  cases hl : (s.locks l).locked with
  | true =>
      rw [SpinLock.acquireStep, if_pos hl] at h
      exact absurd h (by simp)
  | false =>
      rw [SpinLock.acquireStep, if_neg (by simp [hl])] at h
      simp only [SpinLock.acquireStep, disableInterrupts_eq, Option.some.injEq] at h
      exact ⟨rfl, h.symm⟩

/-- A release is refused, or gives back the lock. -/
lemma spinlockRelease_eq (s : MaskedCpu L) (cpuId : BitVec 8) (l : L) :
    (s.spinlockRelease cpuId l).1 = s ∨
      (s.spinlockRelease cpuId l).1 =
        { s with
          locks := Function.update s.locks l ⟨false, 0⟩
          held := Function.update s.held l false } := by
  rw [spinlockRelease]
  by_cases hholds : spinlockHolds (s.locks l) cpuId
  · rw [SpinLock.releaseStep, if_pos hholds]
    exact .inr rfl
  · rw [SpinLock.releaseStep, if_neg hholds]
    exact .inl rfl

/-- **The mask** is set by an acquire, and left alone by everything else. -/
lemma daif_exec (h : s.exec cpuId op = some s') :
    (∃ l, op = .acquire l) ∧ s'.daif = 0xF ∨ (∀ l, op ≠ .acquire l) ∧ s'.daif = s.daif := by
  cases op with
  | acquire l =>
      refine .inl ⟨⟨l, rfl⟩, ?_⟩
      rw [(spinlockAcquire_eq_some h).2]
  | release l =>
      refine .inr ⟨by simp, ?_⟩
      rw [← Option.some.inj h]
      rcases s.spinlockRelease_eq cpuId l with hrel | hrel
      · rw [hrel]
      · rw [hrel]
  | other l lk =>
      refine .inr ⟨by simp, ?_⟩
      rw [exec] at h
      split_ifs at h with hheld
      rw [← Option.some.inj h]

/-- A lock is held that was held before or that is acquired. -/
lemma held_exec (h : s.exec cpuId op = some s') (hl : s'.held l) :
    s.held l ∨ op = .acquire l := by
  cases op with
  | acquire k =>
      rw [(spinlockAcquire_eq_some h).2] at hl
      rcases eq_or_ne l k with rfl | hne
      · exact .inr rfl
      · exact .inl (by simpa [hne] using hl)
  | release k =>
      rw [← Option.some.inj h] at hl
      rcases s.spinlockRelease_eq cpuId k with hrel | hrel
      · rw [hrel] at hl
        exact .inl hl
      · rw [hrel] at hl
        rcases eq_or_ne l k with rfl | hne
        · simp at hl
        · exact .inl (by simpa [hne] using hl)
  | other k lk =>
      rw [exec] at h
      split_ifs at h with hheld
      rw [← Option.some.inj h] at hl
      exact .inl hl

/-! ### A run -/

/-- **The mask over a run**: it is all set once a lock has been acquired. -/
lemma daif_run (h : s.run cpuId ops = some s') :
    (∃ l, .acquire l ∈ ops) ∧ s'.daif = 0xF ∨ (∀ l, .acquire l ∉ ops) ∧ s'.daif = s.daif := by
  induction ops generalizing s with
  | nil =>
      rw [← Option.some.inj h]
      exact .inr ⟨fun _ => List.not_mem_nil, rfl⟩
  | cons op ops ih =>
      obtain ⟨s₁, hexec, hrun⟩ := Option.bind_eq_some_iff.mp h
      rcases ih hrun with ⟨⟨l, hl⟩, hset⟩ | ⟨hlater, hsame⟩
      · exact .inl ⟨⟨l, List.mem_cons_of_mem op hl⟩, hset⟩
      · rcases daif_exec hexec with ⟨⟨l, rfl⟩, hset⟩ | ⟨hop, hsame'⟩
        · exact .inl ⟨⟨l, List.mem_cons_self⟩, hsame.trans hset⟩
        · refine .inr ⟨fun l hl => ?_, hsame.trans hsame'⟩
          rcases List.mem_cons.mp hl with heq | hmem
          · exact hop l heq.symm
          · exact hlater l hmem

/-- A lock held after a run was held before it, or is acquired in it. -/
lemma acquire_mem_of_held (h : s.run cpuId ops = some s') (hl : s'.held l) :
    s.held l ∨ .acquire l ∈ ops := by
  induction ops generalizing s with
  | nil =>
      rw [← Option.some.inj h] at hl
      exact .inl hl
  | cons op ops ih =>
      obtain ⟨s₁, hexec, hrun⟩ := Option.bind_eq_some_iff.mp h
      rcases ih hrun with hheld | hmem
      · rcases held_exec hexec hheld with hbefore | rfl
        · exact .inl hbefore
        · exact .inr List.mem_cons_self
      · exact .inr (List.mem_cons_of_mem op hmem)

/-- Where a lock is held that the run has acquired all interrupts are masked. -/
lemma masked_run (hfresh : ∀ l, s.held l = false) (h : s.run cpuId ops = some s')
    (hheld : ∃ l, s'.held l) : s'.daif = 0xF := by
  obtain ⟨l, hl⟩ := hheld
  rcases acquire_mem_of_held h hl with hbefore | hmem
  · rw [hfresh l] at hbefore
    exact absurd hbefore (by simp)
  · rcases daif_run h with ⟨-, hset⟩ | ⟨hnone, -⟩
    · exact hset
    · exact absurd hmem (hnone l)

end MaskedCpu

/-- **The interrupt mask**: interrupts are masked wherever a lock is held, but a run in which every
acquire succeeds ends with the mask it began with exactly if that was all set or no lock was
acquired, whether the locks are given back or not. -/
theorem maskKept_iff (hfresh : ∀ l, s.held l = false) (hrun : s.run cpuId ops = some s') :
    MaskKept cpuId s ops s' ↔ s.daif = 0xF ∨ ∀ l, .acquire l ∉ ops := by
  refine ⟨fun h => ?_, fun h => ⟨?_, fun ops₁ _ s₁ h₁ => MaskedCpu.masked_run hfresh h₁⟩⟩
  · rcases MaskedCpu.daif_run hrun with ⟨-, hset⟩ | ⟨hnone, -⟩
    · exact .inl (h.restored.symm.trans hset)
    · exact .inr hnone
  · rcases MaskedCpu.daif_run hrun with ⟨⟨l, hl⟩, hset⟩ | ⟨-, hsame⟩
    · exact hset.trans (h.resolve_right fun hnone => hnone l hl).symm
    · exact hsame

/-- One lock and a CPU with the mask that `enable_interrupts` leaves. -/
def enabledCpu : MaskedCpu Unit := ⟨enableInterrupts 0xF, fun _ => spinlockInit, fun _ => false⟩

/-- The lock is acquired and released. -/
theorem maskKept_iff_once : ∃ s', enabledCpu.run 1 [.acquire (), .release ()] = some s' ∧
    (MaskKept 1 enabledCpu [.acquire (), .release ()] s' ↔
      enabledCpu.daif = 0xF ∨ ∀ l, LockOp.acquire l ∉ [.acquire (), .release ()]) :=
  ⟨_, rfl, maskKept_iff (fun _ => rfl) rfl⟩

/-- Afterwards all interrupts are masked, though none was before. -/
theorem maskKept_fails : ∃ s', enabledCpu.run 1 [.acquire (), .release ()] = some s' ∧
    (∀ l, enabledCpu.held l = false) ∧ (∀ l, s'.held l = false) ∧
    enabledCpu.daif = 0 ∧ s'.daif = 0xF ∧
    ¬ MaskKept 1 enabledCpu [.acquire (), .release ()] s' := by
  refine ⟨_, rfl, fun _ => rfl, fun _ => rfl, rfl, rfl, fun h => ?_⟩
  exact absurd h.restored (by decide)

end SkinnyArm
