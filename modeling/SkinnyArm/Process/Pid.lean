import SkinnyArm.Process.Lifecycle

/-!
The pids of a run.

`PidInv` says that no two slots in use have the same pid and that a free slot has pid 0; it holds
after `create_first_process`, and every `sys_fork` and `kill_process` keeps it (`pids_distinct`).
-/

namespace SkinnyArm

/-- The pids in use are different, and free slots have pid 0. -/
structure PidInv {n : ℕ} (processArray : Fin n → Process n) : Prop where
  distinct : ∀ i j, i ≠ j → (processArray i).state ≠ .free → (processArray j).state ≠ .free →
    (processArray i).pid ≠ (processArray j).pid
  free : ∀ i, (processArray i).state = .free → (processArray i).pid = 0

namespace PidInv

variable {n : ℕ} {processArray : Fin n → Process n}

/-- **One slot** is written: its pid must be new if it is in use, and 0 if it is free. -/
lemma update (h : PidInv processArray) {i : Fin n} {p : Process n}
    (hused : p.state ≠ .free → ∀ j, j ≠ i → (processArray j).state ≠ .free →
      (processArray j).pid ≠ p.pid)
    (hfree : p.state = .free → p.pid = 0) : PidInv (Function.update processArray i p) where
  distinct := by
    intro j k hne hj hk
    rcases eq_or_ne j i with rfl | hji
    · rw [Function.update_self] at hj ⊢
      rw [Function.update_of_ne hne.symm] at hk ⊢
      exact (hused hj k hne.symm hk).symm
    · rw [Function.update_of_ne hji] at hj ⊢
      rcases eq_or_ne k i with rfl | hki
      · rw [Function.update_self] at hk ⊢
        exact hused hk j hji hj
      · rw [Function.update_of_ne hki] at hk ⊢
        exact h.distinct j k hne hj hk
  free := by
    intro j hj
    rcases eq_or_ne j i with rfl | hji
    · rw [Function.update_self] at hj ⊢
      exact hfree hj
    · rw [Function.update_of_ne hji] at hj ⊢
      exact h.free j hj

variable {s s' : System proccnt}

/-- All slots are free but the first. -/
lemma createFirstProcess (hboot : AtBoot s) (junk : ℕ) :
    PidInv (s.createFirstProcess junk).processArray := by
  have hzero : PidInv s.processArray :=
    ⟨fun i _ _ hi => absurd (by rw [hboot i]; rfl) hi, fun i _ => by rw [hboot i]; rfl⟩
  obtain ⟨trapFrame, htable⟩ := s.createFirstProcess_table junk
  rw [htable]
  exact hzero.update (fun _ j _ hj => absurd (by rw [hboot j]; rfl) hj) fun _ => rfl

lemma sysFork (h : PidInv s.processArray) {v : Option ℤ} (hfork : s.sysFork = some (s', v)) :
    PidInv s'.processArray := by
  cases System.forks_of_sysFork hfork with
  | full => exact h
  | noStack => exact h
  | noTrap hi => exact h.update (fun hused => absurd hi hused) fun _ => h.free _ hi
  | child _ _ _ _ hfresh => exact h.update (fun _ j _ _ => hfresh j) fun hfree => by cases hfree

lemma killProcess (h : PidInv s.processArray) (pid : BitVec 8) :
    PidInv (s.killProcess pid).1.processArray := by
  by_cases hpid : (s.processArray 0).pid = pid
  · rw [System.killProcess, if_pos hpid]
    exact h.update (fun hused => absurd rfl hused) fun _ => rfl
  · rw [System.killProcess_of_ne hpid]
    exact h

/-- **A call** keeps the invariant. -/
lemma step (h : PidInv s.processArray) (hstep : ProcessStep s s') : PidInv s'.processArray := by
  obtain ⟨op, hop⟩ := hstep
  cases hop with
  | @fork caller _ _ hfork => exact sysFork (s := { s with current := caller }) h hfork
  | kill pid => exact h.killProcess pid

end PidInv

/-- **Pids**: in every state reached, slots in use have different pids and free slots pid 0. -/
theorem pids_distinct {s₀ s : System proccnt} {junk : ℕ} (hboot : AtBoot s₀)
    (hrun : Run ProcessStep (s₀.createFirstProcess junk) s) :
    (∀ i j, i ≠ j → (s.processArray i).state ≠ .free → (s.processArray j).state ≠ .free →
      (s.processArray i).pid ≠ (s.processArray j).pid) ∧
    ∀ i, (s.processArray i).state = .free → (s.processArray i).pid = 0 := by
  have h : PidInv s.processArray :=
    hrun.invariant (I := fun s => PidInv s.processArray) (fun h => h.step)
      (PidInv.createFirstProcess hboot junk)
  exact ⟨h.distinct, h.free⟩

/-- The first process forks twice and is killed; the child in slot 1 forks once more. -/
theorem pids_distinct_ten : ∃ s₁ s₂ s₃ v, firstOfTen.sysFork = some (s₁, none) ∧
    s₁.sysFork = some (s₂, none) ∧
    ({ (s₂.killProcess 0).1 with current := 1 } : System proccnt).sysFork = some (s₃, v) ∧
    (∀ i j, i ≠ j → (s₃.processArray i).state ≠ .free → (s₃.processArray j).state ≠ .free →
      (s₃.processArray i).pid ≠ (s₃.processArray j).pid) ∧
    ∀ i, (s₃.processArray i).state = .free → (s₃.processArray i).pid = 0 := by
  have hten : (initFrames 4096 40960).length = 10 := rfl
  obtain ⟨s₁, v₁, hfork₁, hv₁, htable₁⟩ := processTable_firstOfTen.sysFork
  obtain rfl : v₁ = none := hv₁.mpr ⟨by decide, by omega⟩
  rw [if_pos rfl] at htable₁
  obtain ⟨s₂, v₂, hfork₂, hv₂, -⟩ := htable₁.sysFork
  obtain rfl : v₂ = none := hv₂.mpr ⟨by decide, by omega⟩
  obtain ⟨s₃, v, hfork₃, -⟩ :=
    System.sysFork_forks ({ (s₂.killProcess 0).1 with current := 1 } : System proccnt)
  have hfirst : Run ProcessStep firstOfTen s₁ :=
    .single ⟨.fork firstOfTen.current, .fork hfork₁⟩
  have hsecond : Run ProcessStep firstOfTen s₂ :=
    hfirst.tail ⟨.fork s₁.current, .fork hfork₂⟩
  have hrun : Run ProcessStep firstOfTen s₃ :=
    (hsecond.tail ⟨.kill 0, .kill 0⟩).tail ⟨.fork 1, .fork hfork₃⟩
  have hboot : AtBoot (bootSystem smallKernel) := fun _ => rfl
  exact ⟨s₁, s₂, s₃, v, hfork₁, hfork₂, hfork₃, pids_distinct hboot hrun⟩

end SkinnyArm
