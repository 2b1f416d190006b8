import SkinnyArm.Process.Resume

/-!
How long a runnable process waits to be selected.

* `WaitStep c`: a call of another process while that of slot `c` waits, where the slots `scheduler`
  selects are put on record.
* **Its slot is left alone** by every such call (`Call.Runs.slot_eq`), so it is among those every
  `scheduler` chooses from, whatever the others fork, put to sleep, wake up or kill in between.
* `bounded_waiting`: no slot is selected twice before it, and the one that ran at first not at all.
-/

namespace SkinnyArm

variable {s s' t : System proccnt} {c : Fin proccnt} {sel : List (Fin proccnt)}

/-- A step while the process of slot `c` is not the one that runs: a call that does not kill it, and
the slots selected so far, the last one first. -/
inductive WaitStep (c : Fin proccnt) :
    System proccnt × List (Fin proccnt) → System proccnt × List (Fin proccnt) → Prop
  | call {s s' : System proccnt} {sel : List (Fin proccnt)} {call : Call}
      (hother : s.current ≠ c) (hcall : call ≠ .scheduler) (hspare : call.Spares s c)
      (h : call.Runs s s') : WaitStep c (s, sel) (s', sel)
  | scheduler {s s' : System proccnt} {sel : List (Fin proccnt)} (hother : s.current ≠ c)
      (h : Call.scheduler.Runs s s') : WaitStep c (s, sel) (s', s'.current :: sel)

/-- **A call** of another process leaves a runnable slot alone, unless it kills it. -/
lemma Call.Runs.slot_eq {call : Call} (h : call.Runs s s') (hother : s.current ≠ c)
    (hspare : call.Spares s c) (hready : (s.processArray c).state = .runnable) :
    s'.processArray c = s.processArray c := by
  have hused : (s.processArray c).state ≠ .free := by simp [hready]
  cases h with
  | compute => rfl
  | fork h =>
      cases System.forks_of_sysFork h with
      | full => rfl
      | noStack => rfl
      | noTrap hi =>
          refine System.processArray_setProcess_of_ne _ ?_
          rintro rfl
          exact hused hi
      | child hi =>
          refine System.processArray_setProcess_of_ne _ ?_
          rintro rfl
          exact hused hi
  | scheduler h => exact (scheduler_saves h).2 c hother.symm
  | sleep lk => exact System.processArray_setProcess_of_ne _ hother.symm
  | wakeup lk =>
      have hwaits : ¬ (s.processArray c).WaitsOn lk := fun hw => by
        have hstate := hready.symm.trans hw.1
        exact absurd hstate (by simp)
      exact if_neg hwaits
  | kill pid =>
      by_cases hpid : (s.processArray 0).pid = pid
      · have hc : c ≠ 0 := fun hc => hspare pid rfl hc hpid
        rw [System.killProcess, if_pos hpid]
        exact System.processArray_setProcess_of_ne _ hc
      · rw [System.killProcess_of_ne hpid]

/-- What is known while the process of slot `c` waits since the one of slot `a` ran: the slots
selected are all different, and `c` is not among them before it is selected itself. -/
structure Waits (a c : Fin proccnt) (s : System proccnt) (sel : List (Fin proccnt)) : Prop where
  ready : (s.processArray c).state = .runnable
  nodup : (sel ++ [a]).Nodup
  passed : s.current ≠ c → CyclicPassed c s.current (sel ++ [a])
  selected : s.current = c → c ∈ sel

/-- **Every step** while it waits. -/
lemma Waits.step {a : Fin proccnt} {w w' : System proccnt × List (Fin proccnt)}
    (h : Waits a c w.1 w.2) (hstep : WaitStep c w w') : Waits a c w'.1 w'.2 := by
  cases hstep with
  | @call s s' sel call hother hcall hspare hrun =>
      have hready : (s.processArray c).state = .runnable := h.ready
      have hslot := hrun.slot_eq hother hspare hready
      obtain ⟨-, hcurrent⟩ := hrun.slotKept hcall hspare (by simp [hready])
      exact ⟨by rw [hslot]; exact hready, h.nodup, hcurrent ▸ h.passed, hcurrent ▸ h.selected⟩
  | @scheduler s s' sel hother hrun =>
      have hslot := hrun.slot_eq hother (fun pid hpid => absurd hpid (by simp)) h.ready
      have hready : (s'.processArray c).state = .runnable := by rw [hslot]; exact h.ready
      have hpassed := h.passed hother
      have hnext : CyclicNext s.ready s.current s'.current := by
        cases hrun with
        | scheduler hs => exact (System.Scheduled.next ⟨_, hs, rfl, fun _ => rfl⟩).1
      have hmem : c ∈ s.ready :=
        Finset.mem_insert_of_mem (mem_runnableSlots.mpr h.ready)
      by_cases hself : s'.current = c
      · refine ⟨hready, ?_, fun hne => absurd hself hne, fun _ => by simp [hself]⟩
        rw [hself, List.cons_append, List.nodup_cons]
        exact ⟨hpassed.notMem, hpassed.nodup⟩
      · have hpassed' := hpassed.next hnext hmem hother.symm (Ne.symm hself)
        exact ⟨hready, hpassed'.nodup, fun _ => hpassed', fun h => absurd h hself⟩

/-- **Bounded waiting**: from where a process is runnable and another one runs, whatever the others
call as long as they do not kill it, `scheduler` selects no slot twice before it, and not the one
that ran; so it is selected after `PROCCNT - 1` calls of `scheduler` at the latest. -/
theorem bounded_waiting (hready : (s.processArray c).state = .runnable) (hne : s.current ≠ c)
    (hrun : Run (WaitStep c) (s, []) (t, sel)) :
    (s.current :: sel).Nodup ∧ (c ∈ sel ↔ t.current = c) ∧
      (t.current = c ∨ sel.length + 2 ≤ proccnt) := by
  have hinit : Waits s.current c s [] :=
    ⟨hready, List.nodup_singleton _, fun _ => .start hne, fun hc => absurd hc hne⟩
  have h : Waits s.current c t sel :=
    hrun.invariant (I := fun w => Waits s.current c w.1 w.2) (fun h hstep => h.step hstep) hinit
  have hnotMem : t.current ≠ c → c ∉ sel ++ [s.current] := fun hc => (h.passed hc).notMem
  refine ⟨?_, ⟨fun hmem => ?_, h.selected⟩, ?_⟩
  · exact List.nodup_append_comm.mp h.nodup
  · by_contra hc
    exact hnotMem hc (List.mem_append_left _ hmem)
  · by_cases hc : t.current = c
    · exact .inl hc
    · have hall : (c :: (sel ++ [s.current])).Nodup :=
        List.nodup_cons.mpr ⟨hnotMem hc, h.nodup⟩
      have hlen := hall.length_le_card
      rw [Fintype.card_fin, List.length_cons, List.length_append, List.length_singleton] at hlen
      exact .inr (by omega)

/-- The child of the first process is selected by its first `scheduler`. -/
theorem bounded_waiting_two :
    let t := twoProcesses.schedule 1
    [twoProcesses.current, t.current].Nodup ∧ ((1 : Fin proccnt) ∈ [t.current] ↔ t.current = 1) ∧
      (t.current = 1 ∨ [t.current].length + 2 ≤ proccnt) := by
  refine bounded_waiting ((state_twoProcesses 1).mpr (by decide)) (by decide)
    (.single (.scheduler (by decide) ?_))
  exact .scheduler (twoProcesses.scheduler_schedule 0)

end SkinnyArm
