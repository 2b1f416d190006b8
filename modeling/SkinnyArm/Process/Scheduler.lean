import SkinnyArm.Kernel.Process
import SkinnyArm.Library.Cyclic

/-!
`scheduler` over any table.

* **One call.** `scheduler_eq`: the current slot becomes runnable and `scheduler` switches to the
  first runnable slot after it, going round the table; two rounds of its loop are enough.
* **Many calls.** `scheduler_fair`: where the calls follow one another and nothing else changes a
  state, they go through the runnable slots in turn.
-/

namespace SkinnyArm

variable {n : ℕ} {processArray : Fin n → Process n} {s : System n} {c : Fin n}

/-! ### The loops -/

/-- The inner loop finds the first runnable slot from where it starts. -/
lemma nextRunnable_eq_some {k : ℕ} {j : Fin n} (h : nextRunnable processArray k = some j) :
    k ≤ j ∧ (processArray j).state = .runnable ∧
      ∀ i : Fin n, k ≤ i → (processArray i).state = .runnable → j ≤ i := by
  induction k using nextRunnable.induct processArray with
  | case1 k hk hstate =>
      rw [nextRunnable, dif_pos hk, if_pos hstate, Option.some.injEq] at h
      subst h
      exact ⟨le_rfl, hstate, fun i hi _ => hi⟩
  | case2 k hk hstate ih =>
      rw [nextRunnable, dif_pos hk, if_neg hstate] at h
      obtain ⟨hle, hj, hfirst⟩ := ih h
      refine ⟨by omega, hj, fun i hi hrun => hfirst i ?_ hrun⟩
      have hne : i.val ≠ k := fun he => hstate (by simpa [← he] using hrun)
      omega
  | case3 k hk =>
      rw [nextRunnable, dif_neg hk] at h
      exact absurd h (by simp)

/-- The inner loop finds nothing if there is nothing. -/
lemma nextRunnable_eq_none {k : ℕ} (h : nextRunnable processArray k = none) (i : Fin n)
    (hi : k ≤ i) : (processArray i).state ≠ .runnable := by
  induction k using nextRunnable.induct processArray with
  | case1 k hk hstate =>
      rw [nextRunnable, dif_pos hk, if_pos hstate] at h
      exact absurd h (by simp)
  | case2 k hk hstate ih =>
      rw [nextRunnable, dif_pos hk, if_neg hstate] at h
      rcases Nat.eq_or_lt_of_le hi with he | hlt
      · have hik : i = ⟨k, hk⟩ := Fin.ext he.symm
        rwa [hik]
      · exact ih h hlt
  | case3 k hk => exact absurd i.isLt (by omega)

/-- The runnable slots. -/
def runnableSlots (processArray : Fin n → Process n) : Finset (Fin n) :=
  Finset.univ.filter fun i => (processArray i).state = .runnable

@[simp] lemma mem_runnableSlots {i : Fin n} :
    i ∈ runnableSlots processArray ↔ (processArray i).state = .runnable := by
  simp [runnableSlots]

/-- **The loops** end in the second round at the latest, with the first runnable slot after the
current one. -/
lemma nextRunnableRounds_eq (hc : (processArray c).state = .runnable) :
    ∃ j, (∀ fuel, 2 ≤ fuel → nextRunnableRounds processArray fuel (c + 1) = some j) ∧
      CyclicNext (runnableSlots processArray) c j := by
  cases hfirst : nextRunnable processArray (c + 1) with
  | some j =>
      refine ⟨j, fun fuel hfuel => ?_, ?_⟩
      · obtain ⟨fuel, rfl⟩ := Nat.exists_eq_add_of_le' hfuel
        rw [nextRunnableRounds, hfirst, Option.some_or]
      · obtain ⟨hle, hj, hmin⟩ := nextRunnable_eq_some hfirst
        refine .of_lt (mem_runnableSlots.mpr hj) hle fun i hi hlt => ?_
        exact hmin i hlt (mem_runnableSlots.mp hi)
  | none =>
      cases hagain : nextRunnable processArray 0 with
      | some j =>
          refine ⟨j, fun fuel hfuel => ?_, ?_⟩
          · obtain ⟨fuel, rfl⟩ := Nat.exists_eq_add_of_le' hfuel
            rw [nextRunnableRounds, hfirst, Option.none_or, nextRunnableRounds, hagain,
              Option.some_or]
          · obtain ⟨-, hj, hmin⟩ := nextRunnable_eq_some hagain
            refine .of_le (mem_runnableSlots.mpr hj) (fun i hi => ?_) fun i hi => ?_
            · by_contra hlt
              exact nextRunnable_eq_none hfirst i (not_le.mp hlt) (mem_runnableSlots.mp hi)
            · exact hmin i (Nat.zero_le _) (mem_runnableSlots.mp hi)
      | none => exact absurd hc (nextRunnable_eq_none hagain c (Nat.zero_le _))

/-! ### Calls -/

namespace System

/-- The first statement of `scheduler`. -/
def yieldCurrent (s : System n) : System n :=
  s.setProcess s.current { s.processArray s.current with state := .runnable }

/-- The slots `scheduler` chooses from: the runnable ones and the current one. -/
def ready (s : System n) : Finset (Fin n) := insert s.current (runnableSlots s.processArray)

lemma runnableSlots_yieldCurrent : runnableSlots s.yieldCurrent.processArray = s.ready := by
  ext i
  rw [mem_runnableSlots, ready, Finset.mem_insert, mem_runnableSlots, yieldCurrent, setProcess]
  rcases eq_or_ne i s.current with rfl | hi
  · simp
  · simp [hi]

/-- `switch_to` changes no state. -/
lemma state_switchTo (i j k : Fin n) :
    ((s.switchTo i j).processArray k).state = (s.processArray k).state := by
  rcases eq_or_ne k i with rfl | hk
  · simp [switchTo, setProcess]
  · simp [switchTo, setProcess, hk]

/-- **One call**: `scheduler` ends, and switches to the first slot after the current one that is
runnable, or current. -/
theorem scheduler_eq (s : System n) :
    ∃ j, (∀ fuel, 2 ≤ fuel → s.scheduler fuel = some (s.yieldCurrent.switchTo s.current j)) ∧
      CyclicNext s.ready s.current j := by
  have hcurr : (s.yieldCurrent.processArray s.current).state = .runnable := by
    simp [yieldCurrent, setProcess]
  obtain ⟨j, hj, hnext⟩ := nextRunnableRounds_eq hcurr
  rw [runnableSlots_yieldCurrent] at hnext
  refine ⟨j, fun fuel hfuel => ?_, hnext⟩
  show (nextRunnableRounds s.yieldCurrent.processArray fuel (s.current + 1)).map _ = _
  rw [hj fuel hfuel]
  rfl

/-- A call of `scheduler`, after which nothing but `scheduler` changes a state. -/
def Scheduled (s s' : System n) : Prop :=
  ∃ v, (∀ fuel, 2 ≤ fuel → s.scheduler fuel = some v) ∧ s'.current = v.current ∧
    ∀ i, (s'.processArray i).state = (v.processArray i).state

/-- A call keeps the slots there are to choose from. -/
lemma Scheduled.next {s' : System n} (h : s.Scheduled s') :
    CyclicNext s.ready s.current s'.current ∧ s'.ready = s.ready := by
  obtain ⟨v, hv, hcurr, hstate⟩ := h
  obtain ⟨j, hj, hnext⟩ := s.scheduler_eq
  have hvj : v = s.yieldCurrent.switchTo s.current j :=
    Option.some.inj ((hv 2 le_rfl).symm.trans (hj 2 le_rfl))
  have hcurrent : s'.current = j := by rw [hcurr, hvj, switchTo]
  have hslots : runnableSlots s'.processArray = s.ready := by
    rw [← runnableSlots_yieldCurrent]
    ext i
    rw [mem_runnableSlots, mem_runnableSlots, hstate, hvj, state_switchTo]
  refine ⟨hcurrent ▸ hnext, ?_⟩
  rw [ready, hslots, hcurrent]
  exact Finset.insert_eq_self.mpr hnext.1

/-- `scheduler` called over and over. -/
def schedule (s : System n) : ℕ → System n
  | 0 => s
  | k + 1 => ((s.schedule k).scheduler 2).getD (s.schedule k)

lemma scheduled_schedule (s : System n) (k : ℕ) :
    (s.schedule k).Scheduled (s.schedule (k + 1)) := by
  obtain ⟨j, hj, -⟩ := (s.schedule k).scheduler_eq
  have hnext :
      s.schedule (k + 1) = (s.schedule k).yieldCurrent.switchTo (s.schedule k).current j := by
    rw [schedule, hj 2 le_rfl, Option.getD_some]
  exact ⟨_, hj, by rw [hnext], fun i => by rw [hnext]⟩

/-- **Fairness**: `scheduler` ends and switches to the first slot after the current one that is
runnable or current; calls that follow one another go through these slots in turn, each of them
once in as many calls as there are slots. -/
theorem scheduler_fair :
    (∀ s : System n, ∃ j,
      (∀ fuel, 2 ≤ fuel → s.scheduler fuel = some (s.yieldCurrent.switchTo s.current j)) ∧
        CyclicNext s.ready s.current j) ∧
    ∀ w : ℕ → System n, (∀ k, (w k).Scheduled (w (k + 1))) →
      (∃ a, ∀ k,
        ((w 0).ready.sort (· ≤ ·))[(a + k) % (w 0).ready.card]? = some (w k).current) ∧
      ∀ k, ∀ i ∈ (w 0).ready, ∃! d, d < (w 0).ready.card ∧ (w (k + d)).current = i := by
  refine ⟨scheduler_eq, fun w hw => ?_⟩
  have hready : ∀ k, (w k).ready = (w 0).ready := fun k => by
    induction k with
    | zero => rfl
    | succ k ih => exact (hw k).next.2.trans ih
  have hwalk : CyclicWalk (w 0).ready fun k => (w k).current :=
    ⟨Finset.mem_insert_self _ _, fun k => hready k ▸ (hw k).next.1⟩
  exact ⟨hwalk.getElem?_sort, fun k i hi => hwalk.existsUnique k hi⟩

/-- Three slots: the second waits for a lock. -/
def threeSlots : System 3 where
  kernel := ⟨fun _ => 0, 0⟩
  processArray i := { Process.zero 3 with state := if i = 1 then .waiting else .runnable }
  current := 0
  registers := freeRegisters
  ttbr0 := 0

/-- Of every two calls one selects the last slot. -/
theorem scheduler_fair_three (k : ℕ) :
    ∃! d, d < 2 ∧ (threeSlots.schedule (k + d)).current = 2 :=
  (scheduler_fair.2 threeSlots.schedule threeSlots.scheduled_schedule).2 k 2 (by decide)

end System

end SkinnyArm
