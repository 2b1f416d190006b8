import SkinnyArm.Process.Fork
import SkinnyArm.Process.Scheduler

/-!
Which processes may run: `scheduler`, `sleep`, `wakeup` and `kill_process` in any order, with
`sys_fork` for the slots that are allocated anew.

* `Watch` keeps with the system what each process still waits for and which processes are dead, and
  `Calls` is one call, made by the process of any slot.
* `RestsRight` is the property of a state, and `RunsRight` of a run.
* `runsRight_iff`: a run has it exactly if `scheduler` is never called by a process that sleeps or
  is dead, and `wakeup` never finds a process that is dead or has slept on another lock too.
-/

namespace SkinnyArm

/-- The system; the locks each process has slept on with no `wakeup` since; the slots whose process
`kill_process` has freed and that are not allocated anew. -/
structure Watch where
  system : System proccnt
  asleep : Fin proccnt → Set ℕ
  dead : Set (Fin proccnt)

/-- Nobody sleeps and nobody is dead. -/
def Watch.start (system : System proccnt) : Watch := ⟨system, fun _ => ∅, ∅⟩

namespace Watch

variable (w : Watch) (c : Fin proccnt)

/-- A process that must not run. -/
def Off (i : Fin proccnt) : Prop := i ∈ w.dead ∨ (w.asleep i).Nonempty

/-- The system as the process of a slot sees it. -/
def seenBy : System proccnt := { w.system with current := c }

/-- The slots that go from free to used. -/
def allocated (s' : System proccnt) : Set (Fin proccnt) :=
  {i | (w.system.processArray i).state = .free ∧ (s'.processArray i).state ≠ .free}

end Watch

/-- The calls of a run. -/
inductive SchedOp where
  | scheduler
  | sleep (lk : ℕ)
  | wakeup (lk : ℕ)
  | kill (pid : BitVec 8)
  | fork

/-- A call by the process of slot `c`. -/
inductive Calls (w : Watch) (c : Fin proccnt) : SchedOp → Watch → Prop
  | scheduler {s' : System proccnt}
      (h : ∀ fuel, 2 ≤ fuel → (w.seenBy c).scheduler fuel = some s') :
      Calls w c .scheduler ⟨s', w.asleep, w.dead⟩
  | sleep (lk : ℕ) :
      Calls w c (.sleep lk)
        ⟨(w.seenBy c).sleep lk, Function.update w.asleep c (insert lk (w.asleep c)), w.dead⟩
  | wakeup (lk : ℕ) :
      Calls w c (.wakeup lk) ⟨(w.seenBy c).wakeup lk, fun i => w.asleep i \ {lk}, w.dead⟩
  | kill (pid : BitVec 8) :
      Calls w c (.kill pid)
        ⟨((w.seenBy c).killProcess pid).1, w.asleep,
          w.dead ∪ {i | i = 0 ∧ ((w.seenBy c).killProcess pid).2 = 0}⟩
  | fork {s' : System proccnt} {v : Option ℤ} (h : (w.seenBy c).sysFork = some (s', v)) :
      Calls w c .fork
        ⟨s', fun i => {lk ∈ w.asleep i | i ∉ w.allocated s'}, w.dead \ w.allocated s'⟩

/-- No process that must not run is runnable. -/
def RestsRight (w : Watch) : Prop :=
  ∀ i, w.Off i → (w.system.processArray i).state ≠ .runnable

/-- All over a run, no process that must not run is runnable or selected by `scheduler`. -/
def RunsRight : Watch → List (Fin proccnt × SchedOp) → Prop
  | w, [] => RestsRight w
  | w, (c, op) :: calls => RestsRight w ∧ ∀ w', Calls w c op w' →
      (op = .scheduler → ¬ w'.Off w'.system.current) ∧ RunsRight w' calls

/-- `scheduler` is called by a process that may run, and `wakeup` wakes only processes that are
alive and have slept on no other lock. -/
def Watch.Fit (w : Watch) (c : Fin proccnt) : SchedOp → Prop
  | .scheduler => ¬ w.Off c
  | .wakeup lk => ∀ i, (w.system.processArray i).WaitsOn lk → i ∉ w.dead ∧ w.asleep i ⊆ {lk}
  | _ => True

/-- All calls of a run are so. -/
def RunsFit : Watch → List (Fin proccnt × SchedOp) → Prop
  | _, [] => True
  | w, (c, op) :: calls => w.Fit c op ∧ ∀ w', Calls w c op w' → RunsFit w' calls

variable {w w' : Watch} {c : Fin proccnt} {op : SchedOp}

/-- Every call ends. -/
lemma exists_calls (w : Watch) (c : Fin proccnt) (op : SchedOp) : ∃ w', Calls w c op w' := by
  cases op with
  | scheduler =>
      obtain ⟨j, hj, -⟩ := (w.seenBy c).scheduler_eq
      exact ⟨_, .scheduler hj⟩
  | sleep lk => exact ⟨_, .sleep lk⟩
  | wakeup lk => exact ⟨_, .wakeup lk⟩
  | kill pid => exact ⟨_, .kill pid⟩
  | fork =>
      obtain ⟨s', v, h, -⟩ := (w.seenBy c).sysFork_forks
      exact ⟨_, .fork h⟩

/-! ### One call -/

/-- `scheduler` makes its caller runnable, whatever its state. -/
lemma scheduler_restsRight_iff (h : RestsRight w) {s' : System proccnt}
    (hs : ∀ fuel, 2 ≤ fuel → (w.seenBy c).scheduler fuel = some s') :
    RestsRight ⟨s', w.asleep, w.dead⟩ ∧ ¬ w.Off s'.current ↔ ¬ w.Off c := by
  obtain ⟨j, hj, hnext⟩ := (w.seenBy c).scheduler_eq
  obtain rfl := Option.some.inj ((hs 2 le_rfl).symm.trans (hj 2 le_rfl))
  have hself : (((w.seenBy c).yieldCurrent.switchTo c j).processArray c).state = .runnable := by
    rw [System.state_switchTo]
    simp [System.yieldCurrent, System.setProcess, Watch.seenBy]
  have hother : ∀ i, i ≠ c → (((w.seenBy c).yieldCurrent.switchTo c j).processArray i).state =
      (w.system.processArray i).state := by
    intro i hi
    rw [System.state_switchTo]
    simp [System.yieldCurrent, System.setProcess, Watch.seenBy, hi]
  constructor
  · rintro ⟨hrests, -⟩ hoff
    exact hrests c hoff hself
  · intro hc
    have hrests : ∀ i, w.Off i → (((w.seenBy c).yieldCurrent.switchTo c j).processArray i).state ≠
        .runnable := by
      intro i hi
      have hne : i ≠ c := fun he => hc (he ▸ hi)
      rw [hother i hne]
      exact h i hi
    refine ⟨hrests, fun hoff => ?_⟩
    -- the slot selected is runnable, or the caller's
    rcases Finset.mem_insert.mp hnext.1 with hjc | hrun
    · obtain rfl : j = c := hjc
      exact hc hoff
    · exact h j hoff (mem_runnableSlots.mp hrun)

/-- `wakeup` makes the processes runnable that it finds. -/
lemma wakeup_restsRight_iff (h : RestsRight w) (lk : ℕ) :
    RestsRight ⟨(w.seenBy c).wakeup lk, fun i => w.asleep i \ {lk}, w.dead⟩ ↔
      w.Fit c (.wakeup lk) := by
  have hoff : ∀ i, Watch.Off ⟨(w.seenBy c).wakeup lk, fun i => w.asleep i \ {lk}, w.dead⟩ i ↔
      i ∈ w.dead ∨ (w.asleep i \ {lk}).Nonempty := fun i => Iff.rfl
  constructor
  · intro hrests i hi
    have hrun : (((w.seenBy c).wakeup lk).processArray i).state = .runnable := by
      simp [System.wakeup, Watch.seenBy, hi]
    have hnot : ¬ Watch.Off ⟨(w.seenBy c).wakeup lk, fun i => w.asleep i \ {lk}, w.dead⟩ i :=
      fun ho => hrests i ho hrun
    rw [hoff, not_or, Set.not_nonempty_iff_eq_empty, Set.sdiff_eq_empty] at hnot
    exact hnot
  · intro hfit i hi
    rw [hoff] at hi
    by_cases hwaits : (w.system.processArray i).WaitsOn lk
    · obtain ⟨halive, honly⟩ := hfit i hwaits
      rcases hi with hdead | hasleep
      · exact absurd hdead halive
      · rw [Set.sdiff_eq_empty.mpr honly] at hasleep
        exact absurd hasleep Set.not_nonempty_empty
    · have hstate : (((w.seenBy c).wakeup lk).processArray i).state =
          (w.system.processArray i).state := by
        simp [System.wakeup, Watch.seenBy, hwaits]
      show (((w.seenBy c).wakeup lk).processArray i).state ≠ .runnable
      rw [hstate]
      exact h i (hi.imp_right fun hne => hne.mono Set.sdiff_subset)

/-- `kill_process` makes nobody runnable. -/
lemma killProcess_restsRight (h : RestsRight w) (pid : BitVec 8) :
    RestsRight ⟨((w.seenBy c).killProcess pid).1, w.asleep,
      w.dead ∪ {i | i = 0 ∧ ((w.seenBy c).killProcess pid).2 = 0}⟩ := by
  intro i hi
  by_cases hpid : ((w.seenBy c).processArray 0).pid = pid
  · rw [System.killProcess, if_pos hpid] at hi ⊢
    rcases eq_or_ne i 0 with rfl | hi0
    · simp [System.setProcess]
    · have hoff : w.Off i := hi.imp_left fun hd => hd.resolve_right fun h0 => hi0 h0.1
      simpa [System.setProcess, Watch.seenBy, hi0] using h i hoff
  · rw [System.killProcess_of_ne hpid] at hi ⊢
    exact h i (hi.imp_left fun hd => hd.resolve_right fun h0 => by simp at h0)

/-- `sys_fork` makes a slot runnable that it has allocated. -/
lemma sysFork_restsRight (h : RestsRight w) {s' : System proccnt} {v : Option ℤ}
    (hs : (w.seenBy c).sysFork = some (s', v)) :
    RestsRight ⟨s', fun i => {lk ∈ w.asleep i | i ∉ w.allocated s'}, w.dead \ w.allocated s'⟩ := by
  intro i hi
  have hnew : i ∉ w.allocated s' := by
    rcases hi with hdead | ⟨lk, hlk⟩
    · exact hdead.2
    · exact hlk.2
  have hold : w.Off i := by
    rcases hi with hdead | ⟨lk, hlk⟩
    · exact .inl hdead.1
    · exact .inr ⟨lk, hlk.1⟩
  have hkeep : (s'.processArray i).state = .free ∨
      (s'.processArray i).state = (w.system.processArray i).state := by
    cases System.forks_of_sysFork hs with
    | full => exact .inr rfl
    | noStack => exact .inr rfl
    | @noTrap j _ _ hj =>
        rcases eq_or_ne i j with rfl | hij
        · exact .inr (by simp [System.setProcess, Watch.seenBy])
        · exact .inr (by simp [System.setProcess, Watch.seenBy, hij])
    | @child j _ _ _ _ _ _ hj =>
        rcases eq_or_ne i j with rfl | hij
        · exact absurd ⟨hj, by simp [System.setProcess, forkedProcess]⟩ hnew
        · exact .inr (by simp [System.setProcess, Watch.seenBy, hij])
  rcases hkeep with hfree | hsame
  · simp [hfree]
  · exact hsame ▸ h i hold

/-- **A call** leaves no process runnable that must not run, and selects none, exactly if it is
fit. -/
lemma Calls.restsRight_iff (hcall : Calls w c op w') (h : RestsRight w) :
    RestsRight w' ∧ (op = .scheduler → ¬ w'.Off w'.system.current) ↔ w.Fit c op := by
  cases hcall with
  | scheduler hs =>
      rw [Watch.Fit, ← scheduler_restsRight_iff h hs]
      exact and_congr_right fun _ => ⟨fun ho => ho rfl, fun ho _ => ho⟩
  | sleep lk =>
      refine iff_of_true ⟨fun i hi => ?_, by simp⟩ trivial
      rcases eq_or_ne i c with rfl | hic
      · simp [System.sleep, System.setProcess, Watch.seenBy]
      · have hoff : w.Off i := by simpa [Watch.Off, hic] using hi
        simpa [System.sleep, System.setProcess, Watch.seenBy, hic] using h i hoff
  | wakeup lk =>
      rw [wakeup_restsRight_iff h lk]
      exact and_iff_left (by simp)
  | kill pid => exact iff_of_true ⟨killProcess_restsRight h pid, by simp⟩ trivial
  | fork hs => exact iff_of_true ⟨sysFork_restsRight h hs, by simp⟩ trivial

/-! ### Runs -/

/-- **A run** from any state in which no such process is runnable. -/
lemma RestsRight.right_iff (h : RestsRight w) (calls : List (Fin proccnt × SchedOp)) :
    RunsRight w calls ↔ RunsFit w calls := by
  induction calls generalizing w with
  | nil => exact iff_of_true h trivial
  | cons call calls ih =>
      obtain ⟨c, op⟩ := call
      constructor
      · rintro ⟨-, hnext⟩
        have hrests : ∀ w', Calls w c op w' → RestsRight w' := fun w' hcall => by
          have hrun := (hnext w' hcall).2
          cases calls with
          | nil => exact hrun
          | cons call calls => exact hrun.1
        obtain ⟨w', hcall⟩ := exists_calls w c op
        refine ⟨(hcall.restsRight_iff h).mp ⟨hrests w' hcall, (hnext w' hcall).1⟩, ?_⟩
        exact fun w' hcall => (ih (hrests w' hcall)).mp (hnext w' hcall).2
      · rintro ⟨hfit, hnext⟩
        refine ⟨h, fun w' hcall => ?_⟩
        obtain ⟨hrests, hselect⟩ := (hcall.restsRight_iff h).mpr hfit
        exact ⟨hselect, (ih hrests).mpr (hnext w' hcall)⟩

/-- **Sleeping and dead processes**: over a run from any table they are never runnable and never
selected, exactly if `scheduler` is only called by processes that may run and `wakeup` only finds
processes that are alive and have slept on no other lock. -/
theorem runsRight_iff (s : System proccnt) (calls : List (Fin proccnt × SchedOp)) :
    RunsRight (.start s) calls ↔ RunsFit (.start s) calls := by
  refine RestsRight.right_iff (fun i hi => ?_) calls
  simp [Watch.Off, Watch.start] at hi

/-- The first process goes to sleep, and is runnable again when the timer calls `scheduler`. -/
theorem not_runsRight_sleep :
    ¬ RunsRight (.start ((bootSystem ⟨fun _ => 0, 0⟩).createFirstProcess 0))
      [(0, .sleep 0x5000), (0, .scheduler)] := by
  have hrests : RestsRight (.start ((bootSystem ⟨fun _ => 0, 0⟩).createFirstProcess 0)) :=
    fun i hi => by simp [Watch.Off, Watch.start] at hi
  rw [hrests.right_iff]
  rintro ⟨-, hnext⟩
  exact (hnext _ (.sleep 0x5000)).1 (.inr ⟨0x5000, by simp⟩)

end SkinnyArm
