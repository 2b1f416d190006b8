import SkinnyArm.Lock.Progress

/-!
A spin lock need not let a given CPU in.

* `starvingRun`: CPU `d` takes turn after turn (`turn`), and CPU `c` makes its test-and-set once in
  every turn, while `d` has the lock.
* `spinlock_starves`: the run is fair, and `c` spins for ever.  What `spinlock_progress` says of
  some CPU cannot be said of each.
-/

namespace SkinnyArm

variable {C : Type*} [DecidableEq C] {id : C → BitVec 8} {c d : C}

/-! ### A turn -/

/-- CPU `c` spins, `d` is at a point, and the others do nothing. -/
def turnState (c d : C) (lock : SpinLock) (p : SpinPoint) (acquired : Bool) : SpinWorld C where
  lock := lock
  point := Function.update (Function.update (fun _ => .idle) c (.acquire .testAndSet)) d p
  acquired := Function.update (fun _ => false) d acquired

/-- A turn of `d`, from a free lock in which `cpu` is `x`: it acquires the lock and releases it.
The second of the two times before it writes `cpu` is for `c`'s test-and-set. -/
def turn (id : C → BitVec 8) (c d : C) (x : BitVec 8) : ℕ → SpinWorld C
  | 0 => turnState c d ⟨false, x⟩ .idle false
  | 1 => turnState c d ⟨false, x⟩ (.acquire .testAndSet) false
  | 2 => turnState c d ⟨true, x⟩ (.acquire .setCpu) false
  | 3 => turnState c d ⟨true, x⟩ (.acquire .setCpu) false
  | 4 => turnState c d ⟨true, id d⟩ .idle true
  | 5 => turnState c d ⟨true, id d⟩ (.release .guard) true
  | 6 => turnState c d ⟨true, id d⟩ (.release .clearCpu) true
  | _ => turnState c d ⟨true, 0⟩ (.release .clearLocked) true

section TurnState

variable {lock : SpinLock} {p p' : SpinPoint} {acquired : Bool}

@[simp] lemma turnState_lock : (turnState c d lock p acquired).lock = lock := rfl

@[simp] lemma turnState_point_self : (turnState c d lock p acquired).point d = p := by
  simp [turnState]

@[simp] lemma turnState_acquired_self :
    (turnState c d lock p acquired).acquired d = acquired := by
  simp [turnState]

lemma turnState_spins (hcd : c ≠ d) :
    (turnState c d lock p acquired).point c = .acquire .testAndSet := by
  simp [turnState, hcd]

@[simp] lemma turnState_goto :
    (turnState c d lock p acquired).goto d p' = turnState c d lock p' acquired := by
  simp [turnState, SpinWorld.goto]

end TurnState

/-- The test-and-set of `d`. -/
lemma turn_one (x : BitVec 8) :
    ((turn id c d x 1).advance id d).1 = turn id c d x 2 := by
  rw [turn, SpinWorld.advance_testAndSet (by simp) rfl, turnState_goto]
  rfl

/-- The test-and-set of `c` finds the lock taken. -/
lemma turn_two (hcd : c ≠ d) (x : BitVec 8) :
    ((turn id c d x 2).advance id c).1 = turn id c d x 3 :=
  SpinWorld.advance_spin (turnState_spins hcd) rfl

/-- The rest of the turn, and the next one. -/
lemma turn_next (id : C → BitVec 8) (c d : C) (x : BitVec 8) :
    ((turn id c d x 3).advance id d).1 = turn id c d x 4 ∧
      ((turn id c d x 5).advance id d).1 = turn id c d x 6 ∧
      ((turn id c d x 6).advance id d).1 = turn id c d x 7 ∧
      ((turn id c d x 7).advance id d).1 = turn id c d 0 0 := by
  refine ⟨?_, ?_, ?_, ?_⟩
  · rw [turn, SpinWorld.advance_setCpu (by simp), turnState_goto]
    simp [turnState, turn]
  · rw [turn, SpinWorld.advance_guard (by simp) (by simp), turnState_goto]
    rfl
  · rw [turn, SpinWorld.advance_clearCpu (by simp), turnState_goto]
    rfl
  · have hlast : turn id c d x 7 = turnState c d ⟨true, 0⟩ (.release .clearLocked) true := rfl
    rw [hlast, SpinWorld.advance_clearLocked (by simp), turnState_goto]
    simp [turnState, turn]

/-- **A turn** is made of steps. -/
lemma turn_step (hcd : c ≠ d) (x : BitVec 8) {j : ℕ} (hj : j < 7) :
    HeldStep id (turn id c d x j) (turn id c d x (j + 1)) := by
  obtain ⟨h3, h5, h6, -⟩ := turn_next id c d x
  have hrun : ∀ {j} (e : C), ((turn id c d x j).advance id e).1 = turn id c d x (j + 1) →
      HeldStep id (turn id c d x j) (turn id c d x (j + 1)) := fun e h => h ▸ .run e
  interval_cases j
  case «0» =>
    have hcall : turn id c d x 1 = (turn id c d x 0).goto d (.acquire .testAndSet) := by
      simp [turn]
    exact hcall ▸ .acquire (by simp [turn])
  case «1» => exact hrun d (turn_one x)
  case «2» => exact hrun c (turn_two hcd x)
  case «3» => exact hrun d h3
  case «4» =>
    have hcall : turn id c d x 5 = (turn id c d x 4).goto d (.release .guard) := by
      simp [turn]
    exact hcall ▸ .release (by simp [turn]) (by simp [turn])
  case «5» => exact hrun d h5
  case «6» => exact hrun d h6

/-! ### Turn after turn -/

/-- `c` calls `spinlock_acquire`, and `d` takes turn after turn. -/
def starvingRun (id : C → BitVec 8) (c d : C) : ℕ → SpinWorld C
  | 0 => .init C
  | k + 1 => turn id c d (if k < 8 then 0xFF else 0) (k % 8)

/-- Every time of a turn comes again, with the one after it. -/
lemma exists_later (id : C → BitVec 8) (c d : C) (k : ℕ) {j : ℕ} (hj : j < 7) :
    ∃ l, k ≤ l ∧ starvingRun id c d l = turn id c d 0 j ∧
      starvingRun id c d (l + 1) = turn id c d 0 (j + 1) := by
  have hmod : (8 * (k + 1) + j) % 8 = j := by omega
  have hmod' : (8 * (k + 1) + j + 1) % 8 = j + 1 := by omega
  refine ⟨8 * (k + 1) + j + 1, by omega, ?_, ?_⟩
  · rw [starvingRun, if_neg (by omega), hmod]
  · rw [starvingRun, if_neg (by omega), hmod']

/-- At every time of a turn `c` spins and nobody but `d` does anything else. -/
lemma exists_turnState (id : C → BitVec 8) (c d : C) (k : ℕ) :
    ∃ lock p acquired, starvingRun id c d (k + 1) = turnState c d lock p acquired := by
  rw [starvingRun]
  generalize k % 8 = j
  match j with
  | 0 | 1 | 2 | 3 | 4 | 5 | 6 | _ + 7 => exact ⟨_, _, _, rfl⟩

lemma starvingRun_spins (hcd : c ≠ d) (k : ℕ) :
    (starvingRun id c d (k + 1)).point c = .acquire .testAndSet := by
  obtain ⟨lock, p, acquired, hturn⟩ := exists_turnState id c d k
  rw [hturn, turnState_spins hcd]

/-- The steps of the run. -/
lemma starvingRun_step (hcd : c ≠ d) (k : ℕ) :
    HeldStep id (starvingRun id c d k) (starvingRun id c d (k + 1)) := by
  cases k with
  | zero =>
      have hcall : starvingRun id c d 1 = (SpinWorld.init C).goto c (.acquire .testAndSet) := by
        simp [starvingRun, turn, turnState, SpinWorld.init, SpinWorld.goto, spinlockInit,
          Function.update_comm hcd]
      exact hcall ▸ .acquire rfl
  | succ k =>
      have hmod : k % 8 < 8 := Nat.mod_lt k (by norm_num)
      rcases Nat.lt_succ_iff_lt_or_eq.mp hmod with hlt | hlast
      · have hnext : (k + 1) % 8 = k % 8 + 1 := by omega
        have hsame : k + 1 < 8 ↔ k < 8 := by omega
        simp only [starvingRun, hnext, hsame]
        exact turn_step hcd _ hlt
      · have hnext : (k + 1) % 8 = 0 := by omega
        have hlater : ¬ k + 1 < 8 := by omega
        simp only [starvingRun, hnext, hlast, hlater, if_false]
        rw [← (turn_next id c d _).2.2.2]
        exact .run d

/-- **The run is fair**: both CPUs go on in every turn, and the lock is given back in every
turn. -/
lemma fairRun_starvingRun (hcd : c ≠ d) : FairRun id (starvingRun id c d) where
  start := rfl
  next k := .inr (starvingRun_step hcd k)
  runs k e he := by
    by_cases hed : e = d
    · subst hed
      obtain ⟨l, hkl, hl, hl'⟩ := exists_later id c e k (show 1 < 7 by norm_num)
      exact ⟨l, hkl, by rw [hl, hl', turn_one]⟩
    by_cases hec : e = c
    · subst hec
      obtain ⟨l, hkl, hl, hl'⟩ := exists_later id e d k (show 2 < 7 by norm_num)
      exact ⟨l, hkl, by rw [hl, hl', turn_two hcd]⟩
    · refine absurd ?_ he
      cases k with
      | zero => rfl
      | succ k =>
          obtain ⟨lock, p, acquired, hturn⟩ := exists_turnState id c d k
          rw [hturn]
          simp [turnState, hed, hec]
  released k e _ := by
    obtain ⟨l, hkl, hl, -⟩ := exists_later id c d k (show 0 < 7 by norm_num)
    exact ⟨l, hkl, by rw [hl]; simp [turn, turnState]⟩

/-- CPU 0 spins while CPU 1 has the lock; one of the two acquires it later. -/
theorem spinlock_progress_two : ∃ l d, 6 ≤ l ∧
    (starvingRun ![0, 1] (0 : Fin 2) 1 l).acquired d = false ∧
      (starvingRun ![0, 1] (0 : Fin 2) 1 (l + 1)).acquired d = true :=
  spinlock_progress (fairRun_starvingRun (by decide)) (starvingRun_spins (by decide) 5)

/-- **Starvation**: among any CPUs, for any two of them there is a fair run in which the first one
is in `spinlock_acquire` from its first step on and never gets the lock. -/
theorem spinlock_starves (id : C → BitVec 8) (hcd : c ≠ d) :
    ∃ w, FairRun id w ∧ ∀ k, (w (k + 1)).point c = .acquire .testAndSet ∧
      (w k).acquired c = false := by
  have hfair : FairRun id (starvingRun id c d) := fairRun_starvingRun hcd
  refine ⟨starvingRun id c d, hfair, fun k => ⟨starvingRun_spins hcd k, ?_⟩⟩
  cases k with
  | zero => rfl
  | succ k =>
      obtain ⟨lock, p, acquired, hturn⟩ := exists_turnState id c d k
      rw [hturn]
      simp [turnState, hcd]

/-- CPU 0 starves next to CPU 1. -/
theorem spinlock_starves_two : ∃ w, FairRun ![0, 1, 2, 3] w ∧
    ∀ k, (w (k + 1)).point 0 = .acquire .testAndSet ∧ (w k).acquired 0 = false :=
  spinlock_starves (c := (0 : Fin 4)) (d := 1) ![0, 1, 2, 3] (by decide)

end SkinnyArm
