import SkinnyArm.Kernel.Process
import SkinnyArm.Lock.SpinLock

/-!
One sleep lock under every interleaving of any number of processes.

* **Steps.** A process that is in no call may call `sleeplock_acquire`, and `sleeplock_release` once
  its `sleeplock_acquire` has returned, on any CPU; inside a call it runs one statement at a time
  (`SleepWorld.advance`).  The calls of the spin lock inside are steps of `SpinWorld`, whose CPUs
  here are the pairs of a process and the CPU it runs on.
* **The invariant.** `SleepInv`: the spin lock's own invariant, what each point of the code knows of
  the spin lock, and that `locked` is set exactly if a process has the lock.
* **The results.** `sleep` gives the spin lock back and does not take it again, so the loop of
  `sleeplock_acquire` tests `locked` without it.  `sleeplock_exclusive` is exclusion for the runs in
  which no process leaves the loop so.
-/

namespace SkinnyArm

/-- The calls of the spin lock: at the start of the two functions, in `sleep`, and at the ends. -/
inductive SpinCall where
  | acquireLock
  | releaseLock
  | sleepUnlock
  | acquireUnlock
  | releaseUnlock
  deriving DecidableEq

/-- Where a process is: in no call, in a call of the spin lock, or before a statement of
`sleeplock_acquire` (`test`, `setLocked`, `setPid`), `sleep` (`sleepState`, `sleepWait`),
`sleeplock_release` (`clearLocked`, `clearPid`) or `wakeup` (the test of a slot and the two
stores). -/
inductive SleepPoint (n : ℕ) where
  | idle
  | spin (k : SpinCall)
  | test
  | sleepState
  | sleepWait
  | setLocked
  | setPid
  | clearLocked
  | clearPid
  | wake (i : ℕ)
  | wakeState (i : Fin n)
  | wakeWait (i : Fin n)
  deriving DecidableEq

/-- Where a call of the spin lock starts. -/
def SpinCall.entry : SpinCall → SpinPoint
  | .acquireLock | .releaseLock => .acquire .testAndSet
  | .sleepUnlock | .acquireUnlock | .releaseUnlock => .release .guard

/-- Where it returns to. -/
def SpinCall.after {n : ℕ} : SpinCall → SleepPoint n
  | .acquireLock => .test
  | .releaseLock => .clearLocked
  | .sleepUnlock => .test
  | .acquireUnlock | .releaseUnlock => .idle

/-- A sleep lock (`spin.lock`, `locked` and `pid`) with the processes that use it, the CPU of each,
and whose `sleeplock_acquire` has returned without a `sleeplock_release` since. -/
structure SleepWorld (n : ℕ) where
  spin : SpinWorld (Fin n × BitVec 8)
  locked : Bool
  pid : BitVec 8
  processArray : Fin n → Process n
  point : Fin n → SleepPoint n
  cpu : Fin n → BitVec 8
  held : Fin n → Bool

namespace SleepWorld

variable {n : ℕ}

/-- After `sleeplock_init`. -/
def init (processArray : Fin n → Process n) : SleepWorld n where
  spin := { SpinWorld.init (Fin n × BitVec 8) with lock := sleeplockInit.spinLk }
  locked := sleeplockInit.locked
  pid := sleeplockInit.pid
  processArray := processArray
  point := fun _ => .idle
  cpu := fun _ => 0
  held := fun _ => false

variable (s : SleepWorld n) (p : Fin n)

/-- The process on its CPU. -/
def agent : Fin n × BitVec 8 := (p, s.cpu p)

/-- A process gets to a point. -/
def goto (x : SleepPoint n) : SleepWorld n := { s with point := Function.update s.point p x }

/-- A process calls a function of the spin lock. -/
def callSpin (k : SpinCall) : SleepWorld n :=
  { s.goto p (.spin k) with spin := s.spin.goto (s.agent p) k.entry }

/-- A process runs a statement of the spin lock; the call may return. -/
def advanceSpin (k : SpinCall) : SleepWorld n :=
  let w := (s.spin.advance Prod.snd (s.agent p)).1
  if w.point (s.agent p) = .idle then
    { s.goto p k.after with
      spin := w
      held := Function.update s.held p (s.held p || k = .acquireUnlock) }
  else { s with spin := w }

/-- A write to a slot of the process table. -/
def setProcess (i : Fin n) (q : Process n) : SleepWorld n :=
  { s with processArray := Function.update s.processArray i q }

/-- A process runs the statement it is at; `lk` is the address of the sleep lock, `addr` are those
of the processes. -/
def advance (lk : ℕ) (addr : Fin n → BitVec 64) : SleepWorld n :=
  match s.point p with
  | .idle => s
  | .spin k => s.advanceSpin p k
  | .test => s.goto p (if s.locked then .sleepState else .setLocked)
  | .sleepState =>
      (s.setProcess p { s.processArray p with state := .waiting }).goto p .sleepWait
  | .sleepWait => (s.setProcess p { s.processArray p with waitOn := lk }).callSpin p .sleepUnlock
  | .setLocked => ({ s with locked := true } : SleepWorld n).goto p .setPid
  | .setPid => ({ s with pid := (addr p).setWidth 8 } : SleepWorld n).callSpin p .acquireUnlock
  | .clearLocked => ({ s with locked := false } : SleepWorld n).goto p .clearPid
  | .clearPid => ({ s with pid := 0 } : SleepWorld n).goto p (.wake 0)
  | .wake i =>
      if h : i < n then
        s.goto p (if (s.processArray ⟨i, h⟩).WaitsOn lk then .wakeState ⟨i, h⟩ else .wake (i + 1))
      else s.callSpin p .releaseUnlock
  | .wakeState i =>
      (s.setProcess i { s.processArray i with state := .runnable }).goto p (.wakeWait i)
  | .wakeWait i => (s.setProcess i { s.processArray i with waitOn := 0 }).goto p (.wake (i + 1))

/-- A process calls `sleeplock_acquire` on a CPU. -/
def callAcquire (c : BitVec 8) : SleepWorld n :=
  ({ s with cpu := Function.update s.cpu p c } : SleepWorld n).callSpin p .acquireLock

/-- A process calls `sleeplock_release` on a CPU. -/
def callRelease (c : BitVec 8) : SleepWorld n :=
  ({ s with
      cpu := Function.update s.cpu p c
      held := Function.update s.held p false } : SleepWorld n).callSpin p .releaseLock

end SleepWorld

/-- The steps of all processes: the calls, of `sleeplock_release` by a process that has the lock,
and the statements that meet a condition. -/
inductive SleepStep {n : ℕ} (lk : ℕ) (addr : Fin n → BitVec 64)
    (met : SleepWorld n → Fin n → Prop) : SleepWorld n → SleepWorld n → Prop
  | acquire {s : SleepWorld n} {p : Fin n} (c : BitVec 8) (h : s.point p = .idle) :
      SleepStep lk addr met s (s.callAcquire p c)
  | release {s : SleepWorld n} {p : Fin n} (c : BitVec 8) (h : s.point p = .idle)
      (hheld : s.held p = true) : SleepStep lk addr met s (s.callRelease p c)
  | run {s : SleepWorld n} (p : Fin n) (h : met s p) :
      SleepStep lk addr met s (s.advance p lk addr)

namespace SleepWorld

variable {n : ℕ} (s : SleepWorld n) (p : Fin n)

/-- The process owns the spin lock. -/
def Owner : Prop := s.spin.acquired (s.agent p) = true

/-- A process leaves the loop of `sleeplock_acquire` as the owner of the spin lock, and only the
owner passes the guard of `spinlock_release`. -/
def LeavesOwned : Prop :=
  (s.point p = .test → s.locked = false → s.Owner p) ∧
    (s.spin.point (s.agent p) = .release .guard →
      spinlockHolds s.spin.lock (s.cpu p) = true → s.Owner p)

/-- A process tests `locked` as the owner of the spin lock. -/
def TestsOwned : Prop := s.point p = .test → s.Owner p

end SleepWorld

variable {n : ℕ} {s s' t : SleepWorld n} {p q : Fin n} {lk : ℕ} {addr : Fin n → BitVec 64}

/-! ### What a step leaves alone -/

/-- What a step of a process leaves alone. -/
structure StepsAlone (p : Fin n) (s s' : SleepWorld n) : Prop where
  point : ∀ q, q ≠ p → s'.point q = s.point q
  held : ∀ q, q ≠ p → s'.held q = s.held q
  cpu : ∀ q, q ≠ p → s'.cpu q = s.cpu q
  agents : ∀ c, c ≠ s'.agent p → s'.spin.point c = s.spin.point c ∧
    s'.spin.acquired c = s.spin.acquired c

namespace StepsAlone

lemma of_eq (hpoint : t.point = s.point) (hspin : t.spin = s.spin) (hcpu : t.cpu = s.cpu)
    (hheld : t.held = s.held) : StepsAlone p s t where
  point := fun q _ => by rw [hpoint]
  held := fun q _ => by rw [hheld]
  cpu := fun q _ => by rw [hcpu]
  agents := fun c _ => by
    rw [hspin]
    exact ⟨rfl, rfl⟩

lemma goto (h : StepsAlone p s t) (x : SleepPoint n) : StepsAlone p s (t.goto p x) where
  point := fun q hq => (Function.update_of_ne hq _ _).trans (h.point q hq)
  held := h.held
  cpu := h.cpu
  agents := h.agents

lemma callSpin (h : StepsAlone p s t) (k : SpinCall) : StepsAlone p s (t.callSpin p k) where
  point := fun q hq => (Function.update_of_ne hq _ _).trans (h.point q hq)
  held := h.held
  cpu := h.cpu
  agents := fun c hc =>
    ⟨(SpinWorld.point_goto_of_ne _ hc).trans (h.agents c hc).1, (h.agents c hc).2⟩

lemma advanceSpin (s : SleepWorld n) (p : Fin n) (k : SpinCall) :
    StepsAlone p s (s.advanceSpin p k) := by
  have hagents : ∀ c, c ≠ s.agent p →
      (s.spin.advance Prod.snd (s.agent p)).1.point c = s.spin.point c ∧
        (s.spin.advance Prod.snd (s.agent p)).1.acquired c = s.spin.acquired c := fun c hc =>
    ⟨SpinWorld.point_advance_of_ne hc, SpinWorld.acquired_advance_of_ne hc⟩
  rw [SleepWorld.advanceSpin]
  split
  · exact ⟨fun q hq => Function.update_of_ne hq _ _, fun q hq => Function.update_of_ne hq _ _,
      fun _ _ => rfl, hagents⟩
  · exact ⟨fun _ _ => rfl, fun _ _ => rfl, fun _ _ => rfl, hagents⟩

/-- A statement of one process is no statement of another. -/
lemma advance (s : SleepWorld n) (p : Fin n) : StepsAlone p s (s.advance p lk addr) := by
  rw [SleepWorld.advance]
  cases s.point p with
  | idle => exact .of_eq rfl rfl rfl rfl
  | spin k => exact .advanceSpin s p k
  | sleepWait | setPid => exact .callSpin (.of_eq (by rfl) (by rfl) (by rfl) (by rfl)) _
  | wake i =>
      dsimp only
      split
      · exact .goto (.of_eq (by rfl) (by rfl) (by rfl) (by rfl)) _
      · exact .callSpin (.of_eq (by rfl) (by rfl) (by rfl) (by rfl)) _
  | test | sleepState | setLocked | clearLocked | clearPid | wakeState | wakeWait =>
      exact .goto (.of_eq (by rfl) (by rfl) (by rfl) (by rfl)) _

/-- The agents of the other processes are as before. -/
lemma agent_eq (h : StepsAlone p s s') (hq : q ≠ p) : s'.agent q = s.agent q := by
  rw [SleepWorld.agent, h.cpu q hq]
  rfl

end StepsAlone

namespace SleepWorld

@[simp] lemma point_goto_self (s : SleepWorld n) (p : Fin n) (x : SleepPoint n) :
    (s.goto p x).point p = x := Function.update_self _ _ _

@[simp] lemma point_callSpin_self (s : SleepWorld n) (p : Fin n) (k : SpinCall) :
    (s.callSpin p k).point p = .spin k := Function.update_self _ _ _

@[simp] lemma processArray_goto (s : SleepWorld n) (p : Fin n) (x : SleepPoint n) :
    (s.goto p x).processArray = s.processArray := rfl

@[simp] lemma processArray_callSpin (s : SleepWorld n) (p : Fin n) (k : SpinCall) :
    (s.callSpin p k).processArray = s.processArray := rfl

@[simp] lemma processArray_setProcess_self (s : SleepWorld n) (i : Fin n) (x : Process n) :
    (s.setProcess i x).processArray i = x := Function.update_self _ _ _

lemma processArray_setProcess_of_ne (s : SleepWorld n) {i : Fin n} (x : Process n) (hq : q ≠ i) :
    (s.setProcess i x).processArray q = s.processArray q := Function.update_of_ne hq _ _

/-- A statement of the spin lock touches the spin lock and where the process is. -/
lemma advanceSpin_eq (s : SleepWorld n) (p : Fin n) (k : SpinCall) :
    (s.advanceSpin p k).processArray = s.processArray ∧ (s.advanceSpin p k).locked = s.locked ∧
      (s.advanceSpin p k).agent p = s.agent p ∧
      (s.advanceSpin p k).spin = (s.spin.advance Prod.snd (s.agent p)).1 := by
  rw [advanceSpin]
  split <;> exact ⟨rfl, rfl, rfl, rfl⟩

lemma point_advanceSpin (s : SleepWorld n) (p : Fin n) (k : SpinCall) :
    (s.advanceSpin p k).point p =
      if (s.spin.advance Prod.snd (s.agent p)).1.point (s.agent p) = .idle then k.after
      else s.point p := by
  rw [advanceSpin]
  split
  · exact Function.update_self _ _ _
  · rfl

lemma held_advanceSpin (s : SleepWorld n) (p : Fin n) (k : SpinCall) :
    (s.advanceSpin p k).held p =
      if (s.spin.advance Prod.snd (s.agent p)).1.point (s.agent p) = .idle then
        s.held p || k = .acquireUnlock
      else s.held p := by
  rw [advanceSpin]
  split
  · exact Function.update_self _ _ _
  · rfl

end SleepWorld


/-! ### The invariant -/

namespace SleepPoint

/-- Where a process is in the spin lock's code at a point, and whether it owns the spin lock. -/
def Placed (sp : SpinPoint) (own : Bool) : SleepPoint n → Prop
  | .idle => sp = .idle ∧ own = false
  | .spin .acquireLock | .spin .releaseLock => (∃ a, sp = .acquire a) ∧ own = false
  | .spin .sleepUnlock => ∃ r, sp = .release r
  | .spin .acquireUnlock | .spin .releaseUnlock => (∃ r, sp = .release r) ∧ own = true
  | .test | .sleepState | .sleepWait => sp = .idle
  | _ => sp = .idle ∧ own = true

/-- The points between the store to `locked` in `sleeplock_acquire` and its return, and between the
start of `sleeplock_release` and its store. -/
def HasLock : SleepPoint n → Prop
  | .setPid | .spin .acquireUnlock | .spin .releaseLock | .clearLocked => True
  | _ => False

/-- The points of `sleeplock_release` and of the `wakeup` in it. -/
def Releasing : SleepPoint n → Prop
  | .spin .releaseLock | .clearLocked | .clearPid | .wake _ | .wakeState _ | .wakeWait _
  | .spin .releaseUnlock => True
  | _ => False

end SleepPoint

/-- A process has the sleep lock. -/
def SleepWorld.HasLock (s : SleepWorld n) (p : Fin n) : Prop :=
  s.held p = true ∨ (s.point p).HasLock

/-- Between statements: the spin lock's invariant, what the points of the code know, and `locked`
set exactly if a process has the lock. -/
structure SleepInv (s : SleepWorld n) : Prop where
  spin : SpinInv Prod.snd s.spin
  away : ∀ p i, i ≠ s.cpu p → s.spin.point (p, i) = .idle ∧ s.spin.acquired (p, i) = false
  place : ∀ p, (s.point p).Placed (s.spin.point (s.agent p)) (s.spin.acquired (s.agent p))
  locked : s.locked = true ↔ ∃ p, s.HasLock p
  unique : {p | s.HasLock p}.Subsingleton
  free : ∀ p, s.point p = .setLocked → s.locked = false
  releasing : ∀ p, (s.point p).Releasing → s.held p = false

/-- How a step changes who has the lock: not at all, it takes the lock, or it gives the lock
back. -/
def LockMoves (p : Fin n) (s s' : SleepWorld n) : Prop :=
  s'.locked = s.locked ∧ (s'.HasLock p ↔ s.HasLock p) ∨
    s.locked = false ∧ s'.locked = true ∧ s'.HasLock p ∧ s.Owner p ∨
    s.HasLock p ∧ s'.locked = false ∧ ¬ s'.HasLock p

lemma sleepInv_init (processArray : Fin n → Process n) : SleepInv (.init processArray) where
  spin := spinInv_init
  away := fun _ _ _ => ⟨rfl, rfl⟩
  place := fun _ => ⟨rfl, rfl⟩
  locked := by simp [SleepWorld.init, SleepWorld.HasLock, SleepPoint.HasLock, sleeplockInit]
  unique := fun p hp => by simp [SleepWorld.init, SleepWorld.HasLock, SleepPoint.HasLock] at hp
  free := fun p hp => by simp [SleepWorld.init] at hp
  releasing := fun p hp => rfl

/-- A step that does not touch `locked`. -/
lemma LockMoves.same (hlocked : s'.locked = s.locked) (hheld : s'.held p = s.held p)
    (hpoint : (s'.point p).HasLock ↔ (s.point p).HasLock) : LockMoves p s s' :=
  .inl ⟨hlocked, by rw [SleepWorld.HasLock, hheld, hpoint, SleepWorld.HasLock]⟩

namespace SleepInv

/-- A process at a point that only the owner of the spin lock is at. -/
lemma owner_of_setLocked (h : SleepInv s) (hp : s.point p = .setLocked) : s.Owner p := by
  have hplace := h.place p
  rw [hp] at hplace
  exact hplace.2

/-- The spin lock has one owner. -/
lemma eq_of_owner (h : SleepInv s) (hp : s.Owner p) (hq : s.Owner q) : q = p :=
  congrArg Prod.fst (h.spin.eq_of_owns (.inl hp) (.inl hq))

/-- A process in no call is in no call of the spin lock, on whatever CPU. -/
lemma agent_idle (h : SleepInv s) (hp : s.point p = .idle) (c : BitVec 8) :
    s.spin.point (p, c) = .idle ∧ s.spin.acquired (p, c) = false := by
  by_cases hc : c = s.cpu p
  · subst hc
    have hplace := h.place p
    rw [hp] at hplace
    exact hplace
  · exact h.away p c hc

/-- **A step** of one process: what has to be checked of the process and of the two locks. -/
lemma update (h : SleepInv s) (halone : StepsAlone p s s')
    (hcpu : s'.cpu p = s.cpu p ∨ s.point p = .idle) (hspin : SpinInv Prod.snd s'.spin)
    (hplace : (s'.point p).Placed (s'.spin.point (s'.agent p)) (s'.spin.acquired (s'.agent p)))
    (hrel : (s'.point p).Releasing → s'.held p = false)
    (hfree : s'.point p = .setLocked → s'.locked = false) (hlock : LockMoves p s s') :
    SleepInv s' := by
  have hother : ∀ q i, q ≠ p → s'.spin.point (q, i) = s.spin.point (q, i) ∧
      s'.spin.acquired (q, i) = s.spin.acquired (q, i) := fun q i hq =>
    halone.agents (q, i) fun he => hq (congrArg Prod.fst he)
  have hhas : ∀ q, q ≠ p → (s'.HasLock q ↔ s.HasLock q) := fun q hq => by
    rw [SleepWorld.HasLock, halone.held q hq, halone.point q hq, SleepWorld.HasLock]
  have hlast : ∀ q, s.HasLock q → s.HasLock p → q = p := fun q hq hp => h.unique hq hp
  constructor
  case spin => exact hspin
  case away =>
    intro q i hi
    rcases eq_or_ne q p with rfl | hq
    · obtain ⟨hpoint, hacq⟩ := halone.agents (q, i) fun he => hi (congrArg Prod.snd he)
      rw [hpoint, hacq]
      rcases hcpu with hcpu | hidle
      · exact h.away q i (hcpu ▸ hi)
      · exact h.agent_idle hidle i
    · rw [(hother q i hq).1, (hother q i hq).2]
      exact h.away q i (halone.cpu q hq ▸ hi)
  case place =>
    intro q
    rcases eq_or_ne q p with rfl | hq
    · exact hplace
    · rw [halone.agent_eq hq, halone.point q hq, SleepWorld.agent, (hother q _ hq).1,
        (hother q _ hq).2]
      exact h.place q
  case locked =>
    rcases hlock with ⟨hsame, hp⟩ | ⟨-, htrue, hp, -⟩ | ⟨hold, hfalse, hp⟩
    · rw [hsame, h.locked]
      refine exists_congr fun q => ?_
      rcases eq_or_ne q p with rfl | hq
      · exact hp.symm
      · exact (hhas q hq).symm
    · exact iff_of_true htrue ⟨p, hp⟩
    · refine iff_of_false (by simp [hfalse]) ?_
      rintro ⟨q, hq⟩
      rcases eq_or_ne q p with rfl | hne
      · exact hp hq
      · exact hne (hlast q ((hhas q hne).mp hq) hold)
  case unique =>
    have hback : ∀ q, s'.HasLock q → (q = p ∨ s.HasLock q) := fun q hq => by
      rcases eq_or_ne q p with rfl | hne
      · exact .inl rfl
      · exact .inr ((hhas q hne).mp hq)
    rcases hlock with ⟨-, hp⟩ | ⟨hfalse, -⟩ | ⟨hold, -, hp⟩
    · have hall : ∀ q, s'.HasLock q → s.HasLock q := fun q hq =>
        (hback q hq).elim (fun he => he ▸ hp.mp (he ▸ hq)) fun hs => hs
      exact fun q hq r hr => h.unique (hall q hq) (hall r hr)
    · have hnone : ∀ q, ¬ s.HasLock q := fun q hq => by
        rw [h.locked.mpr ⟨q, hq⟩] at hfalse
        exact absurd hfalse (by simp)
      have hall : ∀ q, s'.HasLock q → q = p := fun q hq =>
        (hback q hq).resolve_right (hnone q)
      exact fun q hq r hr => (hall q hq).trans (hall r hr).symm
    · intro q hq
      rcases hback q hq with rfl | hs
      · exact absurd hq hp
      · exact absurd (hlast q hs hold ▸ hq) hp
  case free =>
    intro q hq
    rcases eq_or_ne q p with rfl | hne
    · exact hfree hq
    · rw [halone.point q hne] at hq
      rcases hlock with ⟨hsame, -⟩ | ⟨-, -, -, howner⟩ | ⟨-, hfalse, -⟩
      · exact hsame.trans (h.free q hq)
      · exact absurd (h.eq_of_owner howner (h.owner_of_setLocked hq)) hne
      · exact hfalse
  case releasing =>
    intro q hq
    rcases eq_or_ne q p with rfl | hne
    · exact hrel hq
    · rw [halone.point q hne] at hq
      rw [halone.held q hne]
      exact h.releasing q hq

/-- A statement outside the spin lock; `t` is the state after what it stores. -/
lemma move (h : SleepInv s) {x : SleepPoint n} (hpoint : t.point = s.point)
    (hspin : t.spin = s.spin) (hcpu : t.cpu = s.cpu) (hheld : t.held = s.held)
    (hplace : x.Placed (s.spin.point (s.agent p)) (s.spin.acquired (s.agent p)))
    (hrel : x.Releasing → s.held p = false) (hfree : x = .setLocked → t.locked = false)
    (hlock : LockMoves p s (t.goto p x)) : SleepInv (t.goto p x) := by
  have hagent : t.agent p = s.agent p := by
    rw [SleepWorld.agent, hcpu]
    rfl
  refine h.update ((StepsAlone.of_eq hpoint hspin hcpu hheld).goto x)
    (.inl (congrFun hcpu p)) ?_ ?_ ?_ ?_ hlock
  · show SpinInv Prod.snd t.spin
    exact hspin ▸ h.spin
  · rw [SleepWorld.point_goto_self]
    show x.Placed (t.spin.point (t.agent p)) (t.spin.acquired (t.agent p))
    rwa [hspin, hagent]
  · rw [SleepWorld.point_goto_self]
    show x.Releasing → t.held p = false
    rwa [hheld]
  · rwa [SleepWorld.point_goto_self]

/-- A call of the spin lock; `t` is the state after what is stored before the call. -/
lemma callSpin (h : SleepInv s) {k : SpinCall} (halone : StepsAlone p s t)
    (hspin : t.spin = s.spin) (hcpu : t.cpu p = s.cpu p ∨ s.point p = .idle)
    (hidle : s.spin.point (t.agent p) = .idle)
    (hplace : (SleepPoint.spin (n := n) k).Placed k.entry (s.spin.acquired (t.agent p)))
    (hrel : (SleepPoint.spin (n := n) k).Releasing → t.held p = false)
    (hlocked : t.locked = s.locked)
    (hhas : t.held p = true ∨ (SleepPoint.spin (n := n) k).HasLock ↔ s.HasLock p) :
    SleepInv (t.callSpin p k) := by
  have hself : (t.callSpin p k).point p = .spin k := t.point_callSpin_self p k
  have hspin' : (t.callSpin p k).spin = s.spin.goto (t.agent p) k.entry := by
    rw [← hspin]
    rfl
  have hentry : k.entry ≠ .acquire .setCpu ∧ k.entry ≠ .release .clearLocked ∧
      k.entry ≠ .release .clearCpu := by cases k <;> simp [SpinCall.entry]
  refine h.update (halone.callSpin k) hcpu ?_ ?_ (by rwa [hself]) (by simp)
    (.inl ⟨hlocked, ?_⟩)
  · rw [hspin']
    exact h.spin.goto (by simp [hidle]) (by simp [hidle]) hentry.1 hentry.2.1 fun he =>
      absurd he hentry.2.2
  · rw [hself, hspin', show (t.callSpin p k).agent p = t.agent p from rfl,
      SpinWorld.point_goto_self]
    exact hplace
  · rw [SleepWorld.HasLock, hself]
    exact hhas

/-- `sleeplock_acquire` is called. -/
lemma callAcquire (h : SleepInv s) (hp : s.point p = .idle) (c : BitVec 8) :
    SleepInv (s.callAcquire p c) := by
  have hagent : SleepWorld.agent { s with cpu := Function.update s.cpu p c } p = (p, c) := by
    simp [SleepWorld.agent]
  obtain ⟨hidle, hacq⟩ := h.agent_idle hp c
  refine h.callSpin ⟨fun _ _ => rfl, fun _ _ => rfl, fun q hq => Function.update_of_ne hq _ _,
    fun _ _ => ⟨rfl, rfl⟩⟩ rfl (.inr hp) (hagent ▸ hidle) ?_ (by simp [SleepPoint.Releasing]) rfl ?_
  · rw [hagent, hacq]
    exact ⟨⟨_, rfl⟩, rfl⟩
  · simp [SleepWorld.HasLock, hp, SleepPoint.HasLock]

/-- `sleeplock_release` is called. -/
lemma callRelease (h : SleepInv s) (hp : s.point p = .idle) (hheld : s.held p = true)
    (c : BitVec 8) : SleepInv (s.callRelease p c) := by
  have hagent : SleepWorld.agent
      { s with cpu := Function.update s.cpu p c, held := Function.update s.held p false } p =
        (p, c) := by
    simp [SleepWorld.agent]
  obtain ⟨hidle, hacq⟩ := h.agent_idle hp c
  refine h.callSpin ⟨fun _ _ => rfl, fun q hq => Function.update_of_ne hq _ _,
    fun q hq => Function.update_of_ne hq _ _, fun _ _ => ⟨rfl, rfl⟩⟩ rfl (.inr hp)
    (hagent ▸ hidle) ?_ (fun _ => Function.update_self _ _ _) rfl ?_
  · rw [hagent, hacq]
    exact ⟨⟨_, rfl⟩, rfl⟩
  · simp [SleepWorld.HasLock, hheld, SleepPoint.HasLock]

/-- Where a statement of the spin lock leaves the process. -/
lemma placed_advance (h : SleepInv s) {k : SpinCall} (hp : s.point p = .spin k)
    {w : SpinWorld (Fin n × BitVec 8)} (hw : w = (s.spin.advance Prod.snd (s.agent p)).1) :
    (w.point (s.agent p) = .idle →
      (k.after (n := n)).Placed .idle (w.acquired (s.agent p))) ∧
    (w.point (s.agent p) ≠ .idle →
      (SleepPoint.spin (n := n) k).Placed (w.point (s.agent p)) (w.acquired (s.agent p))) := by
  subst hw
  have hplace := h.place p
  rw [hp] at hplace
  cases k with
  | acquireLock =>
      obtain ⟨⟨a, ha⟩, hown⟩ := hplace
      rcases SpinWorld.advance_acquire Prod.snd ha hown with ⟨a', hpoint, hacq⟩ | ⟨hpoint, -⟩
      · exact ⟨fun hidle => by simp [hpoint] at hidle, fun _ => ⟨⟨a', hpoint⟩, hacq⟩⟩
      · exact ⟨fun _ => rfl, fun hbusy => absurd hpoint hbusy⟩
  | releaseLock =>
      obtain ⟨⟨a, ha⟩, hown⟩ := hplace
      rcases SpinWorld.advance_acquire Prod.snd ha hown with ⟨a', hpoint, hacq⟩ | ⟨hpoint, hacq⟩
      · exact ⟨fun hidle => by simp [hpoint] at hidle, fun _ => ⟨⟨a', hpoint⟩, hacq⟩⟩
      · exact ⟨fun _ => ⟨rfl, hacq⟩, fun hbusy => absurd hpoint hbusy⟩
  | sleepUnlock =>
      obtain ⟨r, hr⟩ := hplace
      rcases SpinWorld.advance_release Prod.snd hr with ⟨r', hpoint⟩ | hpoint
      · exact ⟨fun hidle => by simp [hpoint] at hidle, fun _ => ⟨r', hpoint⟩⟩
      · exact ⟨fun _ => rfl, fun hbusy => absurd hpoint hbusy⟩
  | acquireUnlock | releaseUnlock =>
      obtain ⟨⟨r, hr⟩, hown⟩ := hplace
      rcases h.spin.advance_release hr hown with ⟨r', hpoint, hacq⟩ | ⟨hpoint, hacq⟩
      · exact ⟨fun hidle => by simp [hpoint] at hidle, fun _ => ⟨⟨r', hpoint⟩, hacq⟩⟩
      · exact ⟨fun _ => ⟨rfl, hacq⟩, fun hbusy => absurd hpoint hbusy⟩

/-- A statement of the spin lock. -/
lemma advanceSpin (h : SleepInv s) {k : SpinCall} (hp : s.point p = .spin k)
    (hguard : s.spin.point (s.agent p) = .release .guard →
      s.spin.lock.cpu = (s.agent p).2 → s.Owner p) :
    SleepInv (s.advanceSpin p k) := by
  obtain ⟨-, hlocked, hagent, hspin⟩ := s.advanceSpin_eq p k
  obtain ⟨hreturn, hstay⟩ := h.placed_advance hp rfl
  have hpoint := s.point_advanceSpin p k
  have hheld := s.held_advanceSpin p k
  have hcpu : (s.advanceSpin p k).cpu p = s.cpu p := congrArg Prod.snd hagent
  refine h.update (.advanceSpin s p k) (.inl hcpu) ?_ ?_ ?_ ?_ (.inl ⟨hlocked, ?_⟩)
  · rw [hspin]
    exact h.spin.advance (s.agent p) hguard
  · rw [hspin, hagent, hpoint]
    split
    case isTrue hidle => exact hidle ▸ hreturn hidle
    case isFalse hbusy => exact hp ▸ hstay hbusy
  · rw [hpoint, hheld]
    split
    case isTrue =>
      intro hrel
      cases k
      case releaseLock => simpa using h.releasing p (by rw [hp]; trivial)
      all_goals exact hrel.elim
    case isFalse => exact h.releasing p
  · rw [hpoint, hp, hlocked]
    intro hset
    split at hset
    · cases k <;> simp [SpinCall.after] at hset
    · exact absurd hset (by simp)
  · rw [SleepWorld.HasLock, hpoint, hheld, SleepWorld.HasLock, hp]
    split
    · cases k <;> simp [SpinCall.after, SleepPoint.HasLock]
    · rfl

/-- The points that only the owner of the spin lock is at. -/
lemma owner (h : SleepInv s) {x : SleepPoint n} (hp : s.point p = x)
    (hx : ∀ sp own, x.Placed sp own → sp = .idle ∧ own = true) :
    s.spin.point (s.agent p) = .idle ∧ s.spin.acquired (s.agent p) = true :=
  hx _ _ (hp ▸ h.place p)

/-- **A statement** of one process keeps the invariant, if the process leaves the loop and passes
the guard only as the owner of the spin lock. -/
lemma advance (h : SleepInv s) (p : Fin n) (hmet : s.LeavesOwned p) :
    SleepInv (s.advance p lk addr) := by
  have hplace := h.place p
  cases hp : s.point p with
  | idle =>
      simp only [SleepWorld.advance, hp]
      exact h
  | spin k =>
      simp only [SleepWorld.advance, hp]
      exact h.advanceSpin hp fun hguard hcpu => hmet.2 hguard (by
        simpa [spinlockHolds, SleepWorld.agent] using hcpu)
  | test =>
      rw [hp] at hplace
      simp only [SleepWorld.advance, hp]
      cases hl : s.locked with
      | true =>
          exact h.move rfl rfl rfl rfl hplace False.elim (by simp)
            (.same rfl rfl (by simp [SleepWorld.goto, hp, SleepPoint.HasLock]))
      | false =>
          exact h.move rfl rfl rfl rfl ⟨hplace, hmet.1 hp hl⟩ False.elim (fun _ => hl)
            (.same rfl rfl (by simp [SleepWorld.goto, hp, SleepPoint.HasLock]))
  | sleepState =>
      rw [hp] at hplace
      simp only [SleepWorld.advance, hp]
      exact h.move rfl rfl rfl rfl hplace False.elim (by simp)
        (.same rfl rfl (by simp [SleepWorld.goto, SleepWorld.setProcess, hp, SleepPoint.HasLock]))
  | sleepWait =>
      rw [hp] at hplace
      simp only [SleepWorld.advance, hp]
      exact h.callSpin (.of_eq rfl rfl rfl rfl) rfl (.inl rfl) hplace ⟨_, rfl⟩ False.elim rfl
        (by simp [SleepWorld.HasLock, SleepWorld.setProcess, hp, SleepPoint.HasLock])
  | setLocked =>
      obtain ⟨hidle, hown⟩ := h.owner hp fun _ _ hx => hx
      simp only [SleepWorld.advance, hp]
      exact h.move rfl rfl rfl rfl ⟨hidle, hown⟩ False.elim (by simp)
        (.inr (.inl ⟨h.free p hp, rfl, by simp [SleepWorld.HasLock, SleepWorld.goto,
          SleepPoint.HasLock], hown⟩))
  | setPid =>
      obtain ⟨hidle, hown⟩ := h.owner hp fun _ _ hx => hx
      simp only [SleepWorld.advance, hp]
      exact h.callSpin (.of_eq rfl rfl rfl rfl) rfl (.inl rfl) hidle ⟨⟨_, rfl⟩, hown⟩ False.elim
        rfl (by simp [SleepWorld.HasLock, hp, SleepPoint.HasLock])
  | clearLocked =>
      obtain ⟨hidle, hown⟩ := h.owner hp fun _ _ hx => hx
      have hheld : s.held p = false := h.releasing p (by rw [hp]; trivial)
      simp only [SleepWorld.advance, hp]
      exact h.move rfl rfl rfl rfl ⟨hidle, hown⟩ (fun _ => hheld) (by simp)
        (.inr (.inr ⟨.inr (by rw [hp]; trivial), rfl, by simp [SleepWorld.HasLock, SleepWorld.goto,
          SleepPoint.HasLock, hheld]⟩))
  | clearPid =>
      obtain ⟨hidle, hown⟩ := h.owner hp fun _ _ hx => hx
      simp only [SleepWorld.advance, hp]
      exact h.move rfl rfl rfl rfl ⟨hidle, hown⟩ (fun _ => h.releasing p (by rw [hp]; trivial))
        (by simp) (.same rfl rfl (by simp [SleepWorld.goto, hp, SleepPoint.HasLock]))
  | wake i =>
      obtain ⟨hidle, hown⟩ := h.owner hp fun _ _ hx => hx
      have hheld : s.held p = false := h.releasing p (by rw [hp]; trivial)
      simp only [SleepWorld.advance, hp]
      split
      · split
        all_goals
          exact h.move rfl rfl rfl rfl ⟨hidle, hown⟩ (fun _ => hheld) (by simp)
            (.same rfl rfl (by simp [SleepWorld.goto, hp, SleepPoint.HasLock]))
      · exact h.callSpin (.of_eq rfl rfl rfl rfl) rfl (.inl rfl) hidle ⟨⟨_, rfl⟩, hown⟩
          (fun _ => hheld) rfl (by simp [SleepWorld.HasLock, hp, SleepPoint.HasLock])
  | wakeState i | wakeWait i =>
      obtain ⟨hidle, hown⟩ := h.owner hp fun _ _ hx => hx
      simp only [SleepWorld.advance, hp]
      exact h.move rfl rfl rfl rfl ⟨hidle, hown⟩ (fun _ => h.releasing p (by rw [hp]; trivial))
        (by simp) (.same rfl rfl (by simp [SleepWorld.goto, SleepWorld.setProcess, hp,
          SleepPoint.HasLock]))

/-- **A step** keeps the invariant, under the same condition. -/
lemma step {met : SleepWorld n → Fin n → Prop} (h : SleepInv s)
    (hmet : ∀ p, met s p → s.LeavesOwned p) (hstep : SleepStep lk addr met s s') : SleepInv s' := by
  cases hstep with
  | acquire c hp => exact h.callAcquire hp c
  | release c hp hheld => exact h.callRelease hp hheld c
  | run p hp => exact h.advance p (hmet p hp)

end SleepInv

/-! ### Exclusion -/

/-- **Exclusion**: in every run in which a process leaves the loop of `sleeplock_acquire`, and
passes the guard of `spinlock_release`, only as the owner of the spin lock, no two processes are
between the return of `sleeplock_acquire` and the start of `sleeplock_release`. -/
theorem sleeplock_exclusive {processArray : Fin n → Process n}
    (hrun : Run (SleepStep lk addr SleepWorld.LeavesOwned) (.init processArray) s) :
    {p | s.held p = true}.Subsingleton := by
  have h : SleepInv s :=
    hrun.invariant (fun h hstep => h.step (fun _ hp => hp) hstep) (sleepInv_init processArray)
  exact h.unique.anti fun p hp => .inl hp

/-! ### Given runs -/

/-- A step of a given run. -/
inductive SleepMove (n : ℕ) where
  | acquire (p : Fin n) (c : BitVec 8)
  | release (p : Fin n) (c : BitVec 8)
  | run (p : Fin n)

instance (s : SleepWorld n) (p : Fin n) : Decidable (s.Owner p) :=
  inferInstanceAs (Decidable (_ = _))

instance (s : SleepWorld n) (p : Fin n) : Decidable (s.LeavesOwned p) :=
  inferInstanceAs (Decidable ((_ → _ → _) ∧ (_ → _ → _)))

/-- The run with the given steps, if there is one. -/
def SleepWorld.exec (lk : ℕ) (addr : Fin n → BitVec 64) (met : SleepWorld n → Fin n → Prop)
    [∀ s p, Decidable (met s p)] : SleepWorld n → List (SleepMove n) → Option (SleepWorld n)
  | s, [] => some s
  | s, .acquire p c :: l =>
      if s.point p = .idle then (s.callAcquire p c).exec lk addr met l else none
  | s, .release p c :: l =>
      if s.point p = .idle ∧ s.held p = true then (s.callRelease p c).exec lk addr met l else none
  | s, .run p :: l => if met s p then (s.advance p lk addr).exec lk addr met l else none

lemma SleepWorld.run_of_exec {met : SleepWorld n → Fin n → Prop} [∀ s p, Decidable (met s p)]
    {l : List (SleepMove n)} (h : s.exec lk addr met l = some s') :
    Run (SleepStep lk addr met) s s' := by
  induction l generalizing s with
  | nil =>
      obtain rfl := Option.some.inj h
      exact .refl
  | cons move l ih =>
      cases move with
      | acquire p c =>
          rw [exec] at h
          split at h
          · exact .head (.acquire c ‹_›) (ih h)
          · exact absurd h (by simp)
      | release p c =>
          rw [exec] at h
          split at h
          · rename_i hp
            exact .head (.release c hp.1 hp.2) (ih h)
          · exact absurd h (by simp)
      | run p =>
          rw [exec] at h
          split at h
          · exact .head (.run p ‹_›) (ih h)
          · exact absurd h (by simp)

/-- What a given run shows. -/
lemma SleepWorld.exists_run {met : SleepWorld n → Fin n → Prop} [∀ s p, Decidable (met s p)]
    {l : List (SleepMove n)} {f : SleepWorld n → Bool}
    (h : (s.exec lk addr met l).any f = true) :
    ∃ s', Run (SleepStep lk addr met) s s' ∧ f s' = true := by
  obtain ⟨s', hs', hf⟩ := (Option.any_eq_true _ _).mp h
  exact ⟨s', run_of_exec hs', hf⟩

/-- Processes that run. -/
def runningProcesses (n : ℕ) : Fin n → Process n :=
  fun _ => { Process.zero n with state := .running }

/-- A call of `sleeplock_acquire` with eight statements: the whole of it on a free lock; on a lock
that is taken up to the second test. -/
def acquireMoves (p : Fin n) (c : BitVec 8) : List (SleepMove n) :=
  .acquire p c :: List.replicate 8 (.run p)

/-- The first of three processes gets the lock, and the others go to sleep. -/
theorem sleeplock_exclusive_three :
    ∃ s, Run (SleepStep 0x5000 (fun _ => 0x80000) SleepWorld.LeavesOwned)
        (.init (runningProcesses 3)) s ∧
      s.held 0 = true ∧ {p | s.held p = true}.Subsingleton := by
  have h : ((SleepWorld.init (runningProcesses 3)).exec 0x5000 (fun _ => 0x80000)
      SleepWorld.LeavesOwned (acquireMoves 0 1 ++ acquireMoves 1 2 ++ acquireMoves 2 3)).any
        (fun s => s.held 0) = true := by
    decide +kernel
  obtain ⟨s, hrun, hheld⟩ := SleepWorld.exists_run h
  exact ⟨s, hrun, hheld, sleeplock_exclusive hrun⟩

/-- The first process has the lock and the two others sleep; it clears `locked`, both see that, and
both get the lock. -/
def bothLeave (p q r : Fin n) : List (SleepMove n) :=
  acquireMoves p 1 ++ acquireMoves q 2 ++ acquireMoves r 3 ++
    .release p 1 :: List.replicate 3 (.run p) ++ [.run q, .run r] ++
      List.replicate 3 (.run q) ++ List.replicate 3 (.run r)

/-- Two processes have the lock. -/
theorem not_sleeplock_exclusive :
    ¬ ∀ s, Run (SleepStep 0x5000 (fun _ => 0x80000) fun _ _ => True)
        (.init (runningProcesses 3)) s →
      {p | s.held p = true}.Subsingleton := by
  intro hall
  have h : ((SleepWorld.init (runningProcesses 3)).exec 0x5000 (fun _ => 0x80000)
      (fun _ _ => True) (bothLeave 0 1 2)).any (fun s => s.held 1 && s.held 2) = true := by
    decide +kernel
  obtain ⟨s, hrun, hheld⟩ := SleepWorld.exists_run h
  rw [Bool.and_eq_true] at hheld
  exact absurd (hall s hrun hheld.1 hheld.2) (by decide)

end SkinnyArm
