import SkinnyArm.Lock.Wakeup

/-!
The spin lock inside a sleep lock, under every interleaving of any number of processes.

* `sleep` gives the spin lock back and the process goes on without it, so that a process may give
  back what another one has taken, and a process that has taken it may find the number of another.
* **Never taken for good.** In every state reached in which the spin lock is taken, some process is
  on the way to clear it (`GivesSpin`, `LiveInv`), and gets there by its own statements alone
  (`LiveInv.frees`).
-/

namespace SkinnyArm

namespace SleepPoint

variable {n : ℕ}

/-- Which function of the spin lock a process is in at a point. -/
def In (sp : SpinPoint) : SleepPoint n → Prop
  | .spin .acquireLock | .spin .releaseLock => ∃ a, sp = .acquire a
  | .spin _ => ∃ r, sp = .release r
  | _ => sp = .idle

/-- The points behind a `spinlock_acquire` and up to the next `spinlock_release`; a process that
has slept is at one of them without the spin lock. -/
def Critical : SleepPoint n → Prop
  | .idle | .spin .acquireLock | .spin .releaseLock => False
  | _ => True

/-- The points of `sleeplock_acquire` up to the end of its loop. -/
def InLoop : SleepPoint n → Prop
  | .spin .acquireLock | .test | .sleepState | .sleepWait | .spin .sleepUnlock => True
  | _ => False

end SleepPoint

variable {n : ℕ}

namespace SleepWorld

/-- A process on the way to clear `locked` of the spin lock: it has taken the lock and has its
number to write, or has passed the guard of `spinlock_release`, or will pass it. -/
def GivesSpin (s : SleepWorld n) (q : Fin n) : Prop :=
  s.spin.point (s.agent q) = .acquire .setCpu ∨ s.spin.point (s.agent q) = .release .clearCpu ∨
    s.spin.point (s.agent q) = .release .clearLocked ∨
    (s.point q).Critical ∧ s.spin.lock.cpu = s.cpu q

end SleepWorld

/-- The steps of all processes, with no condition. -/
abbrev AnyStep (lk : ℕ) (addr : Fin n → BitVec 64) : SleepWorld n → SleepWorld n → Prop :=
  SleepStep lk addr fun _ _ => True

/-- Where the processes are, and that a taken spin lock is on the way to be cleared. -/
structure LiveInv (s : SleepWorld n) : Prop where
  place : ∀ p, (s.point p).In (s.spin.point (s.agent p))
  spin : s.spin.lock.locked = true → ∃ q, s.GivesSpin q

variable {s s' t : SleepWorld n} {p q w : Fin n} {lk : ℕ} {addr : Fin n → BitVec 64}
variable {k : SpinCall}

/-! ### The statements -/

namespace SleepWorld

/-- A statement of the spin lock that is not its last. -/
lemma advance_busy (hp : s.point p = .spin k)
    (hbusy : (s.spin.advance Prod.snd (s.agent p)).1.point (s.agent p) ≠ .idle) :
    s.advance p lk addr = { s with spin := (s.spin.advance Prod.snd (s.agent p)).1 } := by
  simp only [advance, hp, advanceSpin, if_neg hbusy]

/-- The last statement of a call of the spin lock. -/
lemma advance_return (hp : s.point p = .spin k)
    (hidle : (s.spin.advance Prod.snd (s.agent p)).1.point (s.agent p) = .idle) :
    s.advance p lk addr =
      { s.goto p k.after with
        spin := (s.spin.advance Prod.snd (s.agent p)).1
        held := Function.update s.held p (s.held p || k = .acquireUnlock) } := by
  simp only [advance, hp, advanceSpin, if_pos hidle]

section Spin

variable (lk) (addr) (hp : s.point p = .spin k)
include hp

/-- The test-and-set of a spin lock that is taken. -/
lemma advance_spin (hr : s.spin.point (s.agent p) = .acquire .testAndSet)
    (hl : s.spin.lock.locked = true) : s.advance p lk addr = s := by
  have hspin : (s.spin.advance Prod.snd (s.agent p)).1 = _ := SpinWorld.advance_spin hr hl
  rw [advance_busy hp (by simp [hspin, hr]), hspin]

lemma advance_testAndSet (hr : s.spin.point (s.agent p) = .acquire .testAndSet)
    (hl : s.spin.lock.locked = false) :
    s.advance p lk addr =
      { s with spin := { s.spin.goto (s.agent p) (.acquire .setCpu) with
          lock := { s.spin.lock with locked := true } } } := by
  have hspin : (s.spin.advance Prod.snd (s.agent p)).1 = _ := SpinWorld.advance_testAndSet hr hl
  rw [advance_busy hp (by simp [hspin]), hspin]

lemma advance_setCpu (hr : s.spin.point (s.agent p) = .acquire .setCpu) :
    (s.advance p lk addr).point p = k.after ∧
      (s.advance p lk addr).spin.point (s.agent p) = .idle ∧
      (s.advance p lk addr).spin.lock.cpu = s.cpu p := by
  have hspin : (s.spin.advance Prod.snd (s.agent p)).1 = _ := SpinWorld.advance_setCpu hr
  rw [advance_return hp (by simp [hspin]), hspin]
  exact ⟨point_goto_self s p _, by simp, rfl⟩

lemma advance_guard (hr : s.spin.point (s.agent p) = .release .guard)
    (hcpu : s.spin.lock.cpu = s.cpu p) :
    s.advance p lk addr = { s with spin := s.spin.goto (s.agent p) (.release .clearCpu) } := by
  have hspin : s.spin.advance Prod.snd (s.agent p) = _ := SpinWorld.advance_guard hr hcpu
  rw [advance_busy hp (by simp [hspin]), hspin]

lemma advance_refused (hr : s.spin.point (s.agent p) = .release .guard)
    (hcpu : s.spin.lock.cpu ≠ s.cpu p) :
    s.advance p lk addr =
      { s.goto p k.after with
        spin := s.spin.goto (s.agent p) .idle
        held := Function.update s.held p (s.held p || k = .acquireUnlock) } := by
  have hspin : s.spin.advance Prod.snd (s.agent p) = _ := SpinWorld.advance_refused hr hcpu
  rw [advance_return hp (by simp [hspin]), hspin]

lemma advance_clearCpu (hr : s.spin.point (s.agent p) = .release .clearCpu) :
    s.advance p lk addr =
      { s with spin := { s.spin.goto (s.agent p) (.release .clearLocked) with
          lock := { s.spin.lock with cpu := 0 } } } := by
  have hspin : s.spin.advance Prod.snd (s.agent p) = _ := SpinWorld.advance_clearCpu hr
  rw [advance_busy hp (by simp [hspin]), hspin]

lemma advance_clearLocked (hr : s.spin.point (s.agent p) = .release .clearLocked) :
    (s.advance p lk addr).point p = k.after ∧
      (s.advance p lk addr).spin.point (s.agent p) = .idle ∧
      (s.advance p lk addr).spin.lock.locked = false ∧
      (s.advance p lk addr).held p = (s.held p || k = .acquireUnlock) := by
  have hspin : s.spin.advance Prod.snd (s.agent p) = _ := SpinWorld.advance_clearLocked hr
  rw [advance_return hp (by simp [hspin]), hspin]
  exact ⟨point_goto_self s p _, by simp, rfl, Function.update_self _ _ _⟩

end Spin

/-- No statement moves a process to another CPU. -/
lemma cpu_advance (s : SleepWorld n) (p : Fin n) : (s.advance p lk addr).cpu = s.cpu := by
  rw [advance]
  cases s.point p with
  | spin k =>
      show (s.advanceSpin p k).cpu = s.cpu
      rw [advanceSpin]
      split
      · rfl
      · rfl
  | wake i =>
      dsimp only
      split
      · rfl
      · rfl
  | idle | test | sleepState | sleepWait | setLocked | setPid | clearLocked | clearPid
  | wakeState | wakeWait => rfl

/-- A statement outside the spin lock leaves the lock alone, and who has the sleep lock. -/
lemma advance_outside (lk : ℕ) (addr : Fin n → BitVec 64) (hp : ∀ k, s.point p ≠ .spin k) :
    (s.advance p lk addr).spin.lock = s.spin.lock ∧ (s.advance p lk addr).held = s.held := by
  rw [advance]
  cases hpoint : s.point p with
  | spin k => exact absurd hpoint (hp k)
  | wake i =>
      dsimp only
      split
      · exact ⟨rfl, rfl⟩
      · exact ⟨rfl, rfl⟩
  | idle | test | sleepState | sleepWait | setLocked | setPid | clearLocked | clearPid
  | wakeState | wakeWait => exact ⟨rfl, rfl⟩

end SleepWorld

/-- The CPU of a call is nobody else's. -/
lemma StepsAlone.setCpu (s : SleepWorld n) (p : Fin n) (c : BitVec 8) :
    StepsAlone p s { s with cpu := Function.update s.cpu p c } where
  point := fun _ _ => rfl
  held := fun _ _ => rfl
  cpu := fun _ hq => Function.update_of_ne hq _ _
  agents := fun _ _ => ⟨rfl, rfl⟩

/-! ### The invariant -/

namespace LiveInv

lemma init (processArray : Fin n → Process n) : LiveInv (.init processArray) where
  place := fun _ => rfl
  spin h := absurd h (by simp [SleepWorld.init, sleeplockInit, spinlockInit])

/-- **A step** of one process: what has to be checked of it and of the spin lock. -/
lemma update (h : LiveInv s) (halone : StepsAlone p s s')
    (hplace : (s'.point p).In (s'.spin.point (s'.agent p)))
    (hspin : s'.spin.lock = s.spin.lock ∧ (s.GivesSpin p → s'.GivesSpin p) ∨
      s'.spin.lock.locked = false ∨ s'.GivesSpin p) : LiveInv s' := by
  have hother : ∀ q, q ≠ p → s'.spin.point (s'.agent q) = s.spin.point (s.agent q) := by
    intro q hq
    rw [halone.agent_eq hq]
    refine (halone.agents _ fun he => hq ?_).1
    exact congrArg Prod.fst he
  constructor
  case place =>
    intro q
    rcases eq_or_ne q p with rfl | hq
    · exact hplace
    · rw [hother q hq, halone.point q hq]
      exact h.place q
  case spin =>
    intro hlocked
    rcases hspin with ⟨hlock, hgives⟩ | hfree | hgives
    · rw [hlock] at hlocked
      obtain ⟨q, hq⟩ := h.spin hlocked
      rcases eq_or_ne q p with rfl | hne
      · exact ⟨q, hgives hq⟩
      · refine ⟨q, ?_⟩
        rw [SleepWorld.GivesSpin, hother q hne, halone.point q hne, hlock, halone.cpu q hne]
        exact hq
    · rw [hfree] at hlocked
      exact absurd hlocked (by simp)
    · exact ⟨p, hgives⟩

/-- A statement of the spin lock. -/
lemma advanceSpin (h : LiveInv s) (hp : s.point p = .spin k) : LiveInv (s.advance p lk addr) := by
  have halone : StepsAlone p s (s.advance p lk addr) := .advance s p
  have hagent : (s.advance p lk addr).agent p = s.agent p := by
    rw [SleepWorld.agent, s.cpu_advance p]
    rfl
  have hplace := h.place p
  rw [hp] at hplace
  cases k with
  | acquireLock | releaseLock =>
      obtain ⟨a, ha⟩ := hplace
      cases a with
      | testAndSet =>
          cases hl : s.spin.lock.locked with
          | true =>
              rw [SleepWorld.advance_spin lk addr hp ha hl]
              exact h
          | false =>
              have heq := SleepWorld.advance_testAndSet lk addr hp ha hl
              refine h.update halone ?_ (.inr (.inr (.inl ?_)))
              · rw [hagent, heq, hp]
                exact ⟨.setCpu, SpinWorld.point_goto_self _⟩
              · rw [hagent, heq]
                exact SpinWorld.point_goto_self _
      | setCpu =>
          obtain ⟨hpoint, hidle, hcpu⟩ := SleepWorld.advance_setCpu lk addr hp ha
          refine h.update halone ?_ (.inr (.inr (.inr (.inr (.inr ⟨?_, ?_⟩)))))
          · rw [hagent, hpoint]
            exact hidle
          · rw [hpoint]
            trivial
          · rw [s.cpu_advance p, hcpu]
  | sleepUnlock | acquireUnlock | releaseUnlock =>
      obtain ⟨r, hr⟩ := hplace
      cases r with
      | guard =>
          by_cases hcpu : s.spin.lock.cpu = s.cpu p
          · have heq := SleepWorld.advance_guard lk addr hp hr hcpu
            refine h.update halone ?_ (.inr (.inr (.inr (.inl ?_))))
            · rw [hagent, heq, hp]
              exact ⟨.clearCpu, SpinWorld.point_goto_self _⟩
            · rw [hagent, heq]
              exact SpinWorld.point_goto_self _
          · have heq := SleepWorld.advance_refused lk addr hp hr hcpu
            refine h.update halone ?_ (.inl ⟨by rw [heq]; rfl, fun hgives => ?_⟩)
            · rw [hagent, heq, SleepWorld.point_goto_self]
              exact SpinWorld.point_goto_self _
            · simp [SleepWorld.GivesSpin, hr, hcpu] at hgives
      | clearCpu =>
          have heq := SleepWorld.advance_clearCpu lk addr hp hr
          refine h.update halone ?_ (.inr (.inr (.inr (.inr (.inl ?_)))))
          · rw [hagent, heq, hp]
            exact ⟨.clearLocked, SpinWorld.point_goto_self _⟩
          · rw [hagent, heq]
            exact SpinWorld.point_goto_self _
      | clearLocked =>
          obtain ⟨hpoint, hidle, hfree, -⟩ := SleepWorld.advance_clearLocked lk addr hp hr
          refine h.update halone ?_ (.inr (.inl hfree))
          rw [hagent, hpoint]
          exact hidle

/-- Outside the spin lock a process gives it back only at the end of its critical section. -/
lemma cpu_of_gives (hidle : s.spin.point (s.agent p) = .idle) (hgives : s.GivesSpin p) :
    s.spin.lock.cpu = s.cpu p := by
  simp only [SleepWorld.GivesSpin, hidle, reduceCtorEq, false_or] at hgives
  exact hgives.2

/-- A statement outside the spin lock; `t` is the state after what it stores. -/
lemma move (h : LiveInv s) {x : SleepPoint n} (hpoint : t.point = s.point)
    (hspin : t.spin = s.spin) (hcpu : t.cpu = s.cpu) (hheld : t.held = s.held)
    (hidle : s.spin.point (s.agent p) = .idle) (hx : x.In .idle) (hcrit : x.Critical) :
    LiveInv (t.goto p x) := by
  have hagent : t.agent p = s.agent p := by
    rw [SleepWorld.agent, hcpu]
    rfl
  refine h.update ((StepsAlone.of_eq hpoint hspin hcpu hheld).goto x) ?_
    (.inl ⟨congrArg SpinWorld.lock hspin, fun hgives => .inr (.inr (.inr ⟨?_, ?_⟩))⟩)
  · rw [SleepWorld.point_goto_self]
    show x.In (t.spin.point (t.agent p))
    rwa [hspin, hagent, hidle]
  · rwa [SleepWorld.point_goto_self]
  · show t.spin.lock.cpu = t.cpu p
    rw [hspin, hcpu, cpu_of_gives hidle hgives]

/-- A call of `spinlock_release`. -/
lemma callRelease (h : LiveInv s) (hk : k.entry = .release .guard) (hpoint : t.point = s.point)
    (hspin : t.spin = s.spin) (hcpu : t.cpu = s.cpu) (hheld : t.held = s.held)
    (hidle : s.spin.point (s.agent p) = .idle) : LiveInv (t.callSpin p k) := by
  have hpk : (t.callSpin p k).point p = .spin k := t.point_callSpin_self p k
  have hsp : (t.callSpin p k).spin.point ((t.callSpin p k).agent p) = .release .guard := by
    rw [← hk]
    exact SpinWorld.point_goto_self _
  have hlock : t.spin.lock = s.spin.lock := by rw [hspin]
  refine h.update ((StepsAlone.of_eq hpoint hspin hcpu hheld).callSpin k) ?_
    (.inl ⟨hlock, fun hgives => .inr (.inr (.inr ⟨?_, ?_⟩))⟩)
  · rw [hpk, hsp]
    cases k with
    | acquireLock | releaseLock => exact absurd hk (by simp [SpinCall.entry])
    | sleepUnlock | acquireUnlock | releaseUnlock => exact ⟨.guard, rfl⟩
  · rw [hpk]
    cases k with
    | acquireLock | releaseLock => exact absurd hk (by simp [SpinCall.entry])
    | sleepUnlock | acquireUnlock | releaseUnlock => trivial
  · show t.spin.lock.cpu = t.cpu p
    rw [hspin, hcpu, cpu_of_gives hidle hgives]

/-- **A statement** of one process. -/
lemma advance (h : LiveInv s) (p : Fin n) : LiveInv (s.advance p lk addr) := by
  have hplace := h.place p
  cases hp : s.point p with
  | idle =>
      simp only [SleepWorld.advance, hp]
      exact h
  | spin k => exact h.advanceSpin hp
  | test =>
      rw [hp] at hplace
      simp only [SleepWorld.advance, hp]
      split
      · exact h.move rfl rfl rfl rfl hplace rfl trivial
      · exact h.move rfl rfl rfl rfl hplace rfl trivial
  | wake i =>
      rw [hp] at hplace
      simp only [SleepWorld.advance, hp]
      split
      · split
        · exact h.move rfl rfl rfl rfl hplace rfl trivial
        · exact h.move rfl rfl rfl rfl hplace rfl trivial
      · exact h.callRelease rfl rfl rfl rfl rfl hplace
  | sleepWait | setPid =>
      rw [hp] at hplace
      simp only [SleepWorld.advance, hp]
      exact h.callRelease rfl rfl rfl rfl rfl hplace
  | sleepState | setLocked | clearLocked | clearPid | wakeState | wakeWait =>
      rw [hp] at hplace
      simp only [SleepWorld.advance, hp]
      exact h.move rfl rfl rfl rfl hplace rfl trivial

/-- A call of `sleeplock_acquire` or `sleeplock_release`; `t` is the state with the CPU of the
call. -/
lemma call (h : LiveInv s) (hk : k = .acquireLock ∨ k = .releaseLock) (hp : s.point p = .idle)
    (halone : StepsAlone p s t) (hspin : t.spin = s.spin) : LiveInv (t.callSpin p k) := by
  have hpk : (t.callSpin p k).point p = .spin k := t.point_callSpin_self p k
  have hplace := h.place p
  rw [hp] at hplace
  have hlock : t.spin.lock = s.spin.lock := by rw [hspin]
  refine h.update (halone.callSpin k) ?_ (.inl ⟨hlock, fun hgives => ?_⟩)
  · have hsp : (t.callSpin p k).spin.point ((t.callSpin p k).agent p) = k.entry :=
      SpinWorld.point_goto_self _
    rw [hpk, hsp]
    rcases hk with rfl | rfl
    · exact ⟨_, rfl⟩
    · exact ⟨_, rfl⟩
  · have hidle : s.spin.point (s.agent p) = .idle := hplace
    simp [SleepWorld.GivesSpin, hidle, hp, SleepPoint.Critical] at hgives

/-- **Every step** keeps the invariant. -/
lemma step (h : LiveInv s) (hstep : AnyStep lk addr s s') : LiveInv s' := by
  cases hstep with
  | @acquire p c hp =>
      exact h.call (.inl rfl) hp (.setCpu s p c) rfl
  | release c hp _ =>
      exact h.call (.inr rfl) hp ⟨fun _ _ => rfl, fun q hq => Function.update_of_ne hq _ _,
        fun q hq => Function.update_of_ne hq _ _, fun _ _ => ⟨rfl, rfl⟩⟩ rfl
  | run p _ => exact h.advance p

lemma of_run {processArray : Fin n → Process n}
    (hrun : Run (AnyStep lk addr) (.init processArray) s) : LiveInv s :=
  hrun.invariant (fun h hstep => h.step hstep) (init processArray)

end LiveInv

/-! ### One process alone -/

/-- A process alone gets to the end of a call of `spinlock_release`, which clears `locked` where it
passes the guard. -/
structure Unlocks (lk : ℕ) (addr : Fin n → BitVec 64) (p : Fin n) (k : SpinCall)
    (s t : SleepWorld n) : Prop where
  run : SleepWorld.RunsAlone lk addr p s t
  point : t.point p = k.after
  held : t.held p = (s.held p || k = .acquireUnlock)
  free : s.spin.lock.cpu = s.cpu p → t.spin.lock.locked = false

section Alone

variable (lk) (addr)

lemma unlocks_releaseClearLocked (hp : s.point p = .spin k)
    (hr : s.spin.point (s.agent p) = .release .clearLocked) :
    ∃ t, Unlocks lk addr p k s t ∧ t.spin.lock.locked = false := by
  obtain ⟨hpoint, -, hfree, hheld⟩ := SleepWorld.advance_clearLocked lk addr hp hr
  exact ⟨_, ⟨.single rfl, hpoint, hheld, fun _ => hfree⟩, hfree⟩

lemma unlocks_releaseClearCpu (hp : s.point p = .spin k)
    (hr : s.spin.point (s.agent p) = .release .clearCpu) :
    ∃ t, Unlocks lk addr p k s t ∧ t.spin.lock.locked = false := by
  have heq := SleepWorld.advance_clearCpu lk addr hp hr
  obtain ⟨t, ht, hfree⟩ := unlocks_releaseClearLocked lk addr (s := s.advance p lk addr) (p := p)
    (k := k) (by rw [heq]; exact hp) (by rw [heq]; exact SpinWorld.point_goto_self _)
  refine ⟨t, ⟨.head rfl ht.run, ht.point, ?_, fun _ => hfree⟩, hfree⟩
  rw [ht.held, heq]

/-- From the guard on. -/
lemma unlocks_releaseGuard (hp : s.point p = .spin k)
    (hr : s.spin.point (s.agent p) = .release .guard) : ∃ t, Unlocks lk addr p k s t := by
  by_cases hcpu : s.spin.lock.cpu = s.cpu p
  · have heq := SleepWorld.advance_guard lk addr hp hr hcpu
    obtain ⟨t, ht, hfree⟩ := unlocks_releaseClearCpu lk addr (s := s.advance p lk addr) (p := p)
      (k := k) (by rw [heq]; exact hp) (by rw [heq]; exact SpinWorld.point_goto_self _)
    refine ⟨t, .head rfl ht.run, ht.point, ?_, fun _ => hfree⟩
    rw [ht.held, heq]
  · have heq := SleepWorld.advance_refused lk addr hp hr hcpu
    refine ⟨_, .single rfl, ?_, ?_, fun h => absurd h hcpu⟩
    · rw [heq]
      exact SleepWorld.point_goto_self s p _
    · rw [heq]
      exact Function.update_self _ _ _

/-- From anywhere in the call. -/
lemma unlocks_release {r : ReleasePoint} (hp : s.point p = .spin k)
    (hr : s.spin.point (s.agent p) = .release r) : ∃ t, Unlocks lk addr p k s t := by
  cases r with
  | guard => exact unlocks_releaseGuard lk addr hp hr
  | clearCpu => exact (unlocks_releaseClearCpu lk addr hp hr).imp fun _ h => h.1
  | clearLocked => exact (unlocks_releaseClearLocked lk addr hp hr).imp fun _ h => h.1

variable {lk} {addr}

/-- A statement before that. -/
lemma Unlocks.head (h : Unlocks lk addr p k (s.advance p lk addr) t)
    (hp : ∀ k, s.point p ≠ .spin k) : Unlocks lk addr p k s t := by
  obtain ⟨hlock, hheld⟩ := SleepWorld.advance_outside lk addr hp
  refine ⟨.head rfl h.run, h.point, ?_, fun hcpu => h.free ?_⟩
  · rw [h.held, hheld]
  · rw [hlock, s.cpu_advance p, hcpu]

variable (lk) (addr)

/-- A statement that calls `spinlock_release`. -/
lemma unlocks_call (t : SleepWorld n) (hp : ∀ k, s.point p ≠ .spin k)
    (hk : k.entry = .release .guard) (heq : s.advance p lk addr = t.callSpin p k) :
    ∃ t, Unlocks lk addr p k s t := by
  obtain ⟨u, hu⟩ := unlocks_releaseGuard lk addr (s := s.advance p lk addr) (p := p) (k := k)
    (by rw [heq]; exact t.point_callSpin_self p k)
    (by rw [heq, ← hk]; exact SpinWorld.point_goto_self _)
  exact ⟨u, hu.head hp⟩

/-- A statement that moves on to a point from which the end is reached. -/
lemma unlocks_goto {x : SleepPoint n} (hp : ∀ k, s.point p ≠ .spin k)
    (hpoint : (s.advance p lk addr).point p = x)
    (hx : ∀ s : SleepWorld n, s.point p = x → ∃ t, Unlocks lk addr p k s t) :
    ∃ t, Unlocks lk addr p k s t := by
  obtain ⟨u, hu⟩ := hx (s.advance p lk addr) hpoint
  exact ⟨u, hu.head hp⟩

/-! `sleep`, then the end of `sleeplock_acquire`. -/

lemma unlocks_sleepWait (s : SleepWorld n) (hp : s.point p = .sleepWait) :
    ∃ t, Unlocks lk addr p .sleepUnlock s t :=
  unlocks_call lk addr _ (by simp [hp]) rfl (by simp only [SleepWorld.advance, hp]; rfl)

lemma unlocks_sleepState (s : SleepWorld n) (hp : s.point p = .sleepState) :
    ∃ t, Unlocks lk addr p .sleepUnlock s t :=
  unlocks_goto lk addr (by simp [hp]) (by simp [SleepWorld.advance, hp])
    (unlocks_sleepWait lk addr)

lemma unlocks_setPid (s : SleepWorld n) (hp : s.point p = .setPid) :
    ∃ t, Unlocks lk addr p .acquireUnlock s t :=
  unlocks_call lk addr _ (by simp [hp]) rfl (by simp only [SleepWorld.advance, hp]; rfl)

lemma unlocks_setLocked (s : SleepWorld n) (hp : s.point p = .setLocked) :
    ∃ t, Unlocks lk addr p .acquireUnlock s t :=
  unlocks_goto lk addr (by simp [hp]) (by simp [SleepWorld.advance, hp])
    (unlocks_setPid lk addr)

/-- A test that leaves the loop. -/
lemma unlocks_test (s : SleepWorld n) (hp : s.point p = .test) (hl : s.locked = false) :
    ∃ t, Unlocks lk addr p .acquireUnlock s t :=
  unlocks_goto lk addr (by simp [hp]) (by simp [SleepWorld.advance, hp, hl])
    (unlocks_setLocked lk addr)

/-! `wakeup`, then `sleeplock_release`. -/

/-- The loop of `wakeup`, by how many slots are left. -/
lemma unlocks_wake (m : ℕ) : ∀ (i : ℕ) (s : SleepWorld n), n ≤ i + m → s.point p = .wake i →
    ∃ t, Unlocks lk addr p .releaseUnlock s t := by
  induction m with
  | zero =>
      intro i s hi hp
      have hge : ¬ i < n := by omega
      exact unlocks_call lk addr s (by simp [hp]) rfl
        (by simp only [SleepWorld.advance, hp, dif_neg hge])
  | succ m ih =>
      intro i s hi hp
      by_cases hlt : i < n
      · have hnext : ∀ s : SleepWorld n, s.point p = .wake (i + 1) →
            ∃ t, Unlocks lk addr p .releaseUnlock s t := fun s => ih (i + 1) s (by omega)
        have hwait : ∀ s : SleepWorld n, s.point p = .wakeWait ⟨i, hlt⟩ →
            ∃ t, Unlocks lk addr p .releaseUnlock s t := fun s hs =>
          unlocks_goto lk addr (by simp [hs]) (by simp [SleepWorld.advance, hs]) hnext
        have hstate : ∀ s : SleepWorld n, s.point p = .wakeState ⟨i, hlt⟩ →
            ∃ t, Unlocks lk addr p .releaseUnlock s t := fun s hs =>
          unlocks_goto lk addr (by simp [hs]) (by simp [SleepWorld.advance, hs]) hwait
        by_cases hwaits : (s.processArray ⟨i, hlt⟩).WaitsOn lk
        · exact unlocks_goto lk addr (by simp [hp])
            (by simp [SleepWorld.advance, hp, hlt, hwaits]) hstate
        · exact unlocks_goto lk addr (by simp [hp])
            (by simp [SleepWorld.advance, hp, hlt, hwaits]) hnext
      · exact unlocks_call lk addr s (by simp [hp]) rfl
          (by simp only [SleepWorld.advance, hp, dif_neg hlt])

/-- The loop of `wakeup` from any of its statements. -/
lemma unlocks_wakeSlot (i : ℕ) (s : SleepWorld n) (hp : s.point p = .wake i) :
    ∃ t, Unlocks lk addr p .releaseUnlock s t :=
  unlocks_wake lk addr n i s (Nat.le_add_left n i) hp

lemma unlocks_wakeWait (i : Fin n) (s : SleepWorld n) (hp : s.point p = .wakeWait i) :
    ∃ t, Unlocks lk addr p .releaseUnlock s t :=
  unlocks_goto lk addr (by simp [hp]) (by simp [SleepWorld.advance, hp])
    (unlocks_wakeSlot lk addr (i + 1))

lemma unlocks_wakeState (i : Fin n) (s : SleepWorld n) (hp : s.point p = .wakeState i) :
    ∃ t, Unlocks lk addr p .releaseUnlock s t :=
  unlocks_goto lk addr (by simp [hp]) (by simp [SleepWorld.advance, hp])
    (unlocks_wakeWait lk addr i)

lemma unlocks_clearPid (s : SleepWorld n) (hp : s.point p = .clearPid) :
    ∃ t, Unlocks lk addr p .releaseUnlock s t :=
  unlocks_goto lk addr (by simp [hp]) (by simp [SleepWorld.advance, hp])
    (unlocks_wakeSlot lk addr 0)

lemma unlocks_clearLocked (s : SleepWorld n) (hp : s.point p = .clearLocked) :
    ∃ t, Unlocks lk addr p .releaseUnlock s t :=
  unlocks_goto lk addr (by simp [hp]) (by simp [SleepWorld.advance, hp])
    (unlocks_clearPid lk addr)

end Alone

/-! ### A critical section -/

namespace LiveInv

variable (lk) (addr)

/-- Inside the loop of `sleeplock_acquire`, but for a test that leaves it, a process alone gets to
the next test. -/
lemma unlocks_inLoop (h : LiveInv s) (hloop : (s.point p).InLoop)
    (hspin : s.point p ≠ .spin .acquireLock) (htest : s.point p = .test → s.locked = true) :
    ∃ t, Unlocks lk addr p .sleepUnlock s t := by
  have hplace := h.place p
  cases hp : s.point p with
  | test =>
      have hl := htest hp
      exact unlocks_goto lk addr (by simp [hp]) (by simp [SleepWorld.advance, hp, hl])
        (unlocks_sleepState lk addr)
  | sleepState => exact unlocks_sleepState lk addr s hp
  | sleepWait => exact unlocks_sleepWait lk addr s hp
  | spin k =>
      rw [hp] at hloop hspin hplace
      cases k with
      | acquireLock => exact absurd rfl hspin
      | sleepUnlock =>
          obtain ⟨r, hr⟩ := hplace
          exact unlocks_release lk addr hp hr
      | releaseLock | acquireUnlock | releaseUnlock => exact absurd hloop id
  | idle | setLocked | setPid | clearLocked | clearPid | wake | wakeState | wakeWait =>
      rw [hp] at hloop
      exact absurd hloop id

/-- Behind the loop, and in `sleeplock_release` with the spin lock, a process alone gets to the
return of its call. -/
lemma unlocks_return (h : LiveInv s) (hcrit : (s.point p).Critical)
    (hloop : ¬ (s.point p).InLoop) :
    ∃ k t, k.after (n := n) = .idle ∧ Unlocks lk addr p k s t ∧
      (¬ (s.point p).Releasing → k = .acquireUnlock) := by
  have hacquired : (∃ t, Unlocks lk addr p .acquireUnlock s t) →
      ∃ k t, k.after (n := n) = .idle ∧ Unlocks lk addr p k s t ∧
        (¬ (s.point p).Releasing → k = .acquireUnlock) :=
    fun ⟨t, ht⟩ => ⟨.acquireUnlock, t, rfl, ht, fun _ => rfl⟩
  have hreleasing : (s.point p).Releasing → (∃ t, Unlocks lk addr p .releaseUnlock s t) →
      ∃ k t, k.after (n := n) = .idle ∧ Unlocks lk addr p k s t ∧
        (¬ (s.point p).Releasing → k = .acquireUnlock) :=
    fun hrel ⟨t, ht⟩ => ⟨.releaseUnlock, t, rfl, ht, fun hnot => absurd hrel hnot⟩
  have hplace := h.place p
  cases hp : s.point p with
  | setLocked => exact hp ▸ hacquired (unlocks_setLocked lk addr s hp)
  | setPid => exact hp ▸ hacquired (unlocks_setPid lk addr s hp)
  | spin k =>
      rw [hp] at hcrit hloop hplace
      cases k with
      | acquireLock | releaseLock => exact absurd hcrit id
      | sleepUnlock => exact absurd trivial hloop
      | acquireUnlock =>
          obtain ⟨r, hr⟩ := hplace
          exact hp ▸ hacquired (unlocks_release lk addr hp hr)
      | releaseUnlock =>
          obtain ⟨r, hr⟩ := hplace
          exact hp ▸ hreleasing (hp ▸ trivial) (unlocks_release lk addr hp hr)
  | clearLocked => exact hp ▸ hreleasing (hp ▸ trivial) (unlocks_clearLocked lk addr s hp)
  | clearPid => exact hp ▸ hreleasing (hp ▸ trivial) (unlocks_clearPid lk addr s hp)
  | wake i => exact hp ▸ hreleasing (hp ▸ trivial) (unlocks_wakeSlot lk addr i s hp)
  | wakeState i => exact hp ▸ hreleasing (hp ▸ trivial) (unlocks_wakeState lk addr i s hp)
  | wakeWait i => exact hp ▸ hreleasing (hp ▸ trivial) (unlocks_wakeWait lk addr i s hp)
  | idle =>
      rw [hp] at hcrit
      exact absurd hcrit id
  | test | sleepState | sleepWait =>
      rw [hp] at hloop
      exact absurd trivial hloop

/-- **The spin lock** is cleared by a process on the way, alone; where that finds the sleep lock
taken, it is back at the test. -/
lemma frees_critical (h : LiveInv s) (hcrit : (s.point w).Critical)
    (hcpu : s.spin.lock.cpu = s.cpu w) :
    ∃ t, SleepWorld.RunsAlone lk addr w s t ∧ t.spin.lock.locked = false ∧
      (s.point w = .test → s.locked = true → t.point w = .test) := by
  by_cases hloop : (s.point w).InLoop
  · by_cases htest : s.point w = .test → s.locked = true
    · obtain ⟨t, ht⟩ := h.unlocks_inLoop lk addr hloop (fun hw => by rw [hw] at hcrit; exact hcrit)
        htest
      exact ⟨t, ht.run, ht.free hcpu, fun _ _ => ht.point⟩
    · push Not at htest
      obtain ⟨hw, hl⟩ := htest
      obtain ⟨t, ht⟩ := unlocks_test lk addr s hw (by simpa using hl)
      exact ⟨t, ht.run, ht.free hcpu, fun _ hl' => absurd hl' hl⟩
  · obtain ⟨k, t, -, ht, -⟩ := h.unlocks_return lk addr hcrit hloop
    exact ⟨t, ht.run, ht.free hcpu, fun hw => absurd (hw ▸ trivial) hloop⟩

/-- The same for every process that gives the spin lock back. -/
lemma frees (h : LiveInv s) (hgives : s.GivesSpin w) :
    ∃ t, SleepWorld.RunsAlone lk addr w s t ∧ t.spin.lock.locked = false ∧
      (s.point w = .test → s.locked = true → t.point w = .test) := by
  have hspin : s.spin.point (s.agent w) ≠ .idle → ∃ k, s.point w = .spin k := by
    intro hbusy
    have hplace := h.place w
    cases hw : s.point w with
    | spin k => exact ⟨k, rfl⟩
    | idle | test | sleepState | sleepWait | setLocked | setPid | clearLocked | clearPid | wake
    | wakeState | wakeWait =>
        rw [hw] at hplace
        exact absurd hplace hbusy
  rcases hgives with hset | hclear | hclear | ⟨hcrit, hcpu⟩
  · obtain ⟨k, hk⟩ := hspin (by simp [hset])
    obtain ⟨hpoint, -, hcpu⟩ := SleepWorld.advance_setCpu lk addr hk hset
    have hcrit : ((s.advance w lk addr).point w).Critical := by
      rw [hpoint]
      have hplace := h.place w
      rw [hk, hset] at hplace
      cases k with
      | acquireLock | releaseLock => trivial
      | sleepUnlock | acquireUnlock | releaseUnlock =>
          obtain ⟨r, hr⟩ := hplace
          exact absurd hr (by simp)
    obtain ⟨t, hrun, hfree, -⟩ :=
      (h.advance w).frees_critical lk addr hcrit (by rw [hcpu, s.cpu_advance w])
    exact ⟨t, .head rfl hrun, hfree, fun hw => absurd (hk.symm.trans hw) (by simp)⟩
  · obtain ⟨k, hk⟩ := hspin (by simp [hclear])
    obtain ⟨t, ht, hfree⟩ := unlocks_releaseClearCpu lk addr hk hclear
    exact ⟨t, ht.run, hfree, fun hw => absurd (hk.symm.trans hw) (by simp)⟩
  · obtain ⟨k, hk⟩ := hspin (by simp [hclear])
    obtain ⟨t, ht, hfree⟩ := unlocks_releaseClearLocked lk addr hk hclear
    exact ⟨t, ht.run, hfree, fun hw => absurd (hk.symm.trans hw) (by simp)⟩
  · exact h.frees_critical lk addr hcrit hcpu

end LiveInv

end SkinnyArm
