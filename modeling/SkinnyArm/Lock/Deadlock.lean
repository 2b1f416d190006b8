import SkinnyArm.Lock.Liveness

/-!
Which calls of a sleep lock can still return, under every interleaving of any number of processes.

* **Deadlock.** The sleep lock is taken for good if every process that has it waits for it as well
  (`stuck_step`).
* **Nothing else is stuck.** In every other state each process that waits can still get it:
  `sleeplock_returns_iff`.  The process that has it can call `sleeplock_release`, and gets as far as
  to clear it since the spin lock is never taken for good (`LiveInv.acquires`).
* `sleeplock_release_returns`: `sleeplock_release` can always return.
-/

namespace SkinnyArm

variable {n : ℕ} {s s' t : SleepWorld n} {p q w : Fin n} {lk : ℕ} {addr : Fin n → BitVec 64}
variable {k : SpinCall}

/-- A process on the way to clear `locked` of the sleep lock: it has the lock, or is about to set
it, and does not wait for it. -/
def SleepWorld.CanGive (s : SleepWorld n) (q : Fin n) : Prop :=
  s.point q = .setLocked ∨ s.HasLock q ∧ ¬ (s.point q).InLoop

/-! ### A process that waits -/

/-- A process can return from `sleeplock_acquire` with the sleep lock. -/
def SleepWorld.Returns (lk : ℕ) (addr : Fin n → BitVec 64) (p : Fin n) (s : SleepWorld n) : Prop :=
  ∃ t, Run (AnyStep lk addr) s t ∧ t.point p = .idle ∧ t.held p = true

namespace SleepWorld

lemma RunsAlone.anyStep (h : RunsAlone lk addr w s t) : Run (AnyStep lk addr) s t := by
  refine Relation.ReflTransGen.mono ?_ _ _ h
  rintro t t' rfl
  exact .run w trivial

/-- A process stays where it is while another one runs. -/
lemma RunsAlone.keeps (h : RunsAlone lk addr w s t) (hq : q ≠ w) :
    t.point q = s.point q ∧ t.held q = s.held q ∧
      t.spin.point (t.agent q) = s.spin.point (s.agent q) := by
  refine Run.invariant (I := fun t => t.point q = s.point q ∧ t.held q = s.held q ∧
    t.spin.point (t.agent q) = s.spin.point (s.agent q)) ?_ h ⟨rfl, rfl, rfl⟩
  rintro t t' ⟨hpoint, hheld, hspin⟩ rfl
  have halone : StepsAlone w t (t.advance w lk addr) := .advance t w
  refine ⟨(halone.point q hq).trans hpoint, (halone.held q hq).trans hheld, ?_⟩
  rw [halone.agent_eq hq, (halone.agents _ fun he => hq (congrArg Prod.fst he)).1, hspin]

lemma Returns.head (h : t.Returns lk addr p) (hrun : Run (AnyStep lk addr) s t) :
    s.Returns lk addr p := by
  obtain ⟨u, hu, hreturned⟩ := h
  exact ⟨u, hrun.trans hu, hreturned⟩

/-- A test that finds the lock clear. -/
lemma returns_of_test (hp : s.point p = .test) (hl : s.locked = false) : s.Returns lk addr p := by
  obtain ⟨t, ht⟩ := unlocks_test lk addr s hp hl
  exact ⟨t, ht.run.anyStep, ht.point, by simp [ht.held]⟩

/-- Another process clears `locked`. -/
lemma returns_of_clearLocked (hp : s.point p = .test) (hq : s.point q = .clearLocked) :
    s.Returns lk addr p := by
  have hpq : p ≠ q := fun he => by simp [← he, hp] at hq
  have halone : StepsAlone q s (s.advance q lk addr) := .advance s q
  have hl : (s.advance q lk addr).locked = false := by simp [advance, hq, goto]
  exact (returns_of_test ((halone.point p hpq).trans hp) hl).head (.single (.run q trivial))

/-- The statements of all processes. -/
abbrev Statements (lk : ℕ) (addr : Fin n → BitVec 64) : SleepWorld n → SleepWorld n → Prop :=
  Run fun s s' => ∃ w, s' = s.advance w lk addr

lemma Statements.anyStep (h : Statements lk addr s t) : Run (AnyStep lk addr) s t := by
  refine Relation.ReflTransGen.mono ?_ _ _ h
  rintro t t' ⟨w, rfl⟩
  exact .run w trivial

lemma RunsAlone.statements (h : RunsAlone lk addr w s t) : Statements lk addr s t :=
  Relation.ReflTransGen.mono (fun _ _ he => ⟨w, he⟩) _ _ h

/-- The test-and-set of a free spin lock, and the owner's number. -/
lemma exists_acquired (hq : s.point q = .spin k)
    (ha : s.spin.point (s.agent q) = .acquire .testAndSet) (hl : s.spin.lock.locked = false) :
    ∃ t, RunsAlone lk addr q s t ∧ t.point q = k.after := by
  have heq := advance_testAndSet lk addr hq ha hl
  have hpoint : (s.advance q lk addr).point q = .spin k := by
    rw [heq]
    exact hq
  have hset : (s.advance q lk addr).spin.point ((s.advance q lk addr).agent q) =
      .acquire .setCpu := by
    rw [heq]
    exact SpinWorld.point_goto_self _
  exact ⟨_, .head rfl (.single rfl), (advance_setCpu lk addr hpoint hset).1⟩

end SleepWorld

/-- **A process that spins** can get the spin lock, and one that waits for the sleep lock while that
is taken is back at its test. -/
lemma LiveInv.acquires (lk : ℕ) (addr : Fin n → BitVec 64) (h : LiveInv s)
    (hq : s.point q = .spin k)
    (hk : k = .acquireLock ∨ k = .releaseLock) :
    ∃ t, SleepWorld.Statements lk addr s t ∧ t.point q = k.after ∧
      ∀ p, p ≠ q → s.point p = .test → s.locked = true → t.point p = .test := by
  have hplace := h.place q
  rw [hq] at hplace
  obtain ⟨a, ha⟩ : ∃ a, s.spin.point (s.agent q) = .acquire a := by
    rcases hk with rfl | rfl
    · exact hplace
    · exact hplace
  cases a with
  | setCpu =>
      have halone : StepsAlone q s (s.advance q lk addr) := .advance s q
      exact ⟨_, .single ⟨q, rfl⟩, (SleepWorld.advance_setCpu lk addr hq ha).1,
        fun p hp htest _ => (halone.point p hp).trans htest⟩
  | testAndSet =>
      cases hl : s.spin.lock.locked with
      | false =>
          obtain ⟨t, hrun, hpoint⟩ := SleepWorld.exists_acquired hq ha hl
          exact ⟨t, hrun.statements, hpoint, fun p hp htest _ => (hrun.keeps hp).1.trans htest⟩
      | true =>
          obtain ⟨w, hw⟩ := h.spin hl
          have hqw : q ≠ w := by
            rintro rfl
            have hnot : ¬ (s.point q).Critical := by
              rw [hq]
              rcases hk with rfl | rfl
              · exact id
              · exact id
            simp [SleepWorld.GivesSpin, ha, hnot] at hw
          obtain ⟨u, hrun, hfree, htest⟩ := h.frees lk addr hw
          obtain ⟨hpoint, -, hspin⟩ := hrun.keeps hqw
          obtain ⟨t, hrun', hpoint'⟩ :=
            SleepWorld.exists_acquired (hpoint.trans hq) (hspin.trans ha) hfree
          refine ⟨t, hrun.statements.trans hrun'.statements, hpoint', fun p hp hwaits hlocked => ?_⟩
          rw [(hrun'.keeps hp).1]
          rcases eq_or_ne p w with rfl | hpw
          · exact htest hwaits hlocked
          · exact (hrun.keeps hpw).1.trans hwaits

namespace LiveInv

/-- Another process is in `sleeplock_release`. -/
lemma returns_of_releaseLock (h : LiveInv s) (hp : s.point p = .test)
    (hq : s.point q = .spin .releaseLock) : s.Returns lk addr p := by
  cases hl : s.locked with
  | false => exact SleepWorld.returns_of_test hp hl
  | true =>
      have hpq : p ≠ q := fun he => by simp [← he, hp] at hq
      obtain ⟨t, hrun, hpoint, hothers⟩ := h.acquires lk addr hq (.inr rfl)
      exact (SleepWorld.returns_of_clearLocked (hothers p hpq hp hl) hpoint).head hrun.anyStep

/-- Another process is in no call and has the sleep lock. -/
lemma returns_of_held (h : LiveInv s) (hp : s.point p = .test) (hq : s.point q = .idle)
    (hheld : s.held q = true) : s.Returns lk addr p := by
  have hpq : p ≠ q := fun he => by simp [← he, hp] at hq
  have hstep : AnyStep lk addr s (s.callRelease q (s.cpu q)) := .release _ hq hheld
  have hp' : (s.callRelease q (s.cpu q)).point p = .test :=
    (Function.update_of_ne hpq _ _).trans hp
  have hq' : (s.callRelease q (s.cpu q)).point q = .spin .releaseLock :=
    SleepWorld.point_callSpin_self _ q _
  exact ((h.step hstep).returns_of_releaseLock hp' hq').head (.single hstep)

/-- Another process can give the sleep lock back. -/
lemma returns_of_canGive (h : LiveInv s) (hp : s.point p = .test) (hq : s.CanGive q) :
    s.Returns lk addr p := by
  have hloop : ¬ (s.point q).InLoop := by
    rcases hq with hset | ⟨-, hloop⟩
    · rw [hset]
      exact id
    · exact hloop
  have hpq : p ≠ q := fun he => by
    rw [← he, hp] at hloop
    exact hloop trivial
  -- behind the loop it returns, and calls `sleeplock_release`
  have hreturn : (s.point q).Critical → ((s.point q).Releasing → s.held q = true) →
      s.Returns lk addr p := by
    intro hcrit hrel
    obtain ⟨k, t, hidle, ht, hk⟩ := h.unlocks_return lk addr hcrit hloop
    have hheld : t.held q = true := by
      rw [ht.held]
      by_cases hreleasing : (s.point q).Releasing
      · simp [hrel hreleasing]
      · simp [hk hreleasing]
    have hlive : LiveInv t := ht.run.anyStep.invariant (fun h hstep => h.step hstep) h
    exact (hlive.returns_of_held ((ht.run.keeps hpq).1.trans hp) (ht.point.trans hidle)
      hheld).head ht.run.anyStep
  have hhas : ¬ (s.point q).HasLock → s.point q ≠ .setLocked → s.held q = true := fun hpoint hset =>
    (hq.resolve_left hset).1.resolve_right hpoint
  cases hx : s.point q with
  | clearLocked => exact SleepWorld.returns_of_clearLocked hp hx
  | idle => exact h.returns_of_held hp hx (hhas (hx ▸ id) (by simp [hx]))
  | setLocked | setPid =>
      refine hreturn (hx ▸ trivial) fun hrel => ?_
      rw [hx] at hrel
      exact hrel.elim
  | clearPid | wake | wakeState | wakeWait =>
      exact hreturn (hx ▸ trivial) fun _ => hhas (hx ▸ id) (by simp [hx])
  | spin k =>
      cases k with
      | releaseLock => exact h.returns_of_releaseLock hp hx
      | acquireUnlock =>
          refine hreturn (hx ▸ trivial) fun hrel => ?_
          rw [hx] at hrel
          exact hrel.elim
      | releaseUnlock => exact hreturn (hx ▸ trivial) fun _ => hhas (hx ▸ id) (by simp [hx])
      | acquireLock | sleepUnlock => exact absurd (hx ▸ trivial) hloop
  | test | sleepState | sleepWait => exact absurd (hx ▸ trivial) hloop

end LiveInv

/-! ### Deadlock -/

/-- The sleep lock is clear, or some process can give it back. -/
def SleepWorld.Alive (s : SleepWorld n) : Prop := s.locked = false ∨ ∃ q, s.CanGive q

namespace SleepWorld

/-- What a step does to the others' points does not concern a process. -/
lemma canGive_congr (halone : StepsAlone w s s') (hq : q ≠ w) : s'.CanGive q ↔ s.CanGive q := by
  rw [CanGive, HasLock, halone.point q hq, halone.held q hq, CanGive, HasLock]

/-- Only the store in `sleeplock_acquire` and the one in `sleeplock_release` change `locked`, and
who has the lock. -/
lemma hasLock_advance (lk : ℕ) (addr : Fin n → BitVec 64) (hset : s.point w ≠ .setLocked)
    (hclear : s.point w ≠ .clearLocked) :
    (s.advance w lk addr).locked = s.locked ∧
      ((s.advance w lk addr).HasLock w ↔ s.HasLock w) := by
  cases hx : s.point w with
  | setLocked => exact absurd hx hset
  | clearLocked => exact absurd hx hclear
  | spin k =>
      have hadvance : s.advance w lk addr = s.advanceSpin w k := by simp only [advance, hx]
      rw [hadvance, HasLock, s.point_advanceSpin, s.held_advanceSpin, HasLock, hx]
      refine ⟨(s.advanceSpin_eq w k).2.1, ?_⟩
      split
      · cases k <;> simp [SpinCall.after, SleepPoint.HasLock]
      · rfl
  | test =>
      cases hl : s.locked with
      | true => simp [advance, hx, hl, HasLock, SleepPoint.HasLock, goto]
      | false => simp [advance, hx, hl, HasLock, SleepPoint.HasLock, goto]
  | idle | sleepState | sleepWait | setPid | clearPid | wakeState | wakeWait =>
      simp [advance, hx, HasLock, SleepPoint.HasLock, goto, callSpin, setProcess]
  | wake i =>
      simp only [advance, hx]
      split
      · split
        · simp [HasLock, hx, SleepPoint.HasLock, goto]
        · simp [HasLock, hx, SleepPoint.HasLock, goto]
      · simp [HasLock, hx, SleepPoint.HasLock, goto, callSpin]

/-- Nothing leads back into the loop of `sleeplock_acquire`. -/
lemma not_inLoop_advance (h : ¬ (s.point w).InLoop) : ¬ ((s.advance w lk addr).point w).InLoop := by
  cases hx : s.point w with
  | spin k =>
      have hadvance : s.advance w lk addr = s.advanceSpin w k := by simp only [advance, hx]
      rw [hadvance, s.point_advanceSpin, hx]
      rw [hx] at h
      cases k with
      | acquireLock | sleepUnlock => exact absurd trivial h
      | releaseLock | acquireUnlock | releaseUnlock =>
          split
          · exact id
          · exact id
  | wake i =>
      simp only [advance, hx]
      split
      · split
        · simp [SleepPoint.InLoop]
        · simp [SleepPoint.InLoop]
      · simp [SleepPoint.InLoop]
  | test | sleepState | sleepWait =>
      rw [hx] at h
      exact absurd trivial h
  | idle | setLocked | setPid | clearLocked | clearPid | wakeState | wakeWait =>
      simp [advance, hx, SleepPoint.InLoop]

/-- A process that waits for a taken lock goes on waiting. -/
lemma inLoop_advance (hl : s.locked = true) (hloop : (s.point w).InLoop) :
    ((s.advance w lk addr).point w).InLoop := by
  cases hx : s.point w with
  | test => simp [advance, hx, hl, SleepPoint.InLoop]
  | sleepState | sleepWait => simp [advance, hx, SleepPoint.InLoop]
  | spin k =>
      have hadvance : s.advance w lk addr = s.advanceSpin w k := by simp only [advance, hx]
      rw [hadvance, s.point_advanceSpin, hx]
      rw [hx] at hloop
      cases k with
      | acquireLock | sleepUnlock =>
          split
          · trivial
          · trivial
      | releaseLock | acquireUnlock | releaseUnlock => exact absurd hloop id
  | idle | setLocked | setPid | clearLocked | clearPid | wake | wakeState | wakeWait =>
      rw [hx] at hloop
      exact absurd hloop id

/-- The store that sets `locked` follows a test that finds it clear. -/
lemma test_of_setLocked (h : (s.advance w lk addr).point w = .setLocked) :
    s.point w = .test ∧ s.locked = false := by
  cases hx : s.point w with
  | test =>
      refine ⟨rfl, ?_⟩
      by_contra hl
      simp [advance, hx, hl] at h
  | spin k =>
      have hadvance : s.advance w lk addr = s.advanceSpin w k := by simp only [advance, hx]
      rw [hadvance, s.point_advanceSpin, hx] at h
      split at h
      · cases k <;> simp [SpinCall.after] at h
      · exact absurd h (by simp)
  | wake i =>
      simp only [advance, hx] at h
      split at h
      · split at h
        · simp at h
        · simp at h
      · simp at h
  | idle | sleepState | sleepWait | setLocked | setPid | clearLocked | clearPid | wakeState
  | wakeWait => simp [advance, hx] at h

/-- A process that can give the lock back still can after its next statement, or has done so. -/
lemma canGive_advance (h : s.CanGive w) : (s.advance w lk addr).Alive := by
  by_cases hset : s.point w = .setLocked
  · exact .inr ⟨w, .inr (by simp [advance, hset, HasLock, SleepPoint.HasLock, SleepPoint.InLoop])⟩
  by_cases hclear : s.point w = .clearLocked
  · exact .inl (by simp [advance, hclear, goto])
  · obtain ⟨hhas, hloop⟩ := h.resolve_left hset
    have hhas' := (hasLock_advance lk addr hset hclear).2.mpr hhas
    exact .inr ⟨w, .inr ⟨hhas', not_inLoop_advance hloop⟩⟩

/-- **A statement** of any process leaves the lock clear, or in the hands of a process that can give
it back, if it is. -/
lemma Alive.advance (h : s.Alive) (w : Fin n) : (s.advance w lk addr).Alive := by
  rcases h with hl | ⟨q, hq⟩
  · by_cases hset : s.point w = .setLocked
    · exact canGive_advance (.inl hset)
    by_cases hclear : s.point w = .clearLocked
    · exact .inl (by simp [SleepWorld.advance, hclear, goto])
    · exact .inl ((hasLock_advance lk addr hset hclear).1.trans hl)
  · rcases eq_or_ne q w with rfl | hne
    · exact canGive_advance hq
    · exact .inr ⟨q, (canGive_congr (.advance s w) hne).mpr hq⟩

lemma Statements.alive (h : Statements lk addr s t) (hs : s.Alive) : t.Alive :=
  Run.invariant (I := Alive) (fun hs ⟨w, he⟩ => he ▸ hs.advance w) h hs

/-- **Deadlock**: once every process that has the lock waits for it, nobody gets out. -/
lemma stuck_step (h : ¬ s.Alive) (hstep : AnyStep lk addr s s') :
    ¬ s'.Alive ∧ ∀ p, (s.point p).InLoop → (s'.point p).InLoop := by
  rw [Alive, not_or, Bool.not_eq_false, not_exists] at h
  obtain ⟨hl, hnone⟩ := h
  -- what the one process does that makes the step
  have hone : ∀ {w : Fin n}, StepsAlone w s s' → s'.locked = true → ¬ s'.CanGive w →
      ((s.point w).InLoop → (s'.point w).InLoop) →
      ¬ s'.Alive ∧ ∀ p, (s.point p).InLoop → (s'.point p).InLoop := by
    intro w halone hl' hgive hloop
    constructor
    · rintro (hfalse | ⟨q, hq⟩)
      · rw [hl'] at hfalse
        exact absurd hfalse (by simp)
      · rcases eq_or_ne q w with rfl | hne
        · exact hgive hq
        · exact hnone q ((canGive_congr halone hne).mp hq)
    · intro p hp
      rcases eq_or_ne p w with rfl | hne
      · exact hloop hp
      · rwa [halone.point p hne]
  cases hstep with
  | @acquire p c hidle =>
      have hpoint : (s.callAcquire p c).point p = .spin .acquireLock :=
        point_callSpin_self _ p _
      refine hone ((StepsAlone.setCpu s p c).callSpin .acquireLock) hl ?_ fun _ => ?_
      · simp [CanGive, hpoint, SleepPoint.InLoop]
      · rw [hpoint]
        trivial
  | @release p c hidle hheld =>
      exact absurd (.inr ⟨.inl hheld, hidle ▸ id⟩) (hnone p)
  | run w _ =>
      have hset : s.point w ≠ .setLocked := fun hset => hnone w (.inl hset)
      have hclear : s.point w ≠ .clearLocked := fun hclear =>
        hnone w (.inr ⟨.inr (hclear ▸ trivial), hclear ▸ id⟩)
      obtain ⟨hlocked, hhas⟩ := hasLock_advance lk addr hset hclear
      refine hone (.advance s w) (hlocked.trans hl) ?_ (inLoop_advance hl)
      rintro (hset' | ⟨hhas', hloop⟩)
      · rw [(test_of_setLocked hset').2] at hl
        exact absurd hl (by simp)
      · exact hnone w (.inr ⟨hhas.mp hhas', fun hw => hloop (inLoop_advance hl hw)⟩)

lemma stuck_run (h : ¬ s.Alive) (hrun : Run (AnyStep lk addr) s t) (hp : (s.point p).InLoop) :
    (t.point p).InLoop := by
  have hall : ¬ t.Alive ∧ (t.point p).InLoop := by
    refine Run.invariant (I := fun t => ¬ t.Alive ∧ (t.point p).InLoop) ?_ hrun ⟨h, hp⟩
    rintro t t' ⟨ht, hpt⟩ hstep
    obtain ⟨ht', hloop⟩ := stuck_step ht hstep
    exact ⟨ht', hloop p hpt⟩
  exact hall.2

end SleepWorld

/-- A process that waits gets to a test. -/
lemma LiveInv.exists_test (lk : ℕ) (addr : Fin n → BitVec 64) (h : LiveInv s)
    (hp : (s.point p).InLoop) :
    ∃ t, SleepWorld.Statements lk addr s t ∧ t.point p = .test := by
  by_cases htest : s.point p = .test
  · exact ⟨s, .refl, htest⟩
  by_cases hspin : s.point p = .spin .acquireLock
  · obtain ⟨t, hrun, hpoint, -⟩ := h.acquires lk addr hspin (.inl rfl)
    exact ⟨t, hrun, hpoint⟩
  · obtain ⟨t, ht⟩ := h.unlocks_inLoop lk addr hp hspin fun ht => absurd ht htest
    exact ⟨t, ht.run.statements, ht.point⟩

/-- **Who gets the sleep lock**: in every state reached, by whatever steps, a process that waits in
`sleeplock_acquire` can still return from it with the lock, exactly if the lock is clear or some
process can give it back: one that is about to set it, or has it and does not wait for it. -/
theorem sleeplock_returns_iff {processArray : Fin n → Process n}
    (hrun : Run (AnyStep lk addr) (.init processArray) s) (hp : (s.point p).InLoop) :
    (∃ s', Run (AnyStep lk addr) s s' ∧ s'.point p = .idle ∧ s'.held p = true) ↔
      s.locked = false ∨ ∃ q, s.CanGive q := by
  have h := LiveInv.of_run hrun
  constructor
  · rintro ⟨s', hrun', hidle, -⟩
    by_contra hstuck
    have hloop := SleepWorld.stuck_run hstuck hrun' hp
    rw [hidle] at hloop
    exact hloop
  · intro halive
    obtain ⟨t, hstatements, htest⟩ := h.exists_test lk addr hp
    have hlive : LiveInv t := hstatements.anyStep.invariant (fun h hstep => h.step hstep) h
    have hreturns : t.Returns lk addr p := by
      rcases hstatements.alive halive with hl | ⟨q, hq⟩
      · exact SleepWorld.returns_of_test htest hl
      · exact hlive.returns_of_canGive htest hq
    exact hreturns.head hstatements.anyStep

/-- One of two processes has the lock, and the other waits for it. -/
theorem sleeplock_returns_iff_two :
    ∃ s, Run (AnyStep 0x5000 fun _ => 0x80000) (.init (runningProcesses 2)) s ∧
      (s.point 1).InLoop ∧
      ((∃ s', Run (AnyStep 0x5000 fun _ => 0x80000) s s' ∧ s'.point 1 = .idle ∧
          s'.held 1 = true) ↔
        s.locked = false ∨ ∃ q, s.CanGive q) := by
  have h : ((SleepWorld.init (runningProcesses 2)).exec 0x5000 (fun _ => 0x80000)
      (fun _ _ => True) (acquireMoves 0 1 ++ acquireMoves 1 2)).any
        (fun s => s.point 1 = .test) = true := by
    decide +kernel
  obtain ⟨s, hrun, htest⟩ := SleepWorld.exists_run h
  have hloop : (s.point 1).InLoop := by
    rw [of_decide_eq_true htest]
    trivial
  exact ⟨s, hrun, hloop, sleeplock_returns_iff hrun hloop⟩

/-- **Giving the lock back**: in every state reached, by whatever steps, a process in
`sleeplock_release` can still return from it. -/
theorem sleeplock_release_returns {processArray : Fin n → Process n}
    (hrun : Run (AnyStep lk addr) (.init processArray) s) (hp : (s.point p).Releasing) :
    ∃ s', Run (AnyStep lk addr) s s' ∧ s'.point p = .idle := by
  have h := LiveInv.of_run hrun
  by_cases hspin : s.point p = .spin .releaseLock
  · obtain ⟨t, hstatements, hpoint, -⟩ := h.acquires lk addr hspin (.inr rfl)
    obtain ⟨u, hu⟩ := unlocks_clearLocked lk addr t hpoint
    exact ⟨u, hstatements.anyStep.trans hu.run.anyStep, hu.point⟩
  · have hplace : (s.point p).Critical ∧ ¬ (s.point p).InLoop := by
      cases hx : s.point p with
      | spin k =>
          rw [hx] at hp hspin
          cases k with
          | releaseLock => exact absurd rfl hspin
          | releaseUnlock => exact ⟨trivial, id⟩
          | acquireLock | sleepUnlock | acquireUnlock => exact absurd hp id
      | clearLocked | clearPid | wake | wakeState | wakeWait => exact ⟨trivial, id⟩
      | idle | test | sleepState | sleepWait | setLocked | setPid =>
          rw [hx] at hp
          exact absurd hp id
    obtain ⟨k, t, hidle, ht, -⟩ := h.unlocks_return lk addr hplace.1 hplace.2
    exact ⟨t, ht.run.anyStep, ht.point.trans hidle⟩

/-- One of two processes has the sleep lock and calls `sleeplock_release`, where it spins: the other
one has just taken the spin lock in `sleeplock_acquire`. -/
theorem sleeplock_release_returns_two :
    ∃ s, Run (AnyStep 0x5000 fun _ => 0x80000) (.init (runningProcesses 2)) s ∧
      s.point 0 = .spin .releaseLock ∧ s.spin.point (0, 1) = .acquire .testAndSet ∧
      s.spin.acquired (1, 2) = true ∧
      ∃ s', Run (AnyStep 0x5000 fun _ => 0x80000) s s' ∧ s'.point 0 = .idle := by
  have h : ((SleepWorld.init (runningProcesses 2)).exec 0x5000 (fun _ => 0x80000)
      (fun _ _ => True)
      (acquireMoves 0 1 ++ [.acquire 1 2, .run 1, .run 1, .release 0 1, .run 0])).any
        (fun s => s.point 0 = .spin .releaseLock ∧ s.spin.point (0, 1) = .acquire .testAndSet ∧
          s.spin.acquired (1, 2) = true) = true := by
    decide +kernel
  obtain ⟨s, hrun, hall⟩ := SleepWorld.exists_run h
  obtain ⟨hpoint, hspins, hother⟩ := of_decide_eq_true hall
  exact ⟨s, hrun, hpoint, hspins, hother, sleeplock_release_returns hrun (hpoint ▸ trivial)⟩

end SkinnyArm
