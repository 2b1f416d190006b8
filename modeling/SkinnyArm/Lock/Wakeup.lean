import SkinnyArm.Lock.SleepLock

/-!
Wakeups on one sleep lock, under the interleavings of `Lock/SleepLock.lean`.

* **The property.** `SleepWorld.WakeupsKept`: who waits on a lock that is free has a wakeup coming,
  and nobody leaves `sleeplock_acquire` in the state `WAITING`.
* **The invariant.** `WakeInv`, beside `SleepInv`: a process in `sleep` owns the spin lock and
  `locked` is set, and a process in the state `WAITING` is in `sleep` or back from it.
* **The calls.** `sleep` and `wakeup`, run without another process between their statements, are the
  calls of `Kernel/Process.lean` (`runsAlone_sleep`, `runsAlone_wakeup`).
* **The results.** `sleeplock_wakeups_kept` for the runs in which `locked` is tested only with the
  spin lock; `not_sleeplock_wakeups_kept` is the wakeup that a second test without it loses.
-/

namespace SkinnyArm

namespace SleepPoint

variable {n : ℕ}

/-- The points of a `sleeplock_release` that has cleared `locked` and has still to get to a slot in
its `wakeup`. -/
def WillWake (q : Fin n) : SleepPoint n → Prop
  | .clearPid => True
  | .wake i => i ≤ q
  | .wakeState i => i ≤ q
  | .wakeWait i => i < q
  | _ => False

/-- The points of `sleep`. -/
def InSleep : SleepPoint n → Prop
  | .sleepState | .sleepWait | .spin .sleepUnlock => True
  | _ => False

end SleepPoint

/-- No wakeup is lost: a process that waits on the lock waits on a taken lock or has a wakeup
coming, and a process at the end of `sleeplock_acquire` is not in the state `WAITING`. -/
structure SleepWorld.WakeupsKept {n : ℕ} (lk : ℕ) (s : SleepWorld n) : Prop where
  waiting : ∀ q, (s.processArray q).WaitsOn lk → s.locked = true ∨ ∃ p, (s.point p).WillWake q
  returned : ∀ p, s.point p = .spin .acquireUnlock → (s.processArray p).state ≠ .waiting

variable {n : ℕ} {s s' t : SleepWorld n} {p q : Fin n} {lk : ℕ} {addr : Fin n → BitVec 64}

/-! ### The invariant -/

/-- What the points of the code know of `locked` and of the states of the processes. -/
structure WakeInv (lk : ℕ) (s : SleepWorld n) : Prop where
  inSleep : ∀ p, (s.point p).InSleep → s.Owner p ∧ s.locked = true
  waiting : ∀ q, (s.processArray q).WaitsOn lk → s.locked = true ∨ ∃ p, (s.point p).WillWake q
  asleep : ∀ p, (s.processArray p).state = .waiting →
    (s.point p).InSleep ∨ s.point p = .test ∧ ¬ s.Owner p
  woken : ∀ p i, s.point p = .wakeWait i → (s.processArray i).state ≠ .waiting

lemma wakeInv_init {processArray : Fin n → Process n}
    (hproc : ∀ q, (processArray q).state ≠ .waiting) : WakeInv lk (.init processArray) where
  inSleep := fun p hp => hp.elim
  waiting := fun q hq => absurd hq.1 (hproc q)
  asleep := fun p hp => absurd hp (hproc p)
  woken := fun p i hp => by simp [SleepWorld.init] at hp

/-- The other processes own the spin lock as before. -/
lemma StepsAlone.owner_iff (h : StepsAlone p s s') (hq : q ≠ p) : s'.Owner q ↔ s.Owner q := by
  have hne : s.agent q ≠ s'.agent p := fun he => hq (congrArg Prod.fst he)
  rw [SleepWorld.Owner, h.agent_eq hq, (h.agents _ hne).2, SleepWorld.Owner]

/-- A process at the end of `wakeup`'s stores to a slot owns the spin lock. -/
lemma SleepInv.owner_of_wakeWait (h : SleepInv s) {i : Fin n} (hp : s.point p = .wakeWait i) :
    s.Owner p :=
  (h.owner hp fun _ _ hx => hx).2

namespace WakeInv

/-- A process that tests `locked` as the owner of the spin lock is the owner wherever it passes the
guard. -/
lemma leavesOwned (hw : WakeInv lk s) (h : SleepInv s) (hmet : s.TestsOwned p) :
    s.LeavesOwned p := by
  refine ⟨fun ht _ => hmet ht, fun hguard _ => ?_⟩
  have hplace := h.place p
  rw [hguard] at hplace
  cases hp : s.point p with
  | spin k =>
      rw [hp] at hplace
      cases k with
      | acquireLock | releaseLock =>
          obtain ⟨⟨a, ha⟩, -⟩ := hplace
          simp at ha
      | sleepUnlock => exact (hw.inSleep p (by rw [hp]; trivial)).1
      | acquireUnlock | releaseUnlock => exact hplace.2
  | test | sleepState | sleepWait =>
      rw [hp] at hplace
      exact absurd hplace (by simp [SleepPoint.Placed])
  | idle | setLocked | setPid | clearLocked | clearPid | wake | wakeState | wakeWait =>
      rw [hp] at hplace
      exact absurd hplace.1 (by simp)

/-- **A step** of one process: what has to be checked of the process and of the table. -/
lemma update (hw : WakeInv lk s) (h : SleepInv s) (halone : StepsAlone p s s')
    (hlocked : s.locked = true → s'.locked = true ∨ s.Owner p)
    (hin : (s'.point p).InSleep → s'.Owner p ∧ s'.locked = true)
    (hwait : ∀ q, (s'.processArray q).WaitsOn lk → s'.locked = true ∨ (s'.point p).WillWake q ∨
      (s.processArray q).WaitsOn lk ∧ s.locked = false ∧ ¬ (s.point p).WillWake q)
    (hstate : ∀ q, q ≠ p → (s'.processArray q).state = .waiting →
      (s.processArray q).state = .waiting)
    (hasleep : (s'.processArray p).state = .waiting →
      (s'.point p).InSleep ∨ s'.point p = .test ∧ ¬ s'.Owner p)
    (hwoken : ∀ i, s'.point p = .wakeWait i → (s'.processArray i).state ≠ .waiting)
    (hself : (s'.processArray p).state = .waiting →
      (s.processArray p).state = .waiting ∨ s.Owner p) :
    WakeInv lk s' := by
  constructor
  case inSleep =>
    intro q hq
    rcases eq_or_ne q p with rfl | hne
    · exact hin hq
    · rw [halone.point q hne] at hq
      obtain ⟨hown, hl⟩ := hw.inSleep q hq
      refine ⟨(halone.owner_iff hne).mpr hown, (hlocked hl).resolve_right fun hp => ?_⟩
      exact hne (h.eq_of_owner hp hown)
  case waiting =>
    intro q hq
    rcases hwait q hq with hl | hp | ⟨hold, hl, hp⟩
    · exact .inl hl
    · exact .inr ⟨p, hp⟩
    · obtain ⟨r, hr⟩ := (hw.waiting q hold).resolve_left (by simp [hl])
      have hne : r ≠ p := fun he => hp (he ▸ hr)
      exact .inr ⟨r, by rwa [halone.point r hne]⟩
  case asleep =>
    intro q hq
    rcases eq_or_ne q p with rfl | hne
    · exact hasleep hq
    · rw [halone.point q hne, halone.owner_iff hne]
      exact hw.asleep q (hstate q hne hq)
  case woken =>
    intro r i hr
    rcases eq_or_ne r p with rfl | hne
    · exact hwoken i hr
    · rw [halone.point r hne] at hr
      intro hi
      rcases eq_or_ne i p with rfl | hip
      · rcases hself hi with hold | hown
        · exact hw.woken r i hr hold
        · exact hne (h.eq_of_owner hown (h.owner_of_wakeWait hr))
      · exact hw.woken r i hr (hstate i hip hi)

/-- A step that leaves the table and `locked` alone. -/
lemma quiet (hw : WakeInv lk s) (h : SleepInv s) (halone : StepsAlone p s s')
    (htable : s'.processArray = s.processArray) (hlocked : s'.locked = s.locked)
    (hin : (s'.point p).InSleep → s'.Owner p ∧ s'.locked = true)
    (hwill : ∀ q, (s.processArray q).WaitsOn lk → (s.point p).WillWake q →
      (s'.point p).WillWake q)
    (hasleep : (s.processArray p).state = .waiting →
      (s'.point p).InSleep ∨ s'.point p = .test ∧ ¬ s'.Owner p)
    (hwoken : ∀ i, s'.point p = .wakeWait i → (s.processArray i).state ≠ .waiting) :
    WakeInv lk s' := by
  refine hw.update h halone (fun hl => .inl (hlocked.trans hl)) hin (fun q hq => ?_)
    (fun q _ hq => htable ▸ hq) (htable ▸ hasleep) (htable ▸ hwoken) fun hp => .inl (htable ▸ hp)
  rw [htable] at hq
  cases hl : s.locked with
  | true => exact .inl (hlocked.trans hl)
  | false =>
      by_cases hp : (s.point p).WillWake q
      · exact .inr (.inl (hwill q hq hp))
      · exact .inr (.inr ⟨hq, rfl, hp⟩)

/-- In `sleep`, the owner of the spin lock gives it back. -/
lemma sleepUnlock (hw : WakeInv lk s) (h : SleepInv s) (hp : s.point p = .spin .sleepUnlock) :
    (s.advanceSpin p .sleepUnlock).point p = .spin .sleepUnlock ∧
        (s.advanceSpin p .sleepUnlock).Owner p ∨
      (s.advanceSpin p .sleepUnlock).point p = .test ∧
        ¬ (s.advanceSpin p .sleepUnlock).Owner p := by
  obtain ⟨-, -, hagent, hspin⟩ := s.advanceSpin_eq p .sleepUnlock
  have hplace := h.place p
  rw [hp] at hplace
  obtain ⟨r, hr⟩ := hplace
  have hown : s.Owner p := (hw.inSleep p (by rw [hp]; trivial)).1
  rw [SleepWorld.Owner, hagent, hspin, SleepWorld.point_advanceSpin]
  rcases h.spin.advance_release hr hown with ⟨r', hpoint, hacq⟩ | ⟨hpoint, hacq⟩
  · exact .inl ⟨by rw [if_neg (by simp [hpoint]), hp], hacq⟩
  · exact .inr ⟨by rw [if_pos hpoint]; rfl, by simp [hacq]⟩

/-- A store of `wakeup` to a slot. -/
lemma wake (hw : WakeInv lk s) (h : SleepInv s) (halone : StepsAlone p s s') {i : Fin n}
    {x : Process n} (htable : s'.processArray = Function.update s.processArray i x)
    (hx : x.state ≠ .waiting) (hlocked : s'.locked = s.locked)
    (hnot : (s.processArray p).state ≠ .waiting) (hin : ¬ (s'.point p).InSleep)
    (hwill : ∀ q, q ≠ i → (s.point p).WillWake q → (s'.point p).WillWake q)
    (hwoken : ∀ j, s'.point p = .wakeWait j → j = i) : WakeInv lk s' := by
  have hslot : (s'.processArray i).state ≠ .waiting := by
    rwa [htable, Function.update_self]
  have hother : ∀ q, (s'.processArray q).state = .waiting → q ≠ i ∧
      s'.processArray q = s.processArray q := fun q hq => by
    have hne : q ≠ i := fun he => hslot (he ▸ hq)
    exact ⟨hne, by rw [htable, Function.update_of_ne hne]⟩
  have hback : ∀ q, (s'.processArray q).state = .waiting →
      (s.processArray q).state = .waiting := fun q hq => (hother q hq).2 ▸ hq
  refine hw.update h halone (fun hl => .inl (hlocked.trans hl)) (fun hs => absurd hs hin)
    (fun q hq => ?_) (fun q _ hq => hback q hq) (fun hq => absurd (hback p hq) hnot)
    (fun j hj => hwoken j hj ▸ hslot) fun hq => .inl (hback p hq)
  obtain ⟨hne, htable'⟩ := hother q hq.1
  cases hl : s.locked with
  | true => exact .inl (hlocked.trans hl)
  | false =>
      by_cases hp : (s.point p).WillWake q
      · exact .inr (.inl (hwill q hne hp))
      · exact .inr (.inr ⟨htable' ▸ hq, rfl, hp⟩)

/-- A statement of the spin lock. -/
lemma advanceSpin (hw : WakeInv lk s) (h : SleepInv s) {k : SpinCall} (hp : s.point p = .spin k) :
    WakeInv lk (s.advanceSpin p k) := by
  obtain ⟨htable, hlocked, -, -⟩ := s.advanceSpin_eq p k
  have hpoint : (s.advanceSpin p k).point p = k.after ∨ (s.advanceSpin p k).point p = .spin k := by
    rw [SleepWorld.point_advanceSpin, hp]
    split
    · exact .inl rfl
    · exact .inr rfl
  refine hw.quiet h (.advanceSpin s p k) htable hlocked (fun hin => ?_)
    (fun q _ hq => ?_) (fun hstate => ?_) fun i hi => ?_
  · cases k with
    | sleepUnlock =>
        have hold := hw.inSleep p (by rw [hp]; trivial)
        rcases hw.sleepUnlock h hp with ⟨-, hown⟩ | ⟨htest, -⟩
        · exact ⟨hown, hlocked.trans hold.2⟩
        · exact (htest ▸ hin).elim
    | acquireLock | releaseLock | acquireUnlock | releaseUnlock =>
        rcases hpoint with hpoint | hpoint <;> exact (hpoint ▸ hin).elim
  · exact (hp ▸ hq).elim
  · cases k with
    | sleepUnlock =>
        rcases hw.sleepUnlock h hp with ⟨hpoint, -⟩ | htest
        · exact .inl (by rw [hpoint]; trivial)
        · exact .inr htest
    | acquireLock | releaseLock | acquireUnlock | releaseUnlock =>
        exact absurd (hw.asleep p hstate) (by simp [hp, SleepPoint.InSleep])
  · rcases hpoint with hpoint | hpoint <;> rw [hpoint] at hi <;> cases k <;>
      simp [SpinCall.after] at hi

/-- A process in a place that is not in `sleep`, nor the test after it, is not `WAITING`. -/
lemma not_waiting (hw : WakeInv lk s) (hin : ¬ (s.point p).InSleep)
    (htest : s.point p = .test → s.Owner p) : (s.processArray p).state ≠ .waiting := fun hstate =>
  (hw.asleep p hstate).elim hin fun ht => ht.2 (htest ht.1)

/-- At any other point of the code a process is not `WAITING`. -/
lemma awake {x : SleepPoint n} (hw : WakeInv lk s) (hp : s.point p = x) (hin : ¬ x.InSleep)
    (htest : x ≠ .test) : (s.processArray p).state ≠ .waiting :=
  hw.not_waiting (hp ▸ hin) fun h => absurd (hp.symm.trans h) htest

/-- **A statement** of one process keeps the invariant, if it tests `locked` only as the owner of
the spin lock. -/
lemma advance (hw : WakeInv lk s) (h : SleepInv s) (p : Fin n) (hmet : s.TestsOwned p) :
    WakeInv lk (s.advance p lk addr) := by
  have halone : StepsAlone p s (s.advance p lk addr) := StepsAlone.advance s p
  cases hp : s.point p with
  | idle =>
      simp only [SleepWorld.advance, hp]
      exact hw
  | spin k =>
      simp only [SleepWorld.advance, hp]
      exact hw.advanceSpin h hp
  | test =>
      have hnot : (s.processArray p).state ≠ .waiting :=
        hw.not_waiting (by rw [hp]; exact id) hmet
      simp only [SleepWorld.advance, hp] at halone ⊢
      refine hw.quiet h halone rfl rfl ?_ (fun q _ hq => ?_) (fun hs => absurd hs hnot) ?_
      · cases hl : s.locked with
        | true => exact fun _ => ⟨hmet hp, hl⟩
        | false => simp [SleepPoint.InSleep]
      · rw [hp] at hq
        exact hq.elim
      · intro i
        rw [SleepWorld.point_goto_self]
        split <;> simp
  | sleepState =>
      obtain ⟨hown, hl⟩ := hw.inSleep p (by rw [hp]; trivial)
      simp only [SleepWorld.advance, hp] at halone ⊢
      refine hw.update h halone .inl (fun _ => ⟨hown, hl⟩) (fun q _ => .inl hl) (fun q hq hs => ?_)
        (fun _ => .inl (by simp [SleepPoint.InSleep])) (by simp) fun _ => .inr hown
      rwa [SleepWorld.processArray_goto, SleepWorld.processArray_setProcess_of_ne _ _ hq] at hs
  | sleepWait =>
      obtain ⟨hown, hl⟩ := hw.inSleep p (by rw [hp]; trivial)
      simp only [SleepWorld.advance, hp] at halone ⊢
      refine hw.update h halone .inl (fun _ => ⟨hown, hl⟩) (fun q _ => .inl hl) (fun q hq hs => ?_)
        (fun _ => .inl (by simp [SleepPoint.InSleep])) (by simp) fun _ => .inr hown
      rwa [SleepWorld.processArray_callSpin, SleepWorld.processArray_setProcess_of_ne _ _ hq] at hs
  | setLocked =>
      have hnot := hw.awake hp id (by simp)
      simp only [SleepWorld.advance, hp] at halone ⊢
      exact hw.update h halone (fun _ => .inl rfl) (by simp [SleepPoint.InSleep])
        (fun q _ => .inl rfl) (fun _ _ hs => hs) (fun hs => absurd hs hnot) (by simp) .inl
  | setPid =>
      have hnot := hw.awake hp id (by simp)
      simp only [SleepWorld.advance, hp] at halone ⊢
      exact hw.quiet h halone rfl rfl (by simp [SleepPoint.InSleep])
        (fun q _ hq => (hp ▸ hq).elim) (fun hs => absurd hs hnot) (by simp)
  | clearLocked =>
      have hown : s.Owner p := (h.owner hp fun _ _ hx => hx).2
      have hnot := hw.awake hp id (by simp)
      simp only [SleepWorld.advance, hp] at halone ⊢
      exact hw.update h halone (fun _ => .inr hown) (by simp [SleepPoint.InSleep])
        (fun q _ => .inr (.inl (by simp [SleepPoint.WillWake]))) (fun _ _ hs => hs)
        (fun hs => absurd hs hnot) (by simp) .inl
  | clearPid =>
      have hnot := hw.awake hp id (by simp)
      simp only [SleepWorld.advance, hp] at halone ⊢
      exact hw.quiet h halone rfl rfl (by simp [SleepPoint.InSleep])
        (fun q _ _ => by simp [SleepPoint.WillWake]) (fun hs => absurd hs hnot) (by simp)
  | wake i =>
      have hnot := hw.awake hp id (by simp)
      simp only [SleepWorld.advance, hp] at halone ⊢
      split
      case isTrue hi =>
        rw [dif_pos hi] at halone
        refine hw.quiet h halone rfl rfl ?_ (fun q hq hwill => ?_) (fun hs => absurd hs hnot) ?_
        all_goals simp only [SleepWorld.point_goto_self]
        · split <;> simp [SleepPoint.InSleep]
        · rw [hp] at hwill
          split
          case isTrue => exact hwill
          case isFalse hwaits =>
            -- The slot that the loop leaves out does not wait on the lock.
            have hne : i ≠ q := by
              rintro rfl
              exact hwaits hq
            have hle : i ≤ q := hwill
            show i + 1 ≤ q
            omega
        · split <;> simp
      case isFalse hi =>
        rw [dif_neg hi] at halone
        refine hw.quiet h halone rfl rfl (by simp [SleepPoint.InSleep]) (fun q _ hwill => ?_)
          (fun hs => absurd hs hnot) (by simp)
        rw [hp] at hwill
        exact absurd (lt_of_le_of_lt hwill q.isLt) hi
  | wakeState i =>
      have hnot := hw.awake hp id (by simp)
      simp only [SleepWorld.advance, hp] at halone ⊢
      refine hw.wake h halone (x := { s.processArray i with state := .runnable }) rfl (by simp) rfl
        hnot (by simp [SleepPoint.InSleep]) (fun q hq hwill => ?_) (by simp [eq_comm])
      rw [hp] at hwill
      rw [SleepWorld.point_goto_self]
      exact lt_of_le_of_ne hwill (Ne.symm hq)
  | wakeWait i =>
      have hnot := hw.awake hp id (by simp)
      simp only [SleepWorld.advance, hp] at halone ⊢
      refine hw.wake h halone (x := { s.processArray i with waitOn := 0 }) rfl (hw.woken p i hp) rfl
        hnot (by simp [SleepPoint.InSleep]) (fun q _ hwill => ?_) (by simp)
      rw [hp] at hwill
      rw [SleepWorld.point_goto_self]
      exact Nat.succ_le_of_lt hwill

/-- `sleeplock_acquire` or `sleeplock_release` is called. -/
lemma call (hw : WakeInv lk s) (h : SleepInv s) (hp : s.point p = .idle) {k : SpinCall}
    (hk : k = .acquireLock ∨ k = .releaseLock) (halone : StepsAlone p s t)
    (htable : t.processArray = s.processArray) (hlocked : t.locked = s.locked) :
    WakeInv lk (t.callSpin p k) := by
  have hnot := hw.awake hp id (by simp)
  refine hw.quiet h (halone.callSpin k) htable hlocked (fun hin => ?_)
    (fun q _ hq => (hp ▸ hq).elim) (fun hs => absurd hs hnot) (by simp)
  rcases hk with rfl | rfl <;> simp [SleepPoint.InSleep] at hin

/-- **A step** keeps the two invariants. -/
lemma step (hw : WakeInv lk s) (h : SleepInv s)
    (hstep : SleepStep lk addr SleepWorld.TestsOwned s s') : SleepInv s' ∧ WakeInv lk s' := by
  cases hstep with
  | acquire c hp =>
      refine ⟨h.callAcquire hp c, hw.call h hp (.inl rfl) ⟨fun _ _ => rfl, fun _ _ => rfl,
        fun q hq => Function.update_of_ne hq _ _, fun _ _ => ⟨rfl, rfl⟩⟩ rfl rfl⟩
  | release c hp hheld =>
      refine ⟨h.callRelease hp hheld c, hw.call h hp (.inr rfl) ⟨fun _ _ => rfl,
        fun q hq => Function.update_of_ne hq _ _, fun q hq => Function.update_of_ne hq _ _,
        fun _ _ => ⟨rfl, rfl⟩⟩ rfl rfl⟩
  | run p hmet => exact ⟨h.advance p (hw.leavesOwned h hmet), hw.advance h p hmet⟩

end WakeInv

/-! ### `sleep` and `wakeup` as a whole -/

namespace SleepWorld

/-- A process runs statements, and no other does. -/
abbrev RunsAlone (lk : ℕ) (addr : Fin n → BitVec 64) (p : Fin n) :
    SleepWorld n → SleepWorld n → Prop :=
  Run fun s s' => s' = s.advance p lk addr

/-- The statements of `sleep` up to its `spinlock_release` do to the table what `System.sleep`
does. -/
lemma runsAlone_sleep {S : System n} (hp : s.point p = .sleepState)
    (htable : S.processArray = s.processArray) (hcur : S.current = p) :
    ∃ s', RunsAlone lk addr p s s' ∧ s'.point p = .spin .sleepUnlock ∧
      s'.processArray = (S.sleep lk).processArray := by
  have hfirst : (s.advance p lk addr).point p = .sleepWait := by simp [advance, hp]
  refine ⟨_, .head rfl (.single rfl), ?_, ?_⟩
  · rw [advance, hfirst]
    exact point_callSpin_self _ p _
  · rw [advance, hfirst]
    simp [advance, hp, System.sleep, System.setProcess, setProcess, goto, callSpin, htable, hcur]

/-- The table when `wakeup` has got to a slot. -/
def wokenTo (lk : ℕ) (processArray : Fin n → Process n) (i : ℕ) : Fin n → Process n := fun j =>
  if j < i ∧ (processArray j).WaitsOn lk then
    { processArray j with state := .runnable, waitOn := 0 }
  else processArray j

/-- One slot of the loop of `wakeup`. -/
lemma runsAlone_wake {processArray : Fin n → Process n} {i : Fin n} (hp : s.point p = .wake i)
    (htable : s.processArray = wokenTo lk processArray i) :
    ∃ s', RunsAlone lk addr p s s' ∧ s'.point p = .wake (i + 1) ∧
      s'.processArray = wokenTo lk processArray (i + 1) := by
  have hslot : s.processArray i = processArray i := by simp [htable, wokenTo]
  have hother : ∀ j, j ≠ i → s.processArray j = wokenTo lk processArray (i + 1) j := fun j hj => by
    have hlt : (j : ℕ) < i + 1 ↔ (j : ℕ) < i := by
      have hne : (j : ℕ) ≠ i := fun h => hj (Fin.ext h)
      omega
    simp only [htable, wokenTo, hlt]
  by_cases hwaits : (s.processArray i).WaitsOn lk
  · have hfirst : s.advance p lk addr = s.goto p (.wakeState i) := by
      simp only [advance, hp, i.isLt, dif_pos, Fin.eta, if_pos hwaits]
    let s₁ := s.goto p (.wakeState i)
    let s₂ := (s₁.setProcess i { s.processArray i with state := .runnable }).goto p (.wakeWait i)
    let s₃ := (s₂.setProcess i { s₂.processArray i with waitOn := 0 }).goto p (.wake (i + 1))
    have hsecond : s₁.advance p lk addr = s₂ := by simp [advance, s₁, s₂]
    have hthird : s₂.advance p lk addr = s₃ := by simp [advance, s₂, s₃]
    refine ⟨s₃, .head rfl (hfirst ▸ .head hsecond.symm (.single hthird.symm)),
      point_goto_self _ p _, funext fun j => ?_⟩
    rw [processArray_goto]
    rcases eq_or_ne j i with rfl | hj
    · have hwoken : j < j.val + 1 ∧ (processArray j).WaitsOn lk := ⟨by simp, hslot ▸ hwaits⟩
      rw [processArray_setProcess_self, wokenTo, if_pos hwoken, ← hslot]
      simp [s₂]
    · rw [processArray_setProcess_of_ne _ _ hj]
      exact (processArray_setProcess_of_ne _ _ hj).trans (hother j hj)
  · have hfirst : s.advance p lk addr = s.goto p (.wake (i + 1)) := by
      simp only [advance, hp, i.isLt, dif_pos, Fin.eta, if_neg hwaits]
    refine ⟨_, .single rfl, by rw [hfirst, point_goto_self], funext fun j => ?_⟩
    rw [hfirst, processArray_goto]
    rcases eq_or_ne j i with rfl | hj
    · rw [hslot, wokenTo, if_neg fun h => hwaits (hslot ▸ h.2)]
    · exact hother j hj

/-- The loop of `wakeup`, run without another process between its statements, does to the table what
`System.wakeup` does. -/
lemma runsAlone_wakeup {S : System n} (hp : s.point p = .wake 0)
    (htable : S.processArray = s.processArray) :
    ∃ s', RunsAlone lk addr p s s' ∧ s'.point p = .wake n ∧
      s'.processArray = (S.wakeup lk).processArray := by
  have hloop : ∀ i ≤ n, ∃ s', RunsAlone lk addr p s s' ∧ s'.point p = .wake i ∧
      s'.processArray = wokenTo lk s.processArray i := by
    intro i
    induction i with
    | zero => exact fun _ => ⟨s, .refl, hp, funext fun j => by simp [wokenTo]⟩
    | succ i ih =>
        intro hi
        obtain ⟨s₁, hrun₁, hp₁, htable₁⟩ := ih (by omega)
        obtain ⟨s₂, hrun₂, hp₂, htable₂⟩ := runsAlone_wake (i := ⟨i, hi⟩) hp₁ htable₁
        exact ⟨s₂, hrun₁.trans hrun₂, hp₂, htable₂⟩
  obtain ⟨s', hrun, hp', htable'⟩ := hloop n le_rfl
  refine ⟨s', hrun, hp', htable'.trans (funext fun j => ?_)⟩
  simp [wokenTo, System.wakeup, htable]

end SleepWorld

/-! ### No wakeup is lost -/

/-- **Wakeups**: in every run in which each test of `locked` is made by the owner of the spin lock,
no wakeup is lost; no process waits at the start. -/
theorem sleeplock_wakeups_kept {processArray : Fin n → Process n}
    (hproc : ∀ q, (processArray q).state ≠ .waiting)
    (hrun : Run (SleepStep lk addr SleepWorld.TestsOwned) (.init processArray) s) :
    s.WakeupsKept lk := by
  obtain ⟨-, hw⟩ : SleepInv s ∧ WakeInv lk s :=
    Run.invariant (I := fun s => SleepInv s ∧ WakeInv lk s) (fun h hstep => h.2.step h.1 hstep) hrun
      ⟨sleepInv_init processArray, wakeInv_init hproc⟩
  exact ⟨hw.waiting, fun p hp => hw.not_waiting (by simp [hp, SleepPoint.InSleep]) (by simp [hp])⟩

instance (s : SleepWorld n) (p : Fin n) : Decidable (s.TestsOwned p) :=
  inferInstanceAs (Decidable (_ → _))

/-- The second of two processes waits for the first. -/
theorem sleeplock_wakeups_kept_two :
    ∃ s, Run (SleepStep 0x5000 (fun _ => 0x80000) SleepWorld.TestsOwned)
        (.init (runningProcesses 2)) s ∧
      (s.processArray 1).WaitsOn 0x5000 ∧ s.WakeupsKept 0x5000 := by
  have h : ((SleepWorld.init (runningProcesses 2)).exec 0x5000 (fun _ => 0x80000)
      SleepWorld.TestsOwned (acquireMoves 0 1 ++ acquireMoves 1 2)).any
        (fun s => (s.processArray 1).WaitsOn 0x5000) = true := by
    decide +kernel
  obtain ⟨s, hrun, hwaits⟩ := SleepWorld.exists_run h
  exact ⟨s, hrun, of_decide_eq_true hwaits,
    sleeplock_wakeups_kept (fun _ => by simp [runningProcesses]) hrun⟩

/-- The second process is back from `sleep` and tests `locked` again; then the first runs the whole
of `sleeplock_release` in a table of two, and the second goes to sleep. -/
def wakeupLost (p q : Fin n) : List (SleepMove n) :=
  acquireMoves p 1 ++ acquireMoves q 2 ++ [.run q] ++ .release p 1 :: List.replicate 12 (.run p) ++
    [.run q, .run q]

/-- The second process waits on the free lock, and no `wakeup` is to come. -/
theorem not_sleeplock_wakeups_kept :
    ¬ ∀ s, Run (SleepStep 0x5000 (fun _ => 0x80000) fun _ _ => True)
        (.init (runningProcesses 2)) s →
      s.WakeupsKept 0x5000 := by
  intro hall
  have h : ((SleepWorld.init (runningProcesses 2)).exec 0x5000 (fun _ => 0x80000)
      (fun _ _ => True) (wakeupLost 0 1)).any (fun s => (s.processArray 1).WaitsOn 0x5000 ∧
        s.locked = false ∧ s.point 0 = .idle ∧ s.point 1 = .spin .sleepUnlock) = true := by
    decide +kernel
  obtain ⟨s, hrun, hs⟩ := SleepWorld.exists_run h
  obtain ⟨hwaits, hfree, h₀, h₁⟩ := of_decide_eq_true hs
  rcases (hall s hrun).waiting 1 hwaits with hlocked | ⟨p, hp⟩
  · simp [hfree] at hlocked
  · fin_cases p
    · exact (h₀ ▸ hp : (SleepPoint.idle : SleepPoint 2).WillWake 1)
    · exact (h₁ ▸ hp : (SleepPoint.spin .sleepUnlock : SleepPoint 2).WillWake 1)

end SkinnyArm
