import SkinnyArm.Kernel.Lock
import SkinnyArm.Library.Transition

/-!
Spin locks under every interleaving of any number of CPUs.

* **Steps.** A CPU that is in no call may call `spinlock_acquire`, and `spinlock_release` if it is
  allowed to; inside a call it runs one statement at a time (`SpinWorld.advance`).
* **The invariant.** `SpinInv`: `locked` is set exactly if a CPU owns the lock, no two do, and
  `cpu` is the owner's number, or what `spinlock_init` or the last release left there.
* **The results.** `spinlock_exclusive` for CPUs that release only what they have acquired, and
  `holdsRight_iff` for CPUs that may call `spinlock_release` at any time.
-/

namespace SkinnyArm

/-- Where a CPU is: in no call, or before a statement of one of the two. -/
inductive SpinPoint where
  | idle
  | acquire (a : AcquirePoint)
  | release (r : ReleasePoint)
  deriving DecidableEq

/-- A spin lock with the CPUs that use it; `acquired` says whose `spinlock_acquire` has returned
without a `spinlock_release` since. -/
structure SpinWorld (C : Type*) where
  lock : SpinLock
  point : C → SpinPoint
  acquired : C → Bool

/-- After `spinlock_init`. -/
def SpinWorld.init (C : Type*) : SpinWorld C := ⟨spinlockInit, fun _ => .idle, fun _ => false⟩

namespace SpinWorld

variable {C : Type*} [DecidableEq C] (id : C → BitVec 8) (s : SpinWorld C) (c : C)

/-- A CPU gets to a point. -/
def goto (p : SpinPoint) : SpinWorld C := { s with point := Function.update s.point c p }

/-- A CPU runs the statement it is at; the value is what its `spinlock_release` returns. -/
def advance : SpinWorld C × Option ℤ :=
  match s.point c with
  | .idle => (s, none)
  | .acquire a =>
      match s.lock.acquireStep (id c) a with
      | (l, some a') => ({ s.goto c (.acquire a') with lock := l }, none)
      | (l, none) =>
          ({ s.goto c .idle with lock := l, acquired := Function.update s.acquired c true }, none)
  | .release r =>
      match s.lock.releaseStep (id c) r with
      | (l, .inl r') => ({ s.goto c (.release r') with lock := l }, none)
      | (l, .inr v) =>
          ({ s.goto c .idle with
              lock := l
              acquired := Function.update s.acquired c (s.acquired c && v ≠ 0) }, some v)

end SpinWorld

/-- The steps of all CPUs: the calls, of `spinlock_release` where it is allowed, and the
statements. -/
inductive SpinStep {C : Type*} [DecidableEq C] (id : C → BitVec 8)
    (allowed : SpinWorld C → C → Prop) : SpinWorld C → SpinWorld C → Prop
  | acquire {s : SpinWorld C} {c : C} (h : s.point c = .idle) :
      SpinStep id allowed s (s.goto c (.acquire .testAndSet))
  | release {s : SpinWorld C} {c : C} (h : s.point c = .idle) (ha : allowed s c) :
      SpinStep id allowed s (s.goto c (.release .guard))
  | run {s : SpinWorld C} (c : C) : SpinStep id allowed s (s.advance id c).1

variable {C : Type*} {id : C → BitVec 8} {s s' : SpinWorld C} {c d : C}

/-! ### One statement -/

namespace SpinWorld

section Advance

variable [DecidableEq C]

@[simp] lemma lock_goto (p : SpinPoint) : (s.goto c p).lock = s.lock := rfl

@[simp] lemma acquired_goto (p : SpinPoint) : (s.goto c p).acquired = s.acquired := rfl

@[simp] lemma point_goto_self (p : SpinPoint) : (s.goto c p).point c = p := by simp [goto]

lemma point_goto_of_ne (p : SpinPoint) (h : d ≠ c) : (s.goto c p).point d = s.point d := by
  simp [goto, h]

/-- The test-and-set of a lock that is taken. -/
lemma advance_spin (hp : s.point c = .acquire .testAndSet) (hl : s.lock.locked = true) :
    (s.advance id c).1 = s := by
  have hself : s.goto c (.acquire .testAndSet) = s := by
    rw [goto, ← hp, Function.update_eq_self]
  simp [advance, hp, SpinLock.acquireStep, hl, hself]

lemma advance_testAndSet (hp : s.point c = .acquire .testAndSet) (hl : s.lock.locked = false) :
    (s.advance id c).1 =
      { s.goto c (.acquire .setCpu) with lock := { s.lock with locked := true } } := by
  simp [advance, hp, SpinLock.acquireStep, hl]

lemma advance_setCpu (hp : s.point c = .acquire .setCpu) :
    (s.advance id c).1 =
      { s.goto c .idle with
        lock := { s.lock with cpu := id c }
        acquired := Function.update s.acquired c true } := by
  simp [advance, hp, SpinLock.acquireStep]

lemma advance_guard (hp : s.point c = .release .guard) (hh : s.lock.cpu = id c) :
    s.advance id c = (s.goto c (.release .clearCpu), none) := by
  simp [advance, hp, SpinLock.releaseStep, spinlockHolds, hh, goto]

lemma advance_refused (hp : s.point c = .release .guard) (hh : s.lock.cpu ≠ id c) :
    s.advance id c = (s.goto c .idle, some (-1)) := by
  simp [advance, hp, SpinLock.releaseStep, spinlockHolds, hh, goto]

lemma advance_clearCpu (hp : s.point c = .release .clearCpu) :
    s.advance id c =
      ({ s.goto c (.release .clearLocked) with lock := { s.lock with cpu := 0 } }, none) := by
  simp [advance, hp, SpinLock.releaseStep]

lemma advance_clearLocked (hp : s.point c = .release .clearLocked) :
    s.advance id c =
      ({ s.goto c .idle with
          lock := { s.lock with locked := false }
          acquired := Function.update s.acquired c false }, some 0) := by
  simp [advance, hp, SpinLock.releaseStep]

end Advance

end SpinWorld

/-! ### The invariant -/

/-- A CPU has set `locked` and not cleared it since. -/
def SpinWorld.Owns (s : SpinWorld C) (c : C) : Prop :=
  s.acquired c = true ∨ s.point c = .acquire .setCpu

/-- The lock has one owner if any, and `cpu` is the owner's number once it is written. -/
structure SpinInv (id : C → BitVec 8) (s : SpinWorld C) : Prop where
  locked : s.lock.locked = true ↔ ∃ c, s.Owns c
  unique : {c | s.Owns c}.Subsingleton
  fresh : ∀ c, s.point c = .acquire .setCpu → s.acquired c = false
  releasing : ∀ c, s.point c = .release .clearCpu ∨ s.point c = .release .clearLocked →
    s.acquired c = true
  cpu : ∀ c, s.acquired c = true → s.point c ≠ .release .clearLocked → s.lock.cpu = id c
  left : (∀ c, s.acquired c = true → s.point c = .release .clearLocked) →
    s.lock.cpu = 0 ∨ s.lock.cpu = 0xFF

lemma spinInv_init : SpinInv id (.init C) := by
  constructor <;> simp [SpinWorld.init, SpinWorld.Owns, spinlockInit, Set.Subsingleton]

namespace SpinInv

lemma eq_of_owns (h : SpinInv id s) (hc : s.Owns c) (hd : s.Owns d) : d = c := h.unique hd hc

/-- Nobody owns a lock that is not taken. -/
lemma not_owns (h : SpinInv id s) (hl : s.lock.locked = false) (d : C) : ¬ s.Owns d := fun hd => by
  rw [h.locked.mpr ⟨d, hd⟩] at hl
  exact absurd hl (by simp)

/-- A CPU whose number nobody leaves behind passes the guard only if it has acquired the lock. -/
lemma acquired_of_cpu (hid : Function.Injective id) (h : SpinInv id s)
    (hc : id c ≠ 0 ∧ id c ≠ 0xFF) (hh : s.lock.cpu = id c) : s.acquired c = true := by
  by_contra hacq
  have hleft : s.lock.cpu = 0 ∨ s.lock.cpu = 0xFF := h.left fun d hd => by
    by_contra hne
    have hdc : d = c := hid ((h.cpu d hd hne).symm.trans hh)
    exact hacq (hdc ▸ hd)
  rw [hh] at hleft
  exact hleft.elim hc.1 hc.2

variable [DecidableEq C]

/-- A move that neither takes nor gives back the lock. -/
lemma goto (h : SpinInv id s) {p : SpinPoint} (hset : s.point c ≠ .acquire .setCpu)
    (hclear : s.point c ≠ .release .clearLocked) (hp : p ≠ .acquire .setCpu)
    (hp' : p ≠ .release .clearLocked) (hacq : p = .release .clearCpu → s.acquired c = true) :
    SpinInv id (s.goto c p) := by
  have hpoint : ∀ d q, q = SpinPoint.acquire .setCpu ∨ q = .release .clearLocked →
      ((s.goto c p).point d = q ↔ s.point d = q) := by
    intro d q hq
    rcases eq_or_ne d c with rfl | hd
    · rw [SpinWorld.point_goto_self]
      rcases hq with rfl | rfl
      · exact iff_of_false hp hset
      · exact iff_of_false hp' hclear
    · rw [SpinWorld.point_goto_of_ne p hd]
  have howns : ∀ d, (s.goto c p).Owns d ↔ s.Owns d := fun d => by
    rw [SpinWorld.Owns, hpoint d _ (.inl rfl), SpinWorld.acquired_goto, SpinWorld.Owns]
  constructor
  case locked =>
    simp only [howns]
    exact h.locked
  case unique =>
    simp only [howns]
    exact h.unique
  case fresh => exact fun d hd => h.fresh d ((hpoint d _ (.inl rfl)).mp hd)
  case releasing =>
    intro d hd
    rcases hd with hd | hd
    · rcases eq_or_ne d c with rfl | hdc
      · exact hacq ((SpinWorld.point_goto_self p).symm.trans hd)
      · exact h.releasing d (.inl ((SpinWorld.point_goto_of_ne p hdc).symm.trans hd))
    · exact h.releasing d (.inr ((hpoint d _ (.inr rfl)).mp hd))
  case cpu => exact fun d hd hne => h.cpu d hd fun hd' => hne ((hpoint d _ (.inr rfl)).mpr hd')
  case left => exact fun hall => h.left fun d hd => (hpoint d _ (.inr rfl)).mp (hall d hd)

/-- The test-and-set of a free lock takes it. -/
lemma testAndSet (h : SpinInv id s) (hl : s.lock.locked = false) :
    SpinInv id { s.goto c (.acquire .setCpu) with lock := { s.lock with locked := true } } := by
  have hnone : ∀ d, s.acquired d = false := fun d => by
    have hd := h.not_owns hl d
    simpa using fun ha => hd (.inl ha)
  have howns : ∀ d, SpinWorld.Owns
      { s.goto c (.acquire .setCpu) with lock := { s.lock with locked := true } } d ↔ d = c := by
    intro d
    rcases eq_or_ne d c with rfl | hd
    · simp [SpinWorld.Owns]
    · have hd' : s.point d ≠ .acquire .setCpu := fun hp => h.not_owns hl d (.inr hp)
      simp [SpinWorld.Owns, hnone, SpinWorld.point_goto_of_ne _ hd, hd', hd]
  constructor
  case locked => exact iff_of_true rfl ⟨c, (howns c).mpr rfl⟩
  case unique =>
    intro d hd e he
    exact ((howns d).mp hd).trans ((howns e).mp he).symm
  case fresh => exact fun d _ => hnone d
  case releasing =>
    intro d hd
    rcases eq_or_ne d c with rfl | hdc
    · simp at hd
    · simp only [SpinWorld.point_goto_of_ne _ hdc] at hd
      exact h.releasing d hd
  case cpu => exact fun d hd => absurd hd (by simp [hnone])
  case left => exact fun _ => h.left fun d hd => absurd hd (by simp [hnone])

/-- The owner writes its number. -/
lemma setCpu (h : SpinInv id s) (hp : s.point c = .acquire .setCpu) :
    SpinInv id
      { s.goto c .idle with
        lock := { s.lock with cpu := id c }
        acquired := Function.update s.acquired c true } := by
  have hc : s.Owns c := .inr hp
  have hother : ∀ d, d ≠ c → s.acquired d = false ∧ s.point d ≠ .acquire .setCpu := by
    intro d hd
    have hnot : ¬ s.Owns d := fun ho => hd (h.eq_of_owns hc ho)
    exact ⟨by simpa using fun ha => hnot (.inl ha), fun hp => hnot (.inr hp)⟩
  have howns : ∀ d, SpinWorld.Owns
      { s.goto c .idle with
        lock := { s.lock with cpu := id c }
        acquired := Function.update s.acquired c true } d ↔ d = c := by
    intro d
    rcases eq_or_ne d c with rfl | hd
    · simp [SpinWorld.Owns]
    · simp [SpinWorld.Owns, hd, SpinWorld.point_goto_of_ne _ hd, hother d hd]
  constructor
  case locked => exact iff_of_true (h.locked.mpr ⟨c, hc⟩) ⟨c, (howns c).mpr rfl⟩
  case unique =>
    intro d hd e he
    exact ((howns d).mp hd).trans ((howns e).mp he).symm
  case fresh =>
    intro d hd
    rcases eq_or_ne d c with rfl | hdc
    · simp at hd
    · simp only [SpinWorld.point_goto_of_ne _ hdc] at hd
      exact absurd hd (hother d hdc).2
  case releasing =>
    intro d hd
    rcases eq_or_ne d c with rfl | hdc
    · simp
    · simp only [SpinWorld.point_goto_of_ne _ hdc] at hd
      simpa [hdc] using h.releasing d hd
  case cpu =>
    intro d hd _
    rcases eq_or_ne d c with rfl | hdc
    · rfl
    · simp [hdc, hother d hdc] at hd
  case left =>
    intro hall
    have hidle := hall c (by simp)
    simp at hidle

/-- The release drops the owner's number. -/
lemma clearCpu (h : SpinInv id s) (hp : s.point c = .release .clearCpu) :
    SpinInv id
      { s.goto c (.release .clearLocked) with lock := { s.lock with cpu := 0 } } := by
  have hc : s.acquired c = true := h.releasing c (.inl hp)
  have howns : ∀ d, SpinWorld.Owns
      { s.goto c (.release .clearLocked) with lock := { s.lock with cpu := 0 } } d ↔ s.Owns d := by
    intro d
    rcases eq_or_ne d c with rfl | hd
    · simp [SpinWorld.Owns, hc]
    · simp [SpinWorld.Owns, SpinWorld.point_goto_of_ne _ hd]
  constructor
  case locked =>
    simp only [howns]
    exact h.locked
  case unique =>
    simp only [howns]
    exact h.unique
  case fresh =>
    intro d hd
    rcases eq_or_ne d c with rfl | hdc
    · simp at hd
    · simp only [SpinWorld.point_goto_of_ne _ hdc] at hd
      exact h.fresh d hd
  case releasing =>
    intro d hd
    rcases eq_or_ne d c with rfl | hdc
    · exact hc
    · simp only [SpinWorld.point_goto_of_ne _ hdc] at hd
      exact h.releasing d hd
  case cpu =>
    intro d hd hne
    obtain rfl := h.eq_of_owns (.inl hc) (.inl hd)
    exact absurd (SpinWorld.point_goto_self _) hne
  case left => exact fun _ => .inl rfl

/-- The release gives the lock back. -/
lemma clearLocked (h : SpinInv id s) (hp : s.point c = .release .clearLocked) :
    SpinInv id
      { s.goto c .idle with
        lock := { s.lock with locked := false }
        acquired := Function.update s.acquired c false } := by
  have hc : s.acquired c = true := h.releasing c (.inr hp)
  have hother : ∀ d, d ≠ c → s.acquired d = false ∧ s.point d ≠ .acquire .setCpu := by
    intro d hd
    have hnot : ¬ s.Owns d := fun ho => hd (h.eq_of_owns (.inl hc) ho)
    exact ⟨by simpa using fun ha => hnot (.inl ha), fun hp => hnot (.inr hp)⟩
  have hnone : ∀ d, Function.update s.acquired c false d = false := by
    intro d
    rcases eq_or_ne d c with rfl | hd
    · simp
    · simp [hd, hother d hd]
  have howns : ∀ d, ¬ SpinWorld.Owns
      { s.goto c .idle with
        lock := { s.lock with locked := false }
        acquired := Function.update s.acquired c false } d := by
    intro d
    rcases eq_or_ne d c with rfl | hd
    · simp [SpinWorld.Owns]
    · simp [SpinWorld.Owns, hnone, SpinWorld.point_goto_of_ne _ hd, hother d hd]
  constructor
  case locked => simp [howns]
  case unique => exact fun d hd => absurd hd (howns d)
  case fresh => exact fun d _ => hnone d
  case releasing =>
    intro d hd
    rcases eq_or_ne d c with rfl | hdc
    · simp at hd
    · simp only [SpinWorld.point_goto_of_ne _ hdc] at hd
      exact absurd (h.releasing d hd) (by simp [hother d hdc])
  case cpu => exact fun d hd => absurd hd (by simp [hnone])
  case left =>
    refine fun _ => h.left fun d hd => ?_
    obtain rfl := h.eq_of_owns (.inl hc) (.inl hd)
    exact hp

/-- **A statement** of a CPU keeps the invariant, if the guard lets only a CPU pass that has
acquired the lock. -/
lemma advance (h : SpinInv id s) (c : C)
    (hguard : s.point c = .release .guard → s.lock.cpu = id c → s.acquired c = true) :
    SpinInv id (s.advance id c).1 := by
  cases hp : s.point c with
  | idle => simpa [SpinWorld.advance, hp] using h
  | acquire a =>
      cases a with
      | testAndSet =>
          cases hl : s.lock.locked with
          | true =>
              rw [SpinWorld.advance_spin hp hl]
              exact h
          | false =>
              rw [SpinWorld.advance_testAndSet hp hl]
              exact h.testAndSet hl
      | setCpu =>
          rw [SpinWorld.advance_setCpu hp]
          exact h.setCpu hp
  | release r =>
      cases r with
      | guard =>
          by_cases hh : s.lock.cpu = id c
          · rw [SpinWorld.advance_guard hp hh]
            exact h.goto (by simp [hp]) (by simp [hp]) (by simp) (by simp) fun _ => hguard hp hh
          · rw [SpinWorld.advance_refused hp hh]
            exact h.goto (by simp [hp]) (by simp [hp]) (by simp) (by simp) (by simp)
      | clearCpu =>
          rw [SpinWorld.advance_clearCpu hp]
          exact h.clearCpu hp
      | clearLocked =>
          rw [SpinWorld.advance_clearLocked hp]
          exact h.clearLocked hp

/-- **A step** keeps the invariant, under the same condition. -/
lemma step {allowed : SpinWorld C → C → Prop} (h : SpinInv id s)
    (hguard : ∀ c, s.point c = .release .guard → s.lock.cpu = id c → s.acquired c = true)
    (hstep : SpinStep id allowed s s') : SpinInv id s' := by
  cases hstep with
  | acquire hp => exact h.goto (by simp [hp]) (by simp [hp]) (by simp) (by simp) (by simp)
  | release hp => exact h.goto (by simp [hp]) (by simp [hp]) (by simp) (by simp) (by simp)
  | run c => exact h.advance c (hguard c)

end SpinInv

/-! ### Runs -/

section Runs

variable [DecidableEq C] {allowed : SpinWorld C → C → Prop} {D : C → Prop}

lemma SpinWorld.point_advance_of_ne (h : d ≠ c) : (s.advance id c).1.point d = s.point d := by
  rw [SpinWorld.advance]
  split
  · rfl
  all_goals
    split
    all_goals exact SpinWorld.point_goto_of_ne _ h

lemma SpinWorld.acquired_advance_of_ne (h : d ≠ c) :
    (s.advance id c).1.acquired d = s.acquired d := by
  rw [SpinWorld.advance]
  split
  · rfl
  all_goals
    split
    all_goals simp [h]

variable (id) in
/-- A CPU in `spinlock_acquire` stays in it, or returns from it with the lock. -/
lemma SpinWorld.advance_acquire {a : AcquirePoint} (hp : s.point c = .acquire a)
    (hacq : s.acquired c = false) :
    (∃ a', (s.advance id c).1.point c = .acquire a' ∧ (s.advance id c).1.acquired c = false) ∨
      (s.advance id c).1.point c = .idle ∧ (s.advance id c).1.acquired c = true := by
  cases a with
  | testAndSet =>
      cases hl : s.lock.locked with
      | true =>
          rw [advance_spin hp hl]
          exact .inl ⟨_, hp, hacq⟩
      | false =>
          rw [advance_testAndSet hp hl]
          exact .inl ⟨.setCpu, by simp, hacq⟩
  | setCpu =>
      rw [advance_setCpu hp]
      exact .inr ⟨by simp, by simp⟩

variable (id) in
/-- A CPU in `spinlock_release` stays in it, or returns from it. -/
lemma SpinWorld.advance_release {r : ReleasePoint} (hp : s.point c = .release r) :
    (∃ r', (s.advance id c).1.point c = .release r') ∨ (s.advance id c).1.point c = .idle := by
  cases r with
  | guard =>
      by_cases hh : s.lock.cpu = id c
      · exact .inl ⟨.clearCpu, by simp [advance_guard hp hh]⟩
      · exact .inr (by simp [advance_refused hp hh])
  | clearCpu => exact .inl ⟨.clearLocked, by simp [advance_clearCpu hp]⟩
  | clearLocked => exact .inr (by simp [advance_clearLocked hp])

/-- The owner in `spinlock_release` stays in it, or returns from it without the lock. -/
lemma SpinInv.advance_release (h : SpinInv id s) {r : ReleasePoint} (hp : s.point c = .release r)
    (hacq : s.acquired c = true) :
    (∃ r', (s.advance id c).1.point c = .release r' ∧ (s.advance id c).1.acquired c = true) ∨
      (s.advance id c).1.point c = .idle ∧ (s.advance id c).1.acquired c = false := by
  cases r with
  | guard =>
      have hh := h.cpu c hacq (by simp [hp])
      rw [SpinWorld.advance_guard hp hh]
      exact .inl ⟨.clearCpu, by simp, hacq⟩
  | clearCpu =>
      rw [SpinWorld.advance_clearCpu hp]
      exact .inl ⟨.clearLocked, by simp, hacq⟩
  | clearLocked =>
      rw [SpinWorld.advance_clearLocked hp]
      exact .inr ⟨by simp, by simp⟩

/-- The CPUs that release only what they have acquired are in `spinlock_release` only then. -/
def Releasing (D : C → Prop) (s : SpinWorld C) : Prop :=
  ∀ c, D c → ∀ r, s.point c = .release r → s.acquired c = true

lemma Releasing.step (h : Releasing D s)
    (hstep : SpinStep id (fun s c => D c → s.acquired c = true) s s') : Releasing D s' := by
  intro d hd r hr
  cases hstep with
  | @acquire c hp =>
      rcases eq_or_ne d c with rfl | hdc
      · simp at hr
      · exact h d hd r ((SpinWorld.point_goto_of_ne _ hdc).symm.trans hr)
  | @release c hp hacq =>
      rcases eq_or_ne d c with rfl | hdc
      · exact hacq hd
      · exact h d hd r ((SpinWorld.point_goto_of_ne _ hdc).symm.trans hr)
  | run c =>
      rcases eq_or_ne d c with rfl | hdc
      · cases hp : s.point d with
        | idle => simp [SpinWorld.advance, hp] at hr
        | acquire a =>
            cases a with
            | testAndSet =>
                cases hl : s.lock.locked with
                | true => simp [SpinWorld.advance_spin hp hl, hp] at hr
                | false => simp [SpinWorld.advance_testAndSet hp hl] at hr
            | setCpu => simp [SpinWorld.advance_setCpu hp]
        | release r' =>
            have hacq := h d hd r' hp
            cases r' with
            | guard =>
                by_cases hh : s.lock.cpu = id d
                · simpa [SpinWorld.advance_guard hp hh] using hacq
                · simp [SpinWorld.advance_refused hp hh] at hr
            | clearCpu => simpa [SpinWorld.advance_clearCpu hp] using hacq
            | clearLocked => simp [SpinWorld.advance_clearLocked hp] at hr
      · rw [SpinWorld.point_advance_of_ne hdc] at hr
        rw [SpinWorld.acquired_advance_of_ne hdc]
        exact h d hd r hr

/-- **The run**: the invariant holds in every state reached, if every CPU either releases only what
it has acquired, or has a number that nobody else has and nobody leaves behind. -/
lemma spinInv_run (hD : ∀ c, D c ∨ Function.Injective id ∧ id c ≠ 0 ∧ id c ≠ 0xFF)
    (hrun : Run (SpinStep id fun s c => D c → s.acquired c = true) (.init C) s) :
    SpinInv id s ∧ Releasing D s := by
  refine Run.invariant (I := fun s => SpinInv id s ∧ Releasing D s) ?_ hrun
    ⟨spinInv_init, fun c _ r hr => by simp [SpinWorld.init] at hr⟩
  rintro s s' ⟨hinv, hrel⟩ hstep
  refine ⟨hinv.step (fun c hp hh => ?_) hstep, hrel.step hstep⟩
  rcases hD c with hc | ⟨hid, hc⟩
  · exact hrel c hc _ hp
  · exact hinv.acquired_of_cpu hid hc hh

lemma SpinStep.mono {allowed' : SpinWorld C → C → Prop} (h : ∀ s c, allowed s c → allowed' s c) :
    SpinStep id allowed ≤ SpinStep id allowed' := by
  intro s s' hstep
  cases hstep with
  | acquire hp => exact .acquire hp
  | release hp ha => exact .release hp (h _ _ ha)
  | run c => exact .run c

/-- A whole `spinlock_acquire` of a free lock. -/
lemma SpinWorld.run_acquire (hp : s.point c = .idle) (hl : s.lock.locked = false) :
    Run (SpinStep id allowed) s
      { s with lock := ⟨true, id c⟩, acquired := Function.update s.acquired c true } := by
  have hpoint : Function.update s.point c .idle = s.point := by rw [← hp, Function.update_eq_self]
  have hend : (((s.goto c (.acquire .testAndSet)).advance id c).1.advance id c).1 =
      { s with lock := ⟨true, id c⟩, acquired := Function.update s.acquired c true } := by
    rw [advance_testAndSet (s := s.goto c (.acquire .testAndSet)) (point_goto_self _) hl,
      advance_setCpu (by simp)]
    simp [goto, hpoint]
  rw [← hend]
  exact ((Relation.ReflTransGen.single (.acquire hp)).tail (.run c)).tail (.run c)

/-- A whole `spinlock_release` that passes the guard. -/
lemma SpinWorld.run_release (hp : s.point c = .idle) (ha : allowed s c) (hh : s.lock.cpu = id c) :
    Run (SpinStep id allowed) s
      { s with lock := ⟨false, 0⟩, acquired := Function.update s.acquired c false } := by
  have hpoint : Function.update s.point c .idle = s.point := by rw [← hp, Function.update_eq_self]
  have hend : ((((s.goto c (.release .guard)).advance id c).1.advance id c).1.advance id c).1 =
      { s with lock := ⟨false, 0⟩, acquired := Function.update s.acquired c false } := by
    rw [advance_guard (s := s.goto c (.release .guard)) (point_goto_self _) hh,
      advance_clearCpu (s := (s.goto c (.release .guard)).goto c (.release .clearCpu))
        (point_goto_self _),
      advance_clearLocked (by simp)]
    simp [goto, hpoint]
  rw [← hend]
  exact (((Relation.ReflTransGen.single (.release hp ha)).tail (.run c)).tail (.run c)).tail
    (.run c)

/-- **Exclusion**: where every CPU releases only what it has acquired, no two are between the return
of `spinlock_acquire` and their clear of `locked`, and every `spinlock_release` returns 0. -/
theorem spinlock_exclusive
    (hrun : Run (SpinStep id fun s c => s.acquired c = true) (.init C) s) :
    {c | s.acquired c = true}.Subsingleton ∧ ∀ c v, (s.advance id c).2 = some v → v = 0 := by
  have hrun' : Run (SpinStep id fun s c => True → s.acquired c = true) (.init C) s :=
    Relation.ReflTransGen.mono (SpinStep.mono fun _ _ ha _ => ha) _ _ hrun
  obtain ⟨hinv, hrel⟩ := spinInv_run (fun _ => .inl trivial) hrun'
  refine ⟨hinv.unique.anti fun c hc => .inl hc, fun c v hv => ?_⟩
  cases hp : s.point c with
  | idle => simp [SpinWorld.advance, hp] at hv
  | acquire a =>
      rw [SpinWorld.advance, hp] at hv
      simp only at hv
      split at hv <;> simp at hv
  | release r =>
      cases r with
      | guard =>
          have hh := hinv.cpu c (hrel c trivial _ hp) (by simp [hp])
          simp [SpinWorld.advance_guard hp hh] at hv
      | clearCpu => simp [SpinWorld.advance_clearCpu hp] at hv
      | clearLocked => simpa [SpinWorld.advance_clearLocked hp] using hv.symm

/-- CPU 1 of two has acquired the lock, and CPU 0 is in `spinlock_acquire`. -/
theorem spinlock_exclusive_two :
    let s : SpinWorld (Fin 2) := ⟨⟨true, 1⟩, Function.update (fun _ => .idle) 0
      (.acquire .testAndSet), Function.update (fun _ => false) 1 true⟩
    {c | s.acquired c = true}.Subsingleton ∧ ∀ c v, (s.advance ![0, 1] c).2 = some v → v = 0 := by
  have hrun : Run (SpinStep ![0, 1] fun s c => s.acquired c = true) (.init (Fin 2))
      ⟨⟨true, 1⟩, fun _ => .idle, Function.update (fun _ => false) 1 true⟩ :=
    SpinWorld.run_acquire (c := 1) rfl rfl
  exact spinlock_exclusive (hrun.tail (.acquire (c := 0) rfl))

/-! ### Releases at any time -/

/-- What `spinlock_holds` and `spinlock_release` owe a CPU: outside its release `spinlock_holds` is
true exactly if the CPU has acquired the lock, and a release by a CPU that has not is refused. -/
def HoldsRight (id : C → BitVec 8) (s : SpinWorld C) (c : C) : Prop :=
  (s.point c ≠ .release .clearLocked →
    (spinlockHolds s.lock (id c) = true ↔ s.acquired c = true)) ∧
  (s.point c = .release .guard → s.acquired c = false →
    s.advance id c = (s.goto c .idle, some (-1)))

/-- The values that `spinlock_init` and `spinlock_release` leave in `cpu`. -/
def LeftBehind (i : BitVec 8) : Prop := i = 0 ∨ i = 0xFF

lemma SpinInv.holdsRight (h : SpinInv id s)
    (hc : s.acquired c = true ∨ Function.Injective id ∧ id c ≠ 0 ∧ id c ≠ 0xFF) :
    HoldsRight id s c := by
  have hacq : s.lock.cpu = id c → s.acquired c = true := fun hh =>
    hc.elim (fun hacq => hacq) fun hc => h.acquired_of_cpu hc.1 hc.2 hh
  refine ⟨fun hp => ?_, fun hp hnot => ?_⟩
  · rw [spinlockHolds, decide_eq_true_eq]
    exact ⟨hacq, fun ha => h.cpu c ha hp⟩
  · exact SpinWorld.advance_refused hp fun hh => by simp [hacq hh] at hnot

/-- **False holders.** `spinlock_holds` and the guard of `spinlock_release` are right for every CPU
that calls them while it has the lock or whose number is never left behind in `cpu`; with calls at
any time they are right on every run exactly if no CPU has such a number. -/
theorem holdsRight_iff (hid : Function.Injective id) :
    (∀ s, Run (SpinStep id fun s c => LeftBehind (id c) → s.acquired c = true) (.init C) s →
      ∀ c, (LeftBehind (id c) → s.acquired c = true) → HoldsRight id s c) ∧
    ((∀ s, Run (SpinStep id fun _ _ => True) (.init C) s → ∀ c, HoldsRight id s c) ↔
      ∀ c, ¬ LeftBehind (id c)) := by
  have hsound : ∀ s,
      Run (SpinStep id fun s c => LeftBehind (id c) → s.acquired c = true) (.init C) s →
      ∀ c, (LeftBehind (id c) → s.acquired c = true) → HoldsRight id s c := by
    intro s hrun c hc
    have hD : ∀ c, LeftBehind (id c) ∨ Function.Injective id ∧ id c ≠ 0 ∧ id c ≠ 0xFF := fun c => by
      by_cases hc : LeftBehind (id c)
      · exact .inl hc
      · exact .inr ⟨hid, not_or.mp hc⟩
    exact (spinInv_run hD hrun).1.holdsRight ((hD c).imp_left hc)
  refine ⟨hsound, fun hall c hc => ?_, fun hnot s hrun c => ?_⟩
  · rcases hc with hc | hc
    · -- after the CPU's own release
      have hrun : Run (SpinStep id fun _ _ => True) (.init C) _ :=
        (SpinWorld.run_acquire (c := c) rfl rfl).trans
          (SpinWorld.run_release (c := c) rfl trivial rfl)
      have hholds := ((hall _ hrun c).1 (by simp [SpinWorld.init])).mp (by simp [spinlockHolds, hc])
      simp at hholds
    · -- after `spinlock_init`
      have hholds := ((hall _ .refl c).1 (by simp [SpinWorld.init])).mp (by
        simp [SpinWorld.init, spinlockInit, spinlockHolds, hc])
      simp [SpinWorld.init] at hholds
  · exact hsound s (Relation.ReflTransGen.mono
      (SpinStep.mono fun _ c _ hc => absurd hc (hnot c)) _ _ hrun) c fun hc => absurd hc (hnot c)

/-- CPUs 1 and 2. -/
theorem holdsRight_iff_two :
    (∀ s, Run (SpinStep ![1, 2] fun s c => LeftBehind (![1, 2] c) → s.acquired c = true)
      (.init (Fin 2)) s →
      ∀ c, (LeftBehind (![1, 2] c) → s.acquired c = true) → HoldsRight ![1, 2] s c) ∧
    ((∀ s, Run (SpinStep ![1, 2] fun _ _ => True) (.init (Fin 2)) s →
      ∀ c, HoldsRight ![1, 2] s c) ↔ ∀ c, ¬ LeftBehind (![1, 2] c)) :=
  holdsRight_iff (by decide)

/-- CPU 0 holds the lock by its number alone once it has released it. -/
theorem not_holdsRight_zero :
    ¬ ∀ s, Run (SpinStep ![0, 1] fun _ _ => True) (.init (Fin 2)) s →
      ∀ c, HoldsRight ![0, 1] s c := by
  intro hall
  have hrun : Run (SpinStep ![0, 1] fun _ _ => True) (.init (Fin 2)) _ :=
    (SpinWorld.run_acquire (c := 0) rfl rfl).trans (SpinWorld.run_release (c := 0) rfl trivial rfl)
  have hholds := ((hall _ hrun 0).1 (by simp [SpinWorld.init])).mp rfl
  simp at hholds

end Runs

end SkinnyArm
