import SkinnyArm.Lock.SpinLock

/-!
Who gets a spin lock, where every CPU releases only what it has acquired.

* **Stuck for ever.** A CPU that calls `spinlock_acquire` with the lock in its hands spins, and from
  then on every other CPU that asks for the lock spins as well (`HeldInv.stuck`).
* **Nothing else is stuck.** `spinlock_returns_iff`: in every other state a CPU that spins can still
  get the lock.
* **Fair runs.** `spinlock_progress`: where the CPUs in a call go on, and every lock is given back
  some time, a CPU that spins means that some CPU gets the lock.
-/

namespace SkinnyArm

/-- The steps of CPUs that release only what they have acquired. -/
abbrev HeldStep {C : Type*} [DecidableEq C] (id : C → BitVec 8) :
    SpinWorld C → SpinWorld C → Prop :=
  SpinStep id fun s c => s.acquired c = true

/-- The invariant of the lock, and that a CPU in `spinlock_release` has the lock. -/
structure HeldInv {C : Type*} (id : C → BitVec 8) (s : SpinWorld C) : Prop where
  inv : SpinInv id s
  releasing : Releasing (fun _ => True) s

variable {C : Type*} [DecidableEq C] {id : C → BitVec 8} {s s' : SpinWorld C} {c d o : C}

namespace HeldInv

omit [DecidableEq C] in
lemma init : HeldInv id (.init C) := ⟨spinInv_init, fun c _ r hr => by simp [SpinWorld.init] at hr⟩

lemma step (h : HeldInv id s) (hstep : HeldStep id s s') : HeldInv id s' where
  inv := h.inv.step (fun c hp _ => h.releasing c trivial _ hp) hstep
  releasing := h.releasing.step (SpinStep.mono (fun _ _ hacq _ => hacq) _ _ hstep)

lemma of_run (hrun : Run (HeldStep id) (.init C) s) : HeldInv id s :=
  hrun.invariant (fun h hstep => h.step hstep) init

end HeldInv

/-! ### A holder that spins -/

/-- **Self-deadlock**: once a CPU spins that has the lock, nobody gets or releases it, and whoever
spins goes on spinning. -/
lemma HeldInv.stuck (h : HeldInv id s) (ho : s.acquired o = true)
    (hp : s.point o = .acquire .testAndSet) (hstep : HeldStep id s s') :
    s'.acquired = s.acquired ∧
      ∀ d, s.point d = .acquire .testAndSet → s'.point d = .acquire .testAndSet := by
  have hlocked : s.lock.locked = true := h.inv.locked.mpr ⟨o, .inl ho⟩
  have honly : ∀ c, s.Owns c → c = o := fun c hc => h.inv.unique hc (.inl ho)
  cases hstep with
  | @acquire c hidle =>
      refine ⟨rfl, fun d hd => ?_⟩
      rw [SpinWorld.point_goto_of_ne _ fun hdc => ?_]
      · exact hd
      · rw [hdc, hidle] at hd
        exact absurd hd (by simp)
  | @release c hidle hacq =>
      rw [honly c (.inl hacq), hp] at hidle
      exact absurd hidle (by simp)
  | run c =>
      cases hpc : s.point c with
      | idle =>
          have hsame : (s.advance id c).1 = s := by simp [SpinWorld.advance, hpc]
          rw [hsame]
          exact ⟨rfl, fun _ hd => hd⟩
      | acquire a =>
          cases a with
          | testAndSet =>
              rw [SpinWorld.advance_spin hpc hlocked]
              exact ⟨rfl, fun _ hd => hd⟩
          | setCpu =>
              rw [honly c (.inr hpc), hp] at hpc
              exact absurd hpc (by simp)
      | release r =>
          have hacq := h.releasing c trivial r hpc
          rw [honly c (.inl hacq), hp] at hpc
          exact absurd hpc (by simp)

/-- No run gets out of it. -/
lemma HeldInv.stuck_run (h : HeldInv id s) (ho : s.acquired o = true)
    (hp : s.point o = .acquire .testAndSet) (hrun : Run (HeldStep id) s s')
    (hd : s.point d = .acquire .testAndSet) : s'.point d = .acquire .testAndSet := by
  have hall : HeldInv id s' ∧ s'.acquired o = true ∧ s'.point o = .acquire .testAndSet ∧
      s'.point d = .acquire .testAndSet := by
    refine Run.invariant (I := fun t => HeldInv id t ∧ t.acquired o = true ∧
      t.point o = .acquire .testAndSet ∧ t.point d = .acquire .testAndSet) ?_ hrun ⟨h, ho, hp, hd⟩
    rintro t t' ⟨ht, hto, htp, htd⟩ hstep
    obtain ⟨hacq, hpoint⟩ := ht.stuck hto htp hstep
    exact ⟨ht.step hstep, by rw [hacq, hto], hpoint o htp, hpoint d htd⟩
  exact hall.2.2.2

/-! ### A holder that does not spin -/

/-- There is a run to a free lock in which whoever spins goes on spinning. -/
def SpinWorld.Frees (id : C → BitVec 8) (s : SpinWorld C) : Prop :=
  ∃ s', Run (HeldStep id) s s' ∧ s'.lock.locked = false ∧
    ∀ d, s.point d = .acquire .testAndSet → s'.point d = .acquire .testAndSet

namespace SpinWorld

/-- A statement of another CPU leaves a CPU where it spins. -/
lemma spins_advance (ho : s.point o ≠ .acquire .testAndSet)
    (hd : s.point d = .acquire .testAndSet) :
    (s.advance id o).1.point d = .acquire .testAndSet := by
  rw [point_advance_of_ne]
  · exact hd
  · rintro rfl
    exact ho hd

/-- A statement of the holder on the way. -/
lemma Frees.of_advance (ho : s.point o ≠ .acquire .testAndSet)
    (h : (s.advance id o).1.Frees id) : s.Frees id := by
  obtain ⟨s', hrun, hfree, hspin⟩ := h
  exact ⟨s', .head (.run o) hrun, hfree, fun d hd => hspin d (spins_advance ho hd)⟩

lemma frees_clearLocked (hp : s.point o = .release .clearLocked) : s.Frees id := by
  refine .of_advance (o := o) (by simp [hp]) ?_
  rw [advance_clearLocked hp]
  exact ⟨_, .refl, rfl, fun _ hd => hd⟩

lemma frees_clearCpu (hp : s.point o = .release .clearCpu) : s.Frees id := by
  refine .of_advance (o := o) (by simp [hp]) ?_
  rw [advance_clearCpu hp]
  exact frees_clearLocked (o := o) (by simp)

lemma frees_guard (hp : s.point o = .release .guard) (hcpu : s.lock.cpu = id o) : s.Frees id := by
  refine .of_advance (o := o) (by simp [hp]) ?_
  rw [advance_guard hp hcpu]
  exact frees_clearCpu (o := o) (by simp)

/-- The holder calls `spinlock_release`. -/
lemma frees_idle (hp : s.point o = .idle) (hacq : s.acquired o = true)
    (hcpu : s.lock.cpu = id o) : s.Frees id := by
  obtain ⟨s', hrun, hfree, hspin⟩ :=
    frees_guard (s := s.goto o (.release .guard)) (o := o) (point_goto_self _) hcpu
  refine ⟨s', .head (.release hp hacq) hrun, hfree, fun d hd => hspin d ?_⟩
  rw [point_goto_of_ne]
  · exact hd
  · rintro rfl
    rw [hp] at hd
    exact absurd hd (by simp)

lemma frees_setCpu (hp : s.point o = .acquire .setCpu) : s.Frees id := by
  refine .of_advance (o := o) (by simp [hp]) ?_
  rw [advance_setCpu hp]
  exact frees_idle (o := o) (by simp) (by simp) rfl

end SpinWorld

/-- **A holder that does not spin** can give the lock back. -/
lemma HeldInv.frees (h : HeldInv id s)
    (hall : ∀ o, s.acquired o = true → s.point o ≠ .acquire .testAndSet) : s.Frees id := by
  cases hlocked : s.lock.locked with
  | false => exact ⟨s, .refl, hlocked, fun _ hd => hd⟩
  | true =>
      obtain ⟨o, ho⟩ := h.inv.locked.mp hlocked
      cases hp : s.point o with
      | idle =>
          have hacq : s.acquired o = true := ho.resolve_right (by simp [hp])
          exact SpinWorld.frees_idle hp hacq (h.inv.cpu o hacq (by simp [hp]))
      | acquire a =>
          cases a with
          | testAndSet =>
              have hacq : s.acquired o = true := ho.resolve_right (by simp [hp])
              exact absurd hp (hall o hacq)
          | setCpu => exact SpinWorld.frees_setCpu hp
      | release r =>
          have hacq := h.releasing o trivial r hp
          cases r with
          | guard => exact SpinWorld.frees_guard hp (h.inv.cpu o hacq (by simp [hp]))
          | clearCpu => exact SpinWorld.frees_clearCpu hp
          | clearLocked => exact SpinWorld.frees_clearLocked hp

/-- **Deadlock**: in every state reached, a CPU that spins can still return from `spinlock_acquire`
with the lock, exactly if no CPU spins that has the lock itself. -/
theorem spinlock_returns_iff (hrun : Run (HeldStep id) (.init C) s)
    (hc : s.point c = .acquire .testAndSet) :
    (∃ s', Run (HeldStep id) s s' ∧ s'.point c = .idle ∧ s'.acquired c = true) ↔
      ∀ o, s.acquired o = true → s.point o ≠ .acquire .testAndSet := by
  have hinv := HeldInv.of_run hrun
  constructor
  · rintro ⟨s', hrun', hidle, -⟩ o ho hp
    have hspin := hinv.stuck_run ho hp hrun' hc
    rw [hidle] at hspin
    exact absurd hspin (by simp)
  · intro hall
    obtain ⟨t, hrun', hfree, hspin⟩ := hinv.frees hall
    have hset : (t.advance id c).1 = _ := SpinWorld.advance_testAndSet (hspin c hc) hfree
    refine ⟨((t.advance id c).1.advance id c).1, (hrun'.tail (.run c)).tail (.run c), ?_⟩
    rw [hset, SpinWorld.advance_setCpu (by simp)]
    simp

/-- CPU 0 spins while CPU 1 has the lock. -/
theorem spinlock_returns_iff_two :
    let s : SpinWorld (Fin 2) := ⟨⟨true, 1⟩, Function.update (fun _ => .idle) 0
      (.acquire .testAndSet), Function.update (fun _ => false) 1 true⟩
    (∃ s', Run (HeldStep ![0, 1]) s s' ∧ s'.point 0 = .idle ∧ s'.acquired 0 = true) ↔
      ∀ o, s.acquired o = true → s.point o ≠ .acquire .testAndSet := by
  have hrun : Run (HeldStep ![0, 1]) (.init (Fin 2))
      ⟨⟨true, 1⟩, fun _ => .idle, Function.update (fun _ => false) 1 true⟩ :=
    SpinWorld.run_acquire (c := 1) rfl rfl
  exact spinlock_returns_iff (hrun.tail (.acquire (c := 0) rfl)) rfl

/-! ### Fair runs -/

/-- An infinite run in which every CPU in a call goes on some time, and whoever has the lock gives
it back some time. -/
structure FairRun (id : C → BitVec 8) (w : ℕ → SpinWorld C) : Prop where
  start : w 0 = .init C
  next : ∀ k, w (k + 1) = w k ∨ HeldStep id (w k) (w (k + 1))
  runs : ∀ k c, (w k).point c ≠ .idle → ∃ l, k ≤ l ∧ w (l + 1) = ((w l).advance id c).1
  released : ∀ k c, (w k).acquired c = true → ∃ l, k ≤ l ∧ (w l).acquired c = false

namespace FairRun

variable {w : ℕ → SpinWorld C} {k l : ℕ}

lemma inv (h : FairRun id w) : ∀ k, HeldInv id (w k)
  | 0 => h.start ▸ .init
  | k + 1 => by
      rcases h.next k with hsame | hstep
      · exact hsame ▸ h.inv k
      · exact (h.inv k).step hstep

/-- A CPU in a call is where it is until its next statement. -/
lemma point_succ (h : FairRun id w) (hp : (w k).point c ≠ .idle)
    (hother : w (k + 1) ≠ ((w k).advance id c).1) : (w (k + 1)).point c = (w k).point c := by
  rcases h.next k with hsame | hstep
  · rw [hsame]
  · generalize w (k + 1) = t at hstep hother ⊢
    cases hstep with
    | @acquire d hidle =>
        refine SpinWorld.point_goto_of_ne _ ?_
        rintro rfl
        exact hp hidle
    | @release d hidle _ =>
        refine SpinWorld.point_goto_of_ne _ ?_
        rintro rfl
        exact hp hidle
    | run d =>
        refine SpinWorld.point_advance_of_ne ?_
        rintro rfl
        exact hother rfl

/-- The next statement of a CPU is the one it is at. -/
lemma exists_runs (h : FairRun id w) (hp : (w k).point c ≠ .idle) :
    ∃ l, k ≤ l ∧ (w l).point c = (w k).point c ∧ w (l + 1) = ((w l).advance id c).1 := by
  classical
  have hsome : ∃ n, w (k + n + 1) = ((w (k + n)).advance id c).1 := by
    obtain ⟨l, hkl, hl⟩ := h.runs k c hp
    exact ⟨l - k, by rw [Nat.add_sub_cancel' hkl]; exact hl⟩
  have hstay : ∀ n ≤ Nat.find hsome, (w (k + n)).point c = (w k).point c := by
    intro n hn
    induction n with
    | zero => rfl
    | succ n ih =>
        have hn' := ih (by omega)
        rw [← Nat.add_assoc, h.point_succ (hn' ▸ hp) (Nat.find_min hsome hn), hn']
  exact ⟨k + Nat.find hsome, Nat.le_add_right _ _, hstay _ le_rfl, Nat.find_spec hsome⟩

/-- A CPU that has taken the lock writes its number, and has acquired it then. -/
lemma acquires_of_setCpu (h : FairRun id w) (hp : (w k).point c = .acquire .setCpu) :
    ∃ l, k ≤ l ∧ (w l).acquired c = false ∧ (w (l + 1)).acquired c = true := by
  obtain ⟨l, hkl, hl, hrun⟩ := h.exists_runs (c := c) (k := k) (by simp [hp])
  rw [hp] at hl
  refine ⟨l, hkl, (h.inv l).inv.fresh c hl, ?_⟩
  rw [hrun, SpinWorld.advance_setCpu hl]
  simp

/-- Where nobody acquires the lock any more, it is free some time and stays so. -/
lemma eventually_free (h : FairRun id w)
    (hnone : ∀ l, k ≤ l → ∀ d, (w l).acquired d = false → (w (l + 1)).acquired d = false) :
    ∃ m, k ≤ m ∧ ∀ l, m ≤ l → (w l).lock.locked = false := by
  have hset : ∀ l, k ≤ l → ∀ d, (w l).point d ≠ .acquire .setCpu := by
    intro l hl d hp
    obtain ⟨m, hlm, hfalse, htrue⟩ := h.acquires_of_setCpu hp
    rw [hnone m (hl.trans hlm) d hfalse] at htrue
    exact absurd htrue (by simp)
  have hstay : ∀ l, k ≤ l → ∀ d, (w l).acquired d = false → ∀ m, l ≤ m →
      (w m).acquired d = false := by
    intro l hl d hd m hm
    induction m, hm using Nat.le_induction with
    | base => exact hd
    | succ m hm ih => exact hnone m (hl.trans hm) d ih
  have hfree : ∀ m, k ≤ m → (∀ d, (w m).acquired d = false) → ∀ l, m ≤ l →
      (w l).lock.locked = false := by
    intro m hkm hm l hl
    by_contra hlocked
    rw [Bool.not_eq_false] at hlocked
    obtain ⟨d, hd⟩ := (h.inv l).inv.locked.mp hlocked
    rcases hd with hacq | hp
    · rw [hstay m hkm d (hm d) l hl] at hacq
      exact absurd hacq (by simp)
    · exact hset l (hkm.trans hl) d hp
  by_cases hheld : ∃ o, (w k).acquired o = true
  · obtain ⟨o, ho⟩ := hheld
    obtain ⟨m, hkm, hm⟩ := h.released k o ho
    refine ⟨m, hkm, hfree m hkm fun d => ?_⟩
    rcases eq_or_ne d o with rfl | hd
    · exact hm
    · refine hstay k le_rfl d ?_ m hkm
      by_contra hacq
      rw [Bool.not_eq_false] at hacq
      exact hd ((h.inv k).inv.unique (.inl hacq) (.inl ho))
  · refine ⟨k, le_rfl, hfree k le_rfl fun d => ?_⟩
    simpa using fun hd => hheld ⟨d, hd⟩

end FairRun

/-- **Progress**: in every fair run, where a CPU is in `spinlock_acquire`, it or another CPU
acquires the lock at that time or later. -/
theorem spinlock_progress {w : ℕ → SpinWorld C} (h : FairRun id w) {k : ℕ} {a : AcquirePoint}
    (hc : (w k).point c = .acquire a) :
    ∃ l d, k ≤ l ∧ (w l).acquired d = false ∧ (w (l + 1)).acquired d = true := by
  by_contra hno
  have hnone : ∀ l, k ≤ l → ∀ d, (w l).acquired d = false → (w (l + 1)).acquired d = false := by
    intro l hl d hd
    by_contra hacq
    exact hno ⟨l, d, hl, hd, by simpa using hacq⟩
  have hset : ∀ l, k ≤ l → (w l).point c ≠ .acquire .setCpu := by
    intro l hl hp
    obtain ⟨m, hlm, hm⟩ := h.acquires_of_setCpu hp
    exact hno ⟨m, c, hl.trans hlm, hm⟩
  obtain ⟨m, hkm, hfree⟩ := h.eventually_free hnone
  -- the CPU spins all the time, for its next statement would take the lock
  have hspins : ∀ l, k ≤ l → (w l).point c = .acquire .testAndSet := by
    intro l hl
    induction l, hl using Nat.le_induction with
    | base =>
        cases a with
        | testAndSet => exact hc
        | setCpu => exact absurd hc (hset k le_rfl)
    | succ l hl ih =>
        by_cases hrun : w (l + 1) = ((w l).advance id c).1
        · cases hlocked : (w l).lock.locked with
          | true => rw [hrun, SpinWorld.advance_spin ih hlocked, ih]
          | false =>
              refine absurd ?_ (hset (l + 1) (by omega))
              rw [hrun, SpinWorld.advance_testAndSet ih hlocked]
              simp
        · rw [h.point_succ (by simp [ih]) hrun, ih]
  obtain ⟨l, hml, -, hrun⟩ := h.exists_runs (c := c) (k := m) (by simp [hspins m hkm])
  refine hset (l + 1) (by omega) ?_
  rw [hrun, SpinWorld.advance_testAndSet (hspins l (hkm.trans hml)) (hfree l hml)]
  simp

end SkinnyArm
