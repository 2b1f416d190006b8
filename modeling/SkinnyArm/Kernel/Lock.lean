import Mathlib.Tactic

/-!
`kernel/lock.c`: the two locks, statement by statement, and the interrupt mask.

* **Spin locks.** `AcquirePoint` and `ReleasePoint` are the places a CPU can be at inside
  `spinlock_acquire` and `spinlock_release`; `SpinLock.acquireStep` and `SpinLock.releaseStep` run
  the statement there.
* **The interrupt mask.** `disable_interrupts` and `enable_interrupts` of `kernel/low_level.c` set
  and clear all four bits of DAIF.  `MaskedCpu` is one CPU with its mask and its spin locks, on
  which the two functions run as a whole.
* **Sleep locks.** The fields of `struct SleepLock`; the functions on it are in
  `Lock/SleepLock.lean`, where a process is stopped between any two of their statements.

`int8_t` is `char`, which has no sign on AArch64, so the `-1` that `spinlock_init` stores in `cpu`
is `0xFF` when it is compared with a CPU's number.
-/

namespace SkinnyArm

/-- `struct SpinLock`; `locked` is a flag. -/
structure SpinLock where
  locked : Bool
  cpu : BitVec 8
  deriving DecidableEq

/-- `spinlock_init`. -/
def spinlockInit : SpinLock := ⟨false, 0xFF⟩

/-- `spinlock_holds` on the CPU of the given number. -/
def spinlockHolds (lk : SpinLock) (cpuId : BitVec 8) : Bool := lk.cpu = cpuId

/-- The statements of `spinlock_acquire`: the test-and-set, and the owner's number. -/
inductive AcquirePoint where
  | testAndSet
  | setCpu
  deriving DecidableEq

/-- The statements of `spinlock_release`: the guard, and the two stores. -/
inductive ReleasePoint where
  | guard
  | clearCpu
  | clearLocked
  deriving DecidableEq

namespace SpinLock

variable (lk : SpinLock) (cpuId : BitVec 8)

/-- One statement of `spinlock_acquire`, and the next one; `none` is its return. -/
def acquireStep : AcquirePoint → SpinLock × Option AcquirePoint
  | .testAndSet =>
      if lk.locked then (lk, some .testAndSet) else ({ lk with locked := true }, some .setCpu)
  | .setCpu => ({ lk with cpu := cpuId }, none)

/-- One statement of `spinlock_release`, and the next one or the value it returns. -/
def releaseStep : ReleasePoint → SpinLock × (ReleasePoint ⊕ ℤ)
  | .guard => if spinlockHolds lk cpuId then (lk, .inl .clearCpu) else (lk, .inr (-1))
  | .clearCpu => ({ lk with cpu := 0 }, .inl .clearLocked)
  | .clearLocked => ({ lk with locked := false }, .inr 0)

end SpinLock

/-! ### The interrupt mask -/

/-- `disable_interrupts`: `msr daifset, 0xf`. -/
def disableInterrupts (daif : BitVec 4) : BitVec 4 := daif ||| 0xF

/-- `enable_interrupts`: `msr daifclr, 0xf`. -/
def enableInterrupts (daif : BitVec 4) : BitVec 4 := daif &&& ~~~0xF

/-- A CPU's interrupt mask and the spin locks; `held` says which of them the CPU has acquired and
not released since. -/
structure MaskedCpu (L : Type*) where
  daif : BitVec 4
  locks : L → SpinLock
  held : L → Bool

/-- What happens to the locks: the two calls by the CPU, and a change that another CPU makes. -/
inductive LockOp (L : Type*) where
  | acquire (l : L)
  | release (l : L)
  | other (l : L) (lk : SpinLock)
  deriving DecidableEq

namespace MaskedCpu

variable {L : Type*} [DecidableEq L] (cpuId : BitVec 8) (s : MaskedCpu L)

/-- `spinlock_acquire` from its `disable_interrupts` on; `none` is a lock that is taken, on which
it spins. -/
def spinlockAcquire (l : L) : Option (MaskedCpu L) :=
  match (s.locks l).acquireStep cpuId .testAndSet with
  | (lk, some .setCpu) =>
      some
        { daif := disableInterrupts s.daif
          locks := Function.update s.locks l (lk.acquireStep cpuId .setCpu).1
          held := Function.update s.held l true }
  | (_, _) => none

/-- `spinlock_release` and what it returns. -/
def spinlockRelease (l : L) : MaskedCpu L × ℤ :=
  match (s.locks l).releaseStep cpuId .guard with
  | (lk, .inl _) =>
      let lk₁ := (lk.releaseStep cpuId .clearCpu).1
      ({ s with
          locks := Function.update s.locks l (lk₁.releaseStep cpuId .clearLocked).1
          held := Function.update s.held l false }, 0)
  | (_, .inr v) => (s, v)

/-- One operation; `none` is an acquire that spins.  Other CPUs leave the locks alone that this one
holds. -/
def exec : LockOp L → Option (MaskedCpu L)
  | .acquire l => s.spinlockAcquire cpuId l
  | .release l => some (s.spinlockRelease cpuId l).1
  | .other l lk =>
      if s.held l then none else some { s with locks := Function.update s.locks l lk }

/-- Operations one after the other. -/
def run (s : MaskedCpu L) : List (LockOp L) → Option (MaskedCpu L)
  | [] => some s
  | op :: ops => (s.exec cpuId op).bind fun s' => s'.run ops

end MaskedCpu

/-- `struct SleepLock`; `locked` is a flag. -/
structure SleepLock where
  spinLk : SpinLock
  locked : Bool
  pid : BitVec 8

/-- `sleeplock_init`. -/
def sleeplockInit : SleepLock := ⟨spinlockInit, false, 0⟩

end SkinnyArm
