import SkinnyArm.Kernel.Kalloc
import SkinnyArm.Kernel.Strings

/-!
`kernel/process.c`: the process table, with the functions that create, kill and schedule processes.

* The table has `PROCCNT` slots where the code's loops run up to that number (`createFirstProcess`,
  `killProcess`, `sysFork`), and any number of them in `scheduler`, `sleep` and `wakeup`.
* `System.current` is the slot `tpidr_el1` points to, so `get_current_process` is this field.
* `struct process` as `switch_to` sees it, byte by byte, is in `Kernel/UserContext.lean`; here the
  save area is the record `Process.registers`.
-/

namespace SkinnyArm

/-- `PROCCNT`. -/
abbrev proccnt : ℕ := 64

instance neZero_proccnt : NeZero 64 := ⟨by decide⟩

/-- `enum ProcesState`. -/
inductive ProcState where
  | free
  | running
  | runnable
  | waiting
  | killed
  deriving DecidableEq

/-- The save area of `struct process`. -/
structure Registers where
  x19 : BitVec 64
  x20 : BitVec 64
  x21 : BitVec 64
  x22 : BitVec 64
  x23 : BitVec 64
  x24 : BitVec 64
  x25 : BitVec 64
  x26 : BitVec 64
  x27 : BitVec 64
  x28 : BitVec 64
  fp : BitVec 64
  lr : BitVec 64
  sp : BitVec 64

/-- `struct process` in a table of `n` slots; `parent` is a slot or `NULL`, and `waitOn` the address
of a sleep lock. -/
structure Process (n : ℕ) where
  registers : Registers
  stackFrame : ℕ
  trapFrame : ℕ
  parent : Option (Fin n)
  pagetable : BitVec 64
  state : ProcState
  pid : BitVec 8
  waitOn : ℕ

/-- The allocator, the process table, and what a CPU holds of the current process. -/
structure System (n : ℕ) where
  kernel : Kernel
  processArray : Fin n → Process n
  current : Fin n
  registers : Registers
  ttbr0 : BitVec 64

/-- `free_registers`. -/
def freeRegisters : Registers := ⟨0, 0, 0, 0, 0, 0, 0, 0, 0, 0, 0, 0, 0⟩

/-- A zeroed slot. -/
def Process.zero (n : ℕ) : Process n := ⟨freeRegisters, 0, 0, none, 0, .free, 0, 0⟩

/-- `&(proc->stack_frame[PageSize-1])`: the index counts frames. -/
def stackTop (stackFrame : ℕ) : BitVec 64 :=
  BitVec.ofNat 64 (stackFrame + (pageSize - 1) * pageSize)

/-- The inner loop of `getpid` gets to its last slot exactly if no slot has the pid. -/
def getpidLoop {n : ℕ} (processArray : Fin n → Process n) : ℕ → BitVec 8 → Option (BitVec 8)
  | 0, _ => none
  | fuel + 1, pid =>
      if ∀ i, (processArray i).pid ≠ pid then some pid else getpidLoop processArray fuel (pid + 1)

/-- `getpid`: the search starts at 1 and wraps. -/
def getpid {n : ℕ} (processArray : Fin n → Process n) : Option (BitVec 8) :=
  getpidLoop processArray 256 1

/-- The inner loop of `getpid` from a slot on, and whether it returns the pid: it breaks at a slot
that has the pid, and returns at the last one. -/
def pidReturned {n : ℕ} (processArray : Fin n → Process n) (pid : BitVec 8) (i : ℕ) : Bool :=
  if h : i < n then
    if (processArray ⟨i, h⟩).pid = pid then false
    else if i = n - 1 then true
    else pidReturned processArray pid (i + 1)
  else false
termination_by n - i

/-- The outer loop of `getpid` as the code has it; `fuel` counts its rounds. -/
def getpidRounds {n : ℕ} (processArray : Fin n → Process n) : ℕ → BitVec 8 → Option (BitVec 8)
  | 0, _ => none
  | fuel + 1, pid =>
      if pidReturned processArray pid 0 then some pid
      else getpidRounds processArray fuel (pid + 1)

/-- The test of `wakeup`. -/
def Process.WaitsOn {n : ℕ} (p : Process n) (lk : ℕ) : Prop := p.state = .waiting ∧ p.waitOn = lk

instance {n : ℕ} (p : Process n) (lk : ℕ) : Decidable (p.WaitsOn lk) :=
  inferInstanceAs (Decidable (_ ∧ _))

/-- The inner loop of `scheduler`: the first runnable slot from `next_proc` on. -/
def nextRunnable {n : ℕ} (processArray : Fin n → Process n) (nextProc : ℕ) : Option (Fin n) :=
  if h : nextProc < n then
    if (processArray ⟨nextProc, h⟩).state = .runnable then some ⟨nextProc, h⟩
    else nextRunnable processArray (nextProc + 1)
  else none
termination_by n - nextProc

/-- The outer loop of `scheduler`, which goes back to the first slot; `fuel` counts its rounds. -/
def nextRunnableRounds {n : ℕ} (processArray : Fin n → Process n) : ℕ → ℕ → Option (Fin n)
  | 0, _ => none
  | fuel + 1, nextProc =>
      (nextRunnable processArray nextProc).or (nextRunnableRounds processArray fuel 0)

/-- The search of `sys_fork` for a slot. -/
def firstFree {n : ℕ} (processArray : Fin n → Process n) : Option (Fin n) :=
  (List.finRange n).find? fun i => (processArray i).state = .free

namespace System

section Table

variable {n : ℕ} (s : System n)

/-- A write to a slot. -/
def setProcess (i : Fin n) (p : Process n) : System n :=
  { s with processArray := Function.update s.processArray i p }

/-- `switch_to`: the registers go to the save area of `prev`, and those of `next` come from its
own; `tpidr_el1` points to `next`. -/
def switchTo (prev next : Fin n) : System n :=
  let s₁ := s.setProcess prev { s.processArray prev with registers := s.registers }
  { s₁ with
    current := next
    registers := (s₁.processArray next).registers
    ttbr0 := (s₁.processArray next).pagetable }

/-- `scheduler`. -/
def scheduler (fuel : ℕ) : Option (System n) :=
  let currProc := s.current
  let s₁ := s.setProcess currProc { s.processArray currProc with state := .runnable }
  (nextRunnableRounds s₁.processArray fuel (currProc + 1)).map (s₁.switchTo currProc)

/-- `sleep`, up to its `spinlock_release`. -/
def sleep (lk : ℕ) : System n :=
  let p := s.current
  s.setProcess p { s.processArray p with state := .waiting, waitOn := lk }

/-- `wakeup`. -/
def wakeup (lk : ℕ) : System n :=
  { s with processArray := fun i =>
      let p := s.processArray i
      if p.WaitsOn lk then { p with state := .runnable, waitOn := 0 } else p }

end Table

variable (s : System proccnt)

/-- `create_first_process`: neither `kalloc` is checked, and `junk` is what is in a local that
`kalloc` leaves alone. -/
def createFirstProcess (junk : ℕ) : System proccnt :=
  let proc := s.processArray 0
  let (_, k₁) := s.kernel.kalloc.getD (junk, s.kernel)
  let (trapFrame, k₂) := k₁.kalloc.getD (junk, k₁)
  { s.setProcess 0 { proc with
      registers := { freeRegisters with sp := stackTop proc.stackFrame }
      trapFrame := trapFrame
      state := .runnable
      pid := 0 } with
    kernel := k₂
    current := 0
    ttbr0 := proc.pagetable }

/-- `kill_process` and what it returns. -/
def killProcess (pid : BitVec 8) : System proccnt × ℤ :=
  -- the loop's test for its last slot assigns to `i`, so that it ends after the first slot
  let proc := s.processArray 0
  if proc.pid = pid then
    let k₁ := s.kernel.kfree (.held proc.stackFrame)
    let k₂ := k₁.kfree (.held proc.trapFrame)
    ({ s.setProcess 0 { proc with registers := freeRegisters, state := .free, pid := 0 } with
        kernel := k₂ }, 0)
  else (s, -1)

/-- `sys_fork` and what it returns: nothing where it succeeds.  `none` is a `getpid` that goes on
for ever. -/
def sysFork : Option (System proccnt × Option ℤ) :=
  match firstFree s.processArray with
  | none => some (s, some (-1))
  | some i =>
      let proc := s.processArray i
      match s.kernel.kalloc with
      | none => some (s.setProcess i { proc with state := .free }, some (-1))
      | some (stackFrame, k₁) =>
          match k₁.kalloc with
          | none =>
              some ({ s.setProcess i { proc with stackFrame := 0, state := .free } with
                kernel := k₁.kfree (.held stackFrame) }, some (-1))
          | some (trapFrame, k₂) =>
              let s₁ := s.setProcess i { proc with
                registers := { freeRegisters with sp := stackTop stackFrame }
                stackFrame := stackFrame
                trapFrame := trapFrame
                state := .waiting }
              let caller := s₁.processArray s₁.current
              let k₃ : Kernel :=
                { k₂ with mem := strcpy k₂.mem caller.stackFrame stackFrame pageSize }
              let proc₁ := { s₁.processArray i with
                registers := { caller.registers with sp := stackTop stackFrame } }
              (getpid (s₁.setProcess i proc₁).processArray).map fun pid =>
                ({ s₁.setProcess i { proc₁ with
                    pid := pid
                    parent := some s₁.current
                    state := .runnable } with kernel := k₃ }, none)

end System

end SkinnyArm
