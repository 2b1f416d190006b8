import SkinnyArm.Kernel.UserContext
import SkinnyArm.Library.Transition

/-!
`switch_to` over whole runs of any number of processes.

* **One call.** `run_switchTo` is the listing in closed form: the registers of the process left
  go to its save area (`HoldsContext`), those of the process entered come from its own, and
  `ttbr0_el1` and `tpidr_el1` are set from the process entered.
* **Runs.** `SwitchStep` interleaves calls with arbitrary changes of registers and memory that
  keep `tpidr_el1` and the save areas of the processes switched out.  `SwitchInv` says that
  every process switched out still has its context in its save area, and `switch_resumes` that
  every call resumes the process entered where it left off.
-/

namespace SkinnyArm

open ByteMemory AArch64

/-! ### One call -/

/-- The registers `switch_to` saves and restores by pairs, with their slots. -/
def contextArea : SaveArea :=
  [(19, 0), (20, 8), (21, 16), (22, 24), (23, 32), (24, 40), (25, 48), (26, 56), (27, 64),
    (28, 72), (29, 80), (30, 88)]

lemma contextArea_fits : contextArea.Fits 96 := by decide

/-- The registers a process finds again when it is resumed. -/
def calleeSaved : List Reg := (contextArea.map Prod.fst).map .x ++ [.sp]

/-- The save area of a process holds a register context. -/
structure HoldsContext (m : ByteMemory) (p : ℕ) (c : Cpu) : Prop where
  pairs : ∀ e ∈ contextArea, m.load64 (p + e.2) = c.x e.1
  sp : m.load64 (p + 96) = c.sp

/-- The slots of `switch_to` are the struct's fields for these registers. -/
lemma slot_of_register (f : ProcessField) :
    ∀ r ∈ f.register, (∃ t, r = .x t ∧ (t, f.offset) ∈ contextArea) ∨ r = .sp ∧ f.offset = 96 := by
  cases f <;> decide +kernel

lemma HoldsContext.field {m : ByteMemory} {p : ℕ} {c : Cpu} (h : HoldsContext m p c)
    {f : ProcessField} {r : Reg} (hr : f.register = some r) :
    m.load64 (p + f.offset) = c.read r := by
  rcases slot_of_register f r hr with ⟨t, rfl, ht⟩ | ⟨rfl, hoff⟩
  · exact h.pairs (t, f.offset) ht
  · exact (congrArg (fun off => m.load64 (p + off)) hoff).trans h.sp

lemma HoldsContext.congr {m m' : ByteMemory} {p : ℕ} {c : Cpu} (h : HoldsContext m p c)
    (hm : Set.EqOn m' m (block p saveAreaSize)) : HoldsContext m' p c where
  pairs e he := by
    have hfit := contextArea_fits e he
    rw [load64_congr (hm.mono fun y hy => ?_), h.pairs e he]
    simp only [Set.mem_Ico, saveAreaSize] at hy ⊢
    omega
  sp := by
    rw [load64_congr (hm.mono fun y hy => ?_), h.sp]
    simp only [Set.mem_Ico, saveAreaSize] at hy ⊢
    omega

/-- The memory after a context is saved. -/
def saveContext (m : ByteMemory) (p : ℕ) (c : Cpu) : ByteMemory :=
  (storeWords m (contextArea.words p c.x)).store64 (p + 96) c.sp

lemma holdsContext_saveContext (m : ByteMemory) (p : ℕ) (c : Cpu) :
    HoldsContext (saveContext m p c) p c where
  pairs e he := by
    have hfit := contextArea_fits e he
    rw [saveContext, load64_store64_of_disjoint (by omega)]
    exact load64_storeWords_of_mem m contextArea_fits (by decide) he
  sp := load64_store64_self

/-- Saving a context writes in the save area only. -/
lemma saveContext_eqOn (m : ByteMemory) (p : ℕ) (c : Cpu) :
    Set.EqOn (saveContext m p c) m (block p saveAreaSize)ᶜ := by
  refine Set.EqOn.trans (store64_eqOn.mono ?_)
    ((storeWords_words_eqOn m _ _ contextArea_fits).mono ?_)
  all_goals
    refine Set.compl_subset_compl.mpr fun y hy => ?_
    simp only [Set.mem_Ico, saveAreaSize] at hy ⊢
    omega

/-- The two halves of `switch_to`, each around its run of pair instructions. -/
lemma switchTo_halves :
    switchTo.flatMap Instr.halves =
      (stores (.x 0) contextArea ++ [.mov (.x 9) .sp, .str 9 (.x 0) 96]) ++
        (loads (.x 1) contextArea ++
          [.ldr 9 (.x 1) 96, .mov .sp (.x 9), .ldr 0 (.x 1) 128, .msr .ttbr0El1 0, .tlbi,
            .msr .tpidrEl1 1]) := rfl

/-- A struct that `x0` or `x1` points to does not wrap. -/
lemma addr_process {s c : Cpu} {i : Fin 31} (hp : (s.x i).toNat + processSize ≤ 2 ^ 64)
    (hc : c.x i = s.x i) {off : ℕ} (hoff : off < processSize) :
    c.addr (.x i) off = (s.x i).toNat + off := by
  rw [Cpu.addr_eq _ (by simp only [Cpu.read, hc]; omega), Cpu.read, hc]

/-- The first half saves the context of the process in `x0`. -/
lemma run_saveHalf {s : Cpu} (hp : (s.x 0).toNat + processSize ≤ 2 ^ 64) :
    s.run (stores (.x 0) contextArea ++ [.mov (.x 9) .sp, .str 9 (.x 0) 96]) =
      { s with
        x := Function.update s.x 9 s.sp
        mem := saveContext s.mem (s.x 0).toNat s } := by
  rw [Cpu.run_append, run_stores s contextArea_fits
    (by simp only [Cpu.read, processSize] at *; omega)]
  have haddr : ∀ c : Cpu, c.x 0 = s.x 0 → c.addr (.x 0) 96 = (s.x 0).toNat + 96 :=
    fun c hc => addr_process hp hc (by norm_num)
  simp [Cpu.exec, Cpu.write, Cpu.read, haddr, saveContext]

/-- The machine in which a process is resumed from its save area. -/
def resume (s : Cpu) (q : ℕ) : Cpu where
  x := Function.update
    (Function.update (loadWords s.mem q contextArea s.x) 9 (s.mem.load64 (q + 96))) 0
    (s.mem.load64 (q + 128))
  sp := s.mem.load64 (q + 96)
  sys := Function.update (Function.update s.sys .ttbr0El1 (s.mem.load64 (q + 128))) .tpidrEl1
    (s.x 1)
  mem := s.mem

/-- The second half resumes the process in `x1`. -/
lemma run_resumeHalf {s : Cpu} (hq : (s.x 1).toNat + processSize ≤ 2 ^ 64) :
    s.run (loads (.x 1) contextArea ++
      [.ldr 9 (.x 1) 96, .mov .sp (.x 9), .ldr 0 (.x 1) 128, .msr .ttbr0El1 0, .tlbi,
        .msr .tpidrEl1 1]) = resume s (s.x 1).toNat := by
  have haddr : ∀ (c : Cpu) (off : ℕ), c.x 1 = s.x 1 → off < processSize →
      c.addr (.x 1) off = (s.x 1).toNat + off := fun c off hc hoff => addr_process hq hc hoff
  have h1 : loadWords s.mem (s.x 1).toNat contextArea s.x 1 = s.x 1 := rfl
  rw [Cpu.run_append, run_loads s contextArea_fits (by decide)
    (by simp only [Cpu.read, processSize] at *; omega)]
  simp only [Cpu.run_cons, Cpu.run_nil, Cpu.exec, Cpu.write, Cpu.read, resume]
  generalize loadWords s.mem (s.x 1).toNat contextArea s.x = x at h1 ⊢
  simp [haddr, h1, processSize]

/-- **One call** of `switch_to`: the context of the process left is saved, and the process entered
is resumed from the memory after that. -/
lemma run_switchTo {s : Cpu} (hp : (s.x 0).toNat + processSize ≤ 2 ^ 64)
    (hq : (s.x 1).toNat + processSize ≤ 2 ^ 64) :
    s.run switchTo =
      resume
        { s with
          x := Function.update s.x 9 s.sp
          mem := saveContext s.mem (s.x 0).toNat s }
        (s.x 1).toNat := by
  rw [← s.run_split (by decide : switchTo.all Instr.Separable), switchTo_halves, Cpu.run_append,
    run_saveHalf hp, run_resumeHalf (by simpa using hq)]
  rfl

/-- A process resumed from a save area that holds a context has that context. -/
lemma HoldsContext.resume_read {s c : Cpu} {q : ℕ} (h : HoldsContext s.mem q c) {r : Reg}
    (hr : r ∈ calleeSaved) : (resume s q).read r = c.read r := by
  rcases List.mem_append.mp hr with hx | hsp
  · obtain ⟨t, ht, rfl⟩ := List.mem_map.mp hx
    have hne : t ≠ 9 ∧ t ≠ 0 := by
      constructor
      all_goals
        rintro rfl
        revert ht
        decide
    have hx : (resume s q).x t = loadWords s.mem q contextArea s.x t := by
      simp only [resume, Function.update_of_ne hne.2, Function.update_of_ne hne.1]
    exact hx.trans (loadWords_of_mem h.pairs ht)
  · rw [List.mem_singleton.mp hsp]
    exact h.sp

/-! ### Runs -/

/-- The processes there are: structs that do not wrap and do not overlap. -/
structure ProcessTable (procs : Set (BitVec 64)) : Prop where
  fits : ∀ p ∈ procs, p.toNat + processSize ≤ 2 ^ 64
  apart : ∀ p ∈ procs, ∀ q ∈ procs, p ≠ q →
    p.toNat + processSize ≤ q.toNat ∨ q.toNat + processSize ≤ p.toNat

/-- The machine, and for every process the machine as it was when the process last called
`switch_to`. -/
structure SwitchState where
  cpu : Cpu
  left : BitVec 64 → Option Cpu

namespace SwitchState

variable (w : SwitchState)

/-- The process `tpidr_el1` designates. -/
def current : BitVec 64 := w.cpu.sys .tpidrEl1

/-- A call of `switch_to`. -/
def call : SwitchState where
  cpu := w.cpu.run switchTo
  left := Function.update w.left w.current (some w.cpu)

end SwitchState

/-- The steps of a run: a call that leaves the current process for any other or for itself, and
any change of registers and memory that keeps `tpidr_el1` and the save areas of the processes
switched out. -/
inductive SwitchStep (procs : Set (BitVec 64)) : SwitchState → SwitchState → Prop
  | call {w : SwitchState} (hprev : w.cpu.x 0 = w.current) (hnext : w.cpu.x 1 ∈ procs) :
      SwitchStep procs w w.call
  | between {w : SwitchState} {c : Cpu} (hcur : c.sys .tpidrEl1 = w.current)
      (hareas : ∀ p ∈ procs, p ≠ w.current → w.left p ≠ none →
        Set.EqOn c.mem w.cpu.mem (block p.toNat saveAreaSize)) :
      SwitchStep procs w { w with cpu := c }

/-- Every process switched out has its context in its save area. -/
structure SwitchInv (procs : Set (BitVec 64)) (w : SwitchState) : Prop where
  current : w.current ∈ procs
  holds : ∀ p ∈ procs, p ≠ w.current → ∀ c, w.left p = some c →
    HoldsContext w.cpu.mem p.toNat c

namespace SwitchInv

variable {procs : Set (BitVec 64)} {w w' : SwitchState}

/-- The machine after a call, in closed form. -/
lemma run_switchTo (h : SwitchInv procs w) (ht : ProcessTable procs)
    (hprev : w.cpu.x 0 = w.current) (hnext : w.cpu.x 1 ∈ procs) :
    w.cpu.run switchTo =
      resume
        { w.cpu with
          x := Function.update w.cpu.x 9 w.cpu.sp
          mem := saveContext w.cpu.mem w.current.toNat w.cpu }
        (w.cpu.x 1).toNat := by
  rw [SkinnyArm.run_switchTo (by rw [hprev]; exact ht.fits _ h.current) (ht.fits _ hnext), hprev]

/-- After a call the context of every process that ever called is in its save area, that of the
process resumed included. -/
lemma holds_call (h : SwitchInv procs w) (ht : ProcessTable procs) {p : BitVec 64}
    (hp : p ∈ procs) {c : Cpu} (hc : w.call.left p = some c) :
    HoldsContext (saveContext w.cpu.mem w.current.toNat w.cpu) p.toNat c := by
  by_cases hcur : p = w.current
  · subst hcur
    have hself : w.cpu = c := by simpa [SwitchState.call] using hc
    rw [← hself]
    exact holdsContext_saveContext _ _ _
  · have hleft : w.left p = some c := by simpa [SwitchState.call, hcur] using hc
    refine (h.holds p hp hcur c hleft).congr ((saveContext_eqOn _ _ _).mono fun y hy => ?_)
    have hapart := ht.apart p hp _ h.current hcur
    simp only [Set.mem_compl_iff, Set.mem_Ico, saveAreaSize, processSize] at *
    omega

lemma call (h : SwitchInv procs w) (ht : ProcessTable procs) (hprev : w.cpu.x 0 = w.current)
    (hnext : w.cpu.x 1 ∈ procs) : SwitchInv procs w.call := by
  have hrun := h.run_switchTo ht hprev hnext
  have hcur : w.call.current = w.cpu.x 1 := by
    rw [SwitchState.current, SwitchState.call, hrun]
    simp [resume]
  refine ⟨hcur ▸ hnext, fun p hp _ c hc => ?_⟩
  rw [SwitchState.call, hrun]
  exact h.holds_call ht hp hc

/-- Every step keeps the contexts of the processes switched out. -/
lemma step (h : SwitchInv procs w) (ht : ProcessTable procs) (hstep : SwitchStep procs w w') :
    SwitchInv procs w' := by
  cases hstep with
  | call hprev hnext => exact h.call ht hprev hnext
  | @between c hcur hareas =>
      have hsame : (⟨c, w.left⟩ : SwitchState).current = w.current := hcur
      refine ⟨hsame ▸ h.current, fun p hp hne d hd => ?_⟩
      rw [hsame] at hne
      have hd' : w.left p = some d := hd
      exact (h.holds p hp hne d hd').congr (hareas p hp hne (by simp [hd']))

end SwitchInv

/-- **`switch_to` over a run**: a call made by the current process resumes the process entered with
the registers it had when it called, or those of this very call if it enters itself;
`ttbr0_el1` holds its `pagetable` field, `tpidr_el1` designates it, and no process loses a field
past the save area. -/
theorem switch_resumes {procs : Set (BitVec 64)} (ht : ProcessTable procs) {w₀ w : SwitchState}
    (hcur : w₀.current ∈ procs) (hleft : ∀ p, w₀.left p = none)
    (hrun : Run (SwitchStep procs) w₀ w) (hprev : w.cpu.x 0 = w.current)
    (hnext : w.cpu.x 1 ∈ procs) :
    (∀ c, w.call.left (w.cpu.x 1) = some c → ∀ r ∈ calleeSaved, w.call.cpu.read r = c.read r) ∧
      w.call.cpu.sys .ttbr0El1 =
        w.call.cpu.mem.load64 ((w.cpu.x 1).toNat + ProcessField.pagetable.offset) ∧
      w.call.current = w.cpu.x 1 ∧
      ∀ p ∈ procs, ∀ f : ProcessField, f.register = none →
        Set.EqOn w.call.cpu.mem w.cpu.mem (block (p.toNat + f.offset) f.size) := by
  have hinit : SwitchInv procs w₀ := ⟨hcur, fun p _ _ c hc => by simp [hleft] at hc⟩
  have h : SwitchInv procs w := hrun.invariant (fun h hstep => h.step ht hstep) hinit
  have heq := h.run_switchTo ht hprev hnext
  refine ⟨fun c hc r hr => ?_, ?_, ?_, fun p hp f hf => ?_⟩
  · rw [SwitchState.call, heq]
    exact (h.holds_call ht hnext hc).resume_read hr
  · rw [SwitchState.call, heq]
    simp only [resume]
    rfl
  · rw [SwitchState.current, SwitchState.call, heq]
    simp [resume]
  · rw [SwitchState.call, heq]
    refine (saveContext_eqOn _ _ _).mono fun y hy => ?_
    have hfield := (ProcessField.offset_bounds f).1
    have hpast := (ProcessField.offset_bounds f).2.1 hf
    by_cases hpc : p = w.current
    · subst hpc
      simp only [Set.mem_compl_iff, Set.mem_Ico] at hy ⊢
      omega
    · have hapart := ht.apart p hp _ h.current hpc
      simp only [Set.mem_compl_iff, Set.mem_Ico, saveAreaSize, processSize] at *
      omega

/-- A process at `0x1000` that calls `switch_to` for one at `0x2000`. -/
def firstCall : SwitchState where
  cpu :=
    { x := fun i => if i = 0 then 0x1000 else if i = 1 then 0x2000 else BitVec.ofNat 64 i
      sp := 0x9000
      sys := fun _ => 0x1000
      mem := fun _ => 0 }
  left := fun _ => none

/-- The machine with other values in the general registers. -/
def SwitchState.setRegisters (w : SwitchState) (x : Fin 31 → BitVec 64) : SwitchState :=
  { w with cpu := { w.cpu with x := x } }

lemma SwitchStep.setRegisters {procs : Set (BitVec 64)} (w : SwitchState)
    (x : Fin 31 → BitVec 64) : SwitchStep procs w (w.setRegisters x) :=
  .between rfl fun _ _ _ _ => Set.eqOn_refl _ _

/-- The second process, which is about to call `switch_to` for the first, with other values in
every register. -/
def secondCall : SwitchState :=
  firstCall.call.setRegisters fun i => if i = 0 then 0x2000 else 0x1000

lemma secondCall_current : secondCall.current = 0x2000 := by
  have hrun := run_switchTo (s := firstCall.cpu) (by decide) (by decide)
  show firstCall.call.cpu.sys .tpidrEl1 = 0x2000
  rw [SwitchState.call, hrun]
  rfl

/-- The first process is resumed with the registers it had. -/
theorem switch_resumes_first :
    (∀ r ∈ calleeSaved, secondCall.call.cpu.read r = firstCall.cpu.read r) ∧
      secondCall.call.current = 0x1000 := by
  have ht : ProcessTable {0x1000, 0x2000} := by
    constructor
    · rintro p (rfl | rfl)
      all_goals decide
    · rintro p (rfl | rfl) q (rfl | rfl) hne
      all_goals first | exact absurd rfl hne | decide
  have hcall : SwitchStep {0x1000, 0x2000} firstCall firstCall.call :=
    .call rfl (.inr rfl)
  have hswap : SwitchStep {0x1000, 0x2000} firstCall.call secondCall := .setRegisters _ _
  have hnext : secondCall.cpu.x 1 = 0x1000 := rfl
  have h := switch_resumes ht (.inl rfl) (fun _ => rfl)
    ((Relation.ReflTransGen.single hcall).tail hswap) (by rw [secondCall_current]; rfl)
    (hnext ▸ .inl rfl)
  rw [hnext] at h
  have hleft : secondCall.call.left 0x1000 = some firstCall.cpu := by
    show Function.update secondCall.left secondCall.current (some secondCall.cpu) 0x1000 = _
    rw [secondCall_current, Function.update_of_ne (by decide)]
    rfl
  exact ⟨h.1 firstCall.cpu hleft, h.2.2.1⟩

end SkinnyArm
