import SkinnyArm.Kernel.UserContext
import SkinnyArm.Kernel.Kalloc

/-!
`uservec` and `userret` around a system call.

* **The two listings.** `run_uservec` and `run_userret` are the listings in closed form: the
  first writes the registers into the trap frame by `saveSlots`, the second fills them from it
  by `restoreSlots`.
* **The renaming.** The composition of the two gives back to register `i` what register
  `savedFrom i` held, and `savedFrom` is the identity except on `x18` and `x19`: their slot is
  overwritten by `x20` and `x21`, and they are filled from that of `x16` and `x17`
  (`trapRestores_iff`).
-/

namespace SkinnyArm

open ByteMemory AArch64

/-- The stores of `uservec` into the trap frame, in order. -/
def saveSlots : SaveArea :=
  [(2, 16), (3, 24), (4, 32), (5, 40), (6, 48), (7, 56), (8, 64), (9, 72), (10, 80), (11, 88),
    (12, 96), (13, 104), (14, 112), (15, 120), (16, 128), (17, 136), (18, 144), (19, 152),
    (20, 144), (21, 152), (22, 160), (23, 168), (24, 176), (25, 184), (26, 192), (27, 200),
    (28, 208), (29, 216), (30, 224)]

/-- The loads of `userret` from the trap frame, in order. -/
def restoreSlots : SaveArea :=
  [(2, 16), (3, 24), (4, 32), (5, 40), (6, 48), (7, 56), (8, 64), (9, 72), (10, 80), (11, 88),
    (12, 96), (13, 104), (14, 112), (15, 120), (16, 128), (17, 136), (18, 128), (19, 136),
    (20, 144), (21, 152), (22, 160), (23, 168), (24, 176), (25, 184), (26, 192), (27, 200),
    (28, 208), (29, 216), (30, 224)]

/-- The slots of `x0` and `x1`, which go through the kernel stack. -/
def firstSlots : SaveArea := [(0, 0), (1, 8)]

/-- A pair pushed on the kernel stack. -/
def pushPair : List Instr := [.sub .sp .sp 16, .str 0 .sp 0, .str 1 .sp 8]

/-- A pair popped from the kernel stack. -/
def popPair : List Instr := [.ldr 0 .sp 0, .ldr 1 .sp 8, .add .sp .sp 16]

lemma uservec_halves :
    uservec.flatMap Instr.halves =
      pushPair ++ ([.mrs 0 .tpidrEl1, .ldr 1 (.x 0) 112] ++ (stores (.x 1) saveSlots ++
        ([.mov (.x 3) (.x 1)] ++ (popPair ++ (stores (.x 3) firstSlots ++
          [.mov (.x 0) (.x 8)]))))) := rfl

lemma userret_halves :
    userret.flatMap Instr.halves =
      [.mrs 0 .tpidrEl1, .ldr 3 (.x 0) 112] ++ (loads (.x 3) firstSlots ++ (pushPair ++
        ([.mov (.x 1) (.x 3)] ++ (loads (.x 1) restoreSlots ++ popPair)))) := rfl

/-! ### The kernel stack -/

/-- The memory after two words are pushed below a stack pointer. -/
def pushed (m : ByteMemory) (sp : ℕ) (v w : BitVec 64) : ByteMemory :=
  (m.store64 (sp - 16) v).store64 (sp - 8) w

lemma pushed_eqOn (m : ByteMemory) {sp : ℕ} (hsp : 16 ≤ sp) (v w : BitVec 64) :
    Set.EqOn (pushed m sp v w) m (block (sp - 16) 16)ᶜ := by
  refine Set.EqOn.trans (store64_eqOn.mono ?_) (store64_eqOn.mono ?_)
  all_goals
    refine Set.compl_subset_compl.mpr fun y hy => ?_
    simp only [Set.mem_Ico] at hy ⊢
    omega

/-- What was pushed is there. -/
lemma load64_pushed (m : ByteMemory) {sp : ℕ} (hsp : 16 ≤ sp) (v w : BitVec 64) :
    (pushed m sp v w).load64 (sp - 16) = v ∧ (pushed m sp v w).load64 (sp - 8) = w := by
  rw [pushed, load64_store64_of_disjoint (by omega), load64_store64_self, load64_store64_self]
  exact ⟨rfl, rfl⟩

lemma addr_below_sp {c : Cpu} {sp : BitVec 64} (hc : c.sp = sp - 16) (hsp : 16 ≤ sp.toNat)
    {off : ℕ} (hoff : off < 16) : c.addr .sp off = sp.toNat - 16 + off := by
  have hlt := sp.isLt
  have hle : (16 : BitVec 64) ≤ sp := hsp
  have hval : (sp - 16).toNat = sp.toNat - 16 := BitVec.toNat_sub_of_le hle
  rw [Cpu.addr_eq, Cpu.read, hc, hval]
  rw [Cpu.read, hc, hval]
  omega

lemma run_pushPair {s : Cpu} (hsp : 16 ≤ s.sp.toNat) :
    s.run pushPair =
      { s with sp := s.sp - 16, mem := pushed s.mem s.sp.toNat (s.x 0) (s.x 1) } := by
  have haddr : ∀ (c : Cpu) (off : ℕ), c.sp = s.sp - 16 → off < 16 →
      c.addr .sp off = s.sp.toNat - 16 + off := fun c off hc hoff => addr_below_sp hc hsp hoff
  have h8 : s.sp.toNat - 16 + 8 = s.sp.toNat - 8 := by omega
  simp [pushPair, Cpu.exec, Cpu.write, Cpu.read, haddr, pushed, h8]

lemma run_popPair {s : Cpu} {sp : BitVec 64} (hs : s.sp = sp - 16) (hsp : 16 ≤ sp.toNat) :
    s.run popPair =
      { s with
        x := Function.update (Function.update s.x 0 (s.mem.load64 (sp.toNat - 16))) 1
          (s.mem.load64 (sp.toNat - 8))
        sp := sp } := by
  have haddr : ∀ (c : Cpu) (off : ℕ), c.sp = s.sp → off < 16 →
      c.addr .sp off = sp.toNat - 16 + off :=
    fun c off hc hoff => addr_below_sp (hc.trans hs) hsp hoff
  have h8 : sp.toNat - 16 + 8 = sp.toNat - 8 := by omega
  have hback : s.sp + 16#64 = sp := hs ▸ BitVec.sub_add_cancel sp 16
  simp [popPair, Cpu.exec, Cpu.write, Cpu.read, haddr, h8, hback]

/-! ### `uservec` -/

/-- The address of the current process's `trap_frame` field. -/
def trapFrameField (s : Cpu) : ℕ := (s.sys .tpidrEl1).toNat + ProcessField.trapFrame.offset

/-- The current process's `trap_frame`. -/
def trapFrame (s : Cpu) : BitVec 64 := s.mem.load64 (trapFrameField s)

/-- The current process has a page for its trap frame, and its struct, the page and the kernel
stack are three separate things. -/
structure TrapLayout (s : Cpu) : Prop where
  process : (s.sys .tpidrEl1).toNat + processSize ≤ 2 ^ 64
  frame : (trapFrame s).toNat + pageSize ≤ 2 ^ 64
  stack : 16 ≤ s.sp.toNat
  stack_process : Disjoint (block (s.sp.toNat - 16) 16) (block (trapFrameField s) 8)
  stack_frame : Disjoint (block (s.sp.toNat - 16) 16) (page (trapFrame s).toNat)
  frame_process : Disjoint (page (trapFrame s).toNat) (block (trapFrameField s) 8)

/-- All the slots `uservec` writes. -/
def trapSlots : SaveArea := saveSlots ++ firstSlots

lemma trapSlots_fits : trapSlots.Fits 240 := by decide

lemma restoreSlots_fits : restoreSlots.Fits 240 := by decide

/-- Reading the current process's `trap_frame` off `tpidr_el1`. -/
lemma run_getFrame {s : Cpu} (hp : (s.sys .tpidrEl1).toNat + processSize ≤ 2 ^ 64) (t : Fin 31) :
    s.run [.mrs 0 .tpidrEl1, .ldr t (.x 0) 112] =
      { s with
        x := Function.update (Function.update s.x 0 (s.sys .tpidrEl1)) t (trapFrame s) } := by
  have haddr : ∀ c : Cpu, c.x 0 = s.sys .tpidrEl1 → c.addr (.x 0) 112 = trapFrameField s := by
    intro c hc
    rw [Cpu.addr_eq _ (by simp only [Cpu.read, hc, processSize] at *; omega), Cpu.read, hc]
    rfl
  simp [Cpu.exec, Cpu.write, haddr, trapFrame]

/-- The registers once `uservec` has read the trap frame's address. -/
def afterGetFrame (s : Cpu) : Fin 31 → BitVec 64 :=
  Function.update (Function.update s.x 0 (s.sys .tpidrEl1)) 1 (trapFrame s)

/-- The memory once `uservec` has stored `x2` to `x30`. -/
def afterSave (s : Cpu) : ByteMemory :=
  storeWords (pushed s.mem s.sp.toNat (s.x 0) (s.x 1))
    (saveSlots.words (trapFrame s).toNat s.x)

/-- `uservec` up to its last store off `x1`. -/
lemma run_uservecSave {s : Cpu} (h : TrapLayout s) :
    s.run (pushPair ++ ([.mrs 0 .tpidrEl1, .ldr 1 (.x 0) 112] ++ stores (.x 1) saveSlots)) =
      { s with x := afterGetFrame s, sp := s.sp - 16, mem := afterSave s } := by
  have hframe : trapFrame { s with
      sp := s.sp - 16, mem := pushed s.mem s.sp.toNat (s.x 0) (s.x 1) } = trapFrame s :=
    load64_of_eqOn_compl (pushed_eqOn _ h.stack _ _) h.stack_process.symm
  have hget : ({ s with
      sp := s.sp - 16, mem := pushed s.mem s.sp.toNat (s.x 0) (s.x 1) } : Cpu).run
        [.mrs 0 .tpidrEl1, .ldr 1 (.x 0) 112] =
      { s with
        x := afterGetFrame s
        sp := s.sp - 16
        mem := pushed s.mem s.sp.toNat (s.x 0) (s.x 1) } := by
    rw [run_getFrame (s := { s with sp := s.sp - 16, mem := _ }) h.process, hframe]
    rfl
  have hread : ∀ c : Cpu, c.x = afterGetFrame s → c.read (.x 1) = trapFrame s := by
    intro c hc
    simp [Cpu.read, hc, afterGetFrame]
  have hwords : saveSlots.words (trapFrame s).toNat (afterGetFrame s) =
      saveSlots.words (trapFrame s).toNat s.x :=
    SaveArea.words_congr fun e he => by
      have hne : e.1 ≠ 0 ∧ e.1 ≠ 1 := by
        revert e
        decide
      simp only [afterGetFrame, Function.update_of_ne hne.1, Function.update_of_ne hne.2]
  have hfit := h.frame
  rw [Cpu.run_append, run_pushPair h.stack, Cpu.run_append, hget,
    run_stores _ (by decide : saveSlots.Fits 240)
      (by rw [hread _ rfl]; simp only [pageSize] at hfit; omega), hread _ rfl, hwords]
  rfl

/-- The pair pushed is still on the stack after the stores into the trap frame. -/
lemma afterSave_pushed {s : Cpu} (h : TrapLayout s) :
    (afterSave s).load64 (s.sp.toNat - 16) = s.x 0 ∧
      (afterSave s).load64 (s.sp.toNat - 8) = s.x 1 := by
  have hstack := h.stack
  have hkept : ∀ y, s.sp.toNat - 16 ≤ y → y + 8 ≤ s.sp.toNat →
      (afterSave s).load64 y = (pushed s.mem s.sp.toNat (s.x 0) (s.x 1)).load64 y := by
    intro y hy hy'
    refine load64_of_eqOn_compl (storeWords_words_eqOn _ _ _ (by decide : saveSlots.Fits 240)) ?_
    refine h.stack_frame.mono ?_ ?_
    all_goals
      intro z hz
      simp only [Set.mem_Ico, pageSize] at hz ⊢
      omega
  rw [hkept _ le_rfl (by omega), hkept _ (by omega) (by omega)]
  exact load64_pushed _ h.stack _ _

/-- **`uservec`** stores the registers in the trap frame, slot after slot, and leaves the kernel
stack pointer where it was. -/
lemma run_uservec {s : Cpu} (h : TrapLayout s) :
    ∃ x, s.run uservec =
      { s with
        x := x
        mem := storeWords (pushed s.mem s.sp.toNat (s.x 0) (s.x 1))
          (trapSlots.words (trapFrame s).toNat s.x) } := by
  let x₁ := Function.update (afterGetFrame s) 3 (trapFrame s)
  let x₂ := Function.update (Function.update x₁ 0 (s.x 0)) 1 (s.x 1)
  have hfit := h.frame
  have hmov : ({ s with x := afterGetFrame s, sp := s.sp - 16, mem := afterSave s } : Cpu).run
      [.mov (.x 3) (.x 1)] = { s with x := x₁, sp := s.sp - 16, mem := afterSave s } := by
    simp [Cpu.exec, Cpu.write, Cpu.read, afterGetFrame, x₁]
  have hpop : ({ s with x := x₁, sp := s.sp - 16, mem := afterSave s } : Cpu).run popPair =
      { s with x := x₂, mem := afterSave s } := by
    rw [run_popPair rfl h.stack]
    simp only [afterSave_pushed h, x₂]
  have hread : x₂ 3 = trapFrame s := by simp [x₁, x₂]
  have hfirst : ({ s with x := x₂, mem := afterSave s } : Cpu).run (stores (.x 3) firstSlots) =
      { s with
        x := x₂
        mem := storeWords (pushed s.mem s.sp.toNat (s.x 0) (s.x 1))
          (trapSlots.words (trapFrame s).toNat s.x) } := by
    rw [run_stores _ (by decide : firstSlots.Fits 240)
      (by simp only [Cpu.read, hread, pageSize] at *; omega)]
    have hwords : firstSlots.words (trapFrame s).toNat x₂ =
        firstSlots.words (trapFrame s).toNat s.x := by
      simp [firstSlots, SaveArea.words, x₂]
    have happend : trapSlots.words (trapFrame s).toNat s.x =
        saveSlots.words (trapFrame s).toNat s.x ++ firstSlots.words (trapFrame s).toNat s.x :=
      List.map_append
    simp only [Cpu.read, hread, hwords]
    rw [happend, storeWords_append]
    rfl
  refine ⟨Function.update x₂ 0 (x₂ 8), ?_⟩
  rw [← s.run_split (by decide : uservec.all Instr.Separable), uservec_halves,
    ← List.append_assoc _ (stores _ _), ← List.append_assoc pushPair, Cpu.run_append,
    run_uservecSave h, Cpu.run_append, hmov, Cpu.run_append, hpop, Cpu.run_append, hfirst]
  rfl

/-! ### `userret` -/

/-- What `userret` needs of the machine it starts from: a trap frame page, apart from the kernel
stack it uses. -/
structure ReturnLayout (c : Cpu) : Prop where
  process : (c.sys .tpidrEl1).toNat + processSize ≤ 2 ^ 64
  frame : (trapFrame c).toNat + pageSize ≤ 2 ^ 64
  stack : 16 ≤ c.sp.toNat
  stack_frame : Disjoint (block (c.sp.toNat - 16) 16) (page (trapFrame c).toNat)

/-- The slot a register is given back from. -/
def restoredFrom (i : Fin 31) : ℕ := (slotOf (firstSlots ++ restoreSlots) i).getD 0

lemma restoredFrom_bounds (i : Fin 31) : 8 ∣ restoredFrom i ∧ restoredFrom i + 8 ≤ 240 := by
  revert i
  decide

/-- The registers once `userret` has loaded `x0` and `x1`. -/
def afterFirst (c : Cpu) : Fin 31 → BitVec 64 :=
  loadWords c.mem (trapFrame c).toNat firstSlots
    (Function.update (Function.update c.x 0 (c.sys .tpidrEl1)) 3 (trapFrame c))

/-- `userret` up to its store of `x0` and `x1` on the kernel stack. -/
lemma run_userretFirst {c : Cpu} (h : ReturnLayout c) :
    c.run ([.mrs 0 .tpidrEl1, .ldr 3 (.x 0) 112] ++ (loads (.x 3) firstSlots ++ pushPair)) =
      { c with
        x := afterFirst c
        sp := c.sp - 16
        mem := pushed c.mem c.sp.toNat (afterFirst c 0) (afterFirst c 1) } := by
  have hfit := h.frame
  rw [Cpu.run_append, run_getFrame h.process, Cpu.run_append,
    run_loads _ (by decide : firstSlots.Fits 240) (by decide)
      (by simp only [Cpu.read, Function.update_self, pageSize] at *; omega)]
  simp only [Cpu.read, Function.update_self]
  exact run_pushPair (s := { c with x := afterFirst c }) h.stack

/-- **`userret`** gives every register back from its slot of the trap frame and leaves the kernel
stack pointer where it was. -/
lemma run_userret {c : Cpu} (h : ReturnLayout c) :
    ∃ x v w, c.run userret = { c with x := x, mem := pushed c.mem c.sp.toNat v w } ∧
      ∀ i, x i = c.mem.load64 ((trapFrame c).toNat + restoredFrom i) := by
  have hfit := h.frame
  have hstack := h.stack
  let f := (trapFrame c).toNat
  let m := pushed c.mem c.sp.toNat (afterFirst c 0) (afterFirst c 1)
  let x₁ := Function.update (afterFirst c) 1 (trapFrame c)
  let x₂ := loadWords m f restoreSlots x₁
  have hmov : ({ c with x := afterFirst c, sp := c.sp - 16, mem := m } : Cpu).run
      [.mov (.x 1) (.x 3)] = { c with x := x₁, sp := c.sp - 16, mem := m } := rfl
  have hloads : ({ c with x := x₁, sp := c.sp - 16, mem := m } : Cpu).run
      (loads (.x 1) restoreSlots) = { c with x := x₂, sp := c.sp - 16, mem := m } := by
    rw [run_loads _ restoreSlots_fits (by decide)
      (by simp only [Cpu.read, x₁, Function.update_self, pageSize] at *; omega)]
    simp only [Cpu.read, x₁, Function.update_self]
    rfl
  refine ⟨Function.update (Function.update x₂ 0 (m.load64 (c.sp.toNat - 16))) 1
    (m.load64 (c.sp.toNat - 8)), afterFirst c 0, afterFirst c 1, ?_, fun i => ?_⟩
  · rw [← c.run_split (by decide : userret.all Instr.Separable), userret_halves,
      ← List.append_assoc _ pushPair, ← List.append_assoc _ (_ ++ pushPair), Cpu.run_append,
      run_userretFirst h, Cpu.run_append, hmov, Cpu.run_append, hloads, run_popPair rfl h.stack]
  · have hkept : ∀ off, off + 8 ≤ 240 → m.load64 (f + off) = c.mem.load64 (f + off) := by
      intro off hoff
      refine load64_of_eqOn_compl (pushed_eqOn _ h.stack _ _) (h.stack_frame.symm.mono_left ?_)
      intro z hz
      simp only [Set.mem_Ico, pageSize] at hz ⊢
      omega
    have hpushed : m.load64 (c.sp.toNat - 16) = afterFirst c 0 ∧
        m.load64 (c.sp.toNat - 8) = afterFirst c 1 :=
      load64_pushed _ h.stack _ _
    by_cases h0 : i = 0
    · subst h0
      rw [Function.update_of_ne (by decide), Function.update_self, hpushed.1]
      rfl
    by_cases h1 : i = 1
    · subst h1
      rw [Function.update_self, hpushed.2]
      rfl
    rw [Function.update_of_ne h1, Function.update_of_ne h0]
    have hslot : slotOf restoreSlots i = some (restoredFrom i) := by
      revert h0 h1
      revert i
      decide
    simp only [x₂, loadWords, hslot]
    exact hkept _ (restoredFrom_bounds i).2

/-! ### There and back -/

/-- The system call: `uservec`, the handler it branches to, and `userret`. -/
def trapRoundTrip (handleSyscall : Cpu → Cpu) (s : Cpu) : Cpu :=
  (handleSyscall (s.run uservec)).run userret

/-- A handler that keeps the current process, its trap frame and the page's bytes, and leaves
room on the kernel stack apart from that page. -/
structure KeepsTrapFrame (handleSyscall : Cpu → Cpu) (c : Cpu) : Prop where
  process : (handleSyscall c).sys .tpidrEl1 = c.sys .tpidrEl1
  frame : trapFrame (handleSyscall c) = trapFrame c
  bytes : Set.EqOn (handleSyscall c).mem c.mem (page (trapFrame c).toNat)
  stack : 16 ≤ (handleSyscall c).sp.toNat
  stack_frame :
    Disjoint (block ((handleSyscall c).sp.toNat - 16) 16) (page (trapFrame c).toNat)

/-- The system call gives back every register, moves the kernel stack pointer by what the handler
moves it, and writes only the trap frame page and the 16 bytes below the stack pointer. -/
structure TrapRestores (handleSyscall : Cpu → Cpu) (s : Cpu) : Prop where
  registers : ∀ i, (trapRoundTrip handleSyscall s).x i = s.x i
  spIn : (s.run uservec).sp = s.sp
  spOut : (trapRoundTrip handleSyscall s).sp = (handleSyscall (s.run uservec)).sp
  writesIn : Set.EqOn (s.run uservec).mem s.mem
    (page (trapFrame s).toNat ∪ block (s.sp.toNat - 16) 16)ᶜ
  writesOut : Set.EqOn (trapRoundTrip handleSyscall s).mem (handleSyscall (s.run uservec)).mem
    (block ((handleSyscall (s.run uservec)).sp.toNat - 16) 16)ᶜ

/-- The register whose value the system call gives back to a register. -/
def savedFrom (i : Fin 31) : Fin 31 := if i = 18 then 16 else if i = 19 then 17 else i

lemma slotSource_restoredFrom (i : Fin 31) :
    slotSource trapSlots (restoredFrom i) = some (savedFrom i) := by
  revert i
  decide

variable {handleSyscall : Cpu → Cpu} {s : Cpu}

/-- `uservec` leaves the current process's `trap_frame` field alone. -/
lemma trapFrame_run_uservec (h : TrapLayout s) : trapFrame (s.run uservec) = trapFrame s := by
  obtain ⟨x, hrun⟩ := run_uservec h
  have hfit := h.frame
  have hwrites := storeWords_words_eqOn (pushed s.mem s.sp.toNat (s.x 0) (s.x 1))
    (trapFrame s).toNat s.x trapSlots_fits
  rw [hrun]
  show load64 _ (trapFrameField s) = s.mem.load64 (trapFrameField s)
  rw [load64_of_eqOn_compl hwrites (h.frame_process.symm.mono_right ?_),
    load64_of_eqOn_compl (pushed_eqOn _ h.stack _ _) h.stack_process.symm]
  intro z hz
  simp only [Set.mem_Ico, pageSize] at hz ⊢
  omega

lemma KeepsTrapFrame.returnLayout (hk : KeepsTrapFrame handleSyscall (s.run uservec))
    (h : TrapLayout s) : ReturnLayout (handleSyscall (s.run uservec)) := by
  have hsys : (s.run uservec).sys = s.sys := by
    obtain ⟨x, hrun⟩ := run_uservec h
    rw [hrun]
  have hframe := hk.frame.trans (trapFrame_run_uservec h)
  refine ⟨?_, ?_, hk.stack, ?_⟩
  · rw [hk.process, hsys]
    exact h.process
  · rw [hframe]
    exact h.frame
  · rw [hk.frame]
    exact hk.stack_frame

/-- **The renaming**: after the system call register `i` holds what `savedFrom i` held. -/
lemma trapRoundTrip_x (h : TrapLayout s) (hk : KeepsTrapFrame handleSyscall (s.run uservec))
    (i : Fin 31) : (trapRoundTrip handleSyscall s).x i = s.x (savedFrom i) := by
  obtain ⟨x, hin⟩ := run_uservec h
  obtain ⟨x', v, w, hout, hx'⟩ := run_userret (hk.returnLayout h)
  have hbound := restoredFrom_bounds i
  have hframe := trapFrame_run_uservec h
  have hslot : Set.EqOn (handleSyscall (s.run uservec)).mem (s.run uservec).mem
      (block ((trapFrame s).toNat + restoredFrom i) 8) := by
    refine hk.bytes.mono fun z hz => ?_
    rw [hframe]
    simp only [Set.mem_Ico, pageSize] at hz ⊢
    omega
  calc (trapRoundTrip handleSyscall s).x i
      = (handleSyscall (s.run uservec)).mem.load64
          ((trapFrame (handleSyscall (s.run uservec))).toNat + restoredFrom i) := by
        rw [trapRoundTrip, hout]
        exact hx' i
    _ = (s.run uservec).mem.load64 ((trapFrame s).toNat + restoredFrom i) := by
        rw [hk.frame, hframe]
        exact load64_congr hslot
    _ = s.x (savedFrom i) := by
        rw [hin]
        show (storeWords _ _).load64 _ = _
        rw [load64_storeWords _ trapSlots_fits hbound.1, slotSource_restoredFrom]

/-- **The system call** gives every register back exactly when `x18` and `x19` held what `x16` and
`x17` did; the rest of what it should do it always does. -/
theorem trapRestores_iff (h : TrapLayout s)
    (hk : KeepsTrapFrame handleSyscall (s.run uservec)) :
    TrapRestores handleSyscall s ↔ s.x 18 = s.x 16 ∧ s.x 19 = s.x 17 := by
  constructor
  · intro hrest
    exact ⟨(hrest.registers 18).symm.trans (trapRoundTrip_x h hk 18),
      (hrest.registers 19).symm.trans (trapRoundTrip_x h hk 19)⟩
  · rintro ⟨h18, h19⟩
    obtain ⟨x, hin⟩ := run_uservec h
    obtain ⟨x', v, w, hout, -⟩ := run_userret (hk.returnLayout h)
    refine ⟨fun i => ?_, by rw [hin], by rw [trapRoundTrip, hout], ?_, ?_⟩
    · rw [trapRoundTrip_x h hk, savedFrom]
      split_ifs with hi18 hi19
      · rw [hi18, h18]
      · rw [hi19, h19]
      · rfl
    · rw [hin]
      refine Set.EqOn.trans ((storeWords_words_eqOn _ _ _ trapSlots_fits).mono fun z hz => ?_)
        ((pushed_eqOn _ h.stack _ _).mono fun z hz => ?_)
      · intro hz'
        refine hz (.inl ?_)
        simp only [Set.mem_Ico, pageSize] at hz' ⊢
        omega
      · exact fun hz' => hz (.inr hz')
    · rw [trapRoundTrip, hout]
      exact pushed_eqOn _ (hk.returnLayout h).stack _ _

/-! ### A system call -/

/-- A user at its system call, with the registers given: process at `0x1000`, trap frame at
`0x4000`, kernel stack up to `0x9000`. -/
def smallTrap (x : Fin 31 → BitVec 64) : Cpu where
  x := x
  sp := 0x9000
  sys := fun _ => 0x1000
  mem := store64 (fun _ => 0) 0x1070 0x4000

lemma smallTrap_layout (x : Fin 31 → BitVec 64) : TrapLayout (smallTrap x) := by
  have hfield : trapFrameField (smallTrap x) = 0x1070 := rfl
  have hframe : (trapFrame (smallTrap x)).toNat = 0x4000 :=
    congrArg BitVec.toNat load64_store64_self
  have hsp : (smallTrap x).sp.toNat = 0x9000 := rfl
  refine ⟨?_, ?_, ?_, ?_, ?_, ?_⟩
  · exact (by decide : (0x1000 : BitVec 64).toNat + processSize ≤ 2 ^ 64)
  · rw [hframe]
    norm_num [pageSize]
  · rw [hsp]
    norm_num
  · rw [hsp, hfield]
    exact block_disjoint (by norm_num)
  · rw [hsp, hframe]
    exact block_disjoint (by norm_num [pageSize])
  · rw [hframe, hfield]
    exact block_disjoint (by norm_num [pageSize])

/-- A handler that does nothing keeps the trap frame. -/
lemma keepsTrapFrame_id (x : Fin 31 → BitVec 64) :
    KeepsTrapFrame id ((smallTrap x).run uservec) := by
  have h := smallTrap_layout x
  have hframe := trapFrame_run_uservec h
  have hsp : ((smallTrap x).run uservec).sp = (smallTrap x).sp := by
    obtain ⟨x', hrun⟩ := run_uservec h
    rw [hrun]
  generalize (smallTrap x).run uservec = c at hframe hsp ⊢
  refine ⟨rfl, rfl, Set.eqOn_refl _ _, ?_, ?_⟩
  · rw [id, hsp]
    exact h.stack
  · rw [id, hsp, hframe]
    exact h.stack_frame

/-- A user whose registers hold different values loses `x18`. -/
theorem trapRestores_fails : ¬ TrapRestores id (smallTrap fun i => BitVec.ofNat 64 i) := by
  intro hrest
  have h18 := (hrest.registers 18).symm.trans
    (trapRoundTrip_x (smallTrap_layout _) (keepsTrapFrame_id _) 18)
  exact absurd h18 (by decide)

/-- A user whose registers hold different values but for `x18` and `x19`, which repeat `x16` and
`x17`, loses none. -/
theorem trapRestores_iff_small :
    TrapRestores id (smallTrap fun i => BitVec.ofNat 64 (savedFrom i)) :=
  (trapRestores_iff (smallTrap_layout _) (keepsTrapFrame_id _)).mpr ⟨rfl, rfl⟩

end SkinnyArm
