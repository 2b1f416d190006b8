import SkinnyArm.Kernel.ExceptionVector
import SkinnyArm.Library.Transition

/-!
Interrupts taken on top of each other on one kernel stack.

* **The two macros.** `run_kernelEntry` and `run_kernelExit` are the listings in closed form: the
  first writes `x0` to `x30` into the 256 bytes below `sp` by `frameArea`, the second fills them
  from there.
* **Runs.** A `Nest` is the machine with the interrupts it is inside of.  `NestStep` enters an
  interrupt anywhere, leaves the innermost one where its handler has restored `sp`, and in between
  lets the innermost handler change every register and write below its own `sp`.
* `interrupt_restores`: all over a run the frame of every level is as `kernel_entry` left it, so
  that leaving a level gives back the registers it was entered with.
-/

namespace SkinnyArm

open ByteMemory AArch64

namespace ExceptionVector

/-! ### The two macros -/

/-- The slots of a frame. -/
def frameArea : SaveArea :=
  [(0, 0), (1, 8), (2, 16), (3, 24), (4, 32), (5, 40), (6, 48), (7, 56), (8, 64), (9, 72),
    (10, 80), (11, 88), (12, 96), (13, 104), (14, 112), (15, 120), (16, 128), (17, 136),
    (18, 144), (19, 152), (20, 160), (21, 168), (22, 176), (23, 184), (24, 192), (25, 200),
    (26, 208), (27, 216), (28, 224), (29, 232), (30, 240)]

lemma frameArea_fits : frameArea.Fits 256 := by decide

/-- Every register has a slot. -/
lemma mem_frameArea : ∀ t : Fin 31, t ∈ frameArea.map Prod.fst := by decide

lemma kernelEntry_halves :
    kernelEntry.flatMap Instr.halves = .sub .sp .sp 256 :: stores .sp frameArea := rfl

lemma kernelExit_halves :
    kernelExit.flatMap Instr.halves = loads .sp frameArea ++ [.add .sp .sp 256] := rfl

variable {s c : Cpu}

/-- Where the frame of an interrupt taken in a state begins. -/
def frameBase (s : Cpu) : ℕ := s.sp.toNat - 256

lemma frameBase_add (hroom : 256 ≤ s.sp.toNat) : frameBase s + 256 = s.sp.toNat :=
  Nat.sub_add_cancel hroom

lemma frameBase_add_le (hroom : 256 ≤ s.sp.toNat) : frameBase s + 256 ≤ 2 ^ 64 :=
  (frameBase_add hroom).trans_le s.sp.isLt.le

lemma toNat_sub_frame (hroom : 256 ≤ s.sp.toNat) : (s.sp - 256).toNat = frameBase s := by
  have hle : (256 : BitVec 64) ≤ s.sp := hroom
  exact BitVec.toNat_sub_of_le hle

/-- `kernel_entry` saves all registers in a frame below `sp`. -/
lemma run_kernelEntry (hroom : 256 ≤ s.sp.toNat) :
    s.run kernelEntry =
      { s with
        sp := s.sp - 256
        mem := storeWords s.mem (frameArea.words (frameBase s) s.x) } := by
  have hbase : (({ s with sp := s.sp - 256 } : Cpu).read .sp).toNat = frameBase s :=
    toNat_sub_frame hroom
  have hsub : s.exec (.sub .sp .sp 256) = { s with sp := s.sp - 256 } := rfl
  have hfits := hbase ▸ frameBase_add_le hroom
  rw [← s.run_split (by decide : kernelEntry.all Instr.Separable), kernelEntry_halves,
    Cpu.run_cons, hsub, run_stores _ frameArea_fits hfits, hbase]

/-- `kernel_exit` fills the registers from the frame at `sp`. -/
lemma run_kernelExit (hroom : 256 ≤ s.sp.toNat) (hsp : c.sp = s.sp - 256) :
    c.run kernelExit =
      { c with x := loadWords c.mem (frameBase s) frameArea c.x, sp := s.sp } := by
  have hbase : (c.read .sp).toNat = frameBase s := by
    rw [Cpu.read, hsp, toNat_sub_frame hroom]
  have hfits := hbase ▸ frameBase_add_le hroom
  rw [← c.run_split (by decide : kernelExit.all Instr.Separable), kernelExit_halves,
    Cpu.run_append, run_loads c frameArea_fits (by simp) hfits, hbase]
  simp only [Cpu.run_cons, Cpu.run_nil, Cpu.exec, Cpu.write, Cpu.read, hsp]
  congr 1
  exact BitVec.sub_add_cancel s.sp 256

/-- What is at or above `sp` is not written. -/
lemma kernelEntry_eqOn (hroom : 256 ≤ s.sp.toNat) :
    Set.EqOn (s.run kernelEntry).mem s.mem (Set.Ici s.sp.toNat) := by
  have hbase := frameBase_add hroom
  simp only [run_kernelEntry hroom]
  refine (storeWords_words_eqOn s.mem (frameBase s) s.x frameArea_fits).mono fun y hy => ?_
  simp only [Set.mem_Ici, Set.mem_compl_iff, Set.mem_Ico] at hy ⊢
  omega

/-- **Leaving** an interrupt whose frame is as it was gives back every register. -/
lemma run_kernelExit_read (hroom : 256 ≤ s.sp.toNat) (hsp : c.sp = (s.run kernelEntry).sp)
    (hframe : Set.EqOn c.mem (s.run kernelEntry).mem (block (frameBase s) 256)) (r : Reg) :
    (c.run kernelExit).read r = s.read r := by
  rw [run_kernelEntry hroom] at hsp hframe
  rw [run_kernelExit hroom hsp]
  cases r with
  | sp => rfl
  | x t =>
      refine loadWords_of_mem (fun e he => ?_) (mem_frameArea t)
      have hfit := frameArea_fits e he
      have hword : Set.EqOn c.mem (storeWords s.mem (frameArea.words (frameBase s) s.x))
          (block (frameBase s + e.2) 8) := hframe.mono fun y hy => by
        simp only [Set.mem_Ico] at hy ⊢
        omega
      rw [load64_congr hword]
      exact load64_storeWords_of_mem s.mem frameArea_fits (by decide) he

/-! ### Runs -/

/-- The machine, and the machine as it was at every interrupt it is inside of, the innermost
first. -/
structure Nest where
  cpu : Cpu
  levels : List Cpu

/-- The steps of a run.  The program that is interrupted first does anything; a handler changes
any register and writes below the `sp` it was called with. -/
inductive NestStep : Nest → Nest → Prop
  | program {w : Nest} {c : Cpu} (hlevels : w.levels = []) : NestStep w { w with cpu := c }
  | handler {w : Nest} {s c : Cpu} {rest : List Cpu} (hlevels : w.levels = s :: rest)
      (hsp : c.sp.toNat ≤ (s.run kernelEntry).sp.toNat)
      (hmem : Set.EqOn c.mem w.cpu.mem (Set.Ici (s.run kernelEntry).sp.toNat)) :
      NestStep w { w with cpu := c }
  | enter {w : Nest} (hroom : 256 ≤ w.cpu.sp.toNat) :
      NestStep w ⟨w.cpu.run kernelEntry, w.cpu :: w.levels⟩
  | leave {w : Nest} {s : Cpu} {rest : List Cpu} (hlevels : w.levels = s :: rest)
      (hsp : w.cpu.sp = (s.run kernelEntry).sp) : NestStep w ⟨w.cpu.run kernelExit, rest⟩

/-- A level there is room for, whose frame and what is above it are as `kernel_entry` left them,
and which the machine is below of. -/
structure Intact (c s : Cpu) : Prop where
  room : 256 ≤ s.sp.toNat
  below : c.sp.toNat ≤ frameBase s
  mem : Set.EqOn c.mem (s.run kernelEntry).mem (Set.Ici (frameBase s))

/-- Every level is intact, and lies below the ones outside it. -/
structure NestInv (w : Nest) : Prop where
  intact : ∀ s ∈ w.levels, Intact w.cpu s
  nested : w.levels.Pairwise fun s t => s.sp.toNat ≤ frameBase t

lemma Intact.sp_entry {c s : Cpu} (h : Intact c s) :
    (s.run kernelEntry).sp.toNat = frameBase s := by
  rw [run_kernelEntry h.room]
  exact toNat_sub_frame h.room

namespace NestInv

variable {w w' : Nest} {s c : Cpu} {rest : List Cpu}

/-- The frames of the levels outside lie above the one of a level. -/
lemma base_le (h : NestInv w) (hlevels : w.levels = s :: rest) {t : Cpu} (ht : t ∈ w.levels) :
    frameBase s ≤ frameBase t := by
  have hnested := h.nested
  rw [hlevels, List.pairwise_cons] at hnested
  rw [hlevels] at ht
  rcases List.mem_cons.mp ht with rfl | hrest
  · exact le_rfl
  · calc frameBase s ≤ s.sp.toNat := Nat.sub_le _ _
      _ ≤ frameBase t := hnested.1 t hrest

/-- The innermost handler reaches no frame. -/
lemma handler (h : NestInv w) (hlevels : w.levels = s :: rest)
    (hsp : c.sp.toNat ≤ (s.run kernelEntry).sp.toNat)
    (hmem : Set.EqOn c.mem w.cpu.mem (Set.Ici (s.run kernelEntry).sp.toNat)) :
    NestInv { w with cpu := c } where
  intact t ht := by
    have hself := h.intact s (hlevels ▸ List.mem_cons_self)
    have hold := h.intact t ht
    have hle := h.base_le hlevels ht
    rw [hself.sp_entry] at hsp hmem
    exact ⟨hold.room, hsp.trans hle, (hmem.mono (Set.Ici_subset_Ici.mpr hle)).trans hold.mem⟩
  nested := h.nested

/-- A new frame lies below all others. -/
lemma enter (h : NestInv w) (hroom : 256 ≤ w.cpu.sp.toNat) :
    NestInv ⟨w.cpu.run kernelEntry, w.cpu :: w.levels⟩ := by
  have hsp : (w.cpu.run kernelEntry).sp.toNat = frameBase w.cpu := by
    rw [run_kernelEntry hroom]
    exact toNat_sub_frame hroom
  refine ⟨fun t ht => ?_, List.pairwise_cons.mpr ⟨fun t ht => (h.intact t ht).below, h.nested⟩⟩
  rcases List.mem_cons.mp ht with rfl | hold
  · exact ⟨hroom, hsp.le, Set.eqOn_refl _ _⟩
  · have hintact := h.intact t hold
    have hle : frameBase w.cpu ≤ w.cpu.sp.toNat := Nat.sub_le _ _
    have hmem := (kernelEntry_eqOn hroom).mono (Set.Ici_subset_Ici.mpr hintact.below)
    exact ⟨hintact.room, by rw [hsp]; exact hle.trans hintact.below, hmem.trans hintact.mem⟩

/-- Leaving a level writes nothing, and puts `sp` back below the levels outside. -/
lemma leave (h : NestInv w) (hlevels : w.levels = s :: rest)
    (hsp : w.cpu.sp = (s.run kernelEntry).sp) : NestInv ⟨w.cpu.run kernelExit, rest⟩ := by
  have hroom := (h.intact s (hlevels ▸ List.mem_cons_self)).room
  have hnested := h.nested
  rw [hlevels, List.pairwise_cons] at hnested
  rw [run_kernelEntry hroom] at hsp
  rw [run_kernelExit hroom hsp]
  refine ⟨fun t ht => ?_, hnested.2⟩
  have hintact := h.intact t (hlevels ▸ List.mem_cons_of_mem s ht)
  exact ⟨hintact.room, hnested.1 t ht, hintact.mem⟩

/-- **Every step** keeps the frames. -/
lemma step (h : NestInv w) (hstep : NestStep w w') : NestInv w' := by
  cases hstep with
  | program hlevels =>
      exact ⟨fun t ht => by simp [hlevels] at ht, h.nested⟩
  | handler hlevels hsp hmem => exact h.handler hlevels hsp hmem
  | enter hroom => exact h.enter hroom
  | leave hlevels hsp => exact h.leave hlevels hsp

end NestInv

/-- **Nested interrupts**, from a state outside of any: all over a run the frame of every level is
as `kernel_entry` left it, and where the innermost handler has restored `sp`, `kernel_exit` gives
back `x0` to `x30` and `sp` as they were when the interrupt was taken. -/
theorem interrupt_restores {w₀ w : Nest} (hstart : w₀.levels = []) (hrun : Run NestStep w₀ w) :
    (∀ s ∈ w.levels,
      Set.EqOn w.cpu.mem (s.run kernelEntry).mem (block (frameBase s) 256)) ∧
      ∀ s rest, w.levels = s :: rest → w.cpu.sp = (s.run kernelEntry).sp →
        ∀ r, (w.cpu.run kernelExit).read r = s.read r := by
  have hinit : NestInv w₀ :=
    ⟨fun t ht => by simp [hstart] at ht, hstart ▸ List.Pairwise.nil⟩
  have h : NestInv w := hrun.invariant (fun h hstep => h.step hstep) hinit
  have hframe : ∀ s ∈ w.levels,
      Set.EqOn w.cpu.mem (s.run kernelEntry).mem (block (frameBase s) 256) := fun s hs =>
    (h.intact s hs).mem.mono fun y hy => hy.1
  refine ⟨hframe, fun s rest hlevels hsp r => ?_⟩
  have hs : s ∈ w.levels := hlevels ▸ List.mem_cons_self
  exact run_kernelExit_read (h.intact s hs).room hsp (hframe s hs) r

/-- A machine with a different word in every register. -/
def numberedCpu : Cpu where
  x := fun t => BitVec.ofNat 64 t
  sp := 0x2000
  sys := fun _ => 0
  mem := fun _ => 0

/-- A handler that has put a word in every register and pushed it. -/
def scribbled (c : Cpu) (v : BitVec 64) : Cpu :=
  { c with x := fun _ => v, sp := c.sp - 16, mem := c.mem.store64 (c.sp.toNat - 16) v }

/-- A handler that takes back what it pushed. -/
def popped (c : Cpu) : Cpu := { c with sp := c.sp + 16 }

/-- The innermost handler changes every register and writes below its `sp`. -/
lemma step_scribbled {w : Nest} {rest : List Cpu} (hlevels : w.levels = s :: rest)
    (hsp : w.cpu.sp = (s.run kernelEntry).sp) (hroom : 16 ≤ w.cpu.sp.toNat) (v : BitVec 64) :
    NestStep w { w with cpu := scribbled w.cpu v } := by
  have hle : (16 : BitVec 64) ≤ w.cpu.sp := hroom
  have hsub : (w.cpu.sp - 16).toNat = w.cpu.sp.toNat - 16 := BitVec.toNat_sub_of_le hle
  refine .handler hlevels ?_ ?_
  · show (w.cpu.sp - 16).toNat ≤ _
    rw [hsub, hsp]
    exact Nat.sub_le _ _
  · rw [← hsp]
    refine store64_eqOn.mono fun y hy => ?_
    simp only [Set.mem_Ici, Set.mem_compl_iff, Set.mem_Ico] at hy ⊢
    omega

/-- It gives the room back. -/
lemma step_popped {w : Nest} {rest : List Cpu} (hlevels : w.levels = s :: rest)
    (hsp : w.cpu.sp + 16 = (s.run kernelEntry).sp) :
    NestStep w { w with cpu := popped w.cpu } :=
  .handler hlevels (congrArg BitVec.toNat hsp).le (Set.eqOn_refl _ _)

/-- The first interrupt's handler, at work when the second one is taken. -/
def outerHandler : Cpu := scribbled (numberedCpu.run kernelEntry) 7

/-- The second one's. -/
def innerHandler : Cpu := scribbled (outerHandler.run kernelEntry) 9

/-- The first one's, when the second one is over. -/
def outerResumed : Cpu := (popped innerHandler).run kernelExit

lemma numberedCpu_room : 256 ≤ numberedCpu.sp.toNat := by decide

lemma outerHandler_sp : outerHandler.sp = 0x1EF0 := by
  rw [outerHandler, run_kernelEntry numberedCpu_room]
  decide

lemma innerHandler_sp : innerHandler.sp = 0x1DE0 := by
  rw [innerHandler, scribbled, run_kernelEntry (by rw [outerHandler_sp]; decide),
    outerHandler_sp]
  decide

lemma outerResumed_sp : outerResumed.sp = 0x1EF0 := by
  have hroom : 256 ≤ outerHandler.sp.toNat := by
    rw [outerHandler_sp]
    decide
  have hsp : (popped innerHandler).sp = outerHandler.sp - 256 := by
    rw [popped, innerHandler_sp, outerHandler_sp]
    decide
  rw [outerResumed, run_kernelExit hroom hsp]
  exact outerHandler_sp

/-- An interrupt is taken, and another one while it is handled; both handlers overwrite all
registers and push. -/
lemma run_numberedCpu :
    Run NestStep ⟨numberedCpu, []⟩ ⟨popped outerResumed, [numberedCpu]⟩ := by
  have hentry : (numberedCpu.run kernelEntry).sp = 0x1F00 := by
    rw [run_kernelEntry numberedCpu_room]
    decide
  have hroom : 256 ≤ outerHandler.sp.toNat := by
    rw [outerHandler_sp]
    decide
  have hinner : (outerHandler.run kernelEntry).sp = 0x1DF0 := by
    rw [run_kernelEntry hroom, outerHandler_sp]
    decide
  have hpush : 16 ≤ (numberedCpu.run kernelEntry).sp.toNat := by
    rw [hentry]
    decide
  have hpush' : 16 ≤ (outerHandler.run kernelEntry).sp.toNat := by
    rw [hinner]
    decide
  have hback : innerHandler.sp + 16 = (outerHandler.run kernelEntry).sp := by
    rw [innerHandler_sp, hinner]
    decide
  have hback' : outerResumed.sp + 16 = (numberedCpu.run kernelEntry).sp := by
    rw [outerResumed_sp, hentry]
    decide
  have houter : NestStep ⟨numberedCpu.run kernelEntry, [numberedCpu]⟩
      ⟨outerHandler, [numberedCpu]⟩ :=
    step_scribbled (w := ⟨numberedCpu.run kernelEntry, [numberedCpu]⟩) rfl rfl hpush 7
  have hscribbled : NestStep ⟨outerHandler.run kernelEntry, [outerHandler, numberedCpu]⟩
      ⟨innerHandler, [outerHandler, numberedCpu]⟩ :=
    step_scribbled (w := ⟨_, [outerHandler, numberedCpu]⟩) rfl rfl hpush' 9
  have hpopped : NestStep ⟨innerHandler, [outerHandler, numberedCpu]⟩
      ⟨popped innerHandler, [outerHandler, numberedCpu]⟩ :=
    step_popped (w := ⟨innerHandler, [outerHandler, numberedCpu]⟩) rfl hback
  have hleft : NestStep ⟨popped innerHandler, [outerHandler, numberedCpu]⟩
      ⟨outerResumed, [numberedCpu]⟩ :=
    .leave (w := ⟨popped innerHandler, [outerHandler, numberedCpu]⟩) rfl hback
  have hresumed : NestStep ⟨outerResumed, [numberedCpu]⟩ ⟨popped outerResumed, [numberedCpu]⟩ :=
    step_popped (w := ⟨outerResumed, [numberedCpu]⟩) rfl hback'
  have henter : Run NestStep ⟨numberedCpu, []⟩ ⟨numberedCpu.run kernelEntry, [numberedCpu]⟩ :=
    .single (.enter (w := ⟨numberedCpu, []⟩) numberedCpu_room)
  have hnested : Run NestStep ⟨numberedCpu, []⟩
      ⟨outerHandler.run kernelEntry, [outerHandler, numberedCpu]⟩ :=
    (henter.tail houter).tail (.enter (w := ⟨outerHandler, [numberedCpu]⟩) hroom)
  exact (((hnested.tail hscribbled).tail hpopped).tail hleft).tail hresumed

/-- The outer interrupt gives back the registers of the program. -/
theorem interrupt_restores_numbered :
    ((popped outerResumed).run kernelExit).read = numberedCpu.read := by
  have hsp : (popped outerResumed).sp = (numberedCpu.run kernelEntry).sp := by
    rw [popped, outerResumed_sp, run_kernelEntry numberedCpu_room]
    decide
  exact funext ((interrupt_restores rfl run_numberedCpu).2 _ _ rfl hsp)

end ExceptionVector

end SkinnyArm
