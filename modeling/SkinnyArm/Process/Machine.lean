import SkinnyArm.Context.Switch
import SkinnyArm.Kernel.Process

/-!
The process table in memory: `System.switchTo` is what the listing of `switch_to` does.

`InMachine` says that a machine holds the current process's registers and has the table at a given
address, as far as `switch_to` reads and writes it; `InMachine.run_switchTo` that the listing takes
a machine that holds a system to one that holds the system after `switchTo`.
-/

namespace SkinnyArm

open ByteMemory AArch64

/-- The fields of the save area by name; 0 for the others. -/
def Registers.field (r : Registers) : ProcessField → BitVec 64
  | .x19 => r.x19
  | .x20 => r.x20
  | .x21 => r.x21
  | .x22 => r.x22
  | .x23 => r.x23
  | .x24 => r.x24
  | .x25 => r.x25
  | .x26 => r.x26
  | .x27 => r.x27
  | .x28 => r.x28
  | .fp => r.fp
  | .lr => r.lr
  | .sp => r.sp
  | _ => 0

/-- `&process_array[i]`. -/
def slotAddr (base i : ℕ) : ℕ := base + processSize * i

/-- The machine holds the system, whose table is at an address. -/
structure InMachine {n : ℕ} (base : ℕ) (c : Cpu) (s : System n) : Prop where
  fits : base + processSize * n ≤ 2 ^ 64
  tpidr : (c.sys .tpidrEl1).toNat = slotAddr base s.current
  registers : ∀ f r, ProcessField.register f = some r → c.read r = s.registers.field f
  ttbr0 : c.sys .ttbr0El1 = s.ttbr0
  saved : ∀ i : Fin n, ∀ f, ProcessField.register f ≠ none →
    c.mem.load64 (slotAddr base i + f.offset) = (s.processArray i).registers.field f
  pagetable : ∀ i : Fin n,
    c.mem.load64 (slotAddr base i + ProcessField.pagetable.offset) = (s.processArray i).pagetable

/-- A slot is inside the table. -/
lemma slotAddr_fits {n base : ℕ} (h : base + processSize * n ≤ 2 ^ 64) (i : Fin n) :
    slotAddr base i + processSize ≤ 2 ^ 64 := by
  have hi := i.isLt
  simp only [slotAddr, processSize] at *
  omega

/-- Different slots do not overlap. -/
lemma slotAddr_apart {n : ℕ} (base : ℕ) {i j : Fin n} (h : i ≠ j) :
    slotAddr base i + processSize ≤ slotAddr base j ∨
      slotAddr base j + processSize ≤ slotAddr base i := by
  have hne : i.val ≠ j.val := fun he => h (Fin.ext he)
  simp only [slotAddr, processSize]
  omega

/-- A resumed register is the word of its field. -/
lemma resume_read_field (c : Cpu) (q : ℕ) {f : ProcessField} {r : Reg}
    (hr : f.register = some r) : (resume c q).read r = c.mem.load64 (q + f.offset) := by
  rcases slot_of_register f r hr with ⟨t, rfl, ht⟩ | ⟨rfl, hoff⟩
  · have hreg : t ∈ contextArea.map Prod.fst := List.mem_map_of_mem (f := Prod.fst) ht
    have hne : t ≠ 9 ∧ t ≠ 0 := by
      constructor
      all_goals
        rintro rfl
        revert hreg
        decide
    have hslot : ∀ e ∈ contextArea, e.2 = 8 * (e.1.val - 19) := by decide
    have hload : loadWords c.mem q contextArea c.x t = c.mem.load64 (q + 8 * (t.val - 19)) :=
      loadWords_of_mem (v := fun t => c.mem.load64 (q + 8 * (t.val - 19)))
        (fun e he => by rw [hslot e he]) hreg
    rw [show f.offset = 8 * (t.val - 19) from hslot _ ht, ← hload]
    simp only [resume, Cpu.read, Function.update_of_ne hne.1, Function.update_of_ne hne.2]
  · rw [hoff]
    rfl

namespace InMachine

variable {n base : ℕ} {c : Cpu} {s : System n}

/-- What `switch_to` stores of the table: the context of the slot left, and nothing else. -/
lemma load64_saveContext (h : InMachine base c s) (i : Fin n) {f : ProcessField}
    (hf : f.register ≠ none ∨ f = .pagetable) :
    (saveContext c.mem (slotAddr base s.current) c).load64 (slotAddr base i + f.offset) =
      if i = s.current ∧ f.register ≠ none then s.registers.field f
      else c.mem.load64 (slotAddr base i + f.offset) := by
  split
  case isTrue hcur =>
    obtain ⟨rfl, hreg⟩ := hcur
    obtain ⟨r, hr⟩ := Option.ne_none_iff_exists'.mp hreg
    rw [(holdsContext_saveContext _ _ _).field hr, h.registers f r hr]
  case isFalse hother =>
    refine load64_congr ((saveContext_eqOn _ _ _).mono fun y hy => ?_)
    have hfield := ProcessField.offset_bounds f
    rcases eq_or_ne i s.current with rfl | hi
    · have hreg : f.register = none := by simpa using hother
      have hpast := hfield.2.1 hreg
      simp only [Set.mem_compl_iff, Set.mem_Ico, saveAreaSize] at *
      omega
    · have hapart := slotAddr_apart base hi
      have hsize : f.offset + 8 ≤ processSize := by
        rcases hf with hreg | rfl
        · have hin := hfield.2.2 hreg
          simp only [saveAreaSize, processSize] at *
          omega
        · decide
      simp only [Set.mem_compl_iff, Set.mem_Ico, saveAreaSize, processSize] at *
      omega

/-- **The listing** does what `System.switchTo` does. -/
theorem run_switchTo (h : InMachine base c s) {next : Fin n}
    (hprev : (c.x 0).toNat = slotAddr base s.current) (hnext : (c.x 1).toNat = slotAddr base next) :
    InMachine base (c.run switchTo) (s.switchTo s.current next) := by
  have hrun := SkinnyArm.run_switchTo (s := c) (by rw [hprev]; exact slotAddr_fits h.fits _)
    (by rw [hnext]; exact slotAddr_fits h.fits _)
  rw [hprev, hnext] at hrun
  rw [hrun]
  have hsaved : ∀ i : Fin n, ∀ f, ProcessField.register f ≠ none →
      (saveContext c.mem (slotAddr base s.current) c).load64 (slotAddr base i + f.offset) =
        ((s.switchTo s.current next).processArray i).registers.field f := by
    intro i f hf
    rw [h.load64_saveContext i (.inl hf)]
    rcases eq_or_ne i s.current with rfl | hi
    · simp [hf, System.switchTo, System.setProcess]
    · simp [hi, h.saved i f hf, System.switchTo, System.setProcess]
  have hpagetable : ∀ i : Fin n,
      (saveContext c.mem (slotAddr base s.current) c).load64
          (slotAddr base i + ProcessField.pagetable.offset) =
        ((s.switchTo s.current next).processArray i).pagetable := by
    intro i
    rw [h.load64_saveContext i (.inr rfl)]
    rcases eq_or_ne i s.current with rfl | hi
    · simp [ProcessField.register, h.pagetable, System.switchTo, System.setProcess]
    · simp [hi, h.pagetable, System.switchTo, System.setProcess]
  constructor
  case fits => exact h.fits
  case tpidr => simpa [resume, System.switchTo] using hnext
  case registers =>
    intro f r hr
    rw [resume_read_field _ _ hr]
    exact hsaved next f (by simp [hr])
  case ttbr0 =>
    have hne : SysReg.ttbr0El1 ≠ .tpidrEl1 := by decide
    simp only [resume, Function.update_of_ne hne, Function.update_self]
    exact hpagetable next
  case saved => exact hsaved
  case pagetable => exact hpagetable

end InMachine

end SkinnyArm
