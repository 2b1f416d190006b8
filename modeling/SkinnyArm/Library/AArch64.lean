import SkinnyArm.Library.ByteMemory

/-!
Straight-line AArch64 code: the load, store, move and system-register instructions.

* **The machine.** `Cpu` is the register file with the stack pointer, the system registers and a
  byte memory; `exec` runs one instruction and `run` a listing.  The branch that ends a listing
  (`b`, `ret`, `eret`) changes none of these and is where the listing ends.
* **Save areas.** A run of stores off one base writes a list of words (`run_stores`), of which
  the last one written to a slot stays (`load64_storeWords`); a run of loads off one base fills
  a list of registers (`run_loads`), the last load of a register counts.  So saving with one list
  and restoring with another is a renaming of registers, computed from the two lists by
  `slotSource` and `slotOf`.
* `run_split`: a pair instruction is its two halves in turn.
-/

namespace AArch64

open ByteMemory

/-- Register numbers are numerals. -/
instance neZero_registers : NeZero 31 := ⟨by decide⟩

/-- The system registers. -/
inductive SysReg where
  | ttbr0El1 | tpidrEl1
  deriving DecidableEq

/-- A general register or the stack pointer. -/
inductive Reg where
  | x (i : Fin 31)
  | sp
  deriving DecidableEq

/-- The instructions, operands in the order of the assembler.  Offsets and immediates are
unsigned. -/
inductive Instr where
  | stp (t u : Fin 31) (n : Reg) (off : ℕ)
  | ldp (t u : Fin 31) (n : Reg) (off : ℕ)
  | str (t : Fin 31) (n : Reg) (off : ℕ)
  | ldr (t : Fin 31) (n : Reg) (off : ℕ)
  | mov (d n : Reg)
  | add (d n : Reg) (imm : ℕ)
  | sub (d n : Reg) (imm : ℕ)
  | mrs (t : Fin 31) (r : SysReg)
  | msr (r : SysReg) (t : Fin 31)
  | tlbi
  deriving DecidableEq

/-- The part of the machine the instructions read and write. -/
structure Cpu where
  x : Fin 31 → BitVec 64
  sp : BitVec 64
  sys : SysReg → BitVec 64
  mem : ByteMemory

namespace Cpu

variable (s : Cpu)

/-- The value of a register. -/
def read : Reg → BitVec 64
  | .x i => s.x i
  | .sp => s.sp

/-- The machine with a register replaced. -/
def write (v : BitVec 64) : Reg → Cpu
  | .x i => { s with x := Function.update s.x i v }
  | .sp => { s with sp := v }

/-- The address `off` bytes past a register, which wraps. -/
def addr (n : Reg) (off : ℕ) : ℕ := (s.read n + BitVec.ofNat 64 off).toNat

/-- One instruction.  A pair of loads reads both words before it writes a register. -/
def exec : Instr → Cpu
  | .stp t u n off =>
      { s with mem := (s.mem.store64 (s.addr n off) (s.x t)).store64 (s.addr n (off + 8)) (s.x u) }
  | .ldp t u n off =>
      (s.write (s.mem.load64 (s.addr n off)) (.x t)).write
        (s.mem.load64 (s.addr n (off + 8))) (.x u)
  | .str t n off => { s with mem := s.mem.store64 (s.addr n off) (s.x t) }
  | .ldr t n off => s.write (s.mem.load64 (s.addr n off)) (.x t)
  | .mov d n => s.write (s.read n) d
  | .add d n imm => s.write (s.read n + BitVec.ofNat 64 imm) d
  | .sub d n imm => s.write (s.read n - BitVec.ofNat 64 imm) d
  | .mrs t r => s.write (s.sys r) (.x t)
  | .msr r t => { s with sys := Function.update s.sys r (s.x t) }
  | .tlbi => s

/-- A listing, run from its first instruction to its end. -/
def run (p : List Instr) : Cpu := p.foldl exec s

@[simp] lemma run_nil : s.run [] = s := rfl

@[simp] lemma run_cons (i : Instr) (p : List Instr) : s.run (i :: p) = (s.exec i).run p := rfl

lemma run_append (p q : List Instr) : s.run (p ++ q) = (s.run p).run q :=
  List.foldl_append

/-- An address off a register that stays clear of the top of the address space. -/
lemma addr_eq {n : Reg} {off : ℕ} (h : (s.read n).toNat + off < 2 ^ 64) :
    s.addr n off = (s.read n).toNat + off := by
  rw [addr, BitVec.toNat_add, BitVec.toNat_ofNat, Nat.mod_eq_of_lt (by omega : off < 2 ^ 64),
    Nat.mod_eq_of_lt h]

end Cpu

/-! ### Pairs -/

/-- The two halves of a pair instruction. -/
def Instr.halves : Instr → List Instr
  | .stp t u n off => [.str t n off, .str u n (off + 8)]
  | .ldp t u n off => [.ldr t n off, .ldr u n (off + 8)]
  | i => [i]

/-- The first half leaves the base alone. -/
def Instr.Separable : Instr → Bool
  | .ldp t _ n _ => n ≠ .x t
  | _ => true

lemma Cpu.run_halves (s : Cpu) {i : Instr} (h : i.Separable) : s.run i.halves = s.exec i := by
  cases i with
  | ldp t u n off =>
      have hn : (s.write (s.mem.load64 (s.addr n off)) (.x t)).read n = s.read n := by
        cases n with
        | sp => rfl
        | x j =>
            have hne : j ≠ t := by simpa [Instr.Separable] using h
            simp [Cpu.write, Cpu.read, hne]
      have haddr : (s.write (s.mem.load64 (s.addr n off)) (.x t)).addr n (off + 8) =
          s.addr n (off + 8) := by
        rw [Cpu.addr, hn, Cpu.addr]
      show (s.exec (.ldr t n off)).exec (.ldr u n (off + 8)) = _
      simp only [Cpu.exec, haddr]
      rfl
  | _ => rfl

/-- A listing may be read with its pair instructions split. -/
lemma Cpu.run_split (s : Cpu) {p : List Instr} (h : p.all Instr.Separable) :
    s.run (p.flatMap Instr.halves) = s.run p := by
  induction p generalizing s with
  | nil => rfl
  | cons i p ih =>
      simp only [List.all_cons, Bool.and_eq_true] at h
      rw [List.flatMap_cons, Cpu.run_append, s.run_halves h.1, Cpu.run_cons, ih _ h.2]

/-! ### Words stored one after the other -/

/-- The memory after a list of words is stored in turn. -/
def storeWords (m : ByteMemory) (l : List (ℕ × BitVec 64)) : ByteMemory :=
  l.foldl (fun m e => m.store64 e.1 e.2) m

/-- A list of stores leaves every byte outside its words alone. -/
lemma storeWords_apply_of_notMem {m : ByteMemory} {l : List (ℕ × BitVec 64)} {y : ℕ}
    (h : ∀ e ∈ l, y ∉ block e.1 8) : storeWords m l y = m y := by
  induction l generalizing m with
  | nil => rfl
  | cons e l ih =>
      calc storeWords (m.store64 e.1 e.2) l y
          = m.store64 e.1 e.2 y := ih fun e' he' => h e' (List.mem_cons_of_mem e he')
        _ = m y := store64_eqOn (h e List.mem_cons_self)

/-- The slots of a save area: which register goes to which offset. -/
abbrev SaveArea := List (Fin 31 × ℕ)

/-- The register that the area keeps at an offset: the last one stored there. -/
def slotSource (l : SaveArea) (off : ℕ) : Option (Fin 31) :=
  (l.reverse.find? (fun e => e.2 = off)).map Prod.fst

/-- The offset a register is filled from: that of its last load. -/
def slotOf (l : SaveArea) (t : Fin 31) : Option ℕ :=
  (l.reverse.find? (fun e => e.1 = t)).map Prod.snd

/-- Every slot is a word of an area of the given size. -/
def SaveArea.Fits (l : SaveArea) (size : ℕ) : Prop := ∀ e ∈ l, 8 ∣ e.2 ∧ e.2 + 8 ≤ size

instance (l : SaveArea) (size : ℕ) : Decidable (l.Fits size) := by
  unfold SaveArea.Fits
  infer_instance

/-- The words a save area writes at a base. -/
def SaveArea.words (l : SaveArea) (base : ℕ) (x : Fin 31 → BitVec 64) : List (ℕ × BitVec 64) :=
  l.map fun e => (base + e.2, x e.1)

lemma SaveArea.words_congr {l : SaveArea} {base : ℕ} {x x' : Fin 31 → BitVec 64}
    (h : ∀ e ∈ l, x e.1 = x' e.1) : l.words base x = l.words base x' :=
  List.map_congr_left fun e he => by rw [h e he]

lemma storeWords_append (m : ByteMemory) (l l' : List (ℕ × BitVec 64)) :
    storeWords m (l ++ l') = storeWords (storeWords m l) l' :=
  List.foldl_append

/-- **Saving**: each slot of the area holds the last register stored there, and a slot that no
store names is as before. -/
lemma load64_storeWords {l : SaveArea} {size base off : ℕ} {x : Fin 31 → BitVec 64}
    (m : ByteMemory) (hl : l.Fits size) (hoff : 8 ∣ off) :
    (storeWords m (l.words base x)).load64 (base + off) =
      match slotSource l off with
      | some t => x t
      | none => m.load64 (base + off) := by
  induction l using List.reverseRecOn with
  | nil => rfl
  | append_singleton l e ih =>
      have hl' : SaveArea.Fits l size := fun e' he' => hl e' (List.mem_append_left _ he')
      have he := hl e (by simp)
      have hstep : storeWords m (SaveArea.words (l ++ [e]) base x) =
          (storeWords m (SaveArea.words l base x)).store64 (base + e.2) (x e.1) := by
        simp [storeWords, SaveArea.words, List.foldl_append]
      rw [hstep]
      by_cases heq : e.2 = off
      · rw [heq, load64_store64_self]
        simp [slotSource, heq]
      · rw [load64_store64_of_disjoint (by omega), ih hl']
        simp [slotSource, heq]

/-- An area whose slots are all different holds the registers saved there. -/
lemma load64_storeWords_of_mem {l : SaveArea} {size base : ℕ} {x : Fin 31 → BitVec 64}
    (m : ByteMemory) (hl : l.Fits size) (hself : ∀ e ∈ l, slotSource l e.2 = some e.1)
    {e : Fin 31 × ℕ} (he : e ∈ l) :
    (storeWords m (l.words base x)).load64 (base + e.2) = x e.1 := by
  rw [load64_storeWords m hl (hl e he).1, hself e he]

/-- Saving writes inside the area only. -/
lemma storeWords_words_eqOn {l : SaveArea} {size : ℕ} (m : ByteMemory) (base : ℕ)
    (x : Fin 31 → BitVec 64) (hl : l.Fits size) :
    Set.EqOn (storeWords m (l.words base x)) m (block base size)ᶜ := by
  intro y hy
  refine storeWords_apply_of_notMem fun e' he' hmem => hy ?_
  obtain ⟨e, he, rfl⟩ := List.mem_map.mp he'
  have hfit := hl e he
  simp only [Set.mem_Ico] at hmem ⊢
  omega

/-! ### Runs of stores and runs of loads -/

/-- The stores of an area off a base register. -/
def stores (n : Reg) (l : SaveArea) : List Instr := l.map fun e => .str e.1 n e.2

/-- The loads of an area off a base register. -/
def loads (n : Reg) (l : SaveArea) : List Instr := l.map fun e => .ldr e.1 n e.2

lemma run_stores {n : Reg} {l : SaveArea} {size : ℕ} (s : Cpu) (hl : l.Fits size)
    (hn : (s.read n).toNat + size ≤ 2 ^ 64) :
    s.run (stores n l) = { s with mem := storeWords s.mem (l.words (s.read n).toNat s.x) } := by
  induction l generalizing s with
  | nil => rfl
  | cons e l ih =>
      have hfit := hl e List.mem_cons_self
      have hexec : s.exec (.str e.1 n e.2) =
          { s with mem := s.mem.store64 ((s.read n).toNat + e.2) (s.x e.1) } := by
        rw [Cpu.exec, s.addr_eq (by omega)]
      have hread : (s.exec (.str e.1 n e.2)).read n = s.read n := by cases n <;> rfl
      have hrec := ih (s.exec (.str e.1 n e.2)) (fun e' he' => hl e' (List.mem_cons_of_mem e he'))
        (by rw [hread]; exact hn)
      rw [hread] at hrec
      show (s.exec (.str e.1 n e.2)).run (stores n l) = _
      rw [hrec, hexec]
      rfl

/-- The register file after the loads of an area at a base. -/
def loadWords (m : ByteMemory) (base : ℕ) (l : SaveArea) (x : Fin 31 → BitVec 64) :
    Fin 31 → BitVec 64 :=
  fun t => match slotOf l t with
    | some off => m.load64 (base + off)
    | none => x t

/-- A register is filled from the area it was saved to. -/
lemma loadWords_of_mem {m : ByteMemory} {base : ℕ} {l : SaveArea} {v x : Fin 31 → BitVec 64}
    (hl : ∀ e ∈ l, m.load64 (base + e.2) = v e.1) {t : Fin 31} (ht : t ∈ l.map Prod.fst) :
    loadWords m base l x t = v t := by
  obtain ⟨e, he, rfl⟩ := List.mem_map.mp ht
  have hsome : (l.reverse.find? (fun e' => e'.1 = e.1)).isSome := by
    rw [List.find?_isSome]
    exact ⟨e, List.mem_reverse.mpr he, by simp⟩
  obtain ⟨e', he'⟩ := Option.isSome_iff_exists.mp hsome
  have hmem : e' ∈ l := List.mem_reverse.mp (List.mem_of_find?_eq_some he')
  have hfst : e'.1 = e.1 := by simpa using List.find?_some he'
  have hslot : slotOf l e.1 = some e'.2 := by simp [slotOf, he']
  simp only [loadWords, hslot]
  rw [hl e' hmem, hfst]

/-- **Restoring**: each register the area names holds the word of its last load, the others and
the rest of the machine are as before. -/
lemma run_loads {n : Reg} {l : SaveArea} {size : ℕ} (s : Cpu) (hl : l.Fits size)
    (hbase : ∀ e ∈ l, n ≠ .x e.1) (hn : (s.read n).toNat + size ≤ 2 ^ 64) :
    s.run (loads n l) = { s with x := loadWords s.mem (s.read n).toNat l s.x } := by
  induction l using List.reverseRecOn with
  | nil => rfl
  | append_singleton l e ih =>
      have hfit := hl e (by simp)
      have hrec := ih (fun e' he' => hl e' (List.mem_append_left _ he'))
        (fun e' he' => hbase e' (List.mem_append_left _ he'))
      have hread : ({ s with x := loadWords s.mem (s.read n).toNat l s.x } : Cpu).read n =
          s.read n := by
        cases n with
        | sp => rfl
        | x i =>
            have hnone : slotOf l i = none := by
              simp only [slotOf, Option.map_eq_none_iff, List.find?_eq_none, List.mem_reverse]
              intro e' he' heq
              have hi : e'.1 = i := by simpa using heq
              exact hbase e' (List.mem_append_left _ he') (by rw [hi])
            simp [Cpu.read, loadWords, hnone]
      rw [loads, List.map_append, Cpu.run_append]
      show (s.run (loads n l)).exec (.ldr e.1 n e.2) = _
      rw [hrec, Cpu.exec, Cpu.addr_eq _ (by rw [hread]; omega), hread]
      simp only [Cpu.write, Cpu.mk.injEq, and_true]
      funext t
      by_cases ht : t = e.1
      · subst ht
        simp [loadWords, slotOf]
      · rw [Function.update_of_ne ht]
        simp [loadWords, slotOf, Ne.symm ht]

end AArch64
