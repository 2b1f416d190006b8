import Mathlib.Data.Set.Function
import Mathlib.Data.Set.Disjoint
import Mathlib.Order.Interval.Set.Basic
import Mathlib.Tactic
import Mathlib.Order.CompletePartialOrder

/-!
A flat byte memory with 64-bit little-endian words.

* **The accesses.** `store8` writes a byte, `load64` and `store64` a word, `clear` zeroes a
  block.  A word is read byte by byte, so two accesses may overlap in part.
* **The frame rules.** Each write leaves every byte outside its block alone
  (`store8_eqOn`, `store64_eqOn`, `clear_eqOn`), and a word depends only on its own eight
  bytes (`load64_congr`), so `load64_store64_of_disjoint` and its likes are instances.
-/

/-- A byte memory: every address holds a byte. -/
abbrev ByteMemory := ℕ → BitVec 8

namespace ByteMemory

variable {m m' : ByteMemory} {a b n : ℕ} {w : BitVec 64}

/-- The block of `n` bytes at `a`. -/
abbrev block (a n : ℕ) : Set ℕ := Set.Ico a (a + n)

/-- The little-endian word at `a`. -/
def load64 (m : ByteMemory) (a : ℕ) : BitVec 64 :=
  m (a + 7) ++ m (a + 6) ++ m (a + 5) ++ m (a + 4) ++ m (a + 3) ++ m (a + 2) ++ m (a + 1) ++ m a

/-- The memory with the byte at `a` replaced. -/
def store8 (m : ByteMemory) (a : ℕ) (v : BitVec 8) : ByteMemory :=
  fun x => if x = a then v else m x

/-- The memory with the word at `a` replaced, low byte first. -/
def store64 (m : ByteMemory) (a : ℕ) (w : BitVec 64) : ByteMemory :=
  fun x => if a ≤ x ∧ x < a + 8 then w.extractLsb' (8 * (x - a)) 8 else m x

/-- The memory with the `n` bytes at `a` zeroed. -/
def clear (m : ByteMemory) (a n : ℕ) : ByteMemory :=
  fun x => if a ≤ x ∧ x < a + n then 0 else m x

/-! ### Single bytes after a write -/

lemma store8_of_ne {v : BitVec 8} {x : ℕ} (h : x ≠ a) : m.store8 a v x = m x := by
  simp [store8, h]

lemma clear_apply_of_mem {x : ℕ} (h : x ∈ block a n) : m.clear a n x = 0 := by
  simp only [Set.mem_Ico] at h
  simp [clear, h]

/-- Every write is the identity outside its block. -/
lemma store8_eqOn {v : BitVec 8} : Set.EqOn (m.store8 a v) m (block a 1)ᶜ := by
  intro x hx
  simp only [Set.mem_compl_iff, Set.mem_Ico] at hx
  exact store8_of_ne (by omega)

lemma store64_eqOn : Set.EqOn (m.store64 a w) m (block a 8)ᶜ := by
  intro x hx
  simp only [Set.mem_compl_iff, Set.mem_Ico] at hx
  simp [store64, hx]

lemma clear_eqOn : Set.EqOn (m.clear a n) m (block a n)ᶜ := by
  intro x hx
  simp only [Set.mem_compl_iff, Set.mem_Ico] at hx
  simp [clear, hx]

/-! ### Words -/

/-- Bit `i` of the word at `a` is bit `i % 8` of the byte at `a + i / 8`. -/
lemma getLsbD_load64 {i : ℕ} (hi : i < 64) :
    (m.load64 a).getLsbD i = (m (a + i / 8)).getLsbD (i % 8) := by
  have hbyte : i / 8 < 8 := by omega
  have hi' : i = 8 * (i / 8) + i % 8 := by omega
  have hmod : i % 8 < 8 := Nat.mod_lt _ (by omega)
  generalize i / 8 = q at *
  generalize i % 8 = r at *
  subst hi'
  simp only [load64, BitVec.getLsbD_append]
  interval_cases q <;> simp [hmod] <;> grind

/-- The byte at an address is the low byte of the word there. -/
lemma setWidth_load64 : (m.load64 a).setWidth 8 = m a := by
  apply BitVec.eq_of_getLsbD_eq
  intro i hi
  rw [BitVec.getLsbD_setWidth, getLsbD_load64 (by omega), Nat.div_eq_of_lt hi, Nat.mod_eq_of_lt hi]
  simp [hi]

/-- A word depends only on its own eight bytes. -/
lemma load64_congr (h : Set.EqOn m m' (block a 8)) : m.load64 a = m'.load64 a := by
  have hbyte : ∀ i < 8, m (a + i) = m' (a + i) := fun i hi =>
    h (by simp only [Set.mem_Ico]; omega)
  simp only [load64, hbyte 7 (by omega), hbyte 6 (by omega), hbyte 5 (by omega),
    hbyte 4 (by omega), hbyte 3 (by omega), hbyte 2 (by omega), hbyte 1 (by omega)]
  rw [show m a = m' a from by simpa using hbyte 0 (by omega)]

/-- A word outside the block that a memory differs on is unchanged. -/
lemma load64_of_eqOn_compl {s : Set ℕ} (h : Set.EqOn m' m sᶜ) (hd : Disjoint (block a 8) s) :
    m'.load64 a = m.load64 a :=
  load64_congr (h.mono hd.subset_compl_right)

@[simp] lemma load64_store64_self : (m.store64 a w).load64 a = w := by
  apply BitVec.eq_of_getLsbD_eq
  intro i hi
  rw [getLsbD_load64 hi]
  have h1 : a ≤ a + i / 8 ∧ a + i / 8 < a + 8 := by omega
  have h2 : 8 * (a + i / 8 - a) + i % 8 = i := by omega
  simp only [store64, if_pos h1, BitVec.getLsbD_extractLsb', h2]
  simp [Nat.mod_lt]

/-- Blocks that do not overlap. -/
lemma block_disjoint {k : ℕ} (h : a + n ≤ b ∨ b + k ≤ a) : Disjoint (block a n) (block b k) := by
  rw [Set.disjoint_left]
  intro x hx hx'
  simp only [Set.mem_Ico] at hx hx'
  omega

lemma load64_store64_of_disjoint (h : b + 8 ≤ a ∨ a + 8 ≤ b) :
    (m.store64 a w).load64 b = m.load64 b :=
  load64_of_eqOn_compl store64_eqOn (block_disjoint h)

lemma load64_clear_of_disjoint (h : b + 8 ≤ a ∨ a + n ≤ b) :
    (m.clear a n).load64 b = m.load64 b :=
  load64_of_eqOn_compl clear_eqOn (block_disjoint h)

/-- A word of zero bytes is zero. -/
lemma load64_eq_zero (h : ∀ x ∈ block a 8, m x = 0) : m.load64 a = 0 := by
  apply BitVec.eq_of_getLsbD_eq
  intro i hi
  rw [getLsbD_load64 hi, h _ (by simp only [Set.mem_Ico]; omega)]
  simp

lemma load64_clear_of_subset (h : a ≤ b ∧ b + 8 ≤ a + n) : (m.clear a n).load64 b = 0 :=
  load64_eq_zero fun x hx => clear_apply_of_mem (by simp only [Set.mem_Ico] at hx ⊢; omega)

/-! ### Other bytes in a set -/

section Patch

variable {s : Set ℕ}

open Classical in
/-- The memory with other bytes in a set. -/
noncomputable def patch (m : ByteMemory) (s : Set ℕ) (m' : ByteMemory) : ByteMemory :=
  fun x => if x ∈ s then m' x else m x

lemma patch_of_mem {x : ℕ} (h : x ∈ s) : m.patch s m' x = m' x := by
  simp [patch, h]

lemma patch_of_notMem {x : ℕ} (h : x ∉ s) : m.patch s m' x = m x := by
  simp [patch, h]

lemma patch_eqOn : Set.EqOn (m.patch s m') m sᶜ := fun _ hx => patch_of_notMem hx

@[simp] lemma patch_self : m.patch s m = m := by
  funext x
  by_cases h : x ∈ s
  · exact patch_of_mem h
  · exact patch_of_notMem h

lemma load64_patch (h : Disjoint (block a 8) s) : (m.patch s m').load64 a = m.load64 a :=
  load64_of_eqOn_compl patch_eqOn h

lemma store8_patch {v : BitVec 8} :
    (m.patch s m').store8 a v = (m.store8 a v).patch s (m'.store8 a v) := by
  funext x
  by_cases h : x ∈ s
  · rw [patch_of_mem h, store8, store8, patch_of_mem h]
  · rw [patch_of_notMem h, store8, store8, patch_of_notMem h]

lemma store64_patch (h : Disjoint (block a 8) s) :
    (m.patch s m').store64 a w = (m.store64 a w).patch s m' := by
  funext x
  by_cases hx : x ∈ s
  · rw [patch_of_mem hx, store64_eqOn fun hin => Set.disjoint_left.mp h hin hx, patch_of_mem hx]
  · rw [patch_of_notMem hx, store64, store64, patch_of_notMem hx]

lemma clear_patch (h : Disjoint (block a n) s) :
    (m.patch s m').clear a n = (m.clear a n).patch s m' := by
  funext x
  by_cases hx : x ∈ s
  · rw [patch_of_mem hx, clear_eqOn fun hin => Set.disjoint_left.mp h hin hx, patch_of_mem hx]
  · rw [patch_of_notMem hx, clear, clear, patch_of_notMem hx]

end Patch

end ByteMemory
