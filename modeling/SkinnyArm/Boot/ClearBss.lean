import SkinnyArm.Kernel.Boot

/-!
What `clear_bss` clears.

* **A round** stores a word of 8 bytes and moves on by 16, so that it leaves the other 8 bytes
  (`BssRun.round`).
* **The loop.** `BssRun` is the state after a number of rounds, in terms of the bytes passed; after
  `__bss_size / 16` rounds the loop ends (`bssRun_clearBss`).
* `clearBss_iff`: the region is all zero then exactly if the upper half of every 16 bytes was zero
  before.
-/

namespace SkinnyArm

open ByteMemory

variable {start size : BitVec 64} {m m' : ByteMemory} {i j k : ℕ}

/-- The address of byte `i` of the region. -/
def bssAddr (start : BitVec 64) (i : ℕ) : ℕ := (start + BitVec.ofNat 64 i).toNat

/-- Every byte of the region is zero, and no other byte has changed. -/
structure BssCleared (start size : BitVec 64) (m m' : ByteMemory) : Prop where
  zero : ∀ i < size.toNat, m' (bssAddr start i) = 0
  outside : ∀ y, (∀ i < size.toNat, y ≠ bssAddr start i) → m' y = m y

/-! ### Addresses -/

lemma bssAddr_eq : bssAddr start i = (start.toNat + i) % 2 ^ 64 := by
  rw [bssAddr, BitVec.toNat_add, BitVec.toNat_ofNat, Nat.add_mod_mod]

/-- Different bytes have different addresses. -/
lemma bssAddr_inj (hi : i < 2 ^ 64) (hj : j < 2 ^ 64) :
    bssAddr start i = bssAddr start j ↔ i = j := by
  have hlt := start.isLt
  refine ⟨fun h => ?_, fun h => by rw [h]⟩
  rw [bssAddr_eq, bssAddr_eq] at h
  omega

/-- The 16 bytes of a round lie one after the other. -/
lemma bssAddr_add (hstart : 16 ∣ start.toNat) (hj : j < 16) :
    bssAddr start (16 * k + j) = bssAddr start (16 * k) + j := by
  rw [bssAddr_eq, bssAddr_eq]
  omega

/-- The word stored in a round. -/
lemma store64_bssAddr (hstart : 16 ∣ start.toNat) (m : ByteMemory) (y : ℕ) :
    (∃ j < 8, y = bssAddr start (16 * k + j)) ∧ m.store64 (bssAddr start (16 * k)) 0 y = 0 ∨
      (∀ j < 8, y ≠ bssAddr start (16 * k + j)) ∧
        m.store64 (bssAddr start (16 * k)) 0 y = m y := by
  by_cases hin : y ∈ block (bssAddr start (16 * k)) 8
  · refine .inl ⟨⟨y - bssAddr start (16 * k), ?_, ?_⟩, ?_⟩
    · simp only [Set.mem_Ico] at hin
      omega
    · simp only [Set.mem_Ico] at hin
      rw [bssAddr_add hstart (by omega)]
      omega
    · simp only [Set.mem_Ico] at hin
      simp [store64, hin]
  · refine .inr ⟨fun j hj hy => hin ?_, store64_eqOn hin⟩
    rw [hy, bssAddr_add hstart (by omega)]
    simp only [Set.mem_Ico]
    omega

/-! ### The loop -/

/-- The state after `k` rounds: of the bytes passed the lower half of every 16 is zero, and all
others are as they were. -/
structure BssRun (start size : BitVec 64) (m : ByteMemory) (k : ℕ) (s : BssState) : Prop where
  x1 : s.x1 = start + BitVec.ofNat 64 (16 * k)
  x2 : s.x2.toNat = size.toNat - 16 * k
  zero : ∀ i < 16 * k, i % 16 < 8 → s.mem (bssAddr start i) = 0
  kept : ∀ y, (∀ i < 16 * k, i % 16 < 8 → y ≠ bssAddr start i) → s.mem y = m y

/-- **A round** passes 16 bytes and clears the first 8 of them. -/
lemma BssRun.round {s : BssState} (hstart : 16 ∣ start.toNat) (h : BssRun start size m k s)
    (hk : 16 * k + 16 ≤ size.toNat) : BssRun start size m (k + 1) s.round := by
  have hsize := size.isLt
  have hx1 : s.x1.toNat = bssAddr start (16 * k) := by rw [h.x1, bssAddr]
  have hmem : s.round.mem = s.mem.store64 (bssAddr start (16 * k)) 0 := by
    rw [BssState.round, hx1]
  constructor
  case x1 =>
    show s.x1 + 16 = _
    rw [h.x1, Nat.mul_succ, BitVec.ofNat_add, BitVec.add_assoc]
    rfl
  case x2 =>
    have hle : (16 : BitVec 64) ≤ s.x2 := by
      show 16 ≤ s.x2.toNat
      rw [h.x2]
      omega
    show (s.x2 - 16).toNat = _
    rw [BitVec.toNat_sub_of_le hle, h.x2]
    show size.toNat - 16 * k - 16 = _
    omega
  case zero =>
    intro i hi hlow
    rw [hmem]
    rcases store64_bssAddr (k := k) hstart s.mem (bssAddr start i) with ⟨-, hzero⟩ | ⟨hne, hold⟩
    · exact hzero
    · rw [hold]
      refine h.zero i ?_ hlow
      by_contra hge
      refine hne (i - 16 * k) (by omega) ?_
      congr 1
      omega
  case kept =>
    intro y hy
    rw [hmem]
    rcases store64_bssAddr (k := k) hstart s.mem y with ⟨⟨j, hj, heq⟩, -⟩ | ⟨-, hold⟩
    · exact absurd heq (hy (16 * k + j) (by omega) (by omega))
    · rw [hold]
      exact h.kept y fun i hi hlow => hy i (by omega) hlow

/-- **The loop** goes on to the end of the region. -/
lemma bssRun_clearBss (hstart : 16 ∣ start.toNat) (hsize : 16 ∣ size.toNat)
    (hk : 16 * k ≤ size.toNat) : BssRun start size m k (clearBss k ⟨start, size, m⟩) := by
  induction k with
  | zero => exact ⟨by simp [clearBss, whileLoop], rfl, by simp, fun _ _ => rfl⟩
  | succ k ih =>
      have hrun := ih (by omega)
      have hne : (clearBss k ⟨start, size, m⟩).x2 ≠ 0 := fun h0 => by
        have hx2 := hrun.x2
        rw [h0] at hx2
        have hzero : (0 : BitVec 64).toNat = 0 := rfl
        omega
      rw [clearBss, whileLoop_succ, if_pos (show (whileLoop _ _ k _ : BssState).x2 ≠ 0 from hne)]
      exact hrun.round hstart (by omega)

/-- **`clear_bss`** ends after `__bss_size / 16` rounds, and has cleared the region then exactly if
the second half of every 16 bytes of it was zero before. -/
theorem clearBss_iff (hstart : 16 ∣ start.toNat) (hsize : 16 ∣ size.toNat) (m : ByteMemory) :
    (clearBss (size.toNat / 16) ⟨start, size, m⟩).x2 = 0 ∧
      (BssCleared start size m (clearBss (size.toNat / 16) ⟨start, size, m⟩).mem ↔
        ∀ i < size.toNat, 8 ≤ i % 16 → m (bssAddr start i) = 0) := by
  have hlt := size.isLt
  have hend : 16 * (size.toNat / 16) = size.toNat := Nat.mul_div_cancel' hsize
  have h := bssRun_clearBss (m := m) hstart hsize hend.le
  have hx2 := h.x2
  have hzero := h.zero
  have hkept := h.kept
  rw [hend] at hx2 hzero hkept
  -- the bytes that no round reaches
  have hupper : ∀ i < size.toNat, 8 ≤ i % 16 →
      (clearBss (size.toNat / 16) ⟨start, size, m⟩).mem (bssAddr start i) =
        m (bssAddr start i) := by
    intro i hi hhigh
    refine hkept _ fun j hj hlow heq => ?_
    have hij := (bssAddr_inj (by omega) (by omega)).mp heq
    omega
  refine ⟨BitVec.eq_of_toNat_eq (by rw [hx2]; simp), fun hcleared i hi hhigh => ?_, fun hm => ?_⟩
  · rw [← hupper i hi hhigh]
    exact hcleared.zero i hi
  · refine ⟨fun i hi => ?_, fun y hy => hkept y fun i hi _ => hy i hi⟩
    by_cases hlow : i % 16 < 8
    · exact hzero i hi hlow
    · rw [hupper i hi (by omega)]
      exact hm i hi (by omega)

/-- A memory of ones but for the upper half of every sixteen bytes. -/
def halfSet : ByteMemory := fun a => if a % 16 < 8 then 0xFF else 0

/-- In such a memory a region of two rounds is cleared. -/
theorem clearBss_iff_two :
    (clearBss 2 ⟨0x90000, 32, halfSet⟩).x2 = 0 ∧
      BssCleared 0x90000 32 halfSet (clearBss 2 ⟨0x90000, 32, halfSet⟩).mem := by
  obtain ⟨hsize, hcleared⟩ := clearBss_iff (by decide : 16 ∣ (0x90000 : BitVec 64).toNat)
    (by decide : 16 ∣ (32 : BitVec 64).toNat) halfSet
  exact ⟨hsize, hcleared.mpr (by decide)⟩

/-- In a memory of ones the loop leaves the second word of the region as it was. -/
theorem clearBss_fails :
    (clearBss 1 ⟨0x90000, 16, fun _ => 1⟩).x2 = 0 ∧
      (clearBss 1 ⟨0x90000, 16, fun _ => 1⟩).mem (bssAddr 0x90000 8) = 1 ∧
      ¬ BssCleared 0x90000 16 (fun _ => 1) (clearBss 1 ⟨0x90000, 16, fun _ => 1⟩).mem := by
  have hone : (clearBss 1 ⟨0x90000, 16, fun _ => 1⟩).mem (bssAddr 0x90000 8) = 1 := by decide
  refine ⟨by decide, hone, fun h => ?_⟩
  have hzero := h.zero 8 (by decide)
  rw [hone] at hzero
  exact absurd hzero (by decide)

end SkinnyArm
