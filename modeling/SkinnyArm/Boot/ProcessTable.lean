import SkinnyArm.Boot.ClearBss
import SkinnyArm.Kernel.Process
import SkinnyArm.Process.Machine

/-!
What `clear_bss` leaves of a process table in the region it clears.

* `clearBss_byte`: a byte of the region is zero afterwards if it is in the lower half of its 16, and
  what it was before if it is in the upper half.
* **The table.** A field lies in one word (`ProcessField.word`), and a slot has an odd number of
  words, so that the words of one field are cleared in every other slot (`clearBss_processField`).
-/

namespace SkinnyArm

open ByteMemory

variable {start size : BitVec 64} {i j n b : ℕ}

/-- **A byte** of the region after the loop. -/
lemma clearBss_byte (hstart : 16 ∣ start.toNat) (hsize : 16 ∣ size.toNat) (m : ByteMemory)
    (hi : i < size.toNat) :
    (clearBss (size.toNat / 16) ⟨start, size, m⟩).mem (bssAddr start i) =
      if i % 16 < 8 then 0 else m (bssAddr start i) := by
  have hlt := size.isLt
  have hend : 16 * (size.toNat / 16) = size.toNat := Nat.mul_div_cancel' hsize
  have h := bssRun_clearBss (m := m) hstart hsize hend.le
  split_ifs with hlow
  · exact h.zero i (by omega) hlow
  · refine h.kept _ fun j hj hlow' heq => ?_
    have hij := (bssAddr_inj (by omega) (by omega)).mp heq
    omega

/-- A field lies in one word of the struct. -/
lemma ProcessField.word (f : ProcessField) :
    f.offset % 8 + f.size ≤ 8 ∧ f.offset + f.size ≤ processSize := by
  cases f
  all_goals decide

/-- **The process table**, at byte `b` of the region: a field of slot `i` is zero after `clear_bss`
if its word, counted from the start of the region, is an even one, and otherwise it is what the
memory held before. -/
theorem clearBss_processField (hstart : 16 ∣ start.toNat) (hsize : 16 ∣ size.toNat) (hb : 8 ∣ b)
    (hfit : b + processSize * n ≤ size.toNat) (hi : i < n) (f : ProcessField) (m : ByteMemory)
    (hj : j < f.size) :
    (clearBss (size.toNat / 16) ⟨start, size, m⟩).mem
        (bssAddr start (slotAddr b i + f.offset + j)) =
      if 2 ∣ b / 8 + i + f.offset / 8 then 0
      else m (bssAddr start (slotAddr b i + f.offset + j)) := by
  obtain ⟨hword, hin⟩ := f.word
  have hlt : slotAddr b i + f.offset + j < size.toNat := by
    have hslot : processSize * (i + 1) ≤ processSize * n := Nat.mul_le_mul_left _ hi
    rw [Nat.mul_succ] at hslot
    rw [slotAddr]
    omega
  rw [clearBss_byte hstart hsize m hlt]
  refine if_congr ?_ rfl rfl
  -- a slot has 19 words
  have hslot : slotAddr b i = b + 152 * i := rfl
  rw [hslot]
  omega

/-- In a memory of ones the state of the first slot of a table at the start of the region. -/
theorem clearBss_processField_state :
    (clearBss (304 / 16) ⟨0x90000, 304, fun _ => 1⟩).mem
        (bssAddr 0x90000 (slotAddr 0 0 + ProcessField.state.offset + 0)) =
      if 2 ∣ 0 / 8 + 0 + ProcessField.state.offset / 8 then 0 else 1 :=
  clearBss_processField (by decide : 16 ∣ (0x90000 : BitVec 64).toNat)
    (by decide : 16 ∣ (304 : BitVec 64).toNat) (by decide : 8 ∣ 0) (n := 2) (by decide) (by decide)
    .state (fun _ => 1) (by decide)

end SkinnyArm
