import Mathlib.Data.List.TakeWhile
import SkinnyArm.Kernel.Uart

/-!
What `uart_interrupt` does with the bytes that wait.

* **The loop** ends at the first byte 255, which it takes for the `-1` of an empty FIFO
  (`Uart.uartInterruptLoop_eq`): the bytes before it are sent, the byte itself is lost, and those
  behind it stay.
* `echoes_iff`: so the FIFO is emptied and all its bytes are sent exactly if none of them is 255.
-/

namespace SkinnyArm

variable {delay : ℕ → ℕ} {u u' : Uart} {iir : BitVec 32}

/-- A byte as `uart_getc` returns it: a newline for a carriage return. -/
def received (b : BitVec 8) : BitVec 8 := if b = carriageReturn then newline else b

/-- The FIFO is empty, and its bytes have been sent in order, with a newline for every carriage
return. -/
structure Echoes (u u' : Uart) : Prop where
  rx : u'.rx = []
  sent : u'.sent = u.sent ++ u.rx.map received

/-- Only the byte 255 is received as 255. -/
lemma received_eq_iff : ∀ b, received b = 255 ↔ b = 255 := by decide

namespace Uart

/-- **The loop** of `uart_interrupt`. -/
lemma uartInterruptLoop_eq (delay : ℕ → ℕ) (u : Uart) :
    (u.uartInterruptLoop delay).rx = (u.rx.dropWhile (· ≠ 255)).tail ∧
      (u.uartInterruptLoop delay).sent =
        u.sent ++ (u.rx.takeWhile (· ≠ 255)).map received := by
  cases hrx : u.rx with
  | nil =>
      rw [uartInterruptLoop, u.uartGetc_nil hrx, if_pos rfl]
      exact ⟨hrx, (List.append_nil u.sent).symm⟩
  | cons b rx =>
      have hgetc : u.uartGetc = (received b, ⟨rx, u.sent, u.busy - 1⟩) := u.uartGetc_cons hrx
      rw [uartInterruptLoop, hgetc]
      by_cases hb : b = 255
      · have hlast : received b = 255 := (received_eq_iff b).mpr hb
        rw [if_pos hlast, List.dropWhile_cons_of_neg (by simp [hb]),
          List.takeWhile_cons_of_neg (by simp [hb])]
        exact ⟨rfl, (List.append_nil u.sent).symm⟩
      · have hmore : received b ≠ 255 := fun h => hb ((received_eq_iff b).mp h)
        obtain ⟨busy, hsend⟩ := uartSend_eq delay ⟨rx, u.sent, u.busy - 1⟩ (received b)
        have hshort : rx.length < u.rx.length := by
          rw [hrx]
          exact Nat.lt_succ_self _
        obtain ⟨hrest, hsent⟩ := uartInterruptLoop_eq delay ⟨rx, u.sent ++ [received b], busy⟩
        rw [if_neg hmore, hsend, List.dropWhile_cons_of_pos (by simpa using hb),
          List.takeWhile_cons_of_pos (by simpa using hb)]
        refine ⟨hrest, ?_⟩
        rw [hsent, List.map_cons, List.append_assoc, List.singleton_append]
termination_by u.rx.length

end Uart

/-- **`uart_interrupt`** with the receive bit set ends, and it has sent every byte that waited and
emptied the FIFO exactly if none of them is 255. -/
theorem echoes_iff (hiir : iir &&& 0b100 ≠ 0) :
    Echoes u (u.uartInterrupt delay iir) ↔ 255 ∉ u.rx := by
  obtain ⟨hrest, hsent⟩ := u.uartInterruptLoop_eq delay
  rw [Uart.uartInterrupt, if_pos hiir]
  refine ⟨fun h hmem => ?_, fun hnone => ?_⟩
  · -- a byte 255 is not sent, so that fewer bytes are sent than there were
    have hsame := hsent.symm.trans h.sent
    have hall : (u.rx.takeWhile (· ≠ 255)).length = u.rx.length := by
      simpa using congrArg List.length (List.append_cancel_left hsame)
    have htake : u.rx.takeWhile (· ≠ 255) = u.rx :=
      (List.takeWhile_prefix _).eq_of_length hall
    have hne := List.mem_takeWhile_imp (htake.symm ▸ hmem)
    simp at hne
  · have hpass : ∀ b ∈ u.rx, decide (b ≠ 255) = true := fun b hb =>
      decide_eq_true fun heq => hnone (heq ▸ hb)
    rw [List.dropWhile_eq_nil_iff.mpr hpass] at hrest
    rw [List.takeWhile_eq_self_iff.mpr hpass] at hsent
    exact ⟨hrest, hsent⟩

/-- The line `A` and a carriage return, on a transmitter that is busy for three reads a byte. -/
theorem echoes_iff_line :
    Echoes ⟨[0x41, 0x0D], [], 0⟩ (Uart.uartInterrupt (fun _ => 3) ⟨[0x41, 0x0D], [], 0⟩ 0b100) ↔
      255 ∉ [0x41, (0x0D : BitVec 8)] :=
  echoes_iff (by decide)

/-- With a byte 255 among the bytes the rest stays in the FIFO. -/
theorem echoes_fails :
    (Uart.uartInterrupt (fun _ => 0) ⟨[0x41, 0xFF, 0x42], [], 0⟩ 0b100).rx = [0x42] ∧
      (Uart.uartInterrupt (fun _ => 0) ⟨[0x41, 0xFF, 0x42], [], 0⟩ 0b100).sent = [0x41] ∧
      ¬ Echoes ⟨[0x41, 0xFF, 0x42], [], 0⟩
        (Uart.uartInterrupt (fun _ => 0) ⟨[0x41, 0xFF, 0x42], [], 0⟩ 0b100) := by
  obtain ⟨hrest, hsent⟩ :=
    Uart.uartInterruptLoop_eq (fun _ => 0) ⟨[0x41, 0xFF, 0x42], [], 0⟩
  rw [Uart.uartInterrupt, if_pos (by decide)]
  refine ⟨hrest.trans (by decide), hsent.trans (by decide), fun h => ?_⟩
  exact absurd (hrest.symm.trans h.rx) (by decide)

end SkinnyArm
