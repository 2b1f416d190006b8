import Mathlib.Tactic

/-!
`kernel/uart.c`: receiving, sending and the interrupt handler.

* **The device.** `Uart` is the mini UART as the code sees it: the bytes waiting in the receive
  FIFO, the bytes sent, and for how many more reads of `AUX_MU_LSR` the transmitter is busy.  After
  a byte is sent it is busy for a finite time that `delay` gives; a byte written while it is busy is
  lost.  No byte arrives.
* **Characters.** `char` has no sign on AArch64, so the `-1` of `uart_getc` is the character 255.
-/

namespace SkinnyArm

/-- The mini UART. -/
structure Uart where
  rx : List (BitVec 8)
  sent : List (BitVec 8)
  busy : ℕ

/-- The carriage return. -/
abbrev carriageReturn : BitVec 8 := 0x0D

/-- The newline. -/
abbrev newline : BitVec 8 := 0x0A

namespace Uart

variable (delay : ℕ → ℕ) (u : Uart)

/-- A read of `AUX_MU_LSR`: bit 0 says that a byte waits, bit 5 that the transmitter is ready. -/
def readLsr : BitVec 32 × Uart :=
  ((if u.rx = [] then 0 else 0x01) ||| (if u.busy = 0 then 0x20 else 0),
    { u with busy := u.busy - 1 })

/-- A read of `AUX_MU_IO` takes the first byte out of the FIFO. -/
def readIo : BitVec 32 × Uart :=
  match u.rx with
  | [] => (0, u)
  | b :: rx => (b.setWidth 32, { u with rx := rx })

/-- A write to `AUX_MU_IO` sends a byte, unless the transmitter is busy: then the byte is lost. -/
def writeIo (c : BitVec 8) : Uart :=
  if u.busy = 0 then { u with sent := u.sent ++ [c], busy := delay u.sent.length } else u

lemma writeIo_of_ready (c : BitVec 8) (h : u.busy = 0) :
    u.writeIo delay c = ⟨u.rx, u.sent ++ [c], delay u.sent.length⟩ := by
  rw [writeIo, if_pos h]

lemma writeIo_of_busy (c : BitVec 8) (h : u.busy ≠ 0) : u.writeIo delay c = u := if_neg h

/-- The two bits of the status are apart. -/
lemma lsr_bits : (u.readLsr.1 &&& 0x20 ≠ 0 ↔ u.busy = 0) ∧
    (u.readLsr.1 &&& 0x01 ≠ 0 ↔ u.rx ≠ []) := by
  rw [readLsr]
  by_cases hrx : u.rx = []
  · by_cases hbusy : u.busy = 0 <;> simp [hrx, hbusy]
  · by_cases hbusy : u.busy = 0 <;> simp [hrx, hbusy]

lemma ready_iff : u.readLsr.1 &&& 0x20 ≠ 0 ↔ u.busy = 0 := u.lsr_bits.1

lemma waits_iff : u.readLsr.1 &&& 0x01 ≠ 0 ↔ u.rx ≠ [] := u.lsr_bits.2

/-- A transmitter that was ready stays so. -/
lemma busy_readLsr (h : u.busy = 0) : u.readLsr.2.busy = 0 := by rw [readLsr, h]

/-- `uart_send`: it waits for the transmitter and writes the byte. -/
def uartSend (u : Uart) (c : BitVec 8) : Uart :=
  if u.readLsr.1 &&& 0x20 ≠ 0 then u.readLsr.2.writeIo delay c else uartSend u.readLsr.2 c
termination_by u.busy
decreasing_by
  have hbusy : u.busy ≠ 0 := fun h0 => ‹¬ _› (u.ready_iff.mpr h0)
  show u.busy - 1 < u.busy
  omega

/-- `uart_getc`: the next byte, with a newline for a carriage return, or `-1`. -/
def uartGetc : BitVec 8 × Uart :=
  if u.readLsr.1 &&& 0x01 ≠ 0 then
    let (io, u₁) := u.readLsr.2.readIo
    let r := io.setWidth 8
    (if r = carriageReturn then newline else r, u₁)
  else (-1, u.readLsr.2)

/-- Sending waits for the transmitter only. -/
lemma uartSend_eq (c : BitVec 8) :
    ∃ busy, u.uartSend delay c = ⟨u.rx, u.sent ++ [c], busy⟩ := by
  induction u using uartSend.induct with
  | case1 u hready =>
      have hbusy := u.busy_readLsr (u.ready_iff.mp hready)
      rw [uartSend, if_pos hready, writeIo_of_ready delay _ c hbusy]
      exact ⟨_, rfl⟩
  | case2 u hready ih =>
      rw [uartSend, if_neg hready]
      exact ih

/-- Without a byte waiting `uart_getc` returns 255. -/
lemma uartGetc_nil (hrx : u.rx = []) :
    u.uartGetc = (255, { u with busy := u.busy - 1 }) := by
  rw [uartGetc, if_neg (fun h => u.waits_iff.mp h hrx)]
  rfl

/-- Otherwise it takes the first byte. -/
lemma uartGetc_cons {b : BitVec 8} {rx : List (BitVec 8)} (hrx : u.rx = b :: rx) :
    u.uartGetc = (if b = carriageReturn then newline else b, ⟨rx, u.sent, u.busy - 1⟩) := by
  have hio : u.readLsr.2.readIo = (b.setWidth 32, ⟨rx, u.sent, u.busy - 1⟩) := by
    simp only [readIo, readLsr, hrx]
  have hbyte : (b.setWidth 32).setWidth 8 = b := by simp
  rw [uartGetc, if_pos (u.waits_iff.mpr (by simp [hrx])), hio]
  simp only [hbyte]

/-- The loop of `uart_interrupt`. -/
def uartInterruptLoop (u : Uart) : Uart :=
  if u.uartGetc.1 = 255 then u.uartGetc.2
  else uartInterruptLoop (u.uartGetc.2.uartSend delay u.uartGetc.1)
termination_by u.rx.length
decreasing_by
  have hc : u.uartGetc.1 ≠ 255 := ‹¬ _›
  obtain ⟨busy, hsend⟩ := u.uartGetc.2.uartSend_eq delay u.uartGetc.1
  rw [hsend]
  cases hrx : u.rx with
  | nil => exact absurd (congrArg Prod.fst (u.uartGetc_nil hrx)) hc
  | cons b rx =>
      rw [u.uartGetc_cons hrx]
      exact Nat.lt_succ_self _

/-- `uart_puts`: the bytes from `s` on, up to a NUL. -/
def uartPuts (u : Uart) : List (BitVec 8) → Uart
  | [] => u
  | c :: s => if c ≠ 0 then (u.uartSend delay c).uartPuts s else u

/-- `uart_interrupt`, where `AUX_MU_IIR` reads as `iir`. -/
def uartInterrupt (iir : BitVec 32) : Uart :=
  if iir &&& 0b100 ≠ 0 then u.uartInterruptLoop delay else u

end Uart

end SkinnyArm
