import SkinnyArm.Library.AArch64

/-!
`kernel/exception_vector.S`: the macros around an interrupt handler.

`irq_invalid_el1h` and `irq_invalid_el0_64` are `kernel_entry`, a call of `handle_irq` and
`kernel_exit`; the listings are the two macros with the assembler's own offsets, `kernel_exit` up to
its `eret`.
-/

namespace SkinnyArm.ExceptionVector

open AArch64

/-- `kernel_entry`. -/
def kernelEntry : List Instr :=
  [.sub .sp .sp 256,
    .stp 0 1 .sp (16 * 0),
    .stp 2 3 .sp (16 * 1),
    .stp 4 5 .sp (16 * 2),
    .stp 6 7 .sp (16 * 3),
    .stp 8 9 .sp (16 * 4),
    .stp 10 11 .sp (16 * 5),
    .stp 12 13 .sp (16 * 6),
    .stp 14 15 .sp (16 * 7),
    .stp 16 17 .sp (16 * 8),
    .stp 18 19 .sp (16 * 9),
    .stp 20 21 .sp (16 * 10),
    .stp 22 23 .sp (16 * 11),
    .stp 24 25 .sp (16 * 12),
    .stp 26 27 .sp (16 * 13),
    .stp 28 29 .sp (16 * 14),
    .str 30 .sp (16 * 15)]

/-- `kernel_exit`, up to its `eret`. -/
def kernelExit : List Instr :=
  [.ldp 0 1 .sp (16 * 0),
    .ldp 2 3 .sp (16 * 1),
    .ldp 4 5 .sp (16 * 2),
    .ldp 6 7 .sp (16 * 3),
    .ldp 8 9 .sp (16 * 4),
    .ldp 10 11 .sp (16 * 5),
    .ldp 12 13 .sp (16 * 6),
    .ldp 14 15 .sp (16 * 7),
    .ldp 16 17 .sp (16 * 8),
    .ldp 18 19 .sp (16 * 9),
    .ldp 20 21 .sp (16 * 10),
    .ldp 22 23 .sp (16 * 11),
    .ldp 24 25 .sp (16 * 12),
    .ldp 26 27 .sp (16 * 13),
    .ldp 28 29 .sp (16 * 14),
    .ldr 30 .sp (16 * 15),
    .add .sp .sp 256]

end SkinnyArm.ExceptionVector
