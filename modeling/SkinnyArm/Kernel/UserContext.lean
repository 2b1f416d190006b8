import SkinnyArm.Library.AArch64

/-!
`kernel/user_context.S` and the layout of `struct process` of `kernel/definitions.h`.

* **The listings.** `uservec`, `userret` and `switchTo` are the assembler's instructions in
  order, with its own offsets.
* **The struct.** `ProcessField.offset` is computed by the C layout rule from the order and the
  sizes of the fields.  `ProcessField.register` says which field is meant for which register, so
  that the listings can be compared with the struct.
-/

namespace SkinnyArm

open AArch64

/-! ### `struct process` -/

/-- The fields of `struct process`, in order. -/
inductive ProcessField where
  | x19 | x20 | x21 | x22 | x23 | x24 | x25 | x26 | x27 | x28 | fp | lr | sp
  | stackFrame | trapFrame | parent | pagetable | state | pid | waitOn
  deriving DecidableEq

namespace ProcessField

def all : List ProcessField :=
  [x19, x20, x21, x22, x23, x24, x25, x26, x27, x28, fp, lr, sp,
    stackFrame, trapFrame, parent, pagetable, state, pid, waitOn]

/-- The size of a field, which is its alignment as well. -/
def size : ProcessField → ℕ
  | state => 4
  | pid => 1
  | _ => 8

/-- The C layout rule: each field at the next multiple of its alignment. -/
def layout (start : ℕ) : List ProcessField → List (ProcessField × ℕ)
  | [] => []
  | f :: fs =>
      let at' := (start + f.size - 1) / f.size * f.size
      (f, at') :: layout (at' + f.size) fs

/-- The offset of a field in the struct. -/
def offset (f : ProcessField) : ℕ := ((layout 0 all).lookup f).getD 0

/-- The register a field of the save area stands for. -/
def register : ProcessField → Option Reg
  | x19 => some (.x 19)
  | x20 => some (.x 20)
  | x21 => some (.x 21)
  | x22 => some (.x 22)
  | x23 => some (.x 23)
  | x24 => some (.x 24)
  | x25 => some (.x 25)
  | x26 => some (.x 26)
  | x27 => some (.x 27)
  | x28 => some (.x 28)
  | fp => some (.x 29)
  | lr => some (.x 30)
  | sp => some .sp
  | _ => none

end ProcessField

/-- `sizeof(struct process)`. -/
abbrev processSize : ℕ := 152

/-- The bytes of the register save area, the fields `x19` to `sp`. -/
abbrev saveAreaSize : ℕ := 104

open ProcessField in
/-- The fields lie one after the other in the struct, those of the save area first. -/
lemma ProcessField.offset_bounds (f : ProcessField) :
    f.offset + f.size ≤ processSize ∧
      (f.register = none → saveAreaSize ≤ f.offset) ∧
      (f.register ≠ none → f.offset + 8 ≤ saveAreaSize) := by
  cases f <;> decide

/-! ### The listings -/

/-- `uservec`, up to its branch to `handle_syscall`. -/
def uservec : List Instr :=
  [.sub .sp .sp 16,
    .stp 0 1 .sp 0,
    .mrs 0 .tpidrEl1,
    .ldr 1 (.x 0) (14 * 8),
    .stp 2 3 (.x 1) (16 * 1),
    .stp 4 5 (.x 1) (16 * 2),
    .stp 6 7 (.x 1) (16 * 3),
    .stp 8 9 (.x 1) (16 * 4),
    .stp 10 11 (.x 1) (16 * 5),
    .stp 12 13 (.x 1) (16 * 6),
    .stp 14 15 (.x 1) (16 * 7),
    .stp 16 17 (.x 1) (16 * 8),
    .stp 18 19 (.x 1) (16 * 9),
    .stp 20 21 (.x 1) (16 * 9),
    .stp 22 23 (.x 1) (16 * 10),
    .stp 24 25 (.x 1) (16 * 11),
    .stp 26 27 (.x 1) (16 * 12),
    .stp 28 29 (.x 1) (16 * 13),
    .str 30 (.x 1) (16 * 14),
    .mov (.x 3) (.x 1),
    .ldp 0 1 .sp 0,
    .add .sp .sp 16,
    .stp 0 1 (.x 3) (16 * 0),
    .mov (.x 0) (.x 8)]

/-- `userret`, up to its `eret`. -/
def userret : List Instr :=
  [.mrs 0 .tpidrEl1,
    .ldr 3 (.x 0) (14 * 8),
    .ldp 0 1 (.x 3) (16 * 0),
    .sub .sp .sp 16,
    .stp 0 1 .sp 0,
    .mov (.x 1) (.x 3),
    .ldp 2 3 (.x 1) (16 * 1),
    .ldp 4 5 (.x 1) (16 * 2),
    .ldp 6 7 (.x 1) (16 * 3),
    .ldp 8 9 (.x 1) (16 * 4),
    .ldp 10 11 (.x 1) (16 * 5),
    .ldp 12 13 (.x 1) (16 * 6),
    .ldp 14 15 (.x 1) (16 * 7),
    .ldp 16 17 (.x 1) (16 * 8),
    .ldp 18 19 (.x 1) (16 * 8),
    .ldp 20 21 (.x 1) (16 * 9),
    .ldp 22 23 (.x 1) (16 * 10),
    .ldp 24 25 (.x 1) (16 * 11),
    .ldp 26 27 (.x 1) (16 * 12),
    .ldp 28 29 (.x 1) (16 * 13),
    .ldr 30 (.x 1) (16 * 14),
    .ldp 0 1 .sp 0,
    .add .sp .sp 16]

/-- `switch_to`, up to its `ret`: `x0` is the process to leave and `x1` the one to enter. -/
def switchTo : List Instr :=
  [.stp 19 20 (.x 0) (16 * 0),
    .stp 21 22 (.x 0) (16 * 1),
    .stp 23 24 (.x 0) (16 * 2),
    .stp 25 26 (.x 0) (16 * 3),
    .stp 27 28 (.x 0) (16 * 4),
    .stp 29 30 (.x 0) (16 * 5),
    .mov (.x 9) .sp,
    .str 9 (.x 0) (16 * 6),
    .ldp 19 20 (.x 1) (16 * 0),
    .ldp 21 22 (.x 1) (16 * 1),
    .ldp 23 24 (.x 1) (16 * 2),
    .ldp 25 26 (.x 1) (16 * 3),
    .ldp 27 28 (.x 1) (16 * 4),
    .ldp 29 30 (.x 1) (16 * 5),
    .ldr 9 (.x 1) (16 * 6),
    .mov .sp (.x 9),
    .ldr 0 (.x 1) (16 * 8),
    .msr .ttbr0El1 0,
    .tlbi,
    .msr .tpidrEl1 1]

end SkinnyArm
