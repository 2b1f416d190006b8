import SkinnyArm.Library.ByteMemory
import SkinnyArm.Library.While

/-!
`kernel/boot.S`: the loop `clear_bss`.

`x1` is the address to clear at and `x2` what is left of `__bss_size`; `cbz` in front of the loop
and `cbnz` at its end test `x2` alike.
-/

namespace SkinnyArm

open ByteMemory

/-- The registers of the loop, and the memory. -/
structure BssState where
  x1 : BitVec 64
  x2 : BitVec 64
  mem : ByteMemory

/-- One round: `str xzr, [x1], #16` and `sub x2, x2, #16`. -/
def BssState.round (s : BssState) : BssState where
  x1 := s.x1 + 16
  x2 := s.x2 - 16
  mem := s.mem.store64 s.x1.toNat 0

/-- `clear_bss`, for at most as many rounds as given. -/
def clearBss (rounds : ℕ) (s : BssState) : BssState :=
  whileLoop (fun s : BssState => s.x2 ≠ 0) BssState.round rounds s

end SkinnyArm
