import Mathlib.Tactic

/-!
`kernel/vmem.c`, the macros: indices into the page tables and the bits of an entry.

* **Indices.** `LVL_ADDR(addr, level)` expands its argument without parentheses, so with the
  argument `i-1` it shifts by `39 - (i-1*9)`.  `lvlAddr` is the expansion at a plain level and
  `lvlAddrPred` the one at `i-1`, which reads other bits (`lvlAddrPred_eq`).
* **Entries.** Every setter changes one bit or the address field (`getLsbD_setBit_one`,
  `getLsbD_setBit_zero`, `getLsbD_setPhysicalAddr`), so an entry macro stores the low 36 bits of
  the address it is given in bits 47:12 and sets bit 10.
-/

namespace SkinnyArm

variable {addr physAddr va : BitVec 64} {bit i : ℕ}

/-! ### Indices into the tables -/

/-- The index at bits `shift + 8 : shift` of a virtual address. -/
def indexAt (addr : BitVec 64) (shift : ℕ) : Fin 512 :=
  ⟨((addr >>> shift) &&& 0x1FF).toNat, by
    rw [BitVec.toNat_and]
    exact lt_of_le_of_lt Nat.and_le_right (by decide)⟩

/-- `LVL_ADDR(addr, level)`: `((addr) >> (39 - (level*9))) & 0x1FF`. -/
def lvlAddr (addr : BitVec 64) (level : ℕ) : Fin 512 := indexAt addr (39 - level * 9)

/-- The index of a signed address: the shift is arithmetic. -/
def indexAtSigned (addr : BitVec 64) (shift : ℕ) : Fin 512 :=
  ⟨((addr.sshiftRight shift) &&& 0x1FF).toNat, by
    rw [BitVec.toNat_and]
    exact lt_of_le_of_lt Nat.and_le_right (by decide)⟩

/-- `LVL_ADDR(addr, level)` of a signed address. -/
def lvlAddrSigned (addr : BitVec 64) (level : ℕ) : Fin 512 := indexAtSigned addr (39 - level * 9)

/-- `LVL_ADDR(addr, i-1)` of a signed address, as the macro expands it:
`((addr) >> (39 - (i-1*9))) & 0x1FF`. -/
def lvlAddrPred (addr : BitVec 64) (i : ℕ) : Fin 512 :=
  indexAtSigned addr (39 - ((i : ℤ) - 1 * 9)).toNat

lemma val_indexAt (addr : BitVec 64) (shift : ℕ) :
    (indexAt addr shift : ℕ) = addr.toNat / 2 ^ shift % 512 := by
  simp only [indexAt, BitVec.toNat_and, BitVec.toNat_ushiftRight, Nat.shiftRight_eq_div_pow]
  exact Nat.and_two_pow_sub_one_eq_mod _ 9

lemma val_lvlAddr (addr : BitVec 64) (level : ℕ) :
    (lvlAddr addr level : ℕ) = addr.toNat / 2 ^ (39 - level * 9) % 512 :=
  val_indexAt addr _

/-- Below the sign bit the arithmetic shift gives the same nine bits. -/
lemma indexAtSigned_eq {addr : BitVec 64} {shift : ℕ} (h : shift + 9 ≤ 64) :
    indexAtSigned addr shift = indexAt addr shift := by
  have hmask : ∀ i < 64, (0x1FF : BitVec 64).getLsbD i = decide (i < 9) := by decide
  have hword : addr.sshiftRight shift &&& 0x1FF = (addr >>> shift) &&& 0x1FF := by
    apply BitVec.eq_of_getLsbD_eq
    intro i hi
    simp only [BitVec.getLsbD_and, hmask i hi, BitVec.getLsbD_sshiftRight,
      BitVec.getLsbD_ushiftRight]
    by_cases h9 : i < 9
    · have h64 : shift + i < 64 := by omega
      have hlow : ¬ 64 ≤ i := by omega
      simp [h64, hlow]
    · simp [h9]
  simp only [indexAtSigned, indexAt, hword]

lemma lvlAddrSigned_eq {addr : BitVec 64} (level : ℕ) :
    lvlAddrSigned addr level = lvlAddr addr level := indexAtSigned_eq (by omega)

/-- The index `LVL_ADDR(addr, i-1)` really reads: bits `56 - i : 48 - i`. -/
lemma lvlAddrPred_eq {addr : BitVec 64} {i : ℕ} (h1 : 1 ≤ i) (h4 : i ≤ 4) :
    lvlAddrPred addr i = indexAt addr (48 - i) := by
  rw [lvlAddrPred, show (39 - ((i : ℤ) - 1 * 9)).toNat = 48 - i by omega]
  exact indexAtSigned_eq (by omega)

/-! ### Bits of an entry -/

/-- `SET_BIT`. -/
def setBit (addr : BitVec 64) (bit : ℕ) (val : BitVec 64) : BitVec 64 :=
  (addr &&& ~~~(1#64 <<< bit)) ||| (val <<< bit)

/-- `GET_BIT`. -/
def getBit (addr : BitVec 64) (bit : ℕ) : BitVec 64 := (addr &&& (1#64 <<< bit)) >>> bit

def setUNonExec (addr : BitVec 64) : BitVec 64 := setBit addr 54 0#64
def setUExec (addr : BitVec 64) : BitVec 64 := setBit addr 54 1#64
def setKNonExec (addr : BitVec 64) : BitVec 64 := setBit addr 53 0#64
def setKExec (addr : BitVec 64) : BitVec 64 := setBit addr 53 1#64

/-- `SET_PHYSICAL_ADDR`: the address goes, shifted by 12, into bits 47:12. -/
def setPhysicalAddr (addr physAddr : BitVec 64) : BitVec 64 :=
  (addr &&& ~~~0x0000FFFFFFFFF000#64) ||| ((physAddr <<< 12) &&& 0x0000FFFFFFFFF000#64)

/-- `GET_PHYSICAL_ADDR`. -/
def getPhysicalAddr (addr : BitVec 64) : BitVec 64 := (addr &&& 0x0000FFFFFFFFF000#64) >>> 12

def setPageSet (addr : BitVec 64) : BitVec 64 := setBit addr 10 1#64
def getPageSet (addr : BitVec 64) : BitVec 64 := getBit addr 10
def setRw (addr : BitVec 64) : BitVec 64 := setBit addr 7 0#64
def setKAcces (addr : BitVec 64) : BitVec 64 := setBit addr 6 0#64
def setKUAcces (addr : BitVec 64) : BitVec 64 := setBit addr 6 1#64

/-- `SET_MAIR`: the memory-type index in bits 4:2. -/
def setMair (addr index : BitVec 64) : BitVec 64 :=
  setBit (setBit (setBit addr 4 (0x1 &&& (index >>> 2))) 3 (0x1 &&& (index >>> 1))) 2
    (0x1 &&& index)

def setNextLevelPage (addr : BitVec 64) : BitVec 64 := setBit (setBit addr 1 0#64) 0 1#64
def setNextLevelInvalid (addr : BitVec 64) : BitVec 64 := setBit (setBit addr 1 0#64) 0 0#64

/-- `PGDPUD_ENTRY`: points to a table of the next level. -/
def pgdpudEntry (addr physAddr : BitVec 64) : BitVec 64 :=
  setKNonExec (setPageSet (setUNonExec (setNextLevelPage (setPhysicalAddr addr physAddr))))

/-- `PMD_ENTRY`: points to a table of the last level. -/
def pmdEntry (addr physAddr : BitVec 64) : BitVec 64 :=
  setKNonExec (setPageSet (setUNonExec (setNextLevelPage (setPhysicalAddr addr physAddr))))

/-- `KERNEL_ENTRY`: points to a kernel page. -/
def kernelEntry (addr physAddr : BitVec 64) : BitVec 64 :=
  setKExec (setUNonExec (setPageSet (setKAcces
    (setMair (setNextLevelInvalid (setPhysicalAddr addr physAddr)) 1#64))))

/-- `DEVICE_ENTRY`: points to a kernel device page. -/
def deviceEntry (addr physAddr : BitVec 64) : BitVec 64 :=
  setKExec (setUNonExec (setPageSet (setRw (setKAcces
    (setMair (setNextLevelInvalid (setPhysicalAddr addr physAddr)) 0#64)))))

/-- `USER_ENTRY`: points to a user page. -/
def userEntry (addr physAddr : BitVec 64) : BitVec 64 :=
  setKExec (setUExec (setPageSet (setRw (setKUAcces
    (setMair (setNextLevelInvalid (setPhysicalAddr addr physAddr)) 1#64)))))

/-- The mask of one bit. -/
lemma getLsbD_oneShift (hi : i < 64) : (1#64 <<< bit).getLsbD i = decide (i = bit) := by
  simp only [BitVec.getLsbD_shiftLeft, BitVec.getLsbD_one, hi]
  by_cases h : i = bit
  · simp [h]
  · by_cases h' : i < bit <;> simp [h, h']
    omega

lemma getLsbD_setBit_one (hi : i < 64) :
    (setBit addr bit 1#64).getLsbD i = if i = bit then true else addr.getLsbD i := by
  simp only [setBit, BitVec.getLsbD_or, BitVec.getLsbD_and, BitVec.getLsbD_not, hi,
    getLsbD_oneShift hi]
  by_cases h : i = bit <;> simp [h]

lemma getLsbD_setBit_zero (hi : i < 64) :
    (setBit addr bit 0#64).getLsbD i = if i = bit then false else addr.getLsbD i := by
  simp only [setBit, BitVec.getLsbD_or, BitVec.getLsbD_and, BitVec.getLsbD_not, hi,
    getLsbD_oneShift hi]
  by_cases h : i = bit <;> simp [h]

/-- `GET_BIT` reads the bit. -/
lemma getBit_eq (hb : bit < 64) : getBit addr bit = if addr.getLsbD bit then 1 else 0 := by
  apply BitVec.eq_of_getLsbD_eq
  intro i hi
  simp only [getBit, BitVec.getLsbD_ushiftRight, BitVec.getLsbD_and]
  by_cases h0 : i = 0
  · subst h0
    rw [Nat.add_zero, getLsbD_oneShift hb]
    by_cases h : addr.getLsbD bit <;> simp [h]
  · have hne : (1#64 <<< bit).getLsbD (bit + i) = false := by
      by_cases hlt : bit + i < 64
      · rw [getLsbD_oneShift hlt]
        simp [h0]
      · exact BitVec.getLsbD_of_ge _ _ (by omega)
    rw [hne]
    split <;> simp [h0]

/-- The address field occupies bits 47:12. -/
lemma getLsbD_addrMask (hi : i < 64) :
    (0x0000FFFFFFFFF000#64).getLsbD i = decide (12 ≤ i ∧ i < 48) := by
  revert i
  decide

lemma getLsbD_setPhysicalAddr (hi : i < 64) :
    (setPhysicalAddr addr physAddr).getLsbD i =
      if 12 ≤ i ∧ i < 48 then physAddr.getLsbD (i - 12) else addr.getLsbD i := by
  simp only [setPhysicalAddr, BitVec.getLsbD_or, BitVec.getLsbD_and, BitVec.getLsbD_not,
    BitVec.getLsbD_shiftLeft, hi, getLsbD_addrMask hi]
  by_cases h : 12 ≤ i ∧ i < 48
  · have h' : ¬ i < 12 := by omega
    simp [h, h']
  · simp [h]

lemma getLsbD_getPhysicalAddr :
    (getPhysicalAddr addr).getLsbD i = (decide (i < 36) && addr.getLsbD (12 + i)) := by
  simp only [getPhysicalAddr, BitVec.getLsbD_ushiftRight, BitVec.getLsbD_and]
  by_cases h : 12 + i < 64
  · rw [getLsbD_addrMask h, Bool.and_comm]
    congr 1
    simp only [decide_eq_decide]
    omega
  · rw [BitVec.getLsbD_of_ge _ _ (by omega)]
    simp

/-- Whether an entry is set: `GET_PAGE_SET(entry) != 0`. -/
def IsSet (entry : BitVec 64) : Prop := getPageSet entry ≠ 0

instance : DecidablePred IsSet := fun entry => inferInstanceAs (Decidable (getPageSet entry ≠ 0))

lemma isSet_iff : IsSet addr ↔ addr.getLsbD 10 = true := by
  rw [IsSet, getPageSet, getBit_eq (by omega)]
  cases addr.getLsbD 10 <;> simp

@[simp] lemma not_isSet_zero : ¬ IsSet 0 := by decide

/-! ### The address an entry holds -/

/-- The frame address an entry holds, as a number. -/
def frameOf (entry : BitVec 64) : ℕ := (getPhysicalAddr entry).toNat

lemma frameOf_lt (entry : BitVec 64) : frameOf entry < 2 ^ 36 := by
  rw [frameOf, getPhysicalAddr, BitVec.toNat_ushiftRight, BitVec.toNat_and,
    Nat.shiftRight_eq_div_pow]
  have hle : entry.toNat &&& (0x0000FFFFFFFFF000#64).toNat ≤ 0x0000FFFFFFFFF000 := Nat.and_le_right
  omega

/-- The address depends on bits 47:12 only. -/
lemma frameOf_congr {entry entry' : BitVec 64}
    (h : ∀ i, 12 ≤ i → i < 48 → entry.getLsbD i = entry'.getLsbD i) :
    frameOf entry = frameOf entry' := by
  refine congrArg BitVec.toNat (BitVec.eq_of_getLsbD_eq fun i _ => ?_)
  rw [getLsbD_getPhysicalAddr, getLsbD_getPhysicalAddr]
  by_cases h36 : i < 36
  · rw [h (12 + i) (by omega) (by omega)]
  · simp [h36]

@[simp] lemma frameOf_setPhysicalAddr :
    frameOf (setPhysicalAddr addr physAddr) = physAddr.toNat % 2 ^ 36 := by
  have hfield : getPhysicalAddr (setPhysicalAddr addr physAddr)
      = BitVec.ofNat 64 (physAddr.toNat % 2 ^ 36) := by
    apply BitVec.eq_of_getLsbD_eq
    intro i hi
    rw [getLsbD_getPhysicalAddr, BitVec.getLsbD_ofNat, Nat.testBit_mod_two_pow,
      BitVec.testBit_toNat]
    by_cases h36 : i < 36
    · rw [getLsbD_setPhysicalAddr (by omega), if_pos (by omega), Nat.add_sub_cancel_left]
      simp [h36, hi]
    · simp [h36]
  rw [frameOf, hfield, BitVec.toNat_ofNat, Nat.mod_eq_of_lt]
  omega

/-- The flag setters leave the address alone. -/
lemma frameOf_setBit_one (hb : bit < 12 ∨ 48 ≤ bit) :
    frameOf (setBit addr bit 1#64) = frameOf addr :=
  frameOf_congr fun i h12 h48 => by
    rw [getLsbD_setBit_one (by omega), if_neg (by omega)]

lemma frameOf_setBit_zero (hb : bit < 12 ∨ 48 ≤ bit) :
    frameOf (setBit addr bit 0#64) = frameOf addr :=
  frameOf_congr fun i h12 h48 => by
    rw [getLsbD_setBit_zero (by omega), if_neg (by omega)]

lemma setMair_zero : setMair addr 0#64 = setBit (setBit (setBit addr 4 0#64) 3 0#64) 2 0#64 := rfl

lemma setMair_one : setMair addr 1#64 = setBit (setBit (setBit addr 4 0#64) 3 0#64) 2 1#64 := rfl

/-- What every entry macro does: it sets the entry and stores the low 36 bits of the address. -/
structure Holds (entry physAddr : BitVec 64) : Prop where
  isSet : IsSet entry
  frame : frameOf entry = physAddr.toNat % 2 ^ 36

lemma holds_pgdpudEntry : Holds (pgdpudEntry addr physAddr) physAddr where
  isSet := by
    simp (disch := omega) only [isSet_iff, pgdpudEntry, setKNonExec, setPageSet,
      getLsbD_setBit_one, getLsbD_setBit_zero]
    simp
  frame := by
    simp (disch := omega) only [pgdpudEntry, setKNonExec, setPageSet, setUNonExec,
      setNextLevelPage, frameOf_setBit_one, frameOf_setBit_zero, frameOf_setPhysicalAddr]

lemma holds_pmdEntry : Holds (pmdEntry addr physAddr) physAddr := holds_pgdpudEntry

lemma holds_kernelEntry : Holds (kernelEntry addr physAddr) physAddr where
  isSet := by
    simp (disch := omega) only [isSet_iff, kernelEntry, setKExec, setUNonExec, setPageSet,
      getLsbD_setBit_one, getLsbD_setBit_zero]
    simp
  frame := by
    simp (disch := omega) only [kernelEntry, setKExec, setUNonExec, setPageSet, setKAcces,
      setMair_one, setNextLevelInvalid, frameOf_setBit_one, frameOf_setBit_zero,
      frameOf_setPhysicalAddr]

lemma holds_deviceEntry : Holds (deviceEntry addr physAddr) physAddr where
  isSet := by
    simp (disch := omega) only [isSet_iff, deviceEntry, setKExec, setUNonExec, setPageSet,
      getLsbD_setBit_one, getLsbD_setBit_zero]
    simp
  frame := by
    simp (disch := omega) only [deviceEntry, setKExec, setUNonExec, setPageSet, setRw,
      setKAcces, setMair_zero, setNextLevelInvalid, frameOf_setBit_one, frameOf_setBit_zero,
      frameOf_setPhysicalAddr]

lemma holds_userEntry : Holds (userEntry addr physAddr) physAddr where
  isSet := by
    simp (disch := omega) only [isSet_iff, userEntry, setKExec, setUExec, setPageSet,
      getLsbD_setBit_one]
    simp
  frame := by
    simp (disch := omega) only [userEntry, setKExec, setUExec, setPageSet, setRw, setKUAcces,
      setMair_one, setNextLevelInvalid, frameOf_setBit_one, frameOf_setBit_zero,
      frameOf_setPhysicalAddr]

end SkinnyArm
