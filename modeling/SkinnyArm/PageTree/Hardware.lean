import SkinnyArm.PageTree.Run

/-!
The walk the hardware makes over the same words.

* `hardwareWalk` reads bits 1:0 of an entry as the comments of `vmem.c` give them (`11` a table,
  `*0` invalid) and takes the next address from bits 47:12 in place.
* **The two walks disagree** (`hardwareWalk_eq_none`): the table entries are built with
  `SET_NEXT_LEVEL_PAGE`, whose bits 1:0 are `01`, so the hardware stops at the root of every
  tree.
* **The addresses disagree** (`hardwareNext_eq`): `SET_PHYSICAL_ADDR` shifts the frame address by
  12 where the architecture keeps it in place, so the hardware reads `4096` times the address.
-/

namespace SkinnyArm

open ByteMemory Forest

variable {frames fs : List ℕ} {w : World} {pos : Pos} {m : ByteMemory} {root f : ℕ}
  {pentry : BitVec 64}

/-- An entry the hardware can use at a level: valid, and a table entry above the last level. -/
def Usable (level : ℕ) (pentry : BitVec 64) : Prop :=
  pentry.getLsbD 0 = true ∧ (level < 3 → pentry.getLsbD 1 = true)

instance (level : ℕ) (pentry : BitVec 64) : Decidable (Usable level pentry) :=
  inferInstanceAs (Decidable (_ ∧ _))

/-- The address an entry holds for the hardware: the entry with only bits 47:12 kept. -/
def hardwareNext (pentry : BitVec 64) : ℕ := (pentry &&& 0x0000FFFFFFFFF000#64).toNat

/-- The hardware walk from a table over the remaining levels, to the entry of the last one. -/
def hardwareWalkFrom (m : ByteMemory) (va : BitVec 64) : List ℕ → ℕ → Option (BitVec 64)
  | [], _ => none
  | [level], table =>
    let pentry := entry m table (lvlAddr va level)
    if Usable level pentry then some pentry else none
  | level :: levels, table =>
    let pentry := entry m table (lvlAddr va level)
    if Usable level pentry then hardwareWalkFrom m va levels (hardwareNext pentry) else none

/-- The hardware walk over the four levels. -/
def hardwareWalk (m : ByteMemory) (root : ℕ) (va : BitVec 64) : Option (BitVec 64) :=
  hardwareWalkFrom m va [0, 1, 2, 3] root

/-- Bit 10, the access flag. -/
def AccessFlag (pentry : BitVec 64) : Prop := pentry.getLsbD 10 = true

/-- Bit 6, user access. -/
def UserAccess (pentry : BitVec 64) : Prop := pentry.getLsbD 6 = true

/-- Bit 54, not executable by user. -/
def UserNonExec (pentry : BitVec 64) : Prop := pentry.getLsbD 54 = true

/-- The two walks agree at a page translated to `f`: the hardware arrives at the same frame, and
lets the user in for kind 2 only. -/
def HardwareAgrees (w : World) (root : ℕ) (va : BitVec 64) (f : ℕ) : Prop :=
  ∃ pentry, hardwareWalk w.mem root va = some pentry ∧ AccessFlag pentry ∧
    hardwareNext pentry = f ∧
    ∀ μ ∈ w.mapped, μ.root = root → vpn μ.va = vpn va →
      (μ.kind = 2 → UserAccess pentry ∧ ¬ UserNonExec pentry) ∧
      (μ.kind = 0 ∨ μ.kind = 1 → ¬ UserAccess pentry)

/-! ### Bits 1:0 of a table entry -/

/-- Bits 1:0 of a table entry are `01`. -/
lemma not_usable_pgdpudEntry {level : ℕ} {addr physAddr : BitVec 64} (hlevel : level < 3) :
    ¬ Usable level (pgdpudEntry addr physAddr) := by
  intro h
  have h1 := h.2 hlevel
  simp (disch := omega) only [pgdpudEntry, setKNonExec, setPageSet, setUNonExec,
    setNextLevelPage, getLsbD_setBit_one, getLsbD_setBit_zero] at h1
  exact absurd h1 (by simp)

lemma not_usable_zero (level : ℕ) : ¬ Usable level 0 := fun h => absurd h.1 (by decide)

/-- No entry above the last level of a tree can be used. -/
lemma Inv.not_usable (hI : Inv frames w fs pos) {t r : ℕ} {p : List (Fin 512)}
    (ht : pos t = some (r, p)) (hp : p.length < 3) {level : ℕ} (hlevel : level < 3)
    (i : Fin 512) : ¬ Usable level (entry w.mem t i) := by
  by_cases hset : IsSet (entry w.mem t i)
  · obtain ⟨g, hg⟩ := hI.inner ht hp hset
    rw [hg]
    exact not_usable_pgdpudEntry hlevel
  · rw [hI.unset ht hp.le hset]
    exact not_usable_zero level

/-- **The hardware walk fails** for every address, at the root. -/
theorem hardwareWalk_eq_none (b : Boot) (hw : b.Reaches w) (hr : root ∈ w.roots)
    (va : BitVec 64) : hardwareWalk w.mem root va = none := by
  obtain ⟨fs, pos, hI⟩ := hw.inv
  have hstop := hI.not_usable (hI.planted.root root hr) (by simp) (by omega : 0 < 3) (lvlAddr va 0)
  rw [hardwareWalk, hardwareWalkFrom]
  · exact if_neg hstop
  · simp

/-- **The address fields disagree**: the hardware reads a page size times the address the
software put in. -/
theorem hardwareNext_eq (pentry : BitVec 64) : hardwareNext pentry = pageSize * frameOf pentry := by
  have hshift : pentry &&& 0x0000FFFFFFFFF000#64 = getPhysicalAddr pentry <<< 12 := by
    apply BitVec.eq_of_getLsbD_eq
    intro i hi
    rw [BitVec.getLsbD_and, getLsbD_addrMask hi, BitVec.getLsbD_shiftLeft, getLsbD_getPhysicalAddr]
    rcases Nat.lt_or_ge i 12 with h12 | h12
    · have hnot : ¬ 12 ≤ i := by omega
      simp [h12, hnot]
    · have hle : ¬ i < 12 := by omega
      have hsum : 12 + (i - 12) = i := by omega
      by_cases h48 : i < 48
      · have h36 : i - 12 < 36 := by omega
        simp [hi, h12, h48, hle, hsum, h36]
      · have h36 : ¬ i - 12 < 36 := by omega
        simp [hi, h48, hle, h36]
  have hlt := frameOf_lt pentry
  rw [hardwareNext, hshift, BitVec.toNat_shiftLeft, Nat.shiftLeft_eq]
  simp only [frameOf] at hlt ⊢
  rw [Nat.mod_eq_of_lt (by omega), pageSize]
  omega

/-- **The walks agree at no mapped page**: agreement is vacuous, for a page without a page-aligned
translation, or fails. -/
theorem hardwareAgrees_iff (b : Boot) (hw : b.Reaches w) (hr : root ∈ w.roots) (va : BitVec 64) :
    (∀ f, translate w.mem root va = some f → pageSize ∣ f → f < 2 ^ 36 →
      HardwareAgrees w root va f) ↔
    ∀ f, translate w.mem root va = some f → ¬ pageSize ∣ f := by
  constructor
  · intro h f hf hal
    obtain ⟨pentry, hwalk, -⟩ := h f hf hal (translate_lt hf)
    rw [hardwareWalk_eq_none b hw hr va] at hwalk
    exact absurd hwalk (by simp)
  · intro h f hf hal
    exact absurd hal (h f hf)

/-- A kernel page of the small world that the software finds and the hardware does not. -/
theorem hardwareAgrees_fails :
    smallBoot.Reaches (smallMapped 0x1000 0xB000) ∧ 4096 ∈ (smallMapped 0x1000 0xB000).roots ∧
      translate (smallMapped 0x1000 0xB000).mem 4096 0x1000 = some 0xB000 ∧
      pageSize ∣ 0xB000 ∧ ¬ HardwareAgrees (smallMapped 0x1000 0xB000) 4096 0x1000 0xB000 := by
  obtain ⟨-, ⟨f, hf, hfpa⟩, -⟩ := smallMapped_spec _ smallPage_lt
  obtain rfl : f = 0xB000 := hfpa (by decide)
  refine ⟨smallMapped_reaches _ smallPage_lt, smallMapped_root _ _, hf, by norm_num [pageSize], ?_⟩
  rintro ⟨pentry, hwalk, -⟩
  rw [hardwareWalk_eq_none smallBoot (smallMapped_reaches _ smallPage_lt)
    (smallMapped_root _ _)] at hwalk
  exact absurd hwalk (by simp)

/-- The equivalence at that page. -/
theorem hardwareAgrees_iff_small :
    (∀ f, translate (smallMapped 0x1000 0xB000).mem 4096 0x1000 = some f → pageSize ∣ f →
      f < 2 ^ 36 → HardwareAgrees (smallMapped 0x1000 0xB000) 4096 0x1000 f) ↔
    ∀ f, translate (smallMapped 0x1000 0xB000).mem 4096 0x1000 = some f → ¬ pageSize ∣ f :=
  hardwareAgrees_iff smallBoot (smallMapped_reaches _ (by decide)) (smallMapped_root _ _) 0x1000

end SkinnyArm
