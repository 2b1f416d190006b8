import SkinnyArm.Kernel.Entry

/-!
The bits of an entry.

* **Stacks of setters.** Every entry macro stores the address and then sets one bit after the other;
  `EntryMacro.flags` lists these bits with their values, and `setFlags` is such a stack
  (`EntryMacro.entry_eq`).
* **One bit at a time.** A bit that no setter of a stack names is as before
  (`getLsbD_setFlags_of_notMem`), and one that is named once has the value given
  (`getLsbD_setFlags_of_mem`).
* `EntryMacro.entry_bits`: so all five macros set the entry, store the address modulo `2 ^ 36` and
  leave the other bits alone.
-/

namespace SkinnyArm

variable {w : BitVec 64} {l : List (ℕ × Bool)} {i bit : ℕ}

/-! ### Stacks of setters -/

/-- `SET_BIT` with a constant. -/
def setFlag (w : BitVec 64) (flag : ℕ × Bool) : BitVec 64 :=
  setBit w flag.1 (if flag.2 then 1#64 else 0#64)

/-- `SET_BIT`s one after the other. -/
def setFlags (w : BitVec 64) (flags : List (ℕ × Bool)) : BitVec 64 := flags.foldl setFlag w

lemma getLsbD_setFlag (hi : i < 64) (flag : ℕ × Bool) :
    (setFlag w flag).getLsbD i = if i = flag.1 then flag.2 else w.getLsbD i := by
  obtain ⟨bit, value⟩ := flag
  cases value with
  | false => exact getLsbD_setBit_zero hi
  | true => exact getLsbD_setBit_one hi

/-- A bit that no setter names is as before. -/
lemma getLsbD_setFlags_of_notMem (hi : i < 64) (h : i ∉ l.map Prod.fst) :
    (setFlags w l).getLsbD i = w.getLsbD i := by
  induction l generalizing w with
  | nil => rfl
  | cons flag l ih =>
      rw [List.map_cons, List.mem_cons, not_or] at h
      calc (setFlags w (flag :: l)).getLsbD i
          = (setFlag w flag).getLsbD i := ih h.2
        _ = w.getLsbD i := by rw [getLsbD_setFlag hi, if_neg h.1]

/-- A bit that one setter names has the value given. -/
lemma getLsbD_setFlags_of_mem {value : Bool} (hbit : bit < 64)
    (hnodup : (l.map Prod.fst).Nodup) (h : (bit, value) ∈ l) :
    (setFlags w l).getLsbD bit = value := by
  induction l generalizing w with
  | nil => exact absurd h List.not_mem_nil
  | cons flag l ih =>
      rw [List.map_cons, List.nodup_cons] at hnodup
      rcases List.mem_cons.mp h with rfl | hmem
      · calc (setFlags w ((bit, value) :: l)).getLsbD bit
            = (setFlag w (bit, value)).getLsbD bit :=
              getLsbD_setFlags_of_notMem hbit hnodup.1
          _ = value := by rw [getLsbD_setFlag hbit, if_pos rfl]
      · exact ih hnodup.2 hmem

/-! ### The five macros -/

/-- The macros that make an entry. -/
inductive EntryMacro where
  | pgdpud
  | pmd
  | kernel
  | device
  | user

namespace EntryMacro

/-- The word a macro gives. -/
def entry : EntryMacro → BitVec 64 → BitVec 64 → BitVec 64
  | pgdpud => pgdpudEntry
  | pmd => pmdEntry
  | kernel => kernelEntry
  | device => deviceEntry
  | user => userEntry

/-- The bits the setters of a macro name, from the inside out, with their values. -/
def flags : EntryMacro → List (ℕ × Bool)
  | pgdpud | pmd => [(1, false), (0, true), (54, false), (10, true), (53, false)]
  | kernel =>
      [(1, false), (0, false), (4, false), (3, false), (2, true), (6, false), (10, true),
        (54, false), (53, true)]
  | device =>
      [(1, false), (0, false), (4, false), (3, false), (2, false), (6, false), (7, false),
        (10, true), (54, false), (53, true)]
  | user =>
      [(1, false), (0, false), (4, false), (3, false), (2, true), (6, true), (7, false),
        (10, true), (54, true), (53, true)]

/-- The bits a macro names: the address field and its flags. -/
def Names (m : EntryMacro) (i : ℕ) : Prop := 12 ≤ i ∧ i < 48 ∨ i ∈ m.flags.map Prod.fst

variable (m : EntryMacro) (e a : BitVec 64)

/-- A macro is its setters on top of `SET_PHYSICAL_ADDR`. -/
lemma entry_eq : m.entry e a = setFlags (setPhysicalAddr e a) m.flags := by
  cases m with
  | pgdpud | pmd => rfl
  | kernel | device | user =>
      simp only [entry, kernelEntry, deviceEntry, userEntry, setMair_zero, setMair_one]
      rfl

lemma nodup_flags : (m.flags.map Prod.fst).Nodup := by cases m <;> decide

lemma pageSet_mem_flags : (10, true) ∈ m.flags := by cases m <;> decide

/-- No flag is inside the address field. -/
lemma notMem_flags (h12 : 12 ≤ i) (h48 : i < 48) : i ∉ m.flags.map Prod.fst := by
  have hout : ∀ bit ∈ m.flags.map Prod.fst, bit < 12 ∨ 48 ≤ bit := by cases m <;> decide
  exact fun hmem => by have hbit := hout i hmem; omega

/-- The address in an entry is the one `SET_PHYSICAL_ADDR` stores. -/
lemma getPhysicalAddr_entry : (getPhysicalAddr (m.entry e a)).toNat = a.toNat % 2 ^ 36 :=
  calc frameOf (m.entry e a)
      = frameOf (setPhysicalAddr e a) := by
        rw [entry_eq]
        exact frameOf_congr fun i h12 h48 =>
          getLsbD_setFlags_of_notMem (by omega) (m.notMem_flags h12 h48)
    _ = a.toNat % 2 ^ 36 := frameOf_setPhysicalAddr

/-- **The entry macros**, for any previous word and any address: the entry is set, it holds the
address modulo `2 ^ 36`, and the bits the macro does not name are as before. -/
theorem entry_bits :
    getPageSet (m.entry e a) = 1 ∧ (getPhysicalAddr (m.entry e a)).toNat = a.toNat % 2 ^ 36 ∧
      (getPhysicalAddr (m.entry e a) = a ↔ a.toNat < 2 ^ 36) ∧
      ∀ i < 64, ¬ m.Names i → (m.entry e a).getLsbD i = e.getLsbD i := by
  have haddr := m.getPhysicalAddr_entry e a
  refine ⟨?_, haddr, ?_, fun i hi hnames => ?_⟩
  · rw [getPageSet, getBit_eq (by norm_num), entry_eq,
      getLsbD_setFlags_of_mem (by norm_num) m.nodup_flags m.pageSet_mem_flags]
    rfl
  · rw [← BitVec.toNat_inj, haddr]
    refine ⟨fun heq => ?_, Nat.mod_eq_of_lt⟩
    rw [← heq]
    exact Nat.mod_lt _ (by norm_num)
  · rw [Names, not_or] at hnames
    rw [entry_eq, getLsbD_setFlags_of_notMem hi hnames.2, getLsbD_setPhysicalAddr hi,
      if_neg hnames.1]

end EntryMacro

end SkinnyArm
