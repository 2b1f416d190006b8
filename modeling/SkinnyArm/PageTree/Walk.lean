import SkinnyArm.Kernel.Vmem
import SkinnyArm.Library.Forest

/-!
The software walk of a page table.

* `edge` reads a table as a node of a keyed forest and `translate` follows the four indices of a
  virtual address; `path_eq_iff` says that two addresses have the same indices exactly when they
  lie in the same page modulo `2^48`.
* `entry_setEntry`, `entry_clear` and their likes are what the writes of the allocator and of
  the page-table code do to entries.
-/

namespace SkinnyArm

open ByteMemory Forest

variable {m m' : ByteMemory} {t t' f : ℕ} {i j : Fin 512} {w : BitVec 64} {va va' : BitVec 64}

/-- Where a set entry of a table leads. -/
def edge (m : ByteMemory) (t : ℕ) (i : Fin 512) : Option ℕ :=
  if IsSet (entry m t i) then some (frameOf (entry m t i)) else none

/-- The four indices of a virtual address. -/
def path (va : BitVec 64) : List (Fin 512) :=
  [lvlAddr va 0, lvlAddr va 1, lvlAddr va 2, lvlAddr va 3]

/-- `translate(root, va)`: the walk over the four levels. -/
def translate (m : ByteMemory) (root : ℕ) (va : BitVec 64) : Option ℕ :=
  walk (edge m) root (path va)

/-- The table the walk for `va` is in at level `i`. -/
def tableAt (m : ByteMemory) (root : ℕ) (va : BitVec 64) (i : ℕ) : Option ℕ :=
  walk (edge m) root ((path va).take i)

/-- The page of a virtual address, modulo `2^48`. -/
def vpn (va : BitVec 64) : ℕ := va.toNat / 2 ^ 12 % 2 ^ 36

lemma path_length (va : BitVec 64) : (path va).length = 4 := rfl

lemma take_path_succ {n : ℕ} (hn : n < 4) :
    (path va).take (n + 1) = (path va).take n ++ [lvlAddr va n] := by
  interval_cases n <;> rfl

lemma take_path_length {n : ℕ} (hn : n ≤ 4) : ((path va).take n).length = n := by
  rw [List.length_take, path_length]
  omega

lemma path_eq_concat (va : BitVec 64) : path va = (path va).take 3 ++ [lvlAddr va 3] := rfl

/-- The page number is spelt by the four indices. -/
lemma vpn_eq (va : BitVec 64) :
    vpn va = (lvlAddr va 0 : ℕ) * 2 ^ 27 + (lvlAddr va 1 : ℕ) * 2 ^ 18
      + (lvlAddr va 2 : ℕ) * 2 ^ 9 + (lvlAddr va 3 : ℕ) := by
  simp only [vpn, val_lvlAddr]
  have h := va.isLt
  omega

/-- Two addresses are looked up alike exactly when they lie in one page. -/
lemma path_eq_iff : path va = path va' ↔ vpn va = vpn va' := by
  constructor
  · intro h
    simp only [path, List.cons.injEq, and_true] at h
    obtain ⟨h0, h1, h2, h3⟩ := h
    rw [vpn_eq, vpn_eq, h0, h1, h2, h3]
  · intro h
    have hi : ∀ n < 4, lvlAddr va n = lvlAddr va' n := fun n hn => by
      refine Fin.ext ?_
      simp only [vpn] at h
      rw [val_lvlAddr, val_lvlAddr]
      interval_cases n <;> norm_num <;> omega
    simp only [path, hi 0 (by omega), hi 1 (by omega), hi 2 (by omega), hi 3 (by omega)]

/-- Every list of four indices is the path of a page. -/
lemma exists_path (a b c d : Fin 512) : ∃ va, path va = [a, b, c, d] := by
  let page := (a : ℕ) * 2 ^ 39 + (b : ℕ) * 2 ^ 30 + (c : ℕ) * 2 ^ 21 + (d : ℕ) * 2 ^ 12
  have hpage : (BitVec.ofNat 64 page).toNat = page := by
    rw [BitVec.toNat_ofNat]
    exact Nat.mod_eq_of_lt (by omega)
  refine ⟨BitVec.ofNat 64 page, ?_⟩
  simp only [path, List.cons.injEq, Fin.ext_iff, val_lvlAddr, hpage, and_true]
  refine ⟨?_, ?_, ?_, ?_⟩ <;> norm_num <;> omega

lemma translate_congr_vpn {r : ℕ} (h : vpn va = vpn va') :
    translate m r va = translate m r va' := by
  rw [translate, translate, path_eq_iff.mpr h]

/-! ### Edges -/

lemma edge_eq_none : edge m t i = none ↔ ¬ IsSet (entry m t i) := by
  simp [edge]

lemma edge_of_isSet (h : IsSet (entry m t i)) : edge m t i = some (frameOf (entry m t i)) := by
  simp [edge, h]

lemma edge_eq_some {c : ℕ} :
    edge m t i = some c ↔ IsSet (entry m t i) ∧ frameOf (entry m t i) = c := by
  by_cases h : IsSet (entry m t i) <;> simp [edge, h]

lemma edge_congr (h : entry m' t i = entry m t i) : edge m' t i = edge m t i := by
  simp [edge, h]

lemma tableAt_zero {r : ℕ} : tableAt m r va 0 = some r := rfl

lemma tableAt_succ {r n : ℕ} (hn : n < 4) :
    tableAt m r va (n + 1) = (tableAt m r va n).bind fun t => edge m t (lvlAddr va n) := by
  rw [tableAt, take_path_succ hn, walk_concat]
  rfl

lemma tableAt_four {r : ℕ} : tableAt m r va 4 = translate m r va := rfl

/-- A walk ends at an address an entry can hold. -/
lemma translate_lt {r : ℕ} (h : translate m r va = some f) : f < 2 ^ 36 := by
  rw [translate, path_eq_concat, walk_concat, Option.bind_eq_some_iff] at h
  obtain ⟨t, -, he⟩ := h
  rw [← (edge_eq_some.mp he).2]
  exact frameOf_lt _

/-! ### Entries after a write -/

@[simp] lemma entry_setEntry_self : entry (setEntry m t i w) t i = w := load64_store64_self

/-- Another entry, of the same table or of another one, is not written. -/
lemma entry_setEntry (ht : pageSize ∣ t) (ht' : pageSize ∣ t') (hne : ¬(t' = t ∧ j = i)) :
    entry (setEntry m t i w) t' j = entry m t' j := by
  refine load64_store64_of_disjoint ?_
  have hi := i.isLt
  have hj := j.isLt
  by_cases htt : t' = t
  · have hij : (j : ℕ) ≠ i := fun h => hne ⟨htt, Fin.ext h⟩
    omega
  · have hapart := page_apart ht' ht htt
    simp only [pageSize] at hapart
    omega

lemma entry_clear_self : entry (m.clear f pageSize) f i = 0 := by
  have hi := i.isLt
  exact load64_clear_of_subset (by simp only [pageSize]; omega)

/-- Clearing a page leaves the tables elsewhere alone. -/
lemma entry_of_eqOn_page (h : Set.EqOn m' m (page f)ᶜ) (ht : pageSize ∣ t) (hf : pageSize ∣ f)
    (hne : t ≠ f) : entry m' t i = entry m t i := by
  refine load64_of_eqOn_compl h ?_
  exact (page_disjoint ht hf hne).mono_left (word_subset_page i.isLt)

lemma setEntry_eqOn : Set.EqOn (setEntry m t i w) m (page t)ᶜ :=
  store64_eqOn.mono (Set.compl_subset_compl.mpr (word_subset_page i.isLt))

/-- Memories that agree on a page agree on its entries. -/
lemma entry_congr (h : Set.EqOn m' m (page t)) : entry m' t i = entry m t i :=
  load64_congr (h.mono (word_subset_page i.isLt))

end SkinnyArm
