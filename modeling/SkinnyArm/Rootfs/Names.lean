import SkinnyArm.Rootfs.Fields

/-!
The name loop of `init_ramfs`, byte by byte.

* **The buffers.** The loops over the buffers clear bytes and move them (`foldl_clearByte`,
  `foldl_moveByte`), so that at a `/` nothing of either buffer is left but the component before it
  (`shiftNames_eq`), and `nameRounds` computes what `nameLoop` does.
* `parseNames_path`: whatever the buffers held, they end up with the last two components of the
  path, and the loop stops at the NUL.
-/

namespace SkinnyArm

open Newc

variable {s path : List (BitVec 8)} {a : ℕ} {b : Names} {index : Fin 16}

/-! ### The buffers -/

/-- Clearing clears exactly the bytes given. -/
lemma foldl_clearByte (l : List (Fin 16)) (b : Names) :
    l.foldl clearByte b =
      ((fun j => if j ∈ l then 0 else b.1 j), fun j => if j ∈ l then 0 else b.2 j) := by
  induction l generalizing b with
  | nil => rfl
  | cons i l ih =>
      have hbyte : ∀ (f : Name) (j : Fin 16), (if j ∈ l then 0 else Function.update f i 0 j) =
          if j ∈ i :: l then 0 else f j := fun f j => by
        by_cases hj : j = i
        · simp [hj]
        · simp [hj]
      rw [List.foldl_cons, ih]
      exact Prod.ext (funext (hbyte b.1)) (funext (hbyte b.2))

/-- Moving moves exactly the bytes given, if none is given twice. -/
lemma foldl_moveByte {l : List (Fin 16)} (hl : l.Nodup) (b : Names) :
    l.foldl moveByte b =
      ((fun j => if j ∈ l then 0 else b.1 j), fun j => if j ∈ l then b.1 j else b.2 j) := by
  induction l generalizing b with
  | nil => rfl
  | cons i l ih =>
      obtain ⟨hi, hl⟩ := List.nodup_cons.mp hl
      rw [List.foldl_cons, ih hl]
      refine Prod.ext (funext fun j => ?_) (funext fun j => ?_)
      · by_cases hj : j = i
        · simp [hj, moveByte]
        · simp [hj, moveByte]
      · by_cases hj : j = i
        · simp [hj, hi, moveByte]
        · simp [hj, moveByte]

lemma mem_take_finRange {j : Fin 16} : j ∈ (List.finRange 16).take index ↔ j < index := by
  rw [List.mem_take_iff_getElem]
  simp only [List.getElem_finRange, List.length_finRange]
  refine ⟨fun ⟨i, hi, heq⟩ => ?_, fun h => ⟨j.val, by omega, rfl⟩⟩
  rw [← heq, Fin.lt_def]
  simp only [Fin.val_cast]
  omega

/-- **At a `/`** only the bytes read since the last one are kept, as the parent's name. -/
lemma shiftNames_eq (index : Fin 16) (b : Names) :
    shiftNames index b = (fun _ => 0, fun j => if j < index then b.1 j else 0) := by
  have hnodup := (List.nodup_finRange 16).sublist (List.take_sublist index (List.finRange 16))
  have hsplit : ∀ j : Fin 16, ¬ j < index → j ∈ (List.finRange 16).drop index := fun j hj => by
    have hmem := List.mem_finRange j
    rw [← List.take_append_drop index (List.finRange 16), List.mem_append] at hmem
    exact hmem.resolve_left fun htake => hj (mem_take_finRange.mp htake)
  have hdisjoint : ∀ j : Fin 16, j < index → j ∉ (List.finRange 16).drop index :=
    fun j hj hdrop => by
      have hapart := (List.nodup_finRange 16)
      rw [← List.take_append_drop index (List.finRange 16), List.nodup_append] at hapart
      exact hapart.2.2 j (mem_take_finRange.mpr hj) j hdrop rfl
  rw [shiftNames, foldl_moveByte hnodup, foldl_clearByte]
  refine Prod.ext (funext fun j => ?_) (funext fun j => ?_)
  · by_cases hj : j < index
    · simp [mem_take_finRange, hj]
    · simp [hsplit j hj]
  · by_cases hj : j < index
    · simp [mem_take_finRange, hj, hdisjoint j hj]
    · simp [hsplit j hj, hj]

/-- Byte by byte the loop computes what `nameLoop` does. -/
lemma nameRounds_names (s : List (BitVec 8)) (a : ℕ) (index : Fin 16) (b : Names) :
    (nameRounds s a index b).2 = nameLoop s a index b.1 b.2 := by
  induction a, index, b using nameRounds.induct s with
  | case1 a index b hslash ih =>
      rw [nameRounds, if_pos hslash, ih, nameLoop.eq_1 s a, if_pos hslash, shiftNames_eq]
  | case2 a index b hslash hnul =>
      rw [nameRounds, if_neg hslash, if_pos hnul, nameLoop, if_neg hslash, if_pos hnul]
  | case3 a index b hslash hnul ih =>
      rw [nameRounds, if_neg hslash, if_neg hnul, ih, nameLoop.eq_1 s a, if_neg hslash,
        if_neg hnul]

/-- The loop stops at the first NUL. -/
lemma nameRounds_stop (h : At s a path) (hpath : 0 ∉ path) (hnul : byteAt s (a + path.length) = 0)
    (index : Fin 16) (b : Names) : (nameRounds s a index b).1 = a + path.length := by
  induction path generalizing a index b with
  | nil =>
      have hne : byteAt s a ≠ slash := by
        rw [show byteAt s a = 0 from hnul]
        decide
      rw [nameRounds, if_neg hne, if_pos (show byteAt s a = 0 from hnul)]
      rfl
  | cons c path ih =>
      obtain ⟨hc, hrest⟩ := at_cons h
      have hnext : a + 1 + path.length = a + (c :: path).length := by
        rw [List.length_cons]
        omega
      have hih := ih hrest (fun h0 => hpath (List.mem_cons_of_mem c h0)) (hnext ▸ hnul)
      have hne : byteAt s a ≠ 0 := fun h0 => hpath (by simp [← hc, h0])
      rw [nameRounds, ← hnext]
      by_cases hslash : byteAt s a = slash
      · rw [if_pos hslash]
        exact hih 0 _
      · rw [if_neg hslash, if_neg hne]
        exact hih _ _

/-- What the buffers held before does not matter. -/
lemma parseNames_names (s : List (BitVec 8)) (a : ℕ) (b : Names) :
    (parseNames s a b).2 = parseName s a := by
  rw [parseNames, nameRounds_names, foldl_clearByte, parseName]
  simp only [List.mem_finRange, if_true]

/-! ### Paths -/

/-- The last component of a path. -/
def lastComponent (path : List (BitVec 8)) : List (BitVec 8) :=
  (components path).getLast?.getD []

/-- The component before the last, or the empty name if there is none. -/
def componentBefore (path : List (BitVec 8)) : List (BitVec 8) :=
  (components path).dropLast.getLast?.getD []

/-- **The name loop** on a NUL-terminated path whose components fit: whatever the two buffers held,
it stops at the NUL with the last component and the one before it in them, padded with NULs. -/
theorem parseNames_path (hpath : 0 ∉ path) (h : At s a (path ++ [0]))
    (hfit : ∀ c ∈ components path, c.length ≤ 15) (b : Names) :
    parseNames s a b =
      (a + path.length, padName (lastComponent path), padName (componentBefore path)) := by
  obtain ⟨hat, hend⟩ := at_append.mp h
  have hnul := (at_cons hend).1
  have hclean : ∀ c ∈ components path, CleanComponent c := fun c hc =>
    ⟨fun h0 => hpath ((mem_components hc).2 0 h0), (mem_components hc).1⟩
  have hjoin : [slash].intercalate (components path) = path := intercalate_components path
  have hparse : parseName s a =
      (padName (lastComponent path), padName (componentBefore path)) :=
    parseName_path (components_ne_nil path) hclean hfit (by rw [hjoin]; exact hat)
      (by rw [hjoin]; exact hnul)
  refine Prod.ext (nameRounds_stop hat hpath hnul 0 _) ?_
  rw [parseNames_names]
  exact hparse

/-- The path `/a` in buffers that hold other names. -/
theorem parseNames_path_one :
    parseNames [0x2F, 0x61, 0] 0 (fun _ => 0x62, fun _ => 0x63) =
      (2, padName (lastComponent [0x2F, 0x61]), padName (componentBefore [0x2F, 0x61])) :=
  parseNames_path (by decide) (at_self ([0x2F, 0x61] ++ [0])) (by decide) _

end SkinnyArm
