import SkinnyArm.Kernel.Rootfs

/-!
`init_ramfs` in two passes: reading the records, and loading them into the tables.

* **The scan.** Where the records are and what is read of them does not depend on the tables, so
  `scan` follows the cursor alone; `initRamfs_eq` says that `init_ramfs` loads the entries of the
  scan one after the other (`loadAll`) and then ends as the scan does.
* **What is read.** `Entry.Read` holds of every entry of a scan: both name buffers are
  NUL-terminated and sizes are at least `-1`.  The records lie one behind the other
  (`entries_pairwise`).
-/

namespace SkinnyArm

/-! ### Lists cut at a position -/

section Lists

variable {α : Type*} {l : List α} {x y : α} {k : ℕ}

/-- A list cut at one of its elements. -/
lemma take_append_cons_drop (h : l[k]? = some x) : l.take k ++ x :: l.drop (k + 1) = l := by
  obtain ⟨hlt, hget⟩ := List.getElem?_eq_some_iff.mp h
  rw [← hget, List.getElem_cons_drop, List.take_append_drop]

lemma getElem?_concat : (l ++ [x])[k]? = some y ↔ l[k]? = some y ∨ k = l.length ∧ x = y := by
  by_cases hlt : k < l.length
  · rw [List.getElem?_append_left hlt]
    exact ⟨.inl, fun h => h.resolve_right fun ⟨heq, _⟩ => by omega⟩
  · rw [List.getElem?_append_right (not_lt.mp hlt), List.getElem?_eq_none (not_lt.mp hlt)]
    by_cases heq : k = l.length
    · simp [heq]
    · have h1 : [x][k - l.length]? = none := List.getElem?_eq_none (by simp; omega)
      simp [h1, heq]

lemma take_concat (h : k ≤ l.length) : (l ++ [x]).take k = l.take k :=
  List.take_append_of_le_length h

lemma take_succ_of_some (h : l[k]? = some x) : l.take (k + 1) = l.take k ++ [x] := by
  rw [List.take_add_one, h, Option.toList_some]

lemma take_succ_of_none (h : l[k]? = none) : l.take (k + 1) = l.take k := by
  rw [List.take_add_one, h, Option.toList_none, List.append_nil]

end Lists

/-! ### The scan -/

/-- Why the records end: the trailer, a record without the magic or one of another mode. -/
inductive Ending where
  | trailer (fileStart : ℕ)
  | badMagic
  | badMode (fileStart : ℕ)
  deriving DecidableEq

/-- The starts of the records `init_ramfs` reads from a position on, and what it meets after
them. -/
def scan (s : List (BitVec 8)) (fileStart : ℕ) : List ℕ × Ending :=
  if checkMagic s fileStart then
    if checkEndArchive s (fileStart + 110) then ([], .trailer fileStart)
    else
      if (readEntry s fileStart).fileType = .invalid then ([], .badMode fileStart)
      else (fileStart :: (scan s (nextStart s fileStart)).1, (scan s (nextStart s fileStart)).2)
  else ([], .badMagic)
termination_by s.length - fileStart
decreasing_by
  all_goals
    have hlt := lt_length_of_checkMagic ‹_›
    have hge := nextStart_ge s fileStart
    omega

/-- The starts of the records of a stream. -/
def starts (s : List (BitVec 8)) : List ℕ := (scan s 0).1

/-- The entries of a stream. -/
def entries (s : List (BitVec 8)) : List Entry := (starts s).map (readEntry s)

/-- What ends the records of a stream. -/
def ending (s : List (BitVec 8)) : Ending := (scan s 0).2

/-! ### Loading -/

/-- Entries loaded one after the other. -/
def loadAll (r : Ramfs) : List Entry → Ramfs.Loaded
  | [] => .ok r
  | e :: es =>
      match r.load e with
      | .ok r' => loadAll r' es
      | .spins => .spins
      | .wild => .wild

/-- How `init_ramfs` ends once every entry is loaded. -/
def Ending.outcome (s : List (BitVec 8)) (r : Ramfs) : Ending → Outcome
  | .trailer fileStart => .done (fileStart + 110) r
  | .badMagic => .failed r
  | .badMode fileStart => .failed (r.setType (readEntry s fileStart))

/-- How `init_ramfs` ends, from what loading the entries comes to. -/
def Ending.finish (s : List (BitVec 8)) (e : Ending) : Ramfs.Loaded → Outcome
  | .ok r => e.outcome s r
  | .spins => .spins
  | .wild => .wild

lemma initRamfsLoop_eq (s : List (BitVec 8)) (fileStart : ℕ) (r : Ramfs) :
    initRamfsLoop s fileStart r =
      (scan s fileStart).2.finish s (loadAll r ((scan s fileStart).1.map (readEntry s))) := by
  induction fileStart using scan.induct s generalizing r with
  | case1 fileStart hmagic hend =>
      rw [initRamfsLoop, scan, if_pos hmagic, if_pos hend, if_pos hmagic, if_pos hend]
      rfl
  | case2 fileStart hmagic hend hmode =>
      rw [initRamfsLoop, scan, if_pos hmagic, if_neg hend, if_pos hmode, if_pos hmagic,
        if_neg hend, if_pos hmode]
      rfl
  | case3 fileStart hmagic hend hmode ih =>
      rw [initRamfsLoop, scan, if_pos hmagic, if_neg hend, if_neg hmode, if_pos hmagic,
        if_neg hend, if_neg hmode]
      simp only [List.map_cons, loadAll]
      cases r.load (readEntry s fileStart) with
      | ok r' => exact ih r'
      | spins => rfl
      | wild => rfl
  | case4 fileStart hmagic =>
      rw [initRamfsLoop, scan, if_neg hmagic, if_neg hmagic]
      rfl

/-- **`init_ramfs`** loads the entries of the stream one after the other. -/
lemma initRamfs_eq (s : List (BitVec 8)) :
    initRamfs s = (ending s).finish s (loadAll .zero (entries s)) :=
  initRamfsLoop_eq s 0 .zero

lemma loadAll_append (r : Ramfs) (es es' : List Entry) :
    loadAll r (es ++ es') =
      match loadAll r es with
      | .ok r' => loadAll r' es'
      | .spins => .spins
      | .wild => .wild := by
  induction es generalizing r with
  | nil => rfl
  | cons e es ih =>
      simp only [List.cons_append, loadAll]
      cases r.load e with
      | ok r' => exact ih r'
      | spins => rfl
      | wild => rfl

/-- If all entries are loaded, the first of them were. -/
lemma loadAll_prefix {r r' : Ramfs} {es es' : List Entry}
    (h : loadAll r (es ++ es') = .ok r') :
    ∃ r₁, loadAll r es = .ok r₁ ∧ loadAll r₁ es' = .ok r' := by
  rw [loadAll_append] at h
  cases hes : loadAll r es with
  | ok r₁ => exact ⟨r₁, rfl, by rw [hes] at h; exact h⟩
  | spins => rw [hes] at h; exact absurd h (by simp)
  | wild => rw [hes] at h; exact absurd h (by simp)

lemma loadAll_concat {r r' : Ramfs} {es : List Entry} {e : Entry}
    (h : loadAll r (es ++ [e]) = .ok r') : ∃ r₁, loadAll r es = .ok r₁ ∧ r₁.load e = .ok r' := by
  obtain ⟨r₁, hes, he⟩ := loadAll_prefix h
  refine ⟨r₁, hes, ?_⟩
  rw [loadAll] at he
  cases hload : r₁.load e with
  | ok r₂ => rw [hload] at he; exact he
  | spins => rw [hload] at he; exact absurd he (by simp)
  | wild => rw [hload] at he; exact absurd he (by simp)

/-- `init_ramfs` returns 0 exactly if the records end with the trailer and all are loaded. -/
lemma initRamfs_eq_done {s : List (BitVec 8)} {e : ℕ} {r : Ramfs} :
    initRamfs s = .done e r ↔
      (∃ a, ending s = .trailer a ∧ e = a + 110) ∧ loadAll .zero (entries s) = .ok r := by
  rw [initRamfs_eq]
  cases loadAll .zero (entries s) with
  | ok r' =>
      cases hend : ending s with
      | trailer a =>
          simp only [Ending.finish, Ending.outcome, Outcome.done.injEq, Ending.trailer.injEq,
            Ramfs.Loaded.ok.injEq, exists_eq_left']
          exact and_congr_left' eq_comm
      | badMagic => simp [Ending.finish, Ending.outcome]
      | badMode a => simp [Ending.finish, Ending.outcome]
  | spins => simp [Ending.finish]
  | wild => simp [Ending.finish]

/-- `init_ramfs` returns -1 exactly if the records end otherwise and all are loaded. -/
lemma initRamfs_eq_failed {s : List (BitVec 8)} :
    (∃ r, initRamfs s = .failed r) ↔
      (∀ a, ending s ≠ .trailer a) ∧ ∃ r, loadAll .zero (entries s) = .ok r := by
  rw [initRamfs_eq]
  cases loadAll .zero (entries s) with
  | ok r =>
      cases ending s with
      | trailer a => simp [Ending.finish, Ending.outcome]
      | badMagic => simp [Ending.finish, Ending.outcome]
      | badMode a => simp [Ending.finish, Ending.outcome]
  | spins => simp [Ending.finish]
  | wild => simp [Ending.finish]

/-- `init_ramfs` reads an inode as a file exactly if loading the entries does. -/
lemma initRamfs_eq_wild {s : List (BitVec 8)} :
    initRamfs s = .wild ↔ loadAll .zero (entries s) = .wild := by
  rw [initRamfs_eq]
  cases loadAll .zero (entries s) with
  | ok r =>
      cases ending s with
      | trailer a => simp [Ending.finish, Ending.outcome]
      | badMagic => simp [Ending.finish, Ending.outcome]
      | badMode a => simp [Ending.finish, Ending.outcome]
  | spins => simp [Ending.finish]
  | wild => simp [Ending.finish]

/-! ### What is read of a record -/

/-- What holds of every entry read. -/
structure Entry.Read (e : Entry) : Prop where
  type : e.fileType ≠ .invalid
  size : -1 ≤ e.fileSize
  name : 0 ∈ e.name.bytes
  parent : e.parentName 15 = 0

/-- The parsed name is terminated, and so is the parent's name, at its last byte. -/
lemma nameLoop_nul (s : List (BitVec 8)) (a : ℕ) (index : Fin 16) (fileName parentName : Name)
    (hp : parentName 15 = 0) :
    0 ∈ (nameLoop s a index fileName parentName).1.bytes ∧
      (nameLoop s a index fileName parentName).2 15 = 0 := by
  induction a, index, fileName, parentName using nameLoop.induct s with
  | case1 a index fileName parentName hslash ih =>
      rw [nameLoop, if_pos hslash]
      have hlast : ¬ (15 : Fin 16) < index := not_lt.mpr (Fin.le_last index)
      exact ih (dif_neg hlast)
  | case2 a index fileName parentName hslash hnul =>
      rw [nameLoop, if_neg hslash, if_pos hnul]
      refine ⟨?_, hp⟩
      rw [Name.bytes, List.mem_ofFn]
      exact ⟨index, Function.update_self _ _ _⟩
  | case3 a index fileName parentName hslash hnul ih =>
      rw [nameLoop, if_neg hslash, if_neg hnul]
      exact ih hp

/-- The scan's records start at or behind its own start, each behind the data of the one
before. -/
lemma scan_starts (s : List (BitVec 8)) (fileStart : ℕ) :
    (∀ a ∈ (scan s fileStart).1, fileStart ≤ a ∧ (readEntry s a).fileType ≠ .invalid) ∧
      (scan s fileStart).1.Pairwise fun a b => nextStart s a ≤ b := by
  induction fileStart using scan.induct s with
  | case1 fileStart hmagic hend =>
      rw [scan, if_pos hmagic, if_pos hend]
      exact ⟨by simp, .nil⟩
  | case2 fileStart hmagic hend hmode =>
      rw [scan, if_pos hmagic, if_neg hend, if_pos hmode]
      exact ⟨by simp, .nil⟩
  | case3 fileStart hmagic hend hmode ih =>
      rw [scan, if_pos hmagic, if_neg hend, if_neg hmode]
      obtain ⟨hmem, hpair⟩ := ih
      have hge := nextStart_ge s fileStart
      refine ⟨fun a ha => ?_, .cons (fun a ha => (hmem a ha).1) hpair⟩
      rcases List.mem_cons.mp ha with rfl | ha'
      · exact ⟨le_rfl, hmode⟩
      · exact ⟨by have := (hmem a ha').1; omega, (hmem a ha').2⟩
  | case4 fileStart hmagic =>
      rw [scan, if_neg hmagic]
      exact ⟨by simp, .nil⟩

lemma entries_read {s : List (BitVec 8)} {e : Entry} (he : e ∈ entries s) : e.Read := by
  obtain ⟨a, ha, rfl⟩ := List.mem_map.mp he
  have hnul := nameLoop_nul s (a + 110) 0 (fun _ => 0) (fun _ => 0) rfl
  exact ⟨((scan_starts s 0).1 a ha).2, intFromString_ge s (a + 54) 8, hnul.1, hnul.2⟩

/-- The data of later records lies behind that of earlier ones. -/
lemma entries_pairwise (s : List (BitVec 8)) :
    (entries s).Pairwise fun e e' => e.data < e'.data := by
  refine List.pairwise_map.mpr ((scan_starts s 0).2.imp fun {a b} hab => ?_)
  have ha := (nextStart_ge s a).2
  have hb := (nextStart_ge s b).1
  show dataStart s a < dataStart s b
  omega

end SkinnyArm
