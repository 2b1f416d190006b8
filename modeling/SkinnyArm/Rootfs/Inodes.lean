import SkinnyArm.Rootfs.Step

/-!
The inode table while entries are loaded.

The table and its two cursors depend on the entries alone: `InodeTable.advance` is what loading
one entry does to them (`load_inodeTable`).

* **Slots.** A regular entry whose size is not 0 writes its numbers to the slot `current_ino`
  points to, and one with data writes data and size to the slot after the cursor
  (`dataSlot`).  `Entry.width` is how far the cursor moves.
* **Last writer.** What a slot holds in the end is what the last entry wrote to it
  (`data_of_last`), and it is some entry's (`data_origin`, `numbers_origin`).
-/

namespace SkinnyArm

/-! ### The entries that move the cursor -/

/-- A regular entry with data. -/
def Entry.HasData (e : Entry) : Prop := e.fileType = .regular ∧ 0 < e.fileSize

/-- A regular entry whose size is not 0. -/
def Entry.Numbered (e : Entry) : Prop := e.fileType = .regular ∧ e.fileSize ≠ 0

instance (e : Entry) : Decidable e.HasData := inferInstanceAs (Decidable (_ ∧ _))

instance (e : Entry) : Decidable e.Numbered := inferInstanceAs (Decidable (_ ∧ _))

lemma Entry.HasData.numbered {e : Entry} (h : e.HasData) : e.Numbered :=
  ⟨h.1, h.2.ne'⟩

/-- How far an entry moves the inode cursor: over the slot of its numbers, and that of its data. -/
def Entry.width (e : Entry) : ℕ :=
  if e.HasData then 2 else if e.Numbered then 1 else 0

/-- How far the entries of a list move the inode cursor. -/
def width (es : List Entry) : ℕ := (es.map Entry.width).sum

@[simp] lemma width_nil : width [] = 0 := rfl

@[simp] lemma width_append (es es' : List Entry) : width (es ++ es') = width es + width es' := by
  simp [width]

@[simp] lemma width_singleton (e : Entry) : width [e] = e.width := by simp [width]

/-- The slot an entry's data goes to, after the given ones. -/
def dataSlot (es : List Entry) : Slot := slot (width es + 1)

/-! ### The table -/

/-- The inodes with the two cursors. -/
structure InodeTable where
  inodes : Slot → Inode
  iindex : Slot
  currentIno : Slot

/-- The inodes and cursors of the tables. -/
def Ramfs.inodeTable (r : Ramfs) : InodeTable := ⟨r.inodes, r.iindex, r.currentIno⟩

namespace InodeTable

variable (t : InodeTable)

/-- The first inode with an entry's numbers. -/
def find (e : Entry) : Option Slot :=
  (List.finRange 256).find? fun i =>
    (t.inodes i).deviceNumber = e.deviceNr ∧ (t.inodes i).inodeNumber = e.inodeNr

/-- The table after an entry's numbers are written. -/
def setNumbers (e : Entry) : InodeTable where
  inodes := Function.update t.inodes t.currentIno
    { t.inodes t.currentIno with deviceNumber := e.deviceNr, inodeNumber := e.inodeNr }
  iindex := t.iindex + 1
  currentIno := t.iindex + 1

/-- The table after an entry's data is recorded. -/
def setData (e : Entry) : InodeTable where
  inodes := Function.update t.inodes t.iindex
    { t.inodes t.iindex with data := some e.data, dataSize := BitVec.ofInt 32 e.fileSize }
  iindex := t.iindex + 1
  currentIno := t.iindex

/-- The table after an entry is loaded. -/
def advance (e : Entry) : InodeTable :=
  if e.HasData then (t.setNumbers e).setData e
  else if e.Numbered then t.setNumbers e
  else t

variable {t} {e : Entry}

lemma iindex_advance {n : ℕ} (h : t.iindex = slot n) :
    (t.advance e).iindex = slot (n + e.width) := by
  rw [advance, Entry.width]
  split_ifs with hd hn
  · show t.iindex + 1 + 1 = _
    rw [h, slot_add_one, slot_add_one]
  · show t.iindex + 1 = _
    rw [h, slot_add_one]
  · exact h

/-- Once an entry has moved the cursor, numbers go to the slot right after where it was. -/
lemma currentIno_advance :
    (t.advance e).currentIno = if e.Numbered then t.iindex + 1 else t.currentIno := by
  rw [advance]
  split_ifs with hd hn hn
  · rfl
  · exact absurd hd.numbered hn
  · rfl
  · rfl

/-- Data is written by entries with data only, to the slot after the cursor. -/
lemma data_advance (i : Slot) :
    ((t.advance e).inodes i).data =
        (if e.HasData ∧ i = t.iindex + 1 then some e.data else (t.inodes i).data) ∧
      ((t.advance e).inodes i).dataSize =
        if e.HasData ∧ i = t.iindex + 1 then BitVec.ofInt 32 e.fileSize
        else (t.inodes i).dataSize := by
  have hnumbers : ∀ j, ((t.setNumbers e).inodes j).data = (t.inodes j).data ∧
      ((t.setNumbers e).inodes j).dataSize = (t.inodes j).dataSize := by
    intro j
    by_cases hj : j = t.currentIno
    · subst hj
      simp [setNumbers]
    · simp [setNumbers, hj]
  rw [advance]
  split_ifs with hd hi hn hi hi
  · rw [hi.2]
    simp [setData, setNumbers]
  · have hne : i ≠ (t.setNumbers e).iindex := fun h => hi ⟨hd, h⟩
    simp only [setData, Function.update_of_ne hne]
    exact hnumbers i
  · exact absurd hi.1 hd
  · exact hnumbers i
  · exact absurd hi.1 hd
  · exact ⟨rfl, rfl⟩

/-- Numbers are written by entries of a size other than 0 only, to the slot `current_ino` points
to. -/
lemma numbers_advance (i : Slot) :
    ((t.advance e).inodes i).deviceNumber =
        (if e.Numbered ∧ i = t.currentIno then e.deviceNr else (t.inodes i).deviceNumber) ∧
      ((t.advance e).inodes i).inodeNumber =
        if e.Numbered ∧ i = t.currentIno then e.inodeNr else (t.inodes i).inodeNumber := by
  have hdata : ∀ (t' : InodeTable) (j : Slot),
      ((t'.setData e).inodes j).deviceNumber = (t'.inodes j).deviceNumber ∧
        ((t'.setData e).inodes j).inodeNumber = (t'.inodes j).inodeNumber := by
    intro t' j
    by_cases hj : j = t'.iindex
    · subst hj
      simp [setData]
    · simp [setData, hj]
  have hnumbers : e.Numbered →
      ((t.setNumbers e).inodes i).deviceNumber =
          (if e.Numbered ∧ i = t.currentIno then e.deviceNr else (t.inodes i).deviceNumber) ∧
        ((t.setNumbers e).inodes i).inodeNumber =
          if e.Numbered ∧ i = t.currentIno then e.inodeNr else (t.inodes i).inodeNumber := by
    intro hn
    by_cases hi : i = t.currentIno
    · subst hi
      simp [setNumbers, hn]
    · simp [setNumbers, hi]
  rw [advance]
  by_cases hd : e.HasData
  · rw [if_pos hd, (hdata _ i).1, (hdata _ i).2]
    exact hnumbers hd.numbered
  · rw [if_neg hd]
    by_cases hn : e.Numbered
    · rw [if_pos hn]
      exact hnumbers hn
    · simp [hn]

end InodeTable

/-! ### Loading -/

namespace Ramfs

variable {r r' : Ramfs} {e : Entry}

lemma setType_inodeTable :
    ((r.setType e).setName e).inodeTable =
      if e.Numbered then r.inodeTable.setNumbers e else r.inodeTable := by
  show (r.setType e).inodeTable = _
  rw [setType]
  by_cases hn : e.Numbered
  · rw [if_pos hn]
    simp only [hn.1, if_neg hn.2]
    rfl
  · rw [if_neg hn]
    cases ht : e.fileType with
    | directory => rfl
    | invalid => rfl
    | regular =>
        have h0 : e.fileSize = 0 := not_not.mp fun h0 => hn ⟨ht, h0⟩
        simp only [if_pos h0]
        cases r.findInode e.deviceNr e.inodeNr with
        | none => rfl
        | some i => rfl

/-- Recording the data of an entry, once its numbers have moved the cursor. -/
lemma setData_inodeTable (hcur : e.HasData → r.currentIno = r.iindex) :
    (r.setData e).nextFileSlot.inodeTable =
      if e.HasData then r.inodeTable.setData e else r.inodeTable := by
  show (r.setData e).inodeTable = _
  rw [setData]
  by_cases hd : e.HasData
  · rw [if_pos ⟨hd.2, hd.1⟩, if_pos hd]
    simp only [inodeTable, setInode, setFile, InodeTable.setData, hcur hd,
      Function.update_self, Function.update_idem]
  · rw [if_neg (fun h => hd ⟨h.2, h.1⟩), if_neg hd]

/-- **Loading an entry** advances the inode table, whatever is in `files`. -/
lemma load_inodeTable (h : r.load e = .ok r') : r'.inodeTable = r.inodeTable.advance e := by
  obtain ⟨r₁, hsave, rfl⟩ := load_ok h
  have hframe := hsave.frame
  have htable : r₁.inodeTable = ((r.setType e).setName e).inodeTable := by
    simp only [inodeTable, hframe]
  rw [setType_inodeTable] at htable
  have hcur : e.HasData → r₁.currentIno = r₁.iindex := fun hd => by
    rw [if_pos hd.numbered] at htable
    have hi := congrArg InodeTable.iindex htable
    have hc := congrArg InodeTable.currentIno htable
    exact hc.trans hi.symm
  rw [setData_inodeTable hcur, htable, InodeTable.advance]
  by_cases hd : e.HasData
  · rw [if_pos hd, if_pos hd, if_pos hd.numbered]
  · rw [if_neg hd, if_neg hd]

end Ramfs

/-! ### The table after a list of entries -/

/-- The inode table after the given entries, from zeroed tables. -/
def inodeTable (es : List Entry) : InodeTable := es.foldl InodeTable.advance Ramfs.zero.inodeTable

lemma inodeTable_concat (es : List Entry) (e : Entry) :
    inodeTable (es ++ [e]) = (inodeTable es).advance e := by
  rw [inodeTable, List.foldl_append]
  rfl

/-- The cursor is the width of the entries so far. -/
lemma iindex_inodeTable (es : List Entry) : (inodeTable es).iindex = slot (width es) := by
  induction es using List.reverseRecOn with
  | nil => rfl
  | append_singleton es e ih =>
      rw [inodeTable_concat, InodeTable.iindex_advance ih, width_append, width_singleton]

lemma dataSlot_eq (es : List Entry) : dataSlot es = (inodeTable es).iindex + 1 := by
  rw [iindex_inodeTable, slot_add_one, dataSlot]

/-- What later entries do not write stays. -/
lemma data_foldl (es es' : List Entry) {i : Slot}
    (h : ∀ pre e post, es' = pre ++ e :: post → e.HasData → dataSlot (es ++ pre) ≠ i) :
    ((inodeTable (es ++ es')).inodes i).data = ((inodeTable es).inodes i).data ∧
      ((inodeTable (es ++ es')).inodes i).dataSize = ((inodeTable es).inodes i).dataSize := by
  induction es' using List.reverseRecOn with
  | nil => simp
  | append_singleton es' e ih =>
      have hi : ¬ (e.HasData ∧ i = (inodeTable (es ++ es')).iindex + 1) := fun ⟨hd, hi⟩ =>
        h es' e [] rfl hd ((dataSlot_eq _).trans hi.symm)
      have hstep := InodeTable.data_advance (t := inodeTable (es ++ es')) (e := e) i
      rw [if_neg hi, if_neg hi] at hstep
      rw [← List.append_assoc, inodeTable_concat, hstep.1, hstep.2]
      refine ih fun pre e' post heq hd => ?_
      exact h pre e' (post ++ [e]) (by rw [heq]; simp) hd

/-- **The last writer's data**: an entry with data finds them in its slot as long as no later entry
takes the slot. -/
lemma data_of_last (es es' : List Entry) {e : Entry} (hd : e.HasData)
    (h : ∀ pre e' post, es' = pre ++ e' :: post → e'.HasData →
      dataSlot (es ++ e :: pre) ≠ dataSlot es) :
    ((inodeTable (es ++ e :: es')).inodes (dataSlot es)).data = some e.data ∧
      ((inodeTable (es ++ e :: es')).inodes (dataSlot es)).dataSize =
        BitVec.ofInt 32 e.fileSize := by
  have hcons : es ++ e :: es' = (es ++ [e]) ++ es' := by simp
  have hkept := data_foldl (es ++ [e]) es' (i := dataSlot es)
    fun pre e' post heq hd' => by
      have := h pre e' post heq hd'
      simpa using this
  have hstep := InodeTable.data_advance (t := inodeTable es) (e := e) (dataSlot es)
  rw [if_pos ⟨hd, dataSlot_eq es⟩, if_pos ⟨hd, dataSlot_eq es⟩] at hstep
  rw [hcons, hkept.1, hkept.2, inodeTable_concat]
  exact hstep

lemma Entry.HasData.width_eq {e : Entry} (h : e.HasData) : e.width = 2 := if_pos h

lemma dataSlot_eq_iff {es es' : List Entry} :
    dataSlot es = dataSlot es' ↔ width es % 256 = width es' % 256 := by
  rw [dataSlot, dataSlot, slot_eq_iff]
  omega

/-- As long as the cursor does not go round, the data of every entry stays. -/
lemma data_of_width {es es' : List Entry} {e : Entry} (hd : e.HasData)
    (hw : width (es ++ e :: es') ≤ 256) :
    ((inodeTable (es ++ e :: es')).inodes (dataSlot es)).data = some e.data ∧
      ((inodeTable (es ++ e :: es')).inodes (dataSlot es)).dataSize =
        BitVec.ofInt 32 e.fileSize := by
  refine data_of_last es es' hd fun pre e' post heq hd' hslot => ?_
  rw [dataSlot_eq_iff] at hslot
  have hcons : ∀ (x : Entry) (l : List Entry), width (x :: l) = x.width + width l := fun x l => by
    rw [← List.singleton_append, width_append, width_singleton]
  rw [heq] at hw
  simp only [width_append, hcons, hd.width_eq, hd'.width_eq] at hw hslot
  omega

/-! ### Who wrote a slot -/

/-- Data in a slot is that of an entry that wrote it there. -/
lemma data_origin {es : List Entry} {i : Slot} {a : ℕ}
    (h : ((inodeTable es).inodes i).data = some a) :
    ∃ k e, es[k]? = some e ∧ e.HasData ∧ dataSlot (es.take k) = i ∧ e.data = a := by
  induction es using List.reverseRecOn with
  | nil => exact absurd h (by simp [inodeTable, Ramfs.inodeTable, Ramfs.zero])
  | append_singleton es e ih =>
      rw [inodeTable_concat, (InodeTable.data_advance i).1] at h
      split_ifs at h with hwrite
      · refine ⟨es.length, e, getElem?_concat.mpr (.inr ⟨rfl, rfl⟩), hwrite.1, ?_,
          Option.some.inj h⟩
        rw [take_concat le_rfl, List.take_length, dataSlot_eq, hwrite.2]
      · obtain ⟨k, e', hget, hd, hslot, ha⟩ := ih h
        have hk := (List.getElem?_eq_some_iff.mp hget).1
        refine ⟨k, e', getElem?_concat.mpr (.inl hget), hd, ?_, ha⟩
        rw [take_concat hk.le, hslot]

/-- The numbers in a slot are those of an entry that wrote them there, or no entry did. -/
lemma numbers_origin (es : List Entry) (i : Slot) :
    (∃ k e, es[k]? = some e ∧ e.Numbered ∧ (inodeTable (es.take k)).currentIno = i ∧
        ((inodeTable es).inodes i).deviceNumber = e.deviceNr ∧
        ((inodeTable es).inodes i).inodeNumber = e.inodeNr) ∨
      (∀ k e, es[k]? = some e → e.Numbered → (inodeTable (es.take k)).currentIno ≠ i) ∧
        ((inodeTable es).inodes i).deviceNumber = 0 ∧
        ((inodeTable es).inodes i).inodeNumber = 0 := by
  induction es using List.reverseRecOn with
  | nil => exact .inr ⟨fun k e h => absurd h (by simp), rfl, rfl⟩
  | append_singleton es e ih =>
      have hstep := InodeTable.numbers_advance (t := inodeTable es) (e := e) i
      rw [inodeTable_concat, hstep.1, hstep.2]
      by_cases hwrite : e.Numbered ∧ i = (inodeTable es).currentIno
      · refine .inl ⟨es.length, e, getElem?_concat.mpr (.inr ⟨rfl, rfl⟩), hwrite.1, ?_, ?_⟩
        · rw [take_concat le_rfl, List.take_length, hwrite.2]
        · rw [if_pos hwrite, if_pos hwrite]
          exact ⟨rfl, rfl⟩
      · rw [if_neg hwrite, if_neg hwrite]
        rcases ih with ⟨k, e', hget, hn, hslot, hnumbers⟩ | ⟨hnone, hnumbers⟩
        · have hk := (List.getElem?_eq_some_iff.mp hget).1
          exact .inl ⟨k, e', getElem?_concat.mpr (.inl hget), hn, by rw [take_concat hk.le, hslot],
            hnumbers⟩
        · refine .inr ⟨fun k e' hget hn => ?_, hnumbers⟩
          rcases getElem?_concat.mp hget with hget' | ⟨rfl, rfl⟩
          · have hk := (List.getElem?_eq_some_iff.mp hget').1
            rw [take_concat hk.le]
            exact hnone k e' hget' hn
          · rw [take_concat le_rfl, List.take_length]
            exact fun hslot => hwrite ⟨hn, hslot.symm⟩

end SkinnyArm
