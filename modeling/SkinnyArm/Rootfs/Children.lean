import SkinnyArm.Rootfs.Inodes

/-!
The lists of children while an entry is loaded.

* **Adding a child.** `Added.siblings` is about any family of lists, one for each slot, that the
  tables hold: the slot found gets the current file at its end, every other list stays.
* **The rest of a file.** `Added.kept` and `ParentSaved.kept`: no other field changes, and no union
  starts or ceases to hold an inode.  `files_setData`: recording the data touches one union.
-/

namespace SkinnyArm

/-- Tables that hold a list of children for every slot. -/
def HoldsChildren (r : Ramfs) (l : Slot → List Slot) : Prop :=
  ∀ p, Siblings r.files (r.files p).link.children (l p)

/-- Lists that share no slot. -/
def Apart (l : Slot → List Slot) : Prop := ∀ p q c, c ∈ l p → c ∈ l q → p = q

namespace Ramfs

variable {r r' : Ramfs} {e : Entry} {p : Slot}

/-- The fields of every file that adding a child keeps. -/
lemma Added.kept (h : Added r p r') (i : Slot) :
    (r'.files i).fileName = (r.files i).fileName ∧ (r'.files i).type = (r.files i).type ∧
      (r'.files i).parent = (r.files i).parent ∧
      ∀ j, (r'.files i).link = .inode j ↔ (r.files i).link = .inode j := by
  cases h with
  | first hlink =>
      rcases eq_or_ne i p with rfl | hi
      · simp [setFile, hlink]
      · simp [setFile, hi]
  | @last c l hlink hlast =>
      rcases eq_or_ne i l with rfl | hi
      · simp [setFile]
      · simp [setFile, hi]

section Lists

variable {l : Slot → List Slot}

/-- The current file becomes the only child. -/
lemma holdsChildren_first (hl : HoldsChildren r l) (hlink : (r.files p).link = .null)
    (hcur : (r.files r.findex).nextFile = none) :
    HoldsChildren (r.setFile p { r.files p with link := .file r.findex })
      fun q => if q = p then l p ++ [r.findex] else l q := by
  have hnext : ∀ i, ((r.setFile p { r.files p with link := .file r.findex }).files i).nextFile =
      (r.files i).nextFile := by
    intro i
    rcases eq_or_ne i p with rfl | hi
    · simp [setFile]
    · simp [setFile, hi]
  intro q
  rcases eq_or_ne q p with rfl | hq
  · have hnil : l q = [] := by
      have hchain := hl q
      rw [hlink] at hchain
      exact List.map_eq_nil_iff.mp (Chain.null_iff.mp hchain)
    have hone : Siblings r.files (some r.findex) [r.findex] := siblings_singleton hcur
    simp only [if_pos, hnil, List.nil_append]
    simpa [setFile, Link.children] using hone.congr fun c _ => hnext c
  · have hsame := (hl q).congr fun c _ => hnext c
    simpa [setFile, hq] using hsame

/-- The current file is linked behind the last child. -/
lemma holdsChildren_last {c m : Slot} (hl : HoldsChildren r l) (hapart : Apart l)
    (hlink : (r.files p).link = .file c) (hlast : r.lastSibling 256 c = some m)
    (hcur : (r.files r.findex).nextFile = none) (hnew : r.findex ∉ l p) :
    HoldsChildren (r.setFile m { r.files m with nextFile := some r.findex })
      fun q => if q = p then l p ++ [r.findex] else l q := by
  have hchain : Siblings r.files (some c) (l p) := by
    have hchain := hl p
    rw [hlink] at hchain
    exact hchain
  obtain rfl : (l p).getLast hchain.ne_nil = m := by
    rw [lastSibling_of_siblings hchain hchain.length_le] at hlast
    exact Option.some.inj hlast
  have hmem := List.getLast_mem hchain.ne_nil
  generalize hm : (l p).getLast hchain.ne_nil = m at hmem ⊢
  have hlinks : ∀ i, ((r.setFile m { r.files m with nextFile := some r.findex }).files i).link =
      (r.files i).link := by
    intro i
    rcases eq_or_ne i m with rfl | hi
    · simp [setFile]
    · simp [setFile, hi]
  have hnext : ∀ i, i ≠ m →
      ((r.setFile m { r.files m with nextFile := some r.findex }).files i).nextFile =
        (r.files i).nextFile := by
    intro i hi
    simp [setFile, hi]
  intro q
  rcases eq_or_ne q p with rfl | hq
  · simp only [if_pos, hlinks, hlink]
    have hnotcur : r.findex ≠ m := fun heq => hnew (heq ▸ hmem)
    refine hchain.concat hchain.ne_nil ?_ ((hnext _ hnotcur).trans hcur) fun d _ hd => ?_
    · rw [hm]
      simp [setFile]
    · exact hnext d (hm ▸ hd)
  · simp only [if_neg hq, hlinks]
    exact (hl q).congr fun d hd => hnext d fun hdm => hq (hapart q p d hd (hdm ▸ hmem))

/-- **A child added**: the slot found gets the current file at the end of its list, and all other
lists are as before. -/
lemma Added.siblings (h : Added r p r') (hl : HoldsChildren r l) (hapart : Apart l)
    (hcur : (r.files r.findex).nextFile = none) (hnew : ∀ q, r.findex ∉ l q) :
    HoldsChildren r' fun q => if q = p then l p ++ [r.findex] else l q := by
  cases h with
  | first hlink => exact holdsChildren_first hl hlink hcur
  | last hlink hlast => exact holdsChildren_last hl hapart hlink hlast hcur (hnew p)

end Lists

/-- The fields of every file that saving the parent keeps, and the parent it saves. -/
lemma ParentSaved.kept (h : ParentSaved r e r') (i : Slot) :
    (r'.files i).fileName = (r.files i).fileName ∧ (r'.files i).type = (r.files i).type ∧
      ((r'.files i).parent =
        if i = r.findex ∧ e.parentName 0 ≠ 0 then r.searchFile e.parentName
        else (r.files i).parent) ∧
      ∀ j, (r'.files i).link = .inode j ↔ (r.files i).link = .inode j := by
  cases h with
  | noParent hno => simp [hno]
  | missing hpar hsearch =>
      rcases eq_or_ne i r.findex with rfl | hi
      · rw [if_pos ⟨rfl, hpar⟩, hsearch]
        simp [setFile, currentFile]
      · simp [setFile, hi]
  | @found p r' hpar hsearch hadd =>
      have hkept := hadd.kept i
      rw [hkept.1, hkept.2.1, hkept.2.2.1]
      simp only [hkept.2.2.2]
      rcases eq_or_ne i r.findex with rfl | hi
      · rw [if_pos ⟨rfl, hpar⟩, hsearch]
        simp [setFile, currentFile]
      · simp [setFile, hi]

/-- Recording the data writes the union of the current slot only. -/
lemma files_setData (r : Ramfs) (e : Entry) (i : Slot) :
    (r.setData e).nextFileSlot.files i =
      if i = r.findex ∧ e.HasData then { r.files i with link := .inode r.currentIno }
      else r.files i := by
  show (r.setData e).files i = _
  rw [Ramfs.setData]
  by_cases hd : e.HasData
  · rw [if_pos ⟨hd.2, hd.1⟩]
    rcases eq_or_ne i r.findex with rfl | hi
    · simp [Ramfs.setFile, Ramfs.setInode, Ramfs.currentFile, hd]
    · simp [Ramfs.setFile, Ramfs.setInode, hi]
  · rw [if_neg fun hh => hd ⟨hh.2, hh.1⟩, if_neg fun hh => hd hh.2]

/-- The fields of every file that recording the data keeps. -/
lemma setData_kept (r : Ramfs) (e : Entry) (i : Slot) :
    ((r.setData e).nextFileSlot.files i).fileName = (r.files i).fileName ∧
      ((r.setData e).nextFileSlot.files i).type = (r.files i).type ∧
      ((r.setData e).nextFileSlot.files i).parent = (r.files i).parent ∧
      ((r.setData e).nextFileSlot.files i).nextFile = (r.files i).nextFile := by
  rw [files_setData]
  split_ifs
  · exact ⟨rfl, rfl, rfl, rfl⟩
  · exact ⟨rfl, rfl, rfl, rfl⟩

lemma findex_setData (r : Ramfs) (e : Entry) :
    (r.setData e).nextFileSlot.findex = r.findex + 1 := by
  show (r.setData e).findex + 1 = _
  rw [setData]
  split_ifs
  · rfl
  · rfl

/-- A load moves the file cursor by one slot, and leaves the entry's name where it was. -/
lemma name_load (h : r.load e = .ok r') :
    r'.findex = r.findex + 1 ∧ (r'.files r.findex).fileName = e.name := by
  obtain ⟨r₁, hsave, rfl⟩ := load_ok h
  have hcur := hsave.frame.2.1.trans (findex_setName r e)
  refine ⟨by rw [findex_setData, hcur], ?_⟩
  rw [(setData_kept r₁ e _).1, (hsave.kept _).1, files_setName, Function.update_self]
  rfl

end Ramfs

/-- The file cursor counts the entries loaded. -/
lemma findex_loadAll {es : List Entry} {r : Ramfs} (h : loadAll .zero es = .ok r) :
    r.findex = slot es.length := by
  induction es using List.reverseRecOn generalizing r with
  | nil =>
      rw [← Ramfs.Loaded.ok.inj h]
      rfl
  | append_singleton es e ih =>
      obtain ⟨r₁, hr₁, hload⟩ := loadAll_concat h
      rw [(Ramfs.name_load hload).1, ih hr₁, slot_add_one, List.length_append,
        List.length_singleton]

end SkinnyArm
