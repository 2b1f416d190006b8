import SkinnyArm.Rootfs.Capacity
import SkinnyArm.Rootfs.Occupants

/-!
The union of `children` and `ino`, and the type tag beside it.

* **Uses.** `Ramfs.loadUses` lists the reads and writes of the union that `init_ramfs` makes for one
  entry, each with the file as it is then, and `Ramfs.readUses` those of `read`.  They are all there
  are: a union that no listed write is on stays (`Ramfs.link_load`).
* **The property.** `UnionUse.Proper` is the rule of the tag for one use; `UnionTagged` is that all
  uses keep it, and `UnionRight` also that `read` answers -1 where it finds no inode.
* **The results.** `unionRight_never`: no archive has `UnionRight`, and those with `UnionTagged` are
  the ones whose searches all land on a slot of the right type.  Where the model of `init_ramfs`
  stops at an inode read as a file, the tag is not kept either.
-/

namespace SkinnyArm

open Newc

/-! ### Uses of the union -/

/-- What is done with the union. -/
inductive UseKind where
  | readChildren
  | writeChildren
  | writeIno
  | derefIno
  deriving DecidableEq

/-- A use of the union of a slot, with the file in the slot at the time. -/
structure UnionUse where
  kind : UseKind
  slot : Slot
  file : File

namespace Ramfs

variable (r : Ramfs)

/-- The uses in the switch on the file type. -/
def typeUses (e : Entry) : List UnionUse :=
  match e.fileType with
  | .directory =>
      [⟨.writeChildren, r.findex, { r.currentFile with type := .directory }⟩,
        ⟨.writeIno, r.findex, { r.currentFile with type := .directory, link := .null }⟩]
  | .regular =>
      if e.fileSize = 0 ∧ r.findInode e.deviceNr e.inodeNr ≠ none then
        [⟨.writeIno, r.findex, r.currentFile⟩]
      else []
  | .invalid => []

/-- The uses when a child is added to a slot. -/
def childUses (p : Slot) : List UnionUse :=
  match (r.files p).link with
  | .null => [⟨.readChildren, p, r.files p⟩, ⟨.writeChildren, p, r.files p⟩]
  | .file _ | .inode _ => [⟨.readChildren, p, r.files p⟩]

/-- The uses when the parent is saved. -/
def parentUses (e : Entry) : List UnionUse :=
  if e.parentName 0 = 0 then []
  else
    match r.searchFile e.parentName with
    | none => []
    | some p => (r.setFile r.findex { r.currentFile with parent := some p }).childUses p

/-- The uses when the data is recorded. -/
def dataUses (e : Entry) : List UnionUse :=
  if 0 < e.fileSize ∧ e.fileType = .regular then [⟨.writeIno, r.findex, r.currentFile⟩] else []

/-- The uses for one entry. -/
def loadUses (e : Entry) : List UnionUse :=
  r.typeUses e ++ ((r.setType e).setName e).parentUses e ++
    match ((r.setType e).setName e).saveParent e with
    | .ok r' => r'.dataUses e
    | .spins | .wild => []

/-- The use in `read`. -/
def readUses (fileName : List (BitVec 8)) : List UnionUse :=
  match r.searchFileBytes fileName with
  | none => []
  | some p => [⟨.derefIno, p, r.files p⟩]

end Ramfs

/-- A use that goes by the tag: `children` of a `DIRECTORY` only, `ino` written to a `REGULAR` slot
or the one that is being initialised, and dereferenced in a `REGULAR` slot unless it is `NULL`. -/
def UnionUse.Proper (u : UnionUse) (current : Slot) : Prop :=
  match u.kind with
  | .readChildren | .writeChildren => u.file.type = .directory
  | .writeIno => u.file.type = .regular ∨ u.slot = current
  | .derefIno => u.file.type = .regular ∧ u.file.link ≠ .null

section Uses

variable {r r' : Ramfs} {e : Entry} {i p : Slot} {u : UnionUse}

/-- Storing the type writes the union of the current slot, or leaves it. -/
lemma Ramfs.link_setName (hi : ∀ u ∈ r.typeUses e, u.slot = i → u.kind = .readChildren) :
    (((r.setType e).setName e).files i).link = (r.files i).link := by
  rw [files_setName]
  rcases eq_or_ne i r.findex with rfl | hne
  · rw [Function.update_self]
    show r.startLink e = r.currentFile.link
    rw [startLink]
    cases ht : e.fileType with
    | directory =>
        rw [typeUses, ht] at hi
        exact absurd (hi _ List.mem_cons_self rfl) (by simp)
    | invalid => rfl
    | regular =>
        by_cases h0 : e.fileSize = 0
        · cases hfind : r.findInode e.deviceNr e.inodeNr with
          | none => simp [h0]
          | some j =>
              have hwrites : e.fileSize = 0 ∧ r.findInode e.deviceNr e.inodeNr ≠ none :=
                ⟨h0, by simp [hfind]⟩
              rw [typeUses, ht] at hi
              simp only [if_pos hwrites] at hi
              exact absurd (hi _ List.mem_cons_self rfl) (by simp)
        · simp [h0]
  · rw [Function.update_of_ne hne]

/-- Adding a child writes `children` of the slot it is added to, or leaves it. -/
lemma Ramfs.Added.link (h : Added r p r')
    (hi : ∀ u ∈ r.childUses p, u.slot = i → u.kind = .readChildren) :
    (r'.files i).link = (r.files i).link := by
  cases h with
  | first hlink =>
      rw [childUses, hlink] at hi
      rcases eq_or_ne i p with rfl | hne
      · exact absurd (hi _ (List.mem_cons_of_mem _ List.mem_cons_self) rfl) (by simp)
      · simp [setFile, hne]
  | @last c m _ _ =>
      rcases eq_or_ne i m with rfl | hne
      · simp [setFile]
      · simp [setFile, hne]

/-- Saving the parent writes `children` of the slot found, or leaves it. -/
lemma Ramfs.ParentSaved.link (h : ParentSaved r e r')
    (hi : ∀ u ∈ r.parentUses e, u.slot = i → u.kind = .readChildren) :
    (r'.files i).link = (r.files i).link := by
  cases h with
  | noParent => rfl
  | missing => exact (setParent_files r none i).2.2.2
  | @found p _ hpar hsearch hadd =>
      rw [parentUses, if_neg hpar, hsearch] at hi
      exact (hadd.link hi).trans (setParent_files r (some p) i).2.2.2

/-- **The uses are complete**: a union that no listed write is on stays. -/
lemma Ramfs.link_load (h : r.load e = .ok r')
    (hi : ∀ u ∈ r.loadUses e, u.slot = i → u.kind = .readChildren) :
    (r'.files i).link = (r.files i).link := by
  obtain ⟨r₁, hsave, rfl⟩ := load_eq_ok h
  rw [loadUses, hsave] at hi
  have hdata : ((r₁.setData e).nextFileSlot.files i).link = (r₁.files i).link := by
    rw [files_setData]
    split_ifs with hwrites
    · obtain ⟨rfl, hd⟩ := hwrites
      have hmem : ⟨.writeIno, r₁.findex, r₁.currentFile⟩ ∈ r₁.dataUses e := by
        rw [dataUses, if_pos ⟨hd.2, hd.1⟩]
        exact List.mem_cons_self
      exact absurd (hi _ (List.mem_append_right _ hmem) rfl) (by simp)
    · rfl
  calc ((r₁.setData e).nextFileSlot.files i).link
      = (r₁.files i).link := hdata
    _ = (((r.setType e).setName e).files i).link :=
        (saveParent_ok hsave).link fun u hu =>
          hi u (List.mem_append_left _ (List.mem_append_right _ hu))
    _ = (r.files i).link :=
        link_setName fun u hu => hi u (List.mem_append_left _ (List.mem_append_left _ hu))

/-! ### Uses that go by the tag -/

lemma Ramfs.typeUses_proper (hu : u ∈ r.typeUses e) : u.Proper r.findex := by
  rw [typeUses] at hu
  cases ht : e.fileType with
  | directory =>
      rw [ht] at hu
      simp only [List.mem_cons, List.not_mem_nil, or_false] at hu
      rcases hu with rfl | rfl
      · rfl
      · exact .inr rfl
  | regular =>
      rw [ht] at hu
      simp only at hu
      split_ifs at hu with hwrites
      · rw [List.mem_singleton.mp hu]
        exact .inr rfl
      · exact absurd hu List.not_mem_nil
  | invalid =>
      rw [ht] at hu
      exact absurd hu List.not_mem_nil

lemma Ramfs.dataUses_proper (hu : u ∈ r.dataUses e) : u.Proper r.findex := by
  rw [dataUses] at hu
  split_ifs at hu with hwrites
  · rw [List.mem_singleton.mp hu]
    exact .inr rfl
  · exact absurd hu List.not_mem_nil

/-- Adding a child goes by the tag exactly if it is added to a directory. -/
lemma Ramfs.childUses_proper_iff (current : Slot) :
    (∀ u ∈ r.childUses p, u.Proper current) ↔ (r.files p).type = .directory := by
  rw [childUses]
  refine ⟨fun h => ?_, fun h u hu => ?_⟩
  · cases hlink : (r.files p).link with
    | null | file c | inode j =>
        rw [hlink] at h
        exact h _ List.mem_cons_self
  · cases hlink : (r.files p).link with
    | null =>
        rw [hlink] at hu
        simp only [List.mem_cons, List.not_mem_nil, or_false] at hu
        rcases hu with rfl | rfl
        · exact h
        · exact h
    | file c | inode j =>
        rw [hlink] at hu
        rw [List.mem_singleton.mp hu]
        exact h

/-- **The uses for one entry** go by the tag exactly if the search for its parent, where it finds a
slot, finds a directory. -/
lemma Ramfs.loadUses_proper_iff :
    (∀ u ∈ r.loadUses e, u.Proper r.findex) ↔
      (e.parentName 0 ≠ 0 → ∀ p, ((r.setType e).setName e).searchFile e.parentName = some p →
        (((r.setType e).setName e).files p).type = .directory) := by
  have hparent : (∀ u ∈ ((r.setType e).setName e).parentUses e, u.Proper r.findex) ↔
      (e.parentName 0 ≠ 0 → ∀ p, ((r.setType e).setName e).searchFile e.parentName = some p →
        (((r.setType e).setName e).files p).type = .directory) := by
    rw [parentUses]
    by_cases hno : e.parentName 0 = 0
    · simp [hno]
    · rw [if_neg hno]
      cases hsearch : ((r.setType e).setName e).searchFile e.parentName with
      | none => simp
      | some p =>
          simp only [childUses_proper_iff, (setParent_files _ (some p) p).2.1]
          exact ⟨fun h _ q hq => Option.some.inj hq ▸ h, fun h => h hno p rfl⟩
  rw [← hparent, loadUses]
  refine ⟨fun h u hu => h u (List.mem_append_left _ (List.mem_append_right _ hu)),
    fun h u hu => ?_⟩
  rcases List.mem_append.mp hu with hu | hu
  · rcases List.mem_append.mp hu with hu | hu
    · exact typeUses_proper hu
    · exact h u hu
  · cases hsave : ((r.setType e).setName e).saveParent e with
    | spins =>
        rw [hsave] at hu
        exact absurd hu List.not_mem_nil
    | wild =>
        rw [hsave] at hu
        exact absurd hu List.not_mem_nil
    | ok r₁ =>
        rw [hsave] at hu
        have hcur : r₁.findex = r.findex :=
          (saveParent_ok hsave).frame.2.1.trans (findex_setName r e)
        exact hcur ▸ dataUses_proper hu

end Uses

/-! ### The archive and the calls of `read` after it -/

/-- All uses of the union that `init_ramfs` makes for the entries of a stream go by the tag. -/
def LoadTagged (s : List (BitVec 8)) : Prop :=
  ∀ k e r₀, (entries s)[k]? = some e → loadAll .zero ((entries s).take k) = .ok r₀ →
    ∀ u ∈ r₀.loadUses e, u.Proper r₀.findex

/-- So do those of `read` on the tables it leaves. -/
structure UnionTagged (s : List (BitVec 8)) (r : Ramfs) : Prop where
  load : LoadTagged s
  read : ∀ fileName, 0 ∈ fileName → ∀ u ∈ r.readUses fileName, u.Proper r.findex

/-- All uses go by the tag, and `read` answers -1 for a directory, for a file without an inode and
for a name that no file has. -/
structure UnionRight (s : List (BitVec 8)) (r : Ramfs) : Prop extends UnionTagged s r where
  directory : ∀ fileName offset p, 0 ∈ fileName → r.searchFileBytes fileName = some p →
    (r.files p).type = .directory → r.read fileName offset = some (-1)
  missing : ∀ fileName offset p, 0 ∈ fileName → r.searchFileBytes fileName = some p →
    (r.files p).type = .regular → (r.files p).link = .null → r.read fileName offset = some (-1)
  absent : ∀ fileName offset, 0 ∈ fileName →
    (∀ i, (r.files i).type ≠ .invalid → cstr (r.files i).fileName.bytes ≠ cstr fileName) →
    r.read fileName offset = some (-1)

/-- The first slot whose name is a prefix of an entry's parent component, if there is one, holds a
directory at the time. -/
def LandsOnDirectories (es : List Entry) : Prop :=
  ∀ k e p, es[k]? = some e → e.parentName 0 ≠ 0 →
    landing (es.take (k + 1)) e.parentName.bytes = some p →
    heldType (es.take (k + 1)) p = .directory

/-- A slot with no prefix of its name before it holds a regular file, with an inode. -/
def LandsOnInodes (es : List Entry) (r : Ramfs) : Prop :=
  ∀ i, (∀ j < i, ¬ cstr (heldName es j).bytes <+: cstr (heldName es i).bytes) →
    heldType es i = .regular ∧ (r.files i).link ≠ .null

section Read

variable {s : List (BitVec 8)} {es : List Entry} {r : Ramfs}

/-- `init_ramfs` goes by the tag exactly if the parents are directories. -/
lemma loadTagged_iff {b : ℕ} (hdone : initRamfs s = .done b r) :
    LoadTagged s ↔ LandsOnDirectories (entries s) := by
  have hread : ∀ e ∈ entries s, e.Read := fun e he => entries_read he
  have hall := (initRamfs_eq_done.mp hdone).2
  -- what the search and the tag come to, for entry `k` in the tables after those before it
  have hstep : ∀ k e r₀, (entries s)[k]? = some e → loadAll .zero ((entries s).take k) = .ok r₀ →
      ((∀ u ∈ r₀.loadUses e, u.Proper r₀.findex) ↔ (e.parentName 0 ≠ 0 → ∀ p,
        landing ((entries s).take (k + 1)) e.parentName.bytes = some p →
        heldType ((entries s).take (k + 1)) p = .directory)) := by
    intro k e r₀ hget hr₀
    have hocc := occupied_loadAll hr₀
    have hcur := findex_loadAll hr₀
    rw [Ramfs.loadUses_proper_iff, take_succ_of_some hget,
      hocc.searchFile_eq hcur (fun e' he' => hread e' (List.mem_of_mem_take he'))
        (hread e (List.mem_of_getElem? hget))]
    simp only [(hocc.setName hcur e).type]
  refine ⟨fun h k e p hget hpar hp => ?_, fun h k e r₀ hget hr₀ => ?_⟩
  · obtain ⟨r₀, hr₀⟩ := loadAll_take hall k
    exact (hstep k e r₀ hget hr₀).mp (h k e r₀ hget hr₀) hpar p hp
  · exact (hstep k e r₀ hget hr₀).mpr fun hpar p hp => h k e p hget hpar hp

/-- `read` goes by the tag exactly if every search that finds a slot finds an inode. -/
lemma readUses_tagged_iff (hocc : Occupied es r) (hes : ∀ e ∈ es, e.Read) :
    (∀ fileName, 0 ∈ fileName → ∀ u ∈ r.readUses fileName, u.Proper r.findex) ↔
      LandsOnInodes es r := by
  refine ⟨fun h i hfirst => ?_, fun h fileName hnul u hu => ?_⟩
  · have hnul := zero_mem_heldName hes i
    have hfound : r.searchFileBytes (heldName es i).bytes = some i := by
      rw [hocc.searchFileBytes_eq hes hnul]
      exact find?_slots_eq_some.mpr ⟨by simp, fun j hj => by simpa using hfirst j hj⟩
    have huse := h _ hnul ⟨.derefIno, i, r.files i⟩ (by simp [Ramfs.readUses, hfound])
    rw [← hocc.type i]
    exact huse
  · rw [Ramfs.readUses] at hu
    cases hfound : r.searchFileBytes fileName with
    | none =>
        rw [hfound] at hu
        exact absurd hu List.not_mem_nil
    | some p =>
        rw [hfound] at hu
        rw [List.mem_singleton.mp hu]
        rw [hocc.searchFileBytes_eq hes hnul] at hfound
        obtain ⟨hp, hfirst⟩ := find?_slots_eq_some.mp hfound
        -- a prefix of the slot's name is a prefix of the name searched for
        have hland := h p fun j hj hpre => by
          have hnone := hfirst j hj
          exact absurd (hpre.trans (of_decide_eq_true hp)) (by simpa using hnone)
        rw [← hocc.type p] at hland
        exact hland

/-- A name too long for any file, which begins with the name of the first. -/
def longName (es : List Entry) : List (BitVec 8) :=
  cstr (heldName es 0).bytes ++ List.replicate 17 0x71 ++ [0]

lemma cstr_longName (es : List Entry) :
    cstr (longName es) = cstr (heldName es 0).bytes ++ List.replicate 17 0x71 := by
  refine cstr_append_zero (fun hmem => ?_) []
  rcases List.mem_append.mp hmem with hmem | hmem
  · exact zero_notMem_cstr _ hmem
  · exact absurd (List.eq_of_mem_replicate hmem) (by decide)

/-- The search for it finds the first slot, which has another name. -/
lemma Occupied.searchFileBytes_longName (hocc : Occupied es r) (hes : ∀ e ∈ es, e.Read) :
    r.searchFileBytes (longName es) = some 0 ∧
      ∀ i, cstr (r.files i).fileName.bytes ≠ cstr (longName es) := by
  refine ⟨?_, fun i heq => ?_⟩
  · rw [hocc.searchFileBytes_eq hes (by simp [longName])]
    refine find?_slots_eq_some.mpr ⟨?_, fun j hj => absurd hj (Fin.not_lt_zero j)⟩
    rw [cstr_longName]
    exact decide_eq_true (List.prefix_append _ _)
  · have hshort : (cstr (r.files i).fileName.bytes).length ≤ 16 := by
      refine (List.takeWhile_sublist _).length_le.trans ?_
      rw [Name.bytes, List.length_ofFn]
    rw [heq, cstr_longName, List.length_append, List.length_replicate] at hshort
    omega

end Read

/-! ### Inodes read as files -/

/-- Only regular slots hold an inode. -/
def InodesRegular (r : Ramfs) : Prop := ∀ i j, (r.files i).link = .inode j →
  (r.files i).type = .regular

section Wild

variable {es : List Entry} {e : Entry} {r r' : Ramfs}

lemma InodesRegular.setName (h : InodesRegular r) (he : e.Read) :
    InodesRegular ((r.setType e).setName e) := by
  intro i j
  rw [Ramfs.files_setName]
  rcases eq_or_ne i r.findex with rfl | hi
  · rw [Function.update_self]
    intro hlink
    have hstart : r.startLink e = .inode j := hlink
    show e.fileType = .regular
    rw [Ramfs.startLink] at hstart
    cases ht : e.fileType with
    | directory => simp [ht] at hstart
    | regular => rfl
    | invalid => exact absurd ht he.type
  · rw [Function.update_of_ne hi]
    exact h i j

lemma InodesRegular.load (h : InodesRegular r) (he : e.Read) (hload : r.load e = .ok r') :
    InodesRegular r' := by
  obtain ⟨r₁, hsave, rfl⟩ := Ramfs.load_ok hload
  have hkept := hsave.kept
  have hsaved : InodesRegular r₁ := fun i j hlink => by
    rw [(hkept i).2.1]
    exact h.setName he i j (((hkept i).2.2.2 j).mp hlink)
  intro i j hlink
  rw [(Ramfs.setData_kept r₁ e i).2.1]
  rw [Ramfs.files_setData] at hlink
  split_ifs at hlink with hwrites
  · obtain ⟨rfl, hd⟩ := hwrites
    rw [(hkept _).2.1, hsave.frame.2.1, Ramfs.files_setName, Ramfs.findex_setName,
      Function.update_self]
    exact hd.1
  · exact hsaved i j hlink

lemma inodesRegular_loadAll (hes : ∀ e ∈ es, e.Read) (h : loadAll .zero es = .ok r) :
    InodesRegular r := by
  induction es using List.reverseRecOn generalizing r with
  | nil =>
      rw [← Ramfs.Loaded.ok.inj h]
      exact fun i j hlink => absurd hlink (by simp [Ramfs.zero])
  | append_singleton es e ih =>
      obtain ⟨r₁, hr₁, hload⟩ := loadAll_concat h
      have hbefore := ih (fun e' he' => hes e' (List.mem_append_left _ he')) hr₁
      exact hbefore.load (hes e (by simp)) hload

/-- Where an inode is read as a file the union of a regular slot is read as `children`. -/
lemma not_loadTagged_of_wild {s : List (BitVec 8)} (h : initRamfs s = .wild) :
    ¬ LoadTagged s := by
  obtain ⟨k, e, r₀, hget, hr₀, hload⟩ := exists_wild (initRamfs_eq_wild.mp h)
  obtain ⟨hpar, p, j, hsearch, hlink⟩ := Ramfs.load_wild_iff.mp hload
  have hes : ∀ e ∈ entries s, e.Read := fun e he => entries_read he
  have hbefore := inodesRegular_loadAll (fun e' he' => hes e' (List.mem_of_mem_take he')) hr₀
  have hregular := hbefore.setName (hes e (List.mem_of_getElem? hget)) p j hlink
  intro htagged
  have htype := Ramfs.loadUses_proper_iff.mp (htagged k e r₀ hget hr₀) hpar p hsearch
  exact absurd (htype.symm.trans hregular) (by decide)

end Wild

/-! ### No archive -/

/-- **The union**: where `init_ramfs` returns 0 it is never used right, because `read` looks only at
as much of a name as a file's name has.  The tag alone is kept exactly if every search for a parent
that finds a slot finds a directory, and every slot that `read` can find holds an inode.  Where an
inode is read as a file, not even the tag is kept. -/
theorem unionRight_never (s : List (BitVec 8)) :
    (∀ b r, initRamfs s = .done b r → ¬ UnionRight s r ∧
      (UnionTagged s r ↔ LandsOnDirectories (entries s) ∧ LandsOnInodes (entries s) r)) ∧
    (initRamfs s = .wild → ¬ LoadTagged s) := by
  refine ⟨fun b r hdone => ⟨fun h => ?_, ?_⟩, not_loadTagged_of_wild⟩
  all_goals
    have hes : ∀ e ∈ entries s, e.Read := fun e he => entries_read he
    have hocc := occupied_loadAll (initRamfs_eq_done.mp hdone).2
  · obtain ⟨hfound, hother⟩ := hocc.searchFileBytes_longName hes
    have hanswer := h.absent (longName (entries s)) 0 (by simp [longName]) fun i _ => hother i
    rw [Ramfs.read, hfound] at hanswer
    cases hlink : (r.files 0).link with
    | null | file c => simp [hlink] at hanswer
    | inode j => simp [hlink] at hanswer
  · rw [← loadTagged_iff hdone, ← readUses_tagged_iff hocc hes]
    exact ⟨fun h => ⟨h.load, h.read⟩, fun h => ⟨h.1, h.2⟩⟩

/-- A file of one byte with the empty name. -/
def nameless : List Member := [plainMember (digits 8 1) (digits 8 0x81A4) [[]] [0x2A]]

lemma nameless_readable : ∀ m ∈ nameless, Readable m := by
  intro m hm
  rw [List.mem_singleton.mp hm]
  exact readable_plainMember (length_digits 8 _) (length_digits 8 _) (by decide)

/-- Every search finds the file with the empty name, so the tag is kept on its archive. -/
theorem unionRight_never_nameless :
    ∃ b r, initRamfs (archive nameless trailer) = .done b r ∧
      ¬ UnionRight (archive nameless trailer) r ∧ UnionTagged (archive nameless trailer) r := by
  have hprefix := List.prefix_rfl (l := archive nameless trailer)
  have hentries := entries_archive nameless_readable isTrailer_trailer hprefix
  have hlen : (entries (archive nameless trailer)).length = 1 := by rw [hentries]; rfl
  obtain ⟨r, hdone⟩ := initRamfs_noParent nameless_readable isTrailer_trailer hprefix
    fun m hm => by rw [List.mem_singleton.mp hm]; rfl
  obtain ⟨hnever, hiff⟩ := (unionRight_never _).1 _ r hdone
  refine ⟨_, r, hdone, hnever, hiff.mpr ⟨fun k e p hget hpar => ?_, fun i hfirst => ?_⟩⟩
  · rw [hentries] at hget
    match k with
    | 0 =>
        obtain rfl := Option.some.inj hget
        exact absurd (by decide) hpar
    | k + 1 => exact absurd hget (by simp [nameless])
  · have hzero : i = 0 := by
      by_contra hne
      refine hfirst 0 (Fin.pos_of_ne_zero hne) ?_
      rw [hentries]
      have hnil : cstr (heldName (nameless.mapIdx fun k m =>
          memberEntry m (offset nameless k)) 0).bytes = [] := by decide +kernel
      rw [hnil]
      exact List.nil_prefix
    subst hzero
    have hget := getElem?_entries nameless_readable isTrailer_trailer hprefix 0
    have hlink := (tables_of_done hdone (by omega)).link_of_hasData (by omega) hget
      (by decide +kernel)
    refine ⟨by rw [hentries]; decide +kernel, ?_⟩
    rw [show (0 : Slot) = slot 0 from rfl, hlink]
    simp

/-- On the archive of the directory `a` and the file `a/b`, `read` of `a` dereferences the inode of
a directory. -/
theorem unionRight_fails :
    ∃ b r, initRamfs (archive oneFile trailer) = .done b r ∧
      ¬ UnionTagged (archive oneFile trailer) r ∧ ¬ UnionRight (archive oneFile trailer) r := by
  have hprefix := List.prefix_rfl (l := archive oneFile trailer)
  have hentries := entries_archive oneFile_readable isTrailer_trailer hprefix
  obtain ⟨r, hr, -⟩ := loadAll_of_lookupsResolve (by rw [hentries]; simp [oneFile])
    oneFile_lookupsResolve
  have hes : ∀ e ∈ entries (archive oneFile trailer), e.Read := fun e he => entries_read he
  have hocc := occupied_loadAll hr
  have hfound : r.searchFileBytes [0x61, 0] = some 0 := by
    rw [hocc.searchFileBytes_eq hes (by decide), hentries]
    decide +kernel
  have htype : (r.files 0).type = .directory := by
    rw [hocc.type 0, hentries]
    decide +kernel
  have huses : r.readUses [0x61, 0] = [⟨.derefIno, 0, r.files 0⟩] := by
    rw [Ramfs.readUses, hfound]
  have hnot : ¬ UnionTagged (archive oneFile trailer) r := fun h => by
    have huse := h.read [0x61, 0] (by decide) _ (huses ▸ List.mem_cons_self)
    exact absurd (htype.symm.trans huse.1) (by decide)
  exact ⟨_, r, (initRamfs_archive oneFile_readable isTrailer_trailer hprefix).mpr hr, hnot,
    fun h => hnot h.toUnionTagged⟩

end SkinnyArm
