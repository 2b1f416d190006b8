import SkinnyArm.Rootfs.Children

/-!
Names and types in the tables after any number of entries.

* **Occupants.** The file cursor wraps, so the last entry whose number is a slot modulo 256 is the
  one in it (`occupant`); a slot without one is as it was at the start.
* **The invariant.** `Occupied`: every slot has the name and the type of its occupant.
* **Searches.** `landing` is the slot that `search_file` finds: the first one whose name is a prefix
  of the name that is searched for.
-/

namespace SkinnyArm

/-! ### Occupants -/

/-- The last entry that was stored in a slot. -/
def occupant (es : List Entry) (i : Slot) : Option Entry :=
  es[i.val + (es.length - 1 - i.val) / 256 * 256]?

/-- The name in a slot. -/
def heldName (es : List Entry) (i : Slot) : Name := (occupant es i).elim (fun _ => 0) Entry.name

/-- The type in a slot. -/
def heldType (es : List Entry) (i : Slot) : FileType :=
  (occupant es i).elim .invalid Entry.fileType

variable {es : List Entry} {e : Entry} {r r' : Ramfs} {i : Slot} {name : List (BitVec 8)}

/-- The next entry gets the slot of its number, modulo 256. -/
lemma occupant_concat_self : occupant (es ++ [e]) (slot es.length) = some e := by
  have hval : (slot es.length).val = es.length % 256 := rfl
  have hindex : (slot es.length).val +
      ((es ++ [e]).length - 1 - (slot es.length).val) / 256 * 256 = es.length := by
    rw [List.length_append, List.length_singleton, hval]
    omega
  rw [occupant, hindex]
  simp

lemma occupant_concat_of_ne (hi : i ≠ slot es.length) :
    occupant (es ++ [e]) i = occupant es i := by
  have hne : i.val ≠ es.length % 256 := fun h => hi (Fin.ext h)
  have hindex : i.val + ((es ++ [e]).length - 1 - i.val) / 256 * 256 =
      i.val + (es.length - 1 - i.val) / 256 * 256 := by
    rw [List.length_append, List.length_singleton]
    have := i.isLt
    omega
  have hlen : i.val + (es.length - 1 - i.val) / 256 * 256 ≠ es.length := by
    have := i.isLt
    omega
  rw [occupant, hindex, occupant]
  rcases lt_or_gt_of_ne hlen with hlt | hgt
  · exact List.getElem?_append_left hlt
  · rw [List.getElem?_eq_none (by simpa using hgt), List.getElem?_eq_none hgt.le]

/-- Up to 256 entries the cursor has not wrapped. -/
lemma occupant_of_length_le (hlen : es.length ≤ 256) : occupant es i = es[i.val]? := by
  have hindex : i.val + (es.length - 1 - i.val) / 256 * 256 = i.val := by omega
  rw [occupant, hindex]

lemma mem_of_occupant (h : occupant es i = some e) : e ∈ es := List.mem_of_getElem? h

/-- Every name in the table is terminated. -/
lemma zero_mem_heldName (hes : ∀ e ∈ es, e.Read) (i : Slot) : 0 ∈ (heldName es i).bytes := by
  rw [heldName]
  cases h : occupant es i with
  | none => exact List.mem_ofFn.mpr ⟨0, rfl⟩
  | some e => exact (hes e (mem_of_occupant h)).name

/-! ### The invariant -/

/-- Every slot has the name and the type of its occupant. -/
structure Occupied (es : List Entry) (r : Ramfs) : Prop where
  name : ∀ i, (r.files i).fileName = heldName es i
  type : ∀ i, (r.files i).type = heldType es i

lemma occupied_zero : Occupied [] .zero := ⟨fun _ => rfl, fun _ => rfl⟩

/-- Storing type and name puts the entry in the current slot. -/
lemma Occupied.setName (h : Occupied es r) (hcur : r.findex = slot es.length) (e : Entry) :
    Occupied (es ++ [e]) ((r.setType e).setName e) := by
  constructor
  case name =>
    intro i
    rw [Ramfs.files_setName, hcur, heldName]
    rcases eq_or_ne i (slot es.length) with rfl | hi
    · rw [Function.update_self, occupant_concat_self]
      rfl
    · rw [Function.update_of_ne hi, occupant_concat_of_ne hi]
      exact h.name i
  case type =>
    intro i
    rw [Ramfs.files_setName, hcur, heldType]
    rcases eq_or_ne i (slot es.length) with rfl | hi
    · rw [Function.update_self, occupant_concat_self]
      rfl
    · rw [Function.update_of_ne hi, occupant_concat_of_ne hi]
      exact h.type i

/-- Loading an entry puts it in the current slot, and moves no other. -/
lemma Occupied.load (h : Occupied es r) (hcur : r.findex = slot es.length)
    (hload : r.load e = .ok r') : Occupied (es ++ [e]) r' := by
  obtain ⟨r₁, hsave, rfl⟩ := Ramfs.load_ok hload
  have hstart := h.setName hcur e
  constructor
  case name =>
    intro i
    calc ((r₁.setData e).nextFileSlot.files i).fileName
        = (r₁.files i).fileName := (Ramfs.setData_kept r₁ e i).1
      _ = (((r.setType e).setName e).files i).fileName := (hsave.kept i).1
      _ = heldName (es ++ [e]) i := hstart.name i
  case type =>
    intro i
    calc ((r₁.setData e).nextFileSlot.files i).type
        = (r₁.files i).type := (Ramfs.setData_kept r₁ e i).2.1
      _ = (((r.setType e).setName e).files i).type := (hsave.kept i).2.1
      _ = heldType (es ++ [e]) i := hstart.type i

/-- **The tables** after any number of entries. -/
lemma occupied_loadAll (h : loadAll .zero es = .ok r) : Occupied es r := by
  induction es using List.reverseRecOn generalizing r with
  | nil =>
      rw [← Ramfs.Loaded.ok.inj h]
      exact occupied_zero
  | append_singleton es e ih =>
      obtain ⟨r₁, hr₁, hload⟩ := loadAll_concat h
      exact (ih hr₁).load (findex_loadAll hr₁) hload

/-! ### Searches -/

/-- The slot that a search finds. -/
def landing (es : List Entry) (name : List (BitVec 8)) : Option Slot :=
  (List.finRange 256).find? fun i => cstr (heldName es i).bytes <+: cstr name

lemma Occupied.searchFileBytes_eq (h : Occupied es r) (hes : ∀ e ∈ es, e.Read) (hname : 0 ∈ name) :
    r.searchFileBytes name = landing es name := by
  rw [Ramfs.searchFileBytes, landing]
  congr 1
  funext i
  rw [h.name i, strequal_eq (zero_mem_heldName hes i) hname]
  simp

/-- The search for a parent, while its entry is loaded. -/
lemma Occupied.searchFile_eq (h : Occupied es r) (hcur : r.findex = slot es.length)
    (hes : ∀ e ∈ es, e.Read) (he : e.Read) :
    ((r.setType e).setName e).searchFile e.parentName =
      landing (es ++ [e]) e.parentName.bytes := by
  have hread : ∀ e' ∈ es ++ [e], e'.Read := fun e' he' => by
    rcases List.mem_append.mp he' with hold | hnew
    · exact hes e' hold
    · rw [List.mem_singleton.mp hnew]
      exact he
  exact (h.setName hcur e).searchFileBytes_eq hread (List.mem_ofFn.mpr ⟨15, he.parent⟩)

end SkinnyArm
