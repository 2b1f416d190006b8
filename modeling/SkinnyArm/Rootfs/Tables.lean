import SkinnyArm.Rootfs.Occupants

/-!
The tables after loading at most 256 entries, in terms of the entries.

* **What an entry gets.** `lookup` is the slot the search for its parent finds: the first entry so
  far, itself included, whose name is a prefix of the parent's name, else the first unused slot,
  whose empty name is a prefix of everything.  `ownInode` is the inode its file ends up with.
* **The invariant.** `Tables` gives every field of every slot, and for every slot the list of its
  children (`childrenOf`).
* **The step.** An entry is loaded unless its lookup finds a slot that holds an inode
  (`Confused`), and the walk along the siblings always ends (`Tables.load`).
-/

namespace SkinnyArm

/-! ### What an entry gets -/

/-- The names in the table while an entry is loaded: those of the entries before it, its own, and
empty names. -/
def slotName (es : List Entry) (e : Entry) (i : Slot) : Name :=
  match (es ++ [e])[i.val]? with
  | some e' => e'.name
  | none => fun _ => 0

/-- The slot the search for an entry's parent finds. -/
def lookup (es : List Entry) (e : Entry) : Option Slot :=
  (List.finRange 256).find? fun i =>
    cstr (slotName es e i).bytes <+: cstr e.parentName.bytes

/-- The `parent` of an entry's file. -/
def parentOf (es : List Entry) (e : Entry) : Option Slot :=
  if e.parentName 0 = 0 then none else lookup es e

lemma parentOf_eq_some {es : List Entry} {e : Entry} {p : Slot} :
    parentOf es e = some p ↔ e.parentName 0 ≠ 0 ∧ lookup es e = some p := by
  rw [parentOf]
  split_ifs with h0
  · simp [h0]
  · exact ⟨fun h => ⟨h0, h⟩, fun h => h.2⟩

/-- The inode an entry's file holds while its parent is searched. -/
def startInode (es : List Entry) (e : Entry) : Option Slot :=
  if e.fileType = .regular ∧ e.fileSize = 0 then (inodeTable es).find e else none

/-- The inode an entry's file ends up with. -/
def ownInode (es : List Entry) (e : Entry) : Option Slot :=
  if e.HasData then some (dataSlot es) else startInode es e

/-- The entry's parent is looked up, and the slot found holds an inode. -/
def Confused (es : List Entry) (e : Entry) : Prop :=
  e.parentName 0 ≠ 0 ∧ ∃ p, lookup es e = some p ∧
    ((∃ e', es[p.val]? = some e' ∧ ownInode (es.take p.val) e' ≠ none) ∨
      p.val = es.length ∧ startInode es e ≠ none)

/-- Only regular entries get an inode. -/
lemma startInode_regular {es : List Entry} {e : Entry} (h : startInode es e ≠ none) :
    e.fileType = .regular := by
  by_contra hne
  exact h (if_neg fun hh => hne hh.1)

lemma ownInode_regular {es : List Entry} {e : Entry} (h : ownInode es e ≠ none) :
    e.fileType = .regular := by
  rw [ownInode] at h
  split_ifs at h with hd
  · exact hd.1
  · exact startInode_regular h

/-- The `parent` of the file of entry `k`. -/
def parentAt (es : List Entry) (k : ℕ) : Option Slot :=
  es[k]?.bind fun e => parentOf (es.take k) e

/-- The inode of the file of entry `k`. -/
def inodeAt (es : List Entry) (k : ℕ) : Option Slot :=
  es[k]?.bind fun e => ownInode (es.take k) e

/-- Entry `k` is a directory. -/
def DirectoryAt (es : List Entry) (k : ℕ) : Prop :=
  es[k]?.map Entry.fileType = some .directory

instance (es : List Entry) (k : ℕ) : Decidable (DirectoryAt es k) :=
  inferInstanceAs (Decidable (_ = _))

/-- The entries listed under a slot: those whose parent it is, unless it holds an inode.  A
directory's list starts anew when its own entry is loaded. -/
def childrenOf (es : List Entry) (p : Slot) : List ℕ :=
  if inodeAt es p.val ≠ none then []
  else (List.range es.length).filter fun k =>
    parentAt es k = some p ∧ (DirectoryAt es p.val → p.val ≤ k)

/-! ### One more entry -/

section Concat

variable {es : List Entry} {e e' : Entry} {k : ℕ}

lemma parentAt_concat (h : k < es.length) : parentAt (es ++ [e]) k = parentAt es k := by
  rw [parentAt, parentAt, List.getElem?_append_left h, take_concat h.le]

lemma parentAt_concat_self : parentAt (es ++ [e]) es.length = parentOf es e := by
  simp [parentAt]

lemma inodeAt_concat (h : k < es.length) : inodeAt (es ++ [e]) k = inodeAt es k := by
  rw [inodeAt, inodeAt, List.getElem?_append_left h, take_concat h.le]

lemma inodeAt_concat_self : inodeAt (es ++ [e]) es.length = ownInode es e := by
  simp [inodeAt]

lemma inodeAt_of_length_le (h : es.length ≤ k) : inodeAt es k = none := by
  rw [inodeAt, List.getElem?_eq_none h]
  rfl

lemma directoryAt_concat (h : k < es.length) : DirectoryAt (es ++ [e]) k ↔ DirectoryAt es k := by
  rw [DirectoryAt, DirectoryAt, List.getElem?_append_left h]

lemma directoryAt_concat_self : DirectoryAt (es ++ [e]) es.length ↔ e.fileType = .directory := by
  simp [DirectoryAt]

lemma not_directoryAt (h : es.length ≤ k) : ¬ DirectoryAt es k := by
  simp [DirectoryAt, List.getElem?_eq_none h]

end Concat

/-- What is listed under a slot was looked up. -/
lemma mem_childrenOf {es : List Entry} {p : Slot} {k : ℕ} (h : k ∈ childrenOf es p) :
    k < es.length ∧ parentAt es k = some p := by
  rw [childrenOf] at h
  split_ifs at h
  · exact absurd h List.not_mem_nil
  · obtain ⟨hk, hpar⟩ := List.mem_filter.mp h
    exact ⟨List.mem_range.mp hk, (of_decide_eq_true hpar).1⟩

/-! ### The invariant -/

/-- The tables after the given entries, from zeroed tables. -/
structure Tables (es : List Entry) (r : Ramfs) : Prop where
  findex : r.findex = slot es.length
  inodes : r.inodeTable = inodeTable es
  name : ∀ k e, es[k]? = some e → (r.files (slot k)).fileName = e.name
  type : ∀ k e, es[k]? = some e → (r.files (slot k)).type = e.fileType
  parent : ∀ k < es.length, (r.files (slot k)).parent = parentAt es k
  inode : ∀ i j, (r.files i).link = .inode j ↔ inodeAt es i.val = some j
  unused : ∀ i : Slot, es.length ≤ i.val →
    (r.files i).fileName = (fun _ => 0) ∧ (r.files i).type = .invalid ∧ (r.files i).parent = none
  children : HoldsChildren r fun p => (childrenOf es p).map slot

lemma tables_zero : Tables [] .zero where
  findex := rfl
  inodes := rfl
  name k e h := by simp at h
  type k e h := by simp at h
  parent k h := by simp at h
  inode i j := by simp [Ramfs.zero, inodeAt]
  unused i _ := ⟨rfl, rfl, rfl⟩
  children p := by
    have hnil : childrenOf [] p = [] := by simp [childrenOf]
    simp only [hnil]
    exact .nil

namespace Tables

variable {es : List Entry} {e : Entry} {r r' : Ramfs}

/-- The list under the current slot once its type is stored. -/
def startChildren (es : List Entry) (e : Entry) (p : Slot) : List ℕ :=
  if p.val = es.length ∧ (e.fileType = .directory ∨ startInode es e ≠ none) then []
  else childrenOf es p

lemma mem_startChildren {p : Slot} {k : ℕ} (hk : k ∈ startChildren es e p) :
    k < es.length ∧ parentAt es k = some p := by
  rw [startChildren] at hk
  split_ifs at hk
  · exact absurd hk List.not_mem_nil
  · exact mem_childrenOf hk

/-- No slot is in two lists. -/
lemma apart_startChildren (hlen : es.length < 256) :
    Apart fun p => (startChildren es e p).map slot := by
  intro p p' c hc hc'
  obtain ⟨k, hk, rfl⟩ := List.mem_map.mp hc
  obtain ⟨k', hk', heq⟩ := List.mem_map.mp hc'
  obtain ⟨hlt, hpar⟩ := mem_startChildren hk
  obtain ⟨hlt', hpar'⟩ := mem_startChildren hk'
  have hkk : k' = k := by
    have := slot_eq_iff.mp heq
    omega
  subst hkk
  exact Option.some.inj (hpar.symm.trans hpar')

lemma findInode_eq (h : Tables es r) :
    r.findInode e.deviceNr e.inodeNr = (inodeTable es).find e := by
  rw [← h.inodes]
  rfl

lemma slot_ne {k : ℕ} (hlen : es.length < 256) (hk : k < es.length) : slot k ≠ slot es.length := by
  intro heq
  have := slot_eq_iff.mp heq
  omega

lemma files_setName_of_ne {i : Slot} (h : Tables es r) (hi : i ≠ slot es.length) :
    ((r.setType e).setName e).files i = r.files i := by
  rw [Ramfs.files_setName, h.findex, Function.update_of_ne hi]

lemma files_setName_self (h : Tables es r) :
    ((r.setType e).setName e).files (slot es.length) = r.startFile e := by
  rw [Ramfs.files_setName, h.findex, Function.update_self]

/-- What the union of the current slot holds, once the type is stored. -/
lemma startLink_eq (h : Tables es r) (hlen : es.length < 256) (he : e.Read) :
    (∀ j, r.startLink e = .inode j ↔ startInode es e = some j) ∧
      (r.startLink e).children =
        if e.fileType = .directory ∨ startInode es e ≠ none then none
        else (r.files (slot es.length)).link.children := by
  have hold : ∀ j, r.currentFile.link ≠ .inode j := by
    intro j hj
    have hino := (h.inode r.findex j).mp hj
    rw [inodeAt_of_length_le (by rw [h.findex, val_slot hlen])] at hino
    exact absurd hino (by simp)
  have hcur : r.currentFile = r.files (slot es.length) := by rw [Ramfs.currentFile, h.findex]
  rw [hcur] at hold
  rw [Ramfs.startLink]
  cases ht : e.fileType with
  | invalid => exact absurd ht he.type
  | directory => simp [startInode, ht, Link.children]
  | regular =>
      by_cases h0 : e.fileSize = 0
      · have hstart : startInode es e = (inodeTable es).find e := by simp [startInode, ht, h0]
        simp only [if_pos h0, h.findInode_eq, hstart]
        cases (inodeTable es).find e with
        | some i => simp [Link.children, eq_comm]
        | none => simp [hold, hcur]
      · have hstart : startInode es e = none := by simp [startInode, h0]
        simp [h0, hstart, hold, hcur]

/-- The slots have the names and types of the entries. -/
lemma occupied (h : Tables es r) (hlen : es.length < 256) : Occupied es r := by
  have hfile : ∀ i : Slot, (r.files i).fileName = heldName es i ∧
      (r.files i).type = heldType es i := by
    intro i
    rw [heldName, heldType, occupant_of_length_le hlen.le]
    cases hget : es[i.val]? with
    | some e' =>
        rw [← slot_val i]
        exact ⟨h.name i.val e' hget, h.type i.val e' hget⟩
    | none =>
        have hunused := h.unused i (List.getElem?_eq_none_iff.mp hget)
        exact ⟨hunused.1, hunused.2.1⟩
  exact ⟨fun i => (hfile i).1, fun i => (hfile i).2⟩

/-- The search finds what `lookup` says. -/
lemma searchFile_eq (h : Tables es r) (hlen : es.length < 256) (he : e.Read)
    (hes : ∀ e' ∈ es, e'.Read) :
    ((r.setType e).setName e).searchFile e.parentName = lookup es e := by
  have hname : ∀ i, heldName (es ++ [e]) i = slotName es e i := by
    intro i
    rw [heldName, slotName, occupant_of_length_le (by simpa using hlen)]
    cases (es ++ [e])[i.val]? with
    | some e' => rfl
    | none => rfl
  rw [(h.occupied hlen).searchFile_eq h.findex hes he, landing, lookup]
  simp only [hname]

/-- Once type and name are stored, the lists of children are those of before, but for the current
slot's own. -/
lemma children_setName (h : Tables es r) (hlen : es.length < 256) (he : e.Read) :
    HoldsChildren ((r.setType e).setName e) fun p => (startChildren es e p).map slot := by
  have hnext : ∀ p, ∀ c ∈ (childrenOf es p).map slot,
      (((r.setType e).setName e).files c).nextFile = (r.files c).nextFile := by
    intro p c hc
    obtain ⟨k, hk, rfl⟩ := List.mem_map.mp hc
    rw [h.files_setName_of_ne (slot_ne hlen (mem_childrenOf hk).1)]
  intro p
  have hsame := (h.children p).congr (hnext p)
  simp only [startChildren]
  by_cases hp : p = slot es.length
  · subst hp
    have hlink : (((r.setType e).setName e).files (slot es.length)).link = r.startLink e := by
      rw [h.files_setName_self]
      rfl
    rw [hlink, (h.startLink_eq hlen he).2, val_slot hlen]
    by_cases hreset : e.fileType = .directory ∨ startInode es e ≠ none
    · simp only [hreset, and_self, if_true]
      exact .nil
    · simp only [hreset, and_false, if_false]
      exact hsame
  · have hval : p.val ≠ es.length := fun hval => hp (by rw [← hval, slot_val])
    rw [h.files_setName_of_ne hp, if_neg fun hh => hval hh.1]
    exact hsame

/-- Which slots hold an inode once type and name are stored. -/
lemma inode_setName (h : Tables es r) (hlen : es.length < 256) (he : e.Read) (i j : Slot) :
    (((r.setType e).setName e).files i).link = .inode j ↔
      if i.val = es.length then startInode es e = some j else inodeAt es i.val = some j := by
  by_cases hi : i = slot es.length
  · subst hi
    rw [h.files_setName_self, val_slot hlen, if_pos rfl]
    exact (h.startLink_eq hlen he).1 j
  · have hval : i.val ≠ es.length := fun hval => hi (by rw [← hval, slot_val])
    rw [h.files_setName_of_ne hi, if_neg hval]
    exact h.inode i j

/-- The slot the search finds holds an inode exactly if the entry is confused. -/
lemma confused_iff (h : Tables es r) (hlen : es.length < 256) (he : e.Read) {p : Slot}
    (hpar : e.parentName 0 ≠ 0) (hp : lookup es e = some p) :
    Confused es e ↔ ∃ j, (((r.setType e).setName e).files p).link = .inode j := by
  simp only [h.inode_setName hlen he]
  constructor
  · rintro ⟨-, q, hq, hholds⟩
    obtain rfl : p = q := Option.some.inj (hp.symm.trans hq)
    rcases hholds with ⟨e', hget, hino⟩ | ⟨hval, hino⟩
    · obtain ⟨j, hj⟩ := Option.ne_none_iff_exists'.mp hino
      have hlt : p.val < es.length := (List.getElem?_eq_some_iff.mp hget).1
      refine ⟨j, ?_⟩
      rw [if_neg (by omega), inodeAt, hget]
      exact hj
    · obtain ⟨j, hj⟩ := Option.ne_none_iff_exists'.mp hino
      exact ⟨j, by rw [if_pos hval]; exact hj⟩
  · rintro ⟨j, hj⟩
    refine ⟨hpar, p, hp, ?_⟩
    by_cases hval : p.val = es.length
    · rw [if_pos hval] at hj
      exact .inr ⟨hval, by simp [hj]⟩
    · rw [if_neg hval, inodeAt] at hj
      obtain ⟨e', hget, hino⟩ := Option.bind_eq_some_iff.mp hj
      exact .inl ⟨e', hget, by simp [hino]⟩

/-- **Saving the parent** never walks for ever, and it reads an inode as a file exactly if the
entry is confused. -/
lemma saveParent_eq (h : Tables es r) (hlen : es.length < 256) (he : e.Read)
    (hes : ∀ e' ∈ es, e'.Read) :
    (Confused es e → ((r.setType e).setName e).saveParent e = .wild) ∧
      (¬ Confused es e → ∃ r₁, ((r.setType e).setName e).saveParent e = .ok r₁) := by
  have hsearch := h.searchFile_eq hlen he hes
  constructor
  · rintro ⟨hpar, p, hp, hholds⟩
    obtain ⟨j, hj⟩ := (h.confused_iff hlen he hpar hp).mp ⟨hpar, p, hp, hholds⟩
    exact Ramfs.saveParent_wild hpar (hsearch.trans hp) hj
  · intro hc
    rw [Ramfs.saveParent_ok_iff]
    intro hpar p hp
    rw [hsearch] at hp
    exact ⟨fun j hj => hc ((h.confused_iff hlen he hpar hp).mpr ⟨j, hj⟩), _,
      h.children_setName hlen he p⟩

/-- What an entry is put under holds no inode, unless the entry is confused. -/
lemma not_holds_of_parentOf {p : Slot} (hc : ¬ Confused es e) (hpar : parentOf es e = some p) :
    inodeAt es p.val = none ∧ (p.val = es.length → startInode es e = none) := by
  obtain ⟨h0, hp⟩ := parentOf_eq_some.mp hpar
  constructor
  · by_contra hino
    obtain ⟨j, hj⟩ := Option.ne_none_iff_exists'.mp hino
    obtain ⟨e', hget, hown⟩ := Option.bind_eq_some_iff.mp hj
    exact hc ⟨h0, p, hp, .inl ⟨e', hget, by simp [hown]⟩⟩
  · intro hval
    by_contra hino
    exact hc ⟨h0, p, hp, .inr ⟨hval, hino⟩⟩

/-- The entries listed under a slot without an inode, once there is one more. -/
lemma filter_concat (q : Slot) (D : Prop) [Decidable D] (hle : D → q.val ≤ es.length) :
    ((List.range (es ++ [e]).length).filter fun k =>
        parentAt (es ++ [e]) k = some q ∧ (D → q.val ≤ k)) =
      ((List.range es.length).filter fun k => parentAt es k = some q ∧ (D → q.val ≤ k)) ++
        if parentOf es e = some q then [es.length] else [] := by
  have hold : ((List.range es.length).filter fun k =>
      parentAt (es ++ [e]) k = some q ∧ (D → q.val ≤ k)) =
        (List.range es.length).filter fun k => parentAt es k = some q ∧ (D → q.val ≤ k) :=
    List.filter_congr fun k hk => by rw [parentAt_concat (List.mem_range.mp hk)]
  rw [List.length_append, List.length_singleton, List.range_succ, List.filter_append, hold]
  simp only [List.filter_singleton, parentAt_concat_self, Bool.cond_decide]
  congr 1
  exact if_congr ⟨fun hh => hh.1, fun hpar => ⟨hpar, hle⟩⟩ rfl rfl

/-- The list under a slot loaded before. -/
lemma childrenOf_concat_of_lt {q : Slot} (hc : ¬ Confused es e) (hlt : q.val < es.length) :
    childrenOf (es ++ [e]) q =
      childrenOf es q ++ if parentOf es e = some q then [es.length] else [] := by
  simp only [childrenOf, inodeAt_concat hlt, directoryAt_concat hlt]
  split_ifs with hino hpar hpar
  · exact absurd (not_holds_of_parentOf hc hpar).1 hino
  · rfl
  · rw [filter_concat q _ fun _ => hlt.le, if_pos hpar]
  · rw [filter_concat q _ fun _ => hlt.le, if_neg hpar]

/-- The list under a slot not loaded yet. -/
lemma childrenOf_concat_of_gt {q : Slot} (hgt : es.length < q.val) :
    childrenOf (es ++ [e]) q =
      childrenOf es q ++ if parentOf es e = some q then [es.length] else [] := by
  have hino : inodeAt (es ++ [e]) q.val = none := inodeAt_of_length_le (by simp; omega)
  have hdir : ¬ DirectoryAt (es ++ [e]) q.val := not_directoryAt (by simp; omega)
  have hdir' : ¬ DirectoryAt es q.val := not_directoryAt hgt.le
  have hsame : (DirectoryAt (es ++ [e]) q.val ↔ DirectoryAt es q.val) :=
    ⟨fun h => absurd h hdir, fun h => absurd h hdir'⟩
  simp only [childrenOf, hino, inodeAt_of_length_le hgt.le, hsame, ne_eq, not_true_eq_false,
    if_false]
  exact filter_concat q _ fun h => absurd h hdir'

/-- The list under the slot of the entry itself. -/
lemma childrenOf_concat_self {q : Slot} (hc : ¬ Confused es e) (heq : q.val = es.length) :
    childrenOf (es ++ [e]) q =
      if e.HasData then []
      else startChildren es e q ++ if parentOf es e = some q then [es.length] else [] := by
  have hino : inodeAt (es ++ [e]) q.val = ownInode es e := by rw [heq, inodeAt_concat_self]
  have hdir : DirectoryAt (es ++ [e]) q.val ↔ e.fileType = .directory := by
    rw [heq]
    exact directoryAt_concat_self
  have hnone : inodeAt es q.val = none := inodeAt_of_length_le heq.ge
  by_cases hd : e.HasData
  · rw [if_pos hd, childrenOf, hino, ownInode, if_pos hd, if_pos (by simp)]
  have hown : ownInode es e = startInode es e := by rw [ownInode, if_neg hd]
  rw [if_neg hd, childrenOf, hino, hown, startChildren]
  by_cases hstart : startInode es e = none
  · rw [if_neg (not_not.mpr hstart), filter_concat q _ fun _ => heq.le]
    congr 1
    by_cases htype : e.fileType = .directory
    · rw [if_pos ⟨heq, .inl htype⟩, List.filter_eq_nil_iff]
      intro k hk hall
      have hle := (of_decide_eq_true hall).2 (hdir.mpr htype)
      have hlt := List.mem_range.mp hk
      omega
    · have hdir' : ¬ DirectoryAt es q.val := not_directoryAt heq.ge
      rw [if_neg (by simp [htype, hstart]), childrenOf, if_neg (not_not.mpr hnone)]
      simp only [hdir, htype, hdir']
  · have hpar : parentOf es e ≠ some q := fun hpar =>
      hstart ((not_holds_of_parentOf hc hpar).2 heq)
    rw [if_pos hstart, if_pos ⟨heq, .inr hstart⟩, if_neg hpar]
    rfl

/-- The lists after one more entry: it is put at the end of the list it was looked up for, and the
slot that gets its data has no list any more. -/
lemma childrenOf_concat (hlen : es.length < 256) (hc : ¬ Confused es e) (q : Slot) :
    childrenOf (es ++ [e]) q =
      if q = slot es.length ∧ e.HasData then []
      else startChildren es e q ++ if parentOf es e = some q then [es.length] else [] := by
  have hslot : q = slot es.length ↔ q.val = es.length := by rw [Fin.ext_iff, val_slot hlen]
  simp only [hslot]
  rcases lt_trichotomy q.val es.length with hlt | heq | hgt
  · have hstart : startChildren es e q = childrenOf es q := if_neg fun hh => hlt.ne hh.1
    rw [childrenOf_concat_of_lt hc hlt, hstart]
    exact (if_neg fun hh => hlt.ne hh.1).symm
  · rw [childrenOf_concat_self hc heq]
    exact if_congr ⟨fun hd => ⟨heq, hd⟩, fun hh => hh.2⟩ rfl rfl
  · have hstart : startChildren es e q = childrenOf es q := if_neg fun hh => hgt.ne' hh.1
    rw [childrenOf_concat_of_gt hgt, hstart]
    exact (if_neg fun hh => hgt.ne' hh.1).symm

/-- The lists once the parent is saved. -/
lemma children_saveParent (h : Tables es r) (hlen : es.length < 256) (he : e.Read)
    (hes : ∀ e' ∈ es, e'.Read) {r₁ : Ramfs}
    (hsave : Ramfs.ParentSaved ((r.setType e).setName e) e r₁) :
    HoldsChildren r₁ fun q =>
      (startChildren es e q ++ if parentOf es e = some q then [es.length] else []).map slot := by
  have hsearch := h.searchFile_eq hlen he hes
  have hstart := h.children_setName hlen he
  have hfindex : ((r.setType e).setName e).findex = slot es.length :=
    (Ramfs.findex_setName r e).trans h.findex
  have hcur := Ramfs.nextFile_setName r e
  generalize (r.setType e).setName e = r₀ at *
  have hset : ∀ o, HoldsChildren (r₀.setFile r₀.findex { r₀.currentFile with parent := o })
      fun q => (startChildren es e q).map slot := by
    intro o q
    have hkept := Ramfs.setParent_files r₀ o
    rw [(hkept q).2.2.2]
    exact (hstart q).congr fun c _ => (hkept c).2.2.1
  cases hsave with
  | noParent hno =>
      have hnone : ∀ q, parentOf es e ≠ some q := by simp [parentOf, hno]
      simpa only [if_neg (hnone _), List.append_nil] using hstart
  | missing hpar hs =>
      rw [hsearch] at hs
      have hnone : ∀ q, parentOf es e ≠ some q := by simp [parentOf, hs]
      simpa only [if_neg (hnone _), List.append_nil] using hset none
  | @found p _ hpar hs hadd =>
      rw [hsearch] at hs
      have hsome : parentOf es e = some p := by rw [parentOf, if_neg hpar, hs]
      have hnew : ∀ q, r₀.findex ∉ (startChildren es e q).map slot := by
        intro q hq
        rw [hfindex] at hq
        obtain ⟨k, hk, heq⟩ := List.mem_map.mp hq
        exact slot_ne hlen (mem_startChildren hk).1 heq
      have hadded := hadd.siblings (hset (some p)) (apart_startChildren hlen)
        ((Ramfs.setParent_files r₀ (some p) _).2.2.1.trans hcur) hnew
      intro q
      have hq := hadded q
      rcases eq_or_ne q p with rfl | hqp
      · simp only [if_pos, hsome] at hq ⊢
        rw [List.map_append]
        simpa [Ramfs.setFile, hfindex] using hq
      · have hne : parentOf es e ≠ some q := fun heq =>
          hqp (Option.some.inj (heq.symm.trans hsome))
        simp only [if_neg hqp] at hq
        simpa only [if_neg hne, List.append_nil] using hq

/-! #### The tables once one more entry is loaded -/

section Step

variable {r₁ : Ramfs} {k : ℕ} {i j : Slot}

lemma findex_saveParent (h : Tables es r)
    (hsave : Ramfs.ParentSaved ((r.setType e).setName e) e r₁) : r₁.findex = slot es.length := by
  rw [hsave.frame.2.1, Ramfs.findex_setName, h.findex]

/-- The inode that the data of the entry goes to. -/
lemma currentIno_saveParent (h : Tables es r) (hd : e.HasData)
    (hsave : Ramfs.ParentSaved ((r.setType e).setName e) e r₁) : r₁.currentIno = dataSlot es := by
  have hstep : ((r.setType e).setName e).currentIno = r.iindex + 1 := by
    have htype := Ramfs.setType_inodeTable (r := r) (e := e)
    rw [if_pos hd.numbered] at htype
    exact congrArg InodeTable.currentIno htype
  rw [hsave.frame.2.2.2, hstep, dataSlot_eq, ← h.inodes]
  rfl

lemma name_concat (h : Tables es r) (hlen : es.length < 256)
    (hsave : Ramfs.ParentSaved ((r.setType e).setName e) e r₁) {e' : Entry}
    (hget : (es ++ [e])[k]? = some e') :
    ((r₁.setData e).nextFileSlot.files (slot k)).fileName = e'.name ∧
      ((r₁.setData e).nextFileSlot.files (slot k)).type = e'.fileType := by
  have hfield := Ramfs.setData_kept r₁ e
  rw [(hfield _).1, (hfield _).2.1, (hsave.kept _).1, (hsave.kept _).2.1]
  rcases getElem?_concat.mp hget with hget' | ⟨rfl, rfl⟩
  · have hlt := (List.getElem?_eq_some_iff.mp hget').1
    rw [h.files_setName_of_ne (slot_ne hlen hlt)]
    exact ⟨h.name k e' hget', h.type k e' hget'⟩
  · rw [h.files_setName_self]
    exact ⟨rfl, rfl⟩

lemma parent_concat (h : Tables es r) (hlen : es.length < 256) (he : e.Read)
    (hes : ∀ e' ∈ es, e'.Read) (hsave : Ramfs.ParentSaved ((r.setType e).setName e) e r₁)
    (hk : k < (es ++ [e]).length) :
    ((r₁.setData e).nextFileSlot.files (slot k)).parent = parentAt (es ++ [e]) k := by
  rw [(Ramfs.setData_kept r₁ e _).2.2.1, (hsave.kept _).2.2.1, Ramfs.findex_setName, h.findex]
  rw [List.length_append, List.length_singleton] at hk
  by_cases hlt : k < es.length
  · have hne := slot_ne hlen hlt
    rw [if_neg fun hh => hne hh.1, h.files_setName_of_ne hne, h.parent k hlt, parentAt_concat hlt]
  · obtain rfl : k = es.length := by omega
    rw [parentAt_concat_self, parentOf]
    by_cases hno : e.parentName 0 = 0
    · rw [if_neg fun hh => hh.2 hno, if_pos hno, h.files_setName_self]
      have hunused := (h.unused (slot es.length) (by rw [val_slot hlen])).2.2
      rw [← h.findex] at hunused
      exact hunused
    · rw [if_pos ⟨rfl, hno⟩, if_neg hno, h.searchFile_eq hlen he hes]

lemma inode_concat (h : Tables es r) (hlen : es.length < 256) (he : e.Read)
    (hsave : Ramfs.ParentSaved ((r.setType e).setName e) e r₁) :
    ((r₁.setData e).nextFileSlot.files i).link = .inode j ↔
      inodeAt (es ++ [e]) i.val = some j := by
  have hstart := h.inode_setName hlen he i j
  rw [Ramfs.files_setData, h.findex_saveParent hsave]
  by_cases hi : i = slot es.length
  · subst hi
    rw [val_slot hlen, inodeAt_concat_self, ownInode]
    rw [val_slot hlen, if_pos rfl] at hstart
    by_cases hd : e.HasData
    · rw [if_pos ⟨rfl, hd⟩, if_pos hd, h.currentIno_saveParent hd hsave]
      simp
    · rw [if_neg fun hh => hd hh.2, if_neg hd, (hsave.kept _).2.2.2 j, hstart]
  · have hval : i.val ≠ es.length := fun hval => hi (by rw [← hval, slot_val])
    rw [if_neg fun hh => hi hh.1, (hsave.kept _).2.2.2 j, hstart, if_neg hval]
    by_cases hlt : i.val < es.length
    · rw [inodeAt_concat hlt]
    · rw [inodeAt_of_length_le (not_lt.mp hlt), inodeAt_of_length_le (by simp; omega)]

lemma unused_concat (h : Tables es r) (hlen : es.length < 256)
    (hsave : Ramfs.ParentSaved ((r.setType e).setName e) e r₁)
    (hi : (es ++ [e]).length ≤ i.val) :
    ((r₁.setData e).nextFileSlot.files i).fileName = (fun _ => 0) ∧
      ((r₁.setData e).nextFileSlot.files i).type = .invalid ∧
      ((r₁.setData e).nextFileSlot.files i).parent = none := by
  rw [List.length_append, List.length_singleton] at hi
  have hne : i ≠ slot es.length := fun heq => by
    rw [heq, val_slot hlen] at hi
    omega
  obtain ⟨hname, htype, hparent, -⟩ := Ramfs.setData_kept r₁ e i
  obtain ⟨hname', htype', hparent', -⟩ := hsave.kept i
  rw [hname, htype, hparent, hname', htype', hparent', Ramfs.findex_setName, h.findex,
    if_neg fun hh => hne hh.1, h.files_setName_of_ne hne]
  exact h.unused i (by omega)

lemma children_concat (h : Tables es r) (hlen : es.length < 256) (he : e.Read)
    (hes : ∀ e' ∈ es, e'.Read) (hc : ¬ Confused es e)
    (hsave : Ramfs.ParentSaved ((r.setType e).setName e) e r₁) :
    HoldsChildren (r₁.setData e).nextFileSlot fun p => (childrenOf (es ++ [e]) p).map slot := by
  intro q
  have hq := (h.children_saveParent hlen he hes hsave q).congr fun c _ =>
    (Ramfs.setData_kept r₁ e c).2.2.2
  rw [Ramfs.files_setData, h.findex_saveParent hsave]
  simp only [childrenOf_concat hlen hc q]
  by_cases hh : q = slot es.length ∧ e.HasData
  · rw [if_pos hh, if_pos hh]
    exact .nil
  · rw [if_neg hh, if_neg hh]
    exact hq

/-- **The step**: one more entry loaded. -/
lemma concat (h : Tables es r) (hlen : es.length < 256) (he : e.Read)
    (hes : ∀ e' ∈ es, e'.Read) (hload : r.load e = .ok r') : Tables (es ++ [e]) r' := by
  have hc : ¬ Confused es e := fun hc => by
    rw [Ramfs.load, (h.saveParent_eq hlen he hes).1 hc] at hload
    exact absurd hload (by simp)
  have htable := Ramfs.load_inodeTable hload
  obtain ⟨r₁, hsave, rfl⟩ := Ramfs.load_ok hload
  exact {
    findex := by
      rw [Ramfs.findex_setData, h.findex_saveParent hsave, slot_add_one, List.length_append,
        List.length_singleton]
    inodes := by rw [htable, h.inodes, inodeTable_concat]
    name := fun _ _ hget => (h.name_concat hlen hsave hget).1
    type := fun _ _ hget => (h.name_concat hlen hsave hget).2
    parent := fun _ hk => h.parent_concat hlen he hes hsave hk
    inode := fun _ _ => h.inode_concat hlen he hsave
    unused := fun _ hi => h.unused_concat hlen hsave hi
    children := h.children_concat hlen he hes hc hsave }

end Step

/-- **Loading an entry** after fewer than 256 others: it is loaded, unless it is confused. -/
lemma load (h : Tables es r) (hlen : es.length < 256) (he : e.Read) (hes : ∀ e' ∈ es, e'.Read) :
    (Confused es e → r.load e = .wild) ∧
      (¬ Confused es e → ∃ r', r.load e = .ok r' ∧ Tables (es ++ [e]) r') := by
  obtain ⟨hwild, hok⟩ := h.saveParent_eq hlen he hes
  refine ⟨fun hc => by rw [Ramfs.load, hwild hc], fun hc => ?_⟩
  obtain ⟨r₁, hr₁⟩ := hok hc
  have hload : r.load e = .ok (r₁.setData e).nextFileSlot := by rw [Ramfs.load, hr₁]
  exact ⟨_, hload, h.concat hlen he hes hload⟩

end Tables

/-! ### The run -/

/-- No entry is confused. -/
def Unconfused (es : List Entry) : Prop :=
  ∀ k e, es[k]? = some e → ¬ Confused (es.take k) e

lemma unconfused_concat {es : List Entry} {e : Entry} :
    Unconfused (es ++ [e]) ↔ Unconfused es ∧ ¬ Confused es e := by
  constructor
  · refine fun h => ⟨fun k e' hget => ?_, ?_⟩
    · have hk := (List.getElem?_eq_some_iff.mp hget).1
      rw [← take_concat (x := e) hk.le]
      exact h k e' (getElem?_concat.mpr (.inl hget))
    · have hself := h es.length e (getElem?_concat.mpr (.inr ⟨rfl, rfl⟩))
      rwa [take_concat le_rfl, List.take_length] at hself
  · rintro ⟨hes, he⟩ k e' hget
    rcases getElem?_concat.mp hget with hget' | ⟨rfl, rfl⟩
    · rw [take_concat (List.getElem?_eq_some_iff.mp hget').1.le]
      exact hes k e' hget'
    · rw [take_concat le_rfl, List.take_length]
      exact he

/-- **The run**: of at most 256 entries all are loaded, unless one is confused; then an inode is
read as a file. -/
theorem loadAll_cases {es : List Entry} (hlen : es.length ≤ 256) (hes : ∀ e ∈ es, e.Read) :
    (Unconfused es → ∃ r, loadAll .zero es = .ok r ∧ Tables es r) ∧
      (¬ Unconfused es → loadAll .zero es = .wild) := by
  induction es using List.reverseRecOn with
  | nil =>
      exact ⟨fun _ => ⟨_, rfl, tables_zero⟩, fun h => absurd (fun k e hget => by simp at hget) h⟩
  | append_singleton es e ih =>
      rw [List.length_append, List.length_singleton] at hlen
      have hpre : ∀ e' ∈ es, e'.Read := fun e' he' => hes e' (List.mem_append_left _ he')
      obtain ⟨hok, hwild⟩ := ih (by omega) hpre
      rw [unconfused_concat, loadAll_append]
      by_cases hun : Unconfused es
      · obtain ⟨r, hr, htables⟩ := hok hun
        obtain ⟨hw, hl⟩ := htables.load (by omega) (hes e (by simp)) hpre
        rw [hr]
        refine ⟨fun ⟨_, hc⟩ => ?_, fun h => ?_⟩
        · obtain ⟨r', hr', htables'⟩ := hl hc
          exact ⟨r', by simp only [loadAll, hr'], htables'⟩
        · have hc : Confused es e := not_not.mp fun hc => h ⟨hun, hc⟩
          simp only [loadAll, hw hc]
      · rw [hwild hun]
        exact ⟨fun h => absurd h.1 hun, fun _ => rfl⟩

/-- The tables `init_ramfs` leaves. -/
lemma tables_of_loadAll {es : List Entry} {r : Ramfs} (hlen : es.length ≤ 256)
    (hes : ∀ e ∈ es, e.Read) (h : loadAll .zero es = .ok r) : Tables es r := by
  obtain ⟨hok, hwild⟩ := loadAll_cases hlen hes
  by_cases hun : Unconfused es
  · obtain ⟨r', hr', htables⟩ := hok hun
    obtain rfl := Ramfs.Loaded.ok.inj (h.symm.trans hr')
    exact htables
  · rw [hwild hun] at h
    exact absurd h (by simp)

lemma tables_of_done {s : List (BitVec 8)} {b : ℕ} {r : Ramfs} (hdone : initRamfs s = .done b r)
    (hlen : (entries s).length ≤ 256) : Tables (entries s) r :=
  tables_of_loadAll hlen (fun _ he => entries_read he) (initRamfs_eq_done.mp hdone).2

/-- An entry with data has its file hold the inode its data went to. -/
lemma Tables.link_of_hasData {es : List Entry} {r : Ramfs} {k : ℕ} {e : Entry} (h : Tables es r)
    (hlen : es.length ≤ 256) (hk : es[k]? = some e) (hd : e.HasData) :
    (r.files (slot k)).link = .inode (dataSlot (es.take k)) := by
  have hlt := (List.getElem?_eq_some_iff.mp hk).1
  rw [h.inode, val_slot (by omega), inodeAt, hk, Option.bind_some, ownInode, if_pos hd]

end SkinnyArm
