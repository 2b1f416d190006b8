import SkinnyArm.Rootfs.Scan
import SkinnyArm.Library.Chain

/-!
One record loaded: what the stages of `Ramfs.load` do to the tables.

* **The stages.** `files_setName` is the current slot once type and name are stored, and
  `ParentSaved.frame` says that looking up the parent touches `files` only.
* **The outcomes.** `load_ok` and `addChild_ok` invert a successful load; `addChild` fails only on a
  slot that holds an inode, or whose list of children does not end (`lastSibling_eq_none`).
* **Lists of children.** `follow` is the walk along `next_file`, as a link function of the chain
  library.
* **The condition.** `load_ok_iff` and `loadAll_ok_iff`: an entry is loaded exactly if the search
  for its parent finds no inode and a list that ends (`Walkable`); an inode is read as a file
  exactly if a search finds one (`loadAll_ne_wild_iff`).
-/

namespace SkinnyArm

/-! ### Slots -/

/-- A slot of a table by its number. -/
def slot (n : ℕ) : Slot := Fin.ofNat 256 n

lemma val_slot {n : ℕ} (h : n < 256) : (slot n).val = n := Nat.mod_eq_of_lt h

lemma slot_add_one (n : ℕ) : slot n + 1 = slot (n + 1) := by
  ext
  simp [slot, Fin.val_add]

lemma slot_eq_iff {m n : ℕ} : slot m = slot n ↔ m % 256 = n % 256 := by
  simp [slot, Fin.ext_iff]

lemma slot_val (i : Slot) : slot i.val = i := by
  ext
  exact Nat.mod_eq_of_lt i.isLt

/-- The first slot that satisfies a test. -/
lemma find?_slots_eq_some {p : Slot → Bool} {i : Slot} :
    (List.finRange 256).find? p = some i ↔ p i ∧ ∀ j < i, ¬ p j := by
  rw [← Fin.find?_eq_find?_finRange, Fin.find?_eq_some_iff]
  simp

lemma find?_slots_eq_none {p : Slot → Bool} :
    (List.finRange 256).find? p = none ↔ ∀ j, ¬ p j := by
  simp [List.find?_eq_none]

/-! ### Lists of children -/

/-- The walk along `next_file`. -/
def follow (files : Slot → File) (o : Option Slot) : Option Slot :=
  o.bind fun i => (files i).nextFile

/-- The children of a slot, from its union. -/
def Link.children : Link → Option Slot
  | .file c => some c
  | _ => none

/-- The list that starts at a slot and follows `next_file` to `NULL`. -/
abbrev Siblings (files : Slot → File) (o : Option Slot) (l : List Slot) : Prop :=
  Chain (follow files) none o (l.map some)

lemma Siblings.congr {files files' : Slot → File} {o : Option Slot} {l : List Slot}
    (h : Siblings files o l) (hn : ∀ c ∈ l, (files' c).nextFile = (files c).nextFile) :
    Siblings files' o l :=
  Chain.congr h fun x hx => by
    obtain ⟨c, hc, rfl⟩ := List.mem_map.mp hx
    exact hn c hc

lemma Siblings.ne_nil {files : Slot → File} {c : Slot} {l : List Slot}
    (h : Siblings files (some c) l) : l ≠ [] := by
  rintro rfl
  cases h

/-- A list names no slot twice, so it is no longer than the table. -/
lemma Siblings.length_le {files : Slot → File} {o : Option Slot} {l : List Slot}
    (h : Siblings files o l) : l.length ≤ 256 := by
  have hcard := (List.Nodup.of_map _ h.nodup).length_le_card
  simpa using hcard

lemma siblings_cons {files : Slot → File} {c : Slot} {l : List Slot}
    (h : Siblings files (files c).nextFile l) : Siblings files (some c) (c :: l) :=
  .cons (by simp) h

/-- A walk that ends at once. -/
lemma siblings_singleton {files : Slot → File} {c : Slot} (h : (files c).nextFile = none) :
    Siblings files (some c) [c] := by
  refine siblings_cons ?_
  rw [h]
  exact .nil

/-- A file without a next one can be linked behind the last. -/
lemma Siblings.concat {files files' : Slot → File} {o : Option Slot} {d : Slot} {l : List Slot}
    (h : Siblings files o l) (hl : l ≠ []) (hlast : (files' (l.getLast hl)).nextFile = some d)
    (hend : (files' d).nextFile = none)
    (hn : ∀ c ∈ l, c ≠ l.getLast hl → (files' c).nextFile = (files c).nextFile) :
    Siblings files' o (l ++ [d]) := by
  have hne : l.map some ≠ [] := by simpa using hl
  have hgetLast : (l.map some).getLast hne = some (l.getLast hl) := List.getLast_map hne
  show Chain _ none o ((l ++ [d]).map some)
  rw [List.map_append]
  refine Chain.concat h hne (by simp) (by rw [hgetLast]; exact hlast) hend fun x hx hxl => ?_
  obtain ⟨c, hc, rfl⟩ := List.mem_map.mp hx
  rw [hgetLast] at hxl
  exact hn c hc fun hcl => hxl (congrArg some hcl)

/-- On a list that ends the walk finds its last slot. -/
lemma lastSibling_of_siblings {r : Ramfs} {l : List Slot} {c : Slot} {n : ℕ}
    (h : Siblings r.files (some c) l) (hn : l.length ≤ n) :
    r.lastSibling n c = some (l.getLast h.ne_nil) := by
  induction l generalizing c n with
  | nil => exact absurd rfl h.ne_nil
  | cons d l ih =>
      obtain ⟨hcd, -, hrest⟩ := h.pop
      obtain rfl : c = d := Option.some.inj hcd
      cases n with
      | zero => simp at hn
      | succ n =>
          rw [Ramfs.lastSibling]
          cases hnext : (r.files c).nextFile with
          | none =>
              have hnil : l = [] := by
                have hhead : follow r.files (some c) = none := hnext
                rw [hhead, Chain.null_iff] at hrest
                exact List.map_eq_nil_iff.mp hrest
              subst hnil
              rfl
          | some j =>
              have hhead : follow r.files (some c) = some j := hnext
              rw [hhead] at hrest
              have hlast := ih (n := n) hrest (by simpa using hn)
              rw [List.getLast_cons (Siblings.ne_nil hrest)]
              exact hlast

/-- A walk over at most 256 slots that does not find the last one is endless. -/
lemma lastSibling_eq_none {r : Ramfs} {c : Slot} :
    r.lastSibling 256 c = none ↔ ∀ l, ¬ Siblings r.files (some c) l := by
  constructor
  · intro hnone l hl
    rw [lastSibling_of_siblings hl hl.length_le] at hnone
    exact absurd hnone (by simp)
  · have hwalk : ∀ n c d, r.lastSibling n c = some d → ∃ l, Siblings r.files (some c) l := by
      intro n
      induction n with
      | zero =>
          intro c d h
          exact absurd h (by simp [Ramfs.lastSibling])
      | succ n ih =>
          intro c d h
          rw [Ramfs.lastSibling] at h
          cases hnext : (r.files c).nextFile with
          | none => exact ⟨[c], siblings_singleton hnext⟩
          | some j =>
              rw [hnext] at h
              obtain ⟨l, hl⟩ := ih j d h
              exact ⟨c :: l, siblings_cons (hnext ▸ hl)⟩
    intro hall
    by_contra hsome
    obtain ⟨d, hd⟩ := Option.ne_none_iff_exists'.mp hsome
    obtain ⟨l, hl⟩ := hwalk 256 c d hd
    exact hall l hl

/-! ### The stages -/

namespace Ramfs

variable {r r' : Ramfs} {e : Entry} {p : Slot}

/-- What the union of the current slot holds once the type is stored. -/
def startLink (r : Ramfs) (e : Entry) : Link :=
  match e.fileType with
  | .directory => .null
  | .regular =>
      if e.fileSize = 0 then
        match r.findInode e.deviceNr e.inodeNr with
        | some i => .inode i
        | none => r.currentFile.link
      else r.currentFile.link
  | .invalid => r.currentFile.link

/-- The current slot once type and name are stored. -/
def startFile (r : Ramfs) (e : Entry) : File where
  fileName := e.name
  parent := r.currentFile.parent
  type := e.fileType
  nextFile := none
  link := r.startLink e

/-- Whatever the type is, it is stored with the link in the current slot. -/
lemma setType_slot (r : Ramfs) (e : Entry) :
    (r.setType e).files = Function.update r.files r.findex
        { r.currentFile with type := e.fileType, link := r.startLink e } ∧
      (r.setType e).findex = r.findex := by
  simp only [setType, startLink]
  cases e.fileType with
  | directory => exact ⟨rfl, rfl⟩
  | invalid => exact ⟨rfl, rfl⟩
  | regular =>
      by_cases h0 : e.fileSize = 0
      · simp only [if_pos h0]
        cases r.findInode e.deviceNr e.inodeNr with
        | none => exact ⟨rfl, rfl⟩
        | some i => exact ⟨rfl, rfl⟩
      · simp only [if_neg h0]
        exact ⟨rfl, rfl⟩

lemma files_setType (r : Ramfs) (e : Entry) :
    (r.setType e).files = Function.update r.files r.findex
      { r.currentFile with type := e.fileType, link := r.startLink e } := (setType_slot r e).1

lemma findex_setType (r : Ramfs) (e : Entry) : (r.setType e).findex = r.findex :=
  (setType_slot r e).2

lemma findex_setName (r : Ramfs) (e : Entry) :
    ((r.setType e).setName e).findex = r.findex :=
  findex_setType r e

/-- The current slot has type and name, all others are as before. -/
lemma files_setName (r : Ramfs) (e : Entry) :
    ((r.setType e).setName e).files = Function.update r.files r.findex (r.startFile e) := by
  show Function.update (r.setType e).files (r.setType e).findex _ = _
  rw [currentFile, findex_setType, files_setType, Function.update_self, Function.update_idem]
  rfl

/-- The current slot has no next sibling yet. -/
lemma nextFile_setName (r : Ramfs) (e : Entry) :
    (((r.setType e).setName e).files ((r.setType e).setName e).findex).nextFile = none := by
  rw [files_setName, findex_setName, Function.update_self]
  rfl

/-- Storing the parent keeps all that the search and the walk read. -/
lemma setParent_files (r : Ramfs) (o : Option Slot) (i : Slot) :
    ((r.setFile r.findex { r.currentFile with parent := o }).files i).fileName =
        (r.files i).fileName ∧
      ((r.setFile r.findex { r.currentFile with parent := o }).files i).type = (r.files i).type ∧
      ((r.setFile r.findex { r.currentFile with parent := o }).files i).nextFile =
        (r.files i).nextFile ∧
      ((r.setFile r.findex { r.currentFile with parent := o }).files i).link =
        (r.files i).link := by
  rcases eq_or_ne i r.findex with rfl | hi
  · simp [setFile, currentFile]
  · simp [setFile, hi]

/-- The result of `addChild` when there is one. -/
inductive Added (r : Ramfs) (p : Slot) : Ramfs → Prop
  | first (hlink : (r.files p).link = .null) :
      Added r p (r.setFile p { r.files p with link := .file r.findex })
  | last {c l : Slot} (hlink : (r.files p).link = .file c)
      (hlast : r.lastSibling 256 c = some l) :
      Added r p (r.setFile l { r.files l with nextFile := some r.findex })

lemma addChild_ok (h : r.addChild p = .ok r') : Added r p r' := by
  rw [addChild] at h
  cases hlink : (r.files p).link with
  | null =>
      rw [hlink] at h
      obtain rfl := Loaded.ok.inj h
      exact .first hlink
  | file c =>
      rw [hlink] at h
      cases hlast : r.lastSibling 256 c with
      | some l =>
          simp only [hlast] at h
          obtain rfl := Loaded.ok.inj h
          exact .last hlink hlast
      | none =>
          simp only [hlast] at h
          exact absurd h (by simp)
  | inode i =>
      rw [hlink] at h
      exact absurd h (by simp)

/-- The result of `saveParent` when there is one. -/
inductive ParentSaved (r : Ramfs) (e : Entry) : Ramfs → Prop
  | noParent (hno : e.parentName 0 = 0) : ParentSaved r e r
  | missing (hpar : e.parentName 0 ≠ 0) (hsearch : r.searchFile e.parentName = none) :
      ParentSaved r e (r.setFile r.findex { r.currentFile with parent := none })
  | found {p : Slot} {r' : Ramfs} (hpar : e.parentName 0 ≠ 0)
      (hsearch : r.searchFile e.parentName = some p)
      (hadd : Added (r.setFile r.findex { r.currentFile with parent := some p }) p r') :
      ParentSaved r e r'

lemma saveParent_ok (h : r.saveParent e = .ok r') : ParentSaved r e r' := by
  rw [saveParent] at h
  by_cases hno : e.parentName 0 = 0
  · rw [if_pos hno] at h
    obtain rfl := Loaded.ok.inj h
    exact .noParent hno
  · rw [if_neg hno] at h
    cases hsearch : r.searchFile e.parentName with
    | none =>
        rw [hsearch] at h
        obtain rfl := Loaded.ok.inj h
        exact .missing hno hsearch
    | some p =>
        rw [hsearch] at h
        exact .found hno hsearch (addChild_ok h)

/-- Looking up the parent changes `files` only. -/
lemma ParentSaved.frame (h : ParentSaved r e r') :
    r'.inodes = r.inodes ∧ r'.findex = r.findex ∧ r'.iindex = r.iindex ∧
      r'.currentIno = r.currentIno := by
  cases h with
  | noParent => exact ⟨rfl, rfl, rfl, rfl⟩
  | missing => exact ⟨rfl, rfl, rfl, rfl⟩
  | found _ _ hadd =>
      cases hadd with
      | first => exact ⟨rfl, rfl, rfl, rfl⟩
      | last => exact ⟨rfl, rfl, rfl, rfl⟩

/-- The children of a slot that holds an inode are read out of the inode. -/
lemma saveParent_wild {j : Slot} (hpar : e.parentName 0 ≠ 0)
    (hsearch : r.searchFile e.parentName = some p) (hlink : (r.files p).link = .inode j) :
    r.saveParent e = .wild := by
  have hkept := (setParent_files r (some p) p).2.2.2
  rw [saveParent, if_neg hpar, hsearch]
  simp only [addChild, hkept, hlink]

/-- A load succeeds if saving the parent does. -/
lemma load_eq_ok (h : r.load e = .ok r') :
    ∃ r₁, ((r.setType e).setName e).saveParent e = .ok r₁ ∧
      r' = (r₁.setData e).nextFileSlot := by
  rw [load] at h
  cases hsave : ((r.setType e).setName e).saveParent e with
  | ok r₁ =>
      rw [hsave] at h
      exact ⟨r₁, rfl, (Loaded.ok.inj h).symm⟩
  | spins =>
      rw [hsave] at h
      exact absurd h (by simp)
  | wild =>
      rw [hsave] at h
      exact absurd h (by simp)

/-- A successful load, cut behind the search for the parent. -/
lemma load_ok (h : r.load e = .ok r') :
    ∃ r₁, ParentSaved ((r.setType e).setName e) e r₁ ∧ r' = (r₁.setData e).nextFileSlot := by
  obtain ⟨r₁, hsave, heq⟩ := load_eq_ok h
  exact ⟨r₁, saveParent_ok hsave, heq⟩

/-! ### When an entry is loaded -/

/-- The search for the parent finds no inode, and the list it finds ends. -/
def Walkable (r : Ramfs) (e : Entry) : Prop :=
  e.parentName 0 ≠ 0 → ∀ p, r.searchFile e.parentName = some p →
    (∀ j, (r.files p).link ≠ .inode j) ∧ ∃ l, Siblings r.files (r.files p).link.children l

lemma addChild_ok_iff :
    (∃ r', r.addChild p = .ok r') ↔
      (∀ j, (r.files p).link ≠ .inode j) ∧ ∃ l, Siblings r.files (r.files p).link.children l := by
  rw [addChild]
  cases hlink : (r.files p).link with
  | null => exact ⟨fun _ => ⟨by simp, [], .nil⟩, fun _ => ⟨_, rfl⟩⟩
  | inode i => exact ⟨fun ⟨_, h⟩ => absurd h (by simp), fun h => absurd rfl (h.1 i)⟩
  | file c =>
      cases hlast : r.lastSibling 256 c with
      | some m =>
          simp only [hlast]
          refine ⟨fun _ => ⟨by simp, ?_⟩, fun _ => ⟨_, rfl⟩⟩
          by_contra hnone
          rw [lastSibling_eq_none.mpr (not_exists.mp hnone)] at hlast
          exact absurd hlast (by simp)
      | none =>
          simp only [hlast]
          refine ⟨fun ⟨_, h⟩ => absurd h (by simp), fun ⟨_, l, hl⟩ => ?_⟩
          exact absurd hl (lastSibling_eq_none.mp hlast l)

lemma saveParent_ok_iff : (∃ r', r.saveParent e = .ok r') ↔ r.Walkable e := by
  rw [saveParent, Walkable]
  by_cases hno : e.parentName 0 = 0
  · rw [if_pos hno]
    exact ⟨fun _ h => absurd hno h, fun _ => ⟨_, rfl⟩⟩
  · rw [if_neg hno]
    cases hsearch : r.searchFile e.parentName with
    | none => exact ⟨fun _ _ p hp => by simp at hp, fun _ => ⟨_, rfl⟩⟩
    | some p =>
        have hkept := setParent_files r (some p)
        have hsame : (∃ l, Siblings
            (r.setFile r.findex { r.currentFile with parent := some p }).files
            (r.files p).link.children l) ↔ ∃ l, Siblings r.files (r.files p).link.children l :=
          ⟨fun ⟨l, hl⟩ => ⟨l, hl.congr fun c _ => (hkept c).2.2.1.symm⟩,
            fun ⟨l, hl⟩ => ⟨l, hl.congr fun c _ => (hkept c).2.2.1⟩⟩
        simp only [addChild_ok_iff, (hkept p).2.2.2, hsame]
        refine ⟨fun h _ q hq => ?_, fun h => h hno p rfl⟩
        obtain rfl := Option.some.inj hq
        exact h

/-- **An entry is loaded** exactly if the search for its parent finds no inode, and the list it
finds ends. -/
lemma load_ok_iff : (∃ r', r.load e = .ok r') ↔ ((r.setType e).setName e).Walkable e := by
  rw [← saveParent_ok_iff, load]
  cases ((r.setType e).setName e).saveParent e with
  | ok r₁ => simp
  | spins => simp
  | wild => simp

/-- The search for the parent finds no inode. -/
def FindsNoInode (r : Ramfs) (e : Entry) : Prop :=
  e.parentName 0 ≠ 0 → ∀ p, r.searchFile e.parentName = some p → ∀ j, (r.files p).link ≠ .inode j

lemma Walkable.findsNoInode (h : r.Walkable e) : r.FindsNoInode e := fun hpar p hp =>
  (h hpar p hp).1

/-- **An inode is read as a file** exactly if the search for the parent finds one. -/
lemma load_wild_iff :
    r.load e = .wild ↔
      e.parentName 0 ≠ 0 ∧ ∃ p j, ((r.setType e).setName e).searchFile e.parentName = some p ∧
        (((r.setType e).setName e).files p).link = .inode j := by
  rw [load]
  generalize (r.setType e).setName e = r₀
  constructor
  · intro h
    have hsave : r₀.saveParent e = .wild := by
      cases hs : r₀.saveParent e with
      | ok r₁ => simp [hs] at h
      | spins => simp [hs] at h
      | wild => rfl
    rw [saveParent] at hsave
    by_cases hno : e.parentName 0 = 0
    · simp [hno] at hsave
    rw [if_neg hno] at hsave
    cases hsearch : r₀.searchFile e.parentName with
    | none => simp [hsearch] at hsave
    | some p =>
        simp only [hsearch, addChild, (setParent_files r₀ (some p) p).2.2.2] at hsave
        cases hlink : (r₀.files p).link with
        | inode j => exact ⟨hno, p, j, rfl, hlink⟩
        | null => simp [hlink] at hsave
        | file c =>
            simp only [hlink] at hsave
            split at hsave <;> exact absurd hsave (by simp)
  · rintro ⟨hpar, p, j, hsearch, hlink⟩
    rw [saveParent_wild hpar hsearch hlink]

lemma load_wild_iff_not : r.load e = .wild ↔ ¬ ((r.setType e).setName e).FindsNoInode e := by
  rw [load_wild_iff, FindsNoInode]
  push Not
  simp only [exists_and_left]

end Ramfs

/-- Every search for a parent finds no inode, and a list that ends. -/
def Loadable (es : List Entry) : Prop :=
  ∀ k e r, es[k]? = some e → loadAll .zero (es.take k) = .ok r →
    ((r.setType e).setName e).Walkable e

/-- The entries before a position are loaded if all are. -/
lemma loadAll_take {es : List Entry} {r : Ramfs} (h : loadAll .zero es = .ok r) (k : ℕ) :
    ∃ r₁, loadAll .zero (es.take k) = .ok r₁ := by
  rw [← List.take_append_drop k es] at h
  obtain ⟨r₁, hr₁, -⟩ := loadAll_prefix h
  exact ⟨r₁, hr₁⟩

/-- **All entries are loaded** exactly if every search finds no inode, and a list that ends. -/
lemma loadAll_ok_iff {es : List Entry} : (∃ r, loadAll .zero es = .ok r) ↔ Loadable es := by
  constructor
  · rintro ⟨r, hr⟩ k e r₁ hget hr₁
    obtain ⟨r₂, hr₂⟩ := loadAll_take hr (k + 1)
    rw [take_succ_of_some hget] at hr₂
    obtain ⟨r₁', hr₁', hload⟩ := loadAll_concat hr₂
    obtain rfl := Ramfs.Loaded.ok.inj (hr₁.symm.trans hr₁')
    exact Ramfs.load_ok_iff.mp ⟨_, hload⟩
  · intro h
    have hall : ∀ k ≤ es.length, ∃ r, loadAll .zero (es.take k) = .ok r := by
      intro k
      induction k with
      | zero => exact fun _ => ⟨_, rfl⟩
      | succ k ih =>
          intro hk
          obtain ⟨r, hr⟩ := ih (by omega)
          have hget : es[k]? = some es[k] := List.getElem?_eq_getElem hk
          obtain ⟨r', hr'⟩ := Ramfs.load_ok_iff.mpr (h k _ r hget hr)
          rw [take_succ_of_some hget, loadAll_append, hr]
          exact ⟨r', by simp only [loadAll, hr']⟩
    obtain ⟨r, hr⟩ := hall es.length le_rfl
    rw [List.take_length] at hr
    exact ⟨r, hr⟩

/-- No search for a parent finds an inode. -/
def ReadsNoInode (es : List Entry) : Prop :=
  ∀ k e r, es[k]? = some e → loadAll .zero (es.take k) = .ok r →
    ((r.setType e).setName e).FindsNoInode e

lemma Loadable.readsNoInode {es : List Entry} (h : Loadable es) : ReadsNoInode es :=
  fun k e r hget hr => (h k e r hget hr).findsNoInode

/-- The entry at which the run reads an inode as a file. -/
lemma exists_wild {es : List Entry} (h : loadAll .zero es = .wild) :
    ∃ k e r₀, es[k]? = some e ∧ loadAll .zero (es.take k) = .ok r₀ ∧ r₀.load e = .wild := by
  induction es using List.reverseRecOn with
  | nil => exact absurd h (by simp [loadAll])
  | append_singleton es e ih =>
      rw [loadAll_append] at h
      cases hes : loadAll .zero es with
      | ok r₀ =>
          refine ⟨es.length, e, r₀, by simp, by simpa using hes, ?_⟩
          simp only [hes, loadAll] at h
          cases hload : r₀.load e with
          | ok r₁ => simp [hload] at h
          | spins => simp [hload] at h
          | wild => rfl
      | spins => simp [hes] at h
      | wild =>
          obtain ⟨k, e', r₀, hget, hr₀, hload⟩ := ih hes
          have hk := (List.getElem?_eq_some_iff.mp hget).1
          exact ⟨k, e', r₀, getElem?_concat.mpr (.inl hget), by rwa [take_concat hk.le], hload⟩

/-- **No inode is read as a file** exactly if no search finds one. -/
lemma loadAll_ne_wild_iff {es : List Entry} : loadAll .zero es ≠ .wild ↔ ReadsNoInode es := by
  constructor
  · intro hne k e r hget hr
    by_contra hnot
    refine hne ?_
    rw [← take_append_cons_drop hget, loadAll_append, hr]
    simp only [loadAll, Ramfs.load_wild_iff_not.mpr hnot]
  · intro h hwild
    obtain ⟨k, e, r, hget, hr, hload⟩ := exists_wild hwild
    exact Ramfs.load_wild_iff_not.mp hload (h k e r hget hr)

end SkinnyArm
