import SkinnyArm.Rootfs.Contents

/-!
When `init_ramfs` terminates.

* **The loops.** The record cursor grows with every record (`nextStart_ge`), and the name loop stops
  at the first NUL, which is at the end of the stream at the latest.  What is left is the walk to
  the last sibling, which stops as long as no `next_file` chain is cyclic (`Acyclic`).
* **The invariant.** Loading an entry keeps the chains acyclic exactly if it does not append the
  current file to a list it is in already (`Orderly`): if it is, it is the last one, and its
  `next_file` becomes itself.
* **The result.** `terminates_iff`, for streams of any number of entries.
-/

namespace SkinnyArm

open Newc

/-- Every walk along `next_file` comes to an end. -/
def Acyclic (files : Slot → File) : Prop := ∀ i, ∃ l, Siblings files (some i) l

/-- The nodes of a walk from a slot are slots. -/
lemma exists_siblings {files : Slot → File} {o : Option Slot} {x : List (Option Slot)}
    (h : Chain (follow files) none o x) : ∃ l, Siblings files o l := by
  induction h with
  | nil => exact ⟨[], .nil⟩
  | @cons o x ho _ ih =>
      obtain ⟨l, hl⟩ := ih
      obtain ⟨c, rfl⟩ := Option.ne_none_iff_exists'.mp ho
      exact ⟨c :: l, .cons ho hl⟩

lemma Acyclic.congr {files files' : Slot → File} (h : Acyclic files)
    (hn : ∀ i, (files' i).nextFile = (files i).nextFile) : Acyclic files' := by
  intro i
  obtain ⟨l, hl⟩ := h i
  exact ⟨l, hl.congr fun c _ => hn c⟩

/-- With one `next_file` changed all walks end, if the one from there does. -/
lemma Acyclic.relink {files files' : Slot → File} {j : Slot} (h : Acyclic files)
    (hn : ∀ i, i ≠ j → (files' i).nextFile = (files i).nextFile)
    (hj : ∃ l, Siblings files' (some j) l) : Acyclic files' := by
  intro i
  obtain ⟨l, hl⟩ := h i
  obtain ⟨lj, hlj⟩ := hj
  obtain ⟨l', hl'⟩ := hl.exists_of_relink ⟨_, hlj⟩ fun x hx => by
    cases x with
    | none => rfl
    | some c => exact hn c fun hc => hx (congrArg some hc)
  exact exists_siblings hl'

/-! ### A load -/

/-- The search for the parent finds no inode, and the list the current file is appended to does not
hold it yet. -/
def Ramfs.Orderly (r : Ramfs) (e : Entry) : Prop :=
  e.parentName 0 ≠ 0 → ∀ p, r.searchFile e.parentName = some p →
    (∀ j, (r.files p).link ≠ .inode j) ∧
      ∀ l, Siblings r.files (r.files p).link.children l → r.findex ∉ l

section Load

variable {r r' : Ramfs} {e : Entry} {p : Slot}

/-- Storing type and name ends every walk at the current slot that gets there. -/
lemma Acyclic.setName (h : Acyclic r.files) : Acyclic ((r.setType e).setName e).files := by
  rw [Ramfs.files_setName]
  refine h.relink (j := r.findex) (fun i hi => by rw [Function.update_of_ne hi])
    ⟨[r.findex], siblings_singleton ?_⟩
  rw [Function.update_self]
  rfl

/-- Adding the current file to a list it is not in keeps the chains acyclic. -/
lemma Acyclic.added (h : Acyclic r.files) (hadd : Ramfs.Added r p r')
    (hcur : (r.files r.findex).nextFile = none)
    (hnew : ∀ l, Siblings r.files (r.files p).link.children l → r.findex ∉ l) :
    Acyclic r'.files := by
  cases hadd with
  | first hlink =>
      refine h.congr fun i => ?_
      rcases eq_or_ne i p with rfl | hi
      · simp [Ramfs.setFile]
      · simp [Ramfs.setFile, hi]
  | @last c m hlink hlast =>
      obtain ⟨l, hl⟩ := h c
      have hm : m ∈ l := by
        rw [lastSibling_of_siblings hl hl.length_le] at hlast
        rw [← Option.some.inj hlast]
        exact List.getLast_mem hl.ne_nil
      have hchildren : (r.files p).link.children = some c := by rw [hlink]; rfl
      have hne : r.findex ≠ m := fun heq => hnew l (hchildren ▸ hl) (heq ▸ hm)
      have hother : ∀ i, i ≠ m →
          ((r.setFile m { r.files m with nextFile := some r.findex }).files i).nextFile =
            (r.files i).nextFile := fun i hi => by simp [Ramfs.setFile, hi]
      have hself : ((r.setFile m { r.files m with nextFile := some r.findex }).files m).nextFile =
          some r.findex := by simp [Ramfs.setFile]
      refine h.relink hother ⟨[m, r.findex], siblings_cons ?_⟩
      rw [hself]
      exact siblings_singleton ((hother _ hne).trans hcur)

/-- **Loading an entry** in good order keeps the chains acyclic. -/
lemma Acyclic.load (h : Acyclic r.files) (hload : r.load e = .ok r')
    (horder : ((r.setType e).setName e).Orderly e) : Acyclic r'.files := by
  obtain ⟨r₁, hsave, rfl⟩ := Ramfs.load_ok hload
  have hstart := h.setName (e := e)
  have hcur := Ramfs.nextFile_setName r e
  generalize (r.setType e).setName e = r₀ at *
  have hset : ∀ o, Acyclic (r₀.setFile r₀.findex { r₀.currentFile with parent := o }).files :=
    fun o => hstart.congr fun i => (Ramfs.setParent_files r₀ o i).2.2.1
  have hsaved : Acyclic r₁.files := by
    cases hsave with
    | noParent => exact hstart
    | missing => exact hset none
    | @found p _ hpar hsearch hadd =>
        have hkept := Ramfs.setParent_files r₀ (some p)
        refine (hset (some p)).added hadd ((hkept _).2.2.1.trans hcur) fun l hl => ?_
        rw [(hkept p).2.2.2] at hl
        exact (horder hpar p hsearch).2 l (hl.congr fun c _ => (hkept c).2.2.1.symm)
  exact hsaved.congr fun i => (Ramfs.setData_kept r₁ e i).2.2.2

/-- A file appended to a list it is in already becomes its own next one. -/
lemma nextFile_load (hload : r.load e = .ok r') (hpar : e.parentName 0 ≠ 0)
    (hsearch : ((r.setType e).setName e).searchFile e.parentName = some p) {l : List Slot}
    (hl : Siblings ((r.setType e).setName e).files
      (((r.setType e).setName e).files p).link.children l) (hmem : r.findex ∈ l) :
    (r'.files r.findex).nextFile = some r.findex := by
  obtain ⟨r₁, hsave, rfl⟩ := Ramfs.load_ok hload
  have hcur := Ramfs.nextFile_setName r e
  rw [← Ramfs.findex_setName r e] at hmem ⊢
  generalize (r.setType e).setName e = r₀ at *
  have hnext : (r₁.files r₀.findex).nextFile = some r₀.findex := by
    cases hsave with
    | noParent hno => exact absurd hno hpar
    | missing _ hnone => exact absurd (hnone.symm.trans hsearch) (by simp)
    | @found q _ _ hfound hadd =>
        obtain rfl : q = p := Option.some.inj (hfound.symm.trans hsearch)
        have hkept := Ramfs.setParent_files r₀ (some q)
        cases hadd with
        | first hlink =>
            rw [(hkept q).2.2.2] at hlink
            rw [hlink] at hl
            have hnil := List.map_eq_nil_iff.mp (Chain.null_iff.mp hl)
            exact absurd (hnil ▸ hmem) List.not_mem_nil
        | @last c m hlink hlast =>
            rw [(hkept q).2.2.2] at hlink
            rw [hlink] at hl
            have hchain : Siblings (r₀.setFile r₀.findex
                { r₀.currentFile with parent := some q }).files (some c) l :=
              Siblings.congr hl fun d _ => (hkept d).2.2.1
            have hne : l.map some ≠ [] := by simpa using hchain.ne_nil
            have hgetLast := Chain.getLast_eq hl (List.mem_map_of_mem hmem) hcur hne
            rw [List.getLast_map] at hgetLast
            rw [lastSibling_of_siblings hchain hchain.length_le] at hlast
            have hm : r₀.findex = m :=
              (Option.some.inj hgetLast).symm.trans (Option.some.inj hlast)
            simp only [Ramfs.setFile, ← hm, Function.update_self]
  rw [(Ramfs.setData_kept r₁ e _).2.2.2, hnext]

/-- Loading an entry out of order leaves a cycle. -/
lemma orderly_of_acyclic (hload : r.load e = .ok r') (h : Acyclic r'.files) :
    ((r.setType e).setName e).Orderly e := by
  intro hpar p hsearch
  refine ⟨(Ramfs.load_ok_iff.mp ⟨r', hload⟩ hpar p hsearch).1, fun l hl hmem => ?_⟩
  rw [Ramfs.findex_setName] at hmem
  have hself := nextFile_load hload hpar hsearch hl hmem
  obtain ⟨l', hl'⟩ := h r.findex
  obtain ⟨rest, hrest, -⟩ := hl'.exists_eq_cons (by simp)
  have hhead : some r.findex ∈ l'.map some := hrest ▸ List.mem_cons_self
  exact hl'.next_ne_head hhead hself

end Load

/-! ### The run -/

/-- `init_ramfs` returns, and no `next_file` chain is ever cyclic. -/
structure Terminates (s : List (BitVec 8)) : Prop where
  cursor : ∀ a, a + 112 ≤ nextStart s a
  returns : (∃ b r, initRamfs s = .done b r) ∨ ∃ r, initRamfs s = .failed r
  acyclic : ∀ k r, loadAll .zero ((entries s).take k) = .ok r → Acyclic r.files

/-- `init_ramfs` returns exactly if all entries are loaded. -/
lemma returns_iff {s : List (BitVec 8)} :
    ((∃ b r, initRamfs s = .done b r) ∨ ∃ r, initRamfs s = .failed r) ↔
      ∃ r, loadAll .zero (entries s) = .ok r := by
  constructor
  · rintro (⟨b, r, hdone⟩ | hfailed)
    · exact ⟨r, (initRamfs_eq_done.mp hdone).2⟩
    · exact (initRamfs_eq_failed.mp hfailed).2
  · rintro ⟨r, hr⟩
    cases hend : ending s with
    | trailer a => exact .inl ⟨_, r, initRamfs_eq_done.mpr ⟨⟨a, hend, rfl⟩, hr⟩⟩
    | badMagic => exact .inr (initRamfs_eq_failed.mpr ⟨by simp [hend], r, hr⟩)
    | badMode a => exact .inr (initRamfs_eq_failed.mpr ⟨by simp [hend], r, hr⟩)

/-- **Termination**: `init_ramfs` returns and keeps all `next_file` chains acyclic exactly if every
search for a parent finds no inode, and a list that does not hold the current slot yet. -/
theorem terminates_iff (s : List (BitVec 8)) :
    Terminates s ↔
      ∀ k e r, (entries s)[k]? = some e → loadAll .zero ((entries s).take k) = .ok r →
        ((r.setType e).setName e).Orderly e := by
  constructor
  · intro h k e r hget hr
    obtain ⟨r', hr'⟩ := returns_iff.mp h.returns
    obtain ⟨r₁, hr₁⟩ := loadAll_take hr' (k + 1)
    have hacyclic := h.acyclic (k + 1) r₁ hr₁
    rw [take_succ_of_some hget] at hr₁
    obtain ⟨r₂, hr₂, hload⟩ := loadAll_concat hr₁
    obtain rfl := Ramfs.Loaded.ok.inj (hr.symm.trans hr₂)
    exact orderly_of_acyclic hload hacyclic
  · intro h
    have hrun : ∀ k, ∃ r, loadAll .zero ((entries s).take k) = .ok r ∧ Acyclic r.files := by
      intro k
      induction k with
      | zero => exact ⟨_, rfl, fun i => ⟨[i], siblings_singleton rfl⟩⟩
      | succ k ih =>
          obtain ⟨r, hr, hacyclic⟩ := ih
          cases hget : (entries s)[k]? with
          | none =>
              rw [take_succ_of_none hget]
              exact ⟨r, hr, hacyclic⟩
          | some e =>
              have horder := h k e r hget hr
              have hwalk : ((r.setType e).setName e).Walkable e := fun hpar p hsearch => by
                refine ⟨(horder hpar p hsearch).1, ?_⟩
                cases hlink : (((r.setType e).setName e).files p).link with
                | null => exact ⟨[], .nil⟩
                | file c => exact hacyclic.setName c
                | inode i => exact ⟨[], .nil⟩
              obtain ⟨r', hload⟩ := Ramfs.load_ok_iff.mpr hwalk
              refine ⟨r', ?_, hacyclic.load hload horder⟩
              rw [take_succ_of_some hget, loadAll_append, hr]
              simp only [loadAll, hload]
    constructor
    case cursor => exact fun a => (nextStart_ge s a).1.trans (nextStart_ge s a).2
    case returns =>
      obtain ⟨r, hr, -⟩ := hrun (entries s).length
      rw [List.take_length] at hr
      exact returns_iff.mpr ⟨r, hr⟩
    case acyclic =>
      intro k r hr
      obtain ⟨r', hr', hacyclic⟩ := hrun k
      obtain rfl := Ramfs.Loaded.ok.inj (hr.symm.trans hr')
      exact hacyclic

/-! ### A walk that never ends -/

/-- An empty file that is its own parent by name, and no link. -/
structure SelfParent (d : Name) (e : Entry) : Prop where
  name : e.name = d
  parent : e.parentName = d
  ne_nul : d 0 ≠ 0
  nul : 0 ∈ d.bytes
  type : e.fileType = .regular
  size : e.fileSize = 0
  device : e.deviceNr ≠ 0

section SelfParent

variable {es : List Entry} {e : Entry} {d : Name} {r r' : Ramfs}

lemma SelfParent.not_numbered (h : SelfParent d e) : ¬ e.Numbered := fun hn => hn.2 h.size

lemma SelfParent.not_hasData (h : SelfParent d e) : ¬ e.HasData := fun hd =>
  h.not_numbered hd.numbered

/-- Without numbered entries the inode table stays as it was. -/
lemma inodeTable_of_not_numbered (h : ∀ e ∈ es, ¬ e.Numbered) :
    inodeTable es = Ramfs.zero.inodeTable := by
  induction es using List.reverseRecOn with
  | nil => rfl
  | append_singleton es e ih =>
      have he := h e (by simp)
      rw [inodeTable_concat, ih fun e' he' => h e' (List.mem_append_left _ he'),
        InodeTable.advance, if_neg fun hd => he hd.numbered, if_neg he]

lemma SelfParent.find_eq_none (he : SelfParent d e) :
    Ramfs.zero.inodeTable.find e = none := by
  refine find?_slots_eq_none.mpr fun j => ?_
  have hne : Ramfs.zero.inodeTable.inodes j = ⟨none, 0, 0, 0⟩ := rfl
  simp only [hne, decide_eq_true_eq, not_and]
  exact fun h0 => absurd h0.symm he.device

lemma SelfParent.startInode_eq (he : SelfParent d e) (hes : ∀ e' ∈ es, SelfParent d e') :
    startInode es e = none := by
  rw [startInode, if_pos ⟨he.type, he.size⟩,
    inodeTable_of_not_numbered fun e' he' => (hes e' he').not_numbered, he.find_eq_none]

/-- The first slot is every such file's parent. -/
lemma SelfParent.lookup_eq (he : SelfParent d e) (hes : ∀ e' ∈ es, SelfParent d e') :
    lookup es e = some 0 := by
  refine find?_slots_eq_some.mpr ⟨?_, fun j hj => absurd hj (Fin.not_lt_zero j)⟩
  have hslot : slotName es e 0 = d := by
    cases es with
    | nil => exact he.name
    | cons e' es => exact (hes e' List.mem_cons_self).name
  rw [hslot, he.parent]
  exact decide_eq_true List.prefix_rfl

lemma unconfused_selfParent (hes : ∀ e' ∈ es, SelfParent d e') : Unconfused es := by
  rintro k e hget ⟨-, p, -, hholds⟩
  have he := hes e (List.mem_of_getElem? hget)
  have htake : ∀ j, ∀ e' ∈ (es.take k).take j, SelfParent d e' := fun j e' he' =>
    hes e' (List.mem_of_mem_take (List.mem_of_mem_take he'))
  rcases hholds with ⟨e', hget', hino⟩ | ⟨-, hino⟩
  · have he' := hes e' (List.mem_of_mem_take (List.mem_of_getElem? hget'))
    rw [ownInode, if_neg he'.not_hasData] at hino
    exact hino (he'.startInode_eq (htake p.val))
  · exact hino (he.startInode_eq fun e' he' => hes e' (List.mem_of_mem_take he'))

/-- After 256 such files the first slot heads its own list of children. -/
lemma Tables.link_selfParent (h : Tables es r) (hes : ∀ e' ∈ es, SelfParent d e')
    (hlen : es.length = 256) : (r.files 0).link = .file 0 := by
  have hpar : parentAt es 0 = some 0 := by
    have hget : es[0]? = some es[0] := List.getElem?_eq_getElem (by omega)
    have he := hes es[0] (List.mem_of_getElem? hget)
    have hpar0 : es[0].parentName 0 ≠ 0 := by
      rw [he.parent]
      exact he.ne_nul
    rw [parentAt, hget, Option.bind_some, parentOf, if_neg hpar0]
    exact he.lookup_eq fun e' he' => absurd he' (by simp)
  have hino : inodeAt es 0 = none := by
    have hget : es[0]? = some es[0] := List.getElem?_eq_getElem (by omega)
    have he := hes es[0] (List.mem_of_getElem? hget)
    rw [inodeAt, hget, Option.bind_some, ownInode, if_neg he.not_hasData]
    exact he.startInode_eq fun e' he' => absurd he' (by simp)
  have hmem : ∃ rest, childrenOf es 0 = 0 :: rest := by
    rw [childrenOf, if_neg (by simpa using hino), hlen, List.range_succ_eq_map,
      List.filter_cons_of_pos (by simp [hpar])]
    exact ⟨_, rfl⟩
  obtain ⟨rest, hrest⟩ := hmem
  have hchain := h.children 0
  simp only [hrest, List.map_cons] at hchain
  have hhead := hchain.pop.1
  cases hlink : (r.files 0).link with
  | null =>
      rw [hlink] at hhead
      exact absurd hhead (by simp [Link.children])
  | file c =>
      rw [hlink] at hhead
      exact congrArg Link.file (Option.some.inj hhead)
  | inode i =>
      rw [hlink] at hhead
      exact absurd hhead (by simp [Link.children])

lemma searchFile_zero (hname : (r.files 0).fileName = d) (hnul : 0 ∈ d.bytes) :
    r.searchFile d = some 0 := by
  refine find?_slots_eq_some.mpr ⟨?_, fun j hj => absurd hj (Fin.not_lt_zero j)⟩
  rw [hname, strequal_eq hnul hnul]
  simp

/-- A union that is not `NULL` stays when an entry without data is loaded. -/
lemma link_load (hload : r.load e = .ok r') (hd : ¬ e.HasData) {i : Slot}
    (hnull : (((r.setType e).setName e).files i).link ≠ .null) :
    (r'.files i).link = (((r.setType e).setName e).files i).link := by
  obtain ⟨r₁, hsave, rfl⟩ := Ramfs.load_ok hload
  rw [Ramfs.files_setData, if_neg fun hh => hd hh.2]
  generalize (r.setType e).setName e = r₀ at *
  cases hsave with
  | noParent => rfl
  | missing => exact (Ramfs.setParent_files r₀ none i).2.2.2
  | @found p _ _ _ hadd =>
      have hkept := Ramfs.setParent_files r₀ (some p)
      rw [← (hkept i).2.2.2] at hnull ⊢
      cases hadd with
      | first hlink =>
          have hi : i ≠ p := fun hi => hnull (hi ▸ hlink)
          simp only [Ramfs.setFile, Function.update_of_ne hi]
      | @last c m _ _ =>
          rcases eq_or_ne i m with rfl | hi
          · simp only [Ramfs.setFile, Function.update_self]
          · simp only [Ramfs.setFile, Function.update_of_ne hi]

/-- A list that does not end is walked for ever. -/
lemma load_spins {p c : Slot} (hpar : e.parentName 0 ≠ 0)
    (hsearch : ((r.setType e).setName e).searchFile e.parentName = some p)
    (hlink : (((r.setType e).setName e).files p).link = .file c)
    (hnone : ∀ l, ¬ Siblings ((r.setType e).setName e).files (some c) l) :
    r.load e = .spins := by
  rw [Ramfs.load]
  generalize (r.setType e).setName e = r₀ at *
  have hkept := Ramfs.setParent_files r₀ (some p)
  have hlast : (r₀.setFile r₀.findex { r₀.currentFile with parent := some p }).lastSibling 256 c =
      none :=
    lastSibling_eq_none.mpr fun l hl => hnone l (hl.congr fun a _ => (hkept a).2.2.1.symm)
  rw [Ramfs.saveParent, if_neg hpar, hsearch]
  simp only [Ramfs.addChild, (hkept p).2.2.2, hlink, hlast]

/-- **An endless walk**: the file 256 behind the first takes the first slot again, is appended to
the list it heads, and the next one is looking for the end of that list. -/
lemma loadAll_selfParent {x y : Entry} (hes : ∀ e' ∈ es, SelfParent d e')
    (hread : ∀ e' ∈ es, e'.Read) (hlen : es.length = 256) (hx : SelfParent d x)
    (hy : SelfParent d y) : loadAll .zero (es ++ [x, y]) = .spins := by
  obtain ⟨r, hr, htables⟩ := (loadAll_cases hlen.le hread).1 (unconfused_selfParent hes)
  have hcur : r.findex = 0 := by
    rw [htables.findex, hlen]
    rfl
  have hlink := htables.link_selfParent hes hlen
  have hfind : r.findInode x.deviceNr x.inodeNr = none := by
    rw [htables.findInode_eq, inodeTable_of_not_numbered fun e' he' => (hes e' he').not_numbered,
      hx.find_eq_none]
  -- the first slot once the file has stored its type and name there
  have hfirst : ((r.setType x).setName x).files 0 = r.startFile x := by
    rw [Ramfs.files_setName, hcur, Function.update_self]
  have hstart : (r.startFile x).link = .file 0 := by
    show r.startLink x = _
    simp only [Ramfs.startLink, hx.type, if_pos hx.size, hfind]
    rw [Ramfs.currentFile, hcur, hlink]
  have hlink₀ : (((r.setType x).setName x).files 0).link = .file 0 := by rw [hfirst, hstart]
  have hparx : x.parentName 0 ≠ 0 := by
    rw [hx.parent]
    exact hx.ne_nul
  have hsearch : ((r.setType x).setName x).searchFile x.parentName = some 0 := by
    rw [hx.parent]
    exact searchFile_zero (by rw [hfirst]; exact hx.name) hx.nul
  have hsingle : Siblings ((r.setType x).setName x).files
      (((r.setType x).setName x).files 0).link.children [0] := by
    rw [hlink₀]
    exact siblings_singleton (by rw [hfirst]; rfl)
  obtain ⟨r', hload⟩ : ∃ r', r.load x = .ok r' := Ramfs.load_ok_iff.mpr fun _ p hp => by
    obtain rfl : 0 = p := Option.some.inj (hsearch.symm.trans hp)
    exact ⟨by simp [hlink₀], _, hsingle⟩
  have hself := nextFile_load hload hparx hsearch hsingle (by simp [hcur])
  obtain ⟨hcur', hname'⟩ := Ramfs.name_load hload
  have hlink' := link_load hload hx.not_hasData (i := 0) (by simp [hlink₀])
  rw [hcur] at hself hcur' hname'
  rw [hlink₀] at hlink'
  -- the first slot is as it was when the next file stores its type and name
  have hsecond : ((r'.setType y).setName y).files 0 = r'.files 0 := by
    rw [Ramfs.files_setName, hcur', Function.update_of_ne (by decide)]
  have hspins : r'.load y = .spins := by
    refine load_spins (p := 0) (c := 0) (by rw [hy.parent]; exact hy.ne_nul) ?_ ?_ fun l hl => ?_
    · rw [hy.parent]
      exact searchFile_zero (by rw [hsecond, hname', hx.name]) hy.nul
    · rw [hsecond, hlink']
    · obtain ⟨rest, hrest, -⟩ := hl.exists_eq_cons (by simp)
      have hhead : some (0 : Slot) ∈ l.map some := hrest ▸ List.mem_cons_self
      refine hl.next_ne_head hhead ?_
      show (((r'.setType y).setName y).files 0).nextFile = some 0
      rw [hsecond, hself]
  rw [loadAll_append, hr]
  simp only [loadAll, hload, hspins]

end SelfParent

/-- Files `d/d` without data, two more than `files` has slots. -/
def selfParents : List Member :=
  List.replicate 258 (plainMember (digits 8 1) (digits 8 0x81A4) [[0x64], [0x64]] [])

lemma selfParents_readable : ∀ m ∈ selfParents, Readable m := by
  intro m hm
  rw [(List.mem_replicate.mp hm).2]
  exact readable_plainMember (length_digits 8 _) (length_digits 8 _) (by decide)

lemma selfParents_entry {e : Entry} (he : e ∈ entries (archive selfParents trailer)) :
    SelfParent (padName [0x64]) e := by
  obtain ⟨k, hk⟩ := List.getElem?_of_mem he
  rw [getElem?_entries selfParents_readable isTrailer_trailer List.prefix_rfl,
    Option.map_eq_some_iff] at hk
  obtain ⟨m, hm, rfl⟩ := hk
  rw [(List.mem_replicate.mp (List.mem_of_getElem? hm)).2]
  have hdevice : fieldWord (digits 8 0) ≠ 0 := by decide
  exact ⟨rfl, rfl, by decide, by decide, rfl, rfl, hdevice⟩

/-- `init_ramfs` does not return on 258 files `d/d`. -/
theorem terminates_fails :
    initRamfs (archive selfParents trailer) = .spins ∧
      ¬ Terminates (archive selfParents trailer) := by
  have hcount := length_entries selfParents_readable isTrailer_trailer
    (List.prefix_rfl (l := archive selfParents trailer))
  have hlen : selfParents.length = 258 := List.length_replicate
  have hentry : ∀ e ∈ entries (archive selfParents trailer), SelfParent (padName [0x64]) e :=
    fun e he => selfParents_entry he
  have hread : ∀ e ∈ entries (archive selfParents trailer), e.Read := fun e he => entries_read he
  have hspins : loadAll .zero (entries (archive selfParents trailer)) = .spins := by
    generalize entries (archive selfParents trailer) = es at *
    have hx : es[256]? = some es[256] := List.getElem?_eq_getElem (by omega)
    have hy : es[257]? = some es[257] := List.getElem?_eq_getElem (by omega)
    have hdrop : es.drop 257 = [es[257]] := by
      rw [List.drop_eq_getElem_cons (by omega), List.drop_eq_nil_of_le (by omega)]
    have hsplit := take_append_cons_drop hx
    rw [hdrop] at hsplit
    rw [← hsplit]
    exact loadAll_selfParent (fun e he => hentry e (List.mem_of_mem_take he))
      (fun e he => hread e (List.mem_of_mem_take he)) (by rw [List.length_take]; omega)
      (hentry _ (List.mem_of_getElem? hx)) (hentry _ (List.mem_of_getElem? hy))
  refine ⟨by rw [initRamfs_eq, hspins]; rfl, fun h => ?_⟩
  obtain ⟨r, hr⟩ := returns_iff.mp h.returns
  rw [hspins] at hr
  exact absurd hr (by simp)

end SkinnyArm
