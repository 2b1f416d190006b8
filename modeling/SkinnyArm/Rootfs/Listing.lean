import SkinnyArm.Rootfs.Tree
import SkinnyArm.Rootfs.Search
import SkinnyArm.Kernel.Uart

/-!
`ls` and `read` on the tables that `init_ramfs` leaves.

* **The walk.** `ls` sends the name of the file it finds and follows `next_file` from there: it
  lists the file and its siblings, not its children.
* **The siblings.** `laterSiblings` are the entries put under the same slot after an entry, as long
  as no directory was loaded into that slot.  `Listed` says that `next_file` meets them, in order.
* **The results.** `ls_entries` for the entries of any stream, and `ls_archive` for an archive in
  find order, where these are the later members of the same directory.  `read_archive`: `read`
  checks the offset against the size the archive gives.
-/

namespace SkinnyArm

open Newc

namespace Ramfs

/-- The loop of `ls`, over at most as many files as given. -/
def lsLoop (delay : ℕ) (r : Ramfs) : ℕ → Option Slot → Uart → Option Uart
  | _, none, u => some u
  | 0, some _, _ => none
  | n + 1, some i, u =>
      lsLoop delay r n (r.files i).nextFile (u.uartPuts delay (r.files i).fileName.bytes)

/-- `ls`; `none` is a walk that goes round for ever. -/
def ls (delay : ℕ) (r : Ramfs) (filepath : List (BitVec 8)) (u : Uart) : Option (Uart × ℤ) :=
  match r.searchFileBytes filepath with
  | none => some (u, -1)
  | some i => (r.lsLoop delay 256 (some i) u).map fun u' => (u', 0)

end Ramfs

/-! ### The walk -/

/-- `uart_puts` sends a C string. -/
lemma Uart.uartPuts_eq (delay : ℕ) (u : Uart) (s : List (BitVec 8)) :
    ∃ busy, u.uartPuts delay s = ⟨u.rx, u.sent ++ cstr s, busy⟩ := by
  induction s generalizing u with
  | nil => exact ⟨u.busy, by rw [uartPuts, cstr, List.takeWhile_nil, List.append_nil]⟩
  | cons c s ih =>
      rw [uartPuts]
      by_cases hc : c = 0
      · rw [if_neg (not_not.mpr hc), hc, cstr_cons_zero, List.append_nil]
        exact ⟨u.busy, rfl⟩
      · obtain ⟨busy, hsend⟩ := u.uartSend_eq delay c
        obtain ⟨busy', hputs⟩ := ih (u.uartSend delay c)
        rw [if_pos hc, hputs, hsend, cstr_cons_of_ne hc, List.append_assoc, List.singleton_append]
        exact ⟨busy', rfl⟩

/-- On a list that ends the loop sends the names in it. -/
lemma lsLoop_of_siblings {r : Ramfs} {o : Option Slot} {l : List Slot} {n : ℕ}
    (h : Siblings r.files o l) (hn : l.length ≤ n) (delay : ℕ) (u : Uart) :
    ∃ busy, r.lsLoop delay n o u = some ⟨u.rx, u.sent ++ l.flatMap r.nameOf, busy⟩ := by
  induction l generalizing o n u with
  | nil =>
      obtain rfl : o = none := h.eq_nil_iff.mp rfl
      exact ⟨u.busy, by rw [Ramfs.lsLoop, List.flatMap_nil, List.append_nil]⟩
  | cons i l ih =>
      obtain ⟨rfl, -, hrest⟩ := h.pop
      cases n with
      | zero => exact absurd hn (by simp)
      | succ n =>
          obtain ⟨busy, hputs⟩ := u.uartPuts_eq delay (r.files i).fileName.bytes
          obtain ⟨busy', hloop⟩ := ih hrest (Nat.le_of_succ_le_succ hn)
            (u.uartPuts delay (r.files i).fileName.bytes)
          have hnext : follow r.files (some i) = (r.files i).nextFile := rfl
          rw [hnext, hputs, List.append_assoc] at hloop
          rw [Ramfs.lsLoop, hputs, List.flatMap_cons]
          exact ⟨busy', hloop⟩

/-- A list of siblings ends where the list from any of them ends. -/
lemma getLast_siblings {files : Slot → File} {c d : Slot} {l l' : List Slot}
    (h : Siblings files (some c) l) (hd : d ∈ l) (h' : Siblings files (some d) l') :
    l'.getLast h'.ne_nil = l.getLast h.ne_nil := by
  have hl : l.map some ≠ [] := by simpa using h.ne_nil
  have hl' : l'.map some ≠ [] := by simpa using h'.ne_nil
  have hlast := Chain.getLast_of_mem h (List.mem_map_of_mem hd) h' hl hl'
  rw [List.getLast_map, List.getLast_map] at hlast
  exact Option.some.inj hlast

/-! ### Later siblings -/

/-- The entries after an entry that were put under the same slot, up to where a directory was
loaded into that slot. -/
def laterSiblings (es : List Entry) (i : ℕ) : List ℕ :=
  match parentAt es i with
  | none => []
  | some p => (List.range es.length).filter fun k =>
      i < k ∧ parentAt es k = some p ∧ (DirectoryAt es p.val → i < p.val → k < p.val)

section Concat

variable {es : List Entry} {e : Entry} {i k : ℕ} {p : Slot}

lemma laterSiblings_of_parentAt (hpar : parentAt es i = some p) :
    laterSiblings es i = (List.range es.length).filter fun k =>
      i < k ∧ parentAt es k = some p ∧ (DirectoryAt es p.val → i < p.val → k < p.val) := by
  simp only [laterSiblings, hpar]

lemma laterSiblings_of_none (hpar : parentAt es i = none) : laterSiblings es i = [] := by
  simp only [laterSiblings, hpar]

lemma mem_laterSiblings (hpar : parentAt es i = some p) :
    k ∈ laterSiblings es i ↔ k < es.length ∧ i < k ∧ parentAt es k = some p ∧
      (DirectoryAt es p.val → i < p.val → k < p.val) := by
  rw [laterSiblings_of_parentAt hpar, List.mem_filter, List.mem_range, decide_eq_true_eq]

lemma lt_of_mem_laterSiblings (h : k ∈ laterSiblings es i) : k < es.length := by
  cases hpar : parentAt es i with
  | none =>
      rw [laterSiblings_of_none hpar] at h
      exact absurd h List.not_mem_nil
  | some p => exact ((mem_laterSiblings hpar).mp h).1

/-- A directory loaded now cuts off no sibling loaded before. -/
lemma directoryAt_concat_lt (hk : k < es.length) :
    (DirectoryAt (es ++ [e]) p.val → i < p.val → k < p.val) ↔
      (DirectoryAt es p.val → i < p.val → k < p.val) := by
  rcases lt_trichotomy p.val es.length with hlt | heq | hgt
  · rw [directoryAt_concat hlt]
  · exact ⟨fun _ h => absurd h (not_directoryAt heq.ge), fun _ _ _ => by omega⟩
  · exact ⟨fun _ _ _ => by omega, fun _ _ _ => by omega⟩

/-- One more entry is a later sibling of those it is put behind. -/
lemma laterSiblings_concat (hi : i < es.length) (hpar : parentAt es i = some p) :
    laterSiblings (es ++ [e]) i = laterSiblings es i ++
      if parentOf es e = some p ∧ (DirectoryAt (es ++ [e]) p.val → p.val ≤ i) then [es.length]
      else [] := by
  have hpar' : parentAt (es ++ [e]) i = some p := by rw [parentAt_concat hi, hpar]
  rw [laterSiblings_of_parentAt hpar, laterSiblings_of_parentAt hpar', List.length_append,
    List.length_singleton, List.range_succ, List.filter_append]
  congr 1
  · refine List.filter_congr fun k hk => decide_eq_decide.mpr ?_
    have hlt := List.mem_range.mp hk
    rw [parentAt_concat hlt, directoryAt_concat_lt hlt]
  · simp only [List.filter_singleton, Bool.cond_decide, parentAt_concat_self]
    refine if_congr ⟨?_, ?_⟩ rfl rfl
    · rintro ⟨-, hp, hdir⟩
      refine ⟨hp, fun hd => ?_⟩
      by_contra hlt
      have hout := hdir hd (not_le.mp hlt)
      exact not_directoryAt (by simpa using hout) hd
    · rintro ⟨hp, hdir⟩
      exact ⟨hi, hp, fun hd hlt => absurd (hdir hd) (by omega)⟩

/-- The last entry has none. -/
lemma laterSiblings_concat_self : laterSiblings (es ++ [e]) es.length = [] := by
  cases hpar : parentAt (es ++ [e]) es.length with
  | none => exact laterSiblings_of_none hpar
  | some p =>
      rw [List.eq_nil_iff_forall_not_mem]
      intro k hk
      obtain ⟨hlt, hgt, -⟩ := (mem_laterSiblings hpar).mp hk
      rw [List.length_append, List.length_singleton] at hlt
      omega

/-- The siblings an entry is put behind. -/
lemma mem_startChildren_iff (hc : ¬ Confused es e) (hp : parentOf es e = some p) :
    i ∈ Tables.startChildren es e p ↔ i < es.length ∧ parentAt es i = some p ∧
      (DirectoryAt (es ++ [e]) p.val → p.val ≤ i) := by
  obtain ⟨hino, hstart⟩ := Tables.not_holds_of_parentOf hc hp
  have hchildren : i ∈ childrenOf es p ↔ i < es.length ∧ parentAt es i = some p ∧
      (DirectoryAt es p.val → p.val ≤ i) := by
    rw [childrenOf, if_neg (not_not.mpr hino), List.mem_filter, List.mem_range, decide_eq_true_eq]
  rw [Tables.startChildren]
  rcases lt_trichotomy p.val es.length with hlt | heq | hgt
  · rw [if_neg fun hh => hlt.ne hh.1, hchildren, directoryAt_concat hlt]
  · have hself : DirectoryAt (es ++ [e]) p.val ↔ e.fileType = .directory := by
      rw [heq]
      exact directoryAt_concat_self
    rw [hself]
    by_cases hdir : e.fileType = .directory
    · rw [if_pos ⟨heq, .inl hdir⟩]
      constructor
      · intro h
        exact absurd h List.not_mem_nil
      · rintro ⟨hi, -, hle⟩
        have hle := hle hdir
        omega
    · rw [if_neg (by simp [hdir, hstart heq]), hchildren]
      simp [hdir, not_directoryAt heq.ge]
  · rw [if_neg fun hh => hgt.ne' hh.1, hchildren]
    have hnot : ¬ DirectoryAt (es ++ [e]) p.val := not_directoryAt (by simp; omega)
    simp [hnot, not_directoryAt hgt.le]

/-- The siblings an entry is put behind have it as a later sibling. -/
lemma laterSiblings_concat_of_mem (hc : ¬ Confused es e) (hp : parentOf es e = some p)
    (hi : i ∈ Tables.startChildren es e p) :
    laterSiblings (es ++ [e]) i = laterSiblings es i ++ [es.length] := by
  obtain ⟨hlt, hpar, hdir⟩ := (mem_startChildren_iff hc hp).mp hi
  rw [laterSiblings_concat hlt hpar, if_pos ⟨hp, hdir⟩]

/-- The others have the same ones as before. -/
lemma laterSiblings_concat_of_notMem (hc : ¬ Confused es e) (hi : i < es.length)
    (hnot : ∀ p, parentOf es e = some p → i ∉ Tables.startChildren es e p) :
    laterSiblings (es ++ [e]) i = laterSiblings es i := by
  cases hpar : parentAt es i with
  | none =>
      rw [laterSiblings_of_none hpar, laterSiblings_of_none (by rw [parentAt_concat hi, hpar])]
  | some p =>
      rw [laterSiblings_concat hi hpar, if_neg, List.append_nil]
      rintro ⟨hp, hdir⟩
      exact hnot p hp ((mem_startChildren_iff hc hp).mpr ⟨hi, hpar, hdir⟩)

/-- A list of children holds an entry with all its earlier siblings. -/
lemma mem_startChildren_of_later (hc : ¬ Confused es e) (hp : parentOf es e = some p)
    (hi : i < es.length) (hk : k ∈ Tables.startChildren es e p)
    (hlater : k ∈ laterSiblings es i) : i ∈ Tables.startChildren es e p := by
  obtain ⟨hlt, hpark, hdirk⟩ := (mem_startChildren_iff hc hp).mp hk
  cases hpar : parentAt es i with
  | none =>
      rw [laterSiblings_of_none hpar] at hlater
      exact absurd hlater List.not_mem_nil
  | some q =>
      obtain ⟨-, -, hpar', hout⟩ := (mem_laterSiblings hpar).mp hlater
      obtain rfl : p = q := Option.some.inj (hpark.symm.trans hpar')
      refine (mem_startChildren_iff hc hp).mpr ⟨hi, hpar, fun hdir => ?_⟩
      have hpk := hdirk hdir
      by_contra hip
      have hkp := hout ((directoryAt_concat (by omega)).mp hdir) (not_le.mp hip)
      omega

end Concat

/-! ### The invariant -/

/-- Following `next_file` from an entry's slot meets its later siblings. -/
structure Listed (es : List Entry) (r : Ramfs) : Prop where
  later : ∀ k < es.length,
    Siblings r.files (some (slot k)) ((k :: laterSiblings es k).map slot)
  unused : ∀ i : Slot, es.length ≤ i.val → (r.files i).nextFile = none

lemma listed_zero : Listed [] .zero where
  later k hk := absurd hk (Nat.not_lt_zero k)
  unused _ _ := rfl

/-- What a load does to the links between siblings. -/
inductive Linked (es : List Entry) (e : Entry) (r r' : Ramfs) : Prop
  | alone (hnone : ∀ p, parentOf es e = some p → Tables.startChildren es e p = [])
      (hsame : ∀ i, (r'.files i).nextFile = (r.files i).nextFile)
  | behind {p c : Slot} (hp : parentOf es e = some p)
      (hchain : Siblings r.files (some c) ((Tables.startChildren es e p).map slot))
      (hlast : some (slot es.length) =
        (r'.files (((Tables.startChildren es e p).map slot).getLast hchain.ne_nil)).nextFile)
      (hsame : ∀ i, i ≠ ((Tables.startChildren es e p).map slot).getLast hchain.ne_nil →
        (r'.files i).nextFile = (r.files i).nextFile)

section Load

variable {es : List Entry} {e : Entry} {r r' : Ramfs}

/-- Type and name stored, the links are as before. -/
lemma Listed.nextFile_setName (h : Listed es r) (hr : Tables es r) (hlen : es.length < 256)
    (i : Slot) : (((r.setType e).setName e).files i).nextFile = (r.files i).nextFile := by
  by_cases hi : i = slot es.length
  · rw [hi, hr.files_setName_self, h.unused _ (by rw [val_slot hlen])]
    rfl
  · rw [hr.files_setName_of_ne hi]

/-- Adding a child links it behind the last one, if there is one. -/
lemma Ramfs.Added.nextFile {p : Slot} (h : Ramfs.Added r p r') :
    ((r.files p).link = .null ∧ ∀ i, (r'.files i).nextFile = (r.files i).nextFile) ∨
      ∃ c m, (r.files p).link = .file c ∧ r.lastSibling 256 c = some m ∧
        (r'.files m).nextFile = some r.findex ∧
        ∀ i, i ≠ m → (r'.files i).nextFile = (r.files i).nextFile := by
  cases h with
  | first hlink =>
      refine .inl ⟨hlink, fun i => ?_⟩
      rcases eq_or_ne i p with rfl | hi
      · simp [setFile]
      · simp [setFile, hi]
  | @last c m hlink hlast =>
      refine .inr ⟨c, m, hlink, hlast, by simp [setFile], fun i hi => ?_⟩
      simp [setFile, hi]

/-- **A load** links the new file behind the last sibling, or nowhere. -/
lemma Listed.linked (h : Listed es r) (hr : Tables es r) (hlen : es.length < 256) (he : e.Read)
    (hes : ∀ e' ∈ es, e'.Read) (hload : r.load e = .ok r') : Linked es e r r' := by
  obtain ⟨r₁, hsave, rfl⟩ := Ramfs.load_ok hload
  have hstart := h.nextFile_setName (e := e) hr hlen
  have hdata : ∀ i, ((r₁.setData e).nextFileSlot.files i).nextFile = (r₁.files i).nextFile :=
    fun i => (Ramfs.setData_kept r₁ e i).2.2.2
  have hsearch := hr.searchFile_eq hlen he hes
  have hlists := hr.children_setName hlen he
  have hfindex : ((r.setType e).setName e).findex = slot es.length :=
    (Ramfs.findex_setName r e).trans hr.findex
  generalize (r.setType e).setName e = r₀ at *
  cases hsave with
  | noParent hno =>
      refine .alone (fun p hp => absurd hno (parentOf_eq_some.mp hp).1) fun i => ?_
      rw [hdata, hstart]
  | missing hpar hs =>
      rw [hsearch] at hs
      refine .alone (fun p hp => ?_) fun i => ?_
      · rw [(parentOf_eq_some.mp hp).2] at hs
        exact absurd hs (by simp)
      · rw [hdata, (Ramfs.setParent_files r₀ none i).2.2.1, hstart]
  | @found p _ hpar hs hadd =>
      rw [hsearch] at hs
      have hp : parentOf es e = some p := parentOf_eq_some.mpr ⟨hpar, hs⟩
      have hkept := Ramfs.setParent_files r₀ (some p)
      have hfindex₂ : (r₀.setFile r₀.findex { r₀.currentFile with parent := some p }).findex =
          slot es.length := hfindex
      generalize r₀.setFile r₀.findex { r₀.currentFile with parent := some p } = r₂ at *
      have hlist : Siblings r.files (r₂.files p).link.children
          ((Tables.startChildren es e p).map slot) := by
        rw [(hkept p).2.2.2]
        exact (hlists p).congr fun d _ => (hstart d).symm
      rcases hadd.nextFile with ⟨hlink, hsame⟩ | ⟨c, m, hlink, hm, hlast, hsame⟩
      · refine .alone (fun q hq => ?_) fun i => ?_
        · obtain rfl : p = q := Option.some.inj (hp.symm.trans hq)
          rw [hlink] at hlist
          exact List.map_eq_nil_iff.mp (List.map_eq_nil_iff.mp (Chain.null_iff.mp hlist))
        · rw [hdata, hsame, (hkept i).2.2.1, hstart]
      · rw [hlink] at hlist
        have hchain : Siblings r.files (some c) ((Tables.startChildren es e p).map slot) := hlist
        have hwalk : Siblings r₂.files (some c) ((Tables.startChildren es e p).map slot) :=
          hchain.congr fun d _ => (hkept d).2.2.1.trans (hstart d)
        obtain rfl : ((Tables.startChildren es e p).map slot).getLast hchain.ne_nil = m := by
          rw [lastSibling_of_siblings hwalk hwalk.length_le] at hm
          exact Option.some.inj hm
        refine .behind hp hchain ?_ fun i hi => ?_
        · rw [hdata, hlast, hfindex₂]
        · rw [hdata, hsame i hi, (hkept i).2.2.1, hstart]

/-- **The step**: one more entry loaded. -/
lemma Listed.concat (h : Listed es r) (hr : Tables es r) (hlen : es.length < 256) (he : e.Read)
    (hes : ∀ e' ∈ es, e'.Read) (hload : r.load e = .ok r') : Listed (es ++ [e]) r' := by
  have hc : ¬ Confused es e := fun hc => by
    rw [Ramfs.load, (hr.saveParent_eq hlen he hes).1 hc] at hload
    exact absurd hload (by simp)
  have hcount : (es ++ [e]).length = es.length + 1 := by simp
  have hfree := h.unused (slot es.length) (by rw [val_slot hlen])
  cases h.linked hr hlen he hes hload with
  | alone hnone hsame =>
      constructor
      case unused =>
        intro i hi
        rw [hsame, h.unused i (by omega)]
      case later =>
        intro k hk
        by_cases hlt : k < es.length
        · rw [laterSiblings_concat_of_notMem hc hlt fun p hp => by simp [hnone p hp]]
          exact (h.later k hlt).congr fun c _ => hsame c
        · obtain rfl : k = es.length := by omega
          rw [laterSiblings_concat_self]
          exact siblings_singleton ((hsame _).trans hfree)
  | @behind p c hp hchain hlast hsame =>
      -- the last sibling so far is the slot of an entry
      obtain ⟨m, hm, hslot⟩ := List.mem_map.mp (List.getLast_mem hchain.ne_nil)
      have hmlt := (Tables.mem_startChildren hm).1
      constructor
      case unused =>
        intro i hi
        rw [hsame i fun him => ?_, h.unused i (by omega)]
        rw [him, ← hslot, val_slot (by omega)] at hi
        omega
      case later =>
        intro k hk
        by_cases hlt : k < es.length
        · have hk' := h.later k hlt
          by_cases hmem : k ∈ Tables.startChildren es e p
          · rw [laterSiblings_concat_of_mem hc hp hmem, ← List.cons_append, List.map_append]
            have hend : ((k :: laterSiblings es k).map slot).getLast hk'.ne_nil =
                ((Tables.startChildren es e p).map slot).getLast hchain.ne_nil :=
              getLast_siblings hchain (List.mem_map_of_mem hmem) hk'
            refine hk'.concat hk'.ne_nil (by rw [hend, ← hlast]) ?_ fun d _ hd => ?_
            · rw [hsame _ fun heq => Tables.slot_ne hlen hmlt (hslot.trans heq.symm), hfree]
            · exact hsame d (hend ▸ hd)
          · rw [laterSiblings_concat_of_notMem hc hlt fun q hq => by
              obtain rfl : p = q := Option.some.inj (hp.symm.trans hq)
              exact hmem]
            refine hk'.congr fun d hd => hsame d fun hdm => hmem ?_
            obtain ⟨x, hx, rfl⟩ := List.mem_map.mp hd
            have hxm := slot_eq_iff.mp (hdm.trans hslot.symm)
            rcases List.mem_cons.mp hx with rfl | hx
            · obtain rfl : x = m := by omega
              exact hm
            · have hxlt := lt_of_mem_laterSiblings hx
              obtain rfl : x = m := by omega
              exact mem_startChildren_of_later hc hp hlt hm hx
        · obtain rfl : k = es.length := by omega
          rw [laterSiblings_concat_self]
          refine siblings_singleton ?_
          rw [hsame _ fun heq => Tables.slot_ne hlen hmlt (hslot.trans heq.symm), hfree]

end Load

/-- **The run**: the links between siblings in the tables of at most 256 entries. -/
lemma listed_loadAll {es : List Entry} {r : Ramfs} (hlen : es.length ≤ 256)
    (hes : ∀ e ∈ es, e.Read) (h : loadAll .zero es = .ok r) : Listed es r := by
  induction es using List.reverseRecOn generalizing r with
  | nil =>
      rw [← Ramfs.Loaded.ok.inj h]
      exact listed_zero
  | append_singleton es e ih =>
      rw [List.length_append, List.length_singleton] at hlen
      have hpre : ∀ e' ∈ es, e'.Read := fun e' he' => hes e' (List.mem_append_left _ he')
      obtain ⟨r₁, hr₁, hload⟩ := loadAll_concat h
      have hr := tables_of_loadAll (by omega) hpre hr₁
      exact (ih (by omega) hpre hr₁).concat hr (by omega) (hes e (by simp)) hpre hload

/-! ### What is listed -/

section Listing

variable {s name : List (BitVec 8)} {b : ℕ} {r : Ramfs}

/-- The walk from any slot lists its entry, if it has one, and the later siblings. -/
lemma Listed.siblings {es : List Entry} (h : Listed es r) (i : Slot) :
    Siblings r.files (some i) ((i.val :: laterSiblings es i.val).map slot) := by
  by_cases hi : i.val < es.length
  · have hlater := h.later i.val hi
    rwa [slot_val] at hlater
  · have hnone : parentAt es i.val = none := by
      rw [parentAt, List.getElem?_eq_none (not_lt.mp hi)]
      rfl
    rw [laterSiblings_of_none hnone, List.map_singleton, slot_val]
    exact siblings_singleton (h.unused i (not_lt.mp hi))

/-- The file found is listed with its later siblings. -/
lemma ls_found (hdone : initRamfs s = .done b r) (hlen : (entries s).length ≤ 256)
    (hname : 0 ∈ name) {i : Slot} (hi : landing (entries s) name = some i) (delay : ℕ) (u : Uart) :
    ∃ busy, r.ls delay name u = some
      (⟨u.rx, u.sent ++ (i.val :: laterSiblings (entries s) i.val).flatMap fun k =>
        cstr (heldName (entries s) (slot k)).bytes, busy⟩, 0) := by
  have hload := (initRamfs_eq_done.mp hdone).2
  have hread : ∀ e ∈ entries s, e.Read := fun _ he => entries_read he
  have hocc := occupied_loadAll hload
  have hchain := (listed_loadAll hlen hread hload).siblings i
  obtain ⟨busy, hloop⟩ := lsLoop_of_siblings hchain hchain.length_le delay u
  have hnames : ((i.val :: laterSiblings (entries s) i.val).map slot).flatMap r.nameOf =
      (i.val :: laterSiblings (entries s) i.val).flatMap fun k =>
        cstr (heldName (entries s) (slot k)).bytes := by
    rw [List.flatMap_map]
    simp only [Ramfs.nameOf, hocc.name]
  rw [Ramfs.ls, hocc.searchFileBytes_eq hread hname, hi]
  simp only [hloop, Option.map_some, hnames]
  exact ⟨busy, rfl⟩

/-- The members after a member in the same directory. -/
def restOfDirectory (ms : List Member) (j : ℕ) (m : Member) : List ℕ :=
  if m.path.dropLast = [] then []
  else (underneath ms m.path.dropLast).filter (j < ·)

section Archive

variable {ms : List Member} {t m : Member} {j k : ℕ}

/-- Behind a slot loaded before them, the later siblings are those in the list of its children. -/
lemma laterSiblings_eq_filter {es : List Entry} {p : Slot} (hpar : parentAt es j = some p)
    (hino : inodeAt es p.val = none) (hp : p.val ≤ j) :
    laterSiblings es j = (childrenOf es p).filter (j < ·) := by
  rw [laterSiblings_of_parentAt hpar, childrenOf, if_neg (not_not.mpr hino), List.filter_filter]
  refine List.filter_congr fun k _ => ?_
  rw [← Bool.decide_and]
  refine decide_eq_decide.mpr ⟨?_, ?_⟩
  · rintro ⟨hjk, hk, -⟩
    exact ⟨hjk, hk, fun _ => by omega⟩
  · rintro ⟨hjk, hk, -⟩
    exact ⟨hjk, hk, fun _ hlt => by omega⟩

/-- Where lookups find the directories, later siblings are in the same one. -/
lemma laterSiblings_entries (hms : ∀ m ∈ ms, Readable m) (ht : IsTrailer t)
    (h : archive ms t <+: s) (hlen : ms.length ≤ 256) (hf : FindOrder ms)
    (hfinds : FindsDirectories ms) (hj : ms[j]? = some m) :
    laterSiblings (entries s) j = restOfDirectory ms j m := by
  rw [restOfDirectory]
  by_cases hnil : m.path.dropLast = []
  · rw [if_pos hnil, laterSiblings_of_none]
    exact parentAt_eq_none hms ht h hj (by rw [Member.parentComponent, hnil]; rfl)
  · have hpos := List.length_pos_iff.mpr hnil
    rw [List.length_dropLast] at hpos
    obtain ⟨i, hij, d, hi, hdir, hpath⟩ := hf.directory j m hj (by omega)
    have hilt := (List.getElem?_eq_some_iff.mp hi).1
    have hval : (slot i).val = i := val_slot (by omega)
    have hpar := (parentAt_eq_iff hms ht h hlen hi hj hij hpath).mpr
      (hfinds i j d m hi hj hdir hpath)
    obtain ⟨hino, hlist⟩ := childrenOf_eq_underneath hms ht h hlen hf hfinds hi hdir
    rw [if_neg hnil, laterSiblings_eq_filter hpar (by rw [hval, hino]) (by omega), hlist, hpath]

/-- The name in a member's slot. -/
lemma cstr_heldName (hms : ∀ m ∈ ms, Readable m) (ht : IsTrailer t) (h : archive ms t <+: s)
    (hlen : ms.length ≤ 256) (hk : ms[k]? = some m) :
    cstr (heldName (entries s) (slot k)).bytes = m.base := by
  have hklt := (List.getElem?_eq_some_iff.mp hk).1
  have hm := hms m (List.mem_of_getElem? hk)
  have hbase := base_mem hm.wellFormed
  have hget := getElem?_entries hms ht h k
  rw [hk, Option.map_some] at hget
  have hname : heldName (entries s) (slot k) = padName m.base := by
    rw [heldName, occupant_of_length_le (by rw [length_entries hms ht h]; omega),
      val_slot (by omega), hget]
    rfl
  rw [hname, cstr_padName (hm.fits _ hbase) (hm.wellFormed.component _ hbase).1]

/-- The search for a member's last component, where none before it has a prefix of that. -/
lemma landing_base (hms : ∀ m ∈ ms, Readable m) (ht : IsTrailer t) (h : archive ms t <+: s)
    (hlen : ms.length ≤ 256) (hj : ms[j]? = some m) (hbase : cstr name = m.base)
    (hfirst : ∀ i m', i < j → ms[i]? = some m' → ¬ m'.base <+: m.base) :
    landing (entries s) name = some (slot j) := by
  have hjlt := (List.getElem?_eq_some_iff.mp hj).1
  rw [landing, find?_slots_eq_some]
  simp only [decide_eq_true_eq, hbase]
  constructor
  · rw [cstr_heldName hms ht h hlen hj]
  · intro i hi hpre
    rw [Fin.lt_def, val_slot (by omega)] at hi
    have hmi : ms[i.val]? = some ms[i.val] := List.getElem?_eq_getElem (by omega)
    rw [← slot_val i, cstr_heldName hms ht h hlen hmi] at hpre
    exact hfirst i.val _ hi hmi hpre

/-- Such an archive is loaded. -/
lemma initRamfs_findsDirectories (hms : ∀ m ∈ ms, Readable m) (ht : IsTrailer t)
    (h : archive ms t <+: s) (hlen : ms.length ≤ 256) (hf : FindOrder ms)
    (hfinds : FindsDirectories ms) :
    ∃ r, initRamfs s = .done ((ms.flatMap Member.encode).length + 110) r := by
  have hcount := length_entries hms ht h
  have hresolve : LookupsResolve s := by
    refine lookupsResolve_of_lookup (hcount.trans_le hlen) fun k e hget hpar => ?_
    rw [getElem?_entries hms ht h, Option.map_eq_some_iff] at hget
    obtain ⟨m, hk, rfl⟩ := hget
    obtain ⟨-, hnul⟩ := parentComponent_clean (hms m (List.mem_of_getElem? hk))
    have hne : m.path.dropLast ≠ [] := by
      intro hnil
      refine hpar ((padName_zero hnul).mpr ?_)
      rw [Member.parentComponent, hnil]
      rfl
    have hpos := List.length_pos_iff.mpr hne
    rw [List.length_dropLast] at hpos
    obtain ⟨j, hjk, d, hj, hdir, hpath⟩ := hf.directory k m hk (by omega)
    have hjlt := (List.getElem?_eq_some_iff.mp hj).1
    have hfound := (parentAt_eq_iff hms ht h hlen hj hk hjk hpath).mpr
      (hfinds j k d m hj hk hdir hpath)
    rw [parentAt, getElem?_entries hms ht h, hk, Option.map_some, Option.bind_some] at hfound
    refine ⟨slot j, (parentOf_eq_some.mp hfound).2, ?_⟩
    have hentry : (entries s)[j]? = some (memberEntry d (offset ms j)) := by
      rw [getElem?_entries hms ht h, hj, Option.map_some]
    have hbefore : ((entries s).take k ++ [memberEntry m (offset ms k)])[j]? =
        some (memberEntry d (offset ms j)) :=
      getElem?_concat.mpr (.inl (by rw [List.getElem?_take_of_lt hjk, hentry]))
    rw [DirectoryAt, val_slot (by omega), hbefore, Option.map_some]
    exact congrArg some hdir
  obtain ⟨r, hr, -⟩ := loadAll_of_lookupsResolve (hcount.trans_le hlen) hresolve
  exact ⟨r, (initRamfs_archive hms ht h).mpr hr⟩

/-- **A listing of an archive** in find order whose lookups find the directories: `init_ramfs`
returns 0, and for the last component of a member that no earlier one shadows `ls` sends it and the
last components of the members after it in the same directory. -/
theorem ls_archive (hms : ∀ m ∈ ms, Readable m) (ht : IsTrailer t) (h : archive ms t <+: s)
    (hlen : ms.length ≤ 256) (hf : FindOrder ms) (hfinds : FindsDirectories ms)
    (hj : ms[j]? = some m) (hname : 0 ∈ name) (hbase : cstr name = m.base)
    (hfirst : ∀ i m', i < j → ms[i]? = some m' → ¬ m'.base <+: m.base) (delay : ℕ) (u : Uart) :
    ∃ b r, initRamfs s = .done b r ∧ ∃ busy,
      r.ls delay name u = some (⟨u.rx, u.sent ++ m.base ++
        (restOfDirectory ms j m).flatMap fun k => (ms[k]?.map Member.base).getD [], busy⟩, 0) := by
  obtain ⟨r, hdone⟩ := initRamfs_findsDirectories hms ht h hlen hf hfinds
  have hjlt := (List.getElem?_eq_some_iff.mp hj).1
  have hcount := length_entries hms ht h
  have hfound := landing_base hms ht h hlen hj hbase hfirst
  obtain ⟨busy, hls⟩ := ls_found hdone (hcount.trans_le hlen) hname hfound delay u
  have hrest : ((restOfDirectory ms j m).flatMap fun k =>
      cstr (heldName (entries s) (slot k)).bytes) =
        (restOfDirectory ms j m).flatMap fun k => (ms[k]?.map Member.base).getD [] := by
    rw [← laterSiblings_entries hms ht h hlen hf hfinds hj, List.flatMap_def, List.flatMap_def]
    refine congrArg List.flatten (List.map_congr_left fun k hk => ?_)
    have hklt := lt_of_mem_laterSiblings hk
    have hmk : ms[k]? = some ms[k] := List.getElem?_eq_getElem (by omega)
    rw [cstr_heldName hms ht h hlen hmk, hmk]
    rfl
  rw [val_slot (by omega), List.flatMap_cons, cstr_heldName hms ht h hlen hj,
    laterSiblings_entries hms ht h hlen hf hfinds hj, hrest, ← List.append_assoc] at hls
  exact ⟨_, r, hdone, busy, hls⟩

/-- A directory `a` with files `a/b` and `a/c` of one byte. -/
def twoFiles : List Member :=
  [plainMember (digits 8 1) (digits 8 0x41ED) [[0x61]] [],
    plainMember (digits 8 2) (digits 8 0x81A4) [[0x61], [0x62]] [0x2A],
    plainMember (digits 8 3) (digits 8 0x81A4) [[0x61], [0x63]] [0x2B]]

lemma twoFiles_readable : ∀ m ∈ twoFiles, Readable m := by
  intro m hm
  simp only [twoFiles, List.mem_cons, List.not_mem_nil, or_false] at hm
  rcases hm with rfl | rfl | rfl
  all_goals exact readable_plainMember (length_digits 8 _) (length_digits 8 _) (by decide)

lemma twoFiles_findOrder : FindOrder twoFiles where
  directory k m hk hlong := by
    match k with
    | 0 =>
        obtain rfl := Option.some.inj hk
        exact absurd hlong (by decide)
    | 1 =>
        obtain rfl := Option.some.inj hk
        exact ⟨0, by norm_num, _, rfl, by decide, rfl⟩
    | 2 =>
        obtain rfl := Option.some.inj hk
        exact ⟨0, by norm_num, _, rfl, by decide, rfl⟩
    | k + 3 => exact absurd hk (by simp [twoFiles])
  distinct j k m m' hj hk hpath := by
    have hnodup : (twoFiles.map Member.path).Nodup := by decide
    have hjlt := (List.getElem?_eq_some_iff.mp hj).1
    refine (List.getElem?_inj (by rwa [List.length_map]) hnodup).mp ?_
    rw [List.getElem?_map, List.getElem?_map, hj, hk, Option.map_some, Option.map_some, hpath]

/-- The directory is the first entry, so nothing is before it. -/
lemma twoFiles_findsDirectories : FindsDirectories twoFiles := by
  intro j k d m hj hk hdir hpath
  have hjlt := (List.getElem?_eq_some_iff.mp hj).1
  match j with
  | 0 =>
      obtain rfl := Option.some.inj hj
      refine ⟨?_, fun i m' hi => absurd hi (Nat.not_lt_zero i)⟩
      rw [← base_eq_parentComponent hpath]
      decide
  | 1 =>
      obtain rfl := Option.some.inj hj
      exact absurd hdir (by decide)
  | 2 =>
      obtain rfl := Option.some.inj hj
      exact absurd hdir (by decide)
  | j + 3 => exact absurd hj (by simp [twoFiles])

/-- `ls` of `b` there sends `b` and `c`. -/
theorem ls_archive_twoFiles : ∃ b r, initRamfs (archive twoFiles trailer) = .done b r ∧
    ∃ busy, r.ls 3 [0x62, 0] ⟨[], [], 0⟩ = some (⟨[], [] ++ [0x62] ++ [0x63], busy⟩, 0) := by
  refine ls_archive twoFiles_readable isTrailer_trailer List.prefix_rfl (by decide)
    twoFiles_findOrder twoFiles_findsDirectories (j := 1) rfl (by decide) (by decide)
    (fun i m' hi hm' => ?_) 3 ⟨[], [], 0⟩
  obtain rfl : i = 0 := by omega
  obtain rfl := Option.some.inj hm'
  decide

/-! ### Reading -/

/-- **A read from an archive** whose lookups find directories, with a file for every member and an
inode for every one with data: for the last component of a member with data that no earlier one
shadows, `read` answers whether the offset is within the data or right behind it. -/
theorem read_archive (hms : ∀ m ∈ ms, Readable m) (ht : IsTrailer t) (h : archive ms t <+: s)
    (hlen : ms.length ≤ 256) (hdata : ms.countP (CarriesData ·) ≤ 128) (hlook : LookupsResolve s)
    (hj : ms[j]? = some m) (hm : CarriesData m) (hname : 0 ∈ name) (hbase : cstr name = m.base)
    (hfirst : ∀ i m', i < j → ms[i]? = some m' → ¬ m'.base <+: m.base) (off : BitVec 32) :
    ∃ b r, initRamfs s = .done b r ∧
      r.read name off = some (if off.toNat ≤ m.data.length then 0 else -1) := by
  have hcount := length_entries hms ht h
  obtain ⟨r, hload, hr⟩ := loadAll_of_lookupsResolve (hcount.trans_le hlen) hlook
  obtain ⟨-, -, hinode⟩ := hr.member hms ht h hlen hdata hj
  obtain ⟨i, hlink, -, -, hsize⟩ := hinode hm
  have hsearch := (occupied_loadAll hload).searchFileBytes_eq (fun _ he => entries_read he) hname
  refine ⟨_, r, (initRamfs_archive hms ht h).mpr hload, ?_⟩
  rw [Ramfs.read, hsearch, landing_base hms ht h hlen hj hbase hfirst]
  simp only [hlink, BitVec.lt_def, hsize]
  congr 1
  by_cases hle : off.toNat ≤ m.data.length
  · rw [if_pos hle, if_neg (not_lt.mpr hle)]
  · rw [if_neg hle, if_pos (not_le.mp hle)]

/-- A read from `a/b` behind its one byte. -/
theorem read_archive_oneFile : ∃ b r, initRamfs (archive oneFile trailer) = .done b r ∧
    r.read [0x62, 0] 1 = some 0 :=
  read_archive oneFile_readable isTrailer_trailer List.prefix_rfl (by decide) (by decide)
    oneFile_lookupsResolve (j := 1) rfl (by decide) (by decide) (by decide)
    (fun i m' hi hm' => by
      obtain rfl : i = 0 := by omega
      obtain rfl := Option.some.inj hm'
      decide) 1

end Archive

end Listing

end SkinnyArm
