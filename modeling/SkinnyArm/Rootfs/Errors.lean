import SkinnyArm.Rootfs.Contents

/-!
Malformed records.

* **The record.** `RecordWellFormed` looks at the bytes of a record and at the entries before it:
  the two size fields are numbers, the name ends within its size, its last component fits, and the
  component before it names an earlier entry.
* **What is stored.** A last component that fits is what ends up in `file_name`
  (`RecordWellFormed.name_eq`).
* **The claim on errors.** `ChecksRecords` says that records are well formed when `init_ramfs`
  returns 0, and that it returns -1 when one is not; `checksRecords_iff` says when this is so:
  nothing is checked, so it takes another reason to stop.  A parent that is a file with data is not
  noticed either, and its inode read as a file, so that no name is sure any more.
-/

namespace SkinnyArm

open Newc

/-! ### Records -/

/-- The path of a record: the characters before the NUL, within the size the record states. -/
def recordPath (s : List (BitVec 8)) (a : ℕ) : List (List (BitVec 8)) :=
  components (cstr (bytesAt s (a + 110) ((value (bytesAt s (a + 94) 8)).getD 0)))

/-- The last component of a record's path. -/
def recordBase (s : List (BitVec 8)) (a : ℕ) : List (BitVec 8) :=
  (recordPath s a).getLast (components_ne_nil _)

/-- A record as it should be, behind the given entries. -/
structure RecordWellFormed (s : List (BitVec 8)) (earlier : List Entry) (a : ℕ) : Prop where
  filesize : ∃ n, value (bytesAt s (a + 54) 8) = some n
  namesize : ∃ n, value (bytesAt s (a + 94) 8) = some n ∧ 0 ∈ bytesAt s (a + 110) n
  fits : (recordBase s a).length ≤ 15
  parent : ∀ c, (recordPath s a).dropLast.getLast? = some c → c ≠ [] →
    ∃ e ∈ earlier, cstr e.name.bytes = c

section Records

variable {s : List (BitVec 8)} {earlier : List Entry} {a n : ℕ} {m : Member}

/-- A name that ends within its size stands in the stream up to its NUL. -/
lemma at_cstr (h : 0 ∈ bytesAt s a n) :
    At s a (cstr (bytesAt s a n)) ∧ byteAt s (a + (cstr (bytesAt s a n)).length) = 0 := by
  have hget : ∀ i < n, (bytesAt s a n)[i]? = some (byteAt s (a + i)) := by
    intro i hi
    simp [bytesAt, hi]
  have hlen : (bytesAt s a n).length = n := by simp [bytesAt]
  obtain ⟨rest, hrest⟩ := eq_cstr_append h
  have hnul := zero_notMem_cstr (bytesAt s a n)
  generalize cstr (bytesAt s a n) = c at hrest hnul ⊢
  have hc : c.length < n := by
    rw [hrest, List.length_append, List.length_cons] at hlen
    omega
  have hpre : bytesAt s a c.length = c := by
    refine List.ext_getElem? fun i => ?_
    by_cases hi : i < c.length
    · have hbyte := hget i (by omega)
      rw [hrest, List.getElem?_append_left hi] at hbyte
      rw [hbyte]
      simp [bytesAt, hi]
    · rw [List.getElem?_eq_none (by simp [bytesAt]; omega), List.getElem?_eq_none (by omega)]
  refine ⟨at_of_bytesAt hpre hnul, ?_⟩
  have hbyte := hget c.length hc
  rw [hrest, List.getElem?_append_right le_rfl] at hbyte
  simpa using hbyte.symm

/-- **What is stored**: the name read of a well-formed record is its last component. -/
lemma RecordWellFormed.name_eq (h : RecordWellFormed s earlier a) :
    (readEntry s a).name = padName (recordBase s a) := by
  obtain ⟨n, hn, hnul⟩ := h.namesize
  obtain ⟨hat, hend⟩ := at_cstr hnul
  have hpath : recordPath s a = components (cstr (bytesAt s (a + 110) n)) := by
    rw [recordPath, hn]
    rfl
  have hjoin : [slash].intercalate (recordPath s a) = cstr (bytesAt s (a + 110) n) := by
    rw [hpath]
    exact intercalate_components _
  rw [← hjoin] at hat hend
  have hclean : ∀ c ∈ recordPath s a, CleanComponent c := fun c hc =>
    ⟨fun h0 => zero_notMem_cstr _ ((mem_components hc).2 0 h0), (mem_components hc).1⟩
  exact (nameLoop_path (padName []) (components_ne_nil _) hclean hat hend).1 h.fits

/-- The path of a member's record is the member's. -/
lemma recordPath_member (hm : m.WellFormed) (h : At s a m.encode) : recordPath s a = m.path := by
  obtain ⟨-, -, -, -, -, hsize, hname⟩ := at_member hm h
  have hfield : m.namesize.length = 8 := hm.field _ (by simp [Member.fields])
  have hbytes : bytesAt s (a + 94) 8 = m.namesize := by
    have hb := hsize.bytesAt
    rwa [hfield] at hb
  have hnamebytes : bytesAt s (a + 110) (m.name.length + 1) = m.name ++ [0] := by
    have hb := hname.bytesAt
    rwa [List.length_append, List.length_singleton] at hb
  rw [recordPath, hbytes, hm.namesize, Option.getD_some, hnamebytes,
    cstr_append_zero hm.zero_notMem_name]
  exact components_intercalate hm.path fun c hc => (hm.component c hc).2

/-! ### What is checked -/

/-- Every record is well formed, behind the entries before it. -/
def RecordsWellFormed (s : List (BitVec 8)) : Prop :=
  ∀ k a, (starts s)[k]? = some a → RecordWellFormed s ((entries s).take k) a

/-- When `init_ramfs` returns 0 all records were well formed and their last components stored, and
it returns -1 when one is not well formed; it never reads an inode as a file. -/
structure ChecksRecords (s : List (BitVec 8)) : Prop where
  tame : initRamfs s ≠ .wild
  accepted : ∀ b r, initRamfs s = .done b r → ∀ k a, (starts s)[k]? = some a →
    RecordWellFormed s ((entries s).take k) a ∧
      ∃ r', loadAll .zero ((entries s).take (k + 1)) = .ok r' ∧
        (r'.files (slot k)).fileName = padName (recordBase s a)
  refused : ¬ RecordsWellFormed s → ∃ r, initRamfs s = .failed r

/-- **Errors**: a stream is treated as it should be exactly if no search for a parent finds an
inode, and either its records are well formed, or they end with something else than the trailer
after all of them were loaded. -/
theorem checksRecords_iff (s : List (BitVec 8)) :
    ChecksRecords s ↔
      ReadsNoInode (entries s) ∧
        (RecordsWellFormed s ∨ (∀ a, ending s ≠ .trailer a) ∧ Loadable (entries s)) := by
  have hfailed : (∃ r, initRamfs s = .failed r) ↔
      (∀ a, ending s ≠ .trailer a) ∧ Loadable (entries s) := by
    rw [initRamfs_eq_failed, loadAll_ok_iff]
  have htame : initRamfs s ≠ .wild ↔ ReadsNoInode (entries s) := by
    rw [Ne, initRamfs_eq_wild, ← loadAll_ne_wild_iff]
  constructor
  · intro h
    refine ⟨htame.mp h.tame, ?_⟩
    by_cases hrecords : RecordsWellFormed s
    · exact .inl hrecords
    · exact .inr (hfailed.mp (h.refused hrecords))
  · rintro ⟨hreads, hor⟩
    constructor
    case tame => exact htame.mpr hreads
    case refused => exact fun hnot => hfailed.mpr (hor.resolve_left hnot)
    case accepted =>
      intro b r hdone k a hk
      obtain ⟨⟨c, hc, -⟩, hload⟩ := initRamfs_eq_done.mp hdone
      have hrecord := hor.resolve_right (fun hh => hh.1 c hc) k a hk
      refine ⟨hrecord, ?_⟩
      obtain ⟨r', hr'⟩ := loadAll_take hload (k + 1)
      refine ⟨r', hr', ?_⟩
      have hget : (entries s)[k]? = some (readEntry s a) := by
        rw [entries, List.getElem?_map, hk]
        rfl
      have hlt := (List.getElem?_eq_some_iff.mp hget).1
      rw [take_succ_of_some hget] at hr'
      obtain ⟨r₁, hr₁, hstep⟩ := loadAll_concat hr'
      have hcur : r₁.findex = slot k := by
        rw [findex_loadAll hr₁, List.length_take, min_eq_left hlt.le]
      have hname := (Ramfs.name_load hstep).2
      rw [hcur] at hname
      rw [hname, hrecord.name_eq]

end Records

/-- A file `q/x` of one byte without a directory `q`. -/
def orphan : List Member :=
  [plainMember (digits 8 1) (digits 8 0x81A4) [[0x71], [0x78]] [0x2A]]

lemma orphan_readable : ∀ m ∈ orphan, Readable m := by
  intro m hm
  obtain rfl := List.mem_singleton.mp hm
  exact readable_plainMember (length_digits 8 _) (length_digits 8 _) (by decide)

/-- `init_ramfs` returns 0 on a file whose parent is not in the archive. -/
theorem checksRecords_fails :
    (∃ b r, initRamfs (archive orphan trailer) = .done b r) ∧
      ¬ ChecksRecords (archive orphan trailer) := by
  have hprefix := List.prefix_rfl (l := archive orphan trailer)
  have hentries := entries_archive orphan_readable isTrailer_trailer hprefix
  have hstarts := congrArg Prod.fst (scan_archive orphan_readable isTrailer_trailer hprefix)
  have hun : Unconfused (entries (archive orphan trailer)) := by
    rw [hentries]
    rintro k e hk ⟨-, p, -, hholds⟩
    match k with
    | 0 =>
        obtain rfl := Option.some.inj hk
        rcases hholds with ⟨e', hget, -⟩ | ⟨-, hino⟩
        · exact absurd hget (by simp)
        · exact hino (if_neg fun h => absurd h.2 (by decide))
    | k + 1 => exact absurd hk (by simp [orphan])
  obtain ⟨r, hr, -⟩ := (loadAll_cases (by rw [hentries]; simp [orphan])
    fun e he => entries_read he).1 hun
  have hdone := (initRamfs_archive orphan_readable isTrailer_trailer hprefix).mpr hr
  refine ⟨⟨_, r, hdone⟩, fun h => ?_⟩
  have hrecord := (h.accepted _ r hdone 0 0 (by rw [starts, hstarts]; rfl)).1
  have hpath := recordPath_member (orphan_readable _ List.mem_cons_self).wellFormed
    (at_offset hprefix (k := 0) rfl)
  obtain ⟨e, he, -⟩ := hrecord.parent [0x71] (by
    rw [show (0 : ℕ) = offset orphan 0 from rfl, hpath]
    rfl) (by simp)
  exact absurd he List.not_mem_nil

end SkinnyArm
