import SkinnyArm.Rootfs.Fields
import SkinnyArm.Rootfs.Scan

/-!
What `init_ramfs` reads of a newc archive.

* **Members.** A member that the code understands and whose components fit (`Readable`) is read as
  `memberEntry`.
* **Archives.** The scan finds the members and the trailer exactly if every member is understood
  (`scan_archive_iff`): a size field with a lower-case digit takes the cursor short of the next
  member (`nextStart_member_iff`).
-/

namespace SkinnyArm

open ByteMemory Newc

/-! ### Members -/

/-- The type a mode field stands for, by its last four characters. -/
def identType (mode : List (BitVec 8)) : FileType :=
  if mode.drop 4 = fileIdent then .regular
  else if mode.drop 4 = dirIdent then .directory
  else .invalid

/-- The eight characters of a field as one word. -/
def fieldWord (f : List (BitVec 8)) : BitVec 64 := load64 (byteAt f) 0

/-- Where the data of a member starts. -/
def memberData (m : Member) (a : ℕ) : ℕ := a + (110 + (m.name.length + 1) + 3) / 4 * 4

/-- What `init_ramfs` reads of a member at a position. -/
def memberEntry (m : Member) (a : ℕ) : Entry where
  fileType := identType m.mode
  fileSize := m.data.length
  deviceNr := fieldWord m.devMinor
  inodeNr := fieldWord m.ino
  name := padName m.base
  parentName := padName m.parentComponent
  data := memberData m a

section Member

variable {s : List (BitVec 8)} {m : Member} {a : ℕ}

/-- A field of eight characters as a word, wherever it stands. -/
lemma load64_at {f : List (BitVec 8)} (h : At s a f) (hlen : f.length = 8) :
    load64 (byteAt s) a = fieldWord f := by
  have hbyte : ∀ i < 8, byteAt s (a + i) = byteAt f (0 + i) := by
    intro i hi
    have hself : At f 0 f := List.prefix_rfl
    rw [h.byteAt (by omega), hself.byteAt (by omega)]
  have h0 := hbyte 0 (by norm_num)
  have h1 := hbyte 1 (by norm_num)
  have h2 := hbyte 2 (by norm_num)
  have h3 := hbyte 3 (by norm_num)
  have h4 := hbyte 4 (by norm_num)
  have h5 := hbyte 5 (by norm_num)
  have h6 := hbyte 6 (by norm_num)
  have h7 := hbyte 7 (by norm_num)
  simp only [Nat.add_zero] at h0
  simp only [fieldWord, load64, h0, h1, h2, h3, h4, h5, h6, h7]

/-- The parts of a member lie where the code looks for them. -/
lemma at_member (hm : m.WellFormed) (h : At s a m.encode) :
    At s a magic ∧ At s (a + 6) m.ino ∧ At s (a + 14) m.mode ∧ At s (a + 54) m.filesize ∧
      At s (a + 70) m.devMinor ∧ At s (a + 94) m.namesize ∧ At s (a + 110) (m.name ++ [0]) := by
  have hf := hm.field
  simp only [Member.fields, List.mem_cons, List.not_mem_nil, or_false, forall_eq_or_imp,
    forall_eq] at hf
  obtain ⟨h1, h2, h3, h4, h5, h6, h7, h8, h9, h10, h11, h12, h13⟩ := hf
  simp only [Member.encode, Member.header, Member.fields, List.flatten_cons, List.flatten_nil,
    at_append, List.length_append, List.length_cons, List.length_nil, h1, h2, h3, h4, h5, h6, h7,
    h8, h9, h10, h11, h12, h13] at h
  obtain ⟨⟨⟨hmagic, hino, hmode, -, -, -, -, hfilesize, -, hdevMinor, -, -, hnamesize, -, -⟩,
    ⟨hname, hnul⟩, -⟩, -⟩ := h
  exact ⟨hmagic, hino, hmode, hfilesize, hdevMinor, hnamesize, at_append.mpr ⟨hname, hnul⟩⟩

lemma checkMagic_member (hm : m.WellFormed) (h : At s a m.encode) : checkMagic s a := by
  have hmagic := (at_member hm h).1.bytesAt
  exact decide_eq_true hmagic

lemma getFileType_member (hm : m.WellFormed) (h : At s a m.encode) :
    getFileType s (a + 14 + 4) = identType m.mode := by
  have hlen : m.mode.length = 8 := hm.field _ (by simp [Member.fields])
  have hmode := (at_member hm h).2.2.1
  rw [← List.take_append_drop 4 m.mode, at_append] at hmode
  have hlast := hmode.2.bytesAt
  simp only [List.length_take, List.length_drop, hlen] at hlast
  rw [getFileType, identType, show a + 14 + 4 = a + 14 + min 4 8 from rfl]
  simp only [hlast]

/-- The code takes a member for the end of the archive if its name begins like the trailer's. -/
lemma checkEndArchive_member (hm : m.WellFormed) (h : At s a m.encode) :
    checkEndArchive s (a + 110) ↔ endName <+: m.name := by
  have hname := (at_member hm h).2.2.2.2.2.2
  have hnul : 0 ∉ endName := by decide
  constructor
  · intro hend
    have hat : At s (a + 110) endName := at_of_bytesAt (of_decide_eq_true hend) hnul
    rcases List.prefix_or_prefix_of_prefix hat hname with hpre | hpre
    · rcases List.prefix_concat_iff.mp hpre with heq | hpre'
      · exact absurd (heq ▸ by simp) hnul
      · exact hpre'
    · exact absurd (hpre.subset (by simp)) hnul
  · intro hpre
    have hat : At s (a + 110) endName :=
      (hpre.trans (List.prefix_append m.name [0])).trans hname
    exact decide_eq_true hat.bytesAt

/-- A member the code steps over as it should: sizes in upper case, one of the two modes, and a
name that does not begin like the trailer's. -/
structure Understood (m : Member) : Prop where
  filesize : IsUpperField m.filesize
  namesize : IsUpperField m.namesize
  mode : identType m.mode ≠ .invalid
  name : ¬ endName <+: m.name

/-- A member the code reads as it should: its components fit as well. -/
structure Readable (m : Member) : Prop where
  wellFormed : m.WellFormed
  understood : Understood m
  fits : ∀ c ∈ m.path, c.length ≤ 15

instance (m : Member) : Decidable (Understood m) :=
  decidable_of_iff
    (IsUpperField m.filesize ∧ IsUpperField m.namesize ∧ identType m.mode ≠ .invalid ∧
      ¬ endName <+: m.name)
    ⟨fun ⟨hf, hn, ht, he⟩ => ⟨hf, hn, ht, he⟩, fun h => ⟨h.filesize, h.namesize, h.mode, h.name⟩⟩

instance (m : Member) : Decidable (Readable m) :=
  decidable_of_iff (m.WellFormed ∧ Understood m ∧ ∀ c ∈ m.path, c.length ≤ 15)
    ⟨fun ⟨hw, hu, hf⟩ => ⟨hw, hu, hf⟩, fun h => ⟨h.wellFormed, h.understood, h.fits⟩⟩

/-- A plain member is read as it should be if its mode is one of the two and its components fit. -/
lemma readable_plainMember {ino mode : List (BitVec 8)} {path : List (List (BitVec 8))}
    {data : List (BitVec 8)} (hino : ino.length = 8) (hmode : mode.length = 8)
    (h : identType mode ≠ .invalid ∧ data.length < 2 ^ 32 ∧
      ([slash].intercalate path).length + 1 < 2 ^ 32 ∧ ¬ endName <+: [slash].intercalate path ∧
      path ≠ [] ∧ ∀ c ∈ path, 0 ∉ c ∧ slash ∉ c ∧ c.length ≤ 15) :
    Readable (plainMember ino mode path data) := by
  obtain ⟨htype, hdata, hname, hend, hpath, hclean⟩ := h
  exact {
    wellFormed := wellFormed_plainMember hino hmode hpath
      (fun c hc => ⟨(hclean c hc).1, (hclean c hc).2.1⟩) hname hdata
    understood := ⟨isUpperField_digits 8 _, isUpperField_digits 8 _, htype, hend⟩
    fits := fun c hc => (hclean c hc).2.2 }

/-- A size with a digit that the code cannot read is not a small one. -/
lemma le_value_of_not_upper {f : List (BitVec 8)} {n : ℕ} (hn : value f = some n)
    (hf : ¬ IsUpperField f) : 10 ≤ n := by
  rw [IsUpperField, not_forall] at hf
  obtain ⟨c, hc⟩ := hf
  rw [Classical.not_imp] at hc
  exact le_value_of_isLower hn hc.1 hc.2

lemma dataStart_member (hm : m.WellFormed) (hsize : IsUpperField m.namesize)
    (h : At s a m.encode) : dataStart s a = memberData m a := by
  have hfield : m.namesize.length = 8 := hm.field _ (by simp [Member.fields])
  have hval := intFromString_of_upper (at_member hm h).2.2.2.2.2.1 hfield hsize hm.namesize
  rw [dataStart, hval, tdiv_four (by omega), memberData]
  omega

/-- A name whose size is not read is taken to be empty. -/
lemma dataStart_lt_member (hm : m.WellFormed) (hsize : ¬ IsUpperField m.namesize)
    (h : At s a m.encode) : dataStart s a < memberData m a := by
  have hten := le_value_of_not_upper hm.namesize hsize
  have hfield : m.namesize.length = 8 := hm.field _ (by simp [Member.fields])
  have hval := intFromString_of_not_upper (at_member hm h).2.2.2.2.2.1 hfield hsize
  rw [dataStart, hval, tdiv_four (by omega), memberData]
  omega

lemma nextStart_eq (hm : m.WellFormed) (hsize : IsUpperField m.filesize) (h : At s a m.encode) :
    nextStart s a = dataStart s a + (m.data.length + 3) / 4 * 4 := by
  have hfield : m.filesize.length = 8 := hm.field _ (by simp [Member.fields])
  have hval := intFromString_of_upper (at_member hm h).2.2.2.1 hfield hsize hm.filesize
  rw [nextStart, hval, tdiv_four (by omega)]
  omega

/-- Data whose size is not read is not stepped over. -/
lemma nextStart_lt (hm : m.WellFormed) (hsize : ¬ IsUpperField m.filesize)
    (h : At s a m.encode) : nextStart s a < dataStart s a + (m.data.length + 3) / 4 * 4 := by
  have hten := le_value_of_not_upper hm.filesize hsize
  have hfield : m.filesize.length = 8 := hm.field _ (by simp [Member.fields])
  have hval := intFromString_of_not_upper (at_member hm h).2.2.2.1 hfield hsize
  rw [nextStart, hval, tdiv_four (by omega)]
  omega

/-- What is read of the header of a member, and where its data is found. -/
lemma readEntry_header (hm : m.WellFormed) (hu : Understood m) (h : At s a m.encode) :
    (readEntry s a).fileType = identType m.mode ∧
      (readEntry s a).fileSize = (m.data.length : ℤ) ∧
      (readEntry s a).deviceNr = fieldWord m.devMinor ∧
      (readEntry s a).inodeNr = fieldWord m.ino ∧ (readEntry s a).data = memberData m a := by
  obtain ⟨-, hino, -, hfilesize, hdevMinor, -, -⟩ := at_member hm h
  have hf : ∀ f ∈ m.fields, f.length = 8 := hm.field
  exact ⟨getFileType_member hm h,
    intFromString_of_upper hfilesize (hf _ (by simp [Member.fields])) hu.filesize hm.filesize,
    load64_at hdevMinor (hf _ (by simp [Member.fields])),
    load64_at hino (hf _ (by simp [Member.fields])), dataStart_member hm hu.namesize h⟩

/-- **A member** the code understands is read as it should be. -/
lemma readEntry_member (hm : Readable m) (h : At s a m.encode) :
    readEntry s a = memberEntry m a := by
  have hwf := hm.wellFormed
  obtain ⟨-, -, -, -, -, -, hname⟩ := at_member hwf h
  obtain ⟨hatName, hatNul⟩ := at_append.mp hname
  have hparse := parseName_path hwf.path hwf.component hm.fits hatName (at_cons hatNul).1
  obtain ⟨htype, hsize, hdevice, hino, hdata⟩ := readEntry_header hwf hm.understood h
  simp only [readEntry] at htype hsize hdevice hino hdata
  simp only [readEntry, memberEntry, hparse, htype, hsize, hdevice, hino, hdata, Member.base,
    Member.parentComponent]

lemma encode_end (hm : m.WellFormed) :
    a + m.encode.length = memberData m a + (m.data.length + 3) / 4 * 4 := by
  rw [hm.length_encode, memberData]
  omega

/-- The record behind a member is the next one. -/
lemma nextStart_member (hm : m.WellFormed) (hfilesize : IsUpperField m.filesize)
    (hnamesize : IsUpperField m.namesize) (h : At s a m.encode) :
    nextStart s a = a + m.encode.length := by
  rw [nextStart_eq hm hfilesize h, dataStart_member hm hnamesize h, encode_end hm]

/-- A size field with a lower-case digit takes the cursor short of the next member. -/
lemma nextStart_member_iff (hm : m.WellFormed) (h : At s a m.encode) :
    nextStart s a = a + m.encode.length ↔ IsUpperField m.filesize ∧ IsUpperField m.namesize := by
  refine ⟨fun hnext => ?_, fun ⟨hfilesize, hnamesize⟩ => nextStart_member hm hfilesize hnamesize h⟩
  rw [encode_end hm] at hnext
  -- neither the name nor the data is ever taken to be longer than it is
  by_cases hnamesize : IsUpperField m.namesize
  · have hdata := dataStart_member hm hnamesize h
    by_cases hfilesize : IsUpperField m.filesize
    · exact ⟨hfilesize, hnamesize⟩
    · have hlt := nextStart_lt hm hfilesize h
      omega
  · have hdata := dataStart_lt_member hm hnamesize h
    by_cases hfilesize : IsUpperField m.filesize
    · have heq := nextStart_eq hm hfilesize h
      omega
    · have hlt := nextStart_lt hm hfilesize h
      omega

/-- The data of a member lies where its entry says. -/
lemma at_memberData (hm : m.WellFormed) (h : At s a m.encode) : At s (memberData m a) m.data := by
  have hsplit := at_append.mp h
  have hpad := length_padding (111 + m.name.length)
  have hlen : (m.header ++ (m.name ++ [0] ++ padding (111 + m.name.length))).length =
      (110 + (m.name.length + 1) + 3) / 4 * 4 := by
    rw [List.length_append, hm.length_header]
    simp only [List.length_append, List.length_singleton]
    omega
  rw [hlen] at hsplit
  exact (at_append.mp hsplit.2).1

end Member

/-! ### Archives -/

/-- The record that ends an archive. -/
structure IsTrailer (t : Member) : Prop where
  wellFormed : t.WellFormed
  path : t.path = [endName]

/-- A trailer with all numbers 0. -/
def trailer : Member := plainMember (digits 8 0) (digits 8 0) [endName] []

lemma isTrailer_trailer : IsTrailer trailer := ⟨by decide, rfl⟩

section Archive

variable {s : List (BitVec 8)} {ms : List Member} {t : Member} {a : ℕ}

lemma scan_trailer (ht : IsTrailer t) (h : At s a t.encode) : scan s a = ([], .trailer a) := by
  have hname : endName <+: t.name := by
    rw [Member.name, ht.path]
    simp
  rw [scan, if_pos (checkMagic_member ht.wellFormed h),
    if_pos ((checkEndArchive_member ht.wellFormed h).mpr hname)]

/-- A scan that ends in a trailer at once starts there, and any other starts with its first
record. -/
lemma scan_head {b : ℕ}
    (h : scan s a = (offsets b ms, .trailer (b + (ms.flatMap Member.encode).length))) :
    a = b := by
  rw [scan] at h
  split_ifs at h
  · cases ms with
    | nil => simpa using congrArg Prod.snd h
    | cons m ms => exact absurd (congrArg Prod.fst h) (by simp [offsets])
  · exact absurd (congrArg Prod.snd h) (by simp)
  · cases ms with
    | nil => exact absurd (congrArg Prod.fst h) (by simp [offsets])
    | cons m ms =>
        have hstarts := congrArg Prod.fst h
        exact (List.cons.inj hstarts).1
  · exact absurd (congrArg Prod.snd h) (by simp)

/-- **The scan of an archive** finds its members and its trailer exactly if the code understands
every member. -/
lemma scan_members (hms : ∀ m ∈ ms, m.WellFormed) (ht : IsTrailer t)
    (h : At s a (ms.flatMap Member.encode ++ t.encode)) :
    scan s a = (offsets a ms, .trailer (a + (ms.flatMap Member.encode).length)) ↔
      ∀ m ∈ ms, Understood m := by
  induction ms generalizing a with
  | nil =>
      have htrailer := scan_trailer ht (by simpa using h)
      simpa [offsets] using htrailer
  | cons m ms ih =>
      have hm := hms m List.mem_cons_self
      rw [List.flatMap_cons, List.append_assoc] at h
      obtain ⟨hat, hrest⟩ := at_append.mp h
      have hih := ih (fun m' hm' => hms m' (List.mem_cons_of_mem m hm')) hrest
      have htype : (readEntry s a).fileType = identType m.mode := getFileType_member hm hat
      have hend := checkEndArchive_member hm hat
      have hsum : a + ((m :: ms).flatMap Member.encode).length =
          a + m.encode.length + (ms.flatMap Member.encode).length := by
        rw [List.flatMap_cons, List.length_append, Nat.add_assoc]
      rw [scan, if_pos (checkMagic_member hm hat), hsum, offsets]
      constructor
      · intro hscan
        by_cases hname : endName <+: m.name
        · rw [if_pos (hend.mpr hname)] at hscan
          exact absurd (congrArg Prod.fst hscan) (by simp)
        rw [if_neg fun hh => hname (hend.mp hh)] at hscan
        by_cases hmode : identType m.mode = .invalid
        · rw [if_pos (htype.trans hmode)] at hscan
          exact absurd (congrArg Prod.fst hscan) (by simp)
        rw [if_neg fun hh => hmode (htype.symm.trans hh)] at hscan
        have hfst := congrArg Prod.fst hscan
        have hsnd := congrArg Prod.snd hscan
        have hnext : scan s (nextStart s a) = (offsets (a + m.encode.length) ms,
            .trailer (a + m.encode.length + (ms.flatMap Member.encode).length)) :=
          Prod.ext (List.cons.inj hfst).2 hsnd
        have hstep := scan_head hnext
        obtain ⟨hfilesize, hnamesize⟩ := (nextStart_member_iff hm hat).mp hstep
        rw [hstep] at hnext
        intro m' hm'
        rcases List.mem_cons.mp hm' with rfl | hmem
        · exact ⟨hfilesize, hnamesize, hmode, hname⟩
        · exact hih.mp hnext m' hmem
      · intro hall
        have hself := hall m List.mem_cons_self
        rw [if_neg fun hh => hself.name (hend.mp hh),
          if_neg fun hh => hself.mode (htype.symm.trans hh),
          nextStart_member hm hself.filesize hself.namesize hat,
          hih.mpr fun m' hm' => hall m' (List.mem_cons_of_mem m hm')]

/-- The code finds the members and the trailer of an archive exactly if it understands every
member. -/
lemma scan_archive_iff (hms : ∀ m ∈ ms, m.WellFormed) (ht : IsTrailer t)
    (h : archive ms t <+: s) :
    scan s 0 = (offsets 0 ms, .trailer (ms.flatMap Member.encode).length) ↔
      ∀ m ∈ ms, Understood m := by
  have hscan := scan_members hms ht (show At s 0 (ms.flatMap Member.encode ++ t.encode) from h)
  rwa [Nat.zero_add] at hscan

lemma scan_archive (hms : ∀ m ∈ ms, Readable m) (ht : IsTrailer t) (h : archive ms t <+: s) :
    scan s 0 = (offsets 0 ms, .trailer (ms.flatMap Member.encode).length) :=
  (scan_archive_iff (fun m hm => (hms m hm).wellFormed) ht h).mpr fun m hm =>
    (hms m hm).understood

/-- A member of an archive lies at its offset. -/
lemma at_offset {m : Member} {k : ℕ} (h : archive ms t <+: s) (hk : ms[k]? = some m) :
    At s (offset ms k) m.encode := by
  have hsplit := take_append_cons_drop hk
  have hat : At s 0 ((ms.take k).flatMap Member.encode ++
      (m.encode ++ ((ms.drop (k + 1)).flatMap Member.encode ++ t.encode))) := by
    have harch : archive ms t = (ms.take k).flatMap Member.encode ++
        (m.encode ++ ((ms.drop (k + 1)).flatMap Member.encode ++ t.encode)) := by
      rw [archive]
      conv_lhs => rw [← hsplit]
      simp [List.flatMap_append, List.flatMap_cons, List.append_assoc]
    rw [← harch]
    exact h
  have htail := (at_append.mp hat).2
  rw [Nat.zero_add] at htail
  exact (at_append.mp htail).1

/-- The stream starts with an archive whose members the code understands, and these are what it
reads. -/
structure ReadsArchive (s : List (BitVec 8)) (ms : List Member) (t : Member) : Prop where
  wellFormed : ∀ m ∈ ms, m.WellFormed
  understood : ∀ m ∈ ms, Understood m
  archived : archive ms t <+: s
  starts : starts s = offsets 0 ms

lemma readsArchive (hms : ∀ m ∈ ms, Readable m) (ht : IsTrailer t) (h : archive ms t <+: s) :
    ReadsArchive s ms t where
  wellFormed m hm := (hms m hm).wellFormed
  understood m hm := (hms m hm).understood
  archived := h
  starts := by rw [SkinnyArm.starts, scan_archive hms ht h]

namespace ReadsArchive

/-- There are as many entries as members. -/
lemma length_entries (ha : ReadsArchive s ms t) : (entries s).length = ms.length := by
  rw [entries, List.length_map, ha.starts, length_offsets]

lemma entries_eq_none {k : ℕ} (ha : ReadsArchive s ms t) (hk : ms[k]? = none) :
    (entries s)[k]? = none := by
  rw [List.getElem?_eq_none_iff, ha.length_entries]
  exact List.getElem?_eq_none_iff.mp hk

/-- What is read of the header of a member. -/
lemma exists_entry {m : Member} {k : ℕ} (ha : ReadsArchive s ms t) (hk : ms[k]? = some m) :
    ∃ e, (entries s)[k]? = some e ∧ e.fileType = identType m.mode ∧
      e.fileSize = (m.data.length : ℤ) ∧ e.deviceNr = fieldWord m.devMinor ∧
      e.inodeNr = fieldWord m.ino ∧ e.data = memberData m (offset ms k) := by
  have hmem := List.mem_of_getElem? hk
  refine ⟨_, ?_, readEntry_header (ha.wellFormed m hmem) (ha.understood m hmem)
    (at_offset ha.archived hk)⟩
  rw [entries, ha.starts, List.getElem?_map, getElem?_offsets, hk, Option.map_some,
    Option.map_some, Nat.zero_add]

end ReadsArchive

/-- The entries of an archive. -/
lemma getElem?_entries (hms : ∀ m ∈ ms, Readable m) (ht : IsTrailer t) (h : archive ms t <+: s)
    (k : ℕ) : (entries s)[k]? = ms[k]?.map fun m => memberEntry m (offset ms k) := by
  rw [entries, starts, scan_archive hms ht h, List.getElem?_map, getElem?_offsets]
  cases hk : ms[k]? with
  | none => rfl
  | some m =>
      have hat := at_offset h hk
      have hm := hms m (List.mem_of_getElem? hk)
      simp only [Option.map_some, Nat.zero_add, readEntry_member hm hat]

lemma entries_archive (hms : ∀ m ∈ ms, Readable m) (ht : IsTrailer t) (h : archive ms t <+: s) :
    entries s = ms.mapIdx fun k m => memberEntry m (offset ms k) :=
  List.ext_getElem? fun k => by rw [getElem?_entries hms ht h, List.getElem?_mapIdx]

lemma length_entries (hms : ∀ m ∈ ms, Readable m) (ht : IsTrailer t) (h : archive ms t <+: s) :
    (entries s).length = ms.length :=
  (readsArchive hms ht h).length_entries

end Archive

end SkinnyArm
