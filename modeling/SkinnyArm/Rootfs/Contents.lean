import SkinnyArm.Rootfs.Archive
import SkinnyArm.Rootfs.Tables

/-!
What the tables hold of an archive.

* **Lookups.** When every search for a parent finds a directory (`LookupsResolve`), no inode is
  ever read as a file, and all entries are loaded (`loadAll_of_lookupsResolve`).
* **Data.** A member with data moves the inode cursor by two slots
  (`ReadsArchive.width_entries`), so the data of up to 128 of them stay where they are put.
* **The result.** `initRamfs_loads`: type, last component and data of every member
  (`Tables.member`).
-/

namespace SkinnyArm

open Newc

/-! ### Lookups that find a directory -/

/-- Every search for a parent finds a slot of type `DIRECTORY`. -/
def LookupsResolve (s : List (BitVec 8)) : Prop :=
  ∀ k e r, (entries s)[k]? = some e → loadAll .zero ((entries s).take k) = .ok r →
    e.parentName 0 ≠ 0 →
      ∃ p, ((r.setType e).setName e).searchFile e.parentName = some p ∧
        (((r.setType e).setName e).files p).type = .directory

/-- The slot whose type is `DIRECTORY` holds no inode. -/
lemma Tables.not_confused {es : List Entry} {e : Entry} {r : Ramfs} {p : Slot} (h : Tables es r)
    (hlen : es.length < 256) (hp : lookup es e = some p)
    (htype : (((r.setType e).setName e).files p).type = .directory) : ¬ Confused es e := by
  rintro ⟨-, q, hq, hholds⟩
  obtain rfl : p = q := Option.some.inj (hp.symm.trans hq)
  rw [Ramfs.files_setName, h.findex] at htype
  rcases hholds with ⟨e', hget, hino⟩ | ⟨hval, hino⟩
  · have hlt := (List.getElem?_eq_some_iff.mp hget).1
    have hne : p ≠ slot es.length := fun heq => by
      rw [heq, val_slot hlen] at hlt
      exact lt_irrefl _ hlt
    have hold := h.type p.val e' hget
    rw [slot_val] at hold
    rw [Function.update_of_ne hne, hold, ownInode_regular hino] at htype
    exact absurd htype (by simp)
  · have hself : p = slot es.length := by rw [← hval, slot_val]
    rw [hself, Function.update_self] at htype
    have hregular := startInode_regular hino
    exact absurd (htype.symm.trans hregular) (by simp)

/-- Searches find a directory if `lookup` does. -/
lemma lookupsResolve_of_lookup {s : List (BitVec 8)} (hlen : (entries s).length ≤ 256)
    (h : ∀ k e, (entries s)[k]? = some e → e.parentName 0 ≠ 0 →
      ∃ p, lookup ((entries s).take k) e = some p ∧
        DirectoryAt ((entries s).take k ++ [e]) p.val) : LookupsResolve s := by
  intro k e r hget hload hpar
  obtain ⟨p, hp, hdir⟩ := h k e hget hpar
  have hlt := (List.getElem?_eq_some_iff.mp hget).1
  have hread : ∀ e' ∈ (entries s).take k, e'.Read := fun e' he' =>
    entries_read (List.mem_of_mem_take he')
  have hk : ((entries s).take k).length < 256 := by
    rw [List.length_take]
    omega
  have htables := tables_of_loadAll hk.le hread hload
  refine ⟨p, ?_, ?_⟩
  · rw [htables.searchFile_eq hk (entries_read (List.mem_of_getElem? hget)) hread, hp]
  · rw [DirectoryAt, Option.map_eq_some_iff] at hdir
    obtain ⟨e', hget', htype⟩ := hdir
    rw [Ramfs.files_setName, htables.findex]
    rcases getElem?_concat.mp hget' with hold | ⟨hval, rfl⟩
    · have hp' := (List.getElem?_eq_some_iff.mp hold).1
      have hne : p ≠ slot ((entries s).take k).length := fun heq => by
        rw [heq, val_slot hk] at hp'
        exact lt_irrefl _ hp'
      have hslot := htables.type p.val e' hold
      rw [slot_val] at hslot
      rw [Function.update_of_ne hne, hslot, htype]
    · have hself : p = slot ((entries s).take k).length := by rw [← hval, slot_val]
      rw [hself, Function.update_self]
      exact htype

/-- **Every entry is loaded** when every search for a parent finds a directory. -/
lemma loadAll_of_lookupsResolve {s : List (BitVec 8)} (hlen : (entries s).length ≤ 256)
    (h : LookupsResolve s) :
    ∃ r, loadAll .zero (entries s) = .ok r ∧ Tables (entries s) r := by
  have hread : ∀ k, ∀ e ∈ (entries s).take k, e.Read := fun k e he =>
    entries_read (List.mem_of_mem_take he)
  have hall : ∀ k ≤ (entries s).length, Unconfused ((entries s).take k) := by
    intro k
    induction k with
    | zero => exact fun _ j e hget => absurd hget (by simp)
    | succ k ih =>
        intro hk
        obtain ⟨e, hget⟩ : ∃ e, (entries s)[k]? = some e := ⟨_, List.getElem?_eq_getElem hk⟩
        have hun := ih (by omega)
        have hklen : ((entries s).take k).length = k := by
          rw [List.length_take]
          omega
        obtain ⟨r, hr, htables⟩ :=
          (loadAll_cases (by omega) (hread k)).1 hun
        rw [take_succ_of_some hget, unconfused_concat]
        refine ⟨hun, fun hc => ?_⟩
        obtain ⟨p, hsearch, htype⟩ := h k e r hget hr hc.1
        have he : e.Read := entries_read (List.mem_of_getElem? hget)
        rw [htables.searchFile_eq (by omega) he (hread k)] at hsearch
        exact htables.not_confused (by omega) hsearch htype hc
  have hun := hall _ le_rfl
  rw [List.take_length] at hun
  exact (loadAll_cases hlen fun e he => entries_read he).1 hun

/-! ### Members with data -/

/-- A regular member with data. -/
def CarriesData (m : Member) : Prop := identType m.mode = .regular ∧ m.data ≠ []

instance : DecidablePred CarriesData := fun _ => inferInstanceAs (Decidable (_ ∧ _))

section Archive

variable {s : List (BitVec 8)} {ms : List Member} {t : Member}

lemma hasData_iff {e : Entry} {m : Member} (htype : e.fileType = identType m.mode)
    (hsize : e.fileSize = (m.data.length : ℤ)) : e.HasData ↔ CarriesData m := by
  rw [Entry.HasData, CarriesData, htype, hsize, ← List.length_pos_iff]
  simp

/-- An entry of an archive moves the inode cursor only if it has data. -/
lemma numbered_iff {e : Entry} {m : Member} (htype : e.fileType = identType m.mode)
    (hsize : e.fileSize = (m.data.length : ℤ)) : e.Numbered ↔ CarriesData m := by
  rw [Entry.Numbered, CarriesData, htype, hsize, ← List.length_pos_iff]
  simp [Nat.pos_iff_ne_zero]

/-- How many of the first members of an archive have data. -/
def rank (ms : List Member) (k : ℕ) : ℕ := (ms.take k).countP (CarriesData ·)

lemma rank_succ {m : Member} {k : ℕ} (hk : ms[k]? = some m) :
    rank ms (k + 1) = rank ms k + if CarriesData m then 1 else 0 := by
  rw [rank, take_succ_of_some hk, List.countP_append, rank]
  simp [List.countP_singleton]

lemma rank_of_none {k : ℕ} (hk : ms[k]? = none) : rank ms (k + 1) = rank ms k := by
  rw [rank, take_succ_of_none hk, rank]

/-- How far the first members of an archive move the inode cursor. -/
lemma ReadsArchive.width_entries (ha : ReadsArchive s ms t) (k : ℕ) :
    width ((entries s).take k) = 2 * rank ms k := by
  induction k with
  | zero => rfl
  | succ k ih =>
      cases hk : ms[k]? with
      | none =>
          rw [take_succ_of_none (ha.entries_eq_none hk), rank_of_none hk, ih]
      | some m =>
          obtain ⟨e, hget, htype, hsize, -⟩ := ha.exists_entry hk
          rw [take_succ_of_some hget, width_append, width_singleton, ih,
            rank_succ hk, Entry.width]
          simp only [hasData_iff htype hsize, numbered_iff htype hsize]
          split_ifs
          · ring
          · ring

/-- What the tables hold of a member: its type, its last component, and if it is a regular file
with data an inode with these. -/
lemma Tables.member {r : Ramfs} (hr : Tables (entries s) r) (hms : ∀ m ∈ ms, Readable m)
    (ht : IsTrailer t) (h : archive ms t <+: s) (hlen : ms.length ≤ 256)
    (hdata : ms.countP (CarriesData ·) ≤ 128) {k : ℕ} {m : Member} (hk : ms[k]? = some m) :
    (r.files (slot k)).type = identType m.mode ∧
      (r.files (slot k)).fileName = padName m.base ∧
      (CarriesData m → ∃ i, (r.files (slot k)).link = .inode i ∧
        (r.inodes i).data = some (memberData m (offset ms k)) ∧
        At s (memberData m (offset ms k)) m.data ∧
        (r.inodes i).dataSize.toNat = m.data.length) := by
  have hcount := length_entries hms ht h
  have hm := (hms m (List.mem_of_getElem? hk)).wellFormed
  have hget := getElem?_entries hms ht h k
  rw [hk, Option.map_some] at hget
  refine ⟨hr.type k _ hget, hr.name k _ hget, fun hcarries => ?_⟩
  have hd : (memberEntry m (offset ms k)).HasData := (hasData_iff rfl rfl).mpr hcarries
  have hsplit := take_append_cons_drop hget
  have hwidth : width (entries s) ≤ 256 := by
    have htotal := (readsArchive hms ht h).width_entries (entries s).length
    rw [List.take_length, rank, hcount, List.take_length] at htotal
    omega
  have hstays := data_of_width hd (by rw [hsplit]; exact hwidth)
  rw [hsplit, ← hr.inodes] at hstays
  refine ⟨dataSlot ((entries s).take k), hr.link_of_hasData (hcount.trans_le hlen) hget hd,
    hstays.1, at_memberData hm (at_offset h hk), ?_⟩
  have hsize : m.data.length < 2 ^ 32 :=
    value_lt hm.filesize (hm.field _ (by simp [Member.fields]))
  have hds : (r.inodes (dataSlot ((entries s).take k))).dataSize =
      BitVec.ofInt 32 (m.data.length : ℤ) := hstays.2
  rw [hds, BitVec.ofInt_natCast, BitVec.toNat_ofNat, Nat.mod_eq_of_lt hsize]

/-- On an archive the code understands `init_ramfs` ends at the trailer's name, once every entry is
loaded. -/
lemma initRamfs_archive (hms : ∀ m ∈ ms, Readable m) (ht : IsTrailer t) (h : archive ms t <+: s)
    {r : Ramfs} :
    initRamfs s = .done ((ms.flatMap Member.encode).length + 110) r ↔
      loadAll .zero (entries s) = .ok r := by
  have hend : ending s = .trailer (ms.flatMap Member.encode).length := by
    rw [ending, scan_archive hms ht h]
  rw [initRamfs_eq_done]
  exact ⟨fun hdone => hdone.2, fun hload => ⟨⟨_, hend, rfl⟩, hload⟩⟩

/-- **`init_ramfs` on an archive** of at most 256 members, at most 128 of them with data, and in
which every search for a parent finds a directory: it returns 0, type and last component of every
member are in its slot, and a regular member with data has them in its inode. -/
theorem initRamfs_loads (hms : ∀ m ∈ ms, Readable m) (ht : IsTrailer t)
    (h : archive ms t <+: s) (hlen : ms.length ≤ 256)
    (hdata : ms.countP (CarriesData ·) ≤ 128) (hlook : LookupsResolve s) :
    ∃ e r, initRamfs s = .done e r ∧ ∀ k m, ms[k]? = some m →
      (r.files (slot k)).type = identType m.mode ∧
      (r.files (slot k)).fileName = padName m.base ∧
      (CarriesData m → ∃ i, (r.files (slot k)).link = .inode i ∧
        (r.inodes i).data = some (memberData m (offset ms k)) ∧
        At s (memberData m (offset ms k)) m.data ∧
        (r.inodes i).dataSize.toNat = m.data.length) := by
  have hcount := length_entries hms ht h
  obtain ⟨r, hload, hr⟩ := loadAll_of_lookupsResolve (by omega) hlook
  exact ⟨_, r, (initRamfs_archive hms ht h).mpr hload, fun k m hk =>
    hr.member hms ht h hlen hdata hk⟩

end Archive

/-- A directory `a` with a file `a/b` of one byte. -/
def oneFile : List Member :=
  [plainMember (digits 8 1) (digits 8 0x41ED) [[0x61]] [],
    plainMember (digits 8 2) (digits 8 0x81A4) [[0x61], [0x62]] [0x2A]]

lemma oneFile_readable : ∀ m ∈ oneFile, Readable m := by
  intro m hm
  simp only [oneFile, List.mem_cons, List.not_mem_nil, or_false] at hm
  rcases hm with rfl | rfl
  all_goals exact readable_plainMember (length_digits 8 _) (length_digits 8 _) (by decide)

lemma oneFile_lookupsResolve : LookupsResolve (archive oneFile trailer) := by
  have hentries := entries_archive oneFile_readable isTrailer_trailer
    (List.prefix_rfl (l := archive oneFile trailer))
  refine lookupsResolve_of_lookup (by rw [hentries]; simp [oneFile]) ?_
  rw [hentries]
  intro k e hget hpar
  match k with
  | 0 =>
      obtain rfl := Option.some.inj hget
      exact absurd (by decide) hpar
  | 1 =>
      obtain rfl := Option.some.inj hget
      exact ⟨0, by decide +kernel, by decide +kernel⟩
  | k + 2 => exact absurd hget (by simp [oneFile])

theorem initRamfs_loads_oneFile :
    ∃ e r, initRamfs (archive oneFile trailer) = .done e r ∧
      ∀ k m, oneFile[k]? = some m →
        (r.files (slot k)).type = identType m.mode ∧
        (r.files (slot k)).fileName = padName m.base ∧
        (CarriesData m → ∃ i, (r.files (slot k)).link = .inode i ∧
          (r.inodes i).data = some (memberData m (offset oneFile k)) ∧
          At (archive oneFile trailer) (memberData m (offset oneFile k)) m.data ∧
          (r.inodes i).dataSize.toNat = m.data.length) :=
  initRamfs_loads oneFile_readable isTrailer_trailer List.prefix_rfl (by decide) (by decide)
    oneFile_lookupsResolve

end SkinnyArm
