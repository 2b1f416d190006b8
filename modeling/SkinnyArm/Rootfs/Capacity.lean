import SkinnyArm.Rootfs.Contents

/-!
Whether a stream fits into the tables, and what happens if it does not.

* **The claim on the tables.** `KeepsSlots` says that every entry loaded has a slot of `files` of
  its own, that every regular entry with data has an inode of its own which keeps data and size,
  and that a stream with more entries is answered with -1.  No inode may be read as a file: the
  `next_file` that is read and written there is the `data` of another inode.
* **When it holds.** `keepsSlots_iff`: neither cursor is checked, so this is a matter of the
  stream.  The inode cursor moves by two slots for an entry with data and by one for a regular
  entry whose size cannot be read, so `SlotsApart` depends on the entries before each.
-/

namespace SkinnyArm

open Newc

/-- The inode cursor is not at the same slot again before two entries with data. -/
def SlotsApart (es : List Entry) : Prop :=
  ∀ j k e e', j < k → es[j]? = some e → es[k]? = some e' → e.HasData → e'.HasData →
    width (es.take j) % 256 ≠ width (es.take k) % 256

/-- No slot is used for two entries or taken for another kind of slot, and what does not fit is
refused. -/
structure KeepsSlots (s : List (BitVec 8)) : Prop where
  tame : initRamfs s ≠ .wild
  files : ∀ a r, initRamfs s = .done a r → (entries s).length ≤ 256 ∧
    ∀ k e, (entries s)[k]? = some e →
      (r.files (slot k)).fileName = e.name ∧ (r.files (slot k)).type = e.fileType
  inodes : ∀ a r, initRamfs s = .done a r → ∀ k e, (entries s)[k]? = some e → e.HasData →
    ∃ i, (r.files (slot k)).link = .inode i ∧ (r.inodes i).data = some e.data ∧
      (r.inodes i).dataSize = BitVec.ofInt 32 e.fileSize ∧
      ∀ j e', (entries s)[j]? = some e' → e'.HasData → j ≠ k → (r.files (slot j)).link ≠ .inode i
  refuses : 256 < (entries s).length → ∃ r, initRamfs s = .failed r

section Capacity

variable {es : List Entry} {r : Ramfs} {k : ℕ} {e : Entry}

lemma SlotsApart.ne (h : SlotsApart es) {j : ℕ} {e' : Entry} (hjk : j ≠ k)
    (hj : es[j]? = some e) (hk : es[k]? = some e') (hd : e.HasData) (hd' : e'.HasData) :
    dataSlot (es.take j) ≠ dataSlot (es.take k) := by
  rw [Ne, dataSlot_eq_iff]
  rcases lt_or_gt_of_ne hjk with hlt | hgt
  · exact h j k e e' hlt hj hk hd hd'
  · exact (h k j e' e hgt hk hj hd' hd).symm

/-- If the cursor is apart, the data of every entry stay. -/
lemma Tables.data_of_apart (h : Tables es r) (hapart : SlotsApart es) (hk : es[k]? = some e)
    (hd : e.HasData) :
    (r.inodes (dataSlot (es.take k))).data = some e.data ∧
      (r.inodes (dataSlot (es.take k))).dataSize = BitVec.ofInt 32 e.fileSize := by
  have hsplit := take_append_cons_drop hk
  have hlt := (List.getElem?_eq_some_iff.mp hk).1
  have hstays := data_of_last (es.take k) (es.drop (k + 1)) hd
    fun pre e' post heq hd' => by
      rw [heq] at hsplit
      -- the later entry is entry `k + 1 + pre.length` of the whole list
      have hlen : (es.take k ++ e :: pre).length = k + 1 + pre.length := by
        rw [List.length_append, List.length_take, List.length_cons]
        omega
      have hcut : es = (es.take k ++ e :: pre) ++ e' :: post := by
        rw [List.append_assoc, List.cons_append]
        exact hsplit.symm
      have htake : es.take (k + 1 + pre.length) = es.take k ++ e :: pre := by
        conv_lhs => rw [hcut]
        exact List.take_left' hlen
      have hget : es[k + 1 + pre.length]? = some e' := by
        rw [hcut, List.getElem?_append_right (by omega), hlen]
        simp
      rw [← htake]
      exact hapart.ne (by omega) hget hk hd' hd
  rw [hsplit] at hstays
  have hinodes := h.inodes
  rw [← hinodes] at hstays
  exact hstays

/-- At most 256 entries are all loaded, if no inode is read as a file. -/
lemma loadable_of_few {s : List (BitVec 8)} (h : initRamfs s ≠ .wild)
    (hfew : (entries s).length ≤ 256) : Loadable (entries s) := by
  obtain ⟨hok, hwild⟩ := loadAll_cases hfew fun e he => entries_read he
  by_cases hun : Unconfused (entries s)
  · obtain ⟨r, hr, -⟩ := hok hun
    exact loadAll_ok_iff.mp ⟨r, hr⟩
  · exact absurd (initRamfs_eq_wild.mpr (hwild hun)) h

/-- **Capacity**: every entry has slots of its own, and what does not fit is refused, exactly if
every search for a parent finds no inode and a list that ends, and a trailer is met after at most
256 entries, with the inode cursor apart before those with data. -/
theorem keepsSlots_iff (s : List (BitVec 8)) :
    KeepsSlots s ↔
      Loadable (entries s) ∧
        ∀ a, ending s = .trailer a → (entries s).length ≤ 256 ∧ SlotsApart (entries s) := by
  constructor
  · intro h
    have hload : Loadable (entries s) := by
      by_cases hfew : (entries s).length ≤ 256
      · exact loadable_of_few h.tame hfew
      · exact loadAll_ok_iff.mp (initRamfs_eq_failed.mp (h.refuses (not_le.mp hfew))).2
    refine ⟨hload, fun a ha => ?_⟩
    have hfew : (entries s).length ≤ 256 := by
      by_contra hmany
      have hfailed := initRamfs_eq_failed.mp (h.refuses (not_le.mp hmany))
      exact hfailed.1 a ha
    obtain ⟨r, hr⟩ := loadAll_ok_iff.mpr hload
    have hdone : initRamfs s = .done (a + 110) r := initRamfs_eq_done.mpr ⟨⟨a, ha, rfl⟩, hr⟩
    have htables := tables_of_done hdone hfew
    refine ⟨hfew, fun j k e e' hjk hj hk hd hd' hsame => ?_⟩
    obtain ⟨i, hi, -, -, hother⟩ := h.inodes _ r hdone k e' hk hd'
    refine hother j e hj hd hjk.ne ?_
    rw [htables.link_of_hasData hfew hj hd, dataSlot_eq_iff.mpr hsame,
      ← htables.link_of_hasData hfew hk hd', hi]
  · rintro ⟨hload, htrailer⟩
    have htables : ∀ a r, initRamfs s = .done a r →
        (entries s).length ≤ 256 ∧ SlotsApart (entries s) ∧ Tables (entries s) r := by
      intro a r hdone
      obtain ⟨⟨b, hb, -⟩, -⟩ := initRamfs_eq_done.mp hdone
      obtain ⟨hlen, hapart⟩ := htrailer b hb
      exact ⟨hlen, hapart, tables_of_done hdone hlen⟩
    constructor
    case tame =>
      exact fun hwild => loadAll_ne_wild_iff.mpr hload.readsNoInode (initRamfs_eq_wild.mp hwild)
    case files =>
      intro a r hdone
      obtain ⟨hlen, -, ht⟩ := htables a r hdone
      exact ⟨hlen, fun k e hk => ⟨ht.name k e hk, ht.type k e hk⟩⟩
    case inodes =>
      intro a r hdone k e hk hd
      obtain ⟨hlen, hapart, ht⟩ := htables a r hdone
      obtain ⟨hdata, hsize⟩ := ht.data_of_apart hapart hk hd
      refine ⟨_, ht.link_of_hasData hlen hk hd, hdata, hsize, fun j e' hj hd' hjk hsame => ?_⟩
      rw [ht.link_of_hasData hlen hj hd'] at hsame
      exact hapart.ne hjk hj hk hd' hd (Link.inode.inj hsame)
    case refuses =>
      intro hmany
      have hno : ∀ a, ending s ≠ .trailer a := fun a ha => by
        have := (htrailer a ha).1
        omega
      exact initRamfs_eq_failed.mpr ⟨hno, loadAll_ok_iff.mpr hload⟩

/-- An entry without a parent is always loaded. -/
lemma loadable_of_noParent (h : ∀ e ∈ es, e.parentName 0 = 0) : Loadable es :=
  fun _ e _ hget _ hpar => absurd (h e (List.mem_of_getElem? hget)) hpar

/-- Of an archive of members without a parent all are loaded. -/
lemma initRamfs_noParent {s : List (BitVec 8)} {ms : List Member} {t : Member}
    (hms : ∀ m ∈ ms, Readable m) (ht : IsTrailer t) (h : archive ms t <+: s)
    (hno : ∀ m ∈ ms, m.parentComponent = []) :
    ∃ r, initRamfs s = .done ((ms.flatMap Member.encode).length + 110) r := by
  have hload : Loadable (entries s) := by
    refine loadable_of_noParent fun e he => ?_
    obtain ⟨k, hk⟩ := List.getElem?_of_mem he
    rw [getElem?_entries hms ht h, Option.map_eq_some_iff] at hk
    obtain ⟨m, hm, rfl⟩ := hk
    show padName m.parentComponent 0 = 0
    rw [hno m (List.mem_of_getElem? hm)]
    rfl
  obtain ⟨r, hr⟩ := loadAll_ok_iff.mpr hload
  exact ⟨r, (initRamfs_archive hms ht h).mpr hr⟩

end Capacity

/-- One empty file more than `files` has slots. -/
def manyFiles : List Member :=
  List.replicate 257 (plainMember (digits 8 1) (digits 8 0x81A4) [[0x61]] [])

lemma manyFiles_readable : ∀ m ∈ manyFiles, Readable m := by
  intro m hm
  rw [(List.mem_replicate.mp hm).2]
  exact readable_plainMember (length_digits 8 _) (length_digits 8 _) (by decide)

/-- `init_ramfs` returns 0 on 257 files, and not all of them have a slot. -/
theorem keepsSlots_fails :
    (∃ a r, initRamfs (archive manyFiles trailer) = .done a r) ∧
      ¬ KeepsSlots (archive manyFiles trailer) := by
  have hprefix := List.prefix_rfl (l := archive manyFiles trailer)
  have hcount := length_entries manyFiles_readable isTrailer_trailer hprefix
  have hlen : manyFiles.length = 257 := List.length_replicate
  obtain ⟨r, hdone⟩ := initRamfs_noParent manyFiles_readable isTrailer_trailer hprefix
    fun m hm => by rw [(List.mem_replicate.mp hm).2]; rfl
  refine ⟨⟨_, r, hdone⟩, fun h => ?_⟩
  have hfew := (h.files _ r hdone).1
  omega

end SkinnyArm
