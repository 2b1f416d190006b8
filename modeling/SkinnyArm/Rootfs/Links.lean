import SkinnyArm.Rootfs.Capacity

/-!
Hard links: which inode the files of an archive hold.

* **The claim on links.** `LinksRight`: the records read are the members, each has a file, a member
  without data shares the inode of the one it is a link of, and members with data of different
  identity share neither inode nor data.
* **Numbers and data.** The numbers of a member with data go to the slot before that of its data,
  which is where the data of the one before went (`ReadsArchive.currentIno_entries`).  So a link
  never gets the inode the data is in (`Tables.no_links`).
* **The result.** `linksRight_iff`.
-/

namespace SkinnyArm

open Newc

/-- Two members carry the same inode number and the same device numbers. -/
def SameIdentity (m m' : Member) : Prop :=
  m.ino = m'.ino ∧ m.devMajor = m'.devMajor ∧ m.devMinor = m'.devMinor

lemma SameIdentity.symm {m m' : Member} (h : SameIdentity m m') : SameIdentity m' m :=
  ⟨h.1.symm, h.2.1.symm, h.2.2.symm⟩

lemma SameIdentity.trans {m m' m'' : Member} (h : SameIdentity m m') (h' : SameIdentity m' m'') :
    SameIdentity m m'' :=
  ⟨h.1.trans h'.1, h.2.1.trans h'.2.1, h.2.2.trans h'.2.2⟩

/-- The records read are the members of the archive, and there is a file for each. -/
structure OwnFiles (s : List (BitVec 8)) (ms : List Member) : Prop where
  read : scan s 0 = (offsets 0 ms, .trailer (ms.flatMap Member.encode).length)
  files : ms.length ≤ 256

/-- Links share the inode with the data, and members of different identity do not. -/
structure LinksRight (s : List (BitVec 8)) (ms : List Member) (r : Ramfs) : Prop where
  own : OwnFiles s ms
  shared : ∀ j k m l, ms[j]? = some m → ms[k]? = some l → CarriesData m →
    identType l.mode = .regular → l.data = [] → SameIdentity m l →
      ∃ i, (r.files (slot j)).link = .inode i ∧ (r.files (slot k)).link = .inode i ∧
        (r.inodes i).data = some (memberData m (offset ms j)) ∧
        (r.inodes i).dataSize.toNat = m.data.length
  apart : ∀ j k m m', ms[j]? = some m → ms[k]? = some m' → CarriesData m → CarriesData m' →
    ¬ SameIdentity m m' → ∀ i i', (r.files (slot j)).link = .inode i →
      (r.files (slot k)).link = .inode i' →
        i ≠ i' ∧ (r.inodes i).data ≠ some (memberData m' (offset ms k))

/-! ### Ranks -/

section Rank

variable {ms : List Member} {j k n : ℕ} {m : Member}

lemma rank_mono (h : j ≤ k) : rank ms j ≤ rank ms k :=
  List.Sublist.countP_le (List.take_sublist_take_left h)

/-- Every rank below that of a position is that of a member with data before it. -/
lemma exists_rank (h : n < rank ms k) :
    ∃ j < k, ∃ m, ms[j]? = some m ∧ CarriesData m ∧ rank ms j = n := by
  induction k with
  | zero => exact absurd h (by simp [rank])
  | succ k ih =>
      by_cases hlt : n < rank ms k
      · obtain ⟨j, hj, hrest⟩ := ih hlt
        exact ⟨j, by omega, hrest⟩
      · cases hk : ms[k]? with
        | none =>
            rw [rank_of_none hk] at h
            exact absurd h hlt
        | some m =>
            rw [rank_succ hk] at h
            by_cases hm : CarriesData m
            · rw [if_pos hm] at h
              exact ⟨k, by omega, m, hk, hm, by omega⟩
            · rw [if_neg hm] at h
              omega

end Rank

/-! ### Slots -/

section Slots

variable {s : List (BitVec 8)} {ms : List Member} {t : Member} {j k : ℕ} {m : Member}

/-- Where the numbers of the next member with data go: to the slot of the data of the one before. -/
lemma ReadsArchive.currentIno_entries (ha : ReadsArchive s ms t) (k : ℕ) :
    (inodeTable ((entries s).take k)).currentIno = slot (2 * rank ms k - 1) := by
  induction k with
  | zero => rfl
  | succ k ih =>
      cases hk : ms[k]? with
      | none =>
          rw [take_succ_of_none (ha.entries_eq_none hk), rank_of_none hk, ih]
      | some m =>
          obtain ⟨e, hget, htype, hsize, -⟩ := ha.exists_entry hk
          have hwidth := ha.width_entries k
          rw [take_succ_of_some hget, inodeTable_concat,
            InodeTable.currentIno_advance, iindex_inodeTable, hwidth, slot_add_one, rank_succ hk]
          by_cases hm : CarriesData m
          · rw [if_pos ((numbered_iff htype hsize).mpr hm), if_pos hm]
            congr 1
          · rw [if_neg fun hn => hm ((numbered_iff htype hsize).mp hn), if_neg hm, ih,
              Nat.add_zero]

/-- The slot of a member's data. -/
lemma ReadsArchive.dataSlot_entries (ha : ReadsArchive s ms t) (k : ℕ) :
    dataSlot ((entries s).take k) = slot (2 * rank ms k + 1) := by
  rw [dataSlot, ha.width_entries]

/-- A member with data holds the inode of that slot. -/
lemma Tables.link_carriesData {r : Ramfs} (hr : Tables (entries s) r)
    (ha : ReadsArchive s ms t) (hlen : ms.length ≤ 256) (hj : ms[j]? = some m)
    (hm : CarriesData m) : (r.files (slot j)).link = .inode (slot (2 * rank ms j + 1)) := by
  obtain ⟨e, hget, htype, hsize, -⟩ := ha.exists_entry hj
  have hcount := ha.length_entries
  rw [hr.link_of_hasData (by omega) hget ((hasData_iff htype hsize).mpr hm),
    ha.dataSlot_entries]

/-- A member without data holds the first inode with its numbers, if any. -/
lemma Tables.numbers_of_link {r : Ramfs} (hr : Tables (entries s) r)
    (ha : ReadsArchive s ms t) (hlen : ms.length ≤ 256) (hk : ms[k]? = some m)
    (hregular : identType m.mode = .regular) (hnil : m.data = []) {i : Slot}
    (hi : (r.files (slot k)).link = .inode i) :
    let inodes := (inodeTable ((entries s).take k)).inodes
    ((inodes i).deviceNumber = fieldWord m.devMinor ∧ (inodes i).inodeNumber = fieldWord m.ino) ∧
      ∀ i' < i, ¬ ((inodes i').deviceNumber = fieldWord m.devMinor ∧
        (inodes i').inodeNumber = fieldWord m.ino) := by
  obtain ⟨e, hget, htype, hsize, hdevice, hino, -⟩ := ha.exists_entry hk
  have hcount := ha.length_entries
  have hlt := (List.getElem?_eq_some_iff.mp hget).1
  have hzero : e.fileType = .regular ∧ e.fileSize = 0 := by
    rw [htype, hsize, hnil]
    exact ⟨hregular, rfl⟩
  have hnot : ¬ e.HasData := fun hd => hd.2.ne' hzero.2
  rw [hr.inode, val_slot (by omega), inodeAt, hget, Option.bind_some, ownInode, if_neg hnot,
    startInode, if_pos hzero, InodeTable.find, find?_slots_eq_some] at hi
  simpa [hdevice, hino] using hi

/-- The numbers in a slot are those of a member with data that wrote them there, or no such member
did. -/
lemma ReadsArchive.numbers_member (ha : ReadsArchive s ms t) (k n : ℕ) :
    let inodes := (inodeTable ((entries s).take k)).inodes
    (∃ x < k, ∃ m, ms[x]? = some m ∧ CarriesData m ∧ slot (2 * rank ms x - 1) = slot n ∧
        (inodes (slot n)).deviceNumber = fieldWord m.devMinor ∧
        (inodes (slot n)).inodeNumber = fieldWord m.ino) ∨
      (∀ x < k, ∀ m, ms[x]? = some m → CarriesData m → slot (2 * rank ms x - 1) ≠ slot n) ∧
        (inodes (slot n)).deviceNumber = 0 ∧ (inodes (slot n)).inodeNumber = 0 := by
  have htake : ∀ {x e}, ((entries s).take k)[x]? = some e →
      x < k ∧ (entries s)[x]? = some e ∧ ((entries s).take k).take x = (entries s).take x := by
    intro x e hx
    have hlt := (List.getElem?_eq_some_iff.mp hx).1
    rw [List.length_take] at hlt
    rw [List.getElem?_take_of_lt (by omega)] at hx
    exact ⟨by omega, hx, by rw [List.take_take, min_eq_left (by omega)]⟩
  rcases numbers_origin ((entries s).take k) (slot n) with
    ⟨x, e, hx, hn, hslot, hnumbers⟩ | ⟨hnone, hnumbers⟩
  · obtain ⟨hxk, hget, hcut⟩ := htake hx
    have hlt : x < ms.length := by
      have hlen := (List.getElem?_eq_some_iff.mp hget).1
      rwa [ha.length_entries] at hlen
    have hmx : ms[x]? = some ms[x] := List.getElem?_eq_getElem hlt
    obtain ⟨e', hget', htype, hsize, hdevice, hino, -⟩ := ha.exists_entry hmx
    obtain rfl : e = e' := Option.some.inj (hget.symm.trans hget')
    rw [hcut, ha.currentIno_entries] at hslot
    refine .inl ⟨x, hxk, _, hmx, (numbered_iff htype hsize).mp hn, hslot, ?_⟩
    rw [← hdevice, ← hino]
    exact hnumbers
  · refine .inr ⟨fun x hxk m hmx hm => ?_, hnumbers⟩
    obtain ⟨e, hget, htype, hsize, -⟩ := ha.exists_entry hmx
    have hx : ((entries s).take k)[x]? = some e := by rw [List.getElem?_take_of_lt hxk, hget]
    have hne := hnone x e hx ((numbered_iff htype hsize).mpr hm)
    rwa [(htake hx).2.2, ha.currentIno_entries] at hne

/-- **No link** gets the inode its data is in: where nobody else uses that slot, the numbers the
link looks for stand in one before it. -/
lemma Tables.no_links {r : Ramfs} {l : Member} (hr : Tables (entries s) r)
    (ha : ReadsArchive s ms t) (hlen : ms.length ≤ 256) (hj : ms[j]? = some m)
    (hm : CarriesData m) (hk : ms[k]? = some l) (hregular : identType l.mode = .regular)
    (hnil : l.data = []) (hsame : SameIdentity m l)
    (hunique : ∀ x m', ms[x]? = some m' → CarriesData m' →
      rank ms x % 128 = rank ms j % 128 → x = j) :
    (r.files (slot k)).link ≠ .inode (slot (2 * rank ms j + 1)) := by
  intro hlink
  obtain ⟨⟨hdevice, hino⟩, hfirst⟩ :=
    hr.numbers_of_link ha hlen hk hregular hnil hlink
  have hsmall : rank ms j < 128 := by
    by_contra hge
    have hbelow : rank ms j - 128 < rank ms j := by omega
    obtain ⟨x, hx, m', hm', hcarries, hrank⟩ := exists_rank hbelow
    have hxj := hunique x m' hm' hcarries (by omega)
    omega
  have hlt : ∀ n, n < 2 * rank ms j + 1 → slot n < slot (2 * rank ms j + 1) := fun n hn => by
    rw [Fin.lt_def, val_slot (by omega), val_slot (by omega)]
    exact hn
  -- the member's own numbers stand in the slot before that of its data
  have hown : j < k → False := fun hjk => by
    rcases ha.numbers_member k (2 * rank ms j - 1) with
      ⟨x, hxk, m', hm', hcarries, hslot, hnumbers⟩ | ⟨hnone, -⟩
    · rw [slot_eq_iff] at hslot
      obtain rfl := hunique x m' hm' hcarries (by omega)
      obtain rfl : m = m' := Option.some.inj (hj.symm.trans hm')
      rw [hsame.1, hsame.2.2] at hnumbers
      exact hfirst _ (hlt _ (by omega)) hnumbers
    · exact hnone j hjk m hj hm rfl
  rcases ha.numbers_member k (2 * rank ms j + 1) with
    ⟨x, hxk, m', hm', hcarries, hslot, -⟩ | ⟨-, hdevice0, hino0⟩
  · -- written by the next member with data: the member itself came before
    rw [slot_eq_iff] at hslot
    have hrank : rank ms j < rank ms x := by omega
    have hjx : j < x := by
      by_contra hge
      have hle : rank ms x ≤ rank ms j := rank_mono (not_lt.mp hge)
      omega
    exact hown (hjx.trans hxk)
  · -- not written: the link's numbers are 0, and an even slot holds them
    have hzero : ∀ n, n < 2 * rank ms j + 1 → ¬ (
        ((inodeTable ((entries s).take k)).inodes (slot n)).deviceNumber = 0 ∧
          ((inodeTable ((entries s).take k)).inodes (slot n)).inodeNumber = 0) := by
      rintro n hn ⟨hd, hi⟩
      refine hfirst _ (hlt n hn) ⟨?_, ?_⟩
      · rw [hd, ← hdevice0, hdevice]
      · rw [hi, ← hino0, hino]
    by_cases hrank : rank ms j = 0
    · rcases ha.numbers_member k 0 with
        ⟨x, hxk, m', hm', hcarries, hslot, -⟩ | ⟨-, hnumbers⟩
      · rw [slot_eq_iff] at hslot
        obtain rfl := hunique x m' hm' hcarries (by omega)
        exact hown hxk
      · exact hzero 0 (by omega) hnumbers
    · rcases ha.numbers_member k 2 with
        ⟨x, hxk, m', hm', hcarries, hslot, -⟩ | ⟨-, hnumbers⟩
      · rw [slot_eq_iff] at hslot
        omega
      · exact hzero 2 (by omega) hnumbers

/-- Two members with data stand at different places. -/
lemma ReadsArchive.memberData_inj (ha : ReadsArchive s ms t) {m' : Member}
    (hj : ms[j]? = some m) (hk : ms[k]? = some m')
    (heq : memberData m (offset ms j) = memberData m' (offset ms k)) : j = k := by
  obtain ⟨e, hget, -, -, -, -, hdata⟩ := ha.exists_entry hj
  obtain ⟨e', hget', -, -, -, -, hdata'⟩ := ha.exists_entry hk
  obtain ⟨hj', rfl⟩ := List.getElem?_eq_some_iff.mp hget
  obtain ⟨hk', rfl⟩ := List.getElem?_eq_some_iff.mp hget'
  have hpair := List.pairwise_iff_getElem.mp (entries_pairwise s)
  rcases lt_trichotomy j k with hlt | heq' | hgt
  · have hdlt := hpair j k hj' hk' hlt
    omega
  · exact heq'
  · have hdlt := hpair k j hk' hj' hgt
    omega

/-- Where links share the inode with the data, there is none. -/
lemma LinksRight.no_links {r : Ramfs} (hright : LinksRight s ms r) (hr : Tables (entries s) r)
    (ha : ReadsArchive s ms t) {l : Member} (hj : ms[j]? = some m) (hm : CarriesData m)
    (hk : ms[k]? = some l) (hregular : identType l.mode = .regular) (hnil : l.data = []) :
    ¬ SameIdentity m l := by
  intro hsame
  have hlen := hright.own.files
  obtain ⟨i, hij, hik, hdata, -⟩ := hright.shared j k m l hj hk hm hregular hnil hsame
  rw [hr.link_carriesData ha hlen hj hm, Link.inode.injEq] at hij
  rw [← hij] at hik hdata
  refine hr.no_links ha hlen hj hm hk hregular hnil hsame ?_ hik
  -- nobody else with data has the slot: it would share the link, or be of another identity
  intro x m' hx hcarries hrank
  have hslot : slot (2 * rank ms x + 1) = slot (2 * rank ms j + 1) := slot_eq_iff.mpr (by omega)
  by_cases hsame' : SameIdentity m' l
  · obtain ⟨i', hix, -, hdata', -⟩ :=
      hright.shared x k m' l hx hk hcarries hregular hnil hsame'
    rw [hr.link_carriesData ha hlen hx hcarries, Link.inode.injEq, hslot] at hix
    rw [← hix, hdata] at hdata'
    exact (ha.memberData_inj hj hx (Option.some.inj hdata')).symm
  · have hne : ¬ SameIdentity m' m := fun hh => hsame' (hh.trans hsame)
    exact absurd hslot (hright.apart x j m' m hx hj hcarries hm hne _ _
      (hr.link_carriesData ha hlen hx hcarries) (hr.link_carriesData ha hlen hj hm)).1

/-- Members with data in different slots have inodes and data of their own. -/
lemma Tables.apart_of_rank {r : Ramfs} (hr : Tables (entries s) r) (ha : ReadsArchive s ms t)
    (hlen : ms.length ≤ 256) {m' : Member} (hj : ms[j]? = some m) (hk : ms[k]? = some m')
    (hm : CarriesData m) (hm' : CarriesData m') (hrank : rank ms j % 128 ≠ rank ms k % 128)
    {i i' : Slot} (hi : (r.files (slot j)).link = .inode i)
    (hi' : (r.files (slot k)).link = .inode i') :
    i ≠ i' ∧ (r.inodes i).data ≠ some (memberData m' (offset ms k)) := by
  rw [hr.link_carriesData ha hlen hj hm, Link.inode.injEq] at hi
  rw [hr.link_carriesData ha hlen hk hm', Link.inode.injEq] at hi'
  have hslots : i ≠ i' := by
    rw [← hi, ← hi', Ne, slot_eq_iff]
    omega
  refine ⟨hslots, fun hdata => hslots ?_⟩
  -- the data of the other member was written to its own slot only
  have hinodes : r.inodes = (inodeTable (entries s)).inodes := congrArg InodeTable.inodes hr.inodes
  rw [hinodes] at hdata
  obtain ⟨x, e, hget, -, hslot, hx⟩ := data_origin hdata
  have hxlt := (List.getElem?_eq_some_iff.mp hget).1
  rw [ha.length_entries] at hxlt
  have hmx : ms[x]? = some ms[x] := List.getElem?_eq_getElem hxlt
  obtain ⟨e', hget', -, -, -, -, hdata'⟩ := ha.exists_entry hmx
  obtain rfl : e = e' := Option.some.inj (hget.symm.trans hget')
  obtain rfl := ha.memberData_inj hmx hk (hdata'.symm.trans hx)
  rw [← hslot, ha.dataSlot_entries, hi']

/-- **Hard links**: of an archive on which `init_ramfs` returns 0, links share their inode and
members of different identity do not exactly if the code understands every member, there is a file
for each, there are no links to members with data, and the inode cursor does not go round to a
member of another identity. -/
theorem linksRight_iff {b : ℕ} {r : Ramfs} (hms : ∀ m ∈ ms, m.WellFormed) (ht : IsTrailer t)
    (h : archive ms t <+: s) (hdone : initRamfs s = .done b r) :
    LinksRight s ms r ↔
      (∀ m ∈ ms, Understood m) ∧ ms.length ≤ 256 ∧
      (∀ m ∈ ms, ∀ l ∈ ms, CarriesData m → identType l.mode = .regular → l.data = [] →
        ¬ SameIdentity m l) ∧
      ∀ j k m m', j < k → ms[j]? = some m → ms[k]? = some m' → CarriesData m →
        CarriesData m' → ¬ SameIdentity m m' → rank ms j % 128 ≠ rank ms k % 128 := by
  have htables : ReadsArchive s ms t → ms.length ≤ 256 → Tables (entries s) r := fun ha hlen =>
    tables_of_done hdone (ha.length_entries.trans_le hlen)
  constructor
  · intro hright
    have hun := (scan_archive_iff hms ht h).mp hright.own.read
    have ha : ReadsArchive s ms t := ⟨hms, hun, h, congrArg Prod.fst hright.own.read⟩
    have hlen := hright.own.files
    have hr := htables ha hlen
    refine ⟨hun, hlen, fun m hm l hl hcarries hregular hnil => ?_,
      fun j k m m' _ hj hk hm hm' hne hrank => ?_⟩
    · obtain ⟨j, hj⟩ := List.getElem?_of_mem hm
      obtain ⟨k, hk⟩ := List.getElem?_of_mem hl
      exact hright.no_links hr ha hj hcarries hk hregular hnil
    · refine (hright.apart j k m m' hj hk hm hm' hne _ _ (hr.link_carriesData ha hlen hj hm)
        (hr.link_carriesData ha hlen hk hm')).1 ?_
      rw [slot_eq_iff]
      omega
  · rintro ⟨hun, hlen, hnolinks, hranks⟩
    have hscan := (scan_archive_iff hms ht h).mpr hun
    have ha : ReadsArchive s ms t := ⟨hms, hun, h, congrArg Prod.fst hscan⟩
    have hr := htables ha hlen
    constructor
    case own => exact ⟨hscan, hlen⟩
    case shared =>
      intro j k m l hj hk hm hregular hnil hsame
      exact absurd hsame (hnolinks m (List.mem_of_getElem? hj) l (List.mem_of_getElem? hk) hm
        hregular hnil)
    case apart =>
      intro j k m m' hj hk hm hm' hne i i' hi hi'
      refine hr.apart_of_rank ha hlen hj hk hm hm' ?_ hi hi'
      rcases lt_trichotomy j k with hlt | rfl | hgt
      · exact hranks j k m m' hlt hj hk hm hm' hne
      · obtain rfl := Option.some.inj (hj.symm.trans hk)
        exact absurd ⟨rfl, rfl, rfl⟩ hne
      · exact (hranks k j m' m hgt hk hj hm' hm fun hh => hne hh.symm).symm

end Slots

/-- A file `a` of one byte and a link `b` of it. -/
def linked : List Member :=
  [plainMember (digits 8 1) (digits 8 0x81A4) [[0x61]] [0x2A],
    plainMember (digits 8 1) (digits 8 0x81A4) [[0x62]] []]

lemma linked_readable : ∀ m ∈ linked, Readable m := by
  intro m hm
  simp only [linked, List.mem_cons, List.not_mem_nil, or_false] at hm
  rcases hm with rfl | rfl
  all_goals exact readable_plainMember (length_digits 8 _) (length_digits 8 _) (by decide)

/-- Only the first member has data. -/
lemma linked_carriesData {k : ℕ} {m : Member} (hk : linked[k]? = some m) (hm : CarriesData m) :
    k = 0 := by
  match k with
  | 0 => rfl
  | 1 =>
      obtain rfl := Option.some.inj hk
      exact absurd hm.2 (by decide)
  | k + 2 => exact absurd hk (by simp [linked])

lemma linked_done : ∃ r, initRamfs (archive linked trailer) =
    .done ((linked.flatMap Member.encode).length + 110) r :=
  initRamfs_noParent linked_readable isTrailer_trailer List.prefix_rfl (by decide)

theorem linksRight_iff_linked :
    ∃ b r, initRamfs (archive linked trailer) = .done b r ∧
      (LinksRight (archive linked trailer) linked r ↔
        (∀ m ∈ linked, Understood m) ∧ linked.length ≤ 256 ∧
        (∀ m ∈ linked, ∀ l ∈ linked, CarriesData m → identType l.mode = .regular → l.data = [] →
          ¬ SameIdentity m l) ∧
        ∀ j k m m', j < k → linked[j]? = some m → linked[k]? = some m' → CarriesData m →
          CarriesData m' → ¬ SameIdentity m m' → rank linked j % 128 ≠ rank linked k % 128) := by
  obtain ⟨r, hdone⟩ := linked_done
  exact ⟨_, r, hdone, linksRight_iff (fun m hm => (linked_readable m hm).wellFormed)
    isTrailer_trailer List.prefix_rfl hdone⟩

/-- The link does not get the inode of the file. -/
theorem linksRight_fails :
    ∃ b r, initRamfs (archive linked trailer) = .done b r ∧
      (∀ i, (r.files (slot 0)).link = .inode i → (r.files (slot 1)).link ≠ .inode i) ∧
      ¬ LinksRight (archive linked trailer) linked r := by
  obtain ⟨r, hdone⟩ := linked_done
  have ha := readsArchive linked_readable isTrailer_trailer
    (List.prefix_rfl (l := archive linked trailer))
  have hlen : linked.length ≤ 256 := by decide
  have hr := tables_of_done hdone (ha.length_entries.trans_le hlen)
  have hfirst := hr.link_carriesData ha hlen (j := 0) rfl (by decide)
  have hsecond := hr.no_links ha hlen (j := 0) (k := 1) rfl (by decide) rfl
    (by decide) rfl ⟨rfl, rfl, rfl⟩ fun x m' hx hcarries _ => linked_carriesData hx hcarries
  refine ⟨_, r, hdone, fun i hi hi' => ?_, fun hright => ?_⟩
  · rw [hfirst] at hi
    exact hsecond (hi ▸ hi')
  · obtain ⟨i, hi, hi', -⟩ := hright.shared 0 1 _ _ rfl rfl (by decide) (by decide) rfl
      ⟨rfl, rfl, rfl⟩
    rw [hfirst] at hi
    exact hsecond (hi ▸ hi')

end SkinnyArm
