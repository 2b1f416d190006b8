import SkinnyArm.Rootfs.Contents

/-!
Which archives `init_ramfs` accepts.

* **The format.** `memberType` is the type the mode word stands for, whatever the permission bits
  and the case of its digits.
* **Acceptance.** `Accepted` says that the records read are the members of the archive, and that
  each is in its slot.
* **The result.** `accepts_iff`: this is so exactly if every member is `Understood`, and no search
  for a parent finds a slot that holds an inode.
-/

namespace SkinnyArm

open Newc

/-- The type of a member, from the upper four bits of its mode word. -/
def memberType (m : Member) : FileType :=
  match (value m.mode).map (· / 0x1000 % 16) with
  | some 8 => .regular
  | some 4 => .directory
  | _ => .invalid

/-- On the modes the code knows the two types agree. -/
lemma memberType_eq {m : Member} (htype : memberType m ≠ .invalid)
    (hident : identType m.mode ≠ .invalid) : memberType m = identType m.mode := by
  have hsplit := valueFrom_append 0 (m.mode.take 4) (m.mode.drop 4)
  rw [List.take_append_drop] at hsplit
  cases hpre : valueFrom 0 (m.mode.take 4) with
  | none =>
      rw [hpre] at hsplit
      have hnone : value m.mode = none := hsplit
      exact absurd (by rw [memberType, hnone]; rfl) htype
  | some w =>
      rw [hpre, Option.bind_some] at hsplit
      by_cases hfile : m.mode.drop 4 = fileIdent
      · have hval : value m.mode = some ((((w * 16 + 8) * 16 + 1) * 16 + 10) * 16 + 4) := by
          rw [hfile] at hsplit
          exact hsplit
        have hkind : ((((w * 16 + 8) * 16 + 1) * 16 + 10) * 16 + 4) / 0x1000 % 16 = 8 := by omega
        rw [memberType, hval, Option.map_some, hkind, identType, if_pos hfile]
        rfl
      · by_cases hdir : m.mode.drop 4 = dirIdent
        · have hval : value m.mode = some ((((w * 16 + 4) * 16 + 1) * 16 + 14) * 16 + 13) := by
            rw [hdir] at hsplit
            exact hsplit
          have hkind : ((((w * 16 + 4) * 16 + 1) * 16 + 14) * 16 + 13) / 0x1000 % 16 = 4 := by
            omega
          rw [memberType, hval, Option.map_some, hkind, identType, if_neg hfile, if_pos hdir]
          rfl
        · exact absurd (by rw [identType, if_neg hfile, if_neg hdir]) hident

/-- The records read are the members of the archive, and each member is in its slot: its type, its
last component, and if it is a regular file with data an inode with these. -/
structure Accepted (s : List (BitVec 8)) (ms : List Member) (r : Ramfs) : Prop where
  starts : starts s = offsets 0 ms
  type : ∀ k m, ms[k]? = some m → (r.files (slot k)).type = memberType m
  name : ∀ k m, ms[k]? = some m → (r.files (slot k)).fileName = padName m.base
  data : ∀ k m, ms[k]? = some m → memberType m = .regular → m.data ≠ [] →
    ∃ i, (r.files (slot k)).link = .inode i ∧
      (r.inodes i).data = some (memberData m (offset ms k)) ∧
      At s (memberData m (offset ms k)) m.data ∧ (r.inodes i).dataSize.toNat = m.data.length

section Acceptance

variable {s : List (BitVec 8)} {ms : List Member} {t : Member}

/-- What is read right was understood. -/
lemma understood_of_starts (hms : ∀ m ∈ ms, m.WellFormed) (ht : IsTrailer t)
    (h : archive ms t <+: s) {r : Ramfs}
    (hdone : initRamfs s = .done ((ms.flatMap Member.encode).length + 110) r)
    (hstarts : starts s = offsets 0 ms) : ∀ m ∈ ms, Understood m := by
  obtain ⟨⟨a, hend, ha⟩, -⟩ := initRamfs_eq_done.mp hdone
  have hlen : a = (ms.flatMap Member.encode).length := by omega
  rw [hlen] at hend
  exact (scan_archive_iff hms ht h).mp (Prod.ext hstarts hend)

/-- **Acceptance**: `init_ramfs` returns 0 with all members of an archive that fits the tables in
their slots exactly if it understands every member and no search for a parent finds an inode. -/
theorem accepts_iff (hms : ∀ m ∈ ms, m.WellFormed) (htype : ∀ m ∈ ms, memberType m ≠ .invalid)
    (hfits : ∀ m ∈ ms, ∀ c ∈ m.path, c.length ≤ 15) (ht : IsTrailer t) (h : archive ms t <+: s)
    (hlen : ms.length ≤ 256)
    (hdata : ms.countP (fun m => memberType m = .regular ∧ m.data ≠ []) ≤ 128) :
    (∃ r, initRamfs s = .done ((ms.flatMap Member.encode).length + 110) r ∧ Accepted s ms r) ↔
      (∀ m ∈ ms, Understood m) ∧
        Unconfused (ms.mapIdx fun k m => memberEntry m (offset ms k)) := by
  have hreadable : (∀ m ∈ ms, Understood m) → ∀ m ∈ ms, Readable m := fun hun m hm =>
    ⟨hms m hm, hun m hm, hfits m hm⟩
  have hread : ∀ e ∈ entries s, e.Read := fun e he => entries_read he
  constructor
  · rintro ⟨r, hdone, hr⟩
    have hun := understood_of_starts hms ht h hdone hr.starts
    refine ⟨hun, ?_⟩
    have hentries := entries_archive (hreadable hun) ht h
    have hcount := length_entries (hreadable hun) ht h
    rw [← hentries]
    by_contra hconf
    have hwild := (loadAll_cases (by omega) hread).2 hconf
    have hload := (initRamfs_eq_done.mp hdone).2
    rw [hwild] at hload
    exact absurd hload (by simp)
  · rintro ⟨hun, hconf⟩
    have hms' := hreadable hun
    have hcount := length_entries hms' ht h
    rw [← entries_archive hms' ht h] at hconf
    obtain ⟨r, hload, hr⟩ := (loadAll_cases (by omega) hread).1 hconf
    have hscan := scan_archive hms' ht h
    have htypes : ∀ m ∈ ms, memberType m = identType m.mode := fun m hm =>
      memberType_eq (htype m hm) (hun m hm).mode
    have hcarries : ms.countP (CarriesData ·) ≤ 128 := by
      refine le_trans (le_of_eq (List.countP_congr fun m hm => ?_)) hdata
      rw [htypes m hm]
      rfl
    have hslots := fun k m hk => hr.member (k := k) (m := m) hms' ht h hlen hcarries hk
    refine ⟨r, (initRamfs_archive hms' ht h).mpr hload, ?_⟩
    exact {
      starts := congrArg Prod.fst hscan
      type := fun k m hk => by
        rw [htypes m (List.mem_of_getElem? hk)]
        exact (hslots k m hk).1
      name := fun k m hk => (hslots k m hk).2.1
      data := fun k m hk hregular hne => by
        rw [htypes m (List.mem_of_getElem? hk)] at hregular
        exact (hslots k m hk).2.2 ⟨hregular, hne⟩ }

end Acceptance

theorem accepts_iff_oneFile :
    (∃ r, initRamfs (archive oneFile trailer) =
        .done ((oneFile.flatMap Member.encode).length + 110) r ∧
          Accepted (archive oneFile trailer) oneFile r) ↔
      (∀ m ∈ oneFile, Understood m) ∧
        Unconfused (oneFile.mapIdx fun k m => memberEntry m (offset oneFile k)) :=
  accepts_iff (fun m hm => (oneFile_readable m hm).wellFormed) (by decide) (by decide)
    isTrailer_trailer List.prefix_rfl (by decide) (by decide)

/-- An archive of one executable file, with permissions 0755. -/
def executable : List Member :=
  [plainMember (digits 8 1) (digits 8 0x81ED) [[0x61]] [0x2A]]

lemma executable_wellFormed : ∀ m ∈ executable, m.WellFormed := by decide

/-- The code does not load an executable file. -/
theorem accepts_fails :
    (∀ m ∈ executable, m.WellFormed ∧ memberType m ≠ .invalid ∧ m.name ≠ endName ∧
        ∀ c ∈ m.path, c.length ≤ 15) ∧
      IsTrailer trailer ∧ executable.length ≤ 256 ∧
      executable.countP (fun m => memberType m = .regular ∧ m.data ≠ []) ≤ 128 ∧
      ¬ ∃ r, initRamfs (archive executable trailer) =
          .done ((executable.flatMap Member.encode).length + 110) r ∧
            Accepted (archive executable trailer) executable r := by
  refine ⟨fun m hm => ⟨executable_wellFormed m hm, ?_⟩, isTrailer_trailer, by decide, by decide, ?_⟩
  · revert m
    decide
  · rintro ⟨r, hdone, hr⟩
    have hun := understood_of_starts executable_wellFormed isTrailer_trailer List.prefix_rfl hdone
      hr.starts
    exact (hun _ List.mem_cons_self).mode (by decide)

end SkinnyArm
