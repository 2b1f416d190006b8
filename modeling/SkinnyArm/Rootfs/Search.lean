import SkinnyArm.Rootfs.Contents

/-!
When `search_file` finds the file with the name it is given.

* **What it finds.** `strequal` stops at the end of the stored name, so the search stops at the
  first slot whose name is a prefix of the one searched for (`searchFileBytes_eq_some_iff`); the
  empty name of an unused slot is one of every name, so that some slot is always found
  (`exists_isPrefix`).
* **What it should find.** `ExactSearch`: the first loaded slot with exactly the name, and nothing
  if there is none.
* `exactSearch_iff`: it does so exactly if some loaded slot has the name and no slot before the
  first such one has a proper prefix of it.
-/

namespace SkinnyArm

open Newc

variable {s name : List (BitVec 8)} {b n : ℕ} {r : Ramfs} {i : Slot}

/-- The name in a slot, as a string. -/
def Ramfs.nameOf (r : Ramfs) (i : Slot) : List (BitVec 8) := cstr (r.files i).fileName.bytes

/-- Of the first `n` slots the first one that has exactly the name is found, and none if no such
slot has it. -/
structure ExactSearch (r : Ramfs) (n : ℕ) (name : List (BitVec 8)) : Prop where
  found : ∀ i : Slot, i.val < n → r.nameOf i = cstr name → (∀ j < i, r.nameOf j ≠ cstr name) →
    r.searchFileBytes name = some i
  notFound : (∀ i : Slot, i.val < n → r.nameOf i ≠ cstr name) → r.searchFileBytes name = none

section Loaded

variable (hdone : initRamfs s = .done b r)
include hdone

/-- The search stops at the first name that is a prefix of the one searched for. -/
lemma searchFileBytes_eq_some_iff (hname : 0 ∈ name) : r.searchFileBytes name = some i ↔
    r.nameOf i <+: cstr name ∧ ∀ j < i, ¬ r.nameOf j <+: cstr name := by
  have hocc := occupied_loadAll (initRamfs_eq_done.mp hdone).2
  rw [hocc.searchFileBytes_eq (fun e he => entries_read he) hname, landing, find?_slots_eq_some]
  simp only [decide_eq_true_eq, Ramfs.nameOf, hocc.name]

/-- As long as a slot is unused there is such a name. -/
lemma exists_isPrefix (hlen : (entries s).length < 256) (name : List (BitVec 8)) :
    ∃ i, r.nameOf i <+: cstr name := by
  have hocc := occupied_loadAll (initRamfs_eq_done.mp hdone).2
  have hunused : heldName (entries s) (slot (entries s).length) = fun _ => 0 := by
    rw [heldName, occupant_of_length_le hlen.le, val_slot hlen, List.getElem?_eq_none le_rfl]
    rfl
  have hempty : r.nameOf (slot (entries s).length) = [] := by
    rw [Ramfs.nameOf, hocc.name, hunused]
    rfl
  exact ⟨_, hempty ▸ List.nil_prefix⟩

/-- The search never fails. -/
lemma searchFileBytes_ne_none (hlen : (entries s).length < 256) (hname : 0 ∈ name) :
    r.searchFileBytes name ≠ none := by
  have hocc := occupied_loadAll (initRamfs_eq_done.mp hdone).2
  obtain ⟨i, hi⟩ := exists_isPrefix hdone hlen name
  rw [hocc.searchFileBytes_eq (fun e he => entries_read he) hname, landing]
  intro hnone
  have hnot := find?_slots_eq_none.mp hnone i
  rw [Ramfs.nameOf, hocc.name] at hi
  simp [hi] at hnot

/-- **`search_file`** on the tables of an archive of fewer than 256 entries finds what it should
exactly if some loaded slot has the name, and no slot before it a proper prefix of the name. -/
theorem exactSearch_iff (hlen : (entries s).length < 256) (hname : 0 ∈ name) :
    ExactSearch r (entries s).length name ↔
      ∃ i : Slot, i.val < (entries s).length ∧ r.nameOf i = cstr name ∧
        ∀ j < i, r.nameOf j <+: cstr name → r.nameOf j = cstr name := by
  refine ⟨fun h => ?_, fun h => ?_⟩
  · -- the search does not fail, so some slot has the name
    have hsome : ∃ i : Slot, i.val < (entries s).length ∧ r.nameOf i = cstr name := by
      by_contra hnone
      push Not at hnone
      exact searchFileBytes_ne_none hdone hlen hname (h.notFound hnone)
    obtain ⟨i, ⟨hi, heq⟩, hfirst⟩ := WellFounded.has_min (wellFounded_lt (α := Slot))
      {i | i.val < (entries s).length ∧ r.nameOf i = cstr name} hsome
    have hnone : ∀ j < i, r.nameOf j ≠ cstr name := fun j hj hjeq =>
      hfirst j ⟨lt_trans hj hi, hjeq⟩ hj
    obtain ⟨-, hnoPre⟩ := (searchFileBytes_eq_some_iff hdone hname).mp (h.found i hi heq hnone)
    exact ⟨i, hi, heq, fun j hj hpre => absurd hpre (hnoPre j hj)⟩
  · obtain ⟨i, hi, heq, hbefore⟩ := h
    refine ⟨fun k hk hkeq hkfirst => ?_, fun hnone => absurd heq (hnone i hi)⟩
    rw [searchFileBytes_eq_some_iff hdone hname]
    refine ⟨hkeq ▸ List.prefix_rfl, fun j hj hpre => hkfirst j hj ?_⟩
    have hki : k ≤ i := not_lt.mp fun hik => hkfirst i hik heq
    exact hbefore j (lt_of_lt_of_le hj hki) hpre

end Loaded

/-- The tables of the archive of the directory `a` and the file `a/b`. -/
lemma exists_initRamfs_oneFile :
    ∃ b r, initRamfs (archive oneFile trailer) = .done b r ∧
      (entries (archive oneFile trailer)).length < 256 := by
  have harchive := List.prefix_rfl (l := archive oneFile trailer)
  have hlen := length_entries oneFile_readable isTrailer_trailer harchive
  have hfew : (entries (archive oneFile trailer)).length < 256 := by
    rw [hlen]
    decide
  obtain ⟨r, hr, -⟩ := loadAll_of_lookupsResolve hfew.le oneFile_lookupsResolve
  exact ⟨_, r, (initRamfs_archive oneFile_readable isTrailer_trailer harchive).mpr hr, hfew⟩

/-- A search for `b` there. -/
theorem exactSearch_iff_oneFile : ∃ b r, initRamfs (archive oneFile trailer) = .done b r ∧
    (ExactSearch r (entries (archive oneFile trailer)).length [0x62, 0] ↔
      ∃ i : Slot, i.val < (entries (archive oneFile trailer)).length ∧
        r.nameOf i = cstr [0x62, 0] ∧
        ∀ j < i, r.nameOf j <+: cstr [0x62, 0] → r.nameOf j = cstr [0x62, 0]) := by
  obtain ⟨b, r, hdone, hlen⟩ := exists_initRamfs_oneFile
  exact ⟨b, r, hdone, exactSearch_iff hdone hlen (by decide)⟩

/-- A search for `ab` there, which no file is called, finds the directory `a`. -/
theorem exactSearch_fails : ∃ b r, initRamfs (archive oneFile trailer) = .done b r ∧
    (entries (archive oneFile trailer)).length < 256 ∧ cstr [0x61, 0x62, 0] = [0x61, 0x62] ∧
    r.searchFileBytes [0x61, 0x62, 0] = some 0 ∧ r.nameOf 0 = [0x61] ∧
    ¬ ExactSearch r (entries (archive oneFile trailer)).length [0x61, 0x62, 0] := by
  obtain ⟨b, r, hdone, hlen⟩ := exists_initRamfs_oneFile
  have hentries := entries_archive oneFile_readable isTrailer_trailer
    (List.prefix_rfl (l := archive oneFile trailer))
  have hocc := occupied_loadAll (initRamfs_eq_done.mp hdone).2
  have hname : r.nameOf 0 = [0x61] := by
    rw [Ramfs.nameOf, hocc.name, hentries]
    decide +kernel
  have hfound : r.searchFileBytes [0x61, 0x62, 0] = some 0 := by
    refine (searchFileBytes_eq_some_iff hdone (by decide)).mpr ⟨?_, fun j hj => ?_⟩
    · rw [hname]
      decide
    · exact absurd hj (Fin.not_lt_zero j)
  refine ⟨b, r, hdone, hlen, by decide, hfound, hname, fun h => ?_⟩
  -- no file has the name, so nothing should be found
  have hother : ∀ i : Slot, i.val < (entries (archive oneFile trailer)).length →
      r.nameOf i ≠ cstr [0x61, 0x62, 0] := by
    intro i
    rw [Ramfs.nameOf, hocc.name, hentries]
    revert i
    decide +kernel
  exact absurd ((h.notFound hother).symm.trans hfound) (by simp)

end SkinnyArm
