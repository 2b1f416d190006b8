import SkinnyArm.PageTree.Run

/-!
The two ways `get_physical_page` sets a leaf entry.

* Given an address it builds the entry with `explicitEntry`, without one it takes a frame and builds
  it with `allocatedEntry`; for the device and the user kind these are the same
  (`explicitEntry_eq_allocatedEntry`), for the kernel kind they are not
  (`pgdpudEntry_ne_kernelEntry`).
* So on an allocator whose next frame is the given one, both ways leave the same page tables exactly
  if the kind is not the kernel's (`leafPaths_agree_iff`).
-/

namespace SkinnyArm

open ByteMemory Forest

variable {frames fs : List ℕ} {w : World} {pos : Pos} {m m' : ByteMemory} {root t f : ℕ}
  {va pentry pentry' : BitVec 64} {kind : BitVec 8} {k' : Kernel}

/-! ### The entries -/

/-- The two switches agree on the device and the user kind. -/
lemma explicitEntry_eq_allocatedEntry (hkind : kind ≠ 0) :
    explicitEntry kind (BitVec.ofNat 64 f) = allocatedEntry 3 kind f := by
  have hnat : kind.toNat ≠ 0 := fun h => hkind (BitVec.eq_of_toNat_eq h)
  unfold explicitEntry allocatedEntry
  split
  case h_1 h0 => exact absurd h0 hnat
  case h_2 => simp
  case h_3 => simp
  case h_4 => simp

/-- On the kernel kind they differ: the table entry is executable by the kernel, the page entry is
not. -/
lemma pgdpudEntry_ne_kernelEntry (pa : BitVec 64) : pgdpudEntry 0 pa ≠ kernelEntry 0 pa := by
  intro h
  have hbit := congrArg (fun e : BitVec 64 => e.getLsbD 53) h
  simp only [pgdpudEntry, kernelEntry, setKNonExec, setKExec] at hbit
  rw [getLsbD_setBit_zero (by omega), getLsbD_setBit_one (by omega)] at hbit
  simp at hbit

/-! ### The tables -/

/-- The same tables under the given roots, with the same entries. -/
structure SameTables (roots : List ℕ) (m m' : ByteMemory) : Prop where
  walk_eq : ∀ r ∈ roots, ∀ q : List (Fin 512), q.length ≤ 3 →
    walk (edge m') r q = walk (edge m) r q
  entry_eq : ∀ r ∈ roots, ∀ q : List (Fin 512), q.length ≤ 3 → ∀ t,
    walk (edge m) r q = some t → ∀ i, entry m' t i = entry m t i

/-- The call with the address `f` and the call on an allocator whose next frame is `f` return the
same address, leave the same tables, and the same bits beside the address in the leaf. -/
structure LeafPathsAgree (w : World) (root : ℕ) (va : BitVec 64) (f : ℕ) (kind : BitVec 8) :
    Prop where
  result : (w.kernel.getPhysicalPage root va (BitVec.ofNat 64 f) kind).2 =
    (w.kernel.getPhysicalPage root va 0 kind).2
  tables : SameTables w.roots (w.kernel.getPhysicalPage root va (BitVec.ofNat 64 f) kind).1.mem
    (w.kernel.getPhysicalPage root va 0 kind).1.mem
  flags : ∀ t, tableAt w.mem root va 3 = some t → ∀ i, ¬(12 ≤ i ∧ i < 48) →
    (entry (w.kernel.getPhysicalPage root va (BitVec.ofNat 64 f) kind).1.mem t
      (lvlAddr va 3)).getLsbD i =
    (entry (w.kernel.getPhysicalPage root va 0 kind).1.mem t (lvlAddr va 3)).getLsbD i

/-- Setting a leaf entry changes no table above. -/
lemma Attached.walk_tables {q : List (Fin 512)} {i : Fin 512} {c : ℕ} (hI : Inv frames w fs pos)
    (ha : Attached w pos m' t i c) (ht : pos t = some (root, q)) (hq : q.length = 3) {r : ℕ}
    (hr : r ∈ w.roots) {p : List (Fin 512)} (hp : p.length ≤ 3) :
    walk (edge m') r p = walk (edge w.mem) r p := by
  refine ha.walk_other hI ht hq.le (fun h => absurd h (by omega)) hr (by omega) ?_
  rintro ⟨-, rfl⟩
  simp only [List.length_append, List.length_singleton] at hp
  omega

section Leaf

variable (hI : Inv frames w fs pos) (hfr : InitialFrames frames)
  (hlt : ∀ f ∈ frames, f < 2 ^ 36) (hr : root ∈ w.roots) (ht : tableAt w.mem root va 3 = some t)
  (hunset : ¬ IsSet (entry w.mem t (lvlAddr va 3))) (hk : w.kernel.kalloc = some (f, k'))
include hI hlt ht hunset hk

/-- The call with the address sets the entry for it. -/
lemma Inv.leaf_explicit (hentry : explicitEntry kind (BitVec.ofNat 64 f) = some pentry) :
    w.kernel.getPhysicalPage root va (BitVec.ofNat 64 f) kind =
      ({ w.kernel with mem := setEntry w.mem t (lvlAddr va 3) pentry }, f) := by
  have hf : f < 2 ^ 36 := hI.lt_of_kalloc hlt hk
  have hne : BitVec.ofNat 64 f ≠ 0 := by
    intro h0
    have hnat := congrArg BitVec.toNat h0
    rw [BitVec.toNat_ofNat, Nat.mod_eq_of_lt (by omega)] at hnat
    exact (Kernel.kalloc_eq_some hk).2.1 hnat
  rw [getPhysicalPage_of_tableAt ht]
  simp only [getPhysicalPageFrom, getPhysicalPageLevel, hunset, not_false_eq_true, if_true, hne,
    ne_eq, and_self, hentry, BitVec.toNat_ofNat]
  rw [Nat.mod_eq_of_lt (by omega)]

/-- The call without an address takes the frame and sets the entry for it. -/
lemma Inv.leaf_allocated (hentry : allocatedEntry 3 kind f = some pentry) :
    w.kernel.getPhysicalPage root va 0 kind =
      ({ k' with mem := setEntry k'.mem t (lvlAddr va 3) pentry }, f) := by
  have hframe : frameOf pentry = f := (allocatedEntry_frame hentry (hI.lt_of_kalloc hlt hk)).2
  rw [getPhysicalPage_of_tableAt ht]
  simp [getPhysicalPageFrom, getPhysicalPageLevel, hunset, hk, hentry, hframe]

include hfr hr

omit hlt in
/-- With the same entry both ways leave the same tables. -/
lemma Inv.sameTables_leaf (hset : IsSet pentry) (hframe : frameOf pentry = f) :
    SameTables w.roots (setEntry w.mem t (lvlAddr va 3) pentry)
      (setEntry k'.mem t (lvlAddr va 3) pentry) := by
  have hpos := hI.pos_tableAt hr le_rfl ht
  have hlen : ((path va).take 3).length = 3 := take_path_length (by omega)
  have hexplicit := hI.attached_address hfr hpos hunset hset
  obtain ⟨hallocated, -⟩ := hI.attached_frame hfr hk hpos hunset hset hframe
  constructor
  case walk_eq =>
    intro r hr' q hq
    calc walk (edge (setEntry k'.mem t (lvlAddr va 3) pentry)) r q
        = walk (edge w.mem) r q := hallocated.walk_tables hI hpos hlen hr' hq
      _ = walk (edge (setEntry w.mem t (lvlAddr va 3) pentry)) r q :=
          (hexplicit.walk_tables hI hpos hlen hr' hq).symm
  case entry_eq =>
    intro r hr' q hq t' hw i
    rw [hexplicit.walk_tables hI hpos hlen hr' hq] at hw
    have ht' := hI.planted.pos_of_walk hr' hq hw
    by_cases hslot : t' = t ∧ i = lvlAddr va 3
    · obtain ⟨rfl, rfl⟩ := hslot
      rw [entry_setEntry_self, entry_setEntry_self]
    · rw [hallocated.other ht' hslot, hexplicit.other ht' hslot]

/-- **The device and the user kind**: both ways do the same. -/
lemma Inv.leafPaths_agree (hkind : kind.toNat < 3) (hne : kind ≠ 0) :
    LeafPathsAgree w root va f kind := by
  obtain ⟨pentry, hentry⟩ : ∃ pentry, allocatedEntry 3 kind f = some pentry := by
    cases h : allocatedEntry 3 kind f with
    | none => exact absurd (allocatedEntry_eq_none h) (by omega)
    | some pentry => exact ⟨pentry, rfl⟩
  obtain ⟨hset, hframe⟩ := allocatedEntry_frame hentry (hI.lt_of_kalloc hlt hk)
  have hexplicit := hI.leaf_explicit hlt ht hunset hk
    ((explicitEntry_eq_allocatedEntry hne).trans hentry)
  have hallocated := hI.leaf_allocated hlt ht hunset hk hentry
  constructor
  case result => rw [hexplicit, hallocated]
  case tables =>
    rw [hexplicit, hallocated]
    exact hI.sameTables_leaf hfr hr ht hunset hk hset hframe
  case flags =>
    intro t' ht' i _
    obtain rfl : t = t' := Option.some.inj (ht.symm.trans ht')
    rw [hexplicit, hallocated, entry_setEntry_self, entry_setEntry_self]

/-- **The kernel kind**: the two leaf entries differ. -/
lemma Inv.not_leafPaths_agree : ¬ LeafPathsAgree w root va f 0 := by
  intro h
  have hexplicit := hI.leaf_explicit hlt ht hunset hk
    (show explicitEntry 0 (BitVec.ofNat 64 f) = some (pgdpudEntry 0 (BitVec.ofNat 64 f)) from rfl)
  have hallocated := hI.leaf_allocated hlt ht hunset hk
    (show allocatedEntry 3 0 f = some (kernelEntry 0 (BitVec.ofNat 64 f)) from rfl)
  have hpos := hI.pos_tableAt hr le_rfl ht
  have hset : IsSet (pgdpudEntry 0 (BitVec.ofNat 64 f)) := holds_pgdpudEntry.isSet
  have hattached := hI.attached_address hfr hpos hunset hset
  have hwalk := hattached.walk_to_changed hI hpos (take_path_length (by omega)).le
  have hsame := h.tables.entry_eq root hr ((path va).take 3) (take_path_length (by omega)).le t
  rw [hexplicit, hallocated] at hsame
  have hleaf := hsame hwalk (lvlAddr va 3)
  rw [entry_setEntry_self, entry_setEntry_self] at hleaf
  exact pgdpudEntry_ne_kernelEntry _ hleaf.symm

end Leaf

/-- **The two ways to a leaf** leave the same page tables exactly if the kind is not the
kernel's. -/
theorem leafPaths_agree_iff (b : Boot) (hw : b.Reaches w) (hr : root ∈ w.roots)
    (ht : tableAt w.mem root va 3 = some t) (hunset : ¬ IsSet (entry w.mem t (lvlAddr va 3)))
    (hkind : kind.toNat < 3) (hk : w.kernel.kalloc = some (f, k')) :
    LeafPathsAgree w root va f kind ↔ kind ≠ 0 := by
  obtain ⟨fs, pos, hI⟩ := hw.inv
  refine ⟨?_, hI.leafPaths_agree b.initial b.lt hr ht hunset hk hkind⟩
  rintro h rfl
  exact hI.not_leafPaths_agree b.initial b.lt hr ht hunset hk h

/-! ### A leaf of the small world -/

/-- The leaf entry of a page that is not translated is not set. -/
lemma not_isSet_of_translate {m : ByteMemory} (ht : tableAt m root va 3 = some t)
    (hnone : translate m root va = none) : ¬ IsSet (entry m t (lvlAddr va 3)) := by
  rw [← tableAt_four, tableAt_succ (by omega), ht] at hnone
  exact edge_eq_none.mp hnone

/-- A page that shares the tables of the one mapped has no entry there, and frames are left. -/
lemma smallMapped_sibling {va va' : BitVec 64} (htables : (path va').take 3 = (path va).take 3)
    (hne : path va' ≠ path va) : ∃ t f k',
    tableAt (smallMapped va 0xB000).mem 4096 va' 3 = some t ∧
      ¬ IsSet (entry (smallMapped va 0xB000).mem t (lvlAddr va' 3)) ∧
      (smallMapped va 0xB000).kernel.kalloc = some (f, k') := by
  obtain ⟨⟨fs, pos, hI, hlen⟩, ⟨g, hg, -⟩, hstop, -⟩ := smallMapped_spec va smallPage_lt
  obtain ⟨t, ht⟩ := exists_walk_of_prefix hg (List.take_prefix 3 (path va))
  have ht' : tableAt (smallMapped va 0xB000).mem 4096 va' 3 = some t := by
    rw [tableAt, htables]
    exact ht
  have hpath : path va' = lvlAddr va' 0 :: (path va').drop 1 := rfl
  have hnone : translate (smallMapped va 0xB000).mem 4096 va' = none := by
    rw [translate, hpath]
    refine hstop _ _ (by rw [List.length_drop, path_length]) fun hpre => hne ?_
    exact List.IsPrefix.eq_of_length (hpath ▸ hpre) (by rw [path_length, path_length])
  obtain ⟨f, k', hk⟩ := exists_kalloc hI (by omega)
  exact ⟨t, f, k', ht', not_isSet_of_translate ht' hnone, hk⟩

/-- The page after the one mapped has its tables and no entry, and frames are left. -/
lemma smallMapped_leaf : ∃ t f k', tableAt (smallMapped 0 0xB000).mem 4096 0x1000 3 = some t ∧
    ¬ IsSet (entry (smallMapped 0 0xB000).mem t (lvlAddr 0x1000 3)) ∧
    (smallMapped 0 0xB000).kernel.kalloc = some (f, k') :=
  smallMapped_sibling (by decide) (by decide)

/-- A page of the user kind. -/
theorem leafPaths_agree_iff_user : ∃ f k',
    (smallMapped 0 0xB000).kernel.kalloc = some (f, k') ∧
      LeafPathsAgree (smallMapped 0 0xB000) 4096 0x1000 f 2 := by
  obtain ⟨t, f, k', ht, hunset, hk⟩ := smallMapped_leaf
  refine ⟨f, k', hk, ?_⟩
  exact (leafPaths_agree_iff smallBoot (smallMapped_reaches 0 smallPage_lt)
    (smallMapped_root 0 0xB000) ht hunset (by decide) hk).mpr (by decide)

/-- A page of the kernel kind. -/
theorem leafPaths_agree_fails :
    smallBoot.Reaches (smallMapped 0 0xB000) ∧ 4096 ∈ (smallMapped 0 0xB000).roots ∧
      ∃ t f k', tableAt (smallMapped 0 0xB000).mem 4096 0x1000 3 = some t ∧
        ¬ IsSet (entry (smallMapped 0 0xB000).mem t (lvlAddr 0x1000 3)) ∧
        (smallMapped 0 0xB000).kernel.kalloc = some (f, k') ∧
        ¬ LeafPathsAgree (smallMapped 0 0xB000) 4096 0x1000 f 0 := by
  obtain ⟨t, f, k', ht, hunset, hk⟩ := smallMapped_leaf
  obtain ⟨⟨fs, pos, hI, -⟩, -⟩ := smallMapped_spec 0 smallPage_lt
  refine ⟨smallMapped_reaches 0 smallPage_lt, smallMapped_root 0 0xB000, t, f, k', ht, hunset, hk,
    ?_⟩
  exact hI.not_leafPaths_agree smallBoot.initial smallBoot.lt (smallMapped_root 0 0xB000) ht hunset
    hk

end SkinnyArm
