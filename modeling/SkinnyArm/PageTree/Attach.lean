import SkinnyArm.PageTree.Invariant

/-!
The two ways a page tree grows.

`Attached` describes the memory after one unset entry of a table has been set: every other entry
of every table is as before, and a new table below it is empty.  Then no other path is affected
(`Attached.walk_other`).  From it `Inv.attachFrame` and `Inv.attachAddress` restore the
invariant, for a frame from `kalloc` and for an explicit physical address.
-/

namespace SkinnyArm

open ByteMemory Forest

variable {frames fs : List ℕ} {w : World} {pos : Pos} {t r c f : ℕ} {q : List (Fin 512)}
  {i : Fin 512} {m' : ByteMemory} {va : BitVec 64} {μ : Mapping}

/-! ### What the invariant says about tables -/

namespace Inv

variable (hI : Inv frames w fs pos)
include hI

lemma aligned (hfr : InitialFrames frames) {x : ℕ × List (Fin 512)} (ht : pos t = some x) :
    pageSize ∣ t := hfr.aligned t (hI.mem_frames ht)

/-- A frame on the free list is not part of any tree. -/
lemma pos_free (hf : f ∈ fs) : pos f = none := ((hI.free_iff f).mp hf).2

/-- A frame with a place is not on the free list. -/
lemma notMem_free {x : ℕ × List (Fin 512)} (ht : pos t = some x) : t ∉ fs := fun hf => by
  rw [hI.pos_free hf] at ht
  exact absurd ht (by simp)

/-- The head of the free list gets a place. -/
lemma free_iff_take {x : ℕ × List (Fin 512)} {fs' : List ℕ} (hfs : fs = f :: fs') (g : ℕ) :
    g ∈ fs' ↔ g ∈ frames ∧ Function.update pos f (some x) g = none := by
  subst hfs
  have hnd := List.nodup_cons.mp hI.list.nodup
  rcases eq_or_ne g f with rfl | hgf
  · simp [hnd.1]
  · rw [Function.update_of_ne hgf, ← hI.free_iff g]
    simp [hgf]

lemma mem_frames_take {x : ℕ × List (Fin 512)} {fs' : List ℕ} (hfs : fs = f :: fs') {g : ℕ}
    {y : ℕ × List (Fin 512)} (hg : Function.update pos f (some x) g = some y) : g ∈ frames := by
  subst hfs
  rcases named_of_update hg with ⟨rfl, -⟩ | hg
  · exact ((hI.free_iff g).mp (by simp)).1
  · exact hI.mem_frames hg

/-- The table a walk passes at level `n` has its place. -/
lemma pos_tableAt {n : ℕ} (hr : r ∈ w.roots) (hn : n ≤ 3) (h : tableAt w.mem r va n = some t) :
    pos t = some (r, (path va).take n) :=
  hI.planted.pos_of_walk hr (by rw [take_path_length (by omega)]; exact hn) h

/-- An unset entry belongs to no recorded call. -/
lemma not_recorded (ht : pos t = some (r, q)) (hunset : ¬ IsSet (entry w.mem t i))
    (hμ : μ ∈ w.mapped) : ¬(μ.root = r ∧ path μ.va = q ++ [i]) := by
  rintro ⟨rfl, hpath⟩
  obtain ⟨-, -, t', f, htab, hleaf, -⟩ := hI.mapped μ hμ
  obtain ⟨hq, hi⟩ := List.append_inj' ((path_eq_concat μ.va).symm.trans hpath) rfl
  rw [tableAt, hq, (hI.reached ht).2.2] at htab
  obtain rfl : t = t' := Option.some.inj htab
  obtain rfl : lvlAddr μ.va 3 = i := by simpa using hi
  exact hunset hleaf.isSet

/-- Memories that agree on the tables give the same walks. -/
lemma walk_of_eqOn {m : ByteMemory}
    (hmem : ∀ {t r p}, pos t = some (r, p) → p.length ≤ 3 → Set.EqOn m w.mem (page t))
    (hr : r ∈ w.roots) (hq : q.length ≤ 4) : walk (edge m) r q = walk (edge w.mem) r q :=
  hI.planted.walk_agree (fun _ _ _ _ ht hp => edge_congr (entry_congr (hmem ht hp))) hr hq

lemma mapped_of_eqOn {m : ByteMemory}
    (hmem : ∀ {t r p}, pos t = some (r, p) → p.length ≤ 3 → Set.EqOn m w.mem (page t))
    (hμ : μ ∈ w.mapped) :
    ∃ t f, tableAt m μ.root μ.va 3 = some t ∧ μ.LeafWord f (entry m t (lvlAddr μ.va 3)) ∧
      (μ.pa = 0 → pos f = some (μ.root, path μ.va)) := by
  obtain ⟨hr, -, t, f, htab, hleaf, hpos⟩ := hI.mapped μ hμ
  have ht := hI.pos_tableAt hr le_rfl htab
  have hlen : ((path μ.va).take 3).length = 3 := take_path_length (by omega)
  refine ⟨t, f, (hI.walk_of_eqOn hmem hr (by omega)).trans htab, ?_, hpos⟩
  rwa [entry_congr (hmem ht hlen.le)]

/-- The invariant over other frames, of which those without a place are free. -/
lemma reframe {frames' fs' : List ℕ} {k' : Kernel} (hlist : FreeList k' fs')
    (hfree : ∀ f, f ∈ fs' ↔ f ∈ frames' ∧ pos f = none)
    (hnamed : ∀ {f x}, pos f = some x → f ∈ frames')
    (hmem : ∀ {t r p}, pos t = some (r, p) → p.length ≤ 3 → Set.EqOn k'.mem w.mem (page t)) :
    Inv frames' { w with kernel := k' } fs' pos where
  list := hlist
  free_iff := hfree
  mem_frames := hnamed
  planted := hI.planted.prune fun t r p i c ht hp hc => by
    rwa [edge_congr (entry_congr (hmem ht hp.le))] at hc
  reached hf := by
    obtain ⟨hr, hp, hw⟩ := hI.reached hf
    exact ⟨hr, hp, (hI.walk_of_eqOn hmem hr hp).trans hw⟩
  leaf := hI.leaf
  mapped μ hμ := ⟨(hI.mapped μ hμ).1, (hI.mapped μ hμ).2.1, hI.mapped_of_eqOn hmem hμ⟩
  recorded hr hf := hI.recorded hr ((hI.walk_of_eqOn hmem hr (by rw [path_length])).symm.trans hf)
  unset ht hp hunset := by
    simp only [World.mem] at hunset ⊢
    rw [entry_congr (hmem ht hp)] at hunset ⊢
    exact hI.unset ht hp hunset
  once := hI.once
  inner ht hp hset := by
    simp only [World.mem] at hset ⊢
    rw [entry_congr (hmem ht hp.le)] at hset ⊢
    exact hI.inner ht hp hset
  nodup := hI.nodup

/-- The invariant does not depend on memory outside the tables and the list. -/
lemma of_eqOn {k' : Kernel} (hlist : FreeList k' fs)
    (hmem : ∀ {t r p}, pos t = some (r, p) → p.length ≤ 3 → Set.EqOn k'.mem w.mem (page t)) :
    Inv frames { w with kernel := k' } fs pos :=
  hI.reframe hlist hI.free_iff hI.mem_frames hmem

end Inv

/-! ### One entry set -/

/-- The memory `m'` after the unset entry `i` of the table `t` has been set to lead to `c`. -/
structure Attached (w : World) (pos : Pos) (m' : ByteMemory) (t : ℕ) (i : Fin 512) (c : ℕ) :
    Prop where
  unset : ¬ IsSet (entry w.mem t i)
  new : edge m' t i = some c
  other : ∀ {t' x j}, pos t' = some x → ¬(t' = t ∧ j = i) → entry m' t' j = entry w.mem t' j

namespace Attached

variable (hI : Inv frames w fs pos) (ha : Attached w pos m' t i c) (ht : pos t = some (r, q))
  (hq : q.length ≤ 3) (hempty : q.length < 3 → ∀ j, edge m' c j = none)
include hI ha ht hq

/-- The new path. -/
lemma walk_self : walk (edge m') r (q ++ [i]) = some c :=
  hI.planted.walk_attach_self (hI.reached ht).1 ht (hI.reached ht).2.2 hq
    (fun _ _ _ _ h _ hne => edge_congr (ha.other h hne)) ha.new

/-- The table itself is still reached. -/
lemma walk_to_changed : walk (edge m') r q = some t :=
  hI.planted.walk_to_changed (hI.reached ht).1 ht (hI.reached ht).2.2 hq
    (fun _ _ _ _ h _ hne => edge_congr (ha.other h hne))

include hempty

/-- No other path is affected. -/
lemma walk_other {r' : ℕ} {p : List (Fin 512)} (hr' : r' ∈ w.roots) (hp : p.length ≤ 4)
    (hne : ¬(r' = r ∧ p = q ++ [i])) : walk (edge m') r' p = walk (edge w.mem) r' p :=
  hI.planted.walk_attach (hI.reached ht).1 ht (hI.reached ht).2.2 hq
    (fun _ _ _ _ h _ hne => edge_congr (ha.other h hne)) (edge_eq_none.mpr ha.unset) ha.new
    hempty hr' hp hne

/-- Every walk that arrived still arrives. -/
lemma walk_mono {r' g : ℕ} {p : List (Fin 512)} (hr' : r' ∈ w.roots) (hp : p.length ≤ 4)
    (hw : walk (edge w.mem) r' p = some g) : walk (edge m') r' p = some g := by
  rw [ha.walk_other hI ht hq hempty hr' hp, hw]
  rintro ⟨rfl, rfl⟩
  rw [walk_concat, (hI.reached ht).2.2] at hw
  exact absurd hw (by simp [edge_eq_none.mpr ha.unset])

/-- The translation of the pages off the new path. -/
lemma translate_other {r' : ℕ} {va : BitVec 64} (hr' : r' ∈ w.roots)
    (hne : ¬(r' = r ∧ path va = q ++ [i])) : translate m' r' va = translate w.mem r' va :=
  ha.walk_other hI ht hq hempty hr' (by rw [path_length]) hne

/-- A table set above the last level changes no translation. -/
lemma translate_inner {r' : ℕ} {va : BitVec 64} (hr' : r' ∈ w.roots) (hlt : q.length < 3) :
    translate m' r' va = translate w.mem r' va := by
  refine ha.translate_other hI ht hq hempty hr' ?_
  rintro ⟨-, hpath⟩
  have hlen := congrArg List.length hpath
  rw [path_length, List.length_append, List.length_singleton] at hlen
  omega

/-- What the recorded calls left is still there. -/
lemma mapped_kept (hμ : μ ∈ w.mapped) :
    ∃ t f, tableAt m' μ.root μ.va 3 = some t ∧ μ.LeafWord f (entry m' t (lvlAddr μ.va 3)) ∧
      (μ.pa = 0 → pos f = some (μ.root, path μ.va)) := by
  obtain ⟨hroot, hpa, t', f, htab, hleaf, hpos⟩ := hI.mapped μ hμ
  have htp := hI.pos_tableAt hroot le_rfl htab
  refine ⟨t', f, ha.walk_mono hI ht hq hempty hroot ?_ htab, ?_, hpos⟩
  · rw [take_path_length (by omega)]
    omega
  · rw [ha.other htp]
    · exact hleaf
    · rintro ⟨rfl, rfl⟩
      exact ha.unset hleaf.isSet

end Attached

/-! ### The memory after the two kinds of growth -/

/-- A frame from `kalloc` put into an unset entry. -/
lemma Inv.attached_frame (hI : Inv frames w fs pos) (hfr : InitialFrames frames) {k' : Kernel}
    {pentry : BitVec 64} (hk : w.kernel.kalloc = some (f, k')) (ht : pos t = some (r, q))
    (hunset : ¬ IsSet (entry w.mem t i)) (hset : IsSet pentry) (hframe : frameOf pentry = f) :
    Attached w pos (setEntry k'.mem t i pentry) t i f ∧
      ∀ j, entry (setEntry k'.mem t i pentry) f j = 0 := by
  obtain ⟨rest, rfl, -⟩ := hI.list.kalloc hk
  obtain ⟨-, -, rfl⟩ := Kernel.kalloc_eq_some hk
  have hfpos : pos f = none := hI.pos_free (by simp)
  have hfal : pageSize ∣ f := hI.list.aligned f (by simp)
  have hne : ∀ {t' x}, pos t' = some x → t' ≠ f := by
    rintro t' x hx rfl
    rw [hfpos] at hx
    exact absurd hx (by simp)
  have htal := hI.aligned hfr ht
  refine ⟨⟨hunset, ?_, fun {t' x j} hx hslot => ?_⟩, fun j => ?_⟩
  · rw [edge_of_isSet] <;> simp [hframe, hset]
  · rw [entry_setEntry htal (hI.aligned hfr hx) hslot]
    exact entry_of_eqOn_page clear_eqOn (hI.aligned hfr hx) hfal (hne hx)
  · rw [entry_setEntry htal hfal fun h => hne ht h.1.symm]
    exact entry_clear_self

/-- An explicit physical address put into an unset entry. -/
lemma Inv.attached_address (hI : Inv frames w fs pos) (hfr : InitialFrames frames)
    {pentry : BitVec 64} (ht : pos t = some (r, q)) (hunset : ¬ IsSet (entry w.mem t i))
    (hset : IsSet pentry) :
    Attached w pos (setEntry w.mem t i pentry) t i (frameOf pentry) := by
  refine ⟨hunset, ?_, fun {t' x j} hx hslot => ?_⟩
  · rw [edge_of_isSet] <;> simp [hset]
  · exact entry_setEntry (hI.aligned hfr ht) (hI.aligned hfr hx) hslot

/-! ### The records after growth -/

/-- The records after an entry of a table at the path `q` was set for the frame `f`: above the
last level none is added, at it the call with its `pa` is. -/
inductive Recorded (w : World) (r : ℕ) (q : List (Fin 512)) (i : Fin 512) (pa : BitVec 64) (f : ℕ)
    (pentry : BitVec 64) : List Mapping → Prop
  | inner (hq : q.length < 3) (hword : pentry = pgdpudEntry 0 (BitVec.ofNat 64 f)) :
      Recorded w r q i pa f pentry w.mapped
  | leaf {μ : Mapping} (hq : q.length = 3) (hroot : μ.root = r) (hpath : path μ.va = q ++ [i])
      (hpa : μ.pa = pa) (hlt : pa.toNat < 2 ^ 36) (hword : μ.LeafWord f pentry) :
      Recorded w r q i pa f pentry (μ :: w.mapped)

variable {mapped' : List Mapping} {pa pentry : BitVec 64}

lemma Recorded.subset (h : Recorded w r q i pa f pentry mapped') : ∀ μ ∈ w.mapped, μ ∈ mapped' := by
  cases h with
  | inner => exact fun _ h => h
  | leaf => exact fun _ h => List.mem_cons_of_mem _ h

namespace Attached

variable (hI : Inv frames w fs pos) (ha : Attached w pos m' t i c) (ht : pos t = some (r, q))
  (hq : q.length ≤ 3) (hempty : q.length < 3 → ∀ j, edge m' c j = none)
  (hrec : Recorded w r q i pa f pentry mapped')
include hI ha ht hq hempty hrec

/-- Every call on record left its leaf word. -/
lemma mapped_attach {pos' : Pos} (hkeep : ∀ {g x}, pos g = some x → pos' g = some x)
    (hnew : pa = 0 → pos' f = some (r, q ++ [i]))
    (hword : entry m' t i = pentry) (μ : Mapping) (hμ : μ ∈ mapped') :
    μ.root ∈ w.roots ∧ μ.pa.toNat < 2 ^ 36 ∧
      ∃ t f, tableAt m' μ.root μ.va 3 = some t ∧ μ.LeafWord f (entry m' t (lvlAddr μ.va 3)) ∧
        (μ.pa = 0 → pos' f = some (μ.root, path μ.va)) := by
  by_cases hold : μ ∈ w.mapped
  · obtain ⟨t', f', htab, hleaf, hpos⟩ := ha.mapped_kept hI ht hq hempty hold
    obtain ⟨hroot, hpa, -⟩ := hI.mapped μ hold
    exact ⟨hroot, hpa, t', f', htab, hleaf, fun h0 => hkeep (hpos h0)⟩
  · cases hrec with
    | inner => exact absurd hμ hold
    | @leaf μ' hq3 hroot hpath hpa hlt hleaf =>
        obtain rfl : μ = μ' := (List.mem_cons.mp hμ).resolve_right hold
        have htake : (path μ.va).take 3 = q ∧ lvlAddr μ.va 3 = i := by
          rw [show path μ.va = (path μ.va).take 3 ++ [lvlAddr μ.va 3] from rfl] at hpath
          simpa using List.append_inj' hpath rfl
        refine ⟨hroot ▸ (hI.reached ht).1, hpa ▸ hlt, t, f, ?_, ?_, fun h0 => ?_⟩
        · rw [tableAt, htake.1, hroot]
          exact ha.walk_to_changed hI ht hq
        · rw [htake.2, hword]
          exact hleaf
        · rw [hroot, hpath]
          exact hnew (hpa ▸ h0)

/-- Every translated page is on record. -/
lemma recorded_attach {r' g : ℕ} {va : BitVec 64} (hr' : r' ∈ w.roots)
    (hg : translate m' r' va = some g) : ∃ μ ∈ mapped', μ.root = r' ∧ vpn μ.va = vpn va := by
  by_cases hnew : r' = r ∧ path va = q ++ [i]
  · obtain ⟨rfl, hpath⟩ := hnew
    have hlen := congrArg List.length hpath
    rw [path_length, List.length_append, List.length_singleton] at hlen
    cases hrec with
    | inner => omega
    | leaf _ hroot hpath' =>
        exact ⟨_, List.mem_cons_self, hroot, path_eq_iff.mp (hpath'.trans hpath.symm)⟩
  · rw [ha.translate_other hI ht hq hempty hr' hnew] at hg
    obtain ⟨μ, hμ, h⟩ := hI.recorded hr' hg
    exact ⟨μ, hrec.subset μ hμ, h⟩

end Attached

namespace Attached

variable (hI : Inv frames w fs pos) (ha : Attached w pos m' t i c) (ht : pos t = some (r, q))
  (hrec : Recorded w r q i pa f pentry mapped')
include hI ha ht hrec

/-- No page is on record twice. -/
lemma once_attach (μ : Mapping) (hμ : μ ∈ mapped') (ν : Mapping) (hν : ν ∈ mapped')
    (hroot : μ.root = ν.root) (hvpn : vpn μ.va = vpn ν.va) : μ = ν := by
  cases hrec with
  | inner => exact hI.once μ hμ ν hν hroot hvpn
  | @leaf κ _ hκroot hκpath =>
      -- the new page had no entry, so it is not the page of an older call
      have hfresh : ∀ ν ∈ w.mapped, ¬(ν.root = κ.root ∧ vpn ν.va = vpn κ.va) := by
        rintro ν hν ⟨hr, hv⟩
        refine hI.not_recorded ht ha.unset hν ⟨hr.trans hκroot, ?_⟩
        exact (path_eq_iff.mpr hv).trans hκpath
      rcases List.mem_cons.mp hμ with rfl | hμ' <;> rcases List.mem_cons.mp hν with rfl | hν'
      · rfl
      · exact absurd ⟨hroot.symm, hvpn.symm⟩ (hfresh ν hν')
      · exact absurd ⟨hroot, hvpn⟩ (hfresh μ hμ')
      · exact hI.once μ hμ' ν hν' hroot hvpn

/-- The entries above the last level are table entries. -/
lemma inner_attach (hword : entry m' t i = pentry) {t' : ℕ} {x : ℕ × List (Fin 512)}
    {j : Fin 512} (ht' : pos t' = some x) (hp : x.2.length < 3) (hj : IsSet (entry m' t' j)) :
    ∃ g, entry m' t' j = pgdpudEntry 0 (BitVec.ofNat 64 g) := by
  by_cases hslot : t' = t ∧ j = i
  · obtain ⟨rfl, rfl⟩ := hslot
    rw [ht, Option.some.injEq] at ht'
    subst ht'
    cases hrec with
    | inner _ hword' => exact ⟨f, hword.trans hword'⟩
    | leaf hq => exact absurd hp (by simp only; omega)
  · rw [ha.other ht' hslot] at hj ⊢
    exact hI.inner ht' hp hj

omit hrec ht in
/-- Unset entries are still zero. -/
lemma unset_attach {t' : ℕ} {x : ℕ × List (Fin 512)} {j : Fin 512} (ht' : pos t' = some x)
    (hp : x.2.length ≤ 3) (hj : ¬ IsSet (entry m' t' j)) : entry m' t' j = 0 := by
  by_cases hslot : t' = t ∧ j = i
  · obtain ⟨rfl, rfl⟩ := hslot
    exact absurd (edge_eq_some.mp ha.new).1 hj
  · rw [ha.other ht' hslot] at hj ⊢
    exact hI.unset ht' hp hj

omit hrec in
/-- An entry of the last level leads to no table. -/
lemma planted_last (hq : 3 ≤ q.length) : Planted (edge m') 3 {r | r ∈ w.roots} pos := by
  refine hI.planted.prune fun t' r' q' j c' h hlen hc => ?_
  rw [edge_congr (ha.other h ?_)] at hc
  · exact hc
  · rintro ⟨rfl, -⟩
    rw [ht, Option.some.injEq, Prod.mk.injEq] at h
    rw [← h.2] at hlen
    omega

end Attached

/-! ### The invariant after growth -/

/-- The free list does not depend on a table. -/
lemma FreeList.setEntry {k : Kernel} (h : FreeList k fs) (ht : pageSize ∣ t) (hfree : t ∉ fs) :
    FreeList { k with mem := SkinnyArm.setEntry k.mem t i pentry } fs := by
  refine h.of_eqOn rfl fun g hg => setEntry_eqOn.mono ?_
  exact (page_disjoint (h.aligned g hg) ht fun hgt => hfree (hgt ▸ hg)).subset_compl_right

/-- The free list after `kalloc` and a write to a table. -/
lemma Inv.list_attachFrame (hI : Inv frames w (f :: fs) pos) (hfr : InitialFrames frames)
    {k' : Kernel} (hk : w.kernel.kalloc = some (f, k')) (ht : pos t = some (r, q)) :
    FreeList { k' with mem := setEntry k'.mem t i pentry } fs := by
  obtain ⟨rest, hcons, hrest⟩ := hI.list.kalloc hk
  obtain ⟨-, rfl⟩ := List.cons.inj hcons
  exact hrest.setEntry (hI.aligned hfr ht) fun hf =>
    hI.notMem_free ht (List.mem_cons_of_mem _ hf)

/-- **A frame attached**: a table above the last level, or a recorded leaf at it. -/
lemma Inv.attachFrame (hI : Inv frames w (f :: fs) pos) (hfr : InitialFrames frames)
    {k' : Kernel} (hk : w.kernel.kalloc = some (f, k')) (ht : pos t = some (r, q))
    (hq : q.length ≤ 3) (hunset : ¬ IsSet (entry w.mem t i)) (hset : IsSet pentry)
    (hframe : frameOf pentry = f) (hrec : Recorded w r q i 0 f pentry mapped') :
    Inv frames
      { w with kernel := { k' with mem := setEntry k'.mem t i pentry }, mapped := mapped' } fs
      (Function.update pos f (some (r, q ++ [i]))) := by
  obtain ⟨ha, hzero⟩ := hI.attached_frame hfr hk ht hunset hset hframe
  have hempty : q.length < 3 → ∀ j, edge (setEntry k'.mem t i pentry) f j = none :=
    fun _ j => edge_eq_none.mpr (by rw [hzero]; exact not_isSet_zero)
  have hfpos : pos f = none := hI.pos_free (by simp)
  constructor
  case list => exact hI.list_attachFrame hfr hk ht
  case free_iff => exact hI.free_iff_take rfl
  case mem_frames => exact hI.mem_frames_take rfl
  case planted =>
    rcases Nat.lt_or_ge q.length 3 with hlt | hge
    · exact hI.planted.graft hfpos ht
        (fun t' _ _ _ h _ hne => edge_congr (ha.other h hne)) ha.new (hempty hlt)
    · exact (ha.planted_last hI ht hge).relabel hfpos (by simp; omega)
  case reached =>
    intro g r' p hg
    rcases named_of_update hg with ⟨rfl, hx⟩ | hg
    · obtain ⟨rfl, rfl⟩ := Prod.mk.inj hx
      refine ⟨(hI.reached ht).1, ?_, ha.walk_self hI ht hq⟩
      simp only [List.length_append, List.length_singleton]
      omega
    · obtain ⟨hr', hp, hw⟩ := hI.reached hg
      exact ⟨hr', hp, ha.walk_mono hI ht hq hempty hr' hp hw⟩
  case leaf =>
    intro g r' p hg hp
    rcases named_of_update hg with ⟨rfl, hx⟩ | hg
    · obtain ⟨rfl, rfl⟩ := Prod.mk.inj hx
      simp only [List.length_append, List.length_singleton] at hp
      cases hrec with
      | inner => omega
      | leaf _ hroot hpath hpa => exact ⟨_, List.mem_cons_self, hroot, hpath, hpa⟩
    · obtain ⟨μ, hμ, h⟩ := hI.leaf hg hp
      exact ⟨μ, hrec.subset μ hμ, h⟩
  case mapped =>
    exact ha.mapped_attach hI ht hq hempty hrec (update_named hfpos) (fun _ => by simp) (by simp)
  case recorded => exact fun hr' hg => ha.recorded_attach hI ht hq hempty hrec hr' hg
  case once => exact ha.once_attach hI ht hrec
  case inner =>
    intro t' r' p j ht' hp hj
    rcases named_of_update ht' with ⟨rfl, -⟩ | hold
    · exact absurd hj (by simp only [World.mem, hzero]; exact not_isSet_zero)
    · exact ha.inner_attach hI ht hrec (by simp) hold hp hj
  case unset =>
    intro t' r' p j ht' hp hj
    rcases named_of_update ht' with ⟨rfl, -⟩ | hold
    · exact hzero j
    · exact ha.unset_attach hI hold hp hj
  case nodup => exact hI.nodup

/-- **An explicit address attached**: a recorded leaf at the last level. -/
lemma Inv.attachAddress (hI : Inv frames w fs pos) (hfr : InitialFrames frames)
    (ht : pos t = some (r, q)) (hq : q.length = 3) (hunset : ¬ IsSet (entry w.mem t i))
    (hset : IsSet pentry) (hpa : pa ≠ 0) (hrec : Recorded w r q i pa f pentry mapped') :
    Inv frames
      { w with
        kernel := { w.kernel with mem := setEntry w.mem t i pentry }, mapped := mapped' } fs
      pos := by
  have ha := hI.attached_address hfr ht hunset hset
  have hempty : q.length < 3 → ∀ j, edge (setEntry w.mem t i pentry) (frameOf pentry) j = none :=
    fun h => absurd h (by omega)
  constructor
  case list => exact hI.list.setEntry (hI.aligned hfr ht) (hI.notMem_free ht)
  case free_iff => exact hI.free_iff
  case mem_frames => exact hI.mem_frames
  case planted =>
    have hlast := ha.planted_last hI ht hq.ge
    exact hlast
  case reached =>
    intro g r' p hg
    obtain ⟨hr', hp, hw⟩ := hI.reached hg
    exact ⟨hr', hp, ha.walk_mono hI ht hq.le hempty hr' hp hw⟩
  case leaf =>
    intro g r' p hg hp
    obtain ⟨μ, hμ, h⟩ := hI.leaf hg hp
    exact ⟨μ, hrec.subset μ hμ, h⟩
  case mapped =>
    exact ha.mapped_attach hI ht hq.le hempty hrec id (fun h0 => absurd h0 hpa) (by simp)
  case recorded => exact fun hr' hg => ha.recorded_attach hI ht hq.le hempty hrec hr' hg
  case once => exact ha.once_attach hI ht hrec
  case inner => exact fun ht' hp hj => ha.inner_attach hI ht hrec (by simp) ht' hp hj
  case unset => exact fun ht' hp hj => ha.unset_attach hI ht' hp hj
  case nodup => exact hI.nodup

end SkinnyArm
