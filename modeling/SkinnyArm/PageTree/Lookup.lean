import SkinnyArm.PageTree.Attach

/-!
One call of `get_physical_page` on a page tree.

* `Grown` is what the levels above the last one do: they may take frames for new tables, but no
  translation of any root changes.
* `Looked` lists the three ways a call ends: `NULL`, a page that was mapped before, and a page it
  maps.
* **The call** (`Inv.looked`): from a state with the invariant every call ends in one of them, by
  induction on the levels still to go.
-/

namespace SkinnyArm

open ByteMemory Forest

variable {frames fs fs' fs'' : List ℕ} {w : World} {pos : Pos} {t r f n n' i : ℕ} {k' k'' : Kernel}
  {va pa : BitVec 64} {kind : BitVec 8} {result : ℕ}

/-! ### Frames taken off the list -/

/-- At most `n` frames have been taken off the front of a list. -/
def Takes (n : ℕ) (fs fs' : List ℕ) : Prop := ∃ l, fs = l ++ fs' ∧ l.length ≤ n

namespace Takes

lemma refl (fs : List ℕ) : Takes n fs fs := ⟨[], rfl, by simp⟩

lemma one (hn : 1 ≤ n) : Takes n (f :: fs) fs := ⟨[f], rfl, hn⟩

lemma trans (h : Takes n fs fs') (h' : Takes n' fs' fs'') : Takes (n + n') fs fs'' := by
  obtain ⟨l, rfl, hl⟩ := h
  obtain ⟨l', rfl, hl'⟩ := h'
  exact ⟨l ++ l', by simp, by simp only [List.length_append]; omega⟩

lemma length_le (h : Takes n fs fs') : fs.length ≤ n + fs'.length := by
  obtain ⟨l, rfl, hl⟩ := h
  simp only [List.length_append]
  omega

lemma subset (h : Takes n fs fs') : fs' ⊆ fs := by
  obtain ⟨l, rfl, -⟩ := h
  exact List.subset_append_right l fs'

lemma mono (h : Takes n fs fs') (hn : n ≤ n') : Takes n' fs fs' := by
  obtain ⟨l, hfs, hl⟩ := h
  exact ⟨l, hfs, hl.trans hn⟩

end Takes

/-! ### The ways a call ends -/

/-- The bytes of no frame. -/
def outsideFrames (frames : List ℕ) : Set ℕ := {a | ∀ f ∈ frames, a ∉ page f}

lemma outsideFrames_subset (hf : f ∈ frames) : outsideFrames frames ⊆ (page f)ᶜ :=
  fun _ ha => ha f hf

/-- From `w` to the kernel `k'` tables may have been added on the path of `va`, for at most `n`
frames: only prefixes of that path lead elsewhere, and no translation has changed. -/
structure Grown (frames : List ℕ) (w : World) (fs : List ℕ) (r : ℕ) (va : BitVec 64) (n : ℕ)
    (k' : Kernel) (fs' : List ℕ) : Prop where
  inv : ∃ pos', Inv frames { w with kernel := k' } fs' pos'
  takes : Takes n fs fs'
  walk_other : ∀ r' ∈ w.roots, ∀ p : List (Fin 512), p.length ≤ 4 → ¬(r' = r ∧ p <+: path va) →
    walk (edge k'.mem) r' p = walk (edge w.mem) r' p
  self : translate k'.mem r va = translate w.mem r va
  outside : Set.EqOn k'.mem w.mem (outsideFrames frames)

/-- The ways `get_physical_page` ends with `n + 1` levels to go. -/
inductive Looked (frames : List ℕ) (w : World) (fs : List ℕ) (r : ℕ) (va pa : BitVec 64)
    (kind : BitVec 8) (n : ℕ) : Kernel → ℕ → Prop
  | null {k' : Kernel} {fs' : List ℕ} (hg : Grown frames w fs r va n k' fs')
      (hnone : translate w.mem r va = none) (hwhy : 3 ≤ kind.toNat ∨ fs.length ≤ n) :
      Looked frames w fs r va pa kind n k' 0
  | found {k' : Kernel} {fs' : List ℕ} {f : ℕ} (hg : Grown frames w fs r va n k' fs')
      (hsome : translate w.mem r va = some f) : Looked frames w fs r va pa kind n k' f
  | mapped {k' : Kernel} {fs' : List ℕ} {pos' : Pos} {f : ℕ}
      (hI : Inv frames { w with kernel := k', mapped := ⟨r, va, pa, kind⟩ :: w.mapped } fs' pos')
      (htakes : Takes (n + 1) fs fs') (hnone : translate w.mem r va = none)
      (hexplicit : pa ≠ 0 → f = pa.toNat) (htaken : pa = 0 → f ∈ fs ∧ f ∉ fs') (hne : f ≠ 0)
      (hself : translate k'.mem r va = some f)
      (hother : ∀ r' ∈ w.roots, ∀ p : List (Fin 512), p.length ≤ 4 → ¬(r' = r ∧ p <+: path va) →
        walk (edge k'.mem) r' p = walk (edge w.mem) r' p)
      (houtside : Set.EqOn k'.mem w.mem (outsideFrames frames)) :
      Looked frames w fs r va pa kind n k' f

/-- Another page is not on the path of `va`. -/
lemma not_prefix_path {r' : ℕ} {va' : BitVec 64} (h : ¬(r' = r ∧ vpn va' = vpn va)) :
    ¬(r' = r ∧ path va' <+: path va) := fun hp =>
  h ⟨hp.1, path_eq_iff.mp (hp.2.eq_of_length rfl)⟩

namespace Grown

lemma refl (hI : Inv frames w fs pos) : Grown frames w fs r va n w.kernel fs :=
  ⟨⟨pos, hI⟩, .refl fs, fun _ _ _ _ _ => rfl, rfl, fun _ _ => rfl⟩

lemma trans (h : Grown frames w fs r va n k' fs')
    (h' : Grown frames { w with kernel := k' } fs' r va n' k'' fs'') :
    Grown frames w fs r va (n + n') k'' fs'' where
  inv := h'.inv
  takes := h.takes.trans h'.takes
  walk_other r' hr' p hp hne :=
    (h'.walk_other r' hr' p hp hne).trans (h.walk_other r' hr' p hp hne)
  self := h'.self.trans h.self
  outside := h'.outside.trans h.outside

lemma translate_eq (h : Grown frames w fs r va n k' fs') : w.SameTranslations k'.mem := by
  intro r' hr' va'
  by_cases hself : r' = r ∧ vpn va' = vpn va
  · obtain ⟨rfl, hvpn⟩ := hself
    rw [translate_congr_vpn hvpn, translate_congr_vpn hvpn, h.self]
  · exact h.walk_other r' hr' (path va') (by rw [path_length]) (not_prefix_path hself)

/-- What a call does after a level that only grew tables it does from before that level. -/
lemma looked (h : Grown frames w fs r va 1 k' fs')
    (hl : Looked frames { w with kernel := k' } fs' r va pa kind n k'' result) :
    Looked frames w fs r va pa kind (n + 1) k'' result := by
  have hlen := h.takes.length_le
  have htr := h.self
  have hcomm : 1 + n = n + 1 := Nat.add_comm 1 n
  cases hl with
  | null hg hnone hwhy =>
      refine .null (hcomm ▸ h.trans hg) (htr ▸ hnone) (hwhy.imp_right fun hle => ?_)
      omega
  | found hg hsome => exact .found (hcomm ▸ h.trans hg) (htr ▸ hsome)
  | mapped hI htakes hnone hexplicit htaken hne hself hother houtside =>
      refine .mapped hI ((h.takes.trans htakes).mono (by omega)) (htr ▸ hnone) hexplicit
        (fun h0 => ⟨h.takes.subset (htaken h0).1, (htaken h0).2⟩) hne hself ?_
        (houtside.trans h.outside)
      exact fun r' hr' p hp hoff =>
        (hother r' hr' p hp hoff).trans (h.walk_other r' hr' p hp hoff)

end Grown

/-! ### Levels that are there -/

/-- A level whose entry is set only goes on. -/
lemma getPhysicalPageLevel_of_edge {k : Kernel} {c : ℕ}
    (h : edge k.mem t (lvlAddr va i) = some c) :
    getPhysicalPageLevel k t va pa kind i = (k, .next c) := by
  obtain ⟨hset, rfl⟩ := edge_eq_some.mp h
  simp [getPhysicalPageLevel, hset]

/-- The levels that are there are walked down. -/
lemma getPhysicalPageFrom_of_tableAt {k : Kernel} (n : ℕ) :
    ∀ {i t c : ℕ}, i + n ≤ 4 → tableAt k.mem r va i = some t →
      tableAt k.mem r va (i + n) = some c → ∀ is,
      getPhysicalPageFrom va pa kind (List.range' i n ++ is) k t =
        getPhysicalPageFrom va pa kind is k c := by
  induction n with
  | zero =>
      intro i t c _ ht hc is
      obtain rfl : t = c := Option.some.inj (ht.symm.trans hc)
      rfl
  | succ n ih =>
      intro i t c hi ht hc is
      obtain ⟨t', ht'⟩ : ∃ t', tableAt k.mem r va (i + 1) = some t' :=
        exists_walk_of_prefix hc (List.take_prefix_take_left (by omega))
      have hedge := ht'
      rw [tableAt_succ (by omega), ht] at hedge
      rw [List.range'_succ, List.cons_append, getPhysicalPageFrom,
        getPhysicalPageLevel_of_edge hedge]
      exact ih (by omega) ht' (by rw [show i + 1 + n = i + (n + 1) by omega]; exact hc) is

/-- With the tables there the call is its last level. -/
lemma getPhysicalPage_of_tableAt {k : Kernel} (ht : tableAt k.mem r va 3 = some t) :
    k.getPhysicalPage r va pa kind = getPhysicalPageFrom va pa kind [3] k t :=
  getPhysicalPageFrom_of_tableAt 3 (by omega) tableAt_zero ht [3]

/-- A page that is translated is found, and nothing changes. -/
lemma getPhysicalPage_of_translate {k : Kernel} (h : translate k.mem r va = some f) :
    k.getPhysicalPage r va pa kind = (k, f) :=
  getPhysicalPageFrom_of_tableAt 4 (by omega) tableAt_zero h []

/-! ### The levels -/

/-- Above the last level the two macros for table entries agree, whatever the kind. -/
lemma allocatedEntry_inner (hi : i < 3) :
    allocatedEntry i kind f = some (pgdpudEntry 0 (BitVec.ofNat 64 f)) := by
  interval_cases i
  · rfl
  · rfl
  · rfl

/-- A walk that stops does not translate. -/
lemma translate_eq_none {m : ByteMemory} (hi : i < 4) (ht : tableAt m r va i = some t)
    (hunset : ¬ IsSet (entry m t (lvlAddr va i))) : translate m r va = none := by
  have hstop : tableAt m r va (i + 1) = none := by
    rw [tableAt_succ hi, ht]
    exact edge_eq_none.mpr hunset
  cases hw : translate m r va with
  | none => rfl
  | some f =>
      obtain ⟨c, hc⟩ := exists_walk_of_prefix hw (List.take_prefix (i + 1) (path va))
      rw [tableAt, hc] at hstop
      exact absurd hstop (by simp)

/-- Taking a frame and setting an entry of a table writes inside frames. -/
lemma Inv.outside_frame (hI : Inv frames w fs pos) (hk : w.kernel.kalloc = some (f, k'))
    {x : ℕ × List (Fin 512)} (ht : pos t = some x) {j : Fin 512} {pentry : BitVec 64} :
    Set.EqOn (setEntry k'.mem t j pentry) w.mem (outsideFrames frames) := by
  obtain ⟨rest, rfl, -⟩ := hI.list.kalloc hk
  obtain ⟨-, -, rfl⟩ := Kernel.kalloc_eq_some hk
  have hf : f ∈ frames := ((hI.free_iff f).mp (by simp)).1
  exact (setEntry_eqOn.mono (outsideFrames_subset (hI.mem_frames ht))).trans
    (clear_eqOn.mono (outsideFrames_subset hf))

/-- **A level above the last**: the list is empty, or the table of the next level is there
afterwards. -/
lemma Inv.level_inner (hI : Inv frames w fs pos) (hfr : InitialFrames frames)
    (hlt : ∀ f ∈ frames, f < 2 ^ 36) (hr : r ∈ w.roots) (hi : i < 3)
    (ht : tableAt w.mem r va i = some t) :
    (getPhysicalPageLevel w.kernel t va pa kind i = (w.kernel, .ret 0) ∧ fs = [] ∧
      translate w.mem r va = none) ∨
    ∃ k' t' fs', getPhysicalPageLevel w.kernel t va pa kind i = (k', .next t') ∧
      Grown frames w fs r va 1 k' fs' ∧ tableAt k'.mem r va (i + 1) = some t' := by
  have hpos := hI.pos_tableAt hr hi.le ht
  have hlen : ((path va).take i).length = i := take_path_length (by omega)
  by_cases hset : IsSet (entry w.mem t (lvlAddr va i))
  · refine .inr ⟨w.kernel, frameOf (entry w.mem t (lvlAddr va i)), fs, ?_, .refl hI, ?_⟩
    · simp [getPhysicalPageLevel, hset]
    · rw [tableAt_succ (by omega), ht]
      exact edge_of_isSet hset
  · cases hk : w.kernel.kalloc with
    | none =>
        refine .inl ⟨?_, hI.list.kalloc_eq_none.mp hk, translate_eq_none (by omega) ht hset⟩
        simp [getPhysicalPageLevel, hset, hk, hi.ne]
    | some x =>
        obtain ⟨f, k₁⟩ := x
        obtain ⟨rest, rfl, -⟩ := hI.list.kalloc hk
        have hentry : allocatedEntry i kind f = some (pgdpudEntry 0 (BitVec.ofNat 64 f)) :=
          allocatedEntry_inner hi
        generalize hword : pgdpudEntry 0 (BitVec.ofNat 64 f) = pentry at hentry
        have hmem : f ∈ frames := ((hI.free_iff f).mp (by simp)).1
        obtain ⟨hset', hframe⟩ := allocatedEntry_frame hentry (hlt f hmem)
        obtain ⟨ha, hzero⟩ := hI.attached_frame hfr hk hpos hset hset' hframe
        have hempty : ((path va).take i).length < 3 → ∀ j,
            edge (setEntry k₁.mem t (lvlAddr va i) pentry) f j = none :=
          fun _ j => edge_eq_none.mpr (by rw [hzero]; exact not_isSet_zero)
        have hq : ((path va).take i).length ≤ 3 := by omega
        refine .inr ⟨{ k₁ with mem := setEntry k₁.mem t (lvlAddr va i) pentry }, f, rest, ?_,
          ⟨⟨_, hI.attachFrame hfr hk hpos hq hset hset' hframe (.inner (by omega) hword.symm)⟩,
            .one le_rfl, fun r' hr' p hp hne => ?_, ?_, hI.outside_frame hk hpos⟩, ?_⟩
        · simp [getPhysicalPageLevel, hset, hk, hi.ne, hentry, hframe]
        · refine ha.walk_other hI hpos hq hempty hr' hp fun h => hne ⟨h.1, ?_⟩
          rw [h.2, ← take_path_succ (by omega)]
          exact List.take_prefix _ _
        · exact ha.translate_inner hI hpos hq hempty hr (by omega)
        · rw [tableAt, take_path_succ (by omega)]
          exact ha.walk_self hI hpos hq

lemma explicitEntry_eq_none (h : explicitEntry kind pa = none) : 3 ≤ kind.toNat := by
  by_contra hlt
  obtain hk | hk | hk : kind.toNat = 0 ∨ kind.toNat = 1 ∨ kind.toNat = 2 := by omega
  all_goals simp [explicitEntry, hk] at h

lemma allocatedEntry_eq_none (h : allocatedEntry 3 kind f = none) : 3 ≤ kind.toNat := by
  by_contra hlt
  obtain hk | hk | hk : kind.toNat = 0 ∨ kind.toNat = 1 ∨ kind.toNat = 2 := by omega
  all_goals simp [allocatedEntry, hk] at h

/-- A frame from `kalloc` fits into an entry. -/
lemma Inv.lt_of_kalloc (hI : Inv frames w fs pos) (hlt : ∀ f ∈ frames, f < 2 ^ 36)
    (hk : w.kernel.kalloc = some (f, k')) : f < 2 ^ 36 := by
  obtain ⟨rest, rfl, -⟩ := hI.list.kalloc hk
  exact hlt f ((hI.free_iff f).mp (by simp)).1

/-- Writes outside the tables and the list change no translation. -/
lemma Inv.grown_of_eqOn (hI : Inv frames w fs pos) (hr : r ∈ w.roots) (hlist : FreeList k' fs)
    (hmem : ∀ {t r p}, pos t = some (r, p) → p.length ≤ 3 → Set.EqOn k'.mem w.mem (page t))
    (houtside : Set.EqOn k'.mem w.mem (outsideFrames frames)) :
    Grown frames w fs r va n k' fs where
  inv := ⟨pos, hI.of_eqOn hlist hmem⟩
  takes := .refl fs
  walk_other _ hr' _ hp _ := hI.walk_of_eqOn hmem hr' hp
  self := hI.walk_of_eqOn hmem hr (by rw [path_length])
  outside := houtside

/-- A frame taken and given back leaves everything as it was. -/
lemma Inv.kalloc_kfree (hI : Inv frames w fs pos) (hfr : InitialFrames frames) (hr : r ∈ w.roots)
    (hk : w.kernel.kalloc = some (f, k')) :
    Grown frames w fs r va n (k'.kfree (.held f)) fs := by
  obtain ⟨rest, rfl, hrest⟩ := hI.list.kalloc hk
  obtain ⟨-, hne, hk'⟩ := Kernel.kalloc_eq_some hk
  have hal : pageSize ∣ f := hI.list.aligned f (by simp)
  have hfree : FreeList (k'.kfree (.held f)) (f :: rest) :=
    hrest.kfree rfl trivial (List.nodup_cons.mp hI.list.nodup).1 hne hal (hI.list.lt f (by simp))
  have hfreed : Set.EqOn (k'.kfree (.held f)).mem k'.mem (page f)ᶜ := Kernel.kfree_eqOn rfl trivial
  have hcleared : Set.EqOn k'.mem w.mem (page f)ᶜ := by
    rw [hk']
    exact clear_eqOn
  have heq := hfreed.trans hcleared
  have hmem : f ∈ frames := ((hI.free_iff f).mp (by simp)).1
  refine hI.grown_of_eqOn hr hfree (fun {t r p} ht _ => heq.mono ?_)
    (heq.mono (outsideFrames_subset hmem))
  have htf : t ≠ f := ne_of_named (hI.pos_free (by simp)) ht
  exact (page_disjoint (hI.aligned hfr ht) hal htf).subset_compl_right

/-- The last level sets the leaf entry for a frame just taken. -/
lemma Inv.looked_frame (hI : Inv frames w fs pos) (hfr : InitialFrames frames)
    (hlt : ∀ f ∈ frames, f < 2 ^ 36)
    (hr : r ∈ w.roots) (ht : tableAt w.mem r va 3 = some t)
    (hunset : ¬ IsSet (entry w.mem t (lvlAddr va 3))) (hk : w.kernel.kalloc = some (f, k'))
    {pentry : BitVec 64} (hentry : allocatedEntry 3 kind f = some pentry) :
    Looked frames w fs r va 0 kind 0
      { k' with mem := setEntry k'.mem t (lvlAddr va 3) pentry } f := by
  have hpos := hI.pos_tableAt hr le_rfl ht
  have hlen : ((path va).take 3).length = 3 := take_path_length (by omega)
  obtain ⟨rest, rfl, hrest⟩ := hI.list.kalloc hk
  obtain ⟨-, hne, -⟩ := Kernel.kalloc_eq_some hk
  have hmem : f ∈ frames := ((hI.free_iff f).mp (by simp)).1
  obtain ⟨hset, hframe⟩ := allocatedEntry_frame hentry (hlt f hmem)
  obtain ⟨ha, -⟩ := hI.attached_frame hfr hk hpos hunset hset hframe
  have hempty : ((path va).take 3).length < 3 → ∀ j,
      edge (setEntry k'.mem t (lvlAddr va 3) pentry) f j = none := fun h => absurd h (by omega)
  have hword : Mapping.LeafWord ⟨r, va, 0, kind⟩ f pentry := by
    simp [Mapping.LeafWord, hentry]
  have hrec : Recorded w r ((path va).take 3) (lvlAddr va 3) 0 f pentry
      (⟨r, va, 0, kind⟩ :: w.mapped) :=
    .leaf hlen rfl (path_eq_concat va) rfl (by simp) hword
  have hnotMem : f ∉ rest := (List.nodup_cons.mp hI.list.nodup).1
  refine .mapped (hI.attachFrame hfr hk hpos hlen.le hunset hset hframe hrec) (.one le_rfl)
    (translate_eq_none (by omega) ht hunset) (fun h => absurd rfl h)
    (fun _ => ⟨by simp, hnotMem⟩) hne (ha.walk_self hI hpos hlen.le) ?_
    (hI.outside_frame hk hpos)
  intro r' hr' p hp hne'
  refine ha.walk_other hI hpos hlen.le hempty hr' hp fun h => hne' ⟨h.1, ?_⟩
  rw [h.2, ← path_eq_concat]

/-- The last level sets the leaf entry for the given address. -/
lemma Inv.looked_address (hI : Inv frames w fs pos) (hfr : InitialFrames frames) (hr : r ∈ w.roots)
    (ht : tableAt w.mem r va 3 = some t) (hunset : ¬ IsSet (entry w.mem t (lvlAddr va 3)))
    (hpa : pa.toNat < 2 ^ 36) (h0 : pa ≠ 0#64) {pentry : BitVec 64}
    (hentry : explicitEntry kind pa = some pentry) :
    Looked frames w fs r va pa kind 0
      { w.kernel with mem := setEntry w.mem t (lvlAddr va 3) pentry } pa.toNat := by
  have hpos := hI.pos_tableAt hr le_rfl ht
  have hlen : ((path va).take 3).length = 3 := take_path_length (by omega)
  obtain ⟨hset, hframe⟩ := explicitEntry_frame hentry hpa
  have ha := hI.attached_address hfr hpos hunset hset
  have hempty : ((path va).take 3).length < 3 → ∀ j,
      edge (setEntry w.mem t (lvlAddr va 3) pentry) (frameOf pentry) j = none :=
    fun h => absurd h (by omega)
  have hword : Mapping.LeafWord ⟨r, va, pa, kind⟩ pa.toNat pentry := by
    simp [Mapping.LeafWord, h0, hentry]
  have hrec : Recorded w r ((path va).take 3) (lvlAddr va 3) pa pa.toNat pentry
      (⟨r, va, pa, kind⟩ :: w.mapped) :=
    .leaf hlen rfl (path_eq_concat va) rfl hpa hword
  have hne : pa.toNat ≠ 0 := fun h => h0 (BitVec.eq_of_toNat_eq h)
  have hself := ha.walk_self hI hpos hlen.le
  rw [hframe] at hself
  refine .mapped (hI.attachAddress hfr hpos hlen hunset hset h0 hrec) (.refl fs)
    (translate_eq_none (by omega) ht hunset) (fun _ => rfl) (fun h => absurd h h0) hne hself ?_
    (setEntry_eqOn.mono (outsideFrames_subset (hI.mem_frames hpos)))
  intro r' hr' p hp hne'
  refine ha.walk_other hI hpos hlen.le hempty hr' hp fun h => hne' ⟨h.1, ?_⟩
  rw [h.2, ← path_eq_concat]

/-- **The last level**: the entry is there, or it is set for the given address or for a new
frame, or the call gives up. -/
lemma Inv.level_last (hI : Inv frames w fs pos) (hfr : InitialFrames frames)
    (hlt : ∀ f ∈ frames, f < 2 ^ 36) (hr : r ∈ w.roots) (hpa : pa.toNat < 2 ^ 36)
    (ht : tableAt w.mem r va 3 = some t) :
    Looked frames w fs r va pa kind 0 (getPhysicalPageFrom va pa kind [3] w.kernel t).1
      (getPhysicalPageFrom va pa kind [3] w.kernel t).2 := by
  by_cases hset : IsSet (entry w.mem t (lvlAddr va 3))
  · have hfound : translate w.mem r va = some (frameOf (entry w.mem t (lvlAddr va 3))) := by
      rw [← tableAt_four, tableAt_succ (by omega), ht]
      exact edge_of_isSet hset
    have hrun : getPhysicalPageFrom va pa kind [3] w.kernel t =
        (w.kernel, frameOf (entry w.mem t (lvlAddr va 3))) := by
      simp [getPhysicalPageFrom, getPhysicalPageLevel, hset]
    rw [hrun]
    exact .found (.refl hI) hfound
  have hnone : translate w.mem r va = none := translate_eq_none (by omega) ht hset
  rcases eq_or_ne pa 0#64 with rfl | h0
  · cases hk : w.kernel.kalloc with
    | none =>
        have hrun : getPhysicalPageFrom va 0#64 kind [3] w.kernel t = (w.kernel, 0) := by
          simp [getPhysicalPageFrom, getPhysicalPageLevel, hset, hk]
        rw [hrun]
        exact .null (.refl hI) hnone (.inr (by simp [hI.list.kalloc_eq_none.mp hk]))
    | some x =>
        obtain ⟨f, k₁⟩ := x
        cases hentry : allocatedEntry 3 kind f with
        | none =>
            have hrun : getPhysicalPageFrom va 0#64 kind [3] w.kernel t =
                (k₁.kfree (.held f), 0) := by
              simp [getPhysicalPageFrom, getPhysicalPageLevel, hset, hk, hentry]
            rw [hrun]
            exact .null (hI.kalloc_kfree hfr hr hk) hnone (.inl (allocatedEntry_eq_none hentry))
        | some pentry =>
            have hframe : frameOf pentry = f :=
              (allocatedEntry_frame hentry (hI.lt_of_kalloc hlt hk)).2
            have hrun : getPhysicalPageFrom va 0#64 kind [3] w.kernel t =
                ({ k₁ with mem := setEntry k₁.mem t (lvlAddr va 3) pentry }, f) := by
              simp [getPhysicalPageFrom, getPhysicalPageLevel, hset, hk, hentry, hframe]
            rw [hrun]
            exact hI.looked_frame hfr hlt hr ht hset hk hentry
  · cases hentry : explicitEntry kind pa with
    | none =>
        have hrun : getPhysicalPageFrom va pa kind [3] w.kernel t = (w.kernel, 0) := by
          simp [getPhysicalPageFrom, getPhysicalPageLevel, hset, h0, hentry]
        rw [hrun]
        exact .null (.refl hI) hnone (.inl (explicitEntry_eq_none hentry))
    | some pentry =>
        have hrun : getPhysicalPageFrom va pa kind [3] w.kernel t =
            ({ w.kernel with mem := setEntry w.mem t (lvlAddr va 3) pentry }, pa.toNat) := by
          simp [getPhysicalPageFrom, getPhysicalPageLevel, hset, h0, hentry]
        rw [hrun]
        exact hI.looked_address hfr hr ht hset hpa h0 hentry

/-- The levels from `i` on. -/
lemma Inv.looked_from (hfr : InitialFrames frames) (hlt : ∀ f ∈ frames, f < 2 ^ 36)
    (hpa : pa.toNat < 2 ^ 36) :
    ∀ (n : ℕ) {i t : ℕ} {w : World} {fs : List ℕ} {pos : Pos}, i + n = 3 →
      Inv frames w fs pos → r ∈ w.roots → tableAt w.mem r va i = some t →
      Looked frames w fs r va pa kind n
        (getPhysicalPageFrom va pa kind (List.range' i (n + 1)) w.kernel t).1
        (getPhysicalPageFrom va pa kind (List.range' i (n + 1)) w.kernel t).2 := by
  intro n
  induction n with
  | zero =>
      intro i t w fs pos hi hI hr ht
      obtain rfl : i = 3 := hi
      exact hI.level_last hfr hlt hr hpa ht
  | succ n ih =>
      intro i t w fs pos hi hI hr ht
      rw [List.range'_succ, getPhysicalPageFrom]
      rcases hI.level_inner hfr hlt hr (by omega) ht with
        ⟨hlevel, hnil, hnone⟩ | ⟨k', t', fs', hlevel, hg, ht'⟩
      · rw [hlevel]
        exact .null (.refl hI) hnone (.inr (by simp [hnil]))
      · rw [hlevel]
        obtain ⟨pos', hI'⟩ := hg.inv
        exact hg.looked (ih (by omega) hI' hr ht')

/-- **The call**: `get_physical_page` gives up, finds the page, or maps it. -/
theorem Inv.looked (hI : Inv frames w fs pos) (hfr : InitialFrames frames)
    (hlt : ∀ f ∈ frames, f < 2 ^ 36) (hr : r ∈ w.roots) (hpa : pa.toNat < 2 ^ 36) :
    Looked frames w fs r va pa kind 3 (w.kernel.getPhysicalPage r va pa kind).1
      (w.kernel.getPhysicalPage r va pa kind).2 :=
  Inv.looked_from hfr hlt hpa 3 rfl hI hr tableAt_zero

/-! ### Frames taken by a call -/

/-- The list after a call. -/
lemma Looked.freeList (hl : Looked frames w fs r va pa kind n k' result) :
    ∃ fs', FreeList k' fs' ∧ Takes (n + 1) fs fs' := by
  cases hl with
  | null hg _ _ =>
      obtain ⟨pos', hI'⟩ := hg.inv
      exact ⟨_, hI'.list, hg.takes.mono (by omega)⟩
  | found hg _ =>
      obtain ⟨pos', hI'⟩ := hg.inv
      exact ⟨_, hI'.list, hg.takes.mono (by omega)⟩
  | mapped hI' htakes _ _ _ _ _ _ _ => exact ⟨_, hI'.list, htakes⟩

/-- A page that is not mapped costs a frame at the last level. -/
lemma Looked.takes_frame (hl : Looked frames w fs r va 0 kind 0 k' result) (hkind : kind.toNat < 3)
    (hnone : translate w.mem r va = none) (hne : fs ≠ []) :
    ∃ fs', FreeList k' fs' ∧ fs'.length < fs.length := by
  cases hl with
  | null _ _ hwhy => exact absurd (List.length_eq_zero_iff.mp (by omega)) hne
  | found _ hsome => exact absurd (hnone.symm.trans hsome) (by simp)
  | mapped hI' htakes _ _ htaken _ _ _ _ =>
      obtain ⟨hmem, hnotMem⟩ := htaken rfl
      obtain ⟨l, rfl, -⟩ := htakes
      refine ⟨_, hI'.list, ?_⟩
      have hl : l ≠ [] := fun hnil => hnotMem (by simpa [hnil] using hmem)
      have hpos := List.length_pos_iff.mpr hl
      rw [List.length_append]
      omega

/-- The levels from `i` on cost a frame if the page is not mapped and there is one. -/
lemma Inv.takes_frame_from (hfr : InitialFrames frames) (hlt : ∀ f ∈ frames, f < 2 ^ 36)
    (hkind : kind.toNat < 3) :
    ∀ (n : ℕ) {i t : ℕ} {w : World} {fs : List ℕ} {pos : Pos}, i + n = 3 →
      Inv frames w fs pos → r ∈ w.roots → tableAt w.mem r va i = some t →
      translate w.mem r va = none → fs ≠ [] →
      ∃ fs', FreeList (getPhysicalPageFrom va 0 kind (List.range' i (n + 1)) w.kernel t).1 fs' ∧
        fs'.length < fs.length := by
  intro n
  induction n with
  | zero =>
      intro i t w fs pos hi hI hr ht hnone hne
      obtain rfl : i = 3 := hi
      exact (hI.level_last hfr hlt hr (by decide) ht).takes_frame hkind hnone hne
  | succ n ih =>
      intro i t w fs pos hi hI hr ht hnone hne
      rw [List.range'_succ, getPhysicalPageFrom]
      rcases hI.level_inner hfr hlt hr (by omega) ht with
        ⟨-, hnil, -⟩ | ⟨k', t', fs', hlevel, hg, ht'⟩
      · exact absurd hnil hne
      · rw [hlevel]
        obtain ⟨pos', hI'⟩ := hg.inv
        obtain ⟨l, hfs, -⟩ := hg.takes
        have hlen := congrArg List.length hfs
        rw [List.length_append] at hlen
        rcases eq_or_ne fs' [] with hnil | hne'
        · -- the frame is gone, and the rest of the call takes no frame back
          have hl : Looked frames { w with kernel := k' } fs' r va 0 kind n _ _ :=
            Inv.looked_from hfr hlt (by decide) n (by omega) hI' hr ht'
          obtain ⟨fs'', hlist, l', hfs', -⟩ := hl.freeList
          refine ⟨fs'', hlist, ?_⟩
          have hlen' := congrArg List.length hfs'
          have hpos := List.length_pos_iff.mpr hne
          rw [List.length_append, hnil, List.length_nil] at hlen'
          omega
        · obtain ⟨fs'', hlist, hless⟩ :=
            ih (by omega) hI' hr ht' (hg.self.trans hnone) hne'
          exact ⟨fs'', hlist, by omega⟩

/-- **A call for a page that is not mapped** takes a frame if there is one. -/
lemma Inv.takes_frame (hI : Inv frames w fs pos) (hfr : InitialFrames frames)
    (hlt : ∀ f ∈ frames, f < 2 ^ 36) (hr : r ∈ w.roots) (hkind : kind.toNat < 3)
    (hnone : translate w.mem r va = none) (hne : fs ≠ []) :
    ∃ fs', FreeList (w.kernel.getPhysicalPage r va 0 kind).1 fs' ∧ fs'.length < fs.length :=
  Inv.takes_frame_from hfr hlt hkind 3 rfl hI hr tableAt_zero hnone hne

end SkinnyArm
