import SkinnyArm.PageTree.Lookup

/-!
Page trees over whole runs.

* **The invariant is kept** by a new root (`Inv.newRoot`), by a call (`Inv.call`) and by the
  owners' writes (`Inv.write`), so it holds in every world a run reaches (`Boot.Reaches.inv`).
* **Calls** (`getPhysicalPage_translate`): what one call does to the translations of all roots.
* **Places** (`frame_placed`): every frame is in one place.
-/

namespace SkinnyArm

open ByteMemory Forest

variable {frames fs fs' : List ℕ} {w w' : World} {pos : Pos} {t r f : ℕ} {k' : Kernel}
  {va pa : BitVec 64} {kind : BitVec 8} {μ : Mapping}

/-! ### Leaves on record -/

/-- What the walk finds for a call on record. -/
lemma Inv.translate_mapped (hI : Inv frames w fs pos) (hlt : ∀ f ∈ frames, f < 2 ^ 36)
    (hμ : μ ∈ w.mapped) : ∃ f, translate w.mem μ.root μ.va = some f ∧
      (μ.pa = 0 → pos f = some (μ.root, path μ.va)) ∧ (μ.pa ≠ 0 → f = μ.pa.toNat) := by
  obtain ⟨-, hpa, t, f, htab, hleaf, hpos⟩ := hI.mapped μ hμ
  obtain ⟨hset, hframe⟩ := hleaf.frame hpa fun h0 => hlt f (hI.mem_frames (hpos h0))
  refine ⟨f, ?_, hpos, fun h0 => ?_⟩
  · rw [← tableAt_four, tableAt_succ (by omega), htab]
    exact edge_eq_some.mpr ⟨hset, hframe⟩
  · rw [Mapping.LeafWord, if_neg h0] at hleaf
    exact hleaf.2

/-- A frame a page is translated to is not `NULL`. -/
lemma Inv.translate_ne_zero (hI : Inv frames w fs pos) (hfr : InitialFrames frames)
    (hlt : ∀ f ∈ frames, f < 2 ^ 36) (hr : r ∈ w.roots)
    (hf : translate w.mem r va = some f) : f ≠ 0 := by
  obtain ⟨μ, hμ, rfl, hvpn⟩ := hI.recorded hr hf
  obtain ⟨g, hg, htaken, hgiven⟩ := hI.translate_mapped hlt hμ
  rw [translate_congr_vpn hvpn, hf, Option.some.injEq] at hg
  subst hg
  rcases eq_or_ne μ.pa 0 with h0 | hne
  · exact hfr.ne_zero f (hI.mem_frames (htaken h0))
  · rw [hgiven hne]
    exact fun h0 => hne (BitVec.eq_of_toNat_eq h0)

/-- The data pages are the frames at depth four. -/
lemma Inv.isLeafFrame_iff (hI : Inv frames w fs pos) (hlt : ∀ f ∈ frames, f < 2 ^ 36) :
    w.IsLeafFrame f ↔ ∃ r p, pos f = some (r, p) ∧ p.length = 4 := by
  constructor
  · rintro ⟨μ, hμ, h0, htr⟩
    obtain ⟨g, hg, hpos, -⟩ := hI.translate_mapped hlt hμ
    obtain rfl : g = f := Option.some.inj (hg.symm.trans htr)
    exact ⟨μ.root, path μ.va, hpos h0, path_length _⟩
  · rintro ⟨r, p, hpos, hp⟩
    obtain ⟨μ, hμ, rfl, rfl, h0⟩ := hI.leaf hpos hp
    exact ⟨μ, hμ, h0, (hI.reached hpos).2.2⟩

/-! ### Every step keeps the invariant -/

/-- Before the first root every frame is free. -/
lemma Boot.inv (b : Boot) : Inv b.frames b.world b.frames (fun _ => none) where
  list := b.list
  free_iff := by simp
  mem_frames h := absurd h (by simp)
  planted := ⟨by simp [Boot.world], fun h => absurd h (by simp)⟩
  reached h := absurd h (by simp)
  leaf h := absurd h (by simp)
  mapped := by simp [Boot.world]
  recorded h := absurd h (by simp [Boot.world])
  once := by simp [Boot.world]
  unset h := absurd h (by simp)
  inner h := absurd h (by simp)
  nodup := List.nodup_nil

/-- Clearing a free frame leaves the tables alone. -/
lemma Inv.eqOn_clear (hI : Inv frames w (f :: fs) pos) (hfr : InitialFrames frames) {t : ℕ}
    {x : ℕ × List (Fin 512)} (ht : pos t = some x) :
    Set.EqOn (w.mem.clear f pageSize) w.mem (page t) :=
  clear_eqOn.mono (page_disjoint (hI.aligned hfr ht) (hI.list.aligned f (by simp))
    (ne_of_named (hI.pos_free (by simp)) ht)).subset_compl_right

/-- **A new root**: a frame from `kalloc` is the root of an empty tree. -/
lemma Inv.newRoot (hI : Inv frames w (f :: fs) pos) (hfr : InitialFrames frames)
    (hk : w.kernel.kalloc = some (f, k')) :
    Inv frames { w with kernel := k', roots := f :: w.roots } fs
      (Function.update pos f (some (f, []))) := by
  obtain ⟨rest, hcons, hrest⟩ := hI.list.kalloc hk
  obtain ⟨-, rfl⟩ := List.cons.inj hcons
  obtain ⟨-, -, rfl⟩ := Kernel.kalloc_eq_some hk
  have hfpos : pos f = none := hI.pos_free (by simp)
  have hmem : ∀ {t r p}, pos t = some (r, p) → p.length ≤ 3 →
      Set.EqOn (w.mem.clear f pageSize) w.mem (page t) := fun ht _ => hI.eqOn_clear hfr ht
  have hempty : ∀ i, edge (w.mem.clear f pageSize) f i = none := fun i =>
    edge_eq_none.mpr (by rw [entry_clear_self]; exact not_isSet_zero)
  have hfresh : f ∉ w.roots := fun hr =>
    ne_of_named hfpos (hI.planted.root f hr) rfl
  constructor
  case list => exact hrest
  case free_iff => exact hI.free_iff_take rfl
  case mem_frames => exact hI.mem_frames_take rfl
  case planted =>
    have hplant := hI.planted.plant hfpos
      (fun t r q i ht hq => edge_congr (entry_congr (hmem ht hq))) hempty
    have hroots : {r | r ∈ f :: w.roots} = insert f {r | r ∈ w.roots} := by
      ext r
      simp
    rwa [← hroots] at hplant
  case reached =>
    intro g r p hg
    rcases named_of_update hg with ⟨rfl, hx⟩ | hg
    · obtain ⟨rfl, rfl⟩ := Prod.mk.inj hx
      exact ⟨by simp, by simp, rfl⟩
    · obtain ⟨hr, hp, hw⟩ := hI.reached hg
      exact ⟨List.mem_cons_of_mem _ hr, hp, (hI.walk_of_eqOn hmem hr hp).trans hw⟩
  case leaf =>
    intro g r p hg hp
    rcases named_of_update hg with ⟨rfl, hx⟩ | hg
    · obtain ⟨rfl, rfl⟩ := Prod.mk.inj hx
      exact absurd hp (by simp)
    · exact hI.leaf hg hp
  case mapped =>
    intro μ hμ
    obtain ⟨hr, hpa, -⟩ := hI.mapped μ hμ
    obtain ⟨t, g, htab, hleaf, hpos⟩ := hI.mapped_of_eqOn hmem hμ
    exact ⟨List.mem_cons_of_mem _ hr, hpa, t, g, htab, hleaf,
      fun h0 => update_named hfpos (hpos h0)⟩
  case recorded =>
    intro r va g hr hg
    rcases List.mem_cons.mp hr with rfl | hr
    · rw [translate, path, walk_cons, hempty] at hg
      exact absurd hg (by simp)
    · exact hI.recorded hr ((hI.walk_of_eqOn hmem hr (by rw [path_length])).symm.trans hg)
  case unset =>
    intro t r p i ht hp hunset
    rcases named_of_update ht with ⟨rfl, -⟩ | ht
    · exact entry_clear_self
    · simp only [World.mem] at hunset ⊢
      rw [entry_congr (hmem ht hp)] at hunset ⊢
      exact hI.unset ht hp hunset
  case once => exact hI.once
  case inner =>
    intro t r p i ht hp hset
    rcases named_of_update ht with ⟨rfl, -⟩ | ht
    · simp only [World.mem, entry_clear_self] at hset
      exact absurd hset not_isSet_zero
    · simp only [World.mem] at hset ⊢
      rw [entry_congr (hmem ht hp.le)] at hset ⊢
      exact hI.inner ht hp hset
  case nodup => exact List.nodup_cons.mpr ⟨hfresh, hI.nodup⟩

/-- **A call** keeps the invariant, whatever it returns. -/
lemma Inv.call (hI : Inv frames w fs pos) (hfr : InitialFrames frames)
    (hlt : ∀ f ∈ frames, f < 2 ^ 36) (hr : r ∈ w.roots) (va pa : BitVec 64) (kind : BitVec 8)
    (hpa : pa.toNat < 2 ^ 36) : ∃ fs' pos', Inv frames (w.call r va pa kind) fs' pos' := by
  have hl : Looked frames w fs r va pa kind 3 _ _ := hI.looked hfr hlt hr hpa
  rw [World.call]
  generalize w.kernel.getPhysicalPage r va pa kind = looked at hl ⊢
  obtain ⟨k', result⟩ := looked
  cases hl with
  | null hg hnone _ =>
      obtain ⟨pos', hI'⟩ := hg.inv
      exact ⟨_, pos', by simpa using hI'⟩
  | found hg hsome =>
      obtain ⟨pos', hI'⟩ := hg.inv
      exact ⟨_, pos', by simpa [hsome] using hI'⟩
  | mapped hI' _ hnone _ _ hne _ _ _ => exact ⟨_, _, by simpa [hnone, hne] using hI'⟩

/-- A page that holds no data does not hold a byte that may be written. -/
lemma eqOn_store8 {a : ℕ} {v : BitVec 8} (ha : ∀ f ∈ frames, a ∈ page f → w.IsLeafFrame f)
    (hf : f ∈ frames) (hleaf : ¬ w.IsLeafFrame f) :
    Set.EqOn (w.mem.store8 a v) w.mem (page f) := by
  intro x hx
  refine store8_of_ne ?_
  rintro rfl
  exact hleaf (ha f hf hx)

/-- A table is no data page. -/
lemma Inv.not_isLeafFrame (hI : Inv frames w fs pos) (hlt : ∀ f ∈ frames, f < 2 ^ 36) {t : ℕ}
    {p : List (Fin 512)} (ht : pos t = some (r, p)) (hp : p.length ≤ 3) : ¬ w.IsLeafFrame t := by
  intro hleaf
  obtain ⟨r', p', hpos, hp'⟩ := (hI.isLeafFrame_iff hlt).mp hleaf
  rw [ht, Option.some.injEq, Prod.mk.injEq] at hpos
  rw [← hpos.2] at hp'
  omega

/-- A write to a data page, or outside the frames, keeps the invariant. -/
lemma Inv.write (hI : Inv frames w fs pos) (hlt : ∀ f ∈ frames, f < 2 ^ 36) {a : ℕ}
    (v : BitVec 8) (ha : ∀ f ∈ frames, a ∈ page f → w.IsLeafFrame f) :
    Inv frames { w with kernel := { w.kernel with mem := w.mem.store8 a v } } fs pos := by
  refine hI.of_eqOn (hI.list.of_eqOn rfl fun f hf => ?_) fun ht hp =>
    eqOn_store8 ha (hI.mem_frames ht) (hI.not_isLeafFrame hlt ht hp)
  obtain ⟨hmem, hnone⟩ := (hI.free_iff f).mp hf
  refine eqOn_store8 ha hmem fun hleaf => ?_
  obtain ⟨r, p, hpos, -⟩ := (hI.isLeafFrame_iff hlt).mp hleaf
  rw [hnone] at hpos
  exact absurd hpos (by simp)

/-- **Every step** keeps the invariant. -/
lemma Inv.step (hI : Inv frames w fs pos) (hfr : InitialFrames frames)
    (hlt : ∀ f ∈ frames, f < 2 ^ 36) (hstep : World.Step frames w w') :
    ∃ fs' pos', Inv frames w' fs' pos' := by
  cases hstep with
  | newRoot h =>
      obtain ⟨rest, rfl, -⟩ := hI.list.kalloc h
      exact ⟨rest, _, hI.newRoot hfr h⟩
  | call va pa kind hr hpa => exact hI.call hfr hlt hr va pa kind hpa
  | write a v ha => exact ⟨fs, pos, hI.write hlt v ha⟩

/-- **Every run** keeps the invariant. -/
lemma Inv.run (hI : Inv frames w fs pos) (hfr : InitialFrames frames)
    (hlt : ∀ f ∈ frames, f < 2 ^ 36) (hrun : Run (World.Step frames) w w') :
    ∃ fs' pos', Inv frames w' fs' pos' := by
  refine hrun.invariant (I := fun w => ∃ fs pos, Inv frames w fs pos) ?_ ⟨fs, pos, hI⟩
  rintro w w' ⟨fs, pos, hI⟩ hstep
  exact hI.step hfr hlt hstep

theorem Boot.Reaches.inv {b : Boot} (hw : b.Reaches w) : ∃ fs pos, Inv b.frames w fs pos :=
  b.inv.run b.initial b.lt hw

/-- A frame that is left can be taken. -/
lemma exists_kalloc (hI : Inv frames w fs pos) (hfs : 0 < fs.length) :
    ∃ f k₁, w.kernel.kalloc = some (f, k₁) := by
  cases hk : w.kernel.kalloc with
  | none => simp [hI.list.kalloc_eq_none.mp hk] at hfs
  | some taken => exact ⟨taken.1, taken.2, rfl⟩

/-- With four frames to spare a call of a valid kind maps an unmapped page. -/
lemma Inv.call_maps (hI : Inv frames w fs pos) (hfr : InitialFrames frames)
    (hlt : ∀ f ∈ frames, f < 2 ^ 36) (hr : r ∈ w.roots) (va pa : BitVec 64) (kind : BitVec 8)
    (hpa : pa.toNat < 2 ^ 36) (hkind : kind.toNat < 3) (hroom : 3 < fs.length)
    (hnone : translate w.mem r va = none) :
    ∃ fs' pos' f, Inv frames (w.call r va pa kind) fs' pos' ∧ Takes 4 fs fs' ∧ f ≠ 0 ∧
      (w.kernel.getPhysicalPage r va pa kind).2 = f ∧ (pa ≠ 0 → f = pa.toNat) ∧
      translate (w.call r va pa kind).mem r va = some f ∧
      (∀ r' ∈ w.roots, ∀ p : List (Fin 512), p.length ≤ 4 → ¬(r' = r ∧ p <+: path va) →
        walk (edge (w.call r va pa kind).mem) r' p = walk (edge w.mem) r' p) ∧
      Set.EqOn (w.call r va pa kind).mem w.mem (outsideFrames frames) := by
  have hl : Looked frames w fs r va pa kind 3 _ _ := hI.looked hfr hlt hr hpa
  simp only [World.call, World.mem]
  generalize w.kernel.getPhysicalPage r va pa kind = looked at hl ⊢
  obtain ⟨k', result⟩ := looked
  cases hl with
  | null _ _ hwhy => omega
  | found _ hsome =>
      rw [hnone] at hsome
      exact absurd hsome (by simp)
  | mapped hI' htakes _ hexplicit _ hne hself hother houtside =>
      have hcond : translate w.mem r va = none ∧ result ≠ 0 := ⟨hnone, hne⟩
      rw [if_pos hcond]
      exact ⟨_, _, result, hI', htakes, hne, rfl, hexplicit, hself, hother, houtside⟩

/-! ### What a call does to the translations -/

/-- What one call of `get_physical_page` does to the translations. -/
structure CallTranslates (w : World) (root : ℕ) (va pa : BitVec 64) (kind : BitVec 8) (k' : Kernel)
    (result : ℕ) : Prop where
  found : ∀ f, translate w.mem root va = some f → result = f ∧ w.SameTranslations k'.mem
  mapped : translate w.mem root va = none → result ≠ 0 →
    (pa ≠ 0 → result = pa.toNat) ∧
    (pa = 0 → ∃ fs fs', FreeList w.kernel fs ∧ FreeList k' fs' ∧ result ∈ fs ∧ result ∉ fs') ∧
    translate k'.mem root va = some result ∧
    ∀ r ∈ w.roots, ∀ va', ¬(r = root ∧ vpn va' = vpn va) →
      translate k'.mem r va' = translate w.mem r va'
  null : result = 0 → w.SameTranslations k'.mem

lemma Looked.callTranslates {result n : ℕ} (hI : Inv frames w fs pos)
    (hl : Looked frames w fs r va pa kind n k' result) :
    CallTranslates w r va pa kind k' result := by
  cases hl with
  | null hg hnone _ =>
      exact ⟨by simp [hnone], fun _ h => absurd rfl h, fun _ => hg.translate_eq⟩
  | found hg hsome =>
      exact ⟨fun f hf => ⟨Option.some.inj (hsome.symm.trans hf), hg.translate_eq⟩,
        by simp [hsome], fun _ => hg.translate_eq⟩
  | mapped hI' _ hnone hexplicit htaken hne hself hother _ =>
      refine ⟨fun f hf => ?_, fun _ _ => ⟨hexplicit, fun h0 => ?_, hself, ?_⟩, fun h => ?_⟩
      · rw [hnone] at hf
        exact absurd hf (by simp)
      · exact ⟨fs, _, hI.list, hI'.list, htaken h0⟩
      · exact fun r' hr' va' hoff =>
          hother r' hr' (path va') (by rw [path_length]) (not_prefix_path hoff)
      · exact absurd h hne

/-- **Calls**: a page that was mapped is found and nothing changes; a page that is mapped now is
the only one whose translation changes; `NULL` changes no translation. -/
theorem getPhysicalPage_translate (b : Boot) (hw : b.Reaches w) {root : ℕ} (hr : root ∈ w.roots)
    (va pa : BitVec 64) (kind : BitVec 8) (hpa : pa.toNat < 2 ^ 36) :
    CallTranslates w root va pa kind (w.kernel.getPhysicalPage root va pa kind).1
      (w.kernel.getPhysicalPage root va pa kind).2 := by
  obtain ⟨fs, pos, hI⟩ := hw.inv
  exact (hI.looked b.initial b.lt hr hpa).callTranslates hI

/-! ### A small world -/

/-- The small machine as a start for page trees. -/
def smallBoot : Boot where
  kernel := smallKernel
  frames := initFrames 4096 40960
  list := smallKernel_freeList
  lt f hf := by
    obtain ⟨i, hi, rfl⟩ := List.mem_range'.mp hf
    simp only [pageSize] at *
    omega

/-- The small machine with one empty root. -/
def smallWorld : World := ⟨smallTaken, [4096], []⟩

/-- The frames end below `0xB000`. -/
lemma smallFrames_lt {a : ℕ} (ha : 0xB000 ≤ a) : a ∈ outsideFrames smallBoot.frames := by
  intro f hf hx
  obtain ⟨i, hi, rfl⟩ := List.mem_range'.mp hf
  simp only [Set.mem_Ico, pageSize] at *
  omega

lemma smallWorld_reaches : smallBoot.Reaches smallWorld :=
  .single (.newRoot smallKernel_kalloc)

lemma smallWorld_inv :
    ∃ pos, Inv smallBoot.frames smallWorld (List.range' 8192 9 pageSize) pos :=
  ⟨_, Inv.newRoot smallBoot.inv smallBoot.initial smallKernel_kalloc⟩

/-- The root is empty. -/
lemma smallWorld_edge (i : Fin 512) : edge smallWorld.mem 4096 i = none := by
  refine edge_eq_none.mpr ?_
  simp only [smallWorld, World.mem, smallTaken, clearPage_eq, entry_clear_self]
  exact not_isSet_zero

/-- The page after the frames, as a physical address. -/
lemma smallPage_lt : (0xB000 : BitVec 64).toNat < 2 ^ 36 := by decide

/-- The small world after the page of `va` was mapped for the kernel. -/
def smallMapped (va pa : BitVec 64) : World := smallWorld.call 4096 va pa 0

lemma smallMapped_root (va pa : BitVec 64) : 4096 ∈ (smallMapped va pa).roots := by
  simp [smallMapped, World.call, smallWorld]

lemma smallMapped_pa {va pa : BitVec 64} : ∀ μ ∈ (smallMapped va pa).mapped, μ.pa = pa := by
  intro μ hμ
  rcases World.mem_mapped_call hμ with rfl | hold
  · rfl
  · exact absurd hold (by simp [smallWorld])

section SmallMapped

variable (va : BitVec 64) {pa : BitVec 64} (hpa : pa.toNat < 2 ^ 36)
include hpa

lemma smallMapped_reaches : smallBoot.Reaches (smallMapped va pa) :=
  smallWorld_reaches.tail (.call va pa 0 (by simp [smallWorld]) hpa)

/-- The page is mapped, the paths off it lead nowhere, the memory past the frames is zero and
frames are left. -/
lemma smallMapped_spec :
    (∃ fs pos, Inv smallBoot.frames (smallMapped va pa) fs pos ∧ 5 ≤ fs.length) ∧
      (∃ f, translate (smallMapped va pa).mem 4096 va = some f ∧ (pa ≠ 0 → f = pa.toNat)) ∧
      (∀ i p, p.length ≤ 3 → ¬(i :: p <+: path va) →
        walk (edge (smallMapped va pa).mem) 4096 (i :: p) = none) ∧
      ∀ a, 0xB000 ≤ a → (smallMapped va pa).mem a = 0 := by
  obtain ⟨pos, hI⟩ := smallWorld_inv
  have hstop : ∀ i p, walk (edge smallWorld.mem) 4096 (i :: p) = none := fun i p => by
    rw [walk_cons, smallWorld_edge]
    rfl
  obtain ⟨fs', pos', f, hI', htakes, -, -, hf, htr, hother, houtside⟩ :=
    hI.call_maps smallBoot.initial smallBoot.lt (by simp [smallWorld]) va pa 0 hpa
      (by decide) (by simp) (hstop _ _)
  have hlen := htakes.length_le
  rw [List.length_range'] at hlen
  refine ⟨⟨fs', pos', hI', by omega⟩, ⟨f, htr, hf⟩, fun i p hp hne => ?_, fun a ha => ?_⟩
  · exact (hother 4096 (by simp [smallWorld]) (i :: p)
      (by simp only [List.length_cons]; omega) (by simpa using hne)).trans (hstop i p)
  · rw [← smallTaken_mem ha]
    exact houtside (smallFrames_lt ha)

end SmallMapped

/-- The page at address 0, mapped to the page after the frames. -/
lemma smallMapped_translate : translate (smallMapped 0 0xB000).mem 4096 0 = some 0xB000 := by
  obtain ⟨-, ⟨f, hf, hfpa⟩, -⟩ := smallMapped_spec 0 smallPage_lt
  have hframe : f = 0xB000 := hfpa (by simp)
  rw [hframe] at hf
  exact hf

/-- The empty root is given its first page. -/
theorem getPhysicalPage_translate_small :
    CallTranslates smallWorld 4096 0x1000 0x5000 0
      (smallTaken.getPhysicalPage 4096 0x1000 0x5000 0).1
      (smallTaken.getPhysicalPage 4096 0x1000 0x5000 0).2 :=
  getPhysicalPage_translate smallBoot smallWorld_reaches (by simp [smallWorld]) 0x1000 0x5000 0
    (by decide)

/-! ### The places of the frames -/

/-- A place for a frame: a position on the free list or among the roots, an entry of a table
above the last level, or an entry of a last-level table. -/
inductive Place where
  | free (k : ℕ)
  | root (k : ℕ)
  | table (t : ℕ) (i : Fin 512)
  | leaf (t : ℕ) (i : Fin 512)

/-- A frame is in a place.  A last-level entry owns its frame only if it was set for a call
without a physical address. -/
def World.Occupies (w : World) (fs : List ℕ) (f : ℕ) : Place → Prop
  | .free k => fs[k]? = some f
  | .root k => w.roots[k]? = some f
  | .table t i => (∃ r ∈ w.roots, ∃ q : List (Fin 512), q.length ≤ 2 ∧
      walk (edge w.mem) r q = some t) ∧ edge w.mem t i = some f
  | .leaf t i => (∃ μ ∈ w.mapped, μ.pa = 0 ∧ tableAt w.mem μ.root μ.va 3 = some t ∧
      lvlAddr μ.va 3 = i) ∧ edge w.mem t i = some f

/-- The four sorts of places. -/
def Place.sort : Place → Fin 4
  | free _ => 0
  | root _ => 1
  | table _ _ => 2
  | leaf _ _ => 3

/-- The sort of place a position stands for. -/
def sortOf : Option (ℕ × List (Fin 512)) → Fin 4
  | none => 0
  | some x => if x.2.length = 0 then 1 else if x.2.length = 4 then 3 else 2

/-- The entry a frame at a path of the given length hangs on. -/
def HangsOn (pos : Pos) (f t : ℕ) (i : Fin 512) (r : ℕ) (q : List (Fin 512)) : Prop :=
  pos t = some (r, q) ∧ pos f = some (r, q ++ [i])

namespace Inv

variable (hI : Inv frames w fs pos) (hlt : ∀ f ∈ frames, f < 2 ^ 36) {i : Fin 512}
include hI

lemma occupies_free {k : ℕ} (h : w.Occupies fs f (.free k)) : pos f = none :=
  hI.pos_free (List.mem_of_getElem? h)

lemma occupies_root {k : ℕ} (h : w.Occupies fs f (.root k)) : pos f = some (f, []) :=
  hI.planted.root f (List.mem_of_getElem? h)

lemma occupies_table (h : w.Occupies fs f (.table t i)) :
    ∃ r q, q.length ≤ 2 ∧ HangsOn pos f t i r q := by
  obtain ⟨⟨r, hr, q, hq, hw⟩, he⟩ := h
  have ht := hI.planted.pos_of_walk hr (by omega) hw
  exact ⟨r, q, hq, ht, hI.planted.child ht (by omega) he⟩

include hlt in
lemma occupies_leaf (h : w.Occupies fs f (.leaf t i)) :
    ∃ r q, q.length = 3 ∧ HangsOn pos f t i r q := by
  obtain ⟨⟨μ, hμ, h0, ht, rfl⟩, he⟩ := h
  obtain ⟨g, hg, hpos, -⟩ := hI.translate_mapped hlt hμ
  rw [← tableAt_four, tableAt_succ (by omega), ht] at hg
  obtain rfl : f = g := Option.some.inj (he.symm.trans hg)
  have hroot := (hI.mapped μ hμ).1
  exact ⟨μ.root, (path μ.va).take 3, take_path_length (by omega),
    hI.pos_tableAt hroot le_rfl ht, hpos h0⟩

/-- A frame hangs on one entry only. -/
lemma hangsOn_unique {t' r r' : ℕ} {i' : Fin 512} {q q' : List (Fin 512)}
    (h : HangsOn pos f t i r q) (h' : HangsOn pos f t' i' r' q') : t = t' ∧ i = i' := by
  have heq := h.2.symm.trans h'.2
  rw [Option.some.injEq, Prod.mk.injEq] at heq
  obtain ⟨rfl, hq⟩ := heq
  obtain ⟨rfl, hi⟩ := List.append_inj' hq rfl
  obtain rfl : i = i' := by simpa using hi
  exact ⟨Option.some.inj ((hI.reached h.1).2.2.symm.trans (hI.reached h'.1).2.2), rfl⟩

include hlt

/-- The sort of place a frame is in is told by its position. -/
lemma sort_of_occupies {p : Place} (h : w.Occupies fs f p) : p.sort = sortOf (pos f) := by
  cases p with
  | free k => rw [hI.occupies_free h, Place.sort, sortOf]
  | root k => simp [hI.occupies_root h, Place.sort, sortOf]
  | table t i =>
      obtain ⟨r, q, hq, -, hf⟩ := hI.occupies_table h
      have hlen : (q ++ [i]).length ≠ 0 ∧ (q ++ [i]).length ≠ 4 := by
        simp only [List.length_append, List.length_singleton]
        omega
      simp only [hf, Place.sort, sortOf, if_neg hlen.1, if_neg hlen.2]
  | leaf t i =>
      obtain ⟨r, q, hq, -, hf⟩ := hI.occupies_leaf hlt h
      simp [hf, Place.sort, sortOf, hq]

/-- No frame is in two places. -/
lemma occupies_unique {p p' : Place} (h : w.Occupies fs f p) (h' : w.Occupies fs f p') :
    p = p' := by
  have hsort : p.sort = p'.sort :=
    (hI.sort_of_occupies hlt h).trans (hI.sort_of_occupies hlt h').symm
  cases p <;> cases p' <;> try (simp [Place.sort] at hsort; done)
  case free.free k k' =>
    have hk : k < fs.length := (List.getElem?_eq_some_iff.mp h).1
    rw [(List.getElem?_inj hk hI.list.nodup).mp (Eq.trans h h'.symm)]
  case root.root k k' =>
    have hk : k < w.roots.length := (List.getElem?_eq_some_iff.mp h).1
    rw [(List.getElem?_inj hk hI.nodup).mp (Eq.trans h h'.symm)]
  case table.table t i t' i' =>
    obtain ⟨r, q, -, hh⟩ := hI.occupies_table h
    obtain ⟨r', q', -, hh'⟩ := hI.occupies_table h'
    obtain ⟨rfl, rfl⟩ := hI.hangsOn_unique hh hh'
    rfl
  case leaf.leaf t i t' i' =>
    obtain ⟨r, q, -, hh⟩ := hI.occupies_leaf hlt h
    obtain ⟨r', q', -, hh'⟩ := hI.occupies_leaf hlt h'
    obtain ⟨rfl, rfl⟩ := hI.hangsOn_unique hh hh'
    rfl

omit hlt in
/-- Every frame is in a place. -/
lemma exists_occupies (hf : f ∈ frames) : ∃ p, w.Occupies fs f p := by
  cases hpos : pos f with
  | none =>
      obtain ⟨k, hk⟩ := List.mem_iff_getElem?.mp ((hI.free_iff f).mpr ⟨hf, hpos⟩)
      exact ⟨.free k, hk⟩
  | some x =>
      obtain ⟨r, p⟩ := x
      obtain ⟨hr, hp, hw⟩ := hI.reached hpos
      rcases List.eq_nil_or_concat p with rfl | ⟨q, i, rfl⟩
      · obtain rfl : r = f := Option.some.inj hw
        obtain ⟨k, hk⟩ := List.mem_iff_getElem?.mp hr
        exact ⟨.root k, hk⟩
      · rw [List.concat_eq_append] at hpos hp hw
        rw [walk_concat, Option.bind_eq_some_iff] at hw
        obtain ⟨t, ht, he⟩ := hw
        simp only [List.length_append, List.length_singleton] at hp
        rcases Nat.lt_or_ge q.length 3 with hq | hq
        · exact ⟨.table t i, ⟨r, hr, q, by omega, ht⟩, he⟩
        · have hq3 : q.length = 3 := by omega
          obtain ⟨μ, hμ, rfl, hpath, h0⟩ := hI.leaf hpos (by simp [hq3])
          obtain ⟨rfl, hi⟩ := List.append_inj' ((path_eq_concat μ.va).symm.trans hpath) rfl
          exact ⟨.leaf t i, ⟨μ, hμ, h0, ht, by simpa using hi⟩, he⟩

end Inv

/-- **Places**: over every run, every frame is in exactly one place: once on the free list, a
root, a table on one entry of one table, or a data page on one last-level entry. -/
theorem frame_placed (b : Boot) (hw : b.Reaches w) :
    ∃ fs, FreeList w.kernel fs ∧ ∀ f ∈ b.frames, ∃! p : Place, w.Occupies fs f p := by
  obtain ⟨fs, pos, hI⟩ := hw.inv
  refine ⟨fs, hI.list, fun f hf => ?_⟩
  obtain ⟨p, hp⟩ := hI.exists_occupies hf
  exact ⟨p, hp, fun p' hp' => hI.occupies_unique b.lt hp' hp⟩

/-- The places of the small machine's frames after a call. -/
theorem frame_placed_small :
    ∃ fs, FreeList (smallWorld.call 4096 0x1000 0 0).kernel fs ∧
      ∀ f ∈ initFrames 4096 40960,
        ∃! p : Place, (smallWorld.call 4096 0x1000 0 0).Occupies fs f p :=
  frame_placed smallBoot
    (smallWorld_reaches.tail (.call 0x1000 0 0 (by simp [smallWorld]) (by decide)))

end SkinnyArm
