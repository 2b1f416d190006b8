import SkinnyArm.PageTree.Run

/-!
`map_page` and `map_region` on page trees.

* `InRegion` is a range of pages modulo `2^48`; a region is its first page and the rest
  (`inRegion_iff`).
* **One page** (`Inv.mapPage_cases`): `PageOutcome` says where a page is after `map_page` returned
  0 for it: where it was, if it was mapped, else at the given address, or for the address 0 at a
  frame from the free list.
* **The loop** (`Inv.mapRegionLoop_cases`), by induction on the pages still to go: it gets to the
  end and every page has its outcome, or it fails at some page, the pages before that have theirs,
  and `unmap_region` starts from there (`FailsAt`).
* **A region** that was not mapped is, in order, unless the free list was shorter than four frames a
  page (`Inv.mapRegionLoop_maps`), and any region that does not run over the top of the address
  space gets its outcomes (`mapRegion_maps`).
-/

namespace SkinnyArm

open ByteMemory Forest

variable {frames fs fs' : List ℕ} {w : World} {pos : Pos} {root addr f : ℕ} {k k' k₁ : Kernel}
  {va pa : BitVec 64} {kind : BitVec 8} {vaCurr vaStop vaEnd vaFail : PageVa}

/-! ### Regions -/

/-- The page of `va` lies, modulo `2^48`, in a region. -/
def InRegion (vaStart vaEnd : PageVa) (va : BitVec 64) : Prop :=
  ∃ p : PageVa, vaStart.va ≤ p.va ∧ p.va < vaEnd.va ∧ vpn p.va = vpn va

lemma not_inRegion {vaStart vaEnd : PageVa} (h : ¬ vaStart.va < vaEnd.va) :
    ¬ InRegion vaStart vaEnd va := by
  rintro ⟨p, hle, hlt, -⟩
  have hle' : vaStart.va.toNat ≤ p.va.toNat := hle
  have hlt' : p.va.toNat < vaEnd.va.toNat := hlt
  exact h (show vaStart.va.toNat < vaEnd.va.toNat by omega)

/-- A region is its first page and the rest. -/
lemma inRegion_iff {vaStart vaEnd : PageVa} (h : vaStart.va < vaEnd.va) :
    InRegion vaStart vaEnd va ↔ vpn vaStart.va = vpn va ∨ InRegion vaStart.next vaEnd va := by
  obtain ⟨hnext, hle⟩ := PageVa.toNat_next h
  constructor
  · rintro ⟨p, hp, hlt, hvpn⟩
    rcases eq_or_ne vaStart.va p.va with heq | hne
    · exact .inl (heq ▸ hvpn)
    · refine .inr ⟨p, ?_, hlt, hvpn⟩
      have hp' : vaStart.va.toNat ≤ p.va.toNat := hp
      have hne' : vaStart.va.toNat ≠ p.va.toNat := fun h => hne (BitVec.eq_of_toNat_eq h)
      have hal := vaStart.aligned
      have hal' := p.aligned
      show vaStart.next.va.toNat ≤ p.va.toNat
      simp only [pageSize] at hal hal' hnext
      omega
  · rintro (hvpn | ⟨p, hp, hlt, hvpn⟩)
    · exact ⟨vaStart, Nat.le_refl vaStart.va.toNat, h, hvpn⟩
    · refine ⟨p, ?_, hlt, hvpn⟩
      have hp' : vaStart.next.va.toNat ≤ p.va.toNat := hp
      show vaStart.va.toNat ≤ p.va.toNat
      omega

/-- A page of a region that does not go round once is not met again. -/
lemma not_inRegion_next {vaStart vaEnd : PageVa} (h : vaStart.va < vaEnd.va)
    (hlap : vaEnd.va.toNat ≤ vaStart.va.toNat + 2 ^ 48) :
    ¬ InRegion vaStart.next vaEnd vaStart.va := by
  rintro ⟨p, hle, hlt, hvpn⟩
  obtain ⟨hnext, -⟩ := PageVa.toNat_next h
  have hle' : vaStart.next.va.toNat ≤ p.va.toNat := hle
  have hlt' : p.va.toNat < vaEnd.va.toNat := hlt
  simp only [vpn, pageSize] at hvpn hnext
  have hstart := vaStart.aligned
  have hp := p.aligned
  simp only [pageSize] at hstart hp
  omega

/-! ### One page -/

/-- Where a page is after it was to be mapped to an address. -/
structure PageOutcome (w : World) (root : ℕ) (va : BitVec 64) (addr f : ℕ) : Prop where
  kept : ∀ g, translate w.mem root va = some g → f = g
  given : translate w.mem root va = none → addr ≠ 0 → f = addr
  taken : translate w.mem root va = none → addr = 0 → ∃ fs, FreeList w.kernel fs ∧ f ∈ fs

/-- A page was mapped, and no other page of the tree concerned. -/
structure PageMapped (frames : List ℕ) (w : World) (fs : List ℕ) (root : ℕ) (va : BitVec 64)
    (addr : ℕ) (k' : Kernel) (fs' : List ℕ) : Prop where
  inv : ∃ pos' mapped', Inv frames ⟨k', w.roots, mapped'⟩ fs' pos'
  takes : Takes 4 fs fs'
  page : ∃ f, translate k'.mem root va = some f ∧ PageOutcome w root va addr f
  others : ∀ va', vpn va' ≠ vpn va → translate k'.mem root va' = translate w.mem root va'

/-- A page could not be mapped: the kind is invalid, or frames ran out. -/
structure PageRefused (frames : List ℕ) (w : World) (fs : List ℕ) (kind : BitVec 8) (k' : Kernel)
    (fs' : List ℕ) : Prop where
  inv : ∃ pos', Inv frames { w with kernel := k' } fs' pos'
  takes : Takes 4 fs fs'
  same : w.SameTranslations k'.mem
  why : 3 ≤ kind.toNat ∨ fs.length ≤ 3

/-- **`map_page`** returns 0 for a page that is mapped then, and -1 without mapping anything. -/
lemma Inv.mapPage_cases (hI : Inv frames w fs pos) (hfr : InitialFrames frames)
    (hlt : ∀ f ∈ frames, f < 2 ^ 36) (hr : root ∈ w.roots) (va : BitVec 64)
    (hpa : pa.toNat < 2 ^ 36) (kind : BitVec 8) :
    ((w.kernel.mapPage root va pa kind).2 = 0 ∧
      ∃ fs', PageMapped frames w fs root va pa.toNat (w.kernel.mapPage root va pa kind).1 fs') ∨
    ((w.kernel.mapPage root va pa kind).2 = -1 ∧
      ∃ fs', PageRefused frames w fs kind (w.kernel.mapPage root va pa kind).1 fs') := by
  have hl : Looked frames w fs root va pa kind 3 _ _ := hI.looked hfr hlt hr hpa
  simp only [Kernel.mapPage]
  generalize w.kernel.getPhysicalPage root va pa kind = looked at hl ⊢
  obtain ⟨k', result⟩ := looked
  cases hl with
  | null hg _ hwhy => exact .inr ⟨rfl, _, hg.inv, hg.takes.mono (by omega), hg.translate_eq, hwhy⟩
  | found hg hsome =>
      have hne := hI.translate_ne_zero hfr hlt hr hsome
      obtain ⟨pos', hI'⟩ := hg.inv
      simp only [if_neg hne]
      have htakes := hg.takes.mono (show 3 ≤ 4 by omega)
      refine .inl ⟨trivial, _, ⟨pos', w.mapped, hI'⟩, htakes, ⟨result, ?_, ?_⟩, ?_⟩
      · exact (hg.translate_eq root hr va).trans hsome
      · exact ⟨fun g hg' => Option.some.inj (hsome.symm.trans hg'),
          fun hnone => absurd hnone (by simp [hsome]), fun hnone => absurd hnone (by simp [hsome])⟩
      · exact fun va' _ => hg.translate_eq root hr va'
  | mapped hI' htakes hnone hexplicit htaken hne hself hother _ =>
      simp only [if_neg hne]
      refine .inl ⟨trivial, _, ⟨_, _, hI'⟩, htakes, ⟨result, hself, ?_⟩, fun va' hva => ?_⟩
      · refine ⟨fun g hg => absurd hg (by simp [hnone]), fun _ h0 => ?_, fun _ h0 => ?_⟩
        · exact hexplicit fun hpa0 => h0 (by rw [hpa0]; rfl)
        · exact ⟨fs, hI.list, (htaken (BitVec.eq_of_toNat_eq h0)).1⟩
      · exact hother root hr (path va') (by rw [path_length]) (not_prefix_path fun h => hva h.2)

/-! ### The loop -/

/-- Two page-aligned addresses in order are equal or a page apart. -/
lemma PageVa.eq_or_next_le {v p : PageVa} (h : v.va.toNat ≤ p.va.toNat) :
    p.va = v.va ∨ v.va.toNat + pageSize ≤ p.va.toNat := by
  have hv := v.aligned
  have hp := p.aligned
  simp only [pageSize] at hv hp ⊢
  rcases eq_or_ne p.va v.va with heq | hne
  · exact .inl heq
  · have hne' : p.va.toNat ≠ v.va.toNat := fun h => hne (BitVec.eq_of_toNat_eq h)
    exact .inr (by omega)

/-- The pages of a region have their outcomes, and no other page is concerned. -/
structure RegionOutcome (frames : List ℕ) (w : World) (fs : List ℕ) (root : ℕ)
    (vaCurr vaStop : PageVa) (pa : BitVec 64) (k' : Kernel) (fs' : List ℕ) : Prop where
  inv : ∃ pos' mapped', Inv frames ⟨k', w.roots, mapped'⟩ fs' pos'
  sub : fs' ⊆ fs
  inside : ∀ p : PageVa, vaCurr.va.toNat ≤ p.va.toNat → p.va.toNat < vaStop.va.toNat →
    ∃ f, translate k'.mem root p.va = some f ∧
      PageOutcome w root p.va (pa.toNat + (p.va.toNat - vaCurr.va.toNat)) f
  outside : ∀ va, ¬ InRegion vaCurr vaStop va →
    translate k'.mem root va = translate w.mem root va

/-- No pages. -/
lemma RegionOutcome.nil (hsame : ∀ va, translate k'.mem root va = translate w.mem root va)
    (hinv : ∃ pos' mapped', Inv frames ⟨k', w.roots, mapped'⟩ fs' pos') (hsub : fs' ⊆ fs) :
    RegionOutcome frames w fs root vaCurr vaCurr pa k' fs' where
  inv := hinv
  sub := hsub
  inside p hle hlt := absurd hle (by omega)
  outside va _ := hsame va

/-- An outcome for an address other than 0 depends on the translation only. -/
lemma PageOutcome.congr {w' : World} (h : PageOutcome w' root va addr f)
    (hsame : translate w'.mem root va = translate w.mem root va) (hne : addr ≠ 0) :
    PageOutcome w root va addr f where
  kept g hg := h.kept g (hsame.trans hg)
  given hnone _ := h.given (hsame.trans hnone) hne
  taken _ h0 := absurd h0 hne

lemma toNat_add_page (hpa : pa.toNat + pageSize < 2 ^ 64) :
    (pa + BitVec.ofNat 64 pageSize).toNat = pa.toNat + pageSize :=
  BitVec.toNat_add_of_lt hpa

/-- The first page and the rest of a region. -/
lemma RegionOutcome.cons {mapped₁ : List Mapping} {fs₁ : List ℕ} (hmore : vaCurr.va < vaEnd.va)
    (hstop : vaStop.va.toNat ≤ vaEnd.va.toNat) (hnextStop : vaCurr.next.va.toNat ≤ vaStop.va.toNat)
    (hlap : vaEnd.va.toNat ≤ vaCurr.va.toNat + 2 ^ 48) (hpa : pa.toNat + pageSize < 2 ^ 64)
    (hfirst : PageMapped frames w fs root vaCurr.va pa.toNat k₁ fs₁)
    (hrest : RegionOutcome frames ⟨k₁, w.roots, mapped₁⟩ fs₁ root vaCurr.next vaStop
      (pa + BitVec.ofNat 64 pageSize) k' fs') :
    RegionOutcome frames w fs root vaCurr vaStop pa k' fs' := by
  obtain ⟨hnext, -⟩ := PageVa.toNat_next hmore
  have hpa' := toNat_add_page hpa
  have hmore' : vaCurr.va < vaStop.va := by
    show vaCurr.va.toNat < vaStop.va.toNat
    simp only [pageSize] at hnext
    omega
  have hlap' : vaStop.va.toNat ≤ vaCurr.va.toNat + 2 ^ 48 := by omega
  -- the rest does not meet the first page again
  have hne : ∀ {va}, InRegion vaCurr.next vaStop va → vpn va ≠ vpn vaCurr.va := by
    rintro va ⟨p, hle, hplt, hvpn⟩ hva
    exact not_inRegion_next hmore' hlap' ⟨p, hle, hplt, hvpn.trans hva⟩
  refine ⟨hrest.inv, fun x hx => hfirst.takes.subset (hrest.sub hx), fun p hle hlt => ?_,
    fun va hout => ?_⟩
  · rcases PageVa.eq_or_next_le hle with heq | hle'
    · obtain ⟨f, hf, houtcome⟩ := hfirst.page
      refine ⟨f, ?_, ?_⟩
      · exact (hrest.outside p.va (heq ▸ not_inRegion_next hmore' hlap')).trans (heq ▸ hf)
      · rw [heq, Nat.sub_self, Nat.add_zero]
        exact houtcome
    · obtain ⟨f, hf, houtcome⟩ := hrest.inside p (by omega) hlt
      have haddr : (pa + BitVec.ofNat 64 pageSize).toNat + (p.va.toNat - vaCurr.next.va.toNat) =
          pa.toNat + (p.va.toNat - vaCurr.va.toNat) := by omega
      rw [haddr] at houtcome
      refine ⟨f, hf, houtcome.congr (hfirst.others p.va (hne ⟨p, ?_, hlt, rfl⟩)) ?_⟩
      · show vaCurr.next.va.toNat ≤ p.va.toNat
        omega
      · simp only [pageSize] at hle'
        omega
  · rw [inRegion_iff hmore', not_or] at hout
    calc translate k'.mem root va
        = translate k₁.mem root va := hrest.outside va hout.2
      _ = translate w.mem root va := hfirst.others va fun hva => hout.1 hva.symm

/-- The loop of `map_region` fails at the page `vaFail`, in a call of `map_page` that leaves the
kernel `k₁`. -/
inductive FailsAt (root : ℕ) (vaEnd : PageVa) (kind : BitVec 8) (vaFail : PageVa) (k₁ : Kernel) :
    Kernel → PageVa → BitVec 64 → Prop
  | here {k : Kernel} {pa : BitVec 64} (hmore : vaFail.va < vaEnd.va)
      (hfail : (k.mapPage root vaFail.va pa kind).2 = -1)
      (hk : (k.mapPage root vaFail.va pa kind).1 = k₁) :
      FailsAt root vaEnd kind vaFail k₁ k vaFail pa
  | later {k : Kernel} {vaCurr : PageVa} {pa : BitVec 64} (hmore : vaCurr.va < vaEnd.va)
      (hok : (k.mapPage root vaCurr.va pa kind).2 ≠ -1)
      (hrest : FailsAt root vaEnd kind vaFail k₁ (k.mapPage root vaCurr.va pa kind).1 vaCurr.next
        (pa + BitVec.ofNat 64 pageSize)) : FailsAt root vaEnd kind vaFail k₁ k vaCurr pa

/-- A failure is rolled back from where it happened. -/
lemma FailsAt.run (h : FailsAt root vaEnd kind vaFail k₁ k vaCurr pa) (vaStart : PageVa) :
    mapRegionLoop k root vaStart vaEnd vaCurr pa kind =
      (k₁.unmapRegion root vaStart vaFail, some (-1)) := by
  induction h with
  | here hmore hfail hk =>
      rw [mapRegionLoop, if_pos hmore]
      simp only [hfail, hk, if_true]
  | later hmore hok _ ih =>
      rw [mapRegionLoop, if_pos hmore]
      simp only [hok, if_false]
      exact ih

/-- **The loop of `map_region`** over `n` pages: it gets to the end for at most four frames a page,
or fails at a page, where the kind is invalid or frames run out. -/
lemma Inv.mapRegionLoop_cases (hfr : InitialFrames frames) (hlt : ∀ f ∈ frames, f < 2 ^ 36)
    (kind : BitVec 8) (vaStart vaEnd : PageVa) (n : ℕ) :
    ∀ {w : World} {fs : List ℕ} {pos : Pos} (vaCurr : PageVa) (pa : BitVec 64),
      Inv frames w fs pos → root ∈ w.roots →
      vaEnd.va.toNat = vaCurr.va.toNat + pageSize * n → pa.toNat + pageSize * n ≤ 2 ^ 36 →
      ((mapRegionLoop w.kernel root vaStart vaEnd vaCurr pa kind).2 = none ∧
        ∃ fs', Takes (4 * n) fs fs' ∧ RegionOutcome frames w fs root vaCurr vaEnd pa
          (mapRegionLoop w.kernel root vaStart vaEnd vaCurr pa kind).1 fs') ∨
      ((3 ≤ kind.toNat ∨ fs.length < 4 * n) ∧ ∃ vaFail k₁ fs',
        vaCurr.va.toNat ≤ vaFail.va.toNat ∧ vaFail.va.toNat < vaEnd.va.toNat ∧
        FailsAt root vaEnd kind vaFail k₁ w.kernel vaCurr pa ∧
        RegionOutcome frames w fs root vaCurr vaFail pa k₁ fs') := by
  induction n with
  | zero =>
      intro w fs pos vaCurr pa hI _ hend _
      obtain rfl : vaCurr = vaEnd := PageVa.ext (BitVec.eq_of_toNat_eq (by omega))
      rw [mapRegionLoop, if_neg (show ¬ vaCurr.va < vaCurr.va from lt_irrefl vaCurr.va.toNat)]
      exact .inl ⟨rfl, fs, .refl fs, .nil (fun _ => rfl) ⟨pos, w.mapped, hI⟩ fun _ h => h⟩
  | succ n ih =>
      intro w fs pos vaCurr pa hI hr hend hpa
      have hmore : vaCurr.va < vaEnd.va := by
        show vaCurr.va.toNat < vaEnd.va.toNat
        simp only [pageSize] at hend
        omega
      have hpalt : pa.toNat < 2 ^ 36 := by
        simp only [pageSize] at hpa
        omega
      rcases hI.mapPage_cases hfr hlt hr vaCurr.va hpalt kind with
        ⟨hok, fs₁, hfirst⟩ | ⟨hfail, fs₁, hrefused⟩
      · obtain ⟨pos₁, mapped₁, hI₁⟩ := hfirst.inv
        have hok' : (w.kernel.mapPage root vaCurr.va pa kind).2 ≠ -1 := by
          rw [hok]
          decide
        obtain ⟨hnext, -⟩ := PageVa.toNat_next hmore
        have hpa' : (pa + BitVec.ofNat 64 pageSize).toNat = pa.toNat + pageSize :=
          toNat_add_page (by simp only [pageSize]; omega)
        simp only [pageSize] at hend hpa hpa' hnext
        have hlap : vaEnd.va.toNat ≤ vaCurr.va.toNat + 2 ^ 48 := by omega
        rcases ih (w := ⟨(w.kernel.mapPage root vaCurr.va pa kind).1, w.roots, mapped₁⟩)
            vaCurr.next (pa + BitVec.ofNat 64 pageSize) hI₁ hr (by simp only [pageSize]; omega)
            (by simp only [pageSize]; omega) with
          ⟨hdone, fs', htakes, hrest⟩ | ⟨hwhy, vaFail, k₁, fs', hle, hlt', hfails, hrest⟩
        · rw [mapRegionLoop, if_pos hmore]
          simp only [hok', if_false]
          exact .inl ⟨hdone, fs', (hfirst.takes.trans htakes).mono (by omega),
            hrest.cons hmore le_rfl (by omega) hlap (by simp only [pageSize]; omega) hfirst⟩
        · have hlen := hfirst.takes.length_le
          exact .inr ⟨by omega, vaFail, k₁, fs', by omega, hlt', .later hmore hok' hfails,
            hrest.cons hmore hlt'.le hle hlap (by simp only [pageSize]; omega) hfirst⟩
      · obtain ⟨pos₁, hI₁⟩ := hrefused.inv
        have hwhy := hrefused.why
        exact .inr ⟨by omega, vaCurr, _, fs₁, le_rfl, hmore, .here hmore hfail rfl,
          .nil (hrefused.same root hr) ⟨pos₁, w.mapped, hI₁⟩ hrefused.takes.subset⟩

/-! ### A region that was not mapped -/

/-- A region mapped to the addresses from `pa` on, and nothing else. -/
structure RegionMapped (frames : List ℕ) (w : World) (root : ℕ) (vaCurr vaEnd : PageVa)
    (pa : BitVec 64) (k' : Kernel) (fs' : List ℕ) : Prop where
  inv : ∃ pos' mapped', Inv frames ⟨k', w.roots, mapped'⟩ fs' pos'
  inside : ∀ p : PageVa, vaCurr.va.toNat ≤ p.va.toNat → p.va.toNat < vaEnd.va.toNat →
    translate k'.mem root p.va = some (pa.toNat + (p.va.toNat - vaCurr.va.toNat))
  outside : ∀ va, ¬ InRegion vaCurr vaEnd va →
    translate k'.mem root va = translate w.mem root va

/-- **The loop of `map_region`** over `n` pages that are not mapped: it fails on a list of fewer
than `4 * n` frames, or takes at most so many and maps the region. -/
lemma Inv.mapRegionLoop_maps (hfr : InitialFrames frames) (hlt : ∀ f ∈ frames, f < 2 ^ 36)
    (hkind : kind.toNat < 3) (vaStart vaEnd : PageVa) (n : ℕ) (vaCurr : PageVa) (pa : BitVec 64)
    (hI : Inv frames w fs pos) (hr : root ∈ w.roots)
    (hend : vaEnd.va.toNat = vaCurr.va.toNat + pageSize * n) (hpa0 : pa ≠ 0)
    (hpa : pa.toNat + pageSize * n ≤ 2 ^ 36)
    (hnone : ∀ va, InRegion vaCurr vaEnd va → translate w.mem root va = none) :
    ((mapRegionLoop w.kernel root vaStart vaEnd vaCurr pa kind).2 = some (-1) ∧
      fs.length < 4 * n) ∨
    ((mapRegionLoop w.kernel root vaStart vaEnd vaCurr pa kind).2 = none ∧
      ∃ fs', Takes (4 * n) fs fs' ∧ RegionMapped frames w root vaCurr vaEnd pa
        (mapRegionLoop w.kernel root vaStart vaEnd vaCurr pa kind).1 fs') := by
  have hpa0' : pa.toNat ≠ 0 := fun h => hpa0 (BitVec.eq_of_toNat_eq h)
  rcases hI.mapRegionLoop_cases hfr hlt kind vaStart vaEnd n vaCurr pa hr hend hpa with
    ⟨hdone, fs', htakes, hall⟩ | ⟨hwhy, vaFail, k₁, fs', -, -, hfails, -⟩
  · refine .inr ⟨hdone, fs', htakes, hall.inv, fun p hle hplt => ?_, hall.outside⟩
    obtain ⟨f, hf, houtcome⟩ := hall.inside p hle hplt
    rw [hf, houtcome.given (hnone p.va ⟨p, hle, hplt, rfl⟩) (by omega)]
  · rw [hfails.run]
    exact .inl ⟨rfl, by omega⟩

/-- `map_region` between two page-aligned addresses is its loop. -/
lemma Kernel.mapRegion_eq (k : Kernel) (root : ℕ) (vaStart vaEnd : PageVa) {paStart : BitVec 64}
    (hpa : paStart.toNat % pageSize = 0) (kind : BitVec 8) :
    k.mapRegion root vaStart.va paStart (vaEnd.va - vaStart.va) kind =
      mapRegionLoop k root vaStart vaEnd vaStart paStart kind := by
  have hend : vaStart.va + (vaEnd.va - vaStart.va) = vaEnd.va := by
    rw [BitVec.add_comm, BitVec.sub_add_cancel]
  have hcond : vaStart.va.toNat % pageSize = 0 ∧
      (vaStart.va + (vaEnd.va - vaStart.va)).toNat % pageSize = 0 ∧
      paStart.toNat % pageSize = 0 := ⟨vaStart.aligned, by rw [hend]; exact vaEnd.aligned, hpa⟩
  rw [Kernel.mapRegion, dif_pos hcond]
  congr 1
  exact PageVa.ext hend

/-! ### Any region -/

/-- The check on the arguments of `map_region`. -/
def RegionAligned (vaStart paStart size : BitVec 64) : Prop :=
  vaStart.toNat % pageSize = 0 ∧ (vaStart + size).toNat % pageSize = 0 ∧
    paStart.toNat % pageSize = 0

instance {vaStart paStart size : BitVec 64} : Decidable (RegionAligned vaStart paStart size) :=
  inferInstanceAs (Decidable (_ ∧ _ ∧ _))

/-- Below the top of the address space an aligned region is a whole number of pages. -/
lemma RegionAligned.eq_pages {vaStart paStart size : BitVec 64}
    (hal : RegionAligned vaStart paStart size) (htop : vaStart.toNat + size.toNat < 2 ^ 64) :
    (vaStart + size).toNat = vaStart.toNat + pageSize * (size.toNat / pageSize) ∧
      pageSize * (size.toNat / pageSize) = size.toNat := by
  obtain ⟨hstart, hend, -⟩ := hal
  have hsum : (vaStart + size).toNat = vaStart.toNat + size.toNat := by
    rw [BitVec.toNat_add, Nat.mod_eq_of_lt htop]
  have hpages : pageSize * (size.toNat / pageSize) = size.toNat := by
    rw [hsum] at hend
    exact Nat.mul_div_cancel' ((Nat.dvd_add_right (Nat.dvd_of_mod_eq_zero hstart)).mp
      (Nat.dvd_of_mod_eq_zero hend))
  exact ⟨by rw [hpages, hsum], hpages⟩

/-- **`map_region`** on aligned arguments, for a region that ends below the top of the address
space: where a call reports no failure, every page of the region has its outcome. -/
theorem mapRegion_maps (b : Boot) (hw : b.Reaches w) (hr : root ∈ w.roots)
    {vaStart paStart size : BitVec 64} (hal : RegionAligned vaStart paStart size)
    (hpa : paStart.toNat + size.toNat ≤ 2 ^ 36) (htop : vaStart.toNat + size.toNat < 2 ^ 64)
    (hok : (w.kernel.mapRegion root vaStart paStart size kind).2 ≠ some (-1)) {i : ℕ}
    (hi : i * pageSize < size.toNat) :
    ∃ f, translate (w.kernel.mapRegion root vaStart paStart size kind).1.mem root
        (vaStart + BitVec.ofNat 64 (i * pageSize)) = some f ∧
      PageOutcome w root (vaStart + BitVec.ofNat 64 (i * pageSize))
        (paStart.toNat + i * pageSize) f := by
  obtain ⟨fs, pos, hI⟩ := hw.inv
  obtain ⟨hsum, hpages⟩ := hal.eq_pages htop
  obtain ⟨hstart, hend, hstart'⟩ := hal
  have hpage : (vaStart + BitVec.ofNat 64 (i * pageSize)).toNat =
      vaStart.toNat + i * pageSize := by
    rw [BitVec.toNat_add, BitVec.toNat_ofNat, Nat.mod_eq_of_lt (by omega),
      Nat.mod_eq_of_lt (by omega)]
  have hpal : (vaStart + BitVec.ofNat 64 (i * pageSize)).toNat % pageSize = 0 := by
    rw [hpage, Nat.add_mul_mod_self_right, hstart]
  rw [Kernel.mapRegion, dif_pos ⟨hstart, hend, hstart'⟩] at hok ⊢
  rcases hI.mapRegionLoop_cases b.initial b.lt kind ⟨vaStart, hstart⟩
      ⟨vaStart + size, hend⟩ (size.toNat / pageSize) ⟨vaStart, hstart⟩ paStart hr
      hsum (by rw [hpages]; exact hpa) with
    ⟨-, fs', -, hall⟩ | ⟨-, vaFail, k₁, fs', -, -, hfails, -⟩
  · obtain ⟨f, hf, houtcome⟩ := hall.inside ⟨vaStart + BitVec.ofNat 64 (i * pageSize), hpal⟩
      (by simp only; omega) (by simp only; omega)
    have haddr : paStart.toNat + ((vaStart + BitVec.ofNat 64 (i * pageSize)).toNat -
        vaStart.toNat) = paStart.toNat + i * pageSize := by omega
    simp only [haddr] at houtcome
    exact ⟨f, hf, houtcome⟩
  · rw [hfails.run] at hok
    exact absurd rfl hok

/-- `map_page` finds a page that is mapped. -/
lemma mapPage_of_translate (hf : translate k.mem root va = some f) (hne : f ≠ 0) :
    k.mapPage root va pa kind = (k, 0) := by
  simp only [Kernel.mapPage, getPhysicalPage_of_translate hf, if_neg hne]

/-- A region of one page that is mapped. -/
lemma mapRegion_of_found (hfound : k.mapPage 4096 0 0xC000 0 = (k, 0)) :
    k.mapRegion 4096 0 0xC000 0x1000 0 = (k, none) := by
  have hal : (0 : BitVec 64).toNat % pageSize = 0 ∧
      ((0 : BitVec 64) + 0x1000).toNat % pageSize = 0 ∧
      (0xC000 : BitVec 64).toNat % pageSize = 0 := by decide
  have hmore : (0 : BitVec 64) < 0 + 0x1000 := by decide
  have hdone : ¬ (0 + BitVec.ofNat 64 pageSize : BitVec 64) < 0 + 0x1000 := by decide
  rw [Kernel.mapRegion, dif_pos hal, mapRegionLoop, if_pos hmore]
  simp only [hfound]
  rw [if_neg (by decide), mapRegionLoop]
  exact if_neg hdone

/-- The page at address 0 is at `0xB000`, and `map_region` leaves it there. -/
lemma smallMapped_mapRegion :
    translate (smallMapped 0 0xB000).kernel.mem 4096 0 = some 0xB000 ∧
      (smallMapped 0 0xB000).kernel.mapRegion 4096 0 0xC000 0x1000 0 =
        ((smallMapped 0 0xB000).kernel, none) := by
  have hf := smallMapped_translate
  rw [World.mem] at hf
  exact ⟨hf, mapRegion_of_found (mapPage_of_translate hf (by simp))⟩

/-- A page mapped again stays where it is. -/
theorem mapRegion_maps_small :
    ∃ f, translate ((smallMapped 0 0xB000).kernel.mapRegion 4096 0 0xC000 0x1000 0).1.mem 4096
        (0 + BitVec.ofNat 64 (0 * pageSize)) = some f ∧
      PageOutcome (smallMapped 0 0xB000) 4096 (0 + BitVec.ofNat 64 (0 * pageSize))
        ((0xC000 : BitVec 64).toNat + 0 * pageSize) f :=
  mapRegion_maps smallBoot (smallMapped_reaches 0 smallPage_lt) (smallMapped_root 0 0xB000)
    (by decide) (by decide) (by decide)
    (by rw [smallMapped_mapRegion.2]; simp) (by decide)

/-- A page mapped again is not moved to the address given. -/
theorem mapRegion_keeps_old :
    smallBoot.Reaches (smallMapped 0 0xB000) ∧ 4096 ∈ (smallMapped 0 0xB000).roots ∧
      RegionAligned 0 0xC000 0x1000 ∧
      ((smallMapped 0 0xB000).kernel.mapRegion 4096 0 0xC000 0x1000 0).2 ≠ some (-1) ∧
      translate ((smallMapped 0 0xB000).kernel.mapRegion 4096 0 0xC000 0x1000 0).1.mem 4096 0 ≠
        some 0xC000 := by
  have hkept : ∀ k : Kernel, translate k.mem 4096 0 = some 0xB000 →
      k.mapRegion 4096 0 0xC000 0x1000 0 = (k, none) →
      (k.mapRegion 4096 0 0xC000 0x1000 0).2 ≠ some (-1) ∧
        translate (k.mapRegion 4096 0 0xC000 0x1000 0).1.mem 4096 0 ≠ some 0xC000 := by
    intro k hf hrun
    rw [hrun]
    exact ⟨by simp, ne_of_eq_of_ne hf (by simp)⟩
  exact ⟨smallMapped_reaches 0 smallPage_lt, smallMapped_root 0 0xB000, by decide,
    hkept _ smallMapped_mapRegion.1 smallMapped_mapRegion.2⟩

end SkinnyArm
