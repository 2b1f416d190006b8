import SkinnyArm.PageTree.FreePage
import SkinnyArm.PageTree.LeafEntry

/-!
What is left of a call of `map_region` that fails.

* **The walk up** stays within the tables it climbs and page zero, and the free list is kept or
  lost as a whole (`Tree.climbs_within`).
* **One page** that `free_page` gets to by its own tables and whose frame begins with a zero word
  (`GetsThrough`) loses its translation and nothing else does (`Tree.freed_through`).
* **The pages before the failing one** are met by `free_page` one after the other (`EachPage`).
  Where it stops early at a page or gets through, the call is undone exactly if it stops early at
  the pages that were mapped before and gets through at the others (`Tree.rolledBack`,
  `mapRegion_undone`).
-/

namespace SkinnyArm

open ByteMemory Forest

variable {frames fs : List ℕ} {w : World} {pos : Pos} {m m' m'' : ByteMemory} {k k' k₁ : Kernel}
  {root t c f g n : ℕ} {va va' : BitVec 64} {vaCurr vaEnd vaFail : PageVa}

/-! ### Changes within the tables of a tree -/

/-- A memory whose tree has no new tables and that differs in tables and page zero only. -/
structure Within (m m' : ByteMemory) (root : ℕ) : Prop where
  sub : ∀ {q : List (Fin 512)} {t : ℕ}, q.length ≤ 3 → walk (edge m') root q = some t →
    walk (edge m) root q = some t
  eqOn : ∀ {x : ℕ}, x ∉ page 0 →
    (∀ q : List (Fin 512), q.length ≤ 3 → ∀ t, walk (edge m) root q = some t → x ∉ page t) →
    m' x = m x

namespace Within

lemma refl (m : ByteMemory) (root : ℕ) : Within m m root := ⟨fun _ h => h, fun _ _ => rfl⟩

lemma trans (h : Within m m' root) (h' : Within m' m'' root) : Within m m'' root where
  sub hq hw := h.sub hq (h'.sub hq hw)
  eqOn h0 hx :=
    (h'.eqOn h0 fun q hq t hw => hx q hq t (h.sub hq hw)).trans (h.eqOn h0 hx)

/-- The free list is not concerned. -/
lemma freeList (h : Within k.mem k'.mem root) (hT : Tree k.mem root) (hlist : FreeList k fs)
    (hoff : ∀ g ∈ fs, ∀ q : List (Fin 512), q.length ≤ 3 → walk (edge k.mem) root q ≠ some g)
    (hhead : k'.pageFrameLinkedList = k.pageFrameLinkedList) : FreeList k' fs where
  chain := by
    rw [hhead]
    refine hlist.chain.congr fun g hg => congrArg BitVec.toNat (load64_congr fun x hx => ?_)
    have hpage : x ∈ page g := link_subset_page hx
    have hal := hlist.aligned g hg
    refine h.eqOn ?_ fun q hq t hw => ?_
    · exact Set.disjoint_left.mp (page_disjoint hal (Nat.dvd_zero _) (hlist.ne_zero hg)) hpage
    · have hne : g ≠ t := fun hgt => hoff g hg q hq (hgt ▸ hw)
      exact Set.disjoint_left.mp (page_disjoint hal (hT.frame hq hw).1 hne) hpage
  aligned := hlist.aligned
  lt := hlist.lt

end Within

/-- An entry cut off changes its table only. -/
lemma Cut.within (h : Cut m m' root va n) (hn : n ≤ 3) (ht : tableAt m root va n = some t)
    (heq : Set.EqOn m' m (page t ∪ page 0)ᶜ) : Within m m' root where
  sub {q b} hq hw := by
    by_cases hpath : q = (path va).take (n + 1)
    · rw [hpath, h.walk_self] at hw
      exact absurd hw (by simp)
    · exact (h.walk_other q (by omega) hpath).symm.trans hw
  eqOn {x} h0 hx := by
    refine heq fun hin => hin.elim ?_ h0
    exact hx _ (by rw [take_path_length] <;> omega) t ht

/-- **The walk up** changes the tables it climbs and page zero only, and keeps the head of the free
list unless it empties it. -/
lemma Tree.climbs_within (table : ℕ → ℕ) (n : ℕ) (hn : n ≤ 3) :
    ∀ {k : Kernel} {c : ℕ}, Tree k.mem root → (∀ i ≤ n, tableAt k.mem root va i = some (table i)) →
      edge k.mem (table n) (lvlAddr va n) = some c → (n < 3 → ∀ j, edge k.mem c j = none) →
      Within k.mem (freePageUp va (upList table n) k).mem root ∧
        ((freePageUp va (upList table n) k).pageFrameLinkedList = 0 ∨
          (freePageUp va (upList table n) k).pageFrameLinkedList = k.pageFrameLinkedList) := by
  refine Tree.climb_induction table (R := fun n k k' => Within k.mem k'.mem root ∧
    (k'.pageFrameLinkedList = 0 ∨ k'.pageFrameLinkedList = k.pageFrameLinkedList)) ?_ ?_ ?_ n hn
  · intro n k m' hn ht hcut heq
    refine ⟨hcut.within hn ht (heq.mono ?_), .inr rfl⟩
    exact Set.compl_subset_compl.mpr Set.subset_union_left
  · intro k k' ht hleft
    exact ⟨hleft.cut.within (Nat.zero_le 3) ht hleft.eqOn, .inl hleft.head⟩
  · intro n k k₂ k' hn ht hleft ⟨hup, hlist⟩
    refine ⟨(hleft.cut.within hn ht hleft.eqOn).trans hup, .inl ?_⟩
    rcases hlist with h0 | hsame
    · exact h0
    · exact hsame.trans hleft.head

/-! ### A page freed by way of its own tables -/

/-- The walk down meets the tables of the page itself, and then a frame. -/
def OwnTables (m : ByteMemory) (root : ℕ) (va : BitVec 64) (g : ℕ) : Prop :=
  ∃ table : ℕ → ℕ, table 0 = root ∧ (∀ i ≤ 3, tableAt m root va i = some (table i)) ∧
    freePageDown m root va [1, 2, 3, 4] root = some [table 1, table 2, table 3, g]

/-- The walk down meets the tables of the page itself, and then a frame that begins with a zero
word. -/
def GetsThrough (m : ByteMemory) (root : ℕ) (va : BitVec 64) : Prop :=
  ∃ g, OwnTables m root va g ∧ pageSize ∣ g ∧ nextFrame m g = 0

lemma GetsThrough.not_stopsEarly (h : GetsThrough m root va) : ¬ StopsEarly m root va := by
  obtain ⟨g, ⟨table, -, -, hdown⟩, -⟩ := h
  intro hstop
  rw [(freePageDown_eq_none m root va [1, 2, 3, 4] root).mpr hstop] at hdown
  exact absurd hdown (by simp)

/-- `kfree` of a frame that begins with a zero word writes to page zero only, and keeps the head of
the free list unless it empties it. -/
lemma Kernel.kfree_null (hal : pageSize ∣ g) (hnull : nextFrame k.mem g = 0)
    (hhead : k.pageFrameLinkedList < 2 ^ 64) :
    Set.EqOn (k.kfree (.at g)).mem k.mem (page 0)ᶜ ∧
      ((k.kfree (.at g)).pageFrameLinkedList = 0 ∨
        (k.kfree (.at g)).pageFrameLinkedList = k.pageFrameLinkedList) := by
  have hderef : (PageVar.at g).deref k.mem = 0 := hnull
  rcases Nat.eq_zero_or_pos g with rfl | hpos
  · have hclear : (PageVar.at 0).deref (k.mem.clear 0 pageSize) = 0 :=
      congrArg BitVec.toNat (load64_clear_of_subset (by simp [pageSize]))
    have hrun : k.kfree (.at 0) =
        { mem := (k.mem.clear 0 pageSize).store64 0 (BitVec.ofNat 64 k.pageFrameLinkedList)
          pageFrameLinkedList := k.pageFrameLinkedList } := by
      simp only [Kernel.kfree, hderef, clearPage_eq, hclear]
      simp only [PageVar.deref, load64_store64_self, BitVec.toNat_ofNat, Nat.mod_eq_of_lt hhead]
    rw [hrun]
    refine ⟨Set.EqOn.trans (store64_eqOn.mono ?_) clear_eqOn, .inr rfl⟩
    exact Set.compl_subset_compl.mpr link_subset_page
  · have hout : (PageVar.at g).Outside 0 := .inr (by
      have hle := Nat.le_of_dvd hpos hal
      omega)
    exact ⟨Kernel.kfree_eqOn hderef hout, .inl (by rw [Kernel.kfree_eq hderef hout])⟩

/-- **A page that `free_page` gets through to** alone loses its translation. -/
lemma Tree.freed_through (hT : Tree k.mem root) (hthrough : GetsThrough k.mem root va)
    (hf : translate k.mem root va = some f) (hhead : k.pageFrameLinkedList < 2 ^ 64) :
    Climbed k.mem root va 3 (k.freePage root va) ∧ Within k.mem (k.freePage root va).mem root ∧
      ((k.freePage root va).pageFrameLinkedList = 0 ∨
        (k.freePage root va).pageFrameLinkedList = k.pageFrameLinkedList) := by
  obtain ⟨g, ⟨table, htable, htab, hdown⟩, hal, hnull⟩ := hthrough
  obtain ⟨hkfree, hhead₁⟩ := Kernel.kfree_null hal hnull hhead
  obtain ⟨hT', hwalk⟩ := hT.of_eqOn_page_zero hkfree
  obtain ⟨hrun, htab', hedge⟩ := freePage_eq_freePageUp htable htab hdown hwalk hf
  have hlast : 3 < 3 → ∀ j, edge (k.kfree (.at g)).mem f j = none := fun h => absurd h (by omega)
  obtain ⟨hup, -⟩ := hT'.climbs table 3 le_rfl htab' hedge hlast
  obtain ⟨hwithin, hhead₂⟩ := hT'.climbs_within table 3 le_rfl htab' hedge hlast
  have hfirst : Within k.mem (k.kfree (.at g)).mem root :=
    ⟨fun hq hw => (hwalk _ (by omega)).symm.trans hw, fun h0 _ => hkfree h0⟩
  rw [hrun]
  refine ⟨⟨hup.tree, fun va' hva => (hup.others va' hva).trans (hwalk _ (by rw [path_length])),
    hup.self⟩, hfirst.trans hwithin, ?_⟩
  rcases hhead₂ with h0 | hsame
  · exact .inl h0
  · rw [hsame]
    exact hhead₁

/-! ### The pages before the failing one -/

/-- `free_page` meets every page of a region in a state with a property. -/
inductive EachPage (P : Kernel → BitVec 64 → Prop) (root : ℕ) (vaEnd : PageVa) :
    Kernel → PageVa → Prop
  | done {k : Kernel} {vaCurr : PageVa} (h : ¬ vaCurr.va < vaEnd.va) :
      EachPage P root vaEnd k vaCurr
  | page {k : Kernel} {vaCurr : PageVa} (h : vaCurr.va < vaEnd.va) (hpage : P k vaCurr.va)
      (hrest : EachPage P root vaEnd (k.freePage root vaCurr.va) vaCurr.next) :
      EachPage P root vaEnd k vaCurr

lemma eachPage_iff {P : Kernel → BitVec 64 → Prop} (h : vaCurr.va < vaEnd.va) :
    EachPage P root vaEnd k vaCurr ↔
      P k vaCurr.va ∧ EachPage P root vaEnd (k.freePage root vaCurr.va) vaCurr.next := by
  refine ⟨fun heach => ?_, fun heach => .page h heach.1 heach.2⟩
  cases heach with
  | done hdone => exact absurd h hdone
  | page _ hpage hrest => exact ⟨hpage, hrest⟩

lemma EachPage.mono {P Q : Kernel → BitVec 64 → Prop} (hPQ : ∀ k va, P k va → Q k va)
    (h : EachPage P root vaEnd k vaCurr) : EachPage Q root vaEnd k vaCurr := by
  induction h with
  | done hdone => exact .done hdone
  | page hmore hpage _ ih => exact .page hmore (hPQ _ _ hpage) ih

/-- `free_page` stops early at a page or gets through to it. -/
def Tame (root : ℕ) : PageVa → Kernel → PageVa → Prop :=
  EachPage (fun k va => StopsEarly k.mem root va ∨ GetsThrough k.mem root va) root

/-- `free_page` stops early at a page that was mapped before, and gets through to one that was
not. -/
def Restores (w : World) (root : ℕ) : PageVa → Kernel → PageVa → Prop :=
  EachPage (fun k va => (StopsEarly k.mem root va ∧ translate w.mem root va ≠ none) ∨
    (GetsThrough k.mem root va ∧ translate w.mem root va = none)) root

lemma Restores.tame (h : Restores w root vaEnd k vaCurr) : Tame root vaEnd k vaCurr :=
  h.mono fun _ _ hpage => hpage.imp And.left And.left

/-- What `free_page` leaves of a page that is mapped and that it stops early at or gets through
to. -/
lemma Tree.freed_tame (hT : Tree k.mem root) (hlist : FreeList k fs)
    (htame : StopsEarly k.mem root va ∨ GetsThrough k.mem root va)
    (hmapped : translate k.mem root va ≠ none) :
    Tree (k.freePage root va).mem root ∧ Within k.mem (k.freePage root va).mem root ∧
      ((k.freePage root va).pageFrameLinkedList = 0 ∨
        (k.freePage root va).pageFrameLinkedList = k.pageFrameLinkedList) ∧
      (∀ va', vpn va' ≠ vpn va →
        translate (k.freePage root va).mem root va' = translate k.mem root va') ∧
      (StopsEarly k.mem root va → k.freePage root va = k) ∧
      (GetsThrough k.mem root va → translate (k.freePage root va).mem root va = none) := by
  rcases htame with hstop | hthrough
  · have hsame : k.freePage root va = k := freePage_of_stopsEarly hstop
    refine ⟨?_, ?_, ?_, fun va' _ => ?_, fun _ => hsame, fun h => absurd hstop h.not_stopsEarly⟩
    · rwa [hsame]
    · rw [hsame]
      exact .refl _ _
    · exact .inr (by rw [hsame])
    · rw [hsame]
  · obtain ⟨f, hf⟩ := Option.ne_none_iff_exists'.mp hmapped
    obtain ⟨hclimbed, hwithin, hhead⟩ := hT.freed_through hthrough hf hlist.head_lt
    exact ⟨hclimbed.tree, hwithin, hhead, fun va' hva => hclimbed.others va' (.inr hva),
      fun hstop => absurd hstop hthrough.not_stopsEarly, fun _ => hclimbed.self⟩

/-- The free list after one page: the old one, or none. -/
lemma Within.exists_freeList (h : Within k.mem k'.mem root) (hT : Tree k.mem root)
    (hlist : FreeList k fs)
    (hoff : ∀ g ∈ fs, ∀ q : List (Fin 512), q.length ≤ 3 → walk (edge k.mem) root q ≠ some g)
    (hhead : k'.pageFrameLinkedList = 0 ∨ k'.pageFrameLinkedList = k.pageFrameLinkedList) :
    ∃ fs', FreeList k' fs' ∧ fs' ⊆ fs := by
  rcases hhead with h0 | hsame
  · refine ⟨[], ⟨?_, by simp, by simp⟩, List.nil_subset fs⟩
    rw [h0]
    exact .nil
  · exact ⟨fs, h.freeList hT hlist hoff hsame, fun _ hx => hx⟩

/-- What a rollback from `vaCurr` leaves. -/
structure RolledBack (w : World) (root : ℕ) (vaCurr vaEnd : PageVa) (k : Kernel) (fs : List ℕ)
    (k' : Kernel) : Prop where
  list : ∃ fs', FreeList k' fs' ∧ fs' ⊆ fs
  outside : ∀ va, ¬ InRegion vaCurr vaEnd va →
    translate k'.mem root va = translate k.mem root va
  restored : Restores w root vaEnd k vaCurr ↔ ∀ p : PageVa, vaCurr.va.toNat ≤ p.va.toNat →
    p.va.toNat < vaEnd.va.toNat → translate k'.mem root p.va = translate w.mem root p.va

/-- **The rollback** of pages that are mapped, those that were before to where they were: the
translations are restored exactly if `free_page` stops early at the pages mapped before and gets
through to the others. -/
lemma Tree.rolledBack (htame : Tame root vaEnd k vaCurr) :
    ∀ {fs : List ℕ}, Tree k.mem root → FreeList k fs →
      (∀ g ∈ fs, ∀ q : List (Fin 512), q.length ≤ 3 → walk (edge k.mem) root q ≠ some g) →
      vaEnd.va.toNat ≤ vaCurr.va.toNat + 2 ^ 48 →
      (∀ p : PageVa, vaCurr.va.toNat ≤ p.va.toNat → p.va.toNat < vaEnd.va.toNat →
        translate k.mem root p.va ≠ none ∧
        ∀ g, translate w.mem root p.va = some g → translate k.mem root p.va = some g) →
      RolledBack w root vaCurr vaEnd k fs (k.unmapRegion root vaCurr vaEnd) := by
  induction htame with
  | @done k vaCurr h =>
      intro fs hT hlist hoff hlap hpages
      rw [Kernel.unmapRegion, if_neg h]
      refine ⟨⟨fs, hlist, fun _ hx => hx⟩, fun _ _ => rfl, fun _ p hle hlt => ?_, fun _ => .done h⟩
      exact absurd (show vaCurr.va.toNat < vaEnd.va.toNat by omega) h
  | @page k vaCurr h htame _ ih =>
      intro fs hT hlist hoff hlap hpages
      have hlt : vaCurr.va.toNat < vaEnd.va.toNat := h
      obtain ⟨hnext, -⟩ := PageVa.toNat_next h
      obtain ⟨hmapped, hkept⟩ := hpages vaCurr le_rfl hlt
      obtain ⟨hT₁, hwithin, hhead, hothers, hstopped, hgone⟩ :=
        hT.freed_tame hlist htame hmapped
      obtain ⟨fs₁, hlist₁, hsub₁⟩ := hwithin.exists_freeList hT hlist hoff hhead
      -- the pages after the first one are as they were
      have hpages₁ : ∀ p : PageVa, vaCurr.next.va.toNat ≤ p.va.toNat →
          p.va.toNat < vaEnd.va.toNat →
          translate (k.freePage root vaCurr.va).mem root p.va = translate k.mem root p.va := by
        intro p hle hplt
        refine hothers p.va fun hvpn => not_inRegion_next h hlap ⟨p, ?_, hplt, hvpn⟩
        exact hle
      have hrest := ih hT₁ hlist₁ (fun g hg q hq hw => hoff g (hsub₁ hg) q hq (hwithin.sub hq hw))
        (by omega) fun p hle hplt => by
          rw [hpages₁ p hle hplt]
          exact hpages p (by omega) hplt
      have hself := hrest.outside vaCurr.va (not_inRegion_next h hlap)
      rw [Kernel.unmapRegion, if_pos h]
      refine ⟨?_, fun va hout => ?_, ?_⟩
      · obtain ⟨fs₂, hlist₂, hsub₂⟩ := hrest.list
        exact ⟨fs₂, hlist₂, fun x hx => hsub₁ (hsub₂ hx)⟩
      · rw [inRegion_iff h, not_or] at hout
        exact (hrest.outside va hout.2).trans (hothers va fun hvpn => hout.1 hvpn.symm)
      · have hfirst : ((StopsEarly k.mem root vaCurr.va ∧ translate w.mem root vaCurr.va ≠ none) ∨
            (GetsThrough k.mem root vaCurr.va ∧ translate w.mem root vaCurr.va = none)) ↔
            translate (k.freePage root vaCurr.va).mem root vaCurr.va =
              translate w.mem root vaCurr.va := by
          rcases htame with hstop | hthrough
          · rw [hstopped hstop]
            refine ⟨fun hor => ?_, fun heq => .inl ⟨hstop, heq ▸ hmapped⟩⟩
            rcases hor with ⟨-, hbefore⟩ | ⟨hthrough, -⟩
            · obtain ⟨g, hg⟩ := Option.ne_none_iff_exists'.mp hbefore
              rw [hg, hkept g hg]
            · exact absurd hstop hthrough.not_stopsEarly
          · rw [hgone hthrough]
            refine ⟨fun hor => ?_, fun heq => .inr ⟨hthrough, heq.symm⟩⟩
            rcases hor with ⟨hstop, -⟩ | ⟨-, hnone⟩
            · exact absurd hstop hthrough.not_stopsEarly
            · exact hnone.symm
        rw [Restores, eachPage_iff h, hfirst, ← hself]
        refine ⟨fun hall p hle hplt => ?_, fun hall => ⟨hall vaCurr le_rfl hlt, ?_⟩⟩
        · rcases PageVa.eq_or_next_le hle with heq | hle'
          · rw [heq]
            exact hall.1
          · exact hrest.restored.mp hall.2 p (by omega) hplt
        · exact hrest.restored.mpr fun p hle hplt => hall p (by omega) hplt

/-! ### A failed call -/

/-- A call of `map_region` reports failure and leaves the address space as it was; it lists neither
a frame of the region that was not listed nor the root. -/
structure MapRegionUndone (w : World) (root : ℕ) (paStart size : BitVec 64)
    (result : Kernel × Option ℤ) : Prop where
  code : result.2 = some (-1)
  same : ∀ va, translate result.1.mem root va = translate w.mem root va
  passed : ∀ i, i * pageSize < size.toNat → result.1.Lists (paStart.toNat + i * pageSize) →
    w.kernel.Lists (paStart.toNat + i * pageSize)
  root : ¬ result.1.Lists root

/-- The lists agree in what `MapRegionUndone` says of them if the new one is part of the old. -/
lemma Inv.mapRegionUndone {fs' : List ℕ} {paStart size : BitVec 64} (hI : Inv frames w fs pos)
    (hr : root ∈ w.roots) (hlist : FreeList k' fs') (hsub : fs' ⊆ fs)
    (hsame : ∀ va, translate k'.mem root va = translate w.mem root va) :
    MapRegionUndone w root paStart size (k', some (-1)) where
  code := rfl
  same := hsame
  passed _ _ hlists := hI.list.lists_iff.mpr (hsub (hlist.lists_iff.mp hlists))
  root hlists := hI.notMem_free (hI.planted.root root hr) (hsub (hlist.lists_iff.mp hlists))

/-- **A failure at a page**: where the rollback is tame, the call is undone exactly if the rollback
restores what was there. -/
lemma Inv.mapRegionUndone_iff {fs' : List ℕ} {pa paStart size : BitVec 64}
    (hI : Inv frames w fs pos) (hfr : InitialFrames frames) (hr : root ∈ w.roots)
    (hlap : vaFail.va.toNat ≤ vaCurr.va.toNat + 2 ^ 48)
    (hmapped : RegionOutcome frames w fs root vaCurr vaFail pa k₁ fs')
    (htame : Tame root vaFail k₁ vaCurr) :
    MapRegionUndone w root paStart size (k₁.unmapRegion root vaCurr vaFail, some (-1)) ↔
      Restores w root vaFail k₁ vaCurr := by
  obtain ⟨pos₁, mapped₁, hI₁⟩ := hmapped.inv
  have hlist₁ : FreeList k₁ _ := hI₁.list
  have hT : Tree k₁.mem root := hI₁.tree hfr hr
  have hback := Tree.rolledBack (w := w) htame hT hlist₁
    (fun g hg q hq hw => hI₁.notMem_free (hI₁.planted.pos_of_walk hr hq hw) hg) hlap
    fun p hle hlt => by
      obtain ⟨f, hf, houtcome⟩ := hmapped.inside p hle hlt
      exact ⟨by simp [hf], fun g hg => by rw [hf, houtcome.kept g hg]⟩
  rw [hback.restored]
  refine ⟨fun h p _ _ => h.same p.va, fun hall => ?_⟩
  obtain ⟨fs₂, hlist₂, hsub₂⟩ := hback.list
  refine hI.mapRegionUndone hr hlist₂ (fun x hx => hmapped.sub (hsub₂ hx)) fun va => ?_
  by_cases hin : InRegion vaCurr vaFail va
  · obtain ⟨p, hle, hlt, hvpn⟩ := hin
    rw [← translate_congr_vpn hvpn, ← translate_congr_vpn hvpn]
    exact hall p hle hlt
  · exact (hback.outside va hin).trans (hmapped.outside va hin)

/-- **A call that fails**: on arguments that are not aligned it is undone, else it failed at some
page, and it is undone if the rollback of the pages before that restores what was there; of the
tame rollbacks, by no other. -/
theorem mapRegion_undone (b : Boot) (hw : b.Reaches w) (hr : root ∈ w.roots)
    (vaStart paStart size : BitVec 64) (kind : BitVec 8)
    (hpa : paStart.toNat + size.toNat ≤ 2 ^ 36)
    (hfail : (w.kernel.mapRegion root vaStart paStart size kind).2 ≠ none) :
    (¬ RegionAligned vaStart paStart size → MapRegionUndone w root paStart size
      (w.kernel.mapRegion root vaStart paStart size kind)) ∧
    ∀ hal : RegionAligned vaStart paStart size, ∃ vaFail k₁,
      FailsAt root ⟨vaStart + size, hal.2.1⟩ kind vaFail k₁ w.kernel ⟨vaStart, hal.1⟩ paStart ∧
      (Restores w root vaFail k₁ ⟨vaStart, hal.1⟩ → MapRegionUndone w root paStart size
        (w.kernel.mapRegion root vaStart paStart size kind)) ∧
      (Tame root vaFail k₁ ⟨vaStart, hal.1⟩ → MapRegionUndone w root paStart size
        (w.kernel.mapRegion root vaStart paStart size kind) →
        Restores w root vaFail k₁ ⟨vaStart, hal.1⟩) := by
  obtain ⟨fs, pos, hI⟩ := hw.inv
  refine ⟨fun hal => ?_, fun hal => ?_⟩
  · have hrun : w.kernel.mapRegion root vaStart paStart size kind = (w.kernel, some (-1)) := by
      rw [Kernel.mapRegion]
      exact dif_neg hal
    rw [hrun]
    exact hI.mapRegionUndone hr hI.list (fun _ hx => hx) fun _ => rfl
  · have hrun : w.kernel.mapRegion root vaStart paStart size kind =
        mapRegionLoop w.kernel root ⟨vaStart, hal.1⟩ ⟨vaStart + size, hal.2.1⟩ ⟨vaStart, hal.1⟩
          paStart kind := by
      rw [Kernel.mapRegion]
      exact dif_pos hal
    rw [hrun] at hfail ⊢
    -- a region that runs over the top has no pages for the loop
    have htop : vaStart.toNat + size.toNat < 2 ^ 64 := by
      by_contra hover
      refine hfail ?_
      have hdone : ¬ vaStart < vaStart + size := by
        show ¬ vaStart.toNat < (vaStart + size).toNat
        have := vaStart.isLt
        have := size.isLt
        rw [BitVec.toNat_add]
        omega
      rw [mapRegionLoop]
      simp only [if_neg hdone]
    obtain ⟨hsum, hpages⟩ := hal.eq_pages htop
    rcases hI.mapRegionLoop_cases b.initial b.lt kind ⟨vaStart, hal.1⟩ ⟨vaStart + size, hal.2.1⟩
        (size.toNat / pageSize) ⟨vaStart, hal.1⟩ paStart hr hsum (by rw [hpages]; exact hpa) with
      ⟨hdone, -⟩ | ⟨-, vaFail, k₁, fs', hle, hlt, hfails, hmapped⟩
    · exact absurd hdone hfail
    · have hlap : vaFail.va.toNat ≤ vaStart.toNat + 2 ^ 48 := by
        simp only at hlt
        omega
      rw [hfails.run]
      refine ⟨vaFail, k₁, hfails, fun hrestores => ?_, fun htame hundone => ?_⟩
      · exact (hI.mapRegionUndone_iff b.initial hr hlap hmapped hrestores.tame).mpr hrestores
      · exact (hI.mapRegionUndone_iff b.initial hr hlap hmapped htame).mp hundone

/-! ### Failures at the first two pages -/

/-- A page with its tables is refused for a kind that does not exist. -/
lemma mapPage_refused {pa : BitVec 64} {kind : BitVec 8} (ht : tableAt k.mem root va 3 = some t)
    (hunset : ¬ IsSet (entry k.mem t (lvlAddr va 3))) (hpa : pa ≠ 0#64)
    (hkind : explicitEntry kind pa = none) : k.mapPage root va pa kind = (k, -1) := by
  have hlooked : k.getPhysicalPage root va pa kind = (k, 0) := by
    rw [getPhysicalPage_of_tableAt ht]
    simp [getPhysicalPageFrom, getPhysicalPageLevel, hunset, hpa, hkind]
  simp only [Kernel.mapPage, hlooked, if_true]

/-- There is one page at which a call fails. -/
lemma FailsAt.unique {pa : BitVec 64} {kind : BitVec 8} {vaFail' : PageVa} {k₁' : Kernel}
    (h : FailsAt root vaEnd kind vaFail k₁ k vaCurr pa)
    (h' : FailsAt root vaEnd kind vaFail' k₁' k vaCurr pa) : vaFail = vaFail' ∧ k₁ = k₁' := by
  induction h with
  | here _ hfail hk =>
      cases h' with
      | here _ _ hk' => exact ⟨rfl, hk.symm.trans hk'⟩
      | later _ hok _ => exact absurd hfail hok
  | later _ hok _ ih =>
      cases h' with
      | here _ hfail _ => exact absurd hfail hok
      | later _ _ hrest => exact ih hrest

/-- The first page of a region refused. -/
lemma FailsAt.first {vaStart vaEnd : PageVa} {pa : BitVec 64} {kind : BitVec 8}
    (hmore : vaStart.va < vaEnd.va) (hrefused : k.mapPage root vaStart.va pa kind = (k, -1)) :
    FailsAt root vaEnd kind vaStart k k vaStart pa :=
  .here hmore (by rw [hrefused]) (by rw [hrefused])

/-- The second page of a region refused. -/
lemma FailsAt.second {vaStart vaEnd : PageVa} {pa : BitVec 64} {kind : BitVec 8}
    (hmore : vaStart.va < vaEnd.va) (hmore' : vaStart.next.va < vaEnd.va)
    (hfound : k.mapPage root vaStart.va pa kind = (k, 0))
    (hrefused : k.mapPage root vaStart.next.va (pa + BitVec.ofNat 64 pageSize) kind = (k, -1)) :
    FailsAt root vaEnd kind vaStart.next k k vaStart pa := by
  refine .later hmore (by simp [hfound]) ?_
  rw [hfound]
  exact .first hmore' hrefused

/-- A failure of `map_region` on aligned arguments. -/
lemma FailsAt.mapRegion {vaStart paStart size : BitVec 64} {kind : BitVec 8}
    (hal : RegionAligned vaStart paStart size)
    (h : FailsAt root ⟨vaStart + size, hal.2.1⟩ kind vaFail k₁ k ⟨vaStart, hal.1⟩ paStart) :
    k.mapRegion root vaStart paStart size kind =
      (k₁.unmapRegion root ⟨vaStart, hal.1⟩ vaFail, some (-1)) := by
  rw [← h.run, Kernel.mapRegion]
  exact dif_pos hal

/-! ### Failures in the small world -/

/-- The page mapped is there, one that shares its tables is refused for the kind 3. -/
lemma smallMapped_refused {va va' pa : BitVec 64} (htables : (path va').take 3 = (path va).take 3)
    (hne : path va' ≠ path va) (hpa : pa ≠ 0#64) :
    (smallMapped va 0xB000).kernel.mapPage 4096 va 0xB000 3 = ((smallMapped va 0xB000).kernel, 0) ∧
      (smallMapped va 0xB000).kernel.mapPage 4096 va' pa 3 =
        ((smallMapped va 0xB000).kernel, -1) := by
  obtain ⟨t, f, k', ht, hunset, -⟩ := smallMapped_sibling htables hne
  obtain ⟨-, ⟨g, hg, hgpa⟩, -⟩ := smallMapped_spec va smallPage_lt
  rw [World.mem] at ht hunset hg
  exact ⟨mapPage_of_translate hg (by rw [hgpa (by decide)]; decide),
    mapPage_refused ht hunset hpa rfl⟩

/-- The second page is refused, and the rollback stops early at the first one, mapped before. -/
theorem mapRegion_undone_far :
    MapRegionUndone (smallMapped 0x8000000000 0xB000) 4096 0xB000 0x2000
      ((smallMapped 0x8000000000 0xB000).kernel.mapRegion 4096 0x8000000000 0xB000 0x2000 3) := by
  have hal : RegionAligned 0x8000000000 0xB000 0x2000 := by decide
  have hmore : (0x8000000000 : BitVec 64) < 0x8000000000 + BitVec.ofNat 64 pageSize := by decide
  obtain ⟨hfound, hrefused⟩ := smallMapped_refused
    (show (path 0x8000001000).take 3 = (path 0x8000000000).take 3 by decide) (by decide)
    (show (0xC000 : BitVec 64) ≠ 0#64 by decide)
  have hfails : FailsAt 4096 ⟨0x8000000000 + 0x2000, hal.2.1⟩ 3 (PageVa.mk 0x8000000000 hal.1).next
      (smallMapped 0x8000000000 0xB000).kernel (smallMapped 0x8000000000 0xB000).kernel
      ⟨0x8000000000, hal.1⟩ 0xB000 :=
    .second (show (0x8000000000 : BitVec 64) < 0x8000000000 + 0x2000 by decide)
      (show 0x8000000000 + BitVec.ofNat 64 pageSize < (0x8000000000 : BitVec 64) + 0x2000 by decide)
      hfound hrefused
  have hundone := mapRegion_undone smallBoot (smallMapped_reaches _ smallPage_lt)
    (smallMapped_root _ 0xB000) 0x8000000000 0xB000 0x2000 3 (by decide)
    (by rw [FailsAt.mapRegion hal hfails]; simp)
  obtain ⟨vaFail, k₁, hfails', hback, -⟩ := hundone.2 hal
  obtain ⟨rfl, rfl⟩ := hfails.unique hfails'
  obtain ⟨-, ⟨f, hf, -⟩, -⟩ := smallMapped_spec 0x8000000000 smallPage_lt
  have hstop := smallMapped_far_stopsEarly smallPage_lt
  rw [World.mem] at hstop
  have hmapped := Option.ne_none_iff_exists'.mpr ⟨f, hf⟩
  exact hback (.page hmore (.inl ⟨hstop, hmapped⟩) (.done (BitVec.lt_irrefl _)))

/-- A first page found and freed by the rollback of a second page refused. -/
lemma not_mapRegionUndone_second (hT : Tree w.kernel.mem 4096)
    (hf : translate w.kernel.mem 4096 0 = some f) (hok : FreeOk w.kernel.mem 4096 0)
    (hfound : w.kernel.mapPage 4096 0 0xB000 3 = (w.kernel, 0))
    (hrefused : w.kernel.mapPage 4096 0x1000 0xC000 3 = (w.kernel, -1)) :
    (w.kernel.mapRegion 4096 0 0xB000 0x2000 3).2 = some (-1) ∧
      ¬ MapRegionUndone w 4096 0xB000 0x2000 (w.kernel.mapRegion 4096 0 0xB000 0x2000 3) := by
  have hal : RegionAligned 0 0xB000 0x2000 := by decide
  have hmore : (0 : BitVec 64) < 0 + BitVec.ofNat 64 pageSize := by decide
  have hfails : FailsAt 4096 ⟨0 + 0x2000, hal.2.1⟩ 3 (PageVa.mk 0 hal.1).next w.kernel w.kernel
      ⟨0, hal.1⟩ 0xB000 :=
    .second (show (0 : BitVec 64) < 0 + 0x2000 by decide)
      (show 0 + BitVec.ofNat 64 pageSize < (0 : BitVec 64) + 0x2000 by decide) hfound hrefused
  have hregion : UnmapOk 4096 w.kernel ⟨0, hal.1⟩ (PageVa.mk 0 hal.1).next :=
    .single hmore (show ¬ 0 + BitVec.ofNat 64 pageSize < (0 : BitVec 64) + BitVec.ofNat 64 pageSize
      by decide) hok
  have hgone := ((Tree.unmapped hregion hT).2 0).1 ⟨⟨0, hal.1⟩, le_refl (0 : ℕ), hmore, rfl⟩
  rw [FailsAt.mapRegion hal hfails]
  refine ⟨rfl, fun h => ?_⟩
  have hsame := h.same 0
  rw [hgone] at hsame
  exact absurd (hsame.trans hf) (by simp)

/-- The second page is refused: the first one, mapped before, is unmapped by the rollback. -/
theorem mapRegion_undone_fails :
    smallBoot.Reaches (smallMapped 0 0xB000) ∧ 4096 ∈ (smallMapped 0 0xB000).roots ∧
      RegionAligned 0 0xB000 0x2000 ∧
      ((smallMapped 0 0xB000).kernel.mapRegion 4096 0 0xB000 0x2000 3).2 = some (-1) ∧
      ¬ MapRegionUndone (smallMapped 0 0xB000) 4096 0xB000 0x2000
        ((smallMapped 0 0xB000).kernel.mapRegion 4096 0 0xB000 0x2000 3) := by
  obtain ⟨⟨fs, pos, hI, -⟩, -⟩ := smallMapped_spec 0 smallPage_lt
  have hT := hI.tree smallBoot.initial (smallMapped_root 0 0xB000)
  have hok := smallMapped_freeOk
  rw [World.mem] at hT hok
  obtain ⟨hfound, hrefused⟩ := smallMapped_refused
    (show (path 0x1000).take 3 = (path 0).take 3 by decide) (by decide)
    (show (0xC000 : BitVec 64) ≠ 0#64 by decide)
  exact ⟨smallMapped_reaches 0 smallPage_lt, smallMapped_root 0 0xB000, by decide,
    not_mapRegionUndone_second hT smallMapped_mapRegion.1 hok hfound hrefused⟩

end SkinnyArm
