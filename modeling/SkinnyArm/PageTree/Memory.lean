import SkinnyArm.PageTree.Cost
import SkinnyArm.PageTree.Space
import SkinnyArm.UserCopy.Lookups

/-!
The memory behind the page trees.

* A `Storing` world goes through new roots, calls of `get_physical_page` that name no physical
  address, and stores through translated addresses; the stores are kept in a list, the last one
  first.
* **A call** changes tables and free frames only, and the page it maps is zero
  (`Inv.call_contents`).
* **Private memory** (`private_memory`): over every run each byte of each page of each root is the
  one last stored to it through that page of that root, or 0 if there was none.  No store and no
  call for another page, of this root or another, is seen.
-/

namespace SkinnyArm

open ByteMemory Forest

variable {frames fs : List ℕ} {w : World} {pos : Pos} {t r f g n i x root : ℕ} {k' : Kernel}
  {va va' : BitVec 64} {kind : BitVec 8}

/-! ### What a call writes -/

/-- A byte that may be written lies in no free frame. -/
lemma Inv.notMem_free_of_writable (hI : Inv frames w fs pos) (hlt : ∀ f ∈ frames, f < 2 ^ 36)
    (hx : w.Writable frames x) (hf : f ∈ fs) : x ∉ page f := fun hxf => by
  obtain ⟨hmem, hnone⟩ := (hI.free_iff f).mp hf
  obtain ⟨r, p, hpos, -⟩ := (hI.isLeafFrame_iff hlt).mp (hx f hmem hxf)
  rw [hnone] at hpos
  exact absurd hpos (by simp)

/-- A byte that may be written lies in no table. -/
lemma Inv.notMem_table_of_writable (hI : Inv frames w fs pos) (hlt : ∀ f ∈ frames, f < 2 ^ 36)
    (hx : w.Writable frames x) {p : List (Fin 512)} (ht : pos t = some (r, p))
    (hp : p.length ≤ 3) : x ∉ page t := fun hxt =>
  hI.not_isLeafFrame hlt ht hp (hx t (hI.mem_frames ht) hxt)

/-- What a call does to bytes: those that may be written stay, and a page it maps is zero. -/
structure LeavesContents (frames : List ℕ) (w : World) (outcome : Kernel × ℕ) : Prop where
  data : ∀ x, w.Writable frames x → outcome.1.mem x = w.mem x
  zero : outcome.2 ≠ 0 → ∀ x ∈ page outcome.2, outcome.1.mem x = 0

/-- **The last level**, where the entry is not set. -/
lemma Inv.contents_last (hI : Inv frames w fs pos) (hfr : InitialFrames frames)
    (hlt : ∀ f ∈ frames, f < 2 ^ 36) (hr : r ∈ w.roots) (ht : tableAt w.mem r va 3 = some t)
    (hstop : edge w.mem t (lvlAddr va 3) = none) :
    LeavesContents frames w (getPhysicalPageFrom va 0 kind [3] w.kernel t) := by
  have hpos := hI.pos_tableAt hr le_rfl ht
  have hlen : ((path va).take 3).length = 3 := take_path_length (by omega)
  have hlast : LastFrame w.kernel t va kind _ := hI.lastFrame hlt hstop
  generalize getPhysicalPageFrom va 0 kind [3] w.kernel t = outcome at hlast ⊢
  cases hlast with
  | empty hk => exact ⟨fun _ _ => rfl, fun h => absurd rfl h⟩
  | @refused f k₁ hk hkind =>
      obtain ⟨rest, rfl, -⟩ := hI.list.kalloc hk
      have hfreed : Set.EqOn (k₁.kfree (.held f)).mem k₁.mem (page f)ᶜ :=
        Kernel.kfree_eqOn rfl trivial
      obtain ⟨-, -, rfl⟩ := Kernel.kalloc_eq_some hk
      refine ⟨fun x hx => ?_, fun h => absurd rfl h⟩
      have hxf := hI.notMem_free_of_writable hlt hx List.mem_cons_self
      exact (hfreed hxf).trans (clear_eqOn hxf)
  | @mapped f k₁ pentry hk hkind =>
      obtain ⟨rest, rfl, -⟩ := hI.list.kalloc hk
      obtain ⟨-, -, rfl⟩ := Kernel.kalloc_eq_some hk
      have htf : t ≠ f := ne_of_named (hI.pos_free (by simp)) hpos
      have hapart := page_disjoint (hI.aligned hfr hpos) (hI.list.aligned f (by simp)) htf
      refine ⟨fun x hx => ?_, fun _ x hx => ?_⟩
      · have hxf := hI.notMem_free_of_writable hlt hx List.mem_cons_self
        have hxt := hI.notMem_table_of_writable hlt hx hpos hlen.le
        exact (setEntry_eqOn hxt).trans (clear_eqOn hxf)
      · have hxt : x ∉ page t := fun hxt => Set.disjoint_left.mp hapart hxt hx
        exact (setEntry_eqOn hxt).trans (clear_apply_of_mem hx)

/-- The levels from `i` on, where the walk stops at level `i`. -/
lemma Inv.contents_from (hfr : InitialFrames frames) (hlt : ∀ f ∈ frames, f < 2 ^ 36) :
    ∀ (n : ℕ) {i t : ℕ} {w : World} {fs : List ℕ} {pos : Pos}, i + n = 3 →
      Inv frames w fs pos → r ∈ w.roots → tableAt w.mem r va i = some t →
      edge w.mem t (lvlAddr va i) = none →
      LeavesContents frames w
        (getPhysicalPageFrom va 0 kind (List.range' i (n + 1)) w.kernel t) := by
  intro n
  induction n with
  | zero =>
      intro i t w fs pos hi hI hr ht hstop
      obtain rfl : i = 3 := hi
      exact hI.contents_last hfr hlt hr ht hstop
  | succ n ih =>
      intro i t w fs pos hi hI hr ht hstop
      rw [List.range'_succ, getPhysicalPageFrom]
      cases fs with
      | nil =>
          have hk : w.kernel.kalloc = none := hI.list.kalloc_eq_none.mpr rfl
          have hlevel : getPhysicalPageLevel w.kernel t va 0 kind i = (w.kernel, .ret 0) := by
            simp [getPhysicalPageLevel, edge_eq_none.mp hstop, hk]
          rw [hlevel]
          exact ⟨fun _ _ => rfl, fun h => absurd rfl h⟩
      | cons f rest =>
          obtain ⟨k', hlevel, hadded⟩ := hI.level_grows hfr hlt hr (by omega) ht hstop
          obtain ⟨pos', hI'⟩ := hadded.inv
          have hpos := hI.pos_tableAt hr (by omega) ht
          have hlen : ((path va).take i).length = i := take_path_length (by omega)
          rw [hlevel]
          obtain ⟨hdata, hzero⟩ :=
            ih (i := i + 1) (by omega) hI' hr hadded.table (hadded.empty _)
          refine ⟨fun x hx => (hdata x (hI.writable_of_same hadded.same hx)).trans ?_, hzero⟩
          refine hadded.mem ?_
          rintro (hxf | hxt)
          · exact hI.notMem_free_of_writable hlt hx List.mem_cons_self hxf
          · exact hI.notMem_table_of_writable hlt hx hpos (by omega) hxt

/-- **A call** that names no physical address leaves the bytes that may be written, and a page
it maps is zero. -/
lemma Inv.call_contents (hI : Inv frames w fs pos) (hfr : InitialFrames frames)
    (hlt : ∀ f ∈ frames, f < 2 ^ 36) (hr : r ∈ w.roots) (va : BitVec 64) (kind : BitVec 8) :
    (∀ x, w.Writable frames x → (w.call r va 0 kind).mem x = w.mem x) ∧
      ∀ f, translate w.mem r va = none → translate (w.call r va 0 kind).mem r va = some f →
        ∀ x ∈ page f, (w.call r va 0 kind).mem x = 0 := by
  have hlook : CallTranslates w r va 0 kind _ _ :=
    (hI.looked hfr hlt hr (by decide) : Looked frames w fs r va 0 kind 3 _ _).callTranslates hI
  have hmem : (w.call r va 0 kind).mem = (w.kernel.getPhysicalPage r va 0 kind).1.mem := rfl
  rw [hmem]
  cases htr : translate w.mem r va with
  | some f =>
      rw [getPhysicalPage_of_translate htr]
      exact ⟨fun _ _ => rfl, fun _ h => absurd h (by simp)⟩
  | none =>
      obtain ⟨n, t, hn, ht, hstop⟩ := exists_stop_level htr
      have hcontents : LeavesContents frames w (w.kernel.getPhysicalPage r va 0 kind) := by
        rw [getPhysicalPage_of_stop hn ht]
        exact Inv.contents_from hfr hlt (3 - n) (by omega) hI hr ht hstop
      refine ⟨hcontents.data, fun f _ hf => ?_⟩
      by_cases h0 : (w.kernel.getPhysicalPage r va 0 kind).2 = 0
      · have hsame := hlook.null h0 r hr va
        rw [hf, htr] at hsame
        exact absurd hsame (by simp)
      · obtain ⟨-, -, hself, -⟩ := hlook.mapped htr h0
        obtain rfl := Option.some.inj (hself.symm.trans hf)
        exact hcontents.zero h0

/-! ### Runs with stores -/

/-- Where a byte is as its owner sees it: the root, the page number and the offset. -/
def byteKey (root : ℕ) (va : BitVec 64) : ℕ × ℕ × ℕ := (root, vpn va, va.toNat % pageSize)

/-- A world, and the stores made so far, the last one first. -/
structure Storing where
  world : World
  stores : List ((ℕ × ℕ × ℕ) × BitVec 8)

/-- The byte last stored at a virtual address of a root, 0 if there was none. -/
def lastStored (stores : List ((ℕ × ℕ × ℕ) × BitVec 8)) (root : ℕ) (va : BitVec 64) : BitVec 8 :=
  (stores.lookup (byteKey root va)).getD 0

/-- The steps over the given frames: a new root, a call of `get_physical_page` for any address and
kind that names no physical address, and a store through a translated address. -/
inductive Storing.Step (frames : List ℕ) : Storing → Storing → Prop
  | newRoot {w : World} {f : ℕ} {k' : Kernel} {l : List ((ℕ × ℕ × ℕ) × BitVec 8)}
      (h : w.kernel.kalloc = some (f, k')) :
      Storing.Step frames ⟨w, l⟩ ⟨{ w with kernel := k', roots := f :: w.roots }, l⟩
  | call {w : World} {root : ℕ} {l : List ((ℕ × ℕ × ℕ) × BitVec 8)} (va : BitVec 64)
      (kind : BitVec 8) (hr : root ∈ w.roots) :
      Storing.Step frames ⟨w, l⟩ ⟨w.call root va 0 kind, l⟩
  | store {w : World} {root f : ℕ} {l : List ((ℕ × ℕ × ℕ) × BitVec 8)} {va : BitVec 64}
      (v : BitVec 8) (hr : root ∈ w.roots) (hf : translate w.mem root va = some f) :
      Storing.Step frames ⟨w, l⟩
        ⟨{ w with kernel := { w.kernel with mem := w.mem.store8 (f + va.toNat % pageSize) v } },
          (byteKey root va, v) :: l⟩

/-- **The invariant of the stores**: no physical address was named, every page was stored to only
while it was translated, and holds what was last stored. -/
structure Storing.Remembers (frames : List ℕ) (s : Storing) : Prop where
  tree : ∃ fs pos, Inv frames s.world fs pos
  unnamed : ∀ μ ∈ s.world.mapped, μ.pa = 0
  logged : ∀ e ∈ s.stores, ∃ root ∈ s.world.roots, ∃ va f,
    translate s.world.mem root va = some f ∧ e.1 = byteKey root va
  contents : ∀ root ∈ s.world.roots, ∀ va f, translate s.world.mem root va = some f →
    s.world.mem (f + va.toNat % pageSize) = lastStored s.stores root va

lemma add_offset_mem_page (f : ℕ) (va : BitVec 64) : f + va.toNat % pageSize ∈ page f := by
  have hlt := Nat.mod_lt va.toNat (show 0 < pageSize by norm_num [pageSize])
  exact ⟨by omega, by omega⟩

/-- Where no physical address was named for a root, a translated page of it has its own frame. -/
lemma Inv.pos_of_own (hI : Inv frames w fs pos) (hlt : ∀ f ∈ frames, f < 2 ^ 36)
    (hown : ∀ μ ∈ w.mapped, μ.root = root → μ.pa = 0) (hr : root ∈ w.roots)
    (hf : translate w.mem root va = some f) : pos f = some (root, path va) := by
  obtain ⟨μ, hμ, rfl, hvpn⟩ := hI.recorded hr hf
  obtain ⟨g, hg, htaken, -⟩ := hI.translate_mapped hlt hμ
  rw [translate_congr_vpn hvpn, hf, Option.some.injEq] at hg
  rw [hg, htaken (hown μ hμ rfl), path_eq_iff.mpr hvpn]

/-- Where no physical address was named, a translated page has its own frame. -/
lemma Inv.pos_of_translate (hI : Inv frames w fs pos) (hlt : ∀ f ∈ frames, f < 2 ^ 36)
    (hunnamed : ∀ μ ∈ w.mapped, μ.pa = 0) (hr : root ∈ w.roots)
    (hf : translate w.mem root va = some f) : pos f = some (root, path va) :=
  hI.pos_of_own hlt (fun μ hμ _ => hunnamed μ hμ) hr hf

/-- The bytes of a page with its own frame may be written. -/
lemma Inv.writable_of_pos (hI : Inv frames w fs pos) (hfr : InitialFrames frames)
    (hlt : ∀ f ∈ frames, f < 2 ^ 36) (hpos : pos f = some (root, path va)) (hx : x ∈ page f) :
    w.Writable frames x := by
  intro g hg hxg
  by_cases hgf : g = f
  · subst hgf
    exact (hI.isLeafFrame_iff hlt).mpr ⟨root, path va, hpos, path_length va⟩
  · have hapart := page_disjoint (hfr.aligned g hg) (hI.aligned hfr hpos) hgf
    exact absurd hx (Set.disjoint_left.mp hapart hxg)

/-- After a call a page is translated as before, or it is the one that was mapped. -/
lemma Inv.translate_call (hI : Inv frames w fs pos) (hfr : InitialFrames frames)
    (hlt : ∀ f ∈ frames, f < 2 ^ 36) (hr : r ∈ w.roots) (va : BitVec 64) (kind : BitVec 8)
    (hroot : root ∈ w.roots) (va' : BitVec 64) :
    translate (w.call r va 0 kind).mem root va' = translate w.mem root va' ∨
      (root = r ∧ vpn va' = vpn va ∧ translate w.mem r va = none) := by
  have hl : CallTranslates w r va 0 kind _ _ :=
    (hI.looked hfr hlt hr (by decide) : Looked frames w fs r va 0 kind 3 _ _).callTranslates hI
  by_cases hpage : root = r ∧ vpn va' = vpn va
  · cases htr : translate w.mem r va with
    | some f => exact .inl ((hl.found f htr).2 root hroot va')
    | none => exact .inr ⟨hpage.1, hpage.2, rfl⟩
  · refine .inl ?_
    by_cases h0 : (w.kernel.getPhysicalPage r va 0 kind).2 = 0
    · exact hl.null h0 root hroot va'
    · cases htr : translate w.mem r va with
      | some f => exact (hl.found f htr).2 root hroot va'
      | none => exact (hl.mapped htr h0).2.2.2 root hroot va' hpage

/-- A translated page stays so. -/
lemma Inv.translate_call_of_some (hI : Inv frames w fs pos) (hfr : InitialFrames frames)
    (hlt : ∀ f ∈ frames, f < 2 ^ 36) (hr : r ∈ w.roots) (va : BitVec 64) (kind : BitVec 8)
    (hroot : root ∈ w.roots) (hf : translate w.mem root va' = some f) :
    translate (w.call r va 0 kind).mem root va' = some f := by
  rcases hI.translate_call hfr hlt hr va kind hroot va' with hsame | ⟨rfl, hvpn, hnone⟩
  · exact hsame.trans hf
  · rw [translate_congr_vpn hvpn, hnone] at hf
    exact absurd hf (by simp)

/-! ### Every step keeps the contents -/

variable {l : List ((ℕ × ℕ × ℕ) × BitVec 8)}

/-- What was never stored reads as 0. -/
lemma lastStored_of_notMem (h : ∀ e ∈ l, e.1 ≠ byteKey root va) : lastStored l root va = 0 := by
  have hnone : l.lookup (byteKey root va) = none := by
    rw [List.lookup_eq_none_iff]
    intro e he
    simpa using Ne.symm (h e he)
  rw [lastStored, hnone]
  rfl

/-- A new root has no pages, and its frame held none. -/
lemma Storing.Remembers.newRoot (h : Storing.Remembers frames ⟨w, l⟩) (hfr : InitialFrames frames)
    (hlt : ∀ f ∈ frames, f < 2 ^ 36) (hk : w.kernel.kalloc = some (f, k')) :
    Storing.Remembers frames ⟨{ w with kernel := k', roots := f :: w.roots }, l⟩ := by
  obtain ⟨⟨fs, pos, hI⟩, hunnamed, hlogged, hcontents⟩ := h
  obtain ⟨rest, rfl, -⟩ := hI.list.kalloc hk
  have hI' := hI.newRoot hfr hk
  have hnew := edge_new_root hk
  obtain ⟨-, -, rfl⟩ := Kernel.kalloc_eq_some hk
  have hkept : ∀ r ∈ w.roots, ∀ va,
      translate (w.mem.clear f pageSize) r va = translate w.mem r va := fun r hr va =>
    hI.walk_of_eqOn (fun ht _ => hI.eqOn_clear hfr ht) hr (by rw [path_length])
  refine ⟨⟨_, _, hI'⟩, hunnamed, fun e he => ?_, fun root hroot va g hg => ?_⟩
  · obtain ⟨root, hroot, va, g, hg, hkey⟩ := hlogged e he
    exact ⟨root, List.mem_cons_of_mem _ hroot, va, g, (hkept root hroot va).trans hg, hkey⟩
  · rcases List.mem_cons.mp hroot with rfl | hroot
    · rw [translate, path, walk_cons, hnew] at hg
      exact absurd hg (by simp)
    · have hg' : translate w.mem root va = some g := (hkept root hroot va).symm.trans hg
      have hpos := hI.pos_of_translate hlt hunnamed hroot hg'
      rw [← hcontents root hroot va g hg']
      have hgf : g ≠ f := ne_of_named (hI.pos_free (by simp)) hpos
      have hapart := page_disjoint (hI.aligned hfr hpos) (hI.list.aligned f (by simp)) hgf
      exact clear_eqOn (Set.disjoint_left.mp hapart (add_offset_mem_page g va))

/-- A call keeps the bytes of the pages there were, and a new page is zero. -/
lemma Storing.Remembers.call (h : Storing.Remembers frames ⟨w, l⟩) (hfr : InitialFrames frames)
    (hlt : ∀ f ∈ frames, f < 2 ^ 36) (hr : r ∈ w.roots) (va : BitVec 64) (kind : BitVec 8) :
    Storing.Remembers frames ⟨w.call r va 0 kind, l⟩ := by
  obtain ⟨⟨fs, pos, hI⟩, hunnamed, hlogged, hcontents⟩ := h
  obtain ⟨hdata, hzero⟩ := hI.call_contents hfr hlt hr va kind
  refine ⟨hI.call hfr hlt hr va 0 kind (by decide), fun μ hμ => ?_, fun e he => ?_,
    fun root hroot va' g hg => ?_⟩
  · rcases World.mem_mapped_call hμ with rfl | hold
    · rfl
    · exact hunnamed μ hold
  · obtain ⟨root, hroot, va', g, hg, hkey⟩ := hlogged e he
    exact ⟨root, hroot, va', g, hI.translate_call_of_some hfr hlt hr va kind hroot hg, hkey⟩
  · cases hold : translate w.mem root va' with
    | some g' =>
        have hsame := hI.translate_call_of_some hfr hlt hr va kind hroot hold
        obtain rfl : g' = g := Option.some.inj (hsame.symm.trans hg)
        have hpos := hI.pos_of_translate hlt hunnamed hroot hold
        rw [← hcontents root hroot va' g' hold]
        exact hdata _ (hI.writable_of_pos hfr hlt hpos (add_offset_mem_page g' va'))
    | none =>
        -- the page is the one the call mapped, and nothing was stored to it before
        obtain ⟨rfl, hvpn, hnone⟩ : root = r ∧ vpn va' = vpn va ∧ translate w.mem r va = none := by
          refine (hI.translate_call hfr hlt hr va kind hroot va').resolve_left fun hsame => ?_
          rw [hsame, hold] at hg
          exact absurd hg (by simp)
        have hg' : translate (w.call root va 0 kind).mem root va = some g := by
          rw [← translate_congr_vpn hvpn]
          exact hg
        have hfresh : ∀ e ∈ l, e.1 ≠ byteKey root va' := fun e he hkey => by
          obtain ⟨root', -, va'', g', hg'', hkey'⟩ := hlogged e he
          rw [hkey', byteKey, byteKey, Prod.mk.injEq, Prod.mk.injEq] at hkey
          obtain ⟨rfl, hpage, -⟩ := hkey
          rw [translate_congr_vpn hpage, hold] at hg''
          exact absurd hg'' (by simp)
        rw [lastStored_of_notMem hfresh]
        exact hzero g hnone hg' _ (add_offset_mem_page g va')

/-- A store changes no translation. -/
lemma Inv.translate_store (hI : Inv frames w fs pos) (hlt : ∀ f ∈ frames, f < 2 ^ 36) (v : BitVec 8)
    (hx : w.Writable frames x) (hroot : root ∈ w.roots) (va' : BitVec 64) :
    translate (w.mem.store8 x v) root va' = translate w.mem root va' :=
  hI.walk_of_eqOn (fun ht hp => eqOn_store8 hx (hI.mem_frames ht) (hI.not_isLeafFrame hlt ht hp))
    hroot (by rw [path_length])

/-- A store is seen through its own page only. -/
lemma Storing.Remembers.store (h : Storing.Remembers frames ⟨w, l⟩) (hfr : InitialFrames frames)
    (hlt : ∀ f ∈ frames, f < 2 ^ 36) (v : BitVec 8) (hr : r ∈ w.roots)
    (hf : translate w.mem r va = some f) :
    Storing.Remembers frames
      ⟨{ w with kernel := { w.kernel with mem := w.mem.store8 (f + va.toNat % pageSize) v } },
        (byteKey r va, v) :: l⟩ := by
  obtain ⟨⟨fs, pos, hI⟩, hunnamed, hlogged, hcontents⟩ := h
  have hpos := hI.pos_of_translate hlt hunnamed hr hf
  have hwritable : w.Writable frames (f + va.toNat % pageSize) :=
    hI.writable_of_pos hfr hlt hpos (add_offset_mem_page f va)
  have hsame : ∀ root ∈ w.roots, ∀ va', translate (w.mem.store8 (f + va.toNat % pageSize) v) root
      va' = translate w.mem root va' := fun root hroot va' =>
    hI.translate_store hlt v hwritable hroot va'
  refine ⟨⟨fs, pos, hI.write hlt v hwritable⟩, hunnamed, fun e he => ?_,
    fun root hroot va' g hg => ?_⟩
  · rcases List.mem_cons.mp he with rfl | hold
    · exact ⟨r, hr, va, f, (hsame r hr va).trans hf, rfl⟩
    · obtain ⟨root, hroot, va', g, hg, hkey⟩ := hlogged e hold
      exact ⟨root, hroot, va', g, (hsame root hroot va').trans hg, hkey⟩
  · have hg' : translate w.mem root va' = some g := (hsame root hroot va').symm.trans hg
    have hpos' := hI.pos_of_translate hlt hunnamed hroot hg'
    by_cases hkey : byteKey root va' = byteKey r va
    · rw [lastStored, hkey, List.lookup_cons_self, Option.getD_some]
      rw [byteKey, byteKey, Prod.mk.injEq, Prod.mk.injEq] at hkey
      obtain ⟨rfl, hpage, hoff⟩ := hkey
      rw [translate_congr_vpn hpage, hf, Option.some.injEq] at hg'
      rw [← hg', hoff]
      exact if_pos rfl
    · have hlast : lastStored ((byteKey r va, v) :: l) root va' = lastStored l root va' := by
        rw [lastStored, lastStored, List.lookup_cons, beq_eq_false_iff_ne.mpr hkey]
      rw [hlast, ← hcontents root hroot va' g hg']
      refine store8_of_ne fun hx => hkey ?_
      by_cases hgf : g = f
      · subst hgf
        rw [hpos, Option.some.injEq, Prod.mk.injEq] at hpos'
        obtain ⟨rfl, hpath⟩ := hpos'
        rw [byteKey, byteKey, path_eq_iff.mp hpath, Nat.add_left_cancel hx]
      · have hapart := page_disjoint (hI.aligned hfr hpos') (hI.aligned hfr hpos) hgf
        exact absurd (hx ▸ add_offset_mem_page f va)
          (Set.disjoint_left.mp hapart (add_offset_mem_page g va'))

/-- **Every step** keeps the invariant. -/
lemma Storing.Remembers.step {s s' : Storing} (h : s.Remembers frames) (hfr : InitialFrames frames)
    (hlt : ∀ f ∈ frames, f < 2 ^ 36) (hstep : Storing.Step frames s s') :
    s'.Remembers frames := by
  cases hstep with
  | newRoot hk => exact h.newRoot hfr hlt hk
  | call va kind hr => exact h.call hfr hlt hr va kind
  | store v hr hf => exact h.store hfr hlt v hr hf

/-- **Private memory**: over every run of new roots, calls and stores, a byte of a translated page
is the one last stored through that page of that root, or 0. -/
theorem private_memory (b : Boot) {s : Storing} (hrun : Run (Storing.Step b.frames) ⟨b.world, []⟩ s)
    (hroot : root ∈ s.world.roots) (hf : translate s.world.mem root va = some f) :
    s.world.mem (f + va.toNat % pageSize) = lastStored s.stores root va := by
  have hinit : Storing.Remembers b.frames ⟨b.world, []⟩ :=
    ⟨⟨_, _, b.inv⟩, by simp [Boot.world], by simp, by simp [Boot.world]⟩
  have hinv := Run.invariant (fun hI hstep => hI.step b.initial b.lt hstep) hrun hinit
  exact hinv.contents root hroot va f hf

/-- The page at address 0 of the small world, after a store to its byte 16. -/
theorem private_memory_small :
    ∃ f, translate (smallMapped 0 0).mem 4096 0x10 = some f ∧
      ((smallMapped 0 0).mem.store8 (f + (0x10 : BitVec 64).toNat % pageSize) 0x2A)
        (f + (0x10 : BitVec 64).toNat % pageSize) =
          lastStored [(byteKey 4096 0x10, 0x2A)] 4096 0x10 := by
  have hpa : (0 : BitVec 64).toNat < 2 ^ 36 := by decide
  obtain ⟨-, ⟨f, hf, -⟩, -⟩ := smallMapped_spec 0 hpa
  have hf' : translate (smallMapped 0 0).mem 4096 0x10 = some f :=
    (translate_congr_vpn (show vpn 0x10 = vpn 0 by decide)).trans hf
  have hopen : Storing.Step smallBoot.frames ⟨smallBoot.world, []⟩ ⟨smallWorld, []⟩ :=
    .newRoot smallKernel_kalloc
  have hmap : Storing.Step smallBoot.frames ⟨smallWorld, []⟩ ⟨smallMapped 0 0, []⟩ :=
    .call 0 0 (by simp [smallWorld])
  have hstore : Storing.Step smallBoot.frames ⟨smallMapped 0 0, []⟩ _ :=
    .store 0x2A (smallMapped_root 0 0) hf'
  obtain ⟨fs, pos, hI⟩ := (smallMapped_reaches 0 hpa).inv
  have hpos := hI.pos_of_translate smallBoot.lt smallMapped_pa (smallMapped_root 0 0) hf'
  have hx := hI.writable_of_pos smallBoot.initial smallBoot.lt hpos (add_offset_mem_page f 0x10)
  refine ⟨f, hf', ?_⟩
  exact private_memory smallBoot (((Relation.ReflTransGen.single hopen).tail hmap).tail hstore)
    (smallMapped_root 0 0)
    ((hI.translate_store smallBoot.lt 0x2A hx (smallMapped_root 0 0) 0x10).trans hf')

end SkinnyArm
