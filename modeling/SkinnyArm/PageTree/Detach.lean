import SkinnyArm.PageTree.Run

/-!
One page tree by itself, and entries taken out of it.

`Tree` is what the invariant says about a single root, read off the memory alone: it survives
the loss of the free list.  `Tree.detach` clears the entry of a child without children and
`Tree.kfree_empty` is `kfree` of a table without entries, which reaches page zero only.
-/

namespace SkinnyArm

open ByteMemory Forest

variable {frames fs : List ℕ} {w : World} {pos : Pos} {m m' : ByteMemory} {k : Kernel}
  {root t c : ℕ} {q : List (Fin 512)} {i : Fin 512}

/-- A page tree: its tables are distinct pages, and their unset entries are zero. -/
structure Tree (m : ByteMemory) (root : ℕ) : Prop where
  inj : ∀ {q q' : List (Fin 512)} {t : ℕ}, q.length ≤ 3 → q'.length ≤ 3 →
    walk (edge m) root q = some t → walk (edge m) root q' = some t → q = q'
  frame : ∀ {q : List (Fin 512)} {t : ℕ}, q.length ≤ 3 → walk (edge m) root q = some t →
    pageSize ∣ t ∧ t ≠ 0
  unset : ∀ {q : List (Fin 512)} {t : ℕ} {i : Fin 512}, q.length ≤ 3 →
    walk (edge m) root q = some t → ¬ IsSet (entry m t i) → entry m t i = 0

/-- Every root of a reachable world has a page tree. -/
lemma Inv.tree (hI : Inv frames w fs pos) (hfr : InitialFrames frames) (hr : root ∈ w.roots) :
    Tree w.mem root where
  inj hq hq' hw hw' := (hI.planted.walk_inj hr hr hq hq' hw hw').2
  frame hq hw :=
    have ht := hI.planted.pos_of_walk hr hq hw
    ⟨hI.aligned hfr ht, hfr.ne_zero _ (hI.mem_frames ht)⟩
  unset hq hw hunset := hI.unset (hI.planted.pos_of_walk hr hq hw) hq hunset

namespace Tree

/-- The places of the tables of one tree. -/
lemma planted (hT : Tree m root) : ∃ pos, Planted (edge m) 3 {root} pos ∧
    ∀ c r q, pos c = some (r, q) → r = root ∧ q.length ≤ 3 ∧ walk (edge m) root q = some c := by
  have hinj : ∀ r ∈ ({root} : Set ℕ), ∀ r' ∈ ({root} : Set ℕ), ∀ q q' : List (Fin 512),
      q.length ≤ 3 → q'.length ≤ 3 → ∀ c, walk (edge m) r q = some c →
      walk (edge m) r' q' = some c → r = r' ∧ q = q' := by
    rintro r rfl r' rfl q q' hq hq' c hw hw'
    exact ⟨rfl, hT.inj hq hq' hw hw'⟩
  obtain ⟨pos, hplanted, hreached⟩ := Planted.of_walk_inj hinj
  refine ⟨pos, hplanted, fun c r q hc => ?_⟩
  obtain ⟨rfl, hq, hw⟩ := hreached c r q hc
  exact ⟨rfl, hq, hw⟩

/-- Memories that agree on the tables have the same tree. -/
lemma of_eqOn (hT : Tree m root)
    (h : ∀ q t, q.length ≤ 3 → walk (edge m) root q = some t → Set.EqOn m' m (page t)) :
    Tree m' root ∧ ∀ p : List (Fin 512), p.length ≤ 4 →
      walk (edge m') root p = walk (edge m) root p := by
  have hwalk : ∀ p : List (Fin 512), p.length ≤ 4 →
      walk (edge m') root p = walk (edge m) root p := by
    refine fun p hp => walk_congr fun q i c hq hw => edge_congr (entry_congr (h q c ?_ hw))
    have hlen := hq.length_le
    simp only [List.length_append, List.length_singleton] at hlen
    omega
  have hback : ∀ {q : List (Fin 512)} {t : ℕ}, q.length ≤ 3 →
      walk (edge m') root q = some t → walk (edge m) root q = some t :=
    fun hq hw => (hwalk _ (by omega)).symm.trans hw
  refine ⟨⟨fun hq hq' hw hw' => hT.inj hq hq' (hback hq hw) (hback hq' hw'),
    fun hq hw => hT.frame hq (hback hq hw), fun hq hw hunset => ?_⟩, hwalk⟩
  rw [entry_congr (h _ _ hq (hback hq hw))] at hunset ⊢
  exact hT.unset hq (hback hq hw) hunset

/-- **An entry cleared**: if its child has no entries, only the path to the child is lost. -/
lemma detach (hT : Tree m root) (hq : q.length ≤ 3) (hw : walk (edge m) root q = some t)
    (hold : edge m t i = some c) (hempty : q.length < 3 → ∀ j, edge m c j = none) :
    Tree (setEntry m t i 0) root ∧
      (∀ p : List (Fin 512), p.length ≤ 4 → p ≠ q ++ [i] →
        walk (edge (setEntry m t i 0)) root p = walk (edge m) root p) ∧
      walk (edge (setEntry m t i 0)) root (q ++ [i]) = none := by
  obtain ⟨pos, hplanted, hreached⟩ := hT.planted
  have ht : pos t = some (root, q) := hplanted.pos_of_walk rfl hq hw
  have hal := (hT.frame hq hw).1
  have hentry : ∀ {q' t' j}, q'.length ≤ 3 → walk (edge m) root q' = some t' →
      ¬(t' = t ∧ j = i) → entry (setEntry m t i 0) t' j = entry m t' j :=
    fun hq' hw' hne => entry_setEntry hal (hT.frame hq' hw').1 hne
  have hagree : ∀ t' r q' j, pos t' = some (r, q') → q'.length ≤ 3 → ¬(t' = t ∧ j = i) →
      edge (setEntry m t i 0) t' j = edge m t' j := by
    intro t' r q' j ht' hq' hne
    obtain ⟨-, -, hw'⟩ := hreached t' r q' ht'
    exact edge_congr (hentry hq' hw' hne)
  have hnew : edge (setEntry m t i 0) t i = none := by
    rw [edge_eq_none, entry_setEntry_self]
    exact not_isSet_zero
  have hsub : ∀ {p : List (Fin 512)} {b : ℕ}, p.length ≤ 3 →
      walk (edge (setEntry m t i 0)) root p = some b → walk (edge m) root p = some b := by
    intro p b hp hwp
    refine walk_of_sub (fun q' j c' d hq' hw' hd => ?_) hwp
    have hlen := hq'.length_le
    simp only [List.length_append, List.length_singleton] at hlen
    by_cases hslot : c' = t ∧ j = i
    · obtain ⟨rfl, rfl⟩ := hslot
      rw [hnew] at hd
      exact absurd hd (by simp)
    · rwa [edge_congr (hentry (by omega) hw' hslot)] at hd
  refine ⟨⟨fun hq₁ hq₂ hw₁ hw₂ => hT.inj hq₁ hq₂ (hsub hq₁ hw₁) (hsub hq₂ hw₂),
    fun hq₁ hw₁ => hT.frame hq₁ (hsub hq₁ hw₁), fun {q₁ t₁ j} hq₁ hw₁ hunset => ?_⟩,
    fun p hp hne => ?_, hplanted.walk_detach_self rfl ht hw hq hagree hnew⟩
  · by_cases hslot : t₁ = t ∧ j = i
    · obtain ⟨rfl, rfl⟩ := hslot
      exact entry_setEntry_self
    · rw [hentry hq₁ (hsub hq₁ hw₁) hslot] at hunset ⊢
      exact hT.unset hq₁ (hsub hq₁ hw₁) hunset
  · exact hplanted.walk_detach rfl ht hw hq hagree hold hnew hempty rfl hp fun h => hne h.2

/-- `kfree` of a table without entries reads a zero word from it: it clears page zero and empties
the free list. -/
lemma kfree_empty (hT : Tree k.mem root) (hq : q.length ≤ 3)
    (hw : walk (edge k.mem) root q = some t) (hnone : ∀ j, ¬ IsSet (entry k.mem t j)) :
    Set.EqOn (k.kfree (.at t)).mem k.mem (page 0)ᶜ ∧
      (k.kfree (.at t)).pageFrameLinkedList = 0 := by
  have hzero : (PageVar.at t).deref k.mem = 0 :=
    congrArg BitVec.toNat (hT.unset (i := 0) hq hw (hnone 0))
  have hout : (PageVar.at t).Outside 0 := by
    obtain ⟨hal, hne⟩ := hT.frame hq hw
    have hle := Nat.le_of_dvd (by omega) hal
    exact .inr (by omega)
  exact ⟨Kernel.kfree_eqOn hzero hout, by rw [Kernel.kfree_eq hzero hout]⟩

/-- Page zero holds no table. -/
lemma of_eqOn_page_zero (hT : Tree m root) (h : Set.EqOn m' m (page 0)ᶜ) :
    Tree m' root ∧ ∀ p : List (Fin 512), p.length ≤ 4 →
      walk (edge m') root p = walk (edge m) root p := by
  refine hT.of_eqOn fun q t hq hw => h.mono ?_
  obtain ⟨hal, hne⟩ := hT.frame hq hw
  exact (page_disjoint hal (Nat.dvd_zero _) hne).subset_compl_right

end Tree

end SkinnyArm
