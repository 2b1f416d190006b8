import SkinnyArm.PageTree.Detach
import SkinnyArm.PageTree.Region

/-!
`free_page` and `unmap_region` on page trees.

* **The walk down** looks only at the root, and at indices the macro `LVL_ADDR` computes for
  `i-1` (`StopsEarly`): an address of another page can stop it, and then nothing is freed.
* **The walk up** (`Tree.climb_induction`, `Tree.climbs`) is right: it clears the entries of the
  page's own path, and goes on only from tables that have become empty.
* **When `free_page` is right** (`FreeOk`, `freePage_unmaps`): the walk down stops early at an
  unmapped page, or it gets through on the page's own indices and `kfree(levels[4])`, which
  clears the page named by the first word of the data, hits no table.
-/

namespace SkinnyArm

open ByteMemory Forest

variable {frames fs : List ℕ} {w : World} {pos : Pos} {m : ByteMemory} {k k' : Kernel}
  {root t c f n : ℕ} {va va' : BitVec 64}

/-! ### The walk down -/

/-- The walk down returns early: an entry of the root it looks at is unset. -/
def StopsEarly (m : ByteMemory) (root : ℕ) (va : BitVec 64) : Prop :=
  ∃ i ∈ [1, 2, 3, 4], ¬ IsSet (entry m root (lvlAddrPred va i))

/-- The macro computes the page's own indices on the way down. -/
def OwnIndices (va : BitVec 64) : Prop := ∀ i < 4, lvlAddrPred va (i + 1) = lvlAddr va i

instance : Decidable (OwnIndices va) :=
  inferInstanceAs (Decidable (∀ i < 4, lvlAddrPred va (i + 1) = lvlAddr va i))

lemma freePageDown_eq_none (m : ByteMemory) (root : ℕ) (va : BitVec 64) (is : List ℕ)
    (above : ℕ) : freePageDown m root va is above = none ↔
      ∃ i ∈ is, ¬ IsSet (entry m root (lvlAddrPred va i)) := by
  induction is generalizing above with
  | nil => simp [freePageDown]
  | cons i is ih =>
      by_cases hset : IsSet (entry m root (lvlAddrPred va i))
      · simp [freePageDown, hset, ih]
      · simp [freePageDown, hset]

/-- Stopped early, `free_page` does nothing. -/
lemma freePage_of_stopsEarly (h : StopsEarly k.mem root va) : k.freePage root va = k := by
  have hdown : freePageDown k.mem root va [1, 2, 3, 4] root = none :=
    (freePageDown_eq_none k.mem root va [1, 2, 3, 4] root).mpr h
  rw [Kernel.freePage, hdown]

/-- The pairs of the walk up, from a level to the root. -/
def upList (table : ℕ → ℕ) : ℕ → List (ℕ × ℕ)
  | 0 => [(0, table 0)]
  | n + 1 => (n + 1, table (n + 1)) :: upList table n

/-- Got through on its own indices, the walk down follows the page's path. -/
lemma freePageDown_eq (hstop : ¬ StopsEarly m root va) (hown : OwnIndices va)
    (hf : translate m root va = some f) :
    ∃ table : ℕ → ℕ, table 0 = root ∧ (∀ i ≤ 3, tableAt m root va i = some (table i)) ∧
      freePageDown m root va [1, 2, 3, 4] root = some [table 1, table 2, table 3, f] := by
  have hset : ∀ i ∈ [1, 2, 3, 4], IsSet (entry m root (lvlAddrPred va i)) := fun i hi => by
    by_contra hunset
    exact hstop ⟨i, hi, hunset⟩
  have hedge : ∀ {i t c}, i < 4 → edge m t (lvlAddr va i) = some c →
      frameOf (entry m t (lvlAddrPred va (i + 1))) = c := fun hi he => by
    rw [hown _ hi]
    exact (edge_eq_some.mp he).2
  rw [← tableAt_four, tableAt_succ (by omega), Option.bind_eq_some_iff] at hf
  obtain ⟨t₃, ht₃, he₃⟩ := hf
  have ht₃' := ht₃
  rw [tableAt_succ (by omega), Option.bind_eq_some_iff] at ht₃'
  obtain ⟨t₂, ht₂, he₂⟩ := ht₃'
  have ht₂' := ht₂
  rw [tableAt_succ (by omega), Option.bind_eq_some_iff] at ht₂'
  obtain ⟨t₁, ht₁, he₁⟩ := ht₂'
  have he₀ : edge m root (lvlAddr va 0) = some t₁ := by
    rw [tableAt_succ (by omega), tableAt_zero] at ht₁
    exact ht₁
  refine ⟨fun i => [root, t₁, t₂, t₃].getD i root, rfl, fun i hi => ?_, ?_⟩
  · interval_cases i
    · exact tableAt_zero
    · exact ht₁
    · exact ht₂
    · exact ht₃
  · simp [freePageDown, hset, hedge (by omega) he₀, hedge (by omega) he₁, hedge (by omega) he₂,
      hedge (by omega) he₃]

/-! ### The walk up -/

/-- Other pages keep their translations when only the page's path was cut. -/
lemma path_ne_take {n : ℕ} (hn : n ≤ 3) (h : n < 3 ∨ vpn va' ≠ vpn va) :
    path va' ≠ (path va).take n ++ [lvlAddr va n] := by
  rw [← take_path_succ (by omega)]
  intro heq
  rcases h with hlt | hne
  · have hlen := congrArg List.length heq
    rw [path_length, take_path_length (by omega)] at hlen
    omega
  · obtain rfl | hlt : n = 3 ∨ n < 3 := by omega
    · exact hne (path_eq_iff.mp heq)
    · have hlen := congrArg List.length heq
      rw [path_length, take_path_length (by omega)] at hlen
      omega

/-- A path cut short translates nothing. -/
lemma translate_eq_none_of_take {i : ℕ} (h : walk (edge m) root ((path va).take i) = none) :
    translate m root va = none := by
  cases hw : translate m root va with
  | none => rfl
  | some f =>
      obtain ⟨c, hc⟩ := exists_walk_of_prefix hw (List.take_prefix i (path va))
      rw [hc] at h
      exact absurd h (by simp)

/-- What a walk up from level `n` leaves. -/
structure Climbed (m : ByteMemory) (root : ℕ) (va : BitVec 64) (n : ℕ) (k' : Kernel) : Prop where
  tree : Tree k'.mem root
  others : ∀ va', n < 3 ∨ vpn va' ≠ vpn va → translate k'.mem root va' = translate m root va'
  self : translate k'.mem root va = none

/-- The memory once the entry of level `n` on the page's path is cleared, up to what does not
concern the tree. -/
structure Cut (m m' : ByteMemory) (root : ℕ) (va : BitVec 64) (n : ℕ) : Prop where
  tree : Tree m' root
  walk_other : ∀ p : List (Fin 512), p.length ≤ 4 → p ≠ (path va).take (n + 1) →
    walk (edge m') root p = walk (edge m) root p
  walk_self : walk (edge m') root ((path va).take (n + 1)) = none

namespace Cut

variable {m' m'' : ByteMemory}

lemma climbed (h : Cut m k'.mem root va n) (hn : n ≤ 3) : Climbed m root va n k' where
  tree := h.tree
  others va' hva := by
    refine h.walk_other (path va') (by rw [path_length]) ?_
    rw [take_path_succ (by omega)]
    exact path_ne_take hn hva
  self := translate_eq_none_of_take h.walk_self

/-- The tables above the cut are still reached. -/
lemma tableAt_eq (h : Cut m m' root va n) (hn : n ≤ 3) {i : ℕ} (hi : i ≤ n) :
    tableAt m' root va i = tableAt m root va i := by
  refine h.walk_other _ (by rw [take_path_length] <;> omega) fun heq => ?_
  have hlen := congrArg List.length heq
  rw [take_path_length (by omega), take_path_length (by omega)] at hlen
  omega

lemma of_eqOn_page_zero (h : Cut m m' root va n) (hn : n ≤ 3)
    (heq : Set.EqOn m'' m' (page 0)ᶜ) : Cut m m'' root va n := by
  obtain ⟨hT, hwalk⟩ := h.tree.of_eqOn_page_zero heq
  refine ⟨hT, fun p hp hne => (hwalk p hp).trans (h.walk_other p hp hne), ?_⟩
  rw [hwalk _ (by rw [take_path_length] <;> omega)]
  exact h.walk_self

end Cut

/-- Clearing the entry of a level whose child is empty, or is the page itself, cuts the path. -/
lemma Tree.cut (hT : Tree m root) (hn : n ≤ 3) (ht : tableAt m root va n = some t)
    (hedge : edge m t (lvlAddr va n) = some c) (hempty : n < 3 → ∀ j, edge m c j = none) :
    Cut m (setEntry m t (lvlAddr va n) 0) root va n := by
  have hlen : ((path va).take n).length = n := take_path_length (by omega)
  obtain ⟨hT', hother, hself⟩ := hT.detach (by omega) ht hedge fun h => hempty (by omega)
  rw [← take_path_succ (by omega)] at hother hself
  exact ⟨hT', hother, hself⟩

/-- A level that the walk up has left: its entry is cut off, its table is empty and has been freed,
and the free list is lost with it.  Nothing but the table and page zero has changed. -/
structure LeftLevel (root : ℕ) (va : BitVec 64) (n t : ℕ) (k k' : Kernel) : Prop where
  cut : Cut k.mem k'.mem root va n
  empty : ∀ j, edge k'.mem t j = none
  head : k'.pageFrameLinkedList = 0
  eqOn : Set.EqOn k'.mem k.mem (page t ∪ page 0)ᶜ

/-- **One level up**: the entry is cleared; if the table still has entries the walk ends, else
it goes on from a level that is left. -/
lemma Tree.climb {rest : List (ℕ × ℕ)} (hT : Tree k.mem root) (hn : n ≤ 3)
    (ht : tableAt k.mem root va n = some t) (hedge : edge k.mem t (lvlAddr va n) = some c)
    (hempty : n < 3 → ∀ j, edge k.mem c j = none) :
    (∃ m', freePageUp va ((n, t) :: rest) k = { k with mem := m' } ∧ Cut k.mem m' root va n ∧
      Set.EqOn m' k.mem (page t)ᶜ) ∨
    ∃ k₂ : Kernel, freePageUp va ((n, t) :: rest) k = freePageUp va rest k₂ ∧
      LeftLevel root va n t k k₂ := by
  have hcut := hT.cut hn ht hedge hempty
  have hlen : ((path va).take n).length ≤ 3 := by
    rw [take_path_length] <;> omega
  have htab : tableAt (setEntry k.mem t (lvlAddr va n) 0) root va n = some t :=
    (hcut.tableAt_eq hn le_rfl).trans ht
  by_cases hany : ∃ j, IsSet (entry (setEntry k.mem t (lvlAddr va n) 0) t j)
  · refine .inl ⟨_, ?_, hcut, setEntry_eqOn⟩
    simp only [freePageUp, lvlAddrSigned_eq, if_pos hany]
  · have hnone : ∀ j, ¬ IsSet (entry (setEntry k.mem t (lvlAddr va n) 0) t j) :=
      fun j hj => hany ⟨j, hj⟩
    obtain ⟨hzero, hhead⟩ := Tree.kfree_empty
      (k := { k with mem := setEntry k.mem t (lvlAddr va n) 0 }) hcut.tree hlen htab hnone
    refine .inr ⟨_, ?_, hcut.of_eqOn_page_zero hn hzero, fun j => ?_, hhead, ?_⟩
    · simp only [freePageUp, lvlAddrSigned_eq, if_neg hany]
    · obtain ⟨hal, hne⟩ := hcut.tree.frame hlen htab
      rw [edge_congr (entry_of_eqOn_page hzero hal (Nat.dvd_zero _) hne)]
      exact edge_eq_none.mpr (hnone j)
    · rw [Set.compl_union]
      exact (hzero.mono Set.inter_subset_right).trans (setEntry_eqOn.mono Set.inter_subset_left)

/-- **The walk up** from level `n`: what holds where it ends at a level or leaves the root, and is
kept by leaving a level, holds of the whole walk. -/
lemma Tree.climb_induction (table : ℕ → ℕ) {R : ℕ → Kernel → Kernel → Prop}
    (ends : ∀ {n k m'}, n ≤ 3 → tableAt k.mem root va n = some (table n) →
      Cut k.mem m' root va n → Set.EqOn m' k.mem (page (table n))ᶜ → R n k { k with mem := m' })
    (leavesRoot : ∀ {k k'}, tableAt k.mem root va 0 = some (table 0) →
      LeftLevel root va 0 (table 0) k k' → R 0 k k')
    (leaves : ∀ {n k k₂ k'}, n < 3 → tableAt k.mem root va (n + 1) = some (table (n + 1)) →
      LeftLevel root va (n + 1) (table (n + 1)) k k₂ → R n k₂ k' → R (n + 1) k k')
    (n : ℕ) (hn : n ≤ 3) :
    ∀ {k : Kernel} {c : ℕ}, Tree k.mem root → (∀ i ≤ n, tableAt k.mem root va i = some (table i)) →
      edge k.mem (table n) (lvlAddr va n) = some c → (n < 3 → ∀ j, edge k.mem c j = none) →
      R n k (freePageUp va (upList table n) k) := by
  induction n with
  | zero =>
      intro k c hT htab hedge hempty
      have ht := htab 0 le_rfl
      rw [upList]
      rcases hT.climb hn ht hedge hempty with ⟨m', hrun, hcut, heq⟩ | ⟨k₂, hrun, hleft⟩
      · rw [hrun]
        exact ends hn ht hcut heq
      · rw [hrun]
        exact leavesRoot ht hleft
  | succ n ih =>
      intro k c hT htab hedge hempty
      have ht := htab (n + 1) le_rfl
      rw [upList]
      rcases hT.climb hn ht hedge hempty with ⟨m', hrun, hcut, heq⟩ | ⟨k₂, hrun, hleft⟩
      · rw [hrun]
        exact ends hn ht hcut heq
      · rw [hrun]
        have htab₂ : ∀ i ≤ n + 1, tableAt k₂.mem root va i = some (table i) := fun i hi =>
          (hleft.cut.tableAt_eq hn hi).trans (htab i hi)
        have hedge₂ : edge k₂.mem (table n) (lvlAddr va n) = some (table (n + 1)) := by
          have hnext := htab₂ (n + 1) le_rfl
          rwa [tableAt_succ (by omega), htab₂ n (by omega)] at hnext
        refine leaves (by omega) ht hleft (ih (by omega) hleft.cut.tree ?_ hedge₂ ?_)
        · exact fun i hi => htab₂ i (by omega)
        · exact fun _ => hleft.empty

/-- **The walk up** from level `n`: only the page's own translation is lost, at the last level;
from the levels above, which are entered with an empty table, none is.  Unless it ends at once,
the free list is lost. -/
lemma Tree.climbs (table : ℕ → ℕ) (n : ℕ) (hn : n ≤ 3) :
    ∀ {k : Kernel} {c : ℕ}, Tree k.mem root → (∀ i ≤ n, tableAt k.mem root va i = some (table i)) →
      edge k.mem (table n) (lvlAddr va n) = some c → (n < 3 → ∀ j, edge k.mem c j = none) →
      Climbed k.mem root va n (freePageUp va (upList table n) k) ∧
        ((freePageUp va (upList table n) k).pageFrameLinkedList = 0 ∨
          (freePageUp va (upList table n) k).pageFrameLinkedList = k.pageFrameLinkedList ∧
          Set.EqOn (freePageUp va (upList table n) k).mem k.mem (page (table n))ᶜ) := by
  refine Tree.climb_induction table (R := fun n k k' => Climbed k.mem root va n k' ∧
    (k'.pageFrameLinkedList = 0 ∨ k'.pageFrameLinkedList = k.pageFrameLinkedList ∧
      Set.EqOn k'.mem k.mem (page (table n))ᶜ)) ?_ ?_ ?_ n hn
  · intro n k m' hn _ hcut heq
    exact ⟨Cut.climbed hcut hn, .inr ⟨rfl, heq⟩⟩
  · intro k k' _ hleft
    exact ⟨hleft.cut.climbed (Nat.zero_le 3), .inl hleft.head⟩
  · intro n k k₂ k' hn _ hleft ⟨hup, hlist⟩
    refine ⟨⟨hup.tree, fun va' hva => ?_, hup.self⟩, .inl ?_⟩
    · calc translate k'.mem root va'
          = translate k₂.mem root va' := hup.others va' (.inl hn)
        _ = translate k.mem root va' := (hleft.cut.climbed hn).others va' hva
    · rcases hlist with h0 | ⟨hsame, -⟩
      · exact h0
      · exact hsame.trans hleft.head

/-! ### When `free_page` is right -/

/-- `kfree(levels[4])` clears the page named by the first word of the data at `f`.  It does no
harm when that page meets neither this word nor a table of the tree. -/
structure Harmless (m : ByteMemory) (root f : ℕ) : Prop where
  leaf : (PageVar.at f).Outside (nextFrame m f)
  tables : ∀ q : List (Fin 512), q.length ≤ 3 → ∀ t, walk (edge m) root q = some t →
    Disjoint (page (nextFrame m f)) (page t)

/-- The states in which `free_page` does what it should: the walk down stops early at an unmapped
page, or it follows the path of a mapped page whose data does no harm. -/
def FreeOk (m : ByteMemory) (root : ℕ) (va : BitVec 64) : Prop :=
  (StopsEarly m root va ∧ translate m root va = none) ∨
    (¬ StopsEarly m root va ∧ OwnIndices va ∧ ∃ f, translate m root va = some f ∧ Harmless m root f)

/-- Got through to its end, the walk down leads to the walk up from the last table on the page's
path, if `kfree(levels[4])` leaves the tree as it is. -/
lemma freePage_eq_freePageUp {g : ℕ} {table : ℕ → ℕ} (htable : table 0 = root)
    (htab : ∀ i ≤ 3, tableAt k.mem root va i = some (table i))
    (hdown : freePageDown k.mem root va [1, 2, 3, 4] root = some [table 1, table 2, table 3, g])
    (hwalk : ∀ p : List (Fin 512), p.length ≤ 4 →
      walk (edge (k.kfree (.at g)).mem) root p = walk (edge k.mem) root p)
    (hf : translate k.mem root va = some f) :
    k.freePage root va = freePageUp va (upList table 3) (k.kfree (.at g)) ∧
      (∀ i ≤ 3, tableAt (k.kfree (.at g)).mem root va i = some (table i)) ∧
      edge (k.kfree (.at g)).mem (table 3) (lvlAddr va 3) = some f := by
  have htab' : ∀ i ≤ 3, tableAt (k.kfree (.at g)).mem root va i = some (table i) := fun i hi =>
    (hwalk _ (by rw [take_path_length] <;> omega)).trans (htab i hi)
  have htr : translate (k.kfree (.at g)).mem root va = some f :=
    (hwalk _ (by rw [path_length])).trans hf
  rw [← tableAt_four, tableAt_succ (by omega), htab' 3 le_rfl] at htr
  refine ⟨?_, htab', htr⟩
  rw [Kernel.freePage, hdown, ← htable]
  rfl

/-- **A mapped page freed**: the tree remains and the page alone loses its translation.  The head
of the free list is the one `kfree(levels[4])` left, or `NULL`. -/
lemma Tree.freed_mapped (hT : Tree k.mem root) (hstop : ¬ StopsEarly k.mem root va)
    (hown : OwnIndices va) (hf : translate k.mem root va = some f)
    (hharm : Harmless k.mem root f) :
    Climbed k.mem root va 3 (k.freePage root va) ∧
      ((k.freePage root va).pageFrameLinkedList = 0 ∨
        (k.freePage root va).pageFrameLinkedList = (k.kfree (.at f)).pageFrameLinkedList ∧
        ∃ t, tableAt k.mem root va 3 = some t ∧
          Set.EqOn (k.freePage root va).mem (k.kfree (.at f)).mem (page t)ᶜ) := by
  obtain ⟨table, htable, htab, hdown⟩ := freePageDown_eq hstop hown hf
  have hkfree : Set.EqOn (k.kfree (.at f)).mem k.mem (page (nextFrame k.mem f))ᶜ :=
    Kernel.kfree_eqOn rfl hharm.leaf
  obtain ⟨hT', hwalk⟩ := hT.of_eqOn fun q t hq hw =>
    hkfree.mono (hharm.tables q hq t hw).symm.subset_compl_right
  obtain ⟨hrun, htab', hedge⟩ := freePage_eq_freePageUp htable htab hdown hwalk hf
  obtain ⟨hup, hlist⟩ := hT'.climbs table 3 le_rfl htab' hedge fun h => absurd h (by omega)
  rw [hrun]
  refine ⟨⟨hup.tree, fun va' hva => (hup.others va' hva).trans (hwalk _ (by rw [path_length])),
    hup.self⟩, hlist.imp_right fun hsame => ?_⟩
  exact ⟨hsame.1, table 3, htab 3 le_rfl, hsame.2⟩

/-- **One page freed**: the tree remains, the page alone loses its translation, and nothing
happens if it had none. -/
lemma Tree.freed (hT : Tree k.mem root) (hok : FreeOk k.mem root va) :
    Climbed k.mem root va 3 (k.freePage root va) ∧
      (translate k.mem root va = none → k.freePage root va = k) := by
  rcases hok with ⟨hstop, hnone⟩ | ⟨hstop, hown, f, hf, hharm⟩
  · rw [freePage_of_stopsEarly hstop]
    exact ⟨⟨hT, fun _ _ => rfl, hnone⟩, fun _ => rfl⟩
  · exact ⟨(hT.freed_mapped hstop hown hf hharm).1,
      fun hnone => absurd (hf.symm.trans hnone) (by simp)⟩

/-- What `free_page` should do to the translations and, at an unmapped page, to everything. -/
structure FreePageCorrect (w : World) (root : ℕ) (va : BitVec 64) (k' : Kernel) : Prop where
  self : translate k'.mem root va = none
  others : ∀ va', vpn va' ≠ vpn va → translate k'.mem root va' = translate w.mem root va'
  unmapped : translate w.mem root va = none →
    (∀ r ∈ w.roots, ∀ q : List (Fin 512), q.length ≤ 3 → ∀ t, walk (edge w.mem) r q = some t →
      ∀ i, entry k'.mem t i = entry w.mem t i) ∧
    ∀ fs, FreeList w.kernel fs → FreeList k' fs

lemma Tree.freePageCorrect (hT : Tree w.mem root) (hok : FreeOk w.mem root va) :
    FreePageCorrect w root va (w.kernel.freePage root va) := by
  obtain ⟨hclimbed, hsame⟩ := hT.freed hok
  refine ⟨hclimbed.self, fun va' hva => hclimbed.others va' (.inr hva), fun hnone => ?_⟩
  rw [hsame hnone]
  exact ⟨fun _ _ _ _ _ _ _ => rfl, fun _ h => h⟩

/-- Stopped early, `free_page` is right exactly at the unmapped pages. -/
lemma freePageCorrect_iff_of_stopsEarly (hstop : StopsEarly w.mem root va) :
    FreePageCorrect w root va (w.kernel.freePage root va) ↔ translate w.mem root va = none := by
  have hsame : w.kernel.freePage root va = w.kernel := freePage_of_stopsEarly hstop
  rw [hsame]
  exact ⟨fun h => h.self, fun hnone => ⟨hnone, fun _ _ => rfl, fun _ =>
    ⟨fun _ _ _ _ _ _ _ => rfl, fun _ h => h⟩⟩⟩

/-! ### Regions -/

/-- Every page of a region is met in a state in which `free_page` does what it should. -/
inductive UnmapOk (root : ℕ) : Kernel → PageVa → PageVa → Prop
  | done {k : Kernel} {vaStart vaEnd : PageVa} (h : ¬ vaStart.va < vaEnd.va) :
      UnmapOk root k vaStart vaEnd
  | step {k : Kernel} {vaStart vaEnd : PageVa} (h : vaStart.va < vaEnd.va)
      (hok : FreeOk k.mem root vaStart.va)
      (hrest : UnmapOk root (k.freePage root vaStart.va) vaStart.next vaEnd) :
      UnmapOk root k vaStart vaEnd

/-- The region of one page. -/
lemma UnmapOk.single {vaStart vaEnd : PageVa} (h : vaStart.va < vaEnd.va)
    (hlast : ¬ vaStart.next.va < vaEnd.va) (hok : FreeOk w.mem root vaStart.va) :
    UnmapOk root w.kernel vaStart vaEnd :=
  .step h hok (.done hlast)

/-- **A region unmapped**: exactly its pages lose their translations. -/
lemma Tree.unmapped {vaStart vaEnd : PageVa} (hok : UnmapOk root k vaStart vaEnd) :
    Tree k.mem root → Tree (k.unmapRegion root vaStart vaEnd).mem root ∧
      ∀ va, (InRegion vaStart vaEnd va →
          translate (k.unmapRegion root vaStart vaEnd).mem root va = none) ∧
        (¬ InRegion vaStart vaEnd va →
          translate (k.unmapRegion root vaStart vaEnd).mem root va = translate k.mem root va) := by
  induction hok with
  | done h =>
      intro hT
      rw [Kernel.unmapRegion, if_neg h]
      exact ⟨hT, fun va => ⟨fun hin => absurd hin (not_inRegion h), fun _ => rfl⟩⟩
  | @step k vaStart vaEnd h hok _ ih =>
      intro hT
      obtain ⟨hclimbed, -⟩ := hT.freed hok
      obtain ⟨hT', hpages⟩ := ih hclimbed.tree
      rw [Kernel.unmapRegion, if_pos h]
      refine ⟨hT', fun va => ⟨fun hin => ?_, fun hout => ?_⟩⟩
      · by_cases hrest : InRegion vaStart.next vaEnd va
        · exact (hpages va).1 hrest
        · have hself := ((inRegion_iff h).mp hin).resolve_right hrest
          rw [(hpages va).2 hrest, ← translate_congr_vpn hself]
          exact hclimbed.self
      · rw [inRegion_iff h, not_or] at hout
        exact ((hpages va).2 hout.2).trans
          (hclimbed.others va (.inr fun hvpn => hout.1 hvpn.symm))

/-! ### Reachable trees -/

/-- **When `free_page` and `unmap_region` are right**, on every tree a run reaches: `FreeOk` is
enough, page by page for a region, and where the walk down stops early they are right exactly at
the unmapped pages. -/
theorem freePage_unmaps (b : Boot) (hw : b.Reaches w) (hr : root ∈ w.roots) :
    (∀ va, FreeOk w.mem root va → FreePageCorrect w root va (w.kernel.freePage root va)) ∧
    (∀ va, StopsEarly w.mem root va →
      (FreePageCorrect w root va (w.kernel.freePage root va) ↔ translate w.mem root va = none)) ∧
    ∀ vaStart vaEnd, UnmapOk root w.kernel vaStart vaEnd → ∀ va,
      (InRegion vaStart vaEnd va →
        translate (w.kernel.unmapRegion root vaStart vaEnd).mem root va = none) ∧
      (¬ InRegion vaStart vaEnd va →
        translate (w.kernel.unmapRegion root vaStart vaEnd).mem root va =
          translate w.mem root va) := by
  obtain ⟨fs, pos, hI⟩ := hw.inv
  have hT := hI.tree b.initial hr
  exact ⟨fun va hok => hT.freePageCorrect hok, fun va => freePageCorrect_iff_of_stopsEarly,
    fun vaStart vaEnd hok => (Tree.unmapped hok hT).2⟩

/-! ### Pages of the small world -/

/-- The walk down for an address whose root entry is the only one set stops early. -/
lemma smallMapped_stopsEarly {va pa : BitVec 64} (hpa : pa.toNat < 2 ^ 36)
    (hne : lvlAddrPred va 1 ≠ lvlAddr va 0) : StopsEarly (smallMapped va pa).mem 4096 va := by
  refine ⟨1, by simp, edge_eq_none.mp ?_⟩
  have hstop := (smallMapped_spec va hpa).2.2.1 (lvlAddrPred va 1) [] (by simp) ?_
  · rw [walk_cons] at hstop
    cases he : edge (smallMapped va pa).mem 4096 (lvlAddrPred va 1) with
    | none => rfl
    | some c => simp [he] at hstop
  · intro hprefix
    rw [path, List.cons_prefix_cons] at hprefix
    exact hne hprefix.1

/-- The page at `0x8000000000` has root entry 1, the walk down looks at root entry 0. -/
lemma smallMapped_far_stopsEarly {pa : BitVec 64} (hpa : pa.toNat < 2 ^ 36) :
    StopsEarly (smallMapped 0x8000000000 pa).mem 4096 0x8000000000 :=
  smallMapped_stopsEarly hpa (by decide)

/-- A mapped page that `free_page` leaves mapped: the walk down looks at root entry 0 where the
page has root entry 1. -/
theorem freePage_fails :
    smallBoot.Reaches (smallMapped 0x8000000000 0xB000) ∧
      4096 ∈ (smallMapped 0x8000000000 0xB000).roots ∧
      ¬ FreePageCorrect (smallMapped 0x8000000000 0xB000) 4096 0x8000000000
        ((smallMapped 0x8000000000 0xB000).kernel.freePage 4096 0x8000000000) := by
  refine ⟨smallMapped_reaches _ smallPage_lt, smallMapped_root _ _, fun h => ?_⟩
  have hstop := smallMapped_far_stopsEarly smallPage_lt
  obtain ⟨-, ⟨f, hf, -⟩, -⟩ := smallMapped_spec 0x8000000000 smallPage_lt
  rw [freePageCorrect_iff_of_stopsEarly hstop, hf] at h
  exact absurd h (by simp)

/-- The page at address 0, with all indices 0 on both walks and zero data, can be freed. -/
lemma smallMapped_freeOk : FreeOk (smallMapped 0 0xB000).mem 4096 0 := by
  obtain ⟨⟨fs, pos, hI, -⟩, ⟨f, hf, hfpa⟩, -, hzero⟩ := smallMapped_spec 0 smallPage_lt
  obtain rfl : f = 0xB000 := hfpa (by decide)
  have hT := hI.tree smallBoot.initial (smallMapped_root _ _)
  have hindex : ∀ i ∈ [1, 2, 3, 4], lvlAddrPred 0 i = lvlAddr 0 0 := by decide
  have hroot : IsSet (entry (smallMapped 0 0xB000).mem 4096 (lvlAddr 0 0)) := by
    by_contra hunset
    rw [translate_eq_none (by omega) tableAt_zero hunset] at hf
    exact absurd hf (by simp)
  have hnext : nextFrame (smallMapped 0 0xB000).mem 0xB000 = 0 := by
    refine congrArg BitVec.toNat (load64_eq_zero fun x hx => hzero x ?_)
    simp only [Set.mem_Ico] at hx
    omega
  refine .inr ⟨?_, by decide, 0xB000, hf, ?_, fun q hq t ht => ?_⟩
  · rintro ⟨i, hi, hunset⟩
    rw [hindex i hi] at hunset
    exact hunset hroot
  · rw [hnext]
    exact .inr (by norm_num [pageSize])
  · rw [hnext]
    obtain ⟨hal, hne⟩ := hT.frame hq ht
    exact page_disjoint (Nat.dvd_zero _) hal hne.symm

/-- The page at address 0 freed, and the region of that page unmapped. -/
theorem freePage_unmaps_small :
    FreePageCorrect (smallMapped 0 0xB000) 4096 0
        ((smallMapped 0 0xB000).kernel.freePage 4096 0) ∧
      translate ((smallMapped 0 0xB000).kernel.unmapRegion 4096 ⟨0, by decide⟩
        ⟨0x1000, by decide⟩).mem 4096 0 = none := by
  obtain ⟨hfree, -, hunmap⟩ :=
    freePage_unmaps smallBoot (smallMapped_reaches _ smallPage_lt) (smallMapped_root 0 0xB000)
  have hregion : UnmapOk 4096 (smallMapped 0 0xB000).kernel ⟨0, by decide⟩ ⟨0x1000, by decide⟩ :=
    .single (by decide) (by decide) smallMapped_freeOk
  exact ⟨hfree 0 smallMapped_freeOk,
    (hunmap _ _ hregion 0).1 ⟨⟨0, by decide⟩, by decide, by decide, rfl⟩⟩

end SkinnyArm
