import SkinnyArm.Library.Missing
import SkinnyArm.PageTree.Region

/-!
What `get_physical_page` and `map_region` cost.

* `callNodes` are the paths a call may set: the three tables below the root, and the page itself if
  a frame is asked for.  A call takes one frame for each of them that the tree lacks.
* **One call** (`Inv.call_cost`): from the level at which the walk stops the call takes frame
  after frame (`Inv.cost_from`, by induction on the levels to go), until it has what it needs or
  the list is empty.
* **A region** (`Inv.mapRegionLoop_cost`), by induction on the pages: the tables two pages share
  are paid for once, so the region costs the nodes it lacks, whatever order they are met in.
-/

namespace SkinnyArm

open ByteMemory Forest

variable {frames fs rest : List ℕ} {w : World} {pos : Pos} {t r root f n i : ℕ} {k' : Kernel}
  {va pa : BitVec 64} {kind : BitVec 8} {q : List (Fin 512)}

/-! ### The nodes of a call -/

/-- The paths of the tables a page hangs under. -/
def tablePaths (va : BitVec 64) : Finset (List (Fin 512)) :=
  {(path va).take 1, (path va).take 2, (path va).take 3}

/-- A frame is asked for, of a kind that is known. -/
def AsksFrame (pa : BitVec 64) (kind : BitVec 8) : Prop := pa = 0 ∧ kind.toNat < 3

instance : Decidable (AsksFrame pa kind) := inferInstanceAs (Decidable (_ ∧ _))

/-- The paths a call may give a frame to. -/
def callNodes (va pa : BitVec 64) (kind : BitVec 8) : Finset (List (Fin 512)) :=
  tablePaths va ∪ if AsksFrame pa kind then {path va} else ∅

/-- The frames a call needs: one for each of its nodes the tree lacks. -/
def callCost (m : ByteMemory) (root : ℕ) (va pa : BitVec 64) (kind : BitVec 8) : ℕ :=
  (missing (edge m) root (callNodes va pa kind)).card

/-- The frame for the page itself. -/
def leafCost (pa : BitVec 64) (kind : BitVec 8) : ℕ := if AsksFrame pa kind then 1 else 0

lemma mem_callNodes (hq : q ∈ callNodes va pa kind) : q <+: path va ∧ q ≠ [] ∧ q.length ≤ 4 := by
  have htake : ∀ {n}, 0 < n → n ≤ 4 → q = (path va).take n →
      q <+: path va ∧ q ≠ [] ∧ q.length ≤ 4 := by
    rintro n hpos hn rfl
    have hlen : ((path va).take n).length = n := take_path_length hn
    refine ⟨List.take_prefix n _, fun h0 => ?_, by omega⟩
    rw [h0] at hlen
    simp only [List.length_nil] at hlen
    omega
  simp only [callNodes, tablePaths, Finset.mem_union, Finset.mem_insert, Finset.mem_singleton] at hq
  rcases hq with (h | h | h) | h
  · exact htake (by omega) (by omega) h
  · exact htake (by omega) (by omega) h
  · exact htake (by omega) (by omega) h
  · split_ifs at h
    · exact htake (n := 4) (by omega) (by omega) (Finset.mem_singleton.mp h)
    · exact absurd h (by simp)

/-- Below level `n` there are the tables of the levels after it, and the page. -/
lemma card_callNodes_below (hn : n ≤ 3) :
    ((callNodes va pa kind).filter (n < ·.length)).card = (3 - n) + leafCost pa kind := by
  unfold callNodes leafCost tablePaths
  split_ifs <;> interval_cases n <;> simp [path, Finset.filter_insert,
    Finset.filter_singleton]

/-- A page that is translated costs nothing. -/
lemma callCost_of_translate {m : ByteMemory} (h : translate m root va = some f) :
    callCost m root va pa kind = 0 := by
  rw [callCost, missing_of_walk h fun q hq => (mem_callNodes hq).1, Finset.card_empty]

/-- A walk that stops at level `n` leaves the levels after it to pay for. -/
lemma callCost_of_stop {m : ByteMemory} (hn : n ≤ 3) (ht : tableAt m root va n = some t)
    (hstop : edge m t (lvlAddr va n) = none) :
    callCost m root va pa kind = (3 - n) + leafCost pa kind := by
  have hsplit : path va = (path va).take n ++ lvlAddr va n :: (path va).drop (n + 1) := by
    interval_cases n <;> rfl
  have hlen : ((path va).take n).length = n := take_path_length (by omega)
  have hmissing := missing_of_stop (N := callNodes va pa kind) ht hstop fun q hq => by
    rw [← hsplit]
    exact (mem_callNodes hq).1
  rw [callCost, hmissing, hlen, card_callNodes_below hn]

/-- A page that is not translated stops the walk at some level. -/
lemma exists_stop_level {m : ByteMemory} (h : translate m root va = none) :
    ∃ n t, n ≤ 3 ∧ tableAt m root va n = some t ∧ edge m t (lvlAddr va n) = none := by
  obtain ⟨q, i, s, t, hsplit, hq, hstop⟩ := exists_stop h
  have hlen := congrArg List.length hsplit
  rw [path_length, List.length_append, List.length_cons] at hlen
  have htake : (path va).take q.length = q := by rw [hsplit, List.take_left]
  have hi : lvlAddr va q.length = i := by
    have hget : (path va)[q.length]? = some i := by simp [hsplit]
    have hlt : q.length < 4 := by omega
    generalize q.length = n at hget hlt
    interval_cases n <;> simpa [path] using hget
  exact ⟨q.length, t, by omega, by rw [tableAt, htake, hq], by rw [hi]; exact hstop⟩

/-! ### The levels that are missing -/

/-- A frame `kalloc` returned has no entries. -/
lemma edge_new_root {k k₀ : Kernel} (hk : k.kalloc = some (root, k₀)) (i : Fin 512) :
    edge k₀.mem root i = none := by
  obtain ⟨-, -, rfl⟩ := Kernel.kalloc_eq_some hk
  refine edge_eq_none.mpr ?_
  rw [entry_clear_self]
  exact not_isSet_zero

/-- At level `i` the frame `f` was put into the table `t` as the empty table of the next level. -/
structure TableAdded (frames : List ℕ) (w : World) (fs : List ℕ) (r : ℕ) (va : BitVec 64)
    (i t f : ℕ) (k' : Kernel) : Prop where
  inv : ∃ pos', Inv frames { w with kernel := k' } fs pos'
  table : tableAt k'.mem r va (i + 1) = some f
  empty : ∀ j, edge k'.mem f j = none
  same : w.SameTranslations k'.mem
  mem : Set.EqOn k'.mem w.mem (page f ∪ page t)ᶜ

/-- A level above the last whose entry is not set takes the head of the list for a table. -/
lemma Inv.level_grows (hI : Inv frames w (f :: fs) pos) (hfr : InitialFrames frames)
    (hlt : ∀ f ∈ frames, f < 2 ^ 36) (hr : r ∈ w.roots) (hi : i < 3)
    (ht : tableAt w.mem r va i = some t) (hstop : edge w.mem t (lvlAddr va i) = none) :
    ∃ k', getPhysicalPageLevel w.kernel t va pa kind i = (k', .next f) ∧
      TableAdded frames w fs r va i t f k' := by
  have hpos := hI.pos_tableAt hr hi.le ht
  have hunset : ¬ IsSet (entry w.mem t (lvlAddr va i)) := edge_eq_none.mp hstop
  have hlen : ((path va).take i).length = i := take_path_length (by omega)
  obtain ⟨g, k₁, hk⟩ : ∃ g k₁, w.kernel.kalloc = some (g, k₁) := exists_kalloc hI (by simp)
  obtain ⟨rest, hcons, -⟩ := hI.list.kalloc hk
  obtain ⟨rfl, rfl⟩ := List.cons.inj hcons
  have hentry : allocatedEntry i kind f = some (pgdpudEntry 0 (BitVec.ofNat 64 f)) :=
    allocatedEntry_inner hi
  generalize hword : pgdpudEntry 0 (BitVec.ofNat 64 f) = pentry at hentry
  obtain ⟨hset, hframe⟩ := allocatedEntry_frame hentry (hI.lt_of_kalloc hlt hk)
  obtain ⟨ha, hzero⟩ := hI.attached_frame hfr hk hpos hunset hset hframe
  have hI' := hI.attachFrame hfr hk hpos (by omega) hunset hset hframe
    (.inner (by omega) hword.symm)
  have hempty : ∀ j, edge (setEntry k₁.mem t (lvlAddr va i) pentry) f j = none := fun j =>
    edge_eq_none.mpr (by rw [hzero]; exact not_isSet_zero)
  refine ⟨{ k₁ with mem := setEntry k₁.mem t (lvlAddr va i) pentry }, ?_, ⟨_, hI'⟩, ?_, hempty, ?_,
    ?_⟩
  · simp [getPhysicalPageLevel, hunset, hk, hi.ne, hentry, hframe]
  · rw [tableAt, take_path_succ (by omega)]
    exact ha.walk_self hI hpos (by omega)
  · exact fun r' hr' va' =>
      ha.translate_inner hI hpos (by omega) (fun _ => hempty) hr' (by omega)
  · obtain ⟨-, -, hk₁⟩ := Kernel.kalloc_eq_some hk
    have hclear : Set.EqOn k₁.mem w.mem (page f)ᶜ := by
      rw [hk₁]
      exact clear_eqOn
    exact (setEntry_eqOn.mono (Set.compl_subset_compl.mpr Set.subset_union_right)).trans
      (hclear.mono (Set.compl_subset_compl.mpr Set.subset_union_left))

/-- How a call or a part of one ends that needs `cost` frames: it takes as many as there are, and
succeeds if the kind is known and there were enough. -/
def Pays (fs : List ℕ) (kind : BitVec 8) (cost : ℕ) (outcome : Kernel × ℕ) : Prop :=
  FreeList outcome.1 (fs.drop cost) ∧ (outcome.2 ≠ 0 ↔ kind.toNat < 3 ∧ cost ≤ fs.length)

/-- A kind an entry is made for is known. -/
lemma kind_lt_of_explicitEntry {pentry : BitVec 64} (h : explicitEntry kind pa = some pentry) :
    kind.toNat < 3 := by
  by_contra hge
  have hnone : explicitEntry kind pa = none := by
    unfold explicitEntry
    split <;> first | omega | rfl
  rw [hnone] at h
  exact absurd h (by simp)

lemma kind_lt_of_allocatedEntry {pentry : BitVec 64} (h : allocatedEntry 3 kind f = some pentry) :
    kind.toNat < 3 := by
  by_contra hge
  have hnone : allocatedEntry 3 kind f = none := by
    simp only [allocatedEntry]
    split <;> first | omega | rfl
  rw [hnone] at h
  exact absurd h (by simp)

/-- How the last level ends where the entry is not set and no address is given: the list is empty,
the frame is given back for a kind that is not known, or it is mapped. -/
inductive LastFrame (k : Kernel) (t : ℕ) (va : BitVec 64) (kind : BitVec 8) : Kernel × ℕ → Prop
  | empty (hk : k.kalloc = none) : LastFrame k t va kind (k, 0)
  | refused {f : ℕ} {k₁ : Kernel} (hk : k.kalloc = some (f, k₁)) (hkind : 3 ≤ kind.toNat) :
      LastFrame k t va kind (k₁.kfree (.held f), 0)
  | mapped {f : ℕ} {k₁ : Kernel} {pentry : BitVec 64} (hk : k.kalloc = some (f, k₁))
      (hkind : kind.toNat < 3) :
      LastFrame k t va kind ({ k₁ with mem := setEntry k₁.mem t (lvlAddr va 3) pentry }, f)

lemma Inv.lastFrame (hI : Inv frames w fs pos) (hlt : ∀ f ∈ frames, f < 2 ^ 36)
    (hstop : edge w.mem t (lvlAddr va 3) = none) :
    LastFrame w.kernel t va kind (getPhysicalPageFrom va 0 kind [3] w.kernel t) := by
  have hunset : ¬ IsSet (entry w.mem t (lvlAddr va 3)) := edge_eq_none.mp hstop
  cases hk : w.kernel.kalloc with
  | none =>
      have hrun : getPhysicalPageFrom va 0 kind [3] w.kernel t = (w.kernel, 0) := by
        simp [getPhysicalPageFrom, getPhysicalPageLevel, hunset, hk]
      rw [hrun]
      exact .empty hk
  | some taken =>
      obtain ⟨f, k₁⟩ := taken
      cases hentry : allocatedEntry 3 kind f with
      | none =>
          have hrun : getPhysicalPageFrom va 0 kind [3] w.kernel t = (k₁.kfree (.held f), 0) := by
            simp [getPhysicalPageFrom, getPhysicalPageLevel, hunset, hk, hentry]
          rw [hrun]
          exact .refused hk (allocatedEntry_eq_none hentry)
      | some pentry =>
          have hframe : frameOf pentry = f :=
            (allocatedEntry_frame hentry (hI.lt_of_kalloc hlt hk)).2
          have hrun : getPhysicalPageFrom va 0 kind [3] w.kernel t =
              ({ k₁ with mem := setEntry k₁.mem t (lvlAddr va 3) pentry }, f) := by
            simp [getPhysicalPageFrom, getPhysicalPageLevel, hunset, hk, hentry, hframe]
          rw [hrun]
          exact .mapped hk (kind_lt_of_allocatedEntry hentry)

/-- **The last level**, where the entry is not set: it takes a frame if one is asked for. -/
lemma Inv.level_pays (hI : Inv frames w fs pos) (hfr : InitialFrames frames)
    (hlt : ∀ f ∈ frames, f < 2 ^ 36) (hr : r ∈ w.roots) (ht : tableAt w.mem r va 3 = some t)
    (hstop : edge w.mem t (lvlAddr va 3) = none) :
    Pays fs kind (leafCost pa kind) (getPhysicalPageFrom va pa kind [3] w.kernel t) := by
  have hunset : ¬ IsSet (entry w.mem t (lvlAddr va 3)) := edge_eq_none.mp hstop
  have hpos := hI.pos_tableAt hr le_rfl ht
  rcases eq_or_ne pa 0 with rfl | h0
  · have hlast : LastFrame w.kernel t va kind _ := hI.lastFrame hlt hstop
    generalize getPhysicalPageFrom va 0 kind [3] w.kernel t = outcome at hlast ⊢
    cases hlast with
    | empty hk =>
        obtain rfl := hI.list.kalloc_eq_none.mp hk
        rw [Pays, List.drop_nil]
        refine ⟨hI.list, fun h => absurd rfl h, fun ⟨hkind, hle⟩ => ?_⟩
        rw [leafCost, if_pos ⟨rfl, hkind⟩] at hle
        exact absurd hle (by simp)
    | @refused f k₁ hk hkind =>
        have hg : Grown frames w fs r va 0 (k₁.kfree (.held f)) fs := hI.kalloc_kfree hfr hr hk
        obtain ⟨pos', hI'⟩ := hg.inv
        rw [Pays, leafCost, if_neg fun h => absurd h.2 (by omega), List.drop_zero]
        exact ⟨hI'.list, fun h => absurd rfl h, fun h => absurd h.1 (by omega)⟩
    | mapped hk hkind =>
        obtain ⟨rest, rfl, -⟩ := hI.list.kalloc hk
        rw [Pays, leafCost, if_pos ⟨rfl, hkind⟩]
        exact ⟨hI.list_attachFrame hfr hk hpos, fun _ => ⟨hkind, by simp⟩,
          fun _ => hI.list.ne_zero List.mem_cons_self⟩
  · have hleaf : leafCost pa kind = 0 := if_neg fun h => h0 h.1
    have hpa : pa ≠ 0#64 := h0
    rw [hleaf, Pays, List.drop_zero]
    cases hentry : explicitEntry kind pa with
    | none =>
        have hrun : getPhysicalPageFrom va pa kind [3] w.kernel t = (w.kernel, 0) := by
          simp [getPhysicalPageFrom, getPhysicalPageLevel, hunset, hpa, hentry]
        have hkind := explicitEntry_eq_none hentry
        rw [hrun]
        exact ⟨hI.list, fun h => absurd rfl h, fun h => absurd h.1 (by omega)⟩
    | some pentry =>
        have hrun : getPhysicalPageFrom va pa kind [3] w.kernel t =
            ({ w.kernel with mem := setEntry w.mem t (lvlAddr va 3) pentry }, pa.toNat) := by
          simp [getPhysicalPageFrom, getPhysicalPageLevel, hunset, hpa, hentry]
        rw [hrun]
        exact ⟨hI.list.setEntry (hI.aligned hfr hpos) (hI.notMem_free hpos),
          fun _ => ⟨kind_lt_of_explicitEntry hentry, Nat.zero_le _⟩,
          fun _ h => h0 (BitVec.eq_of_toNat_eq h)⟩

/-- **The levels from `i` on**, where the walk stops at level `i`: a frame for each table after it,
and what the page costs. -/
lemma Inv.cost_from (hfr : InitialFrames frames) (hlt : ∀ f ∈ frames, f < 2 ^ 36) :
    ∀ (n : ℕ) {i t : ℕ} {w : World} {fs : List ℕ} {pos : Pos}, i + n = 3 →
      Inv frames w fs pos → r ∈ w.roots → tableAt w.mem r va i = some t →
      edge w.mem t (lvlAddr va i) = none →
      Pays fs kind (n + leafCost pa kind)
        (getPhysicalPageFrom va pa kind (List.range' i (n + 1)) w.kernel t) := by
  intro n
  induction n with
  | zero =>
      intro i t w fs pos hi hI hr ht hstop
      obtain rfl : i = 3 := hi
      rw [Nat.zero_add]
      exact hI.level_pays hfr hlt hr ht hstop
  | succ n ih =>
      intro i t w fs pos hi hI hr ht hstop
      rw [List.range'_succ, getPhysicalPageFrom]
      cases fs with
      | nil =>
          have hk : w.kernel.kalloc = none := hI.list.kalloc_eq_none.mpr rfl
          have hlevel : getPhysicalPageLevel w.kernel t va pa kind i = (w.kernel, .ret 0) := by
            simp [getPhysicalPageLevel, edge_eq_none.mp hstop, hk, show i ≠ 3 by omega]
          rw [hlevel, Pays, List.drop_nil]
          exact ⟨hI.list, fun h => absurd rfl h, fun h => absurd h.2 (by simp)⟩
      | cons f rest =>
          obtain ⟨k', hlevel, hadded⟩ := hI.level_grows hfr hlt hr (by omega) ht hstop
          obtain ⟨pos', hI'⟩ := hadded.inv
          rw [hlevel]
          obtain ⟨hlist, hret⟩ := ih (i := i + 1) (by omega) hI' hr hadded.table (hadded.empty _)
          rw [show n + 1 + leafCost pa kind = (n + leafCost pa kind) + 1 by omega, Pays,
            List.drop_succ_cons, List.length_cons, Nat.add_le_add_iff_right]
          exact ⟨hlist, hret⟩

/-- Above the level at which the walk stops a call only walks. -/
lemma getPhysicalPage_of_stop {k : Kernel} (hn : n ≤ 3) (ht : tableAt k.mem r va n = some t) :
    k.getPhysicalPage r va pa kind =
      getPhysicalPageFrom va pa kind (List.range' n (3 - n + 1)) k t := by
  have hfrom : getPhysicalPageFrom va pa kind (List.range' 0 n ++ List.range' n (3 - n + 1)) k r =
      getPhysicalPageFrom va pa kind (List.range' n (3 - n + 1)) k t :=
    getPhysicalPageFrom_of_tableAt n (by omega) tableAt_zero (by rw [Nat.zero_add]; exact ht) _
  rw [← hfrom, Kernel.getPhysicalPage]
  congr 1
  interval_cases n <;> rfl

/-- **One call**: it takes the frames its nodes lack, as far as the list goes, and returns a page
if it was translated, or the kind is known and the frames sufficed. -/
lemma Inv.call_cost (hI : Inv frames w fs pos) (hfr : InitialFrames frames)
    (hlt : ∀ f ∈ frames, f < 2 ^ 36) (hr : r ∈ w.roots) (va pa : BitVec 64) (kind : BitVec 8) :
    FreeList (w.kernel.getPhysicalPage r va pa kind).1 (fs.drop (callCost w.mem r va pa kind)) ∧
      ((w.kernel.getPhysicalPage r va pa kind).2 ≠ 0 ↔ translate w.mem r va ≠ none ∨
        kind.toNat < 3 ∧ callCost w.mem r va pa kind ≤ fs.length) := by
  cases htr : translate w.mem r va with
  | some f =>
      rw [getPhysicalPage_of_translate htr, callCost_of_translate htr, List.drop_zero]
      have hne := hI.translate_ne_zero hfr hlt hr htr
      exact ⟨hI.list, fun _ => .inl (by simp), fun _ => hne⟩
  | none =>
      obtain ⟨n, t, hn, ht, hstop⟩ := exists_stop_level htr
      have hpays : Pays fs kind ((3 - n) + leafCost pa kind)
          (getPhysicalPageFrom va pa kind (List.range' n (3 - n + 1)) w.kernel t) :=
        Inv.cost_from hfr hlt (3 - n) (by omega) hI hr ht hstop
      rw [getPhysicalPage_of_stop hn ht, callCost_of_stop hn ht hstop]
      exact ⟨hpays.1, hpays.2.trans (by simp)⟩

/-- **The cost of a call**: in every world a run reaches, `get_physical_page` takes one frame off
the list for each node the tree lacks, or all there are; it returns a page exactly if the page was
translated, or the kind is known and the list was long enough. -/
theorem getPhysicalPage_cost (b : Boot) (hw : b.Reaches w) (hr : root ∈ w.roots)
    (va pa : BitVec 64) (kind : BitVec 8) :
    ∃ fs, FreeList w.kernel fs ∧
      FreeList (w.kernel.getPhysicalPage root va pa kind).1
        (fs.drop (callCost w.mem root va pa kind)) ∧
      ((w.kernel.getPhysicalPage root va pa kind).2 ≠ 0 ↔ translate w.mem root va ≠ none ∨
        kind.toNat < 3 ∧ callCost w.mem root va pa kind ≤ fs.length) := by
  obtain ⟨fs, pos, hI⟩ := hw.inv
  exact ⟨fs, hI.list, hI.call_cost b.initial b.lt hr va pa kind⟩

/-- The first page of the small world costs three tables and a frame. -/
theorem getPhysicalPage_cost_small :
    ∃ fs, FreeList smallTaken fs ∧
      FreeList (smallTaken.getPhysicalPage 4096 0x1000 0 0).1
        (fs.drop (callCost smallTaken.mem 4096 0x1000 0 0)) ∧
      ((smallTaken.getPhysicalPage 4096 0x1000 0 0).2 ≠ 0 ↔
        translate smallTaken.mem 4096 0x1000 ≠ none ∨
        (0 : BitVec 8).toNat < 3 ∧ callCost smallTaken.mem 4096 0x1000 0 0 ≤ fs.length) :=
  getPhysicalPage_cost smallBoot smallWorld_reaches (by simp [smallWorld]) 0x1000 0 0

/-! ### What is missing after a call -/

/-- The tables of a page are the proper prefixes of its path. -/
lemma mem_tablePaths : q ∈ tablePaths va ↔ q <+: path va ∧ q ≠ [] ∧ q.length ≤ 3 := by
  have htake : ∀ {n}, n < 3 → q = (path va).take (n + 1) →
      q <+: path va ∧ q ≠ [] ∧ q.length ≤ 3 := by
    rintro n hn rfl
    have hlen : ((path va).take (n + 1)).length = n + 1 := take_path_length (by omega)
    exact ⟨List.take_prefix _ _, List.ne_nil_of_length_eq_add_one hlen, by omega⟩
  simp only [tablePaths, Finset.mem_insert, Finset.mem_singleton]
  constructor
  · rintro (h | h | h)
    · exact htake (by omega) h
    · exact htake (by omega) h
    · exact htake (by omega) h
  · rintro ⟨hpre, hne, hlen⟩
    have hpos := List.length_pos_iff.mpr hne
    have heq := List.prefix_iff_eq_take.mp hpre
    generalize q.length = n at hpos hlen heq
    interval_cases n
    · exact .inl heq
    · exact .inr (.inl heq)
    · exact .inr (.inr heq)

/-- The short paths a call may give a frame to are the prefixes of its path. -/
lemma mem_callNodes_iff (hne : q ≠ []) (hlen : q.length ≤ 3) :
    q ∈ callNodes va pa kind ↔ q <+: path va :=
  ⟨fun h => (mem_callNodes h).1,
    fun h => Finset.mem_union_left _ (mem_tablePaths.mpr ⟨h, hne, hlen⟩)⟩

/-- After a call that returned a page its path is there, and no other. -/
lemma Inv.walk_after_call (hI : Inv frames w fs pos) (hfr : InitialFrames frames)
    (hlt : ∀ f ∈ frames, f < 2 ^ 36) (hr : r ∈ w.roots) (hpa : pa.toNat < 2 ^ 36)
    (hok : (w.kernel.getPhysicalPage r va pa kind).2 ≠ 0) (hq : q.length ≤ 4) :
    walk (edge (w.kernel.getPhysicalPage r va pa kind).1.mem) r q = none ↔
      walk (edge w.mem) r q = none ∧ ¬ q <+: path va := by
  have hl : Looked frames w fs r va pa kind 3 _ _ := hI.looked hfr hlt hr hpa
  generalize w.kernel.getPhysicalPage r va pa kind = looked at hl hok ⊢
  obtain ⟨k', result⟩ := looked
  have hself : translate k'.mem r va = some result := by
    cases hl with
    | null => exact absurd rfl hok
    | found hg hsome => exact hg.self.trans hsome
    | mapped _ _ _ _ _ _ hself _ _ => exact hself
  have hother : ¬ q <+: path va → walk (edge k'.mem) r q = walk (edge w.mem) r q := fun hoff => by
    cases hl with
    | null => exact absurd rfl hok
    | found hg _ => exact hg.walk_other r hr q hq fun h => hoff h.2
    | mapped _ _ _ _ _ _ _ hother _ => exact hother r hr q hq fun h => hoff h.2
  by_cases hpre : q <+: path va
  · obtain ⟨c, hc⟩ := exists_walk_of_prefix hself hpre
    simp [hc, hpre]
  · rw [hother hpre]
    exact ⟨fun h => ⟨h, hpre⟩, fun h => h.1⟩

/-! ### A region -/

/-- The nodes of a region: those of its pages. -/
def regionNodes (va pa : BitVec 64) (kind : BitVec 8) (n : ℕ) : Finset (List (Fin 512)) :=
  (Finset.range n).biUnion fun i =>
    callNodes (va + BitVec.ofNat 64 (i * pageSize)) (pa + BitVec.ofNat 64 (i * pageSize)) kind

/-- The frames a region of `n` pages needs. -/
def regionCost (m : ByteMemory) (root : ℕ) (va pa : BitVec 64) (kind : BitVec 8) (n : ℕ) : ℕ :=
  (missing (edge m) root (regionNodes va pa kind n)).card

lemma mem_regionNodes : q ∈ regionNodes va pa kind n ↔ ∃ i < n,
    q ∈ callNodes (va + BitVec.ofNat 64 (i * pageSize)) (pa + BitVec.ofNat 64 (i * pageSize))
      kind := by
  simp [regionNodes]

/-- The first page and the rest. -/
lemma regionNodes_succ : regionNodes va pa kind (n + 1) = callNodes va pa kind ∪
    regionNodes (va + BitVec.ofNat 64 pageSize) (pa + BitVec.ofNat 64 pageSize) kind n := by
  have hnext : ∀ (a : BitVec 64) (i : ℕ), a + BitVec.ofNat 64 ((i + 1) * pageSize) =
      a + BitVec.ofNat 64 pageSize + BitVec.ofNat 64 (i * pageSize) := fun a i => by
    rw [BitVec.add_assoc, ← BitVec.ofNat_add, Nat.succ_mul, Nat.add_comm]
  ext q
  rw [Finset.mem_union, mem_regionNodes, mem_regionNodes]
  constructor
  · rintro ⟨i, hi, hq⟩
    cases i with
    | zero => exact .inl (by simpa using hq)
    | succ i =>
        rw [hnext, hnext] at hq
        exact .inr ⟨i, by omega, hq⟩
  · rintro (hq | ⟨i, hi, hq⟩)
    · exact ⟨0, by omega, by simpa using hq⟩
    · refine ⟨i + 1, by omega, ?_⟩
      rw [hnext, hnext]
      exact hq

/-- The pages after the first, up to once round the table, have other leaves than the first. -/
lemma mem_callNodes_of_mem_rest (hn : n < 2 ^ 36) (hq : q ∈ regionNodes
    (va + BitVec.ofNat 64 pageSize) (pa + BitVec.ofNat 64 pageSize) kind n) (hpre : q <+: path va) :
    q ∈ callNodes va pa kind := by
  obtain ⟨i, hi, hq⟩ := mem_regionNodes.mp hq
  rw [callNodes, Finset.mem_union] at hq
  rcases hq with hq | hq
  · obtain ⟨-, hne, hlen⟩ := mem_tablePaths.mp hq
    exact Finset.mem_union_left _ (mem_tablePaths.mpr ⟨hpre, hne, hlen⟩)
  · split_ifs at hq
    · obtain rfl := Finset.mem_singleton.mp hq
      have hvpn := path_eq_iff.mp (hpre.eq_of_length rfl)
      have hva := va.isLt
      simp only [vpn, BitVec.toNat_add, BitVec.toNat_ofNat, pageSize] at hvpn
      omega
    · exact absurd hq (by simp)

section CallRegion

variable (hI : Inv frames w fs pos) (hfr : InitialFrames frames) (hlt : ∀ f ∈ frames, f < 2 ^ 36)
  (hr : r ∈ w.roots) (hpa : pa.toNat < 2 ^ 36)
  (hok : (w.kernel.getPhysicalPage r va pa kind).2 ≠ 0)
include hI hfr hlt hr hpa hok

/-- A region costs its first page, and the rest in the tree the first page left. -/
lemma Inv.regionCost_call (hn : n < 2 ^ 36) : regionCost w.mem r va pa kind (n + 1) =
    callCost w.mem r va pa kind + regionCost (w.call r va pa kind).mem r
      (va + BitVec.ofNat 64 pageSize) (pa + BitVec.ofNat 64 pageSize) kind n := by
  rw [regionCost, regionNodes_succ]
  refine card_missing_union fun q hq => ?_
  obtain ⟨i, hi, hq'⟩ := mem_regionNodes.mp hq
  refine (hI.walk_after_call hfr hlt hr hpa hok (mem_callNodes hq').2.2).trans ?_
  exact and_congr_right fun _ => not_congr
    ⟨mem_callNodes_of_mem_rest hn hq, fun hmem => (mem_callNodes hmem).1⟩

/-- What is missing after the first page and not made for the rest. -/
lemma Inv.walk_call_region (hq : q.length ≤ 3) :
    (walk (edge (w.call r va pa kind).mem) r q = none ∧ q ∉ regionNodes
      (va + BitVec.ofNat 64 pageSize) (pa + BitVec.ofNat 64 pageSize) kind n) ↔
    walk (edge w.mem) r q = none ∧ q ∉ regionNodes va pa kind (n + 1) := by
  have hcall : walk (edge (w.call r va pa kind).mem) r q = none ↔
      walk (edge w.mem) r q = none ∧ ¬ q <+: path va :=
    hI.walk_after_call hfr hlt hr hpa hok (by omega)
  rw [hcall, and_assoc, regionNodes_succ, Finset.mem_union, not_or]
  refine and_congr_right fun hnone => ?_
  have hne : q ≠ [] := by
    rintro rfl
    exact absurd hnone (by simp)
  rw [mem_callNodes_iff hne hq]

end CallRegion

/-- **A region**: the loop of `map_region` gets to the end if the list is as long as the nodes the
region lacks are many, takes as many frames and leaves the tables of the region there; else it
fails. -/
lemma Inv.mapRegionLoop_cost (hfr : InitialFrames frames) (hlt : ∀ f ∈ frames, f < 2 ^ 36)
    (hkind : kind.toNat < 3) (vaStart vaEnd : PageVa) (n : ℕ) :
    ∀ {w : World} {fs : List ℕ} {pos : Pos} (vaCurr : PageVa) (pa : BitVec 64),
      Inv frames w fs pos → root ∈ w.roots →
      vaEnd.va.toNat = vaCurr.va.toNat + pageSize * n → pa.toNat + pageSize * n ≤ 2 ^ 36 →
      (regionCost w.mem root vaCurr.va pa kind n ≤ fs.length →
        (mapRegionLoop w.kernel root vaStart vaEnd vaCurr pa kind).2 = none ∧
        FreeList (mapRegionLoop w.kernel root vaStart vaEnd vaCurr pa kind).1
          (fs.drop (regionCost w.mem root vaCurr.va pa kind n)) ∧
        ∀ q : List (Fin 512), q.length ≤ 3 →
          (walk (edge (mapRegionLoop w.kernel root vaStart vaEnd vaCurr pa kind).1.mem) root q =
            none ↔ walk (edge w.mem) root q = none ∧ q ∉ regionNodes vaCurr.va pa kind n)) ∧
      (fs.length < regionCost w.mem root vaCurr.va pa kind n →
        (mapRegionLoop w.kernel root vaStart vaEnd vaCurr pa kind).2 = some (-1)) := by
  induction n with
  | zero =>
      intro w fs pos vaCurr pa hI _ hend _
      obtain rfl : vaCurr = vaEnd := PageVa.ext (BitVec.eq_of_toNat_eq (by omega))
      rw [mapRegionLoop, if_neg (show ¬ vaCurr.va < vaCurr.va from lt_irrefl vaCurr.va.toNat)]
      have hcost : regionCost w.mem root vaCurr.va pa kind 0 = 0 := rfl
      rw [hcost]
      exact ⟨fun _ => ⟨rfl, hI.list, fun q _ => by simp [regionNodes]⟩, fun h => absurd h (by simp)⟩
  | succ n ih =>
      intro w fs pos vaCurr pa hI hr hend hpa
      simp only [pageSize] at hend hpa
      have hmore : vaCurr.va < vaEnd.va := by
        show vaCurr.va.toNat < vaEnd.va.toNat
        omega
      have hpalt : pa.toNat < 2 ^ 36 := by omega
      obtain ⟨hnext, -⟩ := PageVa.toNat_next hmore
      have hpa' : (pa + BitVec.ofNat 64 pageSize).toNat = pa.toNat + pageSize :=
        toNat_add_page (by simp only [pageSize]; omega)
      simp only [pageSize] at hnext hpa'
      obtain ⟨hlist, hret⟩ := hI.call_cost hfr hlt hr vaCurr.va pa kind
      obtain ⟨fs₁, pos₁, hI₁⟩ := hI.call hfr hlt hr vaCurr.va pa kind hpalt
      obtain rfl := hI₁.list.chain.unique hlist.chain
      have hpays : (w.kernel.getPhysicalPage root vaCurr.va pa kind).2 ≠ 0 ↔
          callCost w.mem root vaCurr.va pa kind ≤ fs.length := by
        rw [hret]
        cases htr : translate w.mem root vaCurr.va with
        | none => simp [hkind]
        | some f => simp [callCost_of_translate htr]
      rw [mapRegionLoop, if_pos hmore]
      by_cases hok : (w.kernel.getPhysicalPage root vaCurr.va pa kind).2 = 0
      · have hmap : (w.kernel.mapPage root vaCurr.va pa kind).2 = -1 := by
          simp [Kernel.mapPage, hok]
        simp only [hmap, if_true]
        have hshort : fs.length < callCost w.mem root vaCurr.va pa kind :=
          lt_of_not_ge fun h => hpays.mpr h hok
        have hle : callCost w.mem root vaCurr.va pa kind ≤
            regionCost w.mem root vaCurr.va pa kind (n + 1) := by
          rw [callCost, regionCost, regionNodes_succ]
          exact card_missing_mono Finset.subset_union_left
        exact ⟨fun h => absurd h (by omega), fun _ => trivial⟩
      · have hmap : w.kernel.mapPage root vaCurr.va pa kind =
            ((w.call root vaCurr.va pa kind).kernel, 0) := by
          simp [Kernel.mapPage, hok, World.call]
        simp only [hmap, show ¬(0 : ℤ) = -1 by decide, if_false]
        have hsplit := hI.regionCost_call hfr hlt hr hpalt hok (show n < 2 ^ 36 by omega)
        have hle := hpays.mp hok
        obtain ⟨hdone, hfail⟩ := ih vaCurr.next (pa + BitVec.ofNat 64 pageSize) hI₁ hr
          (by simp only [pageSize]; omega) (by simp only [pageSize]; omega)
        rw [List.length_drop] at hdone hfail
        rw [List.drop_drop] at hdone
        rw [hsplit]
        refine ⟨fun h => ?_, fun h => hfail (by simp only [PageVa.next]; omega)⟩
        obtain ⟨hend', hlist', hwalk⟩ := hdone (by simp only [PageVa.next]; omega)
        exact ⟨hend', hlist', fun q hq =>
          (hwalk q hq).trans (hI.walk_call_region hfr hlt hr hpalt hok hq)⟩

/-- **The cost of a region**: in every world a run reaches, `map_region` on aligned arguments of a
known kind succeeds exactly if the list has a frame for each node the region lacks, and takes one
for each. -/
theorem mapRegion_cost (b : Boot) (hw : b.Reaches w) (hr : root ∈ w.roots)
    {vaStart paStart size : BitVec 64} (hal : RegionAligned vaStart paStart size)
    (hpa : paStart.toNat + size.toNat ≤ 2 ^ 36) (htop : vaStart.toNat + size.toNat < 2 ^ 64)
    (hkind : kind.toNat < 3) :
    ∃ fs, FreeList w.kernel fs ∧
      ((w.kernel.mapRegion root vaStart paStart size kind).2 ≠ some (-1) ↔
        regionCost w.mem root vaStart paStart kind (size.toNat / pageSize) ≤ fs.length) ∧
      (regionCost w.mem root vaStart paStart kind (size.toNat / pageSize) ≤ fs.length →
        FreeList (w.kernel.mapRegion root vaStart paStart size kind).1
          (fs.drop (regionCost w.mem root vaStart paStart kind (size.toNat / pageSize)))) := by
  obtain ⟨fs, pos, hI⟩ := hw.inv
  obtain ⟨hsum, hpages⟩ := hal.eq_pages htop
  obtain ⟨hstart, hend, hstart'⟩ := hal
  rw [Kernel.mapRegion, dif_pos ⟨hstart, hend, hstart'⟩]
  obtain ⟨hdone, hfail⟩ := Inv.mapRegionLoop_cost b.initial b.lt hkind ⟨vaStart, hstart⟩
    ⟨vaStart + size, hend⟩ (size.toNat / pageSize) ⟨vaStart, hstart⟩ paStart hI hr hsum
    (by rw [hpages]; exact hpa)
  refine ⟨fs, hI.list, ⟨fun hok => ?_, fun hle => ?_⟩, fun hle => (hdone hle).2.1⟩
  · by_contra hlong
    exact hok (hfail (by simpa using hlong))
  · rw [(hdone hle).1]
    simp

/-- Two pages of the small world. -/
theorem mapRegion_cost_small :
    ∃ fs, FreeList smallTaken fs ∧
      ((smallTaken.mapRegion 4096 0x1000 0x5000 0x2000 0).2 ≠ some (-1) ↔
        regionCost smallTaken.mem 4096 0x1000 0x5000 0 2 ≤ fs.length) ∧
      (regionCost smallTaken.mem 4096 0x1000 0x5000 0 2 ≤ fs.length →
        FreeList (smallTaken.mapRegion 4096 0x1000 0x5000 0x2000 0).1
          (fs.drop (regionCost smallTaken.mem 4096 0x1000 0x5000 0 2))) :=
  mapRegion_cost smallBoot smallWorld_reaches (by simp [smallWorld]) (by decide) (by decide)
    (by decide) (by decide)

end SkinnyArm
