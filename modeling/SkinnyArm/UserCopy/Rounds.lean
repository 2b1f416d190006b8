import SkinnyArm.PageTree.Run

/-!
The loops of `copy_from_user` and `copy_to_user`.

* `framePtr` is the pointer into a frame for a user's address, `userAddr` the place in memory of the
  byte at that address, and `RangeTranslated` says that all pages of a range are translated.
* **The locals** at the head of the loop do not depend on what is copied: they are those of
  `CopyPos.next`, started from what the first lookup returned (`Kernel.copyUser_toCopyPos`).
* **No range goes round**: a tree has too few tables for all pages, so a range whose pages are all
  translated has less than `2^48` bytes (`Inv.size_lt_of_rangeTranslated`).
-/

namespace SkinnyArm

open ByteMemory Forest

variable {frames fs : List ℕ} {w : World} {pos : Pos} {k : Kernel} {d : Direction} {m : ByteMemory}
  {root f n : ℕ} {va user buffer size : BitVec 64}

/-! ### Addresses of the user -/

lemma toNat_mod_page (va : BitVec 64) :
    (va % BitVec.ofNat 64 pageSize).toNat = va.toNat % pageSize := by
  rw [BitVec.toNat_umod]
  rfl

lemma toNat_sub_page (va : BitVec 64) :
    (va - BitVec.ofNat 64 pageSize).toNat = (va.toNat + (2 ^ 64 - pageSize)) % 2 ^ 64 := by
  rw [BitVec.toNat_sub, Nat.add_comm]
  rfl

lemma toNat_page (va : BitVec 64) :
    (va / BitVec.ofNat 64 pageSize * BitVec.ofNat 64 pageSize).toNat =
      va.toNat / pageSize * pageSize := by
  have hlt := va.isLt
  have hpage : (BitVec.ofNat 64 pageSize).toNat = pageSize := rfl
  rw [BitVec.toNat_mul, BitVec.toNat_udiv, hpage, Nat.mod_eq_of_lt]
  have hle := Nat.div_mul_le_self va.toNat pageSize
  omega

lemma toNat_pos (hne : size ≠ 0) : 0 < size.toNat :=
  Nat.pos_of_ne_zero fun h0 => hne (BitVec.eq_of_toNat_eq h0)

/-- The page of an address starts in that page. -/
lemma vpn_page (va : BitVec 64) :
    vpn (va / BitVec.ofNat 64 pageSize * BitVec.ofNat 64 pageSize) = vpn va := by
  simp only [vpn, toNat_page, pageSize]
  omega

/-- The pointer into a frame for a user's address. -/
def framePtr (f : ℕ) (user : BitVec 64) : BitVec 64 :=
  BitVec.ofNat 64 f + user % BitVec.ofNat 64 pageSize

lemma toNat_framePtr (hf : f < 2 ^ 36) : (framePtr f user).toNat = f + user.toNat % pageSize := by
  rw [framePtr, BitVec.toNat_add, toNat_mod_page, BitVec.toNat_ofNat]
  simp only [pageSize]
  omega

/-- Where in memory the byte at a user's address is. -/
def userAddr (m : ByteMemory) (root : ℕ) (va : BitVec 64) : Option ℕ :=
  (translate m root va).map (· + va.toNat % pageSize)

lemma userAddr_of_translate (hf : translate m root va = some f) :
    userAddr m root va = some (f + va.toNat % pageSize) := by
  rw [userAddr, hf]
  rfl

lemma userAddr_eq_some {a : ℕ} :
    userAddr m root va = some a ↔ ∃ f, translate m root va = some f ∧ f + va.toNat % pageSize = a :=
  Option.map_eq_some_iff

/-- The pages of the `size` bytes from an address on are translated. -/
def RangeTranslated (w : World) (root : ℕ) (user size : BitVec 64) : Prop :=
  ∀ i < size.toNat, translate w.mem root (user + BitVec.ofNat 64 i) ≠ none

lemma RangeTranslated.first (h : RangeTranslated w root user size) (hne : size ≠ 0) :
    ∃ f, translate w.mem root user = some f := by
  have hfirst := h 0 (toNat_pos hne)
  rw [show user + BitVec.ofNat 64 0 = user from BitVec.add_zero user] at hfirst
  exact Option.ne_none_iff_exists'.mp hfirst

/-- A range within one page. -/
lemma rangeTranslated_of_page (hf : translate w.mem root user = some f)
    (hfits : user.toNat % pageSize + size.toNat ≤ pageSize) :
    RangeTranslated w root user size := by
  intro i hi
  have hvpn : vpn (user + BitVec.ofNat 64 i) = vpn user := by
    have hlt := user.isLt
    simp only [vpn, BitVec.toNat_add, BitVec.toNat_ofNat, pageSize] at *
    omega
  rw [translate_congr_vpn hvpn, hf]
  simp

/-! ### Lookups -/

/-- Without an address given, a level returns `NULL` or goes on with an address an entry can
hold. -/
lemma getPhysicalPageLevel_lt (k : Kernel) (t : ℕ) (va : BitVec 64) (kind : BitVec 8) (i : ℕ) :
    (∃ k', getPhysicalPageLevel k t va 0 kind i = (k', .ret 0)) ∨
      ∃ k' t', getPhysicalPageLevel k t va 0 kind i = (k', .next t') ∧ t' < 2 ^ 36 := by
  by_cases hset : IsSet (entry k.mem t (lvlAddr va i))
  · refine .inr ⟨k, _, ?_, frameOf_lt (entry k.mem t (lvlAddr va i))⟩
    simp [getPhysicalPageLevel, hset]
  · cases hk : k.kalloc with
    | none => exact .inl ⟨k, by simp [getPhysicalPageLevel, hset, hk]⟩
    | some taken =>
        obtain ⟨g, k'⟩ := taken
        cases hentry : allocatedEntry i kind g with
        | none => exact .inl ⟨k'.kfree (.held g), by simp [getPhysicalPageLevel, hset, hk, hentry]⟩
        | some pentry =>
            refine .inr ⟨{ k' with mem := setEntry k'.mem t (lvlAddr va i) pentry }, _, ?_,
              frameOf_lt pentry⟩
            simp [getPhysicalPageLevel, hset, hk, hentry]

/-- Without an address given, a lookup returns an address an entry can hold. -/
lemma getPhysicalPage_lt {kind : BitVec 8} : (k.getPhysicalPage root va 0 kind).2 < 2 ^ 36 := by
  have hlevels : ∀ (is : List ℕ) (k : Kernel) (t : ℕ), t < 2 ^ 36 ∨ is ≠ [] →
      (getPhysicalPageFrom va 0 kind is k t).2 < 2 ^ 36 := by
    intro is
    induction is with
    | nil => exact fun k t ht => ht.resolve_right fun hne => hne rfl
    | cons i is ih =>
        intro k t _
        rcases getPhysicalPageLevel_lt k t va kind i with
          ⟨k', hlevel⟩ | ⟨k', t', hlevel, ht'⟩
        · rw [getPhysicalPageFrom, hlevel]
          norm_num
        · rw [getPhysicalPageFrom, hlevel]
          exact ih k' t' (.inl ht')
  exact hlevels [0, 1, 2, 3] k root (.inr (List.cons_ne_nil 0 [1, 2, 3]))

/-- With no free frames a lookup changes nothing. -/
lemma getPhysicalPage_of_empty {kind : BitVec 8} (h0 : k.pageFrameLinkedList = 0) :
    (k.getPhysicalPage root va 0 kind).1 = k := by
  have hk : k.kalloc = none := Kernel.kalloc_eq_none.mpr h0
  have hlevels : ∀ (is : List ℕ) (t : ℕ), (getPhysicalPageFrom va 0 kind is k t).1 = k := by
    intro is
    induction is with
    | nil => exact fun _ => rfl
    | cons i is ih =>
        intro t
        by_cases hset : IsSet (entry k.mem t (lvlAddr va i))
        · rw [getPhysicalPageFrom, getPhysicalPageLevel_of_edge (edge_of_isSet hset)]
          exact ih _
        · simp [getPhysicalPageFrom, getPhysicalPageLevel, hset, hk]
  exact hlevels [0, 1, 2, 3] root

/-! ### The locals -/

/-- The locals at the first head of the loop, when the first page is at `f`. -/
def CopyPos.start (d : Direction) (f : ℕ) (user buffer size : BitVec 64) : CopyPos where
  va := user / BitVec.ofNat 64 pageSize * BitVec.ofNat 64 pageSize
  buffer := buffer
  size := if ReturnsEarly (d.src (framePtr f user) buffer) size then 0
    else size - BitVec.ofNat 64 pageSize + framePtr f user

/-- What is left after the first page, if the copy goes on. -/
lemma CopyPos.toNat_start_size {f : ℕ} {user buffer size : BitVec 64}
    (hlate : ¬ ReturnsEarly (d.src (framePtr f user) buffer) size) :
    (CopyPos.start d f user buffer size).size.toNat =
      (size.toNat + (2 ^ 64 - pageSize) + (framePtr f user).toNat) % 2 ^ 64 := by
  rw [CopyPos.start, if_neg hlate, BitVec.toNat_add, toNat_sub_page, Nat.mod_add_mod]

/-- The locals after so many rounds. -/
def CopyPos.after (p : CopyPos) (n : ℕ) : CopyPos :=
  whileLoop (fun p : CopyPos => p.size ≠ 0) CopyPos.next n p

/-- Once nothing is left nothing is. -/
lemma CopyPos.after_size {p : CopyPos} (h0 : p.size = 0) (n : ℕ) : (p.after n).size = 0 := by
  rw [after, whileLoop_of_not]
  · exact h0
  · exact not_not.mpr h0

lemma returnsEarly_zero («from» : BitVec 64) : ReturnsEarly «from» 0 := by
  have hlt : «from».toNat % pageSize < pageSize := Nat.mod_lt _ (by norm_num [pageSize])
  rw [ReturnsEarly, show (0 : BitVec 64) = 0#64 from rfl, BitVec.add_zero]
  show («from» % BitVec.ofNat 64 pageSize).toNat < pageSize
  rw [toNat_mod_page]
  exact hlt

/-- The first lookup finds a page that is translated. -/
lemma getPhysicalPage_page (hf : translate k.mem root user = some f) :
    k.getPhysicalPage root (user / BitVec.ofNat 64 pageSize * BitVec.ofNat 64 pageSize) 0 2 =
      (k, f) :=
  getPhysicalPage_of_translate ((translate_congr_vpn (vpn_page user)).trans hf)

/-- What the first lookup returns. -/
def Kernel.firstFrame (k : Kernel) (root : ℕ) (user : BitVec 64) : ℕ :=
  (k.getPhysicalPage root (user / BitVec.ofNat 64 pageSize * BitVec.ofNat 64 pageSize) 0 2).2

lemma Kernel.firstFrame_lt (k : Kernel) (root : ℕ) (user : BitVec 64) :
    k.firstFrame root user < 2 ^ 36 := getPhysicalPage_lt

lemma Kernel.firstFrame_eq (hf : translate k.mem root user = some f) :
    k.firstFrame root user = f := by
  rw [firstFrame, getPhysicalPage_page hf]

/-- The locals at the first head of the loop. -/
lemma Kernel.copyStart_toCopyPos (k : Kernel) (d : Direction) (root : ℕ)
    (user buffer size : BitVec 64) : (k.copyStart d root user buffer size).toCopyPos =
      CopyPos.start d (k.firstFrame root user) user buffer size := rfl

/-- The call of `strcpy` for the first page. -/
lemma Kernel.copyStart_calls (k : Kernel) (d : Direction) (root : ℕ)
    (user buffer size : BitVec 64) : ∃ byte, (k.copyStart d root user buffer size).calls =
      [⟨k.firstFrame root user, framePtr (k.firstFrame root user) user,
        d.src (framePtr (k.firstFrame root user) user) buffer,
        d.dst (framePtr (k.firstFrame root user) user) buffer, size, byte⟩] := ⟨_, rfl⟩

/-- The call of `strcpy` of a round. -/
lemma CopyState.round_calls (d : Direction) (root : ℕ) (s : CopyState) :
    ∃ g < 2 ^ 36, ∃ byte, (s.round d root).calls =
      ⟨g, BitVec.ofNat 64 g, d.src (BitVec.ofNat 64 g) (s.buffer + s.size),
        d.dst (BitVec.ofNat 64 g) (s.buffer + s.size), s.size, byte⟩ :: s.calls := by
  have hptr : ∀ g : ℕ, BitVec.ofNat 64 g + (0 : BitVec 64) = BitVec.ofNat 64 g := fun g =>
    BitVec.add_zero _
  refine ⟨(s.kernel.getPhysicalPage root s.toCopyPos.next.va 0 2).2, getPhysicalPage_lt, ?_⟩
  simp only [CopyState.round, Kernel.copyFrame, hptr]
  exact ⟨_, rfl⟩

lemma Kernel.copyUser_zero : k.copyUser d root user buffer size 0 =
    k.copyStart d root user buffer size := rfl

/-- One more round. -/
lemma Kernel.copyUser_succ (n : ℕ) :
    k.copyUser d root user buffer size (n + 1) =
      if (k.copyUser d root user buffer size n).size ≠ 0 then
        (k.copyUser d root user buffer size n).round d root
      else k.copyUser d root user buffer size n :=
  whileLoop_succ n _

/-- A copy that has ended has one result. -/
lemma Kernel.copyUser_of_size_zero (h0 : (k.copyStart d root user buffer size).size = 0) (n : ℕ) :
    k.copyUser d root user buffer size n = k.copyStart d root user buffer size := by
  rw [copyUser, whileLoop_of_not]
  exact not_not.mpr h0

/-- The locals are those of `CopyPos.next`. -/
lemma Kernel.copyUser_toCopyPos (n : ℕ) :
    (k.copyUser d root user buffer size n).toCopyPos =
      (k.copyStart d root user buffer size).toCopyPos.after n := by
  refine whileLoop_related (R := fun (s : CopyState) (p : CopyPos) => s.toCopyPos = p) ?_ ?_ rfl n
  · rintro s p rfl
    exact Iff.rfl
  · rintro s p rfl _
    rfl

/-- The calls made stay on record. -/
lemma Kernel.mem_calls_of_le {c : StrcpyCall} {n' : ℕ} (hn : n ≤ n')
    (hc : c ∈ (k.copyUser d root user buffer size n).calls) :
    c ∈ (k.copyUser d root user buffer size n').calls := by
  induction n', hn using Nat.le_induction with
  | base => exact hc
  | succ n' _ ih =>
      rw [copyUser_succ]
      split_ifs with hmore
      · exact List.mem_cons_of_mem _ ih
      · exact ih

/-! ### Ranges that are translated -/

/-- The pages with numbers `512 * j` are walked to by different tables of the last level. -/
lemma take_path_injOn {j j' : ℕ} (hj : j < 2 ^ 27) (hj' : j' < 2 ^ 27)
    (h : (path (BitVec.ofNat 64 (j * 2 ^ 21))).take 3 =
      (path (BitVec.ofNat 64 (j' * 2 ^ 21))).take 3) : j = j' := by
  simp only [path, List.take_succ_cons, List.take_zero, List.cons.injEq, Fin.ext_iff, val_lvlAddr,
    BitVec.toNat_ofNat, and_true] at h
  omega

/-- No tree translates every page: it would have more tables than there are frames. -/
lemma Inv.exists_untranslated (hI : Inv frames w fs pos) (hfr : InitialFrames frames)
    (hlt : ∀ f ∈ frames, f < 2 ^ 36) (hr : root ∈ w.roots) :
    ∃ va, translate w.mem root va = none := by
  by_contra hall
  have htable : ∀ j : ℕ, ∃ t, tableAt w.mem root (BitVec.ofNat 64 (j * 2 ^ 21)) 3 = some t := by
    intro j
    obtain ⟨f, hf⟩ := Option.ne_none_iff_exists'.mp fun hnone => hall ⟨_, hnone⟩
    exact exists_walk_of_prefix hf (List.take_prefix 3 (path (BitVec.ofNat 64 (j * 2 ^ 21))))
  choose table htable using htable
  have hframe : ∀ j, table j / pageSize < 2 ^ 24 := by
    intro j
    have hmem := hlt _ (hI.mem_frames (hI.pos_tableAt hr le_rfl (htable j)))
    simp only [pageSize]
    omega
  obtain ⟨j, hj, j', hj', hne, heq⟩ := Finset.exists_ne_map_eq_of_card_lt_of_maps_to
    (s := Finset.range (2 ^ 24 + 1)) (t := Finset.range (2 ^ 24)) (f := fun j => table j / pageSize)
    (by simp only [Finset.card_range]; omega)
    (fun j _ => Finset.mem_coe.mpr (Finset.mem_range.mpr (hframe j)))
  rw [Finset.mem_range] at hj hj'
  have hpos := hI.pos_tableAt hr le_rfl (htable j)
  have hpos' := hI.pos_tableAt hr le_rfl (htable j')
  have hsame : table j = table j' := by
    calc table j = table j / pageSize * pageSize := (Nat.div_mul_cancel (hI.aligned hfr hpos)).symm
      _ = table j' / pageSize * pageSize := by rw [heq]
      _ = table j' := Nat.div_mul_cancel (hI.aligned hfr hpos')
  rw [hsame, hpos', Option.some.injEq, Prod.mk.injEq] at hpos
  exact hne (take_path_injOn (by omega) (by omega) hpos.2.symm)

/-- A range whose pages are all translated does not go round. -/
lemma Inv.size_lt_of_rangeTranslated (hI : Inv frames w fs pos) (hfr : InitialFrames frames)
    (hlt : ∀ f ∈ frames, f < 2 ^ 36) (hr : root ∈ w.roots)
    (hrange : RangeTranslated w root user size) : size.toNat < 2 ^ 48 := by
  obtain ⟨va, hnone⟩ := hI.exists_untranslated hfr hlt hr
  by_contra hle
  refine hrange ((va - user).toNat % 2 ^ 48) (by omega) ?_
  rw [← hnone]
  refine translate_congr_vpn ?_
  simp only [vpn, BitVec.toNat_add, BitVec.toNat_sub, BitVec.toNat_ofNat]
  omega

end SkinnyArm
