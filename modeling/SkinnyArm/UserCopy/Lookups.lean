import SkinnyArm.UserCopy.Contents

/-!
What the lookups of `copy_from_user` and `copy_to_user` do to the page tables and the free list.

* `World.Writable` bytes are part of no table and no free frame, and `World.Storable` ones of no
  table and of no link of a free frame.  A kernel that differs in such bytes only (`Stored`) has
  the same translations and the same free list.
* **Pages that are translated** are found, so the copy only stores bytes (`Inv.copyUser_stored`).
* **A page that is not translated** costs the first free frame, or the copy goes through the `NULL`
  frame (`Inv.copyFrame_untranslated`).
* So, as long as the bytes stored are no part of a table or a link, a copy leaves translations and
  free list alone exactly if every page it looks up is translated (`copyUser_leavesTables`).
-/

namespace SkinnyArm

open ByteMemory Forest

variable {frames fs : List ℕ} {w : World} {pos : Pos} {k k' : Kernel} {d : Direction}
  {root f g n : ℕ} {va offset user buffer size : BitVec 64}

/-! ### Bytes that may be written -/

/-- A byte of no table and no free frame. -/
def World.Writable (w : World) (frames : List ℕ) (x : ℕ) : Prop :=
  ∀ f ∈ frames, x ∈ page f → w.IsLeafFrame f

/-- A byte of no table and of no link of a free frame. -/
def World.Storable (w : World) (frames : List ℕ) (x : ℕ) : Prop :=
  ∀ f ∈ frames, x ∈ page f → w.IsLeafFrame f ∨ w.kernel.Lists f ∧ f + 8 ≤ x

lemma World.Writable.storable {x : ℕ} (h : w.Writable frames x) : w.Storable frames x :=
  fun f hf hx => .inl (h f hf hx)

/-- Only bytes of no table and of no link of a free frame have been written. -/
structure Stored (frames : List ℕ) (w : World) (k' : Kernel) : Prop where
  head : k'.pageFrameLinkedList = w.kernel.pageFrameLinkedList
  mem : ∀ x, ¬ w.Storable frames x → k'.mem x = w.mem x

lemma Stored.refl (frames : List ℕ) (w : World) : Stored frames w w.kernel :=
  ⟨rfl, fun _ _ => rfl⟩

/-- One more byte stored. -/
lemma Stored.store8 (h : Stored frames w k') {a : ℕ} {v : BitVec 8} (ha : w.Storable frames a) :
    Stored frames w ⟨k'.mem.store8 a v, k'.pageFrameLinkedList⟩ where
  head := h.head
  mem x hx := (store8_of_ne (by rintro rfl; exact hx ha)).trans (h.mem x hx)

section Stored

variable (hI : Inv frames w fs pos) (hlt : ∀ f ∈ frames, f < 2 ^ 36)
include hI hlt

/-- A free frame is no data page. -/
lemma Inv.not_isLeafFrame_of_free (hf : f ∈ fs) : ¬ w.IsLeafFrame f := by
  intro hleaf
  obtain ⟨r, p, hpos, -⟩ := (hI.isLeafFrame_iff hlt).mp hleaf
  exact absurd (((hI.free_iff f).mp hf).2.symm.trans hpos) (by simp)

/-- The tables are as before. -/
lemma Inv.stored_table (h : Stored frames w k') {r : ℕ} {p : List (Fin 512)}
    (ht : pos f = some (r, p)) (hp : p.length ≤ 3) : Set.EqOn k'.mem w.mem (page f) := by
  intro x hx
  refine h.mem x fun hstorable => ?_
  rcases hstorable f (hI.mem_frames ht) hx with hleaf | ⟨hlisted, -⟩
  · exact hI.not_isLeafFrame hlt ht hp hleaf
  · have hnone := ((hI.free_iff f).mp (hI.list.lists_iff.mp hlisted)).2
    exact absurd (hnone.symm.trans ht) (by simp)

/-- The free list is as before. -/
lemma Inv.stored_freeList (h : Stored frames w k') : FreeList k' fs where
  chain := by
    rw [h.head]
    refine hI.list.chain.congr fun g hg => congrArg BitVec.toNat (load64_congr fun x hx => ?_)
    refine h.mem x fun hstorable => ?_
    rcases hstorable g ((hI.free_iff g).mp hg).1 (link_subset_page hx) with hleaf | ⟨-, hle⟩
    · exact hI.not_isLeafFrame_of_free hlt hg hleaf
    · exact absurd hle (not_le.mpr hx.2)
  aligned := hI.list.aligned
  lt := hI.list.lt

/-- The invariant and the translations are as before. -/
lemma Inv.stored (h : Stored frames w k') :
    Inv frames { w with kernel := k' } fs pos ∧ w.SameTranslations k'.mem := by
  have htables : ∀ {t r p}, pos t = some (r, p) → p.length ≤ 3 → Set.EqOn k'.mem w.mem (page t) :=
    fun ht hp => hI.stored_table hlt h ht hp
  exact ⟨hI.of_eqOn (hI.stored_freeList hlt h) htables,
    fun r hr va => hI.walk_of_eqOn htables hr (by rw [path_length])⟩

end Stored

/-! ### The copy of a page -/

/-- What `strcpy` does to a kernel. -/
lemma stored_strcpy (h : Stored frames w k') {src dst : ℕ}
    (hdst : size ≠ 0 → w.Storable frames dst) :
    Stored frames w ⟨strcpy k'.mem src dst size.toNat, k'.pageFrameLinkedList⟩ := by
  by_cases h0 : size = 0
  · subst h0
    rw [show (0 : BitVec 64).toNat = 0 from rfl, strcpy_zero]
    exact h
  · rw [strcpy_eq _ _ _ _ (toNat_pos h0)]
    exact h.store8 (hdst h0)

/-- A page that is translated is copied from or to its frame, and only that byte is written. -/
lemma Inv.copyFrame_stored (hI : Inv frames w fs pos) (hlt : ∀ f ∈ frames, f < 2 ^ 36)
    (hr : root ∈ w.roots) (h : Stored frames w k') (hg : translate w.mem root va = some g)
    (hdst : size ≠ 0 →
      w.Storable frames (d.dst (BitVec.ofNat 64 g + offset) buffer).toNat) :
    Stored frames w (k'.copyFrame d root va offset buffer size).1 ∧
      (k'.copyFrame d root va offset buffer size).2.frame = g := by
  have hfound : k'.getPhysicalPage root va 0 2 = (k', g) :=
    getPhysicalPage_of_translate (((hI.stored hlt h).2 root hr va).trans hg)
  simp only [Kernel.copyFrame, hfound]
  exact ⟨stored_strcpy h hdst, trivial⟩

/-- The bytes of a frame are in no other frame. -/
lemma eq_of_mem_page (hfr : InitialFrames frames) (hf : f ∈ frames) (hg : g ∈ frames) {x : ℕ}
    (hx : x ∈ page f) (hx' : x ∈ page g) : f = g := by
  by_contra hne
  exact Set.disjoint_left.mp (page_disjoint (hfr.aligned f hf) (hfr.aligned g hg) hne) hx hx'

lemma toNat_ofNat_add (hf : f < 2 ^ 36) (hoff : offset.toNat < pageSize) :
    (BitVec.ofNat 64 f + offset).toNat = f + offset.toNat := by
  rw [BitVec.toNat_add, BitVec.toNat_ofNat]
  simp only [pageSize] at hoff
  omega

/-- **A page that is not translated** is copied through `NULL`, or it costs the first free frame. -/
lemma Inv.copyFrame_untranslated (hI : Inv frames w fs pos) (hfr : InitialFrames frames)
    (hlt : ∀ f ∈ frames, f < 2 ^ 36) (hr : root ∈ w.roots)
    (hnone : translate w.mem root va = none) :
    (w.kernel.copyFrame d root va offset buffer size).2.frame = 0 ∨
      (w.kernel.copyFrame d root va offset buffer size).1.pageFrameLinkedList ≠
        w.kernel.pageFrameLinkedList := by
  have hl : Looked frames w fs root va 0 2 3 _ _ := hI.looked hfr hlt hr (by decide)
  simp only [Kernel.copyFrame]
  generalize w.kernel.getPhysicalPage root va 0 2 = looked at hl ⊢
  obtain ⟨k', result⟩ := looked
  cases hl with
  | null _ _ _ => exact .inl rfl
  | found _ hsome => exact absurd (hnone.symm.trans hsome) (by simp)
  | mapped hI' htakes _ _ htaken _ _ _ _ =>
      refine .inr fun hhead => ?_
      obtain ⟨hmem, hnotMem⟩ := htaken rfl
      obtain ⟨taken, rfl, -⟩ := htakes
      -- the first free frame is among those taken, and on no list any more
      have hlist := hI.list
      cases taken with
      | nil => exact hnotMem hmem
      | cons g taken =>
          obtain ⟨hfirst, hne, -⟩ := hlist.chain.pop
          have hstill := hI'.list.head_mem (hhead.trans hfirst ▸ hne)
          rw [hhead.trans hfirst] at hstill
          exact (List.nodup_cons.mp hlist.nodup).1 (List.mem_append_right taken hstill)

/-! ### Copies -/

/-- No translation is changed, no frame is taken, and nothing is copied through `NULL`. -/
structure LeavesTables (w : World) (d : Direction) (root : ℕ) (user buffer size : BitVec 64) :
    Prop where
  same : ∀ n, w.SameTranslations (w.kernel.copyUser d root user buffer size n).kernel.mem
  list : ∀ n fs, FreeList w.kernel fs →
    FreeList (w.kernel.copyUser d root user buffer size n).kernel fs
  notNull : ∀ n, ∀ c ∈ (w.kernel.copyUser d root user buffer size n).calls, c.size ≠ 0 →
    c.frame ≠ 0

/-- The pages a copy looks up are translated. -/
def LooksUpTranslated (w : World) (d : Direction) (root : ℕ) (user buffer size : BitVec 64) :
    Prop :=
  ∃ f, translate w.mem root user = some f ∧
    ∀ n, ((CopyPos.start d f user buffer size).after n).size ≠ 0 →
      translate w.mem root ((CopyPos.start d f user buffer size).after n).next.va ≠ none

/-- The byte a call of `strcpy` stores, in the buffer or in the page's frame, is an allowed one. -/
def Direction.Stores (d : Direction) (allowed : ℕ → Prop) (w : World) (root : ℕ)
    (va offset buffer size : BitVec 64) : Prop :=
  size ≠ 0 →
    match d with
    | fromUser => allowed buffer.toNat
    | toUser => ∀ f, translate w.mem root va = some f → allowed (BitVec.ofNat 64 f + offset).toNat

/-- The bytes a copy stores are part of no table and of no link of a free frame. -/
structure StoresApart (frames : List ℕ) (w : World) (d : Direction) (root : ℕ)
    (user buffer size : BitVec 64) : Prop where
  first : d.Stores (w.Storable frames) w root user (user % BitVec.ofNat 64 pageSize) buffer size
  rounds : ∀ f, translate w.mem root user = some f → ∀ n,
    d.Stores (w.Storable frames) w root ((CopyPos.start d f user buffer size).after n).next.va 0
      ((CopyPos.start d f user buffer size).after n).next.buffer
      ((CopyPos.start d f user buffer size).after n).size

lemma Direction.Stores.dst {allowed : ℕ → Prop}
    (h : d.Stores allowed w root va offset buffer size)
    (hg : translate w.mem root va = some g) (hne : size ≠ 0) :
    allowed (d.dst (BitVec.ofNat 64 g + offset) buffer).toNat := by
  cases d with
  | fromUser => exact h hne
  | toUser => exact h hne g hg

/-- The locals at the head of the loop, of a first page at `f`. -/
lemma copyUser_pos (hf : translate w.mem root user = some f) (n : ℕ) :
    (w.kernel.copyUser d root user buffer size n).toCopyPos =
      (CopyPos.start d f user buffer size).after n := by
  rw [Kernel.copyUser_toCopyPos, Kernel.copyStart_toCopyPos, Kernel.firstFrame_eq hf]

/-- A copy over pages that are translated only stores bytes. -/
lemma Inv.copyUser_stored (hI : Inv frames w fs pos) (hfr : InitialFrames frames)
    (hlt : ∀ f ∈ frames, f < 2 ^ 36) (hr : root ∈ w.roots) (hf : translate w.mem root user = some f)
    (hstores : StoresApart frames w d root user buffer size) (n : ℕ) :
    (∀ m < n, ((CopyPos.start d f user buffer size).after m).size ≠ 0 →
      translate w.mem root ((CopyPos.start d f user buffer size).after m).next.va ≠ none) →
    Stored frames w (w.kernel.copyUser d root user buffer size n).kernel ∧
      ∀ c ∈ (w.kernel.copyUser d root user buffer size n).calls, c.frame ≠ 0 := by
  induction n with
  | zero =>
      intro _
      have hpage := (translate_congr_vpn (vpn_page user)).trans hf
      obtain ⟨hstored, hframe⟩ := hI.copyFrame_stored (d := d) hlt hr (.refl frames w) hpage
        fun hne => hstores.first.dst hf hne
      refine ⟨hstored, fun c hc => ?_⟩
      obtain rfl := List.mem_singleton.mp hc
      rw [hframe]
      exact hI.translate_ne_zero hfr hlt hr hf
  | succ n ih =>
      intro hpages
      obtain ⟨hstored, hcalls⟩ := ih fun m hm => hpages m (by omega)
      have hround := hstores.rounds f hf n
      have hpage := hpages n (by omega)
      rw [← copyUser_pos hf n] at hround hpage
      rw [Kernel.copyUser_succ]
      split_ifs with hmore
      · obtain ⟨g, hg⟩ := Option.ne_none_iff_exists'.mp (hpage hmore)
        obtain ⟨hstored', hframe⟩ := hI.copyFrame_stored (d := d) hlt hr hstored hg
          fun hne => hround.dst hg hne
        refine ⟨hstored', fun c hc => ?_⟩
        rcases List.mem_cons.mp hc with rfl | hc
        · rw [hframe]
          exact hI.translate_ne_zero hfr hlt hr hg
        · exact hcalls c hc
      · exact ⟨hstored, hcalls⟩

/-- Bytes that may be written stay so when no translation changes. -/
lemma Inv.writable_of_same (hI : Inv frames w fs pos) (hsame : w.SameTranslations k'.mem) {x : ℕ}
    (h : w.Writable frames x) : World.Writable { w with kernel := k' } frames x := by
  intro f hf hx
  obtain ⟨μ, hμ, h0, htr⟩ := h f hf hx
  exact ⟨μ, hμ, h0, (hsame μ.root (hI.mapped μ hμ).1 μ.va).trans htr⟩

/-- The bytes a copy stores are apart from the tables and links after such stores as well. -/
lemma Inv.storesApart_stored (hI : Inv frames w fs pos) (hlt : ∀ f ∈ frames, f < 2 ^ 36)
    (hr : root ∈ w.roots) (h : Stored frames w k')
    (hstores : StoresApart frames w d root user buffer size) :
    StoresApart frames { w with kernel := k' } d root user buffer size := by
  have hsame := (hI.stored hlt h).2
  have hlist := hI.stored_freeList hlt h
  have hstorable : ∀ {x}, w.Storable frames x →
      World.Storable { w with kernel := k' } frames x := by
    intro x hx f hf hxf
    rcases hx f hf hxf with ⟨μ, hμ, h0, htr⟩ | ⟨hlisted, hle⟩
    · exact .inl ⟨μ, hμ, h0, (hsame μ.root (hI.mapped μ hμ).1 μ.va).trans htr⟩
    · exact .inr ⟨hlist.lists_iff.mpr (hI.list.lists_iff.mp hlisted), hle⟩
  have hone : ∀ {va offset buffer size : BitVec 64},
      d.Stores (w.Storable frames) w root va offset buffer size →
      d.Stores (World.Storable { w with kernel := k' } frames) { w with kernel := k' } root va
        offset buffer size := by
    intro va offset buffer size hstore hne
    cases d with
    | fromUser => exact hstorable (hstore hne)
    | toUser => exact fun f hf => hstorable (hstore hne f ((hsame root hr va).symm.trans hf))
  exact ⟨hone hstores.first,
    fun f hf n => hone (hstores.rounds f ((hsame root hr user).symm.trans hf) n)⟩

/-- **A page that is not translated** when it is looked up shows in the free list or in the call. -/
lemma Inv.copyFrame_shows (hI : Inv frames w fs pos) (hfr : InitialFrames frames)
    (hlt : ∀ f ∈ frames, f < 2 ^ 36) (hr : root ∈ w.roots) (h : Stored frames w k')
    (hnone : translate w.mem root va = none)
    (hlist : FreeList (k'.copyFrame d root va offset buffer size).1 fs) :
    (k'.copyFrame d root va offset buffer size).2.frame = 0 := by
  obtain ⟨hI', hsame⟩ := hI.stored hlt h
  have hnone' : translate k'.mem root va = none := (hsame root hr va).trans hnone
  exact (hI'.copyFrame_untranslated hfr hlt hr hnone').resolve_right fun hhead =>
    hhead (hI'.list.head_eq hlist)

/-- The first page of a copy that leaves the tables alone. -/
lemma LeavesTables.first (h : LeavesTables w d root user buffer size) (hI : Inv frames w fs pos)
    (hfr : InitialFrames frames) (hlt : ∀ f ∈ frames, f < 2 ^ 36) (hr : root ∈ w.roots)
    (hne : size ≠ 0) : ∃ f, translate w.mem root user = some f := by
  refine Option.ne_none_iff_exists'.mp fun hnone => ?_
  have hpage := (translate_congr_vpn (vpn_page user)).trans hnone
  exact h.notNull 0 _ List.mem_cons_self hne
    (hI.copyFrame_shows hfr hlt hr (.refl frames w) hpage (h.list 0 fs hI.list))

/-- The other pages. -/
lemma LeavesTables.rounds (h : LeavesTables w d root user buffer size) (hI : Inv frames w fs pos)
    (hfr : InitialFrames frames) (hlt : ∀ f ∈ frames, f < 2 ^ 36) (hr : root ∈ w.roots)
    (hstores : StoresApart frames w d root user buffer size)
    (hf : translate w.mem root user = some f) (n : ℕ) :
    ((CopyPos.start d f user buffer size).after n).size ≠ 0 →
      translate w.mem root ((CopyPos.start d f user buffer size).after n).next.va ≠ none := by
  induction n using Nat.strong_induction_on with
  | _ n ih =>
      intro hmore hnone
      obtain ⟨hstored, -⟩ := hI.copyUser_stored hfr hlt hr hf hstores n ih
      rw [← copyUser_pos hf n] at hmore hnone
      have hsucc : w.kernel.copyUser d root user buffer size (n + 1) = _ := Kernel.copyUser_succ n
      rw [if_pos hmore] at hsucc
      have hlist := h.list (n + 1) fs hI.list
      have hnotNull := h.notNull (n + 1)
      rw [hsucc] at hlist hnotNull
      exact hnotNull _ List.mem_cons_self hmore
        (hI.copyFrame_shows hfr hlt hr hstored hnone hlist)

/-- A copy of nothing, with no frame to take. -/
lemma Inv.leavesTables_zero (hI : Inv frames w fs pos) (hfr : InitialFrames frames)
    (hlt : ∀ f ∈ frames, f < 2 ^ 36) (hr : root ∈ w.roots) (h : NothingToCopy w root user size) :
    LeavesTables w d root user buffer size := by
  obtain rfl : size = 0 := h.1
  have hkernel := (hI.nothingToCopy_iff hfr hlt hr d user buffer).mp h
  obtain ⟨-, hall⟩ := (endsAtOnce_zero d (w.kernel.firstFrame root user) user buffer).copyUser rfl
  obtain ⟨byte, hcalls⟩ := w.kernel.copyStart_calls d root user buffer 0
  refine ⟨fun n r hr va => ?_, fun n fs hfs => ?_, fun n c hc hne => ?_⟩
  · rw [hall, hkernel]
  · rw [hall, hkernel]
    exact hfs
  · rw [hall, hcalls, List.mem_singleton] at hc
    rw [hc] at hne
    exact absurd rfl hne

/-- A copy over pages that are translated. -/
lemma LooksUpTranslated.leavesTables (h : LooksUpTranslated w d root user buffer size)
    (hI : Inv frames w fs pos) (hfr : InitialFrames frames) (hlt : ∀ f ∈ frames, f < 2 ^ 36)
    (hr : root ∈ w.roots) (hstores : StoresApart frames w d root user buffer size) :
    LeavesTables w d root user buffer size := by
  obtain ⟨f, hf, hpages⟩ := h
  have hrun := fun n => hI.copyUser_stored hfr hlt hr hf hstores n fun m _ => hpages m
  refine ⟨fun n => (hI.stored hlt (hrun n).1).2, fun n fs' hfs' => ?_, fun n c hc _ => ?_⟩
  · obtain rfl := hfs'.chain.unique hI.list.chain
    exact hI.stored_freeList hlt (hrun n).1
  · exact (hrun n).2 c hc

/-- **A copy leaves translations and free list alone** and uses no `NULL` frame if there is nothing
to copy and no frame to take, or if every page it looks up is translated and the bytes it stores are
part of no table and of no link of a free frame; with such stores only then. -/
theorem copyUser_leavesTables (b : Boot) (hw : b.Reaches w) (hr : root ∈ w.roots) (d : Direction)
    (user buffer size : BitVec 64) :
    (NothingToCopy w root user size ∨
        LooksUpTranslated w d root user buffer size ∧
          StoresApart b.frames w d root user buffer size →
      LeavesTables w d root user buffer size) ∧
    (StoresApart b.frames w d root user buffer size → LeavesTables w d root user buffer size →
      NothingToCopy w root user size ∨ LooksUpTranslated w d root user buffer size) := by
  obtain ⟨fs, pos, hI⟩ := hw.inv
  refine ⟨fun h => ?_, fun hstores h => ?_⟩
  · rcases h with hnothing | ⟨hpages, hstores⟩
    · exact hI.leavesTables_zero b.initial b.lt hr hnothing
    · exact hpages.leavesTables hI b.initial b.lt hr hstores
  · by_cases h0 : size = 0
    · subst h0
      exact .inl (hI.nothingToCopy b.initial b.lt hr (h.list 0 fs hI.list))
    · obtain ⟨f, hf⟩ := h.first hI b.initial b.lt hr h0
      exact .inr ⟨f, hf, h.rounds hI b.initial b.lt hr hstores hf⟩

/-! ### Copies in the small world -/

/-- Bytes above the frames may be written. -/
lemma smallWritable (w : World) {a : ℕ} (ha : 0xB000 ≤ a) : w.Writable smallBoot.frames a :=
  fun f hf hx => absurd hx (smallFrames_lt ha f hf)

/-- The new page table translates nothing. -/
lemma smallWorld_translate (va : BitVec 64) : translate smallWorld.mem 4096 va = none := by
  rw [translate, path, walk_cons, smallWorld_edge]
  rfl

/-- One byte copied from the user. -/
theorem copyUser_leavesTables_byte :
    LeavesTables (smallMapped 0 0xB000) .fromUser 4096 0 0x20000 1 := by
  have hf := smallMapped_translate
  have h0 : (CopyPos.start .fromUser 0xB000 0 0x20000 1).size = 0 :=
    start_size_eq_zero.mpr (.inl (by decide))
  have hall := CopyPos.after_size h0
  refine (copyUser_leavesTables smallBoot (smallMapped_reaches 0 smallPage_lt)
    (smallMapped_root 0 0xB000) .fromUser 0 0x20000 1).1
    (.inr ⟨⟨0xB000, hf, fun n hmore => absurd (hall n) hmore⟩,
      fun _ => (smallWritable _ (by decide)).storable, fun f hf' n hmore => ?_⟩)
  obtain rfl : 0xB000 = f := Option.some.inj (hf.symm.trans hf')
  exact absurd (hall n) hmore

/-- A copy of one byte over a page that is not translated, in either direction. -/
theorem copyUser_leavesTables_fails :
    smallBoot.Reaches smallWorld ∧ 4096 ∈ smallWorld.roots ∧
      ∀ d, ¬ LeavesTables smallWorld d 4096 0 0x20000 1 := by
  have hr : 4096 ∈ smallWorld.roots := by simp [smallWorld]
  refine ⟨smallWorld_reaches, hr, fun d h => ?_⟩
  obtain ⟨pos, hI⟩ := smallWorld_inv
  have hnone := smallWorld_translate 0
  have hfound : ∀ f, translate smallWorld.mem 4096 0 ≠ some f := fun f hf =>
    Option.some_ne_none f (hf.symm.trans hnone)
  obtain ⟨f, hf⟩ := h.first hI smallBoot.initial smallBoot.lt hr (by decide)
  exact hfound f hf

end SkinnyArm
