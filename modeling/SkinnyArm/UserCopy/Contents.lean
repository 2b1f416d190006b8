import SkinnyArm.UserCopy.Rounds

/-!
What `copy_from_user` and `copy_to_user` leave in memory.

* `CopiedFrom` and `CopiedTo` are what a copy should have done: the bytes are there, and nothing
  else is written.
* **What is done**: `strcpy` copies one byte, and what is left after the first page is the address
  of the first byte too much.  So a copy is right only if it ends at once (`EndsAtOnce`) and all
  bytes but the first one were there before.
* `copyFromUser_copies` and `copyToUser_copies` say so in both directions, as far as the loop has to
  do harm: into the kernel's buffer its first round writes past the end, and to the user it does
  not end unless a whole number of pages is left.
-/

namespace SkinnyArm

open ByteMemory Forest

variable {frames fs : List ℕ} {w : World} {pos : Pos} {k : Kernel} {d : Direction}
  {root f n : ℕ} {user buffer size «from» «to» : BitVec 64}

/-! ### A copy that ends at once -/

/-- The copy returns early, or nothing is left after the first page. -/
def EndsAtOnce (d : Direction) (f : ℕ) (user buffer size : BitVec 64) : Prop :=
  ReturnsEarly (d.src (framePtr f user) buffer) size ∨
    size - BitVec.ofNat 64 pageSize + framePtr f user = 0

lemma start_size_eq_zero :
    (CopyPos.start d f user buffer size).size = 0 ↔ EndsAtOnce d f user buffer size := by
  by_cases hearly : ReturnsEarly (d.src (framePtr f user) buffer) size
  · simp [CopyPos.start, EndsAtOnce, hearly]
  · simp [CopyPos.start, EndsAtOnce, hearly]

lemma endsAtOnce_zero (d : Direction) (f : ℕ) (user buffer : BitVec 64) :
    EndsAtOnce d f user buffer 0 := .inl (returnsEarly_zero _)

/-- A copy over a first page at `f` that ends at once is over before the loop. -/
lemma EndsAtOnce.copyUser (h : EndsAtOnce d f user buffer size)
    (hg : k.firstFrame root user = f) :
    (k.copyStart d root user buffer size).size = 0 ∧
      ∀ n, k.copyUser d root user buffer size n = k.copyStart d root user buffer size := by
  have h0 : (k.copyStart d root user buffer size).size = 0 := by
    rw [Kernel.copyStart_toCopyPos, hg]
    exact start_size_eq_zero.mpr h
  exact ⟨h0, Kernel.copyUser_of_size_zero h0⟩

/-- The kernel after the first page: one byte is copied. -/
lemma copyStart_kernel (d : Direction) (buffer : BitVec 64)
    (hf : translate k.mem root user = some f) (hne : size ≠ 0) :
    (k.copyStart d root user buffer size).kernel =
      ⟨k.mem.store8 (d.dst (framePtr f user) buffer).toNat
        (k.mem (d.src (framePtr f user) buffer).toNat), k.pageFrameLinkedList⟩ := by
  have hpos : 0 < size.toNat := toNat_pos hne
  simp only [Kernel.copyStart, Kernel.copyFrame, getPhysicalPage_page hf]
  rw [strcpy_eq _ _ _ _ hpos]
  rfl

/-- A copy of nothing does what its lookup does. -/
lemma copyStart_kernel_zero : (k.copyStart d root user buffer 0).kernel =
      (k.getPhysicalPage root (user / BitVec.ofNat 64 pageSize * BitVec.ofNat 64 pageSize)
        0 2).1 := by
  simp only [Kernel.copyStart, Kernel.copyFrame]
  rw [show (0 : BitVec 64).toNat = 0 from rfl, strcpy_zero]

/-! ### Nothing to copy -/

/-- There is nothing to copy, and the lookup has no frame to take. -/
def NothingToCopy (w : World) (root : ℕ) (user size : BitVec 64) : Prop :=
  size = 0 ∧ (translate w.mem root user = none → w.kernel.pageFrameLinkedList = 0)

/-- A copy of nothing that leaves the free list alone has no frame to take. -/
lemma Inv.nothingToCopy (hI : Inv frames w fs pos) (hfr : InitialFrames frames)
    (hlt : ∀ f ∈ frames, f < 2 ^ 36) (hr : root ∈ w.roots)
    (hlist : FreeList (w.kernel.copyStart d root user buffer 0).kernel fs) :
    NothingToCopy w root user 0 := by
  refine ⟨rfl, fun hnone => ?_⟩
  by_contra hhead
  have hne : fs ≠ [] := fun hnil => hhead (hI.list.chain.eq_nil_iff.mp hnil)
  have hpage := (translate_congr_vpn (vpn_page user)).trans hnone
  obtain ⟨fs', hlist', hless⟩ :=
    hI.takes_frame hfr hlt hr (show (2 : BitVec 8).toNat < 3 by decide) hpage hne
  rw [copyStart_kernel_zero] at hlist
  rw [hlist'.chain.unique hlist.chain] at hless
  exact lt_irrefl _ hless

/-- A copy of nothing leaves the kernel alone exactly if the lookup has no frame to take. -/
lemma Inv.nothingToCopy_iff (hI : Inv frames w fs pos) (hfr : InitialFrames frames)
    (hlt : ∀ f ∈ frames, f < 2 ^ 36) (hr : root ∈ w.roots) (d : Direction)
    (user buffer : BitVec 64) :
    NothingToCopy w root user 0 ↔ (w.kernel.copyStart d root user buffer 0).kernel = w.kernel := by
  refine ⟨fun h => ?_, fun hsame => ?_⟩
  · rw [copyStart_kernel_zero]
    cases hf : translate w.mem root user with
    | none => exact getPhysicalPage_of_empty (h.2 hf)
    | some f => rw [getPhysicalPage_page hf]
  · exact hI.nothingToCopy hfr hlt hr (hsame.symm ▸ hI.list)

/-! ### From the user -/

/-- A copy from the user has ended, with the user's bytes in the buffer, and has written nothing
else. -/
structure CopiedFrom (w : World) (root : ℕ) («from» «to» size : BitVec 64) (s : CopyState) :
    Prop where
  ended : s.size = 0
  bytes : ∀ i < size.toNat, ∀ a, userAddr w.mem root («from» + BitVec.ofNat 64 i) = some a →
    s.kernel.mem («to».toNat + i) = w.mem a
  others : ∀ x ∉ block «to».toNat size.toNat, s.kernel.mem x = w.mem x
  list : s.kernel.pageFrameLinkedList = w.kernel.pageFrameLinkedList
  writes : ∀ c ∈ s.calls, c.size ≠ 0 → c.dst.toNat ∈ block «to».toNat size.toNat

/-- The copy ends at once, and the buffer holds all of the user's bytes but the first one
already. -/
def FirstByteFrom (w : World) (root : ℕ) («from» «to» size : BitVec 64) : Prop :=
  ∃ f, translate w.mem root «from» = some f ∧ EndsAtOnce .fromUser f «from» «to» size ∧
    ∀ i, 0 < i → i < size.toNat → ∀ a,
      userAddr w.mem root («from» + BitVec.ofNat 64 i) = some a →
      w.mem («to».toNat + i) = w.mem a

/-- A copy of nothing. -/
lemma Inv.copiedFrom_zero (hI : Inv frames w fs pos) (hfr : InitialFrames frames)
    (hlt : ∀ f ∈ frames, f < 2 ^ 36) (hr : root ∈ w.roots)
    (h : NothingToCopy w root «from» size) :
    CopiedFrom w root «from» «to» size (w.kernel.copyFromUser root «from» «to» size 0) := by
  obtain rfl : size = 0 := h.1
  have hkernel := (hI.nothingToCopy_iff hfr hlt hr .fromUser «from» «to»).mp h
  obtain ⟨hended, -⟩ :=
    (endsAtOnce_zero .fromUser (w.kernel.firstFrame root «from») «from» «to»).copyUser rfl
  obtain ⟨byte, hcalls⟩ := w.kernel.copyStart_calls .fromUser root «from» «to» 0
  rw [Kernel.copyFromUser, Kernel.copyUser_zero]
  refine ⟨hended, fun i hi => absurd hi (by simp), fun x _ => ?_, ?_, fun c hc hne => ?_⟩
  · rw [hkernel]
  · rw [hkernel]
  · rw [hcalls, List.mem_singleton] at hc
    rw [hc] at hne
    exact absurd rfl hne

/-- A copy that ends at once copies the first byte. -/
lemma FirstByteFrom.copied (h : FirstByteFrom w root «from» «to» size) (hne : size ≠ 0) :
    CopiedFrom w root «from» «to» size (w.kernel.copyFromUser root «from» «to» size 0) := by
  obtain ⟨f, hf, hends, hbytes⟩ := h
  have hpos : 0 < size.toNat := toNat_pos hne
  have hg : w.kernel.firstFrame root «from» = f := Kernel.firstFrame_eq hf
  obtain ⟨hended, -⟩ := hends.copyUser hg
  have hkernel := copyStart_kernel .fromUser «to» hf hne
  obtain ⟨byte, hcalls⟩ := w.kernel.copyStart_calls .fromUser root «from» «to» size
  have hself : «to».toNat ∈ block «to».toNat size.toNat := by
    rw [Set.mem_Ico]
    omega
  rw [Kernel.copyFromUser, Kernel.copyUser_zero]
  refine ⟨hended, fun i hi a ha => ?_, fun x hx => ?_, ?_, fun c hc _ => ?_⟩
  · rw [hkernel]
    rcases Nat.eq_zero_or_pos i with rfl | hi0
    · -- the first byte
      rw [show «from» + BitVec.ofNat 64 0 = «from» from BitVec.add_zero _,
        userAddr_of_translate hf, Option.some.injEq] at ha
      rw [← ha, ← toNat_framePtr (translate_lt hf)]
      exact if_pos rfl
    · have hother : «to».toNat + i ≠ «to».toNat := by omega
      exact (store8_of_ne hother).trans (hbytes i hi0 hi a ha)
  · rw [hkernel]
    exact store8_of_ne fun hxt => hx (hxt ▸ hself)
  · rw [hkernel]
  · rw [hcalls, List.mem_singleton] at hc
    rw [hc]
    exact hself

/-- What a copy over translated pages has left, if it does not end at once: it is not less than the
size. -/
lemma toNat_start_size_ge (hf : translate w.mem root user = some f)
    (hf0 : pageSize ≤ f + user.toNat % pageSize)
    (hsize : size.toNat < 2 ^ 48) (hends : ¬ EndsAtOnce d f user buffer size) :
    ∃ l, (CopyPos.start d f user buffer size).size.toNat = l ∧ size.toNat ≤ l ∧ l < 2 ^ 49 := by
  refine ⟨_, rfl, ?_⟩
  have hlt := translate_lt hf
  have hlate : ¬ ReturnsEarly (d.src (framePtr f user) buffer) size := fun h => hends (.inl h)
  rw [CopyPos.toNat_start_size hlate, toNat_framePtr hlt]
  simp only [pageSize] at *
  omega

/-- **A copy that does not end at once** writes past the buffer. -/
lemma CopiedFrom.endsAtOnce (h : CopiedFrom w root «from» «to» size
      (w.kernel.copyFromUser root «from» «to» size n))
    (hf : translate w.mem root «from» = some f) (hf0 : pageSize ≤ f + «from».toNat % pageSize)
    (hbuf : «to».toNat + size.toNat ≤ 2 ^ 64) (hsize : size.toNat < 2 ^ 48) :
    EndsAtOnce .fromUser f «from» «to» size := by
  by_contra hends
  have hg : w.kernel.firstFrame root «from» = f := Kernel.firstFrame_eq hf
  obtain ⟨l, hl, hle, hlt⟩ := toNat_start_size_ge hf hf0 hsize hends
  have hmore : (w.kernel.copyStart .fromUser root «from» «to» size).size ≠ 0 := by
    rw [Kernel.copyStart_toCopyPos, hg]
    exact fun h0 => hends (start_size_eq_zero.mp h0)
  have hn : 1 ≤ n := by
    refine Nat.pos_of_ne_zero fun h0 => ?_
    subst h0
    exact hmore h.ended
  -- the call of the first round is still on record at the end
  obtain ⟨g, -, byte, hcalls⟩ :=
    CopyState.round_calls .fromUser root (w.kernel.copyStart .fromUser root «from» «to» size)
  have hone : w.kernel.copyUser .fromUser root «from» «to» size 1 =
      (w.kernel.copyStart .fromUser root «from» «to» size).round .fromUser root := by
    rw [Kernel.copyUser_succ, Kernel.copyUser_zero, if_pos hmore]
  have hmem := h.writes _ (Kernel.mem_calls_of_le hn
    (by rw [hone, hcalls]; exact List.mem_cons_self)) hmore
  rw [Kernel.copyStart_toCopyPos, hg] at hmem
  simp only [Direction.dst, BitVec.toNat_add, hl, Set.mem_Ico] at hmem
  have hto : (CopyPos.start .fromUser f «from» «to» size).buffer = «to» := rfl
  rw [hto] at hmem
  have hlt' := «to».isLt
  omega

/-- **`copy_from_user`** over pages that are translated: it does what it should if there is nothing
to copy, or if it ends at once and the buffer holds all bytes but the first one already; where the
first byte is not on page zero only then. -/
theorem copyFromUser_copies (b : Boot) (hw : b.Reaches w) (hr : root ∈ w.roots)
    (hbuf : «to».toNat + size.toNat ≤ 2 ^ 64) (hrange : RangeTranslated w root «from» size) :
    (NothingToCopy w root «from» size ∨ FirstByteFrom w root «from» «to» size →
      ∃ n, CopiedFrom w root «from» «to» size (w.kernel.copyFromUser root «from» «to» size n)) ∧
    ((∀ f, translate w.mem root «from» = some f → pageSize ≤ f + «from».toNat % pageSize) →
      (∃ n, CopiedFrom w root «from» «to» size (w.kernel.copyFromUser root «from» «to» size n)) →
      NothingToCopy w root «from» size ∨ FirstByteFrom w root «from» «to» size) := by
  obtain ⟨fs, pos, hI⟩ := hw.inv
  refine ⟨fun h => ?_, fun habove h => ?_⟩
  · by_cases h0 : size = 0
    · subst h0
      rcases h with hnothing | ⟨f, hf, -⟩
      · exact ⟨0, hI.copiedFrom_zero b.initial b.lt hr hnothing⟩
      · refine ⟨0, hI.copiedFrom_zero b.initial b.lt hr ⟨rfl, fun hnone => ?_⟩⟩
        exact absurd hf (by simp [hnone])
    · exact ⟨0, (h.resolve_left fun hnothing => h0 hnothing.1).copied h0⟩
  · obtain ⟨n, hcopied⟩ := h
    by_cases h0 : size = 0
    · subst h0
      obtain ⟨-, hall⟩ := (endsAtOnce_zero .fromUser (w.kernel.firstFrame root «from») «from»
        «to»).copyUser rfl
      rw [Kernel.copyFromUser, hall] at hcopied
      refine .inl ((hI.nothingToCopy_iff b.initial b.lt hr .fromUser «from» «to»).mpr ?_)
      exact Kernel.eq_of (funext fun x => hcopied.others x (by simp)) hcopied.list
    · obtain ⟨f, hf⟩ := hrange.first h0
      have hends := hcopied.endsAtOnce hf (habove f hf) hbuf
        (hI.size_lt_of_rangeTranslated b.initial b.lt hr hrange)
      obtain ⟨-, hall⟩ := hends.copyUser (Kernel.firstFrame_eq hf)
      rw [Kernel.copyFromUser, hall] at hcopied
      refine .inr ⟨f, hf, hends, fun i hi0 hi a ha => ?_⟩
      have hother : «to».toNat + i ≠ «to».toNat := by omega
      calc w.mem («to».toNat + i)
          = (w.kernel.copyStart .fromUser root «from» «to» size).kernel.mem («to».toNat + i) := by
            rw [copyStart_kernel .fromUser «to» hf h0]
            exact (store8_of_ne hother).symm
        _ = w.mem a := hcopied.bytes i hi a ha

/-! ### To the user -/

/-- A copy to the user has ended, with the buffer's bytes at the user's addresses, and has changed
nothing else. -/
structure CopiedTo (w : World) (root : ℕ) («from» «to» size : BitVec 64) (s : CopyState) :
    Prop where
  ended : s.size = 0
  bytes : ∀ i < size.toNat, ∀ a, userAddr w.mem root («to» + BitVec.ofNat 64 i) = some a →
    s.kernel.mem a = w.mem («from».toNat + i)
  others : ∀ x, (∀ i < size.toNat, userAddr w.mem root («to» + BitVec.ofNat 64 i) ≠ some x) →
    s.kernel.mem x = w.mem x
  list : s.kernel.pageFrameLinkedList = w.kernel.pageFrameLinkedList

/-- The copy ends at once, and all of the buffer's bytes but the first one are with the user
already. -/
def FirstByteTo (w : World) (root : ℕ) («from» «to» size : BitVec 64) : Prop :=
  ∃ f, translate w.mem root «to» = some f ∧ EndsAtOnce .toUser f «to» «from» size ∧
    ∀ i, 0 < i → i < size.toNat → ∀ a,
      userAddr w.mem root («to» + BitVec.ofNat 64 i) = some a → w.mem a = w.mem («from».toNat + i)

/-- The pages of a range are at frames that do not overlap. -/
def Scattered (w : World) (root : ℕ) (user size : BitVec 64) : Prop :=
  ∀ i < size.toNat, ∀ j < size.toNat, ∀ f g,
    translate w.mem root (user + BitVec.ofNat 64 i) = some f →
    translate w.mem root (user + BitVec.ofNat 64 j) = some g →
    vpn (user + BitVec.ofNat 64 i) ≠ vpn (user + BitVec.ofNat 64 j) → Disjoint (page f) (page g)

/-- The other bytes of a range are not where its first byte is. -/
lemma Scattered.ne_first (h : Scattered w root user size) (hsize : size.toNat < 2 ^ 48)
    (hf : translate w.mem root user = some f) {i a : ℕ} (hi0 : 0 < i) (hi : i < size.toNat)
    (ha : userAddr w.mem root (user + BitVec.ofNat 64 i) = some a) :
    a ≠ f + user.toNat % pageSize := by
  obtain ⟨g, hg, rfl⟩ := userAddr_eq_some.mp ha
  have hmod : ∀ v : BitVec 64, v.toNat % pageSize < pageSize := fun v =>
    Nat.mod_lt _ (by norm_num [pageSize])
  have hzero : user + BitVec.ofNat 64 0 = user := BitVec.add_zero user
  by_cases hvpn : vpn user = vpn (user + BitVec.ofNat 64 i)
  · -- in the same page the offsets differ, for the range does not go round
    rw [← translate_congr_vpn hvpn, hf, Option.some.injEq] at hg
    intro heq
    simp only [vpn, BitVec.toNat_add, BitVec.toNat_ofNat, pageSize] at hvpn heq
    omega
  · have hdis := h 0 (by omega) i hi f g (by rw [hzero]; exact hf) hg (by rw [hzero]; exact hvpn)
    intro heq
    have hin : f + user.toNat % pageSize ∈ page f :=
      Set.mem_Ico.mpr ⟨Nat.le_add_right f _, Nat.add_lt_add_left (hmod user) f⟩
    have hin' : f + user.toNat % pageSize ∈ page g := by
      rw [← heq]
      exact Set.mem_Ico.mpr ⟨Nat.le_add_right g _, Nat.add_lt_add_left (hmod _) g⟩
    exact Set.disjoint_left.mp hdis hin hin'

/-- A copy of nothing. -/
lemma Inv.copiedTo_zero (hI : Inv frames w fs pos) (hfr : InitialFrames frames)
    (hlt : ∀ f ∈ frames, f < 2 ^ 36) (hr : root ∈ w.roots)
    (h : NothingToCopy w root «to» size) :
    CopiedTo w root «from» «to» size (w.kernel.copyToUser root «from» «to» size 0) := by
  obtain rfl : size = 0 := h.1
  have hkernel := (hI.nothingToCopy_iff hfr hlt hr .toUser «to» «from»).mp h
  obtain ⟨hended, -⟩ :=
    (endsAtOnce_zero .toUser (w.kernel.firstFrame root «to») «to» «from»).copyUser rfl
  rw [Kernel.copyToUser, Kernel.copyUser_zero]
  refine ⟨hended, fun i hi => absurd hi (by simp), fun x _ => ?_, ?_⟩
  · rw [hkernel]
  · rw [hkernel]

/-- The memory after the first page. -/
lemma copyStart_mem_toUser («from» : BitVec 64) (hf : translate k.mem root «to» = some f)
    (hne : size ≠ 0) :
    (k.copyStart .toUser root «to» «from» size).kernel.mem =
      k.mem.store8 (f + «to».toNat % pageSize) (k.mem «from».toNat) := by
  rw [copyStart_kernel .toUser «from» hf hne]
  simp only [Direction.dst, Direction.src, toNat_framePtr (translate_lt hf)]

/-- A copy that ends at once copies the first byte. -/
lemma FirstByteTo.copied (h : FirstByteTo w root «from» «to» size) (hne : size ≠ 0)
    (hsize : size.toNat < 2 ^ 48) (hscattered : Scattered w root «to» size) :
    CopiedTo w root «from» «to» size (w.kernel.copyToUser root «from» «to» size 0) := by
  obtain ⟨f, hf, hends, hbytes⟩ := h
  have hpos : 0 < size.toNat := toNat_pos hne
  have hzero : «to» + BitVec.ofNat 64 0 = «to» := BitVec.add_zero _
  obtain ⟨hended, -⟩ := hends.copyUser (Kernel.firstFrame_eq hf)
  have hmem := copyStart_mem_toUser «from» hf hne
  rw [Kernel.copyToUser, Kernel.copyUser_zero]
  refine ⟨hended, fun i hi a ha => ?_, fun x hx => ?_, ?_⟩
  · rw [hmem]
    rcases Nat.eq_zero_or_pos i with rfl | hi0
    · rw [hzero, userAddr_of_translate hf, Option.some.injEq] at ha
      rw [← ha]
      exact if_pos rfl
    · exact (store8_of_ne (hscattered.ne_first hsize hf hi0 hi ha)).trans (hbytes i hi0 hi a ha)
  · rw [hmem]
    refine store8_of_ne fun hxf => hx 0 hpos ?_
    rw [hzero, userAddr_of_translate hf, hxf]
  · rw [copyStart_kernel .toUser «from» hf hne]

/-- What is left never gets to zero if it is no whole number of pages. -/
lemma size_after_ne_zero {p : CopyPos} (h : p.size.toNat % pageSize ≠ 0) (n : ℕ) :
    (p.after n).size ≠ 0 := by
  have hkept : (p.after n).size.toNat % pageSize ≠ 0 := by
    refine whileLoop_invariant (I := fun p : CopyPos => p.size.toNat % pageSize ≠ 0) ?_ h n
    intro p hp _
    simp only [CopyPos.next, toNat_sub_page, pageSize] at hp ⊢
    omega
  exact fun h0 => hkept (by rw [h0]; rfl)

/-- **A copy that ends** without leaving a whole number of pages to its loop ends at once. -/
lemma CopiedTo.endsAtOnce (h : CopiedTo w root «from» «to» size
      (w.kernel.copyToUser root «from» «to» size n))
    (hf : translate w.mem root «to» = some f)
    (hpart : ReturnsEarly «from» size ∨ ¬ pageSize ∣ size.toNat + (framePtr f «to»).toNat) :
    EndsAtOnce .toUser f «to» «from» size := by
  refine hpart.elim .inl fun hpart => ?_
  by_contra hends
  have hg : w.kernel.firstFrame root «to» = f := Kernel.firstFrame_eq hf
  have hlate : ¬ ReturnsEarly «from» size := fun h => hends (.inl h)
  have hended := h.ended
  rw [Kernel.copyToUser, Kernel.copyUser_toCopyPos, Kernel.copyStart_toCopyPos, hg] at hended
  refine size_after_ne_zero (fun hmod => hpart (Nat.dvd_of_mod_eq_zero ?_)) n hended
  rw [CopyPos.toNat_start_size (d := .toUser) hlate] at hmod
  simp only [pageSize] at hmod ⊢
  omega

/-- **`copy_to_user`** over pages that are translated to frames that do not overlap: it does what it
should if there is nothing to copy, or if it ends at once and all bytes but the first one are with
the user already; and only then if it returns early or the loop is left no whole number of pages. -/
theorem copyToUser_copies (b : Boot) (hw : b.Reaches w) (hr : root ∈ w.roots)
    (hrange : RangeTranslated w root «to» size) (hscattered : Scattered w root «to» size) :
    (NothingToCopy w root «to» size ∨ FirstByteTo w root «from» «to» size →
      ∃ n, CopiedTo w root «from» «to» size (w.kernel.copyToUser root «from» «to» size n)) ∧
    ((∀ f, translate w.mem root «to» = some f →
        ReturnsEarly «from» size ∨ ¬ pageSize ∣ size.toNat + (framePtr f «to»).toNat) →
      (∃ n, CopiedTo w root «from» «to» size (w.kernel.copyToUser root «from» «to» size n)) →
      NothingToCopy w root «to» size ∨ FirstByteTo w root «from» «to» size) := by
  obtain ⟨fs, pos, hI⟩ := hw.inv
  have hsize := hI.size_lt_of_rangeTranslated b.initial b.lt hr hrange
  refine ⟨fun h => ?_, fun hpart h => ?_⟩
  · by_cases h0 : size = 0
    · subst h0
      rcases h with hnothing | ⟨f, hf, -⟩
      · exact ⟨0, hI.copiedTo_zero b.initial b.lt hr hnothing⟩
      · refine ⟨0, hI.copiedTo_zero b.initial b.lt hr ⟨rfl, fun hnone => ?_⟩⟩
        exact absurd hf (by simp [hnone])
    · exact ⟨0, (h.resolve_left fun hnothing => h0 hnothing.1).copied h0 hsize hscattered⟩
  · obtain ⟨n, hcopied⟩ := h
    by_cases h0 : size = 0
    · subst h0
      obtain ⟨-, hall⟩ := (endsAtOnce_zero .toUser (w.kernel.firstFrame root «to») «to»
        «from»).copyUser rfl
      rw [Kernel.copyToUser, hall] at hcopied
      refine .inl ((hI.nothingToCopy_iff b.initial b.lt hr .toUser «to» «from»).mpr ?_)
      exact Kernel.eq_of (funext fun x => hcopied.others x fun i hi => absurd hi (by simp))
        hcopied.list
    · obtain ⟨f, hf⟩ := hrange.first h0
      have hends := hcopied.endsAtOnce hf (hpart f hf)
      obtain ⟨-, hall⟩ := hends.copyUser (Kernel.firstFrame_eq hf)
      rw [Kernel.copyToUser, hall] at hcopied
      refine .inr ⟨f, hf, hends, fun i hi0 hi a ha => ?_⟩
      calc w.mem a
          = (w.kernel.copyStart .toUser root «to» «from» size).kernel.mem a := by
            rw [copyStart_mem_toUser «from» hf h0]
            exact (store8_of_ne (hscattered.ne_first hsize hf hi0 hi ha)).symm
        _ = w.mem («from».toNat + i) := hcopied.bytes i hi a ha

/-! ### Copies in the small world -/

/-- One byte is copied from the user. -/
theorem copyFromUser_copies_byte : ∃ n, CopiedFrom (smallMapped 0 0xB000) 4096 0 0x20000 1
    ((smallMapped 0 0xB000).kernel.copyFromUser 4096 0 0x20000 1 n) := by
  have hf := smallMapped_translate
  refine (copyFromUser_copies smallBoot (smallMapped_reaches 0 smallPage_lt)
    (smallMapped_root 0 0xB000) (by decide) (rangeTranslated_of_page hf (by decide))).1
    (.inr ⟨0xB000, hf, .inl (by decide), fun i hi0 hi => ?_⟩)
  have hi' : i < 1 := hi
  omega

/-- A copy of a whole page of the user writes past the buffer. -/
theorem copyFromUser_fails :
    smallBoot.Reaches (smallMapped 0 0xB000) ∧ 4096 ∈ (smallMapped 0 0xB000).roots ∧
      RangeTranslated (smallMapped 0 0xB000) 4096 0 0x1000 ∧
      ¬ ∃ n, CopiedFrom (smallMapped 0 0xB000) 4096 0 0x20000 0x1000
        ((smallMapped 0 0xB000).kernel.copyFromUser 4096 0 0x20000 0x1000 n) := by
  have hf := smallMapped_translate
  refine ⟨smallMapped_reaches 0 smallPage_lt, smallMapped_root 0 0xB000,
    rangeTranslated_of_page hf (by decide), ?_⟩
  rintro ⟨n, hcopied⟩
  rcases hcopied.endsAtOnce hf (by decide) (by decide) (by decide) with hearly | hleft
  · exact absurd hearly (by decide)
  · exact absurd hleft (by decide)

/-- One byte is copied to the user. -/
theorem copyToUser_copies_byte : ∃ n, CopiedTo (smallMapped 0 0xB000) 4096 0x20000 0 1
    ((smallMapped 0 0xB000).kernel.copyToUser 4096 0x20000 0 1 n) := by
  have hf := smallMapped_translate
  refine (copyToUser_copies smallBoot (smallMapped_reaches 0 smallPage_lt)
    (smallMapped_root 0 0xB000) (rangeTranslated_of_page hf (by decide))
    fun i hi j hj f g _ _ hvpn => ?_).1
    (.inr ⟨0xB000, hf, .inl (by decide), fun i hi0 hi => ?_⟩)
  · have hi' : i < 1 := hi
    have hj' : j < 1 := hj
    obtain rfl : i = j := by omega
    exact absurd rfl hvpn
  · have hi' : i < 1 := hi
    omega

/-- A copy of two bytes to the user, from a buffer over a page boundary, does not end. -/
theorem copyToUser_fails :
    smallBoot.Reaches (smallMapped 0 0xB000) ∧ 4096 ∈ (smallMapped 0 0xB000).roots ∧
      RangeTranslated (smallMapped 0 0xB000) 4096 0 2 ∧ Scattered (smallMapped 0 0xB000) 4096 0 2 ∧
      ¬ ∃ n, CopiedTo (smallMapped 0 0xB000) 4096 0x20FFF 0 2
        ((smallMapped 0 0xB000).kernel.copyToUser 4096 0x20FFF 0 2 n) := by
  have hf := smallMapped_translate
  refine ⟨smallMapped_reaches 0 smallPage_lt, smallMapped_root 0 0xB000,
    rangeTranslated_of_page hf (by decide), fun i hi j hj f g _ _ hvpn => ?_, ?_⟩
  · have hi' : i < 2 := hi
    have hj' : j < 2 := hj
    have h0 : (0 : BitVec 64).toNat = 0 := rfl
    refine absurd ?_ hvpn
    simp only [vpn, BitVec.toNat_add, BitVec.toNat_ofNat, h0]
    omega
  · rintro ⟨n, hcopied⟩
    rcases hcopied.endsAtOnce hf (.inr (by decide)) with hearly | hleft
    · exact absurd hearly (by decide)
    · exact absurd hleft (by decide)

end SkinnyArm
