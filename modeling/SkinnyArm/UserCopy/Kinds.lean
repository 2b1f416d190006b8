import SkinnyArm.UserCopy.Calls

/-!
Kernel and device pages in a user's tree.

* `World.Protected` are the bytes of the pages mapped with kind `0` or `1`, and `KindsKept` is what
  a copy should do about them: `copy_to_user` stores to none of them, and what `copy_from_user`
  stores does not depend on them.
* **No kind is ever looked at**: the walk takes any entry that is set.  So the copies keep the kinds
  exactly if no page they look up has the byte to be copied among the protected ones
  (`copyUser_kinds`).
-/

namespace SkinnyArm

open ByteMemory Forest

variable {frames fs : List ℕ} {w : World} {pos : Pos} {k : Kernel} {d : Direction} {a : CopyArgs}
  {root f g n x : ℕ} {user buffer size phys : BitVec 64}

/-! ### Protected bytes -/

/-- The bytes of the pages mapped for the kernel or a device. -/
def World.Protected (w : World) (root : ℕ) : Set ℕ :=
  {x | ∃ μ ∈ w.mapped, μ.root = root ∧ (μ.kind = 0 ∨ μ.kind = 1) ∧
    ∃ f, translate w.mem root μ.va = some f ∧ x ∈ page f}

/-- The protected bytes are part of no table, no free frame and not of the first page. -/
structure ProtectedApart (frames : List ℕ) (w : World) (root : ℕ) : Prop where
  writable : ∀ x ∈ w.Protected root, w.Writable frames x
  above : ∀ x ∈ w.Protected root, pageSize ≤ x

/-- Whatever the protected bytes are, a copy to the user stores to none of them, and a copy from the
user stores the same bytes. -/
def KindsKept (w : World) (d : Direction) (root : ℕ) (user buffer size : BitVec 64) : Prop :=
  ∀ m n,
    match d with
    | .toUser => ∀ x ∈ w.Protected root,
        ((w.kernel.patch (w.Protected root) m).copyUser d root user buffer size n).kernel.mem x =
          (w.kernel.patch (w.Protected root) m).mem x
    | .fromUser =>
        stores ((w.kernel.patch (w.Protected root) m).copyUser d root user buffer size n).calls =
          stores (w.kernel.copyUser d root user buffer size n).calls

/-- The protected bytes are part of no table and no free frame, and neither are the bytes a copy
stores; where it looks up translated pages only, these may be in free frames, off the links. -/
structure CopiesApart (frames : List ℕ) (w : World) (d : Direction) (root : ℕ)
    (user buffer size : BitVec 64) : Prop where
  apart : ProtectedApart frames w root
  stores : (∀ n, (w.kernel.copyArgs d root user buffer size n).StoresApart frames w d root) ∨
    LooksUpTranslated w d root user buffer size ∧ StoresApart frames w d root user buffer size

/-- No page a copy looks up has the byte to be copied among the protected ones. -/
def PagesOpen (w : World) (d : Direction) (root : ℕ) (user buffer size : BitVec 64) : Prop :=
  ∀ n, (w.kernel.copyArgs d root user buffer size n).size ≠ 0 → ∀ f,
    translate w.mem root (w.kernel.copyArgs d root user buffer size n).va = some f →
    (BitVec.ofNat 64 f + (w.kernel.copyArgs d root user buffer size n).offset).toNat ∉
      w.Protected root

/-- The buffer has no protected byte. -/
def BufferOpen (w : World) (d : Direction) (root : ℕ) (user buffer size : BitVec 64) : Prop :=
  ∀ n, (w.kernel.copyArgs d root user buffer size n).size ≠ 0 →
    (w.kernel.copyArgs d root user buffer size n).buffer.toNat ∉ w.Protected root

/-- A pointer into a frame is not into a protected page if that holds of the page translated now. -/
lemma ProtectedApart.notMem (h : ProtectedApart frames w root) (hlt : ∀ f ∈ frames, f < 2 ^ 36)
    (hoff : a.offset.toNat < pageSize)
    (hopen : ∀ f, translate w.mem root a.va = some f →
      (BitVec.ofNat 64 f + a.offset).toNat ∉ w.Protected root)
    (hphys : a.Points frames w root phys) : phys.toNat ∉ w.Protected root := by
  obtain ⟨g, hg, rfl⟩ := hphys
  cases hg with
  | null =>
      intro hx
      have hle := h.above _ hx
      rw [BitVec.zero_add] at hle
      omega
  | old hg => exact hopen g hg
  | new hg hleaf =>
      intro hx
      refine hleaf (h.writable _ hx g hg ?_)
      rw [toNat_ofNat_add (hlt g hg) hoff, Set.mem_Ico]
      omega

/-! ### Copies that keep the kinds -/

section Kinds

variable (hI : Inv frames w fs pos) (hfr : InitialFrames frames) (hlt : ∀ f ∈ frames, f < 2 ^ 36)
  (hr : root ∈ w.roots)
include hI hfr hlt hr

/-- The kernels on the way, from other protected bytes. -/
lemma CopiesApart.reaches (h : CopiesApart frames w d root user buffer size) (m : ByteMemory) :
    (∀ n, (w.kernel.patch (w.Protected root) m).copyArgs d root user buffer size n =
        w.kernel.copyArgs d root user buffer size n) ∧
      ∀ n, w.CopyReaches frames
        ((w.kernel.patch (w.Protected root) m).copyBefore d root user buffer size n).1 := by
  have hstored : Stored frames w (w.kernel.patch (w.Protected root) m) :=
    ⟨rfl, fun x hx => patch_of_notMem fun hmem => hx (h.apart.writable x hmem).storable⟩
  obtain ⟨hI', hsame⟩ := hI.stored hlt hstored
  have hcopied : Copied frames w { w with kernel := w.kernel.patch (w.Protected root) m } :=
    (Copied.refl hI).of_stored hlt hstored
  have hargs : ∀ n, (w.kernel.patch (w.Protected root) m).copyArgs d root user buffer size n =
      w.kernel.copyArgs d root user buffer size n :=
    hI.copyReaches.copyArgs_patch hI hfr hlt hr h.apart.writable
  refine ⟨hargs, fun n => ?_⟩
  rcases h.stores with hstores | ⟨⟨f, hf, hpages⟩, hstores⟩
  · have hk : w.CopyReaches frames (w.kernel.patch (w.Protected root) m) := ⟨_, hcopied, rfl⟩
    exact hk.copyBefore hI hfr hlt hr (fun j => by rw [hargs]; exact hstores j) n
  · cases n with
    | zero => exact ⟨_, hcopied, rfl⟩
    | succ n =>
        obtain ⟨hrun, -⟩ := hI'.copyUser_stored hfr hlt hr ((hsame root hr user).trans hf)
          (hI.storesApart_stored hlt hr hstored hstores) n fun j _ hmore hnone =>
            hpages j hmore ((hsame root hr _).symm.trans hnone)
        exact ⟨_, hcopied.of_stored hlt hrun, rfl⟩

/-- The kernels on the way. -/
lemma CopiesApart.reaches_self (h : CopiesApart frames w d root user buffer size) (n : ℕ) :
    w.CopyReaches frames (w.kernel.copyBefore d root user buffer size n).1 := by
  have hreaches := (h.reaches hI hfr hlt hr w.kernel.mem).2 n
  rwa [Kernel.patch_self] at hreaches

/-- Open pages are enough. -/
lemma PagesOpen.kindsKept (h : PagesOpen w d root user buffer size)
    (hapart : CopiesApart frames w d root user buffer size) :
    KindsKept w d root user buffer size := by
  intro m n
  have hphys : ∀ j, (w.kernel.copyArgs d root user buffer size j).size ≠ 0 → ∀ phys,
      (w.kernel.copyArgs d root user buffer size j).Points frames w root phys →
      phys.toNat ∉ w.Protected root := fun j hne _ hphys =>
    hapart.apart.notMem hlt (w.kernel.copyArgs_offset d root user buffer size j) (h j hne) hphys
  obtain ⟨hargs, hreaches⟩ := hapart.reaches hI hfr hlt hr m
  cases d with
  | toUser =>
      intro x hx
      refine copyBefore_kept hI hfr hlt hr hreaches (hapart.apart.writable x hx) (n + 1)
        fun j _ hne phys hpoints => ?_
      rw [hargs] at hne hpoints
      rintro rfl
      exact hphys j hne phys hpoints hx
  | fromUser =>
      exact (copyBefore_patch hI hfr hlt hr (hapart.reaches_self hI hfr hlt hr)
        hapart.apart.writable (n + 1) fun j _ hne phys hpoints => hphys j hne phys hpoints).2

omit hI hfr hlt in
/-- The call for a page that is translated. -/
lemma World.CopyReaches.copyFrame_eq (h : w.CopyReaches frames k)
    (hf : translate w.mem root a.va = some f) (hne : a.size ≠ 0) :
    (k.copyFrame d root a.va a.offset a.buffer a.size).1.mem =
        k.mem.store8 (d.dst (BitVec.ofNat 64 f + a.offset) a.buffer).toNat
          (k.mem (d.src (BitVec.ofNat 64 f + a.offset) a.buffer).toNat) ∧
      (k.copyFrame d root a.va a.offset a.buffer a.size).2.byte =
        k.mem (d.src (BitVec.ofNat 64 f + a.offset) a.buffer).toNat := by
  obtain ⟨W, hW, rfl⟩ := h
  have hfound : W.kernel.getPhysicalPage root a.va 0 2 = (W.kernel, f) :=
    getPhysicalPage_of_translate (hW.kept root hr a.va f hf)
  simp only [Kernel.copyFrame, hfound]
  exact ⟨strcpy_eq _ _ _ _ (toNat_pos hne), trivial⟩

/-- **A call from the user** for a protected byte stores that byte. -/
lemma BufferOpen.stores_fromUser (h : BufferOpen w .fromUser root user buffer size)
    (hapart : CopiesApart frames w .fromUser root user buffer size)
    (ha : w.kernel.copyArgs .fromUser root user buffer size n = a) (hne : a.size ≠ 0)
    (hf : translate w.mem root a.va = some f)
    (hx : (BitVec.ofNat 64 f + a.offset).toNat ∈ w.Protected root) (m : ByteMemory) :
    ∃ dst rest, stores ((w.kernel.patch (w.Protected root) m).copyUser .fromUser root user buffer
      size n).calls = (dst, m (BitVec.ofNat 64 f + a.offset).toNat) :: rest := by
  subst ha
  obtain ⟨hargs, hreaches⟩ := hapart.reaches hI hfr hlt hr m
  -- no call before stores a protected byte
  have hbefore := copyBefore_kept hI hfr hlt hr hreaches (hapart.apart.writable _ hx) n
    fun j _ hne _ _ hxb => by
      rw [hargs] at hne hxb
      exact h j hne (hxb ▸ hx)
  have hcall := Kernel.copyBefore_succ_of_ne ((hargs n).symm ▸ hne)
  rw [hargs] at hcall
  obtain ⟨-, hbyte⟩ := (hreaches n).copyFrame_eq (d := .fromUser) hr hf hne
  have hlist := congrArg (fun c => stores c.2) hcall
  simp only [copyCall] at hlist
  rw [stores_cons_of_ne hne, hbyte, Direction.src, hbefore, Kernel.patch_mem hx] at hlist
  exact ⟨_, _, hlist⟩

/-- **A call to the user** for a protected byte stores the byte of the buffer. -/
lemma BufferOpen.mem_toUser (h : BufferOpen w .toUser root user buffer size)
    (hapart : CopiesApart frames w .toUser root user buffer size)
    (ha : w.kernel.copyArgs .toUser root user buffer size n = a) (hne : a.size ≠ 0)
    (hf : translate w.mem root a.va = some f) (m : ByteMemory) :
    ((w.kernel.patch (w.Protected root) m).copyUser .toUser root user buffer size n).kernel.mem
        (BitVec.ofNat 64 f + a.offset).toNat =
      (w.kernel.copyBefore .toUser root user buffer size n).1.mem a.buffer.toNat := by
  subst ha
  obtain ⟨hargs, hreaches⟩ := hapart.reaches hI hfr hlt hr m
  obtain ⟨⟨m', hpatch⟩, -⟩ := copyBefore_patch (m := m) hI hfr hlt hr
    (hapart.reaches_self hI hfr hlt hr) hapart.apart.writable n fun j _ hne _ _ => h j hne
  have hcall := Kernel.copyBefore_succ_of_ne ((hargs n).symm ▸ hne)
  rw [hargs] at hcall
  obtain ⟨hmem, -⟩ := (hreaches n).copyFrame_eq (d := .toUser) hr hf hne
  have hbyte := congrArg (fun c => c.1.mem (BitVec.ofNat 64 f +
    (w.kernel.copyArgs .toUser root user buffer size n).offset).toNat) hcall
  simp only [copyCall] at hbyte
  rw [hmem, Direction.dst, Direction.src, store8, if_pos rfl, hpatch,
    Kernel.patch_mem_of_notMem (h n hne)] at hbyte
  exact hbyte

/-- Open pages are needed. -/
lemma KindsKept.pagesOpen (h : KindsKept w d root user buffer size)
    (hapart : CopiesApart frames w d root user buffer size)
    (hbuffer : BufferOpen w d root user buffer size) : PagesOpen w d root user buffer size := by
  intro n hne f hf hx
  -- the byte would be the same whatever the protected bytes are
  obtain ⟨v, hv⟩ : ∃ v : BitVec 8, ∀ m : ByteMemory,
      m (BitVec.ofNat 64 f + (w.kernel.copyArgs d root user buffer size n).offset).toNat = v := by
    cases d with
    | toUser =>
        refine ⟨_, fun m => Eq.trans ?_ (hbuffer.mem_toUser hI hfr hlt hr hapart rfl hne hf m)⟩
        have hkept := h m n _ hx
        rw [Kernel.patch_mem hx] at hkept
        exact hkept.symm
    | fromUser =>
        have hstores := hbuffer.stores_fromUser hI hfr hlt hr hapart rfl hne hf hx
        obtain ⟨dst, rest, hself⟩ := hstores w.kernel.mem
        rw [Kernel.patch_self] at hself
        refine ⟨w.kernel.mem (BitVec.ofNat 64 f +
          (w.kernel.copyArgs .fromUser root user buffer size n).offset).toNat, fun m => ?_⟩
        obtain ⟨dst', rest', hpatched⟩ := hstores m
        have hsame := hpatched.symm.trans ((h m n).trans hself)
        rw [List.cons.injEq, Prod.mk.injEq] at hsame
        exact hsame.1.2
  have hother : v + 1 ≠ v := by bv_omega
  exact hother (hv fun _ => v + 1)

end Kinds

/-- **The copies keep the kinds**, with the protected bytes and the stores apart from those of the
allocator and the tables, if no page they look up has the byte to be copied among the protected
ones; for a buffer with no protected byte only then. -/
theorem copyUser_kinds (b : Boot) (hw : b.Reaches w) (hr : root ∈ w.roots) (d : Direction)
    (user buffer size : BitVec 64) :
    (CopiesApart b.frames w d root user buffer size ∧ PagesOpen w d root user buffer size →
      KindsKept w d root user buffer size) ∧
    (CopiesApart b.frames w d root user buffer size → BufferOpen w d root user buffer size →
      KindsKept w d root user buffer size → PagesOpen w d root user buffer size) := by
  obtain ⟨fs, pos, hI⟩ := hw.inv
  exact ⟨fun h => h.2.kindsKept hI b.initial b.lt hr h.1,
    fun hapart hbuffer h => h.pagesOpen hI b.initial b.lt hr hapart hbuffer⟩

/-! ### Copies in the small world -/

/-- A copy that ends at once makes one call. -/
lemma EndsAtOnce.copyArgs_size (h : EndsAtOnce d (k.firstFrame root user) user buffer size)
    (n : ℕ) : (k.copyArgs d root user buffer size (n + 1)).size = 0 :=
  CopyPos.after_size (start_size_eq_zero.mpr h) n

/-- The page mapped for the kernel is protected, and nothing else is. -/
lemma smallMapped_protected (hx : x ∈ (smallMapped 0 0xB000).Protected 4096) : x ∈ page 0xB000 := by
  obtain ⟨fs, pos, hI⟩ := (smallMapped_reaches 0 smallPage_lt).inv
  obtain ⟨μ, hμ, hroot, -, f, hf, hxf⟩ := hx
  obtain ⟨g, hg, -, hgiven⟩ := hI.translate_mapped smallBoot.lt hμ
  have hpa : μ.pa = 0xB000 := smallMapped_pa μ hμ
  rw [hroot, hf, Option.some.injEq] at hg
  have hframe := hgiven (by rw [hpa]; decide)
  rw [hpa] at hframe
  rw [hg, hframe] at hxf
  exact hxf

/-- Its first byte is. -/
lemma smallMapped_mem_protected : 0xB000 ∈ (smallMapped 0 0xB000).Protected 4096 := by
  obtain ⟨fs, pos, hI⟩ := (smallMapped_reaches 0 smallPage_lt).inv
  have hf := smallMapped_translate
  obtain ⟨μ, hμ, hroot, hvpn⟩ := hI.recorded (smallMapped_root 0 0xB000) hf
  have hkind : μ.kind = 0 := by
    rcases World.mem_mapped_call hμ with rfl | hold
    · rfl
    · exact absurd hold (by simp [smallWorld])
  refine ⟨μ, hμ, hroot, .inl hkind, 0xB000, (translate_congr_vpn hvpn).trans hf, ?_⟩
  exact Set.mem_Ico.mpr ⟨le_refl _, by norm_num [pageSize]⟩

lemma smallMapped_apart : ProtectedApart smallBoot.frames (smallMapped 0 0xB000) 4096 where
  writable _ hx := smallWritable _ (smallMapped_protected hx).1
  above _ hx := le_trans (by norm_num [pageSize]) (smallMapped_protected hx).1

/-- The page after it is not mapped. -/
lemma smallMapped_next : translate (smallMapped 0 0xB000).mem 4096 0x1000 = none := by
  obtain ⟨-, -, hstop, -⟩ := smallMapped_spec 0 smallPage_lt
  exact hstop (lvlAddr 0x1000 0) [lvlAddr 0x1000 1, lvlAddr 0x1000 2, lvlAddr 0x1000 3]
    (by simp) (by decide)

/-- One byte copied to a page that is not mapped leaves the kernel's page alone. -/
theorem copyUser_kinds_byte : KindsKept (smallMapped 0 0xB000) .toUser 4096 0x1000 0x20000 1 := by
  have hlate : ∀ n, ((smallMapped 0 0xB000).kernel.copyArgs .toUser 4096 0x1000 0x20000 1
      (n + 1)).size = 0 := EndsAtOnce.copyArgs_size (.inl (by decide))
  have hnone := (translate_congr_vpn (vpn_page 0x1000)).trans smallMapped_next
  refine (copyUser_kinds smallBoot (smallMapped_reaches 0 smallPage_lt)
    (smallMapped_root 0 0xB000) .toUser 0x1000 0x20000 1).1
    ⟨⟨smallMapped_apart, .inl fun n => ?_⟩, fun n => ?_⟩
  · cases n with
    | zero => exact fun _ f hf => absurd (hf.symm.trans hnone) (Option.some_ne_none f)
    | succ n => exact fun hne => absurd (hlate n) hne
  · cases n with
    | zero => exact fun _ f hf => absurd (hf.symm.trans hnone) (Option.some_ne_none f)
    | succ n => exact fun hne => absurd (hlate n) hne

/-- One byte copied to the kernel's page is stored there, and one copied from it is passed on. -/
theorem copyUser_kinds_fails :
    smallBoot.Reaches (smallMapped 0 0xB000) ∧ 4096 ∈ (smallMapped 0 0xB000).roots ∧
      ∀ d, ¬ KindsKept (smallMapped 0 0xB000) d 4096 0 0x20000 1 := by
  have hreaches := smallMapped_reaches 0 smallPage_lt
  have hr := smallMapped_root 0 0xB000
  refine ⟨hreaches, hr, fun d h => ?_⟩
  obtain ⟨fs, pos, hI⟩ := hreaches.inv
  have hf := smallMapped_translate
  have hpage := (translate_congr_vpn (vpn_page 0)).trans hf
  rw [World.mem] at hf
  have hlate : ∀ n,
      ((smallMapped 0 0xB000).kernel.copyArgs d 4096 0 0x20000 1 (n + 1)).size = 0 := by
    refine EndsAtOnce.copyArgs_size ?_
    rw [Kernel.firstFrame_eq hf]
    cases d with
    | fromUser => exact .inl (by decide)
    | toUser => exact .inl (by decide)
  have hbuffer : 0x20000 ∉ (smallMapped 0 0xB000).Protected 4096 := by
    intro hx
    have hlt := (smallMapped_protected hx).2
    norm_num [pageSize] at hlt
  have hfirst : d.Stores ((smallMapped 0 0xB000).Writable smallBoot.frames) (smallMapped 0 0xB000)
      4096 (0 / BitVec.ofNat 64 pageSize * BitVec.ofNat 64 pageSize)
      (0 % BitVec.ofNat 64 pageSize) 0x20000 1 := by
    cases d with
    | fromUser => exact fun _ => smallWritable _ (by decide)
    | toUser =>
        intro _ f hf'
        obtain rfl : 0xB000 = f := Option.some.inj (hpage.symm.trans hf')
        exact smallWritable _ (by decide)
  refine h.pagesOpen hI smallBoot.initial smallBoot.lt hr ⟨smallMapped_apart, .inl fun n => ?_⟩
    (fun n => ?_) 0 (show (1 : BitVec 64) ≠ 0 by decide) 0xB000 hpage smallMapped_mem_protected
  · cases n with
    | zero => exact hfirst
    | succ n => exact fun hne => absurd (hlate n) hne
  · cases n with
    | zero => exact fun _ => hbuffer
    | succ n => exact fun hne => absurd (hlate n) hne

end SkinnyArm
