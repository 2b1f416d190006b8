import SkinnyArm.UserCopy.Hidden

/-!
The calls of a copy, one after the other.

* `Kernel.copyArgs` are the arguments of a lookup and of the `strcpy` after it, and
  `Kernel.copyBefore` is the kernel and the calls on record before it.  What every call keeps the
  copy keeps (`Kernel.copyBefore_related`).
* `Copied` worlds are those a copy reaches: the old translations are kept, and a page mapped since
  is at a frame that was no data page before (`Copied.fresh`).
* `Found` are the results a lookup can have on the way (`World.CopyReaches.found`).
-/

namespace SkinnyArm

open ByteMemory Forest

variable {frames fs : List ℕ} {w W : World} {pos : Pos} {k k' : Kernel} {d : Direction}
  {root f g n x : ℕ} {va offset user buffer size : BitVec 64}

/-! ### Calls -/

/-- The arguments of a lookup and of the `strcpy` after it. -/
structure CopyArgs where
  va : BitVec 64
  offset : BitVec 64
  buffer : BitVec 64
  size : BitVec 64

/-- The byte the `strcpy` stores is part of no table and no free frame. -/
def CopyArgs.StoresApart (a : CopyArgs) (frames : List ℕ) (w : World) (d : Direction) (root : ℕ) :
    Prop := d.Stores (w.Writable frames) w root a.va a.offset a.buffer a.size

/-- The arguments of the `n`-th call. -/
def Kernel.copyArgs (k : Kernel) (d : Direction) (root : ℕ) (user buffer size : BitVec 64) :
    ℕ → CopyArgs
  | 0 => ⟨user / BitVec.ofNat 64 pageSize * BitVec.ofNat 64 pageSize,
      user % BitVec.ofNat 64 pageSize, buffer, size⟩
  | n + 1 =>
    let p := (CopyPos.start d (k.firstFrame root user) user buffer size).after n
    ⟨p.next.va, 0, p.next.buffer, p.size⟩

/-- A call, from a kernel and the calls on record. -/
def copyCall (d : Direction) (root : ℕ) (a : CopyArgs) (s : Kernel × List StrcpyCall) :
    Kernel × List StrcpyCall :=
  ((s.1.copyFrame d root a.va a.offset a.buffer a.size).1,
    (s.1.copyFrame d root a.va a.offset a.buffer a.size).2 :: s.2)

/-- The kernel and the calls on record before the `n`-th call. -/
def Kernel.copyBefore (k : Kernel) (d : Direction) (root : ℕ) (user buffer size : BitVec 64) :
    ℕ → Kernel × List StrcpyCall
  | 0 => (k, [])
  | n + 1 => ((k.copyUser d root user buffer size n).kernel,
      (k.copyUser d root user buffer size n).calls)

namespace Kernel

/-- The offset is within a page. -/
lemma copyArgs_offset (k : Kernel) (d : Direction) (root : ℕ) (user buffer size : BitVec 64)
    (n : ℕ) : (k.copyArgs d root user buffer size n).offset.toNat < pageSize := by
  cases n with
  | zero =>
      rw [copyArgs, toNat_mod_page]
      exact Nat.mod_lt _ (by norm_num [pageSize])
  | succ n =>
      show 0 < pageSize
      norm_num [pageSize]

/-- The arguments depend on the kernel by the first lookup only. -/
lemma copyArgs_congr (h : k'.firstFrame root user = k.firstFrame root user) (n : ℕ) :
    k'.copyArgs d root user buffer size n = k.copyArgs d root user buffer size n := by
  cases n with
  | zero => rfl
  | succ n => rw [copyArgs, copyArgs, h]

/-- Every round is a call, until the copy has ended. -/
lemma copyBefore_succ (n : ℕ) :
    k.copyBefore d root user buffer size (n + 1) =
      if n = 0 ∨ (k.copyArgs d root user buffer size n).size ≠ 0 then
        copyCall d root (k.copyArgs d root user buffer size n)
          (k.copyBefore d root user buffer size n)
      else k.copyBefore d root user buffer size n := by
  cases n with
  | zero =>
      rw [if_pos (.inl rfl)]
      rfl
  | succ n =>
      have hpos : (k.copyUser d root user buffer size n).toCopyPos =
          (CopyPos.start d (k.firstFrame root user) user buffer size).after n := by
        rw [copyUser_toCopyPos, copyStart_toCopyPos]
      rw [copyArgs, ← hpos, copyBefore, copyUser_succ]
      by_cases hmore : (k.copyUser d root user buffer size n).size ≠ 0
      · rw [if_pos hmore, if_pos (.inr hmore)]
        rfl
      · rw [if_neg hmore, if_neg fun h => hmore (h.resolve_left (Nat.succ_ne_zero n))]
        rfl

/-- A call that copies something is made. -/
lemma copyBefore_succ_of_ne (hne : (k.copyArgs d root user buffer size n).size ≠ 0) :
    k.copyBefore d root user buffer size (n + 1) =
      copyCall d root (k.copyArgs d root user buffer size n)
        (k.copyBefore d root user buffer size n) := by
  rw [copyBefore_succ, if_pos (.inr hne)]

/-- **What the calls of two copies keep** of each other, the copies keep. -/
lemma copyBefore_related {R : Kernel × List StrcpyCall → Kernel × List StrcpyCall → Prop}
    (hargs : ∀ j, k'.copyArgs d root user buffer size j = k.copyArgs d root user buffer size j)
    (h0 : R (k, []) (k', [])) (n : ℕ)
    (hstep : ∀ j < n, ∀ s', R (k.copyBefore d root user buffer size j) s' → R
      (copyCall d root (k.copyArgs d root user buffer size j)
        (k.copyBefore d root user buffer size j))
      (copyCall d root (k.copyArgs d root user buffer size j) s')) :
    R (k.copyBefore d root user buffer size n) (k'.copyBefore d root user buffer size n) := by
  induction n with
  | zero => exact h0
  | succ n ih =>
      have hbefore := ih fun j hj => hstep j (by omega)
      rw [copyBefore_succ, copyBefore_succ, hargs]
      split_ifs with hcall
      · exact hstep n (by omega) _ hbefore
      · exact hbefore

end Kernel

/-- The bytes stored and where, the last one first. -/
def stores (calls : List StrcpyCall) : List (BitVec 64 × BitVec 8) :=
  (calls.filter fun c => c.size ≠ 0).map fun c => (c.dst, c.byte)

lemma stores_cons_of_ne {c : StrcpyCall} (hne : c.size ≠ 0) (calls : List StrcpyCall) :
    stores (c :: calls) = (c.dst, c.byte) :: stores calls := by
  rw [stores, List.filter_cons_of_pos (by simpa using hne)]
  rfl

lemma stores_cons_of_eq {c : StrcpyCall} (h0 : c.size = 0) (calls : List StrcpyCall) :
    stores (c :: calls) = stores calls := by
  rw [stores, List.filter_cons_of_neg (by simpa using h0)]
  rfl

/-! ### The worlds a copy reaches -/

/-- A world reached from `w` by lookups of pages and by stores of bytes that may be written. -/
structure Copied (frames : List ℕ) (w W : World) : Prop where
  inv : ∃ fs pos, Inv frames W fs pos
  roots : W.roots = w.roots
  kept : ∀ r ∈ w.roots, ∀ va f, translate w.mem r va = some f → translate W.mem r va = some f
  old : w.mapped ⊆ W.mapped
  new : ∀ μ ∈ W.mapped, μ ∈ w.mapped ∨ μ.pa = 0

namespace Copied

lemma refl (hI : Inv frames w fs pos) : Copied frames w w :=
  ⟨⟨fs, pos, hI⟩, rfl, fun _ _ _ _ hf => hf, fun _ hμ => hμ, fun _ hμ => .inl hμ⟩

/-- Nothing happens to the translations. -/
lemma of_same (h : Copied frames w W)
    (hI : ∃ fs pos, Inv frames { W with kernel := k' } fs pos) (hsame : W.SameTranslations k'.mem) :
    Copied frames w { W with kernel := k' } where
  inv := hI
  roots := h.roots
  kept r hr va f hf := (hsame r (h.roots ▸ hr) va).trans (h.kept r hr va f hf)
  old := h.old
  new := h.new

/-- Bytes are stored that do no harm. -/
lemma of_stored (h : Copied frames w W) (hlt : ∀ f ∈ frames, f < 2 ^ 36)
    (hstored : Stored frames W k') : Copied frames w { W with kernel := k' } := by
  obtain ⟨fs', pos', hI'⟩ := h.inv
  obtain ⟨hI'', hsame⟩ := hI'.stored hlt hstored
  exact h.of_same ⟨_, _, hI''⟩ hsame

/-- Bytes that could be written before still can. -/
lemma writable (h : Copied frames w W) (hI : Inv frames w fs pos) (hx : w.Writable frames x) :
    W.Writable frames x := by
  intro f hf hxf
  obtain ⟨μ, hμ, h0, htr⟩ := hx f hf hxf
  exact ⟨μ, h.old hμ, h0, h.kept μ.root (hI.mapped μ hμ).1 μ.va f htr⟩

/-- **A page mapped since** is at a frame that was no data page before, and is one now. -/
lemma fresh (h : Copied frames w W) (hI : Inv frames w fs pos) (hlt : ∀ f ∈ frames, f < 2 ^ 36)
    (hr : root ∈ w.roots) (hg : translate W.mem root va = some g)
    (hnone : translate w.mem root va = none) :
    g ∈ frames ∧ W.IsLeafFrame g ∧ ¬ w.IsLeafFrame g := by
  obtain ⟨fs', pos', hI'⟩ := h.inv
  obtain ⟨μ, hμ, hμr, hvpn⟩ := hI'.recorded (h.roots.symm ▸ hr) hg
  obtain ⟨g', hg', hpos, -⟩ := hI'.translate_mapped hlt hμ
  rw [hμr, translate_congr_vpn hvpn, hg, Option.some.injEq] at hg'
  subst hg'
  have h0 : μ.pa = 0 := by
    refine (h.new μ hμ).resolve_left fun hold => ?_
    obtain ⟨f, hf, -⟩ := hI.translate_mapped hlt hold
    rw [hμr, translate_congr_vpn hvpn, hnone] at hf
    exact absurd hf (by simp)
  refine ⟨hI'.mem_frames (hpos h0), ⟨μ, hμ, h0, ?_⟩, ?_⟩
  · rw [hμr, translate_congr_vpn hvpn]
    exact hg
  · -- a data page of before has another place
    rintro ⟨ν, hν, hν0, htr⟩
    obtain ⟨g', hg', hpos', -⟩ := hI'.translate_mapped hlt (h.old hν)
    obtain rfl : g = g' :=
      Option.some.inj ((h.kept ν.root (hI.mapped ν hν).1 ν.va g htr).symm.trans hg')
    have hplace := (hpos h0).symm.trans (hpos' hν0)
    rw [Option.some.injEq, Prod.mk.injEq] at hplace
    have hsame : translate w.mem root va = translate w.mem ν.root ν.va := by
      rw [← translate_congr_vpn hvpn, ← hμr, hplace.1]
      exact translate_congr_vpn (path_eq_iff.mp hplace.2)
    exact absurd (hnone.symm.trans (hsame.trans htr)) (by simp)

/-- **A lookup** reaches another such world, and it returns `NULL` or what the page is translated
to then. -/
lemma lookup (h : Copied frames w W) (hfr : InitialFrames frames) (hlt : ∀ f ∈ frames, f < 2 ^ 36)
    (hr : root ∈ w.roots) (va : BitVec 64) :
    ∃ mapped', Copied frames w ⟨(W.kernel.getPhysicalPage root va 0 2).1, W.roots, mapped'⟩ ∧
      ((W.kernel.getPhysicalPage root va 0 2).2 = 0 ∨
        translate (W.kernel.getPhysicalPage root va 0 2).1.mem root va =
          some (W.kernel.getPhysicalPage root va 0 2).2) := by
  obtain ⟨fs', pos', hI'⟩ := h.inv
  have hl : Looked frames W fs' root va 0 2 3 _ _ :=
    hI'.looked hfr hlt (h.roots.symm ▸ hr) (by decide)
  generalize W.kernel.getPhysicalPage root va 0 2 = looked at hl ⊢
  obtain ⟨k', result⟩ := looked
  cases hl with
  | null hg _ _ =>
      exact ⟨W.mapped, h.of_same ⟨_, hg.inv⟩ hg.translate_eq, .inl rfl⟩
  | found hg hsome =>
      exact ⟨W.mapped, h.of_same ⟨_, hg.inv⟩ hg.translate_eq,
        .inr ((hg.translate_eq root (h.roots.symm ▸ hr) va).trans hsome)⟩
  | mapped hI'' _ hnone _ _ _ hself hother _ =>
      refine ⟨⟨root, va, 0, 2⟩ :: W.mapped, ⟨⟨_, _, hI''⟩, h.roots, fun r hr' va' f hf => ?_,
        fun μ hμ => List.mem_cons_of_mem _ (h.old hμ), fun μ hμ => ?_⟩, .inr hself⟩
      · have hbefore := h.kept r hr' va' f hf
        have hoff : ¬(r = root ∧ vpn va' = vpn va) := by
          rintro ⟨rfl, hvpn⟩
          rw [translate_congr_vpn hvpn, hnone] at hbefore
          exact absurd hbefore (by simp)
        exact (hother r (h.roots ▸ hr') (path va') (by rw [path_length])
          (not_prefix_path hoff)).trans hbefore
      · rcases List.mem_cons.mp hμ with rfl | hμ
        · exact .inr rfl
        · exact h.new μ hμ

end Copied

/-! ### What a call does -/

/-- What a lookup on the way can return: `NULL`, the frame of before, or one that was no data
page. -/
inductive Found (frames : List ℕ) (w : World) (root : ℕ) (va : BitVec 64) : ℕ → Prop
  | null : Found frames w root va 0
  | old {g : ℕ} (hg : translate w.mem root va = some g) : Found frames w root va g
  | new {g : ℕ} (hg : g ∈ frames) (hleaf : ¬ w.IsLeafFrame g) : Found frames w root va g

/-- A kernel of a world a copy reaches. -/
def World.CopyReaches (w : World) (frames : List ℕ) (k : Kernel) : Prop :=
  ∃ W, Copied frames w W ∧ W.kernel = k

/-- The first page is part of no frame. -/
lemma writable_of_lt (hfr : InitialFrames frames) (hx : x < pageSize) : w.Writable frames x := by
  intro f hf hxf
  have hpos : 0 < f := Nat.pos_of_ne_zero (hfr.ne_zero f hf)
  have hle : pageSize ≤ f := Nat.le_of_dvd hpos (hfr.aligned f hf)
  rw [Set.mem_Ico] at hxf
  omega

/-- A byte is stored that may be written. -/
lemma Copied.copyReaches (h : Copied frames w W) (hlt : ∀ f ∈ frames, f < 2 ^ 36) {src dst : ℕ}
    (hdst : size ≠ 0 → W.Writable frames dst) :
    w.CopyReaches frames ⟨strcpy W.mem src dst size.toNat, W.kernel.pageFrameLinkedList⟩ :=
  ⟨_, h.of_stored hlt (stored_strcpy (.refl frames W) fun hne => (hdst hne).storable), rfl⟩

/-- A copy starts from such a kernel. -/
lemma Inv.copyReaches (hI : Inv frames w fs pos) : w.CopyReaches frames w.kernel :=
  ⟨w, .refl hI, rfl⟩

section Call

variable {a : CopyArgs} {c : Kernel × List StrcpyCall} {s : Set ℕ} {m : ByteMemory}
  (hI : Inv frames w fs pos) (hfr : InitialFrames frames) (hlt : ∀ f ∈ frames, f < 2 ^ 36)
  (hr : root ∈ w.roots)
include hI hfr hlt hr

/-- **A call** returns one of the results a lookup can have. -/
lemma World.CopyReaches.found (h : w.CopyReaches frames c.1) (a : CopyArgs) (d : Direction) :
    Found frames w root a.va (c.1.copyFrame d root a.va a.offset a.buffer a.size).2.frame := by
  obtain ⟨W, hW, hk⟩ := h
  obtain ⟨mapped', hW', hresult⟩ := hW.lookup hfr hlt hr a.va
  rw [hk] at hW' hresult
  simp only [Kernel.copyFrame]
  rcases hresult with hnull | hg
  · rw [hnull]
    exact .null
  · cases hw : translate w.mem root a.va with
    | some f =>
        obtain rfl : f = _ := Option.some.inj ((hW'.kept root hr a.va f hw).symm.trans hg)
        exact .old hw
    | none =>
        obtain ⟨hmem, -, hfresh⟩ := hW'.fresh hI hlt hr hg hw
        exact .new hmem hfresh

/-- It reaches another such kernel. -/
lemma World.CopyReaches.call (h : w.CopyReaches frames c.1) (hoff : a.offset.toNat < pageSize)
    (hstore : a.StoresApart frames w d root) :
    w.CopyReaches frames (copyCall d root a c).1 := by
  obtain ⟨W, hW, hk⟩ := h
  obtain ⟨mapped', hW', hresult⟩ := hW.lookup hfr hlt hr a.va
  rw [hk] at hW' hresult
  simp only [copyCall, Kernel.copyFrame]
  generalize c.1.getPhysicalPage root a.va 0 2 = looked at hW' hresult ⊢
  obtain ⟨k', g⟩ := looked
  refine hW'.copyReaches hlt fun hne => ?_
  cases d with
  | fromUser => exact hW'.writable hI (hstore hne)
  | toUser =>
      show World.Writable _ frames (BitVec.ofNat 64 g + a.offset).toNat
      rcases hresult with rfl | hg
      · refine writable_of_lt hfr ?_
        rw [BitVec.zero_add]
        exact hoff
      · cases hw : translate w.mem root a.va with
        | some f =>
            obtain rfl : f = g :=
              Option.some.inj ((hW'.kept root hr a.va f hw).symm.trans hg)
            exact hW'.writable hI (hstore hne f hw)
        | none =>
            obtain ⟨hmem, hleaf, -⟩ := hW'.fresh hI hlt hr hg hw
            intro f hf hx
            have hin : (BitVec.ofNat 64 g + a.offset).toNat ∈ page g := by
              rw [toNat_ofNat_add (hlt g hmem) hoff, Set.mem_Ico]
              omega
            obtain rfl := eq_of_mem_page hfr hf hmem hx hin
            exact hleaf

/-- The other bytes that may be written stay. -/
lemma World.CopyReaches.call_kept (h : w.CopyReaches frames c.1) (hx : w.Writable frames x)
    (hdst : a.size ≠ 0 →
      (c.1.copyFrame d root a.va a.offset a.buffer a.size).2.dst.toNat ≠ x) :
    (copyCall d root a c).1.mem x = c.1.mem x := by
  obtain ⟨W, hW, hk⟩ := h
  obtain ⟨fs', pos', hI'⟩ := hW.inv
  have hlooked : (W.kernel.getPhysicalPage root a.va 0 2).1.mem x = W.mem x :=
    hI'.getPhysicalPage_data hfr hlt (hW.roots.symm ▸ hr) (by decide) (hW.writable hI hx)
  rw [World.mem, hk] at hlooked
  simp only [copyCall, Kernel.copyFrame] at hdst ⊢
  by_cases h0 : a.size = 0
  · rw [h0, show (0 : BitVec 64).toNat = 0 from rfl, strcpy_zero]
    exact hlooked
  · rw [strcpy_of_ne fun hxd => hdst h0 hxd.symm]
    exact hlooked

/-- Bytes that may be written do not matter if the byte that is copied is not one of them. -/
lemma World.CopyReaches.call_patch (h : w.CopyReaches frames c.1)
    (hs : ∀ x ∈ s, w.Writable frames x) (calls : List StrcpyCall)
    (hsrc : a.size ≠ 0 →
      (c.1.copyFrame d root a.va a.offset a.buffer a.size).2.src.toNat ∉ s) :
    (∃ m', (copyCall d root a (c.1.patch s m, calls)).1 = (copyCall d root a c).1.patch s m') ∧
      (a.size ≠ 0 → ((c.1.patch s m).copyFrame d root a.va a.offset a.buffer a.size).2 =
        (c.1.copyFrame d root a.va a.offset a.buffer a.size).2) := by
  obtain ⟨W, hW, hk⟩ := h
  obtain ⟨fs', pos', hI'⟩ := hW.inv
  have hlooked : (W.kernel.patch s m).getPhysicalPage root a.va 0 2 = _ :=
    hI'.getPhysicalPage_patch hfr hlt (hW.roots.symm ▸ hr) (by decide)
      fun x hx => hW.writable hI (hs x hx)
  rw [hk] at hlooked
  simp only [copyCall, Kernel.copyFrame, hlooked] at hsrc ⊢
  generalize c.1.getPhysicalPage root a.va 0 2 = looked at hsrc ⊢
  obtain ⟨k', g⟩ := looked
  by_cases h0 : a.size = 0
  · refine ⟨⟨m, ?_⟩, fun hne => absurd h0 hne⟩
    rw [h0, show (0 : BitVec 64).toNat = 0 from rfl, strcpy_zero, strcpy_zero]
  · have hpos : 0 < a.size.toNat := toNat_pos h0
    have hbyte : (k'.patch s m).mem (d.src (BitVec.ofNat 64 g + a.offset) a.buffer).toNat =
        k'.mem (d.src (BitVec.ofNat 64 g + a.offset) a.buffer).toNat :=
      Kernel.patch_mem_of_notMem (hsrc h0)
    refine ⟨⟨m.store8 (d.dst (BitVec.ofNat 64 g + a.offset) a.buffer).toNat
      (k'.mem (d.src (BitVec.ofNat 64 g + a.offset) a.buffer).toNat), ?_⟩, fun _ => by rw [hbyte]⟩
    rw [strcpy_eq _ _ _ _ hpos, strcpy_eq _ _ _ _ hpos, hbyte]
    exact Kernel.eq_of store8_patch rfl

/-! ### What a copy does -/

/-- The pointers into the frames a call can be for. -/
def CopyArgs.Points (a : CopyArgs) (frames : List ℕ) (w : World) (root : ℕ) (phys : BitVec 64) :
    Prop := ∃ g, Found frames w root a.va g ∧ phys = BitVec.ofNat 64 g + a.offset

/-- A copy reaches such kernels only. -/
lemma World.CopyReaches.copyBefore (hk : w.CopyReaches frames k)
    (hstores : ∀ j, (k.copyArgs d root user buffer size j).StoresApart frames w d root) (n : ℕ) :
    w.CopyReaches frames (k.copyBefore d root user buffer size n).1 :=
  Kernel.copyBefore_related (R := fun c _ => w.CopyReaches frames c.1) (fun _ => rfl) hk n
    fun j _ _ hc => hc.call hI hfr hlt hr (k.copyArgs_offset d root user buffer size j) (hstores j)

/-- **A byte that is not stored to** stays. -/
lemma copyBefore_kept
    (hreaches : ∀ j, w.CopyReaches frames (k.copyBefore d root user buffer size j).1)
    (hx : w.Writable frames x) (n : ℕ)
    (hdst : ∀ j < n, (k.copyArgs d root user buffer size j).size ≠ 0 → ∀ phys,
      (k.copyArgs d root user buffer size j).Points frames w root phys →
      (d.dst phys (k.copyArgs d root user buffer size j).buffer).toNat ≠ x) :
    (k.copyBefore d root user buffer size n).1.mem x = k.mem x := by
  refine Kernel.copyBefore_related (k := k) (R := fun c _ => c.1.mem x = k.mem x) (fun _ => rfl)
    rfl n fun j hj _ hkept => ?_
  refine ((hreaches j).call_kept hI hfr hlt hr hx fun hne => ?_).trans hkept
  exact hdst j hj hne _ ⟨_, (hreaches j).found hI hfr hlt hr _ d, rfl⟩

/-- The arguments do not depend on bytes that may be written. -/
lemma World.CopyReaches.copyArgs_patch (hk : w.CopyReaches frames k)
    (hs : ∀ x ∈ s, w.Writable frames x) (n : ℕ) :
    (k.patch s m).copyArgs d root user buffer size n = k.copyArgs d root user buffer size n := by
  obtain ⟨W, hW, rfl⟩ := hk
  obtain ⟨fs', pos', hI'⟩ := hW.inv
  refine Kernel.copyArgs_congr ?_ n
  rw [Kernel.firstFrame, hI'.getPhysicalPage_patch hfr hlt (hW.roots.symm ▸ hr) (by decide)
    fun x hx => hW.writable hI (hs x hx)]
  rfl

/-- **Two copies** from kernels that differ in bytes that may be written, none of which is copied,
store the same bytes. -/
lemma copyBefore_patch
    (hreaches : ∀ j, w.CopyReaches frames (k.copyBefore d root user buffer size j).1)
    (hs : ∀ x ∈ s, w.Writable frames x) (n : ℕ)
    (hsrc : ∀ j < n, (k.copyArgs d root user buffer size j).size ≠ 0 → ∀ phys,
      (k.copyArgs d root user buffer size j).Points frames w root phys →
      (d.src phys (k.copyArgs d root user buffer size j).buffer).toNat ∉ s) :
    (∃ m', ((k.patch s m).copyBefore d root user buffer size n).1 =
        (k.copyBefore d root user buffer size n).1.patch s m') ∧
      stores ((k.patch s m).copyBefore d root user buffer size n).2 =
        stores (k.copyBefore d root user buffer size n).2 := by
  have hk : w.CopyReaches frames k := hreaches 0
  refine Kernel.copyBefore_related
    (R := fun c c' => (∃ m', c'.1 = c.1.patch s m') ∧ stores c'.2 = stores c.2)
    (hk.copyArgs_patch hI hfr hlt hr hs) ⟨⟨m, rfl⟩, rfl⟩ n fun j hj c' hc => ?_
  obtain ⟨k', calls'⟩ := c'
  obtain ⟨⟨m', rfl⟩, hsame⟩ := hc
  obtain ⟨hpatch, hcall⟩ := (hreaches j).call_patch (m := m') hI hfr hlt hr hs calls' fun hne =>
    hsrc j hj hne _ ⟨_, (hreaches j).found hI hfr hlt hr _ d, rfl⟩
  refine ⟨hpatch, ?_⟩
  rcases eq_or_ne (k.copyArgs d root user buffer size j).size 0 with h0 | hne
  · calc stores (copyCall d root (k.copyArgs d root user buffer size j)
          ((k.copyBefore d root user buffer size j).1.patch s m', calls')).2
        = stores calls' := stores_cons_of_eq h0 calls'
      _ = stores (k.copyBefore d root user buffer size j).2 := hsame
      _ = stores (copyCall d root (k.copyArgs d root user buffer size j)
            (k.copyBefore d root user buffer size j)).2 := (stores_cons_of_eq h0 _).symm
  · simp only [copyCall, hcall hne]
    rw [stores_cons_of_ne hne, stores_cons_of_ne hne, hsame]

end Call

end SkinnyArm
