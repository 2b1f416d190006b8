import SkinnyArm.UserCopy.Rounds

/-!
How long the loops of `copy_from_user` and `copy_to_user` run, and how much they copy at once.

* `Bounded` is what should hold of the rounds: there are few, what is left to copy never wraps below
  zero, and no copy runs past the frame just looked up.
* **When it does** (`copyUser_bounded_iff`): what is left after the first page is the address of the
  first byte too much, so the range has to stay within one page, and the loop must not be entered
  or have exactly one page left.
-/

namespace SkinnyArm

open ByteMemory Forest

variable {k : Kernel} {d : Direction} {root f g n : ℕ} {user buffer size : BitVec 64}

/-- The rounds of a copy are bounded, and so are the lengths. -/
structure Bounded (k : Kernel) (d : Direction) (root : ℕ) (user buffer size : BitVec 64) :
    Prop where
  ends : ∃ n ≤ size.toNat / pageSize + 1, (k.copyUser d root user buffer size n).size = 0
  start : ∀ c ∈ (k.copyUser d root user buffer size 0).calls, ¬ ReturnsEarly c.src size →
    pageSize ≤ size.toNat + c.phys.toNat
  rounds : ∀ n, (k.copyUser d root user buffer size n).size ≠ 0 →
    pageSize ≤ (k.copyUser d root user buffer size n).size.toNat
  lengths : ∀ n, ∀ c ∈ (k.copyUser d root user buffer size n).calls,
    c.phys.toNat + c.size.toNat ≤ c.frame + pageSize

/-- The range ends in the page it begins in, and what is left then is nothing or one page. -/
def FitsPage (m : ByteMemory) (d : Direction) (root : ℕ) (user buffer size : BitVec 64) : Prop :=
  ∃ f, translate m root user = some f ∧ user.toNat % pageSize + size.toNat ≤ pageSize ∧
    (ReturnsEarly (d.src (framePtr f user) buffer) size ∨
      f + user.toNat % pageSize + size.toNat = pageSize ∨
      f + user.toNat % pageSize + size.toNat = 2 * pageSize)

/-! ### Copies that are bounded -/

/-- A copy that ends after the first page. -/
lemma bounded_of_start (hg : k.firstFrame root user = g)
    (h0 : (CopyPos.start d g user buffer size).size = 0)
    (hstart : ¬ ReturnsEarly (d.src (framePtr g user) buffer) size →
      pageSize ≤ size.toNat + (framePtr g user).toNat)
    (hlength : (framePtr g user).toNat + size.toNat ≤ g + pageSize) :
    Bounded k d root user buffer size := by
  subst hg
  obtain ⟨byte, hcalls⟩ := k.copyStart_calls d root user buffer size
  have hsize : (k.copyStart d root user buffer size).size = 0 := h0
  have hall : ∀ n, k.copyUser d root user buffer size n = k.copyStart d root user buffer size :=
    Kernel.copyUser_of_size_zero hsize
  refine ⟨⟨0, Nat.zero_le _, hsize⟩, fun c hc => ?_, fun n hmore => ?_, fun n c hc => ?_⟩
  · rw [hall, hcalls, List.mem_singleton] at hc
    rw [hc]
    exact hstart
  · rw [hall] at hmore
    exact absurd hsize hmore
  · rw [hall, hcalls, List.mem_singleton] at hc
    rw [hc]
    exact hlength

/-- A copy that ends after one more page. -/
lemma bounded_of_round (hg : k.firstFrame root user = g)
    (h1 : (CopyPos.start d g user buffer size).size = BitVec.ofNat 64 pageSize)
    (hstart : pageSize ≤ size.toNat + (framePtr g user).toNat)
    (hlength : (framePtr g user).toNat + size.toNat ≤ g + pageSize) :
    Bounded k d root user buffer size := by
  subst hg
  obtain ⟨byte, hcalls⟩ := k.copyStart_calls d root user buffer size
  have hsize : (k.copyStart d root user buffer size).size = BitVec.ofNat 64 pageSize := h1
  obtain ⟨g', hg', byte', hcalls'⟩ :=
    CopyState.round_calls d root (k.copyStart d root user buffer size)
  have hmore : (k.copyStart d root user buffer size).size ≠ 0 := by
    rw [hsize]
    decide
  have hone : k.copyUser d root user buffer size 1 =
      (k.copyStart d root user buffer size).round d root := by
    rw [Kernel.copyUser_succ, Kernel.copyUser_zero, if_pos hmore]
  have hend : ((k.copyStart d root user buffer size).round d root).size = 0 := by
    show (k.copyStart d root user buffer size).size - BitVec.ofNat 64 pageSize = 0
    rw [hsize]
    exact BitVec.sub_self _
  have hall : ∀ n, k.copyUser d root user buffer size (n + 1) =
      (k.copyStart d root user buffer size).round d root := by
    intro n
    induction n with
    | zero => exact hone
    | succ n ih => rw [Kernel.copyUser_succ, ih, if_neg (not_not.mpr hend)]
  refine ⟨⟨1, Nat.le_add_left 1 _, by rw [hone]; exact hend⟩, fun c hc _ => ?_, fun n hn => ?_,
    fun n c hc => ?_⟩
  · rw [Kernel.copyUser_zero, hcalls, List.mem_singleton] at hc
    rw [hc]
    exact hstart
  · cases n with
    | zero =>
        rw [Kernel.copyUser_zero, hsize]
        exact le_refl pageSize
    | succ n =>
        rw [hall] at hn
        exact absurd hend hn
  · have hfirst : ∀ c ∈ (k.copyStart d root user buffer size).calls,
        c.phys.toNat + c.size.toNat ≤ c.frame + pageSize := by
      intro c hc
      rw [hcalls, List.mem_singleton] at hc
      rw [hc]
      exact hlength
    cases n with
    | zero => exact hfirst c hc
    | succ n =>
        rw [hall, hcalls'] at hc
        rcases List.mem_cons.mp hc with rfl | hc
        · rw [hsize, BitVec.toNat_ofNat]
          show g' % 2 ^ 64 + pageSize ≤ g' + pageSize
          omega
        · exact hfirst c hc

/-- A range that fits its page is copied in bounds. -/
lemma FitsPage.bounded (h : FitsPage k.mem d root user buffer size) :
    Bounded k d root user buffer size := by
  obtain ⟨f, hf, hfits, hcases⟩ := h
  have hlt := translate_lt hf
  have hg := Kernel.firstFrame_eq (k := k) hf
  have hlength : (framePtr f user).toNat + size.toNat ≤ f + pageSize := by
    rw [toNat_framePtr hlt]
    omega
  by_cases hearly : ReturnsEarly (d.src (framePtr f user) buffer) size
  · exact bounded_of_start hg (if_pos hearly) (fun hlate => absurd hearly hlate) hlength
  have hsize := CopyPos.toNat_start_size hearly
  rw [toNat_framePtr hlt] at hsize
  have hsum := hcases.resolve_left hearly
  have hstart : pageSize ≤ size.toNat + (framePtr f user).toNat := by
    rw [toNat_framePtr hlt]
    omega
  rcases hsum with hsum | hsum
  · refine bounded_of_start hg (BitVec.eq_of_toNat_eq ?_) (fun _ => hstart) hlength
    rw [hsize]
    show _ % 2 ^ 64 = 0
    simp only [pageSize] at *
    omega
  · refine bounded_of_round hg (BitVec.eq_of_toNat_eq ?_) hstart hlength
    rw [hsize]
    show _ % 2 ^ 64 = pageSize
    simp only [pageSize] at *
    omega

/-- Nothing to copy. -/
lemma bounded_of_size_zero : Bounded k d root user buffer 0 := by
  have hlt := k.firstFrame_lt root user
  have hearly := returnsEarly_zero (d.src (framePtr (k.firstFrame root user) user) buffer)
  refine bounded_of_start rfl (if_pos hearly) (fun hlate => absurd hearly hlate) ?_
  rw [toNat_framePtr hlt]
  have hmod : user.toNat % pageSize < pageSize := Nat.mod_lt _ (by norm_num [pageSize])
  show _ + 0 ≤ _
  omega

/-! ### No others -/

/-- The first page of a bounded copy. -/
lemma Bounded.fitsPage (h : Bounded k d root user buffer size)
    (hf : translate k.mem root user = some f) : FitsPage k.mem d root user buffer size := by
  have hlt := translate_lt hf
  have hg := Kernel.firstFrame_eq (k := k) hf
  obtain ⟨byte, hcalls⟩ := k.copyStart_calls d root user buffer size
  rw [hg] at hcalls
  have hlength := h.lengths 0 _ (by rw [Kernel.copyUser_zero, hcalls]; exact List.mem_cons_self)
  have hstart := h.start _ (by rw [Kernel.copyUser_zero, hcalls]; exact List.mem_cons_self)
  simp only [toNat_framePtr hlt] at hlength hstart
  refine ⟨f, hf, by omega, ?_⟩
  by_cases hearly : ReturnsEarly (d.src (framePtr f user) buffer) size
  · exact .inl hearly
  have hle := hstart hearly
  have hsize : (k.copyStart d root user buffer size).size.toNat =
      (size.toNat + (2 ^ 64 - pageSize) + (f + user.toNat % pageSize)) % 2 ^ 64 := by
    rw [Kernel.copyStart_toCopyPos, hg, CopyPos.toNat_start_size hearly, toNat_framePtr hlt]
  by_cases h0 : (k.copyStart d root user buffer size).size = 0
  · rw [h0] at hsize
    refine .inr (.inl ?_)
    simp only [pageSize] at *
    change 0 = _ at hsize
    omega
  · -- the second page begins at its frame, so no more than a page may be left
    have hrounds := h.rounds 0 h0
    obtain ⟨g', hg', byte', hcalls'⟩ :=
      CopyState.round_calls d root (k.copyStart d root user buffer size)
    have hone : k.copyUser d root user buffer size 1 =
        (k.copyStart d root user buffer size).round d root := by
      rw [Kernel.copyUser_succ, Kernel.copyUser_zero, if_pos h0]
    have hlength' := h.lengths 1 _ (by rw [hone, hcalls']; exact List.mem_cons_self)
    rw [Kernel.copyUser_zero] at hrounds
    simp only [BitVec.toNat_ofNat] at hlength'
    refine .inr (.inr ?_)
    simp only [pageSize] at *
    omega

/-- **The rounds and lengths of a copy** over pages that are translated are bounded exactly if there
is nothing to copy or the range fits its page. -/
theorem copyUser_bounded_iff (w : World) (d : Direction) (root : ℕ) (user buffer size : BitVec 64)
    (hrange : RangeTranslated w root user size) :
    Bounded w.kernel d root user buffer size ↔
      size = 0 ∨ FitsPage w.mem d root user buffer size := by
  refine ⟨fun h => ?_, fun h => ?_⟩
  · by_cases h0 : size = 0
    · exact .inl h0
    · obtain ⟨f, hf⟩ := hrange.first h0
      exact .inr (h.fitsPage hf)
  · rcases h with rfl | hfits
    · exact bounded_of_size_zero
    · exact hfits.bounded

/-! ### Copies in the small world -/

/-- One byte is copied in bounds. -/
theorem copyUser_bounded_byte :
    Bounded (smallMapped 0 0xB000).kernel .fromUser 4096 0 0x20000 1 := by
  have hf := smallMapped_translate
  exact (copyUser_bounded_iff (smallMapped 0 0xB000) .fromUser 4096 0 0x20000 1
    (rangeTranslated_of_page hf (by decide))).mpr (.inr ⟨0xB000, hf, by decide, .inl (by decide)⟩)

/-- A copy of a whole page is not in bounds, in either direction. -/
theorem copyUser_bounded_fails :
    smallBoot.Reaches (smallMapped 0 0xB000) ∧ 4096 ∈ (smallMapped 0 0xB000).roots ∧
      RangeTranslated (smallMapped 0 0xB000) 4096 0 0x1000 ∧
      ∀ d, ¬ Bounded (smallMapped 0 0xB000).kernel d 4096 0 0x20000 0x1000 := by
  have hf := smallMapped_translate
  refine ⟨smallMapped_reaches 0 smallPage_lt, smallMapped_root 0 0xB000,
    rangeTranslated_of_page hf (by decide), fun d h => ?_⟩
  rw [World.mem] at hf
  obtain ⟨f, hf', -, hcases⟩ := h.fitsPage hf
  obtain rfl : 0xB000 = f := Option.some.inj (hf.symm.trans hf')
  rcases hcases with hearly | hsum | hsum
  · cases d with
    | fromUser => exact absurd hearly (by decide)
    | toUser => exact absurd hearly (by decide)
  · exact absurd hsum (by decide)
  · exact absurd hsum (by decide)

end SkinnyArm
