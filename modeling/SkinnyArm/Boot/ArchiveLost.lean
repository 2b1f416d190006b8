import SkinnyArm.Boot.Ramfs
import SkinnyArm.PageTree.EntryBits

/-!
What the boot sequence leaves of the archive.

* **No magic is left.** The frame at the archive's start is on the free list or a table
  (`KernelTable.not_page`).  A link starts with a zero byte, and in every word of a table bit 4 is
  clear (`Inv.getLsbD_entry`), which the first digit of the magic has set.
* `Image.archive_lost`: when `main` calls `enable_vmem` the archive is neither translated nor there.
  `init_ramfs` cannot read it at `RAMFS_START`, and would find nothing if it were mapped.
-/

namespace SkinnyArm

open ByteMemory Forest Newc

variable {frames fs : List ℕ} {w : World} {pos : Pos} {t r f n : ℕ} {pentry pa : BitVec 64}
  {kind : BitVec 8}

/-! ### The words of a table -/

/-- No macro sets bit 4. -/
lemma EntryMacro.getLsbD_four (m : EntryMacro) (a : BitVec 64) :
    (m.entry 0 a).getLsbD 4 = false := by
  have haddr : (setPhysicalAddr 0 a).getLsbD 4 = false := by
    rw [getLsbD_setPhysicalAddr (by norm_num), if_neg (by norm_num)]
    rfl
  rw [m.entry_eq]
  cases m with
  | pgdpud | pmd => exact (getLsbD_setFlags_of_notMem (by norm_num) (by decide)).trans haddr
  | kernel | device | user => exact getLsbD_setFlags_of_mem (by norm_num) (by decide) (by decide)

lemma exists_macro_explicit (h : explicitEntry kind pa = some pentry) :
    ∃ (m : EntryMacro) (a : BitVec 64), pentry = m.entry 0 a := by
  unfold explicitEntry at h
  split at h
  · cases h; exact ⟨.pgdpud, pa, rfl⟩
  · cases h; exact ⟨.device, pa, rfl⟩
  · cases h; exact ⟨.user, pa, rfl⟩
  · exact absurd h (by simp)

lemma exists_macro_allocated (h : allocatedEntry 3 kind f = some pentry) :
    ∃ (m : EntryMacro) (a : BitVec 64), pentry = m.entry 0 a := by
  simp only [allocatedEntry] at h
  split at h
  · cases h; exact ⟨.kernel, _, rfl⟩
  · cases h; exact ⟨.device, _, rfl⟩
  · cases h; exact ⟨.user, _, rfl⟩
  · exact absurd h (by simp)

/-- The word a call left for its page is made by one of the macros. -/
lemma Mapping.LeafWord.exists_macro {μ : Mapping} (h : μ.LeafWord f pentry) :
    ∃ (m : EntryMacro) (a : BitVec 64), pentry = m.entry 0 a := by
  unfold LeafWord at h
  split at h
  · exact exists_macro_allocated h
  · exact exists_macro_explicit h.1

/-- **The words of a table** have bit 4 clear. -/
lemma Inv.getLsbD_entry (hI : Inv frames w fs pos) {p : List (Fin 512)}
    (ht : pos t = some (r, p)) (hp : p.length ≤ 3) (i : Fin 512) :
    (entry w.mem t i).getLsbD 4 = false := by
  by_cases hset : IsSet (entry w.mem t i)
  · rcases Nat.lt_or_eq_of_le hp with hinner | hlast
    · obtain ⟨c, hc⟩ := hI.inner ht hinner hset
      rw [hc]
      exact EntryMacro.pgdpud.getLsbD_four _
    · -- the entry is the one a call on record left for its page
      obtain ⟨a, b, c, rfl⟩ := List.length_eq_three.mp hlast
      obtain ⟨va, hva⟩ := exists_path a b c i
      obtain ⟨hr, -, hwalk⟩ := hI.reached ht
      have hf : translate w.mem r va = some (frameOf (entry w.mem t i)) := by
        have hconcat : path va = [a, b, c] ++ [i] := hva
        rw [translate, hconcat, walk_concat, hwalk]
        exact edge_of_isSet hset
      obtain ⟨μ, hμ, rfl, hvpn⟩ := hI.recorded hr hf
      obtain ⟨-, -, t', f', htab, hleaf, -⟩ := hI.mapped μ hμ
      have hμva : path μ.va = [a, b, c, i] := (path_eq_iff.mpr hvpn).trans hva
      have htable : t' = t := by
        rw [tableAt, hμva] at htab
        exact Option.some.inj (htab.symm.trans hwalk)
      have hindex : lvlAddr μ.va 3 = i := by
        simp only [path, List.cons.injEq, and_true] at hμva
        exact hμva.2.2.2
      rw [htable, hindex] at hleaf
      obtain ⟨m, addr, hentry⟩ := hleaf.exists_macro
      rw [hentry]
      exact m.getLsbD_four addr
  · rw [hI.unset ht hp hset]
    rfl

/-- A frame that is not a data page does not start with a digit. -/
lemma Inv.getLsbD_first (hI : Inv frames w fs pos) (hf : f ∈ frames)
    (hpage : ∀ r p, pos f = some (r, p) → p.length ≠ 4) : (w.mem f).getLsbD 4 = false := by
  by_cases hfree : f ∈ fs
  · have hzero : w.mem f = 0 := hI.list.mem_eq_zero hfree
    rw [hzero]
    rfl
  · obtain ⟨⟨r, p⟩, hpos⟩ := Option.ne_none_iff_exists'.mp fun hnone =>
      hfree ((hI.free_iff f).mpr ⟨hf, hnone⟩)
    have hle := (hI.reached hpos).2.1
    have hne := hpage r p hpos
    have hword := hI.getLsbD_entry hpos (by omega) 0
    rw [← (setWidth_load64 : (w.mem.load64 f).setWidth 8 = w.mem f), BitVec.getLsbD_setWidth]
    simpa [entry] using hword

/-! ### The archive -/

/-- The bytes from the archive's physical address on. -/
def Kernel.archiveBytes (k : Kernel) (n : ℕ) : List (BitVec 8) :=
  (List.range n).map fun i => k.mem (archiveStart + i)

/-- The kernel's table maps no data page from the free list. -/
lemma KernelTable.not_page {b : Boot} {im : Image} {k : Kernel} {root : ℕ} {mapped : List Mapping}
    (h : KernelTable b im k root) (hI : Inv b.frames ⟨k, [root], mapped⟩ fs pos)
    (hlo : im.end.toNat ≤ f) (hhi : f < 0x3F000000) {p : List (Fin 512)}
    (hpos : pos f = some (r, p)) : p.length ≠ 4 := by
  intro hlen
  obtain ⟨hr, -, hwalk⟩ := hI.reached hpos
  obtain rfl : r = root := by simpa using hr
  obtain ⟨μ, -, -, rfl, -⟩ := hI.leaf hpos hlen
  obtain ⟨q, hq, hvpn⟩ := h.maps.only μ.va f hwalk
  have hself := h.maps.pages q hq
  rw [translate_congr_vpn hvpn] at hself
  have hfq : f = q.toNat := Option.some.inj (hwalk.symm.trans hself)
  have hrange := hq.2
  omega

/-- The archive does not start with a digit any more. -/
lemma KernelTable.getLsbD_archiveStart {b : Boot} {im : Image} {k : Kernel} {root : ℕ}
    (h : KernelTable b im k root) (hmem : archiveStart ∈ b.frames)
    (hle : im.end.toNat ≤ archiveStart) : (k.mem archiveStart).getLsbD 4 = false := by
  obtain ⟨rest, fs, pos, mapped, -, -, hI⟩ := h.inv
  have hlt : archiveStart < 0x3F000000 := by norm_num [archiveStart]
  have hpage : ∀ r p, pos archiveStart = some (r, p) → p.length ≠ 4 := fun r p hpos =>
    h.not_page hI hle hlt hpos
  exact hI.getLsbD_first hmem hpage

lemma byteAt_archiveBytes (k : Kernel) (n : ℕ) :
    byteAt (k.archiveBytes n) 0 = if n = 0 then 0 else k.mem archiveStart := by
  cases n with
  | zero => rfl
  | succ n =>
      rw [byteAt, Kernel.archiveBytes, List.range_succ_eq_map, List.map_cons, List.getD_cons_zero,
        Nat.add_zero, if_neg n.succ_ne_zero]

/-- A stream that starts with a byte whose bit 4 is clear is refused at once. -/
lemma initRamfs_of_getLsbD {s : List (BitVec 8)} (h : (byteAt s 0).getLsbD 4 = false) :
    initRamfs s = .failed .zero := by
  have hmagic : checkMagic s 0 = false := by
    by_contra hne
    have htrue : checkMagic s 0 = true := by simpa only [Bool.not_eq_false] using hne
    have hhead : (bytesAt s 0 6).head? = magic.head? :=
      congrArg List.head? (of_decide_eq_true htrue)
    have hbyte : byteAt s 0 = 0x30 := Option.some.inj hhead
    rw [hbyte] at h
    exact absurd h (by decide)
  rw [initRamfs, initRamfsLoop, hmagic]
  rfl

/-- **The archive is lost**: after every boot of an image below the archive, whatever the loader put
there, the table that `enable_vmem` gets does not translate the address at which `init_ramfs` reads
it; and on the bytes that are left in memory, however many, `init_ramfs` returns -1 with the tables
still zeroed. -/
theorem Image.archive_lost (im : Image) (m : ByteMemory) (h : im.end.toNat ≤ 0x8000000) :
    translate (im.booted m h).1.mem (im.booted m h).2 ramfsStart = none ∧
      ∀ n, initRamfs ((im.booted m h).1.archiveBytes n) = .failed .zero := by
  have htable := im.booted_table m h
  have hmem : archiveStart ∈ (im.boot m h).frames :=
    mem_initFrames_archiveStart (Nat.dvd_of_mod_eq_zero im.end_aligned) h
  refine ⟨htable.uncovered (a := archiveStart) h (by norm_num [archiveStart]), fun n => ?_⟩
  refine initRamfs_of_getLsbD ?_
  rw [byteAt_archiveBytes]
  split_ifs
  · rfl
  · exact htable.getLsbD_archiveStart hmem h

/-- The archive of no members is well formed, and is lost below the small image. -/
theorem Image.archive_lost_small :
    let k := smallImage.booted (loaded (archive [] trailer)).mem smallImage_le
    translate k.1.mem k.2 ramfsStart = none ∧
      ∀ n, initRamfs (k.1.archiveBytes n) = .failed .zero :=
  smallImage.archive_lost _ smallImage_le

end SkinnyArm
