import SkinnyArm.PageTree.Walk
import SkinnyArm.Library.Transition
import SkinnyArm.Allocator.Run

/-!
Page trees built by `get_physical_page` over one allocator, and the invariant of their frames.

* `World` is the kernel together with the roots taken from `kalloc` and the calls that mapped a
  page; `World.Step` takes a root, calls `get_physical_page`, or writes to memory that is
  neither a table nor a free frame.
* `Inv` gives every frame its place: on the free list, or named by `pos` with the root and the
  path it is reached by.  Tables stand at depth at most `3`, leaf frames taken from `kalloc` at
  depth `4`.
* `Inv.attachFrame` and `Inv.attachAddress` are the only two ways the trees grow, by a frame
  from `kalloc` and by an explicit physical address.
-/

namespace SkinnyArm

open ByteMemory Forest

/-- A call of `get_physical_page` that mapped a page. -/
structure Mapping where
  root : ℕ
  va : BitVec 64
  pa : BitVec 64
  kind : BitVec 8

/-- The kernel, the roots taken from `kalloc`, and the calls that mapped a page. -/
structure World where
  kernel : Kernel
  roots : List ℕ
  mapped : List Mapping

namespace World

/-- The memory of a world. -/
abbrev mem (w : World) : ByteMemory := w.kernel.mem

/-- A call of `get_physical_page`, recorded when it maps a page. -/
def call (w : World) (root : ℕ) (va pa : BitVec 64) (kind : BitVec 8) : World :=
  let looked := w.kernel.getPhysicalPage root va pa kind
  { w with
    kernel := looked.1
    mapped := if translate w.mem root va = none ∧ looked.2 ≠ 0 then
      ⟨root, va, pa, kind⟩ :: w.mapped else w.mapped }

/-- A call puts at most itself on record. -/
lemma mem_mapped_call {w : World} {root : ℕ} {va pa : BitVec 64} {kind : BitVec 8} {μ : Mapping}
    (h : μ ∈ (w.call root va pa kind).mapped) : μ = ⟨root, va, pa, kind⟩ ∨ μ ∈ w.mapped := by
  have hmapped : (w.call root va pa kind).mapped =
      if translate w.mem root va = none ∧ (w.kernel.getPhysicalPage root va pa kind).2 ≠ 0 then
        ⟨root, va, pa, kind⟩ :: w.mapped else w.mapped := rfl
  rw [hmapped] at h
  split_ifs at h
  · exact List.mem_cons.mp h
  · exact .inr h

/-- What was on record stays on record. -/
lemma mem_mapped_of_call {w : World} {root : ℕ} {va pa : BitVec 64} {kind : BitVec 8} {μ : Mapping}
    (h : μ ∈ w.mapped) : μ ∈ (w.call root va pa kind).mapped := by
  simp only [World.call]
  split_ifs
  · exact List.mem_cons_of_mem _ h
  · exact h

/-- Every page of every root is translated as before. -/
def SameTranslations (w : World) (m' : ByteMemory) : Prop :=
  ∀ r ∈ w.roots, ∀ va, translate m' r va = translate w.mem r va

/-- A frame handed out as a data page. -/
def IsLeafFrame (w : World) (f : ℕ) : Prop :=
  ∃ μ ∈ w.mapped, μ.pa = 0 ∧ translate w.mem μ.root μ.va = some f

/-- The steps over the given frames: a new root, a call of `get_physical_page` for any address
and kind, and a write to a data page or outside the frames. -/
inductive Step (frames : List ℕ) : World → World → Prop
  | newRoot {w : World} {f : ℕ} {k' : Kernel} (h : w.kernel.kalloc = some (f, k')) :
      Step frames w { w with kernel := k', roots := f :: w.roots }
  | call {w : World} {root : ℕ} (va pa : BitVec 64) (kind : BitVec 8) (hr : root ∈ w.roots)
      (hpa : pa.toNat < 2 ^ 36) : Step frames w (w.call root va pa kind)
  | write {w : World} (a : ℕ) (v : BitVec 8)
      (ha : ∀ f ∈ frames, a ∈ page f → w.IsLeafFrame f) :
      Step frames w { w with kernel := { w.kernel with mem := w.mem.store8 a v } }

end World

/-- The allocator's frames at the start: its free list, below the addresses an entry can hold. -/
structure Boot where
  kernel : Kernel
  frames : List ℕ
  list : FreeList kernel frames
  lt : ∀ f ∈ frames, f < 2 ^ 36

/-- The world before any root is taken. -/
def Boot.world (b : Boot) : World := ⟨b.kernel, [], []⟩

/-- The worlds a run reaches. -/
def Boot.Reaches (b : Boot) (w : World) : Prop := Run (World.Step b.frames) b.world w

lemma Boot.initial (b : Boot) : InitialFrames b.frames := b.list.initialFrames

/-- The word a recorded call left in its leaf entry, and the frame it stands for. -/
def Mapping.LeafWord (μ : Mapping) (f : ℕ) (pentry : BitVec 64) : Prop :=
  if μ.pa = 0 then allocatedEntry 3 μ.kind f = some pentry
  else explicitEntry μ.kind μ.pa = some pentry ∧ f = μ.pa.toNat

/-- The place of a node: its root and its path. -/
abbrev Pos := ℕ → Option (ℕ × List (Fin 512))

/-- **The invariant**: every frame has one place, and the tables hold what the calls put
there. -/
structure Inv (frames : List ℕ) (w : World) (fs : List ℕ) (pos : Pos) : Prop where
  list : FreeList w.kernel fs
  free_iff : ∀ f, f ∈ fs ↔ f ∈ frames ∧ pos f = none
  mem_frames : ∀ {f x}, pos f = some x → f ∈ frames
  planted : Planted (edge w.mem) 3 {r | r ∈ w.roots} pos
  reached : ∀ {f r p}, pos f = some (r, p) →
    r ∈ w.roots ∧ p.length ≤ 4 ∧ walk (edge w.mem) r p = some f
  leaf : ∀ {f r p}, pos f = some (r, p) → p.length = 4 →
    ∃ μ ∈ w.mapped, μ.root = r ∧ path μ.va = p ∧ μ.pa = 0
  mapped : ∀ μ ∈ w.mapped, μ.root ∈ w.roots ∧ μ.pa.toNat < 2 ^ 36 ∧
    ∃ t f, tableAt w.mem μ.root μ.va 3 = some t ∧
      μ.LeafWord f (entry w.mem t (lvlAddr μ.va 3)) ∧
      (μ.pa = 0 → pos f = some (μ.root, path μ.va))
  recorded : ∀ {r va f}, r ∈ w.roots → translate w.mem r va = some f →
    ∃ μ ∈ w.mapped, μ.root = r ∧ vpn μ.va = vpn va
  once : ∀ μ ∈ w.mapped, ∀ ν ∈ w.mapped, μ.root = ν.root → vpn μ.va = vpn ν.va → μ = ν
  unset : ∀ {t r p i}, pos t = some (r, p) → p.length ≤ 3 → ¬ IsSet (entry w.mem t i) →
    entry w.mem t i = 0
  inner : ∀ {t r p i}, pos t = some (r, p) → p.length < 3 → IsSet (entry w.mem t i) →
    ∃ f, entry w.mem t i = pgdpudEntry 0 (BitVec.ofNat 64 f)
  nodup : w.roots.Nodup

/-! ### Entries and what they hold -/

lemma explicitEntry_holds {kind : BitVec 8} {pa pentry : BitVec 64}
    (h : explicitEntry kind pa = some pentry) : Holds pentry pa := by
  unfold explicitEntry at h
  split at h
  · cases h; exact holds_pgdpudEntry
  · cases h; exact holds_deviceEntry
  · cases h; exact holds_userEntry
  · exact absurd h (by simp)

lemma allocatedEntry_holds {i f : ℕ} {kind : BitVec 8} {pentry : BitVec 64}
    (h : allocatedEntry i kind f = some pentry) : Holds pentry (BitVec.ofNat 64 f) := by
  unfold allocatedEntry at h
  split at h
  · cases h; exact holds_pgdpudEntry
  · cases h; exact holds_pgdpudEntry
  · cases h; exact holds_pmdEntry
  · split at h
    · cases h; exact holds_kernelEntry
    · cases h; exact holds_deviceEntry
    · cases h; exact holds_userEntry
    · exact absurd h (by simp)
  · exact absurd h (by simp)

/-- An allocated frame below `2^36` is the address its entry holds. -/
lemma allocatedEntry_frame {i f : ℕ} {kind : BitVec 8} {pentry : BitVec 64}
    (h : allocatedEntry i kind f = some pentry) (hf : f < 2 ^ 36) :
    IsSet pentry ∧ frameOf pentry = f := by
  have hh := allocatedEntry_holds h
  refine ⟨hh.isSet, ?_⟩
  rw [hh.frame, BitVec.toNat_ofNat, Nat.mod_mod_of_dvd _ (by norm_num), Nat.mod_eq_of_lt hf]

lemma explicitEntry_frame {kind : BitVec 8} {pa pentry : BitVec 64}
    (h : explicitEntry kind pa = some pentry) (hpa : pa.toNat < 2 ^ 36) :
    IsSet pentry ∧ frameOf pentry = pa.toNat := by
  have hh := explicitEntry_holds h
  exact ⟨hh.isSet, by rw [hh.frame, Nat.mod_eq_of_lt hpa]⟩

lemma Mapping.LeafWord.isSet {μ : Mapping} {f : ℕ} {pentry : BitVec 64}
    (h : μ.LeafWord f pentry) : IsSet pentry := by
  unfold LeafWord at h
  split at h
  · exact (allocatedEntry_holds h).isSet
  · exact (explicitEntry_holds h.1).isSet

/-- A leaf word is set and holds its frame. -/
lemma Mapping.LeafWord.frame {μ : Mapping} {f : ℕ} {pentry : BitVec 64} (h : μ.LeafWord f pentry)
    (hpa : μ.pa.toNat < 2 ^ 36) (hf : μ.pa = 0 → f < 2 ^ 36) :
    IsSet pentry ∧ frameOf pentry = f := by
  unfold LeafWord at h
  split at h
  · rename_i h0
    exact allocatedEntry_frame h (hf h0)
  · obtain ⟨he, rfl⟩ := h
    exact explicitEntry_frame he hpa

end SkinnyArm
