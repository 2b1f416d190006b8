import SkinnyArm.Library.While
import SkinnyArm.Kernel.Entry
import SkinnyArm.Kernel.Kalloc
import SkinnyArm.Kernel.Strings

/-!
`kernel/vmem.c`: the page tables.

A `pagetable_t` is the address of a page of 512 entries.  The functions are the ones of the
source with their loops; a returned `NULL` is `0`.

* `get_physical_page` walks four levels, creating what is missing (`getPhysicalPageLevel` is the
  body of its loop).
* `map_region` has no return statement after its loop, so its result is `none` there.
* `free_page` and `free_pagetable` pass frame addresses to `kfree`, which reads a
  `struct PageFrame *` from them (`PageVar.at`).
* `clone_pagetable` passes its local `frame` to `kalloc` without ever giving it a value.
* `copy_from_user` and `copy_to_user` are one definition with the direction as a parameter.  Their
  loop need not end, so it is run for a number of rounds; a copy that returns before it has nothing
  left.
-/

namespace SkinnyArm

open ByteMemory

/-- `pagetable[i]`. -/
def entry (m : ByteMemory) (pagetable : ℕ) (i : Fin 512) : BitVec 64 :=
  m.load64 (pagetable + 8 * i)

/-- `pagetable[i] = pentry`. -/
def setEntry (m : ByteMemory) (pagetable : ℕ) (i : Fin 512) (pentry : BitVec 64) : ByteMemory :=
  m.store64 (pagetable + 8 * i) pentry

/-! ### `get_physical_page` -/

/-- The entry for an explicit physical address, by kind; the other kinds are refused. -/
def explicitEntry (kind : BitVec 8) (pa : BitVec 64) : Option (BitVec 64) :=
  match kind.toNat with
  | 0 => some (pgdpudEntry 0 pa)
  | 1 => some (deviceEntry 0 pa)
  | 2 => some (userEntry 0 pa)
  | _ => none

/-- The entry for a frame just allocated at level `i`. -/
def allocatedEntry (i : ℕ) (kind : BitVec 8) (frame : ℕ) : Option (BitVec 64) :=
  match i with
  | 0 | 1 => some (pgdpudEntry 0 (BitVec.ofNat 64 frame))
  | 2 => some (pmdEntry 0 (BitVec.ofNat 64 frame))
  | 3 =>
    match kind.toNat with
    | 0 => some (kernelEntry 0 (BitVec.ofNat 64 frame))
    | 1 => some (deviceEntry 0 (BitVec.ofNat 64 frame))
    | 2 => some (userEntry 0 (BitVec.ofNat 64 frame))
    | _ => none
  | _ => none

/-- How one round of the loop ends: with a `return`, or with the table of the next level. -/
inductive Round where
  | ret (frame : ℕ)
  | next (pagetable : ℕ)

/-- The loop body of `get_physical_page` at level `i`. -/
def getPhysicalPageLevel (k : Kernel) (pagetable : ℕ) (va pa : BitVec 64) (kind : BitVec 8)
    (i : ℕ) : Kernel × Round :=
  let idx := lvlAddr va i
  if ¬ IsSet (entry k.mem pagetable idx) then
    if i = 3 ∧ pa ≠ 0 then
      match explicitEntry kind pa with
      | none => (k, .ret 0)
      | some pentry => ({ k with mem := setEntry k.mem pagetable idx pentry }, .ret pa.toNat)
    else
      match k.kalloc with
      | none => (k, .ret 0)
      | some (frame, k') =>
        match allocatedEntry i kind frame with
        | none => (k'.kfree (.held frame), .ret 0)
        | some pentry =>
          let m := setEntry k'.mem pagetable idx pentry
          ({ k' with mem := m }, .next (frameOf (entry m pagetable idx)))
  else (k, .next (frameOf (entry k.mem pagetable idx)))

/-- The loop of `get_physical_page` over the remaining levels. -/
def getPhysicalPageFrom (va pa : BitVec 64) (kind : BitVec 8) : List ℕ → Kernel → ℕ → Kernel × ℕ
  | [], k, pagetable => (k, pagetable)
  | i :: is, k, pagetable =>
    match getPhysicalPageLevel k pagetable va pa kind i with
    | (k', .ret frame) => (k', frame)
    | (k', .next table) => getPhysicalPageFrom va pa kind is k' table

/-- `get_physical_page`. -/
def Kernel.getPhysicalPage (k : Kernel) (pagetable : ℕ) (va pa : BitVec 64) (kind : BitVec 8) :
    Kernel × ℕ :=
  getPhysicalPageFrom va pa kind [0, 1, 2, 3] k pagetable

/-- `map_page`. -/
def Kernel.mapPage (k : Kernel) (pagetable : ℕ) (va pa : BitVec 64) (kind : BitVec 8) :
    Kernel × ℤ :=
  let looked := k.getPhysicalPage pagetable va pa kind
  if looked.2 = 0 then (looked.1, -1) else (looked.1, 0)

/-! ### `free_page` -/

/-- The walk down of `free_page`: every presence check reads `levels[0]`, every step the table
of the level above; the result is `levels[i..4]`. -/
def freePageDown (m : ByteMemory) (pagetable : ℕ) (va : BitVec 64) :
    List ℕ → ℕ → Option (List ℕ)
  | [], _ => some []
  | i :: is, above =>
    let idx := lvlAddrPred va i
    if ¬ IsSet (entry m pagetable idx) then none
    else
      let level := frameOf (entry m above idx)
      (freePageDown m pagetable va is level).map (level :: ·)

/-- The walk up of `free_page` over pairs of a level and its table: clear the entry, stop at a
table with a set entry, else free the table. -/
def freePageUp (va : BitVec 64) : List (ℕ × ℕ) → Kernel → Kernel
  | [], k => k
  | (i, level) :: rest, k =>
    let m := setEntry k.mem level (lvlAddrSigned va i) 0
    if ∃ j, IsSet (entry m level j) then { k with mem := m }
    else freePageUp va rest (Kernel.kfree { k with mem := m } (.at level))

/-- `free_page`. -/
def Kernel.freePage (k : Kernel) (pagetable : ℕ) (va : BitVec 64) : Kernel :=
  match freePageDown k.mem pagetable va [1, 2, 3, 4] pagetable with
  | some [level₁, level₂, level₃, level₄] =>
    freePageUp va [(3, level₃), (2, level₂), (1, level₁), (0, pagetable)] (k.kfree (.at level₄))
  | _ => k

/-! ### Regions -/

/-- A page-aligned virtual address. -/
@[ext] structure PageVa where
  va : BitVec 64
  aligned : va.toNat % pageSize = 0

/-- The next page. -/
def PageVa.next (v : PageVa) : PageVa where
  va := v.va + BitVec.ofNat 64 pageSize
  aligned := by
    have h := v.aligned
    simp only [BitVec.toNat_add, BitVec.toNat_ofNat, pageSize] at *
    omega

/-- Below an aligned bound the next page is one page up. -/
lemma PageVa.toNat_next {v w : PageVa} (h : v.va < w.va) :
    v.next.va.toNat = v.va.toNat + pageSize ∧ v.va.toNat + pageSize ≤ w.va.toNat := by
  have hv := v.aligned
  have hw := w.aligned
  have hlt : v.va.toNat < w.va.toNat := h
  have hwlt := w.va.isLt
  simp only [PageVa.next, BitVec.toNat_add, BitVec.toNat_ofNat, pageSize] at *
  omega

/-- The pages left before an aligned bound, for termination. -/
lemma PageVa.next_lt {v w : PageVa} (h : v.va < w.va) :
    w.va.toNat - v.next.va.toNat < w.va.toNat - v.va.toNat := by
  obtain ⟨hnext, hle⟩ := PageVa.toNat_next h
  simp only [pageSize] at hnext hle
  omega

/-- `unmap_region` on page-aligned bounds. -/
def Kernel.unmapRegion (k : Kernel) (pagetable : ℕ) (vaStart vaEnd : PageVa) : Kernel :=
  if vaStart.va < vaEnd.va then
    (k.freePage pagetable vaStart.va).unmapRegion pagetable vaStart.next vaEnd
  else k
termination_by vaEnd.va.toNat - vaStart.va.toNat
decreasing_by exact PageVa.next_lt ‹_›

/-- The loop of `map_region`. -/
def mapRegionLoop (k : Kernel) (pagetable : ℕ) (vaStart vaEnd vaCurr : PageVa) (pa : BitVec 64)
    (kind : BitVec 8) : Kernel × Option ℤ :=
  if vaCurr.va < vaEnd.va then
    let mapped := k.mapPage pagetable vaCurr.va pa kind
    if mapped.2 = -1 then (mapped.1.unmapRegion pagetable vaStart vaCurr, some (-1))
    else
      mapRegionLoop mapped.1 pagetable vaStart vaEnd vaCurr.next (pa + BitVec.ofNat 64 pageSize)
        kind
  else (k, none)
termination_by vaEnd.va.toNat - vaCurr.va.toNat
decreasing_by exact PageVa.next_lt ‹_›

/-- `map_region`: `some (-1)` is a `return -1`, `none` the end of the function without a
`return`. -/
def Kernel.mapRegion (k : Kernel) (pagetable : ℕ) (vaStart paStart size : BitVec 64)
    (kind : BitVec 8) : Kernel × Option ℤ :=
  if h : vaStart.toNat % pageSize = 0 ∧ (vaStart + size).toNat % pageSize = 0 ∧
      paStart.toNat % pageSize = 0 then
    mapRegionLoop k pagetable ⟨vaStart, h.1⟩ ⟨vaStart + size, h.2.1⟩ ⟨vaStart, h.1⟩ paStart kind
  else (k, some (-1))

/-! ### `free_pagetable` -/

/-- The loops of `free_pagetable`, `depth` of them below a table: free what every set entry
points to, then the table.  At depth `0` the page itself is freed. -/
def freeLevels : ℕ → Kernel → ℕ → Kernel
  | 0, k, level => k.kfree (.at level)
  | depth + 1, k, level =>
    ((List.finRange 512).foldl (fun k i =>
      let below := frameOf (entry k.mem level i)
      if ¬ IsSet (entry k.mem level i) then k else freeLevels depth k below) k).kfree (.at level)

/-- `free_pagetable`. -/
def Kernel.freePagetable (k : Kernel) (pagetable : ℕ) : Kernel := freeLevels 4 k pagetable

/-! ### `make_kpagetable` -/

/-- `VKERN_START`. -/
def vkernStart : BitVec 64 := 0xffff000000000000

/-- `MMIO_BASE`. -/
def mmioBase : BitVec 64 := vkernStart + 0x3F000000

/-- `MMIO_END`. -/
def mmioEnd : BitVec 64 := vkernStart + 0x40000000

/-- `make_kpagetable` for an image from `_start` to `_end`. -/
def Kernel.makeKpagetable (k : Kernel) (start «end» : BitVec 64) : Kernel × ℕ :=
  match k.kalloc with
  | none => (k, 0)
  | some (pud, k₀) =>
    let vaStart := vkernStart + start
    let vaEnd := vkernStart + «end»
    let mmioMemory := mmioBase - vkernStart
    let image := k₀.mapRegion pud vaStart start (vaEnd - vaStart) 0
    if image.2 = some (-1) then (image.1, 0)
    else
      let mmio := image.1.mapRegion pud mmioBase mmioMemory (mmioEnd - mmioBase) 1
      if mmio.2 = some (-1) then (mmio.1, 0) else (mmio.1, pud)

/-! ### `clone_pagetable` -/

/-- How a part of `clone_pagetable` ends: undefined behaviour (a variable read before it was
given a value), a `return`, or going on. -/
inductive Clone where
  | undefined
  | ret (k : Kernel) (code : ℤ)
  | go (k : Kernel)

/-- A `for` loop over the entries of a table. -/
def Clone.loop (body : Kernel → Fin 512 → Clone) : List (Fin 512) → Kernel → Clone
  | [], k => .go k
  | i :: is, k =>
    match body k i with
    | .go k' => Clone.loop body is k'
    | outcome => outcome

/-- The `return 0` after the loops. -/
def Clone.finish : Clone → Clone
  | .go k => .ret k 0
  | outcome => outcome

/-- `kalloc(page)` for a `page` in memory: the frame is stored to `*page`. -/
def Kernel.kallocTo (k : Kernel) (addr : ℕ) : Option Kernel :=
  k.kalloc.map fun taken =>
    { taken.2 with mem := taken.2.mem.store64 addr (BitVec.ofNat 64 taken.1) }

/-- `tos[i]`, for the array `tos` at an address. -/
def tosAt (m : ByteMemory) (tos i : ℕ) : ℕ := (m.load64 (tos + 8 * i)).toNat

/-- One entry that is set: `kalloc(frame)`, and on failure `free_pagetable(to)`; `copy` is the
rest of the loop body. -/
def cloneEntry («to» : ℕ) (frame : Option ℕ) (k : Kernel) (copy : Kernel → ℕ → Clone) : Clone :=
  match frame with
  | none => .undefined
  | some frame =>
    match k.kallocTo frame with
    | none => .ret (k.freePagetable «to») (-1)
    | some k' => copy k' frame

/-- The innermost loop, over the entries of `tos[3]`. -/
def cloneLeaves («to» tos : ℕ) (frame : Option ℕ) (k : Kernel) : Clone :=
  Clone.loop (fun k l =>
    let pentry := entry k.mem (tosAt k.mem tos 3) l
    if ¬ IsSet pentry then .go k
    else cloneEntry «to» frame k fun k frame =>
      let m := setEntry k.mem (tosAt k.mem tos 3) l (pgdpudEntry 0 (BitVec.ofNat 64 frame))
      let m := m.store64 (tos + 8 * 4) (BitVec.ofNat 64 frame)
      .go { k with mem := strcpy m (frameOf pentry) (tosAt m tos 4) pageSize })
    (List.finRange 512) k

/-- The loop over the entries of `froms[level]`, with `depth` loops inside it. -/
def cloneTables («to» tos : ℕ) (frame : Option ℕ) : ℕ → ℕ → Kernel → ℕ → Clone
  | 0, _, k, _ => cloneLeaves «to» tos frame k
  | depth + 1, level, k, «from» =>
    Clone.loop (fun k i =>
      let pentry := entry k.mem «from» i
      if ¬ IsSet pentry then .go k
      else cloneEntry «to» frame k fun k frame' =>
        let m := strcpy k.mem (frameOf pentry) (tosAt k.mem tos (level + 1)) pageSize
        let m := setEntry m (tosAt m tos level) i (pgdpudEntry 0 (BitVec.ofNat 64 frame'))
        let m := m.store64 (tos + 8 * (level + 1)) (BitVec.ofNat 64 frame')
        cloneTables «to» tos frame depth (level + 1) { k with mem := m } (frameOf pentry))
      (List.finRange 512) k

/-- `clone_pagetable`, with its local array `tos` at an address.  The local `frame` has no value
when it is passed to `kalloc`. -/
def Kernel.clonePagetable (k : Kernel) («from» «to» tos : ℕ) : Clone :=
  let m := k.mem.store64 tos (BitVec.ofNat 64 tos)
  let m := strcpy m «from» (tosAt m tos 0) pageSize
  (cloneTables «to» tos none 3 0 { k with mem := m } «from»).finish

/-! ### `copy_from_user` and `copy_to_user` -/

/-- The direction of a copy. -/
inductive Direction where
  | fromUser
  | toUser

/-- What a copy reads, of a pointer into a frame of the user and one into the kernel's buffer. -/
def Direction.src : Direction → BitVec 64 → BitVec 64 → BitVec 64
  | fromUser, phys, _ => phys
  | toUser, _, buffer => buffer

/-- What a copy writes. -/
def Direction.dst : Direction → BitVec 64 → BitVec 64 → BitVec 64
  | fromUser, _, buffer => buffer
  | toUser, phys, _ => phys

/-- A call `strcpy(src, dst, size)`: the frame just looked up, the pointer into it, the arguments,
and the byte `strcpy` finds at `src`. -/
structure StrcpyCall where
  frame : ℕ
  phys : BitVec 64
  src : BitVec 64
  dst : BitVec 64
  size : BitVec 64
  byte : BitVec 8

/-- The locals of a copy at the head of its loop; `buffer` is the pointer into the kernel's
buffer. -/
structure CopyPos where
  va : BitVec 64
  buffer : BitVec 64
  size : BitVec 64

/-- A copy at the head of its loop, with the calls of `strcpy` made, the last one first. -/
structure CopyState extends CopyPos where
  kernel : Kernel
  calls : List StrcpyCall

/-- The locals after a round; `va` is a `uint64_t *`. -/
def CopyPos.next (p : CopyPos) : CopyPos where
  va := p.va + BitVec.ofNat 64 (8 * pageSize)
  buffer := p.buffer + p.size
  size := p.size - BitVec.ofNat 64 pageSize

/-- The test for an early return; `from` is the source in both functions. -/
def ReturnsEarly («from» size : BitVec 64) : Prop :=
  «from» % BitVec.ofNat 64 pageSize + size < BitVec.ofNat 64 pageSize

instance («from» size : BitVec 64) : Decidable (ReturnsEarly «from» size) :=
  inferInstanceAs (Decidable (_ < _))

/-- `get_physical_page(user_pgtb, va, 0, 2)` and the `strcpy` between `offset` in the frame and the
buffer. -/
def Kernel.copyFrame (k : Kernel) (d : Direction) (userPgtb : ℕ)
    (va offset buffer size : BitVec 64) : Kernel × StrcpyCall :=
  let looked := k.getPhysicalPage userPgtb va 0 2
  let phys := BitVec.ofNat 64 looked.2 + offset
  let src := d.src phys buffer
  let dst := d.dst phys buffer
  ({ looked.1 with mem := strcpy looked.1.mem src.toNat dst.toNat size.toNat },
    ⟨looked.2, phys, src, dst, size, looked.1.mem src.toNat⟩)

/-- A copy up to its loop; `user` is the user's address. -/
def Kernel.copyStart (k : Kernel) (d : Direction) (userPgtb : ℕ) (user buffer size : BitVec 64) :
    CopyState :=
  let va := user / BitVec.ofNat 64 pageSize * BitVec.ofNat 64 pageSize
  let copied := k.copyFrame d userPgtb va (user % BitVec.ofNat 64 pageSize) buffer size
  { va := va
    buffer := buffer
    size := if ReturnsEarly copied.2.src size then 0
      else size - BitVec.ofNat 64 pageSize + copied.2.phys
    kernel := copied.1
    calls := [copied.2] }

/-- A round of the loop. -/
def CopyState.round (d : Direction) (userPgtb : ℕ) (s : CopyState) : CopyState :=
  let pos := s.toCopyPos.next
  let copied := s.kernel.copyFrame d userPgtb pos.va 0 pos.buffer s.size
  { toCopyPos := pos
    kernel := copied.1
    calls := copied.2 :: s.calls }

/-- A copy with at most so many rounds of its loop. -/
def Kernel.copyUser (k : Kernel) (d : Direction) (userPgtb : ℕ) (user buffer size : BitVec 64)
    (rounds : ℕ) : CopyState :=
  whileLoop (fun s : CopyState => s.size ≠ 0) (CopyState.round d userPgtb) rounds
    (k.copyStart d userPgtb user buffer size)

/-- `copy_from_user`. -/
def Kernel.copyFromUser (k : Kernel) (userPgtb : ℕ) («from» «to» size : BitVec 64)
    (rounds : ℕ) : CopyState :=
  k.copyUser .fromUser userPgtb «from» «to» size rounds

/-- `copy_to_user`. -/
def Kernel.copyToUser (k : Kernel) (userPgtb : ℕ) («from» «to» size : BitVec 64)
    (rounds : ℕ) : CopyState :=
  k.copyUser .toUser userPgtb «to» «from» size rounds

end SkinnyArm
