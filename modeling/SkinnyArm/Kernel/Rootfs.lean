import SkinnyArm.Kernel.Strings

/-!
`kernel/rootfs.c`: the tables of the ram file system, `init_ramfs`, which fills them from a newc
archive, and `read`.

* **The stream.** The bytes at `RAMFS_START`, as a list; positions are offsets from there, and
  every byte past the end reads as 0.
* **The tables.** `files` and `inodes` have 256 slots each, and a pointer into a table is the slot
  it points to.  The union of `children` and `ino` is `Link`.
* **A record.** `readEntry` is what `init_ramfs` reads of one record, `Ramfs.load` what it does
  with the tables.  A record is not always loaded: the walk to the last sibling may never end
  (`spins`), and `children` may be read out of a union that holds an inode pointer, which the
  code then dereferences as a `struct file` (`wild`); the model stops there.
-/

namespace SkinnyArm

open ByteMemory

/-! ### The stream -/

/-- A byte of the stream. -/
def byteAt (s : List (BitVec 8)) (a : ℕ) : BitVec 8 := s.getD a 0

lemma byteAt_of_length_le {s : List (BitVec 8)} {a : ℕ} (h : s.length ≤ a) : byteAt s a = 0 := by
  rw [byteAt, List.getD_eq_getElem?_getD, List.getElem?_eq_none h]
  rfl

/-- `n` bytes of the stream. -/
def bytesAt (s : List (BitVec 8)) (a n : ℕ) : List (BitVec 8) :=
  (List.range n).map fun i => byteAt s (a + i)

/-- `MAGIC`, `070701`. -/
def magic : List (BitVec 8) := [0x30, 0x37, 0x30, 0x37, 0x30, 0x31]

/-- `END`, `TRAILER!!!`. -/
def endName : List (BitVec 8) :=
  [0x54, 0x52, 0x41, 0x49, 0x4C, 0x45, 0x52, 0x21, 0x21, 0x21]

/-- `FILE_IDENT`, `81A4`. -/
def fileIdent : List (BitVec 8) := [0x38, 0x31, 0x41, 0x34]

/-- `DIR_IDENT`, `41ED`. -/
def dirIdent : List (BitVec 8) := [0x34, 0x31, 0x45, 0x44]

/-- `/`. -/
abbrev slash : BitVec 8 := 0x2F

/-- `enum FILETYPE`. -/
inductive FileType where
  | invalid | directory | regular
  deriving DecidableEq

/-- `int_from_char`: the digits and the letters `A` to `F`. -/
def intFromChar (c : BitVec 8) : ℤ :=
  if 0x30 ≤ c ∧ c ≤ 0x39 then c.toNat - 0x30
  else if 0x41 ≤ c ∧ c ≤ 0x46 then c.toNat - 0x37
  else -1

/-- The loop of `int_from_string`.  Its total stays far below `2 ^ 64` for the eight characters of
a field. -/
def intFromStringLoop (s : List (BitVec 8)) : ℕ → ℕ → ℤ → ℤ
  | 0, _, total => total
  | n + 1, a, total =>
      if intFromChar (byteAt s a) = -1 then -1
      else intFromStringLoop s n (a + 1) (total * 16 + intFromChar (byteAt s a))

/-- `int_from_string`. -/
def intFromString (s : List (BitVec 8)) (a size : ℕ) : ℤ :=
  if size = 0 then 0
  else if intFromChar (byteAt s a) = -1 then -1
  else intFromStringLoop s (size - 1) (a + 1) (intFromChar (byteAt s a))

/-- The loop of `int_from_string` on the unsigned words of the code: the total wraps, and -1 is
`2 ^ 64 - 1` there. -/
def intFromStringWordLoop (s : List (BitVec 8)) : ℕ → ℕ → BitVec 64 → BitVec 64
  | 0, _, total => total
  | n + 1, a, total =>
      let current := BitVec.ofInt 64 (intFromChar (byteAt s a))
      if current = -1#64 then current
      else intFromStringWordLoop s n (a + 1) (total * 16 + current)

/-- `int_from_string` on the unsigned words of the code, which are converted to `int64_t` at the
end. -/
def intFromStringWord (s : List (BitVec 8)) (a size : ℕ) : ℤ :=
  if size = 0 then 0
  else
    let total := BitVec.ofInt 64 (intFromChar (byteAt s a))
    if total = -1#64 then -1 else (intFromStringWordLoop s (size - 1) (a + 1) total).toInt

/-- `get_file_type`. -/
def getFileType (s : List (BitVec 8)) (a : ℕ) : FileType :=
  if bytesAt s a 4 = fileIdent then .regular
  else if bytesAt s a 4 = dirIdent then .directory
  else .invalid

/-- `check_magic` finds the magic. -/
def checkMagic (s : List (BitVec 8)) (a : ℕ) : Bool := bytesAt s a 6 = magic

/-- `check_end_archive` finds the trailer's name. -/
def checkEndArchive (s : List (BitVec 8)) (a : ℕ) : Bool := bytesAt s a 10 = endName

/-- A 16-byte name buffer. -/
abbrev Name := Fin 16 → BitVec 8

instance neZero_name : NeZero 16 := ⟨by decide⟩

/-- The bytes of a name buffer. -/
def Name.bytes (n : Name) : List (BitVec 8) := List.ofFn n

/-- The loop that parses a name: at `/` what was read so far becomes the parent's name. -/
def nameLoop (s : List (BitVec 8)) (a : ℕ) (index : Fin 16) (fileName parentName : Name) :
    Name × Name :=
  if byteAt s a = slash then
    nameLoop s (a + 1) 0 (fun _ => 0) (fun j => if j < index then fileName j else 0)
  else if byteAt s a = 0 then (Function.update fileName index 0, parentName)
  else nameLoop s (a + 1) (index + 1) (Function.update fileName index (byteAt s a)) parentName
termination_by s.length - a
decreasing_by
  all_goals
    have hlt : a < s.length := by
      by_contra hge
      have h0 := byteAt_of_length_le (not_lt.mp hge)
      simp_all
    omega

/-- The name and the parent's name that are parsed at a position. -/
def parseName (s : List (BitVec 8)) (a : ℕ) : Name × Name :=
  nameLoop s a 0 (fun _ => 0) (fun _ => 0)

/-- Both buffers: `current_file->file_name` and `parent_filename`. -/
abbrev Names := Name × Name

/-- Both buffers with a byte cleared. -/
def clearByte (b : Names) (j : Fin 16) : Names :=
  (Function.update b.1 j 0, Function.update b.2 j 0)

/-- Both buffers with a byte moved from the name to the parent's name. -/
def moveByte (b : Names) (j : Fin 16) : Names :=
  (Function.update b.1 j 0, Function.update b.2 j (b.1 j))

/-- The two loops at a `/`: the bytes before the index are moved and the others cleared. -/
def shiftNames (index : Fin 16) (b : Names) : Names :=
  ((List.finRange 16).drop index).foldl clearByte
    (((List.finRange 16).take index).foldl moveByte b)

/-- The name loop byte by byte, with the position where it stops. -/
def nameRounds (s : List (BitVec 8)) (a : ℕ) (index : Fin 16) (b : Names) : ℕ × Names :=
  if byteAt s a = slash then nameRounds s (a + 1) 0 (shiftNames index b)
  else if byteAt s a = 0 then (a, Function.update b.1 index 0, b.2)
  else nameRounds s (a + 1) (index + 1) (Function.update b.1 index (byteAt s a), b.2)
termination_by s.length - a
decreasing_by
  all_goals
    have hlt : a < s.length := by
      by_contra hge
      have h0 := byteAt_of_length_le (not_lt.mp hge)
      simp_all
    omega

/-- The name and the parent's name parsed into buffers that hold anything: they are cleared
first. -/
def parseNames (s : List (BitVec 8)) (a : ℕ) (b : Names) : ℕ × Names :=
  nameRounds s a 0 ((List.finRange 16).foldl clearByte b)

/-! ### A record -/

/-- What `init_ramfs` reads of one record. -/
structure Entry where
  fileType : FileType
  fileSize : ℤ
  deviceNr : BitVec 64
  inodeNr : BitVec 64
  name : Name
  parentName : Name
  data : ℕ

/-- Where the data of a record starts: after the header and the name, padded to four. -/
def dataStart (s : List (BitVec 8)) (fileStart : ℕ) : ℕ :=
  ((6 + 13 * 8 + intFromString s (fileStart + 94) 8 + 3).tdiv 4 * 4 + fileStart).toNat

/-- Where the next record starts: after the data, padded to four. -/
def nextStart (s : List (BitVec 8)) (fileStart : ℕ) : ℕ :=
  (dataStart s fileStart + (intFromString s (fileStart + 54) 8 + 3).tdiv 4 * 4).toNat

/-- The fields of a record: `c_ino` at 6, `c_mode` at 14, `c_filesize` at 54, `c_devminor` at 70,
`c_namesize` at 94 and the name at 110. -/
def readEntry (s : List (BitVec 8)) (fileStart : ℕ) : Entry where
  fileType := getFileType s (fileStart + 14 + 4)
  fileSize := intFromString s (fileStart + 54) 8
  deviceNr := load64 (byteAt s) (fileStart + 70)
  inodeNr := load64 (byteAt s) (fileStart + 6)
  name := (parseName s (fileStart + 110)).1
  parentName := (parseName s (fileStart + 110)).2
  data := dataStart s fileStart

/-! ### The tables -/

/-- An index into `files` or `inodes`, of `ROOTFS_FILE_COUNT` and `ROOTFS_INODE_COUNT` slots; the
`uint8_t` cursors wrap alike. -/
abbrev Slot := Fin 256

instance neZero_slots : NeZero 256 := ⟨by decide⟩

/-- The union of `children` and `ino`: `NULL`, a slot of `files` or a slot of `inodes`. -/
inductive Link where
  | null
  | file (i : Slot)
  | inode (i : Slot)
  deriving DecidableEq

/-- `struct file`. -/
structure File where
  fileName : Name
  parent : Option Slot
  type : FileType
  nextFile : Option Slot
  link : Link

/-- `struct inode`. -/
structure Inode where
  data : Option ℕ
  inodeNumber : BitVec 64
  deviceNumber : BitVec 64
  dataSize : BitVec 32

/-- The tables with the cursors of `init_ramfs`: `current_file` is `&files[findex]`, and
`currentIno` is the slot `current_ino` points to. -/
structure Ramfs where
  files : Slot → File
  inodes : Slot → Inode
  findex : Slot
  iindex : Slot
  currentIno : Slot

/-- Zeroed tables. -/
def Ramfs.zero : Ramfs where
  files := fun _ => ⟨fun _ => 0, none, .invalid, none, .null⟩
  inodes := fun _ => ⟨none, 0, 0, 0⟩
  findex := 0
  iindex := 0
  currentIno := 0

namespace Ramfs

variable (r : Ramfs)

/-- `*current_file`. -/
def currentFile : File := r.files r.findex

/-- The tables with one file changed. -/
def setFile (i : Slot) (f : File) : Ramfs := { r with files := Function.update r.files i f }

/-- The tables with one inode changed. -/
def setInode (i : Slot) (n : Inode) : Ramfs := { r with inodes := Function.update r.inodes i n }

/-- The first inode with the given numbers. -/
def findInode (deviceNr inodeNr : BitVec 64) : Option Slot :=
  (List.finRange 256).find? fun i =>
    (r.inodes i).deviceNumber = deviceNr ∧ (r.inodes i).inodeNumber = inodeNr

/-- The switch on the file type. -/
def setType (e : Entry) : Ramfs :=
  match e.fileType with
  | .directory => r.setFile r.findex { r.currentFile with type := .directory, link := .null }
  | .regular =>
      if e.fileSize = 0 then
        match r.findInode e.deviceNr e.inodeNr with
        | some i => r.setFile r.findex { r.currentFile with type := .regular, link := .inode i }
        | none => r.setFile r.findex { r.currentFile with type := .regular }
      else
        { (r.setInode r.currentIno
              { r.inodes r.currentIno with
                deviceNumber := e.deviceNr, inodeNumber := e.inodeNr }).setFile
            r.findex { r.currentFile with type := .regular } with
          iindex := r.iindex + 1
          currentIno := r.iindex + 1 }
  | .invalid => r.setFile r.findex { r.currentFile with type := .invalid }

/-- The name is stored and `next_file` set to `NULL`. -/
def setName (e : Entry) : Ramfs :=
  r.setFile r.findex { r.currentFile with fileName := e.name, nextFile := none }

/-- `search_file`: the first slot whose name `strequal`s the given one. -/
def searchFile (name : Name) : Option Slot :=
  (List.finRange 256).find? fun i => strequal (r.files i).fileName.bytes name.bytes = some true

/-- `search_file` on a name in an array of any length. -/
def searchFileBytes (name : List (BitVec 8)) : Option Slot :=
  (List.finRange 256).find? fun i => strequal (r.files i).fileName.bytes name = some true

/-- `read`, which takes what the search finds for a file with an inode; `none` is a `data_size` that
is read through `NULL` or out of a file. -/
def read (fileName : List (BitVec 8)) (offset : BitVec 32) : Option ℤ :=
  match r.searchFileBytes fileName with
  | none => some (-1)
  | some p =>
      match (r.files p).link with
      | .inode j => some (if (r.inodes j).dataSize < offset then -1 else 0)
      | .null | .file _ => none

/-- The walk to the last sibling, over at most as many slots as given. -/
def lastSibling : ℕ → Slot → Option Slot
  | 0, _ => none
  | n + 1, i =>
      match (r.files i).nextFile with
      | none => some i
      | some j => lastSibling n j

/-- What becomes of a record: the tables after it, an endless walk along the siblings, or a read of
an inode as a file. -/
inductive Loaded where
  | ok (r : Ramfs)
  | spins
  | wild

/-- The current file becomes the last child of a slot. -/
def addChild (p : Slot) : Loaded :=
  match (r.files p).link with
  | .null => .ok (r.setFile p { r.files p with link := .file r.findex })
  | .file c =>
      -- a walk over all 256 slots that has met no `NULL` goes round for ever
      match r.lastSibling 256 c with
      | some l => .ok (r.setFile l { r.files l with nextFile := some r.findex })
      | none => .spins
  | .inode _ => .wild

/-- The parent is searched, unless the path has none, and the current file added to its
children. -/
def saveParent (e : Entry) : Loaded :=
  if e.parentName 0 = 0 then .ok r
  else
    match r.searchFile e.parentName with
    | none => .ok (r.setFile r.findex { r.currentFile with parent := none })
    | some p => (r.setFile r.findex { r.currentFile with parent := some p }).addChild p

/-- The data of a regular file is recorded, in the slot after the one its numbers went to. -/
def setData (e : Entry) : Ramfs :=
  if 0 < e.fileSize ∧ e.fileType = .regular then
    let r₁ := r.setInode r.currentIno { r.inodes r.currentIno with data := some e.data }
    let r₂ := r₁.setFile r.findex { r.currentFile with link := .inode r.currentIno }
    let r₃ := { r₂ with currentIno := r.iindex, iindex := r.iindex + 1 }
    r₃.setInode r₃.currentIno
      { r₃.inodes r₃.currentIno with dataSize := BitVec.ofInt 32 e.fileSize }
  else r

/-- `current_file = &files[++findex]`. -/
def nextFileSlot : Ramfs := { r with findex := r.findex + 1 }

/-- One record loaded into the tables. -/
def load (e : Entry) : Loaded :=
  match ((r.setType e).setName e).saveParent e with
  | .ok r' => .ok (r'.setData e).nextFileSlot
  | .spins => .spins
  | .wild => .wild

end Ramfs

/-! ### `init_ramfs` -/

lemma intFromChar_ge (c : BitVec 8) : -1 ≤ intFromChar c := by
  rw [intFromChar]
  split_ifs with h h'
  · have hle : (0x30 : BitVec 8).toNat ≤ c.toNat := h.1
    have hval : (0x30 : BitVec 8).toNat = 0x30 := rfl
    omega
  · have hle : (0x41 : BitVec 8).toNat ≤ c.toNat := h'.1
    have hval : (0x41 : BitVec 8).toNat = 0x41 := rfl
    omega
  · exact le_rfl

lemma intFromStringLoop_ge (s : List (BitVec 8)) (n a : ℕ) (total : ℤ) (ht : 0 ≤ total) :
    -1 ≤ intFromStringLoop s n a total := by
  induction n generalizing a total with
  | zero => rw [intFromStringLoop]; omega
  | succ n ih =>
      rw [intFromStringLoop]
      split_ifs with h
      · exact le_rfl
      · have hge := intFromChar_ge (byteAt s a)
        exact ih (a + 1) _ (by omega)

lemma intFromString_eq_loop (s : List (BitVec 8)) (a size : ℕ) :
    intFromString s a size = intFromStringLoop s size a 0 := by
  cases size with
  | zero => rfl
  | succ n =>
      rw [intFromString, intFromStringLoop, if_neg n.succ_ne_zero, zero_mul, zero_add]
      rfl

/-- A size field is `-1` or a size. -/
lemma intFromString_ge (s : List (BitVec 8)) (a size : ℕ) : -1 ≤ intFromString s a size := by
  rw [intFromString_eq_loop]
  exact intFromStringLoop_ge s size a 0 le_rfl

/-- Where the division truncates, it rounds down. -/
lemma tdiv_four {x : ℤ} (hx : 0 ≤ x) : x.tdiv 4 = x / 4 := Int.tdiv_eq_ediv_of_nonneg hx

/-- **The cursor** grows by at least 112 bytes a record, whatever the size fields contain. -/
lemma nextStart_ge (s : List (BitVec 8)) (fileStart : ℕ) :
    fileStart + 112 ≤ dataStart s fileStart ∧ dataStart s fileStart ≤ nextStart s fileStart := by
  have hname := intFromString_ge s (fileStart + 94) 8
  have hsize := intFromString_ge s (fileStart + 54) 8
  rw [nextStart, dataStart, tdiv_four (by omega), tdiv_four (by omega)]
  omega

/-- A record with the magic starts inside the stream. -/
lemma lt_length_of_checkMagic {s : List (BitVec 8)} {a : ℕ} (h : checkMagic s a) :
    a < s.length := by
  by_contra hge
  have hhead : (bytesAt s a 6).head? = magic.head? := by rw [of_decide_eq_true h]
  have hsome : some (byteAt s a) = some (0x30 : BitVec 8) := hhead
  rw [byteAt_of_length_le (not_lt.mp hge)] at hsome
  exact absurd hsome (by decide)

/-- How `init_ramfs` ends: it returns 0 with `*bytestream_end` set, it returns -1, it walks for
ever, or it reads an inode as a file. -/
inductive Outcome where
  | done (bytestreamEnd : ℕ) (r : Ramfs)
  | failed (r : Ramfs)
  | spins
  | wild

/-- The main loop of `init_ramfs`. -/
def initRamfsLoop (s : List (BitVec 8)) (fileStart : ℕ) (r : Ramfs) : Outcome :=
  if checkMagic s fileStart then
    if checkEndArchive s (fileStart + 110) then .done (fileStart + 110) r
    else
      if (readEntry s fileStart).fileType = .invalid then
        .failed (r.setType (readEntry s fileStart))
      else
        match r.load (readEntry s fileStart) with
        | .ok r' => initRamfsLoop s (nextStart s fileStart) r'
        | .spins => .spins
        | .wild => .wild
  else .failed r
termination_by s.length - fileStart
decreasing_by
  have hlt := lt_length_of_checkMagic ‹_›
  have hge := nextStart_ge s fileStart
  omega

/-- `init_ramfs` on zeroed tables. -/
def initRamfs (s : List (BitVec 8)) : Outcome := initRamfsLoop s 0 .zero

end SkinnyArm
