import Mathlib.Data.List.Basic
import Mathlib.Tactic

/-!
The newc archive format: members one behind the other, each a header of a magic and thirteen
eight-digit fields, the path terminated by NUL, and the data, name and data padded to four.

* **Numbers.** `value` is the number an eight-digit field stands for, in either case of letters;
  the digits are those of base 16 (`valueFrom_eq_ofDigits`), and a field with a lower-case digit
  stands for at least ten (`le_value_of_isLower`).  `digits` writes
  a number in upper case, and `value` reads it back (`value_digits`).
* **Members.** `Member.encode` writes one; `Member.WellFormed` says that the fields have their
  length and the two sizes are those of name and data.  `plainMember` fills in all that is not
  given.
-/

namespace Newc

/-! ### Numbers -/

/-- `0` to `9`. -/
def IsDecimal (c : BitVec 8) : Prop := 0x30 ≤ c ∧ c ≤ 0x39

/-- `A` to `F`. -/
def IsUpper (c : BitVec 8) : Prop := 0x41 ≤ c ∧ c ≤ 0x46

/-- `a` to `f`. -/
def IsLower (c : BitVec 8) : Prop := 0x61 ≤ c ∧ c ≤ 0x66

instance : DecidablePred IsDecimal := fun _ => inferInstanceAs (Decidable (_ ∧ _))

instance : DecidablePred IsUpper := fun _ => inferInstanceAs (Decidable (_ ∧ _))

instance : DecidablePred IsLower := fun _ => inferInstanceAs (Decidable (_ ∧ _))

/-- The value of a hexadecimal digit. -/
def digit (c : BitVec 8) : Option ℕ :=
  if IsDecimal c then some (c.toNat - 0x30)
  else if IsUpper c then some (c.toNat - 0x37)
  else if IsLower c then some (c.toNat - 0x57)
  else none

/-- The value of a string of digits behind a number. -/
def valueFrom : ℕ → List (BitVec 8) → Option ℕ
  | v, [] => some v
  | v, c :: l => (digit c).bind fun d => valueFrom (v * 16 + d) l

/-- The value of a string of digits, most significant first. -/
def value (l : List (BitVec 8)) : Option ℕ := valueFrom 0 l

/-- A field in decimal digits and upper-case letters. -/
def IsUpperField (l : List (BitVec 8)) : Prop := ∀ c ∈ l, IsDecimal c ∨ IsUpper c

instance : DecidablePred IsUpperField := fun _ => inferInstanceAs (Decidable (∀ _ ∈ _, _))

lemma digit_isSome {c : BitVec 8} : (digit c).isSome ↔ IsDecimal c ∨ IsUpper c ∨ IsLower c := by
  rw [digit]
  split_ifs with hd hu hl
  · simp [hd]
  · simp [hu]
  · simp [hl]
  · simp [hd, hu, hl]

lemma le_valueFrom {v w : ℕ} {l : List (BitVec 8)} (h : valueFrom v l = some w) : v ≤ w := by
  induction l generalizing v with
  | nil => exact (Option.some.inj h).le
  | cons c l ih =>
      obtain ⟨d, -, hrest⟩ := Option.bind_eq_some_iff.mp h
      have hle := ih hrest
      omega

/-- Every character of a number is a digit. -/
lemma digit_of_mem {v w : ℕ} {l : List (BitVec 8)} (h : valueFrom v l = some w) {c : BitVec 8}
    (hc : c ∈ l) : ∃ d, digit c = some d ∧ d ≤ w := by
  induction l generalizing v with
  | nil => exact absurd hc List.not_mem_nil
  | cons c' l ih =>
      obtain ⟨d, hd, hrest⟩ := Option.bind_eq_some_iff.mp h
      rcases List.mem_cons.mp hc with rfl | hc'
      · have hle := le_valueFrom hrest
        exact ⟨d, hd, by omega⟩
      · exact ih hrest hc'

/-- A lower-case digit counts at least ten. -/
lemma le_value_of_isLower {w : ℕ} {l : List (BitVec 8)} (h : value l = some w) {c : BitVec 8}
    (hc : c ∈ l) (hlower : ¬ (IsDecimal c ∨ IsUpper c)) : 10 ≤ w := by
  obtain ⟨d, hd, hle⟩ := digit_of_mem h hc
  have hl : IsLower c :=
    ((digit_isSome.mp (by simp [hd])).resolve_left fun h => hlower (.inl h)).resolve_left
      fun h => hlower (.inr h)
  rw [digit, if_neg fun h => hlower (.inl h), if_neg fun h => hlower (.inr h), if_pos hl] at hd
  have hval : (0x61 : BitVec 8).toNat ≤ c.toNat := hl.1
  have hnum : (0x61 : BitVec 8).toNat = 0x61 := rfl
  have heq := Option.some.inj hd
  omega

lemma digit_lt {c : BitVec 8} {d : ℕ} (h : digit c = some d) : d < 16 := by
  rw [digit] at h
  split_ifs at h with hd hu hl
  · have hle : c.toNat ≤ (0x39 : BitVec 8).toNat := hd.2
    have hnum : (0x39 : BitVec 8).toNat = 0x39 := rfl
    have heq := Option.some.inj h
    omega
  · have hle : c.toNat ≤ (0x46 : BitVec 8).toNat := hu.2
    have hnum : (0x46 : BitVec 8).toNat = 0x46 := rfl
    have heq := Option.some.inj h
    omega
  · have hle : c.toNat ≤ (0x66 : BitVec 8).toNat := hl.2
    have hnum : (0x66 : BitVec 8).toNat = 0x66 := rfl
    have heq := Option.some.inj h
    omega

lemma valueFrom_lt {v w : ℕ} {l : List (BitVec 8)} (h : valueFrom v l = some w) :
    w < (v + 1) * 16 ^ l.length := by
  induction l generalizing v with
  | nil =>
      have heq := Option.some.inj h
      simp
      omega
  | cons c l ih =>
      obtain ⟨d, hd, hrest⟩ := Option.bind_eq_some_iff.mp h
      have hdigit := digit_lt hd
      calc w < (v * 16 + d + 1) * 16 ^ l.length := ih hrest
        _ ≤ (v + 1) * 16 * 16 ^ l.length := Nat.mul_le_mul_right _ (by omega)
        _ = (v + 1) * 16 ^ (c :: l).length := by rw [List.length_cons, pow_succ]; ring

/-- A field of eight digits is below `2 ^ 32`. -/
lemma value_lt {w : ℕ} {l : List (BitVec 8)} (h : value l = some w) (hl : l.length = 8) :
    w < 2 ^ 32 := by
  have hlt := valueFrom_lt h
  rw [hl] at hlt
  omega

lemma valueFrom_append (v : ℕ) (l l' : List (BitVec 8)) :
    valueFrom v (l ++ l') = (valueFrom v l).bind fun w => valueFrom w l' := by
  induction l generalizing v with
  | nil => rfl
  | cons c l ih =>
      rw [List.cons_append, valueFrom, valueFrom]
      cases digit c with
      | none => rfl
      | some d => exact ih _

/-- The value of a digit, or 0. -/
def digitValue (c : BitVec 8) : ℕ := (digit c).getD 0

/-- The value of a string of digits is the one of its digits in base 16, the last of them least. -/
lemma valueFrom_eq_ofDigits {l : List (BitVec 8)} (v : ℕ) (h : ∀ c ∈ l, (digit c).isSome) :
    valueFrom v l = some (v * 16 ^ l.length + Nat.ofDigits 16 (l.reverse.map digitValue)) := by
  induction l generalizing v with
  | nil => simp [valueFrom]
  | cons c l ih =>
      obtain ⟨d, hd⟩ := Option.isSome_iff_exists.mp (h c List.mem_cons_self)
      have hvalue : digitValue c = d := by rw [digitValue, hd, Option.getD_some]
      rw [valueFrom, hd, Option.bind_some, ih _ fun c' hc' => h c' (List.mem_cons_of_mem c hc'),
        List.reverse_cons, List.map_append, Nat.ofDigits_append, List.length_map,
        List.length_reverse, List.map_singleton, Nat.ofDigits_singleton, hvalue, List.length_cons,
        pow_succ]
      congr 1
      ring

/-- The character of a digit, upper case. -/
def digitChar (d : ℕ) : BitVec 8 := BitVec.ofNat 8 (if d < 10 then 0x30 + d else 0x37 + d)

/-- The last digits of a number, as many as given, most significant first. -/
def digits : ℕ → ℕ → List (BitVec 8)
  | 0, _ => []
  | k + 1, n => digits k (n / 16) ++ [digitChar (n % 16)]

lemma digit_digitChar : ∀ d < 16, digit (digitChar d) = some d := by decide

lemma digitChar_upper : ∀ d < 16, IsDecimal (digitChar d) ∨ IsUpper (digitChar d) := by decide

@[simp] lemma length_digits (k n : ℕ) : (digits k n).length = k := by
  induction k generalizing n with
  | zero => rfl
  | succ k ih => rw [digits, List.length_append, ih, List.length_singleton]

lemma isUpperField_digits (k n : ℕ) : IsUpperField (digits k n) := by
  induction k generalizing n with
  | zero => exact fun c hc => absurd hc List.not_mem_nil
  | succ k ih =>
      intro c hc
      rcases List.mem_append.mp hc with hc | hc
      · exact ih (n / 16) c hc
      · rw [List.mem_singleton.mp hc]
        exact digitChar_upper (n % 16) (Nat.mod_lt n (by norm_num))

/-- A number that fits is read back from its digits. -/
lemma value_digits {k n : ℕ} (h : n < 16 ^ k) : value (digits k n) = some n := by
  induction k generalizing n with
  | zero =>
      obtain rfl : n = 0 := by simpa using h
      rfl
  | succ k ih =>
      have hdiv : n / 16 < 16 ^ k := by
        rw [pow_succ] at h
        omega
      have hrest : valueFrom 0 (digits k (n / 16)) = some (n / 16) := ih hdiv
      rw [value, digits, valueFrom_append, hrest, Option.bind_some, valueFrom,
        digit_digitChar (n % 16) (Nat.mod_lt n (by norm_num)), Option.bind_some, valueFrom]
      congr 1
      omega

/-! ### Members -/

/-- `/`. -/
def separator : BitVec 8 := 0x2F

/-- The components of a path. -/
def components (name : List (BitVec 8)) : List (List (BitVec 8)) := name.splitOn separator

lemma components_ne_nil (name : List (BitVec 8)) : components name ≠ [] :=
  List.splitOn_ne_nil separator name

lemma intercalate_components (name : List (BitVec 8)) :
    [separator].intercalate (components name) = name :=
  List.intercalate_splitOn separator

lemma components_intercalate {path : List (List (BitVec 8))} (hpath : path ≠ [])
    (hclean : ∀ c ∈ path, separator ∉ c) : components ([separator].intercalate path) = path :=
  List.splitOn_intercalate separator hclean hpath

/-- No component has a separator in it, and all its characters are the path's. -/
lemma mem_components {name c : List (BitVec 8)} (hc : c ∈ components name) :
    separator ∉ c ∧ ∀ b ∈ c, b ∈ name := by
  induction name generalizing c with
  | nil =>
      rw [components, List.splitOn_nil, List.mem_singleton] at hc
      simp [hc]
  | cons b name ih =>
      rw [components, List.splitOn_cons_eq_if_modifyHead] at hc
      split_ifs at hc with hb
      · rcases List.mem_cons.mp hc with rfl | hc'
        · simp
        · exact ⟨(ih hc').1, fun d hd => List.mem_cons_of_mem b ((ih hc').2 d hd)⟩
      · cases hsplit : name.splitOn separator with
        | nil => exact absurd hsplit (components_ne_nil name)
        | cons d ds =>
            rw [hsplit, List.modifyHead_cons] at hc
            have hhead := ih (c := d) (by rw [components, hsplit]; exact List.mem_cons_self)
            rcases List.mem_cons.mp hc with rfl | hc'
            · have hne : separator ≠ b := fun heq => hb (by simp [heq])
              refine ⟨List.not_mem_cons_of_ne_of_not_mem hne hhead.1, fun x hx => ?_⟩
              rcases List.mem_cons.mp hx with rfl | hx'
              · exact List.mem_cons_self
              · exact List.mem_cons_of_mem b (hhead.2 x hx')
            · have htail := ih (c := c) (by
                rw [components, hsplit]
                exact List.mem_cons_of_mem d hc')
              exact ⟨htail.1, fun x hx => List.mem_cons_of_mem b (htail.2 x hx)⟩

/-- What stands in a path stands in one of its components, or separates two. -/
lemma mem_intercalate {path : List (List (BitVec 8))} {b : BitVec 8}
    (h : b ∈ [separator].intercalate path) : b = separator ∨ ∃ c ∈ path, b ∈ c := by
  induction path with
  | nil => exact absurd h (by simp [List.intercalate])
  | cons c path ih =>
      cases path with
      | nil => exact .inr ⟨c, List.mem_cons_self, by simpa using h⟩
      | cons d path =>
          have hjoin : [separator].intercalate (c :: d :: path) =
              c ++ separator :: [separator].intercalate (d :: path) := by
            simp [List.intercalate]
          rw [hjoin] at h
          rcases List.mem_append.mp h with hc | hrest
          · exact .inr ⟨c, List.mem_cons_self, hc⟩
          · rcases List.mem_cons.mp hrest with rfl | hmem
            · exact .inl rfl
            · rcases ih hmem with hsep | ⟨c', hc', hb⟩
              · exact .inl hsep
              · exact .inr ⟨c', List.mem_cons_of_mem c hc', hb⟩

/-- One member: the header's fields, the components of the path, and the data. -/
structure Member where
  ino : List (BitVec 8)
  mode : List (BitVec 8)
  uid : List (BitVec 8)
  gid : List (BitVec 8)
  nlink : List (BitVec 8)
  mtime : List (BitVec 8)
  filesize : List (BitVec 8)
  devMajor : List (BitVec 8)
  devMinor : List (BitVec 8)
  rdevMajor : List (BitVec 8)
  rdevMinor : List (BitVec 8)
  namesize : List (BitVec 8)
  check : List (BitVec 8)
  path : List (List (BitVec 8))
  data : List (BitVec 8)
  deriving DecidableEq

/-- Zeros up to the next multiple of four. -/
def padding (n : ℕ) : List (BitVec 8) := List.replicate ((4 - n % 4) % 4) 0

namespace Member

variable (m : Member)

/-- The full path. -/
def name : List (BitVec 8) := [separator].intercalate m.path

/-- The last component of the path. -/
def base : List (BitVec 8) := m.path.getLast?.getD []

/-- The component before the last. -/
def parentComponent : List (BitVec 8) := m.path.dropLast.getLast?.getD []

/-- The fields of the header, in order. -/
def fields : List (List (BitVec 8)) :=
  [m.ino, m.mode, m.uid, m.gid, m.nlink, m.mtime, m.filesize, m.devMajor, m.devMinor,
    m.rdevMajor, m.rdevMinor, m.namesize, m.check]

/-- The header with the magic `070701`. -/
def header : List (BitVec 8) := [0x30, 0x37, 0x30, 0x37, 0x30, 0x31] ++ m.fields.flatten

/-- The bytes of a member. -/
def encode : List (BitVec 8) :=
  m.header ++ (m.name ++ [0] ++ padding (111 + m.name.length)) ++
    (m.data ++ padding m.data.length)

/-- The fields have their length, the sizes are right, and the path is made of components without
NUL or separator. -/
structure WellFormed (m : Member) : Prop where
  field : ∀ f ∈ m.fields, f.length = 8
  filesize : value m.filesize = some m.data.length
  namesize : value m.namesize = some (m.name.length + 1)
  path : m.path ≠ []
  component : ∀ c ∈ m.path, 0 ∉ c ∧ separator ∉ c

instance (m : Member) : Decidable m.WellFormed :=
  decidable_of_iff
    ((∀ f ∈ m.fields, f.length = 8) ∧ value m.filesize = some m.data.length ∧
      value m.namesize = some (m.name.length + 1) ∧ m.path ≠ [] ∧
      ∀ c ∈ m.path, 0 ∉ c ∧ separator ∉ c)
    ⟨fun ⟨hf, hs, hn, hp, hc⟩ => ⟨hf, hs, hn, hp, hc⟩,
      fun h => ⟨h.field, h.filesize, h.namesize, h.path, h.component⟩⟩

end Member

/-- A member with the given inode number, mode, path and data; the sizes are written in upper case
and the other fields are 0. -/
def plainMember (ino mode : List (BitVec 8)) (path : List (List (BitVec 8)))
    (data : List (BitVec 8)) : Member where
  ino := ino
  mode := mode
  uid := digits 8 0
  gid := digits 8 0
  nlink := digits 8 0
  mtime := digits 8 0
  filesize := digits 8 data.length
  devMajor := digits 8 0
  devMinor := digits 8 0
  rdevMajor := digits 8 0
  rdevMinor := digits 8 0
  namesize := digits 8 (([separator].intercalate path).length + 1)
  check := digits 8 0
  path := path
  data := data

/-- A plain member is well formed if its numbers have eight digits and its path has a component. -/
lemma wellFormed_plainMember {ino mode : List (BitVec 8)} {path : List (List (BitVec 8))}
    {data : List (BitVec 8)} (hino : ino.length = 8) (hmode : mode.length = 8)
    (hpath : path ≠ []) (hclean : ∀ c ∈ path, 0 ∉ c ∧ separator ∉ c)
    (hname : ([separator].intercalate path).length + 1 < 2 ^ 32) (hdata : data.length < 2 ^ 32) :
    (plainMember ino mode path data).WellFormed where
  field f hf := by
    simp only [Member.fields, plainMember, List.mem_cons, List.not_mem_nil, or_false] at hf
    rcases hf with rfl | rfl | rfl | rfl | rfl | rfl | rfl | rfl | rfl | rfl | rfl | rfl | rfl
    · exact hino
    · exact hmode
    all_goals exact length_digits 8 _
  filesize := value_digits hdata
  namesize := value_digits hname
  path := hpath
  component := hclean

/-- The bytes of an archive: its members and a trailer. -/
def archive (ms : List Member) (trailer : Member) : List (BitVec 8) :=
  ms.flatMap Member.encode ++ trailer.encode

/-- Where a member starts in an archive. -/
def offset (ms : List Member) (k : ℕ) : ℕ := ((ms.take k).flatMap Member.encode).length

/-- Where the members of a list start, from a position on. -/
def offsets : ℕ → List Member → List ℕ
  | _, [] => []
  | a, m :: ms => a :: offsets (a + m.encode.length) ms

lemma length_padding (n : ℕ) : (n + (padding n).length) = (n + 3) / 4 * 4 := by
  simp only [padding, List.length_replicate]
  omega

namespace Member.WellFormed

variable {m : Member}

lemma length_header (h : m.WellFormed) : m.header.length = 110 := by
  have hf := h.field
  simp only [fields, List.mem_cons, List.not_mem_nil, or_false, forall_eq_or_imp, forall_eq] at hf
  simp only [header, fields, List.flatten_cons, List.flatten_nil, List.length_append,
    List.length_cons, List.length_nil, hf]

/-- Where the data of a member starts, and where the member ends. -/
lemma length_encode (h : m.WellFormed) :
    m.encode.length =
      (110 + (m.name.length + 1) + 3) / 4 * 4 + (m.data.length + 3) / 4 * 4 := by
  have hname := length_padding (111 + m.name.length)
  have hdata := length_padding m.data.length
  rw [encode, List.length_append, List.length_append, h.length_header]
  simp only [List.length_append, List.length_singleton]
  omega

end Member.WellFormed

lemma Member.WellFormed.zero_notMem_name {m : Member} (h : m.WellFormed) : 0 ∉ m.name := by
  intro h0
  rcases mem_intercalate h0 with hsep | ⟨c, hc, h0c⟩
  · exact absurd hsep (by decide)
  · exact (h.component c hc).1 h0c

lemma getElem?_offsets (a : ℕ) (ms : List Member) (k : ℕ) :
    (offsets a ms)[k]? = ms[k]?.map fun _ => a + offset ms k := by
  induction ms generalizing a k with
  | nil => rfl
  | cons m ms ih =>
      cases k with
      | zero => rfl
      | succ k =>
          rw [offsets, List.getElem?_cons_succ, ih, List.getElem?_cons_succ]
          simp only [offset, List.take_succ_cons, List.flatMap_cons, List.length_append,
            Nat.add_assoc]

lemma length_offsets (a : ℕ) (ms : List Member) : (offsets a ms).length = ms.length := by
  induction ms generalizing a with
  | nil => rfl
  | cons m ms ih => rw [offsets, List.length_cons, ih, List.length_cons]

end Newc
