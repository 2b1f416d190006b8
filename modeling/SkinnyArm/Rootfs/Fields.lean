import SkinnyArm.Library.Newc
import SkinnyArm.Kernel.Rootfs

/-!
What `init_ramfs` reads of the fields of a record.

* **Bytes.** `At` says which bytes the stream has at a position.
* **Sizes.** A size field in upper case is read as its value and any other as `-1`
  (`intFromString_of_upper`, `intFromString_of_not_upper`).
* **Names.** Of a path the loop keeps the last component and the one before it, as long as they
  fit (`nameLoop_path`, `parseName_path`).
-/

namespace SkinnyArm

open ByteMemory Newc

/-! ### Bytes at a position -/

/-- The stream has the given bytes at a position. -/
def At (s : List (BitVec 8)) (a : ℕ) (l : List (BitVec 8)) : Prop := l <+: s.drop a

section At

variable {s l l' : List (BitVec 8)} {a n : ℕ} {c : BitVec 8}

lemma at_self (l : List (BitVec 8)) : At l 0 l := List.prefix_rfl

lemma at_append : At s a (l ++ l') ↔ At s a l ∧ At s (a + l.length) l' := by
  constructor
  · rintro ⟨t, ht⟩
    refine ⟨⟨l' ++ t, by rw [← ht, List.append_assoc]⟩, t, ?_⟩
    rw [← List.drop_drop, ← ht, List.append_assoc, List.drop_left]
  · rintro ⟨⟨t, ht⟩, t', ht'⟩
    rw [← List.drop_drop, ← ht, List.drop_left] at ht'
    exact ⟨t', by rw [← ht, ← ht', List.append_assoc]⟩

lemma At.byteAt (h : At s a l) {i : ℕ} (hi : i < l.length) :
    SkinnyArm.byteAt s (a + i) = l[i] := by
  obtain ⟨t, ht⟩ := h
  have hdrop : SkinnyArm.byteAt s (a + i) = (s.drop a).getD i 0 := by
    rw [SkinnyArm.byteAt, List.getD_eq_getElem?_getD, List.getD_eq_getElem?_getD,
      List.getElem?_drop]
  rw [hdrop, ← ht, List.getD_eq_getElem?_getD, List.getElem?_append_left hi,
    List.getElem?_eq_getElem hi]
  rfl

lemma at_cons : At s a (c :: l) → byteAt s a = c ∧ At s (a + 1) l := by
  intro h
  have hsplit := at_append.mp (show At s a ([c] ++ l) from h)
  exact ⟨hsplit.1.byteAt (i := 0) (by simp), hsplit.2⟩

lemma At.bytesAt (h : At s a l) : SkinnyArm.bytesAt s a l.length = l := by
  refine List.ext_getElem (by simp [SkinnyArm.bytesAt]) fun i hi hi' => ?_
  simp only [SkinnyArm.bytesAt, List.getElem_map, List.getElem_range]
  exact h.byteAt hi'

/-- Bytes that are not NUL were read inside the stream. -/
lemma at_of_bytesAt (h : bytesAt s a l.length = l) (hl : 0 ∉ l) : At s a l := by
  have hbyte : ∀ i (hi : i < l.length), byteAt s (a + i) = l[i] := by
    intro i hi
    have hget : (bytesAt s a l.length)[i]? = some l[i] := by
      rw [h, List.getElem?_eq_getElem hi]
    simpa [bytesAt, hi] using hget
  refine List.prefix_iff_getElem?.mpr fun i hi => ?_
  rw [List.getElem?_drop]
  have hi' := hbyte i hi
  have hlt : a + i < s.length := by
    by_contra hge
    rw [byteAt_of_length_le (not_lt.mp hge)] at hi'
    exact hl (hi' ▸ List.getElem_mem hi)
  rw [byteAt, List.getD_eq_getElem?_getD, List.getElem?_eq_getElem hlt] at hi'
  rw [List.getElem?_eq_getElem hlt]
  exact congrArg some hi'

end At

/-! ### Size fields -/

lemma intFromChar_eq_neg_one {c : BitVec 8} : intFromChar c = -1 ↔ ¬ (IsDecimal c ∨ IsUpper c) := by
  rw [intFromChar]
  split_ifs with hd hu
  · have hle : (0x30 : BitVec 8).toNat ≤ c.toNat := hd.1
    have hval : (0x30 : BitVec 8).toNat = 0x30 := rfl
    have hdec : IsDecimal c := hd
    simp only [hdec, true_or, not_true_eq_false, iff_false]
    omega
  · have hle : (0x41 : BitVec 8).toNat ≤ c.toNat := hu.1
    have hval : (0x41 : BitVec 8).toNat = 0x41 := rfl
    have hupper : IsUpper c := hu
    simp only [hupper, or_true, not_true_eq_false, iff_false]
    omega
  · have hdec : ¬ IsDecimal c := hd
    have hupper : ¬ IsUpper c := hu
    simp [hdec, hupper]

lemma digit_of_upper {c : BitVec 8} (h : IsDecimal c ∨ IsUpper c) :
    ∃ d : ℕ, digit c = some d ∧ intFromChar c = d := by
  by_cases hd : IsDecimal c
  · have hle : (0x30 : BitVec 8).toNat ≤ c.toNat := hd.1
    have hval : (0x30 : BitVec 8).toNat = 0x30 := rfl
    have hchar : intFromChar c = c.toNat - 0x30 := if_pos hd
    exact ⟨c.toNat - 0x30, by rw [digit, if_pos hd], by rw [hchar]; omega⟩
  · have hu := h.resolve_left hd
    have hle : (0x41 : BitVec 8).toNat ≤ c.toNat := hu.1
    have hval : (0x41 : BitVec 8).toNat = 0x41 := rfl
    have hchar : intFromChar c = c.toNat - 0x37 := by
      rw [intFromChar, if_neg (show ¬ (0x30 ≤ c ∧ c ≤ 0x39) from hd),
        if_pos (show 0x41 ≤ c ∧ c ≤ 0x46 from hu)]
    exact ⟨c.toNat - 0x37, by rw [digit, if_neg hd, if_pos hu], by rw [hchar]; omega⟩

section Sizes

variable {s l : List (BitVec 8)} {a : ℕ}

lemma intFromStringLoop_of_upper {v w : ℕ} (h : At s a l) (hl : IsUpperField l)
    (hw : valueFrom v l = some w) : intFromStringLoop s l.length a v = w := by
  induction l generalizing a v with
  | nil =>
      rw [← Option.some.inj hw]
      rfl
  | cons c l ih =>
      obtain ⟨hc, hrest⟩ := at_cons h
      have hupper := hl c List.mem_cons_self
      obtain ⟨d, hd, hchar⟩ := digit_of_upper hupper
      rw [List.length_cons, intFromStringLoop, hc,
        if_neg fun hneg => intFromChar_eq_neg_one.mp hneg hupper, hchar]
      rw [valueFrom, hd] at hw
      have hcast : (v : ℤ) * 16 + (d : ℤ) = ((v * 16 + d : ℕ) : ℤ) := by push_cast; ring
      rw [hcast]
      exact ih hrest (fun c' hc' => hl c' (List.mem_cons_of_mem c hc')) hw

lemma intFromStringLoop_of_not_upper {total : ℤ} (h : At s a l) (hl : ¬ IsUpperField l) :
    intFromStringLoop s l.length a total = -1 := by
  induction l generalizing a total with
  | nil => exact absurd (fun c hc => absurd hc List.not_mem_nil) hl
  | cons c l ih =>
      obtain ⟨hc, hrest⟩ := at_cons h
      rw [List.length_cons, intFromStringLoop, hc]
      by_cases hupper : IsDecimal c ∨ IsUpper c
      · rw [if_neg fun hneg => intFromChar_eq_neg_one.mp hneg hupper]
        refine ih hrest fun hrestUpper => hl fun c' hc' => ?_
        rcases List.mem_cons.mp hc' with rfl | hmem
        · exact hupper
        · exact hrestUpper c' hmem
      · rw [if_pos (intFromChar_eq_neg_one.mpr hupper)]

/-- Digits in upper case are read as their value. -/
lemma intFromString_of_isUpperField {w : ℕ} (h : At s a l) (hl : IsUpperField l)
    (hw : value l = some w) : intFromString s a l.length = w := by
  rw [intFromString_eq_loop]
  exact intFromStringLoop_of_upper h hl hw

/-- Any other characters are read as `-1`. -/
lemma intFromString_of_not_isUpperField (h : At s a l) (hl : ¬ IsUpperField l) :
    intFromString s a l.length = -1 := by
  rw [intFromString_eq_loop]
  exact intFromStringLoop_of_not_upper h hl

/-- A field in upper case is read as its value. -/
lemma intFromString_of_upper {w : ℕ} (h : At s a l) (hlen : l.length = 8) (hl : IsUpperField l)
    (hw : value l = some w) : intFromString s a 8 = w := by
  rw [← hlen]
  exact intFromString_of_isUpperField h hl hw

/-- Any other field is read as `-1`. -/
lemma intFromString_of_not_upper (h : At s a l) (hlen : l.length = 8) (hl : ¬ IsUpperField l) :
    intFromString s a 8 = -1 := by
  rw [← hlen]
  exact intFromString_of_not_isUpperField h hl

end Sizes

/-! ### Names -/

/-- A name in its buffer, padded with NULs. -/
def padName (c : List (BitVec 8)) : Name := fun j => c.getD j.val 0

/-- The characters of a path component. -/
def CleanComponent (c : List (BitVec 8)) : Prop := 0 ∉ c ∧ slash ∉ c

section Names

variable {s c pre : List (BitVec 8)} {a : ℕ}

lemma update_padName {index : Fin 16} {b : BitVec 8} (hi : index.val = pre.length) :
    Function.update (padName pre) index b = padName (pre ++ [b]) := by
  funext j
  by_cases hj : j = index
  · subst hj
    simp [padName, List.getD_eq_getElem?_getD, hi]
  · rw [Function.update_of_ne hj]
    have hne : j.val ≠ pre.length := fun h => hj (Fin.ext (h.trans hi.symm))
    simp only [padName, List.getD_eq_getElem?_getD]
    by_cases hlt : j.val < pre.length
    · rw [List.getElem?_append_left hlt]
    · rw [List.getElem?_eq_none (not_lt.mp hlt), List.getElem?_eq_none (by simp; omega)]

lemma update_padName_nul {index : Fin 16} (hi : index.val = pre.length) :
    Function.update (padName pre) index 0 = padName pre := by
  rw [Function.update_eq_self_iff, padName, List.getD_eq_getElem?_getD,
    List.getElem?_eq_none hi.ge]
  rfl

/-- A character of a component goes into the buffer. -/
lemma nameLoop_cons {b : BitVec 8} (index : Fin 16) (fileName parent : Name)
    (h : At s a (b :: c)) (hc : CleanComponent (b :: c)) :
    nameLoop s a index fileName parent =
        nameLoop s (a + 1) (index + 1) (Function.update fileName index b) parent ∧
      At s (a + 1) c ∧ CleanComponent c := by
  obtain ⟨hb, hrest⟩ := at_cons h
  have hslash : b ≠ slash := fun hb => hc.2 (hb ▸ List.mem_cons_self)
  have hnul : b ≠ 0 := fun hb => hc.1 (hb ▸ List.mem_cons_self)
  have htail : CleanComponent c :=
    ⟨fun h0 => hc.1 (List.mem_cons_of_mem b h0), fun hs => hc.2 (List.mem_cons_of_mem b hs)⟩
  refine ⟨?_, hrest, htail⟩
  rw [nameLoop, hb, if_neg hslash, if_neg hnul]

/-- A component that fits is appended to what is in the buffer. -/
lemma nameLoop_component (index : Fin 16) (pre : List (BitVec 8)) (parent : Name) (h : At s a c)
    (hc : CleanComponent c) (hi : index.val = pre.length)
    (hfit : pre.length + c.length ≤ 15) :
    ∃ index' : Fin 16, index'.val = pre.length + c.length ∧
      nameLoop s a index (padName pre) parent =
        nameLoop s (a + c.length) index' (padName (pre ++ c)) parent := by
  induction c generalizing a pre index with
  | nil => exact ⟨index, by simpa using hi, by simp⟩
  | cons b c ih =>
      obtain ⟨hround, hrest, htail⟩ := nameLoop_cons index (padName pre) parent h hc
      rw [List.length_cons] at hfit
      have hnext : (index + 1).val = (pre ++ [b]).length := by
        rw [List.length_append, List.length_singleton, Fin.val_add, hi]
        show (pre.length + 1) % 16 = pre.length + 1
        omega
      obtain ⟨index', hindex', heq⟩ := ih (index + 1) (pre ++ [b]) hrest htail hnext
        (by rw [List.length_append, List.length_singleton]; omega)
      refine ⟨index', by rw [hindex']; simp; omega, ?_⟩
      rw [hround, update_padName hi, heq, List.append_assoc, List.singleton_append,
        List.length_cons]
      congr 1
      omega

/-- Whatever a component does to the buffer, the loop gets to its end. -/
lemma nameLoop_skip (index : Fin 16) (fileName parent : Name) (h : At s a c)
    (hc : CleanComponent c) :
    ∃ index' fileName', nameLoop s a index fileName parent =
      nameLoop s (a + c.length) index' fileName' parent := by
  induction c generalizing a index fileName with
  | nil => exact ⟨index, fileName, by simp⟩
  | cons b c ih =>
      obtain ⟨hround, hrest, htail⟩ := nameLoop_cons index fileName parent h hc
      obtain ⟨index', fileName', heq⟩ :=
        ih (index + 1) (Function.update fileName index b) hrest htail
      refine ⟨index', fileName', ?_⟩
      rw [hround, heq, List.length_cons]
      congr 1
      omega

/-- At a `/` the buffer is cleared, and a component that fitted becomes the parent's name. -/
lemma nameLoop_slash (c : List (BitVec 8)) (index : Fin 16) (fileName parent : Name)
    (h : byteAt s a = slash) :
    ∃ parent', nameLoop s a index fileName parent = nameLoop s (a + 1) 0 (padName []) parent' ∧
      (index.val = c.length → fileName = padName c → parent' = padName c) := by
  refine ⟨fun j => if j < index then fileName j else 0, by rw [nameLoop, if_pos h]; rfl, ?_⟩
  rintro hi rfl
  funext j
  by_cases hj : j < index
  · rw [if_pos hj]
  · have hle : c.length ≤ j.val := by rw [← hi]; exact not_lt.mp hj
    rw [if_neg hj, padName, List.getD_eq_getElem?_getD, List.getElem?_eq_none hle]
    rfl

/-- Behind a component and its `/` the loop starts anew, with the component as the parent's name if
it fits. -/
lemma nameLoop_behind (parent : Name) (h : At s a c) (hc : CleanComponent c)
    (hslash : byteAt s (a + c.length) = slash) :
    ∃ parent', nameLoop s a 0 (padName []) parent =
        nameLoop s (a + c.length + 1) 0 (padName []) parent' ∧
      (c.length ≤ 15 → parent' = padName c) := by
  by_cases hfit : c.length ≤ 15
  · obtain ⟨index', hi', heq⟩ := nameLoop_component 0 [] parent h hc rfl (by simpa using hfit)
    obtain ⟨parent', heq', hpar⟩ := nameLoop_slash c index' (padName ([] ++ c)) parent hslash
    exact ⟨parent', heq.trans heq', fun _ => hpar (by simpa using hi') rfl⟩
  · obtain ⟨index', fileName', heq⟩ := nameLoop_skip 0 (padName []) parent h hc
    obtain ⟨parent', heq', -⟩ := nameLoop_slash c index' fileName' parent hslash
    exact ⟨parent', heq.trans heq', fun hle => absurd hle hfit⟩

/-- At the end of the name the loop returns the last component, if that fits. -/
lemma nameLoop_last (parent : Name) (h : At s a c) (hc : CleanComponent c)
    (hend : byteAt s (a + c.length) = 0) :
    (c.length ≤ 15 → (nameLoop s a 0 (padName []) parent).1 = padName c) ∧
      (nameLoop s a 0 (padName []) parent).2 = parent := by
  have hne : (0 : BitVec 8) ≠ slash := by decide
  constructor
  · intro hfit
    obtain ⟨index', hi', heq⟩ := nameLoop_component 0 [] parent h hc rfl (by simpa using hfit)
    rw [heq, nameLoop, hend, if_neg hne, if_pos rfl, update_padName_nul (by simpa using hi')]
    rfl
  · obtain ⟨index', fileName', heq⟩ := nameLoop_skip 0 (padName []) parent h hc
    rw [heq, nameLoop, hend, if_neg hne, if_pos rfl]

/-- **The name loop** on a path: it keeps the last component, if that fits, and as the parent's
name the one before, if that fits. -/
lemma nameLoop_path {path : List (List (BitVec 8))} (parent : Name) (hpath : path ≠ [])
    (hclean : ∀ c ∈ path, CleanComponent c) (h : At s a ([slash].intercalate path))
    (hnul : byteAt s (a + ([slash].intercalate path).length) = 0) :
    ((path.getLast hpath).length ≤ 15 →
        (nameLoop s a 0 (padName []) parent).1 = padName (path.getLast hpath)) ∧
      (∀ c, path.dropLast.getLast? = some c → c.length ≤ 15 →
        (nameLoop s a 0 (padName []) parent).2 = padName c) ∧
      (path.dropLast = [] → (nameLoop s a 0 (padName []) parent).2 = parent) := by
  induction path generalizing a parent with
  | nil => exact absurd rfl hpath
  | cons c path ih =>
      have hc := hclean c List.mem_cons_self
      cases path with
      | nil =>
          have hat : At s a c := by simpa using h
          have hend : byteAt s (a + c.length) = 0 := by simpa using hnul
          obtain ⟨hname, hparent⟩ := nameLoop_last parent hat hc hend
          exact ⟨hname, fun d hd => by simp at hd, fun _ => hparent⟩
      | cons d path =>
          have hjoin : [slash].intercalate (c :: d :: path) =
              c ++ ([slash] ++ [slash].intercalate (d :: path)) := by
            simp [List.intercalate]
          rw [hjoin] at h hnul
          have hsplit := at_append.mp h
          have hslash : byteAt s (a + c.length) = slash := (at_append.mp hsplit.2).1.byteAt
            (i := 0) (by simp)
          have hrest : At s (a + c.length + 1) ([slash].intercalate (d :: path)) :=
            (at_append.mp hsplit.2).2
          have hnulRest : byteAt s (a + c.length + 1 +
              ([slash].intercalate (d :: path)).length) = 0 := by
            rw [← hnul, List.length_append, List.length_append, List.length_singleton]
            congr 1
            omega
          have hcleanRest : ∀ c' ∈ d :: path, CleanComponent c' := fun c' hc' =>
            hclean c' (List.mem_cons_of_mem c hc')
          obtain ⟨parent', heq, hpar⟩ := nameLoop_behind parent hsplit.1 hc hslash
          obtain ⟨hlast, hsecond, hnone⟩ := ih parent' (List.cons_ne_nil d path)
            hcleanRest hrest hnulRest
          rw [heq]
          refine ⟨fun hfit => ?_, fun c' hc' hfit => ?_, fun hnil => by simp at hnil⟩
          · rw [List.getLast_cons (List.cons_ne_nil d path)] at hfit ⊢
            exact hlast hfit
          · cases path with
            | nil =>
                obtain rfl : c = c' := by simpa using hc'
                rw [hnone rfl]
                exact hpar hfit
            | cons d' path =>
                refine hsecond c' ?_ hfit
                simpa using hc'

/-- **A path whose components fit**: its last component and the one before it. -/
lemma parseName_path {path : List (List (BitVec 8))} (hpath : path ≠ [])
    (hclean : ∀ c ∈ path, CleanComponent c) (hfit : ∀ c ∈ path, c.length ≤ 15)
    (h : At s a ([slash].intercalate path))
    (hnul : byteAt s (a + ([slash].intercalate path).length) = 0) :
    parseName s a =
      (padName (path.getLast?.getD []), padName (path.dropLast.getLast?.getD [])) := by
  obtain ⟨hlast, hbefore, hnone⟩ := nameLoop_path (padName []) hpath hclean h hnul
  have hname : (parseName s a).1 = padName (path.getLast?.getD []) := by
    rw [List.getLast?_eq_some_getLast hpath]
    exact hlast (hfit _ (List.getLast_mem hpath))
  have hparent : (parseName s a).2 = padName (path.dropLast.getLast?.getD []) := by
    cases hsecond : path.dropLast.getLast? with
    | none => exact hnone (List.getLast?_eq_none_iff.mp hsecond)
    | some c =>
        have hmem : c ∈ path := List.mem_of_mem_dropLast (List.mem_of_getLast? hsecond)
        exact hbefore c hsecond (hfit c hmem)
  exact Prod.ext hname hparent

end Names

end SkinnyArm
