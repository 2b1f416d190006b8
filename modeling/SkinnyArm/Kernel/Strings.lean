import SkinnyArm.Library.ByteMemory

/-!
`kernel/string.c`.

* `strequal` stops at the end of its first argument, so it says whether that is a prefix of the
  second (`strequal_eq`).
* `strcpy` advances neither pointer, so whatever the size it copies one byte (`strcpy_eq`).
-/

namespace SkinnyArm

open ByteMemory

/-- `strequal` on two arrays; `none` is a read past the end of one of them. -/
def strequal : List (BitVec 8) → List (BitVec 8) → Option Bool
  | [], _ => none
  | c :: _, [] => if c = 0 then some true else none
  | c :: cs, d :: ds =>
      if c = 0 then some true else if c = d then strequal cs ds else some false

/-- The characters of a C string, up to its NUL. -/
def cstr (l : List (BitVec 8)) : List (BitVec 8) := l.takeWhile (· ≠ 0)

@[simp] lemma cstr_cons_zero (l : List (BitVec 8)) : cstr (0 :: l) = [] :=
  List.takeWhile_cons_of_neg (by simp)

lemma cstr_cons_of_ne {c : BitVec 8} (hc : c ≠ 0) (l : List (BitVec 8)) :
    cstr (c :: l) = c :: cstr l :=
  List.takeWhile_cons_of_pos (by simpa using hc)

lemma zero_notMem_cstr (l : List (BitVec 8)) : 0 ∉ cstr l := by
  induction l with
  | nil => exact List.not_mem_nil
  | cons c l ih =>
      by_cases hc : c = 0
      · rw [hc, cstr_cons_zero]
        exact List.not_mem_nil
      · rw [cstr_cons_of_ne hc]
        exact List.not_mem_cons_of_ne_of_not_mem (Ne.symm hc) ih

/-- A C string in an array, with its NUL behind it. -/
lemma eq_cstr_append {l : List (BitVec 8)} (h : 0 ∈ l) : ∃ rest, l = cstr l ++ 0 :: rest := by
  induction l with
  | nil => exact absurd h List.not_mem_nil
  | cons c l ih =>
      by_cases hc : c = 0
      · exact ⟨l, by rw [hc, cstr_cons_zero, List.nil_append]⟩
      · obtain ⟨rest, hrest⟩ := ih ((List.mem_cons.mp h).resolve_left (Ne.symm hc))
        refine ⟨rest, ?_⟩
        rw [cstr_cons_of_ne hc, List.cons_append, ← hrest]

lemma cstr_append_zero {l : List (BitVec 8)} (h : 0 ∉ l) (rest : List (BitVec 8)) :
    cstr (l ++ 0 :: rest) = l := by
  induction l with
  | nil => exact cstr_cons_zero rest
  | cons c l ih =>
      have hc : c ≠ 0 := fun hc => h (hc ▸ List.mem_cons_self)
      rw [List.cons_append, cstr_cons_of_ne hc, ih fun hl => h (List.mem_cons_of_mem c hl)]

/-- On two arrays that both hold a NUL `strequal` reads nothing past them, and it answers whether
the first string is a prefix of the second. -/
lemma strequal_eq {l l' : List (BitVec 8)} (hl : 0 ∈ l) (hl' : 0 ∈ l') :
    strequal l l' = some (decide (cstr l <+: cstr l')) := by
  induction l generalizing l' with
  | nil => exact absurd hl List.not_mem_nil
  | cons c cs ih =>
      cases l' with
      | nil => exact absurd hl' List.not_mem_nil
      | cons d ds =>
          rw [strequal]
          by_cases hc : c = 0
          · rw [if_pos hc, hc, cstr_cons_zero]
            simp
          have hcs : 0 ∈ cs := (List.mem_cons.mp hl).resolve_left (Ne.symm hc)
          rw [if_neg hc, cstr_cons_of_ne hc]
          by_cases hd : d = 0
          · rw [if_neg (hd ▸ hc), hd, cstr_cons_zero]
            simp
          have hds : 0 ∈ ds := (List.mem_cons.mp hl').resolve_left (Ne.symm hd)
          rw [cstr_cons_of_ne hd]
          by_cases hcd : c = d
          · rw [if_pos hcd, ih hcs hds, hcd]
            simp only [List.prefix_cons_inj]
          · rw [if_neg hcd]
            simp only [List.cons_prefix_cons, hcd, false_and, decide_false]

/-- `strcpy`: the loop body `*dst = *src`, `size` times. -/
@[irreducible] def strcpy (m : ByteMemory) (src dst size : ℕ) : ByteMemory :=
  (List.range size).foldl (fun m _ => m.store8 dst (m src)) m

/-- All that `strcpy` does is one byte. -/
lemma strcpy_eq (m : ByteMemory) (src dst size : ℕ) (h : 0 < size) :
    strcpy m src dst size = m.store8 dst (m src) := by
  induction size, h using Nat.le_induction with
  | base =>
      rw [strcpy]
      rfl
  | succ n _ ih =>
      rw [strcpy] at ih
      rw [strcpy, List.range_succ, List.foldl_append, ih]
      funext x
      simp only [List.foldl_cons, List.foldl_nil, store8]
      split_ifs <;> rfl

lemma strcpy_zero (m : ByteMemory) (src dst : ℕ) : strcpy m src dst 0 = m := by
  rw [strcpy]
  rfl

/-- The other bytes stay. -/
lemma strcpy_of_ne {m : ByteMemory} {src dst size x : ℕ} (hx : x ≠ dst) :
    strcpy m src dst size x = m x := by
  rcases Nat.eq_zero_or_pos size with rfl | hpos
  · rw [strcpy_zero]
  · rw [strcpy_eq m src dst size hpos, store8_of_ne hx]

end SkinnyArm
