import Mathlib.Data.Finset.Sort
import Mathlib.Data.Nat.ModEq
import Mathlib.Tactic

/-!
Going round a finite set in a linear order.

* `CyclicNext R c j`: in `R`, `j` is the first element after `c`, where the least element comes
  after the greatest.
* `CyclicNext.index`: it moves one place on in the sorted list of `R`, modulo its length.
* `CyclicWalk`: a sequence that goes on so passes through the sorted list over and over
  (`CyclicWalk.getElem?_sort`), so that every `R.card` consecutive places of it hold each element of
  `R` exactly once (`CyclicWalk.existsUnique`).
* `CyclicPassed`: going on to the next element of sets that may change on the way, but all contain
  `c`, meets no element twice before `c`.
-/

variable {α : Type*} [LinearOrder α]

/-- Starting after `c`, `i` comes before `j`. -/
def CyclicLt (c i j : α) : Prop := c < i ∧ i < j ∨ j ≤ c ∧ (c < i ∨ i < j)

/-- The first element of a set after `c`. -/
def CyclicNext (R : Finset α) (c j : α) : Prop := j ∈ R ∧ ∀ i ∈ R, ¬ CyclicLt c i j

variable {R : Finset α} {c j : α}

/-- The first element above `c`. -/
lemma CyclicNext.of_lt (hj : j ∈ R) (hlt : c < j) (hfirst : ∀ i ∈ R, c < i → j ≤ i) :
    CyclicNext R c j := by
  refine ⟨hj, fun i hi h => ?_⟩
  rcases h with ⟨hci, hij⟩ | ⟨hjc, -⟩
  · exact absurd hij (not_lt.mpr (hfirst i hi hci))
  · exact absurd hlt (not_lt.mpr hjc)

/-- The least element, if there is none above `c`. -/
lemma CyclicNext.of_le (hj : j ∈ R) (hle : ∀ i ∈ R, i ≤ c) (hfirst : ∀ i ∈ R, j ≤ i) :
    CyclicNext R c j := by
  refine ⟨hj, fun i hi h => ?_⟩
  have hci : ¬ c < i := not_lt.mpr (hle i hi)
  have hij : ¬ i < j := not_lt.mpr (hfirst i hi)
  rcases h with ⟨h, -⟩ | ⟨-, h | h⟩
  · exact hci h
  · exact hci h
  · exact hij h

/-- Of two elements it is the other one. -/
lemma CyclicNext.other {i : α} (h : CyclicNext R c j) (hR : ∀ a ∈ R, a = c ∨ a = i) (hi : i ∈ R)
    (hne : i ≠ c) : j = i := by
  rcases hR j h.1 with rfl | hj
  · exact absurd (.inr ⟨le_rfl, hne.symm.lt_or_gt⟩) (h.2 i hi)
  · exact hj

/-- Nothing comes after itself. -/
lemma CyclicLt.not_self (c j : α) : ¬ CyclicLt c c j := by
  rintro (⟨hcc, -⟩ | ⟨hjc, hcc | hcj⟩)
  · exact lt_irrefl c hcc
  · exact lt_irrefl c hcc
  · exact not_lt.mpr hjc hcj

/-- What comes before `j` starting after `b`, where `b` comes before `j` starting after `c`. -/
lemma CyclicLt.trans {b i : α} (h : CyclicLt c b j) (h' : CyclicLt b i j) : CyclicLt c i j := by
  rcases h with ⟨hcb, hbj⟩ | ⟨hjc, hb⟩
  · rcases h' with ⟨hbi, hij⟩ | ⟨hjb, -⟩
    · exact .inl ⟨hcb.trans hbi, hij⟩
    · exact absurd hbj (not_lt.mpr hjb)
  · refine .inr ⟨hjc, ?_⟩
    rcases h' with ⟨-, hij⟩ | ⟨hjb, hbi | hij⟩
    · exact .inr hij
    · rcases hb with hcb | hbj
      · exact .inl (hcb.trans hbi)
      · exact absurd hbj (not_lt.mpr hjb)
    · exact .inr hij

/-- The next element comes before the others of the set. -/
lemma CyclicNext.lt {i : α} (h : CyclicNext R c j) (hi : i ∈ R) (hic : i ≠ c) (hij : i ≠ j) :
    CyclicLt c j i := by
  have hnot := h.2 i hi
  simp only [CyclicLt, not_or, not_and, not_lt] at hnot ⊢
  obtain ⟨hup, hround⟩ := hnot
  rcases hic.lt_or_gt with hlt | hgt
  · rcases lt_or_ge c j with hcj | hjc
    · exact .inr ⟨hlt.le, .inl hcj⟩
    · exact .inr ⟨hlt.le, .inr (lt_of_le_of_ne (hround hjc).2 hij.symm)⟩
  · rcases lt_or_ge c j with hcj | hjc
    · exact .inl ⟨hcj, lt_of_le_of_ne (hup hgt) hij.symm⟩
    · exact absurd hgt (not_lt.mpr (hround hjc).1)

/-- The next element is one place on in the sorted list. -/
lemma CyclicNext.index {m : ℕ} (hm : R.card = m) {a b : Fin m}
    (h : CyclicNext R (R.orderEmbOfFin hm a) (R.orderEmbOfFin hm b)) :
    (b : ℕ) = (a + 1) % m := by
  have hfirst : ∀ i : Fin m, ¬ CyclicLt a i b := fun i hi => by
    refine h.2 _ (R.orderEmbOfFin_mem hm i) ?_
    simpa only [CyclicLt, OrderEmbedding.lt_iff_lt, OrderEmbedding.le_iff_le] using hi
  rcases Nat.lt_or_ge (a + 1) m with ha | ha
  · -- there is a place above
    have hnext := hfirst ⟨a + 1, ha⟩
    rw [Nat.mod_eq_of_lt ha]
    simp only [CyclicLt, Fin.lt_def, Fin.le_def] at hnext
    omega
  · -- the last place
    have hzero := hfirst ⟨0, by omega⟩
    have ham : a.val + 1 = m := by omega
    rw [ham, Nat.mod_self]
    simp only [CyclicLt, Fin.lt_def, Fin.le_def] at hzero
    omega

/-- A sequence in which every element is the next one after its predecessor. -/
structure CyclicWalk (R : Finset α) (s : ℕ → α) : Prop where
  start : s 0 ∈ R
  next : ∀ k, CyclicNext R (s k) (s (k + 1))

namespace CyclicWalk

variable {s : ℕ → α}

lemma mem (h : CyclicWalk R s) : ∀ k, s k ∈ R
  | 0 => h.start
  | k + 1 => (h.next k).1

lemma card_pos (h : CyclicWalk R s) : 0 < R.card := Finset.card_pos.mpr ⟨s 0, h.start⟩

/-- Where the walk is in the sorted list. -/
lemma index (h : CyclicWalk R s) :
    ∃ a, ∀ k, s k = R.orderEmbOfFin rfl ⟨(a + k) % R.card, Nat.mod_lt _ h.card_pos⟩ := by
  have hsurj : ∀ k, ∃ b, s k = R.orderEmbOfFin rfl b := fun k => by
    have hk : s k ∈ Set.range (R.orderEmbOfFin rfl) := by
      rw [Finset.range_orderEmbOfFin]
      exact h.mem k
    obtain ⟨b, hb⟩ := hk
    exact ⟨b, hb.symm⟩
  obtain ⟨a, ha⟩ := hsurj 0
  refine ⟨a, fun k => ?_⟩
  induction k with
  | zero =>
      rw [ha]
      exact congrArg _ (Fin.ext (Nat.mod_eq_of_lt a.isLt).symm)
  | succ k ih =>
      obtain ⟨b, hb⟩ := hsurj (k + 1)
      have hnext := h.next k
      rw [ih, hb] at hnext
      rw [hb]
      refine congrArg _ (Fin.ext ?_)
      rw [hnext.index, Nat.mod_add_mod, Nat.add_assoc]

/-- **The enumeration**: the walk goes through the sorted list of the set over and over. -/
lemma getElem?_sort (h : CyclicWalk R s) :
    ∃ a, ∀ k, (R.sort (· ≤ ·))[(a + k) % R.card]? = some (s k) := by
  obtain ⟨a, ha⟩ := h.index
  refine ⟨a, fun k => ?_⟩
  rw [ha k, Finset.orderEmbOfFin_apply]
  exact List.getElem?_eq_getElem _

/-- **Fairness**: `R.card` consecutive places of the walk hold every element exactly once. -/
lemma existsUnique (h : CyclicWalk R s) (k : ℕ) {i : α} (hi : i ∈ R) :
    ∃! d, d < R.card ∧ s (k + d) = i := by
  obtain ⟨a, ha⟩ := h.index
  have hinj : Set.InjOn (fun d => s (k + d)) (Finset.range R.card) := by
    intro d hd d' hd' heq
    simp only [ha, EmbeddingLike.apply_eq_iff_eq, Fin.mk.injEq, ← Nat.add_assoc] at heq
    exact (Nat.ModEq.add_left_cancel' _ heq).eq_of_lt_of_lt (by simpa using hd) (by simpa using hd')
  have hsurj : Set.SurjOn (fun d => s (k + d)) (Finset.range R.card) R :=
    Finset.surjOn_of_injOn_of_card_le _ (fun d _ => h.mem (k + d)) hinj (by simp)
  obtain ⟨d, hd, hsd⟩ := hsurj hi
  have hlt : d < R.card := by simpa using hd
  refine ⟨d, ⟨hlt, hsd⟩, fun d' hd' => ?_⟩
  exact hinj (by simpa using hd'.1) hd (hd'.2.trans hsd.symm)

end CyclicWalk

/-- The elements passed on the way to `c`, the last one `a`: they are all different, and none of
them is between `a` and `c`. -/
structure CyclicPassed (c a : α) (l : List α) : Prop where
  nodup : l.Nodup
  notMem : c ∉ l
  behind : ∀ i ∈ l, ¬ CyclicLt a i c

namespace CyclicPassed

variable {a : α} {l : List α}

lemma start (h : a ≠ c) : CyclicPassed c a [a] where
  nodup := List.nodup_singleton a
  notMem := by simpa using h.symm
  behind i hi := List.mem_singleton.mp hi ▸ CyclicLt.not_self a c

/-- **The next element** has not been passed yet. -/
lemma next (h : CyclicPassed c a l) (hnext : CyclicNext R a j) (hc : c ∈ R) (hca : c ≠ a)
    (hcj : c ≠ j) : CyclicPassed c j (j :: l) := by
  have hlt : CyclicLt a j c := hnext.lt hc hca hcj
  have hfresh : j ∉ l := fun hj => h.behind j hj hlt
  refine ⟨List.nodup_cons.mpr ⟨hfresh, h.nodup⟩, ?_, fun i hi hij => ?_⟩
  · rw [List.mem_cons, not_or]
    exact ⟨hcj, h.notMem⟩
  · rcases List.mem_cons.mp hi with rfl | hold
    · exact CyclicLt.not_self i c hij
    · exact h.behind i hold (hlt.trans hij)

end CyclicPassed
