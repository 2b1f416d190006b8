import Mathlib.Tactic

/-!
While loops, run for a number of rounds.

* `whileLoop cond body n` runs the body for at most `n` rounds, as long as the condition holds.
  Once it does not hold nothing changes any more (`whileLoop_of_not`), so a loop that ends within
  some number of rounds has one result.
* **Rules.** An invariant of the rounds holds however many there are (`whileLoop_invariant`), and a
  relation that the rounds of two loops keep relates them throughout (`whileLoop_related`).
-/

variable {σ τ : Type*} {cond : σ → Prop} [DecidablePred cond] {cond' : τ → Prop}
  [DecidablePred cond'] {body : σ → σ} {body' : τ → τ} {s : σ} {t : τ}

/-- At most `n` rounds of a loop. -/
def whileLoop (cond : σ → Prop) [DecidablePred cond] (body : σ → σ) : ℕ → σ → σ
  | 0, s => s
  | n + 1, s => if cond s then whileLoop cond body n (body s) else s

lemma whileLoop_of_not (h : ¬ cond s) (n : ℕ) : whileLoop cond body n s = s := by
  cases n with
  | zero => rfl
  | succ n => rw [whileLoop, if_neg h]

/-- The last round instead of the first. -/
lemma whileLoop_succ (n : ℕ) (s : σ) :
    whileLoop cond body (n + 1) s =
      if cond (whileLoop cond body n s) then body (whileLoop cond body n s)
      else whileLoop cond body n s := by
  induction n generalizing s with
  | zero => rfl
  | succ n ih =>
      by_cases h : cond s
      · rw [whileLoop, if_pos h, ih, whileLoop, if_pos h]
      · rw [whileLoop_of_not h, whileLoop_of_not h, if_neg h]

/-- **The invariant rule.** -/
lemma whileLoop_invariant {I : σ → Prop} (hbody : ∀ s, I s → cond s → I (body s)) (hs : I s)
    (n : ℕ) : I (whileLoop cond body n s) := by
  induction n with
  | zero => exact hs
  | succ n ih =>
      rw [whileLoop_succ]
      split_ifs with h
      · exact hbody _ ih h
      · exact ih

/-- **The relational rule**, for two loops in step. -/
lemma whileLoop_related {R : σ → τ → Prop} (hcond : ∀ s t, R s t → (cond s ↔ cond' t))
    (hbody : ∀ s t, R s t → cond s → R (body s) (body' t)) (hst : R s t) (n : ℕ) :
    R (whileLoop cond body n s) (whileLoop cond' body' n t) := by
  induction n with
  | zero => exact hst
  | succ n ih =>
      rw [whileLoop_succ, whileLoop_succ]
      by_cases h : cond (whileLoop cond body n s)
      · rw [if_pos h, if_pos ((hcond _ _ ih).mp h)]
        exact hbody _ _ ih h
      · rw [if_neg h, if_neg fun h' => h ((hcond _ _ ih).mpr h')]
        exact ih
