import SkinnyArm.Process.Fork

/-!
Which pid `getpid` returns.

* **The inner loop.** It returns exactly if no slot has the pid (`pidReturned_iff`), whatever slot
  it would break at.
* **The outer loop.** It stops at the first pid that no slot has (`getpidRounds_of_taken`), and
  among the first `n + 1` pids there is one (`exists_pid_unused`), for no two of them are held by
  one slot.
* `getpid_isLeast`: so the counter never wraps, and the pid returned is the least one.
-/

namespace SkinnyArm

variable {n : ℕ} {processArray : Fin n → Process n} {pid : BitVec 8}

/-! ### The inner loop -/

/-- From a slot on, the loop returns exactly if none of the slots left has the pid. -/
lemma pidReturned_iff {i : ℕ} (hi : i < n) : pidReturned processArray pid i ↔
    ∀ j : Fin n, i ≤ j.val → (processArray j).pid ≠ pid := by
  induction i using pidReturned.induct processArray pid with
  | case1 i h heq =>
      rw [pidReturned, dif_pos h, if_pos heq]
      exact ⟨fun hfalse => absurd hfalse (by simp), fun hall => absurd heq (hall ⟨i, h⟩ le_rfl)⟩
  | case2 h hne =>
      rw [pidReturned, dif_pos h, if_neg hne, if_pos rfl]
      refine ⟨fun _ j hj => ?_, fun _ => rfl⟩
      have hlast : j = ⟨n - 1, h⟩ := Fin.ext (by have hlt := j.isLt; simp only; omega)
      rw [hlast]
      exact hne
  | case3 i h hne hlast ih =>
      rw [pidReturned, dif_pos h, if_neg hne, if_neg hlast, ih (by omega)]
      refine ⟨fun hall j hj => ?_, fun hall j hj => hall j (by omega)⟩
      rcases Nat.eq_or_lt_of_le hj with heq | hlt
      · have hji : j = ⟨i, h⟩ := Fin.ext heq.symm
        rw [hji]
        exact hne
      · exact hall j hlt
  | case4 i h => exact absurd hi h

/-- The loops of the code search as `getpidLoop` does. -/
lemma getpidRounds_eq (hn : 0 < n) (fuel : ℕ) (pid : BitVec 8) :
    getpidRounds processArray fuel pid = getpidLoop processArray fuel pid := by
  induction fuel generalizing pid with
  | zero => rfl
  | succ fuel ih =>
      have hreturn : pidReturned processArray pid 0 ↔ ∀ i, (processArray i).pid ≠ pid := by
        rw [pidReturned_iff hn]
        exact forall_congr' fun i => ⟨fun h => h (Nat.zero_le _), fun h _ => h⟩
      rw [getpidRounds, getpidLoop, ih]
      exact if_congr hreturn rfl rfl

/-! ### The outer loop -/

/-- The search stops at the first pid that is not taken. -/
lemma getpidLoop_of_taken {k fuel : ℕ} (hk : k < fuel)
    (htaken : ∀ l < k, ∃ i, (processArray i).pid = pid + BitVec.ofNat 8 l)
    (hfresh : ∀ i, (processArray i).pid ≠ pid + BitVec.ofNat 8 k) :
    getpidLoop processArray fuel pid = some (pid + BitVec.ofNat 8 k) := by
  rcases getpidLoop_eq processArray fuel pid with ⟨-, hall⟩ | ⟨m, -, hsome, hm, hall⟩
  · obtain ⟨i, hi⟩ := hall k hk
    exact absurd hi (hfresh i)
  · rcases lt_trichotomy m k with hlt | rfl | hlt
    · obtain ⟨i, hi⟩ := htaken m hlt
      exact absurd hi (hm i)
    · exact hsome
    · obtain ⟨i, hi⟩ := hall k hlt
      exact absurd hi (hfresh i)

/-- Of the pids from 1 on, one of the first `n + 1` is not taken. -/
lemma exists_pid_unused (hn : n < 256) (processArray : Fin n → Process n) :
    ∃ k ≤ n, ∀ i, (processArray i).pid ≠ 1 + BitVec.ofNat 8 k := by
  by_contra hnone
  push Not at hnone
  have htaken : ∀ l < n + 1, ∃ i, (processArray i).pid = 1 + BitVec.ofNat 8 l :=
    fun l hl => hnone l (by omega)
  have hle := le_of_pids_taken (by omega) htaken
  omega

/-- A pid by its number. -/
lemma pid_eq_iff {k : ℕ} (hk : k < 255) : pid = 1 + BitVec.ofNat 8 k ↔ pid.toNat = k + 1 := by
  have hval : (1 + BitVec.ofNat 8 k : BitVec 8).toNat = k + 1 := by
    rw [BitVec.toNat_add, BitVec.toNat_ofNat, Nat.mod_eq_of_lt (by omega : k < 2 ^ 8)]
    show (1 + k) % 256 = k + 1
    omega
  rw [← BitVec.toNat_inj, hval]

/-- The pids from 1 on that no slot has. -/
def unusedPids (processArray : Fin n → Process n) : Set ℕ :=
  {p | 1 ≤ p ∧ ∀ i, (processArray i).pid.toNat ≠ p}

/-- **`getpid`** ends, whatever pids the slots have, in as many rounds as the pid it returns counts:
that is the least pid that no slot has, and at most one more than there are slots. -/
theorem getpid_isLeast (processArray : Fin proccnt → Process proccnt) :
    ∃ p ≤ proccnt + 1, IsLeast (unusedPids processArray) p ∧
      getpidRounds processArray p 1 = some (BitVec.ofNat 8 p) ∧
      getpid processArray = some (BitVec.ofNat 8 p) := by
  have hexists : ∃ k, ∀ i, (processArray i).pid ≠ 1 + BitVec.ofNat 8 k := by
    obtain ⟨k, -, hk⟩ := exists_pid_unused (by decide) processArray
    exact ⟨k, hk⟩
  obtain ⟨k₀, hk₀, hfresh₀⟩ := exists_pid_unused (by decide) processArray
  -- the first number for which the pid is not taken
  classical
  let k := Nat.find hexists
  have hfresh : ∀ i, (processArray i).pid ≠ 1 + BitVec.ofNat 8 k := Nat.find_spec hexists
  have hle : k ≤ proccnt := (Nat.find_min' hexists hfresh₀).trans hk₀
  have htaken : ∀ l < k, ∃ i, (processArray i).pid = 1 + BitVec.ofNat 8 l := fun l hl => by
    have hmin := Nat.find_min hexists hl
    push Not at hmin
    exact hmin
  have hpid : (1 : BitVec 8) + BitVec.ofNat 8 k = BitVec.ofNat 8 (k + 1) := by
    rw [BitVec.add_comm, BitVec.ofNat_add]
    rfl
  refine ⟨k + 1, by omega, ⟨⟨by omega, fun i hi => ?_⟩, fun p hp => ?_⟩, ?_, ?_⟩
  · exact hfresh i ((pid_eq_iff (by simp only [proccnt] at hle; omega)).mpr hi)
  · obtain ⟨hpos, hp⟩ := hp
    by_contra hlt
    obtain ⟨i, hi⟩ := htaken (p - 1) (by omega)
    refine hp i ?_
    rw [(pid_eq_iff (by simp only [proccnt] at hle; omega)).mp hi]
    omega
  · rw [getpidRounds_eq (by decide), getpidLoop_of_taken (by omega) htaken hfresh, hpid]
  · rw [getpid, getpidLoop_of_taken (by simp only [proccnt] at hle; omega) htaken hfresh, hpid]

end SkinnyArm
