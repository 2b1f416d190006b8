import SkinnyArm.Uart.Console

/-!
`uart_puts` returns.

* **The measure.** `Console.work` counts what the two functions have to do yet: where the foreground
  is, for how long the transmitter is busy, and for each byte still to be written the time it will
  keep the transmitter busy.  A byte that is written pays for the wait after it, and a byte that is
  lost needs none.
* **Steps.** Without arrivals nothing makes it grow (`work_runHandler`, an interrupt), and an access
  of the foreground makes it smaller (`work_runMain`).
* `console_completes`: in every run in which bytes stop arriving some time and the foreground goes
  on again and again, `uart_puts` returns, with its text written.
-/

namespace SkinnyArm

open Finset

/-- The accesses of `uart_puts` before its next byte is written. -/
def PutsPoint.stage : PutsPoint → ℕ
  | .test _ => 3
  | .wait _ _ => 2
  | .write _ _ => 1
  | .done => 0

namespace Console

/-- The bytes that are still to be written, by the foreground, by the handler and out of the
FIFO. -/
def unsent (s : Console) : ℕ :=
  s.main.left.length + s.handler.pending.length + s.uart.rx.length

/-- The time for the next bytes: how long each keeps the transmitter busy, and the accesses of the
foreground. -/
def cost (delay : ℕ → ℕ) (sent n : ℕ) : ℕ := ∑ i ∈ range n, (delay (sent + i) + 3)

/-- What is left to do. -/
def work (delay : ℕ → ℕ) (s : Console) : ℕ :=
  s.main.stage + s.uart.busy + cost delay s.uart.sent.length s.unsent

variable {delay : ℕ → ℕ} {s s' : Console} {text : List (BitVec 8)} {m n : ℕ}

lemma cost_mono (sent : ℕ) (h : m ≤ n) : cost delay sent m ≤ cost delay sent n :=
  sum_le_sum_of_subset (range_subset_range.mpr h)

/-- A byte written pays for the wait after it. -/
lemma cost_succ (sent n : ℕ) :
    cost delay sent (n + 1) = delay sent + 3 + cost delay (sent + 1) n := by
  rw [cost, sum_range_succ', cost, Nat.add_zero, Nat.add_comm]
  congr 1
  exact sum_congr rfl fun i _ => by rw [Nat.add_assoc, Nat.add_comm 1 i]

/-- Work compares by its parts, where no byte is sent. -/
lemma work_le {a b : Console} (hmain : a.main.stage + a.uart.busy ≤ b.main.stage + b.uart.busy)
    (hsent : a.uart.sent = b.uart.sent) (hunsent : a.unsent ≤ b.unsent) :
    a.work delay ≤ b.work delay := by
  rw [work, work, hsent]
  exact Nat.add_le_add hmain (cost_mono _ hunsent)

lemma work_lt {a b : Console} (hmain : a.main.stage + a.uart.busy < b.main.stage + b.uart.busy)
    (hsent : a.uart.sent = b.uart.sent) (hunsent : a.unsent ≤ b.unsent) :
    a.work delay < b.work delay := by
  rw [work, work, hsent]
  exact Nat.add_lt_add_of_lt_of_le hmain (cost_mono _ hunsent)

/-- **A write** makes the work less. -/
lemma work_write_lt {a b : Console} {c : BitVec 8} (huart : a.uart = b.uart.writeIo delay c)
    (hmain : a.main.stage ≤ b.main.stage + 2) (hunsent : b.unsent = a.unsent + 1) :
    a.work delay < b.work delay := by
  rw [work, work, hunsent, huart]
  by_cases hbusy : b.uart.busy = 0
  · rw [b.uart.writeIo_of_ready delay c hbusy, cost_succ]
    simp only [List.length_append, List.length_singleton]
    omega
  · have hlast : cost delay b.uart.sent.length (a.unsent + 1) =
        cost delay b.uart.sent.length a.unsent + (delay (b.uart.sent.length + a.unsent) + 3) :=
      sum_range_succ _ _
    rw [b.uart.writeIo_of_busy delay c hbusy, hlast]
    omega

/-- **An access of the handler** makes no more work. -/
lemma work_runHandler (hio : s.handler = .io → s.uart.rx ≠ []) :
    (s.runHandler delay).work delay ≤ s.work delay := by
  obtain ⟨uart, handler, main, arrived, log⟩ := s
  cases handler with
  | idle => exact le_rfl
  | status =>
      refine work_le (Nat.add_le_add_left (Nat.sub_le _ _) _) rfl ?_
      simp only [runHandler, unsent, Uart.readLsr]
      split_ifs <;> simp [HandlerPoint.pending]
  | io =>
      cases hrx : uart.rx with
      | nil => exact absurd hrx (hio rfl)
      | cons b rx =>
          have hread : uart.readIo.2 = ⟨rx, uart.sent, uart.busy⟩ := by
            simp only [Uart.readIo, hrx]
          refine work_le ?_ ?_ ?_
          · simp only [runHandler, hread, le_refl]
          · simp only [runHandler, hread]
          · simp only [runHandler, hread, unsent, hrx, HandlerPoint.pending]
            split_ifs <;> simp <;> omega
  | test c =>
      refine work_le le_rfl rfl ?_
      simp only [runHandler, unsent, HandlerPoint.pending]
      split_ifs with hc <;> simp
  | wait c =>
      refine work_le (Nat.add_le_add_left (Nat.sub_le _ _) _) rfl ?_
      simp only [runHandler, unsent, Uart.readLsr]
      split_ifs <;> simp [HandlerPoint.pending]
  | write c =>
      have hunsent : (⟨uart, .write c, main, arrived, log⟩ : Console).unsent =
          ((⟨uart, .write c, main, arrived, log⟩ : Console).runHandler delay).unsent + 1 := by
        simp only [unsent, runHandler, rx_writeIo, HandlerPoint.pending, List.length_singleton,
          List.length_nil]
        omega
      exact Nat.le_of_lt (work_write_lt rfl (Nat.le_add_right _ _) hunsent)

/-- **An access of the foreground** makes the work less, unless `uart_puts` has returned. -/
lemma work_runMain (hmain : s.main ≠ .done) :
    (s.runMain delay).work delay < s.work delay := by
  obtain ⟨uart, handler, main, arrived, log⟩ := s
  cases main with
  | done => exact absurd rfl hmain
  | test t =>
      have hless : ∀ main', main'.stage < 3 → main'.left = (PutsPoint.test t).left →
          (⟨uart, handler, main', arrived, log⟩ : Console).work delay <
            (⟨uart, handler, .test t, arrived, log⟩ : Console).work delay := by
        intro main' hstage hleft
        exact work_lt (Nat.add_lt_add_right hstage _) rfl (by simp only [unsent, hleft, le_refl])
      cases t with
      | nil => exact hless .done (by decide) rfl
      | cons c t =>
          refine hless _ ?_ (left_test c t)
          split_ifs <;> simp [PutsPoint.stage]
  | wait c t =>
      by_cases hready : uart.readLsr.1 &&& 0x20 ≠ 0
      · have hrun : (⟨uart, handler, .wait c t, arrived, log⟩ : Console).runMain delay =
            ⟨uart.readLsr.2, handler, .write c t, arrived, log⟩ := by
          simp only [runMain, if_pos hready]
        have hstage : (PutsPoint.write c t).stage < (PutsPoint.wait c t).stage := Nat.one_lt_two
        rw [hrun]
        exact work_lt (Nat.add_lt_add_of_lt_of_le hstage (Nat.sub_le _ _)) rfl le_rfl
      · have hbusy : uart.busy ≠ 0 := fun h0 => hready (uart.ready_iff.mpr h0)
        have hrun : (⟨uart, handler, .wait c t, arrived, log⟩ : Console).runMain delay =
            ⟨uart.readLsr.2, handler, .wait c t, arrived, log⟩ := by
          simp only [runMain, if_neg hready]
        rw [hrun]
        exact work_lt (Nat.add_lt_add_left (Nat.sub_one_lt hbusy) _) rfl le_rfl
  | write c t =>
      have hunsent : (⟨uart, handler, .write c t, arrived, log⟩ : Console).unsent =
          ((⟨uart, handler, .write c t, arrived, log⟩ : Console).runMain delay).unsent + 1 := by
        simp only [unsent, runMain, rx_writeIo, PutsPoint.left, List.length_cons]
        omega
      exact work_write_lt rfl le_rfl hunsent

end Console

/-! ### Fair runs -/

/-- An infinite run of the console that prints `text`, in which no more bytes arrive after some
time, and the foreground goes on again and again. -/
structure FairConsole (delay : ℕ → ℕ) (text : List (BitVec 8)) (busy : ℕ) (w : ℕ → Console) :
    Prop where
  start : w 0 = .start text busy
  next : ∀ k, ConsoleStep delay (w k) (w (k + 1))
  quiet : ∃ n, ∀ k, n ≤ k → (w (k + 1)).arrived = (w k).arrived
  fair : ∀ k, ∃ l, k ≤ l ∧ (w l).handler = .idle ∧ w (l + 1) = (w l).runMain delay

namespace FairConsole

variable {delay : ℕ → ℕ} {text : List (BitVec 8)} {busy : ℕ} {w : ℕ → Console}

lemma inv (h : FairConsole delay text busy w) : ∀ k, ConsoleInv text (w k)
  | 0 => h.start ▸ .start text busy
  | k + 1 => (h.inv k).step (h.next k)

lemma loss (h : FairConsole delay text busy w) : ∀ k, LossInv (w k)
  | 0 => h.start ▸ .start text busy
  | k + 1 => (h.loss k).step (h.next k)

/-- A step with which no byte arrives makes no more work. -/
lemma work_succ (h : FairConsole delay text busy w) {k : ℕ}
    (hquiet : (w (k + 1)).arrived = (w k).arrived) :
    (w (k + 1)).work delay ≤ (w k).work delay := by
  have hio := (h.inv k).io
  have hstep := h.next k
  generalize w (k + 1) = t at hquiet hstep ⊢
  generalize w k = s at hquiet hstep hio ⊢
  cases hstep with
  | code hcode =>
      cases hcode with
      | handler => exact Console.work_runHandler hio
      | main =>
          by_cases hmain : s.main = .done
          · have hsame : s.runMain delay = s := by simp only [Console.runMain, hmain]
            rw [hsame]
          · exact (Console.work_runMain hmain).le
  | arrive b => simp at hquiet
  | drain => exact Console.work_le (Nat.add_le_add_left (Nat.sub_le _ _) _) rfl le_rfl
  | interrupt iir hidle =>
      refine Console.work_le le_rfl rfl ?_
      simp only [Console.unsent, hidle]
      split_ifs <;> simp [HandlerPoint.pending]

end FairConsole

/-- **Completion**: in every run in which bytes stop arriving some time and the foreground goes on
again and again, `uart_puts` returns; its whole text has been written then, in order, mixed with the
echo of the bytes taken out of the FIFO, and what has been sent are the bytes written that were not
lost, as only a byte of the text right behind an echo can be. -/
theorem console_completes {delay : ℕ → ℕ} {text : List (BitVec 8)} {busy : ℕ} {w : ℕ → Console}
    (h : FairConsole delay text busy w) :
    ∃ k, (w k).main = .done ∧ (w k).handler = .idle ∧
      (w k).uart.sent = through (w k).log ∧
      writtenBy false (w k).log = text.takeWhile (· ≠ 0) ∧
      LostBehindEcho (w k).log ∧
      ∃ taken, (w k).arrived = taken ++ (w k).uart.rx ∧ writtenBy true (w k).log = echo taken := by
  obtain ⟨n, hquiet⟩ := h.quiet
  obtain ⟨k, -, hdone, hidle⟩ : ∃ k, n ≤ k ∧ (w k).main = .done ∧ (w k).handler = .idle := by
    refine exists_of_measure (f := fun k => (w k).work delay)
      (fun k hk => h.work_succ (hquiet k hk)) fun k _ => ?_
    obtain ⟨l, hkl, hidle, hrun⟩ := h.fair k
    refine ⟨l, hkl, ?_⟩
    by_cases hmain : (w l).main = .done
    · exact .inl ⟨hmain, hidle⟩
    · exact .inr (hrun ▸ Console.work_runMain hmain)
  have hinv := h.inv k
  obtain ⟨taken, harrived, hecho⟩ := hinv.echoed
  have hprinted := hinv.printed
  rw [hdone, PutsPoint.left, List.append_nil] at hprinted
  have hpending : HandlerPoint.idle.pending = [] := rfl
  rw [hidle, hpending, List.append_nil] at hecho
  exact ⟨k, hdone, hidle, hinv.sent, hprinted, (h.loss k).lost, taken, harrived, hecho⟩

/-- The run of a foreground that nothing interrupts. -/
lemma FairConsole.undisturbed (delay : ℕ → ℕ) (text : List (BitVec 8)) (busy : ℕ) :
    FairConsole delay text busy fun k => (Console.runMain delay)^[k] (.start text busy) := by
  have hmain : ∀ s : Console, (s.runMain delay).handler = s.handler ∧
      (s.runMain delay).arrived = s.arrived := fun s => by
    rw [Console.runMain]
    split <;> exact ⟨rfl, rfl⟩
  have hidle : ∀ k, ((Console.runMain delay)^[k] (.start text busy)).handler = .idle := fun k => by
    induction k with
    | zero => rfl
    | succ k ih =>
        rw [Function.iterate_succ_apply', (hmain _).1]
        exact ih
  have hnext : ∀ k, (Console.runMain delay)^[k + 1] (.start text busy) =
      ((Console.runMain delay)^[k] (.start text busy)).runMain delay :=
    fun k => Function.iterate_succ_apply' _ k _
  refine ⟨rfl, fun k => ?_, ⟨0, fun k _ => ?_⟩, fun k => ⟨k, le_rfl, hidle k, hnext k⟩⟩
  · simp only [hnext]
    exact .code (.main (hidle k))
  · simp only [hnext]
    exact (hmain _).2

/-- `A` is printed. -/
theorem console_completes_line : ∃ k,
    let s := (Console.runMain fun _ => 3)^[k] (.start [0x41] 0)
    s.main = .done ∧ s.handler = .idle ∧ s.uart.sent = through s.log ∧
      writtenBy false s.log = [0x41].takeWhile (· ≠ 0) ∧ LostBehindEcho s.log ∧
      ∃ taken, s.arrived = taken ++ s.uart.rx ∧ writtenBy true s.log = echo taken :=
  console_completes (.undisturbed (fun _ => 3) [0x41] 0)

end SkinnyArm
