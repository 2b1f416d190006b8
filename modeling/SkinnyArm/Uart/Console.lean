import SkinnyArm.Library.Transition
import SkinnyArm.Uart.Interrupt

/-!
The serial console of one CPU: `uart_puts` in the foreground, `uart_interrupt` whenever the CPU
takes the interrupt, and bytes that arrive at any time.

* **Steps.** Both functions run one access to the device at a time; the handler runs while the
  foreground is stopped, between any two of its accesses, and is not interrupted itself.  The
  transmitter gets ready with time.
* **The code.** `run_handler` and `run_puts`: undisturbed, the steps do what `Uart.uartInterrupt`
  and `Uart.uartPuts` do.
* **The invariant.** `ConsoleInv`: what has been written is the echo of what has been taken out of
  the FIFO, mixed with what has been printed, and what has been sent are the bytes of these that
  were not lost.
* **Losses.** `LossInv`: the handler never writes to a busy transmitter, and the foreground only if
  the handler has written since it looked.
-/

namespace SkinnyArm

/-- Where `uart_interrupt` is: in `uart_getc` (`status`, `io`), at the test of its loop, or in
`uart_send` (`wait`, `write`). -/
inductive HandlerPoint where
  | idle
  | status
  | io
  | test (c : BitVec 8)
  | wait (c : BitVec 8)
  | write (c : BitVec 8)
  deriving DecidableEq

/-- Where `uart_puts` is, with what it has left to print. -/
inductive PutsPoint where
  | test (s : List (BitVec 8))
  | wait (c : BitVec 8) (s : List (BitVec 8))
  | write (c : BitVec 8) (s : List (BitVec 8))
  | done

/-- A write to `AUX_MU_IO`, of the handler or the foreground, and whether the byte was lost. -/
structure Written where
  byte : BitVec 8
  byHandler : Bool
  lost : Bool

/-- The bytes that were not lost. -/
def through (log : List Written) : List (BitVec 8) := (log.filter (¬ ·.lost)).map Written.byte

/-- The bytes the handler or the foreground has written. -/
def writtenBy (byHandler : Bool) (log : List Written) : List (BitVec 8) :=
  (log.filter (·.byHandler = byHandler)).map Written.byte

/-- The device and the two functions; `arrived` are all bytes there have been for the FIFO, and
`log` all writes. -/
structure Console where
  uart : Uart
  handler : HandlerPoint
  main : PutsPoint
  arrived : List (BitVec 8)
  log : List Written

namespace Console

variable (delay : ℕ → ℕ) (s : Console)

/-- One access of the handler. -/
def runHandler : Console :=
  match s.handler with
  | .idle => s
  | .status =>
      { s with
        uart := s.uart.readLsr.2
        handler := if s.uart.readLsr.1 &&& 0x01 ≠ 0 then .io else .test (-1) }
  | .io =>
      let r := s.uart.readIo.1.setWidth 8
      { s with
        uart := s.uart.readIo.2
        handler := .test (if r = carriageReturn then newline else r) }
  | .test c => { s with handler := if c = 255 then .idle else .wait c }
  | .wait c =>
      { s with
        uart := s.uart.readLsr.2
        handler := if s.uart.readLsr.1 &&& 0x20 ≠ 0 then .write c else .wait c }
  | .write c =>
      { s with
        uart := s.uart.writeIo delay c
        handler := .status
        log := s.log ++ [⟨c, true, s.uart.busy ≠ 0⟩] }

/-- One access of the foreground. -/
def runMain : Console :=
  match s.main with
  | .test [] => { s with main := .done }
  | .test (c :: t) => { s with main := if c ≠ 0 then .wait c t else .done }
  | .wait c t =>
      { s with
        uart := s.uart.readLsr.2
        main := if s.uart.readLsr.1 &&& 0x20 ≠ 0 then .write c t else .wait c t }
  | .write c t =>
      { s with
        uart := s.uart.writeIo delay c
        main := .test t
        log := s.log ++ [⟨c, false, s.uart.busy ≠ 0⟩] }
  | .done => s

end Console

/-- The steps of the code. -/
inductive CodeStep (delay : ℕ → ℕ) : Console → Console → Prop
  | handler {s : Console} (h : s.handler ≠ .idle) : CodeStep delay s (s.runHandler delay)
  | main {s : Console} (h : s.handler = .idle) : CodeStep delay s (s.runMain delay)

/-- All steps: those of the code, a byte that arrives, time in which the transmitter gets on, and an
interrupt that is taken, for which `AUX_MU_IIR` reads as `iir`. -/
inductive ConsoleStep (delay : ℕ → ℕ) : Console → Console → Prop
  | code {s s' : Console} (h : CodeStep delay s s') : ConsoleStep delay s s'
  | arrive (s : Console) (b : BitVec 8) :
      ConsoleStep delay s
        { s with uart := { s.uart with rx := s.uart.rx ++ [b] }, arrived := s.arrived ++ [b] }
  | drain (s : Console) :
      ConsoleStep delay s { s with uart := { s.uart with busy := s.uart.busy - 1 } }
  | interrupt {s : Console} (iir : BitVec 32) (h : s.handler = .idle) :
      ConsoleStep delay s
        { s with handler := if iir &&& 0b100 ≠ 0 then .status else .idle }

variable {delay : ℕ → ℕ} {s s' : Console} {c : BitVec 8} {t text : List (BitVec 8)}

/-! ### The functions of the code -/

lemma handlerStep (delay : ℕ → ℕ) (s : Console) (h : s.handler ≠ .idle) :
    CodeStep delay s (s.runHandler delay) := .handler h

lemma mainStep (delay : ℕ → ℕ) (s : Console) (h : s.handler = .idle) :
    CodeStep delay s (s.runMain delay) := .main h

/-- The handler waits for the transmitter and writes its byte. -/
lemma run_send (u : Uart) (c : BitVec 8) (s : Console) :
    Run (CodeStep delay) { s with uart := u, handler := .wait c }
      { s with
        uart := u.uartSend delay c
        handler := .status
        log := s.log ++ [⟨c, true, false⟩] } := by
  induction u using Uart.uartSend.induct with
  | case1 u hready =>
      rw [Uart.uartSend, if_pos hready]
      have hwait : CodeStep delay { s with uart := u, handler := .wait c }
          { s with uart := u.readLsr.2, handler := .write c } := by
        have hstep := handlerStep delay { s with uart := u, handler := .wait c } (by simp)
        simpa only [Console.runHandler, if_pos hready] using hstep
      have hwrite := handlerStep delay { s with uart := u.readLsr.2, handler := .write c } (by simp)
      simp only [Console.runHandler, u.busy_readLsr (u.ready_iff.mp hready), ne_eq,
        not_true_eq_false, decide_false] at hwrite
      exact (Relation.ReflTransGen.single hwait).tail hwrite
  | case2 u hready ih =>
      rw [Uart.uartSend, if_neg hready]
      have hwait : CodeStep delay { s with uart := u, handler := .wait c }
          { s with uart := u.readLsr.2, handler := .wait c } := by
        have hstep := handlerStep delay { s with uart := u, handler := .wait c } (by simp)
        simpa only [Console.runHandler, if_neg hready] using hstep
      exact .head hwait ih

/-- The handler fetches a byte or `-1`. -/
lemma run_getc (u : Uart) (s : Console) :
    Run (CodeStep delay) { s with uart := u, handler := .status }
      { s with uart := u.uartGetc.2, handler := .test u.uartGetc.1 } := by
  have hstatus := handlerStep delay { s with uart := u, handler := .status } (by simp)
  by_cases hbyte : u.readLsr.1 &&& 0x01 ≠ 0
  · have hio := handlerStep delay { s with uart := u.readLsr.2, handler := .io } (by simp)
    simp only [Console.runHandler, if_pos hbyte] at hstatus
    simp only [Console.runHandler] at hio
    rw [Uart.uartGetc, if_pos hbyte]
    exact (Relation.ReflTransGen.single hstatus).tail hio
  · simp only [Console.runHandler, if_neg hbyte] at hstatus
    rw [Uart.uartGetc, if_neg hbyte]
    exact .single hstatus

/-- **The handler**, undisturbed, does what `Uart.uartInterruptLoop` does. -/
lemma run_handler (delay : ℕ → ℕ) (u : Uart) (s : Console) :
    ∃ log, Run (CodeStep delay) { s with uart := u, handler := .status }
      { s with uart := u.uartInterruptLoop delay, handler := .idle, log := log } := by
  induction u using Uart.uartInterruptLoop.induct delay generalizing s with
  | case1 u hlast =>
      rw [Uart.uartInterruptLoop, if_pos hlast]
      have htest := handlerStep delay
        { s with uart := u.uartGetc.2, handler := .test u.uartGetc.1 } (by simp)
      simp only [Console.runHandler, if_pos hlast] at htest
      exact ⟨s.log, (run_getc u s).tail htest⟩
  | case2 u hmore ih =>
      rw [Uart.uartInterruptLoop, if_neg hmore]
      have htest := handlerStep delay
        { s with uart := u.uartGetc.2, handler := .test u.uartGetc.1 } (by simp)
      simp only [Console.runHandler, if_neg hmore] at htest
      obtain ⟨log, hrest⟩ := ih { s with log := s.log ++ [⟨u.uartGetc.1, true, false⟩] }
      exact ⟨log, (((run_getc u s).tail htest).trans (run_send _ _ s)).trans hrest⟩

/-- The foreground waits for the transmitter and writes its byte. -/
lemma run_putc (u : Uart) (c : BitVec 8) (t : List (BitVec 8)) (s : Console)
    (hidle : s.handler = .idle) :
    Run (CodeStep delay) { s with uart := u, main := .wait c t }
      { s with
        uart := u.uartSend delay c
        main := .test t
        log := s.log ++ [⟨c, false, false⟩] } := by
  induction u using Uart.uartSend.induct with
  | case1 u hready =>
      rw [Uart.uartSend, if_pos hready]
      have hwait := mainStep delay { s with uart := u, main := .wait c t } hidle
      have hwrite := mainStep delay { s with uart := u.readLsr.2, main := .write c t } hidle
      simp only [Console.runMain, if_pos hready] at hwait
      simp only [Console.runMain, u.busy_readLsr (u.ready_iff.mp hready), ne_eq,
        not_true_eq_false, decide_false] at hwrite
      exact (Relation.ReflTransGen.single hwait).tail hwrite
  | case2 u hready ih =>
      rw [Uart.uartSend, if_neg hready]
      have hwait := mainStep delay { s with uart := u, main := .wait c t } hidle
      simp only [Console.runMain, if_neg hready] at hwait
      exact .head hwait ih

/-- **The foreground**, undisturbed, does what `Uart.uartPuts` does. -/
lemma run_puts (t : List (BitVec 8)) (u : Uart) (s : Console) (hidle : s.handler = .idle) :
    ∃ log, Run (CodeStep delay) { s with uart := u, main := .test t }
      { s with uart := u.uartPuts delay t, main := .done, log := log } := by
  induction t generalizing u s with
  | nil =>
      have htest := mainStep delay { s with uart := u, main := .test [] } hidle
      exact ⟨s.log, .single htest⟩
  | cons c t ih =>
      have htest := mainStep delay { s with uart := u, main := .test (c :: t) } hidle
      rw [Uart.uartPuts]
      by_cases hc : c ≠ 0
      · simp only [Console.runMain, if_pos hc] at htest
        obtain ⟨log, hrest⟩ :=
          ih (u.uartSend delay c) { s with log := s.log ++ [⟨c, false, false⟩] } hidle
        rw [if_pos hc]
        exact ⟨log, .head htest ((run_putc u c t s hidle).trans hrest)⟩
      · simp only [Console.runMain, if_neg hc] at htest
        rw [if_neg hc]
        exact ⟨s.log, .single htest⟩

/-! ### The invariant -/

/-- The byte the handler has taken and not sent yet. -/
def HandlerPoint.pending : HandlerPoint → List (BitVec 8)
  | .test c => if c = 255 then [] else [c]
  | .wait c | .write c => [c]
  | _ => []

/-- What the foreground has not sent yet. -/
def PutsPoint.left : PutsPoint → List (BitVec 8)
  | .test s => s.takeWhile (· ≠ 0)
  | .wait c s | .write c s => c :: s.takeWhile (· ≠ 0)
  | .done => []

/-- The bytes the handler echoes of those it has taken: all but the bytes 255. -/
def echo (taken : List (BitVec 8)) : List (BitVec 8) := (taken.filter (· ≠ 255)).map received

/-- The foreground prints `text`: what it has printed and has left to print is the text up to its
NUL, what the handler has echoed and has pending is the echo of what it has taken, and all that is
sent is what got through of these two. -/
structure ConsoleInv (text : List (BitVec 8)) (s : Console) : Prop where
  sent : s.uart.sent = through s.log
  printed : writtenBy false s.log ++ s.main.left = text.takeWhile (· ≠ 0)
  echoed : ∃ taken, s.arrived = taken ++ s.uart.rx ∧
    writtenBy true s.log ++ s.handler.pending = echo taken
  io : s.handler = .io → s.uart.rx ≠ []

/-- A write adds its byte to those sent, unless it is lost. -/
lemma sent_writeIo (u : Uart) (c : BitVec 8) (b : Bool) :
    (u.writeIo delay c).sent = u.sent ++ through [⟨c, b, u.busy ≠ 0⟩] := by
  by_cases hbusy : u.busy = 0
  · rw [u.writeIo_of_ready delay c hbusy]
    simp [through, hbusy]
  · rw [u.writeIo_of_busy delay c hbusy]
    simp [through, hbusy]

@[simp] lemma rx_writeIo (u : Uart) (c : BitVec 8) : (u.writeIo delay c).rx = u.rx := by
  rw [Uart.writeIo]
  split_ifs <;> rfl

lemma through_append (log log' : List Written) :
    through (log ++ log') = through log ++ through log' := by
  simp [through]

/-- An echo grows by the byte taken. -/
lemma echo_append (taken : List (BitVec 8)) (b : BitVec 8) :
    echo (taken ++ [b]) = echo taken ++ (HandlerPoint.test (received b)).pending := by
  rw [echo, List.filter_append, List.map_append, ← echo]
  congr 1
  by_cases hb : b = 255
  · have hreceived : received b = 255 := (received_eq_iff b).mpr hb
    rw [HandlerPoint.pending, if_pos hreceived, List.filter_cons_of_neg (by simp [hb])]
    rfl
  · have hreceived : received b ≠ 255 := fun h => hb ((received_eq_iff b).mp h)
    rw [HandlerPoint.pending, if_neg hreceived, List.filter_cons_of_pos (by simpa using hb)]
    rfl

/-- The test of `uart_puts` goes on to the next byte, unless it is the NUL. -/
lemma left_test (c : BitVec 8) (t : List (BitVec 8)) :
    (if c ≠ 0 then PutsPoint.wait c t else .done).left = (c :: t).takeWhile (· ≠ 0) := by
  by_cases hc : c ≠ 0
  · rw [if_pos hc, List.takeWhile_cons_of_pos (by simpa using hc), PutsPoint.left]
  · rw [if_neg hc, List.takeWhile_cons_of_neg (by simpa using hc), PutsPoint.left]

namespace ConsoleInv

/-- **An access of the handler.** -/
lemma runHandler (h : ConsoleInv text s) : ConsoleInv text (s.runHandler delay) := by
  obtain ⟨taken, harrived, hecho⟩ := h.echoed
  have hsent := h.sent
  have hprinted := h.printed
  have hio := h.io
  obtain ⟨uart, handler, main, arrived, log⟩ := s
  cases handler with
  | idle => exact h
  | status =>
      refine ⟨hsent, hprinted, ⟨taken, harrived, ?_⟩, fun hpoint => ?_⟩
      · rw [← hecho]
        simp only [Console.runHandler]
        split_ifs
        · rfl
        · rfl
      · by_cases hbyte : uart.readLsr.1 &&& 0x01 ≠ 0
        · exact uart.waits_iff.mp hbyte
        · simp only [Console.runHandler, if_neg hbyte, reduceCtorEq] at hpoint
  | io =>
      cases hrx : uart.rx with
      | nil => exact absurd hrx (hio rfl)
      | cons b rx =>
          have hread : uart.readIo = (b.setWidth 32, ⟨rx, uart.sent, uart.busy⟩) := by
            simp only [Uart.readIo, hrx]
          have hbyte : (b.setWidth 32).setWidth 8 = b := by simp
          simp only [Console.runHandler, hread, hbyte]
          refine ⟨hsent, hprinted, ⟨taken ++ [b], ?_, ?_⟩, fun hpoint => absurd hpoint (by simp)⟩
          · rw [harrived, hrx, List.append_assoc, List.singleton_append]
          · rw [echo_append, ← hecho]
            simp only [HandlerPoint.pending, List.append_nil]
            rfl
  | test c =>
      refine ⟨hsent, hprinted, ⟨taken, harrived, ?_⟩, fun hpoint => ?_⟩
      · rw [← hecho]
        simp only [Console.runHandler, HandlerPoint.pending]
        split_ifs
        · rfl
        · rfl
      · simp only [Console.runHandler] at hpoint
        split_ifs at hpoint
  | wait c =>
      refine ⟨hsent, hprinted, ⟨taken, harrived, ?_⟩, fun hpoint => ?_⟩
      · rw [← hecho]
        simp only [Console.runHandler]
        split_ifs
        · rfl
        · rfl
      · simp only [Console.runHandler] at hpoint
        split_ifs at hpoint
  | write c =>
      refine ⟨?_, ?_, ⟨taken, ?_, ?_⟩, fun hpoint => absurd hpoint (by simp [Console.runHandler])⟩
      · simp only [Console.runHandler, sent_writeIo uart c true, through_append]
        rw [← hsent]
      · rw [← hprinted]
        simp [Console.runHandler, writtenBy]
      · simpa only [Console.runHandler, rx_writeIo] using harrived
      · rw [← hecho]
        simp [Console.runHandler, HandlerPoint.pending, writtenBy]

/-- **An access of the foreground.** -/
lemma runMain (h : ConsoleInv text s) : ConsoleInv text (s.runMain delay) := by
  obtain ⟨taken, harrived, hecho⟩ := h.echoed
  have hsent := h.sent
  have hprinted := h.printed
  have hio := h.io
  obtain ⟨uart, handler, main, arrived, log⟩ := s
  cases main with
  | test t =>
      cases t with
      | nil => exact ⟨hsent, hprinted, ⟨taken, harrived, hecho⟩, hio⟩
      | cons c t =>
          refine ⟨hsent, ?_, ⟨taken, harrived, hecho⟩, hio⟩
          rw [← hprinted]
          exact congrArg _ (left_test c t)
  | wait c t =>
      refine ⟨hsent, ?_, ⟨taken, harrived, hecho⟩, hio⟩
      rw [← hprinted]
      simp only [Console.runMain]
      split_ifs
      · rfl
      · rfl
  | write c t =>
      refine ⟨?_, ?_, ⟨taken, ?_, ?_⟩, fun hpoint => ?_⟩
      · simp only [Console.runMain, sent_writeIo uart c false, through_append]
        rw [← hsent]
      · rw [← hprinted]
        simp [Console.runMain, PutsPoint.left, writtenBy]
      · simpa only [Console.runMain, rx_writeIo] using harrived
      · rw [← hecho]
        simp [Console.runMain, writtenBy]
      · simpa only [Console.runMain, rx_writeIo] using hio hpoint
  | done => exact h

/-- **A step** keeps the invariant. -/
lemma step (h : ConsoleInv text s) (hstep : ConsoleStep delay s s') : ConsoleInv text s' := by
  cases hstep with
  | code hcode =>
      cases hcode with
      | handler => exact h.runHandler
      | main => exact h.runMain
  | arrive b =>
      obtain ⟨taken, harrived, hecho⟩ := h.echoed
      refine ⟨h.sent, h.printed, ⟨taken, ?_, hecho⟩, fun _ => by simp⟩
      rw [harrived, List.append_assoc]
  | drain => exact ⟨h.sent, h.printed, h.echoed, h.io⟩
  | interrupt iir hidle =>
      obtain ⟨taken, harrived, hecho⟩ := h.echoed
      refine ⟨h.sent, h.printed, ⟨taken, harrived, ?_⟩, fun hpoint => ?_⟩
      · rw [← hecho, hidle]
        simp only
        split_ifs
        · rfl
        · rfl
      · simp only at hpoint
        split_ifs at hpoint

end ConsoleInv

/-! ### Losses -/

/-- The last write was the handler's. -/
def EndsInEcho (log : List Written) : Prop := ∃ l v, log = l ++ [v] ∧ v.byHandler

/-- Only the foreground has lost bytes, and those it wrote right behind the handler. -/
def LostBehindEcho (log : List Written) : Prop :=
  ∀ l w l', log = l ++ w :: l' → w.lost → ¬ w.byHandler ∧ EndsInEcho l

lemma LostBehindEcho.concat {log : List Written} {w : Written} (h : LostBehindEcho log)
    (hw : w.lost → ¬ w.byHandler ∧ EndsInEcho log) : LostBehindEcho (log ++ [w]) := by
  intro l v l' heq hlost
  rcases List.eq_nil_or_concat l' with rfl | ⟨l', x, rfl⟩
  · obtain ⟨rfl, hlast⟩ := List.append_inj' heq rfl
    obtain rfl : w = v := by simpa using hlast
    exact hw hlost
  · have hcut : log ++ [w] = (l ++ v :: l') ++ [x] := by simpa using heq
    exact h l v l' (List.append_inj' hcut rfl).1 hlost

/-- The handler writes to a ready transmitter; so does the foreground, unless the handler has
written since it looked. -/
structure LossInv (s : Console) : Prop where
  ready : ∀ c, s.handler = .write c → s.uart.busy = 0
  looked : ∀ c t, s.main = .write c t → s.uart.busy = 0 ∨ EndsInEcho s.log
  lost : LostBehindEcho s.log

namespace LossInv

/-- What only lets time pass. -/
lemma of_le (h : LossInv s) (hbusy : s'.uart.busy ≤ s.uart.busy) (hlog : s'.log = s.log)
    (hhandler : ∀ c, s'.handler = .write c → s'.uart.busy = 0)
    (hmain : ∀ c t, s'.main = .write c t → s'.uart.busy = 0 ∨ s'.main = s.main) : LossInv s' := by
  refine ⟨hhandler, fun c t hpoint => ?_, hlog ▸ h.lost⟩
  rcases hmain c t hpoint with h0 | hsame
  · exact .inl h0
  · rw [hlog]
    exact (h.looked c t (hsame ▸ hpoint)).imp_left fun h0 => by omega

/-- **An access of the handler.** -/
lemma runHandler (h : LossInv s) : LossInv (s.runHandler delay) := by
  obtain ⟨uart, handler, main, arrived, log⟩ := s
  cases handler with
  | idle => exact h
  | status =>
      refine h.of_le (Nat.sub_le _ _) rfl (fun c hpoint => ?_) fun c t _ => .inr rfl
      simp only [Console.runHandler] at hpoint
      split_ifs at hpoint
  | io =>
      refine h.of_le ?_ rfl (fun c hpoint => absurd hpoint (by simp [Console.runHandler]))
        fun c t _ => .inr rfl
      simp only [Console.runHandler, Uart.readIo]
      split <;> exact le_rfl
  | test c =>
      refine h.of_le le_rfl rfl (fun d hpoint => ?_) fun d t _ => .inr rfl
      simp only [Console.runHandler] at hpoint
      split_ifs at hpoint
  | wait c =>
      refine h.of_le (Nat.sub_le _ _) rfl (fun d hpoint => ?_) fun d t _ => .inr rfl
      by_cases hready : uart.readLsr.1 &&& 0x20 ≠ 0
      · exact uart.busy_readLsr (uart.ready_iff.mp hready)
      · simp only [Console.runHandler, if_neg hready, reduceCtorEq] at hpoint
  | write c =>
      have hbusy : uart.busy = 0 := h.ready c rfl
      refine ⟨fun d hpoint => absurd hpoint (by simp [Console.runHandler]),
        fun d t _ => .inr ⟨log, _, rfl, rfl⟩, h.lost.concat fun hlost => ?_⟩
      simp [hbusy] at hlost

/-- **An access of the foreground**, while the handler is idle. -/
lemma runMain (h : LossInv s) (hidle : s.handler = .idle) : LossInv (s.runMain delay) := by
  obtain ⟨uart, handler, main, arrived, log⟩ := s
  obtain rfl : handler = .idle := hidle
  have hhandler : ∀ (u : Uart) c, HandlerPoint.idle = .write c → u.busy = 0 :=
    fun _ _ hpoint => absurd hpoint (by simp)
  cases main with
  | test t =>
      cases t with
      | nil => exact h.of_le le_rfl rfl (hhandler _) fun c t hpoint => absurd hpoint (by
          simp [Console.runMain])
      | cons c t =>
          refine h.of_le le_rfl rfl (hhandler _) fun d t' hpoint => ?_
          simp only [Console.runMain] at hpoint
          split_ifs at hpoint
  | wait c t =>
      refine h.of_le (Nat.sub_le _ _) rfl (hhandler _) fun d t' hpoint => ?_
      by_cases hready : uart.readLsr.1 &&& 0x20 ≠ 0
      · exact .inl (uart.busy_readLsr (uart.ready_iff.mp hready))
      · simp only [Console.runMain, if_neg hready, reduceCtorEq] at hpoint
  | write c t =>
      -- a byte is lost if the transmitter is busy again, and then the handler has written
      refine ⟨hhandler _, fun d t' hpoint => absurd hpoint (by simp [Console.runMain]),
        h.lost.concat fun hlost => ⟨by simp, ?_⟩⟩
      exact (h.looked c t rfl).resolve_left (by simpa using hlost)
  | done => exact h

/-- **A step** keeps the invariant. -/
lemma step (h : LossInv s) (hstep : ConsoleStep delay s s') : LossInv s' := by
  cases hstep with
  | code hcode =>
      cases hcode with
      | handler => exact h.runHandler
      | main hidle => exact h.runMain hidle
  | arrive b => exact ⟨h.ready, h.looked, h.lost⟩
  | drain =>
      exact h.of_le (Nat.sub_le _ _) rfl (fun c hpoint => by simp [h.ready c hpoint])
        fun c t _ => .inr rfl
  | interrupt iir hidle =>
      refine h.of_le le_rfl rfl (fun c hpoint => ?_) fun c t _ => .inr rfl
      simp only at hpoint
      split_ifs at hpoint

end LossInv

/-! ### Runs -/

/-- The foreground calls `uart_puts` on a device that has neither received nor sent a byte. -/
def Console.start (text : List (BitVec 8)) (busy : ℕ) : Console :=
  ⟨⟨[], [], busy⟩, .idle, .test text, [], []⟩

lemma ConsoleInv.start (text : List (BitVec 8)) (busy : ℕ) :
    ConsoleInv text (.start text busy) :=
  ⟨rfl, rfl, ⟨[], rfl, rfl⟩, fun h => absurd h (by simp [Console.start])⟩

lemma LossInv.start (text : List (BitVec 8)) (busy : ℕ) : LossInv (.start text busy) :=
  ⟨fun _ h => absurd h (by simp [Console.start]), fun _ _ h => absurd h (by simp [Console.start]),
    fun l w l' h => absurd h (by simp [Console.start])⟩

/-- **The console**: whatever arrives and wherever `uart_puts` is interrupted, the bytes written are
those the foreground has printed so far, up to the text's NUL, mixed with the echo of the bytes
taken out of the FIFO but for the bytes 255, each in order.  What is sent are the bytes written that
were not lost: no echo is lost, and a byte of the foreground only right behind one. -/
theorem console_run {busy : ℕ} (hrun : Run (ConsoleStep delay) (.start text busy) s) :
    ∃ taken, s.arrived = taken ++ s.uart.rx ∧
      s.uart.sent = through s.log ∧
      writtenBy false s.log ++ s.main.left = text.takeWhile (· ≠ 0) ∧
      writtenBy true s.log ++ s.handler.pending = echo taken ∧
      LostBehindEcho s.log := by
  have hinv : ConsoleInv text s :=
    hrun.invariant (fun h hstep => h.step hstep) (.start text busy)
  have hloss : LossInv s := hrun.invariant (fun h hstep => h.step hstep) (.start text busy)
  obtain ⟨taken, harrived, hecho⟩ := hinv.echoed
  exact ⟨taken, harrived, hinv.sent, hinv.printed, hecho, hloss.lost⟩

/-- `A` is printed, and lost: `B` arrives when `uart_puts` has seen the transmitter ready, and is
echoed first. -/
theorem console_run_lost : ∃ s : Console, s.main = .test [] ∧ s.uart.sent = [0x42] ∧
    s.log = [⟨0x42, true, false⟩, ⟨0x41, false, true⟩] ∧
    ∃ taken, s.arrived = taken ++ s.uart.rx ∧
      s.uart.sent = through s.log ∧
      writtenBy false s.log ++ s.main.left = [0x41].takeWhile (· ≠ 0) ∧
      writtenBy true s.log ++ s.handler.pending = echo taken ∧
      LostBehindEcho s.log := by
  have hlook : Run (ConsoleStep fun _ => 9) (.start [0x41] 0)
      ⟨⟨[], [], 0⟩, .idle, .write 0x41 [], [], []⟩ :=
    .tail (.single (.code (.main rfl))) (.code (.main rfl))
  have htaken : Run (ConsoleStep fun _ => 9) ⟨⟨[], [], 0⟩, .idle, .write 0x41 [], [], []⟩
      ⟨⟨[0x42], [], 0⟩, .status, .write 0x41 [], [0x42], []⟩ :=
    .tail (.single (.arrive _ 0x42)) (.interrupt 0b100 rfl)
  have hecho : Run (ConsoleStep fun _ => 9)
      ⟨⟨[0x42], [], 0⟩, .status, .write 0x41 [], [0x42], []⟩
      ⟨⟨[], [0x42], 8⟩, .idle, .write 0x41 [], [0x42], [⟨0x42, true, false⟩]⟩ := by
    have hhandler : ∀ {a b : Console}, a.handler ≠ .idle →
        Run (ConsoleStep fun _ => 9) (a.runHandler fun _ => 9) b → Run _ a b :=
      fun ha hrun => .head (.code (.handler ha)) hrun
    -- `uart_getc`, the test, `uart_send`, and `uart_getc` and the test again
    exact hhandler (by decide) (hhandler (by decide) (hhandler (by decide)
      (hhandler (by decide) (hhandler (by decide) (hhandler (by decide)
        (hhandler (by decide) .refl))))))
  have hwrite : ConsoleStep (fun _ => 9)
      ⟨⟨[], [0x42], 8⟩, .idle, .write 0x41 [], [0x42], [⟨0x42, true, false⟩]⟩
      ⟨⟨[], [0x42], 8⟩, .idle, .test [], [0x42], [⟨0x42, true, false⟩, ⟨0x41, false, true⟩]⟩ :=
    .code (.main rfl)
  exact ⟨_, rfl, rfl, rfl, console_run (((hlook.trans htaken).trans hecho).tail hwrite)⟩

end SkinnyArm
