import SkinnyArm.Allocator.Init
import SkinnyArm.Process.Fork

/-!
Which frame belongs to which process, over runs of `sys_fork` and `kill_process`.

* `FramePlace`: a frame is on the free list, or the stack or the trap frame of a slot in use.
* `FrameInv` says that every one of the given frames is in exactly one place and that the first slot
  is in use with pid 0; as long as `kill_process(0)` is not called, every call keeps it.
* `keepsFrames_iff`: `create_first_process` never stores its stack frame, so of the frames there
  were at boot the first one is lost; the others are in one place as long as pid 0 is not killed.
-/

namespace SkinnyArm

open ByteMemory

/-- The places an allocator frame can be in. -/
inductive FramePlace where
  | freeList
  | stack (i : Fin proccnt)
  | trap (i : Fin proccnt)

/-- The frame is in the place, where the free list is the given one. -/
def FramePlace.Holds (s : System proccnt) (fs : List ℕ) (f : ℕ) : FramePlace → Prop
  | .freeList => f ∈ fs
  | .stack i => (s.processArray i).state ≠ .free ∧ (s.processArray i).stackFrame = f
  | .trap i => (s.processArray i).state ≠ .free ∧ (s.processArray i).trapFrame = f

/-- There is a free list, and each of the frames is in exactly one place. -/
def InOnePlace (frames : List ℕ) (s : System proccnt) : Prop :=
  ∃ fs, FreeList s.kernel fs ∧ ∀ f ∈ frames, ∃! p : FramePlace, p.Holds s fs f

/-- What the call gives to `kfree` is an allocator frame that is in use: the two frames of the slot
killed, or the frame of a `sys_fork` that finds no second one. -/
def KfreeRight (frames : List ℕ) (s : System proccnt) : ProcessOp → Prop
  | .kill pid => (s.processArray 0).pid = pid →
      (s.processArray 0).state ≠ .free ∧ (s.processArray 0).stackFrame ∈ frames ∧
        (s.processArray 0).trapFrame ∈ frames
  | .fork _ => ∀ f k, s.kernel.kalloc = some (f, k) → k.kalloc = none → f ∈ frames

/-- All over a run, the frames are in one place and `kfree` is called right. -/
def KeepsFrames (frames : List ℕ) : System proccnt → List ProcessOp → Prop
  | s, [] => InOnePlace frames s
  | s, op :: ops => InOnePlace frames s ∧ KfreeRight frames s op ∧
      ∀ s', op.Performs s s' → KeepsFrames frames s' ops

variable {s s' : System proccnt} {frames fs : List ℕ} {op : ProcessOp}

lemma KeepsFrames.inOnePlace {ops : List ProcessOp} (h : KeepsFrames frames s ops) :
    InOnePlace frames s := by
  cases ops with
  | nil => exact h
  | cons op ops => exact h.1

/-! ### The first slot -/

/-- Nothing but `kill_process(0)` touches the first slot while it is in use. -/
lemma ProcessOp.Performs.first (h : op.Performs s s') (hop : op ≠ .kill 0)
    (hstate : (s.processArray 0).state ≠ .free) (hpid : (s.processArray 0).pid = 0) :
    s'.processArray 0 = s.processArray 0 := by
  cases h with
  | fork hfork =>
      cases System.forks_of_sysFork hfork with
      | full => rfl
      | noStack => rfl
      | noTrap hi =>
          refine System.processArray_setProcess_of_ne (s := { s with current := _ }) _ ?_
          rintro rfl
          exact hstate hi
      | child hi =>
          refine System.processArray_setProcess_of_ne (s := { s with current := _ }) _ ?_
          rintro rfl
          exact hstate hi
  | kill pid =>
      have hne : (s.processArray 0).pid ≠ pid := fun he => hop (by rw [← he, hpid])
      rw [System.killProcess_of_ne hne]

/-! ### Places -/

namespace FramePlace

variable {q : FramePlace} {i : Fin proccnt} {p : Process proccnt} {fs' : List ℕ} {f : ℕ}

/-- The places of other slots are as before. -/
lemma holds_setProcess (hq : q ≠ .stack i ∧ q ≠ .trap i) :
    q.Holds (s.setProcess i p) fs f ↔ q.Holds s fs f := by
  cases q with
  | freeList => exact Iff.rfl
  | stack j =>
      have hj : j ≠ i := fun hj => hq.1 (by rw [hj])
      simp only [Holds, System.processArray_setProcess_of_ne p hj]
  | trap j =>
      have hj : j ≠ i := fun hj => hq.2 (by rw [hj])
      simp only [Holds, System.processArray_setProcess_of_ne p hj]

lemma Holds.mono (h : q.Holds s fs f) (hsub : ∀ g ∈ fs, g ∈ fs') : q.Holds s fs' f := by
  cases q with
  | freeList => exact hsub f h
  | stack j => exact h
  | trap j => exact h

/-- A free slot is no place. -/
lemma Holds.ne_of_free (h : q.Holds s fs f) (hi : (s.processArray i).state = .free) :
    q ≠ .stack i ∧ q ≠ .trap i := by
  constructor
  all_goals
    rintro rfl
    exact h.1 hi

end FramePlace

/-! ### The invariant -/

/-- The free list and the slots in use share the frames out, and the first slot is in use. -/
structure FrameInv (frames : List ℕ) (s : System proccnt) (fs : List ℕ) : Prop where
  list : FreeList s.kernel fs
  sub : ∀ f ∈ fs, f ∈ frames
  place : ∀ f ∈ frames, ∃! p : FramePlace, p.Holds s fs f
  state : (s.processArray 0).state ≠ .free
  pid : (s.processArray 0).pid = 0

namespace FrameInv

variable {i : Fin proccnt} {p : Process proccnt} {k : Kernel} {f g : ℕ}

lemma inOnePlace (h : FrameInv frames s fs) : InOnePlace frames s := ⟨fs, h.list, h.place⟩

lemma kfreeRight (h : FrameInv frames s fs) (hop : op ≠ .kill 0) : KfreeRight frames s op := by
  cases op with
  | fork caller =>
      intro f k hk _
      obtain ⟨rest, rfl, -⟩ := h.list.kalloc hk
      exact h.sub f List.mem_cons_self
  | kill pid =>
      intro hpid
      exact absurd (by rw [← hpid, h.pid]) hop

/-- Another caller. -/
lemma setCurrent (h : FrameInv frames s fs) (c : Fin proccnt) :
    FrameInv frames { s with current := c } fs := ⟨h.list, h.sub, h.place, h.state, h.pid⟩

/-- The first slot is not free. -/
lemma first_setProcess (h : FrameInv frames s fs) (hi : (s.processArray i).state = .free) :
    (s.setProcess i p).processArray 0 = s.processArray 0 := by
  refine System.processArray_setProcess_of_ne p ?_
  rintro rfl
  exact h.state hi

/-- A write to a free slot that leaves it free, and an allocator with the same free list. -/
lemma writeFree (h : FrameInv frames s fs) (hi : (s.processArray i).state = .free)
    (hp : p.state = .free) (hk : FreeList k fs) :
    FrameInv frames { s.setProcess i p with kernel := k } fs where
  list := hk
  sub := h.sub
  place := by
    intro f hf
    obtain ⟨q, hq, huniq⟩ := h.place f hf
    refine ⟨q, (FramePlace.holds_setProcess (hq.ne_of_free hi)).mpr hq, fun q' hq' => ?_⟩
    have hnew : q'.Holds (s.setProcess i p) fs f := hq'
    have hne := hnew.ne_of_free (i := i) (by rw [System.processArray_setProcess_self, hp])
    exact huniq q' ((FramePlace.holds_setProcess hne).mp hnew)
  state := (congrArg (·.state ≠ .free) (h.first_setProcess hi)).mpr h.state
  pid := (congrArg (·.pid) (h.first_setProcess hi)).trans h.pid

/-- A free slot gets the first two frames of the free list. -/
lemma writeUsed {rest : List ℕ} (h : FrameInv frames s (f :: g :: rest))
    (hi : (s.processArray i).state = .free) (hp : p.state ≠ .free) (hstack : p.stackFrame = f)
    (htrap : p.trapFrame = g) (hk : FreeList k rest) :
    FrameInv frames { s.setProcess i p with kernel := k } rest where
  list := hk
  sub a ha := h.sub a (by simp [ha])
  place := by
    have hnodup := h.list.nodup
    simp only [List.nodup_cons, List.mem_cons, not_or] at hnodup
    obtain ⟨⟨hfg, hfrest⟩, hgrest, -⟩ := hnodup
    have hself : (s.setProcess i p).processArray i = p := System.processArray_setProcess_self p
    -- a place after the call is one of the two new ones or an old one
    have hcases : ∀ a (q : FramePlace), q.Holds (s.setProcess i p) rest a →
        q = .stack i ∧ a = f ∨ q = .trap i ∧ a = g ∨ q.Holds s rest a := by
      intro a q hq
      by_cases hqs : q = .stack i
      · subst hqs
        exact .inl ⟨rfl, by rw [← hstack, ← hself]; exact hq.2.symm⟩
      by_cases hqt : q = .trap i
      · subst hqt
        exact .inr (.inl ⟨rfl, by rw [← htrap, ← hself]; exact hq.2.symm⟩)
      exact .inr (.inr ((FramePlace.holds_setProcess ⟨hqs, hqt⟩).mp hq))
    have hgone : ∀ a, a ∈ f :: g :: rest → a ∉ rest → a ∈ frames →
        ∀ q : FramePlace, ¬ q.Holds s rest a := by
      intro a ha harest hframes q hq
      have hlist : q = .freeList :=
        (h.place a hframes).unique (hq.mono fun b hb => by simp [hb]) ha
      subst hlist
      exact harest hq
    intro a ha
    by_cases haf : a = f
    · subst haf
      refine ⟨.stack i, ⟨by rw [hself]; exact hp, by rw [hself]; exact hstack⟩, fun q hq => ?_⟩
      rcases hcases a q hq with ⟨hq, -⟩ | ⟨-, hag⟩ | hold
      · exact hq
      · exact absurd hag hfg
      · exact absurd hold (hgone a (by simp) hfrest ha q)
    by_cases hag : a = g
    · subst hag
      refine ⟨.trap i, ⟨by rw [hself]; exact hp, by rw [hself]; exact htrap⟩, fun q hq => ?_⟩
      rcases hcases a q hq with ⟨-, haf'⟩ | ⟨hq, -⟩ | hold
      · exact absurd haf' haf
      · exact hq
      · exact absurd hold (hgone a (by simp) hgrest ha q)
    · obtain ⟨q, hq, huniq⟩ := h.place a ha
      have hq' : q.Holds s rest a := by
        cases q with
        | freeList => simpa [FramePlace.Holds, haf, hag] using hq
        | stack j => exact hq
        | trap j => exact hq
      refine ⟨q, (FramePlace.holds_setProcess (hq.ne_of_free hi)).mpr hq', fun q₁ hq₁ => ?_⟩
      rcases hcases a q₁ hq₁ with ⟨-, haf'⟩ | ⟨-, hag'⟩ | hold
      · exact absurd haf' haf
      · exact absurd hag' hag
      · exact huniq q₁ (hold.mono fun b hb => by simp [hb])
  state := (congrArg (·.state ≠ .free) (h.first_setProcess hi)).mpr h.state
  pid := (congrArg (·.pid) (h.first_setProcess hi)).trans h.pid

/-- `sys_fork` keeps the invariant. -/
lemma sysFork (h : FrameInv frames s fs) {v : Option ℤ} (hfork : s.sysFork = some (s', v)) :
    ∃ fs', FrameInv frames s' fs' := by
  cases System.forks_of_sysFork hfork with
  | full => exact ⟨fs, h⟩
  | noStack => exact ⟨fs, h⟩
  | @noTrap i stackFrame k₁ hi h₁ h₂ =>
      obtain ⟨rfl, hback⟩ := h.list.kfree_kalloc h₁ h₂
      exact ⟨_, h.writeFree hi hi hback⟩
  | @child i stackFrame trapFrame k₁ k₂ caller pid hi h₁ h₂ =>
      obtain ⟨rest₁, rfl, hrest₁⟩ := h.list.kalloc h₁
      obtain ⟨rest, rfl, hrest⟩ := hrest₁.kalloc h₂
      have hoff : stackFrame ∉ rest := fun hmem => by
        have hnodup := h.list.nodup
        simp [hmem] at hnodup
      have hcopy : FreeList
          { k₂ with mem := strcpy k₂.mem caller.stackFrame stackFrame pageSize } rest :=
        hrest.strcpy hoff (h.list.aligned _ List.mem_cons_self) (by norm_num)
      exact ⟨rest, h.writeUsed hi (by simp [forkedProcess]) rfl rfl hcopy⟩

/-- **A call** other than `kill_process(0)` keeps the invariant. -/
lemma step (h : FrameInv frames s fs) (hop : op ≠ .kill 0) (hstep : op.Performs s s') :
    ∃ fs', FrameInv frames s' fs' := by
  cases hstep with
  | @fork caller _ _ hfork => exact (h.setCurrent caller).sysFork hfork
  | kill pid =>
      have hne : (s.processArray 0).pid ≠ pid := fun he => hop (by rw [← he, h.pid])
      rw [System.killProcess_of_ne hne]
      exact ⟨fs, h⟩

/-- **A run** without `kill_process(0)` keeps the frames. -/
lemma keepsFrames {ops : List ProcessOp} (h : FrameInv frames s fs) (hops : .kill 0 ∉ ops) :
    KeepsFrames frames s ops := by
  induction ops generalizing s fs with
  | nil => exact h.inOnePlace
  | cons op ops ih =>
      simp only [List.mem_cons, not_or] at hops
      refine ⟨h.inOnePlace, h.kfreeRight (Ne.symm hops.1), fun s' hstep => ?_⟩
      obtain ⟨fs', h'⟩ := h.step (Ne.symm hops.1) hstep
      exact ih h' hops.2

end FrameInv

/-! ### From boot on -/

/-- **`create_first_process`** takes two frames off the free list and keeps the second. -/
lemma createFirstProcess_eq (hlist : FreeList s.kernel fs) (junk : ℕ) :
    FreeList (s.createFirstProcess junk).kernel (fs.drop 2) ∧
      (s.createFirstProcess junk).processArray =
        Function.update s.processArray 0
          { s.processArray 0 with
            registers := { freeRegisters with sp := stackTop (s.processArray 0).stackFrame }
            trapFrame := fs[1]?.getD junk
            state := .runnable
            pid := 0 } := by
  cases h₁ : s.kernel.kalloc with
  | none =>
      obtain rfl := hlist.kalloc_eq_none.mp h₁
      simp only [System.createFirstProcess, h₁, Option.getD_none]
      exact ⟨hlist, rfl⟩
  | some r =>
      obtain ⟨f, k₁⟩ := r
      obtain ⟨rest, rfl, hrest⟩ := hlist.kalloc h₁
      cases h₂ : k₁.kalloc with
      | none =>
          obtain rfl := hrest.kalloc_eq_none.mp h₂
          simp only [System.createFirstProcess, h₁, h₂, Option.getD_some, Option.getD_none]
          exact ⟨hrest, rfl⟩
      | some r =>
          obtain ⟨g, k₂⟩ := r
          obtain ⟨rest₂, rfl, hrest₂⟩ := hrest.kalloc h₂
          simp only [System.createFirstProcess, h₁, h₂, Option.getD_some]
          exact ⟨hrest₂, rfl⟩

/-- The places of the frames after `create_first_process`. -/
lemma holds_createFirstProcess (hboot : AtBoot s) (hlist : FreeList s.kernel fs) {junk f : ℕ}
    {q : FramePlace} {fs' : List ℕ} :
    q.Holds (s.createFirstProcess junk) fs' f ↔
      q = .freeList ∧ f ∈ fs' ∨ q = .stack 0 ∧ f = 0 ∨ q = .trap 0 ∧ f = fs[1]?.getD junk := by
  have hself : (s.createFirstProcess junk).processArray 0 = _ :=
    (congrFun (createFirstProcess_eq hlist junk).2 0).trans (Function.update_self _ _ _)
  have hother : ∀ j, j ≠ 0 → (s.createFirstProcess junk).processArray j = .zero proccnt :=
    fun j hj => ((congrFun (createFirstProcess_eq hlist junk).2 j).trans
      (Function.update_of_ne hj _ _)).trans (hboot j)
  cases q with
  | freeList => simp [FramePlace.Holds]
  | stack j =>
      rcases eq_or_ne j 0 with rfl | hj
      · simp [FramePlace.Holds, hself, hboot 0, Process.zero, eq_comm]
      · simp [FramePlace.Holds, hother j hj, hj, Process.zero]
  | trap j =>
      rcases eq_or_ne j 0 with rfl | hj
      · simp [FramePlace.Holds, hself, eq_comm]
      · simp [FramePlace.Holds, hother j hj, hj, Process.zero]

/-- The invariant after `create_first_process`, for frames of which the first process has one and
the others are free. -/
lemma frameInv_createFirstProcess (hboot : AtBoot s) (hlist : FreeList s.kernel fs) {junk : ℕ}
    (hsub : ∀ f ∈ fs.drop 2, f ∈ frames)
    (hframes : ∀ f ∈ frames, f ≠ 0 ∧ (f ∈ fs.drop 2 ↔ f ≠ fs[1]?.getD junk)) :
    FrameInv frames (s.createFirstProcess junk) (fs.drop 2) := by
  have htable := congrFun (createFirstProcess_eq hlist junk).2 0
  rw [Function.update_self] at htable
  refine ⟨(createFirstProcess_eq hlist junk).1, hsub, fun f hf => ?_, by simp [htable],
    by rw [htable]⟩
  obtain ⟨hzero, hfree⟩ := hframes f hf
  simp only [holds_createFirstProcess hboot hlist]
  by_cases hmem : f ∈ fs.drop 2
  · refine ⟨.freeList, .inl ⟨rfl, hmem⟩, fun q hq => ?_⟩
    rcases hq with ⟨hq, -⟩ | ⟨-, h0⟩ | ⟨-, htrap⟩
    · exact hq
    · exact absurd h0 hzero
    · exact absurd htrap (hfree.mp hmem)
  · have htrap : f = fs[1]?.getD junk := by
      by_contra hne
      exact hmem (hfree.mpr hne)
    refine ⟨.trap 0, .inr (.inr ⟨rfl, htrap⟩), fun q hq => ?_⟩
    rcases hq with ⟨-, hq⟩ | ⟨-, h0⟩ | ⟨hq, -⟩
    · exact absurd hq hmem
    · exact absurd h0 hzero
    · exact hq

/-- If every frame is in one place after `create_first_process`, there is no frame to lose. -/
lemma nil_or_junk_of_inOnePlace (hboot : AtBoot s) (hlist : FreeList s.kernel fs) {junk : ℕ}
    (h : InOnePlace fs (s.createFirstProcess junk)) : fs = [] ∨ fs = [junk] := by
  obtain ⟨fs', hlist', hplace⟩ := h
  obtain rfl := hlist'.chain.unique (createFirstProcess_eq hlist junk).1.chain
  cases fs with
  | nil => exact .inl rfl
  | cons f rest =>
      obtain ⟨q, hq, -⟩ := hplace f List.mem_cons_self
      have hnodup := hlist.nodup
      rcases (holds_createFirstProcess hboot hlist).mp hq with ⟨-, hmem⟩ | ⟨-, h0⟩ | ⟨-, htrap⟩
      · exact absurd (List.mem_of_mem_drop (i := 1) hmem) (List.nodup_cons.mp hnodup).1
      · exact absurd h0 (hlist.ne_zero List.mem_cons_self)
      · cases rest with
        | nil => exact .inr (by rw [htrap]; rfl)
        | cons g rest =>
            have hfg : f = g := htrap
            simp [hfg] at hnodup

/-- A run that kills the first process gives `NULL` to `kfree`. -/
lemma KeepsFrames.kill_notMem {ops : List ProcessOp} (h : KeepsFrames frames s ops)
    (hzero : 0 ∉ frames) (hstate : (s.processArray 0).state ≠ .free)
    (hpid : (s.processArray 0).pid = 0) (hstack : (s.processArray 0).stackFrame = 0) :
    .kill 0 ∉ ops := by
  induction ops generalizing s with
  | nil => simp
  | cons op ops ih =>
      obtain ⟨-, hkfree, hrest⟩ := h
      have hop : op ≠ .kill 0 := by
        rintro rfl
        exact hzero (hstack ▸ (hkfree hpid).2.1)
      obtain ⟨s', hs'⟩ : ∃ s', op.Performs s s' := by
        cases op with
        | fork caller =>
            obtain ⟨s', v, hfork, -⟩ := System.sysFork_forks { s with current := caller }
            exact ⟨s', .fork hfork⟩
        | kill pid => exact ⟨_, .kill pid⟩
      have hfirst := hs'.first hop hstate hpid
      have hops := ih (hrest s' hs') (hfirst ▸ hstate) (hfirst ▸ hpid) (hfirst ▸ hstack)
      simp only [List.mem_cons, not_or]
      exact ⟨Ne.symm hop, hops⟩

/-- All frames but the first two are free. -/
lemma mem_drop_two_iff (hnodup : fs.Nodup) {f junk : ℕ} (hf : f ∈ fs.tail) :
    f ∈ fs.drop 2 ↔ f ≠ fs[1]?.getD junk := by
  cases fs with
  | nil => simp at hf
  | cons f₀ rest =>
      cases rest with
      | nil => simp at hf
      | cons g rest =>
          simp only [List.nodup_cons, List.mem_cons, not_or] at hnodup
          simp only [List.tail_cons, List.mem_cons] at hf
          simp only [List.drop_succ_cons, List.drop_zero, List.getElem?_cons_succ,
            List.getElem?_cons_zero, Option.getD_some]
          rcases hf with rfl | hf
          · simp [hnodup.2.1]
          · exact iff_of_true hf fun he => hnodup.2.1 (he ▸ hf)

/-- **Frames**: every frame there was at boot stays in exactly one place, and `kfree` is called
right, exactly if there was no frame to lose and `kill_process(0)` is not called.  As long as it is
not called, all frames but the first one of the free list are in one place. -/
theorem keepsFrames_iff {junk : ℕ} (hboot : AtBoot s) (hlist : FreeList s.kernel fs)
    (ops : List ProcessOp) :
    (KeepsFrames fs (s.createFirstProcess junk) ops ↔
      (fs = [] ∨ fs = [junk]) ∧ .kill 0 ∉ ops) ∧
    (.kill 0 ∉ ops → KeepsFrames fs.tail (s.createFirstProcess junk) ops) := by
  have htable := congrFun (createFirstProcess_eq hlist junk).2 0
  rw [Function.update_self] at htable
  have htail : FrameInv fs.tail (s.createFirstProcess junk) (fs.drop 2) := by
    refine frameInv_createFirstProcess hboot hlist (fun f hf => ?_) fun f hf => ?_
    · rw [← List.drop_one]
      exact List.mem_of_mem_drop (i := 1) (by simpa using hf)
    · exact ⟨hlist.ne_zero (List.mem_of_mem_tail hf), mem_drop_two_iff hlist.nodup hf⟩
  refine ⟨⟨fun h => ⟨nil_or_junk_of_inOnePlace hboot hlist h.inOnePlace, ?_⟩, ?_⟩,
    htail.keepsFrames⟩
  · refine h.kill_notMem (fun h0 => hlist.ne_zero h0 rfl) ?_ ?_ ?_
    · rw [htable]
      simp
    · rw [htable]
    · rw [htable, hboot 0]
      rfl
  · rintro ⟨rfl | rfl, hops⟩
    · exact htail.keepsFrames hops
    · have hone : FrameInv [junk] (s.createFirstProcess junk) [] :=
        frameInv_createFirstProcess hboot hlist (by simp) fun f hf =>
          ⟨hlist.ne_zero hf, by simpa using hf⟩
      exact hone.keepsFrames hops

/-- An allocator with two frames. -/
def twoFrames : Kernel := ⟨ByteMemory.store64 (fun _ => 0) 0x1000 0x2000, 0x1000⟩

lemma freeList_twoFrames : FreeList twoFrames [0x1000, 0x2000] where
  chain := by
    have hlink : nextFrame twoFrames.mem 0x1000 = 0x2000 := by
      rw [nextFrame, twoFrames, load64_store64_self]
      rfl
    have hnull : nextFrame twoFrames.mem 0x2000 = 0 := by
      rw [nextFrame, twoFrames, load64_store64_of_disjoint (by norm_num)]
      rfl
    have hlast : Chain (nextFrame twoFrames.mem) 0 0x2000 [0x2000] :=
      .cons (by decide) (hnull ▸ .nil)
    exact .cons (by decide) (hlink.symm ▸ hlast)
  aligned := by decide
  lt := by decide

/-- With ten frames the first process gets a child, which is asked to fork as well; the first frame
is lost, and the others are kept. -/
theorem keepsFrames_iff_ten :
    let s := (bootSystem smallKernel).createFirstProcess 0
    (∃ s', s.sysFork = some (s', none)) ∧
      ¬ KeepsFrames (initFrames 4096 40960) s [.fork 0, .kill 3, .fork 1] ∧
      KeepsFrames (initFrames 4096 40960).tail s [.fork 0, .kill 3, .fork 1] := by
  intro s
  have hboot : AtBoot (bootSystem smallKernel) := fun _ => rfl
  have hkeeps : (KeepsFrames (initFrames 4096 40960) s _ ↔ _) ∧ _ :=
    keepsFrames_iff hboot smallKernel_freeList [.fork 0, .kill 3, .fork 1]
  obtain ⟨hlist, htable⟩ := createFirstProcess_eq (s := bootSystem smallKernel)
    smallKernel_freeList 0
  have hfree : firstFree s.processArray = some 1 := by
    refine firstFree_eq_some_iff.mpr ⟨?_, fun j hj => ?_⟩
    · rw [htable]
      rfl
    · obtain rfl : j = 0 := Fin.ext (Nat.lt_one_iff.mp hj)
      rw [htable]
      simp
  obtain ⟨⟨f, k₁⟩, h₁⟩ : ∃ r, s.kernel.kalloc = some r :=
    Option.ne_none_iff_exists'.mp fun hnone => absurd (hlist.kalloc_eq_none.mp hnone) (by decide)
  obtain ⟨rest, hcons, hrest⟩ := hlist.kalloc h₁
  obtain ⟨⟨g, k₂⟩, h₂⟩ : ∃ r, k₁.kalloc = some r := by
    refine Option.ne_none_iff_exists'.mp fun hnone => ?_
    rw [hrest.kalloc_eq_none.mp hnone] at hcons
    have hlen : 8 = 1 := congrArg List.length hcons
    omega
  obtain ⟨_, _, -, -, -, hfork⟩ := System.sysFork_of_frames hfree h₁ h₂
  exact ⟨⟨_, hfork⟩, fun h => absurd (hkeeps.1.mp h).1 (by decide), hkeeps.2 (by decide)⟩

/-- The first of two frames is lost. -/
theorem not_keepsFrames_two :
    ¬ KeepsFrames [0x1000, 0x2000] ((bootSystem twoFrames).createFirstProcess 0) [] := by
  intro h
  have hfew := nil_or_junk_of_inOnePlace (fun _ => rfl) freeList_twoFrames h.inOnePlace
  simp at hfew

end SkinnyArm
