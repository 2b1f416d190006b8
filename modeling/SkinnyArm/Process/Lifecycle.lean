import SkinnyArm.Allocator.Init
import SkinnyArm.Process.GetPid
import SkinnyArm.Process.Scheduler
import SkinnyArm.Process.Frames

/-!
The process table from `create_first_process` on, where every call is made by the process that
runs.

* `Call.Runs`: what the process that runs can do, which is to compute, to call `sys_fork`,
  `scheduler`, `sleep`, `wakeup` or `kill_process`.
* `NumberedTable`: the slots in use are the first ones, each with its number as its pid, with a
  parent that has a lower number, and with the next two frames there were at boot.
* `processTable_run`: every run in which the first process is not killed keeps to it, so that
  `sys_fork` goes on exactly as long as there are a slot and two frames.
-/

namespace SkinnyArm

open ByteMemory

/-- What the process that runs does. -/
inductive Call where
  | compute
  | fork
  | scheduler
  | sleep (lk : ℕ)
  | wakeup (lk : ℕ)
  | kill (pid : BitVec 8)

/-- A call by the process that runs.  Between calls it changes its registers, and any memory but the
free frames. -/
inductive Call.Runs (s : System proccnt) : Call → System proccnt → Prop
  | compute (r : Registers) (m : ByteMemory)
      (h : ∀ fs, FreeList s.kernel fs → ∀ f ∈ fs, Set.EqOn m s.kernel.mem (page f)) :
      Runs s .compute { s with kernel := { s.kernel with mem := m }, registers := r }
  | fork {s' : System proccnt} {v : Option ℤ} (h : s.sysFork = some (s', v)) : Runs s .fork s'
  | scheduler {s' : System proccnt} (h : ∀ fuel, 2 ≤ fuel → s.scheduler fuel = some s') :
      Runs s .scheduler s'
  | sleep (lk : ℕ) : Runs s (.sleep lk) (s.sleep lk)
  | wakeup (lk : ℕ) : Runs s (.wakeup lk) (s.wakeup lk)
  | kill (pid : BitVec 8) : Runs s (.kill pid) (s.killProcess pid).1

/-- A call that is not `kill_process(0)`. -/
def CallStep (s s' : System proccnt) : Prop := ∃ call : Call, call ≠ .kill 0 ∧ call.Runs s s'

/-! ### What a process keeps -/

section Slots

variable {n : ℕ} {p q r : Process n}

/-- The fields that `scheduler`, `sleep` and `wakeup` leave alone. -/
structure SameOwner (p q : Process n) : Prop where
  stackFrame : p.stackFrame = q.stackFrame
  trapFrame : p.trapFrame = q.trapFrame
  parent : p.parent = q.parent
  pagetable : p.pagetable = q.pagetable
  pid : p.pid = q.pid

lemma SameOwner.refl (p : Process n) : SameOwner p p := ⟨rfl, rfl, rfl, rfl, rfl⟩

/-- A slot in use that may be selected, now or after a `wakeup`. -/
def Process.Live (p : Process n) : Prop := p.state = .runnable ∨ p.state = .waiting

lemma Process.Live.ne_free (h : p.Live) : p.state ≠ .free := by
  rcases h with h | h
  · simp [h]
  · simp [h]

end Slots

namespace System

variable {n : ℕ} {s : System n}

/-- The table after `scheduler`: the registers of the process that ran are saved. -/
lemma processArray_scheduled (s : System n) (j i : Fin n) :
    (s.yieldCurrent.switchTo s.current j).processArray i =
      if i = s.current then { s.processArray i with registers := s.registers, state := .runnable }
      else s.processArray i := by
  rcases eq_or_ne i s.current with rfl | hi
  · simp [switchTo, yieldCurrent, setProcess]
  · simp [switchTo, yieldCurrent, setProcess, hi]

end System

/-- `getpid` reads the pids only. -/
lemma getpidLoop_congr {n : ℕ} {t t' : Fin n → Process n} (h : ∀ i, (t i).pid = (t' i).pid)
    (fuel : ℕ) (pid : BitVec 8) : getpidLoop t fuel pid = getpidLoop t' fuel pid := by
  induction fuel generalizing pid with
  | zero => rfl
  | succ fuel ih => simp only [getpidLoop, h, ih]

/-- The child's pid is what `getpid` finds in the table before the call. -/
lemma System.getpid_of_sysFork {s s' : System proccnt} {v : Option ℤ} {i : Fin proccnt} {f g : ℕ}
    {k₁ k₂ : Kernel} (hfree : firstFree s.processArray = some i)
    (h₁ : s.kernel.kalloc = some (f, k₁)) (h₂ : k₁.kalloc = some (g, k₂))
    (h : s.sysFork = some (s', v)) : getpid s.processArray = some (s'.processArray i).pid := by
  simp only [sysFork, hfree, h₁, h₂, Option.map_eq_some_iff, Prod.mk.injEq] at h
  obtain ⟨pid, hget, rfl, -⟩ := h
  rw [processArray_setProcess_self, ← hget]
  refine getpidLoop_congr (fun j => ?_) _ _
  rcases eq_or_ne j i with rfl | hj
  · simp
  · rw [processArray_setProcess_of_ne _ hj, processArray_setProcess_of_ne _ hj]

/-! ### The table -/

/-- `k` processes in the first `k` slots: the first one with what `create_first_process` gave it,
every other with its number as its pid, a parent of a lower number and two frames of its own; the
other slots are zeroed, and the frames not given away are the free list. -/
structure NumberedTable (frames : List ℕ) (junk : ℕ) (s : System proccnt) (k : ℕ) : Prop where
  le : k ≤ proccnt
  current : s.current.val < k
  list : FreeList s.kernel (frames.drop (2 * k))
  live : ∀ i : Fin proccnt, i.val < k → (s.processArray i).Live
  pid : ∀ i : Fin proccnt, i.val < k → (s.processArray i).pid = BitVec.ofNat 8 i
  first : (s.processArray 0).stackFrame = 0 ∧ (s.processArray 0).trapFrame = frames[1]?.getD junk ∧
    (s.processArray 0).parent = none
  child : ∀ i : Fin proccnt, 0 < i.val → i.val < k →
    frames[2 * i.val]? = some (s.processArray i).stackFrame ∧
    frames[2 * i.val + 1]? = some (s.processArray i).trapFrame ∧
    ∃ p < i, (s.processArray i).parent = some p
  unused : ∀ i : Fin proccnt, k ≤ i.val → s.processArray i = .zero proccnt
  pagetable : s.ttbr0 = 0 ∧ ∀ i, (s.processArray i).pagetable = 0

namespace NumberedTable

variable {frames : List ℕ} {junk k : ℕ} {s s' : System proccnt}

lemma pos (h : NumberedTable frames junk s k) : 0 < k := by
  have hcurrent := h.current
  omega

/-- The first slot that is not in use. -/
lemma firstFree_eq (h : NumberedTable frames junk s k) (hk : k < proccnt) :
    firstFree s.processArray = some ⟨k, hk⟩ := by
  refine firstFree_eq_some_iff.mpr ⟨by rw [h.unused ⟨k, hk⟩ le_rfl]; rfl, fun j hj => ?_⟩
  exact (h.live j hj).ne_free

/-- A full table. -/
lemma firstFree_eq_none (h : NumberedTable frames junk s proccnt) :
    firstFree s.processArray = none := by
  cases hfree : firstFree s.processArray with
  | none => rfl
  | some i => exact absurd (firstFree_eq_some hfree) (h.live i i.isLt).ne_free

/-- The next pid is the next number. -/
lemma getpid_eq (h : NumberedTable frames junk s k) (hk : k < proccnt) :
    getpid s.processArray = some (BitVec.ofNat 8 k) := by
  obtain ⟨p, hp, hleast, -, hget⟩ := getpid_isLeast s.processArray
  have hval : ∀ i : Fin proccnt, (s.processArray i).pid.toNat = if i.val < k then i.val else 0 := by
    intro i
    have hi := i.isLt
    split_ifs with hlt
    · rw [h.pid i hlt, BitVec.toNat_ofNat]
      exact Nat.mod_eq_of_lt (by simp only [proccnt] at hi; omega)
    · rw [h.unused i (not_lt.mp hlt)]
      rfl
  have hunused : k ∈ unusedPids s.processArray := by
    refine ⟨h.pos, fun i => ?_⟩
    have hpos := h.pos
    rw [hval i]
    split_ifs
    · omega
    · omega
  have hle : p ≤ k := hleast.2 hunused
  obtain ⟨⟨hone, hfresh⟩, -⟩ := hleast
  have hge : k ≤ p := by
    by_contra hlt
    have hpk : p < k := not_le.mp hlt
    exact hfresh ⟨p, hpk.trans hk⟩ (by rw [hval]; simp [hpk])
  rw [hget, le_antisymm hle hge]

/-- **Calls that take no frame** keep the table: the slots keep their owners. -/
lemma of_sameOwner (h : NumberedTable frames junk s k) (hcurrent : s'.current.val < k)
    (hlist : FreeList s'.kernel (frames.drop (2 * k))) (httbr0 : s'.ttbr0 = 0)
    (hsame : ∀ i, SameOwner (s'.processArray i) (s.processArray i))
    (hlive : ∀ i : Fin proccnt, i.val < k → (s'.processArray i).Live)
    (hrest : ∀ i : Fin proccnt, k ≤ i.val → s'.processArray i = s.processArray i) :
    NumberedTable frames junk s' k where
  le := h.le
  current := hcurrent
  list := hlist
  live := hlive
  pid i hi := (hsame i).pid.trans (h.pid i hi)
  first := by
    rw [(hsame 0).stackFrame, (hsame 0).trapFrame, (hsame 0).parent]
    exact h.first
  child i hpos hi := by
    rw [(hsame i).stackFrame, (hsame i).trapFrame, (hsame i).parent]
    exact h.child i hpos hi
  unused i hi := (hrest i hi).trans (h.unused i hi)
  pagetable := ⟨httbr0, fun i => (hsame i).pagetable.trans (h.pagetable.2 i)⟩

/-- A child in the next slot, with the next two frames. -/
lemma fork_child (h : NumberedTable frames junk s k) (hk : k < proccnt) {f g : ℕ} {kernel : Kernel}
    {p : Process proccnt} (hf : frames[2 * k]? = some f) (hg : frames[2 * k + 1]? = some g)
    (hlist : FreeList kernel (frames.drop (2 * (k + 1)))) (hstack : p.stackFrame = f)
    (htrap : p.trapFrame = g) (hparent : p.parent = some s.current) (hstate : p.state = .runnable)
    (hpid : p.pid = BitVec.ofNat 8 k) (htable : p.pagetable = 0) :
    NumberedTable frames junk { s.setProcess ⟨k, hk⟩ p with kernel := kernel } (k + 1) := by
  have hpos := h.pos
  have hcurrent := h.current
  have hself : (s.setProcess ⟨k, hk⟩ p).processArray ⟨k, hk⟩ = p :=
    System.processArray_setProcess_self p
  have hother : ∀ i : Fin proccnt, i.val ≠ k →
      (s.setProcess ⟨k, hk⟩ p).processArray i = s.processArray i := fun i hi =>
    System.processArray_setProcess_of_ne p fun he => hi (congrArg Fin.val he)
  have hcases : ∀ i : Fin proccnt, i.val < k + 1 → i.val < k ∨ i = ⟨k, hk⟩ := fun i hi => by
    rcases Nat.lt_succ_iff_lt_or_eq.mp hi with hlt | heq
    · exact .inl hlt
    · exact .inr (Fin.ext heq)
  constructor
  case le => exact hk
  case current => exact hcurrent.trans (Nat.lt_succ_self k)
  case list => exact hlist
  case live =>
    intro i hi
    rcases hcases i hi with hlt | rfl
    · exact (congrArg Process.Live (hother i hlt.ne)).mpr (h.live i hlt)
    · exact (congrArg Process.Live hself).mpr (.inl hstate)
  case pid =>
    intro i hi
    rcases hcases i hi with hlt | rfl
    · exact (congrArg Process.pid (hother i hlt.ne)).trans (h.pid i hlt)
    · exact (congrArg Process.pid hself).trans hpid
  case first =>
    have hzero : (s.setProcess ⟨k, hk⟩ p).processArray 0 = s.processArray 0 :=
      hother 0 hpos.ne
    show ((s.setProcess ⟨k, hk⟩ p).processArray 0).stackFrame = 0 ∧
      ((s.setProcess ⟨k, hk⟩ p).processArray 0).trapFrame = _ ∧
      ((s.setProcess ⟨k, hk⟩ p).processArray 0).parent = none
    rw [hzero]
    exact h.first
  case child =>
    intro i hpos' hi
    rcases hcases i hi with hlt | rfl
    · have hi' := hother i hlt.ne
      show _ = some ((s.setProcess ⟨k, hk⟩ p).processArray i).stackFrame ∧
        _ = some ((s.setProcess ⟨k, hk⟩ p).processArray i).trapFrame ∧
        ∃ q < i, ((s.setProcess ⟨k, hk⟩ p).processArray i).parent = some q
      rw [hi']
      exact h.child i hpos' hlt
    · show _ = some ((s.setProcess ⟨k, hk⟩ p).processArray ⟨k, hk⟩).stackFrame ∧
        _ = some ((s.setProcess ⟨k, hk⟩ p).processArray ⟨k, hk⟩).trapFrame ∧
        ∃ q < (⟨k, hk⟩ : Fin proccnt),
          ((s.setProcess ⟨k, hk⟩ p).processArray ⟨k, hk⟩).parent = some q
      rw [hself, hstack, htrap]
      exact ⟨hf, hg, s.current, Fin.lt_def.mpr hcurrent, hparent⟩
  case unused =>
    intro i hi
    exact (hother i (by omega)).trans (h.unused i (by omega))
  case pagetable =>
    refine ⟨h.pagetable.1, fun i => ?_⟩
    rcases eq_or_ne i ⟨k, hk⟩ with rfl | hi
    · exact (congrArg Process.pagetable hself).trans htable
    · refine (congrArg Process.pagetable ?_).trans (h.pagetable.2 i)
      exact hother i fun he => hi (Fin.ext he)

/-- **`sys_fork`** makes a child in the next slot, or changes nothing but the allocator's memory. -/
lemma sysFork (h : NumberedTable frames junk s k) :
    ∃ s' v, s.sysFork = some (s', v) ∧
      (v = none ↔ k < proccnt ∧ 2 * k + 2 ≤ frames.length) ∧
      NumberedTable frames junk s' (if v = none then k + 1 else k) := by
  rcases Nat.lt_or_ge k proccnt with hk | hfull
  · have hfree := h.firstFree_eq hk
    cases h₁ : s.kernel.kalloc with
    | none =>
        have hnil : frames.length ≤ 2 * k := List.drop_eq_nil_iff.mp (h.list.kalloc_eq_none.mp h₁)
        refine ⟨s, some (-1), System.sysFork_of_noStack hfree h₁, ?_, h⟩
        exact iff_of_false (by simp) (by omega)
    | some r =>
        obtain ⟨f, k₁⟩ := r
        obtain ⟨rest₁, hcons, hrest₁⟩ := h.list.kalloc h₁
        have hf : frames[2 * k]? = some f := by
          rw [← List.head?_drop, hcons, List.head?_cons]
        have hdrop : rest₁ = frames.drop (2 * k + 1) := by
          rw [← List.tail_drop, hcons, List.tail_cons]
        cases h₂ : k₁.kalloc with
        | none =>
            obtain ⟨hone, hback⟩ := h.list.kfree_kalloc h₁ h₂
            have hlen := congrArg List.length hone
            simp only [List.length_drop, List.length_singleton] at hlen
            refine ⟨_, _, System.sysFork_of_noTrap hfree h₁ h₂,
              iff_of_false (by simp) (by omega), ?_⟩
            rw [if_neg (by simp)]
            -- the slot is as it was, for it was zeroed
            have hslot : { s.processArray ⟨k, hk⟩ with stackFrame := 0 } =
                s.processArray ⟨k, hk⟩ := by
              rw [h.unused ⟨k, hk⟩ le_rfl]
              rfl
            rw [hslot, System.setProcess_eq_self]
            exact ⟨h.le, h.current, hone ▸ hback, h.live, h.pid, h.first, h.child, h.unused,
              h.pagetable⟩
        | some r =>
            obtain ⟨g, k₂⟩ := r
            obtain ⟨rest, hcons₂, hrest⟩ := hrest₁.kalloc h₂
            have hg : frames[2 * k + 1]? = some g := by
              rw [← List.head?_drop, ← hdrop, hcons₂, List.head?_cons]
            have hdrop₂ : rest = frames.drop (2 * (k + 1)) := by
              rw [show 2 * (k + 1) = 2 * k + 1 + 1 by ring, ← List.tail_drop, ← hdrop, hcons₂,
                List.tail_cons]
            obtain ⟨caller, pid, -, -, -, hfork⟩ := System.sysFork_of_frames hfree h₁ h₂
            have hpid : pid = BitVec.ofNat 8 k := by
              have hget := System.getpid_of_sysFork hfree h₁ h₂ hfork
              rw [h.getpid_eq hk] at hget
              simpa [forkedProcess] using (Option.some.inj hget).symm
            have hlen : 2 * k + 2 ≤ frames.length := by
              have hlt := List.getElem?_eq_some_iff.mp hg
              obtain ⟨hlt, -⟩ := hlt
              omega
            have hoff : f ∉ rest := fun hmem => by
              have hnodup := h.list.nodup
              rw [hcons, hcons₂] at hnodup
              simp [hmem] at hnodup
            have hf_mem : f ∈ frames.drop (2 * k) := by simp [hcons]
            have hcopy : FreeList
                { k₂ with mem := strcpy k₂.mem caller.stackFrame f pageSize } rest :=
              hrest.strcpy hoff (h.list.aligned f hf_mem) (by norm_num)
            refine ⟨_, _, hfork, iff_of_true rfl ⟨hk, hlen⟩, ?_⟩
            rw [if_pos rfl]
            exact h.fork_child hk hf hg (hdrop₂ ▸ hcopy) rfl rfl rfl rfl hpid
              (by rw [forkedProcess]; exact h.pagetable.2 _)
  · obtain rfl : k = proccnt := le_antisymm h.le hfull
    refine ⟨s, some (-1), System.sysFork_of_full h.firstFree_eq_none, ?_, h⟩
    exact iff_of_false (by simp) (by omega)

/-- **`scheduler`** selects a slot in use. -/
lemma scheduler (h : NumberedTable frames junk s k) {j : Fin proccnt}
    (hnext : CyclicNext s.ready s.current j) :
    NumberedTable frames junk (s.yieldCurrent.switchTo s.current j) k := by
  have htable := s.processArray_scheduled j
  have hj : j.val < k := by
    rcases Finset.mem_insert.mp hnext.1 with rfl | hrun
    · exact h.current
    · by_contra hge
      have hstate := mem_runnableSlots.mp hrun
      rw [h.unused j (not_lt.mp hge)] at hstate
      exact absurd hstate (by simp [Process.zero])
  have hsame : ∀ i, SameOwner ((s.yieldCurrent.switchTo s.current j).processArray i)
      (s.processArray i) := fun i => by
    rw [htable]
    split_ifs
    · exact ⟨rfl, rfl, rfl, rfl, rfl⟩
    · exact .refl _
  refine h.of_sameOwner hj h.list ((hsame j).pagetable.trans (h.pagetable.2 j)) hsame
    (fun i hi => ?_) fun i hi => ?_
  · rw [htable]
    split_ifs
    · exact .inl rfl
    · exact h.live i hi
  · rw [htable, if_neg]
    rintro rfl
    exact absurd h.current (not_lt.mpr hi)

/-- **`sleep`** makes the process wait that runs. -/
lemma sleep (h : NumberedTable frames junk s k) (lk : ℕ) :
    NumberedTable frames junk (s.sleep lk) k := by
  have hother : ∀ i, i ≠ s.current → (s.sleep lk).processArray i = s.processArray i :=
    fun i hi => System.processArray_setProcess_of_ne _ hi
  have hself : (s.sleep lk).processArray s.current =
      { s.processArray s.current with state := .waiting, waitOn := lk } :=
    System.processArray_setProcess_self _
  refine h.of_sameOwner h.current h.list h.pagetable.1 (fun i => ?_) (fun i hi => ?_)
    fun i hi => hother i ?_
  · rcases eq_or_ne i s.current with rfl | hne
    · rw [hself]
      exact ⟨rfl, rfl, rfl, rfl, rfl⟩
    · rw [hother i hne]
      exact .refl _
  · rcases eq_or_ne i s.current with rfl | hne
    · rw [hself]
      exact .inr rfl
    · rw [hother i hne]
      exact h.live i hi
  · rintro rfl
    exact absurd h.current (not_lt.mpr hi)

/-- **`wakeup`** makes processes runnable that wait. -/
lemma wakeup (h : NumberedTable frames junk s k) (lk : ℕ) :
    NumberedTable frames junk (s.wakeup lk) k := by
  have htable : ∀ i, (s.wakeup lk).processArray i =
      if (s.processArray i).WaitsOn lk then
        { s.processArray i with state := .runnable, waitOn := 0 }
      else s.processArray i := fun _ => rfl
  refine h.of_sameOwner h.current h.list h.pagetable.1 (fun i => ?_) (fun i hi => ?_)
    fun i hi => ?_
  · rw [htable]
    split_ifs
    · exact ⟨rfl, rfl, rfl, rfl, rfl⟩
    · exact .refl _
  · rw [htable]
    split_ifs
    · exact .inl rfl
    · exact h.live i hi
  · rw [htable, if_neg]
    rintro ⟨hstate, -⟩
    rw [h.unused i hi] at hstate
    exact absurd hstate (by simp [Process.zero])

/-- **A call** keeps the table, with one process more after a successful `sys_fork`. -/
lemma step (h : NumberedTable frames junk s k) (hstep : CallStep s s') :
    ∃ k', NumberedTable frames junk s' k' := by
  obtain ⟨call, hcall, hrun⟩ := hstep
  cases hrun with
  | compute r m hm =>
      have hlist : FreeList { s.kernel with mem := m } (frames.drop (2 * k)) := by
        refine h.list.of_eqOn ?_ ?_
        · rfl
        · exact hm _ h.list
      exact ⟨k, h.le, h.current, hlist, h.live, h.pid, h.first, h.child, h.unused, h.pagetable⟩
  | fork hfork =>
      obtain ⟨s₁, v, hfork₁, -, htable⟩ := h.sysFork
      rw [hfork] at hfork₁
      obtain ⟨rfl, rfl⟩ := Prod.mk.inj (Option.some.inj hfork₁)
      exact ⟨_, htable⟩
  | scheduler hs =>
      obtain ⟨j, hj, hnext⟩ := s.scheduler_eq
      obtain rfl := Option.some.inj ((hs 2 le_rfl).symm.trans (hj 2 le_rfl))
      exact ⟨k, h.scheduler hnext⟩
  | sleep lk => exact ⟨k, h.sleep lk⟩
  | wakeup lk => exact ⟨k, h.wakeup lk⟩
  | kill pid =>
      have hzero : (s.processArray 0).pid = 0 := h.pid 0 h.pos
      have hne : (s.processArray 0).pid ≠ pid := fun he => hcall (by rw [← he, hzero])
      rw [System.killProcess_of_ne hne]
      exact ⟨k, h⟩

/-- **`create_first_process`** makes a table of one. -/
lemma createFirstProcess (hboot : AtBoot s) (hlist : FreeList s.kernel frames) (junk : ℕ) :
    NumberedTable frames junk (s.createFirstProcess junk) 1 := by
  obtain ⟨hlist', htable⟩ := createFirstProcess_eq hlist junk
  have hself : (s.createFirstProcess junk).processArray 0 = _ :=
    (congrFun htable 0).trans (Function.update_self _ _ _)
  have hother : ∀ j, j ≠ 0 → (s.createFirstProcess junk).processArray j = .zero proccnt :=
    fun j hj => ((congrFun htable j).trans (Function.update_of_ne hj _ _)).trans (hboot j)
  have hone : ∀ i : Fin proccnt, i.val < 1 → i = 0 := fun i hi => Fin.ext (Nat.lt_one_iff.mp hi)
  constructor
  case le => exact Nat.one_le_iff_ne_zero.mpr (by decide)
  case current => exact Nat.one_pos
  case list => exact hlist'
  case live =>
    intro i hi
    rw [hone i hi, hself]
    exact .inl rfl
  case pid =>
    intro i hi
    rw [hone i hi, hself]
    rfl
  case first =>
    rw [hself, hboot 0]
    exact ⟨rfl, rfl, rfl⟩
  case child => exact fun i hpos hi => absurd hi (by omega)
  case unused => exact fun i hi => hother i fun h0 => by simp [h0] at hi
  case pagetable =>
    have hzero : (s.processArray 0).pagetable = 0 := by
      rw [hboot 0]
      rfl
    refine ⟨hzero, fun i => ?_⟩
    rcases eq_or_ne i 0 with rfl | hi
    · rw [hself]
      exact hzero
    · rw [hother i hi]
      rfl

end NumberedTable

/-- **The process table**: in every run from boot in which the first process is not killed, the
processes are in the first `k` slots, numbered through, each with the two frames of its number; the
next `sys_fork` makes a child exactly if there are a slot and two frames left. -/
theorem processTable_run {s₀ s : System proccnt} {frames : List ℕ} {junk : ℕ} (hboot : AtBoot s₀)
    (hlist : FreeList s₀.kernel frames) (hrun : Run CallStep (s₀.createFirstProcess junk) s) :
    ∃ k, NumberedTable frames junk s k ∧ ∃ s' v, s.sysFork = some (s', v) ∧
      (v = none ↔ k < proccnt ∧ 2 * k + 2 ≤ frames.length) ∧
      NumberedTable frames junk s' (if v = none then k + 1 else k) := by
  obtain ⟨k, h⟩ := hrun.invariant (I := fun s => ∃ k, NumberedTable frames junk s k)
    (fun ⟨k, h⟩ hstep => h.step hstep) ⟨1, .createFirstProcess hboot hlist junk⟩
  exact ⟨k, h, h.sysFork⟩

/-- The first process on ten frames. -/
def firstOfTen : System proccnt := (bootSystem smallKernel).createFirstProcess 0

lemma processTable_firstOfTen : NumberedTable (initFrames 4096 40960) 0 firstOfTen 1 :=
  .createFirstProcess (fun _ => rfl) smallKernel_freeList 0

/-- The first of ten frames' processes forks. -/
theorem processTable_run_ten :
    ∃ s v, firstOfTen.sysFork = some (s, v) ∧
      ∃ k, NumberedTable (initFrames 4096 40960) 0 s k ∧ ∃ s' v, s.sysFork = some (s', v) ∧
        (v = none ↔ k < proccnt ∧ 2 * k + 2 ≤ (initFrames 4096 40960).length) ∧
        NumberedTable (initFrames 4096 40960) 0 s' (if v = none then k + 1 else k) := by
  obtain ⟨s, v, hfork, -⟩ := processTable_firstOfTen.sysFork
  refine ⟨s, v, hfork, ?_⟩
  have hboot : AtBoot (bootSystem smallKernel) := fun _ => rfl
  exact processTable_run hboot smallKernel_freeList (.single ⟨.fork, by simp, .fork hfork⟩)

end SkinnyArm
