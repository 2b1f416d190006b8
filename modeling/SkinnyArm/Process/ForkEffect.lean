import SkinnyArm.Process.Frames

/-!
What `sys_fork` takes, and what it gives back where it fails.

* `Refused` is a call that returns -1: the free list is the one there was before, and so is every
  slot but for the `stack_frame` of a free one.
* `Taken` is a call that makes a child: two frames are gone from the front of the list, and the
  first free slot has become runnable.
* `sysFork_effect`: a call is refused exactly if no slot is free or the list has fewer than two
  frames, and a child is made otherwise (`ForkEffect`).
-/

namespace SkinnyArm

variable {s s' : System proccnt} {fs : List ℕ} {v : Option ℤ}

/-- A `sys_fork` that gives back what it took. -/
structure Refused (s s' : System proccnt) (fs : List ℕ) (v : Option ℤ) : Prop where
  value : v = some (-1)
  list : FreeList s'.kernel fs
  slots : ∀ i, s'.processArray i = s.processArray i ∨ (s.processArray i).state = .free ∧
    s'.processArray i = { s.processArray i with stackFrame := 0 }

/-- A `sys_fork` that takes two frames and the first free slot. -/
structure Taken (s s' : System proccnt) (fs : List ℕ) : Prop where
  list : ∃ f g rest, fs = f :: g :: rest ∧ FreeList s'.kernel rest
  slot : ∃ i, (s.processArray i).state = .free ∧ (∀ j < i, (s.processArray j).state ≠ .free) ∧
    (s'.processArray i).state = .runnable ∧ ∀ j, j ≠ i → s'.processArray j = s.processArray j

/-- What a `sys_fork` does: it fails exactly where no slot is free or fewer than two frames are, and
then everything goes back; otherwise two frames and the first free slot are taken. -/
structure ForkEffect (s s' : System proccnt) (fs : List ℕ) (v : Option ℤ) : Prop where
  fails_iff : v ≠ none ↔ (∀ i, (s.processArray i).state ≠ .free) ∨ fs.length < 2
  refused : v ≠ none → Refused s s' fs v
  taken : v = none → Taken s s' fs

/-- Where nothing is taken there is nothing to give back. -/
lemma Refused.refl (hlist : FreeList s.kernel fs) : Refused s s fs (some (-1)) :=
  ⟨rfl, hlist, fun _ => .inl rfl⟩

/-- The last frame goes back onto the list. -/
lemma Refused.of_noTrap {i : Fin proccnt} {f : ℕ} {k₁ : Kernel} (hlist : FreeList s.kernel fs)
    (hi : (s.processArray i).state = .free) (h₁ : s.kernel.kalloc = some (f, k₁))
    (h₂ : k₁.kalloc = none) :
    Refused s { s.setProcess i { s.processArray i with stackFrame := 0 } with
      kernel := k₁.kfree (.held f) } fs (some (-1)) := by
  obtain ⟨rfl, hback⟩ := hlist.kfree_kalloc h₁ h₂
  refine ⟨rfl, hback, fun j => ?_⟩
  rcases eq_or_ne j i with rfl | hne
  · exact .inr ⟨hi, System.processArray_setProcess_self _⟩
  · exact .inl (System.processArray_setProcess_of_ne _ hne)

/-- A child takes the first two frames and the first free slot. -/
lemma Taken.of_child {i : Fin proccnt} {f g : ℕ} {rest : List ℕ} {k₂ : Kernel}
    {caller : Process proccnt} {pid : BitVec 8} (hlist : FreeList s.kernel (f :: g :: rest))
    (hrest : FreeList k₂ rest) (hfree : firstFree s.processArray = some i) :
    Taken s { s.setProcess i
        (forkedProcess caller (s.processArray i) s.current f g pid) with
      kernel := { k₂ with mem := strcpy k₂.mem caller.stackFrame f pageSize } }
      (f :: g :: rest) := by
  obtain ⟨hi, hfirst⟩ := firstFree_eq_some_iff.mp hfree
  have hoff : f ∉ rest := fun hmem => by
    have hnodup := hlist.nodup
    simp [hmem] at hnodup
  have hcopy : FreeList
      { k₂ with mem := strcpy k₂.mem caller.stackFrame f pageSize } rest :=
    hrest.strcpy hoff (hlist.aligned f List.mem_cons_self) (by norm_num)
  refine ⟨⟨f, g, rest, rfl, hcopy⟩, i, hi, hfirst, ?_, fun j hne => ?_⟩
  · simp [forkedProcess]
  · exact System.processArray_setProcess_of_ne _ hne

/-- A refusal has one of the two reasons. -/
lemma Refused.effect (h : Refused s s' fs v)
    (hwhy : (∀ i, (s.processArray i).state ≠ .free) ∨ fs.length < 2) : ForkEffect s s' fs v where
  fails_iff := ⟨fun _ => hwhy, fun _ => by simp [h.value]⟩
  refused := fun _ => h
  taken := fun hnone => absurd (h.value.symm.trans hnone) (by simp)

/-- A child was made of a free slot and two frames. -/
lemma Taken.effect (h : Taken s s' fs) : ForkEffect s s' fs none where
  fails_iff := by
    obtain ⟨i, hi, -⟩ := h.slot
    obtain ⟨f, g, rest, rfl, -⟩ := h.list
    refine ⟨fun hne => absurd rfl hne, fun hwhy => ?_⟩
    rcases hwhy with hfull | hfew
    · exact absurd hi (hfull i)
    · simp only [List.length_cons] at hfew
      omega
  refused := fun hne => absurd rfl hne
  taken := fun _ => h

/-- **`sys_fork`** always ends, and has the effect it should. -/
theorem sysFork_effect (s : System proccnt) (hlist : FreeList s.kernel fs) :
    ∃ s' v, s.sysFork = some (s', v) ∧ ForkEffect s s' fs v := by
  cases hfree : firstFree s.processArray with
  | none =>
      have heffect := (Refused.refl hlist).effect (.inl (firstFree_eq_none hfree))
      exact ⟨s, some (-1), System.sysFork_of_full hfree, heffect⟩
  | some i =>
      have hi := firstFree_eq_some hfree
      cases h₁ : s.kernel.kalloc with
      | none =>
          have hnil := hlist.kalloc_eq_none.mp h₁
          have heffect := (Refused.refl hlist).effect (.inr (by simp [hnil]))
          exact ⟨s, some (-1), System.sysFork_of_noStack hfree h₁, heffect⟩
      | some r =>
          obtain ⟨f, k₁⟩ := r
          cases h₂ : k₁.kalloc with
          | none =>
              obtain ⟨hone, -⟩ := hlist.kfree_kalloc h₁ h₂
              have heffect := (Refused.of_noTrap hlist hi h₁ h₂).effect (.inr (by simp [hone]))
              exact ⟨_, some (-1), System.sysFork_of_noTrap hfree h₁ h₂, heffect⟩
          | some r =>
              obtain ⟨g, k₂⟩ := r
              obtain ⟨rest₁, rfl, hrest₁⟩ := hlist.kalloc h₁
              obtain ⟨rest, rfl, hrest⟩ := hrest₁.kalloc h₂
              obtain ⟨caller, pid, -, -, -, hfork⟩ := System.sysFork_of_frames hfree h₁ h₂
              exact ⟨_, none, hfork, (Taken.of_child hlist hrest hfree).effect⟩

/-- `sys_fork` of the first process with two frames. -/
theorem sysFork_effect_two : ∃ s' v, (bootSystem twoFrames).sysFork = some (s', v) ∧
    ForkEffect (bootSystem twoFrames) s' [0x1000, 0x2000] v :=
  sysFork_effect (bootSystem twoFrames) freeList_twoFrames

end SkinnyArm
