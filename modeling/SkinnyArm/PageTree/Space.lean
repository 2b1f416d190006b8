import SkinnyArm.PageTree.Run
import SkinnyArm.Library.AddressSpace

/-!
Page trees as address spaces.

A world represents the spaces of its roots, with the page numbers modulo `2^48` as pages
(`Represents`).  Taking a root opens a space, a call that maps a page installs it, and the other
calls and the writes change nothing (`spaces_simulation`), so a translation once made is kept
over every run (`translate_kept`).
-/

namespace SkinnyArm

open ByteMemory Forest

variable {frames fs : List ℕ} {w w' : World} {pos : Pos} {r f : ℕ} {k' : Kernel}
  {va : BitVec 64} {s : Spaces ℕ ℕ ℕ}

/-- The spaces of the roots of a world. -/
structure Represents (w : World) (s : Spaces ℕ ℕ ℕ) : Prop where
  opened : ∀ r, s.opened r ↔ r ∈ w.roots
  lookup : ∀ r ∈ w.roots, ∀ va, translate w.mem r va = s.lookup r (vpn va)

/-- Memory in which every page is translated as before represents the same spaces. -/
lemma Represents.of_same (h : Represents w s) (hsame : w.SameTranslations k'.mem)
    (mapped' : List Mapping) : Represents ⟨k', w.roots, mapped'⟩ s :=
  ⟨h.opened, fun r hr va => (hsame r hr va).trans (h.lookup r hr va)⟩

/-- **A new root** opens a space. -/
lemma Inv.represents_newRoot (hI : Inv frames w (f :: fs) pos) (hfr : InitialFrames frames)
    (hk : w.kernel.kalloc = some (f, k')) (h : Represents w s) :
    ¬ s.opened f ∧
      Represents { w with kernel := k', roots := f :: w.roots } (s.openSpace f) := by
  have hI' := hI.newRoot hfr hk
  obtain ⟨-, -, rfl⟩ := Kernel.kalloc_eq_some hk
  have hfresh : f ∉ w.roots := fun hr => (List.nodup_cons.mp hI'.nodup).1 hr
  have hkept : ∀ r ∈ w.roots, ∀ va,
      translate (w.mem.clear f pageSize) r va = translate w.mem r va := fun r hr va =>
    hI.walk_of_eqOn (fun ht _ => hI.eqOn_clear hfr ht) hr (by rw [path_length])
  have hempty : ∀ va, translate (w.mem.clear f pageSize) f va = none := fun va => by
    rw [translate, path, walk_cons, edge_eq_none.mpr]
    · rfl
    · rw [entry_clear_self]
      exact not_isSet_zero
  refine ⟨fun hopen => hfresh ((h.opened f).mp hopen), fun r => ?_, fun r hr va => ?_⟩
  · rw [List.mem_cons, ← h.opened]
    rfl
  · by_cases hrf : r = f
    · subst hrf
      rw [Spaces.lookup_openSpace_self]
      exact hempty va
    · have hr' : r ∈ w.roots := (List.mem_cons.mp hr).resolve_left hrf
      calc translate (w.mem.clear f pageSize) r va
          = translate w.mem r va := hkept r hr' va
        _ = s.lookup r (vpn va) := h.lookup r hr' va
        _ = (s.openSpace f).lookup r (vpn va) := (Spaces.lookup_openSpace hrf).symm

/-- **A call** installs the page it maps, or changes nothing. -/
lemma Inv.represents_call (hI : Inv frames w fs pos) (hfr : InitialFrames frames)
    (hlt : ∀ f ∈ frames, f < 2 ^ 36) (hr : r ∈ w.roots) (pa : BitVec 64) (kind : BitVec 8)
    (hpa : pa.toNat < 2 ^ 36) (h : Represents w s) :
    Represents (w.call r va pa kind) s ∨
      ∃ f, s.lookup r (vpn va) = none ∧
        Represents (w.call r va pa kind) (s.install r (vpn va) f) := by
  have hl : CallTranslates w r va pa kind _ _ :=
    (hI.looked hfr hlt hr hpa : Looked frames w fs r va pa kind 3 _ _).callTranslates hI
  rw [World.call]
  generalize w.kernel.getPhysicalPage r va pa kind = looked at hl ⊢
  obtain ⟨k', result⟩ := looked
  cases hold : translate w.mem r va with
  | some g => exact .inl (h.of_same (hl.found g hold).2 _)
  | none =>
      by_cases h0 : result = 0
      · exact .inl (h.of_same (hl.null h0) _)
      · obtain ⟨-, -, hself, hother⟩ := hl.mapped hold h0
        refine .inr ⟨result, (h.lookup r hr va).symm.trans hold, h.opened, fun r' hr' va' => ?_⟩
        by_cases heq : r' = r ∧ vpn va' = vpn va
        · obtain ⟨rfl, hvpn⟩ := heq
          rw [hvpn, Spaces.lookup_install_self, translate_congr_vpn hvpn]
          exact hself
        · calc translate k'.mem r' va'
              = translate w.mem r' va' := hother r' hr' va' heq
            _ = s.lookup r' (vpn va') := h.lookup r' hr' va'
            _ = (s.install r (vpn va) result).lookup r' (vpn va') :=
                (Spaces.lookup_install heq).symm

/-- A write changes nothing. -/
lemma Inv.represents_write (hI : Inv frames w fs pos) (hlt : ∀ f ∈ frames, f < 2 ^ 36) {a : ℕ}
    (v : BitVec 8) (ha : ∀ f ∈ frames, a ∈ page f → w.IsLeafFrame f) (h : Represents w s) :
    Represents { w with kernel := { w.kernel with mem := w.mem.store8 a v } } s :=
  h.of_same (fun _ hr _ => hI.walk_of_eqOn (fun ht hp =>
    eqOn_store8 ha (hI.mem_frames ht) (hI.not_isLeafFrame hlt ht hp)) hr (by rw [path_length])) _

/-- **The simulation**: every step of the page tables is a step of the spaces, or none. -/
lemma spaces_simulation (hfr : InitialFrames frames) (hlt : ∀ f ∈ frames, f < 2 ^ 36) :
    Simulation (fun w s => (∃ fs pos, Inv frames w fs pos) ∧ Represents w s)
      (World.Step frames) Spaces.Step := by
  refine ⟨fun {w w' s} hR hstep => ?_⟩
  obtain ⟨⟨fs, pos, hI⟩, hrep⟩ := hR
  have hinv := hI.step hfr hlt hstep
  cases hstep with
  | newRoot h =>
      obtain ⟨rest, rfl, -⟩ := hI.list.kalloc h
      obtain ⟨hfresh, hrep'⟩ := hI.represents_newRoot hfr h hrep
      exact ⟨_, .single (.openSpace hfresh), hinv, hrep'⟩
  | call va pa kind hr hpa =>
      rcases hI.represents_call hfr hlt hr pa kind hpa hrep with hsame | ⟨f, hnone, hrep'⟩
      · exact ⟨s, .refl, hinv, hsame⟩
      · exact ⟨_, .single (.install f ((hrep.opened _).mpr hr) hnone), hinv, hrep'⟩
  | write a v ha => exact ⟨s, .refl, hinv, hI.represents_write hlt v ha hrep⟩

/-- Every world a run reaches represents spaces that a run opened and filled. -/
theorem Boot.Reaches.represents {b : Boot} (hw : b.Reaches w) :
    ∃ s, Run Spaces.Step Spaces.none s ∧ Represents w s := by
  have hinit : Represents b.world Spaces.none :=
    ⟨fun r => by simp [Spaces.none, Boot.world], fun r hr => absurd hr (by simp [Boot.world])⟩
  obtain ⟨s, hrun, -, hrep⟩ := (spaces_simulation b.initial b.lt).run ⟨⟨_, _, b.inv⟩, hinit⟩ hw
  exact ⟨s, hrun, hrep⟩

/-- **Translations are kept** over every further run. -/
theorem translate_kept {b : Boot} (hw : b.Reaches w) (hrun : Run (World.Step b.frames) w w')
    (hr : r ∈ w.roots) (hf : translate w.mem r va = some f) :
    translate w'.mem r va = some f := by
  obtain ⟨s, -, hrep⟩ := hw.represents
  obtain ⟨s', hrun', -, hrep'⟩ := (spaces_simulation b.initial b.lt).run ⟨hw.inv, hrep⟩ hrun
  have hext := Spaces.run_extends hrun'
  have hopen := (hrep.opened r).mpr hr
  have hr' := (hrep'.opened r).mp (hext.opened r hopen)
  have hold : s.lookup r (vpn va) = some f := (hrep.lookup r hr va).symm.trans hf
  calc translate w'.mem r va
      = s'.lookup r (vpn va) := hrep'.lookup r hr' va
    _ = some f := hext.lookup r _ f hopen hold

end SkinnyArm
