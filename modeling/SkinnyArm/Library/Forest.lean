import Mathlib.Data.List.Infix
import Mathlib.Data.Set.Insert
import Mathlib.Tactic

/-!
Forests given by an edge function: every node has at most one child at each key.

* **Walks.** `walk edge a p` follows the keys of `p` from `a`; it splits over appended paths
  (`walk_append`) and depends only on the edges it uses (`walk_congr`).
* **Planted forests.** `Planted edge n roots pos` certifies that the nodes above depth `n + 1`
  form disjoint trees: `pos` names the root and the path of every node, so a node is reached
  from one root along one path only (`Planted.pos_of_walk`).  Nodes at depth `n` may have
  children the certificate says nothing about.
* **Surgery.** One edge is added or removed at a time: `Planted.walk_update` says that only the
  paths through that edge change, `walk_attach` and `walk_detach` that a child without children
  comes and goes alone, and `plant`, `graft`, `relabel` and `prune` keep the certificate.
-/

namespace Forest

variable {α ι : Type*} {edge edge' : α → ι → Option α} {a b c r t : α} {p q : List ι} {i : ι}

/-- Follow the keys of a path from a node. -/
def walk (edge : α → ι → Option α) : α → List ι → Option α
  | a, [] => some a
  | a, i :: p => (edge a i).bind fun c => walk edge c p

@[simp] lemma walk_nil : walk edge a [] = some a := rfl

lemma walk_cons : walk edge a (i :: p) = (edge a i).bind fun c => walk edge c p := rfl

lemma walk_append : walk edge a (p ++ q) = (walk edge a p).bind fun c => walk edge c q := by
  induction p generalizing a with
  | nil => rfl
  | cons i p ih =>
      simp only [List.cons_append, walk_cons, Option.bind_assoc]
      exact congrArg _ (funext fun c => ih)

lemma walk_concat : walk edge a (p ++ [i]) = (walk edge a p).bind fun c => edge c i := by
  rw [walk_append]
  congr 1
  funext c
  cases h : edge c i <;> simp [walk_cons, h]

/-- A walk that arrives passes every prefix of its path. -/
lemma exists_walk_of_prefix (h : walk edge a p = some b) (hq : q <+: p) :
    ∃ c, walk edge a q = some c := by
  obtain ⟨s, rfl⟩ := hq
  rw [walk_append] at h
  exact Option.isSome_iff_exists.mp (by
    cases hw : walk edge a q with
    | none => simp [hw] at h
    | some c => rfl)

/-- A walk uses only the edges along its path. -/
lemma walk_congr (h : ∀ q i c, q ++ [i] <+: p → walk edge a q = some c → edge' c i = edge c i) :
    walk edge' a p = walk edge a p := by
  induction p using List.reverseRecOn with
  | nil => rfl
  | append_singleton p j ih =>
      have hp : walk edge' a p = walk edge a p :=
        ih fun q i c hq hw => h q i c (hq.trans (List.prefix_append p [j])) hw
      rw [walk_concat, walk_concat, hp]
      cases hw : walk edge a p with
      | none => rfl
      | some c => exact h p j c (List.prefix_refl _) hw

/-- A walk over fewer edges arrives where it arrived before. -/
lemma walk_of_sub (hsub : ∀ q i c d, q ++ [i] <+: p → walk edge a q = some c →
    edge' c i = some d → edge c i = some d) (h : walk edge' a p = some b) :
    walk edge a p = some b := by
  induction p using List.reverseRecOn generalizing b with
  | nil => exact h
  | append_singleton p j ih =>
      rw [walk_concat, Option.bind_eq_some_iff] at h ⊢
      obtain ⟨c, hc, hb⟩ := h
      have hwc := ih (fun q i c d hq => hsub q i c d (hq.trans (List.prefix_append p [j]))) hc
      exact ⟨c, hwc, hsub p j c b (List.prefix_refl _) hwc hb⟩

/-! ### Naming a fresh node -/

section Update

variable [DecidableEq α] {β : Type*} {name : α → Option β} {x y : β}

/-- A named node is the new one or was named before. -/
lemma named_of_update (h : Function.update name a (some x) b = some y) :
    (b = a ∧ y = x) ∨ name b = some y := by
  rcases eq_or_ne b a with rfl | hba
  · rw [Function.update_self, Option.some.injEq] at h
    exact .inl ⟨rfl, h.symm⟩
  · rw [Function.update_of_ne hba] at h
    exact .inr h

omit [DecidableEq α] in
lemma ne_of_named (hfresh : name a = none) (h : name b = some y) : b ≠ a := by
  rintro rfl
  rw [hfresh] at h
  exact absurd h (by simp)

/-- Naming a fresh node keeps the other names. -/
lemma update_named (hfresh : name a = none) (h : name b = some y) :
    Function.update name a (some x) b = some y := by
  rwa [Function.update_of_ne (ne_of_named hfresh h)]

end Update

/-- **A planted forest**: `pos` names, for every node down to depth `n`, the root and the path
the node is reached by. -/
structure Planted (edge : α → ι → Option α) (n : ℕ) (roots : Set α)
    (pos : α → Option (α × List ι)) : Prop where
  root : ∀ r ∈ roots, pos r = some (r, [])
  child : ∀ {t r p i c}, pos t = some (r, p) → p.length < n → edge t i = some c →
    pos c = some (r, p ++ [i])

namespace Planted

variable {n : ℕ} {roots : Set α} {pos : α → Option (α × List ι)}

/-- A node is reached along the path its position names and along no other. -/
lemma pos_of_walk (h : Planted edge n roots pos) (hr : r ∈ roots) (hp : p.length ≤ n)
    (hw : walk edge r p = some c) : pos c = some (r, p) := by
  induction p using List.reverseRecOn generalizing c with
  | nil =>
      simp only [walk_nil, Option.some.injEq] at hw
      exact hw ▸ h.root r hr
  | append_singleton p i ih =>
      simp only [List.length_append, List.length_singleton] at hp
      rw [walk_concat, Option.bind_eq_some_iff] at hw
      obtain ⟨t, ht, hc⟩ := hw
      exact h.child (ih (by omega) ht) (by omega) hc

/-- **Disjointness**: two walks that meet start at one root and follow one path. -/
lemma walk_inj (h : Planted edge n roots pos) {r' : α} (hr : r ∈ roots) (hr' : r' ∈ roots)
    (hp : p.length ≤ n) (hq : q.length ≤ n) (hw : walk edge r p = some c)
    (hw' : walk edge r' q = some c) : r = r' ∧ p = q := by
  have h1 := h.pos_of_walk hr hp hw
  rw [h.pos_of_walk hr' hq hw'] at h1
  simp only [Option.some.injEq, Prod.mk.injEq] at h1
  exact ⟨h1.1.symm, h1.2.symm⟩

/-- Every proper prefix of a path of length at most `n + 1` ends at a named node. -/
lemma pos_of_prefix (h : Planted edge n roots pos) (hr : r ∈ roots) (hp : p.length ≤ n + 1)
    (hq : q ++ [i] <+: p) (hw : walk edge r q = some c) : pos c = some (r, q) := by
  have hlen := hq.length_le
  simp only [List.length_append, List.length_singleton] at hlen
  exact h.pos_of_walk hr (by omega) hw

/-- **One edge changed**: a walk whose path does not pass the edge is as before. -/
lemma walk_update (h : Planted edge n roots pos) {r₀ : α} {q₀ : List ι} {i₀ : ι}
    (hagree : ∀ t r q i, pos t = some (r, q) → q.length ≤ n → ¬(r = r₀ ∧ q = q₀ ∧ i = i₀) →
      edge' t i = edge t i)
    (hr : r ∈ roots) (hp : p.length ≤ n + 1) (hoff : ¬(r = r₀ ∧ q₀ ++ [i₀] <+: p)) :
    walk edge' r p = walk edge r p := by
  refine walk_congr fun q i c hq hw => ?_
  have hlen := hq.length_le
  simp only [List.length_append, List.length_singleton] at hlen
  refine hagree c r q i (h.pos_of_prefix hr hp hq hw) (by omega) ?_
  rintro ⟨rfl, rfl, rfl⟩
  exact hoff ⟨rfl, hq⟩

/-- Edges that agree on all named nodes give the same walks. -/
lemma walk_agree (h : Planted edge n roots pos)
    (hagree : ∀ t r q i, pos t = some (r, q) → q.length ≤ n → edge' t i = edge t i)
    (hr : r ∈ roots) (hp : p.length ≤ n + 1) : walk edge' r p = walk edge r p := by
  refine walk_congr fun q i c hq hw => ?_
  have hlen := hq.length_le
  simp only [List.length_append, List.length_singleton] at hlen
  exact hagree c r q i (h.pos_of_prefix hr hp hq hw) (by omega)

/-- Removing edges, and changing edges at depth `n`, keeps the certificate. -/
lemma prune (h : Planted edge n roots pos)
    (hsub : ∀ t r q i c, pos t = some (r, q) → q.length < n → edge' t i = some c →
      edge t i = some c) : Planted edge' n roots pos where
  root := h.root
  child ht hp hc := h.child ht hp (hsub _ _ _ _ _ ht hp hc)

section Attach

variable {r₀ : α} {q₀ : List ι} {i₀ : ι}
  (h : Planted edge n roots pos) (hr₀ : r₀ ∈ roots) (ht : pos t = some (r₀, q₀))
  (hw : walk edge r₀ q₀ = some t) (hq₀ : q₀.length ≤ n)
  (hagree : ∀ t' r q i, pos t' = some (r, q) → q.length ≤ n → ¬(t' = t ∧ i = i₀) →
    edge' t' i = edge t' i)
include h hr₀ ht hw hq₀ hagree

/-- After a change of the edge of `t` at `i₀` alone, the node `t` is still reached. -/
lemma walk_to_changed : walk edge' r₀ q₀ = some t := by
  rw [← hw]
  refine h.walk_update ?_ hr₀ (by omega) (?_ : ¬(r₀ = r₀ ∧ q₀ ++ [i₀] <+: q₀))
  · rintro t' r q i hpos hlen hne
    refine hagree t' r q i hpos hlen ?_
    rintro ⟨rfl, rfl⟩
    rw [ht, Option.some.injEq, Prod.mk.injEq] at hpos
    exact hne ⟨hpos.1.symm, hpos.2.symm, rfl⟩
  · rintro ⟨-, hpre⟩
    have hlen := hpre.length_le
    simp at hlen

omit hr₀ hw hq₀ in
/-- After a change of the edge of `t` at `i₀` alone, the paths off that edge lead where they
led. -/
lemma walk_off_changed (hr : r ∈ roots) (hp : p.length ≤ n + 1)
    (hoff : ¬(r = r₀ ∧ q₀ ++ [i₀] <+: p)) : walk edge' r p = walk edge r p := by
  refine h.walk_update ?_ hr hp hoff
  rintro t' r q i hpos hlen hne
  refine hagree t' r q i hpos hlen ?_
  rintro ⟨rfl, rfl⟩
  rw [ht, Option.some.injEq, Prod.mk.injEq] at hpos
  exact hne ⟨hpos.1.symm, hpos.2.symm, rfl⟩

/-- The new path. -/
lemma walk_attach_self (hnew : edge' t i₀ = some c) : walk edge' r₀ (q₀ ++ [i₀]) = some c := by
  rw [walk_concat, h.walk_to_changed hr₀ ht hw hq₀ hagree]
  exact hnew

/-- **A child attached**: no other path is affected, whether or not it passes the new edge. -/
lemma walk_attach (hold : edge t i₀ = none) (hnew : edge' t i₀ = some c)
    (hempty : q₀.length < n → ∀ i, edge' c i = none) (hr : r ∈ roots) (hp : p.length ≤ n + 1)
    (hne : ¬(r = r₀ ∧ p = q₀ ++ [i₀])) : walk edge' r p = walk edge r p := by
  by_cases hon : r = r₀ ∧ q₀ ++ [i₀] <+: p
  · obtain ⟨rfl, s, rfl⟩ := hon
    cases s with
    | nil => exact absurd ⟨rfl, by simp⟩ hne
    | cons j s =>
        have hlt : q₀.length < n := by
          simp only [List.length_append, List.length_cons, List.length_nil] at hp
          omega
        have hbefore : walk edge r (q₀ ++ [i₀]) = none := by rw [walk_concat, hw]; exact hold
        have hafter := h.walk_attach_self hr₀ ht hw hq₀ hagree hnew
        rw [walk_append (p := q₀ ++ [i₀]), walk_append (p := q₀ ++ [i₀]), hafter, hbefore]
        simp [walk_cons, hempty hlt j]
  · exact h.walk_off_changed ht hagree hr hp hon

/-- **A child detached**: if the child had no children itself, no other path is affected. -/
lemma walk_detach (hold : edge t i₀ = some c) (hnew : edge' t i₀ = none)
    (hempty : q₀.length < n → ∀ i, edge c i = none) (hr : r ∈ roots) (hp : p.length ≤ n + 1)
    (hne : ¬(r = r₀ ∧ p = q₀ ++ [i₀])) : walk edge' r p = walk edge r p := by
  -- seen from afterwards, the child was attached
  have hafter : Planted edge' n roots pos := by
    refine h.prune fun t' r q i c ht' hq hc => ?_
    by_cases hslot : t' = t ∧ i = i₀
    · obtain ⟨rfl, rfl⟩ := hslot
      rw [hnew] at hc
      exact absurd hc (by simp)
    · rwa [hagree t' r q i ht' hq.le hslot] at hc
  have hw' := h.walk_to_changed hr₀ ht hw hq₀ hagree
  refine (hafter.walk_attach hr₀ ht hw' hq₀ ?_ hnew hold hempty hr hp hne).symm
  exact fun t' r q i ht' hq hslot => (hagree t' r q i ht' hq hslot).symm

/-- The path that was detached. -/
lemma walk_detach_self (hnew : edge' t i₀ = none) : walk edge' r₀ (q₀ ++ [i₀]) = none := by
  rw [walk_concat, h.walk_to_changed hr₀ ht hw hq₀ hagree]
  exact hnew

end Attach

/-- Nodes reached along one path only form a planted forest. -/
lemma of_walk_inj (hinj : ∀ r ∈ roots, ∀ r' ∈ roots, ∀ q q' : List ι, q.length ≤ n →
    q'.length ≤ n → ∀ c, walk edge r q = some c → walk edge r' q' = some c → r = r' ∧ q = q') :
    ∃ pos, Planted edge n roots pos ∧ ∀ c r q, pos c = some (r, q) →
      r ∈ roots ∧ q.length ≤ n ∧ walk edge r q = some c := by
  classical
  let Reached (c : α) (x : α × List ι) : Prop :=
    x.1 ∈ roots ∧ x.2.length ≤ n ∧ walk edge x.1 x.2 = some c
  let pos (c : α) : Option (α × List ι) :=
    if h : ∃ x, Reached c x then some h.choose else none
  have hreached : ∀ c x, pos c = some x → Reached c x := by
    intro c x hx
    simp only [pos] at hx
    split at hx
    · rename_i hex
      rw [← Option.some.inj hx]
      exact hex.choose_spec
    · exact absurd hx (by simp)
  have hnamed : ∀ c x, Reached c x → pos c = some x := by
    intro c x hx
    have hex : ∃ x, Reached c x := ⟨x, hx⟩
    have hchosen := hex.choose_spec
    obtain ⟨h1, h2⟩ := hinj _ hchosen.1 _ hx.1 _ _ hchosen.2.1 hx.2.1 c hchosen.2.2 hx.2.2
    simp only [pos, dif_pos hex, Option.some.injEq]
    exact Prod.ext h1 h2
  refine ⟨pos, ⟨fun r hr => hnamed r (r, []) ⟨hr, by simp, rfl⟩, ?_⟩,
    fun c r q hc => hreached c (r, q) hc⟩
  intro t r p i c ht hp hc
  obtain ⟨hr, -, hw⟩ := hreached t (r, p) ht
  have hlen : (p ++ [i]).length ≤ n := by
    simp only [List.length_append, List.length_singleton]
    omega
  refine hnamed c (r, p ++ [i]) ⟨hr, hlen, ?_⟩
  rw [walk_concat, hw]
  exact hc

/-- A fresh node without children becomes a root. -/
lemma plant [DecidableEq α] (h : Planted edge n roots pos) (hfresh : pos a = none)
    (hagree : ∀ t r q i, pos t = some (r, q) → q.length ≤ n → edge' t i = edge t i)
    (hempty : ∀ i, edge' a i = none) :
    Planted edge' n (insert a roots) (Function.update pos a (some (a, []))) where
  root r hr := by
    by_cases hra : r = a
    · subst hra
      simp
    · rw [Function.update_of_ne hra]
      exact h.root r (hr.resolve_left hra)
  child {t r p i c} ht hp hc := by
    rcases named_of_update ht with ⟨rfl, -⟩ | ht
    · rw [hempty] at hc
      exact absurd hc (by simp)
    · rw [hagree t r p i ht hp.le] at hc
      exact update_named hfresh (h.child ht hp hc)

/-- A fresh node without children is hung below a node of depth less than `n`. -/
lemma graft [DecidableEq α] (h : Planted edge n roots pos) {r₀ : α} {q₀ : List ι} {i₀ : ι}
    (hfresh : pos a = none) (ht₀ : pos t = some (r₀, q₀))
    (hagree : ∀ t' r q i, pos t' = some (r, q) → q.length ≤ n → ¬(t' = t ∧ i = i₀) →
      edge' t' i = edge t' i)
    (hnew : edge' t i₀ = some a) (hempty : ∀ i, edge' a i = none) :
    Planted edge' n roots (Function.update pos a (some (r₀, q₀ ++ [i₀]))) where
  root r hr := update_named hfresh (h.root r hr)
  child {t' r p i c} ht' hp hc := by
    rcases named_of_update ht' with ⟨rfl, -⟩ | hold
    · rw [hempty] at hc
      exact absurd hc (by simp)
    · by_cases hslot : t' = t ∧ i = i₀
      · obtain ⟨rfl, rfl⟩ := hslot
        rw [hnew, Option.some.injEq] at hc
        rw [ht₀, Option.some.injEq, Prod.mk.injEq] at hold
        rw [← hc, Function.update_self, hold.1, hold.2]
      · rw [hagree t' r p i hold hp.le hslot] at hc
        exact update_named hfresh (h.child hold hp hc)

/-- Naming a fresh node that no edge above depth `n` reaches. -/
lemma relabel [DecidableEq α] (h : Planted edge n roots pos) {x : α × List ι}
    (hfresh : pos a = none) (hdeep : n ≤ x.2.length) :
    Planted edge n roots (Function.update pos a (some x)) where
  root r hr := update_named hfresh (h.root r hr)
  child {t r p i c} ht hp hc := by
    rcases named_of_update ht with ⟨-, rfl⟩ | ht
    · exact absurd hp (by simpa using hdeep)
    · exact update_named hfresh (h.child ht hp hc)

end Planted

end Forest
