import Mathlib.Data.List.Nodup
import Mathlib.Tactic

/-!
Null-terminated chains: the nodes met by following a link function from a head until the
null node.

* **Determinism.** The link function and the head determine the list (`Chain.unique`), so a
  chain that ends never repeats a node (`Chain.nodup`), and no node of it links back to its
  head (`Chain.next_ne_head`).  Its nodes are the ones met from the head (`Chain.meets_iff`).
* **Change of links.** Links off the chain may change freely (`Chain.congr`); a node is pushed
  in front (`Chain.push`) or behind the last (`Chain.concat`) and the head taken off
  (`Chain.pop`).  A node pushed twice starts no chain at all (`Chain.not_relinked`), and one link
  changed ends all walks that ended if it ends its own (`Chain.exists_of_relink`).
-/

variable {α : Type*} {next next' : α → α} {null a b : α} {l l' : List α}

/-- The nodes met from a head by following `next` until `null`. -/
inductive Chain (next : α → α) (null : α) : α → List α → Prop
  | nil : Chain next null null []
  | cons {a : α} {l : List α} (ha : a ≠ null) (hl : Chain next null (next a) l) :
      Chain next null a (a :: l)

/-- A node met from a head before `null`. -/
inductive Meets (next : α → α) (null b : α) : α → Prop
  | here (hb : b ≠ null) : Meets next null b b
  | there {a : α} (ha : a ≠ null) (h : Meets next null b (next a)) : Meets next null b a

namespace Chain

lemma null_notMem (h : Chain next null a l) : null ∉ l := by
  induction h with
  | nil => simp
  | cons ha _ ih => simp [ha.symm, ih]

@[simp] lemma null_iff : Chain next null null l ↔ l = [] := by
  constructor
  · intro h
    cases h with
    | nil => rfl
    | cons ha _ => exact absurd rfl ha
  · rintro rfl
    exact .nil

lemma eq_nil_iff (h : Chain next null a l) : l = [] ↔ a = null := by
  cases h with
  | nil => simp
  | cons ha _ => simp [ha]

/-- A chain that does not end at once starts with its head. -/
lemma exists_eq_cons (h : Chain next null a l) (ha : a ≠ null) :
    ∃ l', l = a :: l' ∧ Chain next null (next a) l' := by
  cases h with
  | nil => exact absurd rfl ha
  | cons _ hl => exact ⟨_, rfl, hl⟩

/-- The head and the links determine the chain. -/
lemma unique (h : Chain next null a l) (h' : Chain next null a l') : l = l' := by
  induction h generalizing l' with
  | nil => rw [null_iff.mp h']
  | cons ha _ ih =>
      obtain ⟨t, rfl, ht⟩ := h'.exists_eq_cons ha
      rw [ih ht]

/-- From every node of a chain the rest of the chain is a chain, and a shorter one. -/
lemma suffix_of_mem (h : Chain next null a l) (hb : b ∈ l) :
    ∃ t, Chain next null b (b :: t) ∧ t.length < l.length := by
  induction h with
  | nil => simp at hb
  | cons ha hl ih =>
      rcases List.mem_cons.mp hb with rfl | hb'
      · exact ⟨_, .cons ha hl, by simp⟩
      · obtain ⟨t, ht, hlen⟩ := ih hb'
        exact ⟨t, ht, by simp only [List.length_cons]; omega⟩

/-- A chain that ends meets no node twice. -/
lemma nodup (h : Chain next null a l) : l.Nodup := by
  induction h with
  | nil => exact List.nodup_nil
  | cons ha hl ih =>
      refine List.nodup_cons.mpr ⟨fun hmem => ?_, ih⟩
      obtain ⟨t, ht, hlen⟩ := hl.suffix_of_mem hmem
      have heq := ht.unique (.cons ha hl)
      simp only [List.cons.injEq, true_and] at heq
      rw [heq] at hlen
      exact lt_irrefl _ hlen

/-- No node of a chain links back to its head: the chain would never end. -/
lemma next_ne_head (h : Chain next null a l) (hb : b ∈ l) : next b ≠ a := by
  intro hback
  obtain ⟨t, ht, hlen⟩ := h.suffix_of_mem hb
  cases ht with
  | cons _ ht' =>
      rw [hback] at ht'
      rw [ht'.unique h] at hlen
      exact lt_irrefl _ hlen

/-- Until a node of the chain, the chain does not depend on the node's link. -/
lemma mem_of_congr_ne (h : Chain next null a l) (hb : b ∈ l)
    (hn : ∀ x ∈ l, x ≠ b → next' x = next x) (h' : Chain next' null a l') : b ∈ l' := by
  induction h generalizing l' with
  | nil => simp at hb
  | @cons a l ha _ ih =>
      obtain ⟨t, rfl, ht⟩ := h'.exists_eq_cons ha
      by_cases hab : b = a
      · simp [hab]
      · rw [hn a (by simp) (Ne.symm hab)] at ht
        refine List.mem_cons_of_mem _ (ih ?_ (fun x hx => hn x (by simp [hx])) ht)
        simpa [hab] using hb

/-- A node of a chain that is linked to the chain's head starts no chain. -/
lemma not_relinked (h : Chain next null a l) (hb : b ∈ l)
    (hn : ∀ x ∈ l, x ≠ b → next' x = next x) (hlink : next' b = a) : ¬ Chain next' null b l' := by
  intro h'
  have hne : b ≠ null := fun hnull => h.null_notMem (hnull ▸ hb)
  obtain ⟨t, rfl, ht⟩ := h'.exists_eq_cons hne
  rw [hlink] at ht
  exact (List.nodup_cons.mp h'.nodup).1 (h.mem_of_congr_ne hb hn ht)

/-- Links off the chain do not matter. -/
lemma congr (h : Chain next null a l) (hn : ∀ x ∈ l, next' x = next x) :
    Chain next' null a l := by
  induction h with
  | nil => exact .nil
  | cons ha _ ih =>
      refine .cons ha ?_
      rw [hn _ (by simp)]
      exact ih fun x hx => hn x (by simp [hx])

/-- A node off the chain that links to its head can be put in front. -/
lemma push (h : Chain next null a l) (hb : b ≠ null) (hlink : next' b = a)
    (hn : ∀ x ∈ l, next' x = next x) : Chain next' null b (b :: l) :=
  .cons hb (hlink ▸ h.congr hn)

/-- A node that ends the walk can be linked behind the last one. -/
lemma concat (h : Chain next null a l) (hl : l ≠ []) (hb : b ≠ null)
    (hlast : next' (l.getLast hl) = b) (hend : next' b = null)
    (hn : ∀ x ∈ l, x ≠ l.getLast hl → next' x = next x) : Chain next' null a (l ++ [b]) := by
  induction h with
  | nil => exact absurd rfl hl
  | @cons a l ha hrest ih =>
      have hnodup := (Chain.cons ha hrest).nodup
      cases l with
      | nil =>
          refine .cons ha ?_
          rw [show next' a = b from hlast]
          exact .cons hb (hend ▸ .nil)
      | cons c l =>
          have hne : c :: l ≠ [] := List.cons_ne_nil c l
          have hsame : (a :: c :: l).getLast hl = (c :: l).getLast hne := List.getLast_cons hne
          have hfirst : next' a = next a := by
            refine hn a List.mem_cons_self fun heq => ?_
            refine (List.nodup_cons.mp hnodup).1 ?_
            rw [heq, hsame]
            exact List.getLast_mem hne
          refine .cons ha ?_
          rw [hfirst]
          refine ih hne (hsame ▸ hlast) fun x hx hxl => ?_
          exact hn x (List.mem_cons_of_mem a hx) (by rw [hsame]; exact hxl)

/-- A node of a chain that links to null is the last one. -/
lemma getLast_eq (h : Chain next null a l) (hb : b ∈ l) (hnull : next b = null) (hl : l ≠ []) :
    l.getLast hl = b := by
  induction h with
  | nil => exact absurd rfl hl
  | @cons a l ha hrest ih =>
      by_cases hlnil : l = []
      · subst hlnil
        exact (List.mem_singleton.mp hb).symm
      · rw [List.getLast_cons hlnil]
        refine ih ((List.mem_cons.mp hb).resolve_left fun hba => ?_) hlnil
        rw [← hba, hnull] at hrest
        exact hlnil (null_iff.mp hrest)

/-- A chain from a node of a chain ends with the same node. -/
lemma getLast_of_mem (h : Chain next null a l) (hb : b ∈ l) (h' : Chain next null b l')
    (hl : l ≠ []) (hl' : l' ≠ []) : l'.getLast hl' = l.getLast hl := by
  induction h with
  | nil => exact absurd rfl hl
  | @cons a l ha hrest ih =>
      rcases List.mem_cons.mp hb with rfl | hb'
      · have heq := h'.unique (.cons ha hrest)
        subst heq
        rfl
      · have hne : l ≠ [] := List.ne_nil_of_mem hb'
        rw [List.getLast_cons hne]
        exact ih hb' hne

/-- With one link changed every walk that ended still ends, as long as the one from the changed
node does. -/
lemma exists_of_relink (h : Chain next null a l) (hb : ∃ l', Chain next' null b l')
    (hn : ∀ x, x ≠ b → next' x = next x) : ∃ l', Chain next' null a l' := by
  induction h with
  | nil => exact ⟨[], .nil⟩
  | @cons a l ha _ ih =>
      by_cases hab : a = b
      · exact hab ▸ hb
      · obtain ⟨l', hl'⟩ := ih
        exact ⟨a :: l', .cons ha (by rwa [hn a hab])⟩

/-- A node links to null or to a node of the chain. -/
lemma next_mem (h : Chain next null a l) (hb : b ∈ l) : next b = null ∨ next b ∈ l := by
  induction h with
  | nil => exact absurd hb List.not_mem_nil
  | @cons a l ha hrest ih =>
      rcases List.mem_cons.mp hb with rfl | hb'
      · cases hrest with
        | nil => exact .inl rfl
        | cons _ _ => exact .inr (List.mem_cons_of_mem _ List.mem_cons_self)
      · exact (ih hb').imp_right (List.mem_cons_of_mem a)

/-- The nodes of a chain are the ones met from its head. -/
lemma meets_iff (h : Chain next null a l) : Meets next null b a ↔ b ∈ l := by
  induction h with
  | nil =>
      refine ⟨fun hmeets => ?_, fun hmem => absurd hmem List.not_mem_nil⟩
      cases hmeets with
      | here hb => exact absurd rfl hb
      | there ha _ => exact absurd rfl ha
  | cons ha _ ih =>
      rw [List.mem_cons, ← ih]
      refine ⟨fun hmeets => ?_, fun hmem => ?_⟩
      · cases hmeets with
        | here _ => exact .inl rfl
        | there _ hrest => exact .inr hrest
      · rcases hmem with rfl | hrest
        · exact .here ha
        · exact .there ha hrest

/-- The head is taken off by following its link. -/
lemma pop (h : Chain next null a (b :: l)) : a = b ∧ b ≠ null ∧ Chain next null (next b) l := by
  cases h with
  | cons ha hl => exact ⟨rfl, ha, hl⟩

end Chain
