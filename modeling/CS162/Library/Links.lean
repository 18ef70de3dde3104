import Mathlib.Data.List.Chain
import Mathlib.Data.List.Nodup
import Mathlib.Logic.Function.Basic

/-!
# Doubly linked nodes

A memory of nodes gives every node a `prev` and a `next` link.  Two nodes are joined when the
first one's `next` and the second one's `prev` point at each other, and a list of nodes is a
chain when its neighbours are joined.

What list operations do to the links is `join`, which points two nodes at each other.  It
closes the gap left by nodes that are taken out, and it glues two chains end to end.
`turnAll` exchanges the two links of each node of a chain, which turns the chain round.
-/

namespace CS162.Library

open Function List

/-- The links of the nodes in a memory. -/
structure Links (α : Type*) where
  prev : α → Option α
  next : α → Option α

namespace Links

variable {α : Type*} {m m' : Links α} {a b : α} {l r nodes : List α}

def Joined (m : Links α) (a b : α) : Prop := m.next a = some b ∧ m.prev b = some a

/-- Neighbours in the list are joined. -/
abbrev Chain (m : Links α) (nodes : List α) : Prop := nodes.IsChain m.Joined

/-- A chain needs the `next` links of all but its last node and the `prev` links of all but
its first. -/
theorem Chain.congr (h : m.Chain nodes) (hnext : ∀ u ∈ nodes.dropLast, m'.next u = m.next u)
    (hprev : ∀ u ∈ nodes.tail, m'.prev u = m.prev u) : m'.Chain nodes := by
  induction nodes with
  | nil => exact List.IsChain.nil
  | cons x rest ih =>
    cases rest with
    | nil => exact List.IsChain.singleton x
    | cons y rest =>
      rw [Chain, isChain_cons_cons] at h ⊢
      obtain ⟨hxy, hchain⟩ := h
      constructor
      · exact ⟨(hnext x (by simp)).trans hxy.1, (hprev y (by simp)).trans hxy.2⟩
      · apply ih hchain
        · intro u hu
          exact hnext u (by simpa using .inr hu)
        · intro u hu
          exact hprev u (mem_cons_of_mem y hu)

theorem Chain.congr_all (h : m.Chain nodes) (hnext : ∀ u ∈ nodes, m'.next u = m.next u)
    (hprev : ∀ u ∈ nodes, m'.prev u = m.prev u) : m'.Chain nodes :=
  h.congr (fun u hu => hnext u (dropLast_subset _ hu)) fun u hu => hprev u (mem_of_mem_tail hu)

theorem chain_append_cons_cons :
    m.Chain (l ++ a :: b :: r) ↔ m.Chain (l ++ [a]) ∧ m.Joined a b ∧ m.Chain (b :: r) :=
  isChain_append_cons_cons

/-! ## Joining two nodes -/

section Join

variable [DecidableEq α]

/-- Points two nodes at each other. -/
def join (m : Links α) (a b : α) : Links α :=
  ⟨update m.prev b (some a), update m.next a (some b)⟩

theorem join_next_of_ne {u : α} (h : u ≠ a) : (m.join a b).next u = m.next u :=
  update_of_ne h _ _

theorem join_prev_of_ne {u : α} (h : u ≠ b) : (m.join a b).prev u = m.prev u :=
  update_of_ne h _ _

/-- A chain stays one when its last node is joined to something, or something to its first. -/
theorem Chain.join_of_notMem (h : m.Chain nodes) (ha : a ∉ nodes.dropLast) (hb : b ∉ nodes.tail) :
    (m.join a b).Chain nodes := by
  apply h.congr
  · intro u hu
    exact join_next_of_ne (ne_of_mem_of_not_mem hu ha)
  · intro u hu
    exact join_prev_of_ne (ne_of_mem_of_not_mem hu hb)

/-- **Two chains are glued** by joining the last node of one to the first of the other. -/
theorem Chain.glue (hl : m.Chain (l ++ [a])) (hr : m.Chain (b :: r))
    (hnodup : (l ++ a :: b :: r).Nodup) : (m.join a b).Chain (l ++ a :: b :: r) := by
  rw [nodup_append] at hnodup
  obtain ⟨-, hright, hdisjoint⟩ := hnodup
  simp only [nodup_cons, mem_cons, not_or] at hright
  obtain ⟨⟨hab, har⟩, hbr, -⟩ := hright
  have hal : a ∉ l := fun h => hdisjoint a h a (by simp) rfl
  have hbl : b ∉ l := fun h => hdisjoint b h b (by simp) rfl
  rw [chain_append_cons_cons]
  refine ⟨hl.join_of_notMem ?_ ?_, ⟨update_self _ _ _, update_self _ _ _⟩, hr.join_of_notMem ?_ hbr⟩
  · simpa using hal
  · intro hb
    have hmem : b ∈ l ++ [a] := mem_of_mem_tail hb
    simp [hbl, Ne.symm hab] at hmem
  · intro ha
    have hmem : a ∈ b :: r := dropLast_subset _ ha
    simp [hab, har] at hmem

/-- Puts a chain from `f` to `z` between two nodes. -/
def paste (m : Links α) (a f z b : α) : Links α := (m.join z b).join a f

theorem paste_of_ne {f z u : α} (hf : u ≠ f) (hz : u ≠ z) :
    (u ≠ b → (m.paste a f z b).prev u = m.prev u) ∧
      (u ≠ a → (m.paste a f z b).next u = m.next u) :=
  ⟨fun hb => (join_prev_of_ne hf).trans (join_prev_of_ne hb),
    fun ha => (join_next_of_ne ha).trans (join_next_of_ne hz)⟩

/-- **A chain is pasted** between the two parts of another one. -/
theorem Chain.paste {f z : α} {moved : List α} (hl : m.Chain (l ++ [a])) (hmoved : m.Chain moved)
    (hr : m.Chain (b :: r)) (hfirst : moved.head? = some f) (hlast : moved.getLast? = some z)
    (hnodup : (l ++ a :: (moved ++ b :: r)).Nodup) :
    (m.paste a f z b).Chain (l ++ a :: (moved ++ b :: r)) := by
  obtain ⟨before, rfl⟩ := getLast?_eq_some_iff.mp hlast
  rw [append_assoc, singleton_append] at hnodup ⊢
  have hright : (before ++ z :: b :: r).Nodup := (nodup_cons.mp hnodup.of_append_right).2
  have hglued := hmoved.glue hr hright
  have hdisjoint : ∀ u ∈ before ++ z :: b :: r, u ∉ l ++ [a] := by
    intro u hu hul
    have hsplit : (l ++ [a] ++ (before ++ z :: b :: r)).Nodup := by simpa using hnodup
    exact (nodup_append.mp hsplit).2.2 u hul u hu rfl
  have hleft : (m.join z b).Chain (l ++ [a]) := by
    apply hl.join_of_notMem
    · exact fun hz => hdisjoint z (by simp) (dropLast_subset _ hz)
    · exact fun hb => hdisjoint b (by simp) (mem_of_mem_tail hb)
  obtain ⟨rest, hrest⟩ := head?_eq_some_iff.mp hfirst
  have hstart : before ++ z :: b :: r = f :: (rest ++ b :: r) := by
    rw [append_cons, hrest, cons_append]
  rw [hstart] at hglued hnodup ⊢
  exact hleft.glue hglued hnodup

end Join

/-! ## Turning a chain round -/

section Turn

variable [DecidableEq α]

/-- Exchanges the links of one node. -/
def turn (m : Links α) (a : α) : Links α :=
  ⟨update m.prev a (m.next a), update m.next a (m.prev a)⟩

def turnAll (m : Links α) (nodes : List α) : Links α := nodes.foldl turn m

theorem turnAll_of_notMem (h : a ∉ nodes) :
    (m.turnAll nodes).next a = m.next a ∧ (m.turnAll nodes).prev a = m.prev a := by
  induction nodes generalizing m with
  | nil => exact ⟨rfl, rfl⟩
  | cons x rest ih =>
    obtain ⟨hne, hrest⟩ := ne_and_not_mem_of_not_mem_cons h
    obtain ⟨hnext, hprev⟩ := ih (m := m.turn x) hrest
    exact ⟨hnext.trans (update_of_ne hne _ _), hprev.trans (update_of_ne hne _ _)⟩

theorem turnAll_of_mem (hnodup : nodes.Nodup) (h : a ∈ nodes) :
    (m.turnAll nodes).next a = m.prev a ∧ (m.turnAll nodes).prev a = m.next a := by
  induction nodes generalizing m with
  | nil => cases h
  | cons x rest ih =>
    obtain ⟨hx, hrest⟩ := nodup_cons.mp hnodup
    change ((m.turn x).turnAll rest).next a = _ ∧ ((m.turn x).turnAll rest).prev a = _
    by_cases hax : a = x
    · subst hax
      rw [(turnAll_of_notMem hx).1, (turnAll_of_notMem hx).2]
      exact ⟨update_self _ _ _, update_self _ _ _⟩
    · have hmem : a ∈ rest := (mem_cons.mp h).resolve_left hax
      obtain ⟨hnext, hprev⟩ := ih (m := m.turn x) hrest hmem
      exact ⟨hnext.trans (update_of_ne hax _ _), hprev.trans (update_of_ne hax _ _)⟩

/-- **A chain whose links are exchanged is the reversed chain.** -/
theorem Chain.turnAll (h : m.Chain nodes) (hnodup : nodes.Nodup) :
    (m.turnAll nodes).Chain nodes.reverse := by
  rw [Chain, isChain_reverse]
  apply List.IsChain.imp_of_mem_imp _ h
  intro u v hu hv huv
  obtain ⟨hnext, -⟩ := turnAll_of_mem (m := m) hnodup hv
  obtain ⟨-, hprev⟩ := turnAll_of_mem (m := m) hnodup hu
  exact ⟨hnext.trans huv.2, hprev.trans huv.1⟩

end Turn

end Links

end CS162.Library
