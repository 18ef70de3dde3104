import CS162.Library.Links
import CS162.Block

/-!
# The doubly linked lists of `lib/kernel/list.c`

A `struct list` is two sentinel nodes, its head and its tail, and its elements are nodes
anywhere in memory.  The functions work on the links alone: none of them knows which list a
node is on.

A memory of nodes is a `Links α`, where `α` is the type of their addresses.  A pointer is an
`Option α`; following a null pointer is undefined, and a failed `ASSERT` is a panic.  Loops
run on fuel.

## Strategy

All stores of an operation amount to joining nodes in pairs.  `WellFormed.relink` exchanges a
part of a list for other nodes.  Taking a part out and pasting a chain in are cases of it;
insertion, removal and splicing are these two, and reversal turns the elements round and pastes
them back between the sentinels.
-/

namespace CS162.KernelList

open Library Function List

/-- Programs on a memory of list nodes. -/
abbrev ListM (α : Type) := StateT (Links α) (Except Fault)

/-- A `struct list`: where its two sentinels are. -/
structure Ends (α : Type) where
  head : α
  tail : α

namespace ListM

variable {α : Type} [DecidableEq α]

/-- Follows a pointer. -/
def deref : Option α → ListM α α
  | none => throw (.undefined "null pointer")
  | some a => pure a

def prev (p : Option α) : ListM α (Option α) := do
  let a ← deref p
  return (← get).prev a

def next (p : Option α) : ListM α (Option α) := do
  let a ← deref p
  return (← get).next a

def setPrev (p value : Option α) : ListM α Unit := do
  let a ← deref p
  modify fun m => { m with prev := update m.prev a value }

def setNext (p value : Option α) : ListM α Unit := do
  let a ← deref p
  modify fun m => { m with next := update m.next a value }

def assert (condition : Bool) (site : String) : ListM α Unit :=
  if condition then pure () else throw (.panic site)

end ListM

section Source

variable {α : Type} [DecidableEq α]

open ListM

def isHead (m : Links α) : Option α → Bool
  | none => false
  | some elem => (m.prev elem).isNone && (m.next elem).isSome

def isInterior (m : Links α) : Option α → Bool
  | none => false
  | some elem => (m.prev elem).isSome && (m.next elem).isSome

def isTail (m : Links α) : Option α → Bool
  | none => false
  | some elem => (m.prev elem).isSome && (m.next elem).isNone

def listBegin (list : Ends α) : ListM α (Option α) := next (some list.head)

def listNext (elem : Option α) : ListM α (Option α) := do
  let m ← get
  assert (isHead m elem || isInterior m elem) "is_head (elem) || is_interior (elem)"
  next elem

def listEnd (list : Ends α) : Option α := some list.tail

def listRbegin (list : Ends α) : ListM α (Option α) := prev (some list.tail)

def listPrev (elem : Option α) : ListM α (Option α) := do
  let m ← get
  assert (isInterior m elem || isTail m elem) "is_interior (elem) || is_tail (elem)"
  prev elem

def listRend (list : Ends α) : Option α := some list.head

def listInsert (before elem : Option α) : ListM α Unit := do
  let m ← get
  assert (isInterior m before || isTail m before) "is_interior (before) || is_tail (before)"
  assert elem.isSome "elem != NULL"
  setPrev elem (← prev before)
  setNext elem before
  setNext (← prev before) elem
  setPrev before elem

def listSplice (before first last : Option α) : ListM α Unit := do
  let m ← get
  assert (isInterior m before || isTail m before) "is_interior (before) || is_tail (before)"
  if first = last then
    return
  let last ← listPrev last
  assert (isInterior m first) "is_interior (first)"
  assert (isInterior m last) "is_interior (last)"
  -- Cleanly remove FIRST...LAST from its current list.
  setNext (← prev first) (← next last)
  setPrev (← next last) (← prev first)
  -- Splice FIRST...LAST into new list.
  setPrev first (← prev before)
  setNext last before
  setNext (← prev before) first
  setPrev before last

def listPushFront (list : Ends α) (elem : Option α) : ListM α Unit := do
  listInsert (← listBegin list) elem

def listPushBack (list : Ends α) (elem : Option α) : ListM α Unit := listInsert (listEnd list) elem

def listRemove (elem : Option α) : ListM α (Option α) := do
  let m ← get
  assert (isInterior m elem) "is_interior (elem)"
  setNext (← prev elem) (← next elem)
  setPrev (← next elem) (← prev elem)
  next elem

def listEmpty (list : Ends α) : ListM α Bool := do
  return (← listBegin list) = listEnd list

def listFront (list : Ends α) : ListM α (Option α) := do
  assert (!(← listEmpty list)) "!list_empty (list)"
  next (some list.head)

def listBack (list : Ends α) : ListM α (Option α) := do
  assert (!(← listEmpty list)) "!list_empty (list)"
  prev (some list.tail)

def listPopFront (list : Ends α) : ListM α (Option α) := do
  let front ← listFront list
  let _ ← listRemove front
  return front

def listPopBack (list : Ends α) : ListM α (Option α) := do
  let back ← listBack list
  let _ ← listRemove back
  return back

/-- `for (e = start; e != stop; e = step (e))`, with a body that only computes. -/
def forElems {β : Type} (step : Option α → ListM α (Option α)) (stop : Option α)
    (body : β → Option α → β) : ℕ → Option α → β → ListM α β
  | 0, _, _ => throw .outOfFuel
  | fuel + 1, e, acc =>
    if e = stop then return acc
    else do forElems step stop body fuel (← step e) (body acc e)

def listSize (fuel : ℕ) (list : Ends α) : ListM α ℕ := do
  forElems listNext (listEnd list) (fun cnt _ => cnt + 1) fuel (← listBegin list) 0

/-- The elements in the order of `list_begin` and `list_next`. -/
def readForward (fuel : ℕ) (list : Ends α) : ListM α (List (Option α)) := do
  forElems listNext (listEnd list) (fun acc e => acc ++ [e]) fuel (← listBegin list) []

/-- The elements in the order of `list_rbegin` and `list_prev`. -/
def readBackward (fuel : ℕ) (list : Ends α) : ListM α (List (Option α)) := do
  forElems listPrev (listRend list) (fun acc e => acc ++ [e]) fuel (← listRbegin list) []

def reverseLoop (list : Ends α) : ℕ → Option α → ListM α Unit
  | 0, _ => throw .outOfFuel
  | fuel + 1, e =>
    if e = listEnd list then return
    else do
      -- swap (&e->prev, &e->next)
      let t ← prev e
      setPrev e (← next e)
      setNext e t
      reverseLoop list fuel (← prev e)

def listReverse (fuel : ℕ) (list : Ends α) : ListM α Unit := do
  if !(← listEmpty list) then
    reverseLoop list fuel (← listBegin list)
    -- swap (&list->head.next, &list->tail.prev)
    let t ← next (some list.head)
    setNext (some list.head) (← prev (some list.tail))
    setPrev (some list.tail) t
    -- swap (&list->head.next->prev, &list->tail.prev->next)
    let first ← next (some list.head)
    let last ← prev (some list.tail)
    let t ← prev first
    setPrev first (← next last)
    setNext last t

end Source

/-! ## What the functions do to the links -/

section Run

variable {α β : Type} {m : Links α} {a b e u v : α}

open ListM

@[simp] theorem run_prev : (prev (some a)).run m = .ok (m.prev a, m) := rfl

@[simp] theorem run_next : (next (some a)).run m = .ok (m.next a, m) := rfl

@[simp] theorem run_assert_true (site : String) :
    (assert true site : ListM α Unit).run m = .ok ((), m) := rfl

theorem isInterior_or_isTail (h : m.prev b = some a) :
    (isInterior m (some b) || isTail m (some b)) = true := by
  cases hnext : m.next b <;> simp [isInterior, isTail, h, hnext]

theorem isHead_or_isInterior (h : m.next a = some b) :
    (isHead m (some a) || isInterior m (some a)) = true := by
  cases hprev : m.prev a <;> simp [isInterior, isHead, h, hprev]

theorem isInterior_of (hprev : m.prev e = some u) (hnext : m.next e = some v) :
    isInterior m (some e) = true := by
  simp [isInterior, hprev, hnext]

theorem run_listNext (h : m.next a = some b) : (listNext (some a)).run m = .ok (some b, m) := by
  simp [listNext, isHead_or_isInterior h, h]

theorem run_listPrev (h : m.prev b = some a) : (listPrev (some b)).run m = .ok (some a, m) := by
  simp [listPrev, isInterior_or_isTail h, h]

end Run

section Stores

variable {α β : Type} [DecidableEq α] {m : Links α} {a b e f u v w z : α}

open ListM

@[simp] theorem run_setPrev (value : Option α) :
    (setPrev (some a) value).run m = .ok ((), ⟨update m.prev a value, m.next⟩) := rfl

@[simp] theorem run_setNext (value : Option α) :
    (setNext (some a) value).run m = .ok ((), ⟨m.prev, update m.next a value⟩) := rfl

theorem paste_eq (hne : f ≠ b) : m.paste a f z b = ⟨update (update m.prev f (some a)) b (some z),
      update (update m.next z (some b)) a (some f)⟩ := by
  unfold Links.paste Links.join
  rw [update_comm hne]

theorem run_listInsert (hprev : m.prev v = some u) (hne : e ≠ v) :
    (listInsert (some v) (some e)).run m = .ok ((), m.paste u e e v) := by
  simp [listInsert, isInterior_or_isTail hprev, hprev, update_of_ne hne.symm, paste_eq hne]

theorem run_listRemove (hprev : m.prev e = some u) (hnext : m.next e = some v) (hne : e ≠ u) :
    (listRemove (some e)).run m = .ok (some v, m.join u v) := by
  simp [listRemove, isInterior_of hprev hnext, hprev, hnext, update_of_ne hne, Links.join]

/-- `list_splice` takes the nodes from `f` to `z` out and pastes them before `v`. -/
theorem run_listSplice {last : α} (hne : f ≠ last) (hfirst : m.prev f = some u)
    (hinterior : isInterior m (some f) = true) (hlast : m.Joined z last)
    (hend : isInterior m (some z) = true) (hzu : z ≠ u) (hfv : f ≠ v)
    (hbefore : (m.join u last).prev v = some w) :
    (listSplice (some v) (some f) (some last)).run m = .ok ((), (m.join u last).paste w f z v) := by
  have hv : ∃ p, m.prev v = some p := by
    by_cases hvl : v = last
    · exact ⟨z, hvl ▸ hlast.2⟩
    · exact ⟨w, (Links.join_prev_of_ne hvl).symm.trans hbefore⟩
  obtain ⟨p, hp⟩ := hv
  replace hbefore : update m.prev last (some u) v = some w := hbefore
  have hread := run_listPrev hlast.2
  simp [listSplice, isInterior_or_isTail hp, hne, hread, hinterior, hend, hfirst,
    hlast.1, update_of_ne hzu, hbefore,
    update_of_ne hfv.symm, paste_eq hfv, Links.join]

end Stores

/-! ## Well-formed lists -/

/-- The nodes of a list with the elements `xs`, sentinels included. -/
def Ends.nodes {α : Type} (list : Ends α) (xs : List α) : List α :=
  list.head :: (xs ++ [list.tail])

/-- The list's elements are `xs`. -/
structure IsList {α : Type} (m : Links α) (list : Ends α) (xs : List α) : Prop where
  chain : m.Chain (list.nodes xs)
  nodup : (list.nodes xs).Nodup
  head_prev : m.prev list.head = none
  tail_next : m.next list.tail = none

namespace IsList

variable {α : Type} {m m' : Links α} {list : Ends α} {xs ys l r : List α} {a b : α}

theorem exists_last (a : α) (xs : List α) : ∃ l b, a :: xs = l ++ [b] :=
  ⟨_, _, (dropLast_append_getLast (cons_ne_nil a xs)).symm⟩

theorem exists_first (xs : List α) (a : α) : ∃ b r, xs ++ [a] = b :: r :=
  exists_cons_of_ne_nil (by simp)

theorem nodes_append (list : Ends α) (xs ys : List α) :
    list.nodes (xs ++ ys) = list.head :: xs ++ (ys ++ [list.tail]) := by
  simp [Ends.nodes]

theorem nodes_around (list : Ends α) (xs moved ys : List α) :
    list.nodes (xs ++ moved ++ ys) = list.head :: xs ++ (moved ++ (ys ++ [list.tail])) := by
  simp [Ends.nodes]

theorem nodes_perm (list : Ends α) (xs moved ys : List α) :
    (list.nodes (xs ++ moved ++ ys)).Perm (moved ++ list.nodes (xs ++ ys)) := by
  rw [nodes_around, nodes_append]
  exact perm_append_comm_assoc _ _ _

theorem nodes_subset (list : Ends α) (xs moved ys : List α) :
    list.nodes (xs ++ ys) ⊆ list.nodes (xs ++ moved ++ ys) :=
  fun _ hu => (nodes_perm list xs moved ys).mem_iff.mpr (mem_append_right _ hu)

/-- A list stays what it is when the links of its nodes are left alone. -/
theorem congr (h : IsList m list xs) (hnext : ∀ u ∈ list.nodes xs, m'.next u = m.next u)
    (hprev : ∀ u ∈ list.nodes xs, m'.prev u = m.prev u) : IsList m' list xs where
  chain := h.chain.congr_all hnext hprev
  nodup := h.nodup
  head_prev := (hprev _ (by simp [Ends.nodes])).trans h.head_prev
  tail_next := (hnext _ (by simp [Ends.nodes])).trans h.tail_next

theorem joined (h : IsList m list (xs ++ ys)) (hl : list.head :: xs = l ++ [a])
    (hr : ys ++ [list.tail] = b :: r) : m.Joined a b := by
  have hchain := h.chain
  rw [nodes_append, hl, hr, append_assoc, singleton_append, Links.chain_append_cons_cons] at hchain
  exact hchain.2.1

theorem isInterior_of_mem (h : IsList m list xs) (ha : a ∈ xs) : isInterior m (some a) = true := by
  obtain ⟨us, vs, rfl⟩ := append_of_mem ha
  have hshift : IsList m list (us ++ [a] ++ vs) := by simpa using h
  obtain ⟨l, u, hl⟩ := exists_last list.head us
  obtain ⟨v, r, hr⟩ := exists_first vs list.tail
  exact isInterior_of (h.joined hl rfl).2
    (hshift.joined (l := list.head :: us) (cons_append ..) hr).1

end IsList

/-- Lists that share no nodes: list `i` has the elements `seqs i`. -/
structure WellFormed {ι α : Type} (m : Links α) (lists : ι → Ends α) (seqs : ι → List α) :
    Prop where
  isList : ∀ i, IsList m (lists i) (seqs i)
  disjoint : ∀ i j, i ≠ j → ∀ a ∈ (lists i).nodes (seqs i), a ∉ (lists j).nodes (seqs j)

/-- The node is on none of the lists. -/
def OffLists {ι α : Type} (lists : ι → Ends α) (seqs : ι → List α) (a : α) : Prop :=
  ∀ k, a ∉ (lists k).nodes (seqs k)

/-- The links outside the involved lists are as they were. -/
def SameElsewhere {ι α : Type} (lists : ι → Ends α) (involved : List ι) (seqs seqs' : ι → List α)
    (m m' : Links α) : Prop :=
  ∀ a, (∀ k ∈ involved, a ∉ (lists k).nodes (seqs k) ∧ a ∉ (lists k).nodes (seqs' k)) →
    m'.prev a = m.prev a ∧ m'.next a = m.next a

/-- The lists have the elements `seqs'` now, and only the involved ones have changed. -/
def Becomes {ι α : Type} (lists : ι → Ends α) (involved : List ι) (seqs seqs' : ι → List α)
    (m m' : Links α) : Prop :=
  WellFormed m' lists seqs' ∧ SameElsewhere lists involved seqs seqs' m m'

namespace WellFormed

variable {ι α : Type} [DecidableEq ι] {m m' : Links α} {lists : ι → Ends α}
  {seqs : ι → List α} {i j : ι} {xs ys old new l r : List α} {a b f z : α}

theorem offLists_of_cut (h : WellFormed m lists seqs) (hsplit : seqs i = xs ++ old ++ ys) :
    ∀ u ∈ old, OffLists lists (update seqs i (xs ++ ys)) u := by
  intro u hu k hk
  have hperm := IsList.nodes_perm (lists i) xs old ys
  rw [← hsplit] at hperm
  by_cases hki : k = i
  · subst hki
    rw [update_self] at hk
    have hnodup := hperm.nodup_iff.mp (h.isList k).nodup
    exact (nodup_append.mp hnodup).2.2 u hu u hk rfl
  · rw [update_of_ne hki] at hk
    exact h.disjoint i k (Ne.symm hki) u (hperm.mem_iff.mpr (mem_append_left _ hu)) hk

/-- **A part of a list is exchanged.**  The new part's nodes are on no list, and the links
change only there and where it meets the rest of the list. -/
theorem relink (h : WellFormed m lists seqs) (hsplit : seqs i = xs ++ old ++ ys)
    (hl : (lists i).head :: xs = l ++ [a]) (hr : ys ++ [(lists i).tail] = b :: r)
    (hnew : new.Nodup) (hoff : ∀ u ∈ new, OffLists lists (update seqs i (xs ++ ys)) u)
    (hchain : (l ++ a :: (new ++ b :: r)).Nodup → m'.Chain (l ++ a :: (new ++ b :: r)))
    (hsame : ∀ u ∉ new, (u ≠ b → m'.prev u = m.prev u) ∧ (u ≠ a → m'.next u = m.next u)) :
    Becomes lists [i] seqs (update seqs i (xs ++ new ++ ys)) m m' := by
  have hold := IsList.nodes_perm (lists i) xs old ys
  have hperm := IsList.nodes_perm (lists i) xs new ys
  rw [← hsplit] at hold
  have hrest : ∀ u ∈ new, u ∉ (lists i).nodes (xs ++ ys) := by
    intro u hu
    have hi := hoff u hu i
    rwa [update_self] at hi
  have hnodup : ((lists i).nodes (xs ++ ys)).Nodup :=
    (hold.nodup_iff.mp (h.isList i).nodup).of_append_right
  have hlong : ((lists i).nodes (xs ++ new ++ ys)).Nodup := by
    rw [hperm.nodup_iff, nodup_append]
    exact ⟨hnew, hnodup, fun u hu w hw huw => hrest u hu (huw ▸ hw)⟩
  have hnodes : (lists i).nodes (xs ++ new ++ ys) = l ++ a :: (new ++ b :: r) := by
    rw [IsList.nodes_around, hl, hr, append_assoc, singleton_append]
  have hframe : ∀ u ∉ (lists i).nodes (xs ++ new ++ ys),
      m'.prev u = m.prev u ∧ m'.next u = m.next u := by
    intro u hu
    rw [hnodes] at hu
    simp only [mem_append, mem_cons, not_or] at hu
    exact ⟨(hsame u hu.2.2.1).1 hu.2.2.2.1, (hsame u hu.2.2.1).2 hu.2.1⟩
  -- The other lists share no node with the list as it is now.
  have hapart : ∀ k, k ≠ i → ∀ u ∈ (lists k).nodes (seqs k),
      u ∉ (lists i).nodes (xs ++ new ++ ys) := by
    intro k hk u hu hmem
    rcases mem_append.mp (hperm.mem_iff.mp hmem) with hu' | hu'
    · have hk' := hoff u hu' k
      rw [update_of_ne hk] at hk'
      exact hk' hu
    · exact h.disjoint k i hk u hu (hsplit ▸ IsList.nodes_subset _ _ _ _ hu')
  have hlist : IsList m' (lists i) (xs ++ new ++ ys) := by
    have hhead : (lists i).head ∈ (lists i).nodes (xs ++ ys) := by simp [Ends.nodes]
    have htail : (lists i).tail ∈ (lists i).nodes (xs ++ ys) := by simp [Ends.nodes]
    have hne := hnodup
    rw [IsList.nodes_append, hr, nodup_append] at hne
    have htail' : (lists i).tail ∈ b :: r := hr ▸ mem_append_right _ mem_cons_self
    refine ⟨hnodes ▸ hchain (hnodes ▸ hlong), hlong, ?_, ?_⟩
    · rw [(hsame _ fun hu => hrest _ hu hhead).1 (hne.2.2 _ mem_cons_self b mem_cons_self)]
      exact (h.isList i).head_prev
    · have ha : a ∈ (lists i).head :: xs := hl ▸ mem_append_right _ mem_cons_self
      rw [(hsame _ fun hu => hrest _ hu htail).2 (hne.2.2 a ha _ htail').symm]
      exact (h.isList i).tail_next
  refine ⟨⟨fun k => ?_, fun k k' hne u hu hu' => ?_⟩, fun u hu => hframe u ?_⟩
  · by_cases hk : k = i
    · subst hk
      rwa [update_self]
    · rw [update_of_ne hk]
      exact (h.isList k).congr (fun u hu => (hframe u (hapart k hk u hu)).2)
        fun u hu => (hframe u (hapart k hk u hu)).1
  · by_cases hk : k = i
    · subst hk
      rw [update_self] at hu
      rw [update_of_ne hne.symm] at hu'
      exact hapart k' hne.symm u hu' hu
    rw [update_of_ne hk] at hu
    by_cases hk' : k' = i
    · subst hk'
      rw [update_self] at hu'
      exact hapart k hk u hu hu'
    · rw [update_of_ne hk'] at hu'
      exact h.disjoint k k' hne u hu hu'
  · have hi := (hu i mem_cons_self).2
    rwa [update_self] at hi

variable [DecidableEq α]

/-- A part of a list is taken out. -/
theorem cut (h : WellFormed m lists seqs) (hsplit : seqs i = xs ++ old ++ ys)
    (hl : (lists i).head :: xs = l ++ [a]) (hr : ys ++ [(lists i).tail] = b :: r) :
    Becomes lists [i] seqs (update seqs i (xs ++ ys)) m (m.join a b) := by
  have hchain := (h.isList i).chain
  rw [hsplit, IsList.nodes_around, hl, hr] at hchain
  have hcut := h.relink hsplit hl hr nodup_nil (by simp)
    (Links.Chain.glue hchain.left_of_append hchain.right_of_append.right_of_append)
    fun u _ => ⟨Links.join_prev_of_ne, Links.join_next_of_ne⟩
  rwa [append_nil] at hcut

/-- A chain of nodes is put into a list. -/
theorem paste (h : WellFormed m lists seqs) (hsplit : seqs i = xs ++ ys)
    (hl : (lists i).head :: xs = l ++ [a]) (hr : ys ++ [(lists i).tail] = b :: r)
    (hmoved : m.Chain new) (hnodup : new.Nodup) (hfree : ∀ u ∈ new, OffLists lists seqs u)
    (hfirst : new.head? = some f) (hlast : new.getLast? = some z) :
    Becomes lists [i] seqs (update seqs i (xs ++ new ++ ys)) m (m.paste a f z b) := by
  have hchain := (h.isList i).chain
  rw [hsplit, IsList.nodes_append, hl, hr] at hchain
  have hsplit' : seqs i = xs ++ [] ++ ys := by rwa [append_nil]
  apply h.relink hsplit' hl hr hnodup
  · rwa [← hsplit, update_eq_self]
  · exact Links.Chain.paste hchain.left_of_append hmoved hchain.right_of_append hfirst hlast
  · intro u hu
    exact Links.paste_of_ne (fun huf => hu (huf ▸ mem_of_mem_head? hfirst))
      fun huz => hu (huz ▸ mem_of_getLast? hlast)

end WellFormed

/-! ## Walking along a list -/

section Walk

variable {α β : Type} {m : Links α} {list : Ends α} {xs : List α}

theorem foldl_count (xs : List α) (n : ℕ) : xs.foldl (fun cnt _ => cnt + 1) n = n + xs.length := by
  induction xs generalizing n with
  | nil => rfl
  | cons x xs ih =>
    rw [foldl_cons, ih, length_cons]
    omega

theorem foldl_collect (xs : List α) (acc : List (Option α)) :
    xs.foldl (fun acc a => acc ++ [some a]) acc = acc ++ xs.map some := by
  induction xs generalizing acc with
  | nil => simp
  | cons x xs ih => simp [ih]

namespace IsList

section

variable (h : IsList m list xs)
include h

theorem next_head : m.next list.head = (xs ++ [list.tail]).head? := by
  obtain ⟨b, r, hr⟩ := exists_first xs list.tail
  rw [hr]
  have hsplit : IsList m list ([] ++ xs) := h
  exact (hsplit.joined (l := []) rfl hr).1

theorem prev_tail : m.prev list.tail = (list.head :: xs).getLast? := by
  obtain ⟨l, a, hl⟩ := exists_last list.head xs
  rw [hl, getLast?_append_cons]
  have hsplit : IsList m list (xs ++ []) := by rwa [append_nil]
  exact (hsplit.joined hl (r := []) rfl).2

theorem forward :
    (xs ++ [list.tail]).IsChain fun a b => (listNext (some a)).run m = .ok (some b, m) := by
  have hchain := h.chain
  rw [Ends.nodes, ← singleton_append] at hchain
  exact hchain.right_of_append.imp fun a b hab => run_listNext hab.1

theorem backward : (xs.reverse ++ [list.head]).IsChain
    fun a b => (listPrev (some a)).run m = .ok (some b, m) := by
  have hchain := h.chain
  rw [← reverse_cons, isChain_reverse]
  exact hchain.left_of_append.imp fun a b hab => run_listPrev hab.2

theorem sentinels : list.head ∉ xs ∧ list.tail ∉ xs ∧ list.head ≠ list.tail := by
  have hnodup := h.nodup
  rw [Ends.nodes, nodup_cons, nodup_append, mem_append, not_or] at hnodup
  obtain ⟨⟨hhead, hne⟩, -, -, htail⟩ := hnodup
  exact ⟨hhead, fun hmem => htail _ hmem _ mem_cons_self rfl, fun heq => hne (heq ▸ mem_cons_self)⟩

end

end IsList

variable [DecidableEq α]

theorem run_forElems {step : Option α → ListM α (Option α)} {body : β → Option α → β} {stop : α}
    {rest : List α} (hstop : stop ∉ rest)
    (hchain : (rest ++ [stop]).IsChain fun a b => (step (some a)).run m = .ok (some b, m))
    {fuel : ℕ} (hfuel : rest.length < fuel) (acc : β) :
    (forElems step (some stop) body fuel (rest ++ [stop]).head? acc).run m =
      .ok (rest.foldl (fun acc a => body acc (some a)) acc, m) := by
  induction rest generalizing fuel acc with
  | nil =>
    obtain ⟨fuel, rfl⟩ := Nat.exists_eq_add_of_lt hfuel
    simp [forElems]
    rfl
  | cons a rest ih =>
    obtain ⟨fuel, rfl⟩ := Nat.exists_eq_add_of_lt hfuel
    obtain ⟨hne, hrest⟩ := ne_and_not_mem_of_not_mem_cons hstop
    obtain ⟨b, r, hb⟩ := IsList.exists_first rest stop
    rw [cons_append, hb, isChain_cons_cons, ← hb] at hchain
    have hlt : rest.length < rest.length + 1 + fuel := by omega
    have hnext := ih hrest hchain.2 hlt (body acc (some a))
    rw [hb, head?_cons] at hnext
    simp [forElems, hne.symm, hchain.1, hnext]

/-- What a caller sees of a list: its elements in both directions and their number. -/
structure Reads (fuel : ℕ) (m : Links α) (list : Ends α) (xs : List α) : Prop where
  forward : (readForward fuel list).run m = .ok (xs.map some, m)
  backward : (readBackward fuel list).run m = .ok (xs.reverse.map some, m)
  size : (listSize fuel list).run m = .ok (xs.length, m)
  empty : (listEmpty list).run m = .ok (xs.isEmpty, m)

/-- **A list reads as its elements.** -/
theorem IsList.reads (h : IsList m list xs) {fuel : ℕ} (hfuel : xs.length < fuel) :
    Reads fuel m list xs := by
  obtain ⟨hhead, htail, -⟩ := h.sentinels
  have hbegin : (listBegin list).run m = .ok ((xs ++ [list.tail]).head?, m) := by
    rw [← h.next_head]
    rfl
  have hrbegin : (listRbegin list).run m = .ok ((xs.reverse ++ [list.head]).head?, m) := by
    rw [← reverse_cons, head?_reverse, ← h.prev_tail]
    rfl
  constructor
  · rw [readForward, StateT.run_bind, hbegin, ok_bind, listEnd]
    rw [run_forElems htail h.forward hfuel, foldl_collect, nil_append]
  · rw [readBackward, StateT.run_bind, hrbegin, ok_bind, listRend]
    rw [run_forElems (mt mem_reverse.mp hhead) h.backward (by simpa using hfuel), foldl_collect,
      nil_append]
  · rw [listSize, StateT.run_bind, hbegin, ok_bind, listEnd]
    rw [run_forElems htail h.forward hfuel, foldl_count, zero_add]
  · rw [listEmpty, StateT.run_bind, hbegin, ok_bind, listEnd]
    cases xs with
    | nil =>
      simp
      rfl
    | cons x xs =>
      have hne : x ≠ list.tail := fun hx => htail (hx ▸ mem_cons_self)
      simp [hne]
      rfl

end Walk

/-! ## Reversal -/

section Reverse

variable {α : Type} {m : Links α} {list : Ends α} {xs rest : List α} {f z : α}

theorem IsList.joined_ends (h : IsList m list xs) (hfirst : xs.head? = some f)
    (hlast : xs.getLast? = some z) : m.Joined list.head f ∧ m.Joined z list.tail := by
  have hsplit : IsList m list (xs ++ []) := by rwa [append_nil]
  obtain ⟨r, hr⟩ := head?_eq_some_iff.mp hfirst
  obtain ⟨l, hl⟩ := getLast?_eq_some_iff.mp hlast
  constructor
  · have hstart : IsList m list ([] ++ xs) := h
    exact hstart.joined (l := []) (r := r ++ [list.tail]) rfl (by rw [hr, cons_append])
  · exact hsplit.joined (l := list.head :: l) (r := []) (by rw [hl, cons_append]) rfl

variable [DecidableEq α]

theorem run_reverseLoop (hchain : m.Chain (rest ++ [list.tail]))
    (hnodup : (rest ++ [list.tail]).Nodup) {fuel : ℕ} (hfuel : rest.length < fuel) :
    (reverseLoop list fuel (rest ++ [list.tail]).head?).run m = .ok ((), m.turnAll rest) := by
  induction rest generalizing m fuel with
  | nil =>
    obtain ⟨fuel, rfl⟩ := Nat.exists_eq_add_of_lt hfuel
    simp [reverseLoop, listEnd]
    rfl
  | cons x rest ih =>
    obtain ⟨fuel, rfl⟩ := Nat.exists_eq_add_of_lt hfuel
    obtain ⟨b, r, hb⟩ := IsList.exists_first rest list.tail
    obtain ⟨hx, hrest⟩ := nodup_cons.mp hnodup
    rw [cons_append, hb, Links.Chain, isChain_cons_cons, ← hb] at hchain
    have hne : x ≠ list.tail := by
      rintro rfl
      exact hx (mem_append_right _ mem_cons_self)
    -- The nodes still to come are not the one turned round.
    have hturned : (m.turn x).Chain (rest ++ [list.tail]) := by
      apply Links.Chain.congr_all hchain.2
      · exact fun u hu => update_of_ne (ne_of_mem_of_not_mem hu hx) _ _
      · exact fun u hu => update_of_ne (ne_of_mem_of_not_mem hu hx) _ _
    have hlt : rest.length < rest.length + 1 + fuel := by omega
    have hrun := ih hturned hrest hlt
    rw [hb] at hrun
    simp only [cons_append, head?_cons, reverseLoop, listEnd, Option.some.injEq, hne,
      if_false, StateT.run_bind, run_prev, run_next, run_setPrev, run_setNext, ok_bind,
      update_self, hchain.1.1]
    have hturn : (⟨update m.prev x (some b), update m.next x (m.prev x)⟩ : Links α) = m.turn x := by
      rw [Links.turn, hchain.1.1]
    exact (congrArg _ hturn).trans hrun

/-- `list_reverse` turns the elements round and pastes them back between the sentinels. -/
theorem IsList.run_listReverse (h : IsList m list xs) {fuel : ℕ} (hfuel : xs.length < fuel)
    (hfirst : xs.head? = some f) (hlast : xs.getLast? = some z) :
    (listReverse fuel list).run m = .ok ((), (m.turnAll xs).paste list.head z f list.tail) := by
  have hchain := h.chain
  have hnodup := h.nodup
  rw [Ends.nodes, ← singleton_append] at hchain hnodup
  have hloop := run_reverseLoop hchain.right_of_append hnodup.of_append_right hfuel
  have hf : f ∈ xs := mem_of_mem_head? hfirst
  have hz : z ∈ xs := mem_of_getLast? hlast
  obtain ⟨hhead, htail, -⟩ := h.sentinels
  have hfhead : f ≠ list.head := ne_of_mem_of_not_mem hf hhead
  have hztail : z ≠ list.tail := ne_of_mem_of_not_mem hz htail
  have hxs : xs.Nodup := hnodup.of_append_right.of_append_left
  obtain ⟨⟨hnext, hfprev⟩, hznext, hprev⟩ := h.joined_ends hfirst hlast
  have hempty := (h.reads hfuel).empty
  rw [isEmpty_eq_false_iff.mpr (ne_nil_of_mem hf)] at hempty
  rw [← h.next_head, hnext] at hloop
  have hbegin : (listBegin list).run m = .ok (some f, m) := by
    rw [← hnext]
    rfl
  -- The links the two swaps after the loop read.
  have hnext' : (m.turnAll xs).next list.head = some f :=
    (Links.turnAll_of_notMem hhead).1.trans hnext
  have hprev' : (m.turnAll xs).prev list.tail = some z :=
    (Links.turnAll_of_notMem htail).2.trans hprev
  have hfnext' : (m.turnAll xs).next f = some list.head :=
    (Links.turnAll_of_mem hxs hf).1.trans hfprev
  have hzprev' : (m.turnAll xs).prev z = some list.tail :=
    (Links.turnAll_of_mem hxs hz).2.trans hznext
  simp [listReverse, hempty, hbegin, hloop, hnext', hprev', hfnext', hzprev',
    update_of_ne hfhead, update_of_ne hztail, Links.paste, Links.join,
    update_comm hfhead]

end Reverse

/-! ## The operations on sequences -/

/-- The calls that change lists; `i` names one of the lists. -/
inductive ListOp (ι α : Type) where
  | insert (before elem : α)
  | pushFront (i : ι) (elem : α)
  | pushBack (i : ι) (elem : α)
  | remove (elem : α)
  | popFront (i : ι)
  | popBack (i : ι)
  | splice (before first last : α)
  | reverse (i : ι)

section Effect

variable {ι α : Type} [DecidableEq ι] {lists : ι → Ends α} {seqs seqs' : ι → List α}

/-- What a call is to do to the sequences: which lists are `involved`, what it returns and
which elements they have afterwards. -/
inductive ListOp.Effect (lists : ι → Ends α) (seqs : ι → List α) :
    ListOp ι α → List ι → Option α → (ι → List α) → Prop
  | insert {i : ι} {xs ys : List α} {before elem : α} (hsplit : seqs i = xs ++ ys)
      (hbefore : (ys ++ [(lists i).tail]).head? = some before) (hfree : OffLists lists seqs elem) :
      Effect lists seqs (.insert before elem) [i] none (update seqs i (xs ++ elem :: ys))
  | pushFront {i : ι} {elem : α} (hfree : OffLists lists seqs elem) :
      Effect lists seqs (.pushFront i elem) [i] none (update seqs i (elem :: seqs i))
  | pushBack {i : ι} {elem : α} (hfree : OffLists lists seqs elem) :
      Effect lists seqs (.pushBack i elem) [i] none (update seqs i (seqs i ++ [elem]))
  | remove {i : ι} {xs ys : List α} {elem : α} (hsplit : seqs i = xs ++ elem :: ys) :
      Effect lists seqs (.remove elem) [i] (ys ++ [(lists i).tail]).head? (update seqs i (xs ++ ys))
  | popFront {i : ι} {xs : List α} {x : α} (hsplit : seqs i = x :: xs) :
      Effect lists seqs (.popFront i) [i] (some x) (update seqs i xs)
  | popBack {i : ι} {xs : List α} {x : α} (hsplit : seqs i = xs ++ [x]) :
      Effect lists seqs (.popBack i) [i] (some x) (update seqs i xs)
  -- `before` is looked for in the lists without the part that moves.
  | splice {i j : ι} {xs moved ys us vs : List α} {before first last : α}
      (hsplit : seqs i = xs ++ moved ++ ys)
      (hfirst : (moved ++ (ys ++ [(lists i).tail])).head? = some first)
      (hlast : (ys ++ [(lists i).tail]).head? = some last)
      (htarget : update seqs i (xs ++ ys) j = us ++ vs)
      (hbefore : (vs ++ [(lists j).tail]).head? = some before) :
      Effect lists seqs (.splice before first last) [i, j] none
        (update (update seqs i (xs ++ ys)) j (us ++ moved ++ vs))
  | reverse {i : ι} :
      Effect lists seqs (.reverse i) [i] none (update seqs i (seqs i).reverse)

variable {m : Links α} {i j : ι} {fuel : ℕ}

variable [DecidableEq α]

def ListOp.run (lists : ι → Ends α) (fuel : ℕ) : ListOp ι α → ListM α (Option α)
  | .insert before elem => do
      listInsert (some before) (some elem)
      return none
  | .pushFront i elem => do
      listPushFront (lists i) (some elem)
      return none
  | .pushBack i elem => do
      listPushBack (lists i) (some elem)
      return none
  | .remove elem => listRemove (some elem)
  | .popFront i => listPopFront (lists i)
  | .popBack i => listPopBack (lists i)
  | .splice before first last => do
      listSplice (some before) (some first) (some last)
      return none
  | .reverse i => do
      listReverse fuel (lists i)
      return none

namespace WellFormed

section

variable (h : WellFormed m lists seqs)
include h

theorem insert {xs ys : List α} {before elem : α} (hsplit : seqs i = xs ++ ys)
    (hbefore : (ys ++ [(lists i).tail]).head? = some before) (hfree : OffLists lists seqs elem) :
    Returns (listInsert (some before) (some elem)) m fun _ =>
      Becomes lists [i] seqs (update seqs i (xs ++ elem :: ys)) m := by
  obtain ⟨l, a, hl⟩ := IsList.exists_last (lists i).head xs
  obtain ⟨r, hr⟩ := head?_eq_some_iff.mp hbefore
  have hlist : IsList m (lists i) (xs ++ ys) := hsplit ▸ h.isList i
  have hne : elem ≠ before := by
    rintro rfl
    apply hfree i
    rw [hsplit, IsList.nodes_append, hr]
    exact mem_append_right _ mem_cons_self
  have hpaste := h.paste hsplit hl hr (List.IsChain.singleton elem) (nodup_singleton elem)
    (by simpa using hfree) rfl rfl
  rw [append_assoc] at hpaste
  exact returns_iff.mpr ⟨_, _, run_listInsert (hlist.joined hl hr).2 hne, hpaste⟩

theorem remove {xs ys : List α} {elem : α} (hsplit : seqs i = xs ++ elem :: ys) :
    Returns (listRemove (some elem)) m fun r m' => r = (ys ++ [(lists i).tail]).head? ∧
      Becomes lists [i] seqs (update seqs i (xs ++ ys)) m m' := by
  obtain ⟨l, a, hl⟩ := IsList.exists_last (lists i).head xs
  obtain ⟨b, r, hr⟩ := IsList.exists_first ys (lists i).tail
  have hlist : IsList m (lists i) (xs ++ elem :: ys) := hsplit ▸ h.isList i
  have hprev : m.Joined a elem := hlist.joined hl rfl
  have hnext : m.Joined elem b := by
    have hshift : IsList m (lists i) (xs ++ [elem] ++ ys) := by simpa using hlist
    exact hshift.joined (l := (lists i).head :: xs) (cons_append ..) hr
  have hne : elem ≠ a := by
    rintro rfl
    have hnodup := hlist.nodup
    rw [IsList.nodes_append, hl, nodup_append] at hnodup
    exact hnodup.2.2 elem (by simp) elem mem_cons_self rfl
  have hmid : seqs i = xs ++ [elem] ++ ys := by simpa using hsplit
  rw [hr]
  exact returns_iff.mpr ⟨_, _, run_listRemove hprev.2 hnext.1 hne, rfl, h.cut hmid hl hr⟩

theorem pushFront {elem : α} (hfree : OffLists lists seqs elem) :
    Returns (listPushFront (lists i) (some elem)) m fun _ =>
      Becomes lists [i] seqs (update seqs i (elem :: seqs i)) m := by
  obtain ⟨b, r, hr⟩ := IsList.exists_first (seqs i) (lists i).tail
  have hbegin := (h.isList i).next_head
  rw [hr] at hbegin
  show Returns (listInsert (m.next (lists i).head) (some elem)) m _
  rw [hbegin]
  exact h.insert (nil_append (seqs i)).symm (by rw [hr, head?_cons]) hfree

theorem pushBack {elem : α} (hfree : OffLists lists seqs elem) :
    Returns (listPushBack (lists i) (some elem)) m fun _ =>
      Becomes lists [i] seqs (update seqs i (seqs i ++ [elem])) m :=
  h.insert (append_nil (seqs i)).symm rfl hfree

theorem popFront {x : α} {xs : List α} (hsplit : seqs i = x :: xs) :
    Returns (listPopFront (lists i)) m fun r m' => r = some x ∧
      Becomes lists [i] seqs (update seqs i xs) m m' := by
  obtain ⟨_, m', hrun, -, hbecomes⟩ := returns_iff.mp (h.remove (hsplit.trans (nil_append _).symm))
  have hempty := ((h.isList i).reads (Nat.lt_succ_self _)).empty
  have hnext := (h.isList i).next_head
  rw [hsplit] at hempty hnext
  refine returns_iff.mpr ⟨_, m', ?_, rfl, hbecomes⟩
  simp [listPopFront, listFront, hempty, hnext, hrun]

theorem popBack {x : α} {xs : List α} (hsplit : seqs i = xs ++ [x]) :
    Returns (listPopBack (lists i)) m fun r m' => r = some x ∧
      Becomes lists [i] seqs (update seqs i xs) m m' := by
  obtain ⟨_, m', hrun, -, hbecomes⟩ := returns_iff.mp (h.remove hsplit)
  rw [append_nil] at hbecomes
  have hempty := ((h.isList i).reads (Nat.lt_succ_self _)).empty
  have hprev := (h.isList i).prev_tail
  have hne : (xs ++ [x]).isEmpty = false := isEmpty_eq_false_iff.mpr (by simp)
  rw [hsplit] at hempty hprev
  rw [hne] at hempty
  refine returns_iff.mpr ⟨_, m', ?_, rfl, hbecomes⟩
  simp only [← cons_append, getLast?_append_cons] at hprev
  simp [listPopBack, listBack, hempty, hprev, hrun]

theorem splice {xs moved ys us vs : List α} {before first last : α}
    (hsplit : seqs i = xs ++ moved ++ ys)
    (hfirst : (moved ++ (ys ++ [(lists i).tail])).head? = some first)
    (hlast : (ys ++ [(lists i).tail]).head? = some last)
    (htarget : update seqs i (xs ++ ys) j = us ++ vs)
    (hbefore : (vs ++ [(lists j).tail]).head? = some before) :
    Returns (listSplice (some before) (some first) (some last)) m fun _ =>
      Becomes lists [i, j] seqs (update (update seqs i (xs ++ ys)) j (us ++ moved ++ vs)) m := by
  obtain ⟨l, a, hl⟩ := IsList.exists_last (lists i).head xs
  obtain ⟨r, hr⟩ := head?_eq_some_iff.mp hlast
  obtain ⟨l', w, hl'⟩ := IsList.exists_last (lists j).head us
  obtain ⟨r', hr'⟩ := head?_eq_some_iff.mp hbefore
  cases hmoved : moved with
  | nil =>
    -- An empty range: `first == last`, and nothing happens.
    subst hmoved
    obtain rfl : first = last := Option.some.inj (hfirst.symm.trans hlast)
    rw [append_nil] at hsplit
    have hsame : update seqs i (xs ++ ys) = seqs := by rw [← hsplit, update_eq_self]
    rw [hsame] at htarget ⊢
    rw [append_nil, ← htarget, update_eq_self]
    have hjoined := IsList.joined (htarget ▸ h.isList j) hl' hr'
    refine returns_iff.mpr ⟨(), m, ?_, h, fun _ _ => ⟨rfl, rfl⟩⟩
    simp [listSplice, isInterior_or_isTail hjoined.2]
  | cons f rest =>
    rw [← hmoved]
    obtain ⟨mid, z, hz⟩ := IsList.exists_last f rest
    rw [← hmoved] at hz
    obtain rfl : f = first := by simpa [hmoved] using hfirst
    have hlist : IsList m (lists i) (xs ++ moved ++ ys) := hsplit ▸ h.isList i
    have hf : f ∈ moved := by simp [hmoved]
    have hzm : z ∈ moved := by simp [hz]
    -- The links around the range.
    have hfprev : m.Joined a f := by
      have hshift : IsList m (lists i) (xs ++ f :: (rest ++ ys)) := by simpa [hmoved] using hlist
      exact hshift.joined hl rfl
    have hzlast : m.Joined z last :=
      hlist.joined (l := (lists i).head :: (xs ++ mid)) (by simp [hz]) hr
    have hnodup := hlist.nodup
    rw [IsList.nodes_around, hl, hr] at hnodup
    obtain ⟨-, hright, hleft⟩ := nodup_append.mp hnodup
    obtain ⟨hmnodup, -, hapart⟩ := nodup_append.mp hright
    -- Taking the range out, and putting it back.
    obtain ⟨hcut, hcutFrame⟩ := h.cut hsplit hl hr
    have hoff := h.offLists_of_cut hsplit
    have hchain : (m.join a last).Chain moved := by
      have hwhole := hlist.chain
      rw [IsList.nodes_around] at hwhole
      apply Links.Chain.join_of_notMem hwhole.right_of_append.left_of_append
      · intro ha
        exact hleft a (by simp) a (mem_append_left _ (dropLast_subset _ ha)) rfl
      · intro hb
        exact hapart last (mem_of_mem_tail hb) last mem_cons_self rfl
    obtain ⟨hpaste, hpasteFrame⟩ := hcut.paste htarget hl' hr' hchain hmnodup hoff
      (by rw [hmoved, head?_cons] : moved.head? = some f)
      (by rw [hz, getLast?_append_cons, getLast?_singleton] : moved.getLast? = some z)
    have hbefore' : (m.join a last).Joined w before :=
      IsList.joined (htarget ▸ hcut.isList j) hl' hr'
    have hfbefore : f ≠ before := by
      rintro rfl
      apply hoff f hf j
      rw [htarget, IsList.nodes_append, hr']
      exact mem_append_right _ mem_cons_self
    refine returns_iff.mpr ⟨_, _, run_listSplice (hapart f hf last mem_cons_self) hfprev.2
      (hlist.isInterior_of_mem (by simp [hf])) hzlast (hlist.isInterior_of_mem (by simp [hzm]))
      (hleft a (by simp) z (mem_append_left _ hzm)).symm hfbefore hbefore'.2, hpaste, ?_⟩
    intro u hu
    obtain ⟨hui, -⟩ := hu i mem_cons_self
    obtain ⟨-, huj⟩ := hu j (mem_cons_of_mem _ mem_cons_self)
    have hui' : u ∉ (lists i).nodes (update seqs i (xs ++ ys) i) := by
      rw [update_self]
      exact fun hmem => hui (hsplit ▸ IsList.nodes_subset _ _ _ _ hmem)
    have huj' : u ∉ (lists j).nodes (update seqs i (xs ++ ys) j) := by
      rw [htarget]
      rw [update_self] at huj
      exact fun hmem => huj (IsList.nodes_subset _ _ _ _ hmem)
    have hcutSame := hcutFrame u (forall_mem_singleton.mpr ⟨hui, hui'⟩)
    have hpasteSame := hpasteFrame u (forall_mem_singleton.mpr ⟨huj', huj⟩)
    exact ⟨hpasteSame.1.trans hcutSame.1, hpasteSame.2.trans hcutSame.2⟩

theorem reverse (hfuel : (seqs i).length < fuel) : Returns (listReverse fuel (lists i)) m fun _ =>
      Becomes lists [i] seqs (update seqs i (seqs i).reverse) m := by
  cases hxs : seqs i with
  | nil =>
    rw [reverse_nil, ← hxs, update_eq_self]
    have hempty := ((h.isList i).reads hfuel).empty
    rw [hxs] at hempty
    refine returns_iff.mpr ⟨(), m, ?_, h, fun _ _ => ⟨rfl, rfl⟩⟩
    simp [listReverse, hempty]
    rfl
  | cons f rest =>
    rw [← hxs]
    obtain ⟨l, z, hl⟩ := IsList.exists_last f rest
    have hfirst : (seqs i).head? = some f := by rw [hxs, head?_cons]
    have hlast : (seqs i).getLast? = some z := by
      rw [hxs, hl, getLast?_append_cons, getLast?_singleton]
    have hlist := h.isList i
    have hchain := hlist.chain
    have hnodup := hlist.nodup
    rw [Ends.nodes, ← singleton_append] at hchain hnodup
    have hxs : m.Chain (seqs i) := hchain.right_of_append.left_of_append
    have hunique : (seqs i).Nodup := hnodup.of_append_right.of_append_left
    have hsplit : seqs i = [] ++ seqs i ++ [] := by simp
    refine returns_iff.mpr ⟨_, _, hlist.run_listReverse hfuel hfirst hlast, ?_⟩
    have hrelink := h.relink (l := []) (r := []) hsplit rfl rfl
      (nodup_reverse.mpr hunique) (fun u hu => h.offLists_of_cut hsplit u (mem_reverse.mp hu))
      (Links.Chain.paste (List.IsChain.singleton _) (hxs.turnAll hunique)
        (List.IsChain.singleton _) (by rw [head?_reverse, hlast])
        (by rw [getLast?_reverse, hfirst]))
      fun u hu => ?_
    · rwa [nil_append, append_nil] at hrelink
    · rw [mem_reverse] at hu
      obtain ⟨hnext, hprev⟩ := Links.turnAll_of_notMem (m := m) hu
      rw [← hnext, ← hprev]
      exact Links.paste_of_ne (fun huz => hu (huz ▸ mem_of_getLast? hlast))
        fun huf => hu (huf ▸ mem_of_mem_head? hfirst)

end

end WellFormed

/-- **Lists are sequences.**  On well-formed lists every call returns, does to the sequences
what it is to do, and leaves the other lists and all other nodes alone; the lists then read as
the new sequences. -/
theorem list_refines_sequence {op : ListOp ι α} {involved : List ι} {result : Option α}
    (h : WellFormed m lists seqs) (heffect : op.Effect lists seqs involved result seqs')
    (hfuel : ∀ k ∈ involved, (seqs k).length < fuel) :
    ∃ m', (op.run lists fuel).run m = .ok (result, m') ∧ WellFormed m' lists seqs' ∧
      SameElsewhere lists involved seqs seqs' m m' ∧
      ∀ k steps, (seqs' k).length < steps → Reads steps m' (lists k) (seqs' k) := by
  suffices hcall : Returns (op.run lists fuel) m fun r m' =>
      r = result ∧ Becomes lists involved seqs seqs' m m' by
    obtain ⟨_, m', hrun, rfl, hwf, hsame⟩ := returns_iff.mp hcall
    exact ⟨m', hrun, hwf, hsame, fun k _ hsteps => (hwf.isList k).reads hsteps⟩
  have hnone {call : ListM α Unit} {involved : List ι} {seqs' : ι → List α}
      (hcall : Returns call m fun _ => Becomes lists involved seqs seqs' m) :
      Returns (do call; return (none : Option α)) m fun r m' =>
        r = none ∧ Becomes lists involved seqs seqs' m m' :=
    Spec.bind (hcall.post fun _ _ hbecomes => .pure ⟨rfl, hbecomes⟩)
  cases heffect with
  | insert hsplit hbefore hfree => exact hnone (h.insert hsplit hbefore hfree)
  | pushFront hfree => exact hnone (h.pushFront hfree)
  | pushBack hfree => exact hnone (h.pushBack hfree)
  | remove hsplit => exact h.remove hsplit
  | popFront hsplit => exact h.popFront hsplit
  | popBack hsplit => exact h.popBack hsplit
  | splice hsplit hfirst hlast htarget hbefore =>
    exact hnone (h.splice hsplit hfirst hlast htarget hbefore)
  | reverse => exact hnone (h.reverse (hfuel _ mem_cons_self))

end Effect

/-- The sentinels 0 and 1, and the sentinels 2 and 3. -/
def twoEnds : Bool → Ends ℕ
  | false => ⟨0, 1⟩
  | true => ⟨2, 3⟩

/-- The first list has the elements 4 and 5, the second none. -/
def twoSeqs : Bool → List ℕ
  | false => [4, 5]
  | true => []

def twoLists : Links ℕ where
  prev a := [none, some 5, none, some 2, some 0, some 4].getD a none
  next a := [some 4, none, some 3, none, some 5, some 1].getD a none

/-- Element 4 is spliced into the empty list. -/
theorem list_refines_sequence_splice : ∃ m',
    ((ListOp.splice 3 4 5).run twoEnds 3).run twoLists = .ok (none, m') ∧
      Reads 2 m' ⟨0, 1⟩ [5] ∧ Reads 2 m' ⟨2, 3⟩ [4] := by
  have hwf : WellFormed twoLists twoEnds twoSeqs := by
    constructor
    · intro i
      constructor <;> cases i <;> simp [twoEnds, twoSeqs, Ends.nodes, Links.Joined, twoLists]
    · decide
  have heffect : ListOp.Effect twoEnds twoSeqs (.splice 3 4 5) [false, true] none
      (update (update twoSeqs false ([] ++ [5])) true ([] ++ [4] ++ [])) :=
    .splice rfl rfl rfl rfl rfl
  have hfuel : ∀ k ∈ [false, true], (twoSeqs k).length < 3 := by decide
  obtain ⟨m', hrun, -, -, hreads⟩ := list_refines_sequence hwf heffect hfuel
  exact ⟨m', hrun, hreads false 2 (by decide), hreads true 2 (by decide)⟩

end CS162.KernelList
