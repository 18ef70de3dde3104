import CS162.Library.Radix
import CS162.Threads.Palloc
import CS162.Threads.Pte

/-!
# Page directories (`userprog/pagedir.c`)

A page directory has 1024 entries; an entry names a page table, which has 1024 entries for
pages.  The model has the words of memory; `paging_init` makes the kernel's directory and
`pagedir_create` copies it.

The page allocator is told by the caller which page to hand out: a page that is in use as a
directory or table is refused, so that the allocation fails.

`PagedirSystem` also has the map that the calls describe: a page that is set has its frame and
two clear flags until it is cleared.

## Strategy

The directory is `Tidy` in the sense of the library, so a write to a page table entry changes
what `lookup` says about one page, and a new table about none.  `Changed` says this of the
calls; `Agrees` connects the words and the map.
-/

namespace CS162

open Library Function List

/-- The words of memory, the pages in use for directories and tables, two globals and the page
directory base register. -/
structure Paging where
  memory : ℕ → BitVec 32
  used : List ℕ
  initPageDir : ℕ
  initRamPages : ℕ
  cr3 : ℕ

abbrev PagingM := StateT Paging (Except Fault)

namespace Paging

def load (addr : ℕ) : PagingM (BitVec 32) := return (← get).memory addr

def store (addr : ℕ) (word : BitVec 32) : PagingM Unit :=
  modify fun s => { s with memory := update s.memory addr word }

/-- The page allocator can hand out this page. -/
def Fresh (s : Paging) (page : ℕ) : Prop := IsKernelPage page ∧ page ∉ s.used

instance (s : Paging) (page : ℕ) : Decidable (s.Fresh page) :=
  inferInstanceAs (Decidable (_ ∧ _))

def zeroPage (memory : ℕ → BitVec 32) (page : ℕ) : ℕ → BitVec 32 := fun addr =>
  if page ≤ addr ∧ addr < page + pgSize then 0 else memory addr

def copyPage (memory : ℕ → BitVec 32) (dst src : ℕ) : ℕ → BitVec 32 := fun addr =>
  if dst ≤ addr ∧ addr < dst + pgSize then memory (src + (addr - dst)) else memory addr

def pallocGetPage (supply : ℕ) (zero : Bool) : PagingM ℕ := do
  let s ← get
  if s.Fresh supply then
    set { s with memory := if zero then zeroPage s.memory supply else s.memory,
                 used := supply :: s.used }
    return supply
  else
    return 0

/-! ## `paging_init` -/

/-- A round of the loop, as far as it makes a page table; returns `pt`. -/
def pagingInitTable (pd pdeIdx pt supply : ℕ) : PagingM ℕ := do
  if (← load (pd + 4 * pdeIdx)) = 0 then
    let pt ← pallocGetPage supply true
    if pt = 0 then
      throw (.panic "palloc_get: out of pages")
    store (pd + 4 * pdeIdx) (← pdeCreate pt)
    return pt
  else
    return pt

/-- A round of the loop; returns `pt`. -/
def pagingInitPage (inKernelText : ℕ → Bool) (pd page pt supply : ℕ) : PagingM ℕ := do
  let vaddr ← ptov (page * pgSize % sizeLimit)
  let pt ← pagingInitTable pd (pdNo vaddr) pt supply
  if pt = 0 then
    throw (.undefined "pt[pte_idx]")
  store (pt + 4 * ptNo vaddr) (← pteCreateKernel vaddr (!inKernelText vaddr))
  return pt

def pagingInitLoop (inKernelText : ℕ → Bool) (supply : ℕ → ℕ) (pd : ℕ) : ℕ → ℕ → ℕ → PagingM Unit
  | 0, _, _ => pure ()
  | n + 1, page, pt => do
      let pt ← pagingInitPage inKernelText pd page pt (supply page)
      pagingInitLoop inKernelText supply pd n (page + 1) pt

def pagingInit (inKernelText : ℕ → Bool) (supply : ℕ) (supplies : ℕ → ℕ) : PagingM Unit := do
  let pd ← pallocGetPage supply true
  if pd = 0 then
    throw (.panic "palloc_get: out of pages")
  modify fun s => { s with initPageDir := pd }
  pagingInitLoop inKernelText supplies pd (← get).initRamPages 0 0
  let cr3 ← vtop pd
  modify fun s => { s with cr3 := cr3 }

/-! ## The functions of the source -/

def pagedirCreate (supply : ℕ) : PagingM ℕ := do
  let pd ← pallocGetPage supply false
  if pd ≠ 0 then
    modify fun s => { s with memory := copyPage s.memory pd s.initPageDir }
  return pd

/-- `lookup_page`, as far as it finds out whether there is a page table. -/
def ensureTable (pd vaddr : ℕ) (create : Bool) (supply : ℕ) : PagingM Bool := do
  if (← load (pd + 4 * pdNo vaddr)) = 0 then
    if create then
      let pt ← pallocGetPage supply true
      if pt = 0 then
        return false
      store (pd + 4 * pdNo vaddr) (← pdeCreate pt)
      return true
    else
      return false
  else
    return true

def lookupPage (pd vaddr : ℕ) (create : Bool) (supply : ℕ) : PagingM ℕ := do
  if pd = 0 then
    throw (.panic "pd != NULL")
  if create && !isUserVaddr vaddr then
    throw (.panic "!create || is_user_vaddr (vaddr)")
  let found ← ensureTable pd vaddr create supply
  if found then
    let pt ← pdeGetPt (← load (pd + 4 * pdNo vaddr))
    return pt + 4 * ptNo vaddr
  else
    return 0

def pagedirSetPage (pd upage kpage : ℕ) (writable : Bool) (supply : ℕ) : PagingM Bool := do
  if pgOfs upage ≠ 0 then
    throw (.panic "pg_ofs (upage) == 0")
  if pgOfs kpage ≠ 0 then
    throw (.panic "pg_ofs (kpage) == 0")
  if !isUserVaddr upage then
    throw (.panic "is_user_vaddr (upage)")
  if ¬ (← vtop kpage) >>> pgBits < (← get).initRamPages then
    throw (.panic "vtop (kpage) >> PTSHIFT < init_ram_pages")
  if pd = (← get).initPageDir then
    throw (.panic "pd != init_page_dir")
  let pte ← lookupPage pd upage true supply
  if pte ≠ 0 then
    if (← load pte) &&& pteP ≠ 0 then
      throw (.panic "(*pte & PTE_P) == 0")
    store pte (← pteCreateUser kpage writable)
    return true
  else
    return false

def pagedirGetPage (pd uaddr : ℕ) : PagingM ℕ := do
  if !isUserVaddr uaddr then
    throw (.panic "is_user_vaddr (uaddr)")
  let pte ← lookupPage pd uaddr false 0
  if pte ≠ 0 then
    let word ← load pte
    if word &&& pteP ≠ 0 then
      return (← pteGetPage word) + pgOfs uaddr
    else
      return 0
  else
    return 0

def pagedirActivate (pd : ℕ) : PagingM Unit := do
  let s ← get
  let cr3 ← vtop (if pd = 0 then s.initPageDir else pd)
  modify fun s => { s with cr3 := cr3 }

/-- `invalidate_pagedir`; `active_pd` is `ptov` of CR3. -/
def invalidatePagedir (pd : ℕ) : PagingM Unit := do
  if (← ptov (← get).cr3) = pd then
    pagedirActivate pd

def pagedirClearPage (pd upage : ℕ) : PagingM Unit := do
  if pgOfs upage ≠ 0 then
    throw (.panic "pg_ofs (upage) == 0")
  if !isUserVaddr upage then
    throw (.panic "is_user_vaddr (upage)")
  let pte ← lookupPage pd upage false 0
  if pte ≠ 0 then
    let word ← load pte
    if word &&& pteP ≠ 0 then
      store pte (word &&& ~~~pteP)
      invalidatePagedir pd

/-- `pagedir_is_dirty` and `pagedir_is_accessed`: a flag of an entry. -/
def pagedirIs (flag : BitVec 32) (pd vpage : ℕ) : PagingM Bool := do
  let pte ← lookupPage pd vpage false 0
  if pte ≠ 0 then
    return decide ((← load pte) &&& flag ≠ 0)
  else
    return false

/-- `pagedir_set_dirty` and `pagedir_set_accessed`: a flag of an entry is set or cleared. -/
def pagedirSet (flag : BitVec 32) (pd vpage : ℕ) (value : Bool) : PagingM Unit := do
  let pte ← lookupPage pd vpage false 0
  if pte ≠ 0 then
    store pte (setFlag (← load pte) flag value)
    if !value then
      invalidatePagedir pd

def pagedirIsDirty : ℕ → ℕ → PagingM Bool := pagedirIs pteD

def pagedirSetDirty : ℕ → ℕ → Bool → PagingM Unit := pagedirSet pteD

def pagedirIsAccessed : ℕ → ℕ → PagingM Bool := pagedirIs pteA

def pagedirSetAccessed : ℕ → ℕ → Bool → PagingM Unit := pagedirSet pteA

end Paging

/-- A directory and the map that the calls on it describe, by page number. -/
structure PagedirSystem where
  paging : Paging
  pd : ℕ
  mapping : ℕ → Option PageMapping

/-- A call that changes the directory, with the page that the page allocator can hand out. -/
inductive PagedirLabel where
  | setPage (upage kpage : ℕ) (writable : Bool) (supply : ℕ)
  | clearPage (upage : ℕ)
  | setDirty (vpage : ℕ) (dirty : Bool)
  | setAccessed (vpage : ℕ) (accessed : Bool)

/-- The number of the page that the call is about. -/
def PagedirLabel.page : PagedirLabel → ℕ
  | .setPage upage _ _ _ => pgNo upage
  | .clearPage upage => pgNo upage
  | .setDirty vpage _ => pgNo vpage
  | .setAccessed vpage _ => pgNo vpage

namespace PagedirSystem

open Paging

/-- The call is about a user page; a page is set only if it is not mapped, and to a page of
memory. -/
def Valid (s : PagedirSystem) : PagedirLabel → Prop
  | .setPage upage kpage _ _ => upage < physBase ∧ upage % pgSize = 0 ∧
      s.mapping (pgNo upage) = none ∧ IsKernelPage kpage ∧
      (kpage - physBase) / pgSize < s.paging.initRamPages
  | .clearPage upage => upage < physBase ∧ upage % pgSize = 0
  | .setDirty vpage _ => vpage < physBase
  | .setAccessed vpage _ => vpage < physBase

instance (s : PagedirSystem) (l : PagedirLabel) : Decidable (s.Valid l) := by
  cases l with
  | setPage => exact inferInstanceAs (Decidable (_ ∧ _ ∧ _ ∧ _ ∧ _))
  | clearPage => exact inferInstanceAs (Decidable (_ ∧ _))
  | setDirty | setAccessed => exact inferInstanceAs (Decidable (_ < _))

/-- The call, and what it does to the map. -/
def perform (s : PagedirSystem) : PagedirLabel → Except Fault PagedirSystem
  | .setPage upage kpage writable supply => do
      let (ok, paging) ← (pagedirSetPage s.pd upage kpage writable supply).run s.paging
      if ok then
        return ⟨paging, s.pd, update s.mapping (pgNo upage) (some ⟨kpage, false, false⟩)⟩
      else
        return ⟨paging, s.pd, s.mapping⟩
  | .clearPage upage => do
      let (_, paging) ← (pagedirClearPage s.pd upage).run s.paging
      return ⟨paging, s.pd, update s.mapping (pgNo upage) none⟩
  | .setDirty vpage dirty => do
      let (_, paging) ← (pagedirSetDirty s.pd vpage dirty).run s.paging
      return ⟨paging, s.pd, update s.mapping (pgNo vpage)
        ((s.mapping (pgNo vpage)).map fun m => { m with dirty := dirty })⟩
  | .setAccessed vpage accessed => do
      let (_, paging) ← (pagedirSetAccessed s.pd vpage accessed).run s.paging
      return ⟨paging, s.pd, update s.mapping (pgNo vpage)
        ((s.mapping (pgNo vpage)).map fun m => { m with accessed := accessed })⟩

def apply (s : PagedirSystem) (l : PagedirLabel) : Except Fault (Option PagedirSystem) :=
  if s.Valid l then some <$> s.perform l else .ok none

def Step (s : PagedirSystem) (l : PagedirLabel) (s' : PagedirSystem) : Prop :=
  s.apply l = .ok (some s')

/-- The kernel address that the map gives for a user address; null if there is none. -/
def address (s : PagedirSystem) (uaddr : ℕ) : ℕ :=
  match s.mapping (pgNo uaddr) with
  | some m => m.frame + pgOfs uaddr
  | none => 0

end PagedirSystem

/-! ## Directories and tables -/

namespace Paging

variable {s s' t : Paging} {pd pt n i j addr vaddr supply : ℕ} {word : BitVec 32}
  {E : Fault → Prop}

/-- The words of a page. -/
def words : Geometry ℕ where
  slot page i := page + 4 * i
  Page := IsKernelPage
  width := 1024
  inj := by
    intro p q i j hp hq hi hj heq
    have hpalign := hp.aligned
    have hqalign := hq.aligned
    simp only [pgSize] at hpalign hqalign
    omega

/-- The page table that a directory entry names. -/
def tableOf (pde : BitVec 32) : Option ℕ := if pde = 0 then none else (pdeGetPt pde).toOption

theorem tableOf_eq_some {pde : BitVec 32} : tableOf pde = some pt ↔ IsPde pde pt := by
  unfold tableOf
  by_cases hzero : pde = 0
  · rw [if_pos hzero]
    exact ⟨nofun, fun h => absurd hzero h.ne_zero⟩
  rw [if_neg hzero]
  cases hget : pdeGetPt pde with
  | error e => exact ⟨nofun, fun h => nomatch hget.symm.trans h.getPt⟩
  | ok pt' =>
    constructor
    · intro h
      cases h
      exact ⟨hzero, hget⟩
    · intro h
      cases hget.symm.trans h.getPt
      rfl

/-- The page table entry of page `n`; zero if there is no table for it. -/
def pte (s : Paging) (pd n : ℕ) : BitVec 32 :=
  (words.lookup tableOf s.memory pd (n / 1024) (n % 1024)).getD 0

abbrev userPages : ℕ := physBase / pgSize

/-- **The invariant**: the directory is tidy, an entry that names no table is zero, and
directory and tables are in use. -/
structure Populated (s : Paging) (pd : ℕ) : Prop where
  tidy : words.Tidy tableOf s.memory pd
  zero : ∀ i < 1024, tableOf (s.memory (pd + 4 * i)) = none → s.memory (pd + 4 * i) = 0
  used : pd ∈ s.used
  tables : ∀ i < 1024, ∀ pt, tableOf (s.memory (pd + 4 * i)) = some pt → pt ∈ s.used

/-! ### Steps of the functions -/

@[simp] theorem run_load : (load addr).run s = .ok (s.memory addr, s) := rfl

/-- A page that is handed out. -/
def grab (s : Paging) (page : ℕ) (zero : Bool) : Paging :=
  { s with memory := if zero then zeroPage s.memory page else s.memory, used := page :: s.used }

theorem spec_load {Q : BitVec 32 → Paging → Prop} (h : Q (s.memory addr) s) :
    Spec E (load addr) s Q := h

theorem spec_store {Q : Unit → Paging → Prop}
    (h : Q () { s with memory := update s.memory addr word }) : Spec E (store addr word) s Q := h

theorem spec_lift {α : Type} {x : Except Fault α} {a : α} {Q : α → Paging → Prop} (hx : x = .ok a)
    (h : Q a s) : Spec E (liftM x : PagingM α) s Q := by
  subst hx
  exact h

theorem pallocGetPage_spec (supply : ℕ) (zero : Bool) : Spec E (pallocGetPage supply zero) s
    fun page t => page = 0 ∧ t = s ∨ s.Fresh supply ∧ page = supply ∧ t = s.grab supply zero :=
  Spec.get_bind <| Spec.ite (fun hfresh => .set_bind (Spec.pure (.inr ⟨hfresh, rfl, rfl⟩)))
    fun _ => .pure (.inl ⟨rfl, rfl⟩)

theorem slot_ne_zero (h : IsKernelPage pt) : pt + 4 * j ≠ 0 := by
  have hkernel := h.kernel
  rw [physBase] at hkernel
  omega

theorem Fresh.ne_zero (h : s.Fresh supply) : supply ≠ 0 := slot_ne_zero (j := 0) h.1

theorem slot_inside (hj : j < 1024) : pt ≤ pt + 4 * j ∧ pt + 4 * j < pt + pgSize := by
  rw [pgSize]
  omega

/-! ### A new table -/

/-- A page of zeros becomes the table of entry `i`. -/
def attachTable (s : Paging) (pd i page : ℕ) (pde : BitVec 32) : Paging :=
  { s.grab page true with
    memory := update (zeroPage s.memory page) (pd + 4 * i) pde }

section AttachTable

variable {page : ℕ} {pde : BitVec 32}

theorem memory_attachTable_other (h : IsKernelPage pd) (hpage : IsKernelPage page) {q k : ℕ}
    (hq : IsKernelPage q) (hi : i < 1024) (hk : k < 1024) (hne : q ≠ page)
    (hentry : ¬ (q = pd ∧ k = i)) :
    (s.attachTable pd i page pde).memory (q + 4 * k) = s.memory (q + 4 * k) := by
  have hslot : q + 4 * k ≠ pd + 4 * i := fun heq => hentry (words.inj hq h hk hi heq)
  have hqalign := hq.aligned
  have hpalign := hpage.aligned
  have houtside : ¬ (page ≤ q + 4 * k ∧ q + 4 * k < page + pgSize) := by
    simp only [pgSize] at hqalign hpalign ⊢
    omega
  simp only [attachTable, update_of_ne hslot, zeroPage, if_neg houtside]

theorem memory_attachTable_entry : (s.attachTable pd i page pde).memory (pd + 4 * i) = pde := by
  simp only [attachTable, update_self]

theorem memory_attachTable_blank (h : IsKernelPage pd) (hpage : IsKernelPage page)
    (hne : page ≠ pd) (hi : i < 1024) {k : ℕ} (hk : k < 1024) :
    (s.attachTable pd i page pde).memory (page + 4 * k) = 0 := by
  have hslot : page + 4 * k ≠ pd + 4 * i := fun heq => hne (words.inj hpage h hk hi heq).1
  simp only [attachTable, update_of_ne hslot, zeroPage, if_pos (slot_inside hk)]

/-- **A new table** for an entry that was zero. -/
theorem Populated.attachTable (h : s.Populated pd) (hi : i < 1024) (hfresh : s.Fresh page)
    (hpde : IsPde pde page) :
    (s.attachTable pd i page pde).Populated pd ∧ ∀ i' j', i' < 1024 → j' < 1024 →
        words.lookup tableOf (s.attachTable pd i page pde).memory pd i' j' =
          if i' = i then some 0 else words.lookup tableOf s.memory pd i' j' := by
  have hne : page ≠ pd := fun heq => hfresh.2 (heq ▸ h.used)
  have hnew : ∀ k < 1024, tableOf (s.memory (pd + 4 * k)) ≠ some page :=
    fun k hk htable => hfresh.2 (h.tables k hk page htable)
  have hentry : tableOf ((s.attachTable pd i page pde).memory (pd + 4 * i)) = some page := by
    rw [memory_attachTable_entry]
    exact tableOf_eq_some.mpr hpde
  have hother : ∀ q, IsKernelPage q → q ≠ page → ∀ k < 1024, ¬ (q = pd ∧ k = i) →
      (s.attachTable pd i page pde).memory (q + 4 * k) = s.memory (q + 4 * k) :=
    fun q hq hqne k hk => memory_attachTable_other h.tidy.isPage hfresh.1 hq hi hk hqne
  have hsame : ∀ k < 1024, k ≠ i →
      (s.attachTable pd i page pde).memory (pd + 4 * k) = s.memory (pd + 4 * k) :=
    fun k hk hki => hother pd h.tidy.isPage hne.symm k hk fun hboth => hki hboth.2
  refine ⟨⟨?_, ?_, mem_cons_of_mem _ h.used, ?_⟩, ?_⟩
  · exact h.tidy.attach hne hnew hentry hother hfresh.1
  · intro k hk hnone
    by_cases hki : k = i
    · rw [hki, hentry] at hnone
      cases hnone
    · rw [hsame k hk hki] at hnone ⊢
      exact h.zero k hk hnone
  · intro k hk pt htable
    by_cases hki : k = i
    · rw [hki, hentry] at htable
      cases htable
      exact mem_cons_self
    · rw [hsame k hk hki] at htable
      exact mem_cons_of_mem _ (h.tables k hk pt htable)
  · intro i' j' hi' hj'
    exact h.tidy.lookup_attach hne hnew hentry hother
      (fun k hk => memory_attachTable_blank h.tidy.isPage hfresh.1 hne hi hk) hi' hj'

end AttachTable

/-! ### A new entry of a table -/

theorem Populated.of_entries {pd' : ℕ} (h : s.Populated pd)
    (htidy : words.Tidy tableOf t.memory pd')
    (hentry : ∀ k < 1024, t.memory (pd' + 4 * k) = s.memory (pd + 4 * k)) (hpd : pd' ∈ t.used)
    (hused : s.used ⊆ t.used) : t.Populated pd' := by
  refine ⟨htidy, ?_, hpd, ?_⟩
  · intro k hk hnone
    rw [hentry k hk] at hnone ⊢
    exact h.zero k hk hnone
  · intro k hk pt htable
    rw [hentry k hk] at htable
    exact hused (h.tables k hk pt htable)

/-- **A write to a table** changes the entry of one page. -/
theorem Populated.store (h : s.Populated pd) (hi : i < 1024) (hj : j < 1024)
    (htable : tableOf (s.memory (pd + 4 * i)) = some pt)
    (hmemory : t.memory = update s.memory (pt + 4 * j) word) (hused : t.used = s.used) :
    t.Populated pd ∧ (∀ k < 1024, t.memory (pd + 4 * k) = s.memory (pd + 4 * k)) ∧
      ∀ i' j', i' < 1024 → j' < 1024 → words.lookup tableOf t.memory pd i' j' =
        if i' = i ∧ j' = j then some word else words.lookup tableOf s.memory pd i' j' := by
  have hentry : ∀ k < 1024, t.memory (pd + 4 * k) = s.memory (pd + 4 * k) := by
    intro k hk
    rw [hmemory]
    exact h.tidy.entry_store hi hj htable hk
  refine ⟨h.of_entries (h.tidy.congr hentry) hentry (hused ▸ h.used) fun _ hp => hused ▸ hp,
    hentry, ?_⟩
  intro i' j' hi' hj'
  rw [hmemory]
  exact h.tidy.lookup_store hi hj htable hi' hj'

/-! ### `lookup_page` -/

theorem pgNo_lt (h : vaddr < physBase) : pgNo vaddr < userPages := by
  rw [pgNo_eq]
  simp only [userPages, physBase, pgSize] at h ⊢
  omega

theorem Populated.pd_ne_zero (h : s.Populated pd) : pd ≠ 0 := slot_ne_zero (j := 0) h.tidy.isPage

/-- What `lookup_page` returns once it is known whether there is a table. -/
theorem pte_of_table (htable : tableOf (s.memory (pd + 4 * (n / 1024))) = some pt) :
    s.pte pd n = s.memory (pt + 4 * (n % 1024)) := by
  have hword : tableOf (s.memory (words.slot pd (n / 1024))) = some pt := htable
  rw [pte, Geometry.lookup, hword]
  rfl

theorem pte_of_none (htable : tableOf (s.memory (pd + 4 * (n / 1024))) = none) :
    s.pte pd n = 0 := by
  have hword : tableOf (s.memory (words.slot pd (n / 1024))) = none := htable
  rw [pte, Geometry.lookup, hword]
  rfl

/-- The two states have the same entries, but there may be a new table for page `n`. -/
structure Grown (s t : Paging) (pd n : ℕ) : Prop where
  initPageDir : t.initPageDir = s.initPageDir
  initRamPages : t.initRamPages = s.initRamPages
  cr3 : t.cr3 = s.cr3
  pde : ∀ k < 1024, k ≠ n / 1024 → t.memory (pd + 4 * k) = s.memory (pd + 4 * k)
  pte : ∀ m < 1048576, t.pte pd m = s.pte pd m

section

variable (h : s.Populated pd)
include h

/-- **A table is there afterwards**, unless none is to be made or there is no page for it. -/
theorem ensureTable_spec (hidx : pgNo vaddr / 1024 < 1024) (create : Bool)
    (supply : ℕ) : Returns (ensureTable pd vaddr create supply) s fun found t =>
      found = false ∧ t = s ∧ tableOf (s.memory (pd + 4 * (pgNo vaddr / 1024))) = none ∨
        found = true ∧ (create = false → t = s) ∧ t.Populated pd ∧ s.Grown t pd (pgNo vaddr) ∧
          ∃ pt, tableOf (t.memory (pd + 4 * (pgNo vaddr / 1024))) = some pt := by
  unfold ensureTable
  rw [pdNo_eq]
  refine .bind (spec_load (Spec.ite (fun hzero => ?_) fun hne => ?_))
  · have htable : tableOf (s.memory (pd + 4 * (pgNo vaddr / 1024))) = none := by
      rw [hzero]
      rfl
    refine .ite (fun hcreate => ?_) fun _ => .pure (.inl ⟨rfl, rfl, htable⟩)
    refine .seq (pallocGetPage_spec supply true) fun page t ht => ?_
    rcases ht with ⟨rfl, rfl⟩ | ⟨hfresh, rfl, rfl⟩
    · exact .ite_pos rfl (Spec.pure (.inl ⟨rfl, rfl, htable⟩))
    obtain ⟨pde, hpdeCreate, hpde⟩ := pdeCreate_spec hfresh.1
    obtain ⟨hpop, hlookup⟩ := h.attachTable hidx hfresh hpde
    have hne : page ≠ pd := fun heq => hfresh.2 (heq ▸ h.used)
    refine .ite_neg hfresh.ne_zero <| Spec.bind
      (spec_lift hpdeCreate (Spec.bind (spec_store (Spec.pure (.inr ⟨rfl, ?_, hpop,
        ⟨rfl, rfl, rfl, ?_, ?_⟩, page, ?_⟩)))))
    · exact fun hfalse => nomatch hcreate.symm.trans hfalse
    · intro k hk hki
      exact memory_attachTable_other h.tidy.isPage hfresh.1 h.tidy.isPage hidx hk hne.symm
        fun hboth => hki hboth.2
    · intro m hm
      show (s.attachTable pd (pgNo vaddr / 1024) page pde).pte pd m = _
      unfold pte
      rw [hlookup (m / 1024) (m % 1024) (by omega) (Nat.mod_lt m (by decide))]
      by_cases hmi : m / 1024 = pgNo vaddr / 1024
      · -- There was no table, so the entry was zero before.
        rw [if_pos hmi]
        have hnone : s.pte pd m = 0 := pte_of_none (by rw [hmi]; exact htable)
        exact hnone.symm
      · rw [if_neg hmi]
    · exact (congrArg tableOf memory_attachTable_entry).trans (tableOf_eq_some.mpr hpde)
  · cases htable : tableOf (s.memory (pd + 4 * (pgNo vaddr / 1024))) with
    | none => exact absurd (h.zero _ hidx htable) hne
    | some pt =>
      exact .pure (.inr ⟨rfl, fun _ => rfl, h, ⟨rfl, rfl, rfl, fun _ _ _ => rfl, fun _ _ => rfl⟩,
        pt, htable⟩)

theorem lookupPage_spec (hv : vaddr < physBase) (create : Bool) (supply : ℕ) :
    Returns (lookupPage pd vaddr create supply) s fun r t =>
      r = 0 ∧ t = s ∧ s.pte pd (pgNo vaddr) = 0 ∨
        r ≠ 0 ∧ (create = false → t = s) ∧ t.memory r = s.pte pd (pgNo vaddr) ∧ t.Populated pd ∧
          s.Grown t pd (pgNo vaddr) ∧
          ∃ pt, tableOf (t.memory (pd + 4 * (pgNo vaddr / 1024))) = some pt ∧
            r = pt + 4 * (pgNo vaddr % 1024) := by
  have hn : pgNo vaddr < 1048576 := lt_trans (pgNo_lt hv) (by decide)
  have hidx : pgNo vaddr / 1024 < 1024 := by omega
  have huser : isUserVaddr vaddr = true := decide_eq_true hv
  refine .ite_neg h.pd_ne_zero ?_
  refine .ite_neg (by simp [huser]) ?_
  rw [ptNo_eq]
  refine .seq (ensureTable_spec h hidx create supply) fun found t ht => ?_
  rcases ht with ⟨rfl, rfl, hnone⟩ | ⟨rfl, hsame, hpop, hgrown, pt, htable⟩
  · exact .pure (.inl ⟨rfl, rfl, pte_of_none hnone⟩)
  have hpage := (hpop.tidy.page _ hidx pt htable).1
  refine .bind (spec_load (Spec.bind (spec_lift (a := pt) ?_ (Spec.pure (.inr
    ⟨slot_ne_zero hpage, hsame, ?_, hpop, hgrown, pt, htable, rfl⟩)))))
  · rw [pdNo_eq]
    exact (tableOf_eq_some.mp htable).getPt
  · exact (pte_of_table htable).symm.trans (hgrown.pte _ hn)

/-! ### What can be read -/

/-- A function that loads the page's entry, and does as for a zero entry without a table. -/
theorem run_read (hv : vaddr < physBase) {β : Type} {k : BitVec 32 → PagingM β} {b : β}
    (hzero : k 0 = pure b) :
    (do
      let pte ← lookupPage pd vaddr false 0
      if pte ≠ 0 then load pte >>= k else return b).run s = (k (s.pte pd (pgNo vaddr))).run s := by
  obtain ⟨r, t, hlookup, ⟨rfl, rfl, hpte⟩ | ⟨hne, hsame, hword, -⟩⟩ :=
    returns_iff.mp (lookupPage_spec h hv false 0)
  · simp only [StateT.run_bind, hlookup, ok_bind, hpte, hzero, ne_eq, not_true_eq_false, if_false]
  · obtain rfl := hsame rfl
    simp only [StateT.run_bind, hlookup, ok_bind, ne_eq, hne, not_false_eq_true, if_true, run_load,
      hword]

/-- **`pagedir_get_page`** depends on the page's entry. -/
theorem run_pagedirGetPage (hv : vaddr < physBase) : (pagedirGetPage pd vaddr).run s =
      if s.pte pd (pgNo vaddr) &&& pteP ≠ 0 then
        (pteGetPage (s.pte pd (pgNo vaddr))).map fun page => (page + pgOfs vaddr, s)
      else .ok (0, s) := by
  have huser : ¬ (!isUserVaddr vaddr) = true := by simpa [isUserVaddr] using hv
  unfold pagedirGetPage
  rw [if_neg huser, run_read h hv (if_neg (not_not_intro (zero_and_flag pteP)))]
  split
  · cases pteGetPage (s.pte pd (pgNo vaddr)) <;> rfl
  · rfl

/-- **`pagedir_is_dirty` and `pagedir_is_accessed`** depend on the page's entry. -/
theorem run_pagedirIs (hv : vaddr < physBase) (flag : BitVec 32) :
    (pagedirIs flag pd vaddr).run s = .ok (decide (s.pte pd (pgNo vaddr) &&& flag ≠ 0), s) :=
  run_read h hv (congrArg pure (decide_eq_false (not_not_intro (zero_and_flag flag))))

theorem run'_pagedirGetPage (h' : s'.Populated pd) (hv : vaddr < physBase)
    (hsame : s'.pte pd (pgNo vaddr) = s.pte pd (pgNo vaddr)) :
    (pagedirGetPage pd vaddr).run' s' = (pagedirGetPage pd vaddr).run' s := by
  show Prod.fst <$> (pagedirGetPage pd vaddr).run s' = Prod.fst <$> (pagedirGetPage pd vaddr).run s
  rw [run_pagedirGetPage h hv, run_pagedirGetPage h' hv, hsame]
  split
  · cases pteGetPage (s.pte pd (pgNo vaddr)) with
    | error e => rfl
    | ok page => rfl
  · rfl

theorem run'_pagedirIs (h' : s'.Populated pd) (hv : vaddr < physBase)
    (hsame : s'.pte pd (pgNo vaddr) = s.pte pd (pgNo vaddr)) {flag : BitVec 32} :
    (pagedirIs flag pd vaddr).run' s' = (pagedirIs flag pd vaddr).run' s := by
  show Prod.fst <$> (pagedirIs flag pd vaddr).run s' = Prod.fst <$> (pagedirIs flag pd vaddr).run s
  rw [run_pagedirIs h hv, run_pagedirIs h' hv, hsame]
  rfl

theorem invalidatePagedir_spec (hcr3 : s.cr3 < 0x40000000) :
    Returns (invalidatePagedir pd) s fun _ t =>
      ∃ cr3, t = { s with cr3 := cr3 } ∧ cr3 < 0x40000000 := by
  refine .get_bind (Spec.bind (spec_lift (ptov_eq hcr3) (Spec.ite (fun _ => ?_)
    fun _ => .pure ⟨s.cr3, rfl, hcr3⟩)))
  refine .get_bind ?_
  rw [if_neg h.pd_ne_zero]
  exact .bind (spec_lift h.tidy.isPage.vtop_eq (Spec.modify ⟨_, rfl, h.tidy.isPage.phys_lt⟩))

end

/-! ### The kernel's directory -/

/-- The kernel's directory: it has no tables for user pages. -/
structure Base (s : Paging) (pd : ℕ) : Prop extends s.Populated pd where
  user : ∀ i < userPages / 1024, s.memory (pd + 4 * i) = 0

theorem base_grab (hfresh : s.Fresh supply) : (s.grab supply true).Base supply := by
  have hblank : ∀ k < 1024, (s.grab supply true).memory (supply + 4 * k) = 0 := by
    intro k hk
    simp only [grab, if_true, zeroPage, if_pos (slot_inside hk)]
  have hnone : ∀ k < 1024, tableOf ((s.grab supply true).memory (supply + 4 * k)) = none := by
    intro k hk
    rw [hblank k hk]
    rfl
  refine ⟨⟨⟨hfresh.1, ?_, ?_⟩, ?_, mem_cons_self, ?_⟩, ?_⟩
  · intro k hk pt htable
    exact nomatch (hnone k hk).symm.trans htable
  · intro k hk l _ pt htable
    exact nomatch (hnone k hk).symm.trans htable
  · exact fun k hk _ => hblank k hk
  · intro k hk pt htable
    exact nomatch (hnone k hk).symm.trans htable
  · intro k hk
    apply hblank k
    rw [userPages, physBase, pgSize] at hk
    omega

/-- `pt` is null or the table of an entry of the kernel. -/
def IsTable (s : Paging) (pd pt : ℕ) : Prop :=
  pt = 0 ∨ ∃ k < 1024, tableOf (s.memory (pd + 4 * k)) = some pt

theorem Base.pagingInitTable (h : s.Base pd) (hi : i < 1024) (hkernel : userPages / 1024 ≤ i)
    (hpt : s.IsTable pd pt) : Ensures (pagingInitTable pd i pt supply) s fun pt' t =>
      t.Base pd ∧ t.IsTable pd pt' ∧ t.initPageDir = s.initPageDir := by
  refine .bind (spec_load (Spec.ite (fun _ => ?_) fun _ => .pure ⟨h, hpt, rfl⟩))
  refine .seq (pallocGetPage_spec supply true) fun page t ht => ?_
  rcases ht with ⟨rfl, rfl⟩ | ⟨hfresh, rfl, rfl⟩
  · exact .ite_pos rfl (Spec.throw trivial)
  obtain ⟨pde, hcreate, hpde⟩ := pdeCreate_spec hfresh.1
  obtain ⟨hpop, -⟩ := h.toPopulated.attachTable hi hfresh hpde
  have hne : page ≠ pd := fun heq => hfresh.2 (heq ▸ h.used)
  refine .ite (fun _ => .throw trivial) fun _ => .bind (spec_lift hcreate
    (Spec.bind (spec_store (Spec.pure ⟨⟨hpop, ?_⟩, .inr ⟨i, hi, ?_⟩, rfl⟩))))
  · intro k hk
    refine (memory_attachTable_other h.tidy.isPage hfresh.1 h.tidy.isPage hi ?_ hne.symm
      ?_).trans (h.user k hk)
    · omega
    · omega
  · exact (congrArg tableOf memory_attachTable_entry).trans (tableOf_eq_some.mpr hpde)

theorem Base.pagingInitPage {inKernelText : ℕ → Bool} {page : ℕ} (h : s.Base pd)
    (hpage : page < 0x40000) (hpt : s.IsTable pd pt) :
    Ensures (pagingInitPage inKernelText pd page pt supply) s fun pt' t =>
      t.Base pd ∧ t.IsTable pd pt' ∧ t.initPageDir = s.initPageDir := by
  have hphys : page * pgSize % sizeLimit < 0x40000000 := by
    rw [pgSize, sizeLimit]
    omega
  obtain ⟨vaddr, hptov, hvaddr⟩ : ∃ vaddr, ptov (page * pgSize % sizeLimit) = .ok vaddr ∧
      vaddr = page * pgSize % sizeLimit + physBase := ⟨_, ptov_eq hphys, rfl⟩
  have hpd : pdNo vaddr < 1024 ∧ userPages / 1024 ≤ pdNo vaddr := by
    rw [pdNo_eq, pgNo_eq, hvaddr]
    simp only [pgSize, sizeLimit, userPages, physBase]
    omega
  refine .bind (spec_lift hptov (Spec.bind ((h.pagingInitTable hpd.1 hpd.2 hpt).post ?_)))
  rintro pt₁ s₁ ⟨hbase, hpt₁, hdir⟩
  refine .ite (fun _ => .throw trivial) fun hne => ?_
  cases hcreate : pteCreateKernel vaddr (!inKernelText vaddr) with
  | error e => exact trivial
  | ok pte =>
    obtain ⟨k, hk, hkpt⟩ := hpt₁.resolve_left hne
    have hptno : ptNo vaddr < 1024 := by
      rw [ptNo_eq]
      exact Nat.mod_lt _ (by decide)
    obtain ⟨hpop, hentry, -⟩ := hbase.toPopulated.store hk hptno hkpt
      (t := { s₁ with memory := update s₁.memory (pt₁ + 4 * ptNo vaddr) pte }) rfl rfl
    refine .bind (spec_lift rfl (Spec.bind (spec_store (Spec.pure
      ⟨⟨hpop, ?_⟩, .inr ⟨k, hk, ?_⟩, hdir⟩))))
    · intro i hi
      exact (hentry i (lt_trans hi (by decide))).trans (hbase.user i hi)
    · exact (congrArg tableOf (hentry k hk)).trans hkpt

theorem Base.pagingInitLoop {inKernelText : ℕ → Bool} {supplies : ℕ → ℕ} (n : ℕ) :
    ∀ {page pt : ℕ} {s : Paging}, s.Base pd → page + n ≤ 0x40000 → s.IsTable pd pt →
      Ensures (pagingInitLoop inKernelText supplies pd n page pt) s fun _ t =>
        t.Base pd ∧ t.initPageDir = s.initPageDir := by
  induction n with
  | zero => exact fun h _ _ => .pure ⟨h, rfl⟩
  | succ n ih =>
    intro page pt s h hpage hpt
    refine .seq (h.pagingInitPage (by omega) hpt) fun pt' s' ⟨hbase, hpt', hdir⟩ => ?_
    exact (ih hbase (by omega) hpt').post fun _ t ⟨hlast, hdir'⟩ => ⟨hlast, hdir'.trans hdir⟩

/-- **`paging_init`** makes a directory without tables for user pages. -/
theorem pagingInit_spec {inKernelText : ℕ → Bool} {supplies : ℕ → ℕ}
    (hram : s.initRamPages ≤ 0x40000) : Ensures (pagingInit inKernelText supply supplies) s
      fun _ t => t.Base t.initPageDir ∧ t.cr3 < 0x40000000 := by
  refine .seq (pallocGetPage_spec supply true) fun pd t ht => ?_
  rcases ht with ⟨rfl, rfl⟩ | ⟨hfresh, rfl, rfl⟩
  · exact .ite_pos rfl (Spec.throw trivial)
  refine .ite (fun _ => .throw trivial) fun _ => .modify_bind (Spec.bind (Spec.get (Spec.bind ?_)))
  have hblank := base_grab hfresh
  have hstart : ({ s.grab pd true with initPageDir := pd } : Paging).Base pd := { hblank with }
  refine (Base.pagingInitLoop _ hstart (by rw [zero_add]; exact hram) (.inl rfl)).post
    fun _ u ⟨hbase, hdir⟩ => .bind (spec_lift hfresh.1.vtop_eq ?_)
  refine .modify ⟨?_, hfresh.1.phys_lt⟩
  have hdir' : u.initPageDir = pd := hdir
  rw [hdir']
  exact { hbase with }

/-- **`pagedir_create`** makes a directory without user pages. -/
theorem pagedirCreate_spec (h : s.Base s.initPageDir) :
    Ensures (pagedirCreate supply) s fun pd t => pd ≠ 0 → t.Populated pd ∧ pd ≠ t.initPageDir ∧
      t.cr3 = s.cr3 ∧ ∀ n < userPages, t.pte pd n = 0 := by
  refine .seq (pallocGetPage_spec supply false) fun pd t ht => ?_
  rcases ht with ⟨rfl, rfl⟩ | ⟨hfresh, rfl, rfl⟩
  · exact .ite_neg (· rfl) <| Spec.pure (absurd rfl)
  refine .ite_pos hfresh.ne_zero (Spec.modify_bind (Spec.pure fun _ => ?_))
  have hnew : ∀ k < 1024, tableOf (s.memory (s.initPageDir + 4 * k)) ≠ some pd :=
    fun k hk htable => hfresh.2 (h.tables k hk pd htable)
  have hcopy : ∀ k < 1024, copyPage s.memory pd s.initPageDir (pd + 4 * k) =
      s.memory (s.initPageDir + 4 * k) := by
    intro k hk
    rw [copyPage, if_pos (slot_inside hk), Nat.add_sub_cancel_left]
  refine ⟨h.of_entries (h.tidy.copy hfresh.1 hnew hcopy) hcopy mem_cons_self (subset_cons_self _ _),
    ?_, rfl, ?_⟩
  · exact fun heq => hfresh.2 (heq ▸ h.used)
  intro n hn
  have hn' : n / 1024 < userPages / 1024 := by
    simp only [userPages, physBase, pgSize] at hn ⊢
    omega
  have hzero := (hcopy _ (lt_trans hn' (by decide))).trans (h.user _ hn')
  exact pte_of_none (congrArg tableOf hzero)

end Paging

/-! ## The calls and the map -/

namespace PagedirSystem

open Paging

variable {s s' : PagedirSystem} {t : Paging} {n pt vpage : ℕ} {word : BitVec 32}
  {m : Option PageMapping}

/-- **The invariant**: the entries are those of the map. -/
structure Sound (s : PagedirSystem) : Prop where
  populated : s.paging.Populated s.pd
  pd_ne : s.pd ≠ s.paging.initPageDir
  cr3 : s.paging.cr3 < 0x40000000
  describes : ∀ n < userPages, Describes (s.paging.pte s.pd n) (s.mapping n)

/-- Only the entry of page `n` may be another one, and the entries of the kernel are as they
were. -/
structure Changed (s t : Paging) (pd n : ℕ) : Prop where
  pde : ∀ k < 1024, userPages / 1024 ≤ k → t.memory (pd + 4 * k) = s.memory (pd + 4 * k)
  pte : ∀ m < 1048576, m ≠ n → t.pte pd m = s.pte pd m

theorem changed_refl (s : Paging) (pd n : ℕ) : Changed s s pd n :=
  ⟨fun _ _ _ => rfl, fun _ _ _ => rfl⟩

section

variable (h : s.Sound)
include h

/-- **A new entry for a page.** -/
theorem Sound.poke (hn : n < userPages) (hpop : t.Populated s.pd) (hgrown : s.paging.Grown t s.pd n)
    (htable : tableOf (t.memory (s.pd + 4 * (n / 1024))) = some pt) (hword : Describes word m)
    {cr3 : ℕ} (hcr3 : cr3 < 0x40000000) :
    Sound ⟨{ t with memory := update t.memory (pt + 4 * (n % 1024)) word, cr3 := cr3 },
        s.pd, update s.mapping n m⟩ ∧
      Changed s.paging { t with
        memory := update t.memory (pt + 4 * (n % 1024)) word, cr3 := cr3 } s.pd n := by
  have hidx : n / 1024 < 1024 := by
    rw [userPages, physBase, pgSize] at hn
    omega
  obtain ⟨hpop', hpde, hlookup⟩ := hpop.store hidx (Nat.mod_lt n (by decide)) htable
    (t := { t with memory := update t.memory (pt + 4 * (n % 1024)) word, cr3 := cr3 })
    rfl rfl
  have hpte : ∀ k < 1048576, Paging.pte { t with
      memory := update t.memory (pt + 4 * (n % 1024)) word, cr3 := cr3 } s.pd k =
        if k = n then word else s.paging.pte s.pd k := by
    intro k hk
    rw [← hgrown.pte k hk]
    unfold Paging.pte
    rw [hlookup (k / 1024) (k % 1024) (by omega) (Nat.mod_lt k (by decide))]
    by_cases hkn : k = n
    · rw [if_pos hkn, if_pos ⟨by rw [hkn], by rw [hkn]⟩]
      rfl
    · rw [if_neg hkn, if_neg (by omega)]
  refine ⟨⟨hpop', ?_, hcr3, ?_⟩, ?_, ?_⟩
  · show s.pd ≠ t.initPageDir
    rw [hgrown.initPageDir]
    exact h.pd_ne
  · intro k hk
    have hsmall : k < 1048576 := by
      rw [userPages, physBase, pgSize] at hk
      omega
    rw [hpte k hsmall]
    by_cases hkn : k = n
    · rw [hkn]
      simp only [update_self]
      exact hword
    · rw [if_neg hkn]
      simp only [update_of_ne hkn]
      exact h.describes k hk
  · intro k hk huser
    rw [hpde k hk]
    refine hgrown.pde k hk ?_
    simp only [userPages, physBase, pgSize] at hn huser
    omega
  · intro k hk hkn
    rw [hpte k hk, if_neg hkn]

theorem Sound.mapping_self (hm : s.mapping n = m) :
    Sound ⟨s.paging, s.pd, update s.mapping n m⟩ := by
  rwa [← hm, update_eq_self]

/-- **`pagedir_set_dirty` and `pagedir_set_accessed`.** -/
theorem Sound.pagedirSet (hv : vpage < physBase) (flag : BitVec 32) (value : Bool)
    {f : PageMapping → PageMapping}
    (hflag : Describes (setFlag (s.paging.pte s.pd (pgNo vpage)) flag value)
      ((s.mapping (pgNo vpage)).map f)) :
    Returns (Paging.pagedirSet flag s.pd vpage value) s.paging fun _ u =>
      Sound ⟨u, s.pd, update s.mapping (pgNo vpage) ((s.mapping (pgNo vpage)).map f)⟩ ∧
        Changed s.paging u s.pd (pgNo vpage) := by
  have hn := pgNo_lt hv
  refine .seq (lookupPage_spec h.populated hv false 0) fun r t ht => ?_
  rcases ht with ⟨rfl, rfl, hzero⟩ | ⟨hne, -, hword, hpop, hgrown, pt, htable, rfl⟩
  · -- There is no table, so the page is not mapped.
    have hnone : s.mapping (pgNo vpage) = none :=
      (h.describes _ hn).eq_none (by rw [hzero]; exact zero_and_flag _)
    exact .ite_neg (· rfl) <|
      Spec.pure ⟨h.mapping_self (by rw [hnone]; rfl), changed_refl _ _ _⟩
  refine .ite_pos hne (Spec.bind (spec_load (Spec.bind (spec_store ?_))))
  rw [hword]
  have hcr3 : t.cr3 < 0x40000000 := hgrown.cr3 ▸ h.cr3
  have hpoke := h.poke hn hpop hgrown htable hflag hcr3
  refine .ite (fun _ => ?_) fun _ => .pure hpoke
  refine (invalidatePagedir_spec hpoke.1.populated hcr3).post fun _ u => ?_
  rintro ⟨cr3, rfl, hlow⟩
  exact h.poke hn hpop hgrown htable hflag hlow

/-- **`pagedir_clear_page`.** -/
theorem Sound.pagedirClearPage (hv : vpage < physBase) (halign : vpage % pgSize = 0) :
    Returns (Paging.pagedirClearPage s.pd vpage) s.paging fun _ u =>
      Sound ⟨u, s.pd, update s.mapping (pgNo vpage) none⟩ ∧
        Changed s.paging u s.pd (pgNo vpage) := by
  have hn := pgNo_lt hv
  have huser : isUserVaddr vpage = true := decide_eq_true hv
  have hofs : pgOfs vpage = 0 := by rw [pgOfs_eq, halign]
  refine .ite_neg (· hofs) ?_
  refine .ite_neg (by simp [huser]) ?_
  refine .seq (lookupPage_spec h.populated hv false 0) fun r t ht => ?_
  have habsent (hzero : s.paging.pte s.pd (pgNo vpage) &&& pteP = 0) :
      Sound ⟨s.paging, s.pd, update s.mapping (pgNo vpage) none⟩ ∧
        Changed s.paging s.paging s.pd (pgNo vpage) :=
    ⟨h.mapping_self ((h.describes _ hn).eq_none hzero), changed_refl _ _ _⟩
  rcases ht with ⟨rfl, rfl, hzero⟩ | ⟨hne, hsame, hword, hpop, hgrown, pt, htable, rfl⟩
  · exact .ite_neg (· rfl) <|
      Spec.pure (habsent (by rw [hzero]; exact zero_and_flag _))
  obtain rfl := hsame rfl
  refine .ite_pos hne (Spec.bind (spec_load ?_))
  rw [hword]
  refine .ite (fun _ => .bind (spec_store ?_)) fun hzero =>
    Spec.pure (habsent (not_not.mp hzero))
  have hclear := describes_clear (s.paging.pte s.pd (pgNo vpage))
  have hpoke := h.poke hn hpop hgrown htable hclear h.cr3
  refine (invalidatePagedir_spec hpoke.1.populated h.cr3).post fun _ u => ?_
  rintro ⟨cr3, rfl, hlow⟩
  exact h.poke hn hpop hgrown htable hclear hlow

/-- **`pagedir_set_page`** of a page that is not mapped: without memory for a page table nothing
happens. -/
theorem Sound.pagedirSetPage (hv : vpage < physBase) (halign : vpage % pgSize = 0)
    (hnone : s.mapping (pgNo vpage) = none) {kpage : ℕ} (hkpage : IsKernelPage kpage)
    (hram : (kpage - physBase) / pgSize < s.paging.initRamPages) (writable : Bool) (supply : ℕ) :
    Returns (Paging.pagedirSetPage s.pd vpage kpage writable supply) s.paging fun ok u =>
      ok = false ∧ u = s.paging ∨ ok = true ∧
        Sound ⟨u, s.pd, update s.mapping (pgNo vpage) (some ⟨kpage, false, false⟩)⟩ ∧
        Changed s.paging u s.pd (pgNo vpage) := by
  have hn := pgNo_lt hv
  have huser : isUserVaddr vpage = true := decide_eq_true hv
  have hofs : pgOfs vpage = 0 := by rw [pgOfs_eq, halign]
  have hframe : ((kpage - physBase) >>> pgBits < s.paging.initRamPages) := by
    rw [Nat.shiftRight_eq_div_pow]
    exact hram
  refine .ite_neg (· hofs) ?_
  refine .ite_neg (· hkpage.pgOfs_eq) ?_
  refine .ite_neg (by simp [huser]) ?_
  refine .bind (spec_lift hkpage.vtop_eq (Spec.get_bind ?_))
  refine .ite_neg (· hframe) <| Spec.get_bind ?_
  refine .ite_neg h.pd_ne ?_
  refine .seq (lookupPage_spec h.populated hv true supply) fun r t ht => ?_
  rcases ht with ⟨rfl, rfl, -⟩ | ⟨hne, -, hword, hpop, hgrown, pt, htable, rfl⟩
  · exact .ite_neg (· rfl) <| Spec.pure (.inl ⟨rfl, rfl⟩)
  have habsent : s.paging.pte s.pd (pgNo vpage) &&& pteP = 0 := by
    have hdescribes := h.describes _ hn
    rwa [hnone] at hdescribes
  obtain ⟨pte, hcreate, hpte⟩ := pteCreateUser_spec hkpage writable
  have hcr3 : t.cr3 < 0x40000000 := hgrown.cr3 ▸ h.cr3
  refine .ite_pos hne (Spec.bind (spec_load ?_))
  rw [hword]
  refine .ite_neg (· habsent) <| Spec.bind (spec_lift hcreate
    (Spec.bind (spec_store (Spec.pure (.inr ⟨rfl, ?_⟩)))))
  exact h.poke (m := some ⟨kpage, false, false⟩) hn hpop hgrown htable hpte hcr3

theorem Sound.perform {l : PagedirLabel} (hl : s.Valid l) :
    ∃ s', s.perform l = .ok s' ∧ s'.Sound ∧ s'.pd = s.pd ∧
      Changed s.paging s'.paging s.pd l.page := by
  unfold PagedirSystem.perform
  cases l with
  | setPage upage kpage writable supply =>
    obtain ⟨hv, halign, hnone, hkpage, hram⟩ := hl
    obtain ⟨ok, u, hset, ⟨rfl, rfl⟩ | ⟨rfl, hsound, hchanged⟩⟩ :=
      returns_iff.mp (h.pagedirSetPage hv halign hnone hkpage hram writable supply)
    · refine ⟨s, ?_, h, rfl, changed_refl _ _ _⟩
      simp only [hset]
      rfl
    · refine ⟨_, ?_, hsound, rfl, hchanged⟩
      simp only [hset]
      rfl
  | clearPage upage =>
    obtain ⟨⟨⟩, u, hclear, hsound, hchanged⟩ := returns_iff.mp (h.pagedirClearPage hl.1 hl.2)
    refine ⟨_, ?_, hsound, rfl, hchanged⟩
    simp only [hclear]
    rfl
  | setDirty vpage dirty =>
    obtain ⟨⟨⟩, u, hset, hsound, hchanged⟩ := returns_iff.mp (h.pagedirSet hl pteD dirty
      ((h.describes _ (pgNo_lt hl)).setDirty dirty))
    refine ⟨_, ?_, hsound, rfl, hchanged⟩
    simp only [pagedirSetDirty, hset]
    rfl
  | setAccessed vpage accessed =>
    obtain ⟨⟨⟩, u, hset, hsound, hchanged⟩ := returns_iff.mp (h.pagedirSet hl pteA accessed
      ((h.describes _ (pgNo_lt hl)).setAccessed accessed))
    refine ⟨_, ?_, hsound, rfl, hchanged⟩
    simp only [pagedirSetAccessed, hset]
    rfl

theorem Sound.step {l : PagedirLabel} (hstep : Step s l s') :
    s'.Sound ∧ s'.pd = s.pd ∧ Changed s.paging s'.paging s.pd l.page := by
  obtain ⟨hl, hstep⟩ := ite_map_some_eq_ok.mp hstep
  obtain ⟨s'', hperform, hkept⟩ := h.perform hl
  cases hperform.symm.trans hstep
  exact hkept

end

theorem page_lt {l : PagedirLabel} (hstep : Step s l s') : l.page < userPages := by
  obtain ⟨hl, -⟩ := ite_map_some_eq_ok.mp hstep
  cases l with
  | setPage upage kpage writable supply | clearPage upage => exact pgNo_lt hl.1
  | setDirty vpage dirty | setAccessed vpage accessed => exact pgNo_lt hl

theorem Sound.getPage (h : s.Sound) {uaddr : ℕ} (hv : uaddr < physBase) :
    (pagedirGetPage s.pd uaddr).run s.paging = .ok (s.address uaddr, s.paging) := by
  have hdescribes := h.describes _ (pgNo_lt hv)
  rw [run_pagedirGetPage h.populated hv, address]
  cases hm : s.mapping (pgNo uaddr) with
  | none =>
    rw [hm] at hdescribes
    exact if_neg (not_not_intro hdescribes)
  | some m =>
    rw [hm] at hdescribes
    rw [if_pos hdescribes.present, hdescribes.getPage]
    rfl

/-- **A page directory is a map from user pages to frames.**  On a directory from
`pagedir_create`, after any calls: `pagedir_get_page` returns what the map has, the flags of a
mapped page are those of the map, a call changes what can be read of its own page only and no
entry of the kernel, a call that fails for lack of memory changes nothing, and every valid call
returns. -/
theorem pagedir_is_map {extendedKb : UInt16} {inKernelText : ℕ → Bool} {memory : ℕ → BitVec 32}
    {used : List ℕ} {dir cr3 supply supply' pd : ℕ} {supplies : ℕ → ℕ} {s₁ s₂ : Paging}
    {labels : List PagedirLabel}
    (hinit : (pagingInit inKernelText supply supplies).run
      ⟨memory, used, dir, initRamPages extendedKb, cr3⟩ = .ok ((), s₁))
    (hcreate : (pagedirCreate supply').run s₁ = .ok (pd, s₂)) (hpd : pd ≠ 0)
    (hrun : Run Step ⟨s₂, pd, fun _ => none⟩ labels s) :
    (∀ uaddr < physBase,
      (pagedirGetPage s.pd uaddr).run s.paging = .ok (s.address uaddr, s.paging)) ∧
    (∀ vpage < physBase, ∀ m, s.mapping (pgNo vpage) = some m →
      (pagedirIsDirty s.pd vpage).run s.paging = .ok (m.dirty, s.paging) ∧
      (pagedirIsAccessed s.pd vpage).run s.paging = .ok (m.accessed, s.paging)) ∧
    (∀ l s', Step s l s' → (∀ vpage < physBase, pgNo vpage ≠ l.page →
        (pagedirGetPage s.pd vpage).run' s'.paging = (pagedirGetPage s.pd vpage).run' s.paging ∧
        (pagedirIsDirty s.pd vpage).run' s'.paging = (pagedirIsDirty s.pd vpage).run' s.paging ∧
        (pagedirIsAccessed s.pd vpage).run' s'.paging =
          (pagedirIsAccessed s.pd vpage).run' s.paging) ∧
      ∀ vaddr, physBase ≤ vaddr → vaddr < 4294967296 →
        s'.paging.memory (s.pd + 4 * pdNo vaddr) = s.paging.memory (s.pd + 4 * pdNo vaddr) ∧
        s'.paging.pte s.pd (pgNo vaddr) = s.paging.pte s.pd (pgNo vaddr)) ∧
    (∀ upage kpage writable supply t, s.Valid (.setPage upage kpage writable supply) →
      (pagedirSetPage s.pd upage kpage writable supply).run s.paging = .ok (false, t) →
      t = s.paging) ∧
    ∀ l, s.Valid l → ∃ s', Step s l s' := by
  obtain ⟨-, hram⟩ := Palloc.initRamPages_bounds extendedKb
  obtain ⟨hbase, hcr3⟩ := pagingInit_spec (hram.trans (by decide)) |>.of_run_eq hinit
  obtain ⟨hpop, hne, hcr3', hblank⟩ := (pagedirCreate_spec hbase).of_run_eq hcreate hpd
  have h : s.Sound := by
    refine Run.invariant (I := Sound) ?_ (fun _ _ _ ht hstep => (ht.step hstep).1) hrun
    refine ⟨hpop, hne, ?_, ?_⟩
    · show s₂.cr3 < _
      rwa [hcr3']
    · intro n hn
      rw [hblank n hn]
      exact zero_and_flag pteP
  refine ⟨fun uaddr hv => h.getPage hv, ?_, ?_, ?_, ?_⟩
  · intro vpage hv m hm
    have hdescribes := h.describes _ (pgNo_lt hv)
    rw [hm] at hdescribes
    rw [pagedirIsDirty, pagedirIsAccessed, run_pagedirIs h.populated hv,
      run_pagedirIs h.populated hv, hdescribes.dirty, hdescribes.accessed]
    exact ⟨rfl, rfl⟩
  · intro l s' hstep
    obtain ⟨hsound', hpd', hchanged⟩ := h.step hstep
    have hpop' : s'.paging.Populated s.pd := hpd' ▸ hsound'.populated
    constructor
    · intro vpage hv hother
      have hsmall : pgNo vpage < 1048576 := lt_trans (pgNo_lt hv) (by decide)
      have hsame := hchanged.pte _ hsmall hother
      exact ⟨run'_pagedirGetPage h.populated hpop' hv hsame,
        run'_pagedirIs h.populated hpop' hv hsame, run'_pagedirIs h.populated hpop' hv hsame⟩
    intro vaddr hkernel hlimit
    have hpage : userPages ≤ pgNo vaddr ∧ pgNo vaddr < 1048576 := by
      rw [pgNo_eq]
      simp only [userPages, pgSize] at hkernel ⊢
      omega
    have huser : l.page < userPages := page_lt hstep
    refine ⟨?_, hchanged.pte _ hpage.2 (by omega)⟩
    rw [pdNo_eq]
    exact hchanged.pde _ (by omega) (Nat.div_le_div_right hpage.1)
  · intro upage kpage writable supply t hl hfail
    obtain ⟨hv, halign, hnone, hkpage, hram'⟩ := hl
    obtain ⟨-, rfl⟩ | ⟨htrue, -⟩ :=
      (h.pagedirSetPage hv halign hnone hkpage hram' writable supply).of_run_eq hfail
    · rfl
    · cases htrue
  · intro l hl
    obtain ⟨s', hperform, -⟩ := h.perform hl
    exact ⟨s', ite_map_some_eq_ok.mpr ⟨hl, hperform⟩⟩

/-- Two pages share a table.  The first one is dirty, the second one is set, accessed and
cleared. -/
theorem pagedir_is_map_two_pages : ∃ s₁ s₂ labels s,
    (pagingInit (fun _ => false) 0xc0100000 fun _ => 0xc0101000).run
      ⟨fun _ => 0, [], 0, initRamPages 64, 0⟩ = .ok ((), s₁) ∧
    (pagedirCreate 0xc0102000).run s₁ = .ok (0xc0102000, s₂) ∧
    Run Step ⟨s₂, 0xc0102000, fun _ => none⟩ labels s ∧ s.address 0x08048123 = 0xc0104123 ∧
    (pagedirGetPage s.pd 0x08048123).run s.paging = .ok (0xc0104123, s.paging) ∧
    (pagedirIsDirty s.pd 0x08048000).run s.paging = .ok (true, s.paging) ∧
    (pagedirGetPage s.pd 0x08049000).run s.paging = .ok (0, s.paging) := by
  let labels : List PagedirLabel := [.setPage 0x08048000 0xc0104000 true 0xc0103000,
    .setDirty 0x08048000 true, .setPage 0x08049000 0xc0105000 false 0,
    .setAccessed 0x08049000 true, .clearPage 0x08049000]
  obtain ⟨⟨⟨⟩, s₁⟩, hinit, ⟨pd, s₂⟩, hcreate, hpd, hexec⟩ :
      ∃ r₁, (pagingInit (fun _ => false) 0xc0100000 fun _ => 0xc0101000).run
        ⟨fun _ => 0, [], 0, initRamPages 64, 0⟩ = .ok r₁ ∧
      ∃ r₂, (pagedirCreate 0xc0102000).run r₁.2 = .ok r₂ ∧ r₂.1 = 0xc0102000 ∧
      ∃ s ∈ execute (outcome apply) ⟨r₂.2, 0xc0102000, fun _ => none⟩ labels,
        s.mapping (pgNo 0x08048123) = some ⟨0xc0104000, true, false⟩ ∧
        s.mapping (pgNo 0x08049000) = none := by
    decide +kernel
  cases hpd
  obtain ⟨s, hrun, hfirst, hsecond⟩ := exists_run_of_execute (fun _ _ _ => outcome_eq_some.mp) hexec
  obtain ⟨hget, hflags, -⟩ := pagedir_is_map hinit hcreate (by decide) hrun
  have haddress : s.address 0x08048123 = 0xc0104123 := by
    rw [address, hfirst]
    rfl
  refine ⟨s₁, s₂, labels, s, hinit, hcreate, hrun, haddress, ?_, ?_, ?_⟩
  · rw [hget 0x08048123 (by decide), haddress]
  · exact (hflags 0x08048000 (by decide) _ hfirst).1
  · rw [hget 0x08049000 (by decide), address, hsecond]

end PagedirSystem

end CS162
