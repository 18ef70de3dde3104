import CS162.Threads.Vaddr

/-!
# Page directory and page table entries (`threads/pte.h`)

An entry is a 32-bit word: the address of a page and flags.  The lemmas say what the masks
compute, so that later proofs do not look at bits.
-/

namespace CS162

def pteAddr : BitVec 32 := 0xfffff000#32

def pteP : BitVec 32 := 0x1#32

def pteW : BitVec 32 := 0x2#32

def pteU : BitVec 32 := 0x4#32

def pteA : BitVec 32 := 0x20#32

def pteD : BitVec 32 := 0x40#32

/-- `pt_no`; `PTMASK` is `BITMASK (PTSHIFT, PTBITS)`. -/
def ptNo (va : ℕ) : ℕ := (va &&& bitmask pgBits 10) >>> pgBits

/-- `pd_no`; `PDSHIFT` is `PTSHIFT + PTBITS`. -/
def pdNo (va : ℕ) : ℕ := va >>> (pgBits + 10)

def pdeCreate (pt : ℕ) : Except Fault (BitVec 32) := do
  if pgOfs pt ≠ 0 then
    throw (.panic "pg_ofs (pt) == 0")
  return BitVec.ofNat 32 (← vtop pt) ||| pteU ||| pteP ||| pteW

def pdeGetPt (pde : BitVec 32) : Except Fault ℕ := do
  if pde &&& pteP = 0 then
    throw (.panic "pde & PTE_P")
  ptov (pde &&& pteAddr).toNat

def pteCreateKernel (page : ℕ) (writable : Bool) : Except Fault (BitVec 32) := do
  if pgOfs page ≠ 0 then
    throw (.panic "pg_ofs (page) == 0")
  return BitVec.ofNat 32 (← vtop page) ||| pteP ||| if writable then pteW else 0

def pteCreateUser (page : ℕ) (writable : Bool) : Except Fault (BitVec 32) := do
  return (← pteCreateKernel page writable) ||| pteU

def pteGetPage (pte : BitVec 32) : Except Fault ℕ := ptov (pte &&& pteAddr).toNat

/-! ## Indices -/

theorem ptNo_eq (va : ℕ) : ptNo va = pgNo va % 1024 := by
  have hmask : bitmask pgBits 10 = (2 ^ 10 - 1) <<< 12 := rfl
  rw [ptNo, hmask, Nat.shiftRight_and_distrib, pgNo]
  exact Nat.and_two_pow_sub_one_eq_mod _ 10

theorem pdNo_eq (va : ℕ) : pdNo va = pgNo va / 1024 := by
  rw [pdNo, pgNo, Nat.shiftRight_add, Nat.shiftRight_eq_div_pow _ 10]

/-! ## Masks -/

section Masks

variable {w m k : BitVec 32}

theorem zero_and_flag (k : BitVec 32) : (0 : BitVec 32) &&& k = 0 := BitVec.zero_and

theorem or_and_of_disjoint (h : m &&& k = 0) : (w ||| m) &&& k = w &&& k := by
  rw [BitVec.and_comm, BitVec.and_or_distrib_left, BitVec.and_comm k w, BitVec.and_comm k m, h]
  exact BitVec.or_zero

theorem or_and_self (w m : BitVec 32) : (w ||| m) &&& m = m := by
  ext i hi
  rw [BitVec.getElem_and, BitVec.getElem_or]
  cases w[i] <;> cases m[i] <;> rfl

theorem and_not_and_self (w m : BitVec 32) : w &&& ~~~m &&& m = 0 := by
  ext i hi
  simp

end Masks

/-- The address of a page below the kernel's part of memory, as an entry holds it. -/
theorem ofNat_and_pteAddr {n : ℕ} (h : n < 4294967296) (halign : n % pgSize = 0) :
    BitVec.ofNat 32 n &&& pteAddr = BitVec.ofNat 32 n := by
  apply BitVec.eq_of_toNat_eq
  rw [BitVec.toNat_and, BitVec.toNat_ofNat, Nat.mod_eq_of_lt h]
  have hround : n &&& pteAddr.toNat = pgRoundDown n := rfl
  rw [hround, pgRoundDown_eq h]
  simp only [pgSize] at halign ⊢
  omega

theorem ofNat_and_flag {n : ℕ} (h : n < 4294967296) (halign : n % pgSize = 0) {k : BitVec 32}
    (hk : pteAddr &&& k = 0) : BitVec.ofNat 32 n &&& k = 0 := by
  rw [← ofNat_and_pteAddr h halign, BitVec.and_assoc, hk]
  exact BitVec.and_zero

/-! ## Entries -/

/-- A page of the kernel's view of memory. -/
structure IsKernelPage (page : ℕ) : Prop where
  aligned : page % pgSize = 0
  kernel : physBase ≤ page
  limit : page < 4294967296

instance (page : ℕ) : Decidable (IsKernelPage page) :=
  decidable_of_iff (page % pgSize = 0 ∧ physBase ≤ page ∧ page < 4294967296)
    ⟨fun h => ⟨h.1, h.2.1, h.2.2⟩, fun h => ⟨h.1, h.2, h.3⟩⟩

namespace IsKernelPage

variable {page : ℕ}

section

variable (h : IsKernelPage page)
include h

theorem vtop_eq : vtop page = .ok (page - physBase) := by
  rw [vtop, isKernelVaddr, if_pos (decide_eq_true h.kernel)]

theorem pgOfs_eq : pgOfs page = 0 := by
  rw [CS162.pgOfs_eq]
  exact h.aligned

theorem phys_lt : page - physBase < 0x40000000 := by
  have hlimit := h.limit
  rw [physBase]
  omega

theorem phys_aligned : (page - physBase) % pgSize = 0 := by
  have haligned := h.aligned
  simp only [physBase, pgSize] at haligned ⊢
  omega

theorem ptov_phys : ptov (BitVec.ofNat 32 (page - physBase)).toNat = .ok page := by
  have hlt := h.phys_lt
  have hkernel := h.kernel
  rw [BitVec.toNat_ofNat, Nat.mod_eq_of_lt (by omega), ptov_eq hlt, Nat.sub_add_cancel hkernel]

theorem and_flag {k : BitVec 32} (hk : pteAddr &&& k = 0) :
    BitVec.ofNat 32 (page - physBase) &&& k = 0 :=
  ofNat_and_flag (lt_trans h.phys_lt (by decide)) h.phys_aligned hk

theorem and_pteAddr :
    BitVec.ofNat 32 (page - physBase) &&& pteAddr = BitVec.ofNat 32 (page - physBase) :=
  ofNat_and_pteAddr (lt_trans h.phys_lt (by decide)) h.phys_aligned

end

end IsKernelPage

/-- What a present page table entry says: the page as the kernel sees it, and two flags. -/
structure PageMapping where
  frame : ℕ
  dirty : Bool
  accessed : Bool
  deriving DecidableEq

/-- A page directory entry that names a page table. -/
structure IsPde (pde : BitVec 32) (pt : ℕ) : Prop where
  ne_zero : pde ≠ 0
  getPt : pdeGetPt pde = .ok pt

/-- A page table entry of a present page. -/
structure IsPte (pte : BitVec 32) (m : PageMapping) : Prop where
  present : pte &&& pteP ≠ 0
  getPage : pteGetPage pte = .ok m.frame
  dirty : decide (pte &&& pteD ≠ 0) = m.dirty
  accessed : decide (pte &&& pteA ≠ 0) = m.accessed

/-- What a page table entry says. -/
def Describes (pte : BitVec 32) : Option PageMapping → Prop
  | none => pte &&& pteP = 0
  | some m => IsPte pte m

theorem ne_zero_of_and {w k : BitVec 32} (h : w &&& k ≠ 0) : w ≠ 0 := by
  intro hzero
  rw [hzero] at h
  exact h (zero_and_flag k)

/-- **`pde_create`** makes an entry that names the table. -/
theorem pdeCreate_spec {pt : ℕ} (h : IsKernelPage pt) :
    ∃ pde, pdeCreate pt = .ok pde ∧ IsPde pde pt := by
  refine ⟨BitVec.ofNat 32 (pt - physBase) ||| pteU ||| pteP ||| pteW, ?_, ?_⟩
  · rw [pdeCreate, h.pgOfs_eq, h.vtop_eq]
    rfl
  have hpresent : (BitVec.ofNat 32 (pt - physBase) ||| pteU ||| pteP ||| pteW) &&& pteP ≠ 0 := by
    rw [or_and_of_disjoint (by decide), or_and_self]
    decide
  have haddr : (BitVec.ofNat 32 (pt - physBase) ||| pteU ||| pteP ||| pteW) &&& pteAddr =
      BitVec.ofNat 32 (pt - physBase) := by
    rw [or_and_of_disjoint (by decide), or_and_of_disjoint (by decide),
      or_and_of_disjoint (by decide), h.and_pteAddr]
  refine ⟨ne_zero_of_and hpresent, ?_⟩
  rw [pdeGetPt, if_neg hpresent, haddr]
  exact h.ptov_phys

/-- **`pte_create_user`** makes an entry of a clean page. -/
theorem pteCreateUser_spec {page : ℕ} (h : IsKernelPage page) (writable : Bool) :
    ∃ pte, pteCreateUser page writable = .ok pte ∧ IsPte pte ⟨page, false, false⟩ := by
  refine ⟨BitVec.ofNat 32 (page - physBase) ||| pteP ||| (if writable then pteW else 0) ||| pteU,
    ?_, ?_⟩
  · rw [pteCreateUser, pteCreateKernel, h.pgOfs_eq, h.vtop_eq]
    rfl
  -- The flags that are set do not touch the bits that are read.
  have hread : ∀ k, pteP &&& k = 0 → pteW &&& k = 0 → pteU &&& k = 0 →
      (BitVec.ofNat 32 (page - physBase) ||| pteP ||| (if writable then pteW else 0) ||| pteU)
        &&& k = BitVec.ofNat 32 (page - physBase) &&& k := by
    intro k hp hw hu
    rw [or_and_of_disjoint hu, or_and_of_disjoint, or_and_of_disjoint hp]
    cases writable with
    | true => exact hw
    | false => exact BitVec.zero_and
  refine ⟨?_, ?_, ?_, ?_⟩
  · have hw : (if writable then pteW else 0) &&& pteP = 0 := by
      cases writable <;> decide
    rw [or_and_of_disjoint (by decide), or_and_of_disjoint hw, or_and_self]
    decide
  · rw [pteGetPage]
    rw [hread pteAddr (by decide) (by decide) (by decide), h.and_pteAddr]
    exact h.ptov_phys
  · rw [hread pteD (by decide) (by decide) (by decide), h.and_flag (by decide)]
    rfl
  · rw [hread pteA (by decide) (by decide) (by decide), h.and_flag (by decide)]
    rfl

/-- `if (value) *pte |= FLAG; else *pte &= ~FLAG;` -/
def setFlag (pte flag : BitVec 32) (value : Bool) : BitVec 32 :=
  if value then pte ||| flag else pte &&& ~~~flag

variable {pte : BitVec 32}

theorem setFlag_and_other {flag k : BitVec 32} (hset : flag &&& k = 0)
    (hclear : ~~~flag &&& k = k) (value : Bool) : setFlag pte flag value &&& k = pte &&& k := by
  cases value with
  | true => exact or_and_of_disjoint hset
  | false => exact (BitVec.and_assoc ..).trans (hclear.symm ▸ rfl)

theorem setFlag_and_self {flag : BitVec 32} (hflag : flag ≠ 0) (pte : BitVec 32) (value : Bool) :
    decide (setFlag pte flag value &&& flag ≠ 0) = value := by
  cases value with
  | true => simpa [setFlag, or_and_self] using hflag
  | false => simp [setFlag, and_not_and_self]

theorem Describes.setDirty {m : Option PageMapping} (h : Describes pte m) (dirty : Bool) :
    Describes (setFlag pte pteD dirty) (m.map fun m => { m with dirty := dirty }) := by
  have hread : ∀ k, pteD &&& k = 0 → ~~~pteD &&& k = k → setFlag pte pteD dirty &&& k = pte &&& k :=
    fun k hset hclear => setFlag_and_other hset hclear dirty
  cases m with
  | none => exact (hread pteP (by decide) (by decide)).trans h
  | some m =>
    refine ⟨?_, ?_, setFlag_and_self (by decide) pte dirty, ?_⟩
    · rw [hread pteP (by decide) (by decide)]
      exact h.present
    · unfold pteGetPage
      rw [hread pteAddr (by decide) (by decide)]
      exact h.getPage
    · rw [hread pteA (by decide) (by decide)]
      exact h.accessed

theorem Describes.setAccessed {m : Option PageMapping} (h : Describes pte m) (accessed : Bool) :
    Describes (setFlag pte pteA accessed) (m.map fun m => { m with accessed := accessed }) := by
  have hread : ∀ k, pteA &&& k = 0 → ~~~pteA &&& k = k →
      setFlag pte pteA accessed &&& k = pte &&& k :=
    fun k hset hclear => setFlag_and_other hset hclear accessed
  cases m with
  | none => exact (hread pteP (by decide) (by decide)).trans h
  | some m =>
    refine ⟨?_, ?_, ?_, setFlag_and_self (by decide) pte accessed⟩
    · rw [hread pteP (by decide) (by decide)]
      exact h.present
    · unfold pteGetPage
      rw [hread pteAddr (by decide) (by decide)]
      exact h.getPage
    · rw [hread pteD (by decide) (by decide)]
      exact h.dirty

theorem Describes.eq_none {m : Option PageMapping} (h : Describes pte m)
    (habsent : pte &&& pteP = 0) : m = none := by
  cases m with
  | none => rfl
  | some m => exact absurd habsent h.present

theorem describes_clear (pte : BitVec 32) : Describes (pte &&& ~~~pteP) none :=
  and_not_and_self pte pteP

end CS162
