import CS162.Filesys.DirectoryMap

/-!
# Listing a directory

Repeated calls of `dir_readdir` on a directory that has just been opened.  The call compares
`e.name` with the addresses of `dot_dot` and `dot`, not with their contents, so it also
returns the entries `.` and `..`.

The results are read by the number of the call: call `i` returns entry `i` of the list of names
in use, and nothing once the list is exhausted (`readdirs_spec`).
-/

namespace CS162

open Library FileSys List

variable {s : FileSys} {x : BlockSector} {cnt : ℕ} {E : Fault → Prop}

/-- Calls of `dir_readdir`, one after another, and what each one returns. -/
def readdirs : ℕ → Dir → Fs (List (Option CString))
  | 0, _ => return []
  | n + 1, dir => do
      let (name, dir) ← dirReaddir dir
      return name :: (← readdirs n dir)

/-- The names in use from slot `k` on, in the order of the slots. -/
def namesFrom (c : BlockSector → Sector) (x : BlockSector) (k n : ℕ) : List CString :=
  (List.range' k n).filterMap fun j => (slotAt c x j).key

/-- The names in a directory, in the order of the slots. -/
def names (c : BlockSector → Sector) (x : BlockSector) (cnt : ℕ) : List CString :=
  namesFrom c x 0 cnt

/-- The names other than `.` and `..`. -/
def ordinaryNames (c : BlockSector → Sector) (x : BlockSector) (cnt : ℕ) : List CString :=
  (names c x cnt).filter fun name => name ≠ dot ∧ name ≠ dotDot

variable {c : BlockSector → Sector}

theorem namesFrom_of_nextSlot_none {k n : ℕ}
    (h : nextSlot c x k n = none) : namesFrom c x k n = [] := by
  refine filterMap_eq_nil_iff.mpr fun j hj => ?_
  have := find?_eq_none.mp h j hj
  simp [DirEntry.key, this]

theorem namesFrom_of_nextSlot_some {j : ℕ} (n : ℕ) : ∀ {k : ℕ}, nextSlot c x k n = some j →
      k ≤ j ∧ j < k + n ∧
        namesFrom c x k n = (slotAt c x j).string :: namesFrom c x (j + 1) (k + n - (j + 1)) := by
  induction n with
  | zero => exact nofun
  | succ n ih =>
    intro k h
    rw [nextSlot, range'_succ] at h
    rw [namesFrom, range'_succ]
    by_cases huse : (slotAt c x k).inUse = true
    · rw [find?_cons_of_pos (p := fun j => (slotAt c x j).inUse) huse] at h
      obtain rfl := Option.some.inj h
      have hkey : (slotAt c x k).key = some (slotAt c x k).string := if_pos huse
      refine ⟨le_rfl, by omega, ?_⟩
      rw [filterMap_cons_some (f := fun j => (slotAt c x j).key) hkey,
        show k + (n + 1) - (k + 1) = n by omega]
      rfl
    rw [find?_cons_of_neg (by simpa using huse)] at h
    have hkey : (slotAt c x k).key = none := if_neg huse
    obtain ⟨hlow, hhigh, hnames⟩ := ih h
    refine ⟨by omega, by omega, ?_⟩
    rw [filterMap_cons_none (f := fun j => (slotAt c x j).key) hkey,
      show k + (n + 1) - (j + 1) = k + 1 + n - (j + 1) by omega]
    exact hnames

theorem Slots.dirReaddir_spec (h : Slots s x cnt) (hmem : s.MemAvailable)
    (hopen : (findInode x s.openInodes).isSome) {k : ℕ} (hk : k ≤ cnt) :
    Spec E (dirReaddir ⟨x, ((24 * k : ℕ) : ℤ)⟩) s fun r t => t = s ∧ ∃ k' ≤ cnt,
      r = ((namesFrom s.content x k (cnt - k)).head?, ⟨x, ((24 * k' : ℕ) : ℤ)⟩) ∧
        namesFrom s.content x k' (cnt - k') = (namesFrom s.content x k (cnt - k)).tail := by
  have hlt := h.cnt_lt
  refine .seq (theInode_spec hopen) ?_
  rintro inode t ⟨ht, hsector, -⟩
  rw [ht]
  refine .seq (h.readdirLoop_spec hmem hsector (cnt - k) k _ (by omega) (by omega)) ?_
  rintro r u ⟨hu, rfl⟩
  cases hnext : nextSlot s.content x k (cnt - k) with
  | none =>
    rw [namesFrom_of_nextSlot_none hnext]
    refine .pure ⟨hu, cnt, le_rfl, rfl, ?_⟩
    rw [Nat.sub_self]
    rfl
  | some j =>
    obtain ⟨hlow, hhigh, hnames⟩ := namesFrom_of_nextSlot_some _ hnext
    rw [hnames, show k + (cnt - k) - (j + 1) = cnt - (j + 1) by omega]
    exact .pure ⟨hu, j + 1, by omega, rfl, rfl⟩

/-- Call `i` returns name `i`, and nothing behind the last one. -/
theorem Slots.readdirs_spec (h : Slots s x cnt) (hmem : s.MemAvailable)
    (hopen : (findInode x s.openInodes).isSome) (n : ℕ) : ∀ {k : ℕ}, k ≤ cnt →
    Spec E (readdirs n ⟨x, ((24 * k : ℕ) : ℤ)⟩) s fun r t => t = s ∧
      r = (range n).map fun i => (namesFrom s.content x k (cnt - k))[i]? := by
  induction n with
  | zero => exact fun _ => .pure ⟨rfl, rfl⟩
  | succ n ih =>
    intro k hk
    refine .seq (h.dirReaddir_spec hmem hopen hk) ?_
    rintro r t ⟨ht, k', hk', rfl, htail⟩
    rw [ht]
    refine .seq (ih hk') ?_
    rintro r u ⟨hu, rfl⟩
    refine .pure ⟨hu, ?_⟩
    rw [htail, range_succ_eq_map, map_cons, map_map, head?_eq_getElem?]
    congr 1
    exact map_congr_left fun i _ => getElem?_tail

theorem ordinaryNames_eq_iff : ordinaryNames c x cnt = names c x cnt ↔
      ∀ k < cnt, (slotAt c x k).key ≠ some dot ∧ (slotAt c x k).key ≠ some dotDot := by
  have hmem : ∀ name, name ∈ names c x cnt ↔ ∃ k < cnt, (slotAt c x k).key = some name := by
    intro name
    simp [names, namesFrom]
  rw [ordinaryNames, filter_eq_self]
  constructor
  · intro hall k hk
    refine ⟨fun hdot => ?_, fun hdot => ?_⟩
    · simpa using hall dot ((hmem dot).mpr ⟨k, hk, hdot⟩)
    · simpa using hall dotDot ((hmem dotDot).mpr ⟨k, hk, hdot⟩)
  · intro hslots name hname
    obtain ⟨k, hk, hkey⟩ := (hmem name).mp hname
    have hslot := hslots k hk
    rw [hkey] at hslot
    simpa using hslot

/-- **Listing.**  Repeated calls of `dir_readdir` from the start return exactly the names in use
other than `.` and `..`, in order and then nothing for ever, if and only if no slot in use is
called `.` or `..`. -/
theorem readdir_lists_iff (s : FileSys) (x : BlockSector) (cnt : ℕ) (h : Slots s x cnt)
    (hmem : s.MemAvailable) (hopen : (findInode x s.openInodes).isSome) :
    (∀ n, Returns (readdirs n ⟨x, 0⟩) s fun r _ =>
        r = (List.range n).map fun i => (ordinaryNames s.content x cnt)[i]?) ↔
      ∀ k < cnt, (slotAt s.content x k).key ≠ some dot ∧
        (slotAt s.content x k).key ≠ some dotDot := by
  have hcalls : ∀ n, Returns (readdirs n ⟨x, 0⟩) s fun r _ =>
      r = (range n).map fun i => (names s.content x cnt)[i]? := fun n =>
    (h.readdirs_spec hmem hopen n (Nat.zero_le cnt)).post fun r t hr => hr.2
  rw [← ordinaryNames_eq_iff]
  constructor
  · intro hall
    -- as many calls as there are names
    obtain ⟨r, t, -, hr, hr'⟩ := returns_iff.mp (((hcalls (names s.content x cnt).length).and
      (hall (names s.content x cnt).length)).imp (fun _ _ hq => hq) fun _ he => he.1)
    rw [hr] at hr'
    have hsub : (ordinaryNames s.content x cnt).Sublist (names s.content x cnt) := filter_sublist
    refine hsub.eq_of_length_le (Nat.le_of_not_lt fun hlt => ?_)
    have hlast := map_inj_left.mp hr' _ (mem_range.mpr hlt)
    rw [getElem?_eq_getElem hlt, getElem?_eq_none le_rfl] at hlast
    cases hlast
  · intro heq n
    rw [heq]
    exact hcalls n

/-! ## A directory with one entry -/

def oneBlockInode (block : BlockSector) (length : ℤ) : InodeDisk :=
  ⟨fun _ => block, 0, 0, length, inodeMagic, fun _ => 0⟩

/-- A disk with the root directory in sectors 1 and 2 and another inode in sectors 3 and 4.  The
root directory has one slot. -/
def entryDisk (e : DirEntry) (length : ℤ) (data : Sector) : FileSys where
  size := 5
  size_lt := by decide
  content y :=
    if y = 1 then (oneBlockInode 2 24).encode
    else if y = 2 then fun i => e.encode i
    else if y = 3 then (oneBlockInode 4 length).encode
    else data
  freeMap _ := true
  freeMapFile := none
  openInodes := [⟨1, 1, false, 0⟩]
  heap _ := true

theorem stored_oneBlock {fs : FileSys} {x b : BlockSector} {length : ℤ}
    (hinode : inodeAt fs.content x = oneBlockInode b length) (hx : fs.Has x) (hb : fs.Has b)
    (hne : b ≠ x) (hlow : 0 < length) (hhigh : length ≤ 512) : Stored fs x := by
  have hfirst : ∀ i : Fin 12, i < blockCount length → i = 0 := by
    unfold blockCount
    omega
  refine .of_direct hinode hx ⟨hlow.le, hhigh.trans (by decide)⟩ ?_ ?_
  · intro i hi
    rw [hfirst i hi]
    exact ⟨hb, hne⟩
  · intro i j hi hj _
    rw [hfirst i hi, hfirst j hj]

theorem slotAt_oneBlock {x b : BlockSector} {length : ℤ} {e : DirEntry}
    (hinode : inodeAt c x = oneBlockInode b length)
    (hslot : ∀ i : Fin 512, i.val < 24 → c b i = e.encode i) : slotAt c x 0 = e := by
  refine Eq.trans (DirEntry.decode_congr fun i hi => ?_) e.decode_encode
  have hblock : blockAt c x 0 = b := by
    rw [blockAt_direct (by omega), hinode]
    rfl
  rw [fileByte, Nat.mul_zero, zero_add, Nat.div_eq_of_lt (by omega), hblock,
    Nat.mod_eq_of_lt (by omega), entry_eq _ (show i < 512 by omega)]
  exact hslot ⟨i, by omega⟩ hi

section EntryDisk

variable {e : DirEntry} {length : ℤ} {data : Sector}

theorem inodeAt_entryDisk_root : inodeAt (entryDisk e length data).content 1 = oneBlockInode 2 24 :=
  decode_encode (by decide) (by decide)

theorem inodeAt_entryDisk_file (hlow : 0 ≤ length) (hhigh : length < 2147483648) :
    inodeAt (entryDisk e length data).content 3 = oneBlockInode 4 length :=
  decode_encode (show -2147483648 ≤ length by omega) hhigh

theorem slotAt_entryDisk : slotAt (entryDisk e length data).content 1 0 = e :=
  slotAt_oneBlock inodeAt_entryDisk_root fun _ _ => rfl

theorem slots_entryDisk (he : e.Terminated) : Slots (entryDisk e length data) 1 1 := by
  refine ⟨?_, ?_, fun k hk _ => ?_⟩
  · exact stored_oneBlock inodeAt_entryDisk_root (show 1 < 5 by omega) (show 2 < 5 by omega)
      (by decide) (by decide) (by decide)
  · rw [inodeAt_entryDisk_root]
    rfl
  · obtain rfl : k = 0 := by omega
    rwa [slotAt_entryDisk]

theorem directory_entryDisk (he : e.Terminated) : Directory (entryDisk e length data) 1 1 :=
  ⟨slots_entryDisk he, fun i hi j hj _ _ => by omega⟩

end EntryDisk

/-- The entry of a file `A` in sector 3. -/
def entryA : DirEntry :=
  ⟨3, fun i => if i.val = 0 then 65 else 0, true, false, fun _ => 0⟩

/-- The entry `.` of the root directory. -/
def entryDot : DirEntry :=
  ⟨1, fun i => if i.val = 0 then 46 else 0, true, true, fun _ => 0⟩

/-- A root directory with the file `A`, and one with the entry `.`. -/
def diskA : FileSys := entryDisk entryA 5 fun _ => 7

def diskDot : FileSys := entryDisk entryDot 5 fun _ => 7

/-- A directory with the single entry `A` is listed. -/
theorem readdir_lists_iff_entryA : Returns (readdirs 2 ⟨1, 0⟩) diskA fun r _ =>
    r = (range 2).map fun i => (ordinaryNames diskA.content 1 1)[i]? := by
  refine (readdir_lists_iff diskA 1 1
    (slots_entryDisk (show 0 ∈ ofFn entryA.name by decide)) rfl rfl).mpr (fun k hk => ?_) 2
  obtain rfl : k = 0 := by omega
  rw [show slotAt diskA.content 1 0 = entryA from slotAt_entryDisk]
  decide

/-- A directory with the single entry `.` is not: the first call returns `.`. -/
theorem readdir_lists_dot : Returns (readdirs 1 ⟨1, 0⟩) diskDot fun r _ =>
    r = [some dot] ∧ r ≠ (range 1).map fun i => (ordinaryNames diskDot.content 1 1)[i]? := by
  have hkey : entryDot.key = some dot := by decide
  have hnames : names diskDot.content 1 1 = [dot] := by
    rw [names, namesFrom, range'_one, filterMap_cons_some (b := dot)]
    · rfl
    · rw [show slotAt diskDot.content 1 0 = entryDot from slotAt_entryDisk, hkey]
  have hslots : Slots diskDot 1 1 := slots_entryDisk (show 0 ∈ ofFn entryDot.name by decide)
  refine (hslots.readdirs_spec rfl rfl 1 (Nat.zero_le 1)).post ?_
  rintro r t ⟨-, rfl⟩
  have hfirst : (range 1).map (fun i => (namesFrom diskDot.content 1 0 (1 - 0))[i]?) =
      [some dot] := by
    rfl
  exact ⟨rfl, by decide⟩

end CS162
