import CS162.Filesys.OpenInodes
import CS162.Filesys.Volume
import CS162.Library.SlotTable

/-!
# The slots of a directory

The slots of a directory are a table whose keys are the names of the entries in use.
`lookup` finds the entry of a name in this table, `dir_add` fills a free slot and
`dir_remove` clears a slot.

## Strategy

* **Reading.**  With memory available, `inode_read_at` returns slot `k` for every `k`
  below the number of slots and nothing at the end (`Slots.read`, `Slots.readEnd`),
  so the loops are walks over the table.
* **Writing.**  A slot that lies in the file is written in place (`Directory.writeSlot`).
* **Removing.**  Before `dir_remove` clears the slot it opens the inode of the entry and,
  for a directory, reads the directory it removes the entry from.  Both leave the slots as
  they are (`Directory.dirRemove_of_found`).
-/

namespace CS162

open Library FileSys List

/-! ## Entries -/

namespace DirEntry

theorem decode_congr {f g : ℕ → UInt8} (h : ∀ k < 24, f k = g k) : decode f = decode g := by
  have hname : (fun i : Fin (nameMax + 1) => f (4 + i)) =
      fun i : Fin (nameMax + 1) => g (4 + i) := by
    funext i
    have hi := i.isLt
    unfold nameMax at hi
    exact h _ (by omega)
  have hpad : (fun i : Fin 3 => f (21 + i)) = fun i : Fin 3 => g (21 + i) :=
    funext fun i => h _ (by omega)
  unfold decode
  rw [wordAt_congr fun k hk => h _ (by omega), hname, hpad, h 19 (by omega), h 20 (by omega)]

theorem toUInt8_ne_zero (b : Bool) : (b.toUInt8 != 0) = b := by
  cases b <;> rfl

theorem decode_encode (e : DirEntry) : decode e.encode = e := by
  have hword : wordAt e.encode 0 = e.inodeSector := word_byteOf e.inodeSector
  have hname : (fun i : Fin (nameMax + 1) => e.encode (4 + i)) = e.name := by
    funext i
    have hi := i.isLt
    unfold nameMax at hi
    rw [encode, if_neg (by omega), if_pos (by omega), Nat.add_sub_cancel_left, entry_eq _ i.isLt]
  have hpad : (fun i : Fin 3 => e.encode (21 + i)) = e.padding := by
    funext i
    rw [encode, if_neg (by omega), if_neg (by omega), if_neg (by omega), if_neg (by omega),
      Nat.add_sub_cancel_left, entry_eq _ i.isLt]
  have hinUse : (e.encode 19 != 0) = e.inUse := toUInt8_ne_zero e.inUse
  have hisDir : (e.encode 20 != 0) = e.isDir := toUInt8_ne_zero e.isDir
  unfold decode
  rw [hword, hname, hpad, hinUse, hisDir]

/-- The name has a terminating zero. -/
def Terminated (e : DirEntry) : Prop := 0 ∈ List.ofFn e.name

/-- The name as a string. -/
def string (e : DirEntry) : CString :=
  ⟨(List.ofFn e.name).takeWhile (· ≠ 0), fun h => by simpa using mem_takeWhile_imp h⟩

theorem length_string_le {e : DirEntry} (h : e.Terminated) : e.string.bytes.length ≤ nameMax := by
  have hall : ((ofFn e.name).takeWhile (· ≠ 0)).length < (ofFn e.name).length := by
    refine lt_of_le_of_ne (takeWhile_sublist _).length_le fun hlen => ?_
    have hsame := (takeWhile_sublist _).eq_of_length hlen
    simpa using takeWhile_eq_self_iff.mp hsame 0 h
  rw [length_ofFn] at hall
  exact Nat.lt_succ_iff.mp hall

def key (e : DirEntry) : Option CString := if e.inUse then some e.string else none

theorem string_strlcpy (e : DirEntry) {name : CString} (h : name.bytes.length ≤ nameMax) :
    (e.strlcpy name).string = name ∧ (e.strlcpy name).Terminated := by
  have hmin : min name.bytes.length nameMax = name.bytes.length := min_eq_left h
  have hlen : (ofFn (e.strlcpy name).name).length = nameMax + 1 := length_ofFn
  -- the bytes of the name, and the zero behind them
  have htake : (ofFn (e.strlcpy name).name).take name.bytes.length = name.bytes := by
    refine ext_getElem (by rw [length_take]; omega) fun i hi hi' => ?_
    rw [getElem_take, List.getElem_ofFn]
    simp only [strlcpy, hmin]
    rw [if_pos hi', getD_eq_getElem?_getD, getElem?_eq_getElem hi', Option.getD_some]
  have hdrop : (ofFn (e.strlcpy name).name).drop name.bytes.length =
      0 :: (ofFn (e.strlcpy name).name).drop (name.bytes.length + 1) := by
    rw [drop_eq_getElem_cons (by omega), List.getElem_ofFn]
    simp only [strlcpy, hmin]
    rw [if_neg (lt_irrefl _)]
    rfl
  have hsplit := take_append_drop name.bytes.length (ofFn (e.strlcpy name).name)
  rw [htake, hdrop] at hsplit
  refine ⟨?_, ?_⟩
  · apply CString.ext
    have hnonzero : ∀ b ∈ name.bytes, decide (b ≠ 0) = true := fun b hb => by
      have : b ≠ 0 := fun heq => name.nonzero (heq ▸ hb)
      simpa using this
    show (ofFn (e.strlcpy name).name).takeWhile (· ≠ 0) = name.bytes
    rw [← hsplit, takeWhile_append_of_pos hnonzero]
    simp
  · rw [Terminated, ← hsplit]
    simp

end DirEntry

/-! ## Comparing names -/

section Compare

variable {s : FileSys} {E : Fault → Prop}

theorem sameName_loop {f : Fin (nameMax + 1) → UInt8} (l : List UInt8) (hl : 0 ∉ l) :
    ∀ i, 0 ∈ (List.ofFn f).drop i → Spec E (sameName f i l) s fun r t =>
      t = s ∧ r = decide (((ofFn f).drop i).takeWhile (· ≠ 0) = l) := by
  have hsplit : ∀ i, 0 ∈ (ofFn f).drop i → ∃ h : i < nameMax + 1,
      (ofFn f).drop i = f ⟨i, h⟩ :: (ofFn f).drop (i + 1) := by
    intro i hi
    have hlt : i < (ofFn f).length := by
      by_contra hge
      rw [drop_eq_nil_of_le (by omega)] at hi
      simp at hi
    refine ⟨by simpa using hlt, ?_⟩
    rw [drop_eq_getElem_cons hlt, List.getElem_ofFn]
  induction l with
  | nil =>
    intro i hi
    obtain ⟨hlt, hdrop⟩ := hsplit i hi
    rw [sameName, dif_pos hlt]
    refine .pure ⟨rfl, ?_⟩
    rw [hdrop]
    by_cases hzero : f ⟨i, hlt⟩ = 0 <;> simp [hzero]
  | cons b rest ih =>
    intro i hi
    obtain ⟨hlt, hdrop⟩ := hsplit i hi
    obtain ⟨hb, hrest⟩ : 0 ≠ b ∧ 0 ∉ rest := by simpa using hl
    rw [sameName, dif_pos hlt]
    refine .ite (fun heq => ?_) fun hne => .pure ⟨rfl, ?_⟩
    · have hmem : 0 ∈ (ofFn f).drop (i + 1) := by
        rw [hdrop, heq] at hi
        exact (mem_cons.mp hi).resolve_left hb
      refine (ih hrest (i + 1) hmem).post ?_
      rintro r t ⟨rfl, rfl⟩
      refine ⟨rfl, ?_⟩
      rw [hdrop, heq, takeWhile_cons_of_pos (by simpa using hb.symm)]
      simp
    · rw [hdrop]
      by_cases hzero : f ⟨i, hlt⟩ = 0 <;> simp [hzero, hne]

theorem sameName_spec {e : DirEntry} (h : e.Terminated) (name : CString) :
    Spec E (sameName e.name 0 name.bytes) s fun r t => t = s ∧ r = decide (e.string = name) := by
  refine (sameName_loop name.bytes name.nonzero 0 h).post ?_
  rintro r t ⟨rfl, rfl⟩
  refine ⟨rfl, ?_⟩
  cases name
  simp [DirEntry.string]

end Compare

/-! ## Slots -/

def slotAt (c : BlockSector → Sector) (x : BlockSector) (k : ℕ) : DirEntry :=
  .decode fun i => fileByte c x (24 * k + i)

/-- A file of `cnt` slots in sector `x` whose names are terminated. -/
structure Slots (s : FileSys) (x : BlockSector) (cnt : ℕ) : Prop where
  stored : Stored s x
  length : (inodeAt s.content x).length = ((24 * cnt : ℕ) : ℤ)
  terminated : ∀ k < cnt, (slotAt s.content x k).inUse = true → (slotAt s.content x k).Terminated

/-- A directory with `cnt` slots in sector `x`: its names are terminated and distinct. -/
structure Directory (s : FileSys) (x : BlockSector) (cnt : ℕ) : Prop extends Slots s x cnt where
  distinct : SlotTable.Distinct DirEntry.key (slotAt s.content x) cnt

/-- The first slot of the directory with this name. -/
def findSlot (c : BlockSector → Sector) (x : BlockSector) (cnt : ℕ) (name : CString) : Option ℕ :=
  SlotTable.find DirEntry.key (slotAt c x) cnt name

/-- The first free slot of the directory. -/
def freeSlot (c : BlockSector → Sector) (x : BlockSector) (cnt : ℕ) : Option ℕ :=
  SlotTable.free DirEntry.key (slotAt c x) cnt

variable {s t : FileSys} {x y : BlockSector} {cnt k : ℕ} {name : CString} {inode : Inode}
  {E : Fault → Prop}

theorem decode_fileBytes (e : ℕ → UInt8) (c : BlockSector → Sector) (x : BlockSector) (k : ℕ) :
    DirEntry.decode (fun i => (fileBytes c x (24 * k) 24).getD i (e i)) = slotAt c x k := by
  apply DirEntry.decode_congr
  intro i hi
  rw [getD_eq_getElem?_getD, fileBytes, getElem?_map, getElem?_range hi]
  rfl

theorem inUse_iff_key (e : DirEntry) : e.inUse = true ↔ e.key ≠ none := by
  unfold DirEntry.key
  cases e.inUse <;> simp

theorem theInode_spec (hopen : (findInode x s.openInodes).isSome) :
    Spec E (theInode x) s fun r t => t = s ∧ r.sector = x ∧ findInode x s.openInodes = some r := by
  obtain ⟨i, hi⟩ := Option.isSome_iff_exists.mp hopen
  apply Spec.get_bind
  rw [hi]
  exact .pure ⟨rfl, sector_of_findInode hi, rfl⟩

namespace Slots

variable (h : Slots s x cnt) (hmem : s.MemAvailable)
include h

theorem cnt_lt : cnt < maxSlots := by
  have hle := h.stored.length_le
  rw [h.length] at hle
  unfold maxInodeSize at hle
  unfold maxSlots
  omega

theorem readEnd (hinode : inode.sector = x) :
    Spec E (inodeReadAt inode dirEntrySize ((24 * cnt : ℕ) : ℤ)) s fun bytes t =>
      t = s ∧ bytes = [] := by
  subst hinode
  apply Spec.bind
  apply cacheRead_spec h.stored.mapped.has_inode
  have hend : (InodeDisk.decode (s.content inode.sector)).length ≤ ((24 * cnt : ℕ) : ℤ) :=
    h.length.le
  rw [if_pos hend]
  exact .pure ⟨rfl, rfl⟩

include hmem

theorem read (hinode : inode.sector = x) (hk : k < cnt) :
    Spec E (inodeReadAt inode dirEntrySize ((24 * k : ℕ) : ℤ)) s fun bytes t =>
      t = s ∧ bytes = fileBytes s.content x (24 * k) 24 := by
  subst hinode
  refine (@inodeReadAt_spec _ _ 24 E inode h.stored fun hlt => ?_).post ?_
  · exfalso
    rw [h.length] at hlt
    omega
  rintro bytes t ⟨heap, m, rfl, hbytes, hall⟩
  obtain ⟨rfl, rfl⟩ := hall (.inl hmem)
  refine ⟨rfl, ?_⟩
  rw [hbytes, h.length, nil_append]
  congr 1
  omega

end Slots

/-! ### Reading on -/

/-- The first slot in use from slot `k` on. -/
def nextSlot (c : BlockSector → Sector) (x : BlockSector) (k n : ℕ) : Option ℕ :=
  (List.range' k n).find? fun j => (slotAt c x j).inUse

theorem entryName_spec {e : DirEntry} (h : e.Terminated) :
    Spec E (entryName e.name) s fun r t => t = s ∧ r = e.string := by
  unfold entryName
  rw [if_pos (show 0 ∈ ofFn e.name from h)]
  exact .pure ⟨rfl, rfl⟩

theorem Slots.readdirLoop_spec (h : Slots s x cnt) (hmem : s.MemAvailable)
    (hinode : inode.sector = x) (n : ℕ) : ∀ k fuel, k + n = cnt → n < fuel →
    Spec E (readdirLoop inode fuel ((24 * k : ℕ) : ℤ)) s fun r t => t = s ∧
      r = match nextSlot s.content x k n with
        | none => (none, ((24 * cnt : ℕ) : ℤ))
        | some j => (some (slotAt s.content x j).string, ((24 * (j + 1) : ℕ) : ℤ)) := by
  induction n with
  | zero =>
    intro k fuel hk hfuel
    obtain _ | fuel := fuel
    · omega
    obtain rfl : k = cnt := by omega
    refine .seq (h.readEnd hinode) ?_
    rintro bytes t ⟨ht, rfl⟩
    exact .pure ⟨ht, rfl⟩
  | succ n ih =>
    intro k fuel hk hfuel
    obtain _ | fuel := fuel
    · omega
    refine .seq (h.read hmem hinode (show k < cnt by omega)) ?_
    rintro bytes t ⟨ht, rfl⟩
    rw [ht, if_neg (by rw [length_fileBytes]; exact not_not.mpr rfl)]
    rw [decode_fileBytes, nextSlot, range'_succ]
    have hpos : ((24 * (k + 1) : ℕ) : ℤ) = ((24 * k : ℕ) : ℤ) + (dirEntrySize : ℕ) := by
      unfold dirEntrySize
      omega
    refine .ite (fun huse => ?_) fun huse => ?_
    · rw [find?_cons_of_pos (p := fun j => (slotAt s.content x j).inUse) huse]
      refine .seq (entryName_spec (h.terminated k (by omega) huse)) ?_
      rintro r t ⟨ht, rfl⟩
      exact .pure ⟨ht, by rw [← hpos]⟩
    · have hrest := ih (k + 1) fuel (by omega) (by omega)
      rwa [find?_cons_of_neg (by simpa using huse)]

namespace Directory

variable (h : Directory s x cnt) (hmem : s.MemAvailable)
include h

include hmem

/-! ## Walking over the slots -/

theorem lookupLoop_spec (hinode : inode.sector = x) (name : CString) (n : ℕ) :
    ∀ k fuel, k + n = cnt → n < fuel →
    Spec E (lookupLoop inode name fuel ((24 * k : ℕ) : ℤ)) s fun r t => t = s ∧
      r = ((List.range' k n).find? fun j => (slotAt s.content x j).key = some name).map fun j =>
        (slotAt s.content x j, ((24 * j : ℕ) : ℤ)) := by
  induction n with
  | zero =>
    intro k fuel hk hfuel
    obtain ⟨fuel, rfl⟩ := Nat.exists_eq_add_of_lt hfuel
    obtain rfl : k = cnt := by omega
    refine .seq (h.toSlots.readEnd hinode) ?_
    rintro bytes t ⟨rfl, rfl⟩
    exact .pure ⟨rfl, rfl⟩
  | succ n ih =>
    intro k fuel hk hfuel
    obtain _ | fuel := fuel
    · omega
    refine .seq (h.toSlots.read hmem hinode (show k < cnt by omega)) ?_
    rintro bytes t ⟨ht, rfl⟩
    rw [ht]
    dsimp only
    rw [decode_fileBytes]
    -- one slot further on
    have hrest := ih (k + 1) fuel (by omega) (by omega)
    rw [range'_succ]
    cases huse : (slotAt s.content x k).inUse with
    | false =>
      rwa [find?_cons_of_neg (by simp [DirEntry.key, huse])]
    | true =>
      refine .seq (sameName_spec (h.terminated k (by omega) huse) name) ?_
      rintro r t ⟨ht, rfl⟩
      rw [ht]
      have hkey : (slotAt s.content x k).key = some (slotAt s.content x k).string := if_pos huse
      refine .ite (fun heq => ?_) fun hne => ?_
      · rw [find?_cons_of_pos (by simpa [hkey] using heq)]
        exact .pure ⟨rfl, rfl⟩
      · rwa [find?_cons_of_neg (by simpa [hkey] using hne)]

theorem lookup_spec (hopen : (findInode x s.openInodes).isSome) (pos : ℤ) (name : CString) :
    Spec E (lookup ⟨x, pos⟩ name) s fun r t => t = s ∧
      r = (findSlot s.content x cnt name).map fun j =>
        (slotAt s.content x j, ((24 * j : ℕ) : ℤ)) := by
  refine .seq (theInode_spec hopen) ?_
  rintro inode t ⟨ht, hsector, -⟩
  rw [ht]
  have hlt := h.cnt_lt
  refine (h.lookupLoop_spec hmem hsector name cnt 0 _ (by omega) (by omega)).post ?_
  rintro r u ⟨hu, rfl⟩
  rw [← range_eq_range']
  exact ⟨hu, rfl⟩

theorem dirLookup_spec (hopen : (findInode x s.openInodes).isSome) (pos : ℤ) (name : CString) :
    Spec E (dirLookup ⟨x, pos⟩ name) s fun r t =>
      match findSlot s.content x cnt name with
      | none => t = s ∧ r = none
      | some k =>
        t = { s with openInodes := opened s.openInodes (slotAt s.content x k).inodeSector } ∧
          ∃ inode, r = some (inode, (slotAt s.content x k).isDir) ∧
            inode.sector = (slotAt s.content x k).inodeSector := by
  refine .seq (h.lookup_spec hmem hopen pos name) ?_
  rintro r t ⟨ht, rfl⟩
  rw [ht]
  cases findSlot s.content x cnt name with
  | none => exact .pure ⟨rfl, rfl⟩
  | some k =>
    refine .seq (inodeOpen_spec hmem) ?_
    rintro r u ⟨hu, inode, rfl, hsector⟩
    exact .pure ⟨hu, inode, rfl, hsector⟩

theorem freeSlotLoop_spec (hinode : inode.sector = x) (n : ℕ) : ∀ k fuel e, k + n = cnt → n < fuel →
    Spec E (freeSlotLoop inode fuel ((24 * k : ℕ) : ℤ) e) s fun r t => t = s ∧
      match (List.range' k n).find? fun j => (slotAt s.content x j).key = none with
      | none => r.2 = ((24 * cnt : ℕ) : ℤ)
      | some j => r = (slotAt s.content x j, ((24 * j : ℕ) : ℤ)) := by
  induction n with
  | zero =>
    intro k fuel e hk hfuel
    obtain _ | fuel := fuel
    · omega
    obtain rfl : k = cnt := by omega
    refine .seq (h.toSlots.readEnd hinode) ?_
    rintro bytes t ⟨ht, rfl⟩
    exact .pure ⟨ht, rfl⟩
  | succ n ih =>
    intro k fuel e hk hfuel
    obtain _ | fuel := fuel
    · omega
    refine .seq (h.toSlots.read hmem hinode (show k < cnt by omega)) ?_
    rintro bytes t ⟨ht, rfl⟩
    rw [ht]
    rw [if_neg (by rw [length_fileBytes]; exact not_not.mpr rfl), DirEntry.overwrite,
      decode_fileBytes]
    have hrest := ih (k + 1) fuel (slotAt s.content x k) (by omega) (by omega)
    rw [range'_succ]
    cases huse : (slotAt s.content x k).inUse with
    | false =>
      rw [find?_cons_of_pos (by simp [DirEntry.key, huse])]
      exact .pure ⟨rfl, rfl⟩
    | true =>
      rwa [find?_cons_of_neg (by simp [DirEntry.key, huse])]

end Directory

/-! ## Writing a slot -/

/-- Slot `k` of the directory has become `e`; nothing else has changed but bytes of the
directory behind its last slot. -/
structure SlotWritten (c c' : BlockSector → Sector) (x : BlockSector) (cnt k : ℕ) (e : DirEntry) :
    Prop where
  frame : ∀ y, ¬ DataOf c x (blockCount (inodeAt c x).length) y → c' y = c y
  slots : SlotTable.Updated (slotAt c x) (slotAt c' x) cnt k e

namespace Directory

variable (h : Directory s x cnt)
include h

theorem writeSlot (hmem : s.MemAvailable) (hinode : inode.sector = x)
    (hdeny : inode.denyWriteCnt = 0) (hk : k < cnt) (e : DirEntry) :
    Spec E (inodeWriteAt inode e.encode dirEntrySize ((24 * k : ℕ) : ℤ)) s fun r t =>
      r = dirEntrySize ∧ ∃ c, t = { s with content := c } ∧ SlotWritten s.content c x cnt k e := by
  subst hinode
  have hlength := h.length
  refine (@Stored.inodeWriteAt_spec _ _ 24 E inode _ h.stored hdeny
    (by rw [hlength]; omega)).post ?_
  rintro r t ⟨c, heap, rfl, hheap, hresult⟩
  rw [hheap (.inl hmem)]
  rcases hresult with ⟨rfl, hframe, hbytes⟩ | ⟨-, -, -, hnomem⟩
  · refine ⟨rfl, c, rfl, fun y hy => hframe y fun j hj heq => hy ⟨j, hj, heq⟩, fun j hj => ?_⟩
    have hbyte : ∀ i < 24, fileByte c inode.sector (24 * j + i) =
        if 24 * k ≤ 24 * j + i ∧ 24 * j + i < 24 * k + 24 then e.encode (0 + (24 * j + i - 24 * k))
        else fileByte s.content inode.sector (24 * j + i) := by
      intro i hi
      apply hbytes
      unfold blockCount
      omega
    by_cases hjk : j = k
    · subst hjk
      rw [if_pos rfl]
      refine Eq.trans (DirEntry.decode_congr fun i hi => ?_) e.decode_encode
      rw [hbyte i hi, if_pos (by omega)]
      congr 1
      omega
    · rw [if_neg hjk]
      apply DirEntry.decode_congr
      intro i hi
      rw [hbyte i hi, if_neg (by omega)]
  · rw [hmem] at hnomem
    simp at hnomem

theorem written {c : BlockSector → Sector} {e : DirEntry}
    (hw : SlotWritten s.content c x cnt k e) (hterm : e.inUse = true → e.Terminated)
    (hdistinct : SlotTable.Distinct DirEntry.key (slotAt c x) cnt) :
    Directory { s with content := c } x cnt := by
  have hsame : SameMap s.content c x (blockCount (inodeAt s.content x).length) :=
    h.stored.mapped.sameMap fun y hy => hw.frame y fun ⟨j, hj, heq⟩ => hy j hj heq
  refine ⟨⟨h.stored.of_sameMap rfl hsame, ?_, fun j hj huse => ?_⟩, hdistinct⟩
  · rw [hsame.inodeAt]
    exact h.length
  rw [hw.slots j hj] at huse ⊢
  split at huse
  next heq =>
    rw [if_pos heq]
    exact hterm huse
  next hne =>
    rw [if_neg hne]
    exact h.terminated j hj huse

theorem of_owned (hsize : t.size = s.size)
    (hc : ∀ y, Owned s.content x (blockCount (inodeAt s.content x).length) y →
      t.content y = s.content y) :
    Directory t x cnt ∧ ∀ j < cnt, slotAt t.content x j = slotAt s.content x j := by
  have hsame : SameMap s.content t.content x (blockCount (inodeAt s.content x).length) :=
    ⟨hc x (.inl rfl), fun k hk y hy => hc y (.inr ⟨k, hk, .inl hy⟩)⟩
  have hslot : ∀ j < cnt, slotAt t.content x j = slotAt s.content x j := by
    intro j hj
    apply DirEntry.decode_congr
    intro i hi
    have hblock : (24 * j + i) / 512 < blockCount (inodeAt s.content x).length := by
      unfold blockCount
      rw [h.length]
      omega
    unfold fileByte
    rw [hsame.blockAt hblock, hc _ (.inr ⟨_, hblock, .inr rfl⟩)]
  refine ⟨⟨⟨h.stored.of_sameMap hsize hsame, ?_, fun j hj huse => ?_⟩, ?_⟩, hslot⟩
  · rw [hsame.inodeAt]
    exact h.length
  · rw [hslot j hj] at huse ⊢
    exact h.terminated j hj huse
  · intro i hi j hj heq hsome
    rw [hslot i hi, hslot j hj] at heq
    rw [hslot i hi] at hsome
    exact h.distinct i hi j hj heq hsome

theorem of_openInodes (l : List Inode) : Directory { s with openInodes := l } x cnt :=
  (h.of_owned (t := { s with openInodes := l }) rfl fun _ _ => rfl).1

/-! ## `dir_add` -/

section

variable (hmem : s.MemAvailable)
include hmem

theorem dirAdd_of_found (hopen : (findInode x s.openInodes).isSome)
    {pos : ℤ} {sector : BlockSector} {isDir : Bool}
    (hfound : (findSlot s.content x cnt name).isSome) :
    Spec E (dirAdd ⟨x, pos⟩ name sector isDir) s fun r t => t = s ∧ r = false := by
  refine .ite (fun _ => .pure ⟨rfl, rfl⟩) fun _ => ?_
  refine .seq (h.lookup_spec hmem hopen pos name) ?_
  rintro r t ⟨ht, rfl⟩
  rw [ht, if_pos (by simpa using hfound)]
  exact .pure ⟨rfl, rfl⟩

theorem dirAdd_of_free (hopen : findInode x s.openInodes = some inode)
    (hdeny : inode.denyWriteCnt = 0) {pos : ℤ} {sector : BlockSector} {isDir : Bool}
    (hnonempty : name.bytes ≠ []) (hshort : name.bytes.length ≤ nameMax)
    (habsent : findSlot s.content x cnt name = none) (hfree : freeSlot s.content x cnt = some k) :
    Spec E (dirAdd ⟨x, pos⟩ name sector isDir) s fun r t => r = true ∧
      ∃ c e, t = { s with content := c } ∧ SlotWritten s.content c x cnt k e ∧
        e.key = some name ∧ e.Terminated ∧ e.inodeSector = sector ∧ e.isDir = isDir := by
  have hisSome : (findInode x s.openInodes).isSome := by simp [hopen]
  unfold dirAdd
  rw [if_neg (by simp only [not_or, not_lt]; exact ⟨hnonempty, hshort⟩)]
  refine .seq (h.lookup_spec hmem hisSome pos name) ?_
  rintro r t ⟨ht, rfl⟩
  rw [ht, habsent]
  refine .seq (theInode_spec hisSome) ?_
  rintro inode' u ⟨hu, hsector, hinode'⟩
  rw [hopen] at hinode'
  cases hinode'
  rw [hu]
  have hlt := h.cnt_lt
  refine .seq (h.freeSlotLoop_spec hmem hsector cnt 0 _ _ (by omega) (by omega)) ?_
  rintro r v ⟨hv, hr⟩
  rw [← range_eq_range', show (range cnt).find? _ = some k from hfree] at hr
  rw [hv, hr]
  obtain ⟨hstring, hterm⟩ := (slotAt s.content x k).string_strlcpy hshort
  refine .seq (h.writeSlot hmem hsector hdeny (SlotTable.free_some hfree).1 _) ?_
  rintro r w ⟨rfl, c, rfl, hw⟩
  exact .pure ⟨beq_self_eq_true _, c, _, rfl, hw, congrArg some hstring, hterm, rfl, rfl⟩

/-! ## `dir_remove` -/

/-- The test for an empty directory succeeds: it looks at the directory that holds the
entry, which is not empty. -/
theorem checkEmpty_spec (hcounted : Counted s.openInodes)
    (hopen : (findInode x s.openInodes).isSome) (pos : ℤ) (hk : k < cnt)
    (huse : (slotAt s.content x k).inUse = true) :
    Spec E (checkEmpty ⟨x, pos⟩) s fun r t => t = s ∧ r = true := by
  refine .seq (dirReopen_spec hmem hopen) ?_
  rintro r t ⟨rfl, rfl⟩
  have hlt := h.cnt_lt
  apply Spec.bind
  apply Spec.bind
  apply Spec.bind
  refine (theInode_spec (isSome_opened (.inr rfl))).post ?_
  rintro inode t ⟨ht, hsector, -⟩
  rw [ht]
  refine .seq ((h.of_openInodes (opened s.openInodes x)).readdirLoop_spec
    (hmem.congr rfl) hsector cnt 0 _ (by omega) (by omega)) ?_
  rintro r t ⟨ht, rfl⟩
  rw [ht]
  apply Spec.pure
  -- the entry itself is in use
  obtain ⟨j, hj⟩ : ∃ j, nextSlot s.content x 0 cnt = some j := by
    refine Option.isSome_iff_exists.mp (find?_isSome.mpr ⟨k, ?_, huse⟩)
    rw [← range_eq_range']
    exact mem_range.mpr hk
  rw [hj]
  refine .seq (inodeClose_opened hcounted rfl) ?_
  rintro _ t rfl
  exact .pure ⟨rfl, rfl⟩

theorem dirRemove_of_absent (hopen : (findInode x s.openInodes).isSome)
    (pos : ℤ) (habsent : findSlot s.content x cnt name = none) :
    Spec E (dirRemove ⟨x, pos⟩ name) s fun r t => t = s ∧ r = false := by
  refine .seq (h.lookup_spec hmem hopen pos name) ?_
  rintro r t ⟨ht, rfl⟩
  rw [habsent]
  exact .pure ⟨ht, rfl⟩

/-- `dir_remove` up to the point where the entry has been cleared: the inode of the entry is
open once more. -/
theorem dirRemove_of_found (hcounted : Counted s.openInodes)
    (hopen : findInode x s.openInodes = some inode) (hdeny : inode.denyWriteCnt = 0) {pos : ℤ}
    (hfound : findSlot s.content x cnt name = some k) {Q : Bool → FileSys → Prop}
    (hQ : ∀ c, SlotWritten s.content c x cnt k { slotAt s.content x k with inUse := false } →
      Spec E (do
        inodeRemove (slotAt s.content x k).inodeSector
        inodeClose (slotAt s.content x k).inodeSector
        return true) { s with
          content := c
          openInodes := opened s.openInodes (slotAt s.content x k).inodeSector } Q) :
    Spec E (dirRemove ⟨x, pos⟩ name) s Q := by
  have hisSome : (findInode x s.openInodes).isSome := by simp [hopen]
  obtain ⟨hk, hkey⟩ := SlotTable.find_some hfound
  have huse : (slotAt s.content x k).inUse = true := (inUse_iff_key _).mpr (by simp [hkey])
  refine .seq (h.lookup_spec hmem hisSome pos name) ?_
  rintro r t ⟨ht, rfl⟩
  rw [ht, hfound]
  refine .seq (inodeOpen_spec hmem) ?_
  rintro r u ⟨hu, target, rfl, hsector⟩
  rw [hu]
  have hdir := h.of_openInodes (opened s.openInodes (slotAt s.content x k).inodeSector)
  -- the entry is cleared, whatever it names
  have hclear : Spec E (do
      let inode ← theInode x
      let written ← inodeWriteAt inode
        ({ slotAt s.content x k with inUse := false } : DirEntry).encode dirEntrySize
        ((24 * k : ℕ) : ℤ)
      if written ≠ dirEntrySize then
        inodeClose target.sector
        return false
      inodeRemove target.sector
      inodeClose target.sector
      return true) { s with
        openInodes := opened s.openInodes (slotAt s.content x k).inodeSector } Q := by
    obtain ⟨inode', hopen', hdeny'⟩ := findInode_opened_of_some hopen
      (slotAt s.content x k).inodeSector
    refine .seq (theInode_spec (by rw [hopen']; rfl)) ?_
    rintro i u ⟨hu, hi, hfind⟩
    rw [hopen'] at hfind
    cases hfind
    rw [hu]
    refine .seq (hdir.writeSlot (hmem.congr rfl) hi (hdeny'.trans hdeny) hk _) ?_
    rintro r v ⟨rfl, c, rfl, hw⟩
    rw [hsector]
    exact hQ c hw
  refine .ite (fun _ => ?_) fun _ => hclear
  refine .seq (hdir.checkEmpty_spec (hmem.congr rfl) (hcounted.opened _)
    (isSome_opened (.inl hisSome)) pos hk huse) ?_
  rintro r v ⟨hv, rfl⟩
  rwa [hv]

end

end Directory

end CS162
