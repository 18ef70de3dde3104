import CS162.Filesys.Directory

/-!
# The table of open inodes

`inode_open`, `inode_reopen` and `inode_close` keep the number of openers of each inode.
A call that opens an inode and closes it again leaves the table as it was, also if other
inodes have been opened in between (`closed_opened`, `closed_opened_opened`).  So a walk
along a path, which always opens the next directory before it closes the last one, can be
described by the table it started from and the directory it has reached.
-/

namespace CS162

open Library FileSys List

variable {s : FileSys} {x y z : BlockSector} {l : List Inode} {E : Fault → Prop}

/-! ## Changing one inode -/

variable {f : Inode → Inode} {i : Inode}

/-- A change to the open inode in sector `x`. -/
def atSector (x : BlockSector) (f : Inode → Inode) (i : Inode) : Inode :=
  if i.sector = x then f i else i

theorem sector_of_findInode (h : findInode x l = some i) : i.sector = x := by
  simpa using find?_some h

section

variable (hf : ∀ i, (f i).sector = i.sector)
include hf

theorem sector_atSector (i : Inode) : (atSector x f i).sector = i.sector := by
  unfold atSector
  split
  · exact hf i
  · rfl

theorem findInode_map : findInode z (l.map f) = (findInode z l).map f := by
  unfold findInode
  rw [find?_map]
  congr 2
  funext i
  simp [hf i]

theorem map_sector_map : (l.map f).map Inode.sector = l.map Inode.sector := by
  rw [map_map]
  exact congrArg (map · l) (funext hf)

theorem findInode_atSector (h : findInode x l = some i) :
    findInode x (l.map (atSector x f)) = some (f i) := by
  rw [findInode_map (sector_atSector hf), h, Option.map_some, atSector,
    if_pos (sector_of_findInode h)]

theorem findInode_atSector_of_ne (h : z ≠ x) :
    findInode z (l.map (atSector x f)) = findInode z l := by
  rw [findInode_map (sector_atSector hf)]
  cases hz : findInode z l with
  | none => rfl
  | some j => rw [Option.map_some, atSector, if_neg (by rwa [sector_of_findInode hz])]

end

/-! ## Counting openers -/

/-- The number of openers of the inode in sector `x` changes. -/
def bump (x : BlockSector) (d : ℤ) : Inode → Inode :=
  atSector x fun i => { i with openCnt := i.openCnt + d }

@[simp] theorem sector_bump (x : BlockSector) (d : ℤ) (i : Inode) :
    (bump x d i).sector = i.sector := by
  apply sector_atSector
  exact fun _ => rfl

theorem bump_of_ne {d : ℤ} (h : i.sector ≠ x) : bump x d i = i := if_neg h

theorem bump_self (d : ℤ) (i : Inode) :
    bump i.sector d i = { i with openCnt := i.openCnt + d } := if_pos rfl

theorem bump_bump (d : ℤ) (i : Inode) : bump x (-d) (bump x d i) = i := by
  by_cases h : i.sector = x
  · subst h
    rw [bump_self, bump, atSector]
    simp
  · rw [bump_of_ne h, bump_of_ne h]

theorem bump_comm (h : x ≠ y) (d e : ℤ) (i : Inode) :
    bump x d (bump y e i) = bump y e (bump x d i) := by
  by_cases hy : i.sector = y
  · have hx : i.sector ≠ x := fun hx => h (hx.symm.trans hy)
    rw [bump_of_ne hx, bump_of_ne (by rwa [sector_bump])]
  · rw [bump_of_ne hy, bump_of_ne (x := y) (by rwa [sector_bump])]

theorem findInode_bump (d : ℤ) (h : findInode x l = some i) :
    findInode x (l.map (bump x d)) = some { i with openCnt := i.openCnt + d } :=
  findInode_atSector (fun _ => rfl) h

theorem findInode_bump_of_ne {d : ℤ} (h : z ≠ x) : findInode z (l.map (bump x d)) = findInode z l :=
  findInode_atSector_of_ne (fun _ => rfl) h

theorem map_bump_bump (l : List Inode) : (l.map (bump x 1)).map (bump x (-1)) = l := by
  rw [map_map]
  exact (map_congr_left fun j _ => bump_bump 1 j).trans (map_id l)

/-! ## Opening and closing -/

/-- One more opener of the inode in sector `x`. -/
def opened (l : List Inode) (x : BlockSector) : List Inode :=
  if (findInode x l).isSome then l.map (bump x 1) else ⟨x, 1, false, 0⟩ :: l

/-- One opener less of the inode in sector `x`. -/
def closed (l : List Inode) (x : BlockSector) : List Inode :=
  if ∃ inode ∈ findInode x l, inode.openCnt - 1 = 0 then l.filter fun i => i.sector ≠ x
  else l.map (bump x (-1))

/-- Every open inode has an opener. -/
def Counted (l : List Inode) : Prop := ∀ i ∈ l, 1 ≤ i.openCnt

theorem opened_of_some (h : findInode x l = some i) : opened l x = l.map (bump x 1) := by
  rw [opened, h]
  rfl

theorem opened_of_none (h : findInode x l = none) : opened l x = ⟨x, 1, false, 0⟩ :: l := by
  rw [opened, h]
  rfl

theorem findInode_opened_of_ne (h : z ≠ x) : findInode z (opened l x) = findInode z l := by
  cases hopen : findInode x l with
  | none =>
    rw [opened_of_none hopen, findInode, find?_cons_of_neg (by simpa using h.symm)]
    rfl
  | some i =>
    rw [opened_of_some hopen, findInode_bump_of_ne h]

theorem findInode_opened (l : List Inode) (x : BlockSector) :
    findInode x (opened l x) = some (match findInode x l with
      | none => ⟨x, 1, false, 0⟩
      | some i => { i with openCnt := i.openCnt + 1 }) := by
  cases hopen : findInode x l with
  | none =>
    rw [opened_of_none hopen, findInode, find?_cons_of_pos (by simp)]
  | some i =>
    rw [opened_of_some hopen, findInode_bump 1 hopen]

/-- Opening another inode, or the same one again, leaves the count of deniers. -/
theorem findInode_opened_of_some (h : findInode z l = some i) (x : BlockSector) :
    ∃ j, findInode z (opened l x) = some j ∧ j.denyWriteCnt = i.denyWriteCnt := by
  by_cases hz : z = x
  · subst hz
    refine ⟨_, findInode_opened l z, ?_⟩
    rw [h]
  · exact ⟨i, (findInode_opened_of_ne hz).trans h, rfl⟩

theorem isSome_opened (h : (findInode z l).isSome ∨ z = x) : (findInode z (opened l x)).isSome := by
  by_cases hz : z = x
  · rw [hz, findInode_opened]
    rfl
  · rw [findInode_opened_of_ne hz]
    exact h.resolve_right hz

theorem Counted.opened (h : Counted l) (x : BlockSector) : Counted (opened l x) := by
  have hbump : ∀ i ∈ l, 1 ≤ (bump x 1 i).openCnt := by
    intro i hi
    have := h i hi
    unfold bump atSector
    split
    · show 1 ≤ i.openCnt + 1
      omega
    · exact this
  cases hopen : findInode x l with
  | none =>
    rw [opened_of_none hopen]
    exact forall_mem_cons.mpr ⟨le_refl _, h⟩
  | some j =>
    rw [opened_of_some hopen]
    exact forall_mem_map.mpr hbump

theorem closed_of_more (h : findInode x l = some i) (hmore : 1 < i.openCnt) :
    closed l x = l.map (bump x (-1)) := by
  rw [closed, if_neg]
  rintro ⟨j, hj, hlast⟩
  rw [h] at hj
  cases hj
  omega

theorem closed_of_last (h : findInode x l = some i) (hlast : i.openCnt = 1) :
    closed l x = l.filter fun i => i.sector ≠ x := by
  rw [closed, if_pos ⟨i, h, by omega⟩]

theorem findInode_closed_of_ne (h : z ≠ x) : findInode z (closed l x) = findInode z l := by
  unfold closed
  split
  · unfold findInode
    rw [find?_filter]
    refine congrArg (fun p => find? p l) (funext fun i => ?_)
    by_cases hi : i.sector = z
    · simp [hi, h]
    · simp [hi]
  · exact findInode_bump_of_ne h

/-- The inode in sector `x` is open and has at least `n` openers. -/
def HasOpeners (l : List Inode) (x : BlockSector) (n : ℤ) : Prop :=
  ∃ i, findInode x l = some i ∧ n ≤ i.openCnt

variable {n : ℤ}

theorem HasOpeners.isSome (h : HasOpeners l x n) : (findInode x l).isSome := by
  obtain ⟨i, hi, -⟩ := h
  rw [hi]
  rfl

theorem HasOpeners.mono {m : ℤ} (h : HasOpeners l x n) (hle : m ≤ n) : HasOpeners l x m := by
  obtain ⟨i, hi, hn⟩ := h
  exact ⟨i, hi, hle.trans hn⟩

theorem HasOpeners.opened_self (h : HasOpeners l x n) : HasOpeners (opened l x) x (n + 1) := by
  obtain ⟨i, hi, hn⟩ := h
  refine ⟨{ i with openCnt := i.openCnt + 1 }, by rw [findInode_opened, hi], ?_⟩
  show n + 1 ≤ i.openCnt + 1
  omega

theorem HasOpeners.opened (h : HasOpeners l x n) (y : BlockSector) :
    HasOpeners (opened l y) x n := by
  by_cases hxy : x = y
  · subst hxy
    exact h.opened_self.mono (by omega)
  · obtain ⟨i, hi, hn⟩ := h
    exact ⟨i, (findInode_opened_of_ne hxy).trans hi, hn⟩

theorem Counted.hasOpeners (h : Counted l) (hopen : (findInode x l).isSome) : HasOpeners l x 1 := by
  obtain ⟨i, hi⟩ := Option.isSome_iff_exists.mp hopen
  exact ⟨i, hi, h i (mem_of_find?_eq_some hi)⟩

theorem HasOpeners.closed_of_ne (h : HasOpeners l x n) (hne : x ≠ y) :
    HasOpeners (closed l y) x n := by
  obtain ⟨i, hi, hn⟩ := h
  exact ⟨i, (findInode_closed_of_ne hne).trans hi, hn⟩

theorem HasOpeners.closed_self (h : HasOpeners l x (n + 1)) (hn : 1 ≤ n) :
    HasOpeners (closed l x) x n := by
  obtain ⟨i, hi, hle⟩ := h
  refine ⟨_, (closed_of_more hi (by omega) ▸ findInode_bump (-1) hi), ?_⟩
  show n ≤ i.openCnt + -1
  omega

theorem filter_of_none (h : findInode x l = none) : l.filter (fun i => i.sector ≠ x) = l := by
  apply filter_eq_self.mpr
  intro i hi
  simpa using find?_eq_none.mp h i hi

theorem Counted.of_some (h : Counted l) (hi : findInode x l = some i) :
    1 ≤ i.openCnt := h i (mem_of_find?_eq_some hi)

theorem closed_opened (h : Counted l) (x : BlockSector) : closed (opened l x) x = l := by
  have hfind := findInode_opened l x
  cases hopen : findInode x l with
  | none =>
    rw [hopen] at hfind
    rw [closed_of_last hfind rfl, opened_of_none hopen, filter_cons_of_neg (by simp)]
    exact filter_of_none hopen
  | some i =>
    have hpos := h.of_some hopen
    rw [hopen] at hfind
    rw [closed_of_more hfind (by show 1 < i.openCnt + 1; omega), opened_of_some hopen,
      map_bump_bump]

theorem closed_opened_opened (h : Counted l) (x y : BlockSector) :
    closed (opened (opened l x) y) x = opened l y := by
  by_cases hxy : y = x
  · rw [hxy]
    exact closed_opened (h.opened x) x
  have hfind : findInode x (opened (opened l x) y) = findInode x (opened l x) :=
    findInode_opened_of_ne (Ne.symm hxy)
  have hfindy : findInode y (opened l x) = findInode y l := findInode_opened_of_ne hxy
  rw [findInode_opened] at hfind
  cases hopen : findInode x l with
  | none =>
    -- the first inode is closed by its only opener
    rw [hopen] at hfind
    rw [closed_of_last hfind rfl]
    cases hy : findInode y l with
    | none =>
      rw [opened_of_none (hfindy.trans hy), opened_of_none hy, opened_of_none hopen,
        filter_cons_of_pos (by simpa using hxy), filter_cons_of_neg (by simp),
        filter_of_none hopen]
    | some j =>
      have hnone : findInode x (l.map (bump y 1)) = none := by
        rw [findInode_map (sector_bump _ _), hopen]
        rfl
      rw [opened_of_some (hfindy.trans hy), opened_of_some hy, opened_of_none hopen,
        map_cons, filter_cons_of_neg (by simp), filter_of_none hnone]
  | some i =>
    -- it had an opener before
    have hpos := h.of_some hopen
    rw [hopen] at hfind
    rw [closed_of_more hfind (by show 1 < i.openCnt + 1; omega)]
    cases hy : findInode y l with
    | none =>
      rw [opened_of_none (hfindy.trans hy), opened_of_none hy, opened_of_some hopen,
        map_cons, bump_of_ne (i := ⟨y, 1, false, 0⟩) hxy, map_bump_bump]
    | some j =>
      have hcomm : bump x (-1) ∘ bump y 1 = bump y 1 ∘ bump x (-1) :=
        funext fun k => bump_comm (Ne.symm hxy) (-1) 1 k
      rw [opened_of_some (hfindy.trans hy), opened_of_some hy, opened_of_some hopen,
        map_map, hcomm, ← map_map, map_bump_bump]

/-! ## Removed inodes -/

def markRemoved (x : BlockSector) : Inode → Inode := atSector x fun i => { i with removed := true }

@[simp] theorem sector_markRemoved (x : BlockSector) (i : Inode) :
    (markRemoved x i).sector = i.sector := by
  apply sector_atSector
  exact fun _ => rfl

@[simp] theorem openCnt_markRemoved (x : BlockSector) (i : Inode) :
    (markRemoved x i).openCnt = i.openCnt := by
  unfold markRemoved atSector
  split <;> rfl

@[simp] theorem denyWriteCnt_markRemoved (x : BlockSector) (i : Inode) :
    (markRemoved x i).denyWriteCnt = i.denyWriteCnt := by
  unfold markRemoved atSector
  split <;> rfl

theorem Counted.markRemoved (h : Counted l) (x : BlockSector) :
    Counted (l.map (markRemoved x)) := by
  intro i hi
  obtain ⟨j, hj, rfl⟩ := mem_map.mp hi
  rw [openCnt_markRemoved]
  exact h j hj

theorem map_markRemoved_of_none (h : findInode x l = none) : l.map (markRemoved x) = l := by
  refine (map_congr_left fun i hi => ?_).trans (map_id l)
  have hne : i.sector ≠ x := by simpa using find?_eq_none.mp h i hi
  exact if_neg hne

theorem bump_markRemoved (i : Inode) :
    bump x (-1) (markRemoved x (bump x 1 i)) = markRemoved x i := by
  by_cases h : i.sector = x
  · subst h
    simp [bump, markRemoved, atSector]
  · simp [bump, atSector, h]

theorem closed_markRemoved_opened (h : Counted l) (hi : findInode x l = some i) :
    closed ((opened l x).map (markRemoved x)) x = l.map (markRemoved x) := by
  have hpos := h.of_some hi
  have hfind : findInode x ((opened l x).map (markRemoved x)) =
      some (markRemoved x { i with openCnt := i.openCnt + 1 }) := by
    rw [findInode_map (sector_markRemoved x), findInode_opened, hi]
    rfl
  have hmore : 1 < (markRemoved x { i with openCnt := i.openCnt + 1 }).openCnt := by
    rw [openCnt_markRemoved]
    show 1 < i.openCnt + 1
    omega
  rw [closed_of_more hfind hmore, opened_of_some hi, map_map, map_map]
  exact map_congr_left fun j _ => bump_markRemoved j

/-! ## The calls -/

/-- `inode_open` takes a new reference, or there is no memory. -/
theorem inodeOpen_cases : Spec E (inodeOpen x) s fun r t =>
    ∃ heap, (s.MemAvailable → heap = s.heap ∧ r ≠ none) ∧
      ((r = none ∧ t = { s with heap := heap }) ∨
        ∃ inode, r = some inode ∧ inode.sector = x ∧
          t = { s with openInodes := opened s.openInodes x, heap := heap }) := by
  apply Spec.get_bind
  refine .ite (fun hopen => ?_) fun hclosed => ?_
  · obtain ⟨i, hi⟩ := Option.isSome_iff_exists.mp hopen
    apply Spec.modify_bind
    apply Spec.get_bind
    apply Spec.pure
    have hfind := findInode_bump 1 hi
    refine ⟨s.heap, fun _ => ⟨rfl, fun hnone => nomatch hfind.symm.trans hnone⟩,
      .inr ⟨_, hfind, (sector_of_findInode hi :), ?_⟩⟩
    rw [opened_of_some hi]
    rfl
  · apply Spec.bind
    apply malloc_spec
    refine .ite (fun _ => ?_) fun hfull => .pure ⟨_, fun hmem => ?_, .inl ⟨rfl, rfl⟩⟩
    · apply Spec.modify_bind
      apply Spec.pure
      refine ⟨fun n => s.heap (n + 1), fun hmem => ⟨by rw [hmem], by simp⟩, .inr ⟨_, rfl, rfl, ?_⟩⟩
      rw [opened_of_none (by simpa using hclosed)]
    · rw [hmem] at hfull
      exact absurd rfl hfull

theorem inodeOpen_spec (hmem : s.MemAvailable) :
    Spec E (inodeOpen x) s fun r t => t = { s with openInodes := opened s.openInodes x } ∧
      ∃ inode, r = some inode ∧ inode.sector = x := by
  refine inodeOpen_cases.post ?_
  rintro r t ⟨heap, hheap, ⟨rfl, -⟩ | ⟨inode, rfl, hsector, rfl⟩⟩
  · exact absurd rfl (hheap hmem).2
  · exact ⟨by rw [(hheap hmem).1], inode, rfl, hsector⟩

theorem inodeReopen_spec (hi : findInode x s.openInodes = some i) :
    Spec E (inodeReopen x) s fun r t => t = { s with openInodes := opened s.openInodes x } ∧
      r = some { i with openCnt := i.openCnt + 1 } := by
  apply Spec.modify_bind
  apply Spec.get_bind
  apply Spec.pure
  exact ⟨by rw [opened_of_some hi]; rfl, findInode_bump 1 hi⟩

theorem dirOpen_spec (hmem : s.MemAvailable) (inode : Inode) :
    Spec E (dirOpen (some inode)) s fun r t => t = s ∧ r = some ⟨inode.sector, 0⟩ := by
  apply Spec.bind
  apply malloc_of_memAvailable hmem
  exact .pure ⟨rfl, rfl⟩

theorem dirOpenRoot_spec (hmem : s.MemAvailable) : Spec E dirOpenRoot s fun r t =>
      t = { s with openInodes := opened s.openInodes rootDirSector } ∧
        r = some ⟨rootDirSector, 0⟩ := by
  refine .seq (inodeOpen_spec hmem) ?_
  rintro r t ⟨rfl, inode, rfl, hsector⟩
  refine .post (dirOpen_spec ?_ inode) ?_
  · exact hmem.congr rfl
  · rintro r t ⟨rfl, rfl⟩
    exact ⟨rfl, by rw [hsector]⟩

theorem dirReopen_spec (hmem : s.MemAvailable) {dir : Dir}
    (hopen : (findInode dir.inode s.openInodes).isSome) :
    Spec E (dirReopen dir) s fun r t =>
      t = { s with openInodes := opened s.openInodes dir.inode } ∧ r = some ⟨dir.inode, 0⟩ := by
  obtain ⟨i, hi⟩ := Option.isSome_iff_exists.mp hopen
  refine .seq (inodeReopen_spec hi) ?_
  rintro _ t ⟨rfl, rfl⟩
  refine .post (dirOpen_spec ?_ _) ?_
  · exact hmem.congr rfl
  · rintro r t ⟨rfl, rfl⟩
    exact ⟨rfl, by rw [← sector_of_findInode hi]⟩

theorem inodeClose_spec (hi : findInode x s.openInodes = some i)
    (hkeep : i.openCnt = 1 → i.removed = false) :
    Spec E (inodeClose x) s fun _ t => t = { s with openInodes := closed s.openInodes x } := by
  apply Spec.get_bind
  rw [hi]
  refine .ite (fun hlast => ?_) fun hmore => ?_
  · apply Spec.modify_bind
    rw [if_neg (by simp [hkeep (by omega)])]
    apply Spec.pure
    rw [closed_of_last hi (by omega)]
  apply Spec.modify
  rw [closed, if_neg]
  · rfl
  · rintro ⟨j, hj, hlast⟩
    rw [hi] at hj
    cases hj
    exact hmore hlast

theorem inodeClose_shared (h : HasOpeners s.openInodes x 2) :
    Spec E (inodeClose x) s fun _ t => t = { s with openInodes := closed s.openInodes x } := by
  obtain ⟨i, hi, hn⟩ := h
  exact inodeClose_spec hi fun hone => by omega

/-- An inode that has just been opened does not go when it is closed. -/
theorem exists_opened (h : Counted l) (x : BlockSector) :
    ∃ i, findInode x (opened l x) = some i ∧ (i.openCnt = 1 → i.removed = false) := by
  refine ⟨_, findInode_opened l x, ?_⟩
  cases hopen : findInode x l with
  | none => exact fun _ => rfl
  | some i =>
    intro hone
    have hpos := h.of_some hopen
    have : i.openCnt + 1 = 1 := hone
    omega

theorem inodeClose_opened (h : Counted l) (hs : s.openInodes = opened l x) :
    Spec E (inodeClose x) s fun _ t => t = { s with openInodes := l } := by
  obtain ⟨i, hi, hkeep⟩ := exists_opened h x
  refine (inodeClose_spec (hs ▸ hi) hkeep).post ?_
  rintro _ t rfl
  rw [hs, closed_opened h]

/-- The first of two inodes that have been opened is closed. -/
theorem inodeClose_opened_opened (h : Counted l) (hs : s.openInodes = opened (opened l x) y) :
    Spec E (inodeClose x) s fun _ t => t = { s with openInodes := opened l y } := by
  obtain ⟨i, hi, hkeep⟩ : ∃ i, findInode x (opened (opened l x) y) = some i ∧
      (i.openCnt = 1 → i.removed = false) := by
    by_cases hxy : x = y
    · subst hxy
      exact exists_opened (h.opened x) x
    · rw [findInode_opened_of_ne hxy]
      exact exists_opened h x
  refine (inodeClose_spec (hs ▸ hi) hkeep).post ?_
  rintro _ t rfl
  rw [hs, closed_opened_opened h]

end CS162
