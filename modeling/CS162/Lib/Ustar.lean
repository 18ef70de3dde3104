import Mathlib.Data.List.GetD
import CS162.Library.Fields
import CS162.Filesys.Directory

/-!
# Archive headers

A model of `lib/ustar.c`: the 512-byte header of a file in a ustar archive, as
`ustar_make_header` composes it and `ustar_parse_header` takes it apart.

## Strategy

The header is a packed record, so it is enough to know what the last write to each field
was.  The numbers are octal numerals of as many digits as their field has room for:
`parseOctalFrom_digits` follows `parse_octal_field` along such a numeral.  The checksum does
not depend on the field it is stored in (`calculateChksum_write`) and is small enough for
seven digits (`calculateChksum_lt`).  Stripping a name a second time changes nothing, since
the loop stops only at a name without a prefix to strip (`not_antisocial_stripLoop`).
-/

namespace CS162.Ustar

open Library List

/-! ## The record -/

/-- `USTAR_HEADER_SIZE`, the size of a sector. -/
abbrev headerSize : ℕ := blockSectorSize

namespace Header

/-- `char name[100]`: the file name. -/
def name : Field := ⟨0, 100⟩
/-- `char mode[8]`: permissions. -/
def mode : Field := ⟨100, 8⟩
/-- `char uid[8]`. -/
def uid : Field := ⟨108, 8⟩
/-- `char gid[8]`. -/
def gid : Field := ⟨116, 8⟩
/-- `char size[12]`: the file size in bytes. -/
def size : Field := ⟨124, 12⟩
/-- `char mtime[12]`: the modification time. -/
def mtime : Field := ⟨136, 12⟩
/-- `char chksum[8]`: the sum of the bytes of the header. -/
def chksum : Field := ⟨148, 8⟩
/-- `char typeflag`. -/
def typeflag : Field := ⟨156, 1⟩
/-- `char magic[6]`. -/
def magic : Field := ⟨257, 6⟩
/-- `char version[2]`. -/
def version : Field := ⟨263, 2⟩
/-- `char uname[32]`. -/
def uname : Field := ⟨265, 32⟩
/-- `char gname[32]`. -/
def gname : Field := ⟨297, 32⟩
/-- `char prefix[155]`: a prefix to the file name. -/
def namePrefix : Field := ⟨345, 155⟩

end Header

open Header

/-- `enum ustar_type`. -/
inductive UstarType where
  | regular
  | directory
  | eof
  deriving DecidableEq, Repr

/-- The byte that appears in the header. -/
def UstarType.byte : UstarType → UInt8
  | .regular => 48
  | .directory => 53
  | .eof => 255

/-- `snprintf (s, size, "%0<width>o", value)`. -/
def snprintfOctal (size width value : ℕ) : Bytes :=
  terminated size ((numeral 8 width value).map fun d => UInt8.ofNat (48 + d))

/-- `calculate_chksum`: the sum of all bytes, as if the chksum field were all spaces. -/
def calculateChksum (h : Sector) : UInt32 :=
  (List.range headerSize).foldl (fun sum i =>
    sum + if chksum.offset ≤ i ∧ i < chksum.offset + chksum.size then 32
      else (entry h i).toUInt32) 0

/-! ## Names -/

/-- The condition of the loop in `strip_antisocial_prefixes`: the name starts with `/`, `./`
or `../`. -/
def antisocial (fileName : Bytes) : Bool :=
  fileName.head? == some 47 || [46, 47].isPrefixOf fileName || [46, 46, 47].isPrefixOf fileName

/-- The loop itself; `strchr` finds the next slash.  Each round shortens the name. -/
def stripLoop : ℕ → Bytes → Bytes
  | 0, fileName => fileName
  | fuel + 1, fileName =>
    if antisocial fileName then stripLoop fuel (fileName.dropWhile (· ≠ 47)).tail else fileName

theorem stripLoop_suffix (fuel : ℕ) (fileName : Bytes) : stripLoop fuel fileName <:+ fileName := by
  induction fuel generalizing fileName with
  | zero => exact suffix_refl _
  | succ fuel ih =>
    unfold stripLoop
    split
    · exact (ih _).trans ((tail_suffix _).trans (dropWhile_suffix _))
    · exact suffix_refl _

def stripAntisocialPrefixes (fileName : CString) : CString :=
  let rest := stripLoop fileName.bytes.length fileName.bytes
  if rest = [] ∨ rest = [46, 46] then dot
  else ⟨rest, fun h => fileName.nonzero ((stripLoop_suffix _ _).subset h)⟩

/-! ## Making a header -/

/-- What `ustar_make_header` returns. -/
inductive MadeHeader where
  /-- False; it has printed `%s: file name too long`, with this name. -/
  | tooLong (fileName : CString)
  /-- True; this is the header. -/
  | made (header : Sector)

/-- What the fields are filled with, except for the final checksum. -/
def fieldValues (fileName : CString) (type : UstarType) (fileSize : ℤ) : List (Field × Bytes) :=
  [(name, terminated name.size fileName.bytes),
    (mode, snprintfOctal mode.size 7 (if type = .regular then 0o644 else 0o755)),
    (uid, terminated uid.size [48, 48, 48, 48, 48, 48, 48]),
    (gid, terminated gid.size [48, 48, 48, 48, 48, 48, 48]),
    (size, snprintfOctal size.size 11 (fileSize % 4294967296).toNat),
    (mtime, snprintfOctal size.size 11 1136102400),
    (typeflag, [type.byte]),
    (magic, terminated magic.size [117, 115, 116, 97, 114]),
    (version, [48, 48]),
    (gname, terminated gname.size [114, 111, 111, 116]),
    (uname, terminated uname.size [114, 111, 111, 116])]

/-- The header except for the final checksum; it starts as all zeros. -/
def fillHeader (fileName : CString) (type : UstarType) (fileSize : ℤ) : Sector :=
  Field.writeAll (fieldValues fileName type fileSize) fun _ => 0

def ustarMakeHeader (fileName : CString) (type : UstarType) (fileSize : ℤ) :
    Except Fault MadeHeader := do
  if ¬ (type = .regular ∨ type = .directory) then
    throw (.panic "type == USTAR_REGULAR || type == USTAR_DIRECTORY")
  let fileName := stripAntisocialPrefixes fileName
  if 99 < fileName.bytes.length then return .tooLong fileName
  let h := fillHeader fileName type fileSize
  return .made
    (chksum.write (snprintfOctal chksum.size 7 (calculateChksum h).toNat) h)

/-! ## Parsing a header -/

/-- The loop of `parse_octal_field`, `ofs` bytes into the field.  The test against
`ULONG_MAX / 8` keeps the value below `2 ^ 32`. -/
def parseOctalFrom : Bytes → ℕ → ℕ → Option ℕ
  | [], _, _ => none
  | c :: rest, ofs, value =>
    if 48 ≤ c ∧ c ≤ 55 then
      if 4294967295 / 8 < value then none
      else parseOctalFrom rest (ofs + 1) ((c.toNat - 48) + value * 8)
    else if c = 32 ∨ c = 0 then (if 0 < ofs then some value else none)
    else none

def parseOctalField (field : Bytes) : Option ℕ := parseOctalFrom field 0 0

/-- The archived file that a header describes. -/
structure Entry where
  /-- The null pointer at the end of the archive. -/
  fileName : Option CString
  type : UstarType
  size : ℤ
  deriving DecidableEq

/-- A NUL-terminated string in a field. -/
def fieldString (field : Bytes) : CString :=
  ⟨field.takeWhile (· ≠ 0), fun h => by simpa using mem_takeWhile_imp h⟩

/-- `ustar_parse_header`: the entry, or the error message. -/
def ustarParseHeader (h : Sector) : Except String Entry :=
  if ∀ i, h i = 0 then .ok ⟨none, .eof, 0⟩
  else if magic.read h ≠ [117, 115, 116, 97, 114, 0] then .error "not a ustar archive"
  else if version.read h ≠ [48, 48] then .error "invalid ustar version"
  else
    match parseOctalField (chksum.read h) with
    | none => .error "corrupt chksum field"
    | some sum =>
      if sum ≠ (calculateChksum h).toNat then .error "checksum mismatch"
      else if entry h 99 ≠ 0 ∨ entry h namePrefix.offset ≠ 0 then .error "file name too long"
      else if entry h typeflag.offset ≠ UstarType.regular.byte ∧
          entry h typeflag.offset ≠ UstarType.directory.byte then
        .error "unimplemented file type"
      else
        let fileName := stripAntisocialPrefixes (fieldString (name.read h))
        if entry h typeflag.offset = UstarType.regular.byte then
          match parseOctalField (size.read h) with
          | none => .error "corrupt file size field"
          | some fileSize =>
            if 2147483647 < fileSize then .error "file too large"
            else .ok ⟨some fileName, .regular, fileSize⟩
        else .ok ⟨some fileName, .directory, 0⟩

/-! ## Octal fields -/

theorem parseOctalFrom_digits {digits : List ℕ} (hdigits : ∀ d ∈ digits, d < 8) (tail : Bytes) :
    ∀ ofs value, digits.foldl (fun value d => value * 8 + d) value < 4294967296 →
      0 < ofs + digits.length →
      parseOctalFrom (digits.map (fun d => UInt8.ofNat (48 + d)) ++ 0 :: tail) ofs value =
        some (digits.foldl (fun value d => value * 8 + d) value) := by
  induction digits with
  | nil =>
    intro ofs value _ hofs
    rw [map_nil, nil_append, foldl_nil, parseOctalFrom, if_neg (by decide),
      if_pos (.inr rfl), if_pos (by simpa using hofs)]
  | cons d digits ih =>
    intro ofs value hvalue _
    have hd : d < 8 := hdigits d (by simp)
    have hc : (UInt8.ofNat (48 + d)).toNat = 48 + d := by
      rw [UInt8.toNat_ofNat', Nat.mod_eq_of_lt (by omega)]
    -- the value so far is at most an eighth of the final one
    have hle := le_foldl_horner (by decide : 0 < 8) digits (value * 8 + d)
    rw [foldl_cons] at hvalue ⊢
    rw [map_cons, cons_append, parseOctalFrom, if_pos, if_neg (by omega), hc,
      show 48 + d - 48 + value * 8 = value * 8 + d by omega]
    · exact ih (fun e he => hdigits e (by simp [he])) _ _ hvalue (by omega)
    · rw [UInt8.le_iff_toNat_le, UInt8.le_iff_toNat_le, hc]
      exact ⟨Nat.le_add_right _ _, by show 48 + d ≤ 55; omega⟩

theorem length_snprintfOctal {width value : ℕ} (hvalue : value < 8 ^ width) :
    (snprintfOctal (width + 1) width value).length = width + 1 := by
  have hlen := length_numeral (by decide : 1 < 8) hvalue
  rw [snprintfOctal, terminated_of_lt (by rw [length_map]; omega), length_append,
    length_map, hlen, length_singleton]

/-- What `snprintf` has written is what `parse_octal_field` reads. -/
theorem parseOctalField_snprintf {width value : ℕ} (hwidth : 0 < width) (hvalue : value < 8 ^ width)
    (hword : value < 4294967296) :
    parseOctalField (snprintfOctal (width + 1) width value) = some value := by
  have hlen := length_numeral (by decide : 1 < 8) hvalue
  rw [snprintfOctal, terminated_of_lt (by rw [length_map]; omega), parseOctalField,
    parseOctalFrom_digits (fun d (hd : d ∈ numeral 8 width value) =>
      Nat.lt_of_mem_digitsAppend (by decide) _ d (mem_reverse.mp hd)) [] _ _
      (by rwa [foldl_numeral]) (by omega), foldl_numeral]

/-! ## The checksum -/

theorem foldl_add_lt {l : List ℕ} {f : ℕ → UInt32} (hf : ∀ i ∈ l, (f i).toNat ≤ 255) (sum : UInt32)
    (hsum : sum.toNat + 255 * l.length < 4294967296) :
    (l.foldl (fun sum i => sum + f i) sum).toNat ≤ sum.toNat + 255 * l.length := by
  induction l generalizing sum with
  | nil => exact le_rfl
  | cons i l ih =>
    have hi := hf i (by simp)
    rw [length_cons] at hsum ⊢
    have hadd : (sum + f i).toNat = sum.toNat + (f i).toNat := by
      rw [UInt32.toNat_add, Nat.mod_eq_of_lt (by omega)]
    have := ih (fun j hj => hf j (by simp [hj])) (sum + f i) (by omega)
    rw [foldl_cons]
    omega

theorem calculateChksum_lt (h : Sector) : (calculateChksum h).toNat < 8 ^ 7 := by
  have hbyte : ∀ i ∈ range headerSize,
      (if chksum.offset ≤ i ∧ i < chksum.offset + chksum.size then 32
        else (entry h i).toUInt32 : UInt32).toNat ≤ 255 := by
    intro i _
    split
    · decide
    · rw [UInt8.toNat_toUInt32]
      exact Nat.le_of_lt_succ (entry h i).toNat_lt
  have hle := foldl_add_lt hbyte 0 (by rw [length_range]; decide)
  rw [length_range] at hle
  exact lt_of_le_of_lt hle (by decide)

/-- The checksum does not depend on what is stored in its own field. -/
theorem calculateChksum_write {bytes : Bytes} (hlen : bytes.length ≤ chksum.size)
    (h : Sector) :
    calculateChksum (chksum.write bytes h) = calculateChksum h := by
  refine foldl_ext _ _ _ fun sum i _ => ?_
  by_cases hi : chksum.offset ≤ i ∧ i < chksum.offset + chksum.size
  · rw [if_pos hi, if_pos hi]
  · rw [if_neg hi, if_neg hi, Field.entry_write_of_notMem hlen hi]

/-! ## Stripping names -/

theorem length_tail_dropWhile_lt {fileName : Bytes} (h : antisocial fileName = true) :
    (fileName.dropWhile (· ≠ 47)).tail.length < fileName.length := by
  cases fileName with
  | nil => simp [antisocial] at h
  | cons c rest =>
    have hle : ((c :: rest).dropWhile (· ≠ 47)).length ≤ (c :: rest).length :=
      (dropWhile_sublist _).length_le
    rw [length_tail]
    rw [length_cons] at hle ⊢
    omega

/-- The loop ends, and it ends at a name without a prefix to strip. -/
theorem not_antisocial_stripLoop (fuel : ℕ) (fileName : Bytes) (hfuel : fileName.length ≤ fuel) :
    antisocial (stripLoop fuel fileName) = false := by
  induction fuel generalizing fileName with
  | zero =>
    rw [length_eq_zero_iff.mp (by omega : fileName.length = 0)]
    rfl
  | succ fuel ih =>
    unfold stripLoop
    split
    next h =>
      have := length_tail_dropWhile_lt h
      exact ih _ (by omega)
    next h => simpa using h

theorem stripLoop_of_not_antisocial {fileName : Bytes} (h : antisocial fileName = false)
    (fuel : ℕ) :
    stripLoop fuel fileName = fileName := by
  cases fuel with
  | zero => rfl
  | succ fuel => rw [stripLoop, h]; rfl

theorem bytes_stripAntisocialPrefixes (fileName : CString) :
    (stripAntisocialPrefixes fileName).bytes =
      let rest := stripLoop fileName.bytes.length fileName.bytes
      if rest = [] ∨ rest = [46, 46] then [46] else rest := by
  unfold stripAntisocialPrefixes
  dsimp only
  split <;> rfl

theorem stripAntisocialPrefixes_idem (fileName : CString) :
    stripAntisocialPrefixes (stripAntisocialPrefixes fileName) =
      stripAntisocialPrefixes fileName := by
  have hbytes := bytes_stripAntisocialPrefixes fileName
  have hnot := not_antisocial_stripLoop _ fileName.bytes le_rfl
  apply CString.ext
  rw [bytes_stripAntisocialPrefixes, hbytes]
  generalize stripLoop fileName.bytes.length fileName.bytes = rest at hnot
  by_cases hdot : rest = [] ∨ rest = [46, 46]
  · rw [if_pos hdot]
    decide
  · rw [if_neg hdot, stripLoop_of_not_antisocial hnot, if_neg hdot]

/-! ### What the stripping reads -/

/-- `!memcmp (file_name, block, size)`. -/
def memcmpZero (s : CString) : ℕ → Bytes → Except Fault Bool
  | _, [] => .ok true
  | i, b :: block => do
    if (← s.read i "*file_name") ≠ b then return false
    memcmpZero s (i + 1) block

/-- `strchr (file_name, '/')`. -/
def strchrSlash (s : CString) : ℕ → ℕ → Except Fault ℕ
  | 0, _ => .error .outOfFuel
  | fuel + 1, i => do
    let c ← s.read i "*file_name"
    if c = 47 then return i
    if c = 0 then throw (.undefined "strchr (file_name, '/') + 1")
    strchrSlash s fuel (i + 1)

/-- The condition of the loop. -/
def antisocialAt (s : CString) (i : ℕ) : Except Fault Bool := do
  if (← s.read i "*file_name") = 47 then return true
  if ← memcmpZero s i [46, 47] then return true
  memcmpZero s i [46, 46, 47]

/-- The loop of `strip_antisocial_prefixes`, byte by byte: where the rest of the name starts. -/
def stripAt (s : CString) : ℕ → ℕ → Except Fault ℕ
  | 0, _ => .error .outOfFuel
  | fuel + 1, i => do
    if ← antisocialAt s i then stripAt s fuel ((← strchrSlash s s.bytes.length i) + 1)
    else return i

section Reads

variable {s : CString} {i : ℕ}

/-- `memcmp` stops at the terminator. -/
theorem memcmpZero_eq {block : Bytes} (hblock : 0 ∉ block) (hi : i ≤ s.bytes.length) :
    memcmpZero s i block = .ok (block.isPrefixOf (s.bytes.drop i)) := by
  induction block generalizing i with
  | nil => rfl
  | cons b block ih =>
    obtain ⟨hb, hrest⟩ : 0 ≠ b ∧ 0 ∉ block := by simpa using hblock
    rw [memcmpZero, CString.read_eq hi, ok_bind]
    rcases Nat.lt_or_eq_of_le hi with hlt | rfl
    · rw [drop_eq_getElem_cons hlt, headD_cons, isPrefixOf_cons_cons]
      by_cases heq : s.bytes[i] = b
      · simp [heq, ih hrest hlt]
      · rw [if_pos heq, beq_eq_false_iff_ne.mpr (Ne.symm heq)]
        rfl
    · simp [hb]
      rfl

theorem antisocialAt_eq (hi : i ≤ s.bytes.length) :
    antisocialAt s i = .ok (antisocial (s.bytes.drop i)) := by
  rw [antisocialAt, CString.read_eq hi, memcmpZero_eq (by decide) hi, memcmpZero_eq (by decide) hi]
  cases s.bytes.drop i with
  | nil => rfl
  | cons c rest =>
    by_cases hc : c = 47
    · simp [hc]
      rfl
    · cases hdot : [46, 47].isPrefixOf (c :: rest) <;> simp [hc, hdot, antisocial]

/-- `strchr` finds the slash. -/
theorem strchrSlash_eq {fuel : ℕ} (hmem : 47 ∈ s.bytes.drop i)
    (hfuel : s.bytes.length ≤ fuel + i) : ∃ k < s.bytes.length,
      strchrSlash s fuel i = .ok k ∧ s.bytes.drop k = (s.bytes.drop i).dropWhile (· ≠ 47) := by
  have hlt : i < s.bytes.length := by
    by_contra hge
    simp [drop_eq_nil_of_le (Nat.le_of_not_lt hge)] at hmem
  induction fuel generalizing i with
  | zero => omega
  | succ fuel ih =>
    have hne : s.bytes[i] ≠ 0 := fun h => s.nonzero (h ▸ getElem_mem hlt)
    rw [strchrSlash, CString.read_eq hlt.le, ok_bind]
    rw [drop_eq_getElem_cons hlt] at hmem ⊢
    by_cases hslash : s.bytes[i] = 47
    · refine ⟨i, hlt, ?_, ?_⟩
      · rw [headD_cons, if_pos hslash]
        rfl
      · rw [dropWhile_cons_of_neg (by simpa using hslash), ← drop_eq_getElem_cons hlt]
    have hrest := (mem_cons.mp hmem).resolve_left (Ne.symm hslash)
    have hnext : i + 1 < s.bytes.length := by
      by_contra hge
      simp [drop_eq_nil_of_le (Nat.le_of_not_lt hge)] at hrest
    obtain ⟨k, hk, hrun, hdrop⟩ := ih hrest (by omega) hnext
    refine ⟨k, hk, ?_, ?_⟩
    · rwa [headD_cons, if_neg hslash, if_neg hne]
    · rw [dropWhile_cons_of_pos (by simpa using hslash), hdrop]

theorem slash_mem_of_antisocial {fileName : Bytes} (h : antisocial fileName = true) :
    47 ∈ fileName := by
  simp only [antisocial, Bool.or_eq_true, isPrefixOf_iff_prefix, beq_iff_eq] at h
  rcases h with (h | h) | h
  · exact mem_of_mem_head? h
  all_goals exact h.subset (by decide)

/-- The loop ends and reads nothing behind the terminator. -/
theorem stripAt_eq {fuel : ℕ} (hi : i ≤ s.bytes.length) (hfuel : s.bytes.length ≤ fuel + i) :
    ∃ j, stripAt s (fuel + 1) i = .ok j ∧ s.bytes.drop j = stripLoop fuel (s.bytes.drop i) := by
  induction fuel generalizing i with
  | zero =>
    have hnil : s.bytes.drop i = [] := drop_eq_nil_of_le (by omega)
    refine ⟨i, ?_, rfl⟩
    rw [stripAt, antisocialAt_eq hi, hnil]
    rfl
  | succ fuel ih =>
    rw [stripAt, antisocialAt_eq hi, stripLoop]
    cases hbad : antisocial (s.bytes.drop i) with
    | false => exact ⟨i, rfl, rfl⟩
    | true =>
      obtain ⟨k, hk, hfind, hdrop⟩ := strchrSlash_eq (slash_mem_of_antisocial hbad)
        (Nat.le_add_right s.bytes.length i)
      have hik : i ≤ k := by
        have hlength := (dropWhile_sublist (l := s.bytes.drop i) (· ≠ 47)).length_le
        rw [← hdrop, length_drop, length_drop] at hlength
        omega
      obtain ⟨j, hrun, hj⟩ := @ih (k + 1) hk (by omega)
      refine ⟨j, ?_, ?_⟩
      · simp only [hfind, ok_bind]
        exact hrun
      · rw [hj, if_pos rfl, ← hdrop, tail_drop]

end Reads

/-- A name that an archive may have. -/
def Social (name : Bytes) : Prop :=
  name ≠ [] ∧ ¬ [47] <+: name ∧ ¬ [46, 47] <+: name ∧ ¬ [46, 46, 47] <+: name ∧ name ≠ [46, 46]

theorem antisocial_eq_false {name : Bytes} : antisocial name = false ↔
    ¬ [47] <+: name ∧ ¬ [46, 47] <+: name ∧ ¬ [46, 46, 47] <+: name := by
  have hhead : name.head? = some 47 ↔ [47] <+: name := by cases name <;> simp [eq_comm]
  simp [antisocial, ← hhead, ← Bool.not_eq_true, and_assoc]

/-- **Names are made safe**, and safe names are left alone. -/
theorem stripAntisocialPrefixes_safe (s : CString) :
    (∃ i, stripAt s (s.bytes.length + 1) 0 = .ok i ∧ (stripAntisocialPrefixes s).bytes =
      if s.bytes.drop i = [] ∨ s.bytes.drop i = [46, 46] then [46] else s.bytes.drop i) ∧
    Social (stripAntisocialPrefixes s).bytes ∧
    ((stripAntisocialPrefixes s).bytes = [46] ∨ (stripAntisocialPrefixes s).bytes <:+ s.bytes) ∧
    stripAntisocialPrefixes (stripAntisocialPrefixes s) = stripAntisocialPrefixes s ∧
    (Social s.bytes → stripAntisocialPrefixes s = s) := by
  have hbytes := bytes_stripAntisocialPrefixes s
  obtain ⟨i, hrun, hdrop⟩ := @stripAt_eq s 0 s.bytes.length (Nat.zero_le _) (le_refl _)
  have hnot := antisocial_eq_false.mp (not_antisocial_stripLoop _ s.bytes le_rfl)
  have hsuffix := stripLoop_suffix s.bytes.length s.bytes
  refine ⟨⟨i, hrun, hdrop ▸ hbytes⟩, ?_, ?_, stripAntisocialPrefixes_idem s, fun hsocial => ?_⟩
  · dsimp only at hbytes
    rw [hbytes]
    split
    · simp [Social]
    next hrest =>
      rw [not_or] at hrest
      exact ⟨hrest.1, hnot.1, hnot.2.1, hnot.2.2, hrest.2⟩
  · dsimp only at hbytes
    rw [hbytes]
    split
    · exact .inl rfl
    · exact .inr hsuffix
  · obtain ⟨hnil, hslash, hdot, hdots, hup⟩ := hsocial
    have hstrip := stripLoop_of_not_antisocial (antisocial_eq_false.mpr ⟨hslash, hdot, hdots⟩)
    apply CString.ext
    rw [hbytes, hstrip]
    exact if_neg (not_or.mpr ⟨hnil, hup⟩)

/-! ## The round trip -/

section Header

variable {fileName : CString} {type : UstarType} {fileSize : ℤ} {sum : ℕ}

/-- The header with its checksum. -/
def headerWith (fileName : CString) (type : UstarType) (fileSize : ℤ) (sum : ℕ) : Sector :=
  Field.writeAll (fieldValues fileName type fileSize ++
    [(chksum, snprintfOctal chksum.size 7 sum)])
    fun _ => 0

theorem apart_values : (fieldValues fileName type fileSize ++
    [(chksum, snprintfOctal chksum.size 7 sum)]).Pairwise
      fun v w => v.1.Apart w.1 := by
  rw [← pairwise_map (f := Prod.fst) (R := Field.Apart)]
  show [name, mode, uid, gid, size, mtime,
    typeflag, magic, version, gname, uname,
    chksum].Pairwise Field.Apart
  decide

theorem fits_values : ∀ w ∈ fieldValues fileName type fileSize ++
    [(chksum, snprintfOctal chksum.size 7 sum)], w.2.length ≤ w.1.size := by
  have hstring : ∀ (field : Field) {bytes : Bytes}, 0 < field.size →
      (terminated field.size bytes).length ≤ field.size := fun _ _ => length_terminated_le
  intro w hw
  simp only [fieldValues, cons_append, nil_append, mem_cons, not_mem_nil, or_false] at hw
  rcases hw with rfl | rfl | rfl | rfl | rfl | rfl | rfl | rfl | rfl | rfl | rfl | rfl
  case _ => exact hstring name (by decide)
  all_goals first | exact le_rfl | exact length_terminated_le (by decide)

/-- A field of the finished header holds what it was filled with, and zeros. -/
theorem read_headerWith {f : Field} (bytes : Bytes)
    (hmem : (f, bytes) ∈ fieldValues fileName type fileSize ++
      [(chksum, snprintfOctal chksum.size 7 sum)])
    (hf : f.offset + f.size ≤ headerSize) :
    f.read (headerWith fileName type fileSize sum) =
      bytes ++ replicate (f.size - bytes.length) 0 := by
  rw [headerWith, Field.read_writeAll hmem apart_values fits_values hf, Field.read_const hf,
    drop_replicate]

theorem calculateChksum_headerWith (sum : ℕ) :
    calculateChksum (headerWith fileName type fileSize sum) =
    calculateChksum (fillHeader fileName type fileSize) := by
  exact calculateChksum_write (length_terminated_le (by decide)) _

/-- The fields of a header that describes this file. -/
structure Describes (h : Sector) (fileName : CString) (type : UstarType) (fileSize sum : ℕ) :
    Prop where
  magic : Header.magic.read h = [117, 115, 116, 97, 114, 0]
  version : Header.version.read h = [48, 48]
  chksum : Header.chksum.read h = snprintfOctal 8 7 sum
  size : Header.size.read h = snprintfOctal 12 11 fileSize
  name : Header.name.read h = fileName.bytes ++ List.replicate (100 - fileName.bytes.length) 0
  typeflag : Header.typeflag.read h = [type.byte]
  namePrefix : Header.namePrefix.read h = List.replicate 155 0

theorem describes_headerWith {k : ℕ} (hk : k ≤ 2147483647) (hsum : sum < 8 ^ 7)
    (hname : fileName.bytes.length ≤ 99) :
    Describes (headerWith fileName type k sum) fileName type k sum := by
  have hsize : (((k : ℤ) % 4294967296).toNat) = k := by omega
  refine ⟨?_, ?_, ?_, ?_, ?_, ?_, ?_⟩
  · exact read_headerWith (f := magic) (terminated 6 [117, 115, 116, 97, 114])
      (by simp [fieldValues, magic]) (by decide)
  · exact read_headerWith (f := version) [48, 48] (by simp [fieldValues]) (by decide)
  · rw [read_headerWith (snprintfOctal 8 7 sum) (by simp [chksum])
      (by decide), length_snprintfOctal hsum]
    exact append_nil _
  · rw [read_headerWith (snprintfOctal 12 11 k)
      (by simp [fieldValues, size, hsize]) (by decide), length_snprintfOctal (by omega)]
    exact append_nil _
  · rw [read_headerWith (fileName.bytes ++ [0]) ?_ (by decide)]
    · rw [append_assoc, length_append, singleton_append, ← replicate_succ]
      congr 2
      show 100 - (_ + 1) + 1 = _
      omega
    · rw [← terminated_of_lt (by omega : fileName.bytes.length < 100)]
      simp [fieldValues, name]
  · exact read_headerWith (f := typeflag) [type.byte] (by simp [fieldValues]) (by decide)
  · rw [headerWith, Field.read_writeAll_of_apart ?_ fits_values, Field.read_const (by decide)]
    · rfl
    · rw [← forall_mem_map (f := Prod.fst) (P := fun g => namePrefix.Apart g)]
      show ∀ g ∈ [name, mode, uid, gid, size, mtime,
        typeflag, magic, version, gname, uname,
        chksum], _
      decide

end Header

theorem Describes.parse {h : Sector} {fileName : CString} {type : UstarType} {fileSize sum : ℕ}
    (hd : Describes h fileName type fileSize sum) (hsum : (calculateChksum h).toNat = sum)
    (htype : type = .regular ∨ type = .directory) (hsize : fileSize ≤ 2147483647)
    (hname : fileName.bytes.length ≤ 99) :
    ustarParseHeader h = .ok ⟨some (stripAntisocialPrefixes fileName), type,
      if type = .regular then fileSize else 0⟩ := by
  have hentry : ∀ {f : Field} {k : ℕ}, k < f.size →
      entry h (f.offset + k) = (f.read h).getD k 0 := Field.entry_eq_getD_read
  have hmagic : entry h Header.magic.offset = 117 := by
    rw [← add_zero Header.magic.offset, hentry (by decide), hd.magic]
    rfl
  have hend : entry h 99 = 0 := by
    rw [show 99 = Header.name.offset + 99 from rfl, hentry (by decide), hd.name,
      getD_append_right _ _ _ _ hname]
    exact getD_replicate _ (by omega)
  have hprefix : entry h Header.namePrefix.offset = 0 := by
    rw [← add_zero Header.namePrefix.offset, hentry (by decide), hd.namePrefix]
    rfl
  have hflag : entry h Header.typeflag.offset = type.byte := by
    rw [← add_zero Header.typeflag.offset, hentry (by decide), hd.typeflag]
    rfl
  have hstring : fieldString (Header.name.read h) = fileName := by
    apply CString.ext
    change (Header.name.read h).takeWhile (fun c => decide (c ≠ 0)) = _
    obtain ⟨m, hm⟩ : ∃ m, 100 - fileName.bytes.length = m + 1 :=
      ⟨99 - fileName.bytes.length, by omega⟩
    rw [hd.name, hm, replicate_succ, takeWhile_string fileName.nonzero]
  have hnonzero : ¬ ∀ i, h i = 0 := fun hzero => by
    rw [entry_eq _ (by decide), hzero] at hmagic
    exact absurd hmagic (by decide)
  subst hsum
  unfold ustarParseHeader
  rw [if_neg hnonzero, if_neg (not_not.mpr hd.magic), if_neg (not_not.mpr hd.version), hd.chksum,
    parseOctalField_snprintf (by decide) (calculateChksum_lt h)
      (lt_trans (calculateChksum_lt h) (by decide))]
  dsimp only
  rw [if_neg (not_not.mpr rfl), if_neg (not_or.mpr ⟨not_not.mpr hend, not_not.mpr hprefix⟩), hflag,
    hstring]
  rcases htype with rfl | rfl
  · rw [if_neg (by decide), if_pos rfl, hd.size,
      parseOctalField_snprintf (by decide) (by omega) (by omega)]
    dsimp only
    rw [if_neg (by omega), if_pos rfl]
  · rw [if_neg (by decide), if_neg (by decide), if_neg (by decide)]

/-- The header that `ustar_make_header` makes if the name fits. -/
def headerOf (fileName : CString) (type : UstarType) (fileSize : ℤ) : Sector :=
  headerWith (stripAntisocialPrefixes fileName) type fileSize
    (calculateChksum (fillHeader (stripAntisocialPrefixes fileName) type fileSize)).toNat

theorem ustarMakeHeader_eq (fileName : CString) {type : UstarType}
    (htype : type = .regular ∨ type = .directory) (fileSize : ℤ) :
    ustarMakeHeader fileName type fileSize =
      .ok (if 99 < (stripAntisocialPrefixes fileName).bytes.length then
        .tooLong (stripAntisocialPrefixes fileName)
      else .made (headerOf fileName type fileSize)) := by
  have hassert : ¬ ¬ (type = .regular ∨ type = .directory) := not_not.mpr htype
  unfold ustarMakeHeader headerOf
  rw [if_neg hassert]
  by_cases hname : 99 < (stripAntisocialPrefixes fileName).bytes.length
  · rw [if_pos hname, if_pos hname]
    rfl
  · rw [if_neg hname, if_neg hname]
    rfl

theorem ustarParseHeader_headerOf (fileName : CString) {type : UstarType}
    (htype : type = .regular ∨ type = .directory) {k : ℕ} (hk : k ≤ 2147483647)
    (hname : (stripAntisocialPrefixes fileName).bytes.length ≤ 99) :
    ustarParseHeader (headerOf fileName type k) =
      .ok ⟨some (stripAntisocialPrefixes fileName), type, if type = .regular then k else 0⟩ := by
  unfold headerOf
  generalize hsum : (calculateChksum (fillHeader (stripAntisocialPrefixes fileName) type k)).toNat =
    sum
  have hdescribes : Describes (headerWith (stripAntisocialPrefixes fileName) type k sum)
      (stripAntisocialPrefixes fileName) type k sum :=
    describes_headerWith hk (hsum ▸ calculateChksum_lt _) hname
  -- the checksum of the finished header is the one that was computed before
  rw [← calculateChksum_headerWith sum] at hsum
  rw [hdescribes.parse hsum htype hk hname, stripAntisocialPrefixes_idem]

/-- **Headers round-trip.**  A header can be made exactly if the stripped name has at most 99
bytes, and then parsing it gives the stripped name, the type, and for a regular file the size. -/
theorem ustar_roundTrip (fileName : CString) (type : UstarType)
    (htype : type = .regular ∨ type = .directory) (fileSize : ℤ) (hlow : 0 ≤ fileSize)
    (hhigh : fileSize ≤ 2147483647) :
    ((∃ h, ustarMakeHeader fileName type fileSize = .ok (.made h)) ↔
      (stripAntisocialPrefixes fileName).bytes.length ≤ 99) ∧
    ∀ h, ustarMakeHeader fileName type fileSize = .ok (.made h) →
      ustarParseHeader h = .ok ⟨some (stripAntisocialPrefixes fileName), type,
        if type = .regular then fileSize else 0⟩ := by
  obtain ⟨k, rfl⟩ := Int.eq_ofNat_of_zero_le hlow
  rw [ustarMakeHeader_eq fileName htype]
  by_cases hname : 99 < (stripAntisocialPrefixes fileName).bytes.length
  · rw [if_pos hname]
    refine ⟨⟨fun ⟨h, hh⟩ => ?_, fun hle => absurd hle (by omega)⟩, fun h hh => ?_⟩
    · cases hh
    · cases hh
  · rw [if_neg hname]
    refine ⟨⟨fun _ => by omega, fun _ => ⟨_, rfl⟩⟩, fun h hh => ?_⟩
    obtain rfl := MadeHeader.made.inj (Except.ok.inj hh)
    exact ustarParseHeader_headerOf fileName htype (by omega) (by omega)

/-- The header of a file `A` of five bytes, found under the name `../A`. -/
theorem ustar_roundTrip_up :
    ∃ h, ustarMakeHeader ⟨[46, 46, 47, 65], by decide⟩ .regular 5 = .ok (.made h) ∧
      ustarParseHeader h = .ok ⟨some ⟨[65], by decide⟩, .regular, 5⟩ := by
  have hstrip : stripAntisocialPrefixes ⟨[46, 46, 47, 65], by decide⟩ = ⟨[65], by decide⟩ := by
    decide
  obtain ⟨hiff, hparse⟩ := ustar_roundTrip ⟨[46, 46, 47, 65], by decide⟩ .regular (.inl rfl) 5
    (by decide) (by decide)
  obtain ⟨h, hh⟩ := hiff.mpr (by decide)
  exact ⟨h, hh, hparse h hh⟩

end CS162.Ustar
