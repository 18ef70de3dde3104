import CS162.Userprog.Exec

/-!
# The arguments of a new process (`tokenize` and `setup_stack`)

`tokenize` cuts the copy of a command line into words and stores their addresses in `argv`;
`setup_stack` pushes the words, their addresses, `argv` and `argc` below `PHYS_BASE`.  Here the
two run alone, and there is no other limit to the stack than the address space.

## Strategy

The strings lie behind each other, so the address of argument `i` is `PHYS_BASE` less what
the arguments from `i` on take.  The words below them are read by `words_pushArgc`.
-/

namespace CS162

open Library List

/-- The first loop of `setup_stack`: the strings, and `argv_addr`. -/
def pushArgs : List Bytes → Bytes × List ℕ
  | [] => ([], [])
  | arg :: args =>
    let (stack, addrs) := pushArgs args
    let stack := copyArg arg (arg.length + 1) ++ stack
    (stack, (physBase - stack.length) :: addrs)

/-- The bytes from `esp` to `PHYS_BASE`. -/
def setupStack (args : List Bytes) : Bytes :=
  pushArgc (pushTable (pushArgs args).1 (pushArgs args).2) args.length

def stackPointer (stack : Bytes) : ℕ := physBase - stack.length

/-- What `argv[i]` of the program is. -/
def argPointer (stack : Bytes) (i : ℕ) : ℕ :=
  userWord stack (userWord stack (stackPointer stack + 8) + 4 * i)

/-- The program finds the arguments.  Return address, `argc`, `argv`, the addresses and the null
pointer follow each other, and the strings lie above them, one behind the other. -/
structure Passed (stack : Bytes) (args : List Bytes) : Prop where
  aligned : stackPointer stack % 4 = 0
  returns : userWord stack (stackPointer stack) = 0
  argc : userWord stack (stackPointer stack + 4) = args.length
  argv : userWord stack (stackPointer stack + 8) = stackPointer stack + 12
  null : userWord stack (stackPointer stack + 12 + 4 * args.length) = 0
  string : ∀ i (hi : i < args.length), userString stack (argPointer stack i) = args[i] ∧
    stackPointer stack + 16 + 4 * args.length ≤ argPointer stack i ∧
    argPointer stack i + args[i].length + 1 ≤ physBase ∧
    ∀ j < args.length, i < j → argPointer stack i + args[i].length + 1 ≤ argPointer stack j

variable {args : List Bytes}

theorem length_pushArgs (args : List Bytes) :
    (pushArgs args).1.length = argBytes args ∧ (pushArgs args).2.length = args.length := by
  induction args with
  | nil => exact ⟨rfl, rfl⟩
  | cons arg args ih =>
    simp only [pushArgs, copyArg_self, length_append, length_cons, length_nil, ih, argBytes_cons,
      and_self]

theorem getElem_pushArgs (args : List Bytes) {i : ℕ} (hi : i < (pushArgs args).2.length) :
    (pushArgs args).2[i] = physBase - argBytes (args.drop i) := by
  induction args generalizing i with
  | nil => exact absurd hi (Nat.not_lt_zero i)
  | cons arg args ih =>
    cases i with
    | zero =>
      have hlength := (length_pushArgs (arg :: args)).1
      simp only [pushArgs] at hlength ⊢
      rw [getElem_cons_zero, hlength, drop_zero]
    | succ i =>
      exact ih (Nat.lt_of_succ_lt_succ hi)

theorem onStack_pushArgs (hnul : ∀ arg ∈ args, 0 ∉ arg) :
    List.Forall₂ (OnStack (pushArgs args).1) (pushArgs args).2 args := by
  induction args with
  | nil => exact .nil
  | cons arg args ih =>
    exact @onStack_push _ arg (arg :: args) 0 _ rfl (hnul arg mem_cons_self)
      (ih fun arg' harg' => hnul arg' (mem_cons_of_mem _ harg'))

theorem length_setupStack (h : argBytes args ≤ physBase) :
    (setupStack args).length = stackSize args := by
  obtain ⟨hbytes, haddrs⟩ := length_pushArgs args
  simp only [setupStack, pushArgc, length_append, length_le32]
  rw [length_pushTable _ _ (hbytes ▸ h), hbytes, haddrs, stackSize]
  omega

/-- **The arguments arrive**, whatever they are. -/
theorem setupStack_passed (hnul : ∀ arg ∈ args, 0 ∉ arg) (hfits : stackSize args ≤ physBase) :
    Passed (setupStack args) args := by
  obtain ⟨hbytes, haddrs⟩ := length_pushArgs args
  have hsize : argBytes args + 4 * args.length + 16 ≤ stackSize args := by
    rw [stackSize]
    omega
  have hlength : (setupStack args).length = stackSize args := length_setupStack (by omega)
  have honstack := onStack_pushArgs hnul
  have hbelow : ∀ a ∈ (pushArgs args).2, a < 4294967296 := by
    intro a ha
    obtain ⟨j, hj, rfl⟩ := getElem_of_mem ha
    exact (honstack.get hj (haddrs ▸ hj)).addr_lt
  obtain ⟨hreturn, hargc, hargv, haddr, hnull⟩ := @words_pushArgc (pushArgs args).1 _ args.length
    hbelow (by simp only [physBase] at hfits; omega) _ _ rfl rfl (hlength.trans_le hfits)
  have hpointer : ∀ i < args.length,
      argPointer (setupStack args) i = physBase - argBytes (args.drop i) := by
    intro i hi
    rw [argPointer, ← getElem_pushArgs args (haddrs.symm ▸ hi)]
    exact (congrArg (userWord _ <| · + 4 * i) hargv).trans (haddr i _)
  refine ⟨?_, hreturn, hargc, hargv, haddrs ▸ hnull, fun i hi => ?_⟩
  · rw [stackPointer, hlength, stackSize]
    rw [physBase]
    omega
  have hget : OnStack (pushArgs args).1 (pushArgs args).2[i] args[i] :=
    honstack.get (haddrs.symm ▸ hi) hi
  have hdrop : argBytes (args.drop i) = args[i].length + 1 + argBytes (args.drop (i + 1)) := by
    rw [drop_eq_getElem_cons hi, argBytes_cons]
  have hle := argBytes_drop_le args i
  have hsp : stackPointer (setupStack args) = physBase - stackSize args := by
    rw [stackPointer, hlength]
  rw [hpointer i hi, hsp]
  refine ⟨?_, by omega, by omega, fun j hj hij => ?_⟩
  · rw [← getElem_pushArgs args (haddrs.symm ▸ hi)]
    exact (hget.mono (suffix_pushArgc _ _ _)).userString_eq (hlength.trans_le hfits)
  · have hlater := argBytes_drop_le (args.drop (i + 1)) (j - (i + 1))
    rw [drop_drop, Nat.add_sub_cancel' hij] at hlater
    rw [hpointer j hj]
    omega

theorem setupStack_passed_three : Passed (setupStack [[97], [98, 99], []]) [[97], [98, 99], []] :=
  setupStack_passed (by decide) (by decide)

/-! ## Command lines -/

/-- The loop of `tokenize`, which ends when `argv` is full or there is no word left: the page and
what has been stored in `argv`. -/
def tokenizeLoop : ℕ → Bytes → ℕ → List ℕ → Bytes × List ℕ
  | 0, page, _, argv => (page, argv)
  | n + 1, page, s, argv =>
    match strtokR page s with
    | (none, page, _) => (page, argv)
    | (some token, page, save) => tokenizeLoop n page save (argv ++ [token])

/-- `tokenize`: the strings that `argv` points to.  The null pointer goes behind the last one. -/
def tokenize (line : Bytes) : Except Fault (List Bytes) :=
  let (page, argv) := tokenizeLoop argLimit (copyLine line) 0 []
  if argv.length < argLimit then .ok (argv.map (stringAt page)) else .error (.undefined "argv")

/-- The stack that `process_execute` and `load` make for a command line. -/
def startStack (line : Bytes) : Except Fault Bytes := do
  let args ← tokenize line
  if (setupStack args).length ≤ pgSize then .ok (setupStack args)
  else .error (.undefined "stack")

theorem tokenizeLoop_spec (n : ℕ) {page rest : Bytes} {s : ℕ} {argv : List ℕ}
    (hdrop : page.drop s = rest ++ [0]) (hnul : 0 ∉ rest)
    (hargv : ∀ token ∈ argv, ∃ w, StringAt page s token w) :
    (tokenizeLoop n page s argv).2.map (stringAt (tokenizeLoop n page s argv).1) =
      argv.map (stringAt page) ++ (words space rest).take n := by
  induction n generalizing page rest s argv with
  | zero => rw [take_zero, append_nil, tokenizeLoop]
  | succ n ih =>
    rcases strtokR_spec hdrop hnul with ⟨hnil, save, htok⟩ | ⟨w, ws, page', token, save, hws, hcut⟩
    · rw [tokenizeLoop, htok, hnil, take_nil, append_nil]
    obtain ⟨rest', hdrop', hnul', rfl⟩ := hcut.rest
    -- What was found before lies below the new word's end and is not overwritten.
    have hkeep : ∀ old ∈ argv, ∃ v, StringAt page s old v ∧ StringAt page' save old v :=
      fun old hold => (hargv old hold).imp fun _ hv => ⟨hv, hv.mono hcut.le hcut.before⟩
    have hsame : argv.map (stringAt page') = argv.map (stringAt page) :=
      map_congr_left fun old hold =>
        let ⟨_, hv, hv'⟩ := hkeep old hold
        hv'.stringAt_eq.trans hv.stringAt_eq.symm
    rw [tokenizeLoop, hcut.eq, hws, take_succ_cons]
    rw [ih hdrop' hnul', map_append, hsame, append_assoc]
    · rw [map_cons, map_nil, hcut.string.stringAt_eq, cons_append, nil_append]
    · intro old hold
      rcases mem_append.mp hold with hold | hold
      · exact (hkeep old hold).imp fun _ hv => hv.2
      · exact ⟨w, mem_singleton.mp hold ▸ hcut.string⟩

theorem tokenize_eq {line : Bytes} (hnul : 0 ∉ line) :
    tokenize line = if (words space (line.take (pgSize - 1))).length < argLimit then
      .ok (words space (line.take (pgSize - 1))) else .error (.undefined "argv") := by
  have hspec := @tokenizeLoop_spec argLimit (copyLine line) (line.take (pgSize - 1)) 0 [] rfl
    (fun hmem => hnul (mem_of_mem_take hmem)) nofun
  have hlength := congrArg length hspec
  simp only [map_nil, nil_append, length_map, length_take] at hspec hlength
  simp only [tokenize, hlength, hspec]
  by_cases hfew : (words space (line.take (pgSize - 1))).length < argLimit
  · rw [if_pos hfew, if_pos (by omega), take_of_length_le hfew.le]
  · rw [if_neg hfew, if_neg (by omega)]

theorem length_setupStack_le_iff : (setupStack args).length ≤ pgSize ↔ stackSize args ≤ pgSize := by
  by_cases hbytes : argBytes args ≤ physBase
  · rw [length_setupStack hbytes]
  · have hlength := (suffix_pushArgc (pushArgs args).1 (pushArgs args).2 args.length).length_le
    rw [(length_pushArgs args).1] at hlength
    simp only [setupStack, stackSize, pgSize, physBase] at hbytes ⊢
    omega

/-- **When a command line fits**: `argv` has an element left for the null pointer, and the stack
takes a page at most.  Nothing checks either. -/
theorem commandLine_fits_iff (line : Bytes) (hnul : 0 ∉ line) :
    (∃ stack, startStack line = .ok stack) ↔
      (words space (line.take (pgSize - 1))).length < argLimit ∧
        stackSize (words space (line.take (pgSize - 1))) ≤ pgSize := by
  rw [startStack, tokenize_eq hnul, ← length_setupStack_le_iff]
  by_cases hfew : (words space (line.take (pgSize - 1))).length < argLimit
  · rw [if_pos hfew, ok_bind]
    by_cases hfits : (setupStack (words space (line.take (pgSize - 1)))).length ≤ pgSize
    · rw [if_pos hfits]
      exact iff_of_true ⟨_, rfl⟩ ⟨hfew, hfits⟩
    · rw [if_neg hfits]
      exact iff_of_false nofun fun h => hfits h.2
  · rw [if_neg hfew]
    exact iff_of_false nofun fun h => hfew h.1

theorem commandLine_fits_echo : ∃ stack, startStack [101, 99, 104, 111, 32, 120] = .ok stack :=
  (commandLine_fits_iff _ (by decide)).mpr (by decide)

/-- A line of `n` words of one letter. -/
def letters (n : ℕ) : Bytes := (replicate n [97, space]).flatten

theorem commandLine_overflows : startStack (letters 1024) = .error (.undefined "argv") ∧
    startStack (letters 1000) = .error (.undefined "stack") := by
  have hnul : ∀ n, 0 ∉ letters n := by
    intro n
    simp [letters, space]
  constructor
  · rw [startStack, tokenize_eq (hnul _), if_neg (by decide +kernel)]
    rfl
  · rw [startStack, tokenize_eq (hnul _), if_pos (by decide +kernel), ok_bind,
      if_neg (by rw [length_setupStack_le_iff]; decide +kernel)]

end CS162
