import CS162.Library.Strings
import CS162.Block

/-!
# Serving files (`personal/hw2/httpserver.c`, `personal/hw2/libhttp.c`)

`http_request_parse` reads the first line of a request.  `write_to_fd` reads a file to an array
of its size, every time to the start of the array, puts a NUL behind the bytes it has got, and
sends as many bytes as the last `read` has returned.
-/

namespace CS162

open Library List

/-- What the client is sent. -/
structure HttpResponse where
  statusCode : ℕ
  headers : List (String × String)
  body : Bytes

/-- `http_send_data`.  A `write` takes the given number of bytes, and fails after them. -/
def httpSendData : Bytes → List ℕ → Bytes
  | _, [] => []
  | data, bytesSent :: writes =>
    if data = [] then [] else data.take bytesSent ++ httpSendData (data.drop bytesSent) writes

/-- The loop of `write_to_fd`, with the chunks that `read` returns. -/
def chunkLoop (buffer2 : Bytes) (totalSize : ℕ) : List Bytes → Except Fault (Bytes × ℕ)
  | [] => .ok (buffer2, totalSize)
  | chunk :: chunks =>
    if buffer2.length ≤ chunk.length then .error (.undefined "buffer2")
    else chunkLoop ((chunk ++ buffer2.drop chunk.length).set chunk.length 0) chunk.length chunks

/-- `write_to_fd` on a file that `open` and `read` deliver in chunks, or that cannot be opened. -/
def writeToFd (mimeType : String) (file : Option (List Bytes)) (buffer2 : Bytes)
    (writes : List ℕ) : Except Fault HttpResponse :=
  match file with
  | none => .ok ⟨404, [], []⟩
  | some chunks => do
    let (buffer2, totalSize) ← chunkLoop buffer2 0 chunks
    return ⟨200, [("Content-Type", mimeType), ("Content-Length", toString totalSize)],
      httpSendData (buffer2.take totalSize) writes⟩

theorem length_httpSendData_le (data : Bytes) (writes : List ℕ) :
    (httpSendData data writes).length ≤ data.length := by
  induction writes generalizing data with
  | nil => exact Nat.zero_le _
  | cons n writes ih =>
    unfold httpSendData
    split
    · exact Nat.zero_le _
    · have hrest := ih (data.drop n)
      rw [length_append, length_take]
      rw [length_drop] at hrest
      omega

/-- A chunk that fills the array leaves no room for the NUL, and a smaller one is counted alone. -/
theorem chunkLoop_lt {chunks : List Bytes} {buffer2 final : Bytes} {totalSize total : ℕ}
    (hlt : totalSize < buffer2.length)
    (hloop : chunkLoop buffer2 totalSize chunks = .ok (final, total)) :
    total < buffer2.length := by
  induction chunks generalizing buffer2 totalSize with
  | nil =>
    cases hloop
    exact hlt
  | cons chunk chunks ih =>
    unfold chunkLoop at hloop
    split at hloop
    · cases hloop
    have hlength : ((chunk ++ buffer2.drop chunk.length).set chunk.length 0).length =
        buffer2.length := by
      simp
      omega
    rw [← hlength]
    exact ih (by omega) hloop

/-- **A file is sent as a whole** exactly if it is empty, whatever the chunks are. -/
theorem writeToFd_complete_iff (mimeType : String) (chunks : List Bytes) (writes : List ℕ)
    (buffer2 : Bytes) (hchunks : [] ∉ chunks) (hsize : buffer2.length = chunks.flatten.length) :
    (∃ r, writeToFd mimeType (some chunks) buffer2 writes = .ok r ∧
      ("Content-Length", toString chunks.flatten.length) ∈ r.headers ∧
      r.body = chunks.flatten) ↔ chunks.flatten = [] := by
  constructor
  · rintro ⟨r, hwrite, -, hbody⟩
    obtain ⟨⟨final, total⟩, hloop, ⟨⟩⟩ := bind_eq_ok.mp hwrite
    by_contra hne
    have hlt := chunkLoop_lt (hsize ▸ length_pos_of_ne_nil hne) hloop
    have hle := length_httpSendData_le (final.take total) writes
    rw [show httpSendData (final.take total) writes = _ from hbody, length_take] at hle
    omega
  intro hempty
  obtain rfl : chunks = [] := by
    cases chunks with
    | nil => rfl
    | cons chunk chunks => simp_all
  refine ⟨_, rfl, ?_, ?_⟩
  · simp
  · cases writes <;> simp [httpSendData]

/-- An empty file is sent as a whole, one of two chunks is not. -/
theorem writeToFd_complete_iff_chunks :
    (∃ r, writeToFd "text/plain" (some []) [] [] = .ok r ∧
      ("Content-Length", toString 0) ∈ r.headers ∧ r.body = []) ∧
    ¬ ∃ r, writeToFd "text/plain" (some [[104], [105]]) [0, 0] [1, 1] = .ok r ∧
      ("Content-Length", toString 2) ∈ r.headers ∧ r.body = [104, 105] := by
  refine ⟨(writeToFd_complete_iff "text/plain" [] [] [] (by simp) rfl).mpr rfl, fun hsent => ?_⟩
  exact absurd ((writeToFd_complete_iff "text/plain" [[104], [105]] [1, 1] [0, 0] (by simp) rfl).mp
    hsent) (by decide)

/-- A file of two bytes is cut off if it comes in two chunks, and overruns the array if not. -/
theorem writeToFd_loses_bytes :
    (writeToFd "text/plain" (some [[104], [105]]) [0, 0] [1]).map HttpResponse.body = .ok [105] ∧
      ∀ writes, writeToFd "text/plain" (some [[104, 105]]) [0, 0] writes =
        .error (.undefined "buffer2") :=
  ⟨rfl, fun _ => rfl⟩

/-! ## Parsing a request -/

/-- `while (p (*read_end)) read_end++;`, with the bytes it passes and those from `read_end` on. -/
def scan (p : UInt8 → Bool) : Bytes → Except Fault (Bytes × Bytes)
  | [] => .error (.undefined "read_end")
  | c :: rest =>
    if p c then do
      let (run, rest) ← scan p rest
      return (c :: run, rest)
    else .ok ([], c :: rest)

structure HttpRequest where
  method : Bytes
  path : Bytes

/-- `http_request_parse` on the bytes of the buffer. -/
def httpRequestParse (readBuffer : Bytes) : Except Fault (Option HttpRequest) := do
  let (method, rest) ← scan (fun c => 65 ≤ c ∧ c ≤ 90) readBuffer
  if method = [] then return none
  if rest.head? ≠ some 32 then return none
  let (path, rest) ← scan (fun c => c ≠ 0 ∧ c ≠ 32 ∧ c ≠ 10) rest.tail
  if path = [] then return none
  let (_, rest) ← scan (fun c => c ≠ 0 ∧ c ≠ 10) rest
  if rest.head? ≠ some 10 then return none
  return some ⟨method, path⟩

/-- The request line of a text, as the comments of `http_request_parse` give it. -/
structure RequestLine (text : Bytes) (r : HttpRequest) : Prop where
  method : r.method ≠ [] ∧ ∀ c ∈ r.method, 65 ≤ c ∧ c ≤ 90
  path : r.path ≠ [] ∧ 32 ∉ r.path ∧ 10 ∉ r.path
  line : ∃ version rest, text = r.method ++ 32 :: (r.path ++ (version ++ 10 :: rest)) ∧
    10 ∉ version ∧ ∀ c ∈ version.head?, c = 32

variable {p : UInt8 → Bool} {text behind run rest : Bytes}

/-- A scan ends at the NUL at the latest. -/
theorem exists_scan (hp : p 0 = false) (text behind : Bytes) :
    ∃ run rest, text = run ++ rest ∧ (∀ c ∈ run, p c = true) ∧ (∀ c ∈ rest.head?, p c = false) ∧
      scan p (text ++ 0 :: behind) = .ok (run, rest ++ 0 :: behind) := by
  induction text with
  | nil => exact ⟨[], [], rfl, by simp, by simp, by simp [scan, hp]⟩
  | cons c text ih =>
    cases hc : p c with
    | false => exact ⟨[], c :: text, rfl, by simp, by simp [hc], by simp [scan, hc]⟩
    | true =>
      obtain ⟨run, rest, rfl, hrun, hrest, hscan⟩ := ih
      refine ⟨c :: run, rest, rfl, by simpa [hc] using hrun, hrest, ?_⟩
      simp only [cons_append, scan, hc, if_true]
      rw [hscan]
      rfl

theorem scan_append (hrun : ∀ c ∈ run, p c = true) (hrest : rest.head?.map p = some false) :
    scan p (run ++ rest) = .ok (run, rest) := by
  induction run with
  | nil =>
    obtain ⟨c, hc, hp⟩ := Option.map_eq_some_iff.mp hrest
    obtain ⟨tail, rfl⟩ := head?_eq_some_iff.mp hc
    simp [scan, hp]
  | cons b run ih =>
    simp only [cons_append, scan, hrun b mem_cons_self, if_true]
    rw [ih fun c hc => hrun c (mem_cons_of_mem b hc)]
    rfl

theorem RequestLine.parse {r : HttpRequest} (h : RequestLine text r) (hnul : 0 ∉ text) :
    httpRequestParse (text ++ 0 :: behind) = .ok (some r) := by
  obtain ⟨⟨hmethod, hupper⟩, ⟨hpath, hspace, hnewline⟩, version, rest, rfl, hversion, hhead⟩ := h
  simp only [mem_append, mem_cons, not_or] at hnul
  simp only [httpRequestParse, append_assoc, cons_append]
  rw [scan_append (by simpa using hupper) rfl]
  simp only [ok_bind, hmethod, if_false, head?_cons, tail_cons, ne_eq, not_true]
  have hrun : ∀ c ∈ r.path, decide (c ≠ 0 ∧ c ≠ 32 ∧ c ≠ 10) = true := by
    intro c hc
    rw [decide_eq_true_eq]
    exact ⟨ne_of_mem_of_not_mem hc hnul.2.2.1, ne_of_mem_of_not_mem hc hspace,
      ne_of_mem_of_not_mem hc hnewline⟩
  rw [scan_append hrun (by cases version <;> simp_all)]
  simp only [ok_bind, hpath, if_false]
  rw [scan_append (fun c hc => ?_) rfl]
  · simp only [ok_bind, head?_cons, not_true, if_false]
    rfl
  · rw [decide_eq_true_eq]
    exact ⟨ne_of_mem_of_not_mem hc hnul.2.2.2.1, ne_of_mem_of_not_mem hc hversion⟩

/-- **The parser accepts its grammar**, and does not read past the first NUL. -/
theorem httpRequestParse_iff (text behind : Bytes) (hnul : 0 ∉ text) :
    ∃ r, httpRequestParse (text ++ 0 :: behind) = .ok r ∧
      ∀ request, r = some request ↔ RequestLine text request := by
  suffices hsound : ∃ r, httpRequestParse (text ++ 0 :: behind) = .ok r ∧
      ∀ request, r = some request → RequestLine text request by
    obtain ⟨r, hparse, hline⟩ := hsound
    refine ⟨r, hparse, fun request => ⟨hline request, fun h => ?_⟩⟩
    exact Except.ok.inj (hparse.symm.trans (h.parse hnul))
  obtain ⟨method, rest, rfl, hmethod, -, hscan⟩ :=
    @exists_scan (fun c => 65 ≤ c ∧ c ≤ 90) rfl text behind
  rw [httpRequestParse]
  rw [hscan]
  simp only [ok_bind]
  split
  · exact ⟨none, rfl, nofun⟩
  next hmethod' =>
  cases rest with
  | nil => exact ⟨none, rfl, nofun⟩
  | cons c rest =>
  split
  · exact ⟨none, rfl, nofun⟩
  next hspace =>
  obtain rfl : c = 32 := by simpa using hspace
  obtain ⟨path, rest, rfl, hpath, hend, hscan⟩ :=
    @exists_scan (fun c => c ≠ 0 ∧ c ≠ 32 ∧ c ≠ 10) rfl rest behind
  rw [cons_append, tail_cons]
  rw [hscan]
  rw [ok_bind]
  split
  · exact ⟨none, rfl, nofun⟩
  next hpath' =>
  obtain ⟨version, rest, rfl, hversion, -, hscan⟩ :=
    @exists_scan (fun c => c ≠ 0 ∧ c ≠ 10) rfl rest behind
  rw [hscan]
  rw [ok_bind]
  cases rest with
  | nil => exact ⟨none, rfl, nofun⟩
  | cons c rest =>
  split
  · exact ⟨none, rfl, nofun⟩
  next hnewline =>
  obtain rfl : c = 10 := by simpa using hnewline
  refine ⟨_, rfl, ?_⟩
  rintro _ ⟨⟩
  refine ⟨⟨hmethod', by simpa using hmethod⟩, ⟨hpath', ?_, ?_⟩, version, rest, rfl, ?_, ?_⟩
  · exact fun h => by simpa using hpath _ h
  · exact fun h => by simpa using hpath _ h
  · exact fun h => by simpa using hversion _ h
  · intro c hc
    have hstop := hend c (by rw [head?_append, hc]; rfl)
    have hgo := hversion c (mem_of_mem_head? hc)
    simp only [decide_eq_true_eq, decide_eq_false_iff_not] at hstop hgo
    by_contra hne
    exact hstop ⟨hgo.1, hne, hgo.2⟩

theorem httpRequestParse_iff_get :
    httpRequestParse ([71, 32, 47, 10] ++ [0]) = .ok (some ⟨[71], [47]⟩) := by
  obtain ⟨r, hparse, hline⟩ := httpRequestParse_iff [71, 32, 47, 10] [] (by decide)
  have haccepted : r = some ⟨[71], [47]⟩ :=
    (hline _).mpr ⟨by simp, by simp, [], [], rfl, by simp, by simp⟩
  rw [hparse, haccepted]

end CS162
