import FileCacheProxy.Lib.Cut

set_option autoImplicit false

/-! # The C and C++ library calls behind the sources

Byte strings, and the input functions of the standard library the proxy and the cleaner read their
files with: `istream::getline` with its error bits (`Config::Load`) and `fgets` (`expireCleaner`).
Both are translated from the library's documented order of tests, since it decides what happens
at the buffer limit. -/

namespace FileCacheProxy

/-- A byte string: a file's content, a `std::string`, or the text of a C string. -/
abbrev Bytes := List UInt8

/-- The bytes of an ASCII literal of the source. -/
def ascii (s : String) : Bytes :=
  s.toList.map (fun c => UInt8.ofNat c.toNat)

/-- `'\n'` -/
def LF : UInt8 := 10

/-- `'\0'` -/
def NUL : UInt8 := 0

/-- The range of an `int`. -/
def InInt (z : ℤ) : Prop :=
  -2 ^ 31 ≤ z ∧ z ≤ 2 ^ 31 - 1

/-- The C string that starts at the first byte of `mem`. -/
def cstr (mem : Bytes) : Bytes :=
  mem.takeWhile (· != NUL)

/-- `isspace` in the C locale. -/
def isspace (c : UInt8) : Bool :=
  (9 ≤ c && c ≤ 13) || c == 32

theorem cstr_eq_self {s : Bytes} (h : NUL ∉ s) : cstr s = s := by
  rw [cstr, List.takeWhile_eq_self_iff]
  intro x hx
  have hne : x ≠ NUL := fun he => h (he ▸ hx)
  simpa using hne

theorem NUL_not_mem_cstr (s : Bytes) : NUL ∉ cstr s := by
  intro h
  have := List.mem_takeWhile_imp h
  simp at this

/-- Reading a C string back out of a zero-filled buffer. -/
theorem cstr_append_replicate (s : Bytes) (n : ℕ) : cstr (s ++ List.replicate n NUL) = cstr s := by
  induction s with
  | nil => cases n <;> simp [cstr, List.replicate_succ]
  | cons c s ih =>
      simp only [cstr, List.cons_append, List.takeWhile_cons] at ih ⊢
      rw [ih]

theorem cstr_length_le (s : Bytes) : (cstr s).length ≤ s.length :=
  (List.takeWhile_sublist _).length_le

/-! ## `istream::getline` -/

/-- An input stream on a file: the bytes not yet extracted and the two error bits `getline` sets. -/
structure IStream where
  rest : Bytes
  eofbit : Bool
  failbit : Bool

/-- A freshly opened `ifstream`. -/
def IStream.open (content : Bytes) : IStream :=
  ⟨content, false, false⟩

/-- Why `getline` stops extracting. -/
inductive Stop where
  | eof
  | delim
  | full
  deriving DecidableEq

/-- The extraction loop of `getline` with room for `room` more characters: the characters stored,
    what is left on the stream, and the reason to stop. End of file is tested first, then the
    delimiter, and the room only after both. -/
def getlineScan : ℕ → Bytes → Bytes × Bytes × Stop
  | _, [] => ([], [], .eof)
  | 0, c :: cs => if c = LF then ([], cs, .delim) else ([], c :: cs, .full)
  | room + 1, c :: cs =>
      if c = LF then ([], cs, .delim)
      else
        let r := getlineScan room cs
        (c :: r.1, r.2.1, r.2.2)

/-- `getline(buffer, n)` for `n ≥ 1`: the characters it stores before its terminating NUL, and the
    stream afterwards. On a stream that is not `good()` the sentry fails: nothing is extracted. -/
def IStream.getline (n : ℕ) (is : IStream) : Bytes × IStream :=
  if is.eofbit || is.failbit then ([], { is with failbit := true })
  else
    let r := getlineScan (n - 1) is.rest
    let stored := r.1
    let extractedNone := stored.isEmpty && r.2.2 != .delim
    (stored,
      { rest := r.2.1,
        eofbit := r.2.2 == .eof,
        failbit := r.2.2 == .full || extractedNone })

/-- A line that fits is read whole. -/
theorem getlineScan_line {line : Bytes} {room : ℕ} (hLF : LF ∉ line) (hfit : line.length ≤ room)
    (rest : Bytes) : getlineScan room (line ++ LF :: rest) = (line, rest, .delim) := by
  induction line generalizing room with
  | nil => cases room <;> simp [getlineScan]
  | cons c line ih =>
      simp only [List.mem_cons, not_or] at hLF
      obtain ⟨room, rfl⟩ : ∃ k, room = k + 1 := ⟨room - 1, by simp at hfit; omega⟩
      simp only [List.cons_append, getlineScan, if_neg (Ne.symm hLF.1)]
      rw [ih hLF.2 (by simpa using hfit)]

/-- So is the last line of a file that does not end in a newline, up to the same limit. -/
theorem getlineScan_last {line : Bytes} {room : ℕ} (hLF : LF ∉ line) (hfit : line.length ≤ room) :
    getlineScan room line = (line, [], .eof) := by
  induction line generalizing room with
  | nil => simp [getlineScan]
  | cons c line ih =>
      simp only [List.mem_cons, not_or] at hLF
      obtain ⟨room, rfl⟩ : ∃ k, room = k + 1 := ⟨room - 1, by simp at hfit; omega⟩
      simp only [getlineScan, if_neg (Ne.symm hLF.1)]
      rw [ih hLF.2 (by simpa using hfit)]

/-- A line that does not fit stops the scan in its middle. -/
theorem getlineScan_full {line : Bytes} {room : ℕ} (hLF : LF ∉ line) (hlong : room < line.length)
    (rest : Bytes) :
    getlineScan room (line ++ rest) = (line.take room, line.drop room ++ rest, .full) := by
  induction line generalizing room with
  | nil => simp at hlong
  | cons c line ih =>
      simp only [List.mem_cons, not_or] at hLF
      cases room with
      | zero => simp [getlineScan, Ne.symm hLF.1]
      | succ room =>
          simp only [List.cons_append, getlineScan, if_neg (Ne.symm hLF.1)]
          rw [ih hLF.2 (by simpa using hlong)]
          simp

/-- What is stored is part of a line, and fits. -/
theorem getlineScan_stored (room : ℕ) (s : Bytes) :
    LF ∉ (getlineScan room s).1 ∧ (getlineScan room s).1.length ≤ room := by
  induction s generalizing room with
  | nil => cases room <;> exact ⟨List.not_mem_nil, Nat.zero_le _⟩
  | cons c s ih =>
      cases room with
      | zero =>
          unfold getlineScan
          split <;> exact ⟨List.not_mem_nil, Nat.zero_le _⟩
      | succ room =>
          unfold getlineScan
          split
          · exact ⟨List.not_mem_nil, Nat.zero_le _⟩
          · next hc =>
              obtain ⟨hLF, hlen⟩ := ih room
              refine ⟨?_, Nat.succ_le_succ hlen⟩
              rw [List.mem_cons, not_or]
              exact ⟨Ne.symm hc, hLF⟩

/-- Whatever the state of the stream. -/
theorem IStream.getline_stored (is : IStream) (n : ℕ) :
    LF ∉ (is.getline n).1 ∧ (is.getline n).1.length ≤ n - 1 := by
  unfold IStream.getline
  split
  · exact ⟨List.not_mem_nil, Nat.zero_le _⟩
  · exact getlineScan_stored (n - 1) is.rest

theorem IStream.getline_line {line : Bytes} {n : ℕ} (hLF : LF ∉ line) (hfit : line.length ≤ n - 1)
    (rest : Bytes) :
    (IStream.open (line ++ LF :: rest)).getline n = (line, IStream.open rest) := by
  simp [IStream.getline, IStream.open, getlineScan_line hLF hfit]

theorem IStream.getline_last {line : Bytes} {n : ℕ} (hLF : LF ∉ line)
    (hfit : line.length ≤ n - 1) :
    (IStream.open line).getline n = (line, ⟨[], true, line.isEmpty⟩) := by
  have hne : (Stop.eof == Stop.full) = false := by decide
  have hnd : (Stop.eof != Stop.delim) = true := by decide
  simp [IStream.getline, IStream.open, getlineScan_last hLF hfit, hne, hnd]

/-- The stream is left with `failbit`, and without `eofbit`. -/
theorem IStream.getline_full {line : Bytes} {n : ℕ} (hLF : LF ∉ line) (hlong : n - 1 < line.length)
    (rest : Bytes) :
    ((IStream.open (line ++ rest)).getline n).2.eofbit = false ∧
      ((IStream.open (line ++ rest)).getline n).2.failbit = true := by
  simp only [IStream.getline, IStream.open, getlineScan_full hLF hlong, Bool.or_self,
    Bool.false_eq_true, if_false]
  exact ⟨rfl, rfl⟩

/-- A stream with `failbit` stays as it is. -/
theorem IStream.getline_of_failbit {is : IStream} (h : is.failbit = true) (n : ℕ) :
    (is.getline n).2 = is := by
  cases is
  simp_all [IStream.getline]

/-! ## `fgets` -/

/-- The reading loop of `fgets` with room for `room` more characters: what it stores and what it
    leaves. It stops after a newline, which it keeps. -/
def fgetsScan : ℕ → Bytes → Bytes × Bytes
  | 0, s => ([], s)
  | _ + 1, [] => ([], [])
  | room + 1, c :: cs =>
      if c = LF then ([LF], cs)
      else
        let r := fgetsScan room cs
        (c :: r.1, r.2)

/-- `fgets(s, size, fp)` on what is left of a file: `none` for `NULL`. -/
def fgets (size : ℕ) (fp : Bytes) : Option (Bytes × Bytes) :=
  let r := fgetsScan (size - 1) fp
  if r.1.isEmpty then none else some r

theorem fgetsScan_append (room : ℕ) (s : Bytes) :
    (fgetsScan room s).1 ++ (fgetsScan room s).2 = s := by
  induction s generalizing room with
  | nil => cases room <;> rfl
  | cons c s ih =>
      cases room with
      | zero => rfl
      | succ room =>
          unfold fgetsScan
          split
          · next h => rw [h, List.singleton_append]
          · rw [List.cons_append, ih room]

theorem fgetsScan_eq_nil {room : ℕ} {s : Bytes} (h : (fgetsScan (room + 1) s).1 = []) : s = [] := by
  cases s with
  | nil => rfl
  | cons c s =>
      unfold fgetsScan at h
      split at h <;> exact absurd h (List.cons_ne_nil _ _)

/-- `fgets` takes a non-empty piece off the front. -/
theorem fgets_eq_some {size : ℕ} {s piece rest : Bytes} (h : fgets size s = some (piece, rest)) :
    piece ≠ [] ∧ s = piece ++ rest := by
  unfold fgets at h
  dsimp only at h
  split at h
  · exact absurd h (by simp)
  · next hne =>
      rw [Option.some.injEq] at h
      have happ := fgetsScan_append (size - 1) s
      rw [h] at happ hne
      exact ⟨by simpa using hne, happ.symm⟩

/-- With room for one character, only the end of the file gives `NULL`. -/
theorem fgets_eq_none {room : ℕ} {s : Bytes} (h : fgets (room + 2) s = none) : s = [] := by
  unfold fgets at h
  dsimp only at h
  split at h
  · next hnil => exact fgetsScan_eq_nil (by simpa using hnil)
  · exact absurd h (by simp)

/-- What is stored fits into the buffer, with a NUL behind it. -/
theorem fgetsScan_length_le (room : ℕ) (s : Bytes) : (fgetsScan room s).1.length ≤ room := by
  induction s generalizing room with
  | nil => cases room <;> exact Nat.zero_le _
  | cons c s ih =>
      cases room with
      | zero => exact le_rfl
      | succ room =>
          unfold fgetsScan
          split
          · exact Nat.succ_le_succ (Nat.zero_le _)
          · rw [List.length_cons]
            exact Nat.succ_le_succ (ih room)

/-- A last line that has no newline and fits is read whole. -/
theorem fgetsScan_whole {room : ℕ} {s : Bytes} (h : LF ∉ s) (hlen : s.length ≤ room) :
    fgetsScan room s = (s, []) := by
  induction s generalizing room with
  | nil => cases room <;> rfl
  | cons c s ih =>
      obtain ⟨hc, hs⟩ := List.ne_and_not_mem_of_not_mem_cons h
      cases room with
      | zero => exact absurd hlen (by simp)
      | succ room =>
          unfold fgetsScan
          rw [if_neg (Ne.symm hc), ih hs (by simpa using hlen)]

/-- The pieces successive calls of `fgets` read, at most `fuel` of them. -/
def fgetsPieces (size : ℕ) : ℕ → Bytes → List Bytes
  | 0, _ => []
  | fuel + 1, s =>
      match fgets size s with
      | none => []
      | some (piece, rest) => piece :: fgetsPieces size fuel rest

/-- Nothing of the file is skipped, nothing is read twice. -/
theorem fgetsPieces_flatten {room fuel : ℕ} {s : Bytes} (h : s.length ≤ fuel) :
    (fgetsPieces (room + 2) fuel s).flatten = s := by
  induction fuel generalizing s with
  | zero =>
      have hs : s = [] := List.length_eq_zero_iff.1 (by simpa using h)
      rw [hs]
      rfl
  | succ fuel ih =>
      unfold fgetsPieces
      cases hread : fgets (room + 2) s with
      | none =>
          rw [fgets_eq_none hread]
          rfl
      | some r =>
          obtain ⟨piece, rest⟩ := r
          obtain ⟨hne, rfl⟩ := fgets_eq_some hread
          have hpos : 0 < piece.length := List.length_pos_of_ne_nil hne
          rw [List.length_append] at h
          show piece ++ (fgetsPieces (room + 2) fuel rest).flatten = piece ++ rest
          rw [ih (by omega)]

theorem length_le_of_mem_fgetsPieces {size fuel : ℕ} {s piece : Bytes}
    (h : piece ∈ fgetsPieces size fuel s) : piece.length ≤ size - 1 := by
  induction fuel generalizing s with
  | zero => exact absurd h List.not_mem_nil
  | succ fuel ih =>
      unfold fgetsPieces at h
      cases hread : fgets size s with
      | none =>
          rw [hread] at h
          exact absurd h List.not_mem_nil
      | some r =>
          obtain ⟨piece', rest⟩ := r
          rw [hread] at h
          rcases List.mem_cons.1 h with rfl | hrest
          · unfold fgets at hread
            dsimp only at hread
            split at hread
            · exact absurd hread (by simp)
            · have hscan := fgetsScan_length_le (size - 1) s
              rw [Option.some.inj hread] at hscan
              exact hscan
          · exact ih hrest

end FileCacheProxy
