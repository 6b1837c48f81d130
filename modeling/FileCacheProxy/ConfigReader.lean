import FileCacheProxy.Common
import FileCacheProxy.CRuntime
import FileCacheProxy.Lib.Loop
import Mathlib

set_option autoImplicit false

/-! # The configuration reader (`configReader.cpp`)

`split`, `trim` and the class `Config`: `load` reads a file line by line through a stream with
error bits and keeps the first value of every key, `getValue` looks a key up. `split` works on
`size_t` positions with `npos` as "not found"; `split_eq` replaces it by `Cut.pieces` once and for
all, and `trim_eq` replaces the iterator pair of `trim` by `Cut.strip`. -/

namespace FileCacheProxy

/-! ## `split` -/

/-- `std::string::npos` -/
def npos : ℕ := 2 ^ 64 - 1

/-- `a - b` on `size_t`. -/
def sizeSub (a b : ℕ) : ℕ :=
  (a + 2 ^ 64 - b) % 2 ^ 64

/-- The lambda `string_find_first_not`: the first position from `pos` on that is not `delim`. -/
def stringFindFirstNot (s : Bytes) (delim : UInt8) (pos : ℕ) : ℕ :=
  match (s.drop pos).findIdx? (· != delim) with
  | some i => pos + i
  | none => npos

/-- `s.find(delim, pos)` -/
def stringFind (s : Bytes) (delim : UInt8) (pos : ℕ) : ℕ :=
  match (s.drop pos).findIdx? (· == delim) with
  | some i => pos + i
  | none => npos

/-- `s.substr(pos, n)` -/
def substr (s : Bytes) (pos n : ℕ) : Bytes :=
  (s.drop pos).take n

/-- The variables of the `while` loop in `split`. -/
structure SplitState where
  lastPos : ℕ
  pos : ℕ
  tokens : List Bytes

def splitPass (s : Bytes) (delim : UInt8) (st : SplitState) : SplitState :=
  let lastPos := stringFindFirstNot s delim st.pos
  { lastPos := lastPos,
    pos := stringFind s delim lastPos,
    tokens := st.tokens ++ [substr s st.lastPos (sizeSub st.pos st.lastPos)] }

/-- `split(s, tokens, delim)`: the returned count and the vector it leaves. Every pass moves
    `lastPos` forward, so `s.size()` passes are enough. -/
def split (s : Bytes) (_tokens : List Bytes) (delim : UInt8) : Option (ℕ × List Bytes) :=
  let lastPos := stringFindFirstNot s delim 0
  let start : SplitState := ⟨lastPos, stringFind s delim lastPos, []⟩
  (Loop.run (fun st => st.lastPos != npos) (fun st => some (splitPass s delim st))
    s.length start).map (fun st => (st.tokens.length, st.tokens))

/-- The variables of the loop when pass `k` begins, `none` when there is no such pass. -/
def splitPassAt (s : Bytes) (delim : UInt8) (k : ℕ) : Option SplitState :=
  let lastPos := stringFindFirstNot s delim 0
  Loop.stateAt (fun st => st.lastPos != npos) (fun st => some (splitPass s delim st)) k
    ⟨lastPos, stringFind s delim lastPos, []⟩

theorem stringFindFirstNot_cases (s : Bytes) (delim : UInt8) (pos : ℕ) :
    (stringFindFirstNot s delim pos = npos ∧ ∀ x ∈ s.drop pos, x = delim) ∨
    ∃ a c r, s.drop pos = a ++ c :: r ∧ (∀ x ∈ a, x = delim) ∧ c ≠ delim ∧
      stringFindFirstNot s delim pos = pos + a.length := by
  unfold stringFindFirstNot
  rcases Cut.findIdx?_cases (· != delim) (s.drop pos) with ⟨h, hall⟩ | ⟨a, c, r, hs, ha, hc, h⟩
  · exact Or.inl ⟨by rw [h], by simpa using hall⟩
  · exact Or.inr ⟨a, c, r, hs, by simpa using ha, by simpa using hc, by rw [h]⟩

theorem stringFind_cases (s : Bytes) (delim : UInt8) (pos : ℕ) :
    (stringFind s delim pos = npos ∧ delim ∉ s.drop pos) ∨
    ∃ a r, s.drop pos = a ++ delim :: r ∧ delim ∉ a ∧ stringFind s delim pos = pos + a.length := by
  unfold stringFind
  rcases Cut.findIdx?_cases (· == delim) (s.drop pos) with ⟨h, hall⟩ | ⟨a, c, r, hs, ha, hc, h⟩
  · refine Or.inl ⟨by rw [h], fun hmem => ?_⟩
    simpa using hall delim hmem
  · obtain rfl : c = delim := by simpa using hc
    refine Or.inr ⟨a, r, hs, fun hmem => ?_, by rw [h]⟩
    simpa using ha c hmem

/-- The loop invariant of `split`: `pos` is the end of the token at `lastPos`, and the tokens taken
    so far followed by the pieces of the unread text are the pieces of `s`. -/
structure SplitInv (s : Bytes) (delim : UInt8) (st : SplitState) : Prop where
  pos_eq : st.pos = stringFind s delim st.lastPos
  token : st.lastPos ≠ npos → ∃ c r, s.drop st.lastPos = c :: r ∧ c ≠ delim
  pieces : st.tokens ++ Cut.pieces delim (s.drop st.lastPos) = Cut.pieces delim s

/-- The search for the next token start establishes the invariant: it skips delimiters only. -/
theorem SplitInv.next {s : Bytes} {delim : UInt8} (hs : s.length < npos) {q : ℕ}
    {tokens : List Bytes}
    (h : tokens ++ Cut.pieces delim (s.drop q) = Cut.pieces delim s) :
    SplitInv s delim
      ⟨stringFindFirstNot s delim q, stringFind s delim (stringFindFirstNot s delim q), tokens⟩ := by
  rcases stringFindFirstNot_cases s delim q with ⟨hf, hall⟩ | ⟨a, c, r, hdrop, ha, hc, hf⟩
  · -- only delimiters are left: the search gives `npos`, which ends the loop
    refine ⟨rfl, fun hne => absurd hf hne, ?_⟩
    have hnone : Cut.pieces delim (s.drop q) = [] := by
      rw [← List.append_nil (s.drop q), Cut.pieces_append_of_all hall, Cut.pieces_nil]
    rw [hnone] at h
    have hend : s.drop npos = [] := List.drop_eq_nil_of_le (by omega)
    rw [hf, hend, Cut.pieces_nil]
    exact h
  · have hnext : s.drop (q + a.length) = c :: r := by
      rw [← List.drop_drop, hdrop, List.drop_left]
    refine ⟨rfl, fun _ => ⟨c, r, by rw [hf, hnext], hc⟩, ?_⟩
    rw [hdrop, Cut.pieces_append_of_all ha] at h
    rw [hf, hnext]
    exact h

/-- A pass begins inside `s`. -/
theorem SplitInv.lt {s : Bytes} {delim : UInt8} {st : SplitState} (h : SplitInv s delim st)
    (hne : st.lastPos ≠ npos) : st.lastPos < s.length := by
  obtain ⟨c, r, hdrop, -⟩ := h.token hne
  have hlen := congrArg List.length hdrop
  simp only [List.length_drop, List.length_cons] at hlen
  omega

/-- What a pass takes out: the whole rest, when `pos` is `npos` and `substr` is clipped at the end of
    `s`, or the text up to the next delimiter. -/
theorem SplitInv.token_cases {s : Bytes} {delim : UInt8} (hs : s.length < npos) {st : SplitState}
    (h : SplitInv s delim st) (hne : st.lastPos ≠ npos) :
    (st.pos = npos ∧ delim ∉ s.drop st.lastPos ∧
      substr s st.lastPos (sizeSub st.pos st.lastPos) = s.drop st.lastPos) ∨
    ∃ a r, s.drop st.lastPos = a ++ delim :: r ∧ a ≠ [] ∧ delim ∉ a ∧
      st.pos = st.lastPos + a.length ∧ substr s st.lastPos (sizeSub st.pos st.lastPos) = a := by
  obtain ⟨c, r, hdrop, hc⟩ := h.token hne
  have hlt := h.lt hne
  have hnpos : npos = 2 ^ 64 - 1 := rfl
  rcases stringFind_cases s delim st.lastPos with ⟨hf, hnot⟩ | ⟨a, r', hdrop', hnot, hf⟩
  · have hpos : st.pos = npos := h.pos_eq.trans hf
    refine Or.inl ⟨hpos, hnot, ?_⟩
    rw [hpos, substr, List.take_of_length_le]
    rw [List.length_drop, sizeSub, hnpos]
    omega
  · have hpos : st.pos = st.lastPos + a.length := h.pos_eq.trans hf
    refine Or.inr ⟨a, r', hdrop', ?_, hnot, hpos, ?_⟩
    · intro ha
      rw [ha, hdrop] at hdrop'
      exact hc (List.cons.inj hdrop').1
    · have hlen := congrArg List.length hdrop'
      simp only [List.length_drop, List.length_append, List.length_cons] at hlen
      have hsub : sizeSub st.pos st.lastPos = a.length := by
        rw [hpos, sizeSub]
        omega
      rw [hsub, substr, hdrop', List.take_left]

/-- The search for a token start from `pos` on does not go back. -/
theorem le_stringFindFirstNot (s : Bytes) (delim : UInt8) {pos : ℕ} (h : pos ≤ npos) :
    pos ≤ stringFindFirstNot s delim pos := by
  rcases stringFindFirstNot_cases s delim pos with ⟨hg, -⟩ | ⟨_, _, _, _, _, _, hg⟩
  · rw [hg]
    exact h
  · omega

/-- One pass of the loop keeps the invariant and moves `lastPos` forward. -/
theorem SplitInv.pass {s : Bytes} {delim : UInt8} (hs : s.length < npos) {st : SplitState}
    (h : SplitInv s delim st) (hne : st.lastPos ≠ npos) :
    SplitInv s delim (splitPass s delim st) ∧
      s.length - (splitPass s delim st).lastPos < s.length - st.lastPos := by
  have hlt := h.lt hne
  have hpieces := h.pieces
  have hlast : (splitPass s delim st).lastPos = stringFindFirstNot s delim st.pos := rfl
  rcases h.token_cases hs hne with
    ⟨hpos, hnot, htok⟩ | ⟨a, r, hdrop, hane, hnot, hpos, htok⟩
  · -- the last token: the next search starts at `npos` and finds nothing
    have hq : s.drop st.pos = [] := List.drop_eq_nil_of_le (by omega)
    constructor
    · refine SplitInv.next hs ?_
      have hrest : (s.drop st.lastPos).isEmpty = false := by
        rw [List.isEmpty_eq_false_iff, ne_eq, List.drop_eq_nil_iff]
        omega
      rw [Cut.pieces_of_not_mem hnot, hrest, if_neg Bool.false_ne_true] at hpieces
      rw [htok, hq, Cut.pieces_nil, List.append_nil]
      exact hpieces
    · have hle := le_stringFindFirstNot s delim hpos.le
      rw [← hlast] at hle
      omega
  · -- a token followed by a delimiter
    have hq : s.drop st.pos = delim :: r := by
      rw [hpos, ← List.drop_drop, hdrop, List.drop_left]
    have hlen := congrArg List.length hdrop
    simp only [List.length_drop, List.length_append, List.length_cons] at hlen
    constructor
    · refine SplitInv.next hs ?_
      rw [hdrop, Cut.pieces_append_cons hnot hane] at hpieces
      rw [htok, hq, Cut.pieces_cons_self, ← hpieces]
      simp
    · have hapos : 0 < a.length := List.length_pos_of_ne_nil hane
      have hle := le_stringFindFirstNot s delim (show st.pos ≤ npos by omega)
      rw [← hlast] at hle
      omega

/-- The loop starts with the search for the first token. -/
theorem SplitInv.start {s : Bytes} (hs : s.length < npos) (delim : UInt8) :
    SplitInv s delim ⟨stringFindFirstNot s delim 0,
      stringFind s delim (stringFindFirstNot s delim 0), []⟩ :=
  SplitInv.next hs (by simp)

/-- **`split` is cutting at every delimiter and dropping the empty pieces.** -/
theorem split_eq {s : Bytes} (hs : s.length < npos) (tokens : List Bytes) (delim : UInt8) :
    split s tokens delim = some ((Cut.pieces delim s).length, Cut.pieces delim s) := by
  obtain ⟨t, ht, hinv, hexit⟩ := Loop.run_total (fun st => st.lastPos != npos)
    (fun st => some (splitPass s delim st)) (SplitInv s delim) (fun st => s.length - st.lastPos)
    (fun st hst hc => ⟨_, rfl, hst.pass hs (by simpa using hc)⟩)
    s.length _ (SplitInv.start hs delim) (Nat.sub_le _ _)
  have hend : t.lastPos = npos := by simpa using hexit
  have htok := hinv.pieces
  rw [hend, List.drop_eq_nil_of_le (by omega), Cut.pieces_nil, List.append_nil] at htok
  rw [split, ht, Option.map_some, htok]

/-- Every pass begins inside `s`, which is what `substr` asks for. -/
theorem splitPassAt_lt {s : Bytes} (hs : s.length < npos) {delim : UInt8} {k : ℕ} {st : SplitState}
    (h : splitPassAt s delim k = some st) : st.lastPos < s.length := by
  have hstep : ∀ st st', SplitInv s delim st → (st.lastPos != npos) = true →
      some (splitPass s delim st) = some st' → SplitInv s delim st' := by
    intro st st' hst hc hpass
    cases hpass
    exact (hst.pass hs (by simpa using hc)).1
  obtain ⟨hinv, hopen⟩ := Loop.stateAt_inv _ _ hstep (SplitInv.start hs delim) h
  exact hinv.lt (by simpa using hopen)

/-- **`split` takes out the maximal runs without delimiter**, in order, whatever the vector held. It
    ends, the count is that of the tokens, and no pass looks behind the end of `s`. -/
theorem split_runs {s : Bytes} (hs : s.length < npos) (tokens : List Bytes) (delim : UInt8) :
    ∃ rs, Cut.Runs delim s rs ∧
      split s tokens delim = some (rs.length, rs.map (fun r => s.extract r.1 r.2)) ∧
      rs.map (fun r => s.extract r.1 r.2) = Cut.pieces delim s ∧
      ∀ k st, splitPassAt s delim k = some st → st.lastPos < s.length := by
  obtain ⟨rs, hrs, htexts⟩ := Cut.exists_runs delim s
  have hcount : (Cut.pieces delim s).length = rs.length := by
    rw [← htexts, List.length_map]
  refine ⟨rs, hrs, ?_, htexts, fun _ _ h => splitPassAt_lt hs h⟩
  rw [split_eq hs, htexts, hcount]

/-- Delimiters in front, behind and twice in the middle, and a vector that was not empty. -/
theorem split_runs_repeated :
    split (ascii "=a==bc=") [ascii "old"] 61 = some (2, [ascii "a", ascii "bc"]) ∧
      ∃ rs, Cut.Runs 61 (ascii "=a==bc=") rs ∧
        split (ascii "=a==bc=") [ascii "old"] 61
          = some (rs.length, rs.map (fun r => (ascii "=a==bc=").extract r.1 r.2)) ∧
        rs.map (fun r => (ascii "=a==bc=").extract r.1 r.2) = Cut.pieces 61 (ascii "=a==bc=") ∧
        ∀ k st, splitPassAt (ascii "=a==bc=") 61 k = some st →
          st.lastPos < (ascii "=a==bc=").length :=
  ⟨by decide, split_runs (by decide) [ascii "old"] 61⟩

/-! ## `trim` -/

/-- `trim(s)`: the two iterators are the index of the first non-space character and the index
    behind the last one. -/
def trim (s : Bytes) : Bytes :=
  let iter1 := s.findIdx (fun ch => !isspace ch)
  let iter2 := s.length - s.reverse.findIdx (fun ch => !isspace ch)
  if iter1 < iter2 then (s.take iter2).drop iter1 else []

theorem findIdx_pad {a k : Bytes} (ha : ∀ x ∈ a, isspace x = true)
    (hk : ∀ c ∈ k.head?, isspace c = false) :
    (a ++ k).findIdx (fun ch => !isspace ch) = a.length := by
  induction a with
  | nil =>
      cases k with
      | nil => rfl
      | cons c k => simp [List.findIdx_cons, hk c (by simp)]
  | cons x a ih =>
      obtain ⟨hx, ha⟩ := List.forall_mem_cons.1 ha
      simp [List.findIdx_cons, hx, ih ha]

theorem trim_eq (s : Bytes) : trim s = Cut.strip isspace s := by
  rcases Cut.pad_cases isspace s with hall | ⟨a, k, b, rfl, ha, hb, hne, hk⟩
  · have hend : s.findIdx (fun ch => !isspace ch) = s.length :=
      List.findIdx_eq_length_of_false (by simpa using hall)
    have hle : s.length - s.reverse.findIdx (fun ch => !isspace ch) ≤ s.length := Nat.sub_le _ _
    rw [Cut.strip_of_all hall, trim, hend, if_neg (by omega)]
  · have h1 : (a ++ k ++ b).findIdx (fun ch => !isspace ch) = a.length := by
      rw [List.append_assoc]
      refine findIdx_pad ha (fun c hc => hk.1 c ?_)
      rwa [List.head?_append_of_ne_nil _ hne] at hc
    have h2 : (a ++ k ++ b).reverse.findIdx (fun ch => !isspace ch) = b.length := by
      rw [List.reverse_append, ← List.length_reverse]
      refine findIdx_pad (by simpa using hb) (fun c hc => hk.2 c ?_)
      rw [List.reverse_append, List.head?_append_of_ne_nil _ (by simpa using hne)] at hc
      simpa using hc
    have hpos : 0 < k.length := List.length_pos_of_ne_nil hne
    rw [Cut.strip_pad ha hb hne hk, trim, h1, h2]
    simp only [List.length_append, Nat.add_sub_cancel]
    rw [if_pos (by omega), ← List.length_append, List.take_left, List.drop_left]

/-! ## `str2int` -/

def isdigit (c : UInt8) : Bool :=
  48 ≤ c && c ≤ 57

/-- `strtol(s, nullptr, 10)` with a 64-bit `long`: blanks, a sign, digits; out of range it gives the
    nearest limit. -/
def strtol (s : Bytes) : ℤ :=
  let t := (cstr s).dropWhile isspace
  let neg := t.head? == some 45
  let digits := if neg || t.head? == some 43 then t.tail else t
  let n : ℕ := (digits.takeWhile isdigit).foldl (fun n c => 10 * n + (c.toNat - 48)) 0
  max (-2 ^ 63) (min (2 ^ 63 - 1) (if neg then -n else n))

/-- `str2int`: the `long` is converted to `int`. -/
def str2int (str : Bytes) : ℤ :=
  (strtol str).bmod (2 ^ 32)

/-! ## `Config` -/

/-- `'='` -/
def EQ : UInt8 := 61

/-- The data members of `Config`. -/
structure Config where
  filePath : Bytes
  mItems : Std.TreeMap Bytes Bytes

/-- The constructor. -/
def Config.new (filePath : Bytes) : Config :=
  ⟨filePath, ∅⟩

/-- `Config::MAX_LINE` -/
def MAX_LINE : ℕ := 256

/-- What `Load` works on: the open stream and the map. -/
structure LoadState where
  fConfig : IStream
  mItems : Std.TreeMap Bytes Bytes

/-- One pass of the `while (!fConfig.eof())` loop. `insert` keeps the value a key already has. -/
def loadPass (st : LoadState) : Option LoadState := do
  let r := st.fConfig.getline 100
  -- `buffer` was zeroed, so the line ends at the first NUL that was read, or behind the text
  let buffer := r.1 ++ List.replicate (MAX_LINE - r.1.length) NUL
  let line := cstr buffer
  let (cnt, tokens) ← split line [] EQ
  if cnt ≠ 2 then
    some { st with fConfig := r.2 }
  else
    some { fConfig := r.2,
           mItems := st.mItems.insertIfNew (trim (tokens.getD 0 [])) (trim (tokens.getD 1 [])) }

/-- `Config::Load` on a file system `fs` (`none`: the file cannot be opened). The result is `none`
    when `fuel` passes do not finish the loop. -/
def Config.load (fs : Bytes → Option Bytes) (fuel : ℕ) (c : Config) : Option (ℤ × Config) :=
  match fs c.filePath with
  | none => some (ERR_FILE_OPEN_FAILED, c)
  | some content =>
      (Loop.run (fun st => !st.fConfig.eofbit) loadPass fuel ⟨IStream.open content, c.mItems⟩).map
        (fun st => (0, { c with mItems := st.mItems }))

/-- `Config::getValue(std::string &Key)` -/
def Config.getValue (c : Config) (Key : Bytes) : Bytes :=
  (c.mItems[Key]?).getD []

/-- `Config::getValue(const char *Key)`: the overload on a C string in memory. -/
def Config.getValueChars (c : Config) (Key : Bytes) : Bytes :=
  (c.mItems[cstr Key]?).getD []

end FileCacheProxy
