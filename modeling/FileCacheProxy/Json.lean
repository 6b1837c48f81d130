import FileCacheProxy.CRuntime
import Mathlib

set_option autoImplicit false
-- the facts about all 256 bytes are decided one byte after the other
set_option maxRecDepth 1500

/-! # JSON texts (`json.hpp`)

The part of the vendored JSON library the handlers use: objects built with `operator[]`, and
`dump()` with its default arguments (compact, `ensure_ascii` off, strict error handler). Strings go
through `dump_escaped`, which runs a UTF-8 decoder over the bytes and throws on an invalid
sequence (`none` below). Its 512-byte output buffer only batches the writes and is not modelled.

Two facts are used later: a dumped text has no control characters (`Json.dump_noControl`), so it is one
line and one C string, and dumping does not throw on valid UTF-8 (`dumpEscaped_isSome`). -/

namespace FileCacheProxy

/-! ## The UTF-8 decoder -/

/-- The table of `decode`: the class of each byte, then nine rows of transitions. -/
def utf8d : List ℕ :=
  [0, 0, 0, 0, 0, 0, 0, 0, 0, 0, 0, 0, 0, 0, 0, 0, 0, 0, 0, 0, 0, 0, 0, 0, 0, 0, 0, 0, 0, 0, 0, 0,
   0, 0, 0, 0, 0, 0, 0, 0, 0, 0, 0, 0, 0, 0, 0, 0, 0, 0, 0, 0, 0, 0, 0, 0, 0, 0, 0, 0, 0, 0, 0, 0,
   0, 0, 0, 0, 0, 0, 0, 0, 0, 0, 0, 0, 0, 0, 0, 0, 0, 0, 0, 0, 0, 0, 0, 0, 0, 0, 0, 0, 0, 0, 0, 0,
   0, 0, 0, 0, 0, 0, 0, 0, 0, 0, 0, 0, 0, 0, 0, 0, 0, 0, 0, 0, 0, 0, 0, 0, 0, 0, 0, 0, 0, 0, 0, 0,
   1, 1, 1, 1, 1, 1, 1, 1, 1, 1, 1, 1, 1, 1, 1, 1, 9, 9, 9, 9, 9, 9, 9, 9, 9, 9, 9, 9, 9, 9, 9, 9,
   7, 7, 7, 7, 7, 7, 7, 7, 7, 7, 7, 7, 7, 7, 7, 7, 7, 7, 7, 7, 7, 7, 7, 7, 7, 7, 7, 7, 7, 7, 7, 7,
   8, 8, 2, 2, 2, 2, 2, 2, 2, 2, 2, 2, 2, 2, 2, 2, 2, 2, 2, 2, 2, 2, 2, 2, 2, 2, 2, 2, 2, 2, 2, 2,
   0xA, 0x3, 0x3, 0x3, 0x3, 0x3, 0x3, 0x3, 0x3, 0x3, 0x3, 0x3, 0x3, 0x4, 0x3, 0x3,
   0xB, 0x6, 0x6, 0x6, 0x5, 0x8, 0x8, 0x8, 0x8, 0x8, 0x8, 0x8, 0x8, 0x8, 0x8, 0x8,
   0x0, 0x1, 0x2, 0x3, 0x5, 0x8, 0x7, 0x1, 0x1, 0x1, 0x4, 0x6, 0x1, 0x1, 0x1, 0x1,
   1, 1, 1, 1, 1, 1, 1, 1, 1, 1, 1, 1, 1, 1, 1, 1, 1, 0, 1, 1, 1, 1, 1, 0, 1, 0, 1, 1, 1, 1, 1, 1,
   1, 2, 1, 1, 1, 1, 1, 2, 1, 2, 1, 1, 1, 1, 1, 1, 1, 1, 1, 1, 1, 1, 1, 2, 1, 1, 1, 1, 1, 1, 1, 1,
   1, 2, 1, 1, 1, 1, 1, 1, 1, 2, 1, 1, 1, 1, 1, 1, 1, 1, 1, 1, 1, 1, 1, 3, 1, 3, 1, 1, 1, 1, 1, 1,
   1, 3, 1, 1, 1, 1, 1, 3, 1, 3, 1, 1, 1, 1, 1, 1, 1, 3, 1, 1, 1, 1, 1, 1, 1, 1, 1, 1, 1, 1, 1, 1]

def UTF8_ACCEPT : ℕ := 0
def UTF8_REJECT : ℕ := 1

/-- The class of a byte. -/
def utf8Type (byte : UInt8) : ℕ :=
  utf8d.getD byte.toNat 0

/-- The decoder state after a byte of class `type`. -/
def utf8Next (state type : ℕ) : ℕ :=
  utf8d.getD (256 + state * 16 + type) 0

/-- `decode(state, codep, byte)`: the new state and code point. -/
def decode (state : ℕ) (codep : UInt32) (byte : UInt8) : ℕ × UInt32 :=
  let type := utf8Type byte
  (utf8Next state type,
    if state ≠ UTF8_ACCEPT then (byte.toUInt32 &&& (0x3f : UInt32)) ||| (codep <<< 6)
    else ((0xFF : UInt32) >>> UInt32.ofNat type) &&& byte.toUInt32)

theorem utf8Type_le (byte : UInt8) : utf8Type byte ≤ 11 := by
  revert byte
  decide

theorem utf8Type_ascii : ∀ byte : UInt8, byte < 0x80 → utf8Type byte = 0 := by
  decide

theorem utf8Next_le {state type : ℕ} (hs : state ≤ 8) (ht : type ≤ 11) :
    utf8Next state type ≤ 8 := by
  have h : ∀ s ≤ 8, ∀ t ≤ 11, utf8Next s t ≤ 8 := by decide
  exact h state hs type ht

/-- A byte below `0x80` is a character of its own, and is never part of a longer sequence. -/
theorem utf8Next_ascii {state : ℕ} (hs : state ≤ 8) :
    utf8Next state 0 = if state = UTF8_ACCEPT then UTF8_ACCEPT else UTF8_REJECT := by
  have h : ∀ s ≤ 8, utf8Next s 0 = if s = UTF8_ACCEPT then UTF8_ACCEPT else UTF8_REJECT := by
    decide
  exact h state hs

theorem decode_ascii (codep : UInt32) {byte : UInt8} (h : byte < 0x80) :
    decode UTF8_ACCEPT codep byte = (UTF8_ACCEPT, byte.toUInt32) := by
  have hcp : ∀ b : UInt8, b < 0x80 →
      ((0xFF : UInt32) >>> UInt32.ofNat 0) &&& b.toUInt32 = b.toUInt32 := by
    decide
  simp only [decode, utf8Type_ascii byte h]
  rw [utf8Next_ascii (by decide), if_pos rfl, if_neg (by simp), hcp byte h]

/-! ## `dump_escaped` -/

/-- The lower-case hexadecimal digit of `n < 16`. -/
def hexDigit (n : ℕ) : UInt8 :=
  UInt8.ofNat (if n < 10 then 48 + n else 87 + n)

/-- `"%04x"` of a 16-bit value. -/
def hex4 (n : ℕ) : Bytes :=
  [hexDigit (n / 4096 % 16), hexDigit (n / 256 % 16), hexDigit (n / 16 % 16), hexDigit (n % 16)]

/-- What is written when `decode` has found a code point whose last byte is `byte`. -/
def escapeCodepoint (codepoint : UInt32) (byte : UInt8) : Bytes :=
  if codepoint = 0x08 then ascii "\\b"
  else if codepoint = 0x09 then ascii "\\t"
  else if codepoint = 0x0A then ascii "\\n"
  else if codepoint = 0x0C then ascii "\\f"
  else if codepoint = 0x0D then ascii "\\r"
  else if codepoint = 0x22 then ascii "\\\""
  else if codepoint = 0x5C then ascii "\\\\"
  else if codepoint ≤ 0x1F then ascii "\\u" ++ hex4 codepoint.toNat
  else [byte]

/-- The loop of `dump_escaped` from a decoder state on. `none`: it throws `type_error` 316. -/
def dumpEscapedFrom (state : ℕ) (codep : UInt32) : Bytes → Option Bytes
  | [] => if state = UTF8_ACCEPT then some [] else none
  | byte :: s =>
      let r := decode state codep byte
      if r.1 = UTF8_ACCEPT then (dumpEscapedFrom r.1 r.2 s).map (escapeCodepoint r.2 byte ++ ·)
      else if r.1 = UTF8_REJECT then none
      else (dumpEscapedFrom r.1 r.2 s).map (byte :: ·)

/-- `dump_escaped(s)` -/
def dumpEscaped (s : Bytes) : Option Bytes :=
  dumpEscapedFrom UTF8_ACCEPT 0 s

/-- No byte of `s` is a control character. -/
def noControl (s : Bytes) : Bool :=
  s.all (fun c => 32 ≤ c)

@[simp] theorem noControl_append (s t : Bytes) :
    noControl (s ++ t) = (noControl s && noControl t) := by
  simp [noControl]

theorem noControl.not_mem {s : Bytes} (h : noControl s = true) {c : UInt8} (hc : c < 32) :
    c ∉ s := by
  intro hmem
  have hle : 32 ≤ c := by simpa using List.all_eq_true.1 h c hmem
  exact absurd hc (UInt8.not_lt.2 hle)

theorem hex4_noControl (n : ℕ) : noControl (hex4 n) = true := by
  have hdigit : ∀ m < 16, 32 ≤ hexDigit m := by decide
  simp [noControl, hex4, hdigit _ (Nat.mod_lt _ (by decide : 16 > 0))]

/-- An escape sequence is printable; a byte copied as it is may be anything. -/
theorem escapeCodepoint_noControl {codepoint : UInt32} {byte : UInt8}
    (h : ¬ codepoint ≤ 0x1F → 32 ≤ byte) : noControl (escapeCodepoint codepoint byte) = true := by
  unfold escapeCodepoint
  split_ifs with h1 h2 h3 h4 h5 h6 h7 hcp
  · rfl
  · rfl
  · rfl
  · rfl
  · rfl
  · rfl
  · rfl
  · rw [noControl_append, hex4_noControl]
    rfl
  · simpa [noControl] using h hcp

/-- A byte that ends a code point above `0x1F` is no control character, and neither is a byte
    inside a longer sequence. -/
theorem decode_noControl {state : ℕ} (hs : state ≤ 8) (codep : UInt32) (byte : UInt8) :
    ((decode state codep byte).1 = UTF8_ACCEPT → ¬ (decode state codep byte).2 ≤ 0x1F →
      32 ≤ byte) ∧
    ((decode state codep byte).1 ≠ UTF8_ACCEPT → (decode state codep byte).1 ≠ UTF8_REJECT →
      32 ≤ byte) := by
  by_cases hlow : byte < 32
  · -- a control byte is a character of its own, or an error in the middle of one
    have hascii : byte < 0x80 := UInt8.lt_trans hlow (by decide)
    by_cases hstate : state = UTF8_ACCEPT
    · subst hstate
      rw [decode_ascii codep hascii]
      refine ⟨fun _ hcp => absurd ?_ hcp, fun hne => absurd rfl hne⟩
      have h : ∀ b : UInt8, b < 32 → b.toUInt32 ≤ 0x1F := by decide
      exact h byte hlow
    · have hrej : (decode state codep byte).1 = UTF8_REJECT := by
        simp only [decode, utf8Type_ascii byte hascii]
        rw [utf8Next_ascii hs, if_neg hstate]
      rw [hrej]
      exact ⟨fun h => absurd h (by decide), fun _ h => absurd rfl h⟩
  · have hge : 32 ≤ byte := UInt8.not_lt.1 hlow
    exact ⟨fun _ _ => hge, fun _ _ => hge⟩

theorem dumpEscapedFrom_noControl (s : Bytes) :
    ∀ (state : ℕ) (codep : UInt32) (out : Bytes), state ≤ 8 →
      dumpEscapedFrom state codep s = some out → noControl out = true := by
  induction s with
  | nil =>
      intro state codep out _ h
      simp only [dumpEscapedFrom] at h
      split at h
      · rw [← Option.some.inj h]
        rfl
      · exact absurd h (by simp)
  | cons byte s ih =>
      intro state codep out hs h
      have hnext : (decode state codep byte).1 ≤ 8 := utf8Next_le hs (utf8Type_le byte)
      have hbyte := decode_noControl hs codep byte
      simp only [dumpEscapedFrom] at h
      split at h
      · next hacc =>
          obtain ⟨rest, hrest, rfl⟩ := Option.map_eq_some_iff.1 h
          rw [noControl_append, escapeCodepoint_noControl (hbyte.1 hacc), ih _ _ _ hnext hrest]
          rfl
      · next hacc =>
          split at h
          · exact absurd h (by simp)
          · next hrej =>
              obtain ⟨rest, hrest, rfl⟩ := Option.map_eq_some_iff.1 h
              have htail := ih _ _ _ hnext hrest
              simpa [noControl, hbyte.2 hacc hrej] using htail

theorem dumpEscaped_noControl {s out : Bytes} (h : dumpEscaped s = some out) :
    noControl out = true :=
  dumpEscapedFrom_noControl s UTF8_ACCEPT 0 out (by decide) h

/-- Printable ASCII is copied, with `"` and `\` escaped. -/
def escapeAscii (byte : UInt8) : Bytes :=
  if byte = 0x22 then ascii "\\\"" else if byte = 0x5C then ascii "\\\\" else [byte]

theorem dumpEscaped_ascii {s : Bytes} (h : ∀ c ∈ s, 32 ≤ c ∧ c < 0x80) :
    dumpEscaped s = some (s.flatMap escapeAscii) := by
  have hesc : ∀ b : UInt8, 32 ≤ b ∧ b < 0x80 →
      escapeCodepoint b.toUInt32 b = escapeAscii b := by decide
  unfold dumpEscaped
  generalize (0 : UInt32) = codep
  induction s generalizing codep with
  | nil => rfl
  | cons c s ih =>
      obtain ⟨hc, hs⟩ := List.forall_mem_cons.1 h
      simp only [dumpEscapedFrom, decode_ascii codep hc.2]
      rw [if_true, ih hs, hesc c hc]
      rfl

/-! ## Valid UTF-8 does not throw -/

/-- A continuation byte. -/
def IsCont (b : UInt8) : Prop := 0x80 ≤ b ∧ b ≤ 0xBF

/-- The first two bytes of a well-formed three-byte sequence. -/
def IsLead3 (a b : UInt8) : Prop :=
  (a = 0xE0 ∧ 0xA0 ≤ b ∧ b ≤ 0xBF) ∨ ((0xE1 ≤ a ∧ a ≤ 0xEC) ∧ IsCont b) ∨
  (a = 0xED ∧ 0x80 ≤ b ∧ b ≤ 0x9F) ∨ ((0xEE ≤ a ∧ a ≤ 0xEF) ∧ IsCont b)

/-- The first two bytes of a well-formed four-byte sequence. -/
def IsLead4 (a b : UInt8) : Prop :=
  (a = 0xF0 ∧ 0x90 ≤ b ∧ b ≤ 0xBF) ∨ ((0xF1 ≤ a ∧ a ≤ 0xF3) ∧ IsCont b) ∨
  (a = 0xF4 ∧ 0x80 ≤ b ∧ b ≤ 0x8F)

/-- Well-formed UTF-8, by the Unicode standard's table of byte sequences. -/
inductive ValidUtf8 : Bytes → Prop
  | nil : ValidUtf8 []
  | one {a : UInt8} {s : Bytes} : a < 0x80 → ValidUtf8 s → ValidUtf8 (a :: s)
  | two {a b : UInt8} {s : Bytes} : 0xC2 ≤ a ∧ a ≤ 0xDF → IsCont b → ValidUtf8 s →
      ValidUtf8 (a :: b :: s)
  | three {a b c : UInt8} {s : Bytes} : IsLead3 a b → IsCont c → ValidUtf8 s →
      ValidUtf8 (a :: b :: c :: s)
  | four {a b c d : UInt8} {s : Bytes} : IsLead4 a b → IsCont c → IsCont d → ValidUtf8 s →
      ValidUtf8 (a :: b :: c :: d :: s)

theorem utf8Type_cont : ∀ b : UInt8, IsCont b →
    utf8Type b = 1 ∨ utf8Type b = 9 ∨ utf8Type b = 7 := by
  unfold IsCont
  decide

/-- A state that a byte leads to without rejection keeps the scan alive. -/
theorem dumpEscapedFrom_cons_isSome {state : ℕ} {codep : UInt32} {byte : UInt8} {s : Bytes}
    (hne : utf8Next state (utf8Type byte) ≠ UTF8_REJECT)
    (hrest : ∀ codep', (dumpEscapedFrom (utf8Next state (utf8Type byte)) codep' s).isSome) :
    (dumpEscapedFrom state codep (byte :: s)).isSome := by
  have hfst : (decode state codep byte).1 = utf8Next state (utf8Type byte) := rfl
  simp only [dumpEscapedFrom, hfst]
  by_cases hacc : utf8Next state (utf8Type byte) = UTF8_ACCEPT
  · rw [if_pos hacc, Option.isSome_map]
    exact hrest _
  · rw [if_neg hacc, if_neg hne, Option.isSome_map]
    exact hrest _

/-- From state 2 one continuation byte completes a character. -/
theorem utf8Next_two {b : UInt8} (hb : IsCont b) : utf8Next 2 (utf8Type b) = UTF8_ACCEPT := by
  rcases utf8Type_cont b hb with h | h | h <;> rw [h] <;> decide

/-- From state 3 two continuation bytes do. -/
theorem utf8Next_three {b : UInt8} (hb : IsCont b) : utf8Next 3 (utf8Type b) = 2 := by
  rcases utf8Type_cont b hb with h | h | h <;> rw [h] <;> decide

theorem utf8Next_lead2 {a : UInt8} (ha : 0xC2 ≤ a ∧ a ≤ 0xDF) :
    utf8Next UTF8_ACCEPT (utf8Type a) = 2 := by
  have h : ∀ a : UInt8, 0xC2 ≤ a ∧ a ≤ 0xDF → utf8Next UTF8_ACCEPT (utf8Type a) = 2 := by
    decide
  exact h a ha

theorem utf8Next_lead3 {a b : UInt8} (h : IsLead3 a b) :
    utf8Next UTF8_ACCEPT (utf8Type a) ≠ UTF8_REJECT ∧
      utf8Next (utf8Next UTF8_ACCEPT (utf8Type a)) (utf8Type b) = 2 := by
  have h1 : ∀ a : UInt8, (0xE1 ≤ a ∧ a ≤ 0xEC) ∨ (0xEE ≤ a ∧ a ≤ 0xEF) →
      utf8Next UTF8_ACCEPT (utf8Type a) = 3 := by decide
  have h2 : ∀ b : UInt8, 0xA0 ≤ b ∧ b ≤ 0xBF → utf8Type b = 7 := by decide
  have h3 : ∀ b : UInt8, 0x80 ≤ b ∧ b ≤ 0x9F → utf8Type b = 1 ∨ utf8Type b = 9 := by
    decide
  rcases h with ⟨rfl, hb⟩ | ⟨ha, hb⟩ | ⟨rfl, hb⟩ | ⟨ha, hb⟩
  · rw [h2 b hb]
    decide
  · rw [h1 a (Or.inl ha)]
    exact ⟨by decide, utf8Next_three hb⟩
  · rcases h3 b hb with ht | ht <;> rw [ht] <;> decide
  · rw [h1 a (Or.inr ha)]
    exact ⟨by decide, utf8Next_three hb⟩

theorem utf8Next_lead4 {a b : UInt8} (h : IsLead4 a b) :
    utf8Next UTF8_ACCEPT (utf8Type a) ≠ UTF8_REJECT ∧
      utf8Next (utf8Next UTF8_ACCEPT (utf8Type a)) (utf8Type b) = 3 := by
  have h1 : ∀ a : UInt8, 0xF1 ≤ a ∧ a ≤ 0xF3 → utf8Next UTF8_ACCEPT (utf8Type a) = 7 := by
    decide
  have h2 : ∀ b : UInt8, 0x90 ≤ b ∧ b ≤ 0xBF → utf8Type b = 9 ∨ utf8Type b = 7 := by
    decide
  have h3 : ∀ b : UInt8, 0x80 ≤ b ∧ b ≤ 0x8F → utf8Type b = 1 := by decide
  rcases h with ⟨rfl, hb⟩ | ⟨ha, hb⟩ | ⟨rfl, hb⟩
  · rcases h2 b hb with ht | ht <;> rw [ht] <;> decide
  · rw [h1 a ha]
    refine ⟨by decide, ?_⟩
    rcases utf8Type_cont b hb with ht | ht | ht <;> rw [ht] <;> decide
  · rw [h3 b hb]
    decide

/-- A byte that completes a character: the scan goes on from the accepting state. -/
theorem dumpEscapedFrom_last_isSome {state : ℕ} {byte : UInt8} {s : Bytes}
    (hacc : utf8Next state (utf8Type byte) = UTF8_ACCEPT)
    (hrest : ∀ codep, (dumpEscapedFrom UTF8_ACCEPT codep s).isSome) (codep : UInt32) :
    (dumpEscapedFrom state codep (byte :: s)).isSome := by
  refine dumpEscapedFrom_cons_isSome (by rw [hacc]; decide) ?_
  rw [hacc]
  exact hrest

theorem dumpEscaped_isSome {s : Bytes} (h : ValidUtf8 s) : (dumpEscaped s).isSome := by
  unfold dumpEscaped
  generalize (0 : UInt32) = codep
  -- one case per row of the table: every byte moves the decoder to a state the next one accepts
  induction h generalizing codep with
  | nil => rfl
  | one ha _ ih =>
      refine dumpEscapedFrom_last_isSome ?_ ih codep
      rw [utf8Type_ascii _ ha]
      decide
  | two ha hb _ ih =>
      have hlead := utf8Next_lead2 ha
      refine dumpEscapedFrom_cons_isSome (by rw [hlead]; decide) ?_
      rw [hlead]
      exact dumpEscapedFrom_last_isSome (utf8Next_two hb) ih
  | three hlead hc _ ih =>
      obtain ⟨hne, hmid⟩ := utf8Next_lead3 hlead
      refine dumpEscapedFrom_cons_isSome hne (fun codep' => ?_)
      refine dumpEscapedFrom_cons_isSome (by rw [hmid]; decide) ?_
      rw [hmid]
      exact dumpEscapedFrom_last_isSome (utf8Next_two hc) ih
  | four hlead hc hd _ ih =>
      obtain ⟨hne, hmid⟩ := utf8Next_lead4 hlead
      refine dumpEscapedFrom_cons_isSome hne (fun codep' => ?_)
      refine dumpEscapedFrom_cons_isSome (by rw [hmid]; decide) ?_
      rw [hmid]
      intro codep''
      have hthree := utf8Next_three hc
      refine dumpEscapedFrom_cons_isSome (by rw [hthree]; decide) ?_
      rw [hthree]
      exact dumpEscapedFrom_last_isSome (utf8Next_two hd) ih

theorem ValidUtf8.append {s t : Bytes} (hs : ValidUtf8 s) (ht : ValidUtf8 t) :
    ValidUtf8 (s ++ t) := by
  induction hs with
  | nil => exact ht
  | one ha _ ih => exact .one ha ih
  | two ha hb _ ih => exact .two ha hb ih
  | three hl hc _ ih => exact .three hl hc ih
  | four hl hc hd _ ih => exact .four hl hc hd ih

/-- Every byte of `s` is ASCII. -/
def isAscii (s : Bytes) : Bool :=
  s.all (fun c => c < 0x80)

@[simp] theorem isAscii_append (s t : Bytes) : isAscii (s ++ t) = (isAscii s && isAscii t) := by
  simp [isAscii]

theorem ValidUtf8.of_ascii {s : Bytes} (h : isAscii s = true) : ValidUtf8 s := by
  induction s with
  | nil => exact .nil
  | cons c s ih =>
      simp only [isAscii, List.all_cons, Bool.and_eq_true, decide_eq_true_eq] at h
      exact .one h.1 (ih h.2)

/-! ## Values and `dump` -/

mutual

/-- A JSON value. -/
inductive Json where
  | null
  | string (s : Bytes)
  | number (z : ℤ)
  | object (members : Members)

/-- The members of an object, in the key order of its `std::map`. -/
inductive Members where
  | nil
  | cons (key : Bytes) (val : Json) (rest : Members)

end

/-- Decimal digits, as `std::to_string` and `dump_integer` write them. -/
def decimal (n : ℕ) : Bytes :=
  (Nat.toDigits 10 n).map (fun c => UInt8.ofNat c.toNat)

/-- `dump_integer` -/
def dumpInteger (z : ℤ) : Bytes :=
  if z < 0 then ascii "-" ++ decimal z.natAbs else decimal z.natAbs

/-- Assign to a key of an object: a new key goes to its place in the order. -/
def Members.set : Members → Bytes → Json → Members
  | .nil, key, val => .cons key val .nil
  | .cons k v rest, key, val =>
      if key = k then .cons k val rest
      else if key < k then .cons key val (.cons k v rest)
      else .cons k v (rest.set key val)

def Members.get : Members → Bytes → Json
  | .nil, _ => .null
  | .cons k v rest, key => if key = k then v else rest.get key

/-- `j[key] = val`. Subscripting a null value turns it into an object. -/
def Json.set : Json → Bytes → Json → Json
  | .object members, key, val => .object (members.set key val)
  | _, key, val => .object (.cons key val .nil)

/-- `j[key]`, null when the key is new. -/
def Json.get : Json → Bytes → Json
  | .object members, key => members.get key
  | _, _ => .null

mutual

/-- `dump()`. `none`: it throws. -/
def Json.dump : Json → Option Bytes
  | .null => some (ascii "null")
  | .string s => (dumpEscaped s).map (fun t => ascii "\"" ++ t ++ ascii "\"")
  | .number z => some (dumpInteger z)
  | .object members => members.dump.map (fun t => ascii "\x7b" ++ t ++ ascii "\x7d")

/-- The members of an object, with commas in between. -/
def Members.dump : Members → Option Bytes
  | .nil => some []
  | .cons key val rest => do
      let k ← dumpEscaped key
      let v ← val.dump
      let member := ascii "\"" ++ k ++ ascii "\":" ++ v
      match rest with
      | .nil => some member
      | .cons key' val' rest' => do
          let r ← (Members.cons key' val' rest').dump
          some (member ++ ascii "," ++ r)

end

theorem decimal_digit {n : ℕ} {b : UInt8} (h : b ∈ decimal n) : 48 ≤ b ∧ b ≤ 57 := by
  obtain ⟨c, hc, rfl⟩ := List.mem_map.1 h
  have hdigit : c.isDigit = true := Nat.isDigit_of_mem_toDigits (by decide) (by decide) hc
  simp only [Char.isDigit, Bool.and_eq_true, decide_eq_true_eq] at hdigit
  have hlow : 48 ≤ c.toNat := UInt32.le_iff_toNat_le.1 hdigit.1
  have hhigh : c.toNat ≤ 57 := UInt32.le_iff_toNat_le.1 hdigit.2
  rw [UInt8.le_iff_toNat_le, UInt8.le_iff_toNat_le, UInt8.toNat_ofNat']
  show 48 ≤ c.toNat % 2 ^ 8 ∧ c.toNat % 2 ^ 8 ≤ 57
  omega

/-- Numbers with the same digits are the same. -/
theorem decimal_inj {m n : ℕ} (h : decimal m = decimal n) : m = n := by
  have hchars : ∀ k, (decimal k).map (fun b => Char.ofNat b.toNat) = Nat.toDigits 10 k := by
    intro k
    rw [decimal, List.map_map]
    refine (List.map_congr_left (fun c hc => ?_)).trans (List.map_id _)
    have hdigit : c.isDigit = true := Nat.isDigit_of_mem_toDigits (by decide) (by decide) hc
    simp only [Char.isDigit, Bool.and_eq_true, decide_eq_true_eq] at hdigit
    have hhigh : c.toNat ≤ 57 := UInt32.le_iff_toNat_le.1 hdigit.2
    rw [Function.comp_apply, UInt8.toNat_ofNat', Nat.mod_eq_of_lt (by omega), Char.ofNat_toNat]
    rfl
  have hdigits := congrArg (List.map (fun b => Char.ofNat b.toNat)) h
  rw [hchars, hchars] at hdigits
  rw [← Nat.ofDigitChars_ten_toDigits (n := m), hdigits, Nat.ofDigitChars_ten_toDigits]

theorem minus_not_mem_decimal (n : ℕ) : 45 ∉ decimal n :=
  fun h => absurd (decimal_digit h).1 (by decide)

theorem dumpInteger_inj {z z' : ℤ} (h : dumpInteger z = dumpInteger z') : z = z' := by
  have hminus : ∀ m n, ascii "-" ++ decimal m ≠ decimal n := by
    intro m n heq
    exact minus_not_mem_decimal n (heq ▸ List.mem_append_left _ (by decide))
  unfold dumpInteger at h
  split at h
  · split at h
    · have habs := decimal_inj (List.append_cancel_left h)
      omega
    · exact absurd h (hminus _ _)
  · split at h
    · exact absurd h.symm (hminus _ _)
    · have habs := decimal_inj h
      omega

theorem decimal_noControl (n : ℕ) : noControl (decimal n) = true := by
  simp only [noControl, List.all_eq_true, decide_eq_true_eq]
  intro b hb
  exact UInt8.le_trans (by decide) (decimal_digit hb).1

theorem dumpInteger_noControl (z : ℤ) : noControl (dumpInteger z) = true := by
  unfold dumpInteger
  split
  · rw [noControl_append, decimal_noControl]
    rfl
  · exact decimal_noControl _

mutual

/-- A dumped text has no control character: it is one line, and one C string. -/
theorem Json.dump_noControl : ∀ (j : Json) (out : Bytes), j.dump = some out →
    noControl out = true
  | .null, out, h => by
      rw [Json.dump] at h
      rw [← Option.some.inj h]
      rfl
  | .string s, out, h => by
      rw [Json.dump] at h
      obtain ⟨t, ht, rfl⟩ := Option.map_eq_some_iff.1 h
      rw [noControl_append, noControl_append, dumpEscaped_noControl ht]
      rfl
  | .number z, out, h => by
      rw [Json.dump] at h
      rw [← Option.some.inj h]
      exact dumpInteger_noControl z
  | .object members, out, h => by
      rw [Json.dump] at h
      obtain ⟨t, ht, rfl⟩ := Option.map_eq_some_iff.1 h
      rw [noControl_append, noControl_append, Members.dump_noControl members t ht]
      rfl

theorem Members.dump_noControl : ∀ (m : Members) (out : Bytes), m.dump = some out →
    noControl out = true
  | .nil, out, h => by
      rw [Members.dump] at h
      rw [← Option.some.inj h]
      rfl
  | .cons key val .nil, out, h => by
      simp only [Members.dump, Option.bind_eq_bind, Option.bind_eq_some_iff] at h
      obtain ⟨k, hk, v, hv, hout⟩ := h
      rw [← Option.some.inj hout]
      simp only [noControl_append, dumpEscaped_noControl hk, Json.dump_noControl val v hv]
      rfl
  | .cons key val (.cons key' val' rest'), out, h => by
      rw [Members.dump] at h
      simp only [Option.bind_eq_bind, Option.bind_eq_some_iff] at h
      obtain ⟨k, hk, v, hv, r, hr, hout⟩ := h
      rw [← Option.some.inj hout]
      simp only [noControl_append, dumpEscaped_noControl hk, Json.dump_noControl val v hv,
        Members.dump_noControl _ r hr]
      rfl

end

end FileCacheProxy
