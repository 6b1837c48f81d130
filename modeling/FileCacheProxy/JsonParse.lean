import FileCacheProxy.Json
import Mathlib

set_option autoImplicit false
-- the facts about all 256 bytes are decided one byte after the other
set_option maxRecDepth 1500

/-! # Reading JSON texts (`json.hpp`)

The way back from a text: the library's `lexer` and its `parser`, which build a value with
`json_sax_dom_parser`. The handlers only write; whoever gets a reply, or a line of the record, reads
it with `parse`. The lexer is a family of functions from what is left of the input to what is left
behind a token; the parser is the loop of `sax_parse_internal` over its explicit stack.

Not modelled: the error texts and positions, comments (`ignore_comments` is off), and the value of a
floating-point number, which stays the text it was read from. -/

namespace FileCacheProxy

/-- A value that `parse` builds. -/
inductive JsonValue where
  | null
  | boolean (b : Bool)
  | string (s : Bytes)
  | integer (z : ℤ)
  | float (text : Bytes)
  | array (elements : List JsonValue)
  | object (members : List (Bytes × JsonValue))

/-! ## Strings -/

/-- `'"'` -/
def QUOTE : UInt8 := 34

/-- `'\\'` -/
def BACKSLASH : UInt8 := 92

/-- The value of a hexadecimal digit. -/
def hexValue (c : UInt8) : Option ℕ :=
  if 48 ≤ c ∧ c ≤ 57 then some (c.toNat - 0x30)
  else if 65 ≤ c ∧ c ≤ 70 then some (c.toNat - 0x37)
  else if 97 ≤ c ∧ c ≤ 102 then some (c.toNat - 0x57)
  else none

/-- `get_codepoint`: the four digits behind `\u`. -/
def getCodepoint : Bytes → Option (ℕ × Bytes)
  | c1 :: c2 :: c3 :: c4 :: s => do
      let d1 ← hexValue c1
      let d2 ← hexValue c2
      let d3 ← hexValue c3
      let d4 ← hexValue c4
      some (d1 * 0x1000 + d2 * 0x100 + d3 * 0x10 + d4, s)
  | _ => none

/-- The bytes of a code point. -/
def codepointBytes (codepoint : ℕ) : Bytes :=
  if codepoint < 0x80 then [UInt8.ofNat codepoint]
  else if codepoint ≤ 0x7FF then
    [UInt8.ofNat (0xC0 ||| codepoint >>> 6), UInt8.ofNat (0x80 ||| codepoint &&& 0x3F)]
  else if codepoint ≤ 0xFFFF then
    [UInt8.ofNat (0xE0 ||| codepoint >>> 12), UInt8.ofNat (0x80 ||| (codepoint >>> 6) &&& 0x3F),
      UInt8.ofNat (0x80 ||| codepoint &&& 0x3F)]
  else
    [UInt8.ofNat (0xF0 ||| codepoint >>> 18), UInt8.ofNat (0x80 ||| (codepoint >>> 12) &&& 0x3F),
      UInt8.ofNat (0x80 ||| (codepoint >>> 6) &&& 0x3F), UInt8.ofNat (0x80 ||| codepoint &&& 0x3F)]

/-- What follows `\u`: one code unit, or a high surrogate and `\u` with a low one. -/
def scanUnicode (s : Bytes) : Option (Bytes × Bytes) := do
  let (codepoint1, s) ← getCodepoint s
  if 0xD800 ≤ codepoint1 ∧ codepoint1 ≤ 0xDBFF then
    match s with
    | 92 :: 117 :: s => do
        let (codepoint2, s) ← getCodepoint s
        if 0xDC00 ≤ codepoint2 ∧ codepoint2 ≤ 0xDFFF then
          some (codepointBytes (codepoint1 <<< 10 + codepoint2 - 0x35FDC00), s)
        else none
    | _ => none
  else if 0xDC00 ≤ codepoint1 ∧ codepoint1 ≤ 0xDFFF then none
  else some (codepointBytes codepoint1, s)

/-- The escapes of one character. -/
def simpleEscape (c : UInt8) : Option UInt8 :=
  [(34, 34), (92, 92), (47, 47), (98, 8), (102, 12), (110, 10), (114, 13), (116, 9)].lookup c

/-- What follows a backslash: the bytes added, and the rest. -/
def scanEscape : Bytes → Option (Bytes × Bytes)
  | [] => none
  | c :: s =>
      match simpleEscape c with
      | some b => some ([b], s)
      | none => if c = 117 then scanUnicode s else none

/-- The ranges `scan_string` hands to `next_byte_in_range` after the byte `c`; `none`: the byte is a
    control character, or cannot start a character. -/
def trailingRanges (c : UInt8) : Option (List (UInt8 × UInt8)) :=
  if c ≤ 0x1F then none
  else if c ≤ 0x7F then some []
  else if 0xC2 ≤ c ∧ c ≤ 0xDF then some [(0x80, 0xBF)]
  else if c = 0xE0 then some [(0xA0, 0xBF), (0x80, 0xBF)]
  else if (0xE1 ≤ c ∧ c ≤ 0xEC) ∨ c = 0xEE ∨ c = 0xEF then some [(0x80, 0xBF), (0x80, 0xBF)]
  else if c = 0xED then some [(0x80, 0x9F), (0x80, 0xBF)]
  else if c = 0xF0 then some [(0x90, 0xBF), (0x80, 0xBF), (0x80, 0xBF)]
  else if 0xF1 ≤ c ∧ c ≤ 0xF3 then some [(0x80, 0xBF), (0x80, 0xBF), (0x80, 0xBF)]
  else if c = 0xF4 then some [(0x80, 0x8F), (0x80, 0xBF), (0x80, 0xBF)]
  else none

/-- `next_byte_in_range`: the bytes that are in their ranges, and the rest. -/
def nextByteInRange : List (UInt8 × UInt8) → Bytes → Option (Bytes × Bytes)
  | [], s => some ([], s)
  | _ :: _, [] => none
  | (lo, hi) :: ranges, c :: s =>
      if lo ≤ c ∧ c ≤ hi then (nextByteInRange ranges s).map (fun r => (c :: r.1, r.2)) else none

/-- One character of a string that starts with the byte `c`. -/
def scanChar (c : UInt8) (s : Bytes) : Option (Bytes × Bytes) :=
  if c = BACKSLASH then scanEscape s
  else
    match trailingRanges c with
    | none => none
    | some ranges => (nextByteInRange ranges s).map (fun r => (c :: r.1, r.2))

/-- `scan_string`, behind the opening quote: the text up to the closing quote, and the rest. Every
    pass takes at least one byte, so the length of the input is budget enough. -/
def scanString : ℕ → Bytes → Option (Bytes × Bytes)
  | 0, _ => none
  | _ + 1, [] => none
  | fuel + 1, c :: s =>
      if c = QUOTE then some ([], s)
      else
        match scanChar c s with
        | none => none
        | some (added, rest) =>
            (scanString fuel rest).map (fun r => (added ++ r.1, r.2))

/-! ## Numbers -/

/-- The labels of `scan_number`. -/
inductive NumberState where
  | minus
  | zero
  | any1
  | decimal1
  | decimal2
  | exponent
  | sign
  | any2

/-- `number_type` -/
inductive NumberType where
  | value_unsigned
  | value_integer
  | value_float

/-- Where a label goes on the next character: to a label, to `scan_number_done`, or into an error. -/
inductive NumberGoto where
  | state (st : NumberState)
  | done
  | error

def isDigit19 (c : UInt8) : Bool :=
  49 ≤ c && c ≤ 57

/-- The `switch (get())` of each label. -/
def NumberState.next (st : NumberState) (current : Option UInt8) : NumberGoto :=
  let digit := current.any (fun c => 48 ≤ c && c ≤ 57)
  let isChar (c : UInt8) := current == some c
  let exponent := isChar 101 || isChar 69
  match st with
  | .minus =>
      if isChar 48 then .state .zero else if current.any isDigit19 then .state .any1 else .error
  | .zero => if isChar 46 then .state .decimal1 else if exponent then .state .exponent else .done
  | .any1 =>
      if digit then .state .any1 else if isChar 46 then .state .decimal1
      else if exponent then .state .exponent else .done
  | .decimal1 => if digit then .state .decimal2 else .error
  | .decimal2 => if digit then .state .decimal2 else if exponent then .state .exponent else .done
  | .exponent =>
      if isChar 43 || isChar 45 then .state .sign else if digit then .state .any2 else .error
  | .sign => if digit then .state .any2 else .error
  | .any2 => if digit then .state .any2 else .done

/-- The assignments to `number_type` at the labels. -/
def NumberState.numberType : NumberState → NumberType → NumberType
  | .minus, _ => .value_integer
  | .decimal1, _ => .value_float
  | .exponent, _ => .value_float
  | _, ty => ty

/-- `scan_number` from a label on: the type, the bytes added, and the rest; the character that ends
    the number is not taken. -/
def scanNumberFrom (st : NumberState) (ty : NumberType) : Bytes → Option (NumberType × Bytes × Bytes)
  | [] =>
      match st.next none with
      | .done => some (ty, [], [])
      | _ => none
  | c :: s =>
      match st.next (some c) with
      | .state st' =>
          (scanNumberFrom st' (st'.numberType ty) s).map (fun r => (r.1, c :: r.2.1, r.2.2))
      | .done => some (ty, [], c :: s)
      | .error => none

/-! ## Tokens -/

/-- `token_type`, with the value of the token. -/
inductive Token where
  | uninitialized
  | literal_true
  | literal_false
  | literal_null
  | value_string (s : Bytes)
  | value_integer (z : ℤ)
  | value_float (text : Bytes)
  | begin_array
  | begin_object
  | end_array
  | end_object
  | name_separator
  | value_separator
  | parse_error
  | end_of_input

/-- The number a text of digits stands for, after an optional minus sign. -/
def integerOf (text : Bytes) : ℤ :=
  let digits (ds : Bytes) : ℕ := ds.foldl (fun n c => 10 * n + (c.toNat - 48)) 0
  match text with
  | 45 :: ds => -(digits ds : ℤ)
  | ds => digits ds

/-- What `scan_number_done` makes of the text: an integer if it is in the range of its type, else a
    floating-point number. -/
def numberToken (ty : NumberType) (text : Bytes) : Token :=
  match ty with
  | .value_unsigned =>
      if integerOf text < 2 ^ 64 then .value_integer (integerOf text) else .value_float text
  | .value_integer =>
      if -2 ^ 63 ≤ integerOf text then .value_integer (integerOf text) else .value_float text
  | .value_float => .value_float text

/-- `scan_number`, on a first character `c` that is a digit or a minus sign. -/
def scanNumber (c : UInt8) (s : Bytes) : Token × Bytes :=
  let st : NumberState := if c = 45 then .minus else if c = 48 then .zero else .any1
  match scanNumberFrom st (st.numberType .value_unsigned) s with
  | none => (.parse_error, [])
  | some (ty, text, rest) => (numberToken ty (c :: text), rest)

/-- `scan_literal`, behind the first character. -/
def scanLiteral (text : Bytes) (token : Token) (s : Bytes) : Token × Bytes :=
  if text.isPrefixOf s then (token, s.drop text.length) else (.parse_error, [])

/-- The characters `skip_whitespace` skips. -/
def isBlank (c : UInt8) : Bool :=
  c == 32 || c == 9 || c == 10 || c == 13

/-- The `switch` of `scan` on a character that is no blank. -/
def scanFrom (c : UInt8) (s : Bytes) : Token × Bytes :=
  if c = 91 then (.begin_array, s)
  else if c = 93 then (.end_array, s)
  else if c = 123 then (.begin_object, s)
  else if c = 125 then (.end_object, s)
  else if c = 58 then (.name_separator, s)
  else if c = 44 then (.value_separator, s)
  else if c = 116 then scanLiteral (ascii "rue") .literal_true s
  else if c = 102 then scanLiteral (ascii "alse") .literal_false s
  else if c = 110 then scanLiteral (ascii "ull") .literal_null s
  else if c = QUOTE then
    match scanString s.length s with
    | none => (.parse_error, [])
    | some (text, rest) => (.value_string text, rest)
  else if c = 45 ∨ (48 ≤ c ∧ c ≤ 57) then scanNumber c s
  else if c = NUL then (.end_of_input, s)
  else (.parse_error, [])

/-- `scan` -/
def scan (input : Bytes) : Token × Bytes :=
  match input.dropWhile isBlank with
  | [] => (.end_of_input, [])
  | c :: s => scanFrom c s

/-- `skip_bom`, before the first token. -/
def skipBom : Bytes → Option Bytes
  | 0xEF :: s =>
      match s with
      | 0xBB :: 0xBF :: s => some s
      | _ => none
  | s => some s

/-! ## Building the value -/

/-- An array or object that is being read. `object_element` belongs to the innermost object, so each
    one has its key here. -/
inductive Frame where
  | array (elements : List JsonValue)
  | object (members : List (Bytes × JsonValue)) (key : Bytes)

/-- `json_sax_dom_parser`; the innermost container comes first. -/
structure Dom where
  root : JsonValue
  ref_stack : List Frame

/-- Assign to a key of the `std::map` of an object. -/
def assignMember : List (Bytes × JsonValue) → Bytes → JsonValue → List (Bytes × JsonValue)
  | [], key, val => [(key, val)]
  | (k, v) :: rest, key, val =>
      if key = k then (k, val) :: rest
      else if key < k then (key, val) :: (k, v) :: rest
      else (k, v) :: assignMember rest key val

/-- `handle_value` -/
def Dom.handleValue (dom : Dom) (v : JsonValue) : Dom :=
  match dom.ref_stack with
  | [] => { dom with root := v }
  | .array elements :: frames => { dom with ref_stack := .array (elements ++ [v]) :: frames }
  | .object members key :: frames =>
      { dom with ref_stack := .object (assignMember members key v) key :: frames }

def Dom.startObject (dom : Dom) : Dom :=
  { dom with ref_stack := .object [] [] :: dom.ref_stack }

def Dom.startArray (dom : Dom) : Dom :=
  { dom with ref_stack := .array [] :: dom.ref_stack }

/-- `key`; the null value it puts there is assigned to before anyone reads it. -/
def Dom.key (dom : Dom) (val : Bytes) : Dom :=
  match dom.ref_stack with
  | .object members _ :: frames => { dom with ref_stack := .object members val :: frames }
  | _ => dom

/-- `end_object` and `end_array`: the finished container becomes a value of the one around it. -/
def Dom.endContainer (dom : Dom) : Dom :=
  match dom.ref_stack with
  | [] => dom
  | .array elements :: frames => { dom with ref_stack := frames }.handleValue (.array elements)
  | .object members _ :: frames => { dom with ref_stack := frames }.handleValue (.object members)

/-! ## The parser -/

/-- The variables of `sax_parse_internal`; in `states`, `true` stands for an array, and the innermost
    container comes first. -/
structure ParserState where
  last_token : Token
  input : Bytes
  states : List Bool
  skip_to_state_evaluation : Bool
  dom : Dom

/-- `get_token` -/
def ParserState.getToken (st : ParserState) : ParserState :=
  { st with last_token := (scan st.input).1, input := (scan st.input).2 }

/-- How a pass of the loop ends: `continue`, `return true`, or an exception. -/
inductive PassEnd where
  | again (st : ParserState)
  | finished (st : ParserState)
  | failed

/-- A key, which has been read, and the separator behind it. -/
def ParserState.parseKey (st : ParserState) : Option ParserState :=
  match st.last_token with
  | .value_string key =>
      let st := { st with dom := st.dom.key key }.getToken
      match st.last_token with
      | .name_separator => some st
      | _ => none
  | _ => none

/-- The second half of a pass, behind a value. -/
def ParserState.evaluateState (st : ParserState) : PassEnd :=
  match st.states with
  | [] => .finished st
  | true :: states =>
      let st := st.getToken
      match st.last_token with
      | .value_separator => .again st.getToken
      | .end_array =>
          .again { st with dom := st.dom.endContainer, states := states,
                           skip_to_state_evaluation := true }
      | _ => .failed
  | false :: states =>
      let st := st.getToken
      match st.last_token with
      | .value_separator =>
          match st.getToken.parseKey with
          | some st => .again st.getToken
          | none => .failed
      | .end_object =>
          .again { st with dom := st.dom.endContainer, states := states,
                           skip_to_state_evaluation := true }
      | _ => .failed

/-- A scalar value has been read. -/
def ParserState.value (st : ParserState) (v : JsonValue) : PassEnd :=
  { st with dom := st.dom.handleValue v }.evaluateState

/-- The first half of a pass: the `switch` on the last token. -/
def ParserState.parseValue (st : ParserState) : PassEnd :=
  match st.last_token with
  | .begin_object =>
      let st := { st with dom := st.dom.startObject }.getToken
      match st.last_token with
      | .end_object => { st with dom := st.dom.endContainer }.evaluateState
      | _ =>
          match st.parseKey with
          | some st => .again { st with states := false :: st.states }.getToken
          | none => .failed
  | .begin_array =>
      let st := { st with dom := st.dom.startArray }.getToken
      match st.last_token with
      | .end_array => { st with dom := st.dom.endContainer }.evaluateState
      | _ => .again { st with states := true :: st.states }
  | .value_float text => st.value (.float text)
  | .literal_false => st.value (.boolean false)
  | .literal_null => st.value .null
  | .literal_true => st.value (.boolean true)
  | .value_integer z => st.value (.integer z)
  | .value_string s => st.value (.string s)
  | _ => .failed

def ParserState.pass (st : ParserState) : PassEnd :=
  if st.skip_to_state_evaluation then
    { st with skip_to_state_evaluation := false }.evaluateState
  else st.parseValue

/-- The loop of `sax_parse_internal`; every pass but the last reads a token. -/
def saxParseInternal : ℕ → ParserState → Option ParserState
  | 0, _ => none
  | fuel + 1, st =>
      match st.pass with
      | .again st => saxParseInternal fuel st
      | .finished st => some st
      | .failed => none

/-- `parse(s)`, strictly: nothing may follow the value. `none`: it throws. -/
def parse (s : Bytes) : Option JsonValue := do
  let input ← skipBom s
  let start : ParserState :=
    { last_token := .uninitialized, input := input, states := [], skip_to_state_evaluation := false,
      dom := ⟨.null, []⟩ }
  let st ← saxParseInternal (s.length + 2) start.getToken
  match st.getToken.last_token with
  | .end_of_input => some st.dom.root
  | _ => none

/-! ## Reading what `dump_escaped` writes: ASCII -/

theorem hexValue_hexDigit : ∀ d < 16, hexValue (hexDigit d) = some d := by
  decide

/-- `get_codepoint` reads what `"%04x"` writes. -/
theorem getCodepoint_hex4 {n : ℕ} (h : n < 0x10000) (rest : Bytes) :
    getCodepoint (hex4 n ++ rest) = some (n, rest) := by
  have hmod : ∀ m, m % 16 < 16 := fun m => Nat.mod_lt m (by decide)
  simp only [hex4, List.cons_append, List.nil_append, getCodepoint, hexValue_hexDigit _ (hmod _),
    Option.bind_eq_bind, Option.bind_some, Option.some.injEq, Prod.mk.injEq, and_true]
  omega

/-- A control character comes back from its `\u` escape. -/
theorem scanEscape_hex4 {n : ℕ} (h : n < 0x80) (rest : Bytes) :
    scanEscape (117 :: (hex4 n ++ rest)) = some ([UInt8.ofNat n], rest) := by
  have hsimple : simpleEscape 117 = none := by decide
  have hhigh : ¬ (0xD800 ≤ n ∧ n ≤ 0xDBFF) := by omega
  have hlow : ¬ (0xDC00 ≤ n ∧ n ≤ 0xDFFF) := by omega
  rw [scanEscape, hsimple]
  dsimp only
  rw [if_pos rfl, scanUnicode, getCodepoint_hex4 (by omega)]
  simp only [Option.bind_eq_bind, Option.bind_some, if_neg hhigh, if_neg hlow, codepointBytes,
    if_pos h]

/-- The three kinds of escapes: the character itself, a backslash and a letter, and `\u`. -/
theorem escapeCodepoint_ascii : ∀ a : UInt8, a < 0x80 →
    (escapeCodepoint a.toUInt32 a = [a] ∧ a ≠ QUOTE ∧ a ≠ BACKSLASH ∧ trailingRanges a = some []) ∨
    (escapeCodepoint a.toUInt32 a = [BACKSLASH, (escapeCodepoint a.toUInt32 a).getD 1 0] ∧
      simpleEscape ((escapeCodepoint a.toUInt32 a).getD 1 0) = some a) ∨
    escapeCodepoint a.toUInt32 a = BACKSLASH :: 117 :: hex4 a.toNat := by
  decide

/-- The escape of an ASCII character is one character of a string, and stands for it. -/
theorem scanChar_escapeCodepoint {a : UInt8} (ha : a < 0x80) :
    ∃ c e, escapeCodepoint a.toUInt32 a = c :: e ∧ c ≠ QUOTE ∧
      ∀ rest, scanChar c (e ++ rest) = some ([a], rest) := by
  rcases escapeCodepoint_ascii a ha with ⟨hself, hquote, hback, hranges⟩ | ⟨hpair, hsimple⟩ | hhex
  · refine ⟨a, [], hself, hquote, fun rest => ?_⟩
    rw [scanChar, if_neg hback, hranges]
    rfl
  · refine ⟨BACKSLASH, _, hpair, by decide, fun rest => ?_⟩
    rw [scanChar, if_pos rfl, List.singleton_append, scanEscape, hsimple]
  · refine ⟨BACKSLASH, _, hhex, by decide, fun rest => ?_⟩
    rw [scanChar, if_pos rfl, List.cons_append,
      scanEscape_hex4 (UInt8.lt_iff_toNat_lt.1 ha), UInt8.ofNat_toNat]

/-! ## Reading what `dump_escaped` writes: longer characters -/

theorem decode_accept_lt (codep : UInt32) (byte : UInt8) :
    (decode UTF8_ACCEPT codep byte).2.toNat < 2 ^ 8 := by
  have h : ∀ b : UInt8, (((0xFF : UInt32) >>> UInt32.ofNat (utf8Type b)) &&& b.toUInt32).toNat < 2 ^ 8 := by
    decide
  simp only [decode]
  rw [if_neg (by simp)]
  exact h byte

/-- A continuation byte moves the code point so far up by six bits. -/
theorem decode_cont {state : ℕ} (hstate : state ≠ UTF8_ACCEPT) {codep : UInt32} {k : ℕ}
    (hk : k ≤ 20) (hcodep : codep.toNat < 2 ^ k) (byte : UInt8) :
    codep.toNat * 64 ≤ (decode state codep byte).2.toNat ∧
      (decode state codep byte).2.toNat < 2 ^ (k + 6) := by
  have hshift : (codep <<< 6).toNat = codep.toNat * 64 := by
    have hbig : codep.toNat * 64 < 2 ^ 32 := by
      have hpow : 2 ^ k ≤ 2 ^ 20 := Nat.pow_le_pow_right (by decide) hk
      omega
    rw [UInt32.toNat_shiftLeft, Nat.shiftLeft_eq]
    exact Nat.mod_eq_of_lt hbig
  have hlow : (byte.toUInt32 &&& (0x3f : UInt32)).toNat < 2 ^ (k + 6) := by
    have h : ∀ b : UInt8, (b.toUInt32 &&& (0x3f : UInt32)).toNat < 2 ^ 6 := by decide
    exact (h byte).trans_le (Nat.pow_le_pow_right (by decide) (by omega))
  have hhigh : (codep <<< 6).toNat < 2 ^ (k + 6) := by
    rw [hshift, Nat.pow_add]
    omega
  simp only [decode]
  rw [if_pos hstate, UInt32.toNat_or]
  refine ⟨?_, Nat.or_lt_two_pow hlow hhigh⟩
  rw [← hshift]
  exact Nat.right_le_or

/-- Nothing from `0x80` on is escaped. -/
theorem escapeCodepoint_of_ge {codepoint : UInt32} (h : 0x80 ≤ codepoint.toNat) (byte : UInt8) :
    escapeCodepoint codepoint byte = [byte] := by
  have hne : ∀ k : UInt32, k.toNat < 0x80 → ¬ codepoint = k := by
    rintro k hk rfl
    omega
  have hgt : ¬ codepoint ≤ 0x1F := by
    intro hle
    have hle' : codepoint.toNat ≤ 0x1F := UInt32.le_iff_toNat_le.1 hle
    omega
  unfold escapeCodepoint
  rw [if_neg (hne _ (by decide)), if_neg (hne _ (by decide)), if_neg (hne _ (by decide)),
    if_neg (hne _ (by decide)), if_neg (hne _ (by decide)), if_neg (hne _ (by decide)),
    if_neg (hne _ (by decide)), if_neg hgt]

/-- A byte inside a character is copied. -/
theorem dumpEscapedFrom_mid {state : ℕ} {byte : UInt8}
    (hacc : utf8Next state (utf8Type byte) ≠ UTF8_ACCEPT)
    (hrej : utf8Next state (utf8Type byte) ≠ UTF8_REJECT) (codep : UInt32) (s : Bytes) :
    dumpEscapedFrom state codep (byte :: s)
      = (dumpEscapedFrom (utf8Next state (utf8Type byte)) (decode state codep byte).2 s).map
        (byte :: ·) := by
  have hfst : (decode state codep byte).1 = utf8Next state (utf8Type byte) := rfl
  simp only [dumpEscapedFrom, hfst]
  rw [if_neg hacc, if_neg hrej]

/-- So is its last byte. -/
theorem dumpEscapedFrom_last {state : ℕ} {byte : UInt8} {codep : UInt32}
    (hacc : utf8Next state (utf8Type byte) = UTF8_ACCEPT)
    (hge : 0x80 ≤ (decode state codep byte).2.toNat) (s : Bytes) :
    dumpEscapedFrom state codep (byte :: s)
      = (dumpEscapedFrom UTF8_ACCEPT (decode state codep byte).2 s).map (byte :: ·) := by
  have hfst : (decode state codep byte).1 = utf8Next state (utf8Type byte) := rfl
  simp only [dumpEscapedFrom, hfst]
  rw [if_pos hacc, hacc, escapeCodepoint_of_ge hge]
  rfl

/-- The bits of a code point in a first byte. -/
def leadBits (a : UInt8) : UInt32 :=
  ((0xFF : UInt32) >>> UInt32.ofNat (utf8Type a)) &&& a.toUInt32

theorem decode_accept (codep : UInt32) (a : UInt8) :
    (decode UTF8_ACCEPT codep a).2 = leadBits a := by
  simp only [decode]
  rw [if_neg (by simp), leadBits]

/-- After two bytes of a longer character the code point so far is not small: either the first byte
    has bits of it, or the second is not the smallest. -/
theorem decode_second {a b : UInt8} (hstate : utf8Next UTF8_ACCEPT (utf8Type a) ≠ UTF8_ACCEPT)
    (h : 1 ≤ (leadBits a).toNat ∨ leadBits a = 0 ∧ 0x90 ≤ b ∧ b ≤ 0xBF) (codep : UInt32) :
    2 ≤ (decode (utf8Next UTF8_ACCEPT (utf8Type a)) (decode UTF8_ACCEPT codep a).2 b).2.toNat ∧
      (decode (utf8Next UTF8_ACCEPT (utf8Type a)) (decode UTF8_ACCEPT codep a).2 b).2.toNat
        < 2 ^ 14 := by
  have hcont := decode_cont hstate (by decide) (decode_accept_lt codep a) b
  refine ⟨?_, hcont.2⟩
  rcases h with hbits | ⟨hzero, hb⟩
  · rw [← decode_accept codep] at hbits
    omega
  · have hsecond : ∀ b : UInt8, 0x90 ≤ b ∧ b ≤ 0xBF →
        2 ≤ ((b.toUInt32 &&& (0x3f : UInt32)) ||| ((0 : UInt32) <<< 6)).toNat := by
      decide
    rw [decode_accept, hzero]
    simp only [decode]
    rw [if_pos hstate]
    exact hsecond b hb

theorem leadBits_lead3 {a b : UInt8} (h : IsLead3 a b) :
    1 ≤ (leadBits a).toNat ∨ leadBits a = 0 ∧ 0x90 ≤ b ∧ b ≤ 0xBF := by
  have hbits : ∀ a : UInt8, 0xE1 ≤ a ∧ a ≤ 0xEF → 1 ≤ (leadBits a).toNat := by decide
  rcases h with ⟨rfl, hb⟩ | ⟨ha, -⟩ | ⟨rfl, -⟩ | ⟨ha, -⟩
  · exact Or.inr ⟨by decide, UInt8.le_trans (by decide) hb.1, hb.2⟩
  · exact Or.inl (hbits a ⟨ha.1, UInt8.le_trans ha.2 (by decide)⟩)
  · exact Or.inl (by decide)
  · exact Or.inl (hbits a ⟨UInt8.le_trans (by decide) ha.1, ha.2⟩)

theorem leadBits_lead4 {a b : UInt8} (h : IsLead4 a b) :
    1 ≤ (leadBits a).toNat ∨ leadBits a = 0 ∧ 0x90 ≤ b ∧ b ≤ 0xBF := by
  have hbits : ∀ a : UInt8, 0xF1 ≤ a ∧ a ≤ 0xF3 → 1 ≤ (leadBits a).toNat := by decide
  rcases h with ⟨rfl, hb⟩ | ⟨ha, -⟩ | ⟨rfl, -⟩
  · exact Or.inr ⟨by decide, hb⟩
  · exact Or.inl (hbits a ha)
  · exact Or.inl (by decide)

theorem utf8Next_high : ∀ a : UInt8, 0x80 ≤ a → utf8Next UTF8_ACCEPT (utf8Type a) ≠ UTF8_ACCEPT := by
  decide

theorem IsLead3.ge {a b : UInt8} (h : IsLead3 a b) : 0x80 ≤ a := by
  rcases h with ⟨rfl, -⟩ | ⟨ha, -⟩ | ⟨rfl, -⟩ | ⟨ha, -⟩
  · decide
  · exact UInt8.le_trans (by decide) ha.1
  · decide
  · exact UInt8.le_trans (by decide) ha.1

theorem IsLead4.ge {a b : UInt8} (h : IsLead4 a b) : 0x80 ≤ a := by
  rcases h with ⟨rfl, -⟩ | ⟨ha, -⟩ | ⟨rfl, -⟩
  · decide
  · exact UInt8.le_trans (by decide) ha.1
  · decide

/-- A character of two bytes is copied, and so are the longer ones. -/
theorem dumpEscapedFrom_two {a b : UInt8} (ha : 0xC2 ≤ a ∧ a ≤ 0xDF) (hb : IsCont b)
    (codep : UInt32) (s : Bytes) :
    ∃ codep', dumpEscapedFrom UTF8_ACCEPT codep (a :: b :: s)
      = (dumpEscapedFrom UTF8_ACCEPT codep' s).map ([a, b] ++ ·) := by
  have hlead := utf8Next_lead2 ha
  have hfirst : 2 ≤ (decode UTF8_ACCEPT codep a).2.toNat := by
    have hbits : ∀ a : UInt8, 0xC2 ≤ a ∧ a ≤ 0xDF → 2 ≤ (leadBits a).toNat := by decide
    rw [decode_accept]
    exact hbits a ha
  have hcont := decode_cont (by decide : (2 : ℕ) ≠ UTF8_ACCEPT) (by decide) (decode_accept_lt codep a) b
  refine ⟨(decode 2 (decode UTF8_ACCEPT codep a).2 b).2, ?_⟩
  rw [dumpEscapedFrom_mid (by rw [hlead]; decide) (by rw [hlead]; decide), hlead,
    dumpEscapedFrom_last (utf8Next_two hb) (by omega), Option.map_map]
  rfl

theorem dumpEscapedFrom_three {a b c : UInt8} (h : IsLead3 a b) (hc : IsCont c) (codep : UInt32)
    (s : Bytes) :
    ∃ codep', dumpEscapedFrom UTF8_ACCEPT codep (a :: b :: c :: s)
      = (dumpEscapedFrom UTF8_ACCEPT codep' s).map ([a, b, c] ++ ·) := by
  obtain ⟨hrej, hmid⟩ := utf8Next_lead3 h
  have hacc := utf8Next_high a h.ge
  obtain ⟨hge, hlt⟩ := decode_second hacc (leadBits_lead3 h) codep
  have hskip := dumpEscapedFrom_mid hacc hrej codep (b :: c :: s)
  generalize (decode UTF8_ACCEPT codep a).2 = codep₁ at hge hlt hskip
  have hcont := decode_cont (by decide : (2 : ℕ) ≠ UTF8_ACCEPT) (by decide) hlt c
  have hskip' := dumpEscapedFrom_mid (by rw [hmid]; decide) (by rw [hmid]; decide) codep₁ (c :: s)
  generalize (decode (utf8Next UTF8_ACCEPT (utf8Type a)) codep₁ b).2 = codep₂ at hge hcont hskip'
  refine ⟨(decode 2 codep₂ c).2, ?_⟩
  rw [hskip, hskip', hmid, dumpEscapedFrom_last (utf8Next_two hc) (by omega), Option.map_map,
    Option.map_map]
  rfl

theorem dumpEscapedFrom_four {a b c d : UInt8} (h : IsLead4 a b) (hc : IsCont c) (hd : IsCont d)
    (codep : UInt32) (s : Bytes) :
    ∃ codep', dumpEscapedFrom UTF8_ACCEPT codep (a :: b :: c :: d :: s)
      = (dumpEscapedFrom UTF8_ACCEPT codep' s).map ([a, b, c, d] ++ ·) := by
  obtain ⟨hrej, hmid⟩ := utf8Next_lead4 h
  have hthree := utf8Next_three hc
  have hacc := utf8Next_high a h.ge
  obtain ⟨hge, hlt⟩ := decode_second hacc (leadBits_lead4 h) codep
  have hskip := dumpEscapedFrom_mid hacc hrej codep (b :: c :: d :: s)
  generalize (decode UTF8_ACCEPT codep a).2 = codep₁ at hge hlt hskip
  have hcont := decode_cont (by decide : (3 : ℕ) ≠ UTF8_ACCEPT) (by decide) hlt c
  have hskip' := dumpEscapedFrom_mid (by rw [hmid]; decide) (by rw [hmid]; decide) codep₁
    (c :: d :: s)
  generalize (decode (utf8Next UTF8_ACCEPT (utf8Type a)) codep₁ b).2 = codep₂ at hge hcont hskip'
  have hcont' := decode_cont (by decide : (2 : ℕ) ≠ UTF8_ACCEPT) (by decide) hcont.2 d
  have hskip'' := dumpEscapedFrom_mid (by rw [hthree]; decide) (by rw [hthree]; decide) codep₂
    (d :: s)
  generalize (decode 3 codep₂ c).2 = codep₃ at hcont hcont' hskip''
  refine ⟨(decode 2 codep₃ d).2, ?_⟩
  rw [hskip, hskip', hmid, hskip'', hthree, dumpEscapedFrom_last (utf8Next_two hd) (by omega),
    Option.map_map, Option.map_map, Option.map_map]
  rfl

/-! ## The scanner takes back what was written -/

theorem nextByteInRange_cons {lo hi c : UInt8} (h : lo ≤ c ∧ c ≤ hi)
    (ranges : List (UInt8 × UInt8)) (s : Bytes) :
    nextByteInRange ((lo, hi) :: ranges) (c :: s)
      = (nextByteInRange ranges s).map (fun r => (c :: r.1, r.2)) :=
  if_pos h

theorem scanChar_of_ranges {c : UInt8} {ranges : List (UInt8 × UInt8)} (hc : 0x80 ≤ c)
    (h : trailingRanges c = some ranges) (s : Bytes) :
    scanChar c s = (nextByteInRange ranges s).map (fun r => (c :: r.1, r.2)) := by
  have hback : ¬ c = BACKSLASH := by
    rintro rfl
    exact absurd hc (by decide)
  rw [scanChar, if_neg hback, h]

theorem scanChar_two {a b : UInt8} (ha : 0xC2 ≤ a ∧ a ≤ 0xDF) (hb : IsCont b) (rest : Bytes) :
    scanChar a ([b] ++ rest) = some ([a, b], rest) := by
  have hranges : ∀ a : UInt8, 0xC2 ≤ a ∧ a ≤ 0xDF → trailingRanges a = some [(0x80, 0xBF)] := by
    decide
  rw [scanChar_of_ranges (UInt8.le_trans (by decide) ha.1) (hranges a ha), List.singleton_append,
    nextByteInRange_cons hb]
  rfl

theorem scanChar_three {a b c : UInt8} (h : IsLead3 a b) (hc : IsCont c) (rest : Bytes) :
    scanChar a ([b, c] ++ rest) = some ([a, b, c], rest) := by
  obtain ⟨lo, hi, hranges, hb⟩ : ∃ lo hi, trailingRanges a = some [(lo, hi), (0x80, 0xBF)] ∧
      (lo ≤ b ∧ b ≤ hi) := by
    have hmost : ∀ a : UInt8, (0xE1 ≤ a ∧ a ≤ 0xEC) ∨ (0xEE ≤ a ∧ a ≤ 0xEF) →
        trailingRanges a = some [(0x80, 0xBF), (0x80, 0xBF)] := by decide
    rcases h with ⟨rfl, hb⟩ | ⟨ha, hb⟩ | ⟨rfl, hb⟩ | ⟨ha, hb⟩
    · exact ⟨0xA0, 0xBF, by decide, hb⟩
    · exact ⟨0x80, 0xBF, hmost a (Or.inl ha), hb⟩
    · exact ⟨0x80, 0x9F, by decide, hb⟩
    · exact ⟨0x80, 0xBF, hmost a (Or.inr ha), hb⟩
  rw [scanChar_of_ranges h.ge hranges, List.cons_append, List.singleton_append,
    nextByteInRange_cons hb, nextByteInRange_cons hc]
  rfl

theorem scanChar_four {a b c d : UInt8} (h : IsLead4 a b) (hc : IsCont c) (hd : IsCont d)
    (rest : Bytes) : scanChar a ([b, c, d] ++ rest) = some ([a, b, c, d], rest) := by
  obtain ⟨lo, hi, hranges, hb⟩ : ∃ lo hi,
      trailingRanges a = some [(lo, hi), (0x80, 0xBF), (0x80, 0xBF)] ∧ (lo ≤ b ∧ b ≤ hi) := by
    have hmost : ∀ a : UInt8, 0xF1 ≤ a ∧ a ≤ 0xF3 →
        trailingRanges a = some [(0x80, 0xBF), (0x80, 0xBF), (0x80, 0xBF)] := by decide
    rcases h with ⟨rfl, hb⟩ | ⟨ha, hb⟩ | ⟨rfl, hb⟩
    · exact ⟨0x90, 0xBF, by decide, hb⟩
    · exact ⟨0x80, 0xBF, hmost a ha, hb⟩
    · exact ⟨0x80, 0x8F, by decide, hb⟩
  rw [scanChar_of_ranges h.ge hranges, List.cons_append, List.cons_append, List.singleton_append,
    nextByteInRange_cons hb, nextByteInRange_cons hc, nextByteInRange_cons hd]
  rfl

/-- One character `u`, written as `c :: e`, in front of a string the scanner takes back. -/
theorem scanString_append {c : UInt8} {e u t s rest : Bytes} (hquote : c ≠ QUOTE)
    (hchar : ∀ rest, scanChar c (e ++ rest) = some (u, rest))
    (htail : ∀ fuel, t.length < fuel → scanString fuel (t ++ QUOTE :: rest) = some (s, rest))
    {fuel : ℕ} (hfuel : (c :: e ++ t).length < fuel) :
    scanString fuel (c :: e ++ t ++ QUOTE :: rest) = some (u ++ s, rest) := by
  obtain ⟨fuel, rfl⟩ : ∃ n, fuel = n + 1 := Nat.exists_eq_add_one_of_ne_zero (by omega)
  have hshort : t.length < fuel := by
    simp only [List.cons_append, List.length_cons, List.length_append] at hfuel
    omega
  rw [List.cons_append, List.cons_append, List.append_assoc, scanString, if_neg hquote, hchar]
  dsimp only
  rw [htail fuel hshort]
  rfl

theorem ne_quote_of_ge {a : UInt8} (h : 0x80 ≤ a) : a ≠ QUOTE := by
  rintro rfl
  exact absurd h (by decide)

/-- **A string comes back from its escaped text.** -/
theorem scanString_dumpEscapedFrom {s : Bytes} (h : ValidUtf8 s) (rest : Bytes) :
    ∀ (codep : UInt32) (t : Bytes), dumpEscapedFrom UTF8_ACCEPT codep s = some t →
      ∀ fuel, t.length < fuel → scanString fuel (t ++ QUOTE :: rest) = some (s, rest) := by
  induction h with
  | nil =>
      intro codep t ht fuel hfuel
      rw [dumpEscapedFrom, if_pos rfl, Option.some.injEq] at ht
      subst ht
      obtain ⟨fuel, rfl⟩ : ∃ n, fuel = n + 1 := Nat.exists_eq_add_one_of_ne_zero (by omega)
      rfl
  | @one a s ha _ ih =>
      intro codep t ht fuel hfuel
      obtain ⟨c, e, hesc, hquote, hchar⟩ := scanChar_escapeCodepoint ha
      simp only [dumpEscapedFrom, decode_ascii codep ha] at ht
      rw [if_true, hesc] at ht
      obtain ⟨t', ht', rfl⟩ := Option.map_eq_some_iff.1 ht
      exact scanString_append hquote hchar (ih _ t' ht') hfuel
  | @two a b s ha hb _ ih =>
      intro codep t ht fuel hfuel
      obtain ⟨codep', hdump⟩ := dumpEscapedFrom_two ha hb codep s
      rw [hdump] at ht
      obtain ⟨t', ht', rfl⟩ := Option.map_eq_some_iff.1 ht
      exact scanString_append (ne_quote_of_ge (UInt8.le_trans (by decide) ha.1)) (scanChar_two ha hb)
        (ih _ t' ht') hfuel
  | @three a b c s hlead hc _ ih =>
      intro codep t ht fuel hfuel
      obtain ⟨codep', hdump⟩ := dumpEscapedFrom_three hlead hc codep s
      rw [hdump] at ht
      obtain ⟨t', ht', rfl⟩ := Option.map_eq_some_iff.1 ht
      exact scanString_append (ne_quote_of_ge hlead.ge) (scanChar_three hlead hc) (ih _ t' ht') hfuel
  | @four a b c d s hlead hc hd _ ih =>
      intro codep t ht fuel hfuel
      obtain ⟨codep', hdump⟩ := dumpEscapedFrom_four hlead hc hd codep s
      rw [hdump] at ht
      obtain ⟨t', ht', rfl⟩ := Option.map_eq_some_iff.1 ht
      exact scanString_append (ne_quote_of_ge hlead.ge) (scanChar_four hlead hc hd) (ih _ t' ht')
        hfuel

/-- A dumped string is one token. -/
theorem scan_dumped {s t : Bytes} (h : ValidUtf8 s) (ht : dumpEscaped s = some t) (rest : Bytes) :
    scan (QUOTE :: (t ++ QUOTE :: rest)) = (.value_string s, rest) := by
  have hscan := scanString_dumpEscapedFrom h rest 0 t ht (t ++ QUOTE :: rest).length
    (by simp only [List.length_append, List.length_cons]; omega)
  have hdrop : (QUOTE :: (t ++ QUOTE :: rest)).dropWhile isBlank = QUOTE :: (t ++ QUOTE :: rest) :=
    List.dropWhile_cons_of_neg (by decide)
  rw [scan, hdrop]
  show scanFrom QUOTE (t ++ QUOTE :: rest) = _
  have hfrom : scanFrom QUOTE (t ++ QUOTE :: rest) =
      match scanString (t ++ QUOTE :: rest).length (t ++ QUOTE :: rest) with
      | none => (.parse_error, [])
      | some (text, rest) => (.value_string text, rest) := rfl
  rw [hfrom, hscan]

theorem scan_begin_object (s : Bytes) : scan (123 :: s) = (.begin_object, s) := rfl

theorem scan_end_object (s : Bytes) : scan (125 :: s) = (.end_object, s) := rfl

theorem scan_name_separator (s : Bytes) : scan (58 :: s) = (.name_separator, s) := rfl

/-- The text of an object with one string member. -/
theorem dump_member {key s k v : Bytes} (hk : dumpEscaped key = some k) (hv : dumpEscaped s = some v) :
    (Json.object (.cons key (.string s) .nil)).dump
      = some (123 :: QUOTE :: (k ++ QUOTE :: 58 :: QUOTE :: (v ++ QUOTE :: [125]))) := by
  have hopen : ascii "\x7b" = [123] := by decide
  have hclose : ascii "\x7d" = [125] := by decide
  have hquote : ascii "\"" = [QUOTE] := by decide
  have hcolon : ascii "\":" = [QUOTE, 58] := by decide
  simp only [Json.dump, Members.dump, hk, hv, hopen, hclose, hquote, hcolon, Option.map_some,
    Option.bind_eq_bind, Option.bind_some, List.cons_append, List.nil_append, List.append_assoc]

/-- **An object with one string member comes back from its text.** -/
theorem parse_dump_member {key s t : Bytes} (hkey : ValidUtf8 key) (hs : ValidUtf8 s)
    (h : (Json.object (.cons key (.string s) .nil)).dump = some t) :
    parse t = some (.object [(key, .string s)]) := by
  obtain ⟨k, hk⟩ := Option.isSome_iff_exists.1 (dumpEscaped_isSome hkey)
  obtain ⟨v, hv⟩ := Option.isSome_iff_exists.1 (dumpEscaped_isSome hs)
  rw [dump_member hk hv, Option.some.injEq] at h
  have hbom : skipBom t = some t := by
    rw [← h]
    rfl
  obtain ⟨n, hn⟩ : ∃ n, t.length + 2 = n + 3 := by
    refine ⟨t.length - 1, ?_⟩
    rw [← h, List.length_cons]
    omega
  have hkeyToken := scan_dumped hkey hk (58 :: QUOTE :: (v ++ QUOTE :: [125]))
  have hvalToken := scan_dumped hs hv [125]
  unfold parse
  rw [hbom, hn, ← h]
  simp only [Option.bind_eq_bind, Option.bind_some, saxParseInternal, ParserState.pass,
    ParserState.parseValue, ParserState.getToken, ParserState.parseKey, ParserState.evaluateState,
    ParserState.value, scan_begin_object, hkeyToken, scan_name_separator, hvalToken,
    scan_end_object, Bool.false_eq_true, if_false, if_true]
  rfl

end FileCacheProxy
