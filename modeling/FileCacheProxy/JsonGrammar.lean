import FileCacheProxy.JsonUtf8
import Mathlib

set_option autoImplicit false

/-! # The JSON parser against a grammar (`json.hpp`)

`sax_parse_internal` reads nested arrays and objects in one loop, with a stack of its own and a flag in
place of a `goto`, and builds the value in `json_sax_dom_parser` on a second stack. Here it is held to
a grammar over the tokens of the lexer, which says recursively what a value is: the loop accepts a text
exactly when the grammar derives a value from it, and then returns that value.

`isfinite` is the test of a floating-point number after `strtod`, which is not modelled further:
`saxParseChecked` is `saxParseInternal` with that test. -/

namespace FileCacheProxy

/-! ## The parser with the test of floating-point numbers -/

/-- A pass of the loop; a number that is not finite is an `out_of_range` error. -/
def ParserState.passChecked (isfinite : Bytes → Bool) (st : ParserState) : PassEnd :=
  match st.skip_to_state_evaluation, st.last_token with
  | false, .value_float text => if isfinite text then st.pass else .failed
  | _, _ => st.pass

def saxParseChecked (isfinite : Bytes → Bool) : ℕ → ParserState → Option ParserState
  | 0, _ => none
  | fuel + 1, st =>
      match st.passChecked isfinite with
      | .again st => saxParseChecked isfinite fuel st
      | .finished st => some st
      | .failed => none

/-- `parse(s)` -/
def parseChecked (isfinite : Bytes → Bool) (s : Bytes) : Option JsonValue := do
  let input ← skipBom s
  let start : ParserState :=
    { last_token := .uninitialized, input := input, states := [], skip_to_state_evaluation := false,
      dom := ⟨.null, []⟩ }
  let st ← saxParseChecked isfinite (s.length + 2) start.getToken
  match st.getToken.last_token with
  | .end_of_input => some st.dom.root
  | _ => none

theorem passChecked_true (st : ParserState) : st.passChecked (fun _ => true) = st.pass := by
  unfold ParserState.passChecked
  split
  · rfl
  · rfl

/-- Where every number is finite there is nothing to test. -/
theorem parse_eq_parseChecked (s : Bytes) : parse s = parseChecked (fun _ => true) s := by
  have hloop : ∀ (fuel : ℕ) (st : ParserState),
      saxParseInternal fuel st = saxParseChecked (fun _ => true) fuel st := by
    intro fuel
    induction fuel with
    | zero => exact fun _ => rfl
    | succ fuel ih =>
        intro st
        rw [saxParseInternal, saxParseChecked, passChecked_true]
        cases st.pass with
        | again st' => exact ih st'
        | finished st' => rfl
        | failed => rfl
  have hsame : saxParseInternal = saxParseChecked (fun _ => true) :=
    funext fun fuel => funext (hloop fuel)
  unfold parseChecked
  rw [← hsame]
  rfl

/-! ## The grammar -/

/-- What is read: a value; the elements of an array up to its end; the members of an object from the
    value of `key` up to its end. -/
inductive Part where
  | value (v : JsonValue)
  | elements (vs : List JsonValue)
  | members (key : Bytes) (ms : List (Bytes × JsonValue))

/-- The map of an object to whose keys these values are assigned in turn. -/
def assignMembers (members ms : List (Bytes × JsonValue)) : List (Bytes × JsonValue) :=
  ms.foldl (fun m kv => assignMember m kv.1 kv.2) members

/-- `Reads isfinite t s part r`: from the token `t` and the input `s` behind it, `part` is read and `r`
    is left. -/
inductive Reads (isfinite : Bytes → Bool) : Token → Bytes → Part → Bytes → Prop
  | null (s : Bytes) : Reads isfinite .literal_null s (.value .null) s
  | literalFalse (s : Bytes) : Reads isfinite .literal_false s (.value (.boolean false)) s
  | literalTrue (s : Bytes) : Reads isfinite .literal_true s (.value (.boolean true)) s
  | string (text s : Bytes) : Reads isfinite (.value_string text) s (.value (.string text)) s
  | integer (z : ℤ) (s : Bytes) : Reads isfinite (.value_integer z) s (.value (.integer z)) s
  | float {text : Bytes} (s : Bytes) : isfinite text = true →
      Reads isfinite (.value_float text) s (.value (.float text)) s
  | emptyArray {s r : Bytes} : scan s = (.end_array, r) →
      Reads isfinite .begin_array s (.value (.array [])) r
  | array {s s₁ r : Bytes} {t : Token} {vs : List JsonValue} : scan s = (t, s₁) →
      Reads isfinite t s₁ (.elements vs) r → Reads isfinite .begin_array s (.value (.array vs)) r
  | emptyObject {s r : Bytes} : scan s = (.end_object, r) →
      Reads isfinite .begin_object s (.value (.object [])) r
  | object {s s₁ s₂ s₃ r key : Bytes} {t : Token} {ms : List (Bytes × JsonValue)} :
      scan s = (.value_string key, s₁) → scan s₁ = (.name_separator, s₂) → scan s₂ = (t, s₃) →
      Reads isfinite t s₃ (.members key ms) r →
      Reads isfinite .begin_object s (.value (.object (assignMembers [] ms))) r
  | lastElement {s s₁ r : Bytes} {t : Token} {v : JsonValue} : Reads isfinite t s (.value v) s₁ →
      scan s₁ = (.end_array, r) → Reads isfinite t s (.elements [v]) r
  | moreElements {s s₁ s₂ s₃ r : Bytes} {t t' : Token} {v : JsonValue} {vs : List JsonValue} :
      Reads isfinite t s (.value v) s₁ → scan s₁ = (.value_separator, s₂) → scan s₂ = (t', s₃) →
      Reads isfinite t' s₃ (.elements vs) r → Reads isfinite t s (.elements (v :: vs)) r
  | lastMember {s s₁ r key : Bytes} {t : Token} {v : JsonValue} : Reads isfinite t s (.value v) s₁ →
      scan s₁ = (.end_object, r) → Reads isfinite t s (.members key [(key, v)]) r
  | moreMembers {s s₁ s₂ s₃ s₄ s₅ r key key' : Bytes} {t t' : Token} {v : JsonValue}
      {ms : List (Bytes × JsonValue)} :
      Reads isfinite t s (.value v) s₁ → scan s₁ = (.value_separator, s₂) →
      scan s₂ = (.value_string key', s₃) → scan s₃ = (.name_separator, s₄) →
      scan s₄ = (t', s₅) → Reads isfinite t' s₅ (.members key' ms) r →
      Reads isfinite t s (.members key ((key, v) :: ms)) r

/-- A JSON text: one value, nothing but blanks behind it (or a NUL, where the lexer stops). -/
def Derives (isfinite : Bytes → Bool) (s : Bytes) (v : JsonValue) : Prop :=
  ∃ input t rest r, skipBom s = some input ∧ scan input = (t, rest) ∧
    Reads isfinite t rest (.value v) r ∧ (scan r).1 = .end_of_input

/-! ## A token takes input -/

theorem getCodepoint_length {s : Bytes} {r : ℕ × Bytes} (h : getCodepoint s = some r) :
    r.2.length ≤ s.length := by
  unfold getCodepoint at h
  split at h
  · simp only [Option.bind_eq_bind, Option.bind_eq_some_iff] at h
    obtain ⟨_, -, _, -, _, -, _, -, hr⟩ := h
    rw [← Option.some.inj hr]
    simp only [List.length_cons]
    omega
  · cases h

theorem scanUnicode_length {s : Bytes} {r : Bytes × Bytes} (h : scanUnicode s = some r) :
    r.2.length ≤ s.length := by
  unfold scanUnicode at h
  simp only [Option.bind_eq_bind, Option.bind_eq_some_iff] at h
  obtain ⟨⟨codepoint1, s1⟩, h1, h⟩ := h
  have hle1 : s1.length ≤ s.length := getCodepoint_length h1
  dsimp only at h
  split_ifs at h
  · split at h
    · next s2 =>
        obtain ⟨⟨codepoint2, s3⟩, h2, h⟩ := Option.bind_eq_some_iff.1 h
        have hle2 : s3.length ≤ s2.length := getCodepoint_length h2
        dsimp only at h
        split_ifs at h
        rw [← Option.some.inj h]
        simp only [List.length_cons] at hle1 ⊢
        omega
    · cases h
  · rw [← Option.some.inj h]
    exact hle1

theorem nextByteInRange_length (ranges : List (UInt8 × UInt8)) : ∀ (s : Bytes) (r : Bytes × Bytes),
    nextByteInRange ranges s = some r → r.2.length ≤ s.length := by
  induction ranges with
  | nil =>
      intro s r h
      rw [nextByteInRange] at h
      rw [← Option.some.inj h]
  | cons range ranges ih =>
      intro s r h
      obtain ⟨b, s', bs, rfl, -, -, hrest⟩ := nextByteInRange_cons_inv h
      have hle := ih s' (bs, r.2) hrest
      rw [List.length_cons]
      exact hle.trans (Nat.le_succ _)

theorem scanChar_length {c : UInt8} {s : Bytes} {r : Bytes × Bytes} (h : scanChar c s = some r) :
    r.2.length ≤ s.length := by
  unfold scanChar at h
  split_ifs at h
  · cases s with
    | nil => cases h
    | cons e s =>
        simp only [scanEscape] at h
        rw [List.length_cons]
        split at h
        · rw [← Option.some.inj h]
          exact Nat.le_succ _
        · split_ifs at h
          exact (scanUnicode_length h).trans (Nat.le_succ _)
  · split at h
    · cases h
    · next ranges _ =>
        obtain ⟨r', hr, rfl⟩ := Option.map_eq_some_iff.1 h
        exact nextByteInRange_length ranges s r' hr

theorem scanString_length (fuel : ℕ) : ∀ (s : Bytes) (r : Bytes × Bytes),
    scanString fuel s = some r → r.2.length ≤ s.length := by
  induction fuel with
  | zero =>
      intro s r h
      cases h
  | succ fuel ih =>
      intro s r h
      cases s with
      | nil => cases h
      | cons c s =>
          rw [scanString] at h
          rw [List.length_cons]
          split_ifs at h
          · rw [← Option.some.inj h]
            exact Nat.le_succ _
          · split at h
            · cases h
            · next added s' hchar =>
                obtain ⟨r', hr, rfl⟩ := Option.map_eq_some_iff.1 h
                have hle : s'.length ≤ s.length := scanChar_length hchar
                exact ((ih s' r' hr).trans hle).trans (Nat.le_succ _)

theorem scanNumberFrom_length (s : Bytes) : ∀ (st : NumberState) (ty : NumberType)
    (r : NumberType × Bytes × Bytes), scanNumberFrom st ty s = some r → r.2.2.length ≤ s.length := by
  induction s with
  | nil =>
      intro st ty r h
      rw [scanNumberFrom] at h
      split at h
      · rw [← Option.some.inj h]
      · cases h
  | cons c s ih =>
      intro st ty r h
      rw [scanNumberFrom] at h
      split at h
      · obtain ⟨r', hr, rfl⟩ := Option.map_eq_some_iff.1 h
        exact (ih _ _ r' hr).trans (Nat.le_succ _)
      · rw [← Option.some.inj h]
      · cases h

theorem scanLiteral_length (text : Bytes) (token : Token) (s : Bytes) :
    (scanLiteral text token s).2.length ≤ s.length := by
  unfold scanLiteral
  split_ifs
  · rw [List.length_drop]
    exact Nat.sub_le _ _
  · exact Nat.zero_le _

/-- What `scanFrom` can return: a token of one character or the end, a literal, a string, a number or
    an error. -/
theorem scanFrom_cases {P : Token × Bytes → Prop} (c : UInt8) (s : Bytes)
    (hone : ∀ t ∈ [Token.begin_array, .end_array, .begin_object, .end_object, .name_separator,
      .value_separator, .end_of_input], P (t, s))
    (hliteral : ∀ text, ∀ t ∈ [Token.literal_true, .literal_false, .literal_null],
      P (scanLiteral text t s))
    (hstring : ∀ text rest, scanString s.length s = some (text, rest) → P (.value_string text, rest))
    (hnumber : P (scanNumber c s)) (herror : P (.parse_error, [])) : P (scanFrom c s) := by
  unfold scanFrom
  -- the six structural characters, then the three literals
  iterate 6 refine iteInduction (motive := P) (fun _ => hone _ (by simp)) fun _ => ?_
  iterate 3 refine iteInduction (motive := P) (fun _ => hliteral _ _ (by simp)) fun _ => ?_
  refine iteInduction (motive := P) (fun _ => ?_) fun _ => ?_
  · split
    · exact herror
    · next text rest h => exact hstring text rest h
  refine iteInduction (motive := P) (fun _ => hnumber) fun _ => ?_
  exact iteInduction (motive := P) (fun _ => hone _ (by simp)) fun _ => herror

theorem scanFrom_length (c : UInt8) (s : Bytes) : (scanFrom c s).2.length ≤ s.length := by
  refine scanFrom_cases (P := fun r => r.2.length ≤ s.length) c s (fun _ _ => le_rfl)
    (fun text t _ => scanLiteral_length text t s)
    (fun text rest h => scanString_length _ s (text, rest) h) ?_ (Nat.zero_le _)
  unfold scanNumber
  dsimp only
  split
  · exact Nat.zero_le _
  · next ty text rest h => exact scanNumberFrom_length s _ _ (ty, text, rest) h

/-- Every token but the end takes a byte. -/
theorem scan_length {s r : Bytes} {t : Token} (h : scan s = (t, r)) (ht : t ≠ .end_of_input) :
    r.length < s.length := by
  have hle : (s.dropWhile isBlank).length ≤ s.length := List.length_dropWhile_le isBlank s
  unfold scan at h
  split at h
  · cases h
    exact absurd rfl ht
  · next c s' hs =>
      have hfrom : r.length ≤ s'.length := by
        have hlen := scanFrom_length c s'
        rwa [h] at hlen
      rw [hs, List.length_cons] at hle
      omega

theorem ParserState.getToken_eq {st : ParserState} {t : Token} {r : Bytes}
    (h : scan st.input = (t, r)) : st.getToken = { st with last_token := t, input := r } := by
  rw [ParserState.getToken, h]

/-! ## What the grammar derives is accepted -/

variable {isfinite : Bytes → Bool}

/-- The loop behind a value: the second half of a pass, and what comes then. -/
def ParserState.resume (isfinite : Bytes → Bool) (fuel : ℕ) (st : ParserState) :
    Option ParserState :=
  match st.evaluateState with
  | .again st => saxParseChecked isfinite fuel st
  | .finished st => some st
  | .failed => none

/-- The flag that replaces a `goto` only skips the first half of a pass. -/
theorem saxParseChecked_skip (fuel : ℕ) (t : Token) (s : Bytes) (states : List Bool) (dom : Dom) :
    saxParseChecked isfinite (fuel + 1) ⟨t, s, states, true, dom⟩ =
      ParserState.resume isfinite fuel ⟨t, s, states, false, dom⟩ := rfl

/-- A scalar is a value at once. -/
theorem saxParseChecked_value {t : Token} {v : JsonValue} (s : Bytes) (states : List Bool) (dom : Dom)
    (hpass : ParserState.passChecked isfinite ⟨t, s, states, false, dom⟩ =
      ParserState.value ⟨t, s, states, false, dom⟩ v) (fuel : ℕ) :
    saxParseChecked isfinite (fuel + 1) ⟨t, s, states, false, dom⟩ =
      ParserState.resume isfinite fuel ⟨t, s, states, false, dom.handleValue v⟩ := by
  rw [saxParseChecked, hpass]
  rfl

/-- What the loop makes of a part, on any stacks: a value is handed to the container around it; the
    rest of an array or an object first finishes that container. It takes no more passes than
    bytes. -/
def Part.Runs (isfinite : Bytes → Bool) (t : Token) (s : Bytes) (r : Bytes) : Part → Prop
  | .value v => ∀ (states : List Bool) (dom : Dom), ∃ t' n, n + r.length ≤ s.length ∧ ∀ fuel,
      saxParseChecked isfinite (fuel + n + 1) ⟨t, s, states, false, dom⟩ =
        ParserState.resume isfinite fuel ⟨t', r, states, false, dom.handleValue v⟩
  | .elements vs => ∀ (states : List Bool) (root : JsonValue) (frames : List Frame)
      (elements : List JsonValue), ∃ t' n, n + r.length ≤ s.length ∧ ∀ fuel,
      saxParseChecked isfinite (fuel + n + 1)
          ⟨t, s, true :: states, false, ⟨root, .array elements :: frames⟩⟩ =
        ParserState.resume isfinite fuel
          ⟨t', r, states, false, Dom.handleValue ⟨root, frames⟩ (.array (elements ++ vs))⟩
  | .members key ms => ∀ (states : List Bool) (root : JsonValue) (frames : List Frame)
      (members : List (Bytes × JsonValue)), ∃ t' n, n + r.length ≤ s.length ∧ ∀ fuel,
      saxParseChecked isfinite (fuel + n + 1)
          ⟨t, s, false :: states, false, ⟨root, .object members key :: frames⟩⟩ =
        ParserState.resume isfinite fuel
          ⟨t', r, states, false, Dom.handleValue ⟨root, frames⟩ (.object (assignMembers members ms))⟩

/-- Behind a value inside an array. -/
theorem resume_array_end {t : Token} {s r : Bytes} {states : List Bool} {root : JsonValue}
    {elements : List JsonValue} {frames : List Frame} (h : scan s = (.end_array, r)) (fuel : ℕ) :
    ParserState.resume isfinite (fuel + 1)
        ⟨t, s, true :: states, false, ⟨root, .array elements :: frames⟩⟩ =
      ParserState.resume isfinite fuel
        ⟨.end_array, r, states, false, Dom.handleValue ⟨root, frames⟩ (.array elements)⟩ := by
  have hend : ParserState.evaluateState
      ⟨t, s, true :: states, false, ⟨root, .array elements :: frames⟩⟩ = .again
        ⟨.end_array, r, states, true, Dom.handleValue ⟨root, frames⟩ (.array elements)⟩ := by
    simp only [ParserState.evaluateState, ParserState.getToken, h]
    rfl
  rw [← saxParseChecked_skip fuel .end_array, ParserState.resume, hend]

theorem resume_array_more {t t' : Token} {s s₁ s₂ : Bytes} {states : List Bool} {dom : Dom}
    (h : scan s = (.value_separator, s₁)) (h₁ : scan s₁ = (t', s₂)) (fuel : ℕ) :
    ParserState.resume isfinite fuel ⟨t, s, true :: states, false, dom⟩ =
      saxParseChecked isfinite fuel ⟨t', s₂, true :: states, false, dom⟩ := by
  simp only [ParserState.resume, ParserState.evaluateState, ParserState.getToken, h, h₁]

/-- Behind a value inside an object. -/
theorem resume_object_end {t : Token} {s r key : Bytes} {states : List Bool} {root : JsonValue}
    {members : List (Bytes × JsonValue)} {frames : List Frame} (h : scan s = (.end_object, r))
    (fuel : ℕ) :
    ParserState.resume isfinite (fuel + 1)
        ⟨t, s, false :: states, false, ⟨root, .object members key :: frames⟩⟩ =
      ParserState.resume isfinite fuel
        ⟨.end_object, r, states, false, Dom.handleValue ⟨root, frames⟩ (.object members)⟩ := by
  have hend : ParserState.evaluateState
      ⟨t, s, false :: states, false, ⟨root, .object members key :: frames⟩⟩ = .again
        ⟨.end_object, r, states, true, Dom.handleValue ⟨root, frames⟩ (.object members)⟩ := by
    simp only [ParserState.evaluateState, ParserState.getToken, h]
    rfl
  rw [← saxParseChecked_skip fuel .end_object, ParserState.resume, hend]

theorem resume_object_more {t t' : Token} {s s₁ s₂ s₃ s₄ key key' : Bytes} {states : List Bool}
    {root : JsonValue} {members : List (Bytes × JsonValue)} {frames : List Frame}
    (h : scan s = (.value_separator, s₁)) (h₁ : scan s₁ = (.value_string key', s₂))
    (h₂ : scan s₂ = (.name_separator, s₃)) (h₃ : scan s₃ = (t', s₄)) (fuel : ℕ) :
    ParserState.resume isfinite fuel
        ⟨t, s, false :: states, false, ⟨root, .object members key :: frames⟩⟩ =
      saxParseChecked isfinite fuel
        ⟨t', s₄, false :: states, false, ⟨root, .object members key' :: frames⟩⟩ := by
  simp only [ParserState.resume, ParserState.evaluateState, ParserState.getToken,
    ParserState.parseKey, Dom.key, h, h₁, h₂, h₃]

/-- The first token of an array that is not empty. -/
theorem saxParseChecked_array {t : Token} {s s₁ : Bytes} (h : scan s = (t, s₁)) (ht : t ≠ .end_array)
    (states : List Bool) (dom : Dom) (fuel : ℕ) :
    saxParseChecked isfinite (fuel + 1) ⟨.begin_array, s, states, false, dom⟩ =
      saxParseChecked isfinite fuel
        ⟨t, s₁, true :: states, false, ⟨dom.root, .array [] :: dom.ref_stack⟩⟩ := by
  have hpass : ParserState.passChecked isfinite ⟨.begin_array, s, states, false, dom⟩ =
      .again ⟨t, s₁, true :: states, false, ⟨dom.root, .array [] :: dom.ref_stack⟩⟩ := by
    simp only [ParserState.passChecked, ParserState.pass, ParserState.parseValue,
      ParserState.getToken, h, Bool.false_eq_true, if_false]
    rfl
  rw [saxParseChecked, hpass]

theorem saxParseChecked_emptyArray {s r : Bytes} (h : scan s = (.end_array, r)) (states : List Bool)
    (dom : Dom) (fuel : ℕ) :
    saxParseChecked isfinite (fuel + 1) ⟨.begin_array, s, states, false, dom⟩ =
      ParserState.resume isfinite fuel
        ⟨.end_array, r, states, false, dom.handleValue (.array [])⟩ := by
  have hpass : ParserState.passChecked isfinite ⟨.begin_array, s, states, false, dom⟩ =
      ParserState.evaluateState ⟨.end_array, r, states, false, dom.handleValue (.array [])⟩ := by
    simp only [ParserState.passChecked, ParserState.pass, ParserState.parseValue,
      ParserState.getToken, h, Bool.false_eq_true, if_false]
    rfl
  rw [saxParseChecked, hpass]
  rfl

/-- The first key of an object that is not empty. -/
theorem saxParseChecked_object {t : Token} {s s₁ s₂ s₃ key : Bytes}
    (h : scan s = (.value_string key, s₁)) (h₁ : scan s₁ = (.name_separator, s₂))
    (h₂ : scan s₂ = (t, s₃)) (states : List Bool) (dom : Dom) (fuel : ℕ) :
    saxParseChecked isfinite (fuel + 1) ⟨.begin_object, s, states, false, dom⟩ =
      saxParseChecked isfinite fuel
        ⟨t, s₃, false :: states, false, ⟨dom.root, .object [] key :: dom.ref_stack⟩⟩ := by
  have hpass : ParserState.passChecked isfinite ⟨.begin_object, s, states, false, dom⟩ =
      .again ⟨t, s₃, false :: states, false, ⟨dom.root, .object [] key :: dom.ref_stack⟩⟩ := by
    simp only [ParserState.passChecked, ParserState.pass, ParserState.parseValue,
      ParserState.getToken, ParserState.parseKey, h, h₁, h₂, Bool.false_eq_true, if_false]
    rfl
  rw [saxParseChecked, hpass]

theorem saxParseChecked_emptyObject {s r : Bytes} (h : scan s = (.end_object, r))
    (states : List Bool) (dom : Dom) (fuel : ℕ) :
    saxParseChecked isfinite (fuel + 1) ⟨.begin_object, s, states, false, dom⟩ =
      ParserState.resume isfinite fuel
        ⟨.end_object, r, states, false, dom.handleValue (.object [])⟩ := by
  have hpass : ParserState.passChecked isfinite ⟨.begin_object, s, states, false, dom⟩ =
      ParserState.evaluateState ⟨.end_object, r, states, false, dom.handleValue (.object [])⟩ := by
    simp only [ParserState.passChecked, ParserState.pass, ParserState.parseValue,
      ParserState.getToken, h, Bool.false_eq_true, if_false]
    rfl
  rw [saxParseChecked, hpass]
  rfl

/-- No part begins with the end of an array or of the input. -/
theorem Reads.token_ne {t : Token} {s r : Bytes} {part : Part} (h : Reads isfinite t s part r) :
    t ≠ .end_array ∧ t ≠ .end_of_input := by
  induction h with
  | lastElement _ _ ih => exact ih
  | moreElements _ _ _ _ ih _ => exact ih
  | lastMember _ _ ih => exact ih
  | moreMembers _ _ _ _ _ _ ih _ => exact ih
  | _ => exact ⟨by simp, by simp⟩

/-- **Every derivation is run by the loop.** -/
theorem Reads.runs {t : Token} {s r : Bytes} {part : Part} (h : Reads isfinite t s part r) :
    part.Runs isfinite t s r := by
  induction h with
  | null s =>
      exact fun states dom => ⟨_, 0, by omega, saxParseChecked_value s states dom rfl⟩
  | literalFalse s =>
      exact fun states dom => ⟨_, 0, by omega, saxParseChecked_value s states dom rfl⟩
  | literalTrue s =>
      exact fun states dom => ⟨_, 0, by omega, saxParseChecked_value s states dom rfl⟩
  | string text s =>
      exact fun states dom => ⟨_, 0, by omega, saxParseChecked_value s states dom rfl⟩
  | integer z s =>
      exact fun states dom => ⟨_, 0, by omega, saxParseChecked_value s states dom rfl⟩
  | @float text s hfinite =>
      refine fun states dom => ⟨_, 0, by omega, saxParseChecked_value s states dom ?_⟩
      simp only [ParserState.passChecked, hfinite, if_true]
      rfl
  | emptyArray hs =>
      intro states dom
      have hlt := scan_length hs (by simp)
      exact ⟨_, 0, by omega, saxParseChecked_emptyArray hs states dom⟩
  | array hs hreads ih =>
      intro states dom
      have hlt := scan_length hs hreads.token_ne.2
      obtain ⟨t', n, hn, hrun⟩ := ih states dom.root dom.ref_stack []
      refine ⟨t', n + 1, by omega, fun fuel => ?_⟩
      rw [← Nat.add_assoc, saxParseChecked_array hs hreads.token_ne.1, hrun]
      rfl
  | emptyObject hs =>
      intro states dom
      have hlt := scan_length hs (by simp)
      exact ⟨_, 0, by omega, saxParseChecked_emptyObject hs states dom⟩
  | object hs hs₁ hs₂ hreads ih =>
      intro states dom
      have hlt := scan_length hs (by simp)
      have hlt₁ := scan_length hs₁ (by simp)
      have hlt₂ := scan_length hs₂ hreads.token_ne.2
      obtain ⟨t', n, hn, hrun⟩ := ih states dom.root dom.ref_stack []
      refine ⟨t', n + 1, by omega, fun fuel => ?_⟩
      rw [← Nat.add_assoc, saxParseChecked_object hs hs₁ hs₂, hrun]
  | @lastElement s s₁ r t v hv hs ih =>
      intro states root frames elements
      have hlt := scan_length hs (by simp)
      obtain ⟨t', n, hn, hrun⟩ := ih (true :: states) ⟨root, .array elements :: frames⟩
      refine ⟨.end_array, n + 1, by omega, fun fuel => ?_⟩
      rw [show fuel + (n + 1) + 1 = fuel + 1 + n + 1 by omega, hrun]
      exact resume_array_end hs fuel
  | @moreElements s s₁ s₂ s₃ r t t' v vs hv hs hs₁ hreads ihv ih =>
      intro states root frames elements
      have hlt := scan_length hs (by simp)
      have hlt₁ := scan_length hs₁ hreads.token_ne.2
      obtain ⟨t₁, n₁, hn₁, hrun₁⟩ := ihv (true :: states) ⟨root, .array elements :: frames⟩
      obtain ⟨t₂, n₂, hn₂, hrun₂⟩ := ih states root frames (elements ++ [v])
      refine ⟨t₂, n₁ + n₂ + 1, by omega, fun fuel => ?_⟩
      rw [show fuel + (n₁ + n₂ + 1) + 1 = fuel + n₂ + 1 + n₁ + 1 by omega, hrun₁,
        resume_array_more hs hs₁]
      refine (hrun₂ fuel).trans ?_
      rw [List.append_assoc, List.singleton_append]
  | @lastMember s s₁ r key t v hv hs ih =>
      intro states root frames members
      have hlt := scan_length hs (by simp)
      obtain ⟨t', n, hn, hrun⟩ := ih (false :: states) ⟨root, .object members key :: frames⟩
      refine ⟨.end_object, n + 1, by omega, fun fuel => ?_⟩
      rw [show fuel + (n + 1) + 1 = fuel + 1 + n + 1 by omega, hrun]
      exact resume_object_end hs fuel
  | @moreMembers s s₁ s₂ s₃ s₄ s₅ r key key' t t' v ms hv hs hs₁ hs₂ hs₃ hreads ihv ih =>
      intro states root frames members
      have hlt := scan_length hs (by simp)
      have hlt₁ := scan_length hs₁ (by simp)
      have hlt₂ := scan_length hs₂ (by simp)
      have hlt₃ := scan_length hs₃ hreads.token_ne.2
      obtain ⟨t₁, n₁, hn₁, hrun₁⟩ := ihv (false :: states) ⟨root, .object members key :: frames⟩
      obtain ⟨t₂, n₂, hn₂, hrun₂⟩ := ih states root frames (assignMember members key v)
      refine ⟨t₂, n₁ + n₂ + 1, by omega, fun fuel => ?_⟩
      rw [show fuel + (n₁ + n₂ + 1) + 1 = fuel + n₂ + 1 + n₁ + 1 by omega, hrun₁]
      exact (resume_object_more hs hs₁ hs₂ hs₃ _).trans (hrun₂ fuel)

/-! ## What is accepted the grammar derives -/

/-- What can stand behind an element of an array. -/
theorem resume_array_inv {t : Token} {s : Bytes} {states : List Bool} {root : JsonValue}
    {elements : List JsonValue} {frames : List Frame} {fuel : ℕ} {fin : ParserState}
    (h : ParserState.resume isfinite fuel
      ⟨t, s, true :: states, false, ⟨root, .array elements :: frames⟩⟩ = some fin) :
    (∃ r m, scan s = (.end_array, r) ∧ fuel = m + 1 ∧ ParserState.resume isfinite m
      ⟨.end_array, r, states, false, Dom.handleValue ⟨root, frames⟩ (.array elements)⟩ = some fin) ∨
    ∃ s₁ s₂ t', scan s = (.value_separator, s₁) ∧ scan s₁ = (t', s₂) ∧
      saxParseChecked isfinite fuel
        ⟨t', s₂, true :: states, false, ⟨root, .array elements :: frames⟩⟩ = some fin := by
  rcases hs : scan s with ⟨t₁, s₁⟩
  cases t₁ with
  | value_separator =>
      rw [resume_array_more hs rfl] at h
      exact Or.inr ⟨s₁, _, _, rfl, rfl, h⟩
  | end_array =>
      cases fuel with
      | zero =>
          simp only [ParserState.resume, ParserState.evaluateState, ParserState.getToken, hs] at h
          cases h
      | succ m =>
          rw [resume_array_end hs] at h
          exact Or.inl ⟨s₁, m, rfl, rfl, h⟩
  | _ =>
      simp only [ParserState.resume, ParserState.evaluateState, ParserState.getToken, hs] at h
      cases h

/-- What can stand behind a member of an object. -/
theorem resume_object_inv {t : Token} {s key : Bytes} {states : List Bool} {root : JsonValue}
    {members : List (Bytes × JsonValue)} {frames : List Frame} {fuel : ℕ} {fin : ParserState}
    (h : ParserState.resume isfinite fuel
      ⟨t, s, false :: states, false, ⟨root, .object members key :: frames⟩⟩ = some fin) :
    (∃ r m, scan s = (.end_object, r) ∧ fuel = m + 1 ∧ ParserState.resume isfinite m
      ⟨.end_object, r, states, false, Dom.handleValue ⟨root, frames⟩ (.object members)⟩ = some fin) ∨
    ∃ s₁ s₂ s₃ s₄ key' t', scan s = (.value_separator, s₁) ∧ scan s₁ = (.value_string key', s₂) ∧
      scan s₂ = (.name_separator, s₃) ∧ scan s₃ = (t', s₄) ∧
      saxParseChecked isfinite fuel
        ⟨t', s₄, false :: states, false, ⟨root, .object members key' :: frames⟩⟩ = some fin := by
  rcases hs : scan s with ⟨t₁, s₁⟩
  cases t₁ with
  | value_separator =>
      rcases hs₁ : scan s₁ with ⟨t₂, s₂⟩
      cases t₂ with
      | value_string key' =>
          rcases hs₂ : scan s₂ with ⟨t₃, s₃⟩
          cases t₃ with
          | name_separator =>
              rw [resume_object_more hs hs₁ hs₂ rfl] at h
              exact Or.inr ⟨s₁, s₂, s₃, _, key', _, rfl, hs₁, hs₂, rfl, h⟩
          | _ =>
              simp only [ParserState.resume, ParserState.evaluateState, ParserState.getToken,
                ParserState.parseKey, hs, hs₁, hs₂] at h
              cases h
      | _ =>
          simp only [ParserState.resume, ParserState.evaluateState, ParserState.getToken,
            ParserState.parseKey, hs, hs₁] at h
          cases h
  | end_object =>
      cases fuel with
      | zero =>
          simp only [ParserState.resume, ParserState.evaluateState, ParserState.getToken, hs] at h
          cases h
      | succ m =>
          rw [resume_object_end hs] at h
          exact Or.inl ⟨s₁, m, rfl, rfl, h⟩
  | _ =>
      simp only [ParserState.resume, ParserState.evaluateState, ParserState.getToken, hs] at h
      cases h

/-- A run that ends has read a part and gone on behind it. -/
def Part.Read (isfinite : Bytes → Bool) (fuel : ℕ) : Prop :=
  (∀ (t : Token) (s : Bytes) (states : List Bool) (dom : Dom) (fin : ParserState),
    saxParseChecked isfinite fuel ⟨t, s, states, false, dom⟩ = some fin →
    ∃ v r t' m, m < fuel ∧ Reads isfinite t s (.value v) r ∧
      ParserState.resume isfinite m ⟨t', r, states, false, dom.handleValue v⟩ = some fin) ∧
  (∀ (t : Token) (s : Bytes) (states : List Bool) (root : JsonValue) (frames : List Frame)
    (elements : List JsonValue) (fin : ParserState),
    saxParseChecked isfinite fuel
      ⟨t, s, true :: states, false, ⟨root, .array elements :: frames⟩⟩ = some fin →
    ∃ vs r t' m, m < fuel ∧ Reads isfinite t s (.elements vs) r ∧
      ParserState.resume isfinite m ⟨t', r, states, false,
        Dom.handleValue ⟨root, frames⟩ (.array (elements ++ vs))⟩ = some fin) ∧
  (∀ (t : Token) (s key : Bytes) (states : List Bool) (root : JsonValue) (frames : List Frame)
    (members : List (Bytes × JsonValue)) (fin : ParserState),
    saxParseChecked isfinite fuel
      ⟨t, s, false :: states, false, ⟨root, .object members key :: frames⟩⟩ = some fin →
    ∃ ms r t' m, m < fuel ∧ Reads isfinite t s (.members key ms) r ∧
      ParserState.resume isfinite m ⟨t', r, states, false,
        Dom.handleValue ⟨root, frames⟩ (.object (assignMembers members ms))⟩ = some fin)

/-- A value, given the rests of arrays and objects with less fuel. -/
theorem read_value {fuel : ℕ} (ih : Part.Read isfinite fuel) {t : Token} {s : Bytes}
    {states : List Bool} {dom : Dom} {fin : ParserState}
    (h : saxParseChecked isfinite (fuel + 1) ⟨t, s, states, false, dom⟩ = some fin) :
    ∃ v r t' m, m < fuel + 1 ∧ Reads isfinite t s (.value v) r ∧
      ParserState.resume isfinite m ⟨t', r, states, false, dom.handleValue v⟩ = some fin := by
  cases t with
  | literal_null =>
      rw [saxParseChecked_value s states dom rfl] at h
      exact ⟨_, s, _, fuel, Nat.lt_succ_self _, .null s, h⟩
  | literal_false =>
      rw [saxParseChecked_value s states dom rfl] at h
      exact ⟨_, s, _, fuel, Nat.lt_succ_self _, .literalFalse s, h⟩
  | literal_true =>
      rw [saxParseChecked_value s states dom rfl] at h
      exact ⟨_, s, _, fuel, Nat.lt_succ_self _, .literalTrue s, h⟩
  | value_string text =>
      rw [saxParseChecked_value s states dom rfl] at h
      exact ⟨_, s, _, fuel, Nat.lt_succ_self _, .string text s, h⟩
  | value_integer z =>
      rw [saxParseChecked_value s states dom rfl] at h
      exact ⟨_, s, _, fuel, Nat.lt_succ_self _, .integer z s, h⟩
  | value_float text =>
      by_cases hfinite : isfinite text = true
      · have hpass : ParserState.passChecked isfinite ⟨.value_float text, s, states, false, dom⟩ =
            ParserState.value ⟨.value_float text, s, states, false, dom⟩ (.float text) := by
          simp only [ParserState.passChecked, hfinite, if_true]
          rfl
        rw [saxParseChecked_value s states dom hpass] at h
        exact ⟨_, s, _, fuel, Nat.lt_succ_self _, .float s hfinite, h⟩
      · simp only [saxParseChecked, ParserState.passChecked, hfinite, Bool.false_eq_true,
          if_false] at h
        cases h
  | begin_array =>
      rcases hs : scan s with ⟨t₁, s₁⟩
      by_cases ht : t₁ = .end_array
      · subst ht
        rw [saxParseChecked_emptyArray hs] at h
        exact ⟨_, s₁, _, fuel, Nat.lt_succ_self _, .emptyArray hs, h⟩
      · rw [saxParseChecked_array hs ht] at h
        obtain ⟨vs, r, t', m, hm, hreads, hrest⟩ := ih.2.1 _ _ _ _ _ _ _ h
        exact ⟨_, r, t', m, Nat.lt_succ_of_lt hm, .array hs hreads, hrest⟩
  | begin_object =>
      rcases hs : scan s with ⟨t₁, s₁⟩
      cases t₁ with
      | end_object =>
          rw [saxParseChecked_emptyObject hs] at h
          exact ⟨_, s₁, _, fuel, Nat.lt_succ_self _, .emptyObject hs, h⟩
      | value_string key =>
          rcases hs₁ : scan s₁ with ⟨t₂, s₂⟩
          cases t₂ with
          | name_separator =>
              rcases hs₂ : scan s₂ with ⟨t₃, s₃⟩
              rw [saxParseChecked_object hs hs₁ hs₂] at h
              obtain ⟨ms, r, t', m, hm, hreads, hrest⟩ := ih.2.2 _ _ _ _ _ _ _ _ h
              exact ⟨_, r, t', m, Nat.lt_succ_of_lt hm, .object hs hs₁ hs₂ hreads, hrest⟩
          | _ =>
              simp only [saxParseChecked, ParserState.passChecked, ParserState.pass,
                ParserState.parseValue, ParserState.getToken, ParserState.parseKey, hs, hs₁,
                Bool.false_eq_true, if_false] at h
              cases h
      | _ =>
          simp only [saxParseChecked, ParserState.passChecked, ParserState.pass,
            ParserState.parseValue, ParserState.getToken, ParserState.parseKey, hs,
            Bool.false_eq_true, if_false] at h
          cases h
  | _ => cases h

/-- **Every run of the loop has a derivation.** -/
theorem read_of_run (fuel : ℕ) : Part.Read isfinite fuel := by
  induction fuel using Nat.strongRecOn with
  | ind fuel ih =>
      have hvalue : ∀ (t : Token) (s : Bytes) (states : List Bool) (dom : Dom) (fin : ParserState),
          saxParseChecked isfinite fuel ⟨t, s, states, false, dom⟩ = some fin →
          ∃ v r t' m, m < fuel ∧ Reads isfinite t s (.value v) r ∧
            ParserState.resume isfinite m ⟨t', r, states, false, dom.handleValue v⟩ = some fin := by
        intro t s states dom fin h
        cases fuel with
        | zero => cases h
        | succ n => exact read_value (ih n (Nat.lt_succ_self n)) h
      refine ⟨hvalue, ?_, ?_⟩
      · intro t s states root frames elements fin h
        obtain ⟨v, r, t', m, hm, hv, hrest⟩ := hvalue _ _ _ _ _ h
        rcases resume_array_inv hrest with ⟨r', k, hs, rfl, hend⟩ | ⟨s₁, s₂, t₁, hs, hs₁, hmore⟩
        · exact ⟨[v], r', _, k, by omega, .lastElement hv hs, hend⟩
        · obtain ⟨vs, r', t₂, k, hk, hreads, hend⟩ := (ih m hm).2.1 _ _ _ _ _ _ _ hmore
          refine ⟨v :: vs, r', t₂, k, by omega, .moreElements hv hs hs₁ hreads, ?_⟩
          rwa [List.append_assoc, List.singleton_append] at hend
      · intro t s key states root frames members fin h
        obtain ⟨v, r, t', m, hm, hv, hrest⟩ := hvalue _ _ _ _ _ h
        rcases resume_object_inv hrest with
          ⟨r', k, hs, rfl, hend⟩ | ⟨s₁, s₂, s₃, s₄, key', t₁, hs, hs₁, hs₂, hs₃, hmore⟩
        · exact ⟨[(key, v)], r', _, k, by omega, .lastMember hv hs, hend⟩
        · obtain ⟨ms, r', t₂, k, hk, hreads, hend⟩ := (ih m hm).2.2 _ _ _ _ _ _ _ _ hmore
          exact ⟨(key, v) :: ms, r', t₂, k, by omega, .moreMembers hv hs hs₁ hs₂ hs₃ hreads, hend⟩

/-! ## The parser is the grammar -/

theorem skipBom_length {s input : Bytes} (h : skipBom s = some input) :
    input.length ≤ s.length := by
  unfold skipBom at h
  split at h
  · split at h
    · rw [← Option.some.inj h]
      simp only [List.length_cons]
      omega
    · cases h
  · rw [← Option.some.inj h]

/-- Behind the outermost value nothing is left to evaluate. -/
theorem resume_finished (m : ℕ) (t : Token) (r : Bytes) (dom : Dom) :
    ParserState.resume isfinite m ⟨t, r, [], false, dom⟩ = some ⟨t, r, [], false, dom⟩ := rfl

theorem derives_of_parseChecked {s : Bytes} {v : JsonValue} (h : parseChecked isfinite s = some v) :
    Derives isfinite s v := by
  unfold parseChecked at h
  simp only [Option.bind_eq_bind, Option.bind_eq_some_iff] at h
  obtain ⟨input, hbom, st, hrun, hend⟩ := h
  rcases hscan : scan input with ⟨t, rest⟩
  rw [ParserState.getToken_eq hscan] at hrun
  obtain ⟨w, r, t', m, -, hreads, hrest⟩ := (read_of_run _).1 _ _ _ _ _ hrun
  rw [resume_finished] at hrest
  cases hrest
  refine ⟨input, t, rest, r, hbom, hscan, ?_⟩
  simp only [ParserState.getToken] at hend
  split at hend
  · next hlast =>
      cases hend
      exact ⟨hreads, hlast⟩
  · cases hend

theorem Derives.parseChecked {s : Bytes} {v : JsonValue} (h : Derives isfinite s v) :
    parseChecked isfinite s = some v := by
  obtain ⟨input, t, rest, r, hbom, hscan, hreads, hend⟩ := h
  have hlen := skipBom_length hbom
  have hlt := scan_length hscan hreads.token_ne.2
  obtain ⟨t', n, hn, hrun⟩ := hreads.runs [] ⟨.null, []⟩
  unfold FileCacheProxy.parseChecked
  simp only [Option.bind_eq_bind, Option.bind_eq_some_iff]
  refine ⟨input, hbom, ⟨t', r, [], false, ⟨v, []⟩⟩, ?_, ?_⟩
  · rw [ParserState.getToken_eq hscan,
      show s.length + 2 = (s.length + 1 - n) + n + 1 by omega]
    exact (hrun _).trans (resume_finished _ _ _ _)
  · simp only [ParserState.getToken, hend]

/-- **`parse` returns a value exactly if the grammar derives it.** -/
theorem parseChecked_iff (isfinite : Bytes → Bool) (s : Bytes) (v : JsonValue) :
    parseChecked isfinite s = some v ↔ Derives isfinite s v :=
  ⟨derives_of_parseChecked, Derives.parseChecked⟩

/-- A value between blanks, behind a byte order mark. -/
example : parseChecked (fun _ => false) (0xEF :: 0xBB :: 0xBF :: ascii " null ") = some .null := rfl

end FileCacheProxy
