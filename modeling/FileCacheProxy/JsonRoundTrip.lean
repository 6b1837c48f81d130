import FileCacheProxy.FileInfo
import FileCacheProxy.JsonGrammar
import FileCacheProxy.UploadFidelity
import Mathlib

set_option autoImplicit false
-- the facts about all 256 bytes are decided one byte after the other
set_option maxRecDepth 1500

/-! # JSON round trips (`json.hpp`)

What the parser builds is a well-formed value: its strings are UTF-8, its integers fit their types, the
keys of its objects stand in the order of the `std::map`. What the serializer writes for a well-formed
value is a text of the grammar, so it is read back as the same value. Floating-point numbers are left
out of the round trips: their value is not modelled, and what is printed for one is the parameter
`dump_float`. -/

namespace FileCacheProxy

/-! ## Well-formed values -/

mutual

/-- What the parser guarantees of a value. -/
def JsonValue.Sound : JsonValue → Prop
  | .null | .boolean _ | .float _ => True
  | .string s => ValidUtf8 s
  | .integer z => -2 ^ 63 ≤ z ∧ z < 2 ^ 64
  | .array vs => soundElements vs
  | .object ms => (ms.map Prod.fst).Pairwise (· < ·) ∧ soundMembers ms

def soundElements : List JsonValue → Prop
  | [] => True
  | v :: vs => v.Sound ∧ soundElements vs

def soundMembers : List (Bytes × JsonValue) → Prop
  | [] => True
  | (key, v) :: ms => ValidUtf8 key ∧ v.Sound ∧ soundMembers ms

end

mutual

/-- No floating-point number occurs in the value. -/
def JsonValue.Exact : JsonValue → Prop
  | .null | .boolean _ | .string _ | .integer _ => True
  | .float _ => False
  | .array vs => exactElements vs
  | .object ms => exactMembers ms

def exactElements : List JsonValue → Prop
  | [] => True
  | v :: vs => v.Exact ∧ exactElements vs

def exactMembers : List (Bytes × JsonValue) → Prop
  | [] => True
  | (_, v) :: ms => v.Exact ∧ exactMembers ms

end

mutual

/-- `serializer::dump`, compact. `none`: it throws. -/
def JsonValue.dump (dump_float : Bytes → Bytes) : JsonValue → Option Bytes
  | .null => some (ascii "null")
  | .boolean true => some (ascii "true")
  | .boolean false => some (ascii "false")
  | .string s => (dumpEscaped s).map (fun t => ascii "\"" ++ t ++ ascii "\"")
  | .integer z => some (dumpInteger z)
  | .float text => some (dump_float text)
  | .array vs => (dumpElements dump_float vs).map (fun t => ascii "[" ++ t ++ ascii "]")
  | .object ms => (dumpMembers dump_float ms).map (fun t => ascii "\x7b" ++ t ++ ascii "\x7d")

def dumpElements (dump_float : Bytes → Bytes) : List JsonValue → Option Bytes
  | [] => some []
  | [v] => v.dump dump_float
  | v :: w :: vs => do
      let t ← v.dump dump_float
      let r ← dumpElements dump_float (w :: vs)
      some (t ++ ascii "," ++ r)

def dumpMembers (dump_float : Bytes → Bytes) : List (Bytes × JsonValue) → Option Bytes
  | [] => some []
  | [(key, v)] => do
      let k ← dumpEscaped key
      let t ← v.dump dump_float
      some (ascii "\"" ++ k ++ ascii "\":" ++ t)
  | (key, v) :: m :: ms => do
      let k ← dumpEscaped key
      let t ← v.dump dump_float
      let r ← dumpMembers dump_float (m :: ms)
      some (ascii "\"" ++ k ++ ascii "\":" ++ t ++ ascii "," ++ r)

end

/-! ## What is accepted is well formed -/

/-- What the lexer guarantees of a token. -/
def Token.Sound : Token → Prop
  | .value_string s => ValidUtf8 s
  | .value_integer z => -2 ^ 63 ≤ z ∧ z < 2 ^ 64
  | _ => True

/-- The value of digits. -/
def digitsValue (ds : Bytes) : ℕ :=
  ds.foldl (fun n c => 10 * n + (c.toNat - 48)) 0

theorem integerOf_minus (ds : Bytes) : integerOf (45 :: ds) = -(digitsValue ds : ℤ) := rfl

theorem integerOf_digits {text : Bytes} (h : text.head? ≠ some 45) :
    integerOf text = (digitsValue text : ℤ) := by
  unfold integerOf
  split
  · exact absurd rfl h
  · rfl

/-- The type of a number is what its first character says, or floating point. -/
theorem scanNumberFrom_type (s : Bytes) : ∀ (st : NumberState) (ty : NumberType)
    (r : NumberType × Bytes × Bytes), scanNumberFrom st ty s = some r →
      r.1 = ty ∨ r.1 = .value_float := by
  have hkeep : ∀ (st st' : NumberState) (ty : NumberType) (c : Option UInt8),
      st.next c = .state st' → st'.numberType ty = ty ∨ st'.numberType ty = .value_float := by
    intro st st' ty c hnext
    cases st' with
    | minus =>
        -- no label goes back to the sign
        exfalso
        cases st <;> simp only [NumberState.next] at hnext <;> split_ifs at hnext <;> cases hnext
    | decimal1 => exact Or.inr rfl
    | exponent => exact Or.inr rfl
    | _ => exact Or.inl rfl
  induction s with
  | nil =>
      intro st ty r h
      rw [scanNumberFrom] at h
      split at h
      · rw [← Option.some.inj h]
        exact Or.inl rfl
      · cases h
  | cons c s ih =>
      intro st ty r h
      rw [scanNumberFrom] at h
      split at h
      · next st' hnext =>
          obtain ⟨r', hr, rfl⟩ := Option.map_eq_some_iff.1 h
          rcases ih _ _ r' hr with hty | hty
          · rcases hkeep _ _ ty _ hnext with hsame | hfloat
            · exact Or.inl (hty.trans hsame)
            · exact Or.inr (hty.trans hfloat)
          · exact Or.inr hty
      · rw [← Option.some.inj h]
        exact Or.inl rfl
      · cases h

/-- A number that is kept as an integer fits its type. -/
theorem scanNumber_sound (c : UInt8) (s : Bytes) : (scanNumber c s).1.Sound := by
  unfold scanNumber
  dsimp only
  split
  · trivial
  · next ty text rest h =>
      have hty := scanNumberFrom_type s _ _ _ h
      dsimp only at hty ⊢
      cases ty with
      | value_float => trivial
      | value_unsigned =>
          by_cases hc : c = 45
          · rw [if_pos hc] at hty
            rcases hty with hty | hty <;> cases hty
          · have hpos : integerOf (c :: text) = (digitsValue (c :: text) : ℤ) :=
              integerOf_digits (by simpa using hc)
            unfold numberToken
            dsimp only
            split_ifs with hlt
            · exact ⟨by rw [hpos]; omega, hlt⟩
            · trivial
      | value_integer =>
          by_cases hc : c = 45
          · unfold numberToken
            dsimp only
            split_ifs with hge
            · refine ⟨hge, ?_⟩
              rw [hc, integerOf_minus]
              omega
            · trivial
          · rw [if_neg hc] at hty
            rcases hty with hty | hty
            · split_ifs at hty <;> cases hty
            · cases hty

theorem scanFrom_sound (c : UInt8) (s : Bytes) : (scanFrom c s).1.Sound := by
  refine scanFrom_cases (P := fun r => r.1.Sound) c s ?_ ?_
    (fun _ _ h => validUtf8_scanString _ _ _ _ h) (scanNumber_sound c s) trivial
  · intro t ht
    fin_cases ht <;> trivial
  · intro text t ht
    unfold scanLiteral
    split
    · fin_cases ht <;> trivial
    · trivial

theorem scan_sound {s r : Bytes} {t : Token} (h : scan s = (t, r)) : t.Sound := by
  unfold scan at h
  split at h
  · cases h
    trivial
  · next c s' _ =>
      have hsound := scanFrom_sound c s'
      rw [h] at hsound
      exact hsound

/-! ### Objects keep their keys in order -/

/-- The keys of a map in the order of its `std::map`. -/
def KeysSorted (ms : List (Bytes × JsonValue)) : Prop :=
  (ms.map Prod.fst).Pairwise (· < ·)

theorem bytes_lt_of_not {a b : Bytes} (hne : a ≠ b) (hlt : ¬ a < b) : b < a := by
  rcases List.le_iff_lt_or_eq.1 (List.not_lt.1 hlt) with h | h
  · exact h
  · exact absurd h.symm hne

theorem assignMember_keys (ms : List (Bytes × JsonValue)) (key : Bytes) (v : JsonValue) :
    ∀ k ∈ (assignMember ms key v).map Prod.fst, k = key ∨ k ∈ ms.map Prod.fst := by
  induction ms with
  | nil => simp [assignMember]
  | cons m ms ih =>
      obtain ⟨k₀, v₀⟩ := m
      intro k hk
      simp only [assignMember] at hk
      split_ifs at hk with heq hlt
      · exact Or.inr hk
      · rw [List.map_cons, List.mem_cons] at hk
        exact hk
      · rw [List.map_cons, List.mem_cons] at hk
        rw [List.map_cons, List.mem_cons]
        rcases hk with rfl | hk
        · exact Or.inr (Or.inl rfl)
        · exact (ih k hk).imp_right Or.inr

theorem KeysSorted.assignMember {ms : List (Bytes × JsonValue)} (h : KeysSorted ms) (key : Bytes)
    (v : JsonValue) : KeysSorted (assignMember ms key v) := by
  induction ms with
  | nil => exact List.pairwise_singleton _ _
  | cons m ms ih =>
      obtain ⟨k₀, v₀⟩ := m
      obtain ⟨hfirst, hrest⟩ := List.pairwise_cons.1 h
      simp only [FileCacheProxy.assignMember]
      split_ifs with heq hlt
      · exact h
      · refine List.pairwise_cons.2 ⟨fun k hk => ?_, h⟩
        rw [List.mem_map] at hk
        obtain ⟨m, hm, rfl⟩ := hk
        rcases List.mem_cons.1 hm with rfl | hm
        · exact hlt
        · exact List.lt_trans hlt (hfirst _ (List.mem_map_of_mem hm))
      · refine List.pairwise_cons.2 ⟨fun k hk => ?_, ih hrest⟩
        rcases assignMember_keys ms key v k hk with rfl | hold
        · exact bytes_lt_of_not heq hlt
        · exact hfirst k hold

theorem soundMembers_assignMember {ms : List (Bytes × JsonValue)} (h : soundMembers ms) {key : Bytes}
    (hkey : ValidUtf8 key) {v : JsonValue} (hv : v.Sound) :
    soundMembers (assignMember ms key v) := by
  induction ms with
  | nil => exact ⟨hkey, hv, trivial⟩
  | cons m ms ih =>
      obtain ⟨k₀, v₀⟩ := m
      obtain ⟨hk₀, hv₀, hrest⟩ := h
      simp only [assignMember]
      split_ifs
      · exact ⟨hk₀, hv, hrest⟩
      · exact ⟨hkey, hv, hk₀, hv₀, hrest⟩
      · exact ⟨hk₀, hv₀, ih hrest⟩

/-- What has been read of an object is well formed once it is assigned. -/
theorem sound_assignMembers (ms : List (Bytes × JsonValue)) : ∀ members : List (Bytes × JsonValue),
    KeysSorted members → soundMembers members → soundMembers ms →
      (JsonValue.object (assignMembers members ms)).Sound := by
  induction ms with
  | nil => exact fun members hsorted hsound _ => ⟨hsorted, hsound⟩
  | cons m ms ih =>
      obtain ⟨key, v⟩ := m
      rintro members hsorted hsound ⟨hkey, hv, hms⟩
      exact ih (assignMember members key v) (hsorted.assignMember key v)
        (soundMembers_assignMember hsound hkey hv) hms

/-- What a part contributes to a well-formed value. -/
def Part.Sound : Part → Prop
  | .value v => v.Sound
  | .elements vs => soundElements vs
  | .members key ms => ValidUtf8 key → soundMembers ms

variable {isfinite : Bytes → Bool}

theorem Reads.sound {t : Token} {s r : Bytes} {part : Part} (h : Reads isfinite t s part r)
    (ht : t.Sound) : part.Sound := by
  induction h with
  | string text s => exact ht
  | integer z s => exact ht
  | array hs _ ih => exact ih (scan_sound hs)
  | emptyObject => exact ⟨List.Pairwise.nil, trivial⟩
  | object hs _ hs₂ _ ih =>
      have hkey : ValidUtf8 _ := scan_sound hs
      exact sound_assignMembers _ [] List.Pairwise.nil trivial (ih (scan_sound hs₂) hkey)
  | lastElement _ _ ih => exact ⟨ih ht, trivial⟩
  | moreElements _ _ hs₁ _ ihv ih => exact ⟨ihv ht, ih (scan_sound hs₁)⟩
  | lastMember _ _ ih => exact fun hkey => ⟨hkey, ih ht, trivial⟩
  | moreMembers _ _ hs₁ _ hs₃ _ ihv ih =>
      have hkey' : ValidUtf8 _ := scan_sound hs₁
      exact fun hkey => ⟨hkey, ihv ht, ih (scan_sound hs₃) hkey'⟩
  | _ => trivial

/-- **What `parse` returns is well formed.** -/
theorem sound_of_parse {s : Bytes} {v : JsonValue} (h : parseChecked isfinite s = some v) :
    v.Sound := by
  obtain ⟨input, t, rest, r, -, hscan, hreads, -⟩ := derives_of_parseChecked h
  exact hreads.sound (scan_sound hscan)

/-! ## Integers come back -/

theorem digitsValue_append (ds : Bytes) (d : UInt8) :
    digitsValue (ds ++ [d]) = 10 * digitsValue ds + (d.toNat - 48) := by
  rw [digitsValue, List.foldl_append]
  rfl

theorem decimal_of_lt {n : ℕ} (h : n < 10) : decimal n = [UInt8.ofNat (48 + n)] := by
  have hall : ∀ n < 10, UInt8.ofNat (Nat.digitChar n).toNat = UInt8.ofNat (48 + n) := by decide
  rw [decimal, Nat.toDigits_of_lt_base h, List.map_singleton, hall n h]

theorem decimal_of_le {n : ℕ} (h : 10 ≤ n) :
    decimal n = decimal (n / 10) ++ [UInt8.ofNat (48 + n % 10)] := by
  have hlast : [UInt8.ofNat (48 + n % 10)] = decimal (n % 10) :=
    (decimal_of_lt (Nat.mod_lt n (by decide))).symm
  rw [hlast, decimal, Nat.toDigits_of_base_le (by decide) h, List.map_append, decimal, decimal,
    Nat.toDigits_of_lt_base (Nat.mod_lt n (by decide))]

theorem toNat_digit {d : ℕ} (h : d < 10) : (UInt8.ofNat (48 + d)).toNat = 48 + d := by
  rw [UInt8.toNat_ofNat']
  exact Nat.mod_eq_of_lt (by omega)

theorem digitsValue_decimal (n : ℕ) : digitsValue (decimal n) = n := by
  induction n using Nat.strongRecOn with
  | ind n ih =>
      by_cases h : n < 10
      · rw [decimal_of_lt h, ← List.nil_append [UInt8.ofNat (48 + n)], digitsValue_append,
          toNat_digit h]
        simp [digitsValue]
      · rw [decimal_of_le (by omega), digitsValue_append, ih _ (by omega),
          toNat_digit (Nat.mod_lt n (by decide))]
        omega

/-- A number that is not 0 does not begin with the digit 0. -/
theorem decimal_first {n : ℕ} (h : 0 < n) : ∃ c ds, decimal n = c :: ds ∧ isDigit19 c = true := by
  induction n using Nat.strongRecOn with
  | ind n ih =>
      by_cases hlt : n < 10
      · have hall : ∀ d < 10, 0 < d → isDigit19 (UInt8.ofNat (48 + d)) = true := by decide
        exact ⟨_, [], decimal_of_lt hlt, hall n hlt h⟩
      · obtain ⟨c, ds, hds, hc⟩ := ih (n / 10) (by omega) (by omega)
        exact ⟨c, ds ++ [UInt8.ofNat (48 + n % 10)], by
          rw [decimal_of_le (by omega), hds, List.cons_append], hc⟩

/-- What stands behind a value in a dumped text: nothing, or the next separator. -/
def EndsValue (rest : Bytes) : Prop :=
  ∀ c ∈ rest.head?, c = 44 ∨ c = 93 ∨ c = 125

/-- Behind the digits of an integer the number is over. -/
theorem scanNumberFrom_end {st : NumberState} (h : st matches .zero | .any1) (ty : NumberType)
    {rest : Bytes} (hrest : EndsValue rest) : scanNumberFrom st ty rest = some (ty, [], rest) := by
  have hdone : ∀ c : Option UInt8, (∀ b ∈ c, b = 44 ∨ b = 93 ∨ b = 125) → st.next c = .done := by
    intro c hc
    cases c with
    | none => cases st <;> first | rfl | cases h
    | some b =>
        rcases hc b rfl with rfl | rfl | rfl <;> cases st <;> first | rfl | cases h
  cases rest with
  | nil => rw [scanNumberFrom, hdone none (by simp)]
  | cons c s => rw [scanNumberFrom, hdone (some c) (fun b hb => hrest b hb)]

theorem scanNumberFrom_digits (ty : NumberType) {rest : Bytes} (hrest : EndsValue rest) :
    ∀ ds : Bytes, (∀ c ∈ ds, 48 ≤ c ∧ c ≤ 57) →
      scanNumberFrom .any1 ty (ds ++ rest) = some (ty, ds, rest) := by
  intro ds
  induction ds with
  | nil => exact fun _ => scanNumberFrom_end rfl ty hrest
  | cons c ds ih =>
      intro hds
      obtain ⟨hc, hds⟩ := List.forall_mem_cons.1 hds
      have hnext : NumberState.next .any1 (some c) = .state .any1 := by
        simp [NumberState.next, hc.1, hc.2]
      rw [List.cons_append, scanNumberFrom, hnext]
      show (scanNumberFrom .any1 ty (ds ++ rest)).map _ = _
      rw [ih hds]
      rfl

/-- A character that begins a number. -/
theorem scan_number {c : UInt8} (hc : c = 45 ∨ (48 ≤ c ∧ c ≤ 57)) (s : Bytes) :
    scan (c :: s) = scanNumber c s := by
  have hall : ∀ c : UInt8, c = 45 ∨ (48 ≤ c ∧ c ≤ 57) →
      isBlank c = false ∧ c ≠ 91 ∧ c ≠ 93 ∧ c ≠ 123 ∧ c ≠ 125 ∧ c ≠ 58 ∧ c ≠ 44 ∧ c ≠ 116 ∧
        c ≠ 102 ∧ c ≠ 110 ∧ c ≠ QUOTE := by decide
  obtain ⟨hblank, h1, h2, h3, h4, h5, h6, h7, h8, h9, h10⟩ := hall c hc
  have hdrop : (c :: s).dropWhile isBlank = c :: s := List.dropWhile_cons_of_neg (by simp [hblank])
  rw [scan, hdrop]
  show scanFrom c s = _
  rw [scanFrom, if_neg h1, if_neg h2, if_neg h3, if_neg h4, if_neg h5, if_neg h6, if_neg h7,
    if_neg h8, if_neg h9, if_neg h10, if_pos hc]

theorem scanNumber_eq {c : UInt8} {s text rest : Bytes} {ty : NumberType} (st : NumberState)
    (hst : (if c = 45 then NumberState.minus else if c = 48 then .zero else .any1) = st)
    (h : scanNumberFrom st (st.numberType .value_unsigned) s = some (ty, text, rest)) :
    scanNumber c s = (numberToken ty (c :: text), rest) := by
  unfold scanNumber
  simp only [hst, h]

/-- **A dumped integer is one token.** -/
theorem scan_dumpInteger {z : ℤ} (hz : -2 ^ 63 ≤ z ∧ z < 2 ^ 64) {rest : Bytes}
    (hrest : EndsValue rest) : scan (dumpInteger z ++ rest) = (.value_integer z, rest) := by
  have hdigits : ∀ n, ∀ c ∈ decimal n, 48 ≤ c ∧ c ≤ 57 := fun n c hc => decimal_digit hc
  have hfirst : ∀ c : UInt8, isDigit19 c = true → c ≠ 45 ∧ c ≠ 48 ∧ 48 ≤ c ∧ c ≤ 57 := by decide
  unfold dumpInteger
  split_ifs with hneg
  · -- a sign, and a digit that is not 0
    obtain ⟨c, ds, hds, hc⟩ := decimal_first (show 0 < z.natAbs by omega)
    have hall := hdigits z.natAbs
    rw [hds] at hall
    have hnext : NumberState.next .minus (some c) = .state .any1 := by
      have h48 : (some c == some (48 : UInt8)) = false := by simpa using (hfirst c hc).2.1
      simp [NumberState.next, h48, hc]
    have hscan : scanNumberFrom .minus .value_integer (decimal z.natAbs ++ rest)
        = some (.value_integer, decimal z.natAbs, rest) := by
      rw [hds, List.cons_append, scanNumberFrom, hnext]
      show (scanNumberFrom .any1 .value_integer (ds ++ rest)).map _ = _
      rw [scanNumberFrom_digits _ hrest ds (fun b hb => hall b (List.mem_cons_of_mem c hb))]
      rfl
    have hvalue : integerOf (45 :: decimal z.natAbs) = z := by
      rw [integerOf_minus, digitsValue_decimal]
      omega
    show scan (45 :: (decimal z.natAbs ++ rest)) = _
    rw [scan_number (Or.inl rfl), scanNumber_eq .minus rfl hscan, numberToken, hvalue,
      if_pos hz.1]
  · rcases Nat.eq_zero_or_pos z.natAbs with hzero | hpos
    · have hz0 : z = 0 := Int.natAbs_eq_zero.1 hzero
      subst hz0
      show scan (48 :: rest) = _
      rw [scan_number (Or.inr (by decide)),
        scanNumber_eq .zero rfl (scanNumberFrom_end rfl _ hrest)]
      rfl
    · obtain ⟨c, ds, hds, hc⟩ := decimal_first hpos
      have hall := hdigits z.natAbs
      obtain ⟨h45, h48, hrange⟩ := hfirst c hc
      have hvalue : integerOf (c :: ds) = z := by
        rw [integerOf_digits (by simpa using h45), ← hds, digitsValue_decimal]
        omega
      rw [hds] at hall ⊢
      have hst : (if c = 45 then NumberState.minus else if c = 48 then .zero else .any1) = .any1 := by
        rw [if_neg h45, if_neg h48]
      rw [List.cons_append, scan_number (Or.inr hrange),
        scanNumber_eq .any1 hst (scanNumberFrom_digits _ hrest ds
          (fun b hb => hall b (List.mem_cons_of_mem c hb)))]
      show (numberToken .value_unsigned (c :: ds), rest) = _
      rw [numberToken, hvalue, if_pos hz.2]

/-! ## Values come back -/

theorem EndsValue.nil : EndsValue [] := by
  intro c hc
  cases hc

theorem EndsValue.of_byte {c : UInt8} (hc : c = 44 ∨ c = 93 ∨ c = 125) (s : Bytes) :
    EndsValue (c :: s) := by
  intro b hb
  rw [← Option.some.inj hb]
  exact hc

/-- The members of a sorted object are assigned in their order. -/
theorem assignMember_last {members : List (Bytes × JsonValue)} {key : Bytes}
    (h : ∀ k ∈ members.map Prod.fst, k < key) (v : JsonValue) :
    assignMember members key v = members ++ [(key, v)] := by
  induction members with
  | nil => rfl
  | cons m members ih =>
      obtain ⟨k, w⟩ := m
      rw [List.map_cons, List.forall_mem_cons] at h
      have hne : ¬ key = k := by
        rintro rfl
        exact List.lt_irrefl _ h.1
      have hlt : ¬ key < k := fun hk => List.lt_irrefl _ (List.lt_trans h.1 hk)
      rw [assignMember, if_neg hne, if_neg hlt, ih h.2, List.cons_append]

theorem assignMembers_append (ms : List (Bytes × JsonValue)) :
    ∀ members : List (Bytes × JsonValue), KeysSorted (members ++ ms) →
      assignMembers members ms = members ++ ms := by
  induction ms with
  | nil => exact fun members _ => (List.append_nil members).symm
  | cons m ms ih =>
      obtain ⟨key, v⟩ := m
      intro members h
      have hbefore : ∀ k ∈ members.map Prod.fst, k < key := by
        intro k hk
        rw [KeysSorted, List.map_append, List.pairwise_append] at h
        exact h.2.2 k hk key (List.mem_cons_self ..)
      show assignMembers (assignMember members key v) ms = _
      rw [assignMember_last hbefore, ih _ (by rwa [List.append_assoc]), List.append_assoc]
      rfl

variable {dump_float : Bytes → Bytes}

theorem dumpElements_cons {v w : JsonValue} {vs : List JsonValue} {t : Bytes}
    (h : dumpElements dump_float (v :: w :: vs) = some t) :
    ∃ x y, v.dump dump_float = some x ∧ dumpElements dump_float (w :: vs) = some y ∧
      t = x ++ 44 :: y := by
  simp only [dumpElements, Option.bind_eq_bind, Option.bind_eq_some_iff] at h
  obtain ⟨x, hx, y, hy, ht⟩ := h
  have hcomma : ascii "," = [44] := by decide
  refine ⟨x, y, hx, hy, ?_⟩
  rw [← Option.some.inj ht, hcomma, List.append_assoc]
  rfl

/-- The text of one member. -/
theorem dumpMembers_one {key t : Bytes} {v : JsonValue}
    (h : dumpMembers dump_float [(key, v)] = some t) :
    ∃ k x, dumpEscaped key = some k ∧ v.dump dump_float = some x ∧
      t = QUOTE :: (k ++ QUOTE :: 58 :: x) := by
  simp only [dumpMembers, Option.bind_eq_bind, Option.bind_eq_some_iff] at h
  obtain ⟨k, hk, x, hx, ht⟩ := h
  have hquote : ascii "\"" = [QUOTE] := by decide
  have hcolon : ascii "\":" = [QUOTE, 58] := by decide
  refine ⟨k, x, hk, hx, ?_⟩
  simp [← Option.some.inj ht, hquote, hcolon]

theorem dumpMembers_cons {key t : Bytes} {v : JsonValue} {m : Bytes × JsonValue}
    {ms : List (Bytes × JsonValue)} (h : dumpMembers dump_float ((key, v) :: m :: ms) = some t) :
    ∃ k x y, dumpEscaped key = some k ∧ v.dump dump_float = some x ∧
      dumpMembers dump_float (m :: ms) = some y ∧
      t = QUOTE :: (k ++ QUOTE :: 58 :: (x ++ 44 :: y)) := by
  simp only [dumpMembers, Option.bind_eq_bind, Option.bind_eq_some_iff] at h
  obtain ⟨k, hk, x, hx, y, hy, ht⟩ := h
  have hquote : ascii "\"" = [QUOTE] := by decide
  have hcolon : ascii "\":" = [QUOTE, 58] := by decide
  have hcomma : ascii "," = [44] := by decide
  refine ⟨k, x, y, hk, hx, hy, ?_⟩
  simp [← Option.some.inj ht, hquote, hcolon, hcomma]

theorem dump_array {vs : List JsonValue} {t : Bytes}
    (h : (JsonValue.array vs).dump dump_float = some t) :
    ∃ x, dumpElements dump_float vs = some x ∧ t = 91 :: (x ++ [93]) := by
  rw [JsonValue.dump] at h
  obtain ⟨x, hx, rfl⟩ := Option.map_eq_some_iff.1 h
  have hopen : ascii "[" = [91] := by decide
  have hclose : ascii "]" = [93] := by decide
  exact ⟨x, hx, by rw [hopen, hclose]; rfl⟩

theorem dump_object {ms : List (Bytes × JsonValue)} {t : Bytes}
    (h : (JsonValue.object ms).dump dump_float = some t) :
    ∃ x, dumpMembers dump_float ms = some x ∧ t = 123 :: (x ++ [125]) := by
  rw [JsonValue.dump] at h
  obtain ⟨x, hx, rfl⟩ := Option.map_eq_some_iff.1 h
  have hopen : ascii "\x7b" = [123] := by decide
  have hclose : ascii "\x7d" = [125] := by decide
  exact ⟨x, hx, by rw [hopen, hclose]; rfl⟩

theorem scan_begin_array (s : Bytes) : scan (91 :: s) = (.begin_array, s) := rfl

theorem scan_end_array (s : Bytes) : scan (93 :: s) = (.end_array, s) := rfl

theorem scan_value_separator (s : Bytes) : scan (44 :: s) = (.value_separator, s) := rfl

mutual

/-- **A dumped value is read back**, whatever separator follows. -/
theorem JsonValue.reads_dump (v : JsonValue) (hs : v.Sound) (he : v.Exact) {t : Bytes}
    (ht : v.dump dump_float = some t) {rest : Bytes} (hrest : EndsValue rest) :
    ∃ tok s, scan (t ++ rest) = (tok, s) ∧ Reads isfinite tok s (.value v) rest := by
  match v, hs, he with
  | .null, _, _ =>
      cases ht
      exact ⟨_, _, rfl, .null rest⟩
  | .boolean true, _, _ =>
      cases ht
      exact ⟨_, _, rfl, .literalTrue rest⟩
  | .boolean false, _, _ =>
      cases ht
      exact ⟨_, _, rfl, .literalFalse rest⟩
  | .string text, hs, _ =>
      obtain ⟨x, hx, rfl⟩ := Option.map_eq_some_iff.1 ht
      have hquote : ascii "\"" = [QUOTE] := by decide
      refine ⟨_, _, ?_, .string text rest⟩
      rw [hquote, List.append_assoc, List.append_assoc]
      exact scan_dumped hs hx rest
  | .integer z, hs, _ =>
      cases ht
      exact ⟨_, _, scan_dumpInteger hs hrest, .integer z rest⟩
  | .array [], _, _ =>
      cases ht
      exact ⟨_, _, scan_begin_array _, .emptyArray (scan_end_array rest)⟩
  | .array (w :: vs), hs, he =>
      obtain ⟨x, hx, rfl⟩ := dump_array ht
      obtain ⟨tok, s, hscan, hreads⟩ := elements_reads_dump w vs hs he hx rest
      refine ⟨_, _, scan_begin_array _, .array ?_ hreads⟩
      show scan (x ++ [93] ++ rest) = _
      rw [List.append_assoc]
      exact hscan
  | .object [], _, _ =>
      cases ht
      exact ⟨_, _, scan_begin_object _, .emptyObject (scan_end_object rest)⟩
  | .object ((key, w) :: ms), hs, he =>
      obtain ⟨x, hx, rfl⟩ := dump_object ht
      obtain ⟨s₁, s₂, s₃, tok, hkey, hcolon, hscan, hreads⟩ :=
        members_reads_dump key w ms hs.2 he hx rest
      have hmembers := assignMembers_append ((key, w) :: ms) [] hs.1
      rw [List.nil_append] at hmembers
      rw [← hmembers]
      refine ⟨_, _, scan_begin_object _, .object ?_ hcolon hscan hreads⟩
      show scan (x ++ [125] ++ rest) = _
      rw [List.append_assoc]
      exact hkey
termination_by sizeOf v

theorem elements_reads_dump (v : JsonValue) (vs : List JsonValue) (hs : soundElements (v :: vs))
    (he : exactElements (v :: vs)) {t : Bytes} (ht : dumpElements dump_float (v :: vs) = some t)
    (rest : Bytes) :
    ∃ tok s, scan (t ++ 93 :: rest) = (tok, s) ∧ Reads isfinite tok s (.elements (v :: vs)) rest := by
  match vs, hs, he with
  | [], hs, he =>
      obtain ⟨tok, s, hscan, hreads⟩ :=
        v.reads_dump hs.1 he.1 ht (EndsValue.of_byte (Or.inr (Or.inl rfl)) rest)
      exact ⟨tok, s, hscan, .lastElement hreads (scan_end_array rest)⟩
  | w :: vs, hs, he =>
      obtain ⟨x, y, hx, hy, rfl⟩ := dumpElements_cons ht
      obtain ⟨tok, s, hscan, hreads⟩ :=
        v.reads_dump hs.1 he.1 hx (EndsValue.of_byte (Or.inl rfl) (y ++ 93 :: rest))
      obtain ⟨tok', s', hscan', hreads'⟩ := elements_reads_dump w vs hs.2 he.2 hy rest
      refine ⟨tok, s, ?_, .moreElements hreads (scan_value_separator _) hscan' hreads'⟩
      rw [List.append_assoc]
      exact hscan
termination_by sizeOf (v :: vs)

theorem members_reads_dump (key : Bytes) (v : JsonValue) (ms : List (Bytes × JsonValue))
    (hs : soundMembers ((key, v) :: ms)) (he : exactMembers ((key, v) :: ms)) {t : Bytes}
    (ht : dumpMembers dump_float ((key, v) :: ms) = some t) (rest : Bytes) :
    ∃ s₁ s₂ s₃ tok, scan (t ++ 125 :: rest) = (.value_string key, s₁) ∧
      scan s₁ = (.name_separator, s₂) ∧ scan s₂ = (tok, s₃) ∧
      Reads isfinite tok s₃ (.members key ((key, v) :: ms)) rest := by
  match ms, hs, he with
  | [], ⟨hkey, hv, _⟩, he =>
      obtain ⟨k, x, hk, hx, rfl⟩ := dumpMembers_one ht
      obtain ⟨tok, s, hscan, hreads⟩ :=
        v.reads_dump hv he.1 hx (EndsValue.of_byte (Or.inr (Or.inr rfl)) rest)
      refine ⟨_, _, s, tok, ?_, scan_name_separator _, hscan,
        .lastMember hreads (scan_end_object rest)⟩
      simpa using scan_dumped hkey hk (58 :: (x ++ 125 :: rest))
  | (key', w) :: ms, ⟨hkey, hv, hs⟩, he =>
      obtain ⟨k, x, y, hk, hx, hy, rfl⟩ := dumpMembers_cons ht
      obtain ⟨tok, s, hscan, hreads⟩ :=
        v.reads_dump hv he.1 hx (EndsValue.of_byte (Or.inl rfl) (y ++ 125 :: rest))
      obtain ⟨s₁, s₂, s₃, tok', hkey', hcolon, hscan', hreads'⟩ :=
        members_reads_dump key' w ms hs he.2 hy rest
      refine ⟨_, _, s, tok, ?_, scan_name_separator _, hscan,
        .moreMembers hreads (scan_value_separator _) hkey' hcolon hscan' hreads'⟩
      simpa using scan_dumped hkey hk (58 :: (x ++ 44 :: (y ++ 125 :: rest)))
termination_by sizeOf ((key, v) :: ms)

end

mutual

/-- Only a string that is not UTF-8 cannot be dumped. -/
theorem JsonValue.dump_isSome (v : JsonValue) (h : v.Sound) : (v.dump dump_float).isSome := by
  match v, h with
  | .null, _ => rfl
  | .boolean true, _ => rfl
  | .boolean false, _ => rfl
  | .string s, h =>
      rw [JsonValue.dump, Option.isSome_map]
      exact dumpEscaped_isSome h
  | .integer z, _ => rfl
  | .float text, _ => rfl
  | .array vs, h =>
      rw [JsonValue.dump, Option.isSome_map]
      exact dumpElements_isSome vs h
  | .object ms, h =>
      rw [JsonValue.dump, Option.isSome_map]
      exact dumpMembers_isSome ms h.2

theorem dumpElements_isSome (vs : List JsonValue) (h : soundElements vs) :
    (dumpElements dump_float vs).isSome := by
  match vs, h with
  | [], _ => rfl
  | [v], h => exact v.dump_isSome h.1
  | v :: w :: vs, h =>
      obtain ⟨x, hx⟩ := Option.isSome_iff_exists.1 (v.dump_isSome h.1)
      obtain ⟨y, hy⟩ := Option.isSome_iff_exists.1 (dumpElements_isSome (w :: vs) h.2)
      simp only [dumpElements, hx, hy]
      rfl

theorem dumpMembers_isSome (ms : List (Bytes × JsonValue)) (h : soundMembers ms) :
    (dumpMembers dump_float ms).isSome := by
  match ms, h with
  | [], _ => rfl
  | [(key, v)], ⟨hkey, hv, _⟩ =>
      obtain ⟨k, hk⟩ := Option.isSome_iff_exists.1 (dumpEscaped_isSome hkey)
      obtain ⟨x, hx⟩ := Option.isSome_iff_exists.1 (v.dump_isSome hv)
      simp only [dumpMembers, hk, hx]
      rfl
  | (key, v) :: m :: ms, ⟨hkey, hv, hs⟩ =>
      obtain ⟨k, hk⟩ := Option.isSome_iff_exists.1 (dumpEscaped_isSome hkey)
      obtain ⟨x, hx⟩ := Option.isSome_iff_exists.1 (v.dump_isSome hv)
      obtain ⟨y, hy⟩ := Option.isSome_iff_exists.1 (dumpMembers_isSome (m :: ms) hs)
      simp only [dumpMembers, hk, hx, hy]
      rfl

end

/-- A text that begins with a token has no byte order mark. -/
theorem skipBom_of_scan {s r : Bytes} {t : Token} (h : scan s = (t, r)) (ht : t ≠ .parse_error) :
    skipBom s = some s := by
  unfold skipBom
  split
  · next s' => exact absurd (Prod.ext_iff.1 h).1.symm ht
  · rfl

theorem Reads.not_error {s r : Bytes} {t : Token} {part : Part} (h : Reads isfinite t s part r) :
    t ≠ .parse_error := by
  intro ht
  induction h with
  | lastElement _ _ ih => exact ih ht
  | moreElements _ _ _ _ ih => exact ih ht
  | lastMember _ _ ih => exact ih ht
  | moreMembers _ _ _ _ _ _ ih => exact ih ht
  | _ => cases ht

/-- **The round trip.** A well-formed value without floating-point numbers is dumped, and the parser
    reads the same value back. -/
theorem JsonValue.parse_dump (v : JsonValue) (hs : v.Sound) (he : v.Exact) :
    ∃ t, v.dump dump_float = some t ∧ parseChecked isfinite t = some v := by
  obtain ⟨t, ht⟩ := Option.isSome_iff_exists.1 (v.dump_isSome hs)
  obtain ⟨tok, s, hscan, hreads⟩ := v.reads_dump hs he ht EndsValue.nil
  rw [List.append_nil] at hscan
  have hderives : Derives isfinite t v :=
    ⟨t, tok, s, [], skipBom_of_scan hscan hreads.not_error, hscan, hreads, rfl⟩
  exact ⟨t, ht, hderives.parseChecked⟩

/-- **What `parse` returns is well formed, and survives being written and read again.** -/
theorem JsonValue.dump_of_parse {s : Bytes} {v : JsonValue}
    (h : parseChecked isfinite s = some v) :
    v.Sound ∧ (v.Exact → ∃ t, v.dump dump_float = some t ∧ parseChecked isfinite t = some v) :=
  ⟨sound_of_parse h, v.parse_dump (sound_of_parse h)⟩

/-- A text with blanks, an escape, a key that is given twice and keys out of order. -/
def looseText : Bytes :=
  ascii " \x7b\"b\":[1, -20 ,null],\"a\":\"\\u0041\",\"b\":0\x7d "

theorem dump_of_parse_loose :
    parseChecked (fun _ => true) looseText
        = some (.object [(ascii "a", .string (ascii "A")), (ascii "b", .integer 0)]) ∧
      ∃ t, (JsonValue.object [(ascii "a", .string (ascii "A")), (ascii "b", .integer 0)]).dump id
          = some t ∧
        parseChecked (fun _ => true) t
          = some (.object [(ascii "a", .string (ascii "A")), (ascii "b", .integer 0)]) := by
  have hparse : parseChecked (fun _ => true) looseText
      = some (.object [(ascii "a", .string (ascii "A")), (ascii "b", .integer 0)]) := rfl
  exact ⟨hparse, (JsonValue.dump_of_parse hparse).2 ⟨trivial, trivial, trivial⟩⟩

/-! ## The values the program builds -/

mutual

/-- A value of the handlers among those of the parser. -/
def Json.toValue : Json → JsonValue
  | .null => .null
  | .string s => .string s
  | .number z => .integer z
  | .object members => .object members.toMembers

def Members.toMembers : Members → List (Bytes × JsonValue)
  | .nil => []
  | .cons key val rest => (key, val.toValue) :: rest.toMembers

end

mutual

/-- Both descriptions of the serializer write the same text. -/
theorem Json.dump_toValue (j : Json) : j.toValue.dump dump_float = j.dump := by
  match j with
  | .null => rfl
  | .string s => rfl
  | .number z => rfl
  | .object members =>
      rw [Json.toValue, JsonValue.dump, Json.dump, members.dump_toMembers]

theorem Members.dump_toMembers (ms : Members) :
    dumpMembers dump_float ms.toMembers = ms.dump := by
  match ms with
  | .nil => rfl
  | .cons key val .nil =>
      simp only [Members.toMembers, dumpMembers, Members.dump, val.dump_toValue]
  | .cons key val (.cons key' val' rest) =>
      have hrest := (Members.cons key' val' rest).dump_toMembers
      rw [Members.toMembers] at hrest
      simp only [Members.toMembers, dumpMembers, hrest, val.dump_toValue]
      rfl

end

mutual

/-- The handlers have no floating-point values. -/
theorem Json.exact_toValue (j : Json) : j.toValue.Exact := by
  match j with
  | .null => trivial
  | .string s => trivial
  | .number z => trivial
  | .object members => exact members.exact_toMembers

theorem Members.exact_toMembers (ms : Members) : exactMembers ms.toMembers := by
  match ms with
  | .nil => trivial
  | .cons key val rest => exact ⟨val.exact_toValue, rest.exact_toMembers⟩

end

/-- A text that was dumped is read as the value it was dumped from. -/
theorem Json.parse_dump {j : Json} (hs : j.toValue.Sound) {t : Bytes} (ht : j.dump = some t) :
    parseChecked isfinite t = some j.toValue := by
  obtain ⟨t', ht', hparse⟩ : ∃ t', j.toValue.dump id = some t' ∧
      parseChecked isfinite t' = some j.toValue := j.toValue.parse_dump hs j.exact_toValue
  rw [j.dump_toValue, ht] at ht'
  cases ht'
  exact hparse

/-! ## What the handlers send -/

theorem uploadHandler_threw {be : Backend} {req : Request} {arg : ThreadParam}
    (h : (uploadHandler be req arg).exit = .threw) :
    ∃ up : SuccessfulUpload, up.be = be ∧ up.req = req ∧ up.arg = arg := by
  unfold uploadHandler at h
  dsimp only at h
  cases hbuf : req.inputBuffer with
  | none =>
      rw [hbuf] at h
      cases h
  | some file_content =>
      rw [hbuf] at h
      dsimp only at h
      split at h
      · cases h
      · next hquery =>
          cases hconn : be.trackerMakeConnection
              (be.trackerQueryStorageStore arg.connectResult).storageServer with
          | none =>
              rw [hconn] at h
              cases h
          | some pStorageServer =>
              rw [hconn] at h
              dsimp only at h
              split at h
              · cases h
              · next hup =>
                  exact ⟨⟨be, req, arg, file_content, pStorageServer, hbuf, not_not.1 hquery, hconn,
                    not_not.1 hup⟩, rfl, rfl, rfl⟩

/-- An upload throws if its ID is not UTF-8. -/
theorem SuccessfulUpload.exit_threw_iff (up : SuccessfulUpload) :
    up.handled.exit = .threw ↔ ¬ ValidUtf8 up.fileID := by
  have htext : up.text = none ↔ ¬ ValidUtf8 up.fileID := by
    rw [SuccessfulUpload.text, fileIDJson_dump, Option.map_eq_none_iff, ← Option.not_isSome_iff_eq_none]
    exact not_congr ⟨validUtf8_of_dumpEscaped, dumpEscaped_isSome⟩
  rw [← htext]
  rcases up.handled_cases with ⟨hnone, ht⟩ | ⟨j_str, hsome, ha⟩
  · exact iff_of_true ht.exit hnone
  · refine iff_of_false ?_ (by rw [hsome]; simp)
    rw [ha.exit]
    simp

theorem SuccessfulUpload.mem_acts (up : SuccessfulUpload) :
    Action.fdfs (.storageUploadByFilebuff
      (uploadArgs up.be up.req up.arg up.file_content up.pStorageServer)) true
        ∈ up.handled.trace := by
  rw [up.handled_eq, uploadReply_eq]
  split
  · simp [SuccessfulUpload.acts]
  · simp [SuccessfulUpload.acts]

/-- **An exception leaves a handler exactly when** it has stored a file under an ID that is not
    UTF-8; the client gets no reply then, and the file is in no record. -/
theorem handle_threw_iff (be : Backend) (req : Request) (arg : ThreadParam) :
    ((handle be req arg).exit = .threw ↔ req.path = ascii "/upload" ∧ ∃ args,
      Action.fdfs (.storageUploadByFilebuff args) true ∈ (handle be req arg).trace ∧
        ¬ ValidUtf8 (be.storageUploadByFilebuff args).fileID) ∧
    ((handle be req arg).exit = .threw →
      (handle be req arg).replies = [] ∧ (handle be req arg).insertions = []) := by
  have hreturned : ∀ {h : Handled}, h.exit = .returned → h.exit ≠ .threw := by
    intro h hexit
    rw [hexit]
    simp
  unfold handle
  rw [dispatch_eq]
  split_ifs with hdel hinfo hup
  · have hexit : (deleteHandler be req arg).exit ≠ .threw := by
      rcases deleteHandler_cases be req arg with ⟨-, hr⟩ | ⟨fileID, -, ⟨-, hr⟩ | ⟨-, ha⟩⟩
      · exact hreturned hr.exit
      · exact hreturned hr.exit
      · exact hreturned ha.exit
    refine ⟨iff_of_false hexit ?_, fun h => absurd h hexit⟩
    rintro ⟨hpath, -⟩
    exact absurd (hdel.symm.trans hpath) (by decide)
  · have hexit : (fileinfoHandler be req arg).exit ≠ .threw := by
      rcases fileinfoHandler_cases be req arg with ⟨-, hr⟩ | ⟨fileID, -, hr | ⟨j_str, ha⟩⟩
      · exact hreturned hr.exit
      · exact hreturned hr.exit
      · exact hreturned ha.exit
    refine ⟨iff_of_false hexit ?_, fun h => absurd h hexit⟩
    rintro ⟨hpath, -⟩
    exact absurd (hinfo.symm.trans hpath) (by decide)
  · show ((uploadHandler be req arg).exit = .threw ↔ _) ∧ _
    have hthrew : ∀ up : SuccessfulUpload, up.handled.exit = .threw → Threw up.handled := by
      intro up hexit
      rcases up.handled_cases with ⟨-, ht⟩ | ⟨j_str, -, ha⟩
      · exact ht
      · exact absurd hexit (hreturned ha.exit)
    constructor
    · constructor
      · intro h
        obtain ⟨up, rfl, rfl, rfl⟩ := uploadHandler_threw h
        exact ⟨hup, _, up.mem_acts, up.exit_threw_iff.1 h⟩
      · rintro ⟨-, args, hmem, hinvalid⟩
        rcases uploadHandler_stored_cases be req arg with hnot | ⟨up, rfl, rfl, rfl⟩
        · exact absurd (hnot.asked args true hmem).1 (by simp)
        · rw [SuccessfulUpload.args_eq hmem] at hinvalid
          exact up.exit_threw_iff.2 hinvalid
    · intro h
      obtain ⟨up, rfl, rfl, rfl⟩ := uploadHandler_threw h
      exact ⟨(hthrew up h).replies, (hthrew up h).insertions⟩
  · have hexit : (httpdHandler be req arg).exit ≠ .threw := by
      rw [(httpdHandler_refused be req arg).exit]
      simp
    exact ⟨iff_of_false hexit (fun h => hup h.1), fun h => absurd h hexit⟩

/-- The fields of a file's information fit their C types. -/
structure FDFSFileInfo.Fits (info : FDFSFileInfo) : Prop where
  crc32 : -2 ^ 31 ≤ info.crc32 ∧ info.crc32 < 2 ^ 31
  file_size : -2 ^ 63 ≤ info.file_size ∧ info.file_size < 2 ^ 63

theorem fileIDJson_sound {fileID : Bytes} (h : ValidUtf8 fileID) :
    (fileIDJson fileID).toValue.Sound :=
  ⟨List.pairwise_singleton _ _, .of_ascii (by decide), h, trivial⟩

theorem fileInfoJson_sound {info : FDFSFileInfo} (h : info.Fits) (tm : Tm) :
    (fileInfoJson (strftime tm) info).toValue.Sound := by
  obtain ⟨hcrc, hsize⟩ := h
  have htime : ValidUtf8 (strftime tm) :=
    validUtf8_of_dumpEscaped (by rw [dumpEscaped_strftime]; rfl)
  have hkeys : [ascii "CreateTime", ascii "FileCrc32", ascii "FileSize"].Pairwise (· < ·) := by
    decide
  refine ⟨List.pairwise_singleton _ _, .of_ascii (by decide), ⟨hkeys, .of_ascii (by decide), htime,
    .of_ascii (by decide), ⟨?_, ?_⟩, .of_ascii (by decide), ⟨?_, ?_⟩, trivial⟩, trivial⟩
  · omega
  · omega
  · omega
  · omega

/-- What a client that parses the body of an answer reads. -/
inductive ReadByClient (be : Backend) (req : Request) (arg : ThreadParam) : JsonValue → Prop
  | fileID {args : UploadArgs} : req.path = ascii "/upload" →
      Action.fdfs (.storageUploadByFilebuff args) true ∈ (handle be req arg).trace →
      ReadByClient be req arg
        (.object [(ascii "FileID", .string (be.storageUploadByFilebuff args).fileID)])
  | fileInfo {fileID : Bytes} {info : FDFSFileInfo} : req.path = ascii "/fileinfo" →
      req.findHeader (ascii "FileID") = some fileID →
      be.fdfsGetFileInfo1 fileID = (0, info) →
      ReadByClient be req arg (.object [(ascii "FileInfo", .object
        [(ascii "CreateTime", .string (strftime (be.localtime be.clock))),
          (ascii "FileCrc32", .integer info.crc32), (ascii "FileSize", .integer info.file_size)])])

/-- A refusal is no answer with status 200. -/
theorem Refused.not_ok {h : Handled} {code : ℕ} {results : List Bool} (hr : Refused h code results)
    (hcode : code = HTTP_400 ∨ code = HTTP_503) (reason : Bytes) (databuf : Option Bytes) :
    (HTTP_200, reason, databuf) ∉ h.replies := by
  obtain ⟨_, _, hreplies⟩ := hr.replies
  intro hmem
  rw [hreplies, List.mem_singleton] at hmem
  cases hmem
  rcases hcode with hcode | hcode <;> cases hcode

theorem Answered.databuf_eq {h : Handled} {j_str reason : Bytes} {databuf databuf' : Option Bytes}
    {results : List Bool} {recorded : List Bytes} (ha : Answered h j_str databuf results recorded)
    (hmem : (HTTP_200, reason, databuf') ∈ h.replies) : databuf' = databuf := by
  rw [ha.replies, List.mem_singleton] at hmem
  cases hmem
  rfl

/-- An answer of `upload_handler` is that of a successful upload. -/
theorem SuccessfulUpload.of_ok {be : Backend} {req : Request} {arg : ThreadParam} {reason body : Bytes}
    (hmem : (HTTP_200, reason, some body) ∈ (uploadHandler be req arg).replies) :
    ∃ up : SuccessfulUpload, up.be = be ∧ up.req = req ∧ up.arg = arg ∧ up.text = some body := by
  have hinsertions : (uploadHandler be req arg).insertions ≠ [] := by
    rcases uploadHandler_cases be req arg with
      ⟨-, hr⟩ | ⟨-, _, -, hr⟩ | ⟨-, _, -, ⟨-, ht⟩ | ⟨j_str, -, ha⟩⟩
    · exact absurd hmem (hr.not_ok (Or.inl rfl) _ _)
    · exact absurd hmem (hr.not_ok (Or.inr rfl) _ _)
    · rw [ht.replies] at hmem
      exact absurd hmem List.not_mem_nil
    · rw [ha.insertions]
      simp
  rcases uploadHandler_stored_cases be req arg with hnot | ⟨up, rfl, rfl, rfl⟩
  · exact absurd hnot.insertions hinsertions
  · refine ⟨up, rfl, rfl, rfl, ?_⟩
    rcases up.handled_cases with ⟨-, ht⟩ | ⟨j_str, hsome, ha⟩
    · exact absurd ht.insertions hinsertions
    · rw [ha.databuf_eq hmem]
      exact hsome

/-- An answer of `fileinfo_handler` is about a file the storage knows. -/
theorem fileInfo_of_ok {be : Backend} {req : Request} {arg : ThreadParam} {reason body : Bytes}
    (hmem : (HTTP_200, reason, some body) ∈ (fileinfoHandler be req arg).replies) :
    ∃ fileID info, req.findHeader (ascii "FileID") = some fileID ∧
      be.fdfsGetFileInfo1 fileID = (0, info) ∧
      (fileInfoJson (strftime (be.localtime be.clock)) info).dump = some body := by
  rcases fileinfoHandler_cases be req arg with ⟨-, hr⟩ | ⟨fileID, hid, hr | ⟨j_str, ha⟩⟩
  · exact absurd hmem (hr.not_ok (Or.inl rfl) _ _)
  · exact absurd hmem (hr.not_ok (Or.inl rfl) _ _)
  · rcases hreply : be.fdfsGetFileInfo1 fileID with ⟨result, info⟩
    have hzero : result = 0 := by
      by_contra hne
      have hcalls := ha.callResults
      unfold fileinfoHandler at hcalls
      rw [hid] at hcalls
      dsimp only at hcalls
      rw [hreply, if_pos hne] at hcalls
      simp [Handled.callResults, replyEmpty, hne] at hcalls
    subst hzero
    rw [fileinfoHandler_replies arg hid hreply, List.mem_singleton] at hmem
    exact ⟨fileID, info, hid, hreply, (Prod.mk.inj (Prod.mk.inj hmem).2).2.symm⟩

/-- **Every answer with a body is JSON**: the parser reads from it the value its handler built. -/
theorem handle_reply_parses {be : Backend} {req : Request} {arg : ThreadParam} {reason body : Bytes}
    (hfits : ∀ fileID, (be.fdfsGetFileInfo1 fileID).2.Fits)
    (hmem : (HTTP_200, reason, some body) ∈ (handle be req arg).replies) :
    ∃ v, parseChecked isfinite body = some v ∧ ReadByClient be req arg v := by
  have hhandle : handle be req arg = (dispatch req.path).run be req arg := rfl
  rw [dispatch_eq] at hhandle
  rw [hhandle] at hmem
  by_cases hdel : req.path = ascii "/delete"
  · -- a deletion is answered without a body
    rw [if_pos hdel] at hmem
    change (HTTP_200, reason, some body) ∈ (deleteHandler be req arg).replies at hmem
    exfalso
    rcases deleteHandler_cases be req arg with ⟨-, hr⟩ | ⟨fileID, -, ⟨-, hr⟩ | ⟨-, ha⟩⟩
    · exact hr.not_ok (Or.inl rfl) _ _ hmem
    · exact hr.not_ok (Or.inl rfl) _ _ hmem
    · cases ha.databuf_eq hmem
  rw [if_neg hdel] at hhandle hmem
  by_cases hinfo : req.path = ascii "/fileinfo"
  · rw [if_pos hinfo] at hmem
    obtain ⟨fileID, info, hid, hreply, hdump⟩ :=
      fileInfo_of_ok (show _ ∈ (fileinfoHandler be req arg).replies from hmem)
    have hinfoFits : info.Fits := by
      have hall := hfits fileID
      rwa [hreply] at hall
    exact ⟨_, Json.parse_dump (fileInfoJson_sound hinfoFits _) hdump, .fileInfo hinfo hid hreply⟩
  rw [if_neg hinfo] at hhandle hmem
  by_cases hup : req.path = ascii "/upload"
  · rw [if_pos hup] at hhandle hmem
    obtain ⟨up, rfl, rfl, rfl, htext⟩ := SuccessfulUpload.of_ok hmem
    have hvalid : ValidUtf8 up.fileID := by
      by_contra hinvalid
      have hthrew := up.exit_threw_iff.2 hinvalid
      rcases up.handled_cases with ⟨hnone, -⟩ | ⟨_, -, ha⟩
      · rw [htext] at hnone
        cases hnone
      · rw [ha.exit] at hthrew
        cases hthrew
    refine ⟨_, Json.parse_dump (fileIDJson_sound hvalid) htext, .fileID hup ?_⟩
    rw [hhandle]
    exact up.mem_acts
  · rw [if_neg hup] at hmem
    exact absurd hmem ((httpdHandler_refused be req arg).not_ok (Or.inl rfl) _ _)

/-- A file whose ID has a quotation mark. -/
theorem handle_reply_parses_quote :
    ∃ v, parseChecked (fun _ => true) (ascii "\x7b\"FileID\":\"g/M00/\\\"a\"\x7d") = some v ∧
      ReadByClient
        { obligingBackend with storageUploadByFilebuff := fun _ => ⟨0, ascii "g", ascii "M00/\"a"⟩ }
        ⟨ascii "/upload", [], some (ascii "hello")⟩ ⟨0, 0, 0, 0, some 1⟩ v := by
  have hfits : FDFSFileInfo.Fits ⟨0, 0, 0⟩ := ⟨by decide, by decide⟩
  exact handle_reply_parses (fun _ => hfits)
    (show (HTTP_200, ascii "OK", some (ascii "\x7b\"FileID\":\"g/M00/\\\"a\"\x7d")) ∈ _ by decide)

end FileCacheProxy
