import FileCacheProxy.JsonParse
import Mathlib

set_option autoImplicit false
-- the facts about all 256 bytes are decided one byte after the other
set_option maxRecDepth 1500

/-! # What is text to `json.hpp`

The two sides of the library against the Unicode table. `dump_escaped` throws on everything that is
not well-formed UTF-8, and on nothing else; and a string the lexer accepts, raw or with escapes, is
well-formed, so it can be dumped again. -/

namespace FileCacheProxy

/-! ## `dump_escaped` accepts nothing else -/

/-- Where the decoder goes on the first byte of a character. -/
theorem lead_cases : ∀ a : UInt8, utf8Next UTF8_ACCEPT (utf8Type a) ≠ UTF8_REJECT →
    a < 0x80 ∨
    ((0xC2 ≤ a ∧ a ≤ 0xDF) ∧ utf8Next UTF8_ACCEPT (utf8Type a) = 2) ∨
    (((0xE1 ≤ a ∧ a ≤ 0xEC) ∨ (0xEE ≤ a ∧ a ≤ 0xEF)) ∧
      utf8Next UTF8_ACCEPT (utf8Type a) = 3) ∨
    (a = 0xE0 ∧ utf8Next UTF8_ACCEPT (utf8Type a) = 4) ∨
    (a = 0xED ∧ utf8Next UTF8_ACCEPT (utf8Type a) = 5) ∨
    (a = 0xF0 ∧ utf8Next UTF8_ACCEPT (utf8Type a) = 6) ∨
    ((0xF1 ≤ a ∧ a ≤ 0xF3) ∧ utf8Next UTF8_ACCEPT (utf8Type a) = 7) ∨
    (a = 0xF4 ∧ utf8Next UTF8_ACCEPT (utf8Type a) = 8) := by
  decide

/-- The classes of continuation bytes. -/
theorem trail_class : ∀ b : UInt8,
    (utf8Type b = 1 ∧ 0x80 ≤ b ∧ b ≤ 0x8F) ∨ (utf8Type b = 9 ∧ 0x90 ≤ b ∧ b ≤ 0x9F) ∨
    (utf8Type b = 7 ∧ 0xA0 ≤ b ∧ b ≤ 0xBF) ∨
    (utf8Type b ≠ 1 ∧ utf8Type b ≠ 9 ∧ utf8Type b ≠ 7) := by
  decide

/-- Where it goes on the bytes behind it: the states and the bytes they accept. -/
theorem trail_cases (b : UInt8) :
    (utf8Next 2 (utf8Type b) ≠ UTF8_REJECT → (0x80 ≤ b ∧ b ≤ 0xBF)) ∧
    (utf8Next 3 (utf8Type b) ≠ UTF8_REJECT → (0x80 ≤ b ∧ b ≤ 0xBF)) ∧
    (utf8Next 4 (utf8Type b) ≠ UTF8_REJECT → 0xA0 ≤ b ∧ b ≤ 0xBF) ∧
    (utf8Next 5 (utf8Type b) ≠ UTF8_REJECT → 0x80 ≤ b ∧ b ≤ 0x9F) ∧
    (utf8Next 6 (utf8Type b) ≠ UTF8_REJECT → 0x90 ≤ b ∧ b ≤ 0xBF) ∧
    (utf8Next 7 (utf8Type b) ≠ UTF8_REJECT → (0x80 ≤ b ∧ b ≤ 0xBF)) ∧
    (utf8Next 8 (utf8Type b) ≠ UTF8_REJECT → 0x80 ≤ b ∧ b ≤ 0x8F) := by
  have hother : ∀ q ≤ 6, ∀ t ≤ 11, t ≠ 1 ∧ t ≠ 9 ∧ t ≠ 7 → utf8Next (q + 2) t = UTF8_REJECT := by
    decide
  have hle := utf8Type_le b
  have hclass := trail_class b
  simp only [UInt8.le_iff_toNat_le, UInt8.reduceToNat] at hclass ⊢
  rcases hclass with ⟨ht, hb⟩ | ⟨ht, hb⟩ | ⟨ht, hb⟩ | hne
  · rw [ht]
    refine ⟨?_, ?_, ?_, ?_, ?_, ?_, ?_⟩ <;> intro h <;> first | omega | exact absurd rfl h
  · rw [ht]
    refine ⟨?_, ?_, ?_, ?_, ?_, ?_, ?_⟩ <;> intro h <;> first | omega | exact absurd rfl h
  · rw [ht]
    refine ⟨?_, ?_, ?_, ?_, ?_, ?_, ?_⟩ <;> intro h <;> first | omega | exact absurd rfl h
  · -- no state inside a character accepts another class
    have hrej : ∀ q ≤ 6, utf8Next (q + 2) (utf8Type b) = UTF8_REJECT :=
      fun q hq => hother q hq _ hle hne
    exact ⟨fun h => absurd (hrej 0 (by decide)) h, fun h => absurd (hrej 1 (by decide)) h,
      fun h => absurd (hrej 2 (by decide)) h, fun h => absurd (hrej 3 (by decide)) h,
      fun h => absurd (hrej 4 (by decide)) h, fun h => absurd (hrej 5 (by decide)) h,
      fun h => absurd (hrej 6 (by decide)) h⟩

/-- A byte the decoder goes past, from a state in which the text cannot end. -/
theorem dumpEscapedFrom_isSome_cons {state : ℕ} {codep : UInt32} {s : Bytes}
    (hstate : state ≠ UTF8_ACCEPT) (h : (dumpEscapedFrom state codep s).isSome) :
    ∃ byte rest codep', s = byte :: rest ∧ utf8Next state (utf8Type byte) ≠ UTF8_REJECT ∧
      (dumpEscapedFrom (utf8Next state (utf8Type byte)) codep' rest).isSome := by
  cases s with
  | nil =>
      rw [dumpEscapedFrom, if_neg hstate] at h
      cases h
  | cons byte rest =>
      have hfst : (decode state codep byte).1 = utf8Next state (utf8Type byte) := rfl
      refine ⟨byte, rest, (decode state codep byte).2, rfl, ?_⟩
      simp only [dumpEscapedFrom, hfst] at h
      split at h
      · next hacc =>
          rw [Option.isSome_map] at h
          exact ⟨by rw [hacc]; decide, h⟩
      · split at h
        · cases h
        · next hrej =>
            rw [Option.isSome_map] at h
            exact ⟨hrej, h⟩

theorem dumpEscapedFrom_isSome_first {codep : UInt32} {a : UInt8} {s : Bytes}
    (h : (dumpEscapedFrom UTF8_ACCEPT codep (a :: s)).isSome) :
    utf8Next UTF8_ACCEPT (utf8Type a) ≠ UTF8_REJECT ∧
      ∃ codep', (dumpEscapedFrom (utf8Next UTF8_ACCEPT (utf8Type a)) codep' s).isSome := by
  have hfst : (decode UTF8_ACCEPT codep a).1 = utf8Next UTF8_ACCEPT (utf8Type a) := rfl
  simp only [dumpEscapedFrom, hfst] at h
  split at h
  · next hacc =>
      rw [Option.isSome_map] at h
      exact ⟨by rw [hacc]; decide, _, h⟩
  · split at h
    · cases h
    · next hrej =>
        rw [Option.isSome_map] at h
        exact ⟨hrej, _, h⟩

/-- The last byte of a character. -/
theorem isSome_last {codep : UInt32} {s : Bytes} (h : (dumpEscapedFrom 2 codep s).isSome) :
    ∃ b rest codep', s = b :: rest ∧ IsCont b ∧
      (dumpEscapedFrom UTF8_ACCEPT codep' rest).isSome := by
  obtain ⟨b, rest, codep', rfl, hrej, hrest⟩ := dumpEscapedFrom_isSome_cons (by decide) h
  have hb : IsCont b := (trail_cases b).1 hrej
  rw [utf8Next_two hb] at hrest
  exact ⟨b, rest, codep', rfl, hb, hrest⟩

/-- The last two bytes of a character. -/
theorem isSome_last_two {codep : UInt32} {s : Bytes} (h : (dumpEscapedFrom 3 codep s).isSome) :
    ∃ b c rest codep', s = b :: c :: rest ∧ IsCont b ∧ IsCont c ∧
      (dumpEscapedFrom UTF8_ACCEPT codep' rest).isSome := by
  obtain ⟨b, rest, codep', rfl, hrej, hrest⟩ := dumpEscapedFrom_isSome_cons (by decide) h
  have hb : IsCont b := (trail_cases b).2.1 hrej
  rw [utf8Next_three hb] at hrest
  obtain ⟨c, rest', codep'', rfl, hc, hend⟩ := isSome_last hrest
  exact ⟨b, c, rest', codep'', rfl, hb, hc, hend⟩

/-- The rest of a character of three bytes. -/
theorem isSome_three {a : UInt8} {codep : UInt32} {s : Bytes}
    (hstate : utf8Next UTF8_ACCEPT (utf8Type a) ≠ UTF8_ACCEPT)
    (hsecond : ∀ b, utf8Next (utf8Next UTF8_ACCEPT (utf8Type a)) (utf8Type b) ≠ UTF8_REJECT →
      IsLead3 a b)
    (h : (dumpEscapedFrom (utf8Next UTF8_ACCEPT (utf8Type a)) codep s).isSome) :
    ∃ b c rest codep', s = b :: c :: rest ∧ IsLead3 a b ∧ IsCont c ∧
      (dumpEscapedFrom UTF8_ACCEPT codep' rest).isSome := by
  obtain ⟨b, rest, codep', rfl, hrej, hrest⟩ := dumpEscapedFrom_isSome_cons hstate h
  have hlead := hsecond b hrej
  rw [(utf8Next_lead3 hlead).2] at hrest
  obtain ⟨c, rest', codep'', rfl, hc, hend⟩ := isSome_last hrest
  exact ⟨b, c, rest', codep'', rfl, hlead, hc, hend⟩

/-- The rest of a character of four bytes. -/
theorem isSome_four {a : UInt8} {codep : UInt32} {s : Bytes}
    (hstate : utf8Next UTF8_ACCEPT (utf8Type a) ≠ UTF8_ACCEPT)
    (hsecond : ∀ b, utf8Next (utf8Next UTF8_ACCEPT (utf8Type a)) (utf8Type b) ≠ UTF8_REJECT →
      IsLead4 a b)
    (h : (dumpEscapedFrom (utf8Next UTF8_ACCEPT (utf8Type a)) codep s).isSome) :
    ∃ b c d rest codep', s = b :: c :: d :: rest ∧ IsLead4 a b ∧ IsCont c ∧ IsCont d ∧
      (dumpEscapedFrom UTF8_ACCEPT codep' rest).isSome := by
  obtain ⟨b, rest, codep', rfl, hrej, hrest⟩ := dumpEscapedFrom_isSome_cons hstate h
  have hlead := hsecond b hrej
  rw [(utf8Next_lead4 hlead).2] at hrest
  obtain ⟨c, d, rest', codep'', rfl, hc, hd, hend⟩ := isSome_last_two hrest
  exact ⟨b, c, d, rest', codep'', rfl, hlead, hc, hd, hend⟩

/-- What `dump_escaped` goes through is well formed, character by character. -/
theorem validUtf8_of_isSome (n : ℕ) : ∀ (s : Bytes) (codep : UInt32), s.length ≤ n →
    (dumpEscapedFrom UTF8_ACCEPT codep s).isSome → ValidUtf8 s := by
  induction n with
  | zero =>
      intro s codep hlen _
      rw [List.eq_nil_of_length_eq_zero (Nat.le_zero.1 hlen)]
      exact .nil
  | succ n ih =>
      intro s codep hlen h
      cases s with
      | nil => exact .nil
      | cons a s =>
          obtain ⟨hrej, codep', hrest⟩ := dumpEscapedFrom_isSome_first h
          have htrail := fun b => trail_cases b
          have hshort : s.length ≤ n := Nat.le_of_succ_le_succ hlen
          have hthree : utf8Next UTF8_ACCEPT (utf8Type a) ≠ UTF8_ACCEPT →
              (∀ b, utf8Next (utf8Next UTF8_ACCEPT (utf8Type a)) (utf8Type b) ≠ UTF8_REJECT →
                IsLead3 a b) → ValidUtf8 (a :: s) := by
            intro hstate hsecond
            obtain ⟨b, c, rest, codep'', rfl, hlead, hc, hend⟩ := isSome_three hstate hsecond hrest
            exact .three hlead hc (ih rest codep'' (by simp only [List.length_cons] at hshort; omega)
              hend)
          have hfour : utf8Next UTF8_ACCEPT (utf8Type a) ≠ UTF8_ACCEPT →
              (∀ b, utf8Next (utf8Next UTF8_ACCEPT (utf8Type a)) (utf8Type b) ≠ UTF8_REJECT →
                IsLead4 a b) → ValidUtf8 (a :: s) := by
            intro hstate hsecond
            obtain ⟨b, c, d, rest, codep'', rfl, hlead, hc, hd, hend⟩ :=
              isSome_four hstate hsecond hrest
            exact .four hlead hc hd (ih rest codep''
              (by simp only [List.length_cons] at hshort; omega) hend)
          rcases lead_cases a hrej with hascii | ⟨ha, hq⟩ | ⟨ha, hq⟩ | ⟨rfl, hq⟩ | ⟨rfl, hq⟩ |
            ⟨rfl, hq⟩ | ⟨ha, hq⟩ | ⟨rfl, hq⟩
          · rw [utf8Type_ascii a hascii] at hrest
            exact .one hascii (ih s codep' hshort hrest)
          · rw [hq] at hrest
            obtain ⟨b, rest, codep'', rfl, hb, hend⟩ := isSome_last hrest
            exact .two ha hb (ih rest codep'' (by simp only [List.length_cons] at hshort; omega) hend)
          · refine hthree (by rw [hq]; decide) (fun b hb => ?_)
            rw [hq] at hb
            rcases ha with ha | ha
            · exact Or.inr (Or.inl ⟨ha, (htrail b).2.1 hb⟩)
            · exact Or.inr (Or.inr (Or.inr ⟨ha, (htrail b).2.1 hb⟩))
          · exact hthree (by decide) (fun b hb => Or.inl ⟨rfl, (htrail b).2.2.1 hb⟩)
          · exact hthree (by decide) (fun b hb => Or.inr (Or.inr (Or.inl
              ⟨rfl, (htrail b).2.2.2.1 hb⟩)))
          · exact hfour (by decide) (fun b hb => Or.inl ⟨rfl, (htrail b).2.2.2.2.1 hb⟩)
          · refine hfour (by rw [hq]; decide) (fun b hb => ?_)
            rw [hq] at hb
            exact Or.inr (Or.inl ⟨ha, (htrail b).2.2.2.2.2.1 hb⟩)
          · exact hfour (by decide) (fun b hb => Or.inr (Or.inr
              ⟨rfl, (htrail b).2.2.2.2.2.2 hb⟩))

theorem validUtf8_of_dumpEscaped {s : Bytes} (h : (dumpEscaped s).isSome) : ValidUtf8 s :=
  validUtf8_of_isSome s.length s 0 le_rfl h

/-- **`dump_escaped` throws exactly on what is not UTF-8.** -/
theorem dumpEscaped_isSome_iff (s : Bytes) : (dumpEscaped s).isSome ↔ ValidUtf8 s :=
  ⟨validUtf8_of_dumpEscaped, dumpEscaped_isSome⟩

instance : DecidablePred ValidUtf8 := fun _ =>
  decidable_of_iff _ ⟨validUtf8_of_dumpEscaped, dumpEscaped_isSome⟩

/-! ## The strings of the lexer -/

/-- Six bits of a code point make a continuation byte. -/
theorem isCont_or (n : ℕ) : IsCont (UInt8.ofNat (0x80 ||| n &&& 0x3F)) := by
  have hall : ∀ i < 64, IsCont (UInt8.ofNat (0x80 ||| i)) := by
    unfold IsCont
    decide
  have hmod : n &&& 0x3F = n % 64 := Nat.and_two_pow_sub_one_eq_mod n 6
  rw [hmod]
  exact hall _ (Nat.mod_lt n (by decide))

theorem toNat_cont : ∀ j < 64, (UInt8.ofNat (0x80 ||| j)).toNat = 0x80 + j := by
  decide

theorem isLead3_or {i j : ℕ} (hi : i < 16) (hj : j < 64) (hfirst : i = 0 → 32 ≤ j)
    (hsurrogate : i = 13 → j < 32) :
    IsLead3 (UInt8.ofNat (0xE0 ||| i)) (UInt8.ofNat (0x80 ||| j)) := by
  have hlead : ∀ i < 16, (UInt8.ofNat (0xE0 ||| i)).toNat = 0xE0 + i := by decide
  simp only [IsLead3, IsCont, ← UInt8.toNat_inj, UInt8.le_iff_toNat_le, hlead i hi, toNat_cont j hj,
    UInt8.reduceToNat]
  omega

theorem isLead4_or {i j : ℕ} (hi : i < 5) (hj : j < 64) (hfirst : i = 0 → 16 ≤ j)
    (hlast : i = 4 → j < 16) :
    IsLead4 (UInt8.ofNat (0xF0 ||| i)) (UInt8.ofNat (0x80 ||| j)) := by
  have hlead : ∀ i < 5, (UInt8.ofNat (0xF0 ||| i)).toNat = 0xF0 + i := by decide
  simp only [IsLead4, IsCont, ← UInt8.toNat_inj, UInt8.le_iff_toNat_le, hlead i hi, toNat_cont j hj,
    UInt8.reduceToNat]
  omega

/-- The bytes of a code point are one character, unless it is a surrogate or too large. -/
theorem validUtf8_codepointBytes {n : ℕ} (hsurrogate : ¬ (0xD800 ≤ n ∧ n ≤ 0xDFFF))
    (hmax : n ≤ 0x10FFFF) : ValidUtf8 (codepointBytes n) := by
  unfold codepointBytes
  split_ifs with h1 h2 h3
  · refine .one ?_ .nil
    rw [UInt8.lt_iff_toNat_lt, UInt8.toNat_ofNat']
    show n % 2 ^ 8 < 0x80
    omega
  · have hlead : ∀ i < 32, 2 ≤ i →
        0xC2 ≤ UInt8.ofNat (0xC0 ||| i) ∧ UInt8.ofNat (0xC0 ||| i) ≤ 0xDF := by decide
    rw [Nat.shiftRight_eq_div_pow]
    exact .two (hlead _ (by omega) (by omega)) (isCont_or n) .nil
  · have hmid : (n >>> 6) &&& 0x3F = n / 64 % 64 := by
      rw [Nat.shiftRight_eq_div_pow]
      exact Nat.and_two_pow_sub_one_eq_mod _ 6
    rw [hmid, Nat.shiftRight_eq_div_pow]
    exact .three (isLead3_or (by omega) (by omega) (by omega) (by omega)) (isCont_or n) .nil
  · have hmid : (n >>> 12) &&& 0x3F = n / 4096 % 64 := by
      rw [Nat.shiftRight_eq_div_pow]
      exact Nat.and_two_pow_sub_one_eq_mod _ 6
    rw [hmid, Nat.shiftRight_eq_div_pow]
    exact .four (isLead4_or (by omega) (by omega) (by omega) (by omega)) (isCont_or _) (isCont_or n)
      .nil

theorem getCodepoint_le {s rest : Bytes} {n : ℕ} (h : getCodepoint s = some (n, rest)) :
    n ≤ 0xFFFF := by
  have hdigit : ∀ (c : UInt8) (d : ℕ), hexValue c = some d → d ≤ 15 := by
    have hall : ∀ c : UInt8, (hexValue c).getD 0 ≤ 15 := by decide
    intro c d hd
    have hc := hall c
    rwa [hd] at hc
  unfold getCodepoint at h
  split at h
  · simp only [Option.bind_eq_bind, Option.bind_eq_some_iff] at h
    obtain ⟨d1, h1, d2, h2, d3, h3, d4, h4, hn⟩ := h
    have hd1 := hdigit _ _ h1
    have hd2 := hdigit _ _ h2
    have hd3 := hdigit _ _ h3
    have hd4 := hdigit _ _ h4
    simp only [Option.some.injEq, Prod.mk.injEq] at hn
    omega
  · cases h

/-- A `\u` escape, alone or in a pair, is a character. -/
theorem validUtf8_scanUnicode {s added rest : Bytes} (h : scanUnicode s = some (added, rest)) :
    ValidUtf8 added := by
  unfold scanUnicode at h
  simp only [Option.bind_eq_bind, Option.bind_eq_some_iff] at h
  obtain ⟨⟨codepoint1, s1⟩, h1, h⟩ := h
  have hle1 := getCodepoint_le h1
  dsimp only at h
  split_ifs at h with hhigh hlow
  · split at h
    · obtain ⟨⟨codepoint2, s3⟩, h2, h⟩ := Option.bind_eq_some_iff.1 h
      dsimp only at h
      split_ifs at h with hlow2
      simp only [Option.some.injEq, Prod.mk.injEq] at h
      rw [← h.1, Nat.shiftLeft_eq]
      exact validUtf8_codepointBytes (by omega) (by omega)
    · cases h
  · simp only [Option.some.injEq, Prod.mk.injEq] at h
    rw [← h.1]
    exact validUtf8_codepointBytes (by omega) (by omega)

/-- What the lexer expects behind a first byte is what the Unicode table has. -/
theorem trailingRanges_cases : ∀ c : UInt8,
    trailingRanges c = none ∨
    (c < 0x80 ∧ trailingRanges c = some []) ∨
    ((0xC2 ≤ c ∧ c ≤ 0xDF) ∧ trailingRanges c = some [(0x80, 0xBF)]) ∨
    (((0xE1 ≤ c ∧ c ≤ 0xEC) ∨ (0xEE ≤ c ∧ c ≤ 0xEF)) ∧
      trailingRanges c = some [(0x80, 0xBF), (0x80, 0xBF)]) ∨
    (c = 0xE0 ∧ trailingRanges c = some [(0xA0, 0xBF), (0x80, 0xBF)]) ∨
    (c = 0xED ∧ trailingRanges c = some [(0x80, 0x9F), (0x80, 0xBF)]) ∨
    (c = 0xF0 ∧ trailingRanges c = some [(0x90, 0xBF), (0x80, 0xBF), (0x80, 0xBF)]) ∨
    ((0xF1 ≤ c ∧ c ≤ 0xF3) ∧
      trailingRanges c = some [(0x80, 0xBF), (0x80, 0xBF), (0x80, 0xBF)]) ∨
    (c = 0xF4 ∧ trailingRanges c = some [(0x80, 0x8F), (0x80, 0xBF), (0x80, 0xBF)]) := by
  decide

theorem nextByteInRange_cons_inv {lo hi : UInt8} {ranges : List (UInt8 × UInt8)} {s : Bytes}
    {r : Bytes × Bytes} (h : nextByteInRange ((lo, hi) :: ranges) s = some r) :
    ∃ b s' bs, s = b :: s' ∧ (lo ≤ b ∧ b ≤ hi) ∧ r.1 = b :: bs ∧
      nextByteInRange ranges s' = some (bs, r.2) := by
  cases s with
  | nil => cases h
  | cons b s' =>
      rw [nextByteInRange] at h
      split_ifs at h with hb
      obtain ⟨r', hr', rfl⟩ := Option.map_eq_some_iff.1 h
      exact ⟨b, s', r'.1, rfl, hb, rfl, hr'⟩

theorem nextByteInRange_nil_inv {s : Bytes} {r : Bytes × Bytes}
    (h : nextByteInRange [] s = some r) : r.1 = [] := by
  rw [nextByteInRange] at h
  rw [← Option.some.inj h]

/-- One character of a string is one character of text. -/
theorem validUtf8_scanChar {c : UInt8} {s added rest : Bytes}
    (h : scanChar c s = some (added, rest)) : ValidUtf8 added := by
  have hone : ∀ {r : Bytes × Bytes} {s' : Bytes},
      nextByteInRange [(0x80, 0xBF)] s' = some r → ∃ b, r.1 = [b] ∧ IsCont b := by
    intro r s' hr
    obtain ⟨b, _, bs, -, hb, hbs, hnil⟩ := nextByteInRange_cons_inv hr
    have hnone : bs = [] := nextByteInRange_nil_inv hnil
    exact ⟨b, by rw [hbs, hnone], hb⟩
  have htwo : ∀ {lo hi : UInt8} {r : Bytes × Bytes} {s' : Bytes},
      nextByteInRange [(lo, hi), (0x80, 0xBF)] s' = some r →
      ∃ b c, r.1 = [b, c] ∧ (lo ≤ b ∧ b ≤ hi) ∧ IsCont c := by
    intro lo hi r s' hr
    obtain ⟨b, _, bs, -, hb, hbs, hrest⟩ := nextByteInRange_cons_inv hr
    obtain ⟨c, hc, hcont⟩ := hone hrest
    exact ⟨b, c, by rw [hbs, show bs = [c] from hc], hb, hcont⟩
  have hthree : ∀ {lo hi : UInt8} {r : Bytes × Bytes} {s' : Bytes},
      nextByteInRange [(lo, hi), (0x80, 0xBF), (0x80, 0xBF)] s' = some r →
      ∃ b c d, r.1 = [b, c, d] ∧ (lo ≤ b ∧ b ≤ hi) ∧ IsCont c ∧ IsCont d := by
    intro lo hi r s' hr
    obtain ⟨b, _, bs, -, hb, hbs, hrest⟩ := nextByteInRange_cons_inv hr
    obtain ⟨c, d, hcd, hc, hd⟩ := htwo hrest
    exact ⟨b, c, d, by rw [hbs, show bs = [c, d] from hcd], hb, hc, hd⟩
  unfold scanChar at h
  split_ifs at h with hback
  · -- an escape
    cases s with
    | nil => cases h
    | cons e s =>
        simp only [scanEscape] at h
        split at h
        · next b hb =>
            have hascii : ∀ e : UInt8, ((simpleEscape e).getD 0) < 0x80 := by decide
            have hlt := hascii e
            rw [hb] at hlt
            simp only [Option.some.injEq, Prod.mk.injEq] at h
            rw [← h.1]
            exact .one hlt .nil
        · split_ifs at h
          exact validUtf8_scanUnicode h
  · split at h
    · cases h
    · next ranges hranges =>
        obtain ⟨r, hr, heq⟩ := Option.map_eq_some_iff.1 h
        obtain ⟨rfl, -⟩ := Prod.mk.inj heq
        rcases trailingRanges_cases c with hc | ⟨hc, hc'⟩ | ⟨hc, hc'⟩ | ⟨hc, hc'⟩ | ⟨hc, hc'⟩ |
          ⟨hc, hc'⟩ | ⟨hc, hc'⟩ | ⟨hc, hc'⟩ | ⟨hc, hc'⟩
        · cases hc.symm.trans hranges
        all_goals cases hc'.symm.trans hranges
        · rw [nextByteInRange_nil_inv hr]
          exact .one hc .nil
        · obtain ⟨b, hb, hcont⟩ := hone hr
          rw [hb]
          exact .two hc hcont .nil
        · obtain ⟨b, d, hbd, hb, hd⟩ := htwo hr
          rw [hbd]
          refine .three ?_ hd .nil
          rcases hc with hc | hc
          · exact Or.inr (Or.inl ⟨hc, hb⟩)
          · exact Or.inr (Or.inr (Or.inr ⟨hc, hb⟩))
        · obtain ⟨b, d, hbd, hb, hd⟩ := htwo hr
          rw [hbd]
          exact .three (Or.inl ⟨hc, hb⟩) hd .nil
        · obtain ⟨b, d, hbd, hb, hd⟩ := htwo hr
          rw [hbd]
          exact .three (Or.inr (Or.inr (Or.inl ⟨hc, hb⟩))) hd .nil
        · obtain ⟨b, d, e, hbde, hb, hd, he⟩ := hthree hr
          rw [hbde]
          exact .four (Or.inl ⟨hc, hb⟩) hd he .nil
        · obtain ⟨b, d, e, hbde, hb, hd, he⟩ := hthree hr
          rw [hbde]
          exact .four (Or.inr (Or.inl ⟨hc, hb⟩)) hd he .nil
        · obtain ⟨b, d, e, hbde, hb, hd, he⟩ := hthree hr
          rw [hbde]
          exact .four (Or.inr (Or.inr ⟨hc, hb⟩)) hd he .nil

/-- **A string the lexer accepts is UTF-8**, whatever escapes it was written with. -/
theorem validUtf8_scanString (fuel : ℕ) : ∀ (s text rest : Bytes),
    scanString fuel s = some (text, rest) → ValidUtf8 text := by
  induction fuel with
  | zero =>
      intro s text rest h
      cases h
  | succ fuel ih =>
      intro s text rest h
      cases s with
      | nil => cases h
      | cons c s =>
          rw [scanString] at h
          split_ifs at h with hquote
          · obtain ⟨rfl, -⟩ := Prod.mk.inj (Option.some.inj h)
            exact .nil
          · split at h
            · cases h
            · next added s' hchar =>
                obtain ⟨r, hr, heq⟩ := Option.map_eq_some_iff.1 h
                obtain ⟨rfl, -⟩ := Prod.mk.inj heq
                exact (validUtf8_scanChar hchar).append (ih s' r.1 r.2 hr)

end FileCacheProxy
