import FileCacheProxy.Init
import Mathlib

set_option autoImplicit false
-- the facts about all 256 bytes are decided one byte after the other
set_option maxRecDepth 1500

/-! # The numeric settings

`ThreadCount` and `expiredays` go through `strtol`, which saturates at the limits of a 64-bit `long`,
through the conversion to `int` in `str2int`, which wraps, and through the fallbacks of `init`, which
look at the sign of what is left. This file says which numbers come out as they should. -/

namespace FileCacheProxy

/-! ## Texts that denote a number -/

inductive Sign where
  | absent
  | plus
  | minus

def Sign.text : Sign → Bytes
  | .absent => []
  | .plus => [43]
  | .minus => [45]

/-- A text for an integer: white space, a sign, and at least one decimal digit. -/
structure Numeral where
  blanks : Bytes
  sign : Sign
  digits : Bytes
  blank : ∀ c ∈ blanks, isspace c = true
  digit : ∀ c ∈ digits, isdigit c = true
  ne_nil : digits ≠ []

def Numeral.text (num : Numeral) : Bytes :=
  num.blanks ++ (num.sign.text ++ num.digits)

/-- The number the digits stand for, the first one being the most significant. -/
def Numeral.magnitude (num : Numeral) : ℕ :=
  Nat.ofDigits 10 (num.digits.reverse.map (fun c => c.toNat - 48))

/-- The integer that the text denotes. -/
def Numeral.value (num : Numeral) : ℤ :=
  match num.sign with
  | .minus => -num.magnitude
  | _ => num.magnitude

theorem foldl_digits (digits : Bytes) :
    digits.foldl (fun n c => 10 * n + (c.toNat - 48)) 0
      = Nat.ofDigits 10 (digits.reverse.map (fun c => c.toNat - 48)) := by
  induction digits using List.reverseRecOn with
  | nil => rfl
  | append_singleton digits c ih =>
      rw [List.foldl_append, List.foldl_cons, List.foldl_nil, ih, List.reverse_append,
        List.reverse_singleton, List.singleton_append, List.map_cons, Nat.ofDigits_cons]
      exact Nat.add_comm _ _

/-- A text for a number has no NUL. -/
theorem Numeral.NUL_not_mem_text (num : Numeral) : NUL ∉ num.text := by
  have hsign : NUL ∉ num.sign.text := by
    cases num.sign <;> decide
  simp only [Numeral.text, List.mem_append, not_or]
  refine ⟨fun h => ?_, hsign, fun h => ?_⟩
  · exact absurd (num.blank NUL h) (by decide)
  · exact absurd (num.digit NUL h) (by decide)

theorem isspace_of_isdigit {c : UInt8} (h : isdigit c = true) : isspace c = false ∧ c ≠ 43 ∧ c ≠ 45 := by
  revert c
  decide

/-- `strtol` reads the number, up to the limits of a `long`. -/
theorem Numeral.strtol_text (num : Numeral) :
    strtol num.text = max (-2 ^ 63) (min (2 ^ 63 - 1) num.value) := by
  obtain ⟨d, ds, hdigits⟩ := List.exists_cons_of_ne_nil num.ne_nil
  have hd := isspace_of_isdigit (num.digit d (by rw [hdigits]; exact List.mem_cons_self))
  have hdrop : (cstr num.text).dropWhile isspace = num.sign.text ++ num.digits := by
    rw [cstr_eq_self num.NUL_not_mem_text, Numeral.text, List.dropWhile_append_of_pos num.blank,
      hdigits]
    cases num.sign with
    | absent => simp [Sign.text, hd.1]
    | plus => rfl
    | minus => rfl
  have htake : num.digits.takeWhile isdigit = num.digits :=
    List.takeWhile_eq_self_iff.2 num.digit
  have hvalue := foldl_digits num.digits
  unfold strtol
  rw [hdrop]
  cases hsign : num.sign with
  | absent =>
      have hhead : num.digits.head? = some d := by rw [hdigits]; rfl
      have hminus : (some d == some (45 : UInt8)) = false := by simpa using hd.2.2
      have hplus : (some d == some (43 : UInt8)) = false := by simpa using hd.2.1
      simp only [Sign.text, hhead, hminus, hplus, Bool.or_self, Bool.false_eq_true, if_false,
        List.nil_append, htake, hvalue, Numeral.value, hsign, Numeral.magnitude]
  | plus =>
      have hminus : (some (43 : UInt8) == some 45) = false := by decide
      simp only [Sign.text, List.singleton_append, List.head?_cons, hminus, BEq.rfl, Bool.or_true,
        Bool.false_eq_true, if_true, if_false, List.tail_cons, htake, hvalue, Numeral.value, hsign,
        Numeral.magnitude]
  | minus =>
      simp only [Sign.text, List.singleton_append, List.head?_cons, BEq.rfl, Bool.true_or, if_true,
        List.tail_cons, htake, hvalue, Numeral.value, hsign, Numeral.magnitude]

/-! ## What becomes of the number -/

/-- What `str2int` gives for a text of `z`: saturated to a `long`, wrapped to an `int`. -/
def intOf (z : ℤ) : ℤ :=
  (max (-2 ^ 63) (min (2 ^ 63 - 1) z)).bmod (2 ^ 32)

theorem Numeral.str2int_text (num : Numeral) : str2int num.text = intOf num.value := by
  rw [str2int, num.strtol_text, intOf]

/-- The number comes out of both settings as it should: it is an `int`, or it is above them and wraps
    to the largest one, or it is below them and wraps to one below zero. -/
inductive Faithful (z : ℤ) : Prop where
  | inInt (h : InInt z)
  | above (hlow : 2 ^ 31 ≤ z) (hhigh : z < 2 ^ 63) (hwrap : z % 2 ^ 32 = 2 ^ 31 - 1)
  | below (hlow : -2 ^ 63 < z) (hhigh : z < -2 ^ 31) (hwrap : 2 ^ 31 ≤ z % 2 ^ 32)

/-- A number in the range of `long` only wraps. -/
theorem intOf_of_inLong {z : ℤ} (hlow : -2 ^ 63 ≤ z) (hhigh : z < 2 ^ 63) :
    intOf z = z.bmod (2 ^ 32) := by
  have hlong : max (-2 ^ 63) (min (2 ^ 63 - 1) z) = z := by omega
  rw [intOf, hlong]

theorem intOf_of_inInt {z : ℤ} (h : InInt z) : intOf z = z := by
  obtain ⟨hlow, hhigh⟩ := h
  rw [intOf_of_inLong (by omega) (by omega), Int.bmod_eq_of_le] <;> omega

/-- Above the range of `long` comes the largest `long`, whose lower half is -1. -/
theorem intOf_of_ge {z : ℤ} (h : 2 ^ 63 ≤ z) : intOf z = -1 := by
  have hlong : max (-2 ^ 63) (min (2 ^ 63 - 1) z) = 2 ^ 63 - 1 := by omega
  rw [intOf, hlong]
  decide

/-- Below it comes the smallest one, whose lower half is 0. -/
theorem intOf_of_le {z : ℤ} (h : z ≤ -2 ^ 63) : intOf z = 0 := by
  have hlong : max (-2 ^ 63) (min (2 ^ 63 - 1) z) = -2 ^ 63 := by omega
  rw [intOf, hlong]
  decide

/-- The wrapped number is one of two representatives. -/
theorem bmod_cases (z : ℤ) :
    (z % 2 ^ 32 < 2 ^ 31 ∧ z.bmod (2 ^ 32) = z % 2 ^ 32) ∨
    (2 ^ 31 ≤ z % 2 ^ 32 ∧ z.bmod (2 ^ 32) = z % 2 ^ 32 - 2 ^ 32) := by
  have hdef : z.bmod (2 ^ 32) =
      if z % 2 ^ 32 < 2 ^ 31 then z % 2 ^ 32 else z % 2 ^ 32 - 2 ^ 32 := by
    rw [Int.bmod_def]
    norm_num
  rw [hdef]
  split_ifs with h
  · exact Or.inl ⟨h, rfl⟩
  · exact Or.inr ⟨not_lt.1 h, rfl⟩

/-- `ThreadCount` for the number `z`: at least 1, and at most the largest `int`. -/
def clampThreadCount (z : ℤ) : ℤ :=
  max 1 (min (2 ^ 31 - 1) z)

/-- `expiredays` for the number `z`: at most the largest `int`, 7 for a negative one. -/
def clampExpiredays (z : ℤ) : ℤ :=
  if z < 0 then 7 else min (2 ^ 31 - 1) z

/-- Both fallbacks of `init` do their work exactly on the faithful numbers. -/
theorem faithful_iff (z : ℤ) :
    Faithful z ↔
      (if intOf z < 1 then 1 else intOf z) = clampThreadCount z ∧
        (if intOf z < 0 then 7 else intOf z) = clampExpiredays z := by
  unfold clampThreadCount clampExpiredays
  constructor
  · intro h
    cases h with
    | inInt h =>
        rw [intOf_of_inInt h]
        obtain ⟨hlow, hhigh⟩ := h
        constructor <;> split_ifs <;> omega
    | above hlow hhigh hwrap =>
        have hint : intOf z = 2 ^ 31 - 1 := by
          rw [intOf_of_inLong (by omega) hhigh]
          rcases bmod_cases z with ⟨-, h⟩ | ⟨h, -⟩ <;> omega
        rw [hint]
        constructor <;> split_ifs <;> omega
    | below hlow hhigh hwrap =>
        have hneg : intOf z < 0 := by
          rw [intOf_of_inLong hlow.le (by omega)]
          rcases bmod_cases z with ⟨h, -⟩ | ⟨-, h⟩ <;> omega
        constructor <;> split_ifs <;> omega
  · rintro ⟨hthreads, hdays⟩
    by_cases hint : InInt z
    · exact .inInt hint
    · unfold InInt at hint
      by_cases hpos : 0 ≤ z
      · -- above the range: what is left has to be the largest `int`
        have hmax : intOf z = 2 ^ 31 - 1 := by
          split_ifs at hthreads <;> omega
        have hlt : z < 2 ^ 63 := by
          by_contra hge
          rw [intOf_of_ge (not_lt.1 hge)] at hmax
          omega
        rw [intOf_of_inLong (by omega) hlt] at hmax
        refine .above (by omega) hlt ?_
        rcases bmod_cases z with ⟨-, h⟩ | ⟨-, h⟩ <;> omega
      · -- below the range: what is left has to be negative
        have hneg : intOf z < 0 := by
          split_ifs at hthreads hdays <;> omega
        have hlt : -2 ^ 63 < z := by
          by_contra hge
          rw [intOf_of_le (not_lt.1 hge)] at hneg
          omega
        rw [intOf_of_inLong hlt.le (by omega)] at hneg
        refine .below hlt (by omega) ?_
        rcases bmod_cases z with ⟨-, h⟩ | ⟨h, -⟩ <;> omega

/-! ## The settings -/

/-- A configuration step that finds the text for `ThreadCount`, or for `expiredays`, stores the number
    that it denotes. -/
structure SettingsLaw (num : Numeral) : Prop where
  ThreadCount : ∀ (env : InitEnv) (p : Proxy),
    p.myConfig.getValueChars (ascii "ThreadCount") = num.text →
    ∃ q, runStmts env [.readThreadCount, .readExpiredays] p = .next q ∧
      q.ThreadCount = clampThreadCount num.value
  expiredays : ∀ (env : InitEnv) (p : Proxy),
    p.myConfig.getValueChars (ascii "expiredays") = num.text →
    ∃ q, runStmts env [.readThreadCount, .readExpiredays] p = .next q ∧
      q.expiredays = clampExpiredays num.value

theorem Numeral.isEmpty_text (num : Numeral) : num.text.isEmpty = false := by
  obtain ⟨d, ds, hdigits⟩ := List.exists_cons_of_ne_nil num.ne_nil
  rw [Numeral.text, hdigits]
  simp

/-- The statement for `ThreadCount`, with whatever text it finds. -/
theorem exec_readThreadCount (env : InitEnv) (p : Proxy) :
    ∃ n, InitStmt.readThreadCount.exec env p = .next { p with ThreadCount := n } ∧
      ∀ num : Numeral, p.myConfig.getValueChars (ascii "ThreadCount") = num.text →
        n = if intOf num.value < 1 then 1 else intOf num.value := by
  simp only [InitStmt.exec]
  split
  · next hempty =>
      refine ⟨1, rfl, fun num h => ?_⟩
      rw [h, num.isEmpty_text] at hempty
      cases hempty
  · refine ⟨_, rfl, fun num h => ?_⟩
    rw [h, num.str2int_text]

theorem exec_readExpiredays (env : InitEnv) (p : Proxy) :
    ∃ n, InitStmt.readExpiredays.exec env p = .next { p with expiredays := n } ∧
      ∀ num : Numeral, p.myConfig.getValueChars (ascii "expiredays") = num.text →
        n = if intOf num.value < 0 then 7 else intOf num.value := by
  simp only [InitStmt.exec]
  split
  · next hempty =>
      refine ⟨7, rfl, fun num h => ?_⟩
      rw [h, num.isEmpty_text] at hempty
      cases hempty
  · refine ⟨_, rfl, fun num h => ?_⟩
    rw [h, num.str2int_text]

/-- The configuration step for the two settings. -/
theorem runStmts_settings (env : InitEnv) (p : Proxy) :
    ∃ count days, runStmts env [.readThreadCount, .readExpiredays] p
        = .next { p with ThreadCount := count, expiredays := days } ∧
      (∀ num : Numeral, p.myConfig.getValueChars (ascii "ThreadCount") = num.text →
        count = if intOf num.value < 1 then 1 else intOf num.value) ∧
      ∀ num : Numeral, p.myConfig.getValueChars (ascii "expiredays") = num.text →
        days = if intOf num.value < 0 then 7 else intOf num.value := by
  obtain ⟨count, hcount, hthreads⟩ := exec_readThreadCount env p
  obtain ⟨days, hdays, hexpire⟩ := exec_readExpiredays env { p with ThreadCount := count }
  refine ⟨count, days, ?_, hthreads, hexpire⟩
  simp only [runStmts, hcount, hdays]

/-- A start whose configuration gives `num` for both settings. -/
def settingsProxy (num : Numeral) : Proxy :=
  { Proxy.new none with
    myConfig := ⟨configFileName, ((∅ : Std.TreeMap Bytes Bytes).insert (ascii "ThreadCount")
      num.text).insert (ascii "expiredays") num.text⟩ }

/-- **The numeric settings are right exactly for the numbers that survive `str2int`**: those of an
    `int`, and above and below them the ones that wrap to its largest value or below zero. -/
theorem settingsLaw_iff (num : Numeral) : SettingsLaw num ↔ Faithful num.value := by
  rw [faithful_iff]
  constructor
  · intro h
    have hcountText : (settingsProxy num).myConfig.getValueChars (ascii "ThreadCount") = num.text := by
      simp [settingsProxy, Config.getValueChars, Std.TreeMap.getElem_insert,
        show cstr (ascii "ThreadCount") = ascii "ThreadCount" from by decide,
        show ¬ (ascii "expiredays" = ascii "ThreadCount") from by decide]
    have hdaysText : (settingsProxy num).myConfig.getValueChars (ascii "expiredays") = num.text := by
      simp [settingsProxy, Config.getValueChars,
        show cstr (ascii "expiredays") = ascii "expiredays" from by decide]
    obtain ⟨count, days, hrun, hcount, hdays⟩ := runStmts_settings helloStart (settingsProxy num)
    obtain ⟨q, hq, hthreads⟩ := h.ThreadCount helloStart (settingsProxy num) hcountText
    obtain ⟨q', hq', hexpire⟩ := h.expiredays helloStart (settingsProxy num) hdaysText
    rw [hrun] at hq hq'
    cases hq
    cases hq'
    exact ⟨(hcount num hcountText).symm.trans hthreads, (hdays num hdaysText).symm.trans hexpire⟩
  · rintro ⟨hthreads, hexpire⟩
    refine ⟨fun env p h => ?_, fun env p h => ?_⟩
    · obtain ⟨count, days, hrun, hcount, -⟩ := runStmts_settings env p
      exact ⟨_, hrun, (hcount num h).trans hthreads⟩
    · obtain ⟨count, days, hrun, -, hdays⟩ := runStmts_settings env p
      exact ⟨_, hrun, (hdays num h).trans hexpire⟩

/-- `4294967298`, two more than a 32-bit word can hold. -/
def wrappedNumeral : Numeral where
  blanks := []
  sign := .absent
  digits := ascii "4294967298"
  blank := fun c hc => absurd hc List.not_mem_nil
  digit := by decide
  ne_nil := by decide

/-- A start that configures this number of threads. -/
def wrappedCount : InitEnv :=
  { helloStart with
    fs := fun _ => some (ascii "localhost=127.0.0.1\nThreadCount=4294967298\nexpiredays=4294967298") }

/-- Two threads and two days are what is left of it. -/
theorem settings_wrap :
    (∃ q, runStmts wrappedCount [.loadConfig, .readThreadCount, .readExpiredays] (Proxy.new none)
        = .next q ∧ q.ThreadCount = 2 ∧ q.expiredays = 2) ∧
      ¬ SettingsLaw wrappedNumeral := by
  refine ⟨⟨_, rfl, by decide, by decide⟩, fun h => ?_⟩
  obtain ⟨q, hrun, hcount⟩ := h.ThreadCount wrappedCount
    { Proxy.new none with
      myConfig := ⟨configFileName, (∅ : Std.TreeMap Bytes Bytes).insert (ascii "ThreadCount")
        (ascii "4294967298")⟩ } (by decide)
  cases hrun
  exact absurd hcount (by decide)

end FileCacheProxy
