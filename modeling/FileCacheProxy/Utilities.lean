import FileCacheProxy.CRuntime
import FileCacheProxy.Json
import FileCacheProxy.Lib.Loop
import Mathlib

set_option autoImplicit false

/-! # Utilities (`ultilities.cpp`)

`string_format`, which guesses a buffer size and grows it until `vsnprintf` fits, and
`get_time_now`. The buffer size is an `int` in the source; it is an integer here, and whether it
stays in range is a statement about it, not an assumption. -/

namespace FileCacheProxy

/-! ## `string_format` -/

/-- One call `vsnprintf(buf, n, fmt, ap)`: the returned length and the text left in the buffer. -/
abbrev Vsnprintf := ℤ → ℤ × Bytes

/-- The variables of the `while(1)` loop; `formatted` is set when the loop is left. -/
structure FormatState where
  n : ℤ
  formatted : Option Bytes

def stringFormatPass (vsnprintf : Vsnprintf) (st : FormatState) : Option FormatState :=
  let r := vsnprintf st.n
  let final_n := r.1
  if final_n < 0 ∨ final_n ≥ st.n then some { st with n := st.n + |final_n - st.n + 1| }
  else some { st with formatted := some r.2 }

/-- `string_format(fmt_str, ...)`, `none` when `fuel` passes are not enough. -/
def stringFormat (fmt_str : Bytes) (vsnprintf : Vsnprintf) (fuel : ℕ) : Option Bytes :=
  (Loop.run (fun st => st.formatted.isNone) (stringFormatPass vsnprintf) fuel
    ⟨fmt_str.length * 2, none⟩).bind (fun st => st.formatted.map cstr)

/-- `vsnprintf` for arguments whose complete output is `out`: it reports the full length and
    stores what fits, with a NUL behind it. -/
def formatInto (out : Bytes) : Vsnprintf :=
  fun n => (out.length, out.take (n - 1).toNat)

theorem stringFormatPass_fits {out : Bytes} {st : FormatState} (h : (out.length : ℤ) < st.n) :
    stringFormatPass (formatInto out) st = some { st with formatted := some out } := by
  have hno : ¬ ((out.length : ℤ) < 0 ∨ (out.length : ℤ) ≥ st.n) := by omega
  have hall : out.take (st.n - 1).toNat = out := List.take_of_length_le (by omega)
  simp only [stringFormatPass, formatInto, if_neg hno, hall]

theorem stringFormatPass_grows {out : Bytes} {st : FormatState} (h : st.n ≤ out.length) :
    stringFormatPass (formatInto out) st = some { st with n := out.length + 1 } := by
  have hyes : (out.length : ℤ) < 0 ∨ (out.length : ℤ) ≥ st.n := Or.inr h
  have habs : st.n + |(out.length : ℤ) - st.n + 1| = out.length + 1 := by
    rw [abs_of_nonneg (by omega)]
    omega
  simp only [stringFormatPass, formatInto, if_pos hyes, habs]

/-- Two passes give the complete text: the second buffer is exactly as long as the first call
    said. -/
theorem stringFormat_eq (fmt_str out : Bytes) :
    stringFormat fmt_str (formatInto out) 2 = some (cstr out) := by
  have hpass : ∀ st : FormatState, st.formatted = none → (out.length : ℤ) < st.n →
      ∀ fuel, Loop.run (fun st => st.formatted.isNone) (stringFormatPass (formatInto out))
        (fuel + 1) st = some { st with formatted := some out } := by
    intro st hnone hlt fuel
    rw [Loop.run_succ (by simp [hnone]) (stringFormatPass_fits hlt), Loop.run_of_not (by rfl)]
  rw [stringFormat]
  by_cases hfit : (out.length : ℤ) < fmt_str.length * 2
  · rw [hpass ⟨fmt_str.length * 2, none⟩ rfl hfit]
    rfl
  · have hgrow : stringFormatPass (formatInto out) ⟨fmt_str.length * 2, none⟩
        = some ⟨out.length + 1, none⟩ := stringFormatPass_grows (not_lt.1 hfit)
    rw [Loop.run_succ (by rfl) hgrow, hpass ⟨out.length + 1, none⟩ rfl (by simp)]
    rfl

/-! ## `get_time_now` -/

/-- The fields of `struct tm` the format reads. -/
structure Tm where
  tm_year : ℤ
  tm_mon : ℕ
  tm_mday : ℕ
  tm_hour : ℕ
  tm_min : ℕ
  tm_sec : ℕ

/-- A two-digit field. -/
def pad2 (n : ℕ) : Bytes :=
  [UInt8.ofNat (48 + n / 10 % 10), UInt8.ofNat (48 + n % 10)]

/-- `strftime` with `"%Y-%m-%d %H:%M:%S"`. -/
def strftime (tm : Tm) : Bytes :=
  dumpInteger (1900 + tm.tm_year) ++ ascii "-" ++ pad2 (tm.tm_mon + 1) ++ ascii "-" ++
    pad2 tm.tm_mday ++ ascii " " ++ pad2 tm.tm_hour ++ ascii ":" ++ pad2 tm.tm_min ++ ascii ":" ++
    pad2 tm.tm_sec

/-- `get_time_now()` at clock reading `timep`, with the system's `localtime`. -/
def getTimeNow (localtime : ℤ → Tm) (timep : ℤ) : Bytes :=
  cstr (strftime (localtime timep))

theorem decimal_isAscii (n : ℕ) : isAscii (decimal n) = true := by
  simp only [isAscii, List.all_eq_true, decide_eq_true_eq]
  intro b hb
  exact UInt8.lt_of_le_of_lt (decimal_digit hb).2 (by decide)

theorem pad2_isAscii (n : ℕ) : isAscii (pad2 n) = true := by
  have hdigit : ∀ d < 10, UInt8.ofNat (48 + d) < 0x80 := by decide
  have h1 := hdigit (n / 10 % 10) (Nat.mod_lt _ (by decide))
  have h2 := hdigit (n % 10) (Nat.mod_lt _ (by decide))
  simp only [isAscii, pad2, List.all_cons, List.all_nil, h1, h2]
  rfl

theorem getTimeNow_isAscii (localtime : ℤ → Tm) (timep : ℤ) :
    isAscii (getTimeNow localtime timep) = true := by
  have hyear : ∀ z, isAscii (dumpInteger z) = true := by
    intro z
    unfold dumpInteger
    split
    · rw [isAscii_append, decimal_isAscii]
      rfl
    · exact decimal_isAscii _
  have hall : isAscii (strftime (localtime timep)) = true := by
    simp only [strftime, isAscii_append, hyear, pad2_isAscii]
    rfl
  rw [isAscii, List.all_eq_true] at hall ⊢
  exact fun c hc => hall c ((List.takeWhile_sublist _).subset hc)

theorem validUtf8_getTimeNow (localtime : ℤ → Tm) (timep : ℤ) :
    ValidUtf8 (getTimeNow localtime timep) :=
  .of_ascii (getTimeNow_isAscii localtime timep)

end FileCacheProxy
