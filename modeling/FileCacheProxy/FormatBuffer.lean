import FileCacheProxy.Utilities
import Mathlib

set_option autoImplicit false

/-! # The buffer of `string_format`

`Utilities.lean` computes with the size of the buffer as with any integer. In the source it is an
`int`, the buffer is allocated anew in every pass, and a `strcpy` of the format fills it before
`vsnprintf` does. This file says what a pass needs in order to stay in bounds, and when every pass
of a call does. -/

namespace FileCacheProxy

/-- The variables of the loop when pass `k` of a call begins, `none` when there is no such pass. -/
def formatPassAt (fmt_str : Bytes) (vsnprintf : Vsnprintf) (k : ℕ) : Option FormatState :=
  Loop.stateAt (fun st => st.formatted.isNone) (stringFormatPass vsnprintf) k
    ⟨fmt_str.length * 2, none⟩

/-- A pass that begins with `st` stays in bounds: the size is an `int`, the format and its NUL fit
    into the buffer, and where the buffer has to grow the new size is an `int` again. -/
structure PassFits (fmt_str : Bytes) (vsnprintf : Vsnprintf) (st : FormatState) : Prop where
  size : InInt st.n
  strcpy : (fmt_str.length : ℤ) + 1 ≤ st.n
  grow : (vsnprintf st.n).1 < 0 ∨ (vsnprintf st.n).1 ≥ st.n →
    InInt (st.n + |(vsnprintf st.n).1 - st.n + 1|)

/-! ## A length that is reported on every call -/

section Constant

variable {fmt_str : Bytes} {vsnprintf : Vsnprintf} {r : ℤ}

/-- The sizes a call can have: the guess, and the one that `vsnprintf` asks for. -/
def SizeOf (fmt_str : Bytes) (r : ℤ) (st : FormatState) : Prop :=
  st.n = fmt_str.length * 2 ∨ ((fmt_str.length * 2 : ℤ) ≤ r ∧ st.n = r + 1)

/-- One pass grows the buffer to `r + 1`, or leaves the loop. -/
theorem stringFormatPass_cases (hr : ∀ n, (vsnprintf n).1 = r) (hnonneg : 0 ≤ r)
    (st : FormatState) :
    (st.n ≤ r ∧ stringFormatPass vsnprintf st = some { st with n := r + 1 }) ∨
    (r < st.n ∧
      stringFormatPass vsnprintf st = some { st with formatted := some (vsnprintf st.n).2 }) := by
  unfold stringFormatPass
  simp only [hr]
  by_cases hfull : st.n ≤ r
  · have hgrow : st.n + |r - st.n + 1| = r + 1 := by
      rw [abs_of_nonneg (by omega)]
      omega
    rw [if_pos (Or.inr hfull), hgrow]
    exact Or.inl ⟨hfull, rfl⟩
  · rw [if_neg (by omega)]
    exact Or.inr ⟨not_le.1 hfull, rfl⟩

theorem SizeOf.pass (hr : ∀ n, (vsnprintf n).1 = r) (hnonneg : 0 ≤ r) {st st' : FormatState}
    (h : SizeOf fmt_str r st) (hpass : stringFormatPass vsnprintf st = some st') :
    SizeOf fmt_str r st' := by
  rcases stringFormatPass_cases hr hnonneg st with ⟨hfull, heq⟩ | ⟨hfits, heq⟩
  · rw [heq] at hpass
    cases hpass
    rcases h with h | ⟨hlow, h⟩
    · exact Or.inr ⟨by omega, rfl⟩
    · omega
  · rw [heq] at hpass
    cases hpass
    exact h

theorem SizeOf.passFits (hne : fmt_str ≠ []) (hF : fmt_str.length < 2 ^ 30)
    (hr : ∀ n, (vsnprintf n).1 = r) (hnonneg : 0 ≤ r) (hlt : r < 2 ^ 31 - 1) {st : FormatState}
    (h : SizeOf fmt_str r st) : PassFits fmt_str vsnprintf st := by
  have hpos : 0 < fmt_str.length := List.length_pos_of_ne_nil hne
  have hsize : (fmt_str.length : ℤ) + 1 ≤ st.n ∧ st.n ≤ 2 ^ 31 - 1 := by
    rcases h with h | ⟨hlow, h⟩
    · omega
    · omega
  refine ⟨⟨by omega, hsize.2⟩, hsize.1, fun hgrow => ?_⟩
  rw [hr] at hgrow ⊢
  have hfull : st.n ≤ r := by
    rcases hgrow with h | h
    · omega
    · exact h
  rw [abs_of_nonneg (by omega)]
  exact ⟨by omega, by omega⟩

/-- Every pass that begins has one of the two sizes. -/
theorem sizeOf_of_formatPassAt (hr : ∀ n, (vsnprintf n).1 = r) (hnonneg : 0 ≤ r) {k : ℕ}
    {st : FormatState} (h : formatPassAt fmt_str vsnprintf k = some st) :
    SizeOf fmt_str r st := by
  have hstep : ∀ st st', SizeOf fmt_str r st → st.formatted.isNone = true →
      stringFormatPass vsnprintf st = some st' → SizeOf fmt_str r st' :=
    fun _ _ hst _ hpass => hst.pass hr hnonneg hpass
  exact (Loop.stateAt_inv _ _ hstep (Or.inl rfl) h).1

/-- A buffer that is too small is followed by another pass. -/
theorem formatPassAt_succ (hr : ∀ n, (vsnprintf n).1 = r) (hnonneg : 0 ≤ r) {k : ℕ}
    {st : FormatState} (h : formatPassAt fmt_str vsnprintf k = some st) (hfull : st.n ≤ r) :
    formatPassAt fmt_str vsnprintf (k + 1) = some { st with n := r + 1 } := by
  have hopen : st.formatted.isNone = true :=
    (Loop.stateAt_inv (fun st : FormatState => st.formatted.isNone) (stringFormatPass vsnprintf)
      (fun _ _ _ _ _ => trivial) trivial h).2
  rcases stringFormatPass_cases hr hnonneg st with ⟨-, hpass⟩ | ⟨hfits, -⟩
  · exact (Loop.stateAt_succ h hpass).trans (if_pos hopen)
  · omega

/-- The loop is left: the second pass has the room that the first one asked for. -/
theorem stringFormat_ends (hr : ∀ n, (vsnprintf n).1 = r) (hnonneg : 0 ≤ r) :
    (stringFormat fmt_str vsnprintf 2).isSome := by
  have hleave : ∀ st : FormatState, st.formatted = none → r < st.n → ∀ fuel,
      Loop.run (fun st => st.formatted.isNone) (stringFormatPass vsnprintf) (fuel + 1) st
        = some { st with formatted := some (vsnprintf st.n).2 } := by
    intro st hnone hfits fuel
    rcases stringFormatPass_cases hr hnonneg st with ⟨hfull, -⟩ | ⟨-, hpass⟩
    · omega
    · rw [Loop.run_succ (by simp [hnone]) hpass, Loop.run_of_not (by rfl)]
  unfold stringFormat
  rcases stringFormatPass_cases hr hnonneg ⟨fmt_str.length * 2, none⟩ with
    ⟨-, hpass⟩ | ⟨hfits, -⟩
  · rw [Loop.run_succ (by rfl) hpass, hleave ⟨r + 1, none⟩ rfl (lt_add_one r)]
    rfl
  · rw [hleave ⟨fmt_str.length * 2, none⟩ rfl hfits]
    rfl

end Constant

/-! ## A complete output -/

/-- A call with the complete output `out`: two passes are enough for the whole text, every pass stays
    in bounds, and in the last one the text and its NUL fit. -/
structure FormatComplete (fmt_str out : Bytes) : Prop where
  text : stringFormat fmt_str (formatInto out) 2 = some (cstr out)
  inBounds : ∀ k st, formatPassAt fmt_str (formatInto out) k = some st →
    PassFits fmt_str (formatInto out) st
  lastFits : ∀ k st, formatPassAt fmt_str (formatInto out) k = some st →
    formatPassAt fmt_str (formatInto out) (k + 1) = none → (out.length : ℤ) < st.n

/-- **`string_format` gives the complete text**, for every format that is not empty. -/
theorem stringFormat_complete {fmt_str out : Bytes} (hne : fmt_str ≠ [])
    (hF : fmt_str.length < 2 ^ 30) (hout : out.length < 2 ^ 31 - 1) :
    FormatComplete fmt_str out := by
  have hr : ∀ n, (formatInto out n).1 = out.length := fun _ => rfl
  have hnonneg : (0 : ℤ) ≤ out.length := Int.natCast_nonneg _
  refine ⟨stringFormat_eq fmt_str out, fun k st h => ?_, fun k st h hlast => ?_⟩
  · exact (sizeOf_of_formatPassAt hr hnonneg h).passFits hne hF hr hnonneg (by omega)
  · by_contra hfull
    have hnext := formatPassAt_succ hr hnonneg h (not_lt.1 hfull)
    rw [hlast] at hnext
    cases hnext

/-- A one-byte format for three bytes of output: the buffer grows once. -/
theorem stringFormat_complete_grows : FormatComplete (ascii "s") (ascii "abc") :=
  stringFormat_complete (by decide) (by decide) (by decide)

/-! ## Any result of `vsnprintf` -/

/-- The call comes back, and every pass stays in bounds. -/
structure FormatSafe (fmt_str : Bytes) (vsnprintf : Vsnprintf) : Prop where
  ends : ∃ fuel, (stringFormat fmt_str vsnprintf fuel).isSome
  inBounds : ∀ k st, formatPassAt fmt_str vsnprintf k = some st → PassFits fmt_str vsnprintf st

/-- An error is taken for an output that is too long: no number of passes is enough. In the program the
    buffer grows until its size is not an `int` any more. -/
theorem stringFormat_error {fmt_str : Bytes} {vsnprintf : Vsnprintf} {r : ℤ}
    (hr : ∀ n, (vsnprintf n).1 = r) (hneg : r < 0) (fuel : ℕ) :
    stringFormat fmt_str vsnprintf fuel = none := by
  have hkeep : ∀ st st' : FormatState, st.formatted = none →
      stringFormatPass vsnprintf st = some st' → st'.formatted = none := by
    intro st st' hnone hpass
    unfold stringFormatPass at hpass
    simp only [hr, if_pos (Or.inl hneg : r < 0 ∨ r ≥ st.n), Option.some.injEq] at hpass
    rw [← hpass]
    exact hnone
  have hrun : Loop.run (fun st => st.formatted.isNone) (stringFormatPass vsnprintf) fuel
      ⟨fmt_str.length * 2, none⟩ = none :=
    Loop.run_eq_none _ _ (fun st hnone => by simp [hnone]) hkeep fuel rfl
  rw [stringFormat, hrun]
  rfl

/-- **`string_format` is safe exactly on the formats that are not empty, with a result of `vsnprintf`
    between 0 and 2^31 - 2**: an empty format has no room for its NUL, an error is retried with more
    and more room, and the room for 2^31 - 1 characters and a NUL is not an `int`. -/
theorem stringFormat_safe_iff {fmt_str : Bytes} {vsnprintf : Vsnprintf} {r : ℤ}
    (hF : fmt_str.length < 2 ^ 30) (hr : ∀ n, (vsnprintf n).1 = r) (hmax : r ≤ 2 ^ 31 - 1) :
    FormatSafe fmt_str vsnprintf ↔ fmt_str ≠ [] ∧ 0 ≤ r ∧ r ≤ 2 ^ 31 - 2 := by
  have hfirst : formatPassAt fmt_str vsnprintf 0 = some ⟨fmt_str.length * 2, none⟩ := rfl
  constructor
  · intro h
    have hfits := h.inBounds 0 _ hfirst
    refine ⟨?_, ?_, ?_⟩
    · rintro rfl
      exact absurd hfits.strcpy (by decide)
    · by_contra hneg
      obtain ⟨fuel, hsome⟩ := h.ends
      rw [stringFormat_error hr (not_le.1 hneg)] at hsome
      cases hsome
    · by_contra hlong
      have hgrow := (hfits.grow (Or.inr (by rw [hr]; dsimp only; omega))).2
      rw [hr, abs_of_nonneg (by dsimp only; omega)] at hgrow
      dsimp only at hgrow
      omega
  · rintro ⟨hne, hnonneg, hlt⟩
    refine ⟨⟨2, stringFormat_ends hr hnonneg⟩, fun k st h => ?_⟩
    exact (sizeOf_of_formatPassAt hr hnonneg h).passFits hne hF hr hnonneg (by omega)

theorem stringFormat_safe_iff_slash : FormatSafe (ascii "%s/%s") (fun _ => (12, [])) :=
  (stringFormat_safe_iff (by decide) (fun _ => rfl) (by decide)).2 (by decide)

/-- An empty format: the buffer has no byte, and `strcpy` writes one. -/
theorem stringFormat_empty_overflows :
    formatPassAt [] (formatInto []) 0 = some ⟨0, none⟩ ∧ ¬ FormatSafe [] (formatInto []) := by
  refine ⟨rfl, fun h => ?_⟩
  exact absurd (h.inBounds 0 ⟨0, none⟩ rfl).strcpy (by decide)

end FileCacheProxy
