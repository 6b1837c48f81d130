import Mathlib.Data.Nat.Digits.Lemmas
import Mathlib.Data.Set.Basic

set_option autoImplicit false

/-! # Fixed-width numerals

Texts of digits, the most significant one first, over an arbitrary alphabet. Texts of one length
sort like the numbers they stand for (`value_lt_value_iff`), and so do texts made of several numerals
of fixed widths, compared field by field (`fields_lt_fields_iff`). -/

namespace Radix

variable {α : Type}

/-- The elements of `S` are digits in base `b` with the values `val`, in the order of the alphabet. -/
structure Digits [LT α] (val : α → ℕ) (b : ℕ) (S : Set α) : Prop where
  one_lt : 1 < b
  lt_base : ∀ x ∈ S, val x < b
  lt_iff : ∀ x ∈ S, ∀ y ∈ S, val x < val y ↔ x < y
  injOn : Set.InjOn val S

/-- The number that a text of digits stands for. -/
def value (val : α → ℕ) (b : ℕ) (ds : List α) : ℕ :=
  Nat.ofDigits b (ds.reverse.map val)

theorem value_cons (val : α → ℕ) (b : ℕ) (d : α) (ds : List α) :
    value val b (d :: ds) = value val b ds + b ^ ds.length * val d := by
  rw [value, value, List.map_reverse, List.map_reverse, List.map_cons, Nat.ofDigits_reverse_cons,
    List.length_map]

variable [LT α] {val : α → ℕ} {b : ℕ} {S : Set α}

theorem value_lt (h : Digits val b S) {ds : List α} (hds : ∀ d ∈ ds, d ∈ S) :
    value val b ds < b ^ ds.length := by
  have hlt := Nat.ofDigits_lt_base_pow_length h.one_lt (l := ds.reverse.map val) (fun x hx => ?_)
  · simpa [value] using hlt
  · obtain ⟨d, hd, rfl⟩ := List.mem_map.1 hx
    exact h.lt_base d (hds d (List.mem_reverse.1 hd))

/-- A larger first digit outweighs all that follows. -/
theorem value_cons_lt (h : Digits val b S) {d e : α} {ds es : List α} (hds : ∀ x ∈ ds, x ∈ S)
    (hlen : ds.length = es.length) (hlt : val d < val e) :
    value val b (d :: ds) < value val b (e :: es) := by
  have hrest := value_lt h hds
  have hstep : b ^ ds.length * (val d + 1) ≤ b ^ ds.length * val e := Nat.mul_le_mul_left _ hlt
  rw [value_cons, value_cons, ← hlen]
  rw [Nat.mul_add] at hstep
  omega

/-- Two texts of one length that stand for one number are the same. -/
theorem value_inj (h : Digits val b S) {ds es : List α} (hds : ∀ d ∈ ds, d ∈ S)
    (hes : ∀ e ∈ es, e ∈ S) (hlen : ds.length = es.length) (heq : value val b ds = value val b es) :
    ds = es := by
  induction ds generalizing es with
  | nil => exact (List.length_eq_zero_iff.1 hlen.symm).symm
  | cons d ds ih =>
      cases es with
      | nil => exact absurd hlen (by simp)
      | cons e es =>
          obtain ⟨hd, hds⟩ := List.forall_mem_cons.1 hds
          obtain ⟨he, hes⟩ := List.forall_mem_cons.1 hes
          have hlen' : ds.length = es.length := by simpa using hlen
          rcases Nat.lt_trichotomy (val d) (val e) with hlt | hval | hlt
          · exact absurd heq (value_cons_lt h hds hlen' hlt).ne
          · rw [value_cons, value_cons, hval, hlen', Nat.add_right_cancel_iff] at heq
            rw [h.injOn hd he hval, ih hds hes hlen' heq]
          · exact absurd heq (value_cons_lt h hes hlen'.symm hlt).ne'

/-- Texts of one length sort like the numbers they stand for. -/
theorem value_lt_value_iff (h : Digits val b S) {ds es : List α} (hds : ∀ d ∈ ds, d ∈ S)
    (hes : ∀ e ∈ es, e ∈ S) (hlen : ds.length = es.length) :
    value val b ds < value val b es ↔ ds < es := by
  induction ds generalizing es with
  | nil =>
      rw [List.length_eq_zero_iff.1 hlen.symm]
      exact iff_of_false (lt_irrefl _) (List.not_lt_nil _)
  | cons d ds ih =>
      cases es with
      | nil => exact absurd hlen (by simp)
      | cons e es =>
          obtain ⟨hd, hds⟩ := List.forall_mem_cons.1 hds
          obtain ⟨he, hes⟩ := List.forall_mem_cons.1 hes
          have hlen' : ds.length = es.length := by simpa using hlen
          rw [List.cons_lt_cons_iff, ← h.lt_iff d hd e he, ← ih hds hes hlen']
          rcases Nat.lt_trichotomy (val d) (val e) with hlt | hval | hlt
          · exact iff_of_true (value_cons_lt h hds hlen' hlt) (Or.inl hlt)
          · rw [value_cons, value_cons, hval, hlen', Nat.add_lt_add_iff_right]
            simp [h.injOn hd he hval]
          · have hge := value_cons_lt h hes hlen'.symm hlt
            refine iff_of_false hge.asymm ?_
            rintro (hlt' | ⟨rfl, -⟩)
            · exact hlt.asymm hlt'
            · exact lt_irrefl _ hlt

/-- The numbers that numerals of the given widths, written one after the other, stand for. -/
def fields (val : α → ℕ) (b : ℕ) : List ℕ → List α → List ℕ
  | [], _ => []
  | w :: ws, ds => value val b (ds.take w) :: fields val b ws (ds.drop w)

/-- Two texts with first parts of one length compare like these, and on equal first parts like the
    rest. -/
theorem append_lt_append_iff {ds es : List α} (hlen : ds.length = es.length)
    (ds' es' : List α) : ds ++ ds' < es ++ es' ↔ ds < es ∨ ds = es ∧ ds' < es' := by
  induction ds generalizing es with
  | nil =>
      rw [List.length_eq_zero_iff.1 hlen.symm]
      simp [List.not_lt_nil]
  | cons d ds ih =>
      cases es with
      | nil => exact absurd hlen (by simp)
      | cons e es =>
          rw [List.cons_append, List.cons_append, List.cons_lt_cons_iff, List.cons_lt_cons_iff,
            ih (by simpa using hlen), List.cons.injEq]
          tauto

/-- **Fields sort like the text**: comparing the numbers one after the other is comparing the digits
    one after the other. -/
theorem fields_lt_fields_iff (h : Digits val b S) {ws : List ℕ} {ds es : List α}
    (hds : ∀ d ∈ ds, d ∈ S) (hes : ∀ e ∈ es, e ∈ S) (hlen : ds.length = ws.sum)
    (hlen' : es.length = ws.sum) : fields val b ws ds < fields val b ws es ↔ ds < es := by
  induction ws generalizing ds es with
  | nil =>
      rw [List.length_eq_zero_iff.1 hlen, List.length_eq_zero_iff.1 hlen']
      exact iff_of_false (List.not_lt_nil _) (List.not_lt_nil _)
  | cons w ws ih =>
      rw [List.sum_cons] at hlen hlen'
      have htake : ∀ d ∈ ds.take w, d ∈ S := fun d hd => hds d (List.mem_of_mem_take hd)
      have htake' : ∀ e ∈ es.take w, e ∈ S := fun e he => hes e (List.mem_of_mem_take he)
      have hw : (ds.take w).length = (es.take w).length := by
        rw [List.length_take, List.length_take]
        omega
      have hdrop : (ds.drop w).length = ws.sum := by
        rw [List.length_drop]
        omega
      have hdrop' : (es.drop w).length = ws.sum := by
        rw [List.length_drop]
        omega
      have hrest := ih (fun d hd => hds d (List.mem_of_mem_drop hd))
        (fun e he => hes e (List.mem_of_mem_drop he)) hdrop hdrop'
      have hfirst : value val b (ds.take w) = value val b (es.take w) ↔ ds.take w = es.take w :=
        ⟨value_inj h htake htake' hw, fun heq => by rw [heq]⟩
      rw [fields, fields, List.cons_lt_cons_iff, value_lt_value_iff h htake htake' hw, hfirst, hrest,
        ← append_lt_append_iff hw, List.take_append_drop, List.take_append_drop]

end Radix
