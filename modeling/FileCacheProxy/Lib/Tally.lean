import Mathlib

set_option autoImplicit false

/-! # Weights over a list of places

A system of threads is a list of places, and a move of one thread replaces one entry of it. What the
invariants count (the threads in a critical section, the threads asleep) and what bounds a run (the
statements left) are sums of weights over the list, so a move changes them by the two weights it
involves. -/

namespace Tally

variable {α β : Type*}

/-- The sum of the weights. -/
def tally (f : α → ℕ) (l : List α) : ℕ :=
  (l.map f).sum

@[simp] theorem tally_nil (f : α → ℕ) : tally f [] = 0 := rfl

@[simp] theorem tally_cons (f : α → ℕ) (a : α) (l : List α) :
    tally f (a :: l) = f a + tally f l := by
  simp [tally]

/-- Replacing one entry exchanges its weight. -/
theorem tally_set (f : α → ℕ) {l : List α} {i : ℕ} {a : α} (b : α) (h : l[i]? = some a) :
    tally f (l.set i b) + f a = tally f l + f b := by
  induction l generalizing i with
  | nil => simp at h
  | cons x l ih =>
      cases i with
      | zero =>
          obtain rfl : x = a := by simpa using h
          simp only [List.set_cons_zero, tally_cons]
          omega
      | succ i =>
          have htail := ih (by simpa using h)
          simp only [List.set_cons_succ, tally_cons]
          omega

theorem le_tally (f : α → ℕ) {l : List α} {i : ℕ} {a : α} (h : l[i]? = some a) :
    f a ≤ tally f l :=
  List.single_le_sum (fun _ _ => Nat.zero_le _) _
    (List.mem_map_of_mem (List.mem_of_getElem? h))

theorem tally_eq_zero {f : α → ℕ} {l : List α} : tally f l = 0 ↔ ∀ a ∈ l, f a = 0 := by
  simp [tally, List.sum_eq_zero_iff]

theorem tally_mono {f g : α → ℕ} {l : List α} (h : ∀ a ∈ l, f a ≤ g a) : tally f l ≤ tally g l :=
  List.sum_le_sum h

theorem tally_add (f g : α → ℕ) (l : List α) :
    tally (fun a => f a + g a) l = tally f l + tally g l := by
  induction l with
  | nil => rfl
  | cons a l ih =>
      simp only [tally_cons, ih]
      omega

theorem tally_map (f : β → ℕ) (g : α → β) (l : List α) :
    tally f (l.map g) = tally (fun a => f (g a)) l := by
  simp [tally, Function.comp_def]

/-- Weights of at most `k`. -/
theorem tally_le_mul {f : α → ℕ} {k : ℕ} (h : ∀ a, f a ≤ k) (l : List α) :
    tally f l ≤ k * l.length := by
  induction l with
  | nil => exact Nat.zero_le _
  | cons a l ih =>
      have ha := h a
      rw [tally_cons, List.length_cons, Nat.mul_succ]
      omega

/-- Two entries of weight one or more. -/
theorem two_le_tally {f : α → ℕ} {l : List α} {i j : ℕ} {a b : α} (hij : i ≠ j) (ha : l[i]? = some a)
    (hb : l[j]? = some b) (hfa : 1 ≤ f a) (hfb : 1 ≤ f b) : 2 ≤ tally f l := by
  induction l generalizing i j with
  | nil => simp at ha
  | cons x l ih =>
      cases i with
      | zero =>
          obtain ⟨j, rfl⟩ : ∃ k, j = k + 1 := Nat.exists_eq_succ_of_ne_zero hij.symm
          obtain rfl : x = a := by simpa using ha
          have htail := le_tally f (show l[j]? = some b by simpa using hb)
          rw [tally_cons]
          omega
      | succ i =>
          cases j with
          | zero =>
              obtain rfl : x = b := by simpa using hb
              have htail := le_tally f (show l[i]? = some a by simpa using ha)
              rw [tally_cons]
              omega
          | succ j =>
              have htail := ih (i := i) (j := j) (by omega) (by simpa using ha) (by simpa using hb)
              rw [tally_cons]
              omega

/-- Weights of at most one, of which only one can be there. -/
theorem tally_le_one {f : α → ℕ} {l : List α} (hle : ∀ a ∈ l, f a ≤ 1)
    (hone : ∀ (i j : ℕ) (a b : α), l[i]? = some a → l[j]? = some b → f a ≠ 0 → f b ≠ 0 → i = j) :
    tally f l ≤ 1 := by
  induction l with
  | nil => exact Nat.zero_le 1
  | cons x l ih =>
      obtain ⟨hx, hl⟩ := List.forall_mem_cons.1 hle
      have htail : tally f l ≤ 1 := by
        refine ih hl (fun i j a b ha hb hfa hfb => ?_)
        have hsucc := hone (i + 1) (j + 1) a b (by simpa using ha) (by simpa using hb) hfa hfb
        omega
      by_cases hzero : f x = 0
      · rw [tally_cons]
        omega
      · -- the rest weighs nothing
        have hrest : tally f l = 0 := by
          refine tally_eq_zero.2 (fun b hb => ?_)
          by_contra hfb
          obtain ⟨j, hj⟩ := List.mem_iff_getElem?.1 hb
          have hfirst := hone 0 (j + 1) x b rfl (by simpa using hj) hzero hfb
          omega
        rw [tally_cons]
        omega

end Tally
