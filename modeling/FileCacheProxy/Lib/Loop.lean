import Mathlib.Data.Nat.Notation
import Mathlib.Tactic.Common

set_option autoImplicit false

/-! # While loops with a pass budget

`Loop.run cond body fuel s` is `while (cond s) s = body s`, cut off after `fuel` passes. A result
`some t` means the loop was left in state `t`; `none` means the budget ran out, or a pass did not
come back itself (`body` is partial for the same reason). The budget is only a means to keep the
definition structural: `run_total` turns a measure into a budget that is enough. -/

namespace Loop

variable {σ : Type}

/-- `while (cond s) s = body s`, for at most `fuel` passes. -/
def run (cond : σ → Bool) (body : σ → Option σ) : ℕ → σ → Option σ
  | 0, s => if cond s then none else some s
  | fuel + 1, s => if cond s then (body s).bind (run cond body fuel) else some s

variable {cond : σ → Bool} {body : σ → Option σ}

@[simp] theorem run_of_not {fuel : ℕ} {s : σ} (h : cond s = false) :
    run cond body fuel s = some s := by
  cases fuel <;> simp [run, h]

theorem run_succ {fuel : ℕ} {s s' : σ} (h : cond s = true) (hb : body s = some s') :
    run cond body (fuel + 1) s = run cond body fuel s' := by
  simp [run, h, hb]

/-- Total correctness: an invariant, and a measure that every pass lowers, leave the loop within
    `μ s` passes in a state where the invariant holds and the guard fails. -/
theorem run_total (cond : σ → Bool) (body : σ → Option σ) (Inv : σ → Prop) (μ : σ → ℕ)
    (hpass : ∀ s, Inv s → cond s = true → ∃ s', body s = some s' ∧ Inv s' ∧ μ s' < μ s) :
    ∀ (fuel : ℕ) (s : σ), Inv s → μ s ≤ fuel →
      ∃ t, run cond body fuel s = some t ∧ Inv t ∧ cond t = false := by
  intro fuel
  induction fuel with
  | zero =>
      intro s hs hμ
      cases hc : cond s with
      | false => exact ⟨s, run_of_not hc, hs, hc⟩
      | true =>
          obtain ⟨s', _, _, hlt⟩ := hpass s hs hc
          omega
  | succ fuel ih =>
      intro s hs hμ
      cases hc : cond s with
      | false => exact ⟨s, run_of_not hc, hs, hc⟩
      | true =>
          obtain ⟨s', hb, hs', hlt⟩ := hpass s hs hc
          obtain ⟨t, ht, hinv, hexit⟩ := ih s' hs' (by omega)
          exact ⟨t, by rw [run_succ hc hb, ht], hinv, hexit⟩

/-- Partial correctness: what holds at the start and is kept by every pass holds when the loop is
    left. -/
theorem run_inv (cond : σ → Bool) (body : σ → Option σ) {Inv : σ → Prop}
    (hpass : ∀ s s', Inv s → cond s = true → body s = some s' → Inv s') {fuel : ℕ} {s t : σ}
    (hs : Inv s) (h : run cond body fuel s = some t) : Inv t ∧ cond t = false := by
  induction fuel generalizing s with
  | zero =>
      unfold run at h
      split at h
      · cases h
      · next hc =>
          cases h
          exact ⟨hs, by simpa using hc⟩
  | succ fuel ih =>
      unfold run at h
      split at h
      · next hc =>
          obtain ⟨s', hb, hrest⟩ := Option.bind_eq_some_iff.1 h
          exact ih (hpass s s' hs hc hb) hrest
      · next hc =>
          cases h
          exact ⟨hs, by simpa using hc⟩

/-- The state in which pass `k` begins, counted from 0; `none` when the loop is left before. -/
def stateAt (cond : σ → Bool) (body : σ → Option σ) : ℕ → σ → Option σ
  | 0, s => if cond s then some s else none
  | k + 1, s => if cond s then (body s).bind (stateAt cond body k) else none

/-- The pass after one that begins in `t`. -/
theorem stateAt_succ {k : ℕ} {s t t' : σ} (h : stateAt cond body k s = some t)
    (hb : body t = some t') :
    stateAt cond body (k + 1) s = if cond t' then some t' else none := by
  induction k generalizing s with
  | zero =>
      unfold stateAt at h
      split at h
      · next hc =>
          cases h
          simp only [stateAt, hc, hb, if_true, Option.bind_some]
      · cases h
  | succ k ih =>
      unfold stateAt at h
      split at h
      · next hc =>
          obtain ⟨s', hs', hrest⟩ := Option.bind_eq_some_iff.1 h
          rw [stateAt, if_pos hc, hs', Option.bind_some]
          exact ih hrest
      · cases h

/-- What holds at the start and is kept by every pass holds whenever a pass begins. -/
theorem stateAt_inv (cond : σ → Bool) (body : σ → Option σ) {Inv : σ → Prop}
    (hpass : ∀ s s', Inv s → cond s = true → body s = some s' → Inv s') {k : ℕ} {s t : σ}
    (hs : Inv s) (h : stateAt cond body k s = some t) : Inv t ∧ cond t = true := by
  induction k generalizing s with
  | zero =>
      unfold stateAt at h
      split at h
      · next hc =>
          cases h
          exact ⟨hs, hc⟩
      · cases h
  | succ k ih =>
      unfold stateAt at h
      split at h
      · next hc =>
          obtain ⟨s', hb, hrest⟩ := Option.bind_eq_some_iff.1 h
          exact ih (hpass s s' hs hc hb) hrest
      · cases h

/-- Divergence: an invariant under which the guard never fails keeps the loop going for ever. -/
theorem run_eq_none (cond : σ → Bool) (body : σ → Option σ) {Inv : σ → Prop}
    (hguard : ∀ s, Inv s → cond s = true) (hpass : ∀ s s', Inv s → body s = some s' → Inv s')
    (fuel : ℕ) {s : σ} (h : Inv s) : run cond body fuel s = none := by
  induction fuel generalizing s with
  | zero => simp [run, hguard s h]
  | succ fuel ih =>
      cases hb : body s with
      | none => simp [run, hguard s h, hb]
      | some s' => rw [run_succ (hguard s h) hb, ih (hpass s s' h hb)]

end Loop
