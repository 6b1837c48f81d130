import Mathlib.Algebra.Order.Ring.Nat
import Mathlib.Data.List.Basic

set_option autoImplicit false

/-! # Runs of a labelled step function

A system is a partial step function `step : σ → ε → Option σ`: the label says who moves and what the
outside world answers, `none` means that the move is not possible. A run is a list of labels, so a
statement about all runs is a statement about all interleavings and all answers. -/

namespace Transition

variable {σ ε : Type*}

/-- The state at the end of a run, `none` if one of its moves is not possible. -/
def exec (step : σ → ε → Option σ) : σ → List ε → Option σ
  | s, [] => some s
  | s, e :: es => (step s e).bind (fun s' => exec step s' es)

/-- Every move of the run is made in a state in which `ok` allows it. -/
def Along (step : σ → ε → Option σ) (ok : σ → ε → Prop) : σ → List ε → Prop
  | _, [] => True
  | s, e :: es => ok s e ∧ ∀ s', step s e = some s' → Along step ok s' es

/-- `P` holds in every state the run goes through, from the first to the last. -/
def Always (step : σ → ε → Option σ) (P : σ → Prop) : σ → List ε → Prop
  | s, [] => P s
  | s, e :: es => P s ∧ ∀ s', step s e = some s' → Always step P s' es

variable {step : σ → ε → Option σ}

theorem exec_cons {s t : σ} {e : ε} {es : List ε} (h : exec step s (e :: es) = some t) :
    ∃ s', step s e = some s' ∧ exec step s' es = some t :=
  Option.bind_eq_some_iff.1 h

theorem Always.head {P : σ → Prop} {s : σ} {es : List ε} (h : Always step P s es) : P s := by
  cases es with
  | nil => exact h
  | cons e es => exact h.1

theorem Always.imp {P Q : σ → Prop} (hPQ : ∀ s, P s → Q s) {s : σ} {es : List ε}
    (h : Always step P s es) : Always step Q s es := by
  induction es generalizing s with
  | nil => exact hPQ s h
  | cons e es ih => exact ⟨hPQ s h.1, fun s' hs' => ih (h.2 s' hs')⟩

/-- The invariant rule: what holds at first and is kept by every allowed move holds throughout. -/
theorem always_of_step {ok : σ → ε → Prop} {I : σ → Prop}
    (hstep : ∀ s e s', I s → ok s e → step s e = some s' → I s') {s : σ} {es : List ε}
    (h0 : I s) (hok : Along step ok s es) : Always step I s es := by
  induction es generalizing s with
  | nil => exact h0
  | cons e es ih =>
      refine ⟨h0, fun s' hs' => ?_⟩
      exact ih (hstep s e s' h0 hok.1 hs') (hok.2 s' hs')

/-- What every move keeps holds at the end of a run. -/
theorem exec_inv {I : σ → Prop} (hstep : ∀ s e s', I s → step s e = some s' → I s') {s t : σ}
    {es : List ε} (h0 : I s) (hrun : exec step s es = some t) : I t := by
  induction es generalizing s with
  | nil =>
      cases hrun
      exact h0
  | cons e es ih =>
      obtain ⟨s', hs', hrest⟩ := exec_cons hrun
      exact ih (hstep s e s' h0 hs') hrest

theorem exec_append {s t u : σ} {es fs : List ε} (h₁ : exec step s es = some t)
    (h₂ : exec step t fs = some u) : exec step s (es ++ fs) = some u := by
  induction es generalizing s with
  | nil =>
      cases h₁
      exact h₂
  | cons e es ih =>
      obtain ⟨s', hs', hrest⟩ := exec_cons h₁
      rw [List.cons_append, exec, hs']
      exact ih hrest

theorem exec_snoc {s t u : σ} {es : List ε} {e : ε} (h : exec step s es = some t)
    (hstep : step t e = some u) : exec step s (es ++ [e]) = some u := by
  refine exec_append h ?_
  rw [exec, hstep]
  rfl

/-- Progress: where an inner move that lowers a measure is possible in every state short of the goal,
    some run of inner moves reaches the goal. -/
theorem exists_inner_exec_of_measure {I goal : σ → Prop} {inner : ε → Prop} (μ : σ → ℕ)
    (hstep : ∀ s, I s → ¬ goal s → ∃ e s', inner e ∧ step s e = some s' ∧ I s' ∧ μ s' < μ s) {s : σ}
    (h0 : I s) : ∃ es t, (∀ e ∈ es, inner e) ∧ exec step s es = some t ∧ I t ∧ goal t := by
  induction hμ : μ s using Nat.strongRecOn generalizing s with
  | ind k ih =>
      by_cases hgoal : goal s
      · exact ⟨[], s, by simp, rfl, h0, hgoal⟩
      · obtain ⟨e, s', he, hs', hI, hlt⟩ := hstep s h0 hgoal
        obtain ⟨es, t, hes, hrun, ht⟩ := ih (μ s') (hμ ▸ hlt) hI rfl
        exact ⟨e :: es, t, List.forall_mem_cons.2 ⟨he, hes⟩, by rw [exec, hs']; exact hrun, ht⟩

/-- Progress where any move will do. -/
theorem exists_exec_of_measure {I goal : σ → Prop} (μ : σ → ℕ)
    (hstep : ∀ s, I s → ¬ goal s → ∃ e s', step s e = some s' ∧ I s' ∧ μ s' < μ s) {s : σ}
    (h0 : I s) : ∃ es t, exec step s es = some t ∧ I t ∧ goal t := by
  have hany : ∀ s, I s → ¬ goal s →
      ∃ e s', True ∧ step s e = some s' ∧ I s' ∧ μ s' < μ s := by
    intro s hs hgoal
    obtain ⟨e, s', hmove⟩ := hstep s hs hgoal
    exact ⟨e, s', trivial, hmove⟩
  obtain ⟨es, t, -, hrun, ht⟩ := exists_inner_exec_of_measure μ hany h0
  exact ⟨es, t, hrun, ht⟩

/-- What every inner move keeps holds at the end of a run of inner moves. -/
theorem exec_inner_inv {I : σ → Prop} {inner : ε → Prop}
    (hstep : ∀ s e s', I s → inner e → step s e = some s' → I s') {s t : σ} {es : List ε} (h0 : I s)
    (hinner : ∀ e ∈ es, inner e) (hrun : exec step s es = some t) : I t := by
  induction es generalizing s with
  | nil =>
      cases hrun
      exact h0
  | cons e es ih =>
      obtain ⟨s', hs', hrest⟩ := exec_cons hrun
      obtain ⟨he, hes⟩ := List.forall_mem_cons.1 hinner
      exact ih (hstep s e s' h0 he hs') hes hrest

/-- Where every move lowers a measure by what it costs, a run costs no more than the measure. -/
theorem exec_cost_le {I : σ → Prop} {inner : ε → Prop} (μ : σ → ℕ) (cost : ε → ℕ)
    (hstep : ∀ s e s', I s → inner e → step s e = some s' → I s' ∧ μ s' + cost e ≤ μ s) {s t : σ}
    {es : List ε} (h0 : I s) (hinner : ∀ e ∈ es, inner e) (hrun : exec step s es = some t) :
    I t ∧ (es.map cost).sum + μ t ≤ μ s := by
  induction es generalizing s with
  | nil =>
      cases hrun
      exact ⟨h0, by simp⟩
  | cons e es ih =>
      obtain ⟨s', hs', hrest⟩ := exec_cons hrun
      obtain ⟨he, hes⟩ := List.forall_mem_cons.1 hinner
      obtain ⟨hI, hle⟩ := hstep s e s' h0 he hs'
      obtain ⟨hIt, hcost⟩ := ih hI hes hrest
      refine ⟨hIt, ?_⟩
      rw [List.map_cons, List.sum_cons]
      omega

/-- A run of moves that lower a measure is no longer than the measure. -/
theorem exec_length_le {I : σ → Prop} {inner : ε → Prop} (μ : σ → ℕ)
    (hstep : ∀ s e s', I s → inner e → step s e = some s' → I s' ∧ μ s' < μ s) {s t : σ}
    {es : List ε} (h0 : I s) (hinner : ∀ e ∈ es, inner e) (hrun : exec step s es = some t) :
    I t ∧ es.length + μ t ≤ μ s := by
  have hcost := exec_cost_le μ (fun _ => 1) hstep h0 hinner hrun
  simpa using hcost

/-- What holds throughout a run holds at its end. -/
theorem Always.last {P : σ → Prop} {s t : σ} {es : List ε} (h : Always step P s es)
    (hrun : exec step s es = some t) : P t := by
  induction es generalizing s with
  | nil =>
      cases hrun
      exact h
  | cons e es ih =>
      obtain ⟨s', hs', hrest⟩ := exec_cons hrun
      exact ih (h.2 s' hs') hrest

/-- Where a move keeps the invariant exactly when it is allowed, the runs that keep it throughout are
    the runs of allowed moves. -/
theorem always_iff_along {ok : σ → ε → Prop} {I : σ → Prop}
    (hstep : ∀ s e s', I s → step s e = some s' → (I s' ↔ ok s e)) {s : σ} {es : List ε}
    (h0 : I s) (hrun : (exec step s es).isSome) : Always step I s es ↔ Along step ok s es := by
  refine ⟨fun h => ?_, always_of_step (fun s e s' hs hok hs' => (hstep s e s' hs hs').2 hok) h0⟩
  induction es generalizing s with
  | nil => trivial
  | cons e es ih =>
      obtain ⟨t, ht⟩ := Option.isSome_iff_exists.1 hrun
      obtain ⟨s', hs', hrest⟩ := exec_cons ht
      refine ⟨(hstep s e s' h0 hs').1 (h.2 s' hs').head, fun s₁ hs₁ => ?_⟩
      rw [← Option.some.inj (hs'.symm.trans hs₁)]
      exact ih (h.2 s' hs').head (Option.isSome_iff_exists.2 ⟨t, hrest⟩) (h.2 s' hs')

/-- Two conditions that agree on the states a run can be in allow the same runs. -/
theorem along_congr {ok ok' : σ → ε → Prop} {I : σ → Prop}
    (hstep : ∀ s e s', I s → step s e = some s' → I s') (hiff : ∀ s e, I s → (ok s e ↔ ok' s e))
    {s : σ} {es : List ε} (h0 : I s) : Along step ok s es ↔ Along step ok' s es := by
  induction es generalizing s with
  | nil => exact Iff.rfl
  | cons e es ih =>
      refine and_congr (hiff s e h0) (forall_congr' (fun s' => ?_))
      exact imp_congr_right (fun hs' => ih (hstep s e s' h0 hs'))

theorem along_cons_iff {ok : σ → ε → Prop} {s s' : σ} {e : ε} {es : List ε}
    (h : step s e = some s') : Along step ok s (e :: es) ↔ ok s e ∧ Along step ok s' es := by
  constructor
  · exact fun ha => ⟨ha.1, ha.2 s' h⟩
  · rintro ⟨hok, ha⟩
    refine ⟨hok, fun s₁ hs₁ => ?_⟩
    rwa [← Option.some.inj (h.symm.trans hs₁)]

theorem along_cons_iff_of_none {ok : σ → ε → Prop} {s : σ} {e : ε} {es : List ε}
    (h : step s e = none) : Along step ok s (e :: es) ↔ ok s e := by
  refine ⟨fun ha => ha.1, fun hok => ⟨hok, fun s₁ hs₁ => ?_⟩⟩
  exact absurd (h.symm.trans hs₁) (by simp)

/-- Whether a concrete run is allowed can be computed. -/
instance Along.decidable (ok : σ → ε → Prop) [∀ s e, Decidable (ok s e)] :
    ∀ s es, Decidable (Along step ok s es)
  | _, [] => isTrue trivial
  | s, e :: es =>
      match h : step s e with
      | none => decidable_of_iff' (ok s e) (along_cons_iff_of_none h)
      | some s' =>
          have := Along.decidable ok s' es
          decidable_of_iff' (ok s e ∧ Along step ok s' es) (along_cons_iff h)

end Transition
