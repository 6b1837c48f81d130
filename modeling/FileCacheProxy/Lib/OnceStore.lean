import Mathlib.Data.List.Basic

set_option autoImplicit false

/-! # A store whose names are given once

Values are put under names that have never been given before, and removed. The store is described by
the list of what has happened to it, the newest first: a name is held from its `put` on until its
`remove`. A question about a name can come at any time, before its `put` or after its `remove`: what is
answered may be in the name itself. -/

namespace OnceStore

variable {ι κ : Type*}

inductive Op (ι κ : Type*) where
  | put (name : ι) (value : κ)
  | remove (name : ι)
  | read (name : ι)
  deriving DecidableEq

def Op.name : Op ι κ → ι
  | .put name _ | .remove name | .read name => name

variable [DecidableEq ι]

/-- What is held under a name. -/
def held : List (Op ι κ) → ι → Option κ
  | [], _ => none
  | .put i v :: h, name => if i = name then some v else held h name
  | .remove i :: h, name => if i = name then none else held h name
  | .read _ :: h, name => held h name

/-- The value a name was given for, whether it is still held or not. -/
def value : List (Op ι κ) → ι → Option κ
  | [], _ => none
  | .put i v :: h, name => if i = name then some v else value h name
  | .remove _ :: h, name | .read _ :: h, name => value h name

/-- The operation can be the next one: a new name for `put`, one that is held for `remove`. -/
def Possible (h : List (Op ι κ)) : Op ι κ → Prop
  | .put name _ => (value h name).isNone
  | .remove name => (held h name).isSome
  | .read _ => True

instance (h : List (Op ι κ)) (op : Op ι κ) : Decidable (Possible h op) :=
  match op with
  | .put name _ => inferInstanceAs (Decidable ((value h name).isNone = true))
  | .remove name => inferInstanceAs (Decidable ((held h name).isSome = true))
  | .read _ => isTrue trivial

/-- Every operation was possible when it was made. -/
def Legal : List (Op ι κ) → Prop
  | [] => True
  | op :: h => Possible h op ∧ Legal h

theorem Legal.of_append {a b : List (Op ι κ)} (h : Legal (a ++ b)) : Legal b := by
  induction a with
  | nil => exact h
  | cons op a ih => exact ih h.2

/-- What is held was given. -/
theorem value_of_held {h : List (Op ι κ)} {name : ι} {v : κ} (hheld : held h name = some v) :
    value h name = some v := by
  induction h with
  | nil => cases hheld
  | cons op h ih =>
      cases op with
      | put i w =>
          by_cases hi : i = name
          · simpa [held, value, hi] using hheld
          · simp only [held, value, if_neg hi] at hheld ⊢
            exact ih hheld
      | remove i =>
          by_cases hi : i = name
          · simp [held, hi] at hheld
          · simp only [held, if_neg hi] at hheld
            exact ih hheld
      | read i => exact ih hheld

theorem value_isSome_of_put {h : List (Op ι κ)} {name : ι} {v : κ} (hput : .put name v ∈ h) :
    (value h name).isSome := by
  induction h with
  | nil => cases hput
  | cons op h ih =>
      cases op with
      | put i w =>
          by_cases hi : i = name
          · simp [value, hi]
          · have hne : ¬ name = i := fun heq => hi heq.symm
            have hmem : Op.put name v ∈ h := by simpa [hne] using hput
            simpa [value, hi] using ih hmem
      | remove i => exact ih (by simpa using hput)
      | read i => exact ih (by simpa using hput)

/-- What is removed was given. -/
theorem value_isSome_of_remove {h : List (Op ι κ)} (hl : Legal h) {name : ι}
    (hremove : .remove name ∈ h) : (value h name).isSome := by
  induction h with
  | nil => cases hremove
  | cons op h ih =>
      obtain ⟨hop, hl⟩ := hl
      cases op with
      | put i w =>
          by_cases hi : i = name
          · simp [value, hi]
          · simpa [value, hi] using ih hl (by simpa using hremove)
      | remove i =>
          rcases List.mem_cons.1 hremove with heq | hmem
          · cases heq
            obtain ⟨v, hv⟩ := Option.isSome_iff_exists.1 hop
            show (value h name).isSome
            rw [value_of_held hv]
            rfl
          · exact ih hl hmem
      | read i => exact ih hl (by simpa using hremove)

/-- **A name stands for one value**, the one it was put with. -/
theorem value_eq_some_iff {h : List (Op ι κ)} (hl : Legal h) {name : ι} {v : κ} :
    value h name = some v ↔ .put name v ∈ h := by
  induction h with
  | nil => simp [value]
  | cons op h ih =>
      obtain ⟨hop, hl⟩ := hl
      cases op with
      | put i w =>
          by_cases hi : i = name
          · subst hi
            have hput : Op.put i v ∉ h := by
              intro hmem
              rw [Possible, ← Option.not_isSome, value_isSome_of_put hmem] at hop
              cases hop
            simp [value, hput, eq_comm]
          · have hne : ¬ name = i := fun heq => hi heq.symm
            simp [value, hi, hne, ih hl]
      | remove i => simp [value, ih hl]
      | read i => simp [value, ih hl]

/-- **What is held** is what was put and not removed. -/
theorem held_eq_some_iff {h : List (Op ι κ)} (hl : Legal h) {name : ι} {v : κ} :
    held h name = some v ↔ .put name v ∈ h ∧ .remove name ∉ h := by
  induction h with
  | nil => simp [held]
  | cons op h ih =>
      obtain ⟨hop, hl⟩ := hl
      cases op with
      | put i w =>
          by_cases hi : i = name
          · subst hi
            rw [Possible, Option.isNone_iff_eq_none] at hop
            have hput : Op.put i v ∉ h := by
              intro hmem
              rw [(value_eq_some_iff hl).2 hmem] at hop
              cases hop
            have hremove : Op.remove i ∉ h := by
              intro hmem
              have hsome := value_isSome_of_remove hl hmem
              rw [hop] at hsome
              cases hsome
            simp [held, hput, hremove, eq_comm]
          · have hne : ¬ name = i := fun heq => hi heq.symm
            simp [held, hi, hne, ih hl]
      | remove i =>
          by_cases hi : i = name
          · simp [held, hi]
          · have hne : ¬ name = i := fun heq => hi heq.symm
            simp [held, hi, hne, ih hl]
      | read i => simp [held, ih hl]

/-- What is held has not been removed. -/
theorem not_mem_of_held {h : List (Op ι κ)} (hl : Legal h) {name : ι}
    (hheld : (held h name).isSome) : .remove name ∉ h := by
  obtain ⟨v, hv⟩ := Option.isSome_iff_exists.1 hheld
  exact ((held_eq_some_iff hl).1 hv).2

/-- Behind the removal of a name there are only questions about it. -/
theorem read_of_removed {newer older : List (Op ι κ)} {op : Op ι κ}
    (hl : Legal (newer ++ op :: older)) (hremove : .remove op.name ∈ older) :
    op = .read op.name := by
  obtain ⟨hop, hlegal⟩ := hl.of_append
  cases op with
  | put i v =>
      have hsome := value_isSome_of_remove hlegal hremove
      rw [Possible, ← Option.not_isSome] at hop
      rw [Op.name] at hsome
      rw [hsome] at hop
      cases hop
  | remove i => exact absurd hremove (not_mem_of_held hlegal hop)
  | read i => rfl

/-- A name is given once. -/
theorem not_put {newer older : List (Op ι κ)} {name : ι} {v w : κ}
    (hl : Legal (newer ++ .put name v :: older)) : .put name w ∉ older := by
  intro hmem
  have hop := hl.of_append.1
  rw [Possible, ← Option.not_isSome, value_isSome_of_put hmem] at hop
  cases hop

end OnceStore
