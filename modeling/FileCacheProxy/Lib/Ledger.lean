import Mathlib.Algebra.BigOperators.Group.List.Basic
import Mathlib.Algebra.Order.Ring.Int
import Mathlib.Data.List.Nodup
import Mathlib.Tactic.Ring

set_option autoImplicit false

/-! # Ledgers of resources

A program that acquires and releases resources, as far as the resources are concerned, is the list
of its acquisitions and releases. `Ledger.balance r` is how often `r` is held, `Ledger.Balanced` says
that everything acquired was released once and nothing else was. Identities may be used again after
a release, as addresses and descriptors are, so nothing here asks for distinct names. -/

namespace Ledger

variable {ρ : Type*}

inductive Entry (ρ : Type*) where
  | acquire (r : ρ)
  | release (r : ρ)
  deriving DecidableEq

variable [DecidableEq ρ]

def Entry.delta (r : ρ) : Entry ρ → ℤ
  | .acquire r' => if r' = r then 1 else 0
  | .release r' => if r' = r then -1 else 0

/-- The acquisitions of `r` minus its releases. -/
def balance (r : ρ) (log : List (Entry ρ)) : ℤ :=
  (log.map (Entry.delta r)).sum

@[simp] theorem balance_nil (r : ρ) : balance r [] = 0 := rfl

@[simp] theorem balance_cons (r : ρ) (e : Entry ρ) (log : List (Entry ρ)) :
    balance r (e :: log) = e.delta r + balance r log := by
  simp [balance]

@[simp] theorem balance_append (r : ρ) (log log' : List (Entry ρ)) :
    balance r (log ++ log') = balance r log + balance r log' := by
  simp [balance]

theorem balance_eq_count (r : ρ) (log : List (Entry ρ)) :
    balance r log = log.count (.acquire r) - log.count (.release r) := by
  induction log with
  | nil => rfl
  | cons e log ih =>
      rw [balance_cons, ih]
      cases e with
      | acquire r' =>
          by_cases hr : r' = r
          · simp [Entry.delta, hr]
            ring
          · simp [Entry.delta, hr]
      | release r' =>
          by_cases hr : r' = r
          · simp [Entry.delta, hr]
            ring
          · simp [Entry.delta, hr]

/-- Nothing is released that was not acquired before. -/
def Covered (log : List (Entry ρ)) : Prop :=
  ∀ n r, 0 ≤ balance r (log.take n)

/-- Everything acquired has been released exactly once, and nothing else has. -/
def Balanced (log : List (Entry ρ)) : Prop :=
  Covered log ∧ ∀ r, balance r log = 0

/-- What is acquired and never released spoils the balance. -/
theorem not_balanced_of_acquired {r : ρ} {log : List (Entry ρ)} (h : .acquire r ∈ log)
    (hno : .release r ∉ log) : ¬ Balanced log := by
  intro hbal
  have hpos : 0 < log.count (.acquire r) := List.count_pos_iff.2 h
  have hzero := hbal.2 r
  rw [balance_eq_count, List.count_eq_zero_of_not_mem hno] at hzero
  omega

/-- So does what is released more often than it is acquired. -/
theorem not_balanced_of_count_lt {r : ρ} {log : List (Entry ρ)}
    (h : log.count (.acquire r) < log.count (.release r)) : ¬ Balanced log := by
  intro hbal
  have hzero := hbal.2 r
  rw [balance_eq_count] at hzero
  omega

theorem balance_map_acquire (r : ρ) (rs : List ρ) : balance r (rs.map .acquire) = rs.count r := by
  induction rs with
  | nil => rfl
  | cons r' rs ih =>
      rw [List.map_cons, balance_cons, ih, List.count_cons]
      by_cases hr : r' = r
      · simp [Entry.delta, hr]
        ring
      · simp [Entry.delta, hr]

theorem balance_map_release (r : ρ) (rs : List ρ) : balance r (rs.map .release) = -rs.count r := by
  induction rs with
  | nil => rfl
  | cons r' rs ih =>
      rw [List.map_cons, balance_cons, ih, List.count_cons]
      by_cases hr : r' = r
      · simp [Entry.delta, hr]
      · simp [Entry.delta, hr]

/-- Acquiring some resources and then releasing them is balanced. -/
theorem balanced_acquire_release (rs : List ρ) :
    Balanced (rs.map .acquire ++ rs.map .release) := by
  refine ⟨fun n r => ?_, fun r => ?_⟩
  · rw [List.take_append, balance_append, ← List.map_take, ← List.map_take, balance_map_acquire,
      balance_map_release, List.length_map]
    by_cases hn : n ≤ rs.length
    · rw [Nat.sub_eq_zero_of_le hn]
      simp
    · have hle : (rs.take (n - rs.length)).count r ≤ rs.count r :=
        (List.take_sublist _ rs).count_le r
      rw [List.take_of_length_le (not_le.1 hn).le]
      omega
  · rw [balance_append, balance_map_acquire, balance_map_release]
    omega

/-- The counters of all resources after `log`. -/
def post (counters : ρ → ℤ) (log : List (Entry ρ)) : ρ → ℤ :=
  fun r => counters r + balance r log

/-- `held` lists, once each, resources that are held after `log`; nothing was released too often. -/
structure Holds (log : List (Entry ρ)) (held : List ρ) : Prop where
  nonneg : ∀ r, 0 ≤ balance r log
  nodup : held.Nodup
  pos : ∀ r ∈ held, 0 < balance r log

theorem holds_nil : Holds ([] : List (Entry ρ)) [] :=
  ⟨fun _ => le_rfl, List.nodup_nil, fun _ h => (by cases h)⟩

theorem Holds.sublist {log : List (Entry ρ)} {held held' : List ρ} (h : Holds log held)
    (hsub : held'.Sublist held) : Holds log held' :=
  ⟨h.nonneg, h.nodup.sublist hsub, fun r hr => h.pos r (hsub.subset hr)⟩

/-- Acquiring more does not take away what is held. -/
theorem Holds.acquire_other {log : List (Entry ρ)} {held : List ρ} (h : Holds log held) (r : ρ) :
    Holds (log ++ [.acquire r]) held := by
  have hmono : ∀ r', balance r' log ≤ balance r' (log ++ [.acquire r]) := by
    intro r'
    simp only [balance_append, balance_cons, balance_nil, Entry.delta]
    split_ifs <;> omega
  exact ⟨fun r' => (h.nonneg r').trans (hmono r'), h.nodup,
    fun r' hr' => (h.pos r' hr').trans_le (hmono r')⟩

/-- What is not held and then acquired is held in addition. -/
theorem Holds.acquire {log : List (Entry ρ)} {held : List ρ} (h : Holds log held) {r : ρ}
    (hfree : ¬ 0 < balance r log) : Holds (log ++ [.acquire r]) (held ++ [r]) := by
  have hmore := h.acquire_other r
  have hnew : r ∉ held := fun hmem => hfree (h.pos r hmem)
  refine ⟨hmore.nonneg, ?_, fun r' hr' => ?_⟩
  · exact h.nodup.append (List.nodup_singleton r) (List.disjoint_singleton.2 hnew)
  · rcases List.mem_append.1 hr' with hold | hone
    · exact hmore.pos r' hold
    · have hr : r' = r := List.mem_singleton.1 hone
      have hnonneg := h.nonneg r
      rw [hr]
      simp only [balance_append, balance_cons, balance_nil, Entry.delta, if_true]
      omega

/-- The same for what may be nothing. -/
theorem Holds.acquire_toList {log : List (Entry ρ)} {held : List ρ} (h : Holds log held)
    {r : Option ρ} (hfree : ∀ r' ∈ r, ¬ 0 < balance r' log) :
    Holds (log ++ (r.map Entry.acquire).toList) (held ++ r.toList) := by
  cases r with
  | none => simpa using h
  | some r => exact h.acquire (hfree r rfl)

/-- Releasing the last of the resources held leaves the others. -/
theorem Holds.release {log : List (Entry ρ)} {held : List ρ} {r : ρ} (h : Holds log (held ++ [r])) :
    Holds (log ++ [.release r]) held := by
  have hr : 0 < balance r log := h.pos r (by simp)
  have hnot : r ∉ held := List.disjoint_singleton.1 (List.disjoint_of_nodup_append h.nodup)
  refine ⟨fun r' => ?_, h.nodup.sublist (List.sublist_append_left held [r]), fun r' hr' => ?_⟩
  · have hnonneg := h.nonneg r'
    simp only [balance_append, balance_cons, balance_nil, Entry.delta]
    split_ifs with heq
    · subst heq
      omega
    · omega
  · have hpos := h.pos r' (List.mem_append_left [r] hr')
    have hne : r ≠ r' := fun heq => hnot (heq ▸ hr')
    simp only [balance_append, balance_cons, balance_nil, Entry.delta, if_neg hne]
    omega

end Ledger
