import Mathlib

set_option autoImplicit false

/-! # Cutting and stripping sequences

The specification side of every text format below, over an arbitrary alphabet: `Cut.pieces d s`
cuts `s` at every `d` and drops the empty pieces, `Cut.strip p s` removes the `p`-elements at both
ends. `Cut.Runs d s` says what the pieces are without cutting: the maximal stretches of `s` without
`d`, in order (`exists_runs`). `Cut.words p s` cuts at every `p`-element, and `Cut.FirstWord` says
which piece comes first. `findIdx?_cases` is the one fact about index searches that index-arithmetic
code needs: what a search returns, together with the decomposition of the list that it certifies. -/

namespace Cut

variable {α : Type}

/-! ## Index searches -/

theorem findIdx?_cases (p : α → Bool) (xs : List α) :
    (xs.findIdx? p = none ∧ ∀ x ∈ xs, p x = false) ∨
    ∃ a c r, xs = a ++ c :: r ∧ (∀ x ∈ a, p x = false) ∧ p c = true ∧
      xs.findIdx? p = some a.length := by
  induction xs with
  | nil => exact Or.inl ⟨rfl, by simp⟩
  | cons x xs ih =>
      cases hx : p x with
      | true => exact Or.inr ⟨[], x, xs, rfl, by simp, hx, by simp [List.findIdx?_cons, hx]⟩
      | false =>
          rcases ih with ⟨hnone, hall⟩ | ⟨a, c, r, rfl, ha, hc, hsome⟩
          · refine Or.inl ⟨by simp [List.findIdx?_cons, hx, hnone], ?_⟩
            exact List.forall_mem_cons.2 ⟨hx, hall⟩
          · refine Or.inr ⟨x :: a, c, r, rfl, List.forall_mem_cons.2 ⟨hx, ha⟩, hc, ?_⟩
            simp [List.findIdx?_cons, hx, hsome]

/-! ## Maximal runs -/

/-- Positions `i` up to `j`, not included, are positions of `s`, and none of them has a `d`. -/
structure FreeOf (d : α) (s : List α) (i j : ℕ) : Prop where
  le : i ≤ j
  inside : j ≤ s.length
  not_sep : ∀ k, i ≤ k → k < j → s[k]? ≠ some d

/-- A non-empty stretch of `s` without `d` that is part of no larger one. -/
structure IsRun (d : α) (s : List α) (i j : ℕ) : Prop where
  nonempty : i < j
  free : FreeOf d s i j
  maximal : ∀ i' j', i' ≤ i → j ≤ j' → FreeOf d s i' j' → i' = i ∧ j' = j

/-- `rs` are the runs of `s`, each one once, in the order of their positions. -/
structure Runs (d : α) (s : List α) (rs : List (ℕ × ℕ)) : Prop where
  ordered : rs.Pairwise (fun r r' => r.2 < r'.1)
  mem_iff : ∀ i j, (i, j) ∈ rs ↔ IsRun d s i j

/-- A run ends where the sequence does, or at a separator. -/
theorem isRun_iff {d : α} {s : List α} {i j : ℕ} :
    IsRun d s i j ↔ i < j ∧ FreeOf d s i j ∧ (∀ k, k + 1 = i → s[k]? = some d) ∧
      (j < s.length → s[j]? = some d) := by
  constructor
  · intro h
    refine ⟨h.nonempty, h.free, fun k hk => ?_, fun hj => ?_⟩
    · by_contra hne
      have hfree : FreeOf d s k j := by
        refine ⟨by have := h.free.le; omega, h.free.inside, fun l hl hlj => ?_⟩
        rcases Nat.eq_or_lt_of_le hl with rfl | hlt
        · exact hne
        · exact h.free.not_sep l (by omega) hlj
      have := (h.maximal k j (by omega) le_rfl hfree).1
      omega
    · by_contra hne
      have hfree : FreeOf d s i (j + 1) := by
        refine ⟨by have := h.free.le; omega, hj, fun l hl hlj => ?_⟩
        rcases Nat.lt_succ_iff_lt_or_eq.1 hlj with hlt | rfl
        · exact h.free.not_sep l hl hlt
        · exact hne
      have := (h.maximal i (j + 1) le_rfl (Nat.le_succ j) hfree).2
      omega
  · rintro ⟨hlt, hfree, hleft, hright⟩
    refine ⟨hlt, hfree, fun i' j' hi hj hfree' => ⟨?_, ?_⟩⟩
    · by_contra hne
      exact hfree'.not_sep (i - 1) (by omega) (by omega) (hleft (i - 1) (by omega))
    · by_contra hne
      have hinside := hfree'.inside
      exact hfree'.not_sep j (by omega) (by omega) (hright (by omega))

/-- Two runs are one, or there is a separator between them. -/
theorem IsRun.eq_or_apart {d : α} {s : List α} {i j i' j' : ℕ} (h : IsRun d s i j)
    (h' : IsRun d s i' j') : (i = i' ∧ j = j') ∨ j < i' ∨ j' < i := by
  by_cases hapart : j < i' ∨ j' < i
  · exact Or.inr hapart
  · -- the two touch: together they are a stretch without separator
    refine Or.inl ?_
    have hle := h.free.le
    have hle' := h'.free.le
    have hinside := h.free.inside
    have hinside' := h'.free.inside
    have hunion : FreeOf d s (min i i') (max j j') := by
      refine ⟨by omega, by omega, fun k hk hkj => ?_⟩
      by_cases hin : i ≤ k ∧ k < j
      · exact h.free.not_sep k hin.1 hin.2
      · exact h'.free.not_sep k (by omega) (by omega)
    have heq := h.maximal _ _ (min_le_left i i') (le_max_left j j') hunion
    have heq' := h'.maximal _ _ (min_le_right i i') (le_max_right j j') hunion
    omega

theorem getElem?_behind (d : α) (t s : List α) (k : ℕ) :
    (t ++ d :: s)[t.length + 1 + k]? = s[k]? := by
  rw [List.getElem?_append_right (by omega)]
  have hk : t.length + 1 + k - t.length = k + 1 := by omega
  rw [hk, List.getElem?_cons_succ]

/-- Behind a separator a sequence has the runs of its rest. -/
theorem isRun_behind {d : α} {t s : List α} {i j : ℕ} :
    IsRun d (t ++ d :: s) (t.length + 1 + i) (t.length + 1 + j) ↔ IsRun d s i j := by
  have hlen : (t ++ d :: s).length = t.length + 1 + s.length := by
    rw [List.length_append, List.length_cons]
    omega
  have hfree : FreeOf d (t ++ d :: s) (t.length + 1 + i) (t.length + 1 + j) ↔ FreeOf d s i j := by
    constructor
    · intro h
      have hle := h.le
      have hinside := h.inside
      refine ⟨by omega, by omega, fun k hk hkj => ?_⟩
      rw [← getElem?_behind d t s k]
      exact h.not_sep _ (by omega) (by omega)
    · intro h
      have hle := h.le
      have hinside := h.inside
      refine ⟨by omega, by omega, fun k hk hkj => ?_⟩
      obtain ⟨l, rfl⟩ : ∃ l, k = t.length + 1 + l := ⟨k - (t.length + 1), by omega⟩
      rw [getElem?_behind]
      exact h.not_sep l (by omega) (by omega)
  have hleft : (∀ k, k + 1 = t.length + 1 + i → (t ++ d :: s)[k]? = some d) ↔
      ∀ k, k + 1 = i → s[k]? = some d := by
    constructor
    · intro h k hk
      rw [← getElem?_behind d t s k]
      exact h _ (by omega)
    · intro h k hk
      cases i with
      | zero =>
          obtain rfl : k = t.length := by omega
          simp
      | succ i =>
          obtain rfl : k = t.length + 1 + i := by omega
          rw [getElem?_behind]
          exact h i rfl
  rw [isRun_iff, isRun_iff, hfree, hleft, getElem?_behind, hlen]
  simp only [Nat.add_lt_add_iff_left]

/-- A sequence without separator is a run. -/
theorem isRun_of_not_mem {d : α} {t : List α} (h : d ∉ t) (hne : t ≠ []) :
    IsRun d t 0 t.length := by
  refine ⟨List.length_pos_of_ne_nil hne, ⟨Nat.zero_le _, le_rfl, fun k _ _ hk => ?_⟩, ?_⟩
  · exact h (List.mem_of_getElem? hk)
  · intro i' j' hi hj hfree
    have hinside := hfree.inside
    omega

/-- So is what stands before the first separator. -/
theorem isRun_before {d : α} {t : List α} (h : d ∉ t) (hne : t ≠ []) (s : List α) :
    IsRun d (t ++ d :: s) 0 t.length := by
  rw [isRun_iff]
  refine ⟨List.length_pos_of_ne_nil hne, ⟨Nat.zero_le _, ?_, fun k _ hk hd => ?_⟩, ?_, ?_⟩
  · rw [List.length_append]
    omega
  · rw [List.getElem?_append_left hk] at hd
    exact h (List.mem_of_getElem? hd)
  · intro k hk
    omega
  · intro _
    simp

/-- The runs behind a separator, at their positions in the whole sequence. -/
def shiftRuns (n : ℕ) (rs : List (ℕ × ℕ)) : List (ℕ × ℕ) :=
  rs.map (fun r => (n + r.1, n + r.2))

theorem mem_shiftRuns {n i j : ℕ} {rs : List (ℕ × ℕ)} :
    (i, j) ∈ shiftRuns n rs ↔ ∃ i' j', (i', j') ∈ rs ∧ i = n + i' ∧ j = n + j' := by
  simp only [shiftRuns, List.mem_map, Prod.exists, Prod.mk.injEq]
  constructor
  · rintro ⟨i', j', hmem, rfl, rfl⟩
    exact ⟨i', j', hmem, rfl, rfl⟩
  · rintro ⟨i', j', hmem, rfl, rfl⟩
    exact ⟨i', j', hmem, rfl, rfl⟩

theorem pairwise_shiftRuns {n : ℕ} {rs : List (ℕ × ℕ)}
    (h : rs.Pairwise (fun r r' => r.2 < r'.1)) :
    (shiftRuns n rs).Pairwise (fun r r' => r.2 < r'.1) :=
  List.Pairwise.map _ (fun _ _ hlt => Nat.add_lt_add_left hlt n) h

/-- The texts of the shifted runs are those of the runs. -/
theorem map_extract_shiftRuns (d : α) (t s : List α) (rs : List (ℕ × ℕ)) :
    (shiftRuns (t.length + 1) rs).map (fun r => (t ++ d :: s).extract r.1 r.2)
      = rs.map (fun r => s.extract r.1 r.2) := by
  rw [shiftRuns, List.map_map]
  refine List.map_congr_left (fun r _ => ?_)
  have hdrop : (t ++ d :: s).drop (t.length + 1) = s := by
    rw [← List.drop_drop, List.drop_left, List.drop_succ_cons, List.drop_zero]
  simp only [Function.comp_apply, List.extract_eq_take_drop, ← List.drop_drop, hdrop,
    Nat.add_sub_add_left]

/-- The runs of a sequence without separator. -/
def wholeRun (t : List α) : List (ℕ × ℕ) :=
  if t.isEmpty then [] else [(0, t.length)]

theorem mem_wholeRun {t : List α} {i j : ℕ} :
    (i, j) ∈ wholeRun t ↔ t ≠ [] ∧ i = 0 ∧ j = t.length := by
  cases t <;> simp [wholeRun]

theorem pairwise_wholeRun (t : List α) :
    (wholeRun t).Pairwise (fun r r' => r.2 < r'.1) := by
  cases t <;> simp [wholeRun]

theorem runs_of_not_mem {d : α} {t : List α} (h : d ∉ t) : Runs d t (wholeRun t) := by
  refine ⟨pairwise_wholeRun t, fun i j => ?_⟩
  rw [mem_wholeRun]
  constructor
  · rintro ⟨hne, rfl, rfl⟩
    exact isRun_of_not_mem h hne
  · intro hrun
    have hinside := hrun.free.inside
    have hne : t ≠ [] := by
      rintro rfl
      have := hrun.nonempty
      simp only [List.length_nil] at hinside
      omega
    rcases hrun.eq_or_apart (isRun_of_not_mem h hne) with ⟨hi, hj⟩ | hapart | hapart
    · exact ⟨hne, hi, hj⟩
    · omega
    · have := hrun.nonempty
      omega

/-- With a separator: the run before it, if there is anything before it, and the runs behind it. -/
theorem runs_behind {d : α} {t s : List α} {rs : List (ℕ × ℕ)} (h : d ∉ t) (hrs : Runs d s rs) :
    Runs d (t ++ d :: s) (wholeRun t ++ shiftRuns (t.length + 1) rs) := by
  constructor
  · rw [List.pairwise_append]
    refine ⟨pairwise_wholeRun t, pairwise_shiftRuns hrs.ordered, ?_⟩
    rintro ⟨i, j⟩ hfirst ⟨i', j'⟩ hbehind
    obtain ⟨-, -, rfl⟩ := mem_wholeRun.1 hfirst
    obtain ⟨k, l, -, rfl, -⟩ := mem_shiftRuns.1 hbehind
    dsimp only
    omega
  · intro i j
    rw [List.mem_append, mem_wholeRun, mem_shiftRuns]
    constructor
    · rintro (⟨hne, rfl, rfl⟩ | ⟨i', j', hmem, rfl, rfl⟩)
      · exact isRun_before h hne s
      · exact isRun_behind.2 ((hrs.mem_iff i' j').1 hmem)
    · intro hrun
      have hlt := hrun.nonempty
      rcases lt_trichotomy i t.length with hbefore | rfl | hbehind
      · have hne : t ≠ [] := List.ne_nil_of_length_pos (by omega)
        rcases hrun.eq_or_apart (isRun_before h hne s) with ⟨hi, hj⟩ | hapart | hapart
        · exact Or.inl ⟨hne, hi, hj⟩
        · omega
        · omega
      · exact absurd (by simp) (hrun.free.not_sep t.length le_rfl hlt)
      · obtain ⟨i', rfl⟩ : ∃ i', i = t.length + 1 + i' := ⟨i - (t.length + 1), by omega⟩
        obtain ⟨j', rfl⟩ : ∃ j', j = t.length + 1 + j' := ⟨j - (t.length + 1), by omega⟩
        exact Or.inr ⟨i', j', (hrs.mem_iff i' j').2 (isRun_behind.1 hrun), rfl, rfl⟩

/-! ## Pieces -/

/-- Cut `s` at every `d` and drop the empty pieces. -/
def pieces [BEq α] (d : α) (s : List α) : List (List α) :=
  (s.splitOn d).filter (fun p => !p.isEmpty)

@[simp] theorem pieces_nil [BEq α] (d : α) : pieces d [] = [] := by
  simp [pieces]

variable [BEq α] [LawfulBEq α]

/-- A separator in front only adds an empty piece, which is dropped. -/
@[simp] theorem pieces_cons_self (d : α) (s : List α) : pieces d (d :: s) = pieces d s := by
  simp [pieces, List.splitOn_cons_eq_if_modifyHead]

theorem pieces_append_of_all {d : α} {a s : List α} (h : ∀ x ∈ a, x = d) :
    pieces d (a ++ s) = pieces d s := by
  induction a with
  | nil => rfl
  | cons x a ih =>
      obtain ⟨rfl, ha⟩ := List.forall_mem_cons.1 h
      rw [List.cons_append, pieces_cons_self]
      exact ih ha

theorem pieces_of_not_mem {d : α} {s : List α} (h : d ∉ s) :
    pieces d s = if s.isEmpty then [] else [s] := by
  rw [pieces, List.splitOn_eq_singleton h]
  cases s <;> simp

theorem pieces_append_cons {d : α} {a s : List α} (h : d ∉ a) (hne : a ≠ []) :
    pieces d (a ++ d :: s) = a :: pieces d s := by
  rw [pieces, List.splitOn_append_cons_self_of_not_mem h, List.filter_cons_of_pos]
  · rfl
  · simpa using hne

/-- **The pieces are the texts of the runs**, in the same order. -/
theorem exists_runs (d : α) (s : List α) :
    ∃ rs, Runs d s rs ∧ rs.map (fun r => s.extract r.1 r.2) = pieces d s := by
  induction hn : s.length using Nat.strong_induction_on generalizing s with
  | _ n ih =>
      rcases findIdx?_cases (· == d) s with ⟨-, hall⟩ | ⟨t, c, s', rfl, ht, hc, -⟩
      · have hnot : d ∉ s := fun hmem => by simpa using hall d hmem
        refine ⟨wholeRun s, runs_of_not_mem hnot, ?_⟩
        rw [pieces_of_not_mem hnot]
        cases s <;> simp [wholeRun]
      · obtain rfl : c = d := by simpa using hc
        have hnot : c ∉ t := fun hmem => by simpa using ht c hmem
        have hlt : s'.length < n := by
          rw [← hn, List.length_append, List.length_cons]
          omega
        obtain ⟨rs, hrs, htexts⟩ := ih s'.length hlt s' rfl
        refine ⟨_, runs_behind hnot hrs, ?_⟩
        rw [List.map_append, map_extract_shiftRuns, htexts]
        cases t with
        | nil => simp [wholeRun]
        | cons x t =>
            rw [pieces_append_cons hnot (List.cons_ne_nil x t)]
            simp [wholeRun]

theorem not_mem_of_mem_splitOn {d : α} {s l : List α} (h : l ∈ s.splitOn d) : d ∉ l := by
  induction s generalizing l with
  | nil =>
      obtain rfl : l = [] := by simpa using h
      simp
  | cons x s ih =>
      obtain ⟨l₀, ls, hs⟩ := List.exists_cons_of_ne_nil (List.splitOn_ne_nil d s)
      rw [hs] at ih
      rw [List.splitOn_cons_eq_if_modifyHead, hs] at h
      split at h
      · rcases List.mem_cons.1 h with rfl | h
        · simp
        · exact ih h
      · next hx =>
          simp only [List.modifyHead_cons] at h
          rcases List.mem_cons.1 h with rfl | h
          · have h₀ : d ∉ l₀ := ih (by simp)
            simp only [List.mem_cons, not_or]
            exact ⟨fun he => hx (by simp [he]), h₀⟩
          · exact ih (List.mem_cons_of_mem _ h)

theorem mem_of_mem_splitOn {d x : α} {s l : List α} (h : l ∈ s.splitOn d) (hx : x ∈ l) : x ∈ s := by
  have hjoin : [d].intercalate (s.splitOn d) = s := List.intercalate_splitOn d
  rw [← hjoin]
  generalize s.splitOn d = ls at h
  induction ls with
  | nil => exact absurd h List.not_mem_nil
  | cons l' ls ih =>
      cases ls with
      | nil => simpa [List.mem_singleton.1 h] using hx
      | cons l'' ls =>
          rw [List.intercalate_cons_cons, List.mem_append, List.mem_append]
          rcases List.mem_cons.1 h with rfl | h
          · exact Or.inl (Or.inl hx)
          · exact Or.inr (ih h)

theorem mem_pieces {d : α} {s l : List α} (h : l ∈ pieces d s) :
    d ∉ l ∧ ∀ x ∈ l, x ∈ s := by
  have hmem : l ∈ s.splitOn d := List.mem_of_mem_filter h
  exact ⟨not_mem_of_mem_splitOn hmem, fun x hx => mem_of_mem_splitOn hmem hx⟩

/-- Between two pieces there is at least one separator. -/
theorem length_pieces (d : α) (s : List α) :
    ((pieces d s).map List.length).sum + (pieces d s).length ≤ s.length + 1 := by
  have hjoin : ∀ ls : List (List α), ls ≠ [] →
      (ls.map List.length).sum + ls.length = ([d].intercalate ls).length + 1 := by
    intro ls hne
    induction ls with
    | nil => exact absurd rfl hne
    | cons l ls ih =>
        cases ls with
        | nil => simp
        | cons l' ls =>
            have hrest := ih (List.cons_ne_nil _ _)
            rw [List.intercalate_cons_cons, List.map_cons, List.sum_cons, List.length_cons,
              List.length_append, List.length_append, List.length_singleton]
            omega
  have hdrop : ∀ ls : List (List α),
      ((ls.filter (fun p => !p.isEmpty)).map List.length).sum +
        (ls.filter (fun p => !p.isEmpty)).length ≤ (ls.map List.length).sum + ls.length := by
    intro ls
    induction ls with
    | nil => exact le_rfl
    | cons l ls ih =>
        rw [List.filter_cons]
        split
        · simp only [List.map_cons, List.sum_cons, List.length_cons]
          omega
        · simp only [List.map_cons, List.sum_cons, List.length_cons]
          omega
  have hall := hjoin (s.splitOn d) (List.splitOn_ne_nil d s)
  rw [List.intercalate_splitOn] at hall
  exact (hdrop _).trans (le_of_eq hall)

/-! ## Terminated lines -/

/-- The pieces that end in a delimiter, without it. -/
def lines (d : α) (s : List α) : List (List α) :=
  (s.splitOn d).dropLast

omit [BEq α] [LawfulBEq α] in
/-- No piece is left open at the end. -/
def Terminated (d : α) (s : List α) : Prop :=
  s = [] ∨ ∃ s', s = s' ++ [d]

theorem lines_append {d : α} {s t : List α} (hs : Terminated d s) (ht : d ∉ t) :
    lines d (s ++ (t ++ [d])) = lines d s ++ [t] := by
  have hlast : (t ++ [d]).splitOn d = [t, []] := by
    rw [List.splitOn_append_cons_self_of_not_mem ht, List.splitOn_nil]
  rcases hs with rfl | ⟨s', rfl⟩
  · rw [lines, lines, List.nil_append, hlast, List.splitOn_nil]
    rfl
  · have hfront : (s' ++ [d]).splitOn d = s'.splitOn d ++ [[]] := by
      rw [List.splitOn_append_cons_self, List.splitOn_nil]
    have hboth : (s' ++ [d] ++ (t ++ [d])).splitOn d = s'.splitOn d ++ [t] ++ [[]] := by
      rw [List.append_assoc, List.singleton_append, List.splitOn_append_cons_self, hlast,
        List.append_assoc]
      rfl
    rw [lines, lines, hfront, hboth, List.dropLast_concat, List.dropLast_concat]

/-! ## Stripping -/

omit [BEq α] [LawfulBEq α]

/-- Remove the `p`-elements at the two ends of `s`. -/
def strip (p : α → Bool) (s : List α) : List α :=
  (s.dropWhile p).rdropWhile p

/-- Neither end of `s` is a `p`-element. -/
def Stripped (p : α → Bool) (s : List α) : Prop :=
  (∀ c ∈ s.head?, p c = false) ∧ ∀ c ∈ s.getLast?, p c = false

instance (p : α → Bool) (s : List α) : Decidable (Stripped p s) :=
  inferInstanceAs (Decidable (_ ∧ _))

theorem strip_of_all {p : α → Bool} {s : List α} (h : ∀ x ∈ s, p x = true) : strip p s = [] := by
  rw [strip, List.dropWhile_eq_nil_iff.2 h, List.rdropWhile_nil]

theorem rdropWhile_append_of_all {p : α → Bool} {s b : List α} (h : ∀ x ∈ b, p x = true) :
    (s ++ b).rdropWhile p = s.rdropWhile p := by
  induction b using List.reverseRecOn with
  | nil => simp
  | append_singleton b x ih =>
      have hb : ∀ y ∈ b, p y = true := fun y hy => h y (by simp [hy])
      rw [← List.append_assoc, List.rdropWhile_concat_pos p _ x (h x (by simp)), ih hb]

/-- A sequence is all padding, or a stripped core between two paddings. -/
theorem pad_cases (p : α → Bool) (s : List α) :
    (∀ x ∈ s, p x = true) ∨
    ∃ a k b, s = a ++ k ++ b ∧ (∀ x ∈ a, p x = true) ∧ (∀ x ∈ b, p x = true) ∧ k ≠ [] ∧
      Stripped p k := by
  rcases findIdx?_cases (fun x => !p x) s with ⟨_, hall⟩ | ⟨a, c, r, rfl, ha, hc, _⟩
  · exact Or.inl (by simpa using hall)
  · rcases findIdx?_cases (fun x => !p x) (c :: r).reverse with
      ⟨_, hall⟩ | ⟨b, e, l, hrev, hb, he, _⟩
    · have hcp : p c = true := by simpa using hall c (by simp)
      simp [hcp] at hc
    · have hcore : c :: r = (e :: l).reverse ++ b.reverse := by
        rw [← List.reverse_append, ← hrev, List.reverse_reverse]
      refine Or.inr ⟨a, (e :: l).reverse, b.reverse, ?_, by simpa using ha, by simpa using hb,
        by simp, ?_, ?_⟩
      · rw [hcore, List.append_assoc]
      · -- the core starts where the whole does, since it is not empty
        intro x hx
        have hhead : (c :: r).head? = (e :: l).reverse.head? := by
          rw [hcore, List.head?_append_of_ne_nil _ (by simp)]
        rw [← hhead] at hx
        obtain rfl : c = x := by simpa using hx
        simpa using hc
      · intro x hx
        obtain rfl : e = x := by simpa using hx
        simpa using he

/-- Stripping undoes padding. -/
theorem strip_pad {p : α → Bool} {a k b : List α} (ha : ∀ x ∈ a, p x = true)
    (hb : ∀ x ∈ b, p x = true) (hne : k ≠ []) (hk : Stripped p k) : strip p (a ++ k ++ b) = k := by
  obtain ⟨c, k', rfl⟩ := List.exists_cons_of_ne_nil hne
  have hc : p c = false := hk.1 c (by simp)
  have hdrop : (a ++ c :: k' ++ b).dropWhile p = c :: k' ++ b := by
    rw [List.append_assoc, List.dropWhile_append_of_pos ha]
    simp [hc]
  rw [strip, hdrop, rdropWhile_append_of_all hb, List.rdropWhile_eq_self_iff]
  intro hl
  simpa using hk.2 _ (List.getLast?_eq_getLast_of_ne_nil hl)

/-- What is left after stripping is stripped, and comes from the sequence. -/
theorem strip_cases (p : α → Bool) (s : List α) :
    Stripped p (strip p s) ∧ (strip p s).length ≤ s.length ∧ ∀ x ∈ strip p s, x ∈ s := by
  rcases pad_cases p s with hall | ⟨a, k, b, rfl, ha, hb, hne, hk⟩
  · rw [strip_of_all hall]
    refine ⟨⟨fun c hc => ?_, fun c hc => ?_⟩, Nat.zero_le _, fun x hx => ?_⟩
    · cases hc
    · cases hc
    · cases hx
  · rw [strip_pad ha hb hne hk]
    refine ⟨hk, ?_, fun x hx => ?_⟩
    · rw [List.length_append, List.length_append]
      omega
    · exact List.mem_append_left _ (List.mem_append_right _ hx)

/-! ## Words -/

/-- Cut `s` at every `p`-element and drop the empty pieces. -/
def words (p : α → Bool) (s : List α) : List (List α) :=
  (s.splitOnP p).filter (fun w => !w.isEmpty)

/-- `w` is the first word of `s`: what stands in front are `p`-elements, and one follows unless `s`
    ends there. -/
def FirstWord (p : α → Bool) (s w : List α) : Prop :=
  ∃ a rest, s = a ++ (w ++ rest) ∧ (∀ c ∈ a, p c = true) ∧ w ≠ [] ∧ (∀ c ∈ w, p c = false) ∧
    ∀ c ∈ rest.head?, p c = true

theorem words_append_of_all {p : α → Bool} {a s : List α} (h : ∀ c ∈ a, p c = true) :
    words p (a ++ s) = words p s := by
  induction a with
  | nil => rfl
  | cons c a ih =>
      obtain ⟨hc, ha⟩ := List.forall_mem_cons.1 h
      rw [← ih ha, words, words, List.cons_append, List.splitOnP_cons_eq_if_modifyHead, if_pos hc]
      rfl

theorem words_of_all {p : α → Bool} {s : List α} (h : ∀ c ∈ s, p c = true) : words p s = [] := by
  rw [← List.append_nil s, words_append_of_all h, words, List.splitOnP_nil]
  rfl

theorem words_append_cons {p : α → Bool} {w s : List α} {c : α} (hne : w ≠ [])
    (hw : ∀ x ∈ w, p x = false) (hc : p c = true) : words p (w ++ c :: s) = w :: words p s := by
  rw [words, List.splitOnP_append_cons_of_forall_mem hw c hc, List.filter_cons_of_pos]
  · rfl
  · simpa using hne

theorem words_self {p : α → Bool} {w : List α} (hne : w ≠ []) (hw : ∀ x ∈ w, p x = false) :
    words p w = [w] := by
  rw [words, List.splitOnP_eq_singleton hw, List.filter_cons_of_pos]
  · rfl
  · simpa using hne

theorem FirstWord.words {p : α → Bool} {s w : List α} (h : FirstWord p s w) :
    ∃ more, words p s = w :: more := by
  obtain ⟨a, rest, rfl, ha, hne, hw, hrest⟩ := h
  rw [words_append_of_all ha]
  cases rest with
  | nil => exact ⟨[], by rw [List.append_nil, words_self hne hw]⟩
  | cons c rest => exact ⟨Cut.words p rest, words_append_cons hne hw (hrest c rfl)⟩

theorem firstWord_cases (p : α → Bool) (s : List α) :
    (∀ c ∈ s, p c = true) ∨ ∃ w, FirstWord p s w := by
  rcases findIdx?_cases (fun c => !p c) s with ⟨-, hall⟩ | ⟨a, c, r, rfl, ha, hc, -⟩
  · exact Or.inl (by simpa using hall)
  · have hsplit : c :: r = (c :: r).takeWhile (fun c => !p c) ++ (c :: r).dropWhile (fun c => !p c) :=
      List.takeWhile_append_dropWhile.symm
    refine Or.inr ⟨(c :: r).takeWhile (fun c => !p c), a, (c :: r).dropWhile (fun c => !p c), ?_,
      by simpa using ha, ?_, fun x hx => ?_, fun x hx => ?_⟩
    · rw [← hsplit]
    · rw [List.takeWhile_cons, if_pos hc]
      exact List.cons_ne_nil _ _
    · simpa using List.mem_takeWhile_imp hx
    · have hhead := List.head?_dropWhile_not (fun c => !p c) (c :: r)
      rw [Option.mem_def.1 hx] at hhead
      simpa using hhead

end Cut
