import Mathlib

set_option autoImplicit false

/-! # Rotating containers

Items go into container 0. Now and then every container is moved on by one number, the one with the
highest number is given up, and a new container 0 begins. `Slots` is the numbered view, in which
single containers are moved and may get lost; `pack` is the plan the items are distributed by: a new
container begins with the item that would make the last one too heavy. -/

namespace Rotation

variable {α : Type}

/-! ## Containers by number -/

/-- The containers by their number, if they are there. -/
abbrev Slots (α : Type) : Type := ℕ → Option (List α)

/-- What the containers up to `n` hold, the oldest item first. -/
def kept (f : Slots α) : ℕ → List α
  | 0 => (f 0).getD []
  | n + 1 => (f (n + 1)).getD [] ++ kept f n

theorem kept_congr {f g : Slots α} {n : ℕ} (h : ∀ j ≤ n, f j = g j) : kept f n = kept g n := by
  induction n with
  | zero => rw [kept, kept, h 0 le_rfl]
  | succ n ih => rw [kept, kept, h (n + 1) le_rfl, ih (fun j hj => h j (by omega))]

/-- A change up to number `i` leaves what is older alone. -/
theorem kept_splice {f g : Slots α} {i n : ℕ} (hi : i ≤ n) (habove : ∀ j, i < j → g j = f j) :
    ∃ older, kept f n = older ++ kept f i ∧ kept g n = older ++ kept g i := by
  induction n with
  | zero =>
      obtain rfl : i = 0 := by omega
      exact ⟨[], rfl, rfl⟩
  | succ n ih =>
      by_cases heq : i = n + 1
      · exact ⟨[], by rw [heq]; rfl, by rw [heq]; rfl⟩
      · obtain ⟨older, hf, hg⟩ := ih (by omega)
        refine ⟨(f (n + 1)).getD [] ++ older, ?_, ?_⟩
        · rw [kept, hf, List.append_assoc]
        · rw [kept, hg, habove (n + 1) (by omega), List.append_assoc]

/-- `g` comes from `f` when containers are moved on, emptied and given up: no item is new or out of
    order, and a container that is not empty had the same or a lower number before. -/
structure Aged (n : ℕ) (f g : Slots α) : Prop where
  sublist : (kept g n).Sublist (kept f n)
  container : ∀ j c, g j = some c → c = [] ∨ ∃ k ≤ j, f k = some c
  above : ∀ j, n < j → g j = f j

theorem Aged.refl (n : ℕ) (f : Slots α) : Aged n f f :=
  ⟨List.Sublist.refl _, fun j _ hc => Or.inr ⟨j, le_rfl, hc⟩, fun _ _ => rfl⟩

theorem Aged.trans {n : ℕ} {f g h : Slots α} (h₁ : Aged n f g) (h₂ : Aged n g h) : Aged n f h := by
  refine ⟨h₂.sublist.trans h₁.sublist, fun j c hc => ?_, fun j hj => ?_⟩
  · rcases h₂.container j c hc with hnil | ⟨k, hk, hgk⟩
    · exact Or.inl hnil
    · refine (h₁.container k c hgk).imp id ?_
      exact fun ⟨i, hi, hfi⟩ => ⟨i, hi.trans hk, hfi⟩
  · exact (h₂.above j hj).trans (h₁.above j hj)

/-- Container `i` is given up. -/
def clear (f : Slots α) (i : ℕ) : Slots α := Function.update f i none

/-- Container `i` gets the number `i + 1`, in the place of the one that had it. -/
def move (f : Slots α) (i : ℕ) : Slots α :=
  Function.update (Function.update f (i + 1) (f i)) i none

@[simp] theorem move_target (f : Slots α) (i : ℕ) : move f i (i + 1) = f i := by
  rw [move, Function.update_of_ne (by omega), Function.update_self]

@[simp] theorem move_source (f : Slots α) (i : ℕ) : move f i i = none :=
  Function.update_self ..

theorem move_of_ne (f : Slots α) {i j : ℕ} (h : j ≠ i) (h' : j ≠ i + 1) : move f i j = f j := by
  rw [move, Function.update_of_ne h, Function.update_of_ne h']

theorem aged_clear (f : Slots α) {i n : ℕ} (hi : i ≤ n) : Aged n f (clear f i) := by
  have hne : ∀ j, i < j → clear f i j = f j := fun j hj => Function.update_of_ne (by omega) ..
  have hbelow : ∀ j, j < i → clear f i j = f j := fun j hj => Function.update_of_ne (by omega) ..
  have hself : clear f i i = none := Function.update_self ..
  refine ⟨?_, fun j c hc => Or.inr ⟨j, le_rfl, ?_⟩, fun j hj => hne j (by omega)⟩
  · obtain ⟨older, hf, hg⟩ := kept_splice hi hne
    rw [hf, hg]
    refine List.Sublist.append_left ?_ older
    cases i with
    | zero =>
        rw [kept, hself]
        exact List.nil_sublist _
    | succ i =>
        rw [kept, kept, hself, kept_congr (fun j hj => hbelow j (by omega))]
        exact List.sublist_append_right _ _
  · by_cases hji : j = i
    · rw [hji, hself] at hc
      cases hc
    · rwa [clear, Function.update_of_ne hji] at hc

/-- Only what had the number `i + 1` is given up. -/
theorem kept_move (f : Slots α) (i : ℕ) : kept (move f i) (i + 1) = kept f i := by
  rw [kept, move_target]
  cases i with
  | zero =>
      rw [kept, move_source, kept]
      exact List.append_nil _
  | succ i =>
      rw [kept, move_source, kept, Option.getD_none, List.nil_append]
      exact congrArg _ (kept_congr (fun j hj => move_of_ne f (by omega) (by omega)))

theorem aged_move (f : Slots α) {i n : ℕ} (hi : i < n) : Aged n f (move f i) := by
  have hne : ∀ j, i + 1 < j → move f i j = f j := fun j hj => move_of_ne f (by omega) (by omega)
  refine ⟨?_, fun j c hc => ?_, fun j hj => hne j (by omega)⟩
  · obtain ⟨older, hf, hg⟩ := kept_splice (Nat.succ_le_of_lt hi) hne
    rw [hf, hg, kept_move, kept]
    exact (List.sublist_append_right _ _).append_left older
  · by_cases hjt : j = i + 1
    · rw [hjt, move_target] at hc
      exact Or.inr ⟨i, by omega, hc⟩
    · by_cases hjs : j = i
      · rw [hjs, move_source] at hc
        cases hc
      · exact Or.inr ⟨j, le_rfl, by rwa [move_of_ne f hjs hjt] at hc⟩

/-- Container 0 is begun anew. -/
theorem aged_empty (f : Slots α) (n : ℕ) : Aged n f (Function.update f 0 (some [])) := by
  have hne : ∀ j, 0 < j → Function.update f 0 (some []) j = f j :=
    fun j hj => Function.update_of_ne (by omega) ..
  refine ⟨?_, fun j c hc => ?_, fun j hj => hne j (by omega)⟩
  · obtain ⟨older, hf, hg⟩ := kept_splice (Nat.zero_le n) hne
    rw [hf, hg, kept, kept, Function.update_self]
    exact (List.nil_sublist _).append_left older
  · by_cases hj0 : j = 0
    · rw [hj0, Function.update_self] at hc
      exact Or.inl (Option.some.inj hc).symm
    · exact Or.inr ⟨j, le_rfl, by rwa [hne j (by omega)] at hc⟩

/-- A new item comes behind all others. -/
theorem kept_append (f : Slots α) (n : ℕ) {c : List α} (h : f 0 = some c) (xs : List α) :
    kept (Function.update f 0 (some (c ++ xs))) n = kept f n ++ xs := by
  obtain ⟨older, hf, hg⟩ := kept_splice (f := f) (g := Function.update f 0 (some (c ++ xs)))
    (Nat.zero_le n) (fun j hj => Function.update_of_ne (by omega) ..)
  rw [hf, hg, kept, kept, Function.update_self, h, Option.getD_some, Option.getD_some,
    List.append_assoc]

/-! ## All containers moved on -/

/-- Container `i` is moved on if it is there. -/
def advance (f : Slots α) (i : ℕ) : Slots α :=
  if (f i).isSome then move f i else f

@[simp] theorem advance_target (f : Slots α) (i : ℕ) : advance f i (i + 1) = (f i).or (f (i + 1)) := by
  cases hi : f i with
  | none => simp [advance, hi]
  | some c => simp [advance, hi]

@[simp] theorem advance_source (f : Slots α) (i : ℕ) : advance f i i = none := by
  cases hi : f i with
  | none => simp [advance, hi]
  | some c => simp [advance, hi]

theorem advance_of_ne (f : Slots α) {i j : ℕ} (h : j ≠ i) (h' : j ≠ i + 1) : advance f i j = f j := by
  unfold advance
  split
  · exact move_of_ne f h h'
  · rfl

/-- The containers `i - 1`, .., 0 are moved on, in this order. -/
def shift (f : Slots α) : ℕ → Slots α
  | 0 => f
  | i + 1 => shift (advance f i) i

theorem shift_above (f : Slots α) {i j : ℕ} (h : i < j) : shift f i j = f j := by
  induction i generalizing f with
  | zero => rfl
  | succ i ih => rw [shift, ih (advance f i) (by omega), advance_of_ne f (by omega) (by omega)]

/-- Only the last container may meet one that stays. -/
theorem shift_succ (f : Slots α) {i j : ℕ} (h : j < i) : shift f i (j + 1) =
    if j + 1 = i then (f j).or (f (j + 1)) else f j := by
  induction i generalizing f with
  | zero => omega
  | succ i ih =>
      rw [shift]
      by_cases hji : j = i
      · subst hji
        rw [shift_above _ (by omega), advance_target, if_pos rfl]
      · rw [ih (advance f i) (by omega), advance_of_ne f hji (by omega), if_neg (by omega : j + 1 ≠ i + 1)]
        split
        · next hi => rw [hi, advance_source, Option.or_none]
        · rfl

/-- The containers of a list, its head is number 0. -/
def Lists (n : ℕ) (f : Slots α) (bins : List (List α)) : Prop :=
  ∀ j ≤ n, f j = bins[j]?

/-- Without a gap the list moves on as a whole. -/
theorem Lists.shift {n : ℕ} {f : Slots α} {bins : List (List α)} (h : Lists n f bins) :
    Lists n (Function.update (Rotation.shift f n) 0 (some [])) ([] :: bins) := by
  intro j hj
  cases j with
  | zero => rw [Function.update_self, List.getElem?_cons_zero]
  | succ j =>
      rw [Function.update_of_ne (by omega), shift_succ f (by omega), List.getElem?_cons_succ,
        h j (by omega)]
      split
      · rw [h (j + 1) hj]
        cases hb : bins[j]? with
        | none =>
            have hlen := List.getElem?_eq_none_iff.1 hb
            rw [Option.none_or, List.getElem?_eq_none_iff]
            omega
        | some b => rfl
      · rfl

theorem Lists.append {n : ℕ} {f : Slots α} {b : List α} {bins : List (List α)}
    (h : Lists n f (b :: bins)) (xs : List α) :
    Lists n (Function.update f 0 (some (b ++ xs))) ((b ++ xs) :: bins) := by
  intro j hj
  cases j with
  | zero => rw [Function.update_self, List.getElem?_cons_zero]
  | succ j => rw [Function.update_of_ne (by omega), h (j + 1) hj]; rfl

/-! ## The plan -/

section Pack

variable (w : α → ℕ) (cap : ℕ)

def weight (b : List α) : ℕ := (b.map w).sum

/-- Item `x` goes into the newest container, or begins a new one when that would get too heavy. -/
def pack : List (List α) → α → List (List α)
  | [], x => [[x]]
  | b :: bins, x => if cap < weight w b + w x then [x] :: b :: bins else (b ++ [x]) :: bins

variable {w cap}

@[simp] theorem weight_append (b c : List α) : weight w (b ++ c) = weight w b + weight w c := by
  simp [weight]

@[simp] theorem weight_singleton (x : α) : weight w [x] = w x := by
  simp [weight]

theorem pack_ne_nil (bins : List (List α)) (x : α) : pack w cap bins x ≠ [] := by
  unfold pack
  split
  · exact List.cons_ne_nil _ _
  · split <;> exact List.cons_ne_nil _ _

theorem flatten_pack (bins : List (List α)) (x : α) :
    (pack w cap bins x).reverse.flatten = bins.reverse.flatten ++ [x] := by
  unfold pack
  split
  · rfl
  · split <;> simp

theorem flatten_foldl_pack (bins : List (List α)) (xs : List α) :
    (xs.foldl (pack w cap) bins).reverse.flatten = bins.reverse.flatten ++ xs := by
  induction xs generalizing bins with
  | nil => exact (List.append_nil _).symm
  | cons x xs ih => rw [List.foldl_cons, ih, flatten_pack, List.append_assoc, List.singleton_append]

/-- No container is too heavy, unless a single item is, and each but the newest was left because the
    first item of the next one did not fit into it. -/
structure Packed (w : α → ℕ) (cap : ℕ) (bins : List (List α)) : Prop where
  small : ∀ b ∈ bins, weight w b ≤ cap ∨ ∃ x, b = [x]
  full : bins.IsChain (fun newer older => ∃ x rest, newer = x :: rest ∧ cap < weight w older + w x)

theorem Packed.empty : Packed w cap [[]] :=
  ⟨fun b hb => Or.inl (by rw [List.mem_singleton.1 hb]; exact Nat.zero_le _), List.IsChain.singleton _⟩

theorem Packed.pack {bins : List (List α)} (h : Packed w cap bins) (x : α) :
    Packed w cap (pack w cap bins x) := by
  unfold Rotation.pack
  split
  · refine ⟨fun b hb => Or.inr ⟨x, List.mem_singleton.1 hb⟩, List.IsChain.singleton _⟩
  · next b bins =>
    split
    · next hheavy =>
      refine ⟨fun c hc => ?_, h.full.cons_cons ⟨x, [], rfl, hheavy⟩⟩
      rcases List.mem_cons.1 hc with rfl | hc
      · exact Or.inr ⟨x, rfl⟩
      · exact h.small c hc
    · next hlight =>
      refine ⟨fun c hc => ?_, ?_⟩
      · rcases List.mem_cons.1 hc with rfl | hc
        · refine Or.inl ?_
          rw [weight_append, weight_singleton]
          omega
        · exact h.small c (List.mem_cons_of_mem _ hc)
      · cases bins with
        | nil => exact List.IsChain.singleton _
        | cons c bins =>
            obtain ⟨⟨y, rest, rfl, hy⟩, htail⟩ := List.isChain_cons_cons.1 h.full
            exact htail.cons_cons ⟨y, rest ++ [x], rfl, hy⟩

theorem Packed.foldl {bins : List (List α)} (h : Packed w cap bins) (xs : List α) :
    Packed w cap (xs.foldl (Rotation.pack w cap) bins) := by
  induction xs generalizing bins with
  | nil => exact h
  | cons x xs ih => exact ih (h.pack x)

theorem Packed.take {bins : List (List α)} (h : Packed w cap bins) (n : ℕ) :
    Packed w cap (bins.take n) :=
  ⟨fun b hb => h.small b (List.mem_of_mem_take hb), h.full.take n⟩

/-- With items of at most `m`, a container that was left is heavier than `cap - m`. -/
theorem Packed.weight_ge {m : ℕ} {bins : List (List α)} (h : Packed w cap bins)
    (hm : ∀ b ∈ bins, ∀ x ∈ b, w x ≤ m) :
    (bins.length - 1) * (cap + 1 - m) ≤ weight w bins.tail.reverse.flatten := by
  induction bins with
  | nil => simp
  | cons b bins ih =>
      cases bins with
      | nil => simp
      | cons c bins =>
          obtain ⟨⟨x, rest, rfl, hx⟩, htail⟩ := List.isChain_cons_cons.1 h.full
          have hrest := ih ⟨fun d hd => h.small d (List.mem_cons_of_mem _ hd), htail⟩
            (fun d hd => hm d (List.mem_cons_of_mem _ hd))
          have hxm := hm _ List.mem_cons_self x List.mem_cons_self
          have hc : cap + 1 - m ≤ weight w c := by omega
          rw [List.tail_cons] at hrest ⊢
          rw [List.reverse_cons, List.flatten_append, weight_append, List.flatten_singleton]
          simp only [List.length_cons, Nat.add_sub_cancel] at hrest ⊢
          rw [Nat.succ_mul]
          exact Nat.add_le_add hrest hc

/-- With items of at most `m`, no container is heavier than `cap` and `m`. -/
theorem Packed.weight_le {m : ℕ} {bins : List (List α)} (h : Packed w cap bins)
    (hm : ∀ b ∈ bins, ∀ x ∈ b, w x ≤ m) {b : List α} (hb : b ∈ bins) : weight w b ≤ max cap m := by
  rcases h.small b hb with hle | ⟨x, rfl⟩
  · exact hle.trans (le_max_left _ _)
  · rw [weight_singleton]
    exact (hm _ hb x (List.mem_singleton_self x)).trans (le_max_right _ _)

end Pack

end Rotation
