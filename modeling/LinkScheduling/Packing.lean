import Mathlib

/-! Serving a sequence of items in rounds of bounded total size. `fit` takes the longest
first part that fits a capacity; `nextFit` cuts the whole sequence into rounds, where an
item larger than the capacity makes a round of its own. -/

namespace Packing

variable {α : Type} (size : α → Nat)

def total (xs : List α) : Nat := (xs.map size).sum

@[simp] theorem total_nil : total size [] = 0 := rfl

@[simp] theorem total_cons (x : α) (xs : List α) : total size (x :: xs) = size x + total size xs := by
  simp [total]

@[simp] theorem total_append (xs ys : List α) :
    total size (xs ++ ys) = total size xs + total size ys := by
  simp [total]

/-- The longest first part of total size at most `cap`, and the rest. -/
def fit : Nat → List α → List α × List α
  | _, [] => ([], [])
  | cap, x :: xs =>
    if size x ≤ cap then (x :: (fit (cap - size x) xs).1, (fit (cap - size x) xs).2)
    else ([], x :: xs)

@[simp] theorem fit_nil (cap : Nat) : fit size cap [] = ([], []) := rfl

theorem fit_append (cap : Nat) (xs : List α) : (fit size cap xs).1 ++ (fit size cap xs).2 = xs := by
  induction xs generalizing cap with
  | nil => rfl
  | cons x xs ih =>
    rw [fit]
    split
    · simp [ih]
    · rfl

theorem total_fit_le (cap : Nat) (xs : List α) : total size (fit size cap xs).1 ≤ cap := by
  induction xs generalizing cap with
  | nil => exact Nat.zero_le _
  | cons x xs ih =>
    rw [fit]
    split
    · have := ih (cap - size x)
      simp only [total_cons]
      omega
    · exact Nat.zero_le _

theorem fit_blocked (cap : Nat) (xs : List α) {y : α} {ys : List α}
    (h : (fit size cap xs).2 = y :: ys) : cap < total size (fit size cap xs).1 + size y := by
  induction xs generalizing cap with
  | nil => simp at h
  | cons x xs ih =>
    rw [fit] at h ⊢
    split at h
    · rename_i hx
      have := ih (cap - size x) h
      rw [if_pos hx, total_cons]
      omega
    · rename_i hx
      cases h
      rw [if_neg hx, total_nil]
      omega

theorem fit_unique (cap : Nat) (p rest : List α) (hp : total size p ≤ cap)
    (hrest : ∀ y ys, rest = y :: ys → cap < total size p + size y) :
    fit size cap (p ++ rest) = (p, rest) := by
  induction p generalizing cap with
  | nil =>
    cases rest with
    | nil => rfl
    | cons y ys =>
      have := hrest y ys rfl
      rw [List.nil_append, fit, if_neg (by simpa using this)]
  | cons x p ih =>
    rw [total_cons] at hp
    have step := ih (cap - size x) (by omega) (fun y ys h => by
      have := hrest y ys h
      rw [total_cons] at this
      omega)
    rw [List.cons_append, fit, if_pos (by omega), step]

theorem total_le_fit {cap : Nat} (p rest : List α) (hp : total size p ≤ cap) :
    total size p ≤ total size (fit size cap (p ++ rest)).1 := by
  induction p generalizing cap with
  | nil => exact Nat.zero_le _
  | cons x p ih =>
    rw [total_cons] at hp
    rw [List.cons_append, fit, if_pos (by omega), total_cons, total_cons]
    exact Nat.add_le_add_left (ih (by omega)) _

theorem fit_all {cap : Nat} {xs : List α} (h : total size xs ≤ cap) : fit size cap xs = (xs, []) := by
  simpa using fit_unique size cap xs [] h (by simp)

theorem fit_eq_all_iff (cap : Nat) (xs : List α) :
    (fit size cap xs).2 = [] ↔ total size xs ≤ cap := by
  constructor
  · intro h
    have split := fit_append size cap xs
    have fits := total_fit_le size cap xs
    rw [h, List.append_nil] at split
    rwa [split] at fits
  · intro h
    rw [fit_all size h]

/-- One round of next-fit, with the escape for an item larger than the capacity. -/
def round (cap : Nat) : List α → List α × List α
  | [] => ([], [])
  | x :: xs => if cap < size x then ([x], xs) else fit size cap (x :: xs)

@[simp] theorem round_nil (cap : Nat) : round size cap [] = ([], []) := rfl

theorem round_append (cap : Nat) (xs : List α) :
    (round size cap xs).1 ++ (round size cap xs).2 = xs := by
  cases xs with
  | nil => rfl
  | cons x xs =>
    rw [round]
    split
    · rfl
    · exact fit_append size cap (x :: xs)

theorem round_ne_nil (cap : Nat) (x : α) (xs : List α) : (round size cap (x :: xs)).1 ≠ [] := by
  rw [round]
  split
  · simp
  · rename_i h
    rw [fit, if_pos (by omega)]
    simp

theorem round_head (cap : Nat) (x : α) (xs : List α) : ∃ p, (round size cap (x :: xs)).1 = x :: p := by
  obtain ⟨y, p, hp⟩ := List.exists_cons_of_ne_nil (round_ne_nil size cap x xs)
  have split := round_append size cap (x :: xs)
  rw [hp] at split
  exact ⟨p, by rw [hp, (List.cons.inj split).1]⟩

theorem length_round_snd_lt (cap : Nat) (x : α) (xs : List α) :
    (round size cap (x :: xs)).2.length < (x :: xs).length := by
  have split := congrArg List.length (round_append size cap (x :: xs))
  have pos := List.length_pos_iff.mpr (round_ne_nil size cap x xs)
  rw [List.length_append] at split
  omega

theorem total_round_blocked (cap : Nat) (xs : List α) {y : α} {ys : List α}
    (h : (round size cap xs).2 = y :: ys) : cap < total size (round size cap xs).1 + size y := by
  cases xs with
  | nil => simp at h
  | cons x xs =>
    rw [round] at h ⊢
    split at h
    · rename_i hx
      rw [if_pos hx]
      simp only [total_cons, total_nil]
      omega
    · rename_i hx
      rw [if_neg hx]
      exact fit_blocked size cap (x :: xs) h

/-- The rounds in which next-fit serves the whole sequence. -/
def nextFit (cap : Nat) : List α → List (List α)
  | [] => []
  | x :: xs => (round size cap (x :: xs)).1 :: nextFit cap (round size cap (x :: xs)).2
termination_by xs => xs.length
decreasing_by exact length_round_snd_lt size cap x xs

@[simp] theorem nextFit_nil (cap : Nat) : nextFit size cap [] = [] := by rw [nextFit]

theorem nextFit_cons (cap : Nat) (x : α) (xs : List α) : nextFit size cap (x :: xs) =
    (round size cap (x :: xs)).1 :: nextFit size cap (round size cap (x :: xs)).2 := by rw [nextFit]

theorem nextFit_flatten (cap : Nat) (xs : List α) : (nextFit size cap xs).flatten = xs := by
  induction xs using nextFit.induct size cap with
  | case1 => simp
  | case2 x xs ih => rw [nextFit_cons, List.flatten_cons, ih, round_append]

theorem nextFit_eq_nil {cap : Nat} {xs : List α} : nextFit size cap xs = [] ↔ xs = [] := by
  cases xs with
  | nil => simp
  | cons x xs => simp [nextFit_cons]

theorem nextFit_part_ne_nil {cap : Nat} {xs p : List α} (h : p ∈ nextFit size cap xs) : p ≠ [] := by
  induction xs using nextFit.induct size cap with
  | case1 => simp at h
  | case2 x xs ih =>
    rw [nextFit_cons] at h
    rcases List.mem_cons.mp h with rfl | h
    · exact round_ne_nil size cap x xs
    · exact ih h

theorem nextFit_part_large {cap : Nat} {xs p : List α} (h : p ∈ nextFit size cap xs)
    (large : cap < total size p) : ∃ x, p = [x] := by
  induction xs using nextFit.induct size cap with
  | case1 => simp at h
  | case2 x xs ih =>
    rw [nextFit_cons] at h
    rcases List.mem_cons.mp h with rfl | h
    · rw [round] at large ⊢
      split at large
      · rename_i hx
        exact ⟨x, by rw [if_pos hx]⟩
      · have := total_fit_le size cap (x :: xs)
        omega
    · exact ih h

/-- The capacity that rounds leave unused, the last round and the large items aside. -/
def waste (cap : Nat) (parts : List (List α)) : Nat :=
  ((parts.dropLast.filter fun p => total size p ≤ cap).map fun p => cap - total size p).sum

theorem waste_cons (cap : Nat) (p q : List α) (parts : List (List α)) :
    waste size cap (p :: q :: parts) = (cap - total size p) + waste size cap (q :: parts) := by
  simp only [waste, List.dropLast_cons_cons]
  by_cases h : total size p ≤ cap
  · simp [h]
  · rw [List.filter_cons_of_neg (by simpa using h)]
    omega

@[simp] theorem waste_nil (cap : Nat) : waste size cap ([] : List (List α)) = 0 := rfl

@[simp] theorem waste_singleton (cap : Nat) (p : List α) : waste size cap [p] = 0 := rfl

/-- What a round leaves unused is less than the item that starts the next round, so all
rounds together waste less than the items they serve. -/
theorem waste_nextFit_le (cap : Nat) (xs : List α) : waste size cap (nextFit size cap xs) +
    (match xs with | [] => 0 | x :: _ => size x) ≤ total size xs := by
  induction xs using nextFit.induct size cap with
  | case1 => simp
  | case2 x xs ih =>
    rw [nextFit_cons]
    have split := congrArg (total size) (round_append size cap (x :: xs))
    rw [total_append] at split
    obtain ⟨p, hp⟩ := round_head size cap x xs
    cases hr : (round size cap (x :: xs)).2 with
    | nil => simp
    | cons z zs =>
      rw [hr] at ih split
      have blocked := total_round_blocked size cap (x :: xs) hr
      rw [nextFit_cons, waste_cons, ← nextFit_cons]
      have first : size x ≤ total size (round size cap (x :: xs)).1 := by
        rw [hp, total_cons]
        omega
      simp only at ih ⊢
      omega

end Packing
