import Mathlib

/-! Pools of parties that move one at a time. A pool is a list, `tally f l b` counts the parties
that `f` sends to `b`, and one move changes it by one place at most. -/

namespace Pools

variable {α β : Type} [DecidableEq β]

/-- Whether `o` is `b`, as a number. -/
def hit (o : Option β) (b : β) : Nat := if o = some b then 1 else 0

@[simp] theorem hit_none (b : β) : hit none b = 0 := rfl

theorem hit_some (a b : β) : hit (some a) b = if a = b then 1 else 0 := by simp [hit]

@[simp] theorem hit_self (b : β) : hit (some b) b = 1 := by simp [hit]

theorem hit_le_one (o : Option β) (b : β) : hit o b ≤ 1 := by
  unfold hit
  split <;> omega

/-- How many entries of `l` the function `f` sends to `b`. -/
def tally (f : α → Option β) (l : List α) (b : β) : Nat := (l.map fun a => hit (f a) b).sum

variable (f : α → Option β) (b : β)

@[simp] theorem tally_nil : tally f [] b = 0 := rfl

@[simp] theorem tally_cons (a : α) (l : List α) : tally f (a :: l) b = hit (f a) b + tally f l b := rfl

@[simp] theorem tally_append (l l' : List α) : tally f (l ++ l') b = tally f l b + tally f l' b := by
  simp [tally]

theorem tally_pos {l : List α} {a : α} (h : a ∈ l) (ha : f a = some b) : 0 < tally f l b := by
  induction l with
  | nil => cases h
  | cons c l ih =>
    rw [tally_cons]
    rcases List.mem_cons.mp h with rfl | h
    · simp [ha]
    · exact Nat.add_pos_right _ (ih h)

theorem exists_of_tally_pos {l : List α} (h : 0 < tally f l b) : ∃ a ∈ l, f a = some b := by
  induction l with
  | nil => simp at h
  | cons c l ih =>
    by_cases hc : f c = some b
    · exact ⟨c, List.mem_cons_self, hc⟩
    · obtain ⟨a, ha, hfa⟩ := ih (by simpa [hit, hc] using h)
      exact ⟨a, List.mem_cons_of_mem c ha, hfa⟩

theorem eq_of_tally_le_one {l : List α} (one : tally f l b ≤ 1) {a a' : α} (h : a ∈ l) (h' : a' ∈ l)
    (ha : f a = some b) (ha' : f a' = some b) : a = a' := by
  induction l with
  | nil => cases h
  | cons c l ih =>
    rw [tally_cons] at one
    rcases List.mem_cons.mp h with rfl | rest <;> rcases List.mem_cons.mp h' with rfl | rest'
    · rfl
    · have more := tally_pos f b rest' ha'
      rw [ha, hit_self] at one
      omega
    · have more := tally_pos f b rest ha
      rw [ha', hit_self] at one
      omega
    · exact ih (by omega) rest rest'

theorem tally_eq_zero {l : List α} (h : ∀ a ∈ l, f a ≠ some b) : tally f l b = 0 := by
  by_contra hne
  obtain ⟨a, ha, hfa⟩ := exists_of_tally_pos f b (Nat.pos_of_ne_zero hne)
  exact h a ha hfa

theorem tally_set {l : List α} {k : Nat} {x : α} (h : l[k]? = some x) (y : α) :
    tally f (l.set k y) b + hit (f x) b = tally f l b + hit (f y) b := by
  induction l generalizing k with
  | nil => simp at h
  | cons a l ih =>
    cases k with
    | zero =>
      cases h
      simp only [List.set_cons_zero, tally_cons]
      omega
    | succ k =>
      have rest := ih (by simpa using h)
      simp only [List.set_cons_succ, tally_cons]
      omega

theorem tally_eraseIdx {l : List α} {k : Nat} {x : α} (h : l[k]? = some x) :
    tally f (l.eraseIdx k) b + hit (f x) b = tally f l b := by
  induction l generalizing k with
  | nil => simp at h
  | cons a l ih =>
    cases k with
    | zero =>
      cases h
      simp only [List.eraseIdx_cons_zero, tally_cons]
      omega
    | succ k =>
      have rest := ih (by simpa using h)
      simp only [List.eraseIdx_cons_succ, tally_cons]
      omega

theorem tally_set_same {l : List α} {k : Nat} {x y : α} (h : l[k]? = some x) (hf : f y = f x) :
    tally f (l.set k y) b = tally f l b := by
  have moved := tally_set f b h y
  rw [hf] at moved
  omega

theorem tally_mono {g : α → Option β} (h : ∀ a c, f a = some c → g a = some c) {l : List α} :
    tally f l b ≤ tally g l b := by
  induction l with
  | nil => exact Nat.le_refl _
  | cons a l ih =>
    have head : hit (f a) b ≤ hit (g a) b := by
      unfold hit
      split
      · rw [if_pos (h a b ‹_›)]
      · exact Nat.zero_le _
    simp only [tally_cons]
    omega

theorem tally_filterMap (l : List α) : tally f l b = (l.filterMap f).count b := by
  induction l with
  | nil => rfl
  | cons a l ih =>
    rw [tally_cons, ih]
    cases h : f a with
    | none => simp [h]
    | some c =>
      rw [List.filterMap_cons_some h, List.count_cons, hit_some]
      simp only [beq_iff_eq]
      omega

theorem tally_some [DecidableEq α] (l : List α) (a : α) : tally some l a = l.count a := by
  rw [tally_filterMap, List.filterMap_some]

end Pools
