import Mathlib

/-! Splitting a sequence into lines, each with the separator that ends it; a last line may
lack one. A boundary is a position where a line may begin. -/

namespace Lines

variable {α : Type} [DecidableEq α] (sep : α)

def lines : List α → List (List α)
  | [] => []
  | b :: bs =>
    if b = sep then [b] :: lines bs
    else
      match lines bs with
      | [] => [[b]]
      | l :: ls => (b :: l) :: ls

/-- Position `k` is the beginning, or just after a separator. -/
def IsBoundary (xs : List α) (k : Nat) : Prop := k = 0 ∨ 0 < k ∧ xs[k - 1]? = some sep

variable {sep}

@[simp] theorem lines_nil : lines sep [] = [] := rfl

theorem lines_eq_nil {c : List α} : lines sep c = [] ↔ c = [] := by
  cases c with
  | nil => simp
  | cons b bs =>
    simp only [lines]
    split
    · simp
    · split <;> simp

@[simp] theorem lines_flatten (c : List α) : (lines sep c).flatten = c := by
  induction c with
  | nil => rfl
  | cons b bs ih =>
    simp only [lines]
    split
    · simp [ih]
    · cases h : lines sep bs with
      | nil =>
        rw [lines_eq_nil] at h
        simp [h]
      | cons l ls =>
        rw [h] at ih
        simpa using ih

theorem lines_ne_nil {c l : List α} (h : l ∈ lines sep c) : l ≠ [] := by
  induction c generalizing l with
  | nil => simp at h
  | cons b bs ih =>
    simp only [lines] at h
    split at h
    · rcases List.mem_cons.mp h with rfl | h
      · simp
      · exact ih h
    · split at h
      · simp only [List.mem_singleton] at h
        simp [h]
      · rename_i l' ls' hl
        rcases List.mem_cons.mp h with rfl | h
        · simp
        · exact ih (by rw [hl]; exact List.mem_cons_of_mem _ h)

theorem lines_tail {c l : List α} {ls : List (List α)} (h : lines sep c = l :: ls) :
    lines sep ls.flatten = ls := by
  induction c generalizing l with
  | nil => simp at h
  | cons b bs ih =>
    simp only [lines] at h
    split at h
    · cases h
      rw [lines_flatten]
    · split at h
      · cases h
        rfl
      · rename_i l' ls' hl
        cases h
        exact ih hl

theorem lines_suffix {c : List α} {before ls : List (List α)} (h : lines sep c = before ++ ls) :
    lines sep ls.flatten = ls := by
  induction before generalizing c with
  | nil =>
    rw [List.nil_append] at h
    rw [← h, lines_flatten]
  | cons l before ih => exact ih (lines_tail h)

theorem getLast?_of_followed {c l : List α} {m : List α} {ls : List (List α)}
    (h : lines sep c = l :: m :: ls) : l.getLast? = some sep := by
  induction c generalizing l with
  | nil => simp at h
  | cons b bs ih =>
    simp only [lines] at h
    split at h
    · rename_i hb
      obtain ⟨rfl, -⟩ := List.cons.inj h
      simp [hb]
    · split at h
      · cases h
      · rename_i l' ls' hl
        cases h
        have last := ih hl
        cases l' with
        | nil => exact absurd rfl (lines_ne_nil (by rw [hl]; exact List.mem_cons_self))
        | cons x xs => simpa using last

theorem lines_append_of_sep {p : List α} (h : p.getLast? = some sep) (s : List α) :
    lines sep (p ++ s) = lines sep p ++ lines sep s := by
  induction p with
  | nil => simp at h
  | cons b bs ih =>
    cases bs with
    | nil =>
      have hb : b = sep := by simpa using h
      simp [lines, hb]
    | cons x xs =>
      have last : (x :: xs).getLast? = some sep := by simpa using h
      have step := ih last
      rw [List.cons_append, lines, lines]
      split
      · rw [step, List.cons_append]
      · cases hl : lines sep (x :: xs) with
        | nil => simp [lines_eq_nil] at hl
        | cons l ls =>
          rw [hl] at step
          rw [step]
          rfl

omit [DecidableEq α] in
theorem IsBoundary.le_length {c : List α} {k : Nat} (h : IsBoundary sep c k) : k ≤ c.length := by
  rcases h with rfl | ⟨hk, h⟩
  · exact Nat.zero_le _
  · have := (List.getElem?_eq_some_iff.mp h).1
    omega

theorem IsBoundary.lines_split {c : List α} {k : Nat} (h : IsBoundary sep c k) :
    lines sep c = lines sep (c.take k) ++ lines sep (c.drop k) := by
  have hle := h.le_length
  rcases h with rfl | ⟨hk, h⟩
  · simp
  · have last : (c.take k).getLast? = some sep := by
      rw [List.getLast?_eq_getElem?, List.length_take, Nat.min_eq_left hle,
        List.getElem?_take_of_lt (by omega)]
      exact h
    rw [← lines_append_of_sep last, List.take_append_drop]

theorem isBoundary_of_front {c : List α} {before rest : List (List α)}
    (h : lines sep c = before ++ rest) (hrest : rest ≠ []) :
    IsBoundary sep c before.flatten.length := by
  rcases List.eq_nil_or_concat before with rfl | ⟨front, l, rfl⟩
  · exact Or.inl rfl
  · obtain ⟨m, ls, rfl⟩ := List.exists_cons_of_ne_nil hrest
    have here : lines sep (l :: m :: ls).flatten = l :: m :: ls :=
      lines_suffix (show lines sep c = front ++ l :: m :: ls by simpa using h)
    have last := getLast?_of_followed here
    have hl : l ≠ [] := by
      rintro rfl
      simp at last
    have hpos := List.length_pos_iff.mpr hl
    refine Or.inr ⟨by simp; omega, ?_⟩
    have hc : c = front.flatten ++ (l ++ (m :: ls).flatten) := by
      rw [← (lines_flatten c : (lines sep c).flatten = c), h]
      simp
    have index : (front ++ [l]).flatten.length - 1 = front.flatten.length + (l.length - 1) := by
      simp only [List.flatten_append, List.flatten_cons, List.flatten_nil, List.append_nil,
        List.length_append]
      omega
    simp only [List.concat_eq_append]
    rw [index, hc, List.getElem?_append_right (by omega), Nat.add_sub_cancel_left,
      List.getElem?_append_left (by omega), ← List.getLast?_eq_getElem?]
    exact last

theorem IsBoundary.not_inside {c l : List α} {before rest : List (List α)} {k : Nat}
    (h : IsBoundary sep c k) (cut : lines sep c = before ++ l :: rest)
    (past : before.flatten.length < k) : before.flatten.length + l.length ≤ k := by
  have start : (lines sep (c.take k)).flatten.length = k := by
    rw [lines_flatten, List.length_take, Nat.min_eq_left h.le_length]
  have split := cut.symm.trans h.lines_split
  rcases List.append_eq_append_iff.mp split with ⟨m, hm, -⟩ | ⟨m, hm, -⟩
  · have first : m = [] ∨ ∃ t, m = l :: t := by
      cases m with
      | nil => exact .inl rfl
      | cons x t =>
        rw [hm, List.append_assoc] at split
        have := List.append_cancel_left split
        exact .inr ⟨t, by rw [(List.cons.inj this).1]⟩
    rw [hm, List.flatten_append, List.length_append] at start
    rcases first with rfl | ⟨t, rfl⟩
    · simp only [List.flatten_nil, List.length_nil] at start
      omega
    · simp only [List.flatten_cons, List.length_append] at start
      omega
  · rw [hm, List.flatten_append, List.length_append] at past
    omega

theorem length_head {c l : List α} {ls : List (List α)} (h : lines sep c = l :: ls) :
    l.length = if sep ∈ c then c.idxOf sep + 1 else c.length := by
  induction c generalizing l with
  | nil => simp at h
  | cons b bs ih =>
    simp only [lines] at h
    split at h
    · rename_i hb
      cases h
      simp [hb]
    · rename_i hb
      have hne : sep ≠ b := fun e => hb e.symm
      split at h
      · rename_i hbs
        rw [lines_eq_nil] at hbs
        cases h
        simp [hbs, hne]
      · rename_i l' ls' hl
        cases h
        have step := ih hl
        by_cases hmem : sep ∈ bs
        · rw [if_pos hmem] at step
          rw [if_pos (List.mem_cons_of_mem _ hmem), List.idxOf_cons_ne _ hb]
          simp [step]
        · rw [if_neg hmem] at step
          simp [step, hmem, hne]

end Lines
