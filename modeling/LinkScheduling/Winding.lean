import Mathlib

/-! Systems that wind down. Some of their steps are idle: they may be taken at any time and bring
nothing forward. The others are busy. Where every busy step lowers a measure that no idle step
changes, and the system can take a busy step until it is final, it becomes final in the end,
whatever is chosen on the way. -/

namespace Winding
open Relation

section Winds
variable {σ α : Type*} (Idle Busy : σ → σ → Prop) (Final : σ → Prop)

/-- However the idle steps are interspersed, the system is final or can take a busy step, and it
takes finitely many of these. -/
inductive Winds : σ → Prop
  | intro {s : σ} (able : ∀ t, ReflTransGen Idle s t → Final t ∨ ∃ u, Busy t u)
      (on : ∀ t u, ReflTransGen Idle s t → Busy t u → Winds u) : Winds s

variable {Idle Busy Final} {Inv : σ → Prop} {measure : σ → α}

theorem idle_keeps (idle : ∀ s t, Inv s → Idle s t → Inv t ∧ measure t = measure s) {s t : σ} (h : Inv s)
    (steps : ReflTransGen Idle s t) : Inv t ∧ measure t = measure s := by
  induction steps with
  | refl => exact ⟨h, rfl⟩
  | tail _ last ih =>
    obtain ⟨kept, same⟩ := idle _ _ ih.1 last
    exact ⟨kept, same.trans ih.2⟩

theorem winds_of_measure [Preorder α] [WellFoundedLT α]
    (idle : ∀ s t, Inv s → Idle s t → Inv t ∧ measure t = measure s)
    (busy : ∀ s t, Inv s → Busy s t → Inv t ∧ measure t < measure s)
    (able : ∀ s, Inv s → Final s ∨ ∃ t, Busy s t) {s : σ} (h : Inv s) : Winds Idle Busy Final s := by
  generalize hm : measure s = m
  induction m using WellFoundedLT.induction generalizing s with
  | ind m ih =>
    apply Winds.intro
    · intro t steps
      exact able t (idle_keeps idle h steps).1
    · intro t u steps last
      obtain ⟨kept, same⟩ := idle_keeps idle h steps
      obtain ⟨kept', less⟩ := busy t u kept last
      rw [same, hm] at less
      exact ih (measure u) less kept' rfl

end Winds

section Weight
variable {α : Type*} (f : α → Nat)

/-- What the entries of a pool weigh together. -/
def weight (l : List α) : Nat := (l.map f).sum

@[simp] theorem weight_nil : weight f [] = 0 := rfl

@[simp] theorem weight_cons (a : α) (l : List α) : weight f (a :: l) = f a + weight f l := rfl

@[simp] theorem weight_append (l l' : List α) : weight f (l ++ l') = weight f l + weight f l' := by
  simp [weight]

theorem weight_congr {g : α → Nat} {l : List α} (h : ∀ a ∈ l, f a = g a) : weight f l = weight g l := by
  rw [weight, List.map_congr_left h, weight]

theorem weight_set {l : List α} {k : Nat} {x : α} (h : l[k]? = some x) (y : α) :
    weight f (l.set k y) + f x = weight f l + f y := by
  induction l generalizing k with
  | nil => simp at h
  | cons a l ih =>
    cases k with
    | zero =>
      cases h
      simp only [List.set_cons_zero, weight_cons]
      omega
    | succ k =>
      have rest := ih (by simpa using h)
      simp only [List.set_cons_succ, weight_cons]
      omega

theorem weight_slot {l : List α} {k : Nat} {x z : α} (h : l[k]? = some x) (zero : f z = 0) (y : α) :
    weight f (l.set k y) = weight f (l.set k z) + f y := by
  have placed := weight_set f h y
  have cleared := weight_set f h z
  omega

theorem weight_rest {l : List α} {k : Nat} {x z : α} (h : l[k]? = some x) (zero : f z = 0) :
    weight f l = weight f (l.set k z) + f x := by
  have cleared := weight_set f h z
  omega

theorem weight_eraseIdx {l : List α} {k : Nat} {x : α} (h : l[k]? = some x) :
    weight f (l.eraseIdx k) + f x = weight f l := by
  induction l generalizing k with
  | nil => simp at h
  | cons a l ih =>
    cases k with
    | zero =>
      cases h
      simp only [List.eraseIdx_cons_zero, weight_cons]
      omega
    | succ k =>
      have rest := ih (by simpa using h)
      simp only [List.eraseIdx_cons_succ, weight_cons]
      omega

end Weight

end Winding
