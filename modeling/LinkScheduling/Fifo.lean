import Mathlib

/-! A first-in first-out queue of distinct items, as its users see it: a trace of pushes and pops.
`run tr q` is the queue that the trace leaves of `q`, and `none` for a trace that no such queue
has: one that pops another item than the oldest, or pushes an item that is waiting already. -/

namespace Fifo

variable {α : Type}

inductive Event (α : Type)
  | push (a : α)
  | pop (a : α)
  deriving DecidableEq

def pushes (tr : List (Event α)) : List α :=
  tr.filterMap fun | .push a => some a | .pop _ => none

def pops (tr : List (Event α)) : List α :=
  tr.filterMap fun | .push _ => none | .pop a => some a

@[simp] theorem pushes_nil : pushes ([] : List (Event α)) = [] := rfl
@[simp] theorem pops_nil : pops ([] : List (Event α)) = [] := rfl
@[simp] theorem pushes_push (a : α) (tr : List (Event α)) : pushes (.push a :: tr) = a :: pushes tr := rfl
@[simp] theorem pushes_pop (a : α) (tr : List (Event α)) : pushes (.pop a :: tr) = pushes tr := rfl
@[simp] theorem pops_push (a : α) (tr : List (Event α)) : pops (.push a :: tr) = pops tr := rfl
@[simp] theorem pops_pop (a : α) (tr : List (Event α)) : pops (.pop a :: tr) = a :: pops tr := rfl

@[simp] theorem pushes_append (tr tr' : List (Event α)) : pushes (tr ++ tr') = pushes tr ++ pushes tr' :=
  List.filterMap_append

@[simp] theorem pops_append (tr tr' : List (Event α)) : pops (tr ++ tr') = pops tr ++ pops tr' :=
  List.filterMap_append

theorem mem_pops {a : α} {tr : List (Event α)} : a ∈ pops tr ↔ .pop a ∈ tr := by
  unfold pops
  rw [List.mem_filterMap]
  constructor
  · rintro ⟨e, he, h⟩
    cases e with
    | push b => simp at h
    | pop b => simpa [← Option.some.inj h] using he
  · exact fun h => ⟨_, h, rfl⟩

variable [DecidableEq α]

def step : Event α → List α → Option (List α)
  | .push a, q => if a ∈ q then none else some (q ++ [a])
  | .pop _, [] => none
  | .pop a, b :: q => if a = b then some q else none

def run : List (Event α) → List α → Option (List α)
  | [], q => some q
  | e :: tr, q => (step e q).bind (run tr)

theorem step_push {a : α} {q q' : List α} : step (.push a) q = some q' ↔ a ∉ q ∧ q' = q ++ [a] := by
  by_cases h : a ∈ q
  · simp [step, h]
  · simp [step, h, eq_comm]

theorem step_pop {a : α} {q q' : List α} : step (.pop a) q = some q' ↔ q = a :: q' := by
  cases q with
  | nil => simp [step]
  | cons b q =>
    by_cases h : a = b
    · simp [step, h]
    · simp [step, h, Ne.symm h]

theorem run_append (tr tr' : List (Event α)) (q : List α) :
    run (tr ++ tr') q = (run tr q).bind (run tr') := by
  induction tr generalizing q with
  | nil => rfl
  | cons e tr ih => cases h : step e q <;> simp [run, h, ih]

theorem run_snoc {tr : List (Event α)} {q q' q'' : List α} {e : Event α} (h : run tr q = some q')
    (he : step e q' = some q'') : run (tr ++ [e]) q = some q'' := by
  rw [run_append, h]
  simp [run, he]

theorem run_order {tr : List (Event α)} {q q' : List α} (h : run tr q = some q') :
    q ++ pushes tr = pops tr ++ q' := by
  induction tr generalizing q with
  | nil => simpa using Option.some.inj h
  | cons e tr ih =>
    obtain ⟨m, hm, rest⟩ := Option.bind_eq_some_iff.mp h
    have order := ih rest
    cases e with
    | push a =>
      obtain ⟨-, rfl⟩ := step_push.mp hm
      simpa using order
    | pop a =>
      rw [step_pop.mp hm]
      simpa using order

theorem run_nodup {tr : List (Event α)} {q q' : List α} (h : run tr q = some q') (hq : q.Nodup) :
    q'.Nodup := by
  induction tr generalizing q with
  | nil => exact Option.some.inj h ▸ hq
  | cons e tr ih =>
    obtain ⟨m, hm, rest⟩ := Option.bind_eq_some_iff.mp h
    refine ih rest ?_
    cases e with
    | push a =>
      obtain ⟨new, rfl⟩ := step_push.mp hm
      exact List.nodup_append.mpr ⟨hq, List.nodup_singleton a, by
        rintro x hx y hy rfl
        exact new (List.mem_singleton.mp hy ▸ hx)⟩
    | pop a => exact (List.nodup_cons.mp (step_pop.mp hm ▸ hq)).2

theorem split_at_first {a : α} {l l' m m' : List α} (hl : a ∉ l) (hl' : a ∉ l')
    (h : l ++ a :: m = l' ++ a :: m') : l = l' ∧ m = m' := by
  have cut : ∀ k n : List α, a ∉ k → (k ++ a :: n).takeWhile (· ≠ a) = k := by
    intro k n hk
    rw [List.takeWhile_append_of_pos (by simpa using fun x hx => ne_of_mem_of_not_mem hx hk)]
    simp
  have same : l = l' := by rw [← cut l m hl, h, cut l' m' hl']
  subst same
  exact ⟨rfl, (List.cons.inj (List.append_cancel_left h)).2⟩

/-- Between the push of an item and its pop exactly the items go that waited when it was pushed,
each once and in their order. -/
theorem run_between {tr : List (Event α)} {a : α} {q q' : List α}
    (h : run (.push a :: (tr ++ [.pop a])) q = some q') (ha : Event.pop a ∉ tr) :
    a ∉ q ∧ pops tr = q ∧ q' = pushes tr := by
  obtain ⟨m, hm, rest⟩ := Option.bind_eq_some_iff.mp h
  obtain ⟨new, rfl⟩ := step_push.mp hm
  have order := run_order rest
  simp only [pushes_append, pops_append, pushes_pop, pops_pop, pushes_nil, pops_nil,
    List.append_nil, List.append_assoc, List.singleton_append] at order
  obtain ⟨before, after⟩ := split_at_first new (fun hmem => ha (mem_pops.mp hmem)) order
  exact ⟨new, before.symm, after.symm⟩

theorem not_overtaken {tr early late : List (Event α)} {a b : α} {q q' : List α}
    (h : run (.push a :: (tr ++ [.pop a])) q = some q') (ha : Event.pop a ∉ tr) (hq : q.Nodup)
    (split : tr = early ++ (.push b :: late)) : Event.pop b ∉ late := by
  obtain ⟨-, gone, -⟩ := run_between h ha
  subst split
  intro hb
  have waited : b ∈ q := gone ▸ mem_pops.mpr (by simp [hb])
  obtain ⟨m, hm, rest⟩ := Option.bind_eq_some_iff.mp h
  obtain ⟨-, rfl⟩ := step_push.mp hm
  rw [List.append_assoc, run_append] at rest
  obtain ⟨m, hm, rest⟩ := Option.bind_eq_some_iff.mp rest
  obtain ⟨m', hm', -⟩ := Option.bind_eq_some_iff.mp rest
  -- `b` has left the queue when it is pushed, so it goes twice
  have left : b ∈ pops early := by
    have order := run_order hm
    have mem : b ∈ pops early ++ m := order ▸ by simp [waited]
    exact (List.mem_append.mp mem).resolve_right (step_push.mp hm').1
  rw [pops_append, pops_push] at gone
  exact (List.nodup_append.mp (gone ▸ hq)).2.2 b left b (mem_pops.mpr hb) rfl

end Fifo
