import Mathlib

/-! Handles that are given out once, in increasing order. The entries of a log open, use and
close them, and a tidy log names none that it has closed. `Conducts` says what one party has
done to the handles it holds, and `Custody` that no two parties ever name the same handle. -/

namespace Handles

inductive Deed
  | opens
  | uses
  | closes
  deriving DecidableEq

section Logs
variable {E H : Type} (deed : E → Option (Deed × H))

def Named (l : List E) (h : H) : Prop := ∃ e ∈ l, ∃ d, deed e = some (d, h)

def Opened (l : List E) (h : H) : Prop := ∃ e ∈ l, deed e = some (.opens, h)

def Closed (l : List E) (h : H) : Prop := ∃ e ∈ l, deed e = some (.closes, h)

/-- No handle is named again once it is closed. -/
def Tidy (l : List E) : Prop :=
  l.Pairwise fun e e' => ∀ h, deed e = some (.closes, h) → ∀ d, deed e' ≠ some (d, h)

def closings [DecidableEq H] (l : List E) (h : H) : Nat := l.countP fun e => deed e = some (.closes, h)

variable {deed} {l l' : List E} {h : H}

theorem Opened.named (o : Opened deed l h) : Named deed l h := o.imp fun _ he => ⟨he.1, _, he.2⟩

theorem Closed.named (c : Closed deed l h) : Named deed l h := c.imp fun _ he => ⟨he.1, _, he.2⟩

@[simp] theorem named_nil : ¬ Named deed [] h := by simp [Named]

@[simp] theorem opened_nil : ¬ Opened deed [] h := by simp [Opened]

@[simp] theorem closed_nil : ¬ Closed deed [] h := by simp [Closed]

@[simp] theorem named_append : Named deed (l ++ l') h ↔ Named deed l h ∨ Named deed l' h := by
  simp [Named, or_and_right, exists_or]

@[simp] theorem opened_append : Opened deed (l ++ l') h ↔ Opened deed l h ∨ Opened deed l' h := by
  simp [Opened, or_and_right, exists_or]

@[simp] theorem closed_append : Closed deed (l ++ l') h ↔ Closed deed l h ∨ Closed deed l' h := by
  simp [Closed, or_and_right, exists_or]

@[simp] theorem opened_singleton {e : E} : Opened deed [e] h ↔ deed e = some (.opens, h) := by
  simp [Opened]

@[simp] theorem closed_singleton {e : E} : Closed deed [e] h ↔ deed e = some (.closes, h) := by
  simp [Closed]

theorem tidy_nil : Tidy deed [] := .nil

theorem tidy_append :
    Tidy deed (l ++ l') ↔ Tidy deed l ∧ Tidy deed l' ∧ ∀ h, Closed deed l h → ¬ Named deed l' h := by
  unfold Tidy
  rw [List.pairwise_append]
  refine and_congr_right fun _ => and_congr_right fun _ => ?_
  constructor
  · rintro apart h ⟨e, he, closes⟩ ⟨e', he', d, named⟩
    exact apart e he e' he' h closes d named
  · intro apart e he e' he' h closes d named
    exact apart h ⟨e, he, closes⟩ ⟨e', he', d, named⟩

theorem closed_iff_closings [DecidableEq H] : Closed deed l h ↔ 0 < closings deed l h := by
  simp [Closed, closings, List.countP_pos_iff]

theorem Tidy.closings_le_one [DecidableEq H] (tidy : Tidy deed l) (h : H) : closings deed l h ≤ 1 := by
  induction l with
  | nil => exact Nat.zero_le _
  | cons e l ih =>
    have rest := ih (List.pairwise_cons.mp tidy).2
    rw [closings, List.countP_cons]
    by_cases closes : deed e = some (.closes, h)
    · have last : ¬ Closed deed l h := by
        rintro ⟨e', he', again⟩
        exact (List.pairwise_cons.mp tidy).1 e' he' h closes _ again
      rw [closed_iff_closings] at last
      unfold closings at last
      split <;> omega
    · rw [if_neg (by simpa using closes)]
      exact rest

end Logs

section Maps
variable {E E' H : Type} {deed : E → Option (Deed × H)} {deed' : E' → Option (Deed × H)} {f : E → E'}
  (same : ∀ e, deed' (f e) = deed e) {l : List E} {h : H}
include same

theorem named_map : Named deed' (l.map f) h ↔ Named deed l h := by simp [Named, same]

theorem opened_map : Opened deed' (l.map f) h ↔ Opened deed l h := by simp [Opened, same]

theorem closed_map : Closed deed' (l.map f) h ↔ Closed deed l h := by simp [Closed, same]

theorem tidy_map : Tidy deed' (l.map f) ↔ Tidy deed l := by simp [Tidy, List.pairwise_map, same]

end Maps

section Party
variable {E H : Type} [LinearOrder H] (deed : E → Option (Deed × H))

/-- A party that holds the handles `own` writes the log `l` and then holds `own'`. The handles
below `n` are given out when it begins, and those below `n'` when it ends. -/
structure Conducts (n : H) (own : Set H) (l : List E) (n' : H) (own' : Set H) : Prop where
  le : n ≤ n'
  tidy : Tidy deed l
  within : ∀ {h}, Named deed l h → h ∈ own ∨ n ≤ h ∧ h < n'
  fresh : ∀ {h}, Opened deed l h → n ≤ h
  kept : ∀ h, h ∈ own' ↔ (h ∈ own ∨ Opened deed l h) ∧ ¬ Closed deed l h

variable {deed} {n n' n'' : H} {own own' own'' : Set H} {l l' : List E}

theorem Conducts.uses (le : n ≤ n')
    (held : ∀ e ∈ l, ∀ d h, deed e = some (d, h) → d = .uses ∧ h ∈ own) : Conducts deed n own l n' own where
  le := le
  tidy := by
    refine List.pairwise_of_forall_mem_list fun e he e' he' h closes => ?_
    cases (held e he _ _ closes).1
  within := by
    rintro h ⟨e, he, d, named⟩
    exact .inl (held e he d h named).2
  fresh := by
    rintro h ⟨e, he, opens⟩
    cases (held e he _ _ opens).1
  kept h := by
    have opened : ¬ Opened deed l h := by
      rintro ⟨e, he, opens⟩
      cases (held e he _ _ opens).1
    have closed : ¬ Closed deed l h := by
      rintro ⟨e, he, closes⟩
      cases (held e he _ _ closes).1
    simp [opened, closed]

theorem Conducts.nil (le : n ≤ n') : Conducts deed n own ([] : List E) n' own :=
  .uses le fun _ he => absurd he List.not_mem_nil

theorem Conducts.opens {e : E} (he : deed e = some (.opens, n)) (lt : n < n') :
    Conducts deed n own [e] n' (insert n own) where
  le := le_of_lt lt
  tidy := List.pairwise_singleton _ _
  within := by
    rintro h ⟨e', he', d, named⟩
    rw [List.mem_singleton.mp he', he, Option.some.injEq, Prod.mk.injEq] at named
    exact .inr ⟨named.2.le, named.2 ▸ lt⟩
  fresh := by
    intro h opened
    rw [opened_singleton, he, Option.some.injEq, Prod.mk.injEq] at opened
    exact opened.2.le
  kept h := by
    simp only [Set.mem_insert_iff, opened_singleton, closed_singleton, he, Option.some.injEq, Prod.mk.injEq,
      true_and, reduceCtorEq, false_and, not_false_eq_true, and_true, eq_comm, or_comm]

theorem Conducts.closes {e : E} {h : H} (he : deed e = some (.closes, h)) (held : h ∈ own) (le : n ≤ n') :
    Conducts deed n own [e] n' (own \ {h}) where
  le := le
  tidy := List.pairwise_singleton _ _
  within := by
    rintro h' ⟨e', he', d, named⟩
    rw [List.mem_singleton.mp he', he, Option.some.injEq, Prod.mk.injEq] at named
    exact .inl (named.2 ▸ held)
  fresh := by
    intro h' opened
    rw [opened_singleton, he] at opened
    cases opened
  kept h' := by
    simp only [Set.mem_sdiff, Set.mem_singleton_iff, opened_singleton, closed_singleton, he, Option.some.injEq,
      Prod.mk.injEq, true_and, reduceCtorEq, false_and, or_false, eq_comm]

theorem Conducts.map {E' : Type} {deed' : E' → Option (Deed × H)} {f : E → E'} (same : ∀ e, deed' (f e) = deed e)
    (c : Conducts deed n own l n' own') : Conducts deed' n own (l.map f) n' own' where
  le := c.le
  tidy := (tidy_map same).mpr c.tidy
  within named := c.within ((named_map same).mp named)
  fresh opened := c.fresh ((opened_map same).mp opened)
  kept h := by rw [opened_map same, closed_map same, c.kept]

theorem Conducts.below (c : Conducts deed n own l n' own') (below : ∀ h ∈ own, h < n) : ∀ h ∈ own', h < n' := by
  intro h held
  rcases ((c.kept h).mp held).1 with held | opened
  · exact lt_of_lt_of_le (below h held) c.le
  · rcases c.within opened.named with held | inside
    · exact lt_of_lt_of_le (below h held) c.le
    · exact inside.2

theorem Conducts.append (below : ∀ h ∈ own, h < n) (c : Conducts deed n own l n' own')
    (c' : Conducts deed n' own' l' n'' own'') : Conducts deed n own (l ++ l') n'' own'' where
  le := c.le.trans c'.le
  tidy := by
    refine tidy_append.mpr ⟨c.tidy, c'.tidy, fun h closed named => ?_⟩
    rcases c'.within named with held | ⟨later, -⟩
    · exact ((c.kept h).mp held).2 closed
    · rcases c.within closed.named with held | ⟨-, earlier⟩
      · exact absurd (lt_of_lt_of_le (below h held) c.le) (not_lt.mpr later)
      · exact absurd earlier (not_lt.mpr later)
  within := by
    intro h named
    rcases named_append.mp named with named | named
    · exact (c.within named).imp_right fun inside => ⟨inside.1, lt_of_lt_of_le inside.2 c'.le⟩
    · rcases c'.within named with held | inside
      · rcases ((c.kept h).mp held).1 with held | opened
        · exact .inl held
        · exact (c.within opened.named).imp_right fun inside => ⟨inside.1, lt_of_lt_of_le inside.2 c'.le⟩
      · exact .inr ⟨c.le.trans inside.1, inside.2⟩
  fresh := by
    intro h opened
    rcases opened_append.mp opened with opened | opened
    · exact c.fresh opened
    · exact c.le.trans (c'.fresh opened)
  kept h := by
    -- what `l'` opens is new, so `l` has not closed it
    have unclosed : Opened deed l' h → ¬ Closed deed l h := by
      intro opened closed
      rcases c.within closed.named with held | ⟨-, earlier⟩
      · exact absurd (lt_of_lt_of_le (below h held) c.le) (not_lt.mpr (c'.fresh opened))
      · exact absurd earlier (not_lt.mpr (c'.fresh opened))
    rw [c'.kept, c.kept, opened_append, closed_append]
    tauto

end Party

section Parties
variable {E H P : Type} (deed : E → Option (Deed × H))

def entries (log : List (P × E)) : List E := log.map Prod.snd

def Obtained (log : List (P × E)) (p : P) (h : H) : Prop := ∃ e, (p, e) ∈ log ∧ deed e = some (.opens, h)

@[simp] theorem entries_append (log log' : List (P × E)) : entries (log ++ log') = entries log ++ entries log' :=
  List.map_append

@[simp] theorem entries_of (p : P) (l : List E) : entries (l.map fun e => (p, e)) = l := by
  simp [entries, Function.comp_def]

variable {deed} in
theorem named_entries {log : List (P × E)} {h : H} : Named deed (entries log) h ↔ ∃ p e d, (p, e) ∈ log ∧ deed e = some (d, h) := by
  simp only [Named, entries, List.mem_map, Prod.exists]
  constructor
  · rintro ⟨e, ⟨p, e', he, rfl⟩, d, named⟩
    exact ⟨p, e', d, he, named⟩
  · rintro ⟨p, e, d, he, named⟩
    exact ⟨e, ⟨p, e, he, rfl⟩, d, named⟩

variable [LinearOrder H]

/-- The handles below `n` are given out, and each party holds those it has opened and not closed. -/
structure Custody (n : H) (owns : P → Set H) (log : List (P × E)) : Prop where
  tidy : Tidy deed (entries log)
  below : ∀ {p h}, h ∈ owns p → h < n
  past : ∀ {h}, Named deed (entries log) h → h < n
  unclosed : ∀ {p h}, h ∈ owns p → ¬ Closed deed (entries log) h
  kept : ∀ {p h}, Obtained deed log p h → ¬ Closed deed (entries log) h → h ∈ owns p
  apart : ∀ {p q h}, h ∈ owns p → h ∈ owns q → p = q
  held : ∀ {p q e d h}, h ∈ owns p → (q, e) ∈ log → deed e = some (d, h) → q = p
  alone : ∀ {p q e e' d d' h}, (p, e) ∈ log → deed e = some (d, h) → (q, e') ∈ log → deed e' = some (d', h) → p = q

variable {deed} {n n' : H} {owns owns' : P → Set H} {log : List (P × E)}

theorem Custody.nil (n : H) : Custody deed n (fun _ : P => (∅ : Set H)) ([] : List (P × E)) := by
  refine ⟨tidy_nil, ?_, ?_, ?_, ?_, ?_, ?_, ?_⟩ <;> simp [entries, Obtained]

theorem Custody.idle (c : Custody deed n owns log) (le : n ≤ n') (same : ∀ p, owns' p = owns p) :
    Custody deed n' owns' log := by
  obtain rfl : owns' = owns := funext same
  exact ⟨c.tidy, fun held => lt_of_lt_of_le (c.below held) le, fun named => lt_of_lt_of_le (c.past named) le,
    c.unclosed, c.kept, c.apart, c.held, c.alone⟩

theorem Custody.act (c : Custody deed n owns log) {p : P} {l : List E} (acts : Conducts deed n (owns p) l n' (owns' p))
    (others : ∀ q ≠ p, owns' q = owns q) : Custody deed n' owns' (log ++ l.map fun e => (p, e)) := by
  -- a handle that `p` names and `log` has named before is `p`'s
  have mine : ∀ {h}, Named deed l h → h < n → h ∈ owns p := by
    intro h named earlier
    exact (acts.within named).resolve_right fun inside => absurd earlier (not_lt.mpr inside.1)
  have owned : ∀ {q h}, h ∈ owns' q → h ∈ owns q ∨ q = p ∧ n ≤ h := by
    intro q h hq
    by_cases same : q = p
    · subst same
      exact ((acts.kept h).mp hq).1.imp_right fun opened => ⟨rfl, acts.fresh opened⟩
    · rw [others q same] at hq
      exact .inl hq
  have mem : ∀ {q e}, (q, e) ∈ log ++ l.map (fun e => (p, e)) → (q, e) ∈ log ∨ q = p ∧ e ∈ l := by
    intro q e he
    rcases List.mem_append.mp he with he | he
    · exact .inl he
    · obtain ⟨e', he', same⟩ := List.mem_map.mp he
      cases same
      exact .inr ⟨rfl, he'⟩
  have later : ∀ {h}, n ≤ h → ¬ Named deed (entries log) h := fun le named => absurd (c.past named) (not_lt.mpr le)
  have by_p : ∀ {q e d h}, (q, e) ∈ log → deed e = some (d, h) → Named deed l h → q = p := by
    intro q e d h he named named'
    exact c.held (mine named' (c.past (named_entries.mpr ⟨q, e, d, he, named⟩))) he named
  refine ⟨?_, ?_, ?_, ?_, ?_, ?_, ?_, ?_⟩
  · rw [entries_append, entries_of]
    refine tidy_append.mpr ⟨c.tidy, acts.tidy, fun h closed named => ?_⟩
    exact c.unclosed (mine named (c.past closed.named)) closed
  · intro q h hq
    by_cases same : q = p
    · subst same
      exact acts.below (fun _ => c.below) h hq
    · rw [others q same] at hq
      exact lt_of_lt_of_le (c.below hq) acts.le
  · intro h named
    rw [entries_append, entries_of, named_append] at named
    rcases named with named | named
    · exact lt_of_lt_of_le (c.past named) acts.le
    · rcases acts.within named with held | inside
      · exact lt_of_lt_of_le (c.below held) acts.le
      · exact inside.2
  · intro q h hq
    rw [entries_append, entries_of, closed_append]
    rintro (closed | closed)
    · rcases owned hq with held | ⟨-, new⟩
      · exact c.unclosed held closed
      · exact later new closed.named
    · by_cases same : q = p
      · subst same
        exact ((acts.kept h).mp hq).2 closed
      · rw [others q same] at hq
        exact same (c.apart hq (mine closed.named (c.below hq)))
  · rintro q h ⟨e, he, opens⟩ unclosed
    rw [entries_append, entries_of, closed_append, not_or] at unclosed
    rcases mem he with old | ⟨rfl, new⟩
    · have held := c.kept ⟨e, old, opens⟩ unclosed.1
      by_cases same : q = p
      · subst same
        exact (acts.kept h).mpr ⟨.inl held, unclosed.2⟩
      · rw [others q same]
        exact held
    · exact (acts.kept h).mpr ⟨.inr ⟨e, new, opens⟩, unclosed.2⟩
  · intro q q' h hq hq'
    rcases owned hq with held | ⟨rfl, new⟩ <;> rcases owned hq' with held' | ⟨rfl, new'⟩
    · exact c.apart held held'
    · exact absurd (c.below held) (not_lt.mpr new')
    · exact absurd (c.below held') (not_lt.mpr new)
    · rfl
  · intro q q' e d h hq he named
    rcases mem he with old | ⟨rfl, mem_l⟩
    · rcases owned hq with held | ⟨-, new⟩
      · exact c.held held old named
      · exact absurd (named_entries.mpr ⟨q', e, d, old, named⟩) (later new)
    · rcases owned hq with held | ⟨rfl, -⟩
      · exact c.apart (mine ⟨e, mem_l, d, named⟩ (c.below held)) held
      · rfl
  · intro q q' e e' d d' h he named he' named'
    rcases mem he with old | ⟨rfl, new⟩ <;> rcases mem he' with old' | ⟨rfl, new'⟩
    · exact c.alone old named old' named'
    · exact by_p old named ⟨e', new', d', named'⟩
    · exact (by_p old' named' ⟨e, new, d, named⟩).symm
    · rfl

end Parties

end Handles
