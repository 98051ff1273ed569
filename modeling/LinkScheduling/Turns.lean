import LinkScheduling.Effect

/-! Loops that take one reply in each turn, from a script that ends in a default reply for
ever, and what becomes of them when interruptions are inserted into the script. A loop that
takes an interruption as nothing ends as before. A loop that breaks off at one ends as before
exactly when its first `needs` replies are left alone. -/

namespace Turns
open Effect

variable {α σ ρ : Type}

/-- A loop that may stop in a state without a reply, and goes on or ends with one. -/
structure Machine (α σ ρ : Type) where
  stop : σ → Option ρ
  turn : σ → α → σ ⊕ ρ

namespace Machine
variable (m : Machine α σ ρ) (dflt : α)

def run : Nat → List α → σ → Option ρ
  | 0, _, _ => none
  | fuel + 1, as, s =>
    match m.stop s with
    | some r => some r
    | none =>
      match m.turn s (as.headD dflt) with
      | .inl s' => run fuel as.tail s'
      | .inr r => some r

/-- How many replies a run depends on: all those it goes on after, and the last one unless it
breaks off with it, as an interruption would make it do. -/
def needs (breaks : σ → α → Bool) : Nat → List α → σ → Nat
  | 0, _, _ => 0
  | fuel + 1, as, s =>
    match m.stop s with
    | some _ => 0
    | none =>
      match m.turn s (as.headD dflt) with
      | .inl s' => needs breaks fuel as.tail s' + 1
      | .inr _ => if breaks s (as.headD dflt) then 0 else 1

variable {m dflt}

theorem run_stop {s : σ} {r : ρ} (h : m.stop s = some r) (fuel : Nat) (as : List α) :
    m.run dflt (fuel + 1) as s = some r := by simp [run, h]

theorem run_turn {s s' : σ} {as : List α} (h : m.stop s = none) (ht : m.turn s (as.headD dflt) = .inl s')
    (fuel : Nat) : m.run dflt (fuel + 1) as s = m.run dflt fuel as.tail s' := by simp only [run, h, ht]

theorem run_end {s : σ} {r : ρ} {as : List α} (h : m.stop s = none) (ht : m.turn s (as.headD dflt) = .inr r)
    (fuel : Nat) : m.run dflt (fuel + 1) as s = some r := by simp only [run, h, ht]

end Machine

/-- `Inserted p as bs` says that `bs` is `as` with entries of the kind `p` inserted. -/
inductive Inserted (p : α → Prop) : List α → List α → Prop
  | nil : Inserted p [] []
  | keep (a : α) {as bs : List α} : Inserted p as bs → Inserted p (a :: as) (a :: bs)
  | insert {a : α} {as bs : List α} : p a → Inserted p as bs → Inserted p as (a :: bs)

theorem Inserted.length_le {p : α → Prop} {as bs : List α} (h : Inserted p as bs) : as.length ≤ bs.length := by
  induction h with
  | nil => exact Nat.le_refl _
  | keep a _ ih => simpa using ih
  | insert _ _ ih => exact Nat.le_succ_of_le ih

section Insert
variable {m : Machine α σ ρ} {dflt : α} {p : α → Prop} {as bs : List α}

theorem run_inserted (retry : ∀ s a, p a → m.stop s = none → m.turn s a = .inl s) (h : Inserted p as bs)
    {fuel : Nat} {s : σ} {r : ρ} (run : m.run dflt fuel as s = some r) :
    m.run dflt (fuel + (bs.length - as.length)) bs s = some r := by
  induction h generalizing fuel s with
  | nil => simpa using run
  | @keep a as bs h ih =>
    cases fuel with
    | zero => cases run
    | succ fuel =>
      rw [List.length_cons, List.length_cons, Nat.add_sub_add_right, Nat.succ_add]
      cases hs : m.stop s with
      | some r' =>
        rw [Machine.run_stop hs] at run ⊢
        exact run
      | none =>
        cases ht : m.turn s a with
        | inl s' =>
          rw [Machine.run_turn hs (by exact ht)] at run ⊢
          exact ih run
        | inr r' =>
          rw [Machine.run_end hs (by exact ht)] at run ⊢
          exact run
  | @insert a as bs hp h ih =>
    have le := h.length_le
    have step : bs.length + 1 - as.length = (bs.length - as.length) + 1 := by omega
    rw [List.length_cons, step, ← Nat.add_assoc]
    cases hs : m.stop s with
    | some r' =>
      cases fuel with
      | zero => cases run
      | succ fuel =>
        rw [Machine.run_stop hs] at run ⊢
        exact run
    | none =>
      rw [Machine.run_turn hs (by exact retry s a hp hs)]
      exact ih run

/-- A loop that breaks off at an interruption. What it has still to take, `left`, shrinks with
every turn, so that a run that goes on never ends as one that has broken off before. -/
theorem run_broken_iff (broken : σ → ρ) {breaks : σ → α → Bool}
    (halt : ∀ s a, p a → m.stop s = none → m.turn s a = .inr (broken s))
    (breaks_iff : ∀ s a, m.stop s = none → (breaks s a = true ↔ m.turn s a = .inr (broken s)))
    (left : σ → Nat) (leftAt : ρ → Nat) (kept : ∀ s, leftAt (broken s) = left s)
    (further : ∀ s a s', m.stop s = none → m.turn s a = .inl s' → left s' < left s)
    (stopped : ∀ s r, m.stop s = some r → leftAt r ≤ left s)
    (ended : ∀ s a r, m.stop s = none → m.turn s a = .inr r → leftAt r ≤ left s)
    (h : Inserted p as bs) {fuel : Nat} {s : σ} {r r' : ρ}
    (run : m.run dflt fuel as s = some r) (run' : m.run dflt fuel bs s = some r') :
    r' = r ↔
      bs.take (m.needs dflt breaks fuel as s) = as.take (m.needs dflt breaks fuel as s) := by
  have shrinks : ∀ fuel as s r, m.run dflt fuel as s = some r → leftAt r ≤ left s := by
    intro fuel
    induction fuel with
    | zero => intro as s r h; cases h
    | succ fuel ih =>
      intro as s r h
      cases hs : m.stop s with
      | some r' =>
        rw [Machine.run_stop hs] at h
        cases h
        exact stopped s r hs
      | none =>
        cases ht : m.turn s (as.headD dflt) with
        | inl s' =>
          rw [Machine.run_turn hs ht] at h
          exact (ih _ _ _ h).trans (Nat.le_of_lt (further s _ s' hs ht))
        | inr r' =>
          rw [Machine.run_end hs ht] at h
          cases h
          exact ended s _ r hs ht
  induction h generalizing fuel s with
  | nil =>
    rw [run] at run'
    cases run'
    simp
  | @keep a as bs h ih =>
    cases fuel with
    | zero => cases run
    | succ fuel =>
      cases hs : m.stop s with
      | some r₀ =>
        rw [Machine.run_stop hs] at run run'
        cases run
        cases run'
        simp [Machine.needs, hs]
      | none =>
        cases ht : m.turn s a with
        | inl s' =>
          rw [Machine.run_turn hs (by exact ht)] at run run'
          have needs : m.needs dflt breaks (fuel + 1) (a :: as) s = m.needs dflt breaks fuel as s' + 1 := by
            simp [Machine.needs, hs, ht]
          rw [needs, List.take_succ_cons, List.take_succ_cons, List.cons.injEq]
          exact (ih run run').trans (by simp)
        | inr r₀ =>
          rw [Machine.run_end hs (by exact ht)] at run run'
          cases run
          cases run'
          simp only [Machine.needs, hs, List.headD_cons, ht, true_iff]
          by_cases hb : breaks s a = true <;> simp [hb]
  | @insert a as bs hp h ih =>
    cases fuel with
    | zero => cases run
    | succ fuel =>
      cases hs : m.stop s with
      | some r₀ =>
        rw [Machine.run_stop hs] at run run'
        cases run
        cases run'
        simp [Machine.needs, hs]
      | none =>
        rw [Machine.run_end hs (by exact halt s a hp hs)] at run'
        cases run'
        cases ht : m.turn s (as.headD dflt) with
        | inl s' =>
          rw [Machine.run_turn hs ht] at run
          have needs : m.needs dflt breaks (fuel + 1) as s = m.needs dflt breaks fuel as.tail s' + 1 := by
            simp only [Machine.needs, hs, ht]
          have less := shrinks _ _ _ _ run
          have step := further s _ s' hs ht
          refine iff_of_false (fun same => ?_) fun same => ?_
          · rw [← same, kept] at less
            omega
          · rw [needs] at same
            cases as with
            | nil => simp at same
            | cons b as =>
              rw [List.take_succ_cons, List.take_succ_cons, List.cons.injEq] at same
              have stops := halt s a hp hs
              rw [same.1] at stops
              rw [List.headD_cons, stops] at ht
              cases ht
        | inr r₀ =>
          rw [Machine.run_end hs ht] at run
          cases run
          simp only [Machine.needs, hs, ht]
          have meets := breaks_iff s (as.headD dflt) hs
          rw [ht, Sum.inr.injEq] at meets
          by_cases same : r = broken s
          · rw [if_pos (meets.mpr same)]
            simp [same]
          · rw [if_neg fun h => same (meets.mp h)]
            refine iff_of_false (Ne.symm same) fun taken => same ?_
            cases as with
            | nil => simp at taken
            | cons b as =>
              rw [List.take_succ_cons, List.take_succ_cons, List.cons.injEq] at taken
              have stops := halt s a hp hs
              rw [taken.1] at stops
              rw [List.headD_cons, stops] at ht
              cases ht
              rfl

end Insert

section Programs
variable {ε τ ω β γ : Type} {spent : ε} {body : β → Prog ε τ ω (β ⊕ γ)} {dflt : α}

theorem loop_inl {fuel : Nat} {b b' : β} {t : τ} (h : (body b t).value = .ok (.inl b')) :
    Prog.loop spent body (fuel + 1) b t =
      ⟨(Prog.loop spent body fuel b' (body b t).state).value, (Prog.loop spent body fuel b' (body b t).state).state,
        (body b t).log ++ (Prog.loop spent body fuel b' (body b t).state).log⟩ := by
  change Prog.bind (body b) _ t = _
  simp only [Prog.bind, h]

theorem loop_inr {fuel : Nat} {b : β} {c : γ} {t : τ} (h : (body b t).value = .ok (.inr c)) :
    Prog.loop spent body (fuel + 1) b t = ⟨.ok c, (body b t).state, (body b t).log⟩ := by
  change Prog.bind (body b) _ t = _
  simp only [Prog.bind, h]
  change Outcome.mk _ _ (_ ++ []) = _
  rw [List.append_nil]
  rfl

theorem loop_error {fuel : Nat} {b : β} {e : ε} {t : τ} (h : (body b t).value = .error e) :
    Prog.loop spent body (fuel + 1) b t = ⟨.error e, (body b t).state, (body b t).log⟩ := by
  change Prog.bind (body b) _ t = _
  simp only [Prog.bind, h]

/-- The body of a program's loop does what a turn of the machine does, as long as its log is
`fine`. -/
structure Follows (m : Machine α σ ρ) (dflt : α) (body : β → Prog ε τ ω (β ⊕ γ)) (script : τ → List α)
    (view : β → τ → σ) (result : γ → τ → ρ) (fine : ω → Prop) : Prop where
  stops : ∀ {b t r}, (∀ e ∈ (body b t).log, fine e) → m.stop (view b t) = some r →
    ∃ c, (body b t).value = .ok (.inr c) ∧ result c (body b t).state = r
  goes : ∀ {b t s'}, (∀ e ∈ (body b t).log, fine e) → m.stop (view b t) = none →
    m.turn (view b t) ((script t).headD dflt) = .inl s' →
    ∃ b', (body b t).value = .ok (.inl b') ∧ script (body b t).state = (script t).tail ∧
      view b' (body b t).state = s'
  ends : ∀ {b t r}, (∀ e ∈ (body b t).log, fine e) → m.stop (view b t) = none →
    m.turn (view b t) ((script t).headD dflt) = .inr r →
    ∃ c, (body b t).value = .ok (.inr c) ∧ result c (body b t).state = r

variable {m : Machine α σ ρ} {script : τ → List α} {view : β → τ → σ} {result : γ → τ → ρ} {fine : ω → Prop}

theorem Follows.of_wp (h : ∀ b t, wp (body b) t fun v t' l => (∀ e ∈ l, fine e) →
      match m.stop (view b t) with
      | some r => ∃ c, v = .ok (.inr c) ∧ result c t' = r
      | none =>
        match m.turn (view b t) ((script t).headD dflt) with
        | .inl s' => ∃ b', v = .ok (.inl b') ∧ script t' = (script t).tail ∧ view b' t' = s'
        | .inr r => ∃ c, v = .ok (.inr c) ∧ result c t' = r) : Follows m dflt body script view result fine where
  stops logged hs := by
    have taken := h _ _ logged
    simpa only [hs] using taken
  goes logged hs ht := by
    have taken := h _ _ logged
    simpa only [hs, ht] using taken
  ends logged hs ht := by
    have taken := h _ _ logged
    simpa only [hs, ht] using taken

theorem Follows.run (h : Follows m dflt body script view result fine) (fuel : Nat) (b : β) (t : τ)
    (logged : ∀ e ∈ (Prog.loop spent body fuel b t).log, fine e) {c : γ}
    (value : (Prog.loop spent body fuel b t).value = .ok c) :
    m.run dflt fuel (script t) (view b t) = some (result c (Prog.loop spent body fuel b t).state) := by
  induction fuel generalizing b t with
  | zero => cases value
  | succ fuel ih =>
    cases hv : (body b t).value with
    | error e =>
      rw [loop_error hv] at value
      cases value
    | ok x =>
      cases hs : m.stop (view b t) with
      | some r =>
        rcases x with b' | c'
        · have first : ∀ e ∈ (body b t).log, fine e := fun e he => logged e (by
            rw [loop_inl hv]
            exact List.mem_append_left _ he)
          obtain ⟨c', hc, -⟩ := h.stops first hs
          rw [hv] at hc
          cases hc
        · rw [loop_inr hv] at logged value ⊢
          cases value
          obtain ⟨c'', hc, hr⟩ := h.stops logged hs
          rw [hv] at hc
          cases hc
          rw [Machine.run_stop hs, hr]
      | none =>
        rcases x with b' | c'
        · rw [loop_inl hv] at logged value ⊢
          have first : ∀ e ∈ (body b t).log, fine e := fun e he => logged e (List.mem_append_left _ he)
          cases ht : m.turn (view b t) ((script t).headD dflt) with
          | inl s' =>
            obtain ⟨b'', hb, hscript, hview⟩ := h.goes first hs ht
            rw [hv] at hb
            cases hb
            rw [Machine.run_turn hs ht, ← hscript, ← hview]
            exact ih b' _ (fun e he => logged e (List.mem_append_right _ he)) value
          | inr r =>
            obtain ⟨c', hc, -⟩ := h.ends first hs ht
            rw [hv] at hc
            cases hc
        · rw [loop_inr hv] at logged value ⊢
          cases value
          cases ht : m.turn (view b t) ((script t).headD dflt) with
          | inl s' =>
            obtain ⟨b'', hb, -⟩ := h.goes logged hs ht
            rw [hv] at hb
            cases hb
          | inr r =>
            obtain ⟨c'', hc, hr⟩ := h.ends logged hs ht
            rw [hv] at hc
            cases hc
            rw [Machine.run_end hs ht, hr]

end Programs

end Turns
