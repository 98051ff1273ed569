import Mathlib

/-! Sequential programs that run over a state, log what they do and may stop early.
`wp` speaks about the value, the state and the log one run leaves. `Succeeds` speaks
about the runs whose log shows no fault: such a run returns a value. `Moves` carries a
relation on states through every run, faulty or not, and `Reports` says that a fault shows in
the value returned. -/

namespace Effect

structure Outcome (ε σ ω α : Type) where
  value : Except ε α
  state : σ
  log : List ω

def Prog (ε σ ω α : Type) : Type := σ → Outcome ε σ ω α

variable {ε σ ω α β γ τ : Type}

namespace Prog

protected def pure (a : α) : Prog ε σ ω α := fun s => ⟨.ok a, s, []⟩

protected def bind (x : Prog ε σ ω α) (f : α → Prog ε σ ω β) : Prog ε σ ω β := fun s =>
  match (x s).value with
  | .ok a =>
    let rest := f a (x s).state
    ⟨rest.value, rest.state, (x s).log ++ rest.log⟩
  | .error e => ⟨.error e, (x s).state, (x s).log⟩

instance : Monad (Prog ε σ ω) where
  pure := Prog.pure
  bind := Prog.bind

def stop (e : ε) : Prog ε σ ω α := fun s => ⟨.error e, s, []⟩

def get : Prog ε σ ω σ := fun s => ⟨.ok s, s, []⟩

def modify (f : σ → σ) : Prog ε σ ω Unit := fun s => ⟨.ok (), f s, []⟩

def emit (e : ω) : Prog ε σ ω Unit := fun s => ⟨.ok (), s, [e]⟩

/-- Run `handler` when `x` stops early. -/
def rescue (x : Prog ε σ ω α) (handler : ε → Prog ε σ ω α) : Prog ε σ ω α := fun s =>
  match (x s).value with
  | .ok a => ⟨.ok a, (x s).state, (x s).log⟩
  | .error e =>
    let rest := handler e (x s).state
    ⟨rest.value, rest.state, (x s).log ++ rest.log⟩

def zoom (view : τ → σ) (put : σ → τ → τ) (x : Prog ε σ ω α) : Prog ε τ ω α := fun t =>
  let o := x (view t)
  ⟨o.value, put o.state t, o.log⟩

/-- Repeat `body` until it yields a result, at most `fuel` times; then stop with `spent`. -/
def loop (spent : ε) (body : β → Prog ε σ ω (β ⊕ α)) : Nat → β → Prog ε σ ω α
  | 0, _ => stop spent
  | fuel + 1, b => do
    match ← body b with
    | .inl b' => loop spent body fuel b'
    | .inr a => pure a

end Prog

open Prog

section Wp

/-- The postcondition `Q` holds of the run of `x` from `s`. -/
def wp (x : Prog ε σ ω α) (s : σ) (Q : Except ε α → σ → List ω → Prop) : Prop :=
  Q (x s).value (x s).state (x s).log

theorem wp_mono {x : Prog ε σ ω α} {s : σ} {P Q : Except ε α → σ → List ω → Prop}
    (h : wp x s P) (imp : ∀ v s' l, P v s' l → Q v s' l) : wp x s Q := imp _ _ _ h

theorem wp_and {x : Prog ε σ ω α} {s : σ} {P Q : Except ε α → σ → List ω → Prop}
    (hp : wp x s P) (hq : wp x s Q) : wp x s (fun v s' l => P v s' l ∧ Q v s' l) := ⟨hp, hq⟩

@[simp] theorem wp_pure (a : α) (s : σ) (Q : Except ε α → σ → List ω → Prop) :
    wp (pure a : Prog ε σ ω α) s Q ↔ Q (.ok a) s [] := Iff.rfl

@[simp] theorem wp_stop (e : ε) (s : σ) (Q : Except ε α → σ → List ω → Prop) :
    wp (stop e : Prog ε σ ω α) s Q ↔ Q (.error e) s [] := Iff.rfl

@[simp] theorem wp_get (s : σ) (Q : Except ε σ → σ → List ω → Prop) :
    wp (get : Prog ε σ ω σ) s Q ↔ Q (.ok s) s [] := Iff.rfl

@[simp] theorem wp_modify (f : σ → σ) (s : σ) (Q : Except ε Unit → σ → List ω → Prop) :
    wp (modify f : Prog ε σ ω Unit) s Q ↔ Q (.ok ()) (f s) [] := Iff.rfl

@[simp] theorem wp_emit (e : ω) (s : σ) (Q : Except ε Unit → σ → List ω → Prop) :
    wp (emit e : Prog ε σ ω Unit) s Q ↔ Q (.ok ()) s [e] := Iff.rfl

@[simp] theorem wp_zoom (view : τ → σ) (put : σ → τ → τ) (x : Prog ε σ ω α) (t : τ)
    (Q : Except ε α → τ → List ω → Prop) :
    wp (zoom view put x) t Q ↔ wp x (view t) (fun v s l => Q v (put s t) l) := Iff.rfl

def andThen (f : α → Prog ε σ ω β) (Q : Except ε β → σ → List ω → Prop) :
    Except ε α → σ → List ω → Prop
  | .ok a, s, l => wp (f a) s (fun v s' l' => Q v s' (l ++ l'))
  | .error e, s, l => Q (.error e) s l

theorem wp_bind (x : Prog ε σ ω α) (f : α → Prog ε σ ω β) (s : σ)
    (Q : Except ε β → σ → List ω → Prop) :
    wp (x >>= f) s Q ↔ wp x s (andThen f Q) := by
  change Q (Prog.bind x f s).value (Prog.bind x f s).state (Prog.bind x f s).log ↔
    andThen f Q (x s).value (x s).state (x s).log
  unfold Prog.bind
  cases h : (x s).value <;> exact Iff.rfl

theorem wp_seq {x : Prog ε σ ω α} {f : α → Prog ε σ ω β} {s : σ}
    {P : Except ε α → σ → List ω → Prop} {Q : Except ε β → σ → List ω → Prop} (h : wp x s P)
    (next : ∀ a s' l, P (.ok a) s' l → wp (f a) s' fun v s'' l' => Q v s'' (l ++ l'))
    (fail : ∀ e s' l, P (.error e) s' l → Q (.error e) s' l) : wp (x >>= f) s Q := by
  rw [wp_bind]
  refine wp_mono h ?_
  rintro (e | a) s' l hp
  · exact fail e s' l hp
  · exact next a s' l hp

theorem wp_emit_bind (e : ω) (f : Unit → Prog ε σ ω α) (s : σ)
    (Q : Except ε α → σ → List ω → Prop) :
    wp (emit e >>= f) s Q ↔ wp (f ()) s fun v s' l => Q v s' (e :: l) := Iff.rfl

theorem wp_get_bind (f : σ → Prog ε σ ω α) (s : σ) (Q : Except ε α → σ → List ω → Prop) :
    wp (Prog.get >>= f) s Q ↔ wp (f s) s Q := Iff.rfl

theorem wp_modify_bind (g : σ → σ) (f : Unit → Prog ε σ ω α) (s : σ)
    (Q : Except ε α → σ → List ω → Prop) :
    wp (Prog.modify g >>= f) s Q ↔ wp (f ()) (g s) Q := Iff.rfl

theorem wp_loop {spent : ε} {body : β → Prog ε σ ω (β ⊕ α)} {Q : Except ε α → σ → List ω → Prop}
    (inv : β → σ → List ω → Prop) (left : β → σ → Nat)
    (step : ∀ b s l, inv b s l → wp (body b) s fun v s' l' =>
      match v with
      | .ok (.inl b') => inv b' s' (l ++ l') ∧ left b' s' < left b s
      | .ok (.inr a) => Q (.ok a) s' (l ++ l')
      | .error e => Q (.error e) s' (l ++ l'))
    (fuel : Nat) (b : β) (s : σ) (start : inv b s []) (enough : left b s < fuel) :
    wp (Prog.loop spent body fuel b) s Q := by
  suffices go : ∀ fuel b s l, inv b s l → left b s < fuel →
      wp (Prog.loop spent body fuel b) s fun v s' l' => Q v s' (l ++ l') by
    simpa using go fuel b s [] start enough
  intro fuel
  induction fuel with
  | zero => intro b s l _ h; omega
  | succ fuel ih =>
    intro b s l hinv hleft
    refine wp_seq (step b s l hinv) ?_ fun e s' l' h => h
    rintro (b' | a) s' l' h
    · refine wp_mono (ih b' s' (l ++ l') h.1 (by omega)) ?_
      intro v s'' l'' hq
      simpa using hq
    · simpa using h

@[simp] theorem wp_rescue (x : Prog ε σ ω α) (handler : ε → Prog ε σ ω α) (s : σ)
    (Q : Except ε α → σ → List ω → Prop) : wp (rescue x handler) s Q ↔ wp x s fun v s' l =>
      match v with
      | .ok a => Q (.ok a) s' l
      | .error e => wp (handler e) s' fun v s'' l' => Q v s'' (l ++ l') := by
  unfold wp rescue
  cases (x s).value <;> exact Iff.rfl

end Wp

section Within

/-- From a good state `x` logs only entries with `P`, and leaves a good state. -/
def Within (Good : σ → Prop) (P : ω → Prop) (x : Prog ε σ ω α) : Prop :=
  ∀ s, Good s → Good (x s).state ∧ ∀ e ∈ (x s).log, P e

variable {Good : σ → Prop} {P : ω → Prop}

theorem Within.bind {x : Prog ε σ ω α} {f : α → Prog ε σ ω β}
    (hx : Within Good P x) (hf : ∀ a, Within Good P (f a)) : Within Good P (x >>= f) := by
  intro s hs
  change Good (Prog.bind x f s).state ∧ ∀ e ∈ (Prog.bind x f s).log, P e
  obtain ⟨good, logs⟩ := hx s hs
  unfold Prog.bind
  cases (x s).value with
  | ok a =>
    obtain ⟨good', logs'⟩ := hf a _ good
    exact ⟨good', List.forall_mem_append.mpr ⟨logs, logs'⟩⟩
  | error e => exact ⟨good, logs⟩

theorem Within.pure (a : α) : Within Good P (pure a : Prog ε σ ω α) :=
  fun _ hs => ⟨hs, List.forall_mem_nil _⟩

theorem Within.stop (e : ε) : Within Good P (Prog.stop e : Prog ε σ ω α) :=
  fun _ hs => ⟨hs, List.forall_mem_nil _⟩

theorem Within.map {f : α → β} {x : Prog ε σ ω α} (hx : Within Good P x) : Within Good P (f <$> x) :=
  .bind hx fun _ => .pure _

theorem Within.get : Within Good P (Prog.get : Prog ε σ ω σ) :=
  fun _ hs => ⟨hs, List.forall_mem_nil _⟩

theorem Within.modify {f : σ → σ} (h : ∀ s, Good s → Good (f s)) :
    Within Good P (Prog.modify f : Prog ε σ ω Unit) := fun s hs => ⟨h s hs, List.forall_mem_nil _⟩

theorem Within.emit {e : ω} (h : P e) : Within Good P (Prog.emit e : Prog ε σ ω Unit) :=
  fun _ hs => ⟨hs, List.forall_mem_singleton.mpr h⟩

theorem Within.zoom {view : τ → σ} {put : σ → τ → τ} {x : Prog ε σ ω α} (h : Within Good P x)
    (section_ : ∀ s t, view (put s t) = s) :
    Within (fun t => Good (view t)) P (Prog.zoom view put x) := by
  intro t ht
  change Good (view (put (x (view t)).state t)) ∧ _
  rw [section_]
  exact h (view t) ht

theorem Within.ite {p : Prop} [Decidable p] {x y : Prog ε σ ω α}
    (hx : Within Good P x) (hy : Within Good P y) : Within Good P (if p then x else y) := by
  split
  · exact hx
  · exact hy

theorem Within.rescue {x : Prog ε σ ω α} {handler : ε → Prog ε σ ω α} (hx : Within Good P x)
    (hh : ∀ e, Within Good P (handler e)) : Within Good P (Prog.rescue x handler) := by
  intro s hs
  obtain ⟨good, logs⟩ := hx s hs
  unfold Prog.rescue
  cases (x s).value with
  | ok a => exact ⟨good, logs⟩
  | error e =>
    obtain ⟨good', logs'⟩ := hh e _ good
    exact ⟨good', List.forall_mem_append.mpr ⟨logs, logs'⟩⟩

theorem Within.loop {spent : ε} {body : β → Prog ε σ ω (β ⊕ α)}
    (step : ∀ b, Within Good P (body b)) (fuel : Nat) (b : β) :
    Within Good P (Prog.loop spent body fuel b) := by
  induction fuel generalizing b with
  | zero => exact Within.stop spent
  | succ fuel ih =>
    apply Within.bind (step b)
    rintro (b' | a)
    · exact ih b'
    · exact Within.pure a

end Within

section Succeeds

class Faults (ω : Type) where
  faulty : ω → Prop

variable [Faults ω]

def Clean (l : List ω) : Prop := ∀ e ∈ l, ¬ Faults.faulty e

@[simp] theorem clean_nil : Clean ([] : List ω) := by simp [Clean]

@[simp] theorem clean_cons (e : ω) (l : List ω) :
    Clean (e :: l) ↔ ¬ Faults.faulty e ∧ Clean l := by simp [Clean]

@[simp] theorem clean_append (l l' : List ω) : Clean (l ++ l') ↔ Clean l ∧ Clean l' := by
  simp [Clean, or_imp, forall_and]

/-- Without faults the run of `x` from `s` returns a value, and `Q` holds. -/
def Succeeds (x : Prog ε σ ω α) (s : σ) (Q : α → σ → List ω → Prop) : Prop :=
  wp x s fun v s' l => Clean l → ∃ a, v = .ok a ∧ Q a s' l

theorem Succeeds.mono {x : Prog ε σ ω α} {s : σ} {P Q : α → σ → List ω → Prop}
    (h : Succeeds x s P) (imp : ∀ a s' l, P a s' l → Q a s' l) : Succeeds x s Q := by
  intro clean
  obtain ⟨a, hv, hp⟩ := h clean
  exact ⟨a, hv, imp _ _ _ hp⟩

theorem Succeeds.bind {x : Prog ε σ ω α} {f : α → Prog ε σ ω β} {s : σ}
    {Q : β → σ → List ω → Prop}
    (h : Succeeds x s fun a s' l => Succeeds (f a) s' fun b s'' l' => Q b s'' (l ++ l')) :
    Succeeds (x >>= f) s Q := by
  rw [Succeeds, wp_bind]
  unfold Succeeds wp at h
  unfold wp andThen
  cases hv : (x s).value with
  | ok a =>
    intro clean
    obtain ⟨hx, hf⟩ := (clean_append _ _).mp clean
    obtain ⟨a', ha, rest⟩ := h hx
    rw [hv] at ha
    cases ha
    exact rest hf
  | error e =>
    intro clean
    obtain ⟨a', ha, -⟩ := h clean
    rw [hv] at ha
    cases ha

theorem Succeeds.seq {x : Prog ε σ ω α} {f : α → Prog ε σ ω β} {s : σ}
    {P : α → σ → List ω → Prop} {Q : β → σ → List ω → Prop} (h : Succeeds x s P)
    (next : ∀ a s' l, P a s' l → Succeeds (f a) s' fun b s'' l' => Q b s'' (l ++ l')) :
    Succeeds (x >>= f) s Q := .bind (h.mono next)

theorem Succeeds.pure {a : α} {s : σ} {Q : α → σ → List ω → Prop} (h : Q a s []) :
    Succeeds (pure a : Prog ε σ ω α) s Q := fun _ => ⟨a, rfl, h⟩

theorem Succeeds.get {s : σ} {Q : σ → σ → List ω → Prop} (h : Q s s []) :
    Succeeds (Prog.get : Prog ε σ ω σ) s Q := fun _ => ⟨s, rfl, h⟩

theorem Succeeds.modify {f : σ → σ} {s : σ} {Q : Unit → σ → List ω → Prop} (h : Q () (f s) []) :
    Succeeds (Prog.modify f : Prog ε σ ω Unit) s Q := fun _ => ⟨(), rfl, h⟩

theorem Succeeds.emit {e : ω} {s : σ} {Q : Unit → σ → List ω → Prop} (h : Q () s [e]) :
    Succeeds (Prog.emit e : Prog ε σ ω Unit) s Q := fun _ => ⟨(), rfl, h⟩

theorem Succeeds.zoom {view : τ → σ} {put : σ → τ → τ} {x : Prog ε σ ω α} {t : τ}
    {Q : α → τ → List ω → Prop} (h : Succeeds x (view t) fun a s l => Q a (put s t) l) :
    Succeeds (Prog.zoom view put x) t Q := h

theorem Succeeds.map {f : α → β} {x : Prog ε σ ω α} {s : σ} {Q : β → σ → List ω → Prop}
    (h : Succeeds x s fun a s' l => Q (f a) s' l) : Succeeds (f <$> x) s Q :=
  .bind (h.mono fun _ _ _ hq => .pure (by simpa using hq))

/-- The rule for loops: `inv` speaks about the log since the loop began, and `left` bounds
the iterations still to come. -/
theorem Succeeds.loop {spent : ε} {body : β → Prog ε σ ω (β ⊕ α)} {Q : α → σ → List ω → Prop}
    (inv : β → σ → List ω → Prop) (left : β → σ → Nat)
    (step : ∀ b s l, inv b s l → Succeeds (body b) s fun r s' l' =>
      match r with
      | .inl b' => inv b' s' (l ++ l') ∧ left b' s' < left b s
      | .inr a => Q a s' (l ++ l'))
    (fuel : Nat) (b : β) (s : σ) (start : inv b s []) (enough : left b s < fuel) :
    Succeeds (Prog.loop spent body fuel b) s Q := by
  suffices go : ∀ fuel b s l, inv b s l → left b s < fuel →
      Succeeds (Prog.loop spent body fuel b) s fun a s' l' => Q a s' (l ++ l') by
    simpa using go fuel b s [] start enough
  intro fuel
  induction fuel with
  | zero => intro b s l _ h; omega
  | succ fuel ih =>
    intro b s l hinv hleft
    refine Succeeds.bind ((step b s l hinv).mono ?_)
    rintro (b' | a) s' l' h
    · refine (ih b' s' (l ++ l') h.1 (by omega)).mono ?_
      intro a s'' l'' hq
      simpa using hq
    · exact Succeeds.pure (by simpa using h)

/-- From a good state, `x` logs no fault and leaves a good state. -/
def Tame (Good : σ → Prop) (x : Prog ε σ ω α) : Prop :=
  ∀ s, Good s → Good (x s).state ∧ Clean (x s).log

variable {Good : σ → Prop}

theorem Tame.bind {x : Prog ε σ ω α} {f : α → Prog ε σ ω β}
    (hx : Tame Good x) (hf : ∀ a, Tame Good (f a)) : Tame Good (x >>= f) := Within.bind hx hf

theorem Tame.pure (a : α) : Tame Good (pure a : Prog ε σ ω α) := Within.pure a

theorem Tame.map {f : α → β} {x : Prog ε σ ω α} (hx : Tame Good x) : Tame Good (f <$> x) :=
  Within.map hx

theorem Tame.get : Tame Good (Prog.get : Prog ε σ ω σ) := Within.get

theorem Tame.modify {f : σ → σ} (h : ∀ s, Good s → Good (f s)) :
    Tame Good (Prog.modify f : Prog ε σ ω Unit) := Within.modify h

theorem Tame.emit {e : ω} (h : ¬ Faults.faulty e) : Tame Good (Prog.emit e : Prog ε σ ω Unit) :=
  Within.emit h

theorem Tame.zoom {view : τ → σ} {put : σ → τ → τ} {x : Prog ε σ ω α} (h : Tame Good x)
    (section_ : ∀ s t, view (put s t) = s) :
    Tame (fun t => Good (view t)) (Prog.zoom view put x) := Within.zoom h section_

theorem Tame.loop {spent : ε} {body : β → Prog ε σ ω (β ⊕ α)} (step : ∀ b, Tame Good (body b))
    (fuel : Nat) (b : β) : Tame Good (Prog.loop spent body fuel b) := Within.loop step fuel b

theorem Tame.ite {p : Prop} [Decidable p] {x y : Prog ε σ ω α}
    (hx : Tame Good x) (hy : Tame Good y) : Tame Good (if p then x else y) := Within.ite hx hy

theorem Succeeds.of_tame {x : Prog ε σ ω α} {s : σ} {Q : α → σ → List ω → Prop}
    (h : Succeeds x s Q) (tame : Tame Good x) (hs : Good s) :
    ∃ a, (x s).value = .ok a ∧ Q a (x s).state (x s).log := h (tame s hs).2

end Succeeds

section Moves

def Moves (R : σ → σ → Prop) (x : Prog ε σ ω α) : Prop := ∀ s, R s (x s).state

variable {R : σ → σ → Prop}

theorem Moves.wp {x : Prog ε σ ω α} (h : Moves R x) (s : σ) : wp x s fun _ s' _ => R s s' := h s

theorem Moves.bind [IsTrans σ R] {x : Prog ε σ ω α} {f : α → Prog ε σ ω β}
    (hx : Moves R x) (hf : ∀ a, Moves R (f a)) : Moves R (x >>= f) := by
  intro s
  change R s (Prog.bind x f s).state
  unfold Prog.bind
  cases (x s).value with
  | ok a => exact trans_of R (hx s) (hf a _)
  | error e => exact hx s

theorem Moves.pure [Std.Refl R] (a : α) : Moves R (pure a : Prog ε σ ω α) := fun s => refl_of R s

theorem Moves.stop [Std.Refl R] (e : ε) : Moves R (Prog.stop e : Prog ε σ ω α) := fun s => refl_of R s

theorem Moves.get [Std.Refl R] : Moves R (Prog.get : Prog ε σ ω σ) := fun s => refl_of R s

theorem Moves.ite {p : Prop} [Decidable p] {x y : Prog ε σ ω α}
    (hx : Moves R x) (hy : Moves R y) : Moves R (if p then x else y) := by
  split
  · exact hx
  · exact hy

theorem Moves.emit [Std.Refl R] (e : ω) : Moves R (Prog.emit e : Prog ε σ ω Unit) := fun s => refl_of R s

theorem Moves.modify {f : σ → σ} (h : ∀ s, R s (f s)) :
    Moves R (Prog.modify f : Prog ε σ ω Unit) := h

theorem Moves.map [Std.Refl R] [IsTrans σ R] {f : α → β} {x : Prog ε σ ω α} (hx : Moves R x) :
    Moves R (f <$> x) := .bind hx fun _ => .pure _

theorem Moves.rescue [IsTrans σ R] {x : Prog ε σ ω α} {handler : ε → Prog ε σ ω α}
    (hx : Moves R x) (hh : ∀ e, Moves R (handler e)) : Moves R (Prog.rescue x handler) := by
  intro s
  unfold Prog.rescue
  cases (x s).value with
  | ok a => exact hx s
  | error e => exact trans_of R (hx s) (hh e _)

theorem Moves.loop [Std.Refl R] [IsTrans σ R] {spent : ε} {body : β → Prog ε σ ω (β ⊕ α)}
    (step : ∀ b, Moves R (body b)) (fuel : Nat) (b : β) : Moves R (Prog.loop spent body fuel b) := by
  induction fuel generalizing b with
  | zero => exact Moves.stop spent
  | succ fuel ih =>
    refine Moves.bind (step b) ?_
    rintro (b' | a)
    · exact ih b'
    · exact Moves.pure a

end Moves

section Traces

/-- A relation of the state before a run, its log and the state after, that composes. -/
structure Composes (R : σ → List ω → σ → Prop) : Prop where
  nil : ∀ s, R s [] s
  append : ∀ {a b c l l'}, R a l b → R b l' c → R a (l ++ l') c

def Traces (R : σ → List ω → σ → Prop) (x : Prog ε σ ω α) : Prop := ∀ s, R s (x s).log (x s).state

variable {R : σ → List ω → σ → Prop}

theorem Traces.pure (c : Composes R) (a : α) : Traces R (pure a : Prog ε σ ω α) := fun s => c.nil s

theorem Traces.stop (c : Composes R) (e : ε) : Traces R (Prog.stop e : Prog ε σ ω α) :=
  fun s => c.nil s

theorem Traces.get (c : Composes R) : Traces R (Prog.get : Prog ε σ ω σ) := fun s => c.nil s

theorem Traces.bind (c : Composes R) {x : Prog ε σ ω α} {f : α → Prog ε σ ω β}
    (hx : Traces R x) (hf : ∀ a, Traces R (f a)) : Traces R (x >>= f) := by
  intro s
  change R s (Prog.bind x f s).log (Prog.bind x f s).state
  unfold Prog.bind
  cases (x s).value with
  | ok a => exact c.append (hx s) (hf a _)
  | error e => exact hx s

theorem Traces.ite {p : Prop} [Decidable p] {x y : Prog ε σ ω α}
    (hx : Traces R x) (hy : Traces R y) : Traces R (if p then x else y) := by
  split
  · exact hx
  · exact hy

theorem Traces.loop (c : Composes R) {spent : ε} {body : β → Prog ε σ ω (β ⊕ α)}
    (step : ∀ b, Traces R (body b)) (fuel : Nat) (b : β) : Traces R (Prog.loop spent body fuel b) := by
  induction fuel generalizing b with
  | zero => exact Traces.stop c spent
  | succ fuel ih =>
    apply Traces.bind c (step b)
    rintro (b' | a)
    · exact ih b'
    · exact Traces.pure c a

end Traces

section Reports

variable {good : α → Prop}

def Fails (good : α → Prop) (x : Prog ε σ ω α) : Prop := ∀ s a, (x s).value = .ok a → ¬ good a

theorem Fails.pure {a : α} (h : ¬ good a) : Fails good (pure a : Prog ε σ ω α) := by
  rintro s b hb
  cases hb
  exact h

theorem Fails.bind {x : Prog ε σ ω α} {f : α → Prog ε σ ω β} {good : β → Prop}
    (hf : ∀ a, Fails good (f a)) : Fails good (x >>= f) := by
  intro s b hb
  change (Prog.bind x f s).value = .ok b at hb
  unfold Prog.bind at hb
  cases hv : (x s).value with
  | error e => simp [hv] at hb
  | ok a => exact hf a _ b (by simpa [hv] using hb)

theorem Fails.map {x : Prog ε σ ω α} {f : α → β} {good' : β → Prop} (hx : Fails good x)
    (h : ∀ a, good' (f a) → good a) : Fails good' (f <$> x) := by
  intro s b hb
  change (Prog.bind x _ s).value = .ok b at hb
  unfold Prog.bind at hb
  cases hv : (x s).value with
  | error e => simp [hv] at hb
  | ok a =>
    simp only [hv] at hb
    cases hb
    exact fun hgood => hx s a hv (h a hgood)

theorem Fails.ite {p : Prop} [Decidable p] {x y : Prog ε σ ω α} (hx : p → Fails good x)
    (hy : ¬ p → Fails good y) : Fails good (if p then x else y) := by
  split
  · exact hx ‹_›
  · exact hy ‹_›

theorem Fails.rescue {x : Prog ε σ ω α} {handler : ε → Prog ε σ ω α} (hx : Fails good x)
    (hh : ∀ e, Fails good (handler e)) : Fails good (Prog.rescue x handler) := by
  intro s a ha
  unfold Prog.rescue at ha
  cases hv : (x s).value with
  | error e => exact hh e _ a (by simpa [hv] using ha)
  | ok b => exact hx s a (by simpa [hv] using ha)

theorem Fails.loop {spent : ε} {body : β → Prog ε σ ω (β ⊕ α)}
    (step : ∀ b, Fails (fun r => ∃ a, r = .inr a ∧ good a) (body b)) (fuel : Nat) (b : β) :
    Fails good (Prog.loop spent body fuel b) := by
  induction fuel generalizing b with
  | zero =>
    intro s a ha
    cases ha
  | succ fuel ih =>
    intro s a ha
    change (Prog.bind (body b) _ s).value = .ok a at ha
    unfold Prog.bind at ha
    cases hv : (body b s).value with
    | error e => simp [hv] at ha
    | ok r =>
      cases r with
      | inl b' => exact ih b' _ a (by simpa [hv] using ha)
      | inr a' =>
        simp only [hv] at ha
        cases ha
        exact fun h => step b s _ hv ⟨_, rfl, h⟩

variable [Faults ω]

/-- A run of `x` that returns a good value has logged no fault. -/
def Reports (good : α → Prop) (x : Prog ε σ ω α) : Prop :=
  ∀ s a, (x s).value = .ok a → good a → Clean (x s).log

theorem Reports.wp {x : Prog ε σ ω α} (h : Reports good x) (s : σ) :
    wp x s fun v _ l => ∀ a, v = .ok a → good a → Clean l := h s

theorem Fails.reports {x : Prog ε σ ω α} (h : Fails good x) : Reports good x :=
  fun s a ha hgood => absurd hgood (h s a ha)

theorem Reports.quiet {x : Prog ε σ ω α} (h : ∀ s, (x s).log = []) : Reports good x := by
  intro s a _ _
  rw [h s]
  exact clean_nil

theorem Reports.pure (a : α) : Reports good (pure a : Prog ε σ ω α) := .quiet fun _ => rfl

theorem Reports.bind {x : Prog ε σ ω α} {f : α → Prog ε σ ω β} {good' : β → Prop}
    (hx : Reports good x) (hf : ∀ a, good a → Reports good' (f a))
    (hn : ∀ a, ¬ good a → Fails good' (f a)) : Reports good' (x >>= f) := by
  intro s b hb hgood
  change (Prog.bind x f s).value = .ok b at hb
  change Clean (Prog.bind x f s).log
  unfold Prog.bind at hb ⊢
  cases hv : (x s).value with
  | error e => simp [hv] at hb
  | ok a =>
    simp only [hv] at hb ⊢
    by_cases ha : good a
    · exact (clean_append _ _).mpr ⟨hx s a hv ha, hf a ha _ b hb hgood⟩
    · exact absurd hgood (hn a ha _ b hb)

theorem Reports.seq {x : Prog ε σ ω α} {f : α → Prog ε σ ω β} {good' : β → Prop}
    (hx : Reports (fun _ => True) x) (hf : ∀ a, Reports good' (f a)) : Reports good' (x >>= f) :=
  hx.bind (fun a _ => hf a) fun _ h => absurd trivial h

theorem Reports.map {x : Prog ε σ ω α} {f : α → β} {good' : β → Prop}
    (hx : Reports (fun a => good' (f a)) x) : Reports good' (f <$> x) :=
  hx.bind (fun _ _ => .pure _) fun _ h => .pure h

theorem Reports.ite {p : Prop} [Decidable p] {x y : Prog ε σ ω α}
    (hx : Reports good x) (hy : Reports good y) : Reports good (if p then x else y) := by
  split
  · exact hx
  · exact hy

theorem Reports.loop {spent : ε} {body : β → Prog ε σ ω (β ⊕ α)}
    (step : ∀ b, Reports (fun r => ∀ a, r = .inr a → good a) (body b)) (fuel : Nat) (b : β) :
    Reports good (Prog.loop spent body fuel b) := by
  induction fuel generalizing b with
  | zero => exact .quiet fun _ => rfl
  | succ fuel ih =>
    refine Reports.bind (step b) ?_ ?_
    · rintro (b' | a) _
      · exact ih b'
      · exact .pure a
    · rintro (b' | a) h
      · exact absurd (by simp) h
      · exact .pure (by simpa using h)

end Reports

end Effect
