import LinkScheduling.Protocol

/-! How long a bounded read can wait. A turn of `read_header_line` or `read_exact` arms what is
left of the deadline before it receives, so the time that the calls of `recv` take never adds
up to more than the timeout, as long as each returns within the timeout armed for it. -/

namespace LinkScheduling
open Effect

def duration (sec usec : Nat) : Nat := sec * 1000000000 + usec * 1000

def Event.isRecv (fd : Int) : Event → Bool
  | .received fd' _ _ | .recvFailed fd' _ _ => fd' == fd
  | _ => false

def Event.waited : Event → Nat
  | .received _ _ elapsed | .recvFailed _ _ elapsed => elapsed
  | _ => 0

@[simp] theorem waited_armed (fd : Int) (sec usec : Nat) : (Event.armed fd sec usec).waited = 0 := rfl

@[simp] theorem waited_expired (fd : Int) : (Event.expired fd).waited = 0 := rfl

def waiting (l : List Event) : Nat := (l.map Event.waited).sum

@[simp] theorem waiting_nil : waiting [] = 0 := rfl

@[simp] theorem waiting_cons (e : Event) (l : List Event) : waiting (e :: l) = e.waited + waiting l := rfl

@[simp] theorem waiting_append (l l' : List Event) : waiting (l ++ l') = waiting l + waiting l' := by
  simp [waiting]

/-- Every `recv` returned within the timeout armed directly before it. -/
def Punctual (l : List Event) : Prop :=
  ∀ fd sec usec, ∀ pre e post, l = pre ++ .armed fd sec usec :: e :: post → e.waited ≤ duration sec usec

theorem Punctual.tail {e : Event} {l : List Event} (h : Punctual (e :: l)) : Punctual l := by
  intro fd sec usec pre f post hl
  exact h fd sec usec (e :: pre) f post (by rw [hl, List.cons_append])

/-- The log of a bounded read that begins at `now`: turns that arm some of what is left of the
deadline and then receive. -/
inductive Timed (fd : Int) (deadline : Nat) : Nat → List Event → Prop
  | nil (now : Nat) : Timed fd deadline now []
  | expired {now : Nat} {l : List Event} : Timed fd deadline now l →
      Timed fd deadline now (.expired fd :: l)
  | turn {now sec usec : Nat} {e : Event} {l : List Event} (positive : 0 < duration sec usec)
      (left : now + duration sec usec ≤ deadline) (isRecv : e.isRecv fd = true) :
      Timed fd deadline (now + e.waited) l → Timed fd deadline now (.armed fd sec usec :: e :: l)

namespace Timed
variable {fd : Int} {deadline now : Nat} {l l' : List Event}

theorem append (h : Timed fd deadline now l) (h' : Timed fd deadline (now + waiting l) l') :
    Timed fd deadline now (l ++ l') := by
  induction h with
  | nil now => simpa using h'
  | expired _ ih => exact .expired (ih (by simpa using h'))
  | turn positive left isRecv _ ih =>
    apply turn positive left isRecv
    apply ih
    simpa [Nat.add_assoc] using h'

theorem armed (h : Timed fd deadline now l) {pre post : List Event} {e : Event}
    (hl : l = pre ++ e :: post) (isRecv : e.isRecv fd = true) :
    ∃ before sec usec, pre = before ++ [.armed fd sec usec] ∧ 0 < duration sec usec ∧
      now + waiting pre + duration sec usec ≤ deadline := by
  induction h generalizing pre with
  | nil now => simp at hl
  | @expired now l _ ih =>
    cases pre with
    | nil =>
      cases hl
      cases isRecv
    | cons f pre =>
      cases hl
      obtain ⟨before, sec, usec, rfl, positive, left⟩ := ih rfl
      exact ⟨.expired fd :: before, sec, usec, rfl, positive, by simpa using left⟩
  | @turn now sec usec f l positive left _ _ ih =>
    rcases pre with _ | ⟨g, _ | ⟨g', pre⟩⟩
    · cases hl
      cases isRecv
    · cases hl
      exact ⟨[], sec, usec, rfl, positive, by simpa using left⟩
    · cases hl
      obtain ⟨before, sec', usec', rfl, positive', left'⟩ := ih rfl
      refine ⟨.armed fd sec usec :: f :: before, sec', usec', rfl, positive', ?_⟩
      simp only [waiting_append, waiting_cons, waiting_nil, waited_armed] at left' ⊢
      omega

theorem bound (h : Timed fd deadline now l) (start : now ≤ deadline) (punctual : Punctual l) :
    ∀ pre, pre <+: l → now + waiting pre ≤ deadline := by
  induction h with
  | nil now =>
    intro pre hpre
    rw [List.prefix_nil.mp hpre]
    exact start
  | expired _ ih =>
    intro pre hpre
    cases pre with
    | nil => exact start
    | cons f pre =>
      obtain ⟨rfl, rest⟩ := List.cons_prefix_cons.mp hpre
      simpa using ih start punctual.tail pre rest
  | @turn now sec usec f l positive left _ _ ih =>
    intro pre hpre
    have prompt := punctual fd sec usec [] f l rfl
    rcases pre with _ | ⟨g, _ | ⟨g', pre⟩⟩
    · exact start
    · obtain ⟨rfl, -⟩ := List.cons_prefix_cons.mp hpre
      simpa using start
    · obtain ⟨rfl, second⟩ := List.cons_prefix_cons.mp hpre
      obtain ⟨rfl, third⟩ := List.cons_prefix_cons.mp second
      have rest := ih (by omega) punctual.tail.tail pre third
      simp only [waiting_cons, waited_armed]
      omega

end Timed

section Turns
variable (fd : Int) (timeoutMs : Int) (deadline : Nat)

def Waits (a : Os) (l : List Event) (b : Os) : Prop :=
  Timed fd deadline a.now l ∧ b.now = a.now + waiting l

theorem waits_composes : Composes (Waits fd deadline) where
  nil a := ⟨.nil _, rfl⟩
  append h h' := by
    obtain ⟨timed, now⟩ := h
    obtain ⟨timed', now'⟩ := h'
    rw [now] at timed' now'
    exact ⟨timed.append timed', by rw [now', waiting_append, Nat.add_assoc]⟩

theorem armRemaining_spec (os : Os) : wp (armRemaining fd deadline) os fun v os' l =>
    os'.now = os.now ∧ ((v = .ok false ∧ l = [.expired fd]) ∨
      ∃ sec usec, v = .ok true ∧ l = [.armed fd sec usec] ∧ 0 < duration sec usec ∧
        os.now + duration sec usec ≤ deadline) := by
  simp only [wp, armRemaining]
  split
  · exact ⟨rfl, .inl ⟨rfl, rfl⟩⟩
  · refine ⟨rfl, .inr ⟨_, _, rfl, rfl, ?_, ?_⟩⟩ <;> unfold duration <;> omega

theorem recv_waits (n : Nat) (os : Os) : wp (recv fd n) os fun _ os' l =>
    ∃ e, l = [e] ∧ e.isRecv fd = true ∧ os'.now = os.now + e.waited := by
  unfold wp recv call
  cases os.verdict with
  | fail e => exact ⟨_, rfl, by simp [Event.isRecv], rfl⟩
  | grant most => exact ⟨_, rfl, by simp [Event.isRecv], rfl⟩

theorem turn_waits {β : Type} {n : Nat} {late : β} {next : Except Errno Bytes → Sys β}
    (still : ∀ r os, (next r os).log = [] ∧ (next r os).state.now = os.now) :
    Traces (Waits fd deadline) (do
      if ← armRemaining fd deadline then next (← recv fd n) else pure late) := by
  intro os
  refine wp_seq (Q := fun _ b l => Waits fd deadline os l b) (armRemaining_spec fd deadline os) ?_ ?_
  · rintro ok os₁ l₁ ⟨now₁, ⟨hok, rfl⟩ | ⟨sec, usec, hok, rfl, positive, left⟩⟩ <;> cases hok
    · exact ⟨.expired (.nil _), now₁⟩
    · refine wp_seq (recv_waits fd n os₁) ?_ ?_
      · rintro r os₂ l₂ ⟨e, rfl, isRecv, now₂⟩
        obtain ⟨quiet, now₃⟩ := still r os₂
        unfold wp
        rw [quiet]
        refine ⟨.turn positive left isRecv (.nil _), ?_⟩
        rw [now₃, now₂, now₁]
        simp
      · rintro e os₂ l₂ ⟨f, rfl, isRecv, now₂⟩
        refine ⟨.turn positive left isRecv (.nil _), ?_⟩
        rw [now₂, now₁]
        simp
  · rintro e os₁ l₁ ⟨-, ⟨h, -⟩ | ⟨_, _, h, -⟩⟩ <;> cases h

theorem armed_bounded {timeoutMs : Int} (h : 0 ≤ timeoutMs) :
    armed fd timeoutMs deadline = armRemaining fd deadline := if_pos h

theorem headerTurn_waits {timeoutMs : Int} (h : 0 ≤ timeoutMs) (line : Bytes) :
    Traces (Waits fd deadline) (headerTurn fd timeoutMs deadline line) := by
  unfold headerTurn
  rw [armed_bounded fd deadline h]
  apply turn_waits fd deadline
  rintro (e | buf) os
  · cases e <;> exact ⟨rfl, rfl⟩
  · rcases buf with _ | ⟨c, buf⟩
    · exact ⟨rfl, rfl⟩
    · cases hfeed : HeaderReadResult.feed line (c :: buf) with
      | inl line' => simp only [hfeed]; exact ⟨rfl, rfl⟩
      | inr r =>
        simp only [hfeed]
        split <;> exact ⟨rfl, rfl⟩

theorem exactTurn_waits {timeoutMs : Int} (h : 0 ≤ timeoutMs) (n : Nat) (out : Bytes) :
    Traces (Waits fd deadline) (exactTurn fd n timeoutMs deadline out) := by
  unfold exactTurn
  rw [armed_bounded fd deadline h]
  apply Traces.ite
  · apply turn_waits fd deadline
    rintro (e | part) os
    · exact ⟨rfl, rfl⟩
    · cases part <;> exact ⟨rfl, rfl⟩
  · exact Traces.pure (waits_composes fd deadline) _

end Turns

/-- A run of `x` from `os` keeps to a deadline: only `recv` takes time, each time behind a
timeout that is positive and at most what is left, and while these are kept the clock never
passes the deadline. -/
structure KeepsDeadline {α : Type} (fd : Int) (deadline : Nat) (x : Sys α) (os : Os) : Prop where
  clock : (x os).state.now = os.now + waiting (x os).log
  armed : ∀ pre e post, (x os).log = pre ++ e :: post → e.isRecv fd = true →
    ∃ before sec usec, pre = before ++ [.armed fd sec usec] ∧ 0 < duration sec usec ∧
      duration sec usec ≤ deadline - (os.now + waiting pre)
  bound : Punctual (x os).log → ∀ pre, pre <+: (x os).log → os.now + waiting pre ≤ deadline

theorem Waits.keepsDeadline {α : Type} {fd : Int} {deadline : Nat} {x : Sys α} {os : Os}
    (h : Waits fd deadline os (x os).log (x os).state) (start : os.now ≤ deadline) :
    KeepsDeadline fd deadline x os where
  clock := h.2
  armed pre e post hl isRecv := by
    obtain ⟨before, sec, usec, hpre, positive, left⟩ := h.1.armed hl isRecv
    exact ⟨before, sec, usec, hpre, positive, by omega⟩
  bound punctual := h.1.bound start punctual

theorem headerLoop_waits (fd : Int) {timeoutMs : Int} (h : 0 ≤ timeoutMs) (deadline turns : Nat)
    (line : Bytes) : Traces (Waits fd deadline)
      (Prog.loop .spent (headerTurn fd timeoutMs deadline) turns line) :=
  Traces.loop (waits_composes fd deadline) (headerTurn_waits fd deadline h) turns line

theorem exactLoop_waits (fd : Int) {timeoutMs : Int} (h : 0 ≤ timeoutMs) (deadline n turns : Nat)
    (out : Bytes) : Traces (Waits fd deadline)
      (Prog.loop .spent (exactTurn fd n timeoutMs deadline) turns out) :=
  Traces.loop (waits_composes fd deadline) (exactTurn_waits fd deadline h n) turns out

theorem readHeaderLine_waits (fd : Int) {timeoutMs : Int} (h : 0 ≤ timeoutMs) (os : Os) :
    wp (readHeaderLine fd timeoutMs) os fun _ os' l =>
      Waits fd (os.now + timeoutMs.toNat * 1000000) os l os' := by
  rw [readHeaderLine, wp_get_bind]
  exact headerLoop_waits fd h _ _ _ os

theorem readExact_waits (fd : Int) (leftover : Bytes) (n : Nat) {timeoutMs : Int} (h : 0 ≤ timeoutMs)
    (os : Os) : wp (readExact fd leftover n timeoutMs) os fun _ os' l =>
      Waits fd (os.now + timeoutMs.toNat * 1000000) os l os' := by
  rw [readExact, wp_get_bind]
  have compose := waits_composes fd (os.now + timeoutMs.toNat * 1000000)
  exact Traces.bind compose (exactLoop_waits fd h _ n (n + 1) (leftover.take n))
    (fun _ => Traces.pure compose _) os

/-- The loops stopped after any number of turns are in the states they reach. -/
theorem bounded_read_deadline (fd : Int) {timeoutMs : Int} (bounded : 0 ≤ timeoutMs) (os : Os) :
    (∀ turns line, KeepsDeadline fd (os.now + timeoutMs.toNat * 1000000)
      (Prog.loop .spent (headerTurn fd timeoutMs (os.now + timeoutMs.toNat * 1000000)) turns line) os) ∧
    (∀ n turns out, KeepsDeadline fd (os.now + timeoutMs.toNat * 1000000)
      (Prog.loop .spent (exactTurn fd n timeoutMs (os.now + timeoutMs.toNat * 1000000)) turns out) os) ∧
    KeepsDeadline fd (os.now + timeoutMs.toNat * 1000000) (readHeaderLine fd timeoutMs) os ∧
    ∀ leftover n, KeepsDeadline fd (os.now + timeoutMs.toNat * 1000000)
      (readExact fd leftover n timeoutMs) os := by
  have start : os.now ≤ os.now + timeoutMs.toNat * 1000000 := Nat.le_add_right _ _
  refine ⟨?_, ?_, ?_, ?_⟩
  · intro turns line
    exact Waits.keepsDeadline (headerLoop_waits fd bounded _ turns line os) start
  · intro n turns out
    exact Waits.keepsDeadline (exactLoop_waits fd bounded _ n turns out os) start
  · exact Waits.keepsDeadline (readHeaderLine_waits fd bounded os) start
  · intro leftover n
    exact Waits.keepsDeadline (readExact_waits fd leftover n bounded os) start

def trickle : Os where
  script := List.replicate 8 ⟨.grant (some 1), 2000000000⟩
  now := 0
  files := .empty
  peer _ _ := ascii "PUT a 3"
  sent _ := []
  recvd _ := []
  rcvtimeo _ := (0, 0)

theorem bounded_read_deadline_trickle :
    (∀ turns line, KeepsDeadline 3 5000000000
      (Prog.loop .spent (headerTurn 3 5000 5000000000) turns line) trickle) ∧
    (∀ n turns out, KeepsDeadline 3 5000000000
      (Prog.loop .spent (exactTurn 3 n 5000 5000000000) turns out) trickle) ∧
    KeepsDeadline 3 5000000000 (readHeaderLine 3 5000) trickle ∧
    ∀ leftover n, KeepsDeadline 3 5000000000 (readExact 3 leftover n 5000) trickle :=
  @bounded_read_deadline 3 5000 (by decide) trickle

end LinkScheduling
