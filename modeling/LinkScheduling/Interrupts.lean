import LinkScheduling.HeaderLine
import LinkScheduling.PutRound
import LinkScheduling.Turns

/-! What a signal does to the four loops around `recv`, `send` and `write`: failures with
`EINTR` are inserted into the script of a call. `send_all` and `write_all` call again and end as
before. `read_exact` and `read_header_line` break off, and end as before exactly when the replies
that they depend on come uninterrupted. -/

namespace LinkScheduling
open Effect Turns

/-- What a call can change in the world, the script and the clock aside. -/
structure World where
  files : Files
  peer : Int → Bytes → Bytes
  sent : Int → Bytes
  recvd : Int → Bytes

def Os.world (os : Os) : World := ⟨os.files, os.peer, os.sent, os.recvd⟩

namespace World

def arrived (w : World) (fd : Int) : Bytes := (w.peer fd (w.sent fd)).drop (w.recvd fd).length

def receive (w : World) (fd : Int) (part : Bytes) : World :=
  { w with recvd := Function.update w.recvd fd (w.recvd fd ++ part) }

def transmit (w : World) (fd : Int) (part : Bytes) : World :=
  { w with sent := Function.update w.sent fd (w.sent fd ++ part) }

def write (w : World) (fd : Int) (part : Bytes) : Option World :=
  match h : w.files.descs fd with
  | none => none
  | some d => some { w with files := w.files.write fd d h part }

@[simp] theorem arrived_receive (w : World) (fd : Int) (part : Bytes) :
    (w.receive fd part).arrived fd = (w.arrived fd).drop part.length := by
  simp [receive, arrived, List.drop_drop]

@[simp] theorem receive_nil (w : World) (fd : Int) : w.receive fd [] = w := by
  simp [receive]

end World

/-- The reply of an exhausted script. -/
def granted : Reply := ⟨.grant none, 0⟩

def interruption (r : Reply) : Prop := r.verdict = .fail .intr

theorem verdict_eq (os : Os) : os.verdict = (os.script.headD granted).verdict := by
  cases hs : os.script <;> simp [Os.verdict, hs, granted]

def sendMachine (fd : Int) (data : Bytes) : Machine Reply (Nat × World) (Bool × World) where
  stop s := if s.1 < data.length then none else some (true, s.2)
  turn s r :=
    match r.verdict with
    | .fail .intr => .inl s
    | .fail _ => .inr (false, s.2)
    | .grant most =>
      let part := (data.drop s.1).take (amount (data.drop s.1).length most)
      .inl (s.1 + part.length, s.2.transmit fd part)

def writeMachine (fd : Int) (data : Bytes) : Machine Reply (Nat × World) (Bool × World) where
  stop s := if s.1 < data.length then none else some (true, s.2)
  turn s r :=
    match r.verdict with
    | .fail .intr => .inl s
    | .fail _ => .inr (false, s.2)
    | .grant most =>
      let part := (data.drop s.1).take (amount (data.drop s.1).length most)
      match s.2.write fd part with
      | none => .inr (false, s.2)
      | some w => .inl (s.1 + part.length, w)

def World.part (w : World) (fd : Int) (n : Nat) (most : Option Nat) : Bytes :=
  ((w.arrived fd).take n).take (amount ((w.arrived fd).take n).length most)

def exactMachine (fd : Int) (n : Nat) : Machine Reply (Bytes × World) ((Bool × Bytes) × World) where
  stop s := if s.1.length < n then none else some ((true, s.1), s.2)
  turn s r :=
    match r.verdict with
    | .fail _ => .inr ((false, s.1), s.2)
    | .grant most =>
      let part := s.2.part fd (n - s.1.length) most
      if part = [] then .inr ((false, s.1), s.2) else .inl (s.1 ++ part, s.2.receive fd part)

def headerMachine (fd : Int) : Machine Reply (Bytes × World) (HeaderReadResult × World) where
  stop _ := none
  turn s r :=
    match r.verdict with
    | .fail .again => .inr ({ error := ascii "header read timeout" }, s.2)
    | .fail _ => .inr ({ error := ascii "recv error" }, s.2)
    | .grant most =>
      let part := s.2.part fd 512 most
      if part = [] then .inr ({ error := ascii "peer closed before header line completed" }, s.2)
      else
        match HeaderReadResult.feed s.1 part with
        | .inl line => .inl (line, s.2.receive fd part)
        | .inr hdr => .inr (hdr, s.2.receive fd part)

def Timely (e : Event) : Prop := ∀ fd, e ≠ .expired fd

theorem armed_timely (fd : Int) (timeoutMs : Int) (deadline : Nat) (os : Os) :
    wp (armed fd timeoutMs deadline) os fun v os' l => os'.script = os.script ∧ os'.world = os.world ∧
      (v = .ok true ∨ v = .ok false ∧ .expired fd ∈ l) := by
  unfold armed
  split
  · simp only [wp, armRemaining]
    split
    · exact ⟨rfl, rfl, .inr ⟨rfl, List.mem_singleton_self _⟩⟩
    · exact ⟨rfl, rfl, .inl rfl⟩
  · exact ⟨rfl, rfl, .inl rfl⟩

theorem recv_world (fd : Int) (n : Nat) (os : Os) :
    wp (recv fd n) os fun v os' _ => os'.script = os.script.tail ∧
      match (os.script.headD granted).verdict with
      | .fail e => v = .ok (.error e) ∧ os'.world = os.world
      | .grant most => v = .ok (.ok (os.world.part fd n most)) ∧
          os'.world = os.world.receive fd (os.world.part fd n most) := by
  rw [← verdict_eq]
  unfold wp recv call
  cases os.verdict with
  | fail e => exact ⟨rfl, rfl, rfl⟩
  | grant most => exact ⟨rfl, rfl, rfl⟩

theorem send_world (fd : Int) (data : Bytes) (os : Os) :
    wp (send fd data) os fun v os' _ => os'.script = os.script.tail ∧
      match (os.script.headD granted).verdict with
      | .fail e => v = .ok (.error e) ∧ os'.world = os.world
      | .grant most => v = .ok (.ok (data.take (amount data.length most)).length) ∧
          os'.world = os.world.transmit fd (data.take (amount data.length most)) := by
  rw [← verdict_eq]
  unfold wp send call
  cases os.verdict with
  | fail e => exact ⟨rfl, rfl, rfl⟩
  | grant most => exact ⟨rfl, rfl, rfl⟩

theorem write_world (fd : Int) (data : Bytes) (os : Os) :
    wp (write fd data) os fun v os' _ => os'.script = os.script.tail ∧
      match (os.script.headD granted).verdict with
      | .fail e => v = .ok (.error e) ∧ os'.world = os.world
      | .grant most =>
        match os.world.write fd (data.take (amount data.length most)) with
        | none => v = .ok (.error .other) ∧ os'.world = os.world
        | some w => v = .ok (.ok (data.take (amount data.length most)).length) ∧ os'.world = w := by
  rw [← verdict_eq]
  unfold wp LinkScheduling.write call
  cases os.verdict with
  | fail e => exact ⟨rfl, rfl, rfl⟩
  | grant most =>
    unfold World.write
    simp only
    split
    · rename_i none
      split
      · rename_i h
        split at h
        · exact ⟨rfl, rfl, rfl⟩
        · cases h
      · rename_i w h
        split at h
        · cases h
        · rename_i d some
          cases none.symm.trans some
    · rename_i d some
      split
      · rename_i h
        split at h
        · rename_i none
          cases none.symm.trans some
        · cases h
      · rename_i w h
        split at h
        · cases h
        · rename_i d' some'
          cases some.symm.trans some'
          cases h
          exact ⟨rfl, rfl, rfl⟩

theorem part_length_pos {data : Bytes} (h : data ≠ []) (most : Option Nat) :
    ∃ n, (data.take (amount data.length most)).length = n + 1 := by
  have pos := amount_pos (List.length_pos_iff.mpr h) most
  have le := amount_le data.length most
  exact Nat.exists_eq_add_one_of_ne_zero (by rw [List.length_take]; omega)

theorem sendTurn_follows (fd : Int) (data : Bytes) (fine : Event → Prop) :
    Follows (sendMachine fd data) granted (sendTurn fd data) Os.script (fun k os => (k, os.world))
      (fun ok os => (ok, os.world)) fine := by
  refine .of_wp fun k os => ?_
  unfold sendTurn
  by_cases hlt : k < data.length
  · rw [if_pos hlt]
    simp only [sendMachine, if_pos hlt]
    have sends := send_world fd (data.drop k) os
    cases hv : (os.script.headD granted).verdict with
    | fail e =>
      simp only [hv] at sends
      refine wp_seq sends ?_ (by simp)
      rintro r os' l ⟨script, hr, world⟩
      cases hr
      cases e with
      | intr => exact fun _ => ⟨k, rfl, script, congrArg _ world⟩
      | _ => exact fun _ => ⟨false, rfl, congrArg _ world⟩
    | grant most =>
      simp only [hv] at sends
      have rest : data.drop k ≠ [] := by
        rw [ne_eq, List.drop_eq_nil_iff]
        omega
      obtain ⟨n, hn⟩ := part_length_pos rest most
      refine wp_seq sends ?_ (by simp)
      rintro r os' l ⟨script, hr, world⟩
      cases hr
      rw [hn]
      exact fun _ => ⟨k + (n + 1), rfl, script, by rw [hn]; exact congrArg (Prod.mk _) world⟩
  · rw [if_neg hlt]
    simp only [sendMachine, if_neg hlt]
    exact fun _ => ⟨true, rfl, rfl⟩

theorem exactTurn_follows (fd : Int) (n : Nat) (timeoutMs : Int) (deadline : Nat) :
    Follows (exactMachine fd n) granted (exactTurn fd n timeoutMs deadline) Os.script (fun out os => (out, os.world))
      (fun x os => (x, os.world)) Timely := by
  refine .of_wp fun out os => ?_
  unfold exactTurn
  by_cases hlt : out.length < n
  · rw [if_pos hlt]
    simp only [exactMachine, if_pos hlt]
    refine wp_seq (armed_timely fd timeoutMs deadline os) ?_ (by simp)
    rintro ok os₁ l₁ ⟨script₁, world₁, armed⟩
    rcases armed with hok | ⟨-, late⟩
    · cases hok
      have receives := recv_world fd (n - out.length) os₁
      rw [script₁, world₁] at receives
      cases hv : (os.script.headD granted).verdict with
      | fail e =>
        simp only [hv] at receives
        refine wp_seq receives ?_ (by simp)
        rintro r os' l ⟨script, hr, world⟩
        cases hr
        exact fun _ => ⟨(false, out), rfl, congrArg _ world⟩
      | grant most =>
        simp only [hv] at receives
        refine wp_seq receives ?_ (by simp)
        rintro r os' l ⟨script, hr, world⟩
        cases hr
        cases hpart : os.world.part fd (n - out.length) most with
        | nil =>
          rw [hpart, World.receive_nil] at world
          simp only [hpart, if_true]
          exact fun _ => ⟨(false, out), rfl, congrArg _ world⟩
        | cons b part =>
          simp only [hpart, reduceCtorEq, if_false]
          rw [hpart] at world
          exact fun _ => ⟨out ++ b :: part, rfl, script, congrArg _ world⟩
    · exact fun logged => absurd rfl (logged _ (List.mem_append_left _ late) fd)
  · rw [if_neg hlt]
    simp only [exactMachine, if_neg hlt]
    exact fun _ => ⟨(true, out), rfl, rfl⟩

theorem writeTurn_follows (fd : Int) (data : Bytes) (fine : Event → Prop) :
    Follows (writeMachine fd data) granted (writeTurn fd data) Os.script (fun k os => (k, os.world))
      (fun ok os => (ok, os.world)) fine := by
  refine .of_wp fun k os => ?_
  unfold writeTurn
  by_cases hlt : k < data.length
  · rw [if_pos hlt]
    simp only [writeMachine, if_pos hlt]
    have writes := write_world fd (data.drop k) os
    cases hv : (os.script.headD granted).verdict with
    | fail e =>
      simp only [hv] at writes
      refine wp_seq writes ?_ (by simp)
      rintro r os' l ⟨script, hr, world⟩
      cases hr
      cases e with
      | intr => exact fun _ => ⟨k, rfl, script, congrArg _ world⟩
      | _ => exact fun _ => ⟨false, rfl, congrArg _ world⟩
    | grant most =>
      simp only [hv] at writes
      have rest : data.drop k ≠ [] := by
        rw [ne_eq, List.drop_eq_nil_iff]
        omega
      obtain ⟨n, hn⟩ := part_length_pos rest most
      refine wp_seq writes ?_ (by split <;> simp)
      rintro r os' l ⟨script, written⟩
      cases hw : os.world.write fd ((data.drop k).take (amount (data.drop k).length most)) with
      | none =>
        rw [hw] at written
        obtain ⟨hr, world⟩ := written
        cases hr
        simp only [hw]
        exact fun _ => ⟨false, rfl, congrArg _ world⟩
      | some w =>
        rw [hw] at written
        obtain ⟨hr, world⟩ := written
        cases hr
        simp only [hw, hn]
        exact fun _ => ⟨k + (n + 1), rfl, script, congrArg _ world⟩
  · rw [if_neg hlt]
    simp only [writeMachine, if_neg hlt]
    exact fun _ => ⟨true, rfl, rfl⟩

theorem headerTurn_follows (fd : Int) (timeoutMs : Int) (deadline : Nat) :
    Follows (headerMachine fd) granted (headerTurn fd timeoutMs deadline) Os.script
      (fun line os => (line, os.world)) (fun hdr os => (hdr, os.world)) Timely := by
  refine .of_wp fun line os => ?_
  unfold headerTurn
  simp only [headerMachine]
  refine wp_seq (armed_timely fd timeoutMs deadline os) ?_ (by simp)
  rintro ok os₁ l₁ ⟨script₁, world₁, armed⟩
  rcases armed with hok | ⟨-, late⟩
  · cases hok
    have receives := recv_world fd 512 os₁
    rw [script₁, world₁] at receives
    cases hv : (os.script.headD granted).verdict with
    | fail e =>
      simp only [hv] at receives
      refine wp_seq receives ?_ (by simp)
      rintro r os' l ⟨script, hr, world⟩
      cases hr
      cases e <;> exact fun _ => ⟨_, rfl, congrArg _ world⟩
    | grant most =>
      simp only [hv] at receives
      refine wp_seq receives ?_ (by simp)
      rintro r os' l ⟨script, hr, world⟩
      cases hr
      cases hpart : os.world.part fd 512 most with
      | nil =>
        rw [hpart, World.receive_nil] at world
        simp only [hpart, if_true]
        exact fun _ => ⟨_, rfl, congrArg _ world⟩
      | cons b part =>
        simp only [hpart, reduceCtorEq, if_false]
        rw [hpart] at world
        cases HeaderReadResult.feed line (b :: part) with
        | inl line' => exact fun _ => ⟨line', rfl, script, congrArg _ world⟩
        | inr hdr =>
          simp only
          split <;> exact fun _ => ⟨hdr, rfl, congrArg _ world⟩
  · exact fun logged => absurd rfl (logged _ (List.mem_append_left _ late) fd)

/-- With the other script the call returns the same, has received and sent the same bytes and
leaves the same files. -/
def Transparent {α : Type} (x : Sys α) (os : Os) (script' : List Reply) : Prop :=
  (x { os with script := script' }).value = (x os).value ∧
    (x { os with script := script' }).state.world = (x os).state.world

section Transparent
variable {os : Os} {script' : List Reply}

theorem sendAll_transparent (fd : Int) (data : Bytes) (ins : Inserted interruption os.script script') :
    Transparent (sendAll fd data) os script' := by
  have ends : ∀ a : Os, ∃ ok, (sendAll fd data a).value = .ok ok ∧
      (sendMachine fd data).run granted (data.length + a.script.length + 1) a.script (0, a.world) =
        some (ok, (sendAll fd data a).state.world) := by
    intro a
    obtain ⟨ok, value, -⟩ := sendAll_spec fd data a
    exact ⟨ok, value, (sendTurn_follows fd data fun _ => True).run _ 0 a (fun _ _ => trivial) value⟩
  obtain ⟨ok, value, run⟩ := ends os
  obtain ⟨ok', value', run'⟩ := ends { os with script := script' }
  have same := run_inserted
    (fun s a (ha : a.verdict = .fail .intr) _ => by simp only [sendMachine, ha]) ins run
  have fuel : data.length + os.script.length + 1 + (script'.length - os.script.length) =
      data.length + script'.length + 1 := by
    have := ins.length_le
    omega
  rw [fuel] at same
  have eq := run'.symm.trans same
  simp only [Option.some.injEq, Prod.mk.injEq] at eq
  exact ⟨by rw [value, value', eq.1], eq.2⟩

theorem failed_script {as : List Reply} {e : Errno} (h : (as.headD granted).verdict = .fail e) :
    as.tail.length < as.length := by
  cases as with
  | nil => cases h
  | cons r rest => simp

theorem writeAll_returns (fd : Int) (data : Bytes) (a : Os) : ∃ ok, (writeAll fd data a).value = .ok ok := by
  suffices returns : wp (writeAll fd data) a fun v _ _ => ∃ ok, v = .ok ok from returns
  rw [writeAll, wp_get_bind]
  refine wp_loop (fun _ _ _ => True) (fun k b => data.length - k + b.script.length) ?_ _ _ a trivial (by omega)
  intro k b l _
  unfold writeTurn
  by_cases hlt : k < data.length
  · rw [if_pos hlt]
    have writes := write_world fd (data.drop k) b
    cases hv : (b.script.headD granted).verdict with
    | fail e =>
      simp only [hv] at writes
      have shorter := failed_script hv
      refine wp_seq writes ?_ (by simp)
      rintro r c l ⟨script, hr, -⟩
      cases hr
      cases e with
      | intr =>
        refine ⟨trivial, ?_⟩
        change data.length - k + c.script.length < data.length - k + b.script.length
        rw [script]
        omega
      | _ => exact ⟨_, rfl⟩
    | grant most =>
      simp only [hv] at writes
      have rest : data.drop k ≠ [] := by
        rw [ne_eq, List.drop_eq_nil_iff]
        omega
      obtain ⟨n, hn⟩ := part_length_pos rest most
      have le : n + 1 ≤ data.length - k := by
        rw [← hn, ← List.length_drop]
        exact List.length_take_le' ..
      refine wp_seq writes ?_ (by split <;> simp)
      rintro r c l ⟨script, written⟩
      have tail : c.script.length ≤ b.script.length := by
        rw [script, List.length_tail]
        omega
      split at written
      · obtain ⟨hr, -⟩ := written
        cases hr
        exact ⟨_, rfl⟩
      · obtain ⟨hr, -⟩ := written
        cases hr
        rw [hn]
        refine ⟨trivial, ?_⟩
        change data.length - (k + (n + 1)) + c.script.length < data.length - k + b.script.length
        omega
  · rw [if_neg hlt]
    exact ⟨true, rfl⟩

theorem writeAll_transparent (fd : Int) (data : Bytes) (ins : Inserted interruption os.script script') :
    Transparent (writeAll fd data) os script' := by
  have ends : ∀ a : Os, ∃ ok, (writeAll fd data a).value = .ok ok ∧
      (writeMachine fd data).run granted (data.length + a.script.length + 1) a.script (0, a.world) =
        some (ok, (writeAll fd data a).state.world) := by
    intro a
    obtain ⟨ok, value⟩ := writeAll_returns fd data a
    exact ⟨ok, value, (writeTurn_follows fd data fun _ => True).run _ 0 a (fun _ _ => trivial) value⟩
  obtain ⟨ok, value, run⟩ := ends os
  obtain ⟨ok', value', run'⟩ := ends { os with script := script' }
  have same := run_inserted
    (fun s a (ha : a.verdict = .fail .intr) _ => by simp only [writeMachine, ha]) ins run
  have fuel : data.length + os.script.length + 1 + (script'.length - os.script.length) =
      data.length + script'.length + 1 := by
    have := ins.length_le
    omega
  rw [fuel] at same
  have eq := run'.symm.trans same
  simp only [Option.some.injEq, Prod.mk.injEq] at eq
  exact ⟨by rw [value, value', eq.1], eq.2⟩

/-- The reply breaks a `read_exact` off: the call fails, or the stream has ended. -/
def exactBreaks (fd : Int) (n : Nat) (s : Bytes × World) (r : Reply) : Bool :=
  match r.verdict with
  | .fail _ => true
  | .grant most => s.2.part fd (n - s.1.length) most = []

def headerBreaks (_ : Bytes × World) (r : Reply) : Bool :=
  match r.verdict with
  | .fail .again => false
  | .fail _ => true
  | .grant _ => false

/-- How many replies a `read_exact` depends on: those that bring its bytes. -/
def exactNeeds (fd : Int) (leftover : Bytes) (n : Nat) (os : Os) : Nat :=
  (exactMachine fd n).needs granted (exactBreaks fd n) (n + 1) os.script (leftover.take n, os.world)

/-- How many replies a `read_header_line` depends on: those that bring the chunks up to its end,
and a last one that reports a timeout or the end of the stream. -/
def headerNeeds (fd : Int) (os : Os) : Nat :=
  (headerMachine fd).needs granted headerBreaks 8194 os.script ([], os.world)

theorem part_front (w : World) (fd : Int) (n : Nat) (most : Option Nat) :
    w.part fd n most <+: w.arrived fd := (List.take_prefix _ _).trans (List.take_prefix _ _)

theorem arrived_shrinks {w : World} {fd : Int} {n : Nat} {most : Option Nat} (h : w.part fd n most ≠ []) :
    ((w.receive fd (w.part fd n most)).arrived fd).length < (w.arrived fd).length := by
  have pos := List.length_pos_iff.mpr h
  have le := (part_front w fd n most).length_le
  rw [World.arrived_receive, List.length_drop]
  omega

theorem exactMachine_iff (fd : Int) (n : Nat) {as bs : List Reply} (h : Inserted interruption as bs)
    {fuel : Nat} {s : Bytes × World} {r r' : (Bool × Bytes) × World}
    (run : (exactMachine fd n).run granted fuel as s = some r)
    (run' : (exactMachine fd n).run granted fuel bs s = some r') :
    r' = r ↔ bs.take ((exactMachine fd n).needs granted (exactBreaks fd n) fuel as s) =
      as.take ((exactMachine fd n).needs granted (exactBreaks fd n) fuel as s) := by
  have going : ∀ s : Bytes × World, (exactMachine fd n).stop s = none → s.1.length < n := by
    intro s hs
    by_contra hge
    simp [exactMachine, hge] at hs
  refine run_broken_iff (fun s => ((false, s.1), s.2)) ?_ ?_ (fun s => (s.2.arrived fd).length)
    (fun r => (r.2.arrived fd).length) (fun _ => rfl) ?_ ?_ ?_ h run run'
  · intro s a (ha : a.verdict = .fail .intr) _
    simp only [exactMachine, ha]
  · intro s a hs
    simp only [exactMachine, exactBreaks]
    cases a.verdict with
    | fail e => simp
    | grant most => simp
  · intro s a s' hs ht
    simp only [exactMachine] at ht
    cases hv : a.verdict with
    | fail e => simp [hv] at ht
    | grant most =>
      simp only [hv] at ht
      split at ht
      · cases ht
      · rename_i hpart
        cases ht
        exact arrived_shrinks hpart
  · intro s r hs
    simp only [exactMachine] at hs
    split at hs
    · cases hs
    · cases hs
      exact Nat.le_refl _
  · intro s a r hs ht
    simp only [exactMachine] at ht
    cases hv : a.verdict with
    | fail e =>
      simp only [hv] at ht
      cases ht
      exact Nat.le_refl _
    | grant most =>
      simp only [hv] at ht
      split at ht
      · cases ht
        exact Nat.le_refl _
      · cases ht

theorem headerMachine_iff (fd : Int) {as bs : List Reply} (h : Inserted interruption as bs)
    {fuel : Nat} {s : Bytes × World} {r r' : HeaderReadResult × World}
    (run : (headerMachine fd).run granted fuel as s = some r)
    (run' : (headerMachine fd).run granted fuel bs s = some r') :
    r' = r ↔ bs.take ((headerMachine fd).needs granted headerBreaks fuel as s) =
      as.take ((headerMachine fd).needs granted headerBreaks fuel as s) := by
  have fed : ∀ {line buf : Bytes} {hdr : HeaderReadResult}, HeaderReadResult.feed line buf = .inr hdr →
      hdr ≠ { error := ascii "recv error" } := by
    intro line buf hdr hfeed
    unfold HeaderReadResult.feed at hfeed
    split at hfeed
    · cases hfeed
      simp
    · split at hfeed
      · cases hfeed
        decide
      · cases hfeed
  refine run_broken_iff (fun s => ({ error := ascii "recv error" }, s.2)) ?_ ?_
    (fun s => (s.2.arrived fd).length) (fun r => (r.2.arrived fd).length) (fun _ => rfl) ?_ ?_ ?_ h run run'
  · intro s a (ha : a.verdict = .fail .intr) _
    simp only [headerMachine, ha]
  · intro s a hs
    simp only [headerMachine, headerBreaks]
    cases a.verdict with
    | fail e =>
      cases e with
      | again =>
        simp only [Bool.false_eq_true, false_iff, Sum.inr.injEq, Prod.mk.injEq, and_true]
        decide
      | _ => simp
    | grant most =>
      simp only [Bool.false_eq_true, false_iff]
      split
      · simp
        decide
      · split
        · simp
        · rename_i hdr hfeed
          simp [fed hfeed]
  · intro s a s' hs ht
    simp only [headerMachine] at ht
    cases hv : a.verdict with
    | fail e => cases e <;> simp [hv] at ht
    | grant most =>
      simp only [hv] at ht
      split at ht
      · cases ht
      · rename_i hpart
        split at ht
        · cases ht
          exact arrived_shrinks hpart
        · cases ht
  · intro s r hs
    cases hs
  · intro s a r hs ht
    simp only [headerMachine] at ht
    cases hv : a.verdict with
    | fail e => cases e <;> simp only [hv, Sum.inr.injEq] at ht <;> cases ht <;> exact Nat.le_refl _
    | grant most =>
      simp only [hv] at ht
      split at ht
      · cases ht
        exact Nat.le_refl _
      · rename_i hpart
        split at ht
        · cases ht
        · cases ht
          exact Nat.le_of_lt (arrived_shrinks hpart)

theorem readExact_loop (fd : Int) (leftover : Bytes) (n : Nat) (timeoutMs : Int) (a : Os) :
    ∃ x : Bool × Bytes, (readExact fd leftover n timeoutMs a).value = .ok ⟨x.1, x.2, leftover.drop n⟩ ∧
      ((∀ e ∈ (readExact fd leftover n timeoutMs a).log, Timely e) →
        (exactMachine fd n).run granted (n + 1) a.script (leftover.take n, a.world) =
          some (x, (readExact fd leftover n timeoutMs a).state.world)) := by
  obtain ⟨y, value, -⟩ := readExact_spec fd leftover n timeoutMs a
  have follows := exactTurn_follows fd n timeoutMs (a.now + timeoutMs.toNat * 1000000)
  have unfolded : readExact fd leftover n timeoutMs a = Prog.bind (Prog.loop .spent
      (exactTurn fd n timeoutMs (a.now + timeoutMs.toNat * 1000000)) (n + 1) (leftover.take n))
        (fun x => pure ⟨x.1, x.2, leftover.drop n⟩) a := rfl
  rw [unfolded] at value ⊢
  cases hv : (Prog.loop .spent (exactTurn fd n timeoutMs (a.now + timeoutMs.toNat * 1000000)) (n + 1)
      (leftover.take n) a).value with
  | error e => simp [Prog.bind, hv] at value
  | ok x =>
    simp only [Prog.bind, hv]
    exact ⟨x, rfl, fun logged => follows.run (n + 1) _ a (fun e he => logged e (List.mem_append_left _ he)) hv⟩

theorem readExact_transparent_iff (fd : Int) (leftover : Bytes) (n : Nat) (timeoutMs : Int)
    (ins : Inserted interruption os.script script')
    (timely : ∀ e ∈ (readExact fd leftover n timeoutMs os).log, Timely e)
    (timely' : ∀ e ∈ (readExact fd leftover n timeoutMs { os with script := script' }).log, Timely e) :
    Transparent (readExact fd leftover n timeoutMs) os script' ↔
      script'.take (exactNeeds fd leftover n os) = os.script.take (exactNeeds fd leftover n os) := by
  obtain ⟨x, value, run⟩ := readExact_loop fd leftover n timeoutMs os
  obtain ⟨x', value', run'⟩ := readExact_loop fd leftover n timeoutMs { os with script := script' }
  refine Iff.trans ?_ (exactMachine_iff fd n ins (run timely) (run' timely'))
  rw [Transparent, value, value', Prod.mk.injEq, Except.ok.injEq, ReadExact.mk.injEq, Prod.ext_iff]
  simp

theorem readHeaderLine_transparent_iff (fd : Int) (timeoutMs : Int)
    (ins : Inserted interruption os.script script')
    (timely : ∀ e ∈ (readHeaderLine fd timeoutMs os).log, Timely e)
    (timely' : ∀ e ∈ (readHeaderLine fd timeoutMs { os with script := script' }).log, Timely e) :
    Transparent (readHeaderLine fd timeoutMs) os script' ↔
      script'.take (headerNeeds fd os) = os.script.take (headerNeeds fd os) := by
  have ends : ∀ a : Os, (∀ e ∈ (readHeaderLine fd timeoutMs a).log, Timely e) →
      ∃ hdr, (readHeaderLine fd timeoutMs a).value = .ok hdr ∧
        (headerMachine fd).run granted 8194 a.script ([], a.world) =
          some (hdr, (readHeaderLine fd timeoutMs a).state.world) := by
    intro a logged
    obtain ⟨hdr, value, -⟩ := readHeaderLine_spec fd timeoutMs a
    exact ⟨hdr, value, (headerTurn_follows fd timeoutMs _).run _ [] a logged value⟩
  obtain ⟨hdr, value, run⟩ := ends os timely
  obtain ⟨hdr', value', run'⟩ := ends { os with script := script' } timely'
  refine Iff.trans ?_ (headerMachine_iff fd ins run run')
  rw [Transparent, value, value', Prod.mk.injEq, Except.ok.injEq]

end Transparent

/-- What interruptions change. The deadlines are not reached, with or without them. -/
theorem interruptions_transparent_iff (fd : Int) (data leftover : Bytes) (n : Nat) (timeoutMs : Int) (os : Os)
    {script' : List Reply} (ins : Inserted interruption os.script script') :
    Transparent (sendAll fd data) os script' ∧ Transparent (writeAll fd data) os script' ∧
    ((∀ e ∈ (readExact fd leftover n timeoutMs os).log, Timely e) →
      (∀ e ∈ (readExact fd leftover n timeoutMs { os with script := script' }).log, Timely e) →
      (Transparent (readExact fd leftover n timeoutMs) os script' ↔
        script'.take (exactNeeds fd leftover n os) = os.script.take (exactNeeds fd leftover n os))) ∧
    ((∀ e ∈ (readHeaderLine fd timeoutMs os).log, Timely e) →
      (∀ e ∈ (readHeaderLine fd timeoutMs { os with script := script' }).log, Timely e) →
      (Transparent (readHeaderLine fd timeoutMs) os script' ↔
        script'.take (headerNeeds fd os) = os.script.take (headerNeeds fd os))) :=
  ⟨sendAll_transparent fd data ins, writeAll_transparent fd data ins,
    readExact_transparent_iff fd leftover n timeoutMs ins, readHeaderLine_transparent_iff fd timeoutMs ins⟩

def interrupted : Reply := ⟨.fail .intr, 0⟩

theorem inserted_single : Inserted interruption (delivering (ascii "HEALTH\n") []).script [interrupted] :=
  .insert rfl .nil

/-- An interruption before the bytes come spoils the read of the body; one after them harms nobody. -/
theorem interruptions_transparent_iff_single :
    ¬ Transparent (readExact 7 [] 3 5000) (delivering (ascii "HEALTH\n") []) [interrupted] ∧
    Transparent (sendAll 7 [97, 98]) (delivering (ascii "HEALTH\n") []) [interrupted] ∧
    Transparent (writeAll 7 [97, 98]) (delivering (ascii "HEALTH\n") []) [interrupted] ∧
    Transparent (readExact 7 [] 3 5000) (delivering (ascii "HEALTH\n") [granted]) [granted, interrupted] ∧
    Transparent (readHeaderLine 7 5000) (delivering (ascii "HEALTH\n") [granted]) [granted, interrupted] := by
  obtain ⟨sends, writes, early, -⟩ := interruptions_transparent_iff 7 [97, 98] [] 3 5000
    (delivering (ascii "HEALTH\n") []) inserted_single
  obtain ⟨-, -, late, header⟩ := interruptions_transparent_iff 7 [97, 98] [] 3 5000
    (delivering (ascii "HEALTH\n") [granted])
    (show Inserted interruption [granted] [granted, interrupted] from .keep _ (.insert rfl .nil))
  have timely : ∀ {l : List Event}, (l.all fun e => match e with | .expired _ => false | _ => true) = true →
      ∀ e ∈ l, Timely e := by
    rintro l all e he fd rfl
    cases List.all_eq_true.mp all _ he
  refine ⟨fun same => ?_, sends, writes, ?_, ?_⟩
  · have kept := (early (timely (by decide +kernel)) (timely (by decide +kernel))).mp same
    have needs : 0 < exactNeeds 7 [] 3 (delivering (ascii "HEALTH\n") []) := by decide +kernel
    rw [show (delivering (ascii "HEALTH\n") []).script = [] from rfl, List.take_nil, List.take_eq_nil_iff] at kept
    exact kept.elim (Nat.ne_of_gt needs) (List.cons_ne_nil _ _)
  · have needs : exactNeeds 7 [] 3 (delivering (ascii "HEALTH\n") [granted]) = 1 := by decide +kernel
    exact (late (timely (by decide +kernel)) (timely (by decide +kernel))).mpr (by rw [needs]; rfl)
  · have needs : headerNeeds 7 (delivering (ascii "HEALTH\n") [granted]) = 1 := by decide +kernel
    exact (header (timely (by decide +kernel)) (timely (by decide +kernel))).mpr (by rw [needs]; rfl)

theorem readHeaderLine_interrupted :
    Inserted interruption (delivering (ascii "HEALTH\n") []).script [interrupted] ∧
    (readHeaderLine 7 5000 (delivering (ascii "HEALTH\n") [])).log =
      [.armed 7 5 0, .received 7 (ascii "HEALTH\n") 0] ∧
    (readHeaderLine 7 5000 { delivering (ascii "HEALTH\n") [] with script := [interrupted] }).log =
      [.armed 7 5 0, .recvFailed 7 .intr 0] ∧
    ¬ Transparent (readHeaderLine 7 5000) (delivering (ascii "HEALTH\n") []) [interrupted] := by
  refine ⟨inserted_single, by decide +kernel, by decide +kernel, fun same => ?_⟩
  have failed : (match (readHeaderLine 7 5000 { delivering (ascii "HEALTH\n") [] with script := [interrupted] }).value with
    | .ok hdr => hdr.ok | .error _ => false) = false := by decide +kernel
  have read : (match (readHeaderLine 7 5000 (delivering (ascii "HEALTH\n") [])).value with
    | .ok hdr => hdr.ok | .error _ => false) = true := by decide +kernel
  rw [same.1, read] at failed
  cases failed

end LinkScheduling
