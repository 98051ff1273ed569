import LinkScheduling.Deadlines
import LinkScheduling.Advance
import LinkScheduling.Frames

/-! How long the body of a PUT can keep workers waiting. Every `read_exact` of a chunk has a
deadline of its own, so what counts is how many of these calls the rounds of a request make:
one for every 64 KiB of the body under fcfs and sjf, but one for every 64 KiB of every
quantum under rr and drr. -/

namespace LinkScheduling
open Effect

def chunkLimit : Nat := 10000000000

def chunks (n : Nat) : Nat := (n + 65535) / 65536

/-- The calls of `read_exact` that the rounds of an upload of `n` bytes make. -/
def putReads (sp : SliceParams) (n : Nat) : Nat :=
  if bounded sp.policy then
    n / sp.quantum.toNat * chunks sp.quantum.toNat + chunks (n % sp.quantum.toNat)
  else chunks n

/-- Receiving took the time of at most `c` chunks, unless it overran a timeout. -/
def WaitsFor (c : Nat) (l : List Event) : Prop := Punctual l → waiting l ≤ c * chunkLimit

theorem Punctual.part {l l' : List Event} (h : Punctual l) (hl : l' <:+: l) : Punctual l' := by
  intro fd sec usec pre e post eq
  obtain ⟨before, after, rfl⟩ := hl
  apply h fd sec usec (before ++ pre) e (post ++ after)
  rw [eq]
  simp

namespace WaitsFor
variable {c c' : Nat} {l l' : List Event}

theorem append (h : WaitsFor c l) (h' : WaitsFor c' l') : WaitsFor (c + c') (l ++ l') := by
  intro punctual
  have front := h (punctual.part ⟨[], l', by simp⟩)
  have back := h' (punctual.part ⟨l, [], by simp⟩)
  rw [waiting_append, Nat.add_mul]
  omega

theorem mono (h : WaitsFor c l) (le : c ≤ c') : WaitsFor c' l :=
  fun punctual => (h punctual).trans (Nat.mul_le_mul_right _ le)

end WaitsFor

def Event.still : Event → Bool
  | .received .. | .recvFailed .. | .armed .. | .expired _ => false
  | _ => true

def AllStill (l : List Event) : Prop := ∀ e ∈ l, e.still = true

theorem Event.still.waited {e : Event} (h : e.still = true) : e.waited = 0 := by
  cases e <;> first | rfl | cases h

theorem AllStill.waiting {l : List Event} (h : AllStill l) : waiting l = 0 := by
  induction l with
  | nil => rfl
  | cons e l ih =>
    obtain ⟨first, rest⟩ := List.forall_mem_cons.mp h
    rw [waiting_cons, Event.still.waited first, ih rest]

theorem AllStill.waitsFor {l : List Event} (h : AllStill l) : WaitsFor 0 l :=
  fun _ => by rw [h.waiting]; exact Nat.zero_le _

abbrev Mute {σ α : Type} (x : Prog Fault σ Event α) : Prop :=
  Within (fun _ => True) (fun e => e.still = true) x

theorem call_mute {α : Type} {f : Verdict → Os → Outcome Fault Os Event α}
    (h : ∀ v os, ∀ e ∈ (f v os).log, e.still = true) : Mute (call f) :=
  fun os _ => ⟨trivial, h os.verdict os.answered⟩

theorem alloc_mute : Mute alloc := by
  apply call_mute
  rintro (most | e) os
  · exact List.forall_mem_nil _
  · exact List.forall_mem_singleton.mpr rfl

theorem send_mute (fd : Int) (data : Bytes) : Mute (send fd data) := by
  apply call_mute
  rintro (most | e) os <;> exact List.forall_mem_singleton.mpr rfl

theorem sendAll_mute (fd : Int) (data : Bytes) : Mute (sendAll fd data) := by
  refine .bind (.emit rfl) fun _ => .bind .get fun _ => .loop (fun sent => ?_) _ _
  refine .ite (.bind (send_mute fd _) fun r => ?_) (.pure _)
  split <;> exact .pure _

theorem sendError_mute (fd : Int) (reason : Bytes) : Mute (sendError fd reason) :=
  .bind alloc_mute fun _ => .bind (sendAll_mute fd _) fun _ => .pure _

theorem write_mute (fd : Int) (data : Bytes) : Mute (write fd data) := by
  apply call_mute
  rintro (most | e) os
  · simp only
    split <;> exact List.forall_mem_singleton.mpr rfl
  · exact List.forall_mem_singleton.mpr rfl

theorem writeAll_mute (fd : Int) (data : Bytes) : Mute (writeAll fd data) := by
  refine .bind .get fun _ => .loop (fun done => ?_) _ _
  refine .ite (.bind (write_mute fd _) fun r => ?_) (.pure _)
  split <;> exact .pure _

theorem openTrunc_mute (p : Path) : Mute (openTrunc p) := by
  apply call_mute
  rintro (most | e) os <;> exact List.forall_mem_singleton.mpr rfl

theorem rename_mute (src dst : Path) : Mute (rename src dst) := by
  apply call_mute
  rintro (most | e) os
  · simp only
    split <;> exact List.forall_mem_singleton.mpr rfl
  · exact List.forall_mem_singleton.mpr rfl

theorem close_mute (fd : Int) : Mute (close fd) :=
  fun _ _ => ⟨trivial, List.forall_mem_singleton.mpr rfl⟩

theorem onOs_mute {α : Type} {x : Sys α} (h : Mute x) : Mute (onOs x) := Within.zoom h fun _ _ => rfl

theorem request_mute : Mute request := fun _ _ => ⟨trivial, List.forall_mem_nil _⟩

theorem setRequest_mute (f : Request → Request) : Mute (setRequest f) := .modify fun _ _ => trivial

theorem beginPut_mute (fd : Int) : Mute (beginPut fd) := by
  refine .bind request_mute fun r => .ite (.pure _) (.bind (onOs_mute alloc_mute) fun _ =>
    .bind (setRequest_mute _) fun _ => .bind (onOs_mute (openTrunc_mute _)) fun n => ?_)
  cases n with
  | none =>
    exact .bind (setRequest_mute _) fun _ => .bind (onOs_mute (sendError_mute fd _)) fun _ => .pure _
  | some n =>
    refine .bind (setRequest_mute _) fun _ => .bind (onOs_mute alloc_mute) fun _ =>
      .bind (onOs_mute (sendAll_mute fd _)) fun ok => .ite ?_ (.pure _)
    exact .bind (setRequest_mute _) fun _ => .pure _

theorem installPut_mute (fd : Int) : Mute (installPut fd) := by
  refine .bind request_mute fun r => .bind (onOs_mute (close_mute _)) fun _ =>
    .bind (setRequest_mute _) fun _ => .bind (onOs_mute (rename_mute _ _)) fun ok => .ite ?_ ?_
  · exact .bind (setRequest_mute _) fun _ => .bind (onOs_mute alloc_mute) fun _ =>
      .bind (onOs_mute (sendAll_mute fd _)) fun sent => .ite (.pure _) (.pure _)
  · exact .bind (onOs_mute (sendError_mute fd _)) fun _ => .pure _

theorem Mute.still {σ α : Type} {x : Prog Fault σ Event α} (h : Mute x) (s : σ) :
    wp x s fun _ _ l => AllStill l := (h s trivial).2

theorem readExact_waitsFor (fd : Int) (leftover : Bytes) (n : Nat) (os : Os) :
    wp (readExact fd leftover n kBodyChunkTimeoutMs) os fun _ _ l => WaitsFor 1 l := by
  have waits := readExact_waits fd leftover n (show 0 ≤ kBodyChunkTimeoutMs by decide) os
  refine wp_mono waits ?_
  rintro v os' l ⟨timed, -⟩ punctual
  have bound := timed.bound (Nat.le_add_right _ _) punctual l (List.prefix_refl l)
  have limit : kBodyChunkTimeoutMs.toNat * 1000000 = chunkLimit := by decide
  rw [limit] at bound
  omega

theorem Mute.wp_waitsFor {σ α : Type} {x : Prog Fault σ Event α} (h : Mute x) {c : Nat} {l : List Event}
    (before : WaitsFor c l) (s : σ) : wp x s fun _ _ l' => WaitsFor c (l ++ l') :=
  (before.append (AllStill.waitsFor (h s trivial).2)).mono (Nat.le_of_eq (Nat.add_zero c))

theorem putTurn_waitsFor (fd : Int) (take size done : UInt64) (j : Job) :
    wp (putTurn fd take size done) j fun _ _ l => WaitsFor (if done < take then 1 else 0) l := by
  unfold putTurn
  by_cases more : done < take
  · simp only [if_pos more]
    rw [wp_request_bind]
    refine wp_seq (onOs_spec (readExact_waitsFor fd j.req.leftover _ j.os)) ?_ ?_
    · rintro x j₁ l₁ ⟨-, waits⟩
      apply Mute.wp_waitsFor _ waits
      refine .bind (setRequest_mute _) fun _ => .ite (.bind (onOs_mute (writeAll_mute _ _)) fun ok =>
        .ite ?_ ?_) ?_
      · exact .bind (setRequest_mute _) fun _ => .pure _
      · exact .bind (onOs_mute (sendError_mute fd _)) fun _ => .pure _
      · exact .bind (onOs_mute (sendError_mute fd _)) fun _ => .pure _
    · rintro e j₁ l₁ ⟨-, waits⟩
      exact waits
  · simp only [if_neg more]
    exact fun _ => Nat.zero_le _

theorem chunks_further {take k : Nat} (h : k * min take 65536 < take) : k + 1 ≤ chunks take := by
  unfold chunks
  rcases Nat.le_total take 65536 with small | large
  · rw [Nat.min_eq_left small] at h
    have first : k = 0 := by
      by_contra hk
      have := Nat.le_mul_of_pos_left take (Nat.pos_of_ne_zero hk)
      omega
    subst first
    omega
  · rw [Nat.min_eq_right large] at h
    omega

theorem putLoop_waitsFor (fd : Int) (take : UInt64) (j : Job) :
    wp (Prog.loop .spent (putTurn fd take (min take kChunk)) (take.toNat + 1) 0) j fun _ _ l =>
      WaitsFor (chunks take.toNat) l := by
  have size : (min take kChunk).toNat = min take.toNat 65536 := toNat_min take kChunk
  refine wp_loop
    (fun done _ l => ∃ k, done.toNat = min (k * min take.toNat 65536) take.toNat ∧
      k ≤ chunks take.toNat ∧ WaitsFor k l)
    (fun done _ => take.toNat - done.toNat) ?_ _ _ _ ⟨0, by simp, Nat.zero_le _, fun _ => by simp⟩
    (by simp)
  rintro done j' l ⟨k, reached, few, waits⟩
  refine wp_mono (wp_and (putTurn_advances take _ done j') (putTurn_waitsFor fd take _ done j')) ?_
  rintro v j'' l' ⟨advances, turn⟩
  by_cases more : done < take
  · rw [if_pos more] at turn
    have room := UInt64.lt_iff_toNat_lt.mp more
    have next : k + 1 ≤ chunks take.toNat := chunks_further (by omega)
    have total := waits.append turn
    rcases v with e | d | ok
    · exact total.mono next
    · obtain ⟨-, rfl, -⟩ := advances
      have n : (min (min take kChunk) (take - done)).toNat =
          min (min take.toNat 65536) (take.toNat - done.toNat) := by
        rw [toNat_min, size, UInt64.toNat_sub_of_le _ _ (UInt64.le_of_lt more)]
      have top := take.toNat_lt
      have sum : (done + min (min take kChunk) (take - done)).toNat =
          done.toNat + min (min take.toNat 65536) (take.toNat - done.toNat) := by
        rw [UInt64.toNat_add, n]
        omega
      refine ⟨⟨k + 1, ?_, next, total⟩, ?_⟩
      · rw [sum, Nat.succ_mul]
        omega
      · rw [sum]
        omega
    · exact total.mono next
  · rw [if_neg more] at turn
    have total := (waits.append turn).mono (Nat.le_of_eq (Nat.add_zero k))
    rcases v with e | d | ok
    · exact total.mono few
    · exact absurd advances.1 more
    · exact total.mono few

theorem servePut_waitsFor (fd : Int) (sp : SliceParams) (j : Job) :
    wp (servePut fd sp) j fun _ _ l => WaitsFor (chunks (takeOf sp j.req).toNat) l := by
  unfold servePut
  rw [wp_setRequest_bind]
  have begin_ := ((beginPut_mute fd) ⟨{ j.req with rounds := j.req.rounds + 1 }, j.os⟩ trivial).2
  refine wp_seq (P := fun _ j' l => (j'.req.bytes = j.req.bytes ∧ j'.req.byteOffset = j.req.byteOffset) ∧
    AllStill l) (wp_and (beginPut_stays _) begin_) ?_ ?_
  · rintro ok j₁ l₁ ⟨⟨bytes, offset⟩, still₁⟩
    have before := still₁.waitsFor.mono (Nat.zero_le (chunks (takeOf sp j.req).toNat))
    split
    · rw [wp_request_bind]
      have same : (if bounded sp.policy then min sp.quantum (j₁.req.bytes - j₁.req.byteOffset)
          else j₁.req.bytes - j₁.req.byteOffset) = takeOf sp j.req := by
        rw [takeOf, bytes, offset]
      simp only [same]
      refine wp_seq (P := fun _ _ l => AllStill l) ((onOs_mute alloc_mute) j₁ trivial).2 ?_ ?_
      · intro _ j₂ l₂ still₂
        refine wp_seq (putLoop_waitsFor fd _ j₂) ?_ ?_
        · intro ok j₃ l₃ waits
          have upTo := (still₁.waitsFor.append (still₂.waitsFor.append waits)).mono
            (by omega : 0 + (0 + chunks (takeOf sp j.req).toNat) ≤ chunks (takeOf sp j.req).toNat)
          have rest : Mute (if ok = true then (do
              let r ← request
              if r.byteOffset < r.bytes then pure .preempted else installPut fd)
            else pure .failed : Slice SliceResult) :=
            .ite (.bind request_mute fun r => .ite (.pure _) (installPut_mute fd)) (.pure _)
          simpa only [List.append_assoc] using rest.wp_waitsFor upTo j₃
        · intro e j₃ l₃ waits
          exact (still₁.waitsFor.append (still₂.waitsFor.append waits)).mono (by omega)
      · intro e j₂ l₂ still₂
        exact (still₁.waitsFor.append still₂.waitsFor).mono (Nat.zero_le _)
    · simpa only [wp_pure, List.append_nil] using before
  · rintro e j₁ l₁ ⟨-, still₁⟩
    exact still₁.waitsFor.mono (Nat.zero_le _)

theorem serveOrReport_waitsFor (fd : Int) (sp : SliceParams) (j : Job) (hop : j.req.op = .put) :
    wp (serveOrReport fd sp) j fun _ _ l => WaitsFor (chunks (takeOf sp j.req).toNat) l := by
  have slice : wp (serveSlice fd sp) j fun _ _ l => WaitsFor (chunks (takeOf sp j.req).toNat) l := by
    unfold wp
    rw [serveSlice_put fd sp hop]
    exact servePut_waitsFor fd sp j
  rw [serveOrReport, wp_rescue]
  refine wp_mono slice ?_
  rintro (e | a) j' l waits
  · refine Mute.wp_waitsFor ?_ waits j'
    cases e with
    | thrown => exact .bind (onOs_mute (sendError_mute fd _)) fun _ => .pure _
    | spent => exact .stop _
  · exact waits

/-- The rounds that workers serve of one request. Between them others may change the world. -/
inductive Interleaved (fd : Int) (sp : SliceParams) : Job → List Round → Prop
  | none (j : Job) : Interleaved fd sp j []
  | last {j : Job} : (serveOrReport fd sp j).value ≠ .ok .preempted →
      Interleaved fd sp j [serveOrReport fd sp j]
  | more {j : Job} {rounds : List Round} (os : Os) : (serveOrReport fd sp j).value = .ok .preempted →
      Interleaved fd sp ⟨(serveOrReport fd sp j).state.req, os⟩ rounds →
      Interleaved fd sp j (serveOrReport fd sp j :: rounds)

theorem callRounds_interleaved (fd : Int) (sp : SliceParams) (fuel : Nat) (j : Job) :
    Interleaved fd sp j (callRounds (serveOrReport fd sp) fuel j) := by
  induction fuel generalizing j with
  | zero => exact .none j
  | succ fuel ih =>
    by_cases h : (serveOrReport fd sp j).value = .ok .preempted
    · rw [callRounds_preempted fuel h]
      exact .more _ h (ih _)
    · rw [callRounds_over fuel h]
      exact .last h

theorem serveOrReport_preempted (fd : Int) (sp : SliceParams) {j : Job} (hop : j.req.op = .put) :
    wp (serveOrReport fd sp) j fun v j' _ => v = .ok .preempted → bounded sp.policy = true ∧
      j'.req.bytes = j.req.bytes ∧ j'.req.byteOffset < j'.req.bytes ∧
      j'.req.byteOffset = j.req.byteOffset + sp.quantum ∧ sp.quantum ≤ j.req.bytes - j.req.byteOffset := by
  have slice : wp (serveSlice fd sp) j fun v j' _ => v = .ok .preempted → bounded sp.policy = true ∧
      j'.req.bytes = j.req.bytes ∧ j'.req.byteOffset < j'.req.bytes ∧
      j'.req.byteOffset = j.req.byteOffset + sp.quantum ∧ sp.quantum ≤ j.req.bytes - j.req.byteOffset := by
    unfold wp
    rw [serveSlice_put fd sp hop]
    exact servePut_preempted j
  rw [serveOrReport, wp_rescue]
  refine wp_mono slice ?_
  rintro (e | a) j' l h
  · cases e with
    | thrown =>
      intro preempted
      have never : Fails (· = SliceResult.preempted)
          (do onOs (sendError fd (ascii "internal error")); pure .failed : Slice SliceResult) :=
        .bind fun _ => .pure (by simp)
      exact absurd rfl (never _ _ preempted)
    | spent =>
      intro preempted
      cases preempted
  · exact h

section Arithmetic
variable {sp : SliceParams} {m : Nat}

theorem putReads_free (h : bounded sp.policy = false) : putReads sp m = chunks m := by
  simp [putReads, h]

theorem putReads_more (h : bounded sp.policy = true) (hq : 0 < sp.quantum.toNat)
    (more : sp.quantum.toNat ≤ m) :
    putReads sp m = chunks sp.quantum.toNat + putReads sp (m - sp.quantum.toNat) := by
  simp only [putReads, h, if_true]
  have whole : m = (m - sp.quantum.toNat) + sp.quantum.toNat := by omega
  have quot : m / sp.quantum.toNat = (m - sp.quantum.toNat) / sp.quantum.toNat + 1 := by
    conv_lhs => rw [whole, Nat.add_div_right _ hq]
  have rem : m % sp.quantum.toNat = (m - sp.quantum.toNat) % sp.quantum.toNat := by
    conv_lhs => rw [whole, Nat.add_mod_right]
  rw [quot, rem, Nat.succ_mul]
  omega

theorem putReads_last (h : bounded sp.policy = true) (hq : 0 < sp.quantum.toNat)
    (few : m ≤ sp.quantum.toNat) : putReads sp m = chunks m := by
  rcases Nat.lt_or_eq_of_le few with less | rfl
  · simp only [putReads, h, if_true, Nat.div_eq_of_lt less, Nat.mod_eq_of_lt less, Nat.zero_mul,
      Nat.zero_add]
  · rw [putReads_more h hq (Nat.le_refl _), Nat.sub_self]
    simp [putReads, h, chunks]

theorem chunks_take_le (hq : bounded sp.policy = true → 0 < sp.quantum.toNat) :
    chunks (if bounded sp.policy then min sp.quantum.toNat m else m) ≤ putReads sp m := by
  cases h : bounded sp.policy with
  | false => rw [putReads_free h, if_neg (by simp)]
  | true =>
    rw [if_pos rfl]
    rcases Nat.le_total m sp.quantum.toNat with few | more
    · rw [Nat.min_eq_right few, putReads_last h (hq h) few]
    · rw [Nat.min_eq_left more, putReads_more h (hq h) more]
      exact Nat.le_add_right _ _

end Arithmetic

theorem takeOf_left (sp : SliceParams) {r : Request} (h : r.byteOffset ≤ r.bytes) :
    (takeOf sp r).toNat = if bounded sp.policy then
      min sp.quantum.toNat (r.bytes.toNat - r.byteOffset.toNat) else r.bytes.toNat - r.byteOffset.toNat := by
  unfold takeOf
  split
  · rw [toNat_min, UInt64.toNat_sub_of_le _ _ h]
  · rw [UInt64.toNat_sub_of_le _ _ h]

theorem Interleaved.waitsFor {fd : Int} {sp : SliceParams} {j : Job} {rounds : List Round}
    (h : Interleaved fd sp j rounds) (hop : j.req.op = .put) (within : j.req.byteOffset ≤ j.req.bytes)
    (hq : bounded sp.policy = true → 0 < sp.quantum.toNat) :
    WaitsFor (putReads sp (j.req.bytes.toNat - j.req.byteOffset.toNat)) (roundsLog rounds) := by
  induction h with
  | none j => exact fun _ => Nat.zero_le _
  | @last j _ =>
    have waits := serveOrReport_waitsFor fd sp j hop
    rw [takeOf_left sp within] at waits
    have total := waits.mono (chunks_take_le hq)
    simpa [roundsLog] using total
  | @more j rounds os preempted _ ih =>
    obtain ⟨hb, bytes, less, offset, room⟩ := serveOrReport_preempted fd sp hop preempted
    have same := congrArg Request.op (serveOrReport_apart fd sp j).fixed
    have waits := serveOrReport_waitsFor fd sp j hop
    have rest := ih (same.trans hop) (UInt64.le_of_lt less)
    rw [UInt64.le_iff_toNat_le, UInt64.toNat_sub_of_le _ _ within] at room
    have top := j.req.bytes.toNat_lt
    rw [UInt64.le_iff_toNat_le] at within
    have moved : (j.req.byteOffset + sp.quantum).toNat = j.req.byteOffset.toNat + sp.quantum.toNat := by
      rw [UInt64.toNat_add]
      omega
    simp only [bytes, offset, moved] at rest
    rw [takeOf_left sp (UInt64.le_iff_toNat_le.mpr within), if_pos hb, Nat.min_eq_left room] at waits
    rw [putReads_more hb (hq hb) room, Nat.sub_sub]
    exact waits.append rest

def slow : Reply := ⟨.grant none, chunkLimit⟩

/-- A world of slow calls, at least `k` of them, in which `fd` has `body` still to deliver. -/
structure Going (fd : Int) (k : Nat) (body : Bytes) (os : Os) : Prop where
  script : ∃ m, k ≤ m ∧ os.script = List.replicate m slow
  body : ∀ sent, (os.peer fd sent).drop (os.recvd fd).length = body

inductive Paced (fd : Int) : Nat → List Event → Prop
  | nil : Paced fd 0 []
  | still {c : Nat} {e : Event} {l : List Event} : e.still = true → Paced fd c l → Paced fd c (e :: l)
  | chunk {c : Nat} {data : Bytes} {l : List Event} : Paced fd c l →
      Paced fd (c + 1) (.armed fd 10 0 :: .received fd data chunkLimit :: l)

namespace Paced
variable {fd : Int} {c c' : Nat} {l l' : List Event}

theorem append (h : Paced fd c l) (h' : Paced fd c' l') : Paced fd (c + c') (l ++ l') := by
  induction h with
  | nil => simpa using h'
  | still quiet _ ih => exact .still quiet ih
  | chunk _ ih =>
    rw [Nat.succ_add]
    exact .chunk ih

theorem of_still (h : AllStill l) : Paced fd 0 l := by
  induction l with
  | nil => exact .nil
  | cons e l ih =>
    obtain ⟨first, rest⟩ := List.forall_mem_cons.mp h
    exact .still first (ih rest)

theorem waiting (h : Paced fd c l) : waiting l = c * chunkLimit := by
  induction h with
  | nil => simp
  | still quiet _ ih => rw [waiting_cons, Event.still.waited quiet, ih, Nat.zero_add]
  | chunk _ ih =>
    rw [waiting_cons, waiting_cons, ih, Nat.succ_mul, waited_armed]
    simp only [Event.waited]
    omega

theorem punctual (h : Paced fd c l) : Punctual l := by
  intro fd' sec usec pre
  induction h generalizing pre with
  | nil => simp
  | still quiet _ ih =>
    intro e post eq
    cases pre with
    | nil =>
      cases eq
      cases quiet
    | cons f pre =>
      cases eq
      exact ih pre e post rfl
  | chunk _ ih =>
    intro e post eq
    rcases pre with _ | ⟨f, _ | ⟨g, pre⟩⟩
    · cases eq
      exact Nat.le_refl _
    · cases eq
    · cases eq
      exact ih pre e post rfl

end Paced

section Slow
variable {fd : Int} {k : Nat} {body : Bytes} {os : Os}

theorem Going.verdict (h : Going fd (k + 1) body os) : os.verdict = .grant none ∧ os.elapsed = chunkLimit := by
  obtain ⟨m, le, script⟩ := h.script
  obtain ⟨m, rfl⟩ := Nat.exists_eq_add_of_le' (Nat.lt_of_lt_of_le (Nat.succ_pos k) le)
  rw [Os.verdict, Os.elapsed, script, List.replicate_succ]
  exact ⟨rfl, rfl⟩

theorem Going.answered (h : Going fd (k + 1) body os) : Going fd k body os.answered where
  script := by
    obtain ⟨m, le, script⟩ := h.script
    refine ⟨m - 1, by omega, ?_⟩
    rw [Os.answered_script, script, List.tail_replicate]
  body := h.body

theorem alloc_slow (h : Going fd (k + 1) body os) : wp alloc os fun v os' _ => v = .ok () ∧
    Going fd k body os' ∧ os'.files = os.files := by
  simp only [wp, alloc, call, h.verdict.1]
  exact ⟨trivial, h.answered, rfl⟩

theorem openTrunc_slow (h : Going fd (k + 1) body os) (p : Path) : wp (openTrunc p) os fun v os' _ =>
    ∃ t, v = .ok (some t) ∧ Going fd k body os' ∧ (os'.files.descs t).isSome := by
  simp only [wp, openTrunc, call, h.verdict.1]
  refine ⟨_, rfl, ⟨h.answered.script, h.answered.body⟩, ?_⟩
  rw [Files.openTrunc_descs, Function.update_self]
  rfl

theorem send_slow (h : Going fd (k + 1) body os) (fd' : Int) (data : Bytes) :
    send fd' data os = ⟨.ok (.ok data.length),
      { os.answered with sent := Function.update os.sent fd' (os.sent fd' ++ data) }, [.sent fd' data]⟩ := by
  simp only [send, call, h.verdict.1, amount, List.take_length, Os.answered_sent]

theorem sendAll_slow (h : Going fd (k + 1) body os) (fd' : Int) {data : Bytes} (hdata : data ≠ []) :
    wp (sendAll fd' data) os fun v os' _ => v = .ok true ∧ Going fd k body os' ∧ os'.files = os.files := by
  have pos := List.length_pos_iff.mpr hdata
  unfold sendAll
  rw [wp_emit_bind, wp_get_bind]
  refine wp_loop (fun sent os' _ => (sent = 0 ∧ os' = os) ∨
      (sent = data.length ∧ Going fd k body os' ∧ os'.files = os.files))
    (fun sent _ => data.length - sent) ?_ _ _ os (.inl ⟨rfl, rfl⟩) (by omega)
  rintro sent os' l (⟨rfl, rfl⟩ | ⟨rfl, going, files⟩)
  · rw [sendTurn, if_pos pos]
    have sends := send_slow h fd' data
    simp only [wp, bind, Prog.bind, List.drop_zero, sends]
    obtain ⟨m, hm⟩ := Nat.exists_eq_succ_of_ne_zero (Nat.ne_of_gt pos)
    rw [hm]
    refine ⟨.inr ⟨by rw [Nat.zero_add], ⟨h.answered.script, h.answered.body⟩, rfl⟩, by omega⟩
  · rw [sendTurn, if_neg (Nat.lt_irrefl _), wp_pure]
    exact ⟨rfl, going, files⟩

theorem recv_slow (h : Going fd (k + 1) body os) (n : Nat) :
    wp (recv fd n) os fun v os' l => v = .ok (.ok (body.take n)) ∧ Going fd k (body.drop n) os' ∧
      os'.files = os.files ∧ l = [.received fd (body.take n) chunkLimit] := by
  have arrived : os.answered.arrived fd = body := h.body _
  simp only [wp, recv, call, h.verdict.1, h.verdict.2, amount, List.take_length, arrived]
  refine ⟨trivial, ⟨h.answered.script, fun sent => ?_⟩, rfl, trivial⟩
  change (os.peer fd sent).drop (Function.update os.recvd fd (os.recvd fd ++ body.take n) fd).length = _
  rw [Function.update_self, List.length_append, ← List.drop_drop, h.body sent, List.length_take]
  rcases Nat.le_total n body.length with le | le
  · rw [Nat.min_eq_left le]
  · rw [Nat.min_eq_right le, List.drop_length, List.drop_eq_nil_of_le le]

theorem armed_slow (h : Going fd k body os) :
    wp (armed fd kBodyChunkTimeoutMs (os.now + kBodyChunkTimeoutMs.toNat * 1000000)) os fun v os' l =>
      v = .ok true ∧ Going fd k body os' ∧ os'.files = os.files ∧ l = [.armed fd 10 0] := by
  have left : (os.now + kBodyChunkTimeoutMs.toNat * 1000000 - os.now) / 1000000 = 10000 := by
    rw [Nat.add_sub_cancel_left]
    decide
  rw [armed_bounded fd _ (by decide : 0 ≤ kBodyChunkTimeoutMs)]
  simp only [wp, armRemaining, left]
  exact ⟨rfl, ⟨h.script, h.body⟩, rfl, rfl⟩

theorem readExact_slow (h : Going fd (k + 1) body os) {n : Nat} (pos : 0 < n) (le : n ≤ body.length) :
    wp (readExact fd [] n kBodyChunkTimeoutMs) os fun v os' l => v = .ok ⟨true, body.take n, []⟩ ∧
      Going fd k (body.drop n) os' ∧ os'.files = os.files ∧ Paced fd 1 l := by
  have taken : (body.take n).length = n := by rw [List.length_take, Nat.min_eq_left le]
  rw [readExact, wp_get_bind]
  refine wp_seq (P := fun v os' l => v = .ok (true, body.take n) ∧ Going fd k (body.drop n) os' ∧
    os'.files = os.files ∧ Paced fd 1 l) ?_ ?_ (by simp)
  · refine wp_loop (fun out os' l => (out = [] ∧ os' = os ∧ l = []) ∨ (out = body.take n ∧
        Going fd k (body.drop n) os' ∧ os'.files = os.files ∧ Paced fd 1 l))
      (fun out _ => n - out.length) ?_ _ _ os (.inl ⟨by simp, rfl, rfl⟩) (by omega)
    rintro out os' l (⟨rfl, rfl, rfl⟩ | ⟨rfl, going, files, paced⟩)
    · rw [exactTurn, if_pos (by simpa using pos)]
      refine wp_seq (armed_slow h) ?_ (by simp)
      rintro ok os₁ l₁ ⟨hok, going₁, files₁, rfl⟩
      cases hok
      rw [if_pos rfl]
      refine wp_seq (recv_slow going₁ _) ?_ (by simp)
      rintro r os₂ l₂ ⟨hr, going₂, files₂, rfl⟩
      cases hr
      rw [List.length_nil, Nat.sub_zero] at going₂ ⊢
      cases hpart : body.take n with
      | nil =>
        rw [hpart, List.length_nil] at taken
        omega
      | cons c part =>
        simp only [wp_pure, List.nil_append, List.append_nil]
        refine ⟨.inr ⟨trivial, going₂, files₂.trans files₁, .chunk .nil⟩, ?_⟩
        rw [← hpart, taken, Nat.sub_self]
        exact pos
    · rw [exactTurn, if_neg (by omega), wp_pure]
      simp only [List.append_nil]
      exact ⟨trivial, going, files, paced⟩
  · rintro x os' l ⟨hx, going, files, paced⟩
    cases hx
    rw [wp_pure, List.append_nil, List.drop_nil]
    exact ⟨rfl, going, files, paced⟩

theorem writeAll_slow (h : Going fd (k + 1) body os) {t : Int} (opened : (os.files.descs t).isSome)
    {data : Bytes} (hdata : data ≠ []) :
    wp (writeAll t data) os fun v os' _ => v = .ok true ∧ Going fd k body os' ∧
      (os'.files.descs t).isSome := by
  have pos := List.length_pos_iff.mpr hdata
  obtain ⟨d, hd⟩ := Option.isSome_iff_exists.mp opened
  rw [writeAll, wp_get_bind]
  refine wp_loop (fun done os' _ => (done = 0 ∧ os' = os) ∨
      (done = data.length ∧ Going fd k body os' ∧ (os'.files.descs t).isSome))
    (fun done _ => data.length - done) ?_ _ _ os (.inl ⟨rfl, rfl⟩) (by omega)
  rintro done os' l (⟨rfl, rfl⟩ | ⟨rfl, going, still⟩)
  · rw [writeTurn, if_pos pos]
    have writes := write_granted hd h.verdict.1 data
    simp only [wp, bind, Prog.bind, List.drop_zero, writes, amount, List.take_length]
    obtain ⟨m, hm⟩ := Nat.exists_eq_succ_of_ne_zero (Nat.ne_of_gt pos)
    rw [hm]
    refine ⟨.inr ⟨by rw [Nat.zero_add], ⟨h.answered.script, h.answered.body⟩, ?_⟩, by omega⟩
    change ((os'.files.write t d hd data).descs t).isSome = true
    rw [Files.write_descs, Function.update_self]
    rfl
  · rw [writeTurn, if_neg (Nat.lt_irrefl _), wp_pure]
    exact ⟨rfl, going, still⟩

theorem Going.fewer {k' : Nat} (h : Going fd k body os) (le : k' ≤ k) : Going fd k' body os where
  script := by
    obtain ⟨m, hm, script⟩ := h.script
    exact ⟨m, le.trans hm, script⟩
  body := h.body

end Slow

structure Awaiting (fd : Int) (k : Nat) (body : Bytes) (j : Job) : Prop where
  going : Going fd k body j.os
  leftover : j.req.leftover = []
  opened : j.req.started = true → (j.os.files.descs j.req.fileFd).isSome

section Rounds
variable {fd : Int} {k : Nat} {body : Bytes} {j : Job}

theorem beginPut_slow (h : Awaiting fd (k + 4) body j) : wp (beginPut fd) j fun v j' _ => v = .ok true ∧
    Awaiting fd k body j' ∧ j'.req.started = true ∧ j'.req.op = j.req.op := by
  unfold beginPut
  rw [wp_request_bind]
  by_cases started : j.req.started = true
  · rw [if_pos started, wp_pure]
    exact ⟨rfl, ⟨h.going.fewer (by omega), h.leftover, h.opened⟩, started, rfl⟩
  · rw [if_neg started]
    refine wp_seq (onOs_spec (alloc_slow h.going)) ?_ (by simp)
    rintro _ ⟨req₁, os₁⟩ l₁ ⟨rfl, -, going₁, -⟩
    rw [wp_setRequest_bind]
    refine wp_seq (onOs_spec (openTrunc_slow going₁ _)) ?_ (by simp)
    rintro n ⟨req₂, os₂⟩ l₂ ⟨rfl, t, hn, going₂, opened⟩
    cases hn
    simp only
    rw [wp_setRequest_bind]
    refine wp_seq (onOs_spec (alloc_slow going₂)) ?_ (by simp)
    rintro _ ⟨req₃, os₃⟩ l₃ ⟨rfl, -, going₃, files₃⟩
    refine wp_seq (onOs_spec (sendAll_slow going₃ fd (by decide : formatOk 0 ≠ []))) ?_ (by simp)
    rintro ok ⟨req₄, os₄⟩ l₄ ⟨rfl, hok, going₄, files₄⟩
    cases hok
    rw [if_pos rfl, wp_setRequest_bind, wp_pure]
    refine ⟨rfl, ⟨going₄, h.leftover, fun _ => ?_⟩, rfl, rfl⟩
    rw [files₄, files₃]
    exact opened

theorem putTurn_slow {take size done : UInt64} (h : Awaiting fd (k + 2) body j) (started : j.req.started = true)
    (more : done < take) (pos : 0 < size.toNat) (le : (min size (take - done)).toNat ≤ body.length) :
    wp (putTurn fd take size done) j fun v j' l => v = .ok (.inl (done + min size (take - done))) ∧
      Awaiting fd k (body.drop (min size (take - done)).toNat) j' ∧ j'.req.started = true ∧ Paced fd 1 l := by
  have left : 0 < (min size (take - done)).toNat := by
    rw [toNat_min, UInt64.toNat_sub_of_le _ _ (UInt64.le_of_lt more)]
    have := UInt64.lt_iff_toNat_lt.mp more
    omega
  rw [putTurn, if_pos more, wp_request_bind, h.leftover]
  refine wp_seq (onOs_spec (readExact_slow h.going left le)) ?_ (by simp)
  rintro x ⟨req, os⟩ l ⟨rfl, hx, going, files, paced⟩
  cases hx
  rw [wp_setRequest_bind, if_pos rfl]
  have opened := h.opened started
  rw [← files] at opened
  have some_ : body.take (min size (take - done)).toNat ≠ [] := by
    apply List.ne_nil_of_length_pos
    rw [List.length_take]
    omega
  refine wp_seq (onOs_spec (wp_and (writeAll_slow going opened some_)
    ((writeAll_mute _ _).still _))) ?_ (by simp)
  rintro ok ⟨req', os'⟩ l' ⟨rfl, ⟨hok, going', opened'⟩, still⟩
  cases hok
  rw [if_pos rfl, wp_setRequest_bind, wp_pure]
  refine ⟨rfl, ⟨going', rfl, fun _ => opened'⟩, started, ?_⟩
  rw [List.append_nil]
  exact paced.append (.of_still still)

theorem chunks_le {take c : Nat} (h : take ≤ c * min take 65536) : chunks take ≤ c := by
  have size := Nat.mul_le_mul_left c (Nat.min_le_right take 65536)
  unfold chunks
  omega

theorem putLoop_slow {take : UInt64} (h : Awaiting fd (k + 2 * take.toNat) body j)
    (started : j.req.started = true) (le : take.toNat ≤ body.length) :
    wp (Prog.loop .spent (putTurn fd take (min take kChunk)) (take.toNat + 1) 0) j fun v j' l =>
      v = .ok true ∧ Awaiting fd k (body.drop take.toNat) j' ∧ j'.req.started = true ∧
        ∃ c, Paced fd c l ∧ chunks take.toNat ≤ c := by
  have size : (min take kChunk).toNat = min take.toNat 65536 := toNat_min take kChunk
  refine wp_loop
    (fun done j' l => done ≤ take ∧ Awaiting fd (k + 2 * (take.toNat - done.toNat)) (body.drop done.toNat) j' ∧
      j'.req.started = true ∧ ∃ c, Paced fd c l ∧ done.toNat ≤ c * min take.toNat 65536)
    (fun done _ => take.toNat - done.toNat) ?_ _ _ j
    ⟨UInt64.zero_le, by simpa using h, started, 0, .nil, by simp⟩ (by simp)
  rintro done j' l ⟨within, awaiting, started', c, paced, reached⟩
  by_cases more : done < take
  · have room := UInt64.lt_iff_toNat_lt.mp more
    have n : (min (min take kChunk) (take - done)).toNat =
        min (min take.toNat 65536) (take.toNat - done.toNat) := by
      rw [toNat_min, size, UInt64.toNat_sub_of_le _ _ within]
    have top := take.toNat_lt
    have sum : (done + min (min take kChunk) (take - done)).toNat =
        done.toNat + min (min take.toNat 65536) (take.toNat - done.toNat) := by
      rw [UInt64.toNat_add, n]
      omega
    refine wp_mono (putTurn_slow (k := k + 2 * (take.toNat - done.toNat) - 2)
      ⟨awaiting.going.fewer (by omega), awaiting.leftover, awaiting.opened⟩ started' more (by omega) ?_) ?_
    · rw [n, List.length_drop]
      omega
    · rintro v j'' l' ⟨rfl, awaiting', started'', paced'⟩
      refine ⟨⟨UInt64.le_iff_toNat_le.mpr (by omega), ⟨?_, awaiting'.leftover, awaiting'.opened⟩, started'', c + 1,
        paced.append paced', ?_⟩, by omega⟩
      · have going := awaiting'.going
        rw [List.drop_drop, n] at going
        rw [sum]
        exact going.fewer (by omega)
      · rw [sum, Nat.succ_mul]
        omega
  · have ended := UInt64.le_antisymm within (UInt64.not_lt.mp more)
    subst ended
    rw [putTurn, if_neg more, wp_pure, List.append_nil]
    refine ⟨rfl, ?_, started', c, paced, chunks_le reached⟩
    simpa using awaiting

/-- A round in the slow world reads all of its chunks, and is preempted where a quantum ends it. -/
structure SlowRound (fd : Int) (sp : SliceParams) (k : Nat) (body : Bytes) (j : Job)
    (v : Except Fault SliceResult) (j' : Job) (l : List Event) : Prop where
  paced : ∃ c, Paced fd c l ∧ chunks (takeOf sp j.req).toNat ≤ c
  more : (takeOf sp j.req).toNat < j.req.bytes.toNat - j.req.byteOffset.toNat → v = .ok .preempted ∧
    Awaiting fd k (body.drop (takeOf sp j.req).toNat) j'
  last : j.req.bytes.toNat - j.req.byteOffset.toNat ≤ (takeOf sp j.req).toNat → v ≠ .ok .preempted

theorem servePut_slow (sp : SliceParams) (within : j.req.byteOffset ≤ j.req.bytes)
    (le : (takeOf sp j.req).toNat ≤ body.length)
    (h : Awaiting fd (k + 5 + 2 * (takeOf sp j.req).toNat) body j) :
    wp (servePut fd sp) j (SlowRound fd sp k body j) := by
  unfold servePut
  rw [wp_setRequest_bind]
  refine wp_seq (wp_and (beginPut_slow (k := k + 1 + 2 * (takeOf sp j.req).toNat)
    ⟨h.going.fewer (by omega), h.leftover, h.opened⟩) (wp_and (beginPut_stays _) ((beginPut_mute fd).still _)))
    ?_ (by simp)
  rintro ok j₁ l₁ ⟨⟨hok, awaiting₁, started₁, -⟩, ⟨bytes₁, offset₁⟩, still₁⟩
  cases hok
  rw [if_pos rfl, wp_request_bind]
  have same : (if bounded sp.policy then min sp.quantum (j₁.req.bytes - j₁.req.byteOffset)
      else j₁.req.bytes - j₁.req.byteOffset) = takeOf sp j.req := by
    rw [bytes₁, offset₁]
    rfl
  simp only [same]
  have begun : Going fd (k + 2 * (takeOf sp j.req).toNat + 1) body j₁.os :=
    awaiting₁.going.fewer (by omega)
  refine wp_seq (onOs_spec (wp_and (alloc_slow begun) (alloc_mute.still _))) ?_ (by simp)
  rintro _ ⟨req, os₂⟩ l₂ ⟨rfl, ⟨-, going₂, files₂⟩, still₂⟩
  have awaiting₂ : Awaiting fd (k + 2 * (takeOf sp j.req).toNat) body ⟨j₁.req, os₂⟩ :=
    ⟨going₂, awaiting₁.leftover, fun started => files₂ ▸ awaiting₁.opened started⟩
  have hsize : 0 < takeOf sp j.req → 0 < min (takeOf sp j.req) kChunk := by
    intro pos
    rw [UInt64.lt_iff_toNat_lt] at pos ⊢
    rw [toNat_min]
    exact lt_min pos (by decide)
  refine wp_seq (wp_and (putLoop_slow awaiting₂ started₁ le) (putLoop_advances hsize _)) ?_ (by simp)
  rintro ok j₃ l₃ ⟨⟨hok, awaiting₃, -, c, paced, covers⟩, advances⟩
  obtain ⟨bytes₃, offset₃⟩ := advances hok
  cases hok
  rw [if_pos rfl, wp_request_bind]
  have top := j.req.bytes.toNat_lt
  rw [UInt64.le_iff_toNat_le] at within
  have capped : (takeOf sp j.req).toNat ≤ j.req.bytes.toNat - j.req.byteOffset.toNat := by
    rw [takeOf_left sp (UInt64.le_iff_toNat_le.mpr within)]
    split <;> omega
  have reached : j₃.req.byteOffset.toNat = j.req.byteOffset.toNat + (takeOf sp j.req).toNat := by
    simp only [offset₃, offset₁, UInt64.toNat_add]
    omega
  have whole : j₃.req.bytes = j.req.bytes := bytes₃.trans bytes₁
  have front := (Paced.of_still still₁).append ((Paced.of_still still₂).append paced)
  by_cases unfinished : j₃.req.byteOffset < j₃.req.bytes
  · rw [if_pos unfinished, wp_pure]
    rw [UInt64.lt_iff_toNat_lt, reached, whole] at unfinished
    refine ⟨⟨_, by simpa using front, by omega⟩, fun _ => ⟨rfl, awaiting₃⟩, fun _ => by omega⟩
  · rw [if_neg unfinished]
    rw [UInt64.lt_iff_toNat_lt, reached, whole] at unfinished
    refine wp_mono (wp_and ((installPut_mute fd).still j₃)
      (show wp (installPut fd) j₃ fun v _ _ => v ≠ .ok .preempted from
        fun hv => installPut_ends _ _ hv rfl)) ?_
    rintro v j₄ l₄ ⟨still₄, ended⟩
    refine ⟨⟨_, by simpa using front.append (.of_still still₄), by omega⟩, by omega, fun _ => ended⟩

theorem serveOrReport_slow (sp : SliceParams) (hop : j.req.op = .put)
    (within : j.req.byteOffset ≤ j.req.bytes) (le : (takeOf sp j.req).toNat ≤ body.length)
    (h : Awaiting fd (k + 5 + 2 * (takeOf sp j.req).toNat) body j) :
    wp (serveOrReport fd sp) j (SlowRound fd sp k body j) := by
  have slice : wp (serveSlice fd sp) j (SlowRound fd sp k body j) := by
    unfold wp
    rw [serveSlice_put fd sp hop]
    exact servePut_slow sp within le h
  rw [serveOrReport, wp_rescue]
  refine wp_mono slice ?_
  rintro (e | a) j' l ⟨⟨c, paced, covers⟩, more, last⟩
  · have ended : ¬ (takeOf sp j.req).toNat < j.req.bytes.toNat - j.req.byteOffset.toNat := by
      intro less
      cases (more less).1
    cases e with
    | thrown =>
      have never : Fails (· = SliceResult.preempted)
          (do onOs (sendError fd (ascii "internal error")); pure .failed : Slice SliceResult) :=
        .bind fun _ => .pure (by simp)
      have mute : Mute (do onOs (sendError fd (ascii "internal error")); pure .failed : Slice SliceResult) :=
        .bind (onOs_mute (sendError_mute fd _)) fun _ => .pure _
      refine wp_mono (wp_and (mute.still j') (show wp _ j' fun v _ _ => v ≠ .ok .preempted from
        fun hv => never _ _ hv rfl)) ?_
      rintro v j'' l' ⟨still, other⟩
      exact ⟨⟨_, paced.append (.of_still still), covers⟩, fun less => absurd less ended, fun _ => other⟩
    | spent =>
      refine ⟨⟨c, by simpa [Prog.stop] using paced, covers⟩, fun less => absurd less ended, fun _ same => ?_⟩
      cases same
  · exact ⟨⟨c, paced, covers⟩, more, last⟩

theorem callRounds_slow {sp : SliceParams} (hb : bounded sp.policy = true) (hq : 0 < sp.quantum.toNat)
    {fuel : Nat} (hop : j.req.op = .put) (within : j.req.byteOffset ≤ j.req.bytes)
    (full : body.length = j.req.bytes.toNat - j.req.byteOffset.toNat) (enough : body.length < fuel)
    (h : Awaiting fd (10 * body.length + 10) body j) :
    ∃ c, Paced fd c (roundsLog (callRounds (serveOrReport fd sp) fuel j)) ∧ putReads sp body.length ≤ c := by
  induction fuel generalizing j body with
  | zero => omega
  | succ fuel ih =>
    have take := takeOf_left sp within
    rw [if_pos hb] at take
    have le : (takeOf sp j.req).toNat ≤ body.length := by omega
    have round := serveOrReport_slow (k := 10 * body.length + 5 - 2 * (takeOf sp j.req).toNat) sp hop within le
      ⟨h.going.fewer (by omega), h.leftover, h.opened⟩
    obtain ⟨⟨c, paced, covers⟩, more, last⟩ := round
    by_cases few : body.length ≤ sp.quantum.toNat
    · rw [callRounds_over fuel (last (by omega))]
      refine ⟨c, by simpa [roundsLog] using paced, ?_⟩
      rw [putReads_last hb hq few, full]
      rwa [take, Nat.min_eq_right (by omega)] at covers
    · rw [take, Nat.min_eq_left (by omega)] at more covers
      obtain ⟨preempted, awaiting⟩ := more (by omega)
      have advance := serveOrReport_preempted fd sp hop
      obtain ⟨-, bytes, less, offset, -⟩ := advance preempted
      have same := congrArg Request.op (serveOrReport_apart fd sp j).fixed
      have top := j.req.bytes.toNat_lt
      rw [UInt64.le_iff_toNat_le] at within
      have moved : (j.req.byteOffset + sp.quantum).toNat = j.req.byteOffset.toNat + sp.quantum.toNat := by
        rw [UInt64.toNat_add]
        omega
      have length : (body.drop sp.quantum.toNat).length = body.length - sp.quantum.toNat := List.length_drop
      have next : Awaiting fd (10 * (body.drop sp.quantum.toNat).length + 10)
          (body.drop sp.quantum.toNat) (serveOrReport fd sp j).state :=
        ⟨awaiting.going.fewer (by omega), awaiting.leftover, awaiting.opened⟩
      obtain ⟨c', paced', covers'⟩ := ih (same.trans hop) (UInt64.le_of_lt less)
        (by rw [length, bytes, offset, moved]; omega) (by omega) next
      rw [callRounds_preempted fuel preempted]
      refine ⟨c + c', by simpa [roundsLog] using paced.append paced', ?_⟩
      rw [putReads_more hb hq (by omega)]
      rw [length] at covers'
      omega

end Rounds

/-- An upload of `n` bytes from a peer that lets every call take ten seconds. -/
def slowPut (n : UInt64) : Job where
  req := { id := 1, op := .put, filename := [102], bytes := n, path := [102] }
  os := { Os.start .empty (List.replicate (10 * n.toNat + 10) slow) with
    peer := fun _ _ => List.replicate n.toNat 120 }

theorem slowPut_fresh (n : UInt64) : FreshPut (slowPut n) := ⟨rfl, rfl, rfl, rfl, rfl, rfl, rfl, rfl⟩

theorem slowPut_waits (fd : Int) {sp : SliceParams} (hb : bounded sp.policy = true)
    (hq : 0 < sp.quantum.toNat) (n : UInt64) :
    Punctual (roundsLog (callRounds (serveOrReport fd sp) (n.toNat + 1) (slowPut n))) ∧
      putReads sp n.toNat * chunkLimit ≤
        waiting (roundsLog (callRounds (serveOrReport fd sp) (n.toNat + 1) (slowPut n))) := by
  have body : (List.replicate n.toNat (120 : UInt8)).length = n.toNat := List.length_replicate
  have start : Awaiting fd (10 * (List.replicate n.toNat (120 : UInt8)).length + 10)
      (List.replicate n.toNat 120) (slowPut n) := by
    refine ⟨⟨⟨_, Nat.le_refl _, ?_⟩, fun _ => rfl⟩, rfl, fun started => absurd started Bool.false_ne_true⟩
    rw [body]
    rfl
  obtain ⟨c, paced, covers⟩ := callRounds_slow hb hq rfl UInt64.zero_le body
    (by omega : _ < n.toNat + 1) start
  rw [body] at covers
  refine ⟨paced.punctual, ?_⟩
  rw [paced.waiting]
  exact Nat.mul_le_mul_right _ covers

/-- Each chunk of 64 KiB is waited for at most ten seconds in total, however the body arrives,
if the rounds make no more reads than the body has chunks, and only then. -/
theorem upload_waits_iff (fd : Int) (sp : SliceParams) (hq : bounded sp.policy = true → 1 ≤ sp.quantum)
    (n : UInt64) :
    (∀ j rounds, FreshPut j → j.req.bytes = n → Interleaved fd sp j rounds →
      Punctual (roundsLog rounds) → waiting (roundsLog rounds) ≤ chunks n.toNat * 10000000000) ↔
    putReads sp n.toNat ≤ chunks n.toNat := by
  have positive : bounded sp.policy = true → 0 < sp.quantum.toNat :=
    fun h => UInt64.le_iff_toNat_le.mp (hq h)
  constructor
  · intro bound
    cases hb : bounded sp.policy with
    | false => exact Nat.le_of_eq (putReads_free hb)
    | true =>
      obtain ⟨punctual, long⟩ := slowPut_waits fd hb (positive hb) n
      have short := bound (slowPut n) _ (slowPut_fresh n) rfl (callRounds_interleaved ..) punctual
      exact Nat.le_of_mul_le_mul_right (long.trans short) (by decide : 0 < chunkLimit)
  · rintro few j rounds fresh rfl run punctual
    have offset : j.req.byteOffset.toNat = 0 := by rw [fresh.byteOffset]; rfl
    have total := run.waitsFor fresh.op (by rw [fresh.byteOffset]; exact UInt64.zero_le) positive punctual
    rw [offset, Nat.sub_zero] at total
    exact total.trans (Nat.mul_le_mul_right _ few)

theorem upload_waits_iff_quantum :
    (∀ j rounds, FreshPut j → j.req.bytes = 100000 → Interleaved 7 { policy := .rr, quantum := 65536 } j rounds →
      Punctual (roundsLog rounds) → waiting (roundsLog rounds) ≤ 20000000000) ↔ 2 ≤ 2 :=
  upload_waits_iff 7 { policy := .rr, quantum := 65536 } (fun _ => by decide) 100000

theorem upload_waits_quantum : FreshPut (slowPut 65536) ∧
    Interleaved 7 { policy := .rr, quantum := 8192 } (slowPut 65536)
      (callRounds (serveOrReport 7 { policy := .rr, quantum := 8192 }) 65537 (slowPut 65536)) ∧
    Punctual (roundsLog
      (callRounds (serveOrReport 7 { policy := .rr, quantum := 8192 }) 65537 (slowPut 65536))) ∧
    ¬ waiting (roundsLog
      (callRounds (serveOrReport 7 { policy := .rr, quantum := 8192 }) 65537 (slowPut 65536))) ≤
        chunks 65536 * 10000000000 := by
  obtain ⟨punctual, long⟩ := @slowPut_waits 7 { policy := .rr, quantum := 8192 } rfl (by decide) 65536
  refine ⟨slowPut_fresh _, callRounds_interleaved .., punctual, fun short => ?_⟩
  exact absurd (long.trans short) (by decide)

end LinkScheduling
