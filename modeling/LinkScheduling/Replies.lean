import LinkScheduling.Declared
import LinkScheduling.Interrupts

/-! What a slice tells to its client, whatever comes of its calls. A PUT is greeted, and at its end
it is acknowledged or refused; a GET is announced, and its bytes follow; where an allocation
fails, `internal error` comes behind what has been said, and where the next one fails too the worker
is lost. -/

namespace LinkScheduling
open Effect

def Tells (fd : Int) (out : Bytes) (a b : Os) : Prop := b.sent fd = a.sent fd ++ out

namespace Tells
variable {fd : Int} {out out' : Bytes} {a b c : Os}

theorem refl (fd : Int) (a : Os) : Tells fd [] a a := (List.append_nil _).symm

theorem trans (h : Tells fd out a b) (h' : Tells fd out' b c) : Tells fd (out ++ out') a c := by
  unfold Tells
  rw [h', h, List.append_assoc]

theorem quiet (h : Tells fd out a b) (h' : Tells fd [] b c) : Tells fd out a c := by
  have both := h.trans h'
  rwa [List.append_nil] at both

theorem first (h : Tells fd [] a b) (h' : Tells fd out b c) : Tells fd out a c := h.trans h'

end Tells

theorem Sends.tells {fd : Int} {out : Bytes} {a b : Os} (h : Sends fd out a b) : Tells fd out a b := by
  rw [Tells, h.sent, Function.update_self]

section Calls
variable {α : Type} {fd : Int} {os : Os}

theorem silent {x : Sys α} (h : ∀ other, Moves (Beyond other) x) (fd : Int) (os : Os) :
    wp x os fun _ os' _ => Tells fd [] os os' := by
  have same := (h (fd + 1) os).sent fd (by omega)
  rw [wp, Tells, List.append_nil, same]

theorem sendError_tells (reason : Bytes) : wp (sendError fd reason) os fun v os' l => ∃ out, out <+: formatErr reason ∧
    Tells fd out os os' ∧ (v = .ok () ∨ v = .error .thrown ∧ out = [] ∧ .allocFailed ∈ l) := by
  refine wp_seq (alloc_quotes fd) ?_ ?_
  · rintro ⟨⟩ os₁ l₁ ⟨sends₁, -⟩
    refine wp_seq (sendAll_quotes fd _) ?_ (by simp)
    rintro ok os₂ l₂ ⟨ok', out, hok, part, -, sends₂⟩
    exact ⟨out, part, (sends₁.trans sends₂).tells, .inl rfl⟩
  · rintro e os₁ l₁ ⟨sends₁, hv | ⟨hv, failed⟩⟩
    · cases hv
    · cases hv
      exact ⟨[], List.nil_prefix, sends₁.tells, .inr ⟨rfl, rfl, failed⟩⟩

theorem report_tells (reason : Bytes) (x : α) (j : Job) : wp (do onOs (sendError fd reason); pure x : Slice α) j
    fun v j' l => j'.req = j.req ∧ ∃ out, out <+: formatErr reason ∧ Tells fd out j.os j'.os ∧
      (v = .ok x ∨ v = .error .thrown ∧ out = [] ∧ .allocFailed ∈ l) := by
  refine wp_seq (onOs_spec (sendError_tells reason)) ?_ ?_
  · rintro ⟨⟩ j' l ⟨same, out, part, tells, -⟩
    exact ⟨same, out, part, tells, .inl rfl⟩
  · rintro e j' l ⟨same, out, part, tells, hv | ⟨hv, none, failed⟩⟩
    · cases hv
    · cases hv
      exact ⟨same, out, part, tells, .inr ⟨rfl, none, failed⟩⟩

theorem openTrunc_tells (p : Path) : wp (openTrunc p) os fun v os' _ => (∃ n, v = .ok n) ∧ Tells fd [] os os' := by
  refine wp_and ?_ (silent (fun other => openTrunc_beyond other p) fd os)
  unfold wp openTrunc call
  cases os.verdict <;> exact ⟨_, rfl⟩

theorem rename_tells (src dst : Path) : wp (rename src dst) os fun v os' _ => (∃ ok, v = .ok ok) ∧ Tells fd [] os os' := by
  refine wp_and ?_ (silent (fun other => rename_beyond other src dst) fd os)
  unfold wp rename call
  cases os.verdict with
  | fail e => exact ⟨_, rfl⟩
  | grant most =>
    simp only
    split <;> exact ⟨_, rfl⟩

theorem writeAll_tells (t : Int) (data : Bytes) : wp (writeAll t data) os fun v os' _ =>
    (∃ ok, v = .ok ok) ∧ Tells fd [] os os' :=
  wp_and (writeAll_returns t data os) (silent (fun other => writeAll_beyond other t data) fd os)

theorem readExact_tells (leftover : Bytes) (n : Nat) (timeoutMs : Int) : wp (readExact fd leftover n timeoutMs) os
    fun v os' _ => (∃ x, v = .ok x) ∧ Tells fd [] os os' := by
  refine wp_mono (readExact_spec fd leftover n timeoutMs os) ?_
  rintro v os' l ⟨x, hv, read⟩
  obtain ⟨got, -, -, talks, -⟩ := read.moved
  exact ⟨⟨x, hv⟩, talks.sent_self⟩

theorem wp_silent_bind (fd : Int) {β : Type} {x : Sys α} {f : α → Slice β} {j : Job}
    {Q : Except Fault β → Job → List Event → Prop}
    (tells : wp x j.os fun v os' _ => (∃ a, v = .ok a) ∧ Tells fd [] j.os os')
    (next : ∀ a os l, Tells fd [] j.os os → wp (f a) ⟨j.req, os⟩ fun v j' l' => Q v j' (l ++ l')) :
    wp (onOs x >>= f) j Q := by
  refine wp_seq (onOs_spec tells) ?_ ?_
  · rintro a ⟨req, os⟩ l ⟨rfl, -, quiet⟩
    exact next a os l quiet
  · rintro e ⟨req, os⟩ l ⟨rfl, ⟨a, hv⟩, -⟩
    cases hv

theorem wp_alloc_bind (fd : Int) {β : Type} {f : Unit → Slice β} {j : Job}
    {Q : Except Fault β → Job → List Event → Prop}
    (next : ∀ os l, Tells fd [] j.os os → wp (f ()) ⟨j.req, os⟩ fun v j' l' => Q v j' (l ++ l'))
    (thrown : ∀ os l, Tells fd [] j.os os → .allocFailed ∈ l → Q (.error .thrown) ⟨j.req, os⟩ l) :
    wp (onOs alloc >>= f) j Q := by
  refine wp_seq (onOs_spec (alloc_quotes fd)) ?_ ?_
  · rintro ⟨⟩ ⟨req, os⟩ l ⟨rfl, sends, -⟩
    exact next os l sends.tells
  · rintro e ⟨req, os⟩ l ⟨rfl, sends, hv | ⟨hv, failed⟩⟩
    · cases hv
    · cases hv
      exact thrown os l sends.tells failed

end Calls

def greeted (r : Request) : Bytes := if r.started then formatOk 0 else []

/-- The responses to a PUT, and their beginnings: it is refused at once, or greeted and
acknowledged, or greeted and refused. -/
inductive PutReply : Bytes → Prop
  | refused {x : Bytes} : x <+: formatErr (ascii "cannot write file") → PutReply x
  | acknowledged {x : Bytes} : x <+: formatOk 0 ++ formatOk 0 → PutReply x
  | broken {reason x : Bytes} : reason ∈ putErrors → x <+: formatErr reason → PutReply (formatOk 0 ++ x)

/-- How a slice of a PUT ends, with `out` said in all, whatever came of its calls. -/
inductive PutSaid (out : Bytes) (r' : Request) (l : List Event) : Except Fault SliceResult → Prop
  | preempted : out = formatOk 0 → r'.started = true → PutSaid out r' l (.ok .preempted)
  | done : out = formatOk 0 ++ formatOk 0 → PutSaid out r' l (.ok .done)
  | failed : PutReply out → PutSaid out r' l (.ok .failed)
  | thrown : out = [] ∨ out = formatOk 0 → .allocFailed ∈ l → PutSaid out r' l (.error .thrown)

theorem PutSaid.after {out : Bytes} {r' : Request} {l : List Event} {v : Except Fault SliceResult} (before : List Event)
    (h : PutSaid out r' l v) : PutSaid out r' (before ++ l) v := by
  cases h with
  | preempted hout started => exact .preempted hout started
  | done hout => exact .done hout
  | failed reply => exact .failed reply
  | thrown hout failed => exact .thrown hout (List.mem_append_right _ failed)

section Put
variable {fd : Int} {sp : SliceParams} {j : Job}

theorem beginPut_tells (j : Job) : wp (beginPut fd) j fun v j' l => ∃ out, Tells fd out j.os j'.os ∧
    ((v = .ok true ∧ j'.req.started = true ∧ greeted j.req ++ out = formatOk 0) ∨
      v = .ok false ∧ PutReply (greeted j.req ++ out) ∨
      v = .error .thrown ∧ greeted j.req ++ out = [] ∧ .allocFailed ∈ l) := by
  unfold beginPut greeted
  rw [wp_request_bind]
  by_cases started : j.req.started = true
  · rw [if_pos started, if_pos started, wp_pure]
    exact ⟨[], Tells.refl fd j.os, .inl ⟨rfl, started, List.append_nil _⟩⟩
  · rw [if_neg started, if_neg started]
    simp only [List.nil_append]
    refine wp_alloc_bind fd (fun os₁ l₁ quiet₁ => ?_) fun os₁ l₁ quiet₁ failed => ?_
    · rw [wp_setRequest_bind]
      refine wp_silent_bind fd (openTrunc_tells _) fun n os₂ l₂ quiet₂ => ?_
      have quiet := quiet₁.first quiet₂
      cases n with
      | none =>
        simp only
        rw [wp_setRequest_bind]
        refine wp_mono (report_tells _ false _) ?_
        rintro v j₃ l₃ ⟨-, out, part, tells, hv | ⟨hv, none, failed⟩⟩
        · exact ⟨out, quiet.first tells, .inr (.inl ⟨hv, .refused part⟩)⟩
        · refine ⟨out, quiet.first tells, .inr (.inr ⟨hv, none, ?_⟩)⟩
          exact List.mem_append_right _ (List.mem_append_right _ failed)
      | some n =>
        simp only
        rw [wp_setRequest_bind]
        refine wp_alloc_bind fd (fun os₃ l₃ quiet₃ => ?_) fun os₃ l₃ quiet₃ failed => ?_
        · refine wp_seq (onOs_spec (sendAll_quotes fd _)) ?_ (by simp)
          rintro ok ⟨req, os₄⟩ l₄ ⟨same, ok', out, hok, part, whole, sends⟩
          have tells := (quiet.first quiet₃).first sends.tells
          cases hok
          split
          · rw [wp_setRequest_bind, wp_pure]
            exact ⟨out, tells, .inl ⟨rfl, rfl, whole ‹_›⟩⟩
          · rw [wp_pure]
            exact ⟨out, tells, .inr (.inl ⟨rfl, .acknowledged (part.trans (List.prefix_append _ _))⟩)⟩
        · refine ⟨[], quiet.first quiet₃, .inr (.inr ⟨rfl, rfl, ?_⟩)⟩
          exact List.mem_append_right _ (List.mem_append_right _ failed)
    · exact ⟨[], quiet₁, .inr (.inr ⟨rfl, rfl, failed⟩)⟩

inductive PutTurn (out : Bytes) (r r' : Request) (l : List Event) : Except Fault (UInt64 ⊕ Bool) → Prop
  | goesOn (done : UInt64) : out = [] → r'.started = r.started → PutTurn out r r' l (.ok (.inl done))
  | ended : out = [] → r'.started = r.started → PutTurn out r r' l (.ok (.inr true))
  | failed {reason : Bytes} : reason ∈ putErrors → out <+: formatErr reason → PutTurn out r r' l (.ok (.inr false))
  | thrown : out = [] → .allocFailed ∈ l → PutTurn out r r' l (.error .thrown)

theorem putReport_tells {reason : Bytes} (member : reason ∈ putErrors) (r : Request) (j : Job) :
    wp (do onOs (sendError fd reason); pure (.inr false) : Slice (UInt64 ⊕ Bool)) j
      fun v j' l => ∃ out, Tells fd out j.os j'.os ∧ PutTurn out r j'.req l v := by
  refine wp_mono (report_tells reason _ j) ?_
  rintro v j' l ⟨-, out, part, tells, hv | ⟨hv, none, failed⟩⟩
  · rw [hv]
    exact ⟨out, tells, .failed member part⟩
  · rw [hv]
    exact ⟨out, tells, .thrown none failed⟩

theorem PutTurn.after {out : Bytes} {r r' : Request} {l : List Event} {v : Except Fault (UInt64 ⊕ Bool)}
    (before : List Event) (h : PutTurn out r r' l v) : PutTurn out r r' (before ++ l) v := by
  cases h with
  | goesOn done none same => exact .goesOn done none same
  | ended none same => exact .ended none same
  | failed member part => exact .failed member part
  | thrown none failed => exact .thrown none (List.mem_append_right _ failed)

theorem putTurn_tells (take size done : UInt64) (j : Job) : wp (putTurn fd take size done) j fun v j' l =>
    ∃ out, Tells fd out j.os j'.os ∧ PutTurn out j.req j'.req l v := by
  have reported : ∀ {reason : Bytes} (req : Request) (os : Os) (before : List Event), reason ∈ putErrors →
      Tells fd [] j.os os → wp (do onOs (sendError fd reason); pure (.inr false) : Slice (UInt64 ⊕ Bool)) ⟨req, os⟩
        fun v j' l => ∃ out, Tells fd out j.os j'.os ∧ PutTurn out j.req j'.req (before ++ l) v := by
    intro reason req os before member quiet
    refine wp_mono (putReport_tells member j.req ⟨req, os⟩) ?_
    rintro v j' l ⟨out, tells, turn⟩
    exact ⟨out, quiet.first tells, turn.after before⟩
  unfold putTurn
  split
  · rw [wp_request_bind]
    refine wp_silent_bind fd (readExact_tells _ _ _) fun x os₁ l₁ quiet₁ => ?_
    rw [wp_setRequest_bind]
    split
    · refine wp_silent_bind fd (writeAll_tells _ _) fun ok os₂ l₂ quiet₂ => ?_
      have quiet := quiet₁.first quiet₂
      split
      · rw [wp_setRequest_bind, wp_pure]
        exact ⟨[], quiet, .goesOn _ rfl rfl⟩
      · simp only [← List.append_assoc]
        exact reported _ _ _ (by simp [putErrors]) quiet
    · exact reported _ _ _ (by simp [putErrors]) quiet₁
  · exact ⟨[], Tells.refl fd j.os, .ended rfl rfl⟩

theorem putLoop_tells {take size : UInt64} (hsize : 0 < take → 0 < size) (j : Job) :
    wp (Prog.loop .spent (putTurn fd take size) (take.toNat + 1) 0) j fun v j' l => ∃ out, Tells fd out j.os j'.os ∧
      (v = .ok true ∧ out = [] ∧ j'.req.started = j.req.started ∨
        v = .ok false ∧ (∃ reason ∈ putErrors, out <+: formatErr reason) ∨
        v = .error .thrown ∧ out = [] ∧ .allocFailed ∈ l) := by
  refine wp_loop (fun done j' _ => done ≤ take ∧ Tells fd [] j.os j'.os ∧ j'.req.started = j.req.started)
    (fun done _ => take.toNat - done.toNat) ?_ _ _ _ ⟨UInt64.zero_le, Tells.refl fd j.os, rfl⟩ (by simp)
  rintro done j₁ l ⟨le, quiet, same⟩
  refine wp_mono (wp_and (putTurn_tells take size done j₁) (putTurn_advances take size done j₁)) ?_
  rintro v j₂ l' ⟨⟨out, tells, turn⟩, moved⟩
  have all := quiet.first tells
  cases turn with
  | goesOn d none same' =>
    subst none
    obtain ⟨lt, rfl, -⟩ := moved
    obtain ⟨le', further⟩ := further_done hsize lt le
    exact ⟨⟨le', all, same'.trans same⟩, further⟩
  | ended none same' => exact ⟨out, all, .inl ⟨rfl, none, same'.trans same⟩⟩
  | failed member part => exact ⟨out, all, .inr (.inl ⟨rfl, _, member, part⟩)⟩
  | thrown none failed => exact ⟨out, all, .inr (.inr ⟨rfl, none, List.mem_append_right _ failed⟩)⟩

theorem installPut_tells (j : Job) : wp (installPut fd) j fun v j' l => ∃ out, Tells fd out j.os j'.os ∧
    PutSaid (formatOk 0 ++ out) j'.req l v := by
  unfold installPut
  rw [wp_request_bind, wp_close_bind, wp_setRequest_bind]
  have closed : Tells fd [] j.os { j.os with files := j.os.files.close j.req.fileFd } := Tells.refl fd j.os
  refine wp_silent_bind fd (rename_tells _ _) fun ok os₁ l₁ quiet₁ => ?_
  have quiet := closed.first quiet₁
  split
  · rw [wp_setRequest_bind]
    refine wp_alloc_bind fd (fun os₂ l₂ quiet₂ => ?_) fun os₂ l₂ quiet₂ failed => ?_
    · refine wp_seq (onOs_spec (sendAll_quotes fd _)) ?_ (by simp)
      rintro ok ⟨req, os₃⟩ l₃ ⟨same, ok', out, hok, part, whole, sends⟩
      have tells := (quiet.first quiet₂).first sends.tells
      cases hok
      split
      · exact ⟨out, tells, .done (by rw [whole ‹_›])⟩
      · exact ⟨out, tells, .failed (.acknowledged ((List.prefix_append_right_inj _).mpr part))⟩
    · refine ⟨[], quiet.first quiet₂, .thrown (.inr (List.append_nil _)) ?_⟩
      simp [failed]
  · refine wp_mono (report_tells _ _ _) ?_
    rintro v j₂ l₂ ⟨-, out, part, tells, hv | ⟨hv, none, failed⟩⟩
    · rw [hv]
      exact ⟨out, quiet.first tells, .failed (.broken (by simp [putErrors]) part)⟩
    · subst none
      rw [hv]
      refine ⟨[], quiet.first tells, .thrown (.inr (List.append_nil _)) ?_⟩
      simp [failed]

theorem servePut_tells (j : Job) : wp (servePut fd sp) j fun v j' l => ∃ out, Tells fd out j.os j'.os ∧
    PutSaid (greeted j.req ++ out) j'.req l v := by
  unfold servePut
  rw [wp_setRequest_bind]
  refine wp_seq (beginPut_tells _) ?_ ?_
  · rintro ok j₁ l₁ ⟨out₁, tells₁, ⟨hok, started, said⟩ | ⟨hok, reply⟩ | ⟨hok, -⟩⟩
    · cases hok
      change greeted j.req ++ out₁ = formatOk 0 at said
      simp only [if_true]
      rw [wp_request_bind]
      refine wp_alloc_bind fd (fun os₂ l₂ quiet₂ => ?_) fun os₂ l₂ quiet₂ failed => ?_
      · have tells₂ := tells₁.quiet quiet₂
        refine wp_seq (putLoop_tells chunk_pos _) ?_ ?_
        · rintro ok j₃ l₃ ⟨out₃, tells₃, ⟨hok, none, same⟩ | ⟨hok, reason, member, part⟩ | ⟨hok, -⟩⟩
          · cases hok
            subst none
            have tells := tells₂.quiet tells₃
            simp only [if_true]
            rw [wp_request_bind]
            split
            · exact ⟨out₁, tells, .preempted said (same.trans started)⟩
            · refine wp_mono (installPut_tells j₃) ?_
              rintro v j₄ l₄ ⟨out₄, tells₄, put⟩
              refine ⟨out₁ ++ out₄, tells.trans tells₄, ?_⟩
              rw [← List.append_assoc, said]
              exact ((put.after _).after _).after _
          · cases hok
            simp only [Bool.false_eq_true, if_false, wp_pure]
            refine ⟨out₁ ++ out₃, tells₂.trans tells₃, .failed ?_⟩
            rw [← List.append_assoc, said]
            exact .broken member part
          · cases hok
        · rintro e j₃ l₃ ⟨out₃, tells₃, ⟨hok, -⟩ | ⟨hok, -⟩ | ⟨hok, none, failed⟩⟩
          · cases hok
          · cases hok
          · cases hok
            subst none
            refine ⟨out₁, tells₂.quiet tells₃, .thrown (.inr said) ?_⟩
            simp [failed]
      · refine ⟨out₁, tells₁.quiet quiet₂, .thrown (.inr said) ?_⟩
        simp [failed]
    · cases hok
      simp only [Bool.false_eq_true, if_false, wp_pure]
      exact ⟨out₁, tells₁, .failed reply⟩
    · cases hok
  · rintro e j₁ l₁ ⟨out₁, tells₁, ⟨hok, -⟩ | ⟨hok, -⟩ | ⟨hok, none, failed⟩⟩
    · cases hok
    · cases hok
    · cases hok
      exact ⟨out₁, tells₁, .thrown (.inl none) failed⟩

end Put

structure Told (r : Request) (x : Bytes) : Prop where
  unstarted : r.started = false → x = []
  get : r.started = true → r.op = .get →
    ∃ data, x = formatOk r.bytes.toNat ++ data ∧ data.length = r.byteOffset.toNat
  put : r.started = true → r.op = .put → x = formatOk 0

/-- The whole response to a request that is done: `n` is the size of the file that was asked for. -/
inductive Complete (op : Op) (n : Nat) : Bytes → Prop
  | get {data : Bytes} : op = .get → data.length = n → Complete op n (formatOk n ++ data)
  | put : op = .put → Complete op n (formatOk 0 ++ formatOk 0)

inductive Stopped (op : Op) (n : Nat) : Bytes → Prop
  | hushed : Stopped op n []
  | get {data : Bytes} : op = .get → data.length ≤ n → Stopped op n (formatOk n ++ data)
  | put : op = .put → Stopped op n (formatOk 0)

inductive Response (op : Op) (n : Nat) : Bytes → Prop
  | get {x : Bytes} : op = .get → x <+: formatOk n → Response op n x
  | body {data : Bytes} : op = .get → data.length ≤ n → Response op n (formatOk n ++ data)
  | put {x : Bytes} : op = .put → PutReply x → Response op n x

/-- How a slice ends, with `x` said in all: an exception that is caught is the end of what is said,
and one that is not took two allocations to fail. -/
inductive SliceSaid (x : Bytes) (r' : Request) (l : List Event) : Except Fault SliceResult → Prop
  | preempted : Told r' x → SliceSaid x r' l (.ok .preempted)
  | done : Complete r'.op r'.bytes.toNat x → SliceSaid x r' l (.ok .done)
  | failed : Response r'.op r'.bytes.toNat x → SliceSaid x r' l (.ok .failed)
  | caught {y e : Bytes} : Stopped r'.op r'.bytes.toNat y → e <+: formatErr (ascii "internal error") → x = y ++ e →
      .allocFailed ∈ l → SliceSaid x r' l (.ok .failed)
  | thrown : Stopped r'.op r'.bytes.toNat x → 2 ≤ l.count .allocFailed → SliceSaid x r' l (.error .thrown)

inductive SliceLeft (x : Bytes) (r' : Request) (l : List Event) : Except Fault SliceResult → Prop
  | ended {res : SliceResult} : SliceSaid x r' l (.ok res) → SliceLeft x r' l (.ok res)
  | thrown : Stopped r'.op r'.bytes.toNat x → .allocFailed ∈ l → SliceLeft x r' l (.error .thrown)

section Slice
variable {fd : Int} {sp : SliceParams} {j j' : Job} {said : Bytes} {l : List Event} {v : Except Fault SliceResult}

theorem GetServed.tells (h : GetServed fd sp j v j' l) (get : j.req.op = .get) (told : Told j.req said)
    (unstarted : j.req.started = false → j.req.byteOffset = 0) :
    ∃ out, Tells fd out j.os j'.os ∧ SliceLeft (said ++ out) j'.req l v := by
  obtain ⟨head, body, sends, part, whole, bare, hushed, stays, bound, -, moved⟩ := h.sent
  have high := h.high
  have fresh := h.fresh
  have done := h.done
  have preempted := h.preempted
  have stopped := h.stopped
  obtain ⟨offset, deficit, forfeited, started, same⟩ := h.req
  have op : j'.req.op = .get := by rw [same]; exact get
  have bytes : j'.req.bytes = j.req.bytes := by rw [same]
  refine ⟨head ++ body, sends.tells, ?_⟩
  -- behind the header line stands what the rounds have taken from the file
  have announced : j'.req.started = true → ∃ data, said ++ (head ++ body) = formatOk j'.req.bytes.toNat ++ data ∧
      data.length = j.req.byteOffset.toNat + body.length := by
    intro started'
    rw [whole started', bytes]
    by_cases before : j.req.started = true
    · obtain ⟨data, hsaid, length⟩ := told.get before get
      refine ⟨data ++ body, ?_, by rw [List.length_append, length]⟩
      rw [announcement, if_pos before, hsaid, List.nil_append, List.append_assoc]
    · have none : j.req.started = false := by simpa using before
      refine ⟨body, ?_, by rw [unstarted none]; simp⟩
      rw [announcement, if_neg before, told.unstarted none, List.nil_append]
  have silent : j'.req.started = false → j.req.started = false ∧ said ++ (head ++ body) = head := by
    intro none
    have fresh : j.req.started = false := by
      by_contra started
      rw [stays (by simpa using started)] at none
      cases none
    exact ⟨fresh, by rw [bare none, told.unstarted fresh, List.nil_append, List.append_nil]⟩
  cases v with
  | error e =>
    obtain ⟨rfl, failed⟩ := stopped e rfl
    refine .thrown ?_ failed
    by_cases started' : j'.req.started = true
    · obtain ⟨data, total, length⟩ := announced started'
      rw [total]
      exact .get op (by rw [bytes]; omega)
    · have none : j'.req.started = false := by simpa using started'
      rw [(silent none).2, hushed none _ rfl]
      exact .hushed
  | ok res =>
    apply SliceLeft.ended
    cases res with
    | done =>
      obtain ⟨started', moved⟩ := moved (.inl rfl)
      obtain ⟨data, total, length⟩ := announced started'
      rw [total]
      exact .done (.get op (by rw [bytes, length, moved, done rfl]))
    | preempted =>
      obtain ⟨started', moved⟩ := moved (.inr rfl)
      obtain ⟨data, total, length⟩ := announced started'
      rw [total]
      refine .preempted ⟨fun none => ?_, fun _ _ => ⟨data, rfl, length.trans moved⟩, fun _ put => ?_⟩
      · rw [started'] at none
        cases none
      · rw [op] at put
        cases put
    | failed =>
      by_cases started' : j'.req.started = true
      · obtain ⟨data, total, length⟩ := announced started'
        rw [total]
        exact .failed (.body op (by rw [bytes]; omega))
      · have none : j'.req.started = false := by simpa using started'
        obtain ⟨fresh, total⟩ := silent none
        rw [total]
        refine .failed (.get op ?_)
        rwa [announcement, fresh, if_neg (by simp), ← bytes] at part

theorem PutSaid.tells {out : Bytes} {r' : Request} (h : PutSaid out r' l v) (put : r'.op = .put) : SliceLeft out r' l v := by
  cases h with
  | preempted hout started =>
    refine .ended (.preempted ⟨fun none => ?_, fun _ get => ?_, fun _ _ => hout⟩)
    · rw [started] at none
      cases none
    · rw [put] at get
      cases get
  | done hout =>
    rw [hout]
    exact .ended (.done (.put put))
  | failed reply => exact .ended (.failed (.put put reply))
  | thrown hout failed =>
    rcases hout with hout | hout
    · rw [hout]
      exact .thrown .hushed failed
    · rw [hout]
      exact .thrown (.put put) failed

theorem Told.greeted (h : Told j.req said) (put : j.req.op = .put) : said = LinkScheduling.greeted j.req := by
  unfold LinkScheduling.greeted
  split
  · exact h.put ‹_› put
  · exact h.unstarted (by simpa using ‹¬j.req.started = true›)

theorem serveSlice_tells (told : Told j.req said) (within : j.req.byteOffset ≤ j.req.bytes)
    (unstarted : j.req.op = .get → j.req.started = false → j.req.byteOffset = 0) :
    wp (serveSlice fd sp) j fun v j' l => ∃ out, Tells fd out j.os j'.os ∧ SliceLeft (said ++ out) j'.req l v := by
  cases hop : j.req.op with
  | get =>
    have served : wp (serveGet fd sp) j _ := serveGet_served (UInt64.le_iff_toNat_le.mp within)
    unfold wp at served ⊢
    rw [serveSlice_get fd sp hop]
    exact served.tells hop told (unstarted hop)
  | put =>
    have served : wp (servePut fd sp) j _ := servePut_tells j
    have fixed := congrArg Request.op (servePut_apart fd sp j).fixed
    unfold wp at served ⊢
    rw [serveSlice_put fd sp hop]
    obtain ⟨out, tells, put⟩ := served
    rw [told.greeted hop]
    exact ⟨out, tells, put.tells (fixed.trans hop)⟩

theorem serveOrReport_tells (told : Told j.req said) (within : j.req.byteOffset ≤ j.req.bytes)
    (unstarted : j.req.op = .get → j.req.started = false → j.req.byteOffset = 0) :
    wp (serveOrReport fd sp) j fun v j' l => ∃ out, Tells fd out j.os j'.os ∧ SliceSaid (said ++ out) j'.req l v := by
  rw [serveOrReport, wp_rescue]
  refine wp_mono (serveSlice_tells told within unstarted) ?_
  rintro v j₁ l₁ ⟨out, tells, left⟩
  cases left with
  | ended slice => exact ⟨out, tells, slice⟩
  | thrown stopped failed =>
    refine wp_mono (report_tells (ascii "internal error") SliceResult.failed j₁) ?_
    rintro v j₂ l₂ ⟨same, e, part, tells', hv | ⟨hv, none, again⟩⟩
    · rw [hv]
      refine ⟨out ++ e, tells.trans tells', .caught (same ▸ stopped) part (List.append_assoc ..).symm ?_⟩
      exact List.mem_append_left _ failed
    · rw [hv]
      subst none
      refine ⟨out, tells.quiet tells', .thrown (same ▸ stopped) ?_⟩
      have first := List.count_pos_iff.mpr failed
      have second := List.count_pos_iff.mpr again
      rw [List.count_append]
      omega

end Slice

end LinkScheduling
