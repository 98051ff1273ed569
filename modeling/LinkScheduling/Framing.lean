import LinkScheduling.Lifecycle
import LinkScheduling.Liveness
import LinkScheduling.Replies

/-! What each client reads. Whatever the order of the steps and whatever comes of their calls, the
bytes on a connection are the beginning of one response of its kind, or such a beginning with
`internal error` behind it; a request that is done has been answered in full. An exception of a slice
ends the server only where two allocations were refused. -/

namespace LinkScheduling
open Effect Pools

theorem parseRequestLine_unbroken (line : Bytes) : newline ∉ (parseRequestLine line).error := by
  have malformed : newline ∉ ascii "malformed request line" := by decide
  rw [parseRequestLine]
  split
  · exact malformed
  · split
    · split
      · exact List.not_mem_nil
      · decide
    · split
      · split
        · split
          · exact List.not_mem_nil
          · decide
        · decide
      · split
        · split
          · exact List.not_mem_nil
          · exact malformed
        · decide

theorem feed_unbroken {line buf : Bytes} {hdr : HeaderReadResult} (h : HeaderReadResult.feed line buf = .inr hdr) :
    newline ∉ hdr.error := by
  unfold HeaderReadResult.feed at h
  split at h
  · cases h
    exact List.not_mem_nil
  · split at h
    · cases h
      decide
    · cases h

theorem headerTurn_unbroken (fd : Int) (timeoutMs : Int) (deadline : Nat) (line : Bytes) :
    Fails (fun r => ∃ hdr : HeaderReadResult, r = .inr hdr ∧ newline ∈ hdr.error)
      (headerTurn fd timeoutMs deadline line) := by
  have late : newline ∉ ascii "header read timeout" := by decide
  have ended : ∀ {hdr : HeaderReadResult}, newline ∉ hdr.error →
      Fails (fun r => ∃ hdr : HeaderReadResult, r = .inr hdr ∧ newline ∈ hdr.error)
        (pure (.inr hdr) : Sys (Bytes ⊕ HeaderReadResult)) := by
    intro hdr unbroken
    refine .pure ?_
    rintro ⟨hdr', same, broken⟩
    cases same
    exact unbroken broken
  refine .bind fun ok => .ite (fun _ => .bind fun r => ?_) fun _ => ended late
  split
  · exact ended late
  · exact ended (by decide)
  · exact ended (by decide)
  · split
    · exact .pure (by simp)
    · rename_i fed
      have unbroken := feed_unbroken fed
      split
      · exact .bind fun _ => ended unbroken
      · exact ended unbroken

theorem readHeaderLine_unbroken (fd : Int) (timeoutMs : Int) :
    Fails (fun hdr => newline ∈ hdr.error) (readHeaderLine fd timeoutMs) :=
  .bind fun _ => .loop (headerTurn_unbroken fd timeoutMs _) _ _

theorem ruling_unbroken {hdr : HeaderReadResult} (unbroken : newline ∉ hdr.error) {reason : Bytes}
    (h : ruling hdr = .refuse reason) : newline ∉ reason := by
  have unsafe_ : newline ∉ ascii "unsafe filename" := by decide
  unfold ruling at h
  split at h
  · simp only at h
    split at h
    · cases h
      exact parseRequestLine_unbroken hdr.line
    · cases h
    · split at h
      · cases h
      · cases h
        exact unsafe_
    · split at h
      · split at h
        · cases h
          decide
        · cases h
      · cases h
        exact unsafe_
  · cases h
    split
    · decide
    · exact unbroken

inductive Plain : Bytes → Prop
  | error {reason : Bytes} : newline ∉ reason → Plain (formatErr reason)
  | ok (n : Nat) : Plain (formatOk n)

/-- The bytes `x` on the connection `c` begin a response: one line, or the response to the request
of `c`, where an exception may have cut it short and told so. -/
inductive Legal (s : Server) (c : Int) : Bytes → Prop
  | line {reply x : Bytes} : Plain reply → x <+: reply → Legal s c x
  | response {r : Request} {body x : Bytes} {n : Nat} : .created r body ∈ s.history → r.clientFd = c →
      Response r.op n x → Legal s c x
  | caught {r : Request} {body y e : Bytes} {n : Nat} : .created r body ∈ s.history → r.clientFd = c →
      .allocFailed ∈ s.log → Stopped r.op n y → e <+: formatErr (ascii "internal error") → Legal s c (y ++ e)

theorem Legal.mono {s s' : Server} {c : Int} {x : Bytes} (h : Legal s c x) (history : ∀ m ∈ s.history, m ∈ s'.history)
    (log : ∀ e ∈ s.log, e ∈ s'.log) : Legal s' c x := by
  cases h with
  | line plain part => exact .line plain part
  | response made client response => exact .response (history _ made) client response
  | caught made client failed stopped part => exact .caught (history _ made) client (log _ failed) stopped part

theorem Told.response {r : Request} {x : Bytes} (h : Told r x) (within : r.byteOffset ≤ r.bytes) :
    Response r.op r.bytes.toNat x := by
  cases hop : r.op with
  | get =>
    by_cases started : r.started = true
    · obtain ⟨data, rfl, length⟩ := h.get started hop
      rw [UInt64.le_iff_toNat_le] at within
      exact .body rfl (by omega)
    · rw [h.unstarted (by simpa using started)]
      exact .get rfl List.nil_prefix
  | put =>
    by_cases started : r.started = true
    · rw [h.put started hop]
      exact .put rfl (.acknowledged (List.prefix_append _ _))
    · rw [h.unstarted (by simpa using started)]
      exact .put rfl (.refused List.nil_prefix)

theorem Complete.response {op : Op} {n : Nat} {x : Bytes} (h : Complete op n x) : Response op n x := by
  cases h with
  | get hop length => exact .body hop length.le
  | put hop => exact .put hop (.acknowledged (List.prefix_refl _))

structure Alike (r r' : Request) : Prop where
  op : r'.op = r.op
  clientFd : r'.clientFd = r.clientFd
  started : r'.started = r.started
  bytes : r.started = true → r'.bytes = r.bytes
  byteOffset : r'.byteOffset = r.byteOffset

theorem Told.alike {r r' : Request} {x : Bytes} (h : Told r x) (same : Alike r r') : Told r' x where
  unstarted none := h.unstarted (same.started ▸ none)
  get started get := by
    rw [same.started] at started
    rw [same.bytes started, same.byteOffset]
    exact h.get started (same.op ▸ get)
  put started put := h.put (same.started ▸ started) (same.op ▸ put)

/-- The request `r` of the number `id` has been made for its connection. -/
def Made (s : Server) (id : Nat) (r : Request) : Prop :=
  ∃ r₀ body, .created r₀ body ∈ s.history ∧ r₀.id = id ∧ r₀.op = r.op ∧ r₀.clientFd = r.clientFd

def AnsweredInFull (os : Os) (s : Server) (id : Nat) : Prop :=
  ∃ r body n x, .created r body ∈ s.history ∧ r.id = id ∧ .enqueued id r.clientFd ∈ s.history ∧
    Tells r.clientFd x os s.os ∧ Complete r.op n x

/-- What has been said on the connections since `os`. -/
structure Spoken (os : Os) (s : Server) : Prop where
  legal : ∀ c, ∃ x, Tells c x os s.os ∧ Legal s c x
  quiet : ∀ c, tally Mark.refuse s.history c = 0 → tally Mark.handOver s.history c = 0 → Tells c [] os s.os
  told : ∀ {id r}, s.heap id = some r → s.crashed = false → tally Worker.ended s.workers id = 0 →
    ∃ x, Tells r.clientFd x os s.os ∧ Told r x
  made : ∀ {id r}, s.heap id = some r → Made s id r
  done : ∀ id, .slice id (.ok .done) ∈ s.history → AnsweredInFull os s id
  replies : ∀ {fd reply}, ⟨fd, .answering reply⟩ ∈ s.threads → Plain reply
  crash : s.crashed = true → 2 ≤ s.log.count .allocFailed

theorem Alike.refl (r : Request) : Alike r r := ⟨rfl, rfl, rfl, fun _ => rfl, rfl⟩

section Still
variable {os : Os} {s s' : Server}

theorem Made.alike {id : Nat} {r r' : Request} (h : Made s id r) (same : Alike r r')
    (history : ∀ m ∈ s.history, m ∈ s'.history) : Made s' id r' := by
  obtain ⟨r₀, body, created, hid, op, client⟩ := h
  exact ⟨r₀, body, history _ created, hid, op.trans same.op.symm, client.trans same.clientFd.symm⟩

theorem AnsweredInFull.mono {id : Nat} (h : AnsweredInFull os s id) (history : ∀ m ∈ s.history, m ∈ s'.history)
    (quiet : ∀ c, .enqueued id c ∈ s.history → Tells c [] s.os s'.os) : AnsweredInFull os s' id := by
  obtain ⟨r, body, n, x, created, hid, enqueued, tells, complete⟩ := h
  exact ⟨r, body, n, x, history _ created, hid, history _ enqueued, tells.quiet (quiet _ enqueued), complete⟩

namespace Spoken

theorem start (os : Os) (threads : Nat) : Spoken os (.start os threads) where
  legal c := ⟨[], Tells.refl c os, .line (.ok 0) List.nil_prefix⟩
  quiet c _ _ := Tells.refl c os
  told h := by cases h
  made h := by cases h
  done _ h := by cases h
  replies h := by cases h
  crash h := by cases h

/-- A step that says nothing: what it leaves on the heap was there, or is new and of a connection
on which nothing was said. -/
theorem still (h : Spoken os s) {ms : List Mark} {l : List Event} (history : s'.history = s.history ++ ms)
    (log : s'.log = s.log ++ l) (crashed : s'.crashed = s.crashed) (unserved : ∀ id, .slice id (.ok .done) ∉ ms)
    (quiet : ∀ c, Tells c [] s.os s'.os)
    (heap : ∀ {id r'}, s'.heap id = some r' →
      (∃ r, s.heap id = some r ∧ Alike r r' ∧
        (tally Worker.ended s'.workers id = 0 → tally Worker.ended s.workers id = 0)) ∨
      r'.started = false ∧ Tells r'.clientFd [] os s.os ∧ Made s' id r')
    (replies : ∀ {fd reply}, ⟨fd, .answering reply⟩ ∈ s'.threads → Plain reply) : Spoken os s' := by
  have marks : ∀ m ∈ s.history, m ∈ s'.history := fun m hm => history ▸ mem_marked ms m hm
  have events : ∀ e ∈ s.log, e ∈ s'.log := fun e he => log ▸ List.mem_append_left l he
  refine ⟨fun c => ?_, fun c refused handed => ?_, fun {id r'} hr' up going => ?_, fun {id r'} hr' => ?_,
    fun id done => ?_, replies, fun down => ?_⟩
  · obtain ⟨x, tells, legal⟩ := h.legal c
    exact ⟨x, tells.quiet (quiet c), legal.mono marks events⟩
  · rw [history, tally_append] at refused handed
    exact (h.quiet c (by omega) (by omega)).quiet (quiet c)
  · rcases heap hr' with ⟨r, hr, same, ended⟩ | ⟨fresh, tells, -⟩
    · obtain ⟨x, tells, told⟩ := h.told hr (crashed ▸ up) (ended going)
      rw [same.clientFd]
      exact ⟨x, tells.quiet (quiet _), told.alike same⟩
    · have started : r'.started ≠ true := by simp [fresh]
      exact ⟨[], tells.quiet (quiet _), fun _ => rfl, fun h _ => absurd h started, fun h _ => absurd h started⟩
  · rcases heap hr' with ⟨r, hr, same, -⟩ | ⟨-, -, made⟩
    · exact (h.made hr).alike same marks
    · exact made
  · rw [history] at done
    rcases List.mem_append.mp done with before | now
    · exact (h.done id before).mono marks fun c _ => quiet c
    · exact absurd now (unserved id)
  · have two := h.crash (crashed ▸ down)
    rw [log, List.count_append]
    omega

theorem idle (h : Spoken os s) {ms : List Mark} {l : List Event} (history : s'.history = s.history ++ ms)
    (log : s'.log = s.log ++ l) (crashed : s'.crashed = s.crashed) (unserved : ∀ id, .slice id (.ok .done) ∉ ms)
    (quiet : ∀ c, Tells c [] s.os s'.os) (heap : s'.heap = s.heap)
    (ended : tally Worker.ended s'.workers = tally Worker.ended s.workers)
    (replies : ∀ {fd reply}, ⟨fd, .answering reply⟩ ∈ s'.threads → Plain reply) : Spoken os s' := by
  refine h.still history log crashed unserved quiet (fun {id r'} hr' => ?_) replies
  rw [heap] at hr'
  exact .inl ⟨r', hr', .refl r', fun going => by rwa [ended] at going⟩

theorem rest (h : Spoken os s) (history : s'.history = s.history) (log : s'.log = s.log) (crashed : s'.crashed = s.crashed)
    (sent : s'.os.sent = s.os.sent) (heap : s'.heap = s.heap)
    (ended : tally Worker.ended s'.workers = tally Worker.ended s.workers)
    (replies : ∀ {fd reply}, ⟨fd, .answering reply⟩ ∈ s'.threads → Plain reply) : Spoken os s' := by
  have quiet : ∀ c, Tells c [] s.os s'.os := fun c => by rw [Tells, sent, List.append_nil]
  have marks : s'.history = s.history ++ [] := history.trans (List.append_nil _).symm
  have calls : s'.log = s.log ++ [] := log.trans (List.append_nil _).symm
  exact h.idle marks calls crashed (fun _ => List.not_mem_nil) quiet heap ended replies

theorem phases (h : Spoken os s) {k : Nat} {fd : Int} {p : Phase} (plain : ∀ reply, p = .answering reply → Plain reply)
    {fd' : Int} {reply : Bytes} (mem : ⟨fd', .answering reply⟩ ∈ s.threads.set k ⟨fd, p⟩) : Plain reply := by
  rcases List.mem_or_eq_of_mem_set mem with mem | same
  · exact h.replies mem
  · cases same
    exact plain reply rfl

end Spoken
end Still

section Speaking
variable {os : Os} {cfg : Config} {s s' : Server}

theorem Spoken.speaks (h : Spoken os s) (c : Int) {ms : List Mark} {l : List Event} (up : s.crashed = false)
    (history : s'.history = s.history ++ ms) (log : s'.log = s.log ++ l) (others : ∀ x ≠ c, Tells x [] s.os s'.os)
    (counted : 0 < tally Mark.refuse s'.history c + tally Mark.handOver s'.history c)
    (legal : ∃ x, Tells c x os s'.os ∧ Legal s' c x)
    (undone : ∀ id, .slice id (.ok .done) ∈ s.history → .enqueued id c ∉ s.history)
    (heap : ∀ {id r'}, s'.heap id = some r' →
      (∃ r, s.heap id = some r ∧ Alike r r' ∧ r.clientFd ≠ c ∧
        (tally Worker.ended s'.workers id = 0 → tally Worker.ended s.workers id = 0)) ∨
      Made s' id r' ∧ (s'.crashed = false → tally Worker.ended s'.workers id = 0 →
        ∃ x, Tells r'.clientFd x os s'.os ∧ Told r' x))
    (done : ∀ id, .slice id (.ok .done) ∈ ms → AnsweredInFull os s' id)
    (replies : ∀ {fd reply}, ⟨fd, .answering reply⟩ ∈ s'.threads → Plain reply)
    (crash : s'.crashed = true → 2 ≤ s'.log.count .allocFailed) : Spoken os s' := by
  have marks : ∀ m ∈ s.history, m ∈ s'.history := fun m hm => history ▸ mem_marked ms m hm
  have events : ∀ e ∈ s.log, e ∈ s'.log := fun e he => log ▸ List.mem_append_left l he
  refine ⟨fun x => ?_, fun x refused handed => ?_, fun {id r'} hr' up' going => ?_, fun {id r'} hr' => ?_,
    fun id hdone => ?_, replies, crash⟩
  · by_cases same : x = c
    · subst same
      exact legal
    · obtain ⟨y, tells, legal⟩ := h.legal x
      exact ⟨y, tells.quiet (others x same), legal.mono marks events⟩
  · have other : x ≠ c := by
      rintro rfl
      omega
    rw [history, tally_append] at refused handed
    exact (h.quiet x (by omega) (by omega)).quiet (others x other)
  · rcases heap hr' with ⟨r, hr, same, other, ended⟩ | ⟨-, told⟩
    · obtain ⟨x, tells, told⟩ := h.told hr up (ended going)
      rw [same.clientFd]
      exact ⟨x, tells.quiet (others _ other), told.alike same⟩
    · exact told up' going
  · rcases heap hr' with ⟨r, hr, same, -⟩ | ⟨made, -⟩
    · exact (h.made hr).alike same marks
    · exact made
  · rw [history] at hdone
    rcases List.mem_append.mp hdone with before | now
    · refine (h.done id before).mono marks fun x enqueued => others x ?_
      rintro rfl
      exact undone id before enqueued
    · exact done id now

theorem answer_tells (fd : Int) (reply : Bytes) (os : Os) :
    wp (answer fd reply) os fun _ os' _ => ∃ out, out <+: reply ∧ Tells fd out os os' := by
  refine wp_seq (sendAll_quotes fd reply) ?_ ?_
  · rintro ok os₁ l₁ ⟨ok', out, hok, part, -, sends⟩
    exact ⟨out, part, sends.tells⟩
  · rintro e os₁ l₁ ⟨ok', out, hok, -⟩
    cases hok

theorem Spoken.answers (h : Spoken os s) {c : Int} {reply : Bytes} {m : Mark} {o : Outcome Fault Os Event Unit}
    (tended : Tended s) (ho : o = answer c reply s.os) (up : s.crashed = false)
    (history : s'.history = s.history ++ [m]) (refused : m.refuse = some c)
    (held : 0 < hit s.acceptor.connection c + tally Thread.connection s.threads c)
    (bare : ∀ {id r}, s.heap id = some r → r.clientFd ≠ c) (plain : Plain reply)
    (os' : s'.os = o.state) (log : s'.log = s.log ++ o.log)
    (heap : s'.heap = s.heap) (workers : s'.workers = s.workers) (crashed : s'.crashed = s.crashed)
    (replies : ∀ {fd reply}, ⟨fd, .answering reply⟩ ∈ s'.threads → Plain reply) : Spoken os s' := by
  have places := tended.connections.places c
  have once := tended.connections.once c
  obtain ⟨out, part, tells⟩ := answer_tells c reply s.os
  have beyond := answer_beyond c reply s.os
  rw [← ho] at tells beyond
  have before := h.quiet c (by omega) (by omega)
  refine h.speaks c up history log (fun x other => ?_) ?_ ⟨out, ?_, .line plain part⟩ (fun id _ enqueued => ?_)
    (fun {id r'} hr' => ?_) (fun id now => ?_) replies (fun down => ?_)
  · rw [os', Tells, beyond.sent x other, List.append_nil]
  · rw [history, tally_append, tally_cons, refused, hit_self]
    omega
  · rw [os']
    exact before.first tells
  · have given := tally_pos Mark.handOver c enqueued rfl
    omega
  · rw [heap] at hr'
    exact .inl ⟨r', hr', .refl r', bare hr', fun going => by rwa [workers] at going⟩
  · cases List.mem_singleton.mp now
    cases refused
  · rw [crashed, up] at down
    cases down

theorem SliceSaid.legal {x : Bytes} {r' : Request} {l : List Event} {v : Except Fault SliceResult} {c : Int}
    (h : SliceSaid x r' l v) (within : r'.byteOffset ≤ r'.bytes) {r : Request} {body : Bytes}
    (created : .created r body ∈ s'.history) (client : r.clientFd = c) (op : r'.op = r.op)
    (log : ∀ e ∈ l, e ∈ s'.log) : Legal s' c x := by
  cases h with
  | preempted told => exact .response created client (op ▸ told.response within)
  | done complete => exact .response created client (op ▸ complete.response)
  | failed response => exact .response created client (op ▸ response)
  | caught stopped part whole failed =>
    rw [whole]
    exact .caught created client (log _ failed) (op ▸ stopped) part
  | thrown stopped two =>
    have failed := List.count_pos_iff.mp (Nat.zero_lt_of_lt two)
    have legal := Legal.caught created client (log _ failed) (op ▸ stopped)
      (List.nil_prefix (l := formatErr (ascii "internal error")))
    rwa [List.append_nil] at legal

theorem Spoken.serves (h : Spoken os s) (tended : Tended s) (recorded : Recorded s) (provided : Provided s)
    (provided' : Provided s') {w id : Nat} {r : Request} {o : Round} (up : s.crashed = false)
    (hw : s.workers[w]? = some (.holding id)) (hr : s.heap id = some r)
    (ho : o = serveOrReport r.clientFd cfg.sp ⟨r, s.os⟩) (history : s'.history = s.history ++ sliceMarks id o)
    (log : s'.log = s.log ++ o.log) (os' : s'.os = o.state.os)
    (heap : s'.heap = Function.update s.heap id (some o.state.req)) (threads : s'.threads = s.threads)
    (ended : ∀ x ≠ id, tally Worker.ended s'.workers x = tally Worker.ended s.workers x)
    (final : s'.crashed = false → tally Worker.ended s'.workers id = 0 → o.value = .ok .preempted)
    (crash : s'.crashed = true → ∃ e, o.value = .error e) : Spoken os s' := by
  have unended := tended.placement.unended hw rfl rfl
  have live := tended.tenancy.live hr
  obtain ⟨fd, enqueued⟩ := tended.placement.held hw rfl
  have same : r.clientFd = fd := tended.handed.bound (.inl enqueued) hr
  subst same
  obtain ⟨x, before, told⟩ := h.told hr up unended
  obtain ⟨r₀, body, created, hid, op, client⟩ := h.made hr
  obtain ⟨out, tells, said⟩ := @serveOrReport_tells r.clientFd cfg.sp ⟨r, s.os⟩ x told (provided.within hr)
    (provided.unstarted hr)
  have apart := serveOrReport_apart r.clientFd cfg.sp ⟨r, s.os⟩
  rw [← ho] at tells said apart
  obtain ⟨op', client', -⟩ := fixed_fields apart.fixed
  have after : Tells r.clientFd (x ++ out) os s'.os := by
    rw [os']
    exact before.trans tells
  have created' : .created r₀ body ∈ s'.history := history ▸ mem_marked _ _ created
  have here : s'.heap id = some o.state.req := by rw [heap, Function.update_self]
  have handed := tally_pos Mark.handOver r.clientFd enqueued rfl
  refine h.speaks r.clientFd up history log (fun y other => ?_) ?_ ⟨x ++ out, after, ?_⟩ (fun id' done enqueued' => ?_)
    (fun {id' r'} hr' => ?_) (fun id' now => ?_) (fun {fd reply} mem => ?_) (fun down => ?_)
  · rw [os', Tells, apart.os.sent y other, List.append_nil]
  · rw [history, tally_append, tally_append]
    omega
  · refine said.legal (provided'.within here) created' client (op'.trans op.symm) fun e he => ?_
    rw [log]
    exact List.mem_append_right _ he
  · have places := tended.connections.places r.clientFd
    have once := tended.connections.once r.clientFd
    cases eq_of_tally_le_one Mark.handOver r.clientFd (by omega) enqueued enqueued' rfl rfl
    have ends := recorded.ends id
    have last := tally_pos Mark.last id done rfl
    omega
  · by_cases this : id' = id
    · subst this
      rw [here] at hr'
      cases hr'
      refine .inr ⟨⟨r₀, body, created', hid, op.trans op'.symm, client.trans client'.symm⟩, fun up' going => ?_⟩
      rw [final up' going] at said
      cases said with
      | preempted told =>
        rw [client']
        exact ⟨x ++ out, after, told⟩
    · rw [heap, Function.update_of_ne this] at hr'
      refine .inl ⟨r', hr', .refl r', fun same => this (tended.request_unique hr hr' same), fun going => ?_⟩
      rwa [ended id' this] at going
  · have slice : (Mark.slice id' (.ok .done)) = .slice id o.value := by
      unfold sliceMarks at now
      rcases List.mem_cons.mp now with now | now
      · exact now
      · split at now
        · cases now
        · cases List.mem_singleton.mp now
    injection slice with same value
    subst same
    rw [← value] at said
    cases said with
    | done complete =>
      rw [op', ← op] at complete
      refine ⟨r₀, body, _, x ++ out, created', hid, ?_, ?_, complete⟩
      · rw [client, history]
        exact mem_marked _ _ enqueued
      · rw [client]
        exact after
  · rw [threads] at mem
    exact h.replies mem
  · obtain ⟨e, hv⟩ := crash down
    rw [hv] at said
    cases said with
    | thrown stopped two =>
      rw [log, List.count_append]
      omega

end Speaking

section Steps
variable {os : Os} {cfg : Config} {s s' : Server}

theorem readHeaderLine_tells (c : Int) (fd : Int) (timeoutMs : Int) (os : Os) :
    wp (readHeaderLine fd timeoutMs) os fun v os' _ => (∃ hdr, v = .ok hdr ∧ newline ∉ hdr.error) ∧ Tells c [] os os' := by
  obtain ⟨hdr, hv, reads⟩ := readHeaderLine_spec fd timeoutMs os
  obtain ⟨got, talks, -⟩ := reads.talks
  refine ⟨⟨hdr, hv, readHeaderLine_unbroken fd timeoutMs os hdr hv⟩, ?_⟩
  rw [Tells, talks.sent, List.append_nil, List.append_nil, Function.update_eq_self]

theorem openGet_tells (c : Int) (path : Path) (os : Os) :
    wp (openGet path) os fun v os' _ => (∃ found, v = .ok found) ∧ Tells c [] os os' := by
  refine wp_and ?_ (silent (fun other => openGet_beyond other path) c os)
  refine wp_mono (@openGet_conducts ∅ os path (by simp)) ?_
  rintro v os' l ⟨-, ⟨hv, -⟩ | ⟨size, hv, -⟩⟩
  · exact ⟨_, hv⟩
  · exact ⟨_, hv⟩

theorem finalise_tells (c : Int) (j : Job) : Tells c [] j.os (finalise j).state.os := by
  have apart := finalise_apart (c + 1) j
  rw [Tells, apart.os.sent c (by omega), List.append_nil]

theorem Ruling.plain {hdr : HeaderReadResult} (unbroken : newline ∉ hdr.error) {reply : Bytes}
    (h : (ruling hdr).phase = .answering reply) : Plain reply := by
  cases hr : ruling hdr with
  | refuse reason =>
    rw [hr] at h
    cases h
    exact .error (ruling_unbroken unbroken hr)
  | health =>
    rw [hr] at h
    cases h
  | admitted op filename bytes leftover =>
    rw [hr] at h
    cases h

theorem ended_set {w id : Nat} {p q : Worker} (hw : s.workers[w]? = some p) (before : p.ended = none ∨ p.ended = some id)
    (after : q.ended = none ∨ q.ended = some id) {x : Nat} (other : x ≠ id) :
    tally Worker.ended (s.workers.set w q) x = tally Worker.ended s.workers x := by
  have moved := tally_set Worker.ended x hw q
  have gone : hit p.ended x = 0 := by rcases before with h | h <;> simp [h, hit_other other]
  have come : hit q.ended x = 0 := by rcases after with h | h <;> simp [h, hit_other other]
  omega

theorem Alike.freed {id id' : Nat} {r' : Request} (hr' : s'.heap id' = some r')
    (heap : s'.heap = Function.update s.heap id none)
    (ended : ∀ x ≠ id, tally Worker.ended s'.workers x = tally Worker.ended s.workers x) :
    ∃ r, s.heap id' = some r ∧ Alike r r' ∧
      (tally Worker.ended s'.workers id' = 0 → tally Worker.ended s.workers id' = 0) := by
  rw [heap] at hr'
  by_cases this : id' = id
  · rw [this, Function.update_self] at hr'
    cases hr'
  · rw [Function.update_of_ne this] at hr'
    exact ⟨r', hr', .refl r', fun going => (ended id' this).symm.trans going⟩

theorem Alike.kept {id id' : Nat} {r r₁ r' : Request} (hr : s.heap id = some r) (hr' : s'.heap id' = some r')
    (heap : s'.heap = Function.update s.heap id (some r₁)) (same : Alike r r₁)
    (ended : tally Worker.ended s'.workers = tally Worker.ended s.workers) :
    ∃ r, s.heap id' = some r ∧ Alike r r' ∧
      (tally Worker.ended s'.workers id' = 0 → tally Worker.ended s.workers id' = 0) := by
  have going : tally Worker.ended s'.workers id' = 0 → tally Worker.ended s.workers id' = 0 := by
    rw [ended]
    exact fun h => h
  by_cases this : id' = id
  · subst this
    rw [heap, Function.update_self] at hr'
    cases hr'
    exact ⟨r, hr, same, going⟩
  · rw [heap, Function.update_of_ne this] at hr'
    exact ⟨r', hr', .refl r', going⟩

theorem Spoken.step (h : Spoken os s) (tended : Tended s) (recorded : Recorded s) (provided : Provided s)
    (up : s.crashed = false) (step : Step cfg s s') : Spoken os s' := by
  have provided' := provided.step tended.placement tended.fitting step
  have unmarked : ∀ id, Mark.slice id (.ok .done) ∉ ([] : List Mark) := fun _ => List.not_mem_nil
  have noCalls : s.log = s.log ++ [] := (List.append_nil _).symm
  have noMarks : s.history = s.history ++ [] := (List.append_nil _).symm
  have same : ∀ c, Tells c [] s.os s.os := fun c => Tells.refl c s.os
  cases step with
  | accept => exact h.idle rfl noCalls rfl (by simp) same rfl rfl h.replies
  | spawn =>
    refine h.rest rfl rfl rfl rfl rfl rfl fun mem => ?_
    rcases List.mem_append.mp mem with mem | mem
    · exact h.replies mem
    · cases List.mem_singleton.mp mem
  | @turnAway fd o ha ho =>
    have held : hit s.acceptor.connection fd = 1 := by rw [ha, Acceptor.connection, hit_self]
    have bare : ∀ {id r}, s.heap id = some r → r.clientFd ≠ fd := tended.acceptor_bare (by rw [ha, Acceptor.connection])
    have plain : Plain (formatErr (ascii "server busy")) := .error (by decide)
    exact h.answers tended ho up rfl rfl (by omega) bare plain rfl rfl rfl rfl rfl h.replies
  | @read k fd hdr o hk ho hv =>
    obtain ⟨⟨hdr', hv', unbroken⟩, -⟩ := readHeaderLine_tells 0 fd kHeaderTimeoutMs s.os
    rw [← ho, hv] at hv'
    cases hv'
    have quiet : ∀ c, Tells c [] s.os o.state := by
      intro c
      rw [ho]
      exact (readHeaderLine_tells c fd kHeaderTimeoutMs s.os).2
    exact h.idle noMarks rfl rfl unmarked quiet rfl rfl (h.phases fun reply hp => Ruling.plain unbroken hp)
  | depth hk =>
    refine h.rest rfl rfl rfl rfl rfl rfl (h.phases fun reply hp => ?_)
    cases hp
    exact .ok _
  | @answered k fd reply o hk ho =>
    have mem := List.mem_of_getElem? hk
    have held := tally_pos Thread.connection fd mem rfl
    have bare : ∀ {id r}, s.heap id = some r → r.clientFd ≠ fd := tended.thread_bare hk rfl rfl
    exact h.answers tended ho up rfl rfl (by omega) bare (h.replies mem) rfl rfl rfl rfl rfl
      (h.phases fun reply hp => by cases hp)
  | @number k fd op filename bytes leftover r hk hr =>
    have held := tally_pos Thread.connection fd (List.mem_of_getElem? hk) rfl
    have places := tended.connections.places fd
    have once := tended.connections.once fd
    have quiet := h.quiet fd (by omega) (by omega)
    subst hr
    refine h.still rfl noCalls rfl (by simp) same (fun {id r'} hr' => ?_) (h.phases fun reply hp => by cases hp)
    by_cases this : id = s.nextId
    · subst this
      change Function.update s.heap s.nextId _ s.nextId = some r' at hr'
      rw [Function.update_self] at hr'
      cases hr'
      refine .inr ⟨rfl, quiet, _, _, List.mem_append_right _ (List.mem_singleton.mpr rfl), rfl, rfl, rfl⟩
    · change Function.update s.heap s.nextId _ id = some r' at hr'
      rw [Function.update_of_ne this] at hr'
      exact .inl ⟨r', hr', .refl r', fun going => going⟩
  | @stamp k fd id r hk hr =>
    refine h.still noMarks noCalls rfl unmarked same (fun hr' => .inl ?_) (h.phases fun reply hp => ?_)
    · exact Alike.kept hr hr' rfl ⟨rfl, rfl, rfl, fun _ => rfl, rfl⟩ rfl
    · split at hp <;> cases hp
  | @opened k fd id r n size o hk hr ho hv =>
    have newborn := (tended.fitting.fit hr).born (tally_pos Thread.newborn id (List.mem_of_getElem? hk) rfl)
    have fresh : r.started ≠ true := by simp [newborn.started]
    have quiet : ∀ c, Tells c [] s.os o.state := by
      intro c
      rw [ho]
      exact (openGet_tells c r.path s.os).2
    refine h.still rfl rfl rfl (by simp) quiet (fun hr' => .inl ?_)
      (h.phases fun reply hp => by cases hp)
    exact Alike.kept hr hr' rfl ⟨rfl, rfl, rfl, fun started => absurd started fresh, rfl⟩ rfl
  | @notFound k fd id r o hk hr ho hv =>
    have quiet : ∀ c, Tells c [] s.os o.state := by
      intro c
      rw [ho]
      exact (openGet_tells c r.path s.os).2
    refine h.still noMarks rfl rfl unmarked quiet (fun hr' => .inl (Alike.freed hr' rfl fun _ _ => rfl))
      (h.phases fun reply hp => ?_)
    cases hp
    exact .error (by decide)
  | enqueue => exact h.idle rfl noCalls rfl (by simp) same rfl rfl (h.phases fun reply hp => by cases hp)
  | leave => exact h.rest rfl rfl rfl rfl rfl rfl (h.phases fun reply hp => by cases hp)
  | workerExits hw => exact h.rest rfl rfl rfl rfl rfl (tally_move _ hw rfl) h.replies
  | @next w i id r hw hi hq hr =>
    refine h.still noMarks noCalls rfl unmarked same (fun hr' => .inl ?_) h.replies
    exact Alike.kept hr hr' rfl ⟨rfl, rfl, rfl, fun _ => rfl, rfl⟩ (tally_move Worker.ended hw rfl)
  | @preempt w id r o hw hr ho hv =>
    have moved : tally Worker.ended (s.workers.set w (.preempted id)) = tally Worker.ended s.workers :=
      tally_move _ hw rfl
    refine h.serves tended recorded provided provided' up hw hr ho rfl rfl rfl rfl rfl (fun x _ => ?_) (fun _ _ => hv)
      fun down => ?_
    · exact congrFun moved x
    · exact absurd down (by simp [Server.setWorker, Server.afterSlice, up])
  | @serve w id r res o hw hr ho hv final =>
    refine h.serves tended recorded provided provided' up hw hr ho rfl rfl rfl rfl rfl
      (fun x other => ended_set hw (.inl rfl) (.inr rfl) other) (fun _ going => ?_) fun down => ?_
    · have here := tally_set Worker.ended id hw (.served id res)
      simp only [Worker.ended, hit_none, hit_self] at here
      change tally Worker.ended (s.workers.set w (.served id res)) id = 0 at going
      omega
    · exact absurd down (by simp [Server.setWorker, Server.afterSlice, up])
  | requeue hw => exact h.rest rfl rfl rfl rfl rfl (tally_move _ hw rfl) h.replies
  | @record w id res r r' hw hr hr' =>
    subst hr'
    refine h.still noMarks noCalls rfl unmarked same (fun hr' => .inl ?_) h.replies
    exact Alike.kept hr hr' rfl ⟨rfl, rfl, rfl, fun _ => rfl, rfl⟩ (tally_move Worker.ended hw rfl)
  | @release w id r o hw hr ho =>
    have quiet : ∀ c, Tells c [] s.os o.state.os := by
      intro c
      rw [ho]
      exact finalise_tells c ⟨r, s.os⟩
    refine h.still rfl rfl rfl (by simp) quiet (fun hr' => .inl ?_) h.replies
    exact Alike.freed hr' rfl fun x other => ended_set hw (.inr rfl) (.inl rfl) other
  | @threadCrash k fd e o hk ho hv =>
    obtain ⟨⟨hdr, hv', -⟩, -⟩ := readHeaderLine_tells 0 fd kHeaderTimeoutMs s.os
    rw [← ho, hv] at hv'
    cases hv'
  | @openCrash k fd id r e o hk hr ho hv =>
    obtain ⟨⟨found, hv'⟩, -⟩ := openGet_tells 0 r.path s.os
    rw [← ho, hv] at hv'
    cases hv'
  | @sliceCrash w id r e o hw hr ho hv =>
    exact h.serves tended recorded provided provided' up hw hr ho rfl rfl rfl rfl rfl (fun _ _ => rfl)
      (fun up' => by cases up') fun _ => ⟨e, hv⟩
  | _ => exact h.rest rfl rfl rfl rfl rfl rfl h.replies

end Steps

section Run
variable {os : Os} {cfg : Config} {threads : Nat} {as : List Act} {s : Server}

structure Voiced (os : Os) (s : Server) : Prop where
  spoken : Spoken os s
  tended : Tended s
  recorded : Recorded s
  provided : Provided s

theorem run_voiced (h : run cfg as (.start os threads) = some s) : Voiced os s := by
  refine run_keeps (fun s s' inv up step => ?_) ?_ h
  · exact ⟨inv.spoken.step inv.tended inv.recorded inv.provided up step, inv.tended.step up step,
      inv.recorded.step inv.tended.handed step, inv.provided.step inv.tended.placement inv.tended.fitting step⟩
  · exact ⟨.start os threads, .start os threads, .start os threads, .start os threads⟩

/-- In every run, whatever the order of its steps and whatever comes of their calls, the bytes on
each connection begin one response of its kind, and a request that is done has got the whole of it. -/
theorem run_legal (h : run cfg as (.start os threads) = some s) :
    (∀ c, ∃ x, s.os.sent c = os.sent c ++ x ∧ Legal s c x) ∧
      ∀ id, .slice id (.ok .done) ∈ s.history → AnsweredInFull os s id :=
  ⟨(run_voiced h).spoken.legal, (run_voiced h).spoken.done⟩

theorem run_legal_single : ∃ s,
    run { fileDir := [100], sp := { policy := .drr, quantum := 9 } } servedAndStopped
        (.start (uploader [97, 98]) 1) = some s ∧
      s.os.sent 0 = formatOk 0 ++ formatOk 0 ∧ s.history.filterMap Mark.done = [1] ∧
      (∀ c, ∃ x, s.os.sent c = (uploader [97, 98]).sent c ++ x ∧ Legal s c x) ∧
      ∀ id, .slice id (.ok .done) ∈ s.history → AnsweredInFull (uploader [97, 98]) s id := by
  have facts : (run { fileDir := [100], sp := { policy := .drr, quantum := 9 } } servedAndStopped
      (.start (uploader [97, 98]) 1)).map (fun s => (s.os.sent 0, s.history.filterMap Mark.done)) =
        some (formatOk 0 ++ formatOk 0, [1]) := by decide +kernel
  obtain ⟨s, hs, served⟩ := Option.map_eq_some_iff.mp facts
  simp only [Prod.mk.injEq] at served
  exact ⟨s, hs, served.1, served.2, run_legal hs⟩

/-- The exception of a slice ends the server only if its report throws too: two allocations have
failed. -/
theorem run_crashed (h : run cfg as (.start os threads) = some s) (down : s.crashed = true) :
    2 ≤ s.log.count .allocFailed := (run_voiced h).spoken.crash down

end Run

end LinkScheduling
