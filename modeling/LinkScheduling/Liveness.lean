import LinkScheduling.Declared
import LinkScheduling.Drain
import LinkScheduling.Holdings
import LinkScheduling.Scheduler
import LinkScheduling.Winding

/-! The end of the drain. Once the main thread has shut the listener, the server is never stuck
and never busy for ever: in whatever order its threads go on, and whatever comes of their calls, it
finishes with everything drained, or an exception ends it. -/

namespace LinkScheduling
open Effect Pools Winding

/-- The bytes that a request still has to move, less those that its deficit covers. -/
def Request.remaining (sp : SliceParams) (r : Request) : Nat :=
  r.bytes.toNat - (r.byteOffset.toNat + if sp.policy = .drr ∧ r.op = .get then r.deficit.toNat else 0)

section Slice
variable {fd : Int} {sp : SliceParams} {j : Job}

/-- A slice stays within the declared size, and one that is preempted leaves less to do. -/
structure Forward (sp : SliceParams) (r : Request) (v : Except Fault SliceResult) (r' : Request) : Prop where
  within : r'.byteOffset ≤ r'.bytes
  unstarted : r.op = .get → r'.started = false → r.started = false ∧ r'.byteOffset = r.byteOffset
  lowers : v = .ok .preempted → (bounded sp.policy = true → 0 < sp.quantum.toNat) →
    r'.remaining sp < r.remaining sp

theorem GetServed.forward {v : Except Fault SliceResult} {j' : Job} {l : List Event} (h : GetServed fd sp j v j' l)
    (get : j.req.op = .get) : Forward sp j.req v j'.req where
  within := by
    obtain ⟨offset, deficit, forfeited, started, same⟩ := h.req
    have high := h.high
    rw [same] at high ⊢
    exact UInt64.le_iff_toNat_le.mpr high
  unstarted _ unstarted := by
    obtain ⟨head, body, -, -, -, -, -, stays, -⟩ := h.sent
    refine ⟨?_, h.fresh unstarted⟩
    by_contra started
    rw [stays (by simpa using started)] at unstarted
    cases unstarted
  lowers hv quantum := by
    obtain ⟨policy, unfinished, rr, drr⟩ := h.preempted hv
    obtain ⟨offset, deficit, forfeited, started, same⟩ := h.req
    have pos := quantum policy
    rw [same] at unfinished rr drr ⊢
    simp only [Request.remaining, get, and_true] at unfinished rr drr ⊢
    cases hp : sp.policy with
    | rr =>
      have further := (rr hp).1
      simp only [reduceCtorEq, if_false]
      omega
    | drr =>
      have further := drr hp
      simp only [if_true]
      omega
    | fcfs =>
      rw [hp] at policy
      cases policy
    | sjf =>
      rw [hp] at policy
      cases policy

theorem servePut_forward (put : j.req.op = .put) (within : j.req.byteOffset ≤ j.req.bytes) :
    wp (servePut fd sp) j fun v j' _ => j'.req.fixed = j.req.fixed → Forward sp j.req v j'.req := by
  refine wp_mono (wp_and (servePut_within j) (servePut_preempted j)) ?_
  rintro v j' l ⟨⟨d, le, moved⟩, preempted⟩ fixed
  have op := congrArg Request.op fixed
  have bytes := congrArg Request.bytes fixed
  simp only [Request.fixed] at op bytes
  have sum := moved_toNat within le
  have most : d.toNat ≤ j.req.bytes.toNat - j.req.byteOffset.toNat := by
    have room : takeFrom sp j.req.bytes.toNat j.req.byteOffset.toNat ≤ _ := takeFrom_le
    rw [takeFrom_eq within] at room
    exact (UInt64.le_iff_toNat_le.mp le).trans room
  rw [UInt64.le_iff_toNat_le] at within
  refine ⟨?_, fun get => ?_, fun hv quantum => ?_⟩
  · rw [UInt64.le_iff_toNat_le, bytes, moved, sum]
    omega
  · rw [put] at get
    cases get
  · obtain ⟨policy, -, unfinished, further, room⟩ := preempted hv
    have pos := quantum policy
    have same : d.toNat = sp.quantum.toNat := by
      have both := moved.symm.trans further
      rw [UInt64.add_right_inj] at both
      rw [both]
    rw [UInt64.lt_iff_toNat_lt] at unfinished
    simp only [Request.remaining, put, op, reduceCtorEq, and_false, if_false]
    rw [moved, sum, bytes] at unfinished ⊢
    omega

theorem serveOrReport_forward (within : j.req.byteOffset ≤ j.req.bytes) :
    wp (serveOrReport fd sp) j fun v j' _ => Forward sp j.req v j'.req := by
  apply serveOrReport_falls
  · cases hop : j.req.op with
    | get =>
      have served : wp (serveGet fd sp) j _ := serveGet_served (UInt64.le_iff_toNat_le.mp within)
      unfold wp at served ⊢
      rw [serveSlice_get fd sp hop]
      exact served.forward hop
    | put =>
      have served : wp (servePut fd sp) j _ := servePut_forward hop within
      unfold wp at served ⊢
      rw [serveSlice_put fd sp hop]
      exact served (servePut_apart fd sp j).fixed
  · rintro e j' l v j'' l' forward same falls
    rw [same]
    exact ⟨forward.within, forward.unstarted, fun hv => absurd hv falls.2⟩

end Slice

/-- How often the request `id` is queued, with a worker or with its admission thread. -/
def Server.places (s : Server) (id : Nat) : Nat :=
  tally some s.queue id + tally Worker.request s.workers id + tally Thread.request s.threads id

/-- Every request that some party will come back to is on the heap, and none of those has moved
beyond its size. -/
structure Provided (s : Server) : Prop where
  present : ∀ id, 0 < s.places id → ∃ r, s.heap id = some r
  within : ∀ {id r}, s.heap id = some r → r.byteOffset ≤ r.bytes
  unstarted : ∀ {id r}, s.heap id = some r → r.op = .get → r.started = false → r.byteOffset = 0

namespace Provided
variable {s s' : Server} {cfg : Config}

theorem start (os : Os) (threads : Nat) : Provided (.start os threads) where
  present id h := by
    have idle : tally Worker.request (List.replicate threads Worker.asking) id = 0 :=
      tally_eq_zero _ _ fun a ha => by rw [List.eq_of_mem_replicate ha]; simp [Worker.request]
    simp [Server.places, Server.start, idle] at h
  within h := by cases h
  unstarted h := by cases h

theorem congr (h : Provided s) (places : ∀ x, s'.places x ≤ s.places x) (heap : s'.heap = s.heap) : Provided s' where
  present x hx := heap ▸ h.present x (lt_of_lt_of_le hx (places x))
  within hr := h.within (heap ▸ hr)
  unstarted hr := h.unstarted (heap ▸ hr)

theorem moved (h : Provided s) (id : Nat) {y : Option Request} (heap : s'.heap = Function.update s.heap id y)
    (others : ∀ x ≠ id, s'.places x ≤ s.places x) (here : 0 < s'.places id → ∃ r, y = some r)
    (fits : ∀ r, y = some r → r.byteOffset ≤ r.bytes ∧ (r.op = .get → r.started = false → r.byteOffset = 0)) :
    Provided s' where
  present x hx := by
    by_cases same : x = id
    · subst same
      rw [heap, Function.update_self]
      exact here hx
    · rw [heap, Function.update_of_ne same]
      exact h.present x (lt_of_lt_of_le hx (others x same))
  within {x r} hr := by
    by_cases same : x = id
    · subst same
      rw [heap, Function.update_self] at hr
      exact (fits r hr).1
    · rw [heap, Function.update_of_ne same] at hr
      exact h.within hr
  unstarted {x r} hr := by
    by_cases same : x = id
    · subst same
      rw [heap, Function.update_self] at hr
      exact (fits r hr).2
    · rw [heap, Function.update_of_ne same] at hr
      exact h.unstarted hr

theorem kept (h : Provided s) {id : Nat} {r' : Request} (heap : s'.heap = Function.update s.heap id (some r'))
    (places : ∀ x, s'.places x ≤ s.places x) (within : r'.byteOffset ≤ r'.bytes)
    (unstarted : r'.op = .get → r'.started = false → r'.byteOffset = 0) : Provided s' := by
  refine h.moved id heap (fun x _ => places x) (fun _ => ⟨r', rfl⟩) fun r hr => ?_
  cases hr
  exact ⟨within, unstarted⟩

end Provided

theorem places_thread {s s' : Server} {k : Nat} {t t' : Thread} (hk : s.threads[k]? = some t)
    (threads : s'.threads = s.threads.set k t') (queue : s'.queue = s.queue) (workers : s'.workers = s.workers)
    (x : Nat) : s'.places x + hit t.request x = s.places x + hit t'.request x := by
  have moved := tally_set Thread.request x hk t'
  simp only [Server.places, threads, queue, workers]
  omega

theorem places_worker {s s' : Server} {w : Nat} {p p' : Worker} (hw : s.workers[w]? = some p)
    (workers : s'.workers = s.workers.set w p') (queue : s'.queue = s.queue) (threads : s'.threads = s.threads)
    (x : Nat) : s'.places x + hit p.request x = s.places x + hit p'.request x := by
  have moved := tally_set Worker.request x hw p'
  simp only [Server.places, threads, queue, workers]
  omega

theorem thread_places {s s' : Server} {k : Nat} {t t' : Thread} (hk : s.threads[k]? = some t)
    (threads : s'.threads = s.threads.set k t') (request : t'.request = t.request ∨ t'.request = none)
    (queue : s'.queue = s.queue) (workers : s'.workers = s.workers) (x : Nat) : s'.places x ≤ s.places x := by
  have moved := places_thread hk threads queue workers x
  rcases request with same | none
  · rw [same] at moved
    omega
  · rw [none, hit_none] at moved
    omega

theorem worker_places {s s' : Server} {w : Nat} {p p' : Worker} (hw : s.workers[w]? = some p)
    (workers : s'.workers = s.workers.set w p') (request : p'.request = p.request ∨ p'.request = none)
    (queue : s'.queue = s.queue) (threads : s'.threads = s.threads) (x : Nat) : s'.places x ≤ s.places x := by
  have moved := places_worker hw workers queue threads x
  rcases request with same | none
  · rw [same] at moved
    omega
  · rw [none, hit_none] at moved
    omega

theorem hit_other {id x : Nat} (h : x ≠ id) : hit (some id) x = 0 := by
  rw [hit_some, if_neg (Ne.symm h)]

theorem Placement.single {s : Server} (h : Placement s) (id : Nat) : s.places id ≤ 1 := by
  have places := h.places id
  have once := h.once id
  simp only [Server.places]
  omega

namespace Provided
variable {s s' : Server} {cfg : Config}

theorem slice (h : Provided s) {w id : Nat} {r : Request} {o : Round} {p : Worker}
    (hw : s.workers[w]? = some (.holding id)) (hr : s.heap id = some r)
    (ho : o = serveOrReport r.clientFd cfg.sp ⟨r, s.os⟩) (hp : p.request = some id)
    (heap : s'.heap = Function.update s.heap id (some o.state.req)) (workers : s'.workers = s.workers.set w p)
    (queue : s'.queue = s.queue) (threads : s'.threads = s.threads) : Provided s' := by
  have forward : wp (serveOrReport r.clientFd cfg.sp) ⟨r, s.os⟩ _ := serveOrReport_forward (h.within hr)
  rw [wp, ← ho] at forward
  refine h.kept heap ?_ forward.within fun get unstarted => ?_
  · exact worker_places hw workers (.inl hp) queue threads
  · have op : o.state.req.op = r.op := by
      have fixed := congrArg Request.op (serveOrReport_apart r.clientFd cfg.sp ⟨r, s.os⟩).fixed
      rw [← ho] at fixed
      exact fixed
    obtain ⟨fresh, same⟩ := forward.unstarted (op.symm.trans get) unstarted
    exact same.trans (h.unstarted hr (op.symm.trans get) fresh)

theorem step (h : Provided s) (placed : Placement s) (fitting : Fitting s) (step : Step cfg s s') : Provided s' := by
  cases step with
  | spawn =>
    refine h.congr (fun x => ?_) rfl
    simp [Server.places, Thread.request]
  | @read k fd hdr o hk =>
    have none : Thread.request ⟨fd, (ruling hdr).phase⟩ = none := by cases ruling hdr <;> rfl
    exact h.congr (thread_places hk rfl (.inr none) rfl rfl) rfl
  | depth hk => exact h.congr (thread_places hk rfl (.inr rfl) rfl rfl) rfl
  | answered hk => exact h.congr (thread_places hk rfl (.inr rfl) rfl rfl) rfl
  | @number k fd op filename bytes leftover r hk hr =>
    refine h.moved s.nextId rfl (fun x hx => ?_) (fun _ => ⟨r, rfl⟩) fun r' hr' => ?_
    · have moved := tally_set Thread.request x hk ⟨fd, .stamping s.nextId⟩
      simp only [Server.places, Server.mark, Server.setPhase, Server.setRequest]
      simp only [Thread.request, hit_none, hit_other hx] at moved
      omega
    · cases hr'
      rw [hr]
      exact ⟨UInt64.zero_le, fun _ _ => rfl⟩
  | @stamp k fd id r hk hr =>
    have same : Thread.request ⟨fd, if r.op = .get then .opening id else .enqueuing id⟩ = some id := by split <;> rfl
    have within := h.within hr
    have fresh := h.unstarted hr
    exact h.kept rfl (thread_places hk rfl (.inl same) rfl rfl) within fresh
  | @opened k fd id r n size o hk hr ho hv =>
    have fit := fitting.fit hr
    have mem := List.mem_of_getElem? hk
    have newborn := fit.born (tally_pos Thread.newborn id mem rfl)
    have fresh := h.unstarted hr (fit.gets fd mem) newborn.started
    refine h.kept rfl (thread_places hk rfl (.inl rfl) rfl rfl) ?_ fun _ _ => fresh
    simp only [fresh]
    exact UInt64.zero_le
  | @notFound k fd id r o hk =>
    refine h.moved id rfl (fun x hx => ?_) (fun left => ?_) fun r hr => by cases hr
    · clear hx
      revert x
      exact thread_places hk rfl (.inr rfl) rfl rfl
    have moved := tally_set Thread.request id hk ⟨fd, .answering (formatErr (ascii "file not found"))⟩
    have single := placed.single id
    simp only [Server.places, Server.setPhase, Server.setRequest, Server.after] at left single
    simp only [Thread.request, hit_none, hit_self] at moved
    omega
  | @enqueue k fd id hk =>
    refine h.congr (fun x => ?_) rfl
    have moved := tally_set Thread.request x hk ⟨fd, .leaving⟩
    simp only [Server.places, Server.mark, Server.setPhase, tally_append, tally_cons, tally_nil]
    simp only [Thread.request, hit_none] at moved
    omega
  | leave hk => exact h.congr (thread_places hk rfl (.inr rfl) rfl rfl) rfl
  | workerExits hw => exact h.congr (worker_places hw rfl (.inr rfl) rfl rfl) rfl
  | @next w i id r hw hi hq hr =>
    have within := h.within hr
    have fresh := h.unstarted hr
    refine h.kept rfl (fun x => ?_) within fresh
    have moved := tally_set Worker.request x hw (.holding id)
    have popped := tally_eraseIdx some x hq
    simp only [Server.places, Server.setWorker, Server.setRequest]
    simp only [Worker.request, hit_none] at moved
    omega
  | preempt hw hr ho => exact h.slice hw hr ho rfl rfl rfl rfl rfl
  | serve hw hr ho => exact h.slice hw hr ho rfl rfl rfl rfl rfl
  | @sliceCrash w id r e o hw hr ho =>
    have same : s.workers = s.workers.set w (.holding id) := by
      obtain ⟨lt, get⟩ := List.getElem?_eq_some_iff.mp hw
      rw [← get, List.set_getElem_self]
    exact h.slice hw hr ho rfl rfl same rfl rfl
  | @requeue w id hw =>
    refine h.congr (fun x => ?_) rfl
    have moved := tally_set Worker.request x hw .asking
    simp only [Server.places, Server.setWorker, tally_append, tally_cons, tally_nil]
    simp only [Worker.request, hit_none] at moved
    omega
  | @record w id res r r' hw hr heq =>
    subst heq
    have within := h.within hr
    have fresh := h.unstarted hr
    exact h.kept rfl (worker_places hw rfl (.inl rfl) rfl rfl) within fresh
  | @release w id r o hw =>
    refine h.moved id rfl (fun x hx => ?_) (fun left => ?_) fun r hr => by cases hr
    · clear hx
      revert x
      exact worker_places hw rfl (.inr rfl) rfl rfl
    have moved := tally_set Worker.request id hw .asking
    have single := placed.single id
    simp only [Server.places, Server.mark, Server.setWorker, Server.released] at left single
    simp only [Worker.request, hit_none, hit_self] at moved
    omega
  | _ => exact h.congr (fun _ => le_rfl) rfl

end Provided

/-- What the closing of the listener goes with, and what the end waits for. -/
structure Closing (s : Server) : Prop where
  closed : s.listening = false → s.flag = true ∧ s.main ≠ .polling
  finished : s.main = .finished → ∀ p ∈ s.workers, p = .exited

namespace Closing
variable {s s' : Server} {cfg : Config}

theorem start (os : Os) (threads : Nat) : Closing (.start os threads) where
  closed h := by cases h
  finished h := by cases h

theorem congr (h : Closing s) (listening : s'.listening = s.listening) (flag : s.flag = true → s'.flag = true)
    (main : s'.main = s.main) (workers : s'.workers = s.workers) : Closing s' where
  closed hl := by
    obtain ⟨flagged, waiting⟩ := h.closed (listening ▸ hl)
    exact ⟨flag flagged, main ▸ waiting⟩
  finished hm := by
    rw [workers]
    exact h.finished (main ▸ hm)

theorem worked (h : Closing s) {w : Nat} {p : Worker} (hw : s.workers[w]? = some p) (hp : p ≠ .exited)
    (listening : s'.listening = s.listening) (flag : s'.flag = s.flag) (main : s'.main = s.main) : Closing s' where
  closed hl := by
    rw [flag, main]
    exact h.closed (listening ▸ hl)
  finished hm := absurd (h.finished (main ▸ hm) p (List.mem_of_getElem? hw)) hp

theorem passed (h : Closing s) (listening : s'.listening = s.listening)
    (flag : s'.flag = s.flag) (main : s'.main ≠ .polling) (exits : s'.main = .finished → ∀ p ∈ s'.workers, p = .exited) :
    Closing s' where
  closed hl := ⟨flag ▸ (h.closed (listening ▸ hl)).1, main⟩
  finished := exits

theorem step (h : Closing s) (step : Step cfg s s') : Closing s' := by
  cases step with
  | signal => exact h.congr rfl (fun _ => rfl) rfl rfl
  | workerExits hw => exact h.worked hw Worker.noConfusion rfl rfl rfl
  | next hw => exact h.worked hw Worker.noConfusion rfl rfl rfl
  | preempt hw => exact h.worked hw Worker.noConfusion rfl rfl rfl
  | serve hw => exact h.worked hw Worker.noConfusion rfl rfl rfl
  | requeue hw => exact h.worked hw Worker.noConfusion rfl rfl rfl
  | record hw => exact h.worked hw Worker.noConfusion rfl rfl rfl
  | release hw => exact h.worked hw Worker.noConfusion rfl rfl rfl
  | stopListening hm flag => exact ⟨fun _ => ⟨flag, Main.noConfusion⟩, fun done => by cases done⟩
  | acceptorJoined =>
    exact h.passed rfl rfl Main.noConfusion fun done => by cases done
  | admissionsDone =>
    exact h.passed rfl rfl Main.noConfusion fun done => by cases done
  | shutDown =>
    exact h.passed rfl rfl Main.noConfusion fun done => by cases done
  | workersJoined _ exited =>
    exact h.passed rfl rfl Main.noConfusion fun _ => exited
  | _ => exact h.congr rfl id rfl rfl

end Closing

def Phase.rank : Phase → Nat
  | .reading => 6
  | .numbering .. => 5
  | .stamping _ => 4
  | .asked | .opening _ => 3
  | .answering _ | .enqueuing _ => 2
  | .leaving => 1
  | .gone => 0

/-- The steps that the acceptor has before it, and the thread that it may start. -/
def Acceptor.rank : Acceptor → Nat
  | .accepted _ => 9
  | .counted _ => 8
  | .turningAway _ => 2
  | .accepting => 1
  | .exited => 0

def Main.rank : Main → Nat
  | .polling => 5
  | .joiningAcceptor => 4
  | .awaitingAdmissions => 3
  | .stopping => 2
  | .joiningWorkers => 1
  | .finished => 0

namespace Server
variable (sp : SliceParams)

def remaining (s : Server) (id : Nat) : Nat := ((s.heap id).map (Request.remaining sp)).getD 0

/-- The toil of a worker: a slice that is preempted brings its request nearer to its end. -/
def toil (s : Server) : Worker → Nat
  | .holding id => 4 * s.remaining sp id + 4
  | .preempted id => 4 * s.remaining sp id + 6
  | .served _ _ => 3
  | .recorded _ => 2
  | .asking => 1
  | .exited => 0

def admissions (s : Server) : Nat := s.acceptor.rank + weight (fun t : Thread => t.phase.rank) s.threads

def labour (s : Server) : Nat :=
  weight (fun id => 4 * s.remaining sp id + 4) s.queue + weight (s.toil sp) s.workers + s.main.rank

/-- The life of the process goes first, then its admissions, then its work. -/
def ahead (s : Server) : Nat ×ₗ Nat ×ₗ Nat :=
  toLex (if s.crashed then 0 else 1, toLex (s.admissions, s.labour sp))

end Server

section Lowers
variable {s s' : Server} {sp : SliceParams} {cfg : Config}

theorem crash_lowers (up : s.crashed = false) (crashed : s'.crashed = true) : s'.ahead sp < s.ahead sp := by
  refine Prod.Lex.toLex_lt_toLex.mpr (.inl ?_)
  simp [up, crashed]

theorem admissions_lower (crashed : s'.crashed = s.crashed) (less : s'.admissions < s.admissions) :
    s'.ahead sp < s.ahead sp := by
  refine Prod.Lex.toLex_lt_toLex.mpr (.inr ⟨by rw [crashed], ?_⟩)
  exact Prod.Lex.toLex_lt_toLex.mpr (.inl less)

theorem labour_lowers (crashed : s'.crashed = s.crashed) (threads : s'.threads = s.threads)
    (acceptor : s'.acceptor = s.acceptor) (less : s'.labour sp < s.labour sp) : s'.ahead sp < s.ahead sp := by
  have same : s'.admissions = s.admissions := by rw [Server.admissions, Server.admissions, threads, acceptor]
  refine Prod.Lex.toLex_lt_toLex.mpr (.inr ⟨by rw [crashed], ?_⟩)
  exact Prod.Lex.toLex_lt_toLex.mpr (.inr ⟨same, less⟩)

theorem ahead_congr (crashed : s'.crashed = s.crashed) (threads : s'.threads = s.threads)
    (acceptor : s'.acceptor = s.acceptor) (queue : s'.queue = s.queue) (heap : s'.heap = s.heap)
    (workers : s'.workers = s.workers) (main : s'.main = s.main) : s'.ahead sp = s.ahead sp := by
  have remaining : s'.remaining sp = s.remaining sp := by
    funext id
    rw [Server.remaining, Server.remaining, heap]
  have toil : s'.toil sp = s.toil sp := by
    funext p
    unfold Server.toil
    rw [remaining]
  simp only [Server.ahead, Server.admissions, Server.labour, crashed, threads, acceptor, queue, remaining, toil,
    workers, main]

theorem thread_lowers {k : Nat} {t t' : Thread} (hk : s.threads[k]? = some t) (threads : s'.threads = s.threads.set k t')
    (rank : t'.phase.rank < t.phase.rank) (acceptor : s'.acceptor = s.acceptor) (crashed : s'.crashed = s.crashed) :
    s'.ahead sp < s.ahead sp := by
  refine admissions_lower crashed ?_
  have moved := weight_set (fun t : Thread => t.phase.rank) hk t'
  simp only [Server.admissions, threads, acceptor]
  omega

theorem ruling_rank (hdr : HeaderReadResult) : (ruling hdr).phase.rank < 6 := by
  cases ruling hdr with
  | refuse => exact Nat.le_add_left 3 3
  | health => exact Nat.le_add_left 4 2
  | admitted => exact Nat.lt_succ_self 5

theorem readDone_lowers {k : Nat} {fd : Int} (hk : s.threads[k]? = some ⟨fd, .reading⟩) (up : s.crashed = false)
    (o : Outcome Fault Os Event HeaderReadResult) : (s.readDone k fd o).ahead sp < s.ahead sp := by
  rcases readDone_cases s k fd o with ⟨hdr, -, done⟩ | ⟨e, -, done⟩
  · rw [done]
    exact thread_lowers hk rfl (ruling_rank hdr) rfl rfl
  · rw [done]
    exact crash_lowers up rfl

theorem openDone_lowers {k : Nat} {fd : Int} {id : Nat} (hk : s.threads[k]? = some ⟨fd, .opening id⟩)
    (up : s.crashed = false) (r : Request) (o : Outcome Fault Os Event (Option (Int × UInt64))) :
    (s.openDone k fd id r o).ahead sp < s.ahead sp := by
  rcases openDone_cases s k fd id r o with ⟨n, size, -, done⟩ | ⟨-, done⟩ | ⟨e, -, done⟩
  · rw [done]
    exact thread_lowers hk rfl (Nat.lt_succ_self 2) rfl rfl
  · rw [done]
    exact thread_lowers hk rfl (Nat.lt_succ_self 2) rfl rfl
  · rw [done]
    exact crash_lowers up rfl

theorem threadStep_lowers {k : Nat} (up : s.crashed = false) (step : threadStep cfg k s = some s') :
    s'.ahead sp < s.ahead sp := by
  unfold threadStep at step
  cases hk : s.threads[k]? with
  | none => simp [hk] at step
  | some thread =>
    obtain ⟨fd, phase⟩ := thread
    simp only [hk] at step
    cases phase with
    | reading =>
      rw [← Option.some.inj step]
      exact readDone_lowers hk up _
    | asked =>
      cases step
      exact thread_lowers hk rfl (Nat.lt_succ_self 2) rfl rfl
    | answering reply =>
      cases step
      exact thread_lowers hk rfl (Nat.lt_succ_self 1) rfl rfl
    | numbering op filename bytes leftover =>
      cases step
      exact thread_lowers hk rfl (Nat.lt_succ_self 4) rfl rfl
    | stamping id =>
      obtain ⟨r, hr, rfl⟩ := Option.map_eq_some_iff.mp step
      refine thread_lowers hk rfl ?_ rfl rfl
      change (if r.op = .get then Phase.opening id else Phase.enqueuing id).rank < 4
      split
      · exact Nat.lt_succ_self 3
      · exact Nat.le_add_left 3 1
    | opening id =>
      obtain ⟨r, hr, rfl⟩ := Option.map_eq_some_iff.mp step
      exact openDone_lowers hk up r _
    | enqueuing id =>
      cases step
      exact thread_lowers hk rfl (Nat.lt_succ_self 1) rfl rfl
    | leaving =>
      cases step
      exact thread_lowers hk rfl Nat.one_pos rfl rfl
    | gone => cases step

theorem acceptorStep_lowers {a : Act} (closed : s.listening = false) (flag : s.flag = true)
    (step : acceptorStep a s = some s') : s'.ahead sp < s.ahead sp := by
  have lower : s'.crashed = s.crashed → s'.threads = s.threads → s'.acceptor.rank < s.acceptor.rank →
      s'.ahead sp < s.ahead sp := by
    intro crashed threads less
    refine admissions_lower crashed ?_
    simp only [Server.admissions, threads]
    omega
  unfold acceptorStep at step
  split at step
  · rw [closed] at step
    cases step
  · rename_i ha
    rw [if_pos flag] at step
    cases step
    exact lower rfl rfl (by rw [ha]; exact Nat.one_pos)
  · rename_i fd ha
    cases step
    exact lower rfl rfl (by rw [ha]; exact Nat.lt_succ_self 8)
  · rename_i fd ha
    cases step
    refine admissions_lower rfl ?_
    simp only [Server.admissions, weight_append, weight_cons, weight_nil, ha, Acceptor.rank, Phase.rank]
    omega
  · rename_i fd ha
    cases step
    refine lower rfl rfl ?_
    rw [ha]
    change 2 < 8
    decide
  · rename_i fd ha
    cases step
    exact lower rfl rfl (by rw [ha]; exact Nat.lt_succ_self 1)
  · cases step

theorem mainStep_lowers (step : mainStep s = some s') : s'.ahead sp < s.ahead sp := by
  have lower : s'.crashed = s.crashed → s'.threads = s.threads → s'.acceptor = s.acceptor → s'.queue = s.queue →
      s'.heap = s.heap → s'.workers = s.workers → s'.main.rank < s.main.rank → s'.ahead sp < s.ahead sp := by
    intro crashed threads acceptor queue heap workers less
    have same : ({ s' with main := s.main } : Server).ahead sp = s.ahead sp :=
      ahead_congr crashed threads acceptor queue heap workers rfl
    rw [← same]
    refine labour_lowers rfl rfl rfl ?_
    exact Nat.add_lt_add_left less _
  unfold mainStep at step
  cases hm : s.main with
  | polling =>
    simp only [hm] at step
    split at step
    · cases step
      exact lower rfl rfl rfl rfl rfl rfl (by rw [hm]; exact Nat.lt_succ_self 4)
    · cases step
  | joiningAcceptor =>
    simp only [hm] at step
    split at step
    · cases step
      exact lower rfl rfl rfl rfl rfl rfl (by rw [hm]; exact Nat.lt_succ_self 3)
    · cases step
  | awaitingAdmissions =>
    simp only [hm] at step
    split at step
    · cases step
    · cases step
      exact lower rfl rfl rfl rfl rfl rfl (by rw [hm]; exact Nat.lt_succ_self 2)
  | stopping =>
    simp only [hm] at step
    cases step
    exact lower rfl rfl rfl rfl rfl rfl (by rw [hm]; exact Nat.lt_succ_self 1)
  | joiningWorkers =>
    simp only [hm] at step
    split at step
    · cases step
      exact lower rfl rfl rfl rfl rfl rfl (by rw [hm]; exact Nat.lt_succ_self 0)
    · cases step
  | finished => simp [hm] at step

theorem remaining_kept {id : Nat} {r r' : Request} (hr : s.heap id = some r)
    (heap : s'.heap = Function.update s.heap id (some r')) (same : r'.remaining sp = r.remaining sp) :
    s'.remaining sp = s.remaining sp := by
  funext x
  by_cases hx : x = id
  · subst hx
    rw [Server.remaining, Server.remaining, heap, Function.update_self, hr]
    exact same
  · rw [Server.remaining, Server.remaining, heap, Function.update_of_ne hx]

theorem remaining_other {id x : Nat} {y : Option Request} (heap : s'.heap = Function.update s.heap id y) (hx : x ≠ id) :
    s'.remaining sp x = s.remaining sp x := by
  rw [Server.remaining, Server.remaining, heap, Function.update_of_ne hx]

theorem toil_congr {p : Worker} (h : ∀ id, p.request = some id → s'.remaining sp id = s.remaining sp id) :
    s'.toil sp p = s.toil sp p := by
  cases p with
  | holding id => rw [Server.toil, Server.toil, h id rfl]
  | preempted id => rw [Server.toil, Server.toil, h id rfl]
  | _ => rfl

theorem worker_lowers {w : Nat} {p p' : Worker} (hw : s.workers[w]? = some p)
    (workers : s'.workers = s.workers.set w p')
    (others : ∀ q ∈ s.workers.set w .exited, s'.toil sp q = s.toil sp q)
    (less : weight (fun id => 4 * s'.remaining sp id + 4) s'.queue + s'.toil sp p' <
      weight (fun id => 4 * s.remaining sp id + 4) s.queue + s.toil sp p)
    (crashed : s'.crashed = s.crashed) (threads : s'.threads = s.threads) (acceptor : s'.acceptor = s.acceptor)
    (main : s'.main = s.main) : s'.ahead sp < s.ahead sp := by
  refine labour_lowers crashed threads acceptor ?_
  have before : weight (s.toil sp) s.workers = _ := weight_rest (z := .exited) _ hw rfl
  have after : weight (s'.toil sp) (s.workers.set w p') = _ := weight_slot (z := .exited) _ hw rfl p'
  rw [weight_congr (s'.toil sp) others] at after
  simp only [Server.labour, workers, main]
  omega

theorem worker_lowers_same {w : Nat} {p p' : Worker} (hw : s.workers[w]? = some p)
    (workers : s'.workers = s.workers.set w p') (remaining : s'.remaining sp = s.remaining sp)
    (less : weight (fun id => 4 * s.remaining sp id + 4) s'.queue + s.toil sp p' <
      weight (fun id => 4 * s.remaining sp id + 4) s.queue + s.toil sp p)
    (crashed : s'.crashed = s.crashed) (threads : s'.threads = s.threads) (acceptor : s'.acceptor = s.acceptor)
    (main : s'.main = s.main) : s'.ahead sp < s.ahead sp := by
  have toil : ∀ q, s'.toil sp q = s.toil sp q := fun q => toil_congr fun id _ => congrFun remaining id
  refine worker_lowers hw workers (fun q _ => toil q) ?_ crashed threads acceptor main
  rw [remaining, toil]
  exact less

theorem worker_lowers_own {w id : Nat} {p p' : Worker} {y : Option Request} (placed : Placement s)
    (hw : s.workers[w]? = some p) (hp : p.request = some id) (workers : s'.workers = s.workers.set w p')
    (heap : s'.heap = Function.update s.heap id y) (less : s'.toil sp p' < s.toil sp p)
    (queue : s'.queue = s.queue) (crashed : s'.crashed = s.crashed) (threads : s'.threads = s.threads)
    (acceptor : s'.acceptor = s.acceptor) (main : s'.main = s.main) : s'.ahead sp < s.ahead sp := by
  have single := placed.single id
  have cleared := tally_set Worker.request id hw .exited
  simp only [Server.places] at single
  rw [hp, hit_self, show Worker.request .exited = none from rfl, hit_none] at cleared
  have unqueued : ∀ x ∈ s.queue, x ≠ id := by
    rintro x hx rfl
    have pos := tally_pos some x hx rfl
    omega
  refine worker_lowers hw workers (fun q hq => toil_congr fun x hx => ?_) ?_ crashed threads acceptor main
  · refine remaining_other heap ?_
    rintro rfl
    have pos := tally_pos Worker.request x hq hx
    omega
  · have same : weight (fun x => 4 * s'.remaining sp x + 4) s.queue = weight (fun x => 4 * s.remaining sp x + 4) s.queue :=
      weight_congr _ fun x hx => by rw [remaining_other heap (unqueued x hx)]
    rw [queue, same]
    omega

theorem remaining_eq {id : Nat} {r : Request} (hr : s.heap id = some r) : s.remaining sp id = r.remaining sp := by
  rw [Server.remaining, hr]
  rfl

theorem sliceDone_lowers {w id : Nat} {r : Request} {o : Round} (placed : Placement s) (up : s.crashed = false)
    (hw : s.workers[w]? = some (.holding id)) (hr : s.heap id = some r)
    (forward : o.value = .ok .preempted → o.state.req.remaining sp < r.remaining sp) :
    (s.sliceDone w id o).ahead sp < s.ahead sp := by
  have slice : s.toil sp (.holding id) = 4 * r.remaining sp + 4 := by rw [Server.toil, remaining_eq hr]
  rcases sliceDone_cases s w id o with ⟨hv, done⟩ | ⟨res, -, -, done⟩ | ⟨e, -, done⟩
  · rw [done]
    refine worker_lowers_own placed hw rfl rfl rfl ?_ rfl rfl rfl rfl rfl
    have less := forward hv
    have after : ((s.afterSlice id o).setWorker w (.preempted id)).remaining sp id = o.state.req.remaining sp :=
      remaining_eq (Function.update_self ..)
    rw [slice, Server.toil, after]
    omega
  · rw [done]
    refine worker_lowers_own placed hw rfl rfl rfl ?_ rfl rfl rfl rfl rfl
    rw [slice]
    exact Nat.le_add_left 4 _
  · rw [done]
    exact crash_lowers up rfl

theorem workerStep_lowers {w : Nat} (provided : Provided s) (placed : Placement s) (up : s.crashed = false)
    (quantum : bounded cfg.sp.policy = true → 0 < cfg.sp.quantum.toNat) (step : workerStep cfg w s = some s') :
    s'.ahead cfg.sp < s.ahead cfg.sp := by
  unfold workerStep at step
  cases hw : s.workers[w]? with
  | none => simp [hw] at step
  | some worker =>
    simp only [hw] at step
    cases worker with
    | asking =>
      by_cases hq : s.queue = []
      · simp only [if_pos hq] at step
        split at step
        · cases step
          exact worker_lowers_same hw rfl rfl (Nat.lt_succ_self _) rfl rfl rfl rfl
        · cases step
      · simp only [if_neg hq] at step
        obtain ⟨id, hid, step⟩ := Option.bind_eq_some_iff.mp step
        obtain ⟨r, hr, rfl⟩ := Option.map_eq_some_iff.mp step
        refine worker_lowers_same hw rfl (remaining_kept hr rfl rfl) ?_ rfl rfl rfl rfl
        have popped := weight_eraseIdx (fun id => 4 * s.remaining cfg.sp id + 4) hid
        simp only [Server.setWorker, Server.setRequest, Server.toil]
        omega
    | holding id =>
      obtain ⟨r, hr, rfl⟩ := Option.map_eq_some_iff.mp step
      have forward : wp (serveOrReport r.clientFd cfg.sp) ⟨r, s.os⟩ _ := serveOrReport_forward (provided.within hr)
      exact sliceDone_lowers placed up hw hr fun hv => forward.lowers hv quantum
    | preempted id =>
      cases step
      refine worker_lowers_same hw rfl rfl ?_ rfl rfl rfl rfl
      simp only [Server.setWorker, weight_append, weight_cons, weight_nil, Server.toil]
      omega
    | served id res =>
      obtain ⟨r, hr, rfl⟩ := Option.map_eq_some_iff.mp step
      exact worker_lowers_same hw rfl (remaining_kept hr rfl rfl) (Nat.lt_succ_self _) rfl rfl rfl rfl
    | recorded id =>
      obtain ⟨r, hr, rfl⟩ := Option.map_eq_some_iff.mp step
      exact worker_lowers_own placed hw rfl rfl rfl (Nat.lt_succ_self 1) rfl rfl rfl rfl rfl
    | exited => cases step

end Lowers

/-- A step that is not the passing of time or the arrival of a signal. -/
def Act.busy : Act → Bool
  | .tick _ | .signal => false
  | _ => true

def Idle (cfg : Config) (s s' : Server) : Prop := ∃ a : Act, a.busy = false ∧ step cfg a s = some s'

def Busy (cfg : Config) (s s' : Server) : Prop := ∃ a : Act, a.busy = true ∧ step cfg a s = some s'

section Able
variable {s s' : Server} {cfg : Config}

theorem Provided.thread (h : Provided s) {k id : Nat} {t : Thread} (hk : s.threads[k]? = some t)
    (ht : t.request = some id) : ∃ r, s.heap id = some r := by
  have pos := tally_pos Thread.request id (List.mem_of_getElem? hk) ht
  exact h.present id (Nat.lt_of_lt_of_le pos (Nat.le_add_left _ _))

theorem Provided.worker (h : Provided s) {w id : Nat} {p : Worker} (hw : s.workers[w]? = some p)
    (hp : p.request = some id) : ∃ r, s.heap id = some r := by
  have pos := tally_pos Worker.request id (List.mem_of_getElem? hw) hp
  refine h.present id ?_
  simp only [Server.places]
  omega

theorem Provided.queued (h : Provided s) {id : Nat} (hid : id ∈ s.queue) : ∃ r, s.heap id = some r := by
  have pos := tally_pos some id hid rfl
  refine h.present id ?_
  simp only [Server.places]
  omega

theorem thread_able (provided : Provided s) {k : Nat} {t : Thread} (hk : s.threads[k]? = some t)
    (ht : t.phase ≠ .gone) : ∃ s', threadStep cfg k s = some s' := by
  obtain ⟨fd, phase⟩ := t
  unfold threadStep
  simp only [hk]
  cases phase with
  | stamping id =>
    obtain ⟨r, hr⟩ := provided.thread hk rfl
    simp only [hr, Option.map_some]
    exact ⟨_, rfl⟩
  | opening id =>
    obtain ⟨r, hr⟩ := provided.thread hk rfl
    simp only [hr, Option.map_some]
    exact ⟨_, rfl⟩
  | gone => exact absurd rfl ht
  | _ => exact ⟨_, rfl⟩

theorem pick_lt (p : Policy) {sizes : List UInt64} (h : sizes ≠ []) : pick p sizes < sizes.length := by
  unfold pick
  split
  · exact (Scheduler.sjfPick_spec h).1
  · exact List.length_pos_iff.mpr h

theorem worker_able (provided : Provided s) {w : Nat} {p : Worker} (hw : s.workers[w]? = some p) (hp : p ≠ .exited)
    (down : s.shuttingDown = true) : ∃ s', workerStep cfg w s = some s' := by
  unfold workerStep
  simp only [hw]
  cases p with
  | asking =>
    by_cases hq : s.queue = []
    · simp only [if_pos hq, if_pos down]
      exact ⟨_, rfl⟩
    · have sizes : s.sizes ≠ [] := by simpa [Server.sizes] using hq
      have lt : pick cfg.sp.policy s.sizes < s.queue.length := by
        have lt := pick_lt cfg.sp.policy sizes
        rwa [show s.sizes.length = s.queue.length from List.length_map _] at lt
      have hid := List.getElem?_eq_getElem lt
      obtain ⟨r, hr⟩ := provided.queued (List.mem_of_getElem? hid)
      simp only [if_neg hq, hid, Option.bind_some, hr, Option.map_some]
      exact ⟨_, rfl⟩
  | holding id =>
    obtain ⟨r, hr⟩ := provided.worker hw rfl
    simp only [hr, Option.map_some]
    exact ⟨_, rfl⟩
  | preempted id => exact ⟨_, rfl⟩
  | served id res =>
    obtain ⟨r, hr⟩ := provided.worker hw rfl
    simp only [hr, Option.map_some]
    exact ⟨_, rfl⟩
  | recorded id =>
    obtain ⟨r, hr⟩ := provided.worker hw rfl
    simp only [hr, Option.map_some]
    exact ⟨_, rfl⟩
  | exited => exact absurd rfl hp

end Able

/-- What holds of the server in every state, as far as the end rests on it. -/
structure Running (s : Server) : Prop where
  orderly : Orderly s
  tended : Tended s
  provided : Provided s
  closing : Closing s

structure Ending (s : Server) : Prop extends Running s where
  closed : s.listening = false

section Run
variable {cfg : Config} {s s' : Server}

theorem Running.step (h : Running s) (up : s.crashed = false) (step : Step cfg s s') : Running s' where
  orderly := ⟨h.orderly.placement.step step, h.orderly.connections.step step,
    h.orderly.handed.step h.orderly.placement step, h.orderly.stages.step step,
    h.orderly.recorded.step h.orderly.handed step⟩
  tended := h.tended.step up step
  provided := h.provided.step h.orderly.placement h.tended.fitting step
  closing := h.closing.step step

theorem closed_step (h : s.listening = false) (step : Step cfg s s') : s'.listening = false := by
  cases step with
  | stopListening => rfl
  | _ => exact h

theorem Ending.next {a : Act} (h : Ending s) (taken : step cfg a s = some s') : Ending s' := by
  obtain ⟨up, step⟩ := step_cases taken
  exact ⟨h.toRunning.step up step, closed_step h.closed step⟩

theorem Ending.idle (h : Ending s) (idle : Idle cfg s s') : Ending s' ∧ s'.ahead cfg.sp = s.ahead cfg.sp := by
  obtain ⟨a, ha, taken⟩ := idle
  refine ⟨h.next taken, ?_⟩
  unfold step at taken
  split at taken
  · cases taken
  · cases a with
    | tick ns =>
      cases taken
      exact ahead_congr rfl rfl rfl rfl rfl rfl rfl
    | signal =>
      cases taken
      exact ahead_congr rfl rfl rfl rfl rfl rfl rfl
    | _ => cases ha

theorem Ending.lowers (h : Ending s) (quantum : bounded cfg.sp.policy = true → 0 < cfg.sp.quantum.toNat)
    (busy : Busy cfg s s') : Ending s' ∧ s'.ahead cfg.sp < s.ahead cfg.sp := by
  obtain ⟨a, ha, taken⟩ := busy
  refine ⟨h.next taken, ?_⟩
  unfold step at taken
  split at taken
  · cases taken
  · rename_i alive
    have up : s.crashed = false := by simpa using alive
    have flag := (h.closing.closed h.closed).1
    cases a with
    | tick => cases ha
    | signal => cases ha
    | admission k => exact threadStep_lowers up taken
    | work w => exact workerStep_lowers h.provided h.orderly.placement up quantum taken
    | main => exact mainStep_lowers taken
    | _ => exact acceptorStep_lowers h.closed flag taken

theorem busy_of {a : Act} (ha : a.busy = true) (able : (step cfg a s).isSome) : ∃ s', Busy cfg s s' := by
  obtain ⟨s', taken⟩ := Option.isSome_iff_exists.mp able
  exact ⟨s', a, ha, taken⟩

theorem busy_main (up : s.crashed = false) (able : (mainStep s).isSome) : ∃ s', Busy cfg s s' := by
  refine busy_of (show Act.main.busy = true from rfl) ?_
  simpa [step, up] using able

theorem busy_acceptor (up : s.crashed = false) (exits : s.acceptor ≠ .exited) : ∃ s', Busy cfg s s' := by
  cases ha : s.acceptor with
  | accepting => exact busy_of (a := .acceptFails) rfl (by simp [step, up, acceptorStep, ha])
  | accepted fd => exact busy_of (a := .count) rfl (by simp [step, up, acceptorStep, ha])
  | counted fd => exact busy_of (a := .spawn) rfl (by simp [step, up, acceptorStep, ha])
  | turningAway fd => exact busy_of (a := .turnAway) rfl (by simp [step, up, acceptorStep, ha])
  | exited => exact absurd ha exits

theorem busy_admission (provided : Provided s) (up : s.crashed = false) {t : Thread} (ht : t ∈ s.threads)
    (alive : t.phase ≠ .gone) : ∃ s', Busy cfg s s' := by
  obtain ⟨k, hk⟩ := List.getElem?_of_mem ht
  obtain ⟨s', taken⟩ := @thread_able s cfg provided k t hk alive
  exact ⟨s', .admission k, rfl, by simpa [step, up] using taken⟩

theorem busy_worker (provided : Provided s) (up : s.crashed = false) {p : Worker} (hp : p ∈ s.workers)
    (alive : p ≠ .exited) (down : s.shuttingDown = true) : ∃ s', Busy cfg s s' := by
  obtain ⟨w, hw⟩ := List.getElem?_of_mem hp
  obtain ⟨s', taken⟩ := @worker_able s cfg provided w p hw alive down
  exact ⟨s', .work w, rfl, by simpa [step, up] using taken⟩

theorem Ending.able (h : Ending s) : (s.crashed = true ∨ s.main = .finished ∧ Drained s) ∨ ∃ s', Busy cfg s s' := by
  have stages := h.orderly.stages
  cases up : s.crashed with
  | true => exact .inl (.inl rfl)
  | false =>
    cases hm : s.main with
    | polling => exact absurd hm (h.closing.closed h.closed).2
    | joiningAcceptor =>
      by_cases ha : s.acceptor = .exited
      · exact .inr (busy_main up (by simp [mainStep, hm, ha]))
      · exact .inr (busy_acceptor up ha)
    | awaitingAdmissions =>
      by_cases gone : ∀ t ∈ s.threads, t.phase = .gone
      · have none : tally Thread.active s.threads () = 0 :=
          tally_eq_zero _ _ fun t ht => by simp [Thread.active, gone t ht]
        have active := stages.active
        rw [none, stages.joined (by rw [hm]; rfl)] at active
        exact .inr (busy_main up (by simp [mainStep, hm, active, Acceptor.active]))
      · push Not at gone
        obtain ⟨t, ht, alive⟩ := gone
        exact .inr (busy_admission h.provided up ht alive)
    | stopping => exact .inr (busy_main up (by simp [mainStep, hm]))
    | joiningWorkers =>
      by_cases exited : ∀ p ∈ s.workers, p = .exited
      · exact .inr (busy_main up (by simpa [mainStep, hm] using exited))
      · push Not at exited
        obtain ⟨p, hp, alive⟩ := exited
        exact .inr (busy_worker h.provided up hp alive (by rw [stages.shut, hm]; rfl))
    | finished => exact .inl (.inr ⟨rfl, h.orderly.drained (h.closing.finished hm)⟩)

end Run

end LinkScheduling
