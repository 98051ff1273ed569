import LinkScheduling.Pools
import LinkScheduling.Server

/-! No request and no connection is lost or duplicated. At every moment each enqueued request
is queued, held by one worker, or finalised, and each accepted connection is with the
acceptor, with its admission thread, closed by one of these, or handed over to a request. -/

namespace LinkScheduling
open Effect Pools

def Worker.request : Worker → Option Nat
  | .holding id | .preempted id | .served id _ | .recorded id => some id
  | .asking | .exited => none

def Worker.ended : Worker → Option Nat
  | .served id _ | .recorded id => some id
  | _ => none

def Worker.unrecorded : Worker → Option Nat
  | .served id .done => some id
  | _ => none

def Thread.request (t : Thread) : Option Nat :=
  match t.phase with
  | .stamping id | .opening id | .enqueuing id => some id
  | _ => none

/-- The connection that an admission thread has not closed or handed over. -/
def Thread.connection (t : Thread) : Option Int :=
  match t.phase with
  | .leaving | .gone => none
  | _ => some t.fd

def Acceptor.connection : Acceptor → Option Int
  | .accepted fd | .counted fd | .turningAway fd => some fd
  | .accepting | .exited => none

namespace Mark

def accept : Mark → Option Int
  | .accepted fd => some fd
  | _ => none

/-- The connection that was closed by the acceptor or by its admission thread. -/
def refuse : Mark → Option Int
  | .turnedAway fd | .answered fd => some fd
  | _ => none

def enqueue : Mark → Option Nat
  | .enqueued id _ => some id
  | _ => none

def handOver : Mark → Option Int
  | .enqueued _ fd => some fd
  | _ => none

def finalise : Mark → Option Nat
  | .finalised id _ => some id
  | _ => none

def close : Mark → Option Int
  | .finalised _ fd => some fd
  | _ => none

def last : Mark → Option Nat
  | .slice id (.ok .done) | .slice id (.ok .failed) => some id
  | _ => none

def done : Mark → Option Nat
  | .slice id (.ok .done) => some id
  | _ => none

end Mark

/-- Every enqueued request is in exactly one place. -/
structure Placement (s : Server) : Prop where
  places : ∀ id, tally some s.queue id + tally Worker.request s.workers id +
    tally Mark.finalise s.history id = tally Mark.enqueue s.history id
  once : ∀ id, tally Mark.enqueue s.history id + tally Thread.request s.threads id ≤ 1
  fresh : ∀ id, s.nextId ≤ id →
    tally Mark.enqueue s.history id + tally Thread.request s.threads id = 0

theorem Placement.start (os : Os) (threads : Nat) : Placement (.start os threads) := by
  have idle : ∀ id, tally Worker.request (List.replicate threads Worker.asking) id = 0 :=
    fun id => tally_eq_zero _ _ fun a ha => by rw [List.eq_of_mem_replicate ha]; simp [Worker.request]
  exact ⟨fun id => by simp [Server.start, idle], fun _ => by simp [Server.start],
    fun _ _ => by simp [Server.start]⟩

theorem sliceMarks_tally {β : Type} [DecidableEq β] (f : Mark → Option β)
    (h : ∀ id, f (.installed id) = none) (id : Nat) (o : Round) (b : β) :
    tally f (sliceMarks id o) b = hit (f (.slice id o.value)) b := by
  unfold sliceMarks
  split <;> simp [h]

theorem Placement.congr {s s' : Server} (h : Placement s)
    (q : tally some s'.queue = tally some s.queue := by rfl)
    (w : tally Worker.request s'.workers = tally Worker.request s.workers := by rfl)
    (f : tally Mark.finalise s'.history = tally Mark.finalise s.history := by rfl)
    (e : tally Mark.enqueue s'.history = tally Mark.enqueue s.history := by rfl)
    (t : tally Thread.request s'.threads = tally Thread.request s.threads := by rfl)
    (n : s'.nextId = s.nextId := by rfl) : Placement s' :=
  ⟨fun id => by rw [q, w, f, e, h.places], fun id => by rw [e, t]; exact h.once id,
    fun id hid => by rw [e, t]; exact h.fresh id (n ▸ hid)⟩

theorem tally_mark {β : Type} [DecidableEq β] (f : Mark → Option β) (l : List Mark) {m : Mark}
    (h : f m = none) : tally f (l ++ [m]) = tally f l := by
  funext b
  simp [h]

theorem tally_move {α β : Type} [DecidableEq β] (f : α → Option β) {l : List α} {k : Nat} {x : α}
    (h : l[k]? = some x) {y : α} (same : f y = f x) : tally f (l.set k y) = tally f l :=
  funext fun b => tally_set_same f b h same

theorem tally_slice {β : Type} [DecidableEq β] (f : Mark → Option β) (l : List Mark) {id : Nat}
    {o : Round} (h : ∀ id, f (.installed id) = none) (h' : f (.slice id o.value) = none) :
    tally f (l ++ sliceMarks id o) = tally f l := by
  funext b
  rw [tally_append, sliceMarks_tally f h, h', hit_none, Nat.add_zero]

theorem Placement.take {s : Server} (h : Placement s) {w i id : Nat} (hw : s.workers[w]? = some .asking)
    (hq : s.queue[i]? = some id) : Placement ({ s with queue := s.queue.eraseIdx i }.setWorker w (.holding id)) := by
  refine ⟨fun x => ?_, h.once, h.fresh⟩
  have places := h.places x
  have moved := tally_set Worker.request x hw (.holding id)
  have popped := tally_eraseIdx some x hq
  simp only [Server.setWorker]
  simp only [Worker.request, hit_none] at moved
  omega

theorem Placement.step {cfg : Config} {s s' : Server} (h : Placement s) (step : Step cfg s s') :
    Placement s' := by
  cases step with
  | accept => exact h.congr (f := tally_mark _ _ rfl) (e := tally_mark _ _ rfl)
  | turnAway => exact h.congr (f := tally_mark _ _ rfl) (e := tally_mark _ _ rfl)
  | spawn => exact h.congr (t := funext fun _ => by simp [Thread.request])
  | read hk =>
    refine h.congr (t := tally_move _ hk ?_)
    cases ruling _ <;> rfl
  | depth hk => exact h.congr (t := tally_move _ hk rfl)
  | answered hk => exact h.congr (f := tally_mark _ _ rfl) (e := tally_mark _ _ rfl) (t := tally_move _ hk rfl)
  | @number k fd op filename bytes leftover r hk hr =>
    have threads := fun id => tally_set Thread.request id hk ⟨fd, .stamping s.nextId⟩
    have enqueue : tally Mark.enqueue (s.history ++ [.created r (declared r s.os)]) =
        tally Mark.enqueue s.history := tally_mark _ _ rfl
    refine ⟨fun id => ?_, fun id => ?_, fun id hid => ?_⟩
    · have marked : Placement (s.mark [.created r (declared r s.os)]) :=
        h.congr (f := tally_mark _ _ rfl) (e := enqueue)
      exact marked.places id
    · have moved := threads id
      have once := h.once id
      have fresh := h.fresh id
      simp only [Server.mark, Server.setPhase, Server.setRequest, enqueue]
      simp only [Thread.request, hit_none, hit_some] at moved
      split at moved <;> omega
    · have moved := threads id
      have fresh := h.fresh id
      simp only [Server.mark, Server.setPhase, Server.setRequest, enqueue] at hid ⊢
      simp only [Thread.request, hit_none, hit_some] at moved
      split at moved <;> omega
  | stamp hk hr =>
    refine h.congr (t := tally_move _ hk ?_)
    split <;> rfl
  | opened hk hr ho hv =>
    exact h.congr (f := tally_mark _ _ rfl) (e := tally_mark _ _ rfl) (t := tally_move _ hk rfl)
  | @notFound k fd id r o hk hr ho hv =>
    have threads := fun x => tally_set Thread.request x hk
      ⟨fd, .answering (formatErr (ascii "file not found"))⟩
    refine ⟨h.places, fun x => ?_, fun x hx => ?_⟩
    · have moved := threads x
      have once := h.once x
      simp only [Server.setPhase, Server.setRequest, Server.after]
      simp only [Thread.request, hit_none] at moved
      omega
    · have moved := threads x
      have fresh := h.fresh x hx
      simp only [Server.setPhase, Server.setRequest, Server.after]
      simp only [Thread.request, hit_none] at moved
      omega
  | @enqueue k fd id hk =>
    have threads := fun x => tally_set Thread.request x hk ⟨fd, .leaving⟩
    refine ⟨fun x => ?_, fun x => ?_, fun x hx => ?_⟩
    · have places := h.places x
      simp only [Server.mark, Server.setPhase, tally_append, tally_cons, tally_nil, Mark.finalise,
        Mark.enqueue, hit_none]
      omega
    · have moved := threads x
      have once := h.once x
      simp only [Server.mark, Server.setPhase, tally_append, tally_cons, tally_nil, Mark.enqueue]
      simp only [Thread.request, hit_none] at moved
      omega
    · have moved := threads x
      have fresh := h.fresh x hx
      simp only [Server.mark, Server.setPhase, tally_append, tally_cons, tally_nil, Mark.enqueue]
      simp only [Thread.request, hit_none] at moved
      omega
  | leave hk => exact h.congr (t := tally_move _ hk rfl)
  | workerExits hw => exact h.congr (w := tally_move _ hw rfl)
  | next hw hi hq hr => exact (h.take hw hq).congr
  | preempt hw hr ho hv =>
    exact h.congr (w := tally_move _ hw rfl) (f := tally_slice _ _ (fun _ => rfl) rfl)
      (e := tally_slice _ _ (fun _ => rfl) rfl)
  | serve hw hr ho hv =>
    exact h.congr (w := tally_move _ hw rfl) (f := tally_slice _ _ (fun _ => rfl) rfl)
      (e := tally_slice _ _ (fun _ => rfl) rfl)
  | sliceCrash hw hr ho hv =>
    exact h.congr (f := tally_slice _ _ (fun _ => rfl) rfl) (e := tally_slice _ _ (fun _ => rfl) rfl)
  | @requeue w id hw =>
    refine ⟨fun x => ?_, h.once, h.fresh⟩
    have places := h.places x
    have moved := tally_set Worker.request x hw .asking
    simp only [Server.setWorker, tally_append, tally_cons, tally_nil]
    simp only [Worker.request, hit_none] at moved
    omega
  | record hw hr => exact h.congr (w := tally_move _ hw rfl)
  | @release w id r o hw hr ho =>
    have enqueue : tally Mark.enqueue (s.history ++ [.finalised id r.clientFd]) =
        tally Mark.enqueue s.history := tally_mark _ _ rfl
    refine ⟨fun x => ?_, fun x => ?_, fun x hx => ?_⟩
    · have places := h.places x
      have moved := tally_set Worker.request x hw .asking
      simp only [Server.mark, Server.setWorker, Server.released, tally_append, tally_cons,
        tally_nil, Mark.finalise, Mark.enqueue, hit_none]
      simp only [Worker.request, hit_none] at moved
      omega
    · exact enqueue ▸ h.once x
    · exact enqueue ▸ h.fresh x hx
  | _ => exact h.congr

theorem answer_beyond (fd : Int) (reply : Bytes) : Moves (Beyond fd) (answer fd reply) :=
  .bind (sendAll_beyond fd reply) fun _ => close_beyond fd fd

theorem openRead_beyond (fd : Int) (p : Path) : Moves (Beyond fd) (openRead p) := by
  refine call_beyond fd fun v os => ?_
  cases v with
  | fail => exact refl_of (Beyond fd) os
  | grant most =>
    simp only
    split
    · exact refl_of (Beyond fd) os
    · exact ⟨rfl, fun _ _ => rfl, fun _ _ => rfl, Nat.le_succ _⟩

theorem fstat_beyond (fd n : Int) : Moves (Beyond fd) (fstat n) := by
  refine call_beyond fd fun v os => ?_
  cases v with
  | fail => exact refl_of (Beyond fd) os
  | grant most =>
    simp only
    split <;> exact refl_of (Beyond fd) os

theorem openGet_beyond (fd : Int) (p : Path) : Moves (Beyond fd) (openGet p) := by
  refine .bind (openRead_beyond fd p) fun n => ?_
  cases n with
  | none => exact .pure _
  | some n =>
    refine .bind (fstat_beyond fd n) fun size => ?_
    cases size with
    | none => exact .bind (close_beyond fd n) fun _ => .pure _
    | some size => exact .pure _

theorem nextFd_le {α : Type} {fd : Int} {x : Sys α} {os : Os} {o : Outcome Fault Os Event α}
    (ho : o = x os) (h : Moves (Beyond fd) x) : os.files.nextFd ≤ o.state.files.nextFd := by
  subst ho
  exact (h os).nextFd

theorem nextFd_le_job {α : Type} {fd : Int} {x : Slice α} {j : Job} {o : Outcome Fault Job Event α}
    (ho : o = x j) (h : Moves (Apart fd) x) : j.os.files.nextFd ≤ o.state.os.files.nextFd := by
  subst ho
  exact (h j).os.nextFd

structure Connections (s : Server) : Prop where
  places : ∀ fd, hit s.acceptor.connection fd + tally Thread.connection s.threads fd +
    tally Mark.refuse s.history fd + tally Mark.handOver s.history fd = tally Mark.accept s.history fd
  once : ∀ fd, tally Mark.accept s.history fd ≤ 1
  fresh : ∀ fd : Int, s.os.files.nextFd ≤ fd → tally Mark.accept s.history fd = 0

theorem Connections.start (os : Os) (threads : Nat) : Connections (.start os threads) :=
  ⟨fun _ => by simp [Server.start, Acceptor.connection], fun _ => by simp [Server.start],
    fun _ _ => by simp [Server.start]⟩

theorem Connections.congr {s s' : Server} (h : Connections s)
    (a : s'.acceptor.connection = s.acceptor.connection := by rfl)
    (t : tally Thread.connection s'.threads = tally Thread.connection s.threads := by rfl)
    (r : tally Mark.refuse s'.history = tally Mark.refuse s.history := by rfl)
    (o : tally Mark.handOver s'.history = tally Mark.handOver s.history := by rfl)
    (c : tally Mark.accept s'.history = tally Mark.accept s.history := by rfl)
    (n : s.os.files.nextFd ≤ s'.os.files.nextFd := by exact Nat.le_refl _) : Connections s' :=
  ⟨fun fd => by rw [a, t, r, o, c, h.places], fun fd => by rw [c]; exact h.once fd,
    fun fd hfd => by rw [c]; exact h.fresh fd (by omega)⟩

theorem Connections.slice {s : Server} (h : Connections s) {id : Nat} {o : Round}
    (n : s.os.files.nextFd ≤ o.state.os.files.nextFd) : Connections (s.afterSlice id o) :=
  h.congr (r := tally_slice _ _ (fun _ => rfl) rfl) (o := tally_slice _ _ (fun _ => rfl) rfl)
    (c := tally_slice _ _ (fun _ => rfl) rfl) (n := n)

theorem Connections.refused {s s' : Server} (h : Connections s) {m : Mark} {fd : Int}
    (history : s'.history = s.history ++ [m]) (hm : m.refuse = some fd)
    (other : m.handOver = none ∧ m.accept = none)
    (moved : ∀ x, hit s'.acceptor.connection x + tally Thread.connection s'.threads x + hit (some fd) x =
      hit s.acceptor.connection x + tally Thread.connection s.threads x)
    (n : s.os.files.nextFd ≤ s'.os.files.nextFd) : Connections s' := by
  refine ⟨fun x => ?_, fun x => ?_, fun x hx => ?_⟩
  · have places := h.places x
    have moved := moved x
    rw [history]
    simp only [tally_append, tally_cons, tally_nil, hm, other, hit_none]
    omega
  · have once := h.once x
    simpa [history, other] using once
  · have fresh := h.fresh x (by omega)
    simpa [history, other] using fresh

theorem Connections.step {cfg : Config} {s s' : Server} (h : Connections s) (step : Step cfg s s') :
    Connections s' := by
  cases step with
  | accept ha =>
    have fresh := h.fresh s.os.files.nextFd (Int.le_refl _)
    refine ⟨fun x => ?_, fun x => ?_, fun x hx => ?_⟩
    · have places := h.places x
      simp only [Server.mark, tally_append, tally_cons, tally_nil, Mark.refuse, Mark.handOver,
        Mark.accept, Acceptor.connection, hit_none]
      simp only [ha, Acceptor.connection, hit_none] at places
      omega
    · have once := h.once x
      simp only [Server.mark, tally_append, tally_cons, tally_nil, Mark.accept, hit_some]
      split
      · subst x
        omega
      · omega
    · have new := h.fresh x
      simp only [Server.mark, Files.reserve, tally_append, tally_cons, tally_nil, Mark.accept, hit_some] at hx ⊢
      push_cast at hx
      split
      · omega
      · rw [new (by omega)]
  | acceptorExits ha => exact h.congr (a := by rw [ha]; rfl)
  | count ha => exact h.congr (a := by rw [ha]; rfl)
  | @spawn fd ha =>
    refine ⟨fun x => ?_, h.once, h.fresh⟩
    have places := h.places x
    rw [ha] at places
    simp only [tally_append, tally_cons, tally_nil, Thread.connection, Acceptor.connection, hit_none] at places ⊢
    omega
  | spawnFails ha => exact h.congr (a := by rw [ha]; rfl)
  | @turnAway fd o ha ho =>
    refine h.refused rfl rfl ⟨rfl, rfl⟩ (fun x => ?_) (nextFd_le ho (answer_beyond fd _))
    rw [ha]
    simp only [Server.mark, Server.after, Acceptor.connection, hit_none]
    omega
  | @read k fd hdr o hk ho hv =>
    refine h.congr (t := tally_move _ hk ?_) (n := nextFd_le ho (readHeaderLine_beyond fd _))
    cases ruling hdr <;> rfl
  | depth hk => exact h.congr (t := tally_move _ hk rfl)
  | @answered k fd reply o hk ho =>
    refine h.refused rfl rfl ⟨rfl, rfl⟩ (fun x => ?_) (nextFd_le ho (answer_beyond fd _))
    have moved := tally_set Thread.connection x hk ⟨fd, .leaving⟩
    simp only [Thread.connection, hit_none] at moved
    simp only [Server.mark, Server.setPhase, Server.after]
    omega
  | number hk =>
    exact h.congr (t := tally_move _ hk rfl) (r := tally_mark _ _ rfl) (o := tally_mark _ _ rfl)
      (c := tally_mark _ _ rfl)
  | stamp hk hr =>
    refine h.congr (t := tally_move _ hk ?_)
    split <;> rfl
  | @opened k fd id r n size o hk hr ho hv =>
    exact h.congr (t := tally_move _ hk rfl) (r := tally_mark _ _ rfl) (o := tally_mark _ _ rfl)
      (c := tally_mark _ _ rfl) (n := nextFd_le ho (openGet_beyond fd _))
  | @notFound k fd id r o hk hr ho hv =>
    exact h.congr (t := tally_move _ hk rfl) (n := nextFd_le ho (openGet_beyond fd _))
  | @enqueue k fd id hk =>
    have accept : tally Mark.accept (s.history ++ [.enqueued id fd]) = tally Mark.accept s.history :=
      tally_mark _ _ rfl
    refine ⟨fun x => ?_, fun x => accept ▸ h.once x, fun x hx => accept ▸ h.fresh x hx⟩
    have places := h.places x
    have moved := tally_set Thread.connection x hk ⟨fd, .leaving⟩
    simp only [Thread.connection, hit_none] at moved
    simp only [Server.mark, Server.setPhase, tally_append, tally_cons, tally_nil, Mark.refuse,
      Mark.handOver, Mark.accept, hit_none]
    omega
  | leave hk => exact h.congr (t := tally_move _ hk rfl)
  | @preempt w id r o hw hr ho hv =>
    exact (@Connections.slice s h id o (nextFd_le_job ho (serveOrReport_apart _ _))).congr
  | @serve w id r res o hw hr ho hv =>
    exact (@Connections.slice s h id o (nextFd_le_job ho (serveOrReport_apart _ _))).congr
  | @release w id r o hw hr ho =>
    exact h.congr (r := tally_mark _ _ rfl) (o := tally_mark _ _ rfl) (c := tally_mark _ _ rfl)
      (n := nextFd_le_job ho (finalise_apart r.clientFd))
  | @threadCrash k fd e o hk ho hv => exact h.congr (n := nextFd_le ho (readHeaderLine_beyond fd _))
  | @openCrash k fd id r e o hk hr ho hv => exact h.congr (n := nextFd_le ho (openGet_beyond fd _))
  | @sliceCrash w id r e o hw hr ho hv =>
    exact (@Connections.slice s h id o (nextFd_le_job ho (serveOrReport_apart _ _))).congr
  | _ => exact h.congr

def Bound (s : Server) (id : Nat) (fd : Int) : Prop :=
  .enqueued id fd ∈ s.history ∨ ∃ t ∈ s.threads, t.request = some id ∧ t.fd = fd

structure Handed (s : Server) : Prop where
  ids : ∀ {id r}, s.heap id = some r → r.id = id
  bound : ∀ {id fd r}, Bound s id fd → s.heap id = some r → r.clientFd = fd
  finals : ∀ {id fd}, .finalised id fd ∈ s.history → .enqueued id fd ∈ s.history

theorem Handed.start (os : Os) (threads : Nat) : Handed (.start os threads) where
  ids h := by cases h
  bound _ h := by cases h
  finals h := by cases h

theorem Handed.congr {s s' : Server} (h : Handed s)
    (bound : ∀ {id fd}, Bound s' id fd → Bound s id fd)
    (heap : ∀ {id r'}, s'.heap id = some r' →
      ∃ r, s.heap id = some r ∧ r'.id = r.id ∧ r'.clientFd = r.clientFd)
    (finals : ∀ {id fd}, .finalised id fd ∈ s'.history → .enqueued id fd ∈ s'.history) : Handed s' where
  ids hr := by
    obtain ⟨r, hr, same, -⟩ := heap hr
    rw [same, h.ids hr]
  bound hb hr := by
    obtain ⟨r, hr, -, same⟩ := heap hr
    rw [same, h.bound (bound hb) hr]
  finals := finals

theorem heap_kept {s : Server} {id id' : Nat} {r r₁ r' : Request}
    (h : Function.update s.heap id (some r₁) id' = some r') (hr : s.heap id = some r)
    (hid : r₁.id = r.id) (hfd : r₁.clientFd = r.clientFd) :
    ∃ r, s.heap id' = some r ∧ r'.id = r.id ∧ r'.clientFd = r.clientFd := by
  by_cases same : id' = id
  · subst same
    rw [Function.update_self] at h
    cases h
    exact ⟨r, hr, hid, hfd⟩
  · rw [Function.update_of_ne same] at h
    exact ⟨r', h, rfl, rfl⟩

theorem heap_freed {s : Server} {id id' : Nat} {r' : Request}
    (h : Function.update s.heap id none id' = some r') :
    ∃ r, s.heap id' = some r ∧ r'.id = r.id ∧ r'.clientFd = r.clientFd := by
  by_cases same : id' = id
  · subst same
    rw [Function.update_self] at h
    cases h
  · rw [Function.update_of_ne same] at h
    exact ⟨r', h, rfl, rfl⟩

theorem bound_set {s s' : Server} {id : Nat} {x : Int} (h : Bound s' id x) {k : Nat} {t t' : Thread}
    (hk : s.threads[k]? = some t) (threads : s'.threads = s.threads.set k t') (fd : t'.fd = t.fd)
    (request : t'.request = t.request ∨ t'.request = none)
    (history : ∀ {id fd}, .enqueued id fd ∈ s'.history → .enqueued id fd ∈ s.history) : Bound s id x := by
  rcases h with h | ⟨u, hu, hid, hfd⟩
  · exact .inl (history h)
  · rw [threads] at hu
    rcases List.mem_or_eq_of_mem_set hu with hu | rfl
    · exact .inr ⟨u, hu, hid, hfd⟩
    · refine .inr ⟨t, List.mem_of_getElem? hk, ?_, fd ▸ hfd⟩
      rcases request with request | request
      · rw [← request, hid]
      · rw [request] at hid
        cases hid

theorem bound_same {s s' : Server} {id : Nat} {x : Int} (h : Bound s' id x)
    (threads : s'.threads = s.threads)
    (history : ∀ {id fd}, .enqueued id fd ∈ s'.history → .enqueued id fd ∈ s.history) : Bound s id x := by
  rcases h with h | h
  · exact .inl (history h)
  · exact .inr (threads ▸ h)

theorem mem_sliceMarks {l : List Mark} {id : Nat} {o : Round} {m : Mark}
    (h : m ∈ l ++ sliceMarks id o) (hs : ∀ id v, m ≠ .slice id v) (hi : ∀ id, m ≠ .installed id) : m ∈ l := by
  rcases List.mem_append.mp h with h | h
  · exact h
  · unfold sliceMarks at h
    split at h <;> simp only [List.mem_cons, List.not_mem_nil, or_false] at h
    · exact absurd h (hs _ _)
    · rcases h with h | h
      · exact absurd h (hs _ _)
      · exact absurd h (hi _)

theorem mem_mark {l : List Mark} {m m' : Mark} (h : m ∈ l ++ [m']) (hne : m ≠ m') : m ∈ l := by
  rcases List.mem_append.mp h with h | h
  · exact h
  · exact absurd (List.mem_singleton.mp h) hne

theorem slice_request {fd : Int} {sp : SliceParams} {j : Job} {o : Round} (ho : o = serveOrReport fd sp j) :
    o.state.req.id = j.req.id ∧ o.state.req.clientFd = j.req.clientFd := by
  subst ho
  have fixed := (serveOrReport_apart fd sp j).fixed
  simp only [Request.fixed, Request.mk.injEq] at fixed
  exact ⟨fixed.1, by tauto⟩

theorem Handed.slice {cfg : Config} {s : Server} (h : Handed s) {id : Nat} {r : Request} {o : Round}
    (hr : s.heap id = some r) (ho : o = serveOrReport r.clientFd cfg.sp ⟨r, s.os⟩) :
    Handed (s.afterSlice id o) := by
  have same := slice_request ho
  have history : ∀ {id' fd}, .enqueued id' fd ∈ s.history ++ sliceMarks id o → .enqueued id' fd ∈ s.history :=
    fun h => mem_sliceMarks h (by simp) (by simp)
  refine h.congr (fun hb => bound_same hb rfl history) (fun h => heap_kept h hr same.1 same.2) fun hf => ?_
  exact List.mem_append_left _ (h.finals (mem_sliceMarks hf (by simp) (by simp)))

theorem Placement.held {s : Server} (h : Placement s) {w id : Nat} {p : Worker} (hw : s.workers[w]? = some p)
    (hp : p.request = some id) : ∃ fd, .enqueued id fd ∈ s.history := by
  have held := tally_pos Worker.request id (List.mem_of_getElem? hw) hp
  have places := h.places id
  obtain ⟨m, hm, hid⟩ := exists_of_tally_pos Mark.enqueue id (l := s.history) (by omega)
  cases m with
  | enqueued id' fd =>
    cases hid
    exact ⟨fd, hm⟩
  | _ => cases hid

theorem Handed.step {cfg : Config} {s s' : Server} (h : Handed s) (placed : Placement s)
    (step : Step cfg s s') : Handed s' := by
  have heap : ∀ {id r'}, s.heap id = some r' →
      ∃ r, s.heap id = some r ∧ r'.id = r.id ∧ r'.clientFd = r.clientFd := fun hr => ⟨_, hr, rfl, rfl⟩
  cases step with
  | accept =>
    refine h.congr (fun hb => bound_same hb rfl fun h => mem_mark h (by simp)) heap fun hf => ?_
    exact List.mem_append_left _ (h.finals (mem_mark hf (by simp)))
  | spawn =>
    refine h.congr (fun hb => ?_) heap h.finals
    rcases hb with hb | ⟨t, ht, hid, hfd⟩
    · exact .inl hb
    · rcases List.mem_append.mp ht with ht | ht
      · exact .inr ⟨t, ht, hid, hfd⟩
      · rw [List.mem_singleton.mp ht] at hid
        cases hid
  | turnAway =>
    refine h.congr (fun hb => bound_same hb rfl fun h => mem_mark h (by simp)) heap fun hf => ?_
    exact List.mem_append_left _ (h.finals (mem_mark hf (by simp)))
  | @read k fd hdr o hk =>
    refine h.congr (fun hb => bound_set hb hk rfl rfl (.inr ?_) id) heap h.finals
    cases ruling hdr <;> rfl
  | depth hk => exact h.congr (fun hb => bound_set hb hk rfl rfl (.inr rfl) id) heap h.finals
  | answered hk =>
    refine h.congr (fun hb => bound_set hb hk rfl rfl (.inr rfl) fun h => mem_mark h (by simp)) heap fun hf => ?_
    exact List.mem_append_left _ (h.finals (mem_mark hf (by simp)))
  | @number k fd op filename bytes leftover r hk hr =>
    have new : ∀ fd, ¬ Bound s s.nextId fd := by
      intro fd hb
      have fresh := placed.fresh s.nextId (Nat.le_refl _)
      rcases hb with hb | ⟨t, ht, hid, -⟩
      · have := tally_pos Mark.enqueue s.nextId hb rfl
        omega
      · have := tally_pos Thread.request s.nextId ht hid
        omega
    have split : ∀ {id x}, Bound ((({ s with nextId := s.nextId + 1 }.setRequest s.nextId (some r)).setPhase k fd
        (.stamping s.nextId)).mark [.created r (declared r s.os)]) id x →
        (id = s.nextId ∧ x = fd) ∨ (id ≠ s.nextId ∧ Bound s id x) := by
      intro id x hb
      have old : Bound s id x → id ≠ s.nextId ∧ Bound s id x := fun hb => ⟨fun he => new x (he ▸ hb), hb⟩
      rcases hb with hb | ⟨t, ht, hid, hfd⟩
      · exact .inr (old (.inl (mem_mark hb (by simp))))
      · rcases List.mem_or_eq_of_mem_set ht with ht | rfl
        · exact .inr (old (.inr ⟨t, ht, hid, hfd⟩))
        · cases hid
          exact .inl ⟨rfl, hfd.symm⟩
    refine ⟨fun {id r'} hr' => ?_, fun {id x r'} hb hr' => ?_, fun hf => ?_⟩
    · simp only [Server.mark, Server.setPhase, Server.setRequest] at hr'
      by_cases same : id = s.nextId
      · rw [same, Function.update_self] at hr'
        cases hr'
        rw [hr, same]
        rfl
      · rw [Function.update_of_ne same] at hr'
        exact h.ids hr'
    · simp only [Server.mark, Server.setPhase, Server.setRequest] at hr'
      rcases split hb with ⟨rfl, rfl⟩ | ⟨hne, hb⟩
      · rw [Function.update_self] at hr'
        cases hr'
        rw [hr]
        rfl
      · rw [Function.update_of_ne hne] at hr'
        exact h.bound hb hr'
    · exact List.mem_append_left _ (h.finals (mem_mark hf (by simp)))
  | stamp hk hr =>
    refine h.congr (fun hb => bound_set hb hk rfl rfl (.inl ?_) id) (fun h => heap_kept h hr rfl rfl) h.finals
    split <;> rfl
  | opened hk hr =>
    refine h.congr (fun hb => bound_set hb hk rfl rfl (.inl rfl) fun h => mem_mark h (by simp)) (fun h => heap_kept h hr rfl rfl)
      fun hf => ?_
    exact List.mem_append_left _ (h.finals (mem_mark hf (by simp)))
  | notFound hk => exact h.congr (fun hb => bound_set hb hk rfl rfl (.inr rfl) id) heap_freed h.finals
  | @enqueue k fd id hk =>
    have thread : Bound s id fd := .inr ⟨_, List.mem_of_getElem? hk, rfl, rfl⟩
    refine h.congr (fun {id' x} hb => ?_) heap fun hf => ?_
    · rcases hb with hb | ⟨t, ht, hid, hfd⟩
      · rcases List.mem_append.mp hb with hb | hb
        · exact .inl hb
        · cases List.mem_singleton.mp hb
          exact thread
      · rcases List.mem_or_eq_of_mem_set ht with ht | rfl
        · exact .inr ⟨t, ht, hid, hfd⟩
        · cases hid
    · exact List.mem_append_left _ (h.finals (mem_mark hf (by simp)))
  | leave hk => exact h.congr (fun hb => bound_set hb hk rfl rfl (.inr rfl) id) heap h.finals
  | next hw hi hq hr => exact h.congr (fun hb => bound_same hb rfl id) (fun h => heap_kept h hr rfl rfl) h.finals
  | preempt hw hr ho hv =>
    exact (h.slice hr ho).congr id (fun hr => ⟨_, hr, rfl, rfl⟩) (h.slice hr ho).finals
  | serve hw hr ho hv =>
    exact (h.slice hr ho).congr id (fun hr => ⟨_, hr, rfl, rfl⟩) (h.slice hr ho).finals
  | sliceCrash hw hr ho hv =>
    exact (h.slice hr ho).congr id (fun hr => ⟨_, hr, rfl, rfl⟩) (h.slice hr ho).finals
  | record hw hr heq =>
    exact h.congr (fun hb => bound_same hb rfl id) (fun h => heap_kept h hr (heq ▸ rfl) (heq ▸ rfl)) h.finals
  | @release w id r o hw hr ho =>
    obtain ⟨fd, enqueued⟩ := placed.held hw rfl
    refine h.congr (fun hb => bound_same hb rfl fun h => mem_mark h (by simp)) heap_freed fun hf => ?_
    refine List.mem_append_left _ ?_
    rcases List.mem_append.mp hf with hf | hf
    · exact h.finals hf
    · cases List.mem_singleton.mp hf
      rwa [h.bound (.inl enqueued) hr]
  | _ => exact h.congr (fun hb => bound_same hb rfl id) heap h.finals

end LinkScheduling
