import LinkScheduling.Conservation

/-! The shutdown and the accounts. The acceptor is joined before the admissions are awaited and
these before the queue is shut down, so that the workers leave nothing behind, and the metrics
have one row for each request that was done. -/

namespace LinkScheduling
open Effect Pools

/-- An admission thread that the counter of active admissions still covers. -/
def Thread.active (t : Thread) : Option Unit := if t.phase = .gone then none else some ()

def Acceptor.active : Acceptor → Option Unit
  | .counted _ => some ()
  | _ => none

namespace Main

def joined : Main → Bool
  | .polling | .joiningAcceptor => false
  | _ => true

def awaited : Main → Bool
  | .stopping | .joiningWorkers | .finished => true
  | _ => false

def shut : Main → Bool
  | .joiningWorkers | .finished => true
  | _ => false

end Main

structure Stages (s : Server) : Prop where
  active : s.active = (tally Thread.active s.threads () : Int) + (hit s.acceptor.active () : Int)
  joined : s.main.joined = true → s.acceptor = .exited
  awaited : s.main.awaited = true → ∀ t ∈ s.threads, t.phase = .gone
  shut : s.shuttingDown = s.main.shut
  exits : Worker.exited ∈ s.workers → s.shuttingDown = true
  staffed : s.workers ≠ []
  drained : (∀ p ∈ s.workers, p = .exited) → s.queue = []

theorem Stages.start (os : Os) {threads : Nat} (h : 0 < threads) : Stages (.start os threads) where
  active := rfl
  joined h := by cases h
  awaited h := by cases h
  shut := rfl
  exits h := by cases List.eq_of_mem_replicate h
  staffed := by
    rw [Server.start, ne_eq, List.replicate_eq_nil_iff]
    omega
  drained _ := rfl

theorem Stages.admitting {s : Server} (h : Stages s) {k : Nat} {t : Thread} (hk : s.threads[k]? = some t)
    (ht : t.phase ≠ .gone) : s.main.awaited = false := by
  by_contra hne
  exact ht (h.awaited (by simpa using hne) t (List.mem_of_getElem? hk))

theorem Main.awaited_of_shut {m : Main} (h : m.shut = true) : m.awaited = true := by
  cases m <;> first | rfl | cases h

theorem Main.joined_of_awaited {m : Main} (h : m.awaited = true) : m.joined = true := by
  cases m <;> first | rfl | cases h

theorem Stages.moved {s s' : Server} (h : Stages s) {k : Nat} {t t' : Thread}
    (hk : s.threads[k]? = some t) (ht : t.phase ≠ .gone) (threads : s'.threads = s.threads.set k t')
    (active : s'.active + hit t.active () = s.active + hit t'.active ())
    (acceptor : s'.acceptor = s.acceptor := by rfl) (main : s'.main = s.main := by rfl)
    (down : s'.shuttingDown = s.shuttingDown := by rfl) (workers : s'.workers = s.workers := by rfl) :
    Stages s' := by
  have admitting := h.admitting hk ht
  have open_ : s.shuttingDown = false := by
    by_contra hne
    rw [h.shut] at hne
    rw [Main.awaited_of_shut (by simpa using hne)] at admitting
    cases admitting
  refine ⟨?_, ?_, ?_, ?_, ?_, ?_, ?_⟩
  · have moved := tally_set Thread.active () hk t'
    have counted := h.active
    rw [threads, acceptor]
    omega
  · rw [acceptor, main]
    exact h.joined
  · rw [main, admitting]
    simp
  · rw [down, main, h.shut]
  · rw [workers, down]
    exact h.exits
  · rw [workers]
    exact h.staffed
  · -- a worker that has exited would have seen the shutdown
    intro exited
    rw [workers] at exited
    obtain ⟨p, hp⟩ := List.exists_mem_of_ne_nil _ h.staffed
    have down := h.exits (exited p hp ▸ hp)
    rw [open_] at down
    cases down

theorem Stages.worked {s s' : Server} (h : Stages s) {w : Nat} {p p' : Worker}
    (hw : s.workers[w]? = some p) (hp : p' ≠ .exited) (workers : s'.workers = s.workers.set w p')
    (threads : s'.threads = s.threads := by rfl) (active : s'.active = s.active := by rfl)
    (acceptor : s'.acceptor = s.acceptor := by rfl) (main : s'.main = s.main := by rfl)
    (down : s'.shuttingDown = s.shuttingDown := by rfl) : Stages s' := by
  have mem : p' ∈ s.workers.set w p' := by
    obtain ⟨hlt, -⟩ := List.getElem?_eq_some_iff.mp hw
    exact List.mem_set hlt p'
  refine ⟨?_, ?_, ?_, ?_, ?_, ?_, ?_⟩
  · rw [active, threads, acceptor, h.active]
  · rw [acceptor, main]
    exact h.joined
  · rw [main, threads]
    exact h.awaited
  · rw [down, main, h.shut]
  · rw [workers, down]
    intro hx
    rcases List.mem_or_eq_of_mem_set hx with hx | hx
    · exact h.exits hx
    · exact absurd hx.symm hp
  · rw [workers]
    exact List.ne_nil_of_mem mem
  · intro exited
    rw [workers] at exited
    exact absurd (exited p' mem) hp

theorem Stages.congr {s s' : Server} (h : Stages s) (a : s'.active = s.active := by rfl)
    (t : s'.threads = s.threads := by rfl) (c : s'.acceptor = s.acceptor := by rfl)
    (m : s'.main = s.main := by rfl) (d : s'.shuttingDown = s.shuttingDown := by rfl)
    (w : s'.workers = s.workers := by rfl) (q : s'.queue = s.queue := by rfl) : Stages s' := by
  refine ⟨?_, ?_, ?_, ?_, ?_, ?_, ?_⟩
  · rw [a, t, c, h.active]
  · rw [m, c]
    exact h.joined
  · rw [m, t]
    exact h.awaited
  · rw [d, m, h.shut]
  · rw [w, d]
    exact h.exits
  · rw [w]
    exact h.staffed
  · rw [w, q]
    exact h.drained

theorem Stages.acceptor {s s' : Server} (h : Stages s) (hs : s.acceptor ≠ .exited)
    (active : s'.active = (tally Thread.active s'.threads () : Int) + (hit s'.acceptor.active () : Int))
    (m : s'.main = s.main := by rfl) (d : s'.shuttingDown = s.shuttingDown := by rfl)
    (w : s'.workers = s.workers := by rfl) (q : s'.queue = s.queue := by rfl) : Stages s' := by
  have running : s.main.joined = false := by
    by_contra hne
    exact hs (h.joined (by simpa using hne))
  have waiting : s.main.awaited = false := by
    by_contra hne
    rw [Main.joined_of_awaited (by simpa using hne)] at running
    cases running
  refine ⟨active, ?_, ?_, ?_, ?_, ?_, ?_⟩
  · rw [m, running]
    simp
  · rw [m, waiting]
    simp
  · rw [d, m, h.shut]
  · rw [w, d]
    exact h.exits
  · rw [w]
    exact h.staffed
  · rw [w, q]
    exact h.drained

theorem Stages.step {cfg : Config} {s s' : Server} (h : Stages s) (step : Step cfg s s') : Stages s' := by
  have counted := h.active
  cases step with
  | accept ha =>
    rw [ha] at counted
    exact h.acceptor (by simp [ha]) counted
  | acceptorExits ha =>
    rw [ha] at counted
    exact h.acceptor (by simp [ha]) counted
  | count ha =>
    rw [ha] at counted
    refine h.acceptor (by simp [ha]) ?_
    simp only [Acceptor.active, hit_none, hit_self] at counted ⊢
    omega
  | spawn ha =>
    rw [ha] at counted
    refine h.acceptor (by simp [ha]) ?_
    simp only [Acceptor.active, Thread.active, tally_append, tally_cons, tally_nil, hit_none, hit_self,
      reduceCtorEq, if_false] at counted ⊢
    omega
  | spawnFails ha =>
    rw [ha] at counted
    refine h.acceptor (by simp [ha]) ?_
    simp only [Acceptor.active, hit_none, hit_self] at counted ⊢
    omega
  | turnAway ha =>
    rw [ha] at counted
    exact h.acceptor (by simp [ha]) counted
  | @read k fd hdr o hk ho hv =>
    refine h.moved hk (by simp) rfl ?_
    have phase : (ruling hdr).phase ≠ .gone := by cases ruling hdr <;> simp [Ruling.phase]
    simp [Thread.active, phase, Server.setPhase, Server.after]
  | depth hk => exact h.moved hk (by simp) rfl rfl
  | answered hk => exact h.moved hk (by simp) rfl rfl
  | number hk => exact h.moved hk (by simp) rfl rfl
  | @stamp k fd id r hk hr =>
    refine h.moved hk (by simp) rfl ?_
    have phase : (if r.op = .get then Phase.opening id else Phase.enqueuing id) ≠ .gone := by split <;> simp
    simp [Thread.active, phase, Server.setPhase, Server.setRequest]
  | opened hk => exact h.moved hk (by simp) rfl rfl
  | notFound hk => exact h.moved hk (by simp) rfl rfl
  | enqueue hk => exact h.moved hk (by simp) rfl rfl
  | leave hk =>
    refine h.moved hk (by simp) rfl ?_
    simp [Thread.active, Server.setPhase]
  | @workerExits w hw hq down =>
    refine ⟨h.active, h.joined, h.awaited, h.shut, fun _ => down, fun hnil => ?_, fun _ => hq⟩
    exact h.staffed (by simpa [Server.setWorker] using hnil)
  | next hw => exact h.worked hw (by simp) rfl
  | preempt hw => exact h.worked hw (by simp) rfl
  | serve hw => exact h.worked hw (by simp) rfl
  | requeue hw => exact h.worked hw (by simp) rfl
  | record hw => exact h.worked hw (by simp) rfl
  | release hw => exact h.worked hw (by simp) rfl
  | stopListening hm =>
    refine ⟨h.active, fun hj => (by cases hj), fun hj => (by cases hj), ?_, h.exits, h.staffed, h.drained⟩
    rw [h.shut, hm]
    rfl
  | acceptorJoined hm ha =>
    refine ⟨h.active, fun _ => ha, fun hj => (by cases hj), ?_, h.exits, h.staffed, h.drained⟩
    rw [h.shut, hm]
    rfl
  | admissionsDone hm ha =>
    refine ⟨h.active, fun _ => h.joined (by rw [hm]; rfl), fun _ t ht => ?_, ?_, h.exits, h.staffed, h.drained⟩
    · by_contra hne
      have one := tally_pos Thread.active () (l := s.threads) ht (by simp [Thread.active, hne])
      omega
    · rw [h.shut, hm]
      rfl
  | shutDown hm =>
    refine ⟨h.active, fun _ => h.joined (by rw [hm]; rfl), fun _ => h.awaited (by rw [hm]; rfl), rfl,
      fun _ => rfl, h.staffed, h.drained⟩
  | workersJoined hm =>
    refine ⟨h.active, fun _ => h.joined (by rw [hm]; rfl), fun _ => h.awaited (by rw [hm]; rfl), ?_,
      h.exits, h.staffed, h.drained⟩
    rw [h.shut, hm]
    rfl
  | _ => exact h.congr

/-- The metrics have one row for each request that was done. -/
structure Recorded (s : Server) : Prop where
  rows : ∀ id, tally (fun r : Request => some r.id) s.accounts.rows id + tally Worker.unrecorded s.workers id =
    tally Mark.done s.history id
  ends : ∀ id, tally Mark.last s.history id =
    tally Worker.ended s.workers id + tally Mark.finalise s.history id
  requestsServed : s.accounts.requestsServed = s.accounts.rows.length
  bytesServed : s.accounts.bytesServed = (s.accounts.rows.map Request.bytes).sum

theorem Recorded.start (os : Os) (threads : Nat) : Recorded (.start os threads) := by
  have idle : ∀ (f : Worker → Option Nat), f .asking = none →
      ∀ id, tally f (List.replicate threads Worker.asking) id = 0 := by
    intro f hf id
    exact tally_eq_zero _ _ fun a ha => by rw [List.eq_of_mem_replicate ha, hf]; simp
  exact ⟨fun id => by simp [Server.start, idle Worker.unrecorded rfl],
    fun id => by simp [Server.start, idle Worker.ended rfl], rfl, rfl⟩

theorem Recorded.congr {s s' : Server} (h : Recorded s)
    (u : tally Worker.unrecorded s'.workers = tally Worker.unrecorded s.workers := by rfl)
    (e : tally Worker.ended s'.workers = tally Worker.ended s.workers := by rfl)
    (d : tally Mark.done s'.history = tally Mark.done s.history := by rfl)
    (l : tally Mark.last s'.history = tally Mark.last s.history := by rfl)
    (f : tally Mark.finalise s'.history = tally Mark.finalise s.history := by rfl)
    (a : s'.accounts = s.accounts := by rfl) : Recorded s' :=
  ⟨fun id => by rw [a, u, d, h.rows], fun id => by rw [l, e, f, h.ends], by rw [a, h.requestsServed],
    by rw [a, h.bytesServed]⟩

theorem Recorded.marked {s s' : Server} (h : Recorded s) {m : Mark} (history : s'.history = s.history ++ [m])
    (d : m.done = none := by rfl) (l : m.last = none := by rfl) (f : m.finalise = none := by rfl)
    (w : s'.workers = s.workers := by rfl) (a : s'.accounts = s.accounts := by rfl) : Recorded s' := by
  refine h.congr (by rw [w]) (by rw [w]) ?_ ?_ ?_ a <;> rw [history, tally_mark _ _ (by assumption)]

theorem Recorded.step {cfg : Config} {s s' : Server} (h : Recorded s) (handed : Handed s)
    (step : Step cfg s s') : Recorded s' := by
  cases step with
  | accept => exact h.marked rfl
  | turnAway => exact h.marked rfl
  | answered => exact h.marked rfl
  | number => exact h.marked rfl
  | opened => exact h.marked rfl
  | enqueue => exact h.marked rfl
  | workerExits hw => exact h.congr (u := tally_move _ hw rfl) (e := tally_move _ hw rfl)
  | next hw => exact h.congr (u := tally_move _ hw rfl) (e := tally_move _ hw rfl)
  | @preempt w id r o hw hr ho hv =>
    exact h.congr (u := tally_move _ hw rfl) (e := tally_move _ hw rfl)
      (d := tally_slice _ _ (fun _ => rfl) (by rw [hv]; rfl))
      (l := tally_slice _ _ (fun _ => rfl) (by rw [hv]; rfl)) (f := tally_slice _ _ (fun _ => rfl) rfl)
  | @serve w id r res o hw hr ho hv final =>
    have unrecorded := fun x => tally_set Worker.unrecorded x hw (.served id res)
    have ended := fun x => tally_set Worker.ended x hw (.served id res)
    refine ⟨fun x => ?_, fun x => ?_, h.requestsServed, h.bytesServed⟩
    · have rows := h.rows x
      have moved := unrecorded x
      simp only [Server.setWorker, Server.afterSlice, tally_append, sliceMarks_tally Mark.done fun _ => rfl, hv]
      cases res with
      | preempted => exact absurd rfl final
      | _ => simp only [Worker.unrecorded, Mark.done, hit_none] at moved ⊢; omega
    · have ends := h.ends x
      have moved := ended x
      simp only [Server.setWorker, Server.afterSlice, tally_append, sliceMarks_tally Mark.last fun _ => rfl,
        sliceMarks_tally Mark.finalise fun _ => rfl, hv]
      cases res with
      | preempted => exact absurd rfl final
      | _ => simp only [Worker.ended, Mark.last, Mark.finalise, hit_none] at moved ⊢; omega
  | @sliceCrash w id r e o hw hr ho hv =>
    exact h.congr (d := tally_slice _ _ (fun _ => rfl) (by rw [hv]; rfl))
      (l := tally_slice _ _ (fun _ => rfl) (by rw [hv]; rfl)) (f := tally_slice _ _ (fun _ => rfl) rfl)
  | requeue hw => exact h.congr (u := tally_move _ hw rfl) (e := tally_move _ hw rfl)
  | @record w id res r r' hw hr heq =>
    have unrecorded := fun x => tally_set Worker.unrecorded x hw (.recorded id)
    have ended : tally Worker.ended (s.workers.set w (.recorded id)) = tally Worker.ended s.workers :=
      tally_move _ hw rfl
    have named : r'.id = id := by
      rw [heq]
      exact (handed.ids hr :)
    refine ⟨fun x => ?_, fun x => ?_, ?_, ?_⟩
    · have rows := h.rows x
      have moved := unrecorded x
      simp only [Server.setWorker, Server.setRequest, Accounts.record]
      cases res with
      | done =>
        simp only [if_true, tally_append, tally_cons, tally_nil, named]
        simp only [Worker.unrecorded, hit_none] at moved
        omega
      | _ =>
        simp only [reduceCtorEq, if_false]
        simp only [Worker.unrecorded, hit_none] at moved
        omega
    · exact ended ▸ h.ends x
    · simp only [Server.setWorker, Server.setRequest, Accounts.record]
      split
      · simp [h.requestsServed]
      · exact h.requestsServed
    · simp only [Server.setWorker, Server.setRequest, Accounts.record]
      split
      · simp [h.bytesServed]
      · exact h.bytesServed
  | @release w id r o hw hr ho =>
    have ended := fun x => tally_set Worker.ended x hw .asking
    refine ⟨fun x => ?_, fun x => ?_, h.requestsServed, h.bytesServed⟩
    · have unrecorded : tally Worker.unrecorded (s.workers.set w .asking) = tally Worker.unrecorded s.workers :=
        tally_move _ hw rfl
      have done : tally Mark.done (s.history ++ [.finalised id r.clientFd]) = tally Mark.done s.history :=
        tally_mark _ _ rfl
      have rows := h.rows x
      rwa [← unrecorded, ← done] at rows
    · have ends := h.ends x
      have moved := ended x
      simp only [Server.mark, Server.setWorker, Server.released, tally_append, tally_cons, tally_nil,
        Mark.last, Mark.finalise, hit_none]
      simp only [Worker.ended, hit_none] at moved
      omega
  | _ => exact h.congr

structure Orderly (s : Server) : Prop where
  placement : Placement s
  connections : Connections s
  handed : Handed s
  stages : Stages s
  recorded : Recorded s

def Server.enqueued (s : Server) : List Nat := s.history.filterMap Mark.enqueue

/-- The enqueued requests that no worker holds and that are not finalised. -/
def Server.waiting (s : Server) : List Nat :=
  s.enqueued.filter fun id =>
    tally Worker.request s.workers id = 0 ∧ tally Mark.finalise s.history id = 0

/-- No enqueued request is lost or duplicated, and none is enqueued once the shutdown of the
scheduler has begun. -/
structure Conserved (cfg : Config) (s : Server) : Prop where
  nodup : s.enqueued.Nodup
  place : ∀ id, tally some s.queue id + tally Worker.request s.workers id +
    tally Mark.finalise s.history id = if id ∈ s.enqueued then 1 else 0
  depth : s.queue.length = s.waiting.length
  closed : s.main = .stopping ∨ s.shuttingDown = true →
    ∀ a s', step cfg a s = some s' → s'.enqueued = s.enqueued

/-- Nothing is left behind: each accepted connection has been closed once, by the acceptor, by
its admission thread or with its request, and the rows are those of the requests done. -/
structure Drained (s : Server) : Prop where
  queue : s.queue = []
  once : (s.history.filterMap Mark.accept).Nodup
  connections : ∀ fd, tally Mark.refuse s.history fd + tally Mark.close s.history fd =
    tally Mark.accept s.history fd
  finals : ∀ id ∈ s.enqueued, tally Mark.last s.history id = 1
  rows : ∀ id, tally (fun r : Request => some r.id) s.accounts.rows id = tally Mark.done s.history id
  failed : ∀ id, .slice id (.ok .failed) ∈ s.history → ∀ r ∈ s.accounts.rows, r.id ≠ id
  owners : ∀ r ∈ s.accounts.rows, ∃ fd, .enqueued r.id fd ∈ s.history ∧ tally Mark.refuse s.history fd = 0
  requestsServed : s.accounts.requestsServed = s.accounts.rows.length
  bytesServed : s.accounts.bytesServed = (s.accounts.rows.map Request.bytes).sum

theorem tally_enqueue (s : Server) (id : Nat) : tally Mark.enqueue s.history id = s.enqueued.count id :=
  tally_filterMap _ _ _

theorem Orderly.nodup {s : Server} (h : Orderly s) : s.enqueued.Nodup := by
  refine List.nodup_iff_count_le_one.mpr fun id => ?_
  have once := h.placement.once id
  rw [tally_enqueue] at once
  omega

theorem Orderly.depth {s : Server} (h : Orderly s) : s.queue.Perm s.waiting := by
  refine List.perm_iff_count.mpr fun id => ?_
  have places := h.placement.places id
  have once := List.nodup_iff_count_le_one.mp h.nodup id
  rw [tally_enqueue] at places
  rw [← tally_some]
  by_cases waits : tally Worker.request s.workers id = 0 ∧ tally Mark.finalise s.history id = 0
  · rw [Server.waiting, List.count_filter (by simpa using waits)]
    omega
  · rw [Server.waiting, List.count_eq_zero.mpr fun h => waits (by simpa using (List.mem_filter.mp h).2)]
    omega

theorem enqueued_step {cfg : Config} {s s' : Server} (step : Step cfg s s')
    (gone : ∀ t ∈ s.threads, t.phase = .gone) : s'.enqueued = s.enqueued := by
  have slice : ∀ id (o : Round), (s.history ++ sliceMarks id o).filterMap Mark.enqueue = s.enqueued := by
    intro id o
    unfold sliceMarks
    split <;> simp [Server.enqueued, Mark.enqueue]
  cases step with
  | enqueue hk => cases gone _ (List.mem_of_getElem? hk)
  | accept => simp [Server.enqueued, Server.mark, Mark.enqueue]
  | turnAway => simp [Server.enqueued, Server.mark, Server.after, Mark.enqueue]
  | answered => simp [Server.enqueued, Server.mark, Server.setPhase, Server.after, Mark.enqueue]
  | number => simp [Server.enqueued, Server.mark, Server.setPhase, Server.setRequest, Mark.enqueue]
  | opened => simp [Server.enqueued, Server.mark, Server.setPhase, Server.setRequest, Server.after, Mark.enqueue]
  | release => simp [Server.enqueued, Server.mark, Server.setWorker, Server.released, Mark.enqueue]
  | preempt => exact slice _ _
  | serve => exact slice _ _
  | sliceCrash => exact slice _ _
  | _ => rfl

theorem Orderly.conserved {cfg : Config} {s : Server} (h : Orderly s) : Conserved cfg s where
  nodup := h.nodup
  place id := by
    rw [h.placement.places id, tally_enqueue]
    split
    · exact List.count_eq_one_of_mem h.nodup ‹_›
    · exact List.count_eq_zero.mpr ‹_›
  depth := h.depth.length_eq
  closed down a s' hs := by
    refine enqueued_step (step_cases hs).2 (h.stages.awaited ?_)
    rcases down with hm | down
    · rw [hm]
      rfl
    · exact Main.awaited_of_shut (h.stages.shut ▸ down)

theorem tally_done_le (l : List Mark) (id : Nat) : tally Mark.done l id ≤ tally Mark.last l id := by
  refine tally_mono _ _ fun m b hm => ?_
  unfold Mark.done at hm
  split at hm
  · exact hm
  · cases hm

theorem tally_done_failed (l : List Mark) (id : Nat) (h : .slice id (.ok .failed) ∈ l) :
    tally Mark.done l id + 1 ≤ tally Mark.last l id := by
  obtain ⟨l₁, l₂, rfl⟩ := List.append_of_mem h
  have le₁ := tally_done_le l₁ id
  have le₂ := tally_done_le l₂ id
  simp only [tally_append, tally_cons, Mark.done, Mark.last, hit_none, hit_self]
  omega

def Mark.given : Mark → Option (Nat × Int)
  | .enqueued id fd => some (id, fd)
  | _ => none

def Mark.taken : Mark → Option (Nat × Int)
  | .finalised id fd => some (id, fd)
  | _ => none

theorem given_spec (l : List Mark) : (l.filterMap Mark.given).map Prod.fst = l.filterMap Mark.enqueue ∧
    (l.filterMap Mark.given).map Prod.snd = l.filterMap Mark.handOver := by
  simp only [List.map_filterMap]
  constructor <;> congr 1 <;> funext m <;> cases m <;> rfl

theorem taken_spec (l : List Mark) : (l.filterMap Mark.taken).map Prod.fst = l.filterMap Mark.finalise ∧
    (l.filterMap Mark.taken).map Prod.snd = l.filterMap Mark.close := by
  simp only [List.map_filterMap]
  constructor <;> congr 1 <;> funext m <;> cases m <;> rfl

theorem mem_given {l : List Mark} {id : Nat} {fd : Int} :
    (id, fd) ∈ l.filterMap Mark.given ↔ .enqueued id fd ∈ l := by
  rw [List.mem_filterMap]
  refine ⟨fun ⟨m, hm, hid⟩ => ?_, fun h => ⟨_, h, rfl⟩⟩
  cases m with
  | enqueued id' fd' =>
    cases hid
    exact hm
  | _ => cases hid

theorem mem_taken {l : List Mark} {id : Nat} {fd : Int} :
    (id, fd) ∈ l.filterMap Mark.taken ↔ .finalised id fd ∈ l := by
  rw [List.mem_filterMap]
  refine ⟨fun ⟨m, hm, hid⟩ => ?_, fun h => ⟨_, h, rfl⟩⟩
  cases m with
  | finalised id' fd' =>
    cases hid
    exact hm
  | _ => cases hid

theorem Orderly.taken {s : Server} (h : Orderly s)
    (finals : ∀ id, tally Mark.finalise s.history id = tally Mark.enqueue s.history id) :
    (s.history.filterMap Mark.taken).Perm (s.history.filterMap Mark.given) := by
  have given : ((s.history.filterMap Mark.given).map Prod.fst).Nodup := by
    rw [(given_spec _).1]
    exact h.nodup
  have taken : ((s.history.filterMap Mark.taken).map Prod.fst).Nodup := by
    rw [(taken_spec _).1, List.nodup_iff_count_le_one]
    intro id
    rw [← tally_filterMap, finals, tally_enqueue]
    exact List.nodup_iff_count_le_one.mp h.nodup id
  refine (List.perm_ext_iff_of_nodup (.of_map _ taken) (.of_map _ given)).mpr fun ⟨id, fd⟩ => ?_
  rw [mem_given, mem_taken]
  refine ⟨h.handed.finals, fun enqueued => ?_⟩
  have one := tally_pos Mark.enqueue id enqueued rfl
  obtain ⟨m, hm, hid⟩ := exists_of_tally_pos Mark.finalise id (by rw [finals]; exact one)
  cases m with
  | finalised id' fd' =>
    cases hid
    have same := List.inj_on_of_nodup_map given (mem_given.mpr (h.handed.finals hm)) (mem_given.mpr enqueued) rfl
    cases same
    exact hm
  | _ => cases hid

theorem Orderly.drained {s : Server} (h : Orderly s) (exited : ∀ p ∈ s.workers, p = .exited) : Drained s := by
  have idle : ∀ f : Worker → Option Nat, f .exited = none → ∀ id, tally f s.workers id = 0 := by
    intro f hf id
    exact tally_eq_zero _ _ fun p hp => by rw [exited p hp, hf]; simp
  have queue := h.stages.drained exited
  have shut : s.main.shut = true := by
    obtain ⟨p, hp⟩ := List.exists_mem_of_ne_nil _ h.stages.staffed
    exact h.stages.shut ▸ h.stages.exits (exited p hp ▸ hp)
  have awaited := Main.awaited_of_shut shut
  have finals : ∀ id, tally Mark.finalise s.history id = tally Mark.enqueue s.history id := by
    intro id
    have places := h.placement.places id
    rw [queue, idle _ rfl] at places
    simpa using places
  have ends : ∀ id, tally Mark.last s.history id = tally Mark.enqueue s.history id := by
    intro id
    rw [h.recorded.ends id, idle _ rfl, Nat.zero_add, finals]
  have rows : ∀ id, tally (fun r : Request => some r.id) s.accounts.rows id = tally Mark.done s.history id := by
    intro id
    have rows := h.recorded.rows id
    rwa [idle _ rfl, Nat.add_zero] at rows
  have one : ∀ id, tally Mark.enqueue s.history id ≤ 1 := fun id => by
    have once := h.placement.once id
    omega
  have connections : ∀ fd, tally Mark.refuse s.history fd + tally Mark.handOver s.history fd =
      tally Mark.accept s.history fd := by
    intro fd
    have places := h.connections.places fd
    have gone : tally Thread.connection s.threads fd = 0 := by
      refine tally_eq_zero _ _ fun t ht => ?_
      rw [Thread.connection, h.stages.awaited awaited t ht]
      simp
    rw [gone, h.stages.joined (Main.joined_of_awaited awaited)] at places
    simpa [Acceptor.connection] using places
  refine ⟨queue, ?_, fun fd => ?_, fun id hid => ?_, rows, fun id hf r hr hid => ?_, fun r hr => ?_,
    h.recorded.requestsServed, h.recorded.bytesServed⟩
  · refine List.nodup_iff_count_le_one.mpr fun fd => ?_
    rw [← tally_filterMap]
    exact h.connections.once fd
  · rw [← connections fd, tally_filterMap Mark.close, tally_filterMap Mark.handOver, ← (taken_spec _).2,
      ← (given_spec _).2, ((h.taken finals).map Prod.snd).count_eq]
  · rw [ends, tally_enqueue]
    exact List.count_eq_one_of_mem h.nodup hid
  · have row := tally_pos (fun r : Request => some r.id) id hr (by rw [hid])
    rw [rows id] at row
    have two := tally_done_failed s.history id hf
    have last := one id
    rw [← ends id] at last
    omega
  · have row := tally_pos (fun r : Request => some r.id) r.id hr rfl
    rw [rows r.id] at row
    have le := tally_done_le s.history r.id
    obtain ⟨m, hm, hid⟩ := exists_of_tally_pos Mark.enqueue r.id (l := s.history) (by rw [← ends]; omega)
    cases m with
    | enqueued id fd =>
      cases hid
      refine ⟨fd, hm, ?_⟩
      have handed := tally_pos Mark.handOver fd hm rfl
      have places := connections fd
      have once := h.connections.once fd
      omega
    | _ => cases hid

def uploader (body : Bytes) : Os :=
  { Os.start (Files.single [103] []) [] with
    peer := fun _ _ => ascii "PUT f " ++ decimal body.length ++ [newline] ++ body }

def servedAndStopped : List Act :=
  [.accept, .count, .spawn, .admission 0, .admission 0, .admission 0, .admission 0, .admission 0, .work 0, .work 0, .work 0,
    .work 0, .signal, .main, .acceptFails, .main, .main, .main, .work 0, .main]

end LinkScheduling
